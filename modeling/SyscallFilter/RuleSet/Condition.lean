import SyscallFilter.Call

/-! Conditions on one argument of a call. -/
namespace SyscallFilter

/-- How much of an argument is compared: its low word, or all of it. -/
inductive Width where
  | dword
  | qword
  deriving DecidableEq, Repr

def Width.mask : Width → UInt64
  | dword => 0xffffffff
  | qword => 0xffffffffffffffff

inductive Comparison where
  | eq | ne | ge | gt | le | lt
  /-- Equality on the bits of the mask. -/
  | maskedEq (mask : UInt64)
  deriving DecidableEq, Repr

/-- Compares the argument of an index with a value. -/
structure Condition where
  index : Nat
  width : Width
  comparison : Comparison
  value : UInt64
  deriving DecidableEq, Repr

namespace Condition

/-- Whether there is such an argument. -/
def wellIndexed (condition : Condition) : Bool :=
  condition.index < 6

/-- Argument, value and mask are cut to the width, then compared as unsigned numbers.
Without an argument of the index nothing holds. -/
def holds (condition : Condition) (args : Args) : Bool :=
  match args[condition.index]? with
  | none => false
  | some argument =>
    let width := condition.width.mask
    let arg := argument &&& width
    let value := condition.value &&& width
    match condition.comparison with
    | .eq => arg = value
    | .ne => arg ≠ value
    | .ge => value ≤ arg
    | .gt => value < arg
    | .le => arg ≤ value
    | .lt => arg < value
    | .maskedEq mask => arg &&& (mask &&& width) = value &&& (mask &&& width)

/-- The values that decide the condition. A mask is one of them. -/
def constants (condition : Condition) : List UInt64 :=
  let width := condition.width.mask
  match condition.comparison with
  | .maskedEq mask => [condition.value &&& (mask &&& width), mask &&& width]
  | _ => [condition.value &&& width]

end Condition

end SyscallFilter
