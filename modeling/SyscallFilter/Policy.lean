import SyscallFilter.Action
import SyscallFilter.Architecture
import SyscallFilter.Call

/-! What a filter is supposed to do, asked directly instead of through a program.

A policy is any way to answer these questions; nothing is assumed about how the
answers hang together. -/
namespace SyscallFilter

/-- Why a policy has no answer for a system call. -/
inductive PolicyError where
  | unknownSyscall (number : Int)
  | evaluation (number : Int) (reason : String)
  deriving DecidableEq, Repr

def PolicyError.message : PolicyError → String
  | unknownSyscall number => s!"The policy has no rules for syscall {number}."
  | evaluation number reason => s!"The policy cannot evaluate syscall {number}: {reason}"

structure Policy where
  /-- The numbers the policy has rules for, in the order they are to be checked. -/
  syscalls : List Int
  evaluate : Int → Args → Except PolicyError Action
  /-- The action for every number that is not listed. -/
  defaultAction : Action
  architecture : Architecture
  /-- The action for calls of any other architecture. -/
  mismatchAction : Action := .killProcess
  /-- Values that the rules of a number compare the argument of this index with. They
  only help to choose calls that are worth checking. -/
  constants : Int → Nat → List UInt64 := fun _ _ => []
  name? : Int → Option String := fun _ => none

end SyscallFilter
