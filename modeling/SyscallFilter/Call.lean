import SyscallFilter.Field
import SyscallFilter.Hex
import SyscallFilter.Word

/-! One system call, as a filter sees it. -/
namespace SyscallFilter

/-- The six argument values of a call. -/
abbrev Args := Vector UInt64 6

namespace Args

/-- The same value for every argument. -/
def replicate (value : UInt64) : Args :=
  Vector.replicate 6 value

/-- The arguments in hexadecimal, in brackets. -/
def text (args : Args) : String :=
  "[" ++ ", ".intercalate (args.toList.map fun arg => hex arg.toNat) ++ "]"

end Args

/-- The record a program reads its words from. -/
structure Call where
  nr : Int32
  arch : UInt32
  instructionPointer : UInt64
  args : Args
  deriving DecidableEq

namespace Call

/-- The call of number `word`, as the program sees it, made from address 0. -/
def ofWord (word arch : UInt32) (args : Args) : Call where
  nr := word.toInt32
  arch := arch
  instructionPointer := 0
  args := args

/-- The value of one word of the record. There is no argument past the sixth,
and its words read as 0. -/
def word (call : Call) : Field → UInt32
  | .nr => call.nr.toUInt32
  | .arch => call.arch
  | .ipLow => lowWord call.instructionPointer
  | .ipHigh => highWord call.instructionPointer
  | .argLow index => lowWord (call.args[index]?.getD 0)
  | .argHigh index => highWord (call.args[index]?.getD 0)

/-- The sixteen words in the order of their offsets. -/
def words (call : Call) : List UInt32 :=
  (List.range 16).filterMap fun i => (Field.ofOffset? (4 * UInt32.ofNat i)).map call.word

theorem word_ofWord_nr (w arch : UInt32) (args : Args) : (ofWord w arch args).word .nr = w := rfl

end Call

end SyscallFilter
