/-! What happens to a system call.

A filter program answers with a 32-bit return code: the upper half selects an
action, the lower half is data that only `errno` and `trace` keep. Every action
is recovered from its code (`ofCode_code`); a code that selects no action kills
the process. -/
namespace SyscallFilter

inductive Action where
  | allow
  /-- The call fails with this error number. -/
  | errno (number : UInt16)
  | killThread
  | killProcess
  /-- The call goes through and is logged. -/
  | log
  /-- The tracer of the process is told, with this number. -/
  | trace (number : UInt16)
  | trap
  /-- A supervisor in user space answers the call. -/
  | userNotif
  deriving DecidableEq, Repr

namespace Action

/-- The return code a program answers with. -/
def code : Action → UInt32
  | allow => 0x7fff0000
  | errno number => 0x00050000 ||| number.toUInt32
  | killThread => 0x00000000
  | killProcess => 0x80000000
  | log => 0x7ffc0000
  | trace number => 0x7ff00000 ||| number.toUInt32
  | trap => 0x00030000
  | userNotif => 0x7fc00000

/-- The action a return code stands for. -/
def ofCode (code : UInt32) : Action :=
  let selected := code >>> 16
  if selected = 0x7fff then allow
  else if selected = 0x0005 then errno code.toUInt16
  else if selected = 0x0000 then killThread
  else if selected = 0x7ffc then log
  else if selected = 0x7ff0 then trace code.toUInt16
  else if selected = 0x0003 then trap
  else if selected = 0x7fc0 then userNotif
  else killProcess

/-- The name of the action, without its number. -/
def name : Action → String
  | allow => "allow"
  | errno _ => "errno"
  | killThread => "kill_thread"
  | killProcess => "kill_process"
  | log => "log"
  | trace _ => "trace"
  | trap => "trap"
  | userNotif => "user_notif"

/-- The number that `errno` and `trace` carry. -/
def number? : Action → Option UInt16
  | errno number | trace number => some number
  | _ => none

/-- The text of an action in messages: its name, with its number in brackets. -/
def text (action : Action) : String :=
  match action.number? with
  | some number => action.name ++ "(" ++ toString number.toNat ++ ")"
  | none => action.name

/-- The action of this name that carries no number. -/
def ofName? (name : String) : Option Action :=
  [allow, killThread, killProcess, log, trap, userNotif].find? (·.name == name)

/-- The action of this name that carries `number`. -/
def ofNumbered? (name : String) (number : UInt16) : Option Action :=
  [errno number, trace number].find? (·.name == name)

/-- The upper half of a code built from an upper half and sixteen data bits. -/
theorem shiftRight_selector (upper : UInt32) (number : UInt16) (h : upper.toNat < 0x10000) :
    (upper <<< 16 ||| number.toUInt32) >>> 16 = upper := by
  have hn := number.toNat_lt
  apply UInt32.toNat_inj.1
  have hs : upper.toNat <<< 16 % 0x100000000 = upper.toNat <<< 16 := by
    rw [Nat.shiftLeft_eq]
    omega
  simp only [UInt32.toNat_shiftRight, UInt32.toNat_or, UInt32.toNat_shiftLeft,
    UInt16.toNat_toUInt32]
  rw [show (16 : UInt32).toNat % 32 = 16 from rfl, hs, ← Nat.shiftLeft_add_eq_or_of_lt hn,
    Nat.shiftLeft_eq, Nat.shiftRight_eq_div_pow]
  omega

/-- The data bits of a code built from an upper half and sixteen data bits. -/
theorem toUInt16_selector (upper : UInt32) (number : UInt16) (h : upper.toNat < 0x10000) :
    (upper <<< 16 ||| number.toUInt32).toUInt16 = number := by
  have hn := number.toNat_lt
  apply UInt16.toNat_inj.1
  have hs : upper.toNat <<< 16 % 0x100000000 = upper.toNat <<< 16 := by
    rw [Nat.shiftLeft_eq]
    omega
  simp only [UInt32.toNat_toUInt16, UInt32.toNat_or, UInt32.toNat_shiftLeft, UInt16.toNat_toUInt32]
  rw [show (16 : UInt32).toNat % 32 = 16 from rfl, hs, ← Nat.shiftLeft_add_eq_or_of_lt hn,
    Nat.shiftLeft_eq]
  omega

/-- Every action is recovered from its return code. -/
theorem ofCode_code (action : Action) : ofCode action.code = action := by
  cases action with
  | errno number =>
    have hs : (0x00050000 ||| number.toUInt32) >>> 16 = 0x0005 :=
      shiftRight_selector 0x0005 number (by decide)
    have hd : (0x00050000 ||| number.toUInt32).toUInt16 = number :=
      toUInt16_selector 0x0005 number (by decide)
    simp [ofCode, code, hs, hd]
  | trace number =>
    have hs : (0x7ff00000 ||| number.toUInt32) >>> 16 = 0x7ff0 :=
      shiftRight_selector 0x7ff0 number (by decide)
    have hd : (0x7ff00000 ||| number.toUInt32).toUInt16 = number :=
      toUInt16_selector 0x7ff0 number (by decide)
    simp [ofCode, code, hs, hd]
  | _ => decide

end Action

end SyscallFilter
