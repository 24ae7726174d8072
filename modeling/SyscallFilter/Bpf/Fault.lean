import SyscallFilter.Hex

/-! What can be wrong with a program, and with a run of it. -/
namespace SyscallFilter.Bpf

/-- The longest program that can be loaded. -/
def maxLength : Nat := 4096

/-- Instructions are named by their index `pc` in the program. -/
inductive Fault where
  | emptyProgram
  | programTooLong (length : Nat)
  | unsupportedOpcode (code : UInt16) (pc : Nat)
  /-- A load from outside the call record, or across two of its words. -/
  | invalidLoadOffset (offset : UInt32) (pc : Nat)
  | jumpOutOfRange (pc target length : Nat)
  | divisionByZero (pc : Nat)
  | invalidShift (shift : UInt32) (pc : Nat)
  /-- A run could fall off the end of the program. -/
  | missingReturn
  /-- The only fault of a run: more instructions than it may execute. -/
  | limitExceeded (limit : Nat)
  deriving DecidableEq, Repr

def Fault.message : Fault → String
  | emptyProgram => "The BPF program is empty."
  | programTooLong length =>
    s!"The BPF program has {length} instructions, more than the maximum of {maxLength}."
  | unsupportedOpcode code pc =>
    s!"Unknown or unsupported BPF opcode {hex4 code.toNat} at instruction {pc}."
  | invalidLoadOffset offset pc =>
    s!"Invalid seccomp_data offset {offset.toNat} loaded at instruction {pc}."
  | jumpOutOfRange pc target length =>
    s!"Jump at instruction {pc} targets instruction {target}, " ++
      s!"outside of the {length} instructions long program."
  | divisionByZero pc => s!"Division by zero at instruction {pc}."
  | invalidShift shift pc => s!"Invalid shift by {shift.toNat} bits at instruction {pc}."
  | missingReturn => "The last instruction of the BPF program is not a return."
  | limitExceeded limit => s!"Instruction limit of {limit} exceeded."

end SyscallFilter.Bpf
