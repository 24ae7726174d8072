import SyscallFilter.Bpf.Fault
import SyscallFilter.Bpf.Raw
import SyscallFilter.Call

/-! Decoded instructions and what one of them does.

Decoding checks everything about an instruction that does not depend on the
rest of the program: the operation, the offset of a load, the operand of a
division or shift, and that jumps stay inside the program. Jump distances
become absolute targets. -/
namespace SyscallFilter.Bpf

inductive Instruction where
  | load (field : Field)
  | alu (op : AluOp) (k : UInt32)
  | jump (target : Nat)
  | branch (test : Test) (k : UInt32) (jt jf : Nat)
  | ret (value : UInt32)
  deriving DecidableEq, Repr

/-- The largest index a fault can report; targets past it are reported as it. -/
def maxIndex : Nat := 0xffffffffffffffff

/-- Where a jump by `distance` lands. Distances count from the next instruction. -/
def jumpTarget (pc distance length : Nat) : Except Fault Nat :=
  let target := min (pc + 1 + distance) maxIndex
  if target < length then .ok target else .error (.jumpOutOfRange pc target length)

/-- Arithmetic that has no result for the operand is refused. -/
def AluOp.check (op : AluOp) (k : UInt32) (pc : Nat) : Except Fault Unit :=
  match op with
  | .div | .mod => if k = 0 then .error (.divisionByZero pc) else .ok ()
  | .lsh | .rsh => if k < 32 then .ok () else .error (.invalidShift k pc)
  | _ => .ok ()

namespace Instruction

/-- Decodes the instruction at index `pc` of a program of the given length. -/
def decode (raw : RawInstruction) (pc length : Nat) : Except Fault Instruction :=
  match Opcode.ofCode? raw.code with
  | none => .error (.unsupportedOpcode raw.code pc)
  | some .load =>
    match Field.ofOffset? raw.k with
    | some field => .ok (.load field)
    | none => .error (.invalidLoadOffset raw.k pc)
  | some (.alu op) => do
    op.check raw.k pc
    return .alu op raw.k
  | some .jump => do
    return .jump (← jumpTarget pc raw.k.toNat length)
  | some (.branch test) => do
    let jt ← jumpTarget pc raw.jt.toNat length
    let jf ← jumpTarget pc raw.jf.toNat length
    return .branch test raw.k jt jf
  | some .ret => .ok (.ret raw.k)

/-- An instruction in listings. -/
def text : Instruction → String
  | load field => s!"Load({field.text})"
  | alu op k => "Alu \x7b op: " ++ op.text ++ s!", k: {k.toNat} " ++ "\x7d"
  | jump target => s!"Jump({target})"
  | branch test k jt jf =>
    "Branch \x7b cond: " ++ test.text ++ s!", k: {k.toNat}, jt: {jt}, jf: {jf} " ++ "\x7d"
  | ret value => s!"Return({value.toNat})"

end Instruction

/-- The state of a run before an instruction. -/
structure State where
  pc : Nat
  acc : UInt32
  deriving DecidableEq, Repr

/-- Runs begin at the first instruction, with an empty accumulator. -/
def State.start : State := ⟨0, 0⟩

/-- What an instruction leads to. -/
inductive Next where
  | goes (state : State)
  | returns (value : UInt32)
  deriving DecidableEq, Repr

@[inline] def Instruction.step (call : Call) (instruction : Instruction) (state : State) : Next :=
  match instruction with
  | .load field => .goes ⟨state.pc + 1, call.word field⟩
  | .alu op k => .goes ⟨state.pc + 1, op.apply state.acc k⟩
  | .jump target => .goes ⟨target, state.acc⟩
  | .branch test k jt jf => .goes ⟨if test.holds state.acc k then jt else jf, state.acc⟩
  | .ret value => .returns value

end SyscallFilter.Bpf
