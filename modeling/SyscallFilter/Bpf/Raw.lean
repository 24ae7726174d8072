import SyscallFilter.Bpf.Opcode

/-! Instructions as they are stored: four fields, or one 64-bit word.

In a word the operation code takes the lowest sixteen bits, the two jump
distances a byte each, and the operand the upper half. -/
namespace SyscallFilter.Bpf

structure RawInstruction where
  code : UInt16
  /-- Distance jumped if a comparison holds. -/
  jt : UInt8
  /-- Distance jumped if it does not. -/
  jf : UInt8
  k : UInt32
  deriving DecidableEq, Repr

namespace RawInstruction

/-- An instruction that does not branch. -/
def plain (op : Opcode) (k : UInt32) : RawInstruction :=
  ⟨op.code, 0, 0, k⟩

/-- A comparison with the distances to jump. -/
def branch (test : Test) (k : UInt32) (jt jf : UInt8) : RawInstruction :=
  ⟨(Opcode.branch test).code, jt, jf, k⟩

def toWord (raw : RawInstruction) : UInt64 :=
  raw.code.toUInt64 ||| raw.jt.toUInt64 <<< 16 ||| raw.jf.toUInt64 <<< 24 ||| raw.k.toUInt64 <<< 32

def ofWord (word : UInt64) : RawInstruction where
  code := word.toUInt16
  jt := (word >>> 16).toUInt8
  jf := (word >>> 24).toUInt8
  k := (word >>> 32).toUInt32

end RawInstruction

/-- A program before it is loaded. -/
abbrev RawProgram := List RawInstruction

namespace RawProgram

def toWords (program : RawProgram) : List UInt64 :=
  program.map RawInstruction.toWord

def ofWords (words : List UInt64) : RawProgram :=
  words.map RawInstruction.ofWord

end RawProgram

end SyscallFilter.Bpf
