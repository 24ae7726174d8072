/-! The operations of the filter machine.

The machine has one 32-bit accumulator. A program loads words of the call
record into it, combines it with constants, compares it with constants and
finally returns a constant. `Opcode` lists everything the machine can do; any
other operation code is refused when a program is loaded. -/
namespace SyscallFilter.Bpf

/-- Arithmetic on the accumulator with a constant operand. -/
inductive AluOp where
  | add | sub | mul | div | mod | or | and | xor | lsh | rsh | neg
  deriving DecidableEq, Repr

namespace AluOp

def all : List AluOp := [add, sub, mul, div, mod, or, and, xor, lsh, rsh, neg]

/-- The operation code of the instruction with a constant operand. -/
def code : AluOp → UInt16
  | add => 0x04
  | sub => 0x14
  | mul => 0x24
  | div => 0x34
  | or => 0x44
  | and => 0x54
  | lsh => 0x64
  | rsh => 0x74
  | neg => 0x84
  | mod => 0x94
  | xor => 0xa4

/-- The new accumulator, modulo 2^32. Division by 0 and shifts past the word give 0;
`neg` has no use for the operand. -/
def apply (op : AluOp) (acc k : UInt32) : UInt32 :=
  match op with
  | add => acc + k
  | sub => acc - k
  | mul => acc * k
  | div => if k = 0 then 0 else acc / k
  | mod => if k = 0 then 0 else acc % k
  | or => acc ||| k
  | and => acc &&& k
  | xor => acc ^^^ k
  | lsh => if k < 32 then acc <<< k else 0
  | rsh => if k < 32 then acc >>> k else 0
  | neg => 0 - acc

def text : AluOp → String
  | add => "Add"
  | sub => "Sub"
  | mul => "Mul"
  | div => "Div"
  | mod => "Mod"
  | or => "Or"
  | and => "And"
  | xor => "Xor"
  | lsh => "Lsh"
  | rsh => "Rsh"
  | neg => "Neg"

end AluOp

/-- Comparison of the accumulator with a constant. -/
inductive Test where
  | eq | gt | ge
  /-- Some bit of the constant is set. -/
  | set
  deriving DecidableEq, Repr

namespace Test

def all : List Test := [eq, gt, ge, set]

def code : Test → UInt16
  | eq => 0x15
  | gt => 0x25
  | ge => 0x35
  | set => 0x45

/-- Words are compared as unsigned numbers. -/
def holds (test : Test) (acc k : UInt32) : Bool :=
  match test with
  | eq => acc = k
  | gt => k < acc
  | ge => k ≤ acc
  | set => acc &&& k ≠ 0

def text : Test → String
  | eq => "Eq"
  | gt => "Gt"
  | ge => "Ge"
  | set => "Set"

end Test

inductive Opcode where
  /-- Load a word of the call record. -/
  | load
  | alu (op : AluOp)
  /-- Jump forward by the operand. -/
  | jump
  /-- Jump forward by one of two short distances. -/
  | branch (test : Test)
  /-- Return the operand. -/
  | ret
  deriving DecidableEq, Repr

namespace Opcode

def all : List Opcode :=
  [load] ++ AluOp.all.map alu ++ [jump] ++ Test.all.map branch ++ [ret]

def code : Opcode → UInt16
  | load => 0x20
  | alu op => op.code
  | jump => 0x05
  | branch test => test.code
  | ret => 0x06

/-- The operation with this code; all sixteen bits count. -/
def ofCode? (code : UInt16) : Option Opcode :=
  all.find? (·.code == code)

theorem mem_all (op : Opcode) : op ∈ all := by
  cases op with
  | alu op => cases op <;> decide
  | branch test => cases test <;> decide
  | _ => decide

theorem ofCode?_code (op : Opcode) : ofCode? op.code = some op := by
  cases op with
  | alu op => cases op <;> decide
  | branch test => cases test <;> decide
  | _ => decide

theorem code_inj {op other : Opcode} : op.code = other.code ↔ op = other := by
  refine ⟨fun h => Option.some.inj ?_, congrArg code⟩
  rw [← ofCode?_code op, h, ofCode?_code]

theorem ofCode?_eq_some_iff {code : UInt16} {op : Opcode} :
    ofCode? code = some op ↔ op.code = code := by
  constructor
  · intro h
    simpa using List.find?_some h
  · rintro rfl
    exact ofCode?_code op

end Opcode

end SyscallFilter.Bpf
