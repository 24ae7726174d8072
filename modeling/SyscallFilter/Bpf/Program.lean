import SyscallFilter.Action
import SyscallFilter.Bpf.Instruction
import SyscallFilter.Log

/-! Programs: loading them and running them.

Loading decodes every instruction and wants a return at the end. All jumps go
forward and stay inside, so a loaded program reaches a return on every call,
after at most as many steps as it has instructions. -/
namespace SyscallFilter.Bpf

structure Program where
  code : Array Instruction
  deriving DecidableEq, Repr

namespace Program

/-- Decodes the instructions from index `pc` on, up to the first fault. -/
def decodeFrom (length pc : Nat) : RawProgram → Except Fault (List Instruction)
  | [] => .ok []
  | raw :: rest => do
    let instruction ← Instruction.decode raw pc length
    return instruction :: (← decodeFrom length (pc + 1) rest)

def load (raw : RawProgram) : Except Fault Program :=
  if raw.length = 0 then .error .emptyProgram
  else if maxLength < raw.length then .error (.programTooLong raw.length)
  else do
    let instructions ← decodeFrom raw.length 0 raw
    match instructions.getLast? with
    | some (.ret _) => return ⟨instructions.toArray⟩
    | _ => throw .missingReturn

def length (program : Program) : Nat :=
  program.code.size

/-! ### Runs -/

/-- The value returned within `limit` instructions, if there is one. -/
def returned? (program : Program) (call : Call) : (limit : Nat) → State → Option UInt32
  | 0, _ => none
  | limit + 1, state =>
    match program.code[state.pc]? with
    | none => none
    | some instruction =>
      match instruction.step call state with
      | .goes next => returned? program call limit next
      | .returns value => some value

/-- The states in which a run executes an instruction, at most `limit` of them. -/
def statesFrom (program : Program) (call : Call) : (limit : Nat) → State → List State
  | 0, _ => []
  | limit + 1, state =>
    match program.code[state.pc]? with
    | none => []
    | some instruction =>
      state ::
        match instruction.step call state with
        | .goes next => statesFrom program call limit next
        | .returns _ => []

def run (program : Program) (call : Call) (limit : Nat) : Except Fault UInt32 :=
  match program.returned? call limit .start with
  | some value => .ok value
  | none => .error (.limitExceeded limit)

/-- The action that the returned value stands for. -/
def verdict (program : Program) (call : Call) (limit : Nat) : Except Fault Action :=
  (program.run call limit).map Action.ofCode

/-- The states of a run, from the first instruction on. -/
def trace (program : Program) (call : Call) (limit : Nat) : List State :=
  program.statesFrom call limit .start

/-- One line for every executed instruction, with the accumulator before it. -/
def traceLog (program : Program) (call : Call) (limit : Nat) : List Log.Line :=
  (program.trace call limit).filterMap fun state =>
    (program.code[state.pc]?).map fun instruction =>
      ⟨.trace, s!"pc {state.pc}: {instruction.text}, A = {hex state.acc.toNat}"⟩

end Program

/-- Loads a program and runs it on one call, with the limit no loaded program exceeds. -/
def RawProgram.verdict (raw : RawProgram) (call : Call) : Except Fault Action := do
  (← Program.load raw).verdict call maxLength

end SyscallFilter.Bpf
