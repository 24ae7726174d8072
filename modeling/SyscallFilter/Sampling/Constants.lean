import SyscallFilter.Ascending
import SyscallFilter.Bpf.Program

/-! The constants that a program compares the words of a call with.

The program is explored with most words left open. All that is known of the
accumulator at a point of the program is either its value, or the word it was
made from; a branch on a known value goes one way, a branch on an open word both
ways. Jumps go forward, so one sweep over the instructions in order meets every
point before the points it leads to: the points to come wait in a frontier until
the sweep arrives at them.

A branch on an open word, and a mask on one, records its operand for that word.
After other arithmetic the constants are only a hint, but they are recorded too. -/
namespace SyscallFilter.Sampling

open Bpf

/-- What is known of the accumulator. -/
inductive Knowledge where
  | value (value : UInt32)
  /-- Made from this word, which is left open. -/
  | word (field : Field)
  deriving DecidableEq, Repr

/-- A place in the program, with what is known of the accumulator there. -/
structure Point where
  pc : Nat
  acc : Knowledge
  deriving DecidableEq, Repr

/-- The words that are given: the architecture, and perhaps the number. -/
structure Given where
  arch : UInt32
  nr : Option UInt32
  deriving DecidableEq, Repr

/-- What is known after a load. -/
def Given.load (given : Given) : Field → Knowledge
  | .arch => .value given.arch
  | .nr =>
    match given.nr with
    | some nr => .value nr
    | none => .word .nr
  | field => .word field

namespace Point

/-- Runs begin with an empty accumulator. -/
def start : Point := ⟨0, .value 0⟩

/-- The points that an instruction may lead to. -/
def successors (given : Given) (instruction : Instruction) (point : Point) : List Point :=
  match instruction with
  | .load field => [⟨point.pc + 1, given.load field⟩]
  | .alu op k =>
    match point.acc with
    | .value value => [⟨point.pc + 1, .value (op.apply value k)⟩]
    | .word field => [⟨point.pc + 1, .word field⟩]
  | .jump target => [⟨target, point.acc⟩]
  | .branch test k jt jf =>
    match point.acc with
    | .value value => [⟨if test.holds value k then jt else jf, point.acc⟩]
    | .word _ => [⟨jt, point.acc⟩, ⟨jf, point.acc⟩]
  | .ret _ => []

/-- The open word that an instruction looks at, with the constant it looks for. -/
def recorded? (instruction : Instruction) (point : Point) : Option (Field × UInt32) :=
  match point.acc, instruction with
  | .word field, .alu .and k => some (field, k)
  | .word field, .branch _ k _ _ => some (field, k)
  | _, _ => none

end Point

/-- The points met from index `pc` on, each once, when those of the frontier lie ahead. -/
def sweep (given : Given) (pc : Nat) : List Instruction → (frontier : List Point) → List Point
  | [], _ => []
  | instruction :: rest, frontier =>
    let here := frontier.filter (·.pc = pc)
    let ahead := frontier.filter (·.pc ≠ pc)
    here ++ sweep given (pc + 1) rest
      ((here.flatMap (·.successors given instruction)).foldr List.insert ahead)

/-- The points that the program can be at. -/
def explored (program : Program) (given : Given) : List Point :=
  sweep given 0 program.code.toList [.start]

/-- Constants by the word they are compared with. -/
structure Constants where
  recorded : List (Field × UInt32)
  deriving DecidableEq, Repr

namespace Constants

def ofProgram (program : Program) (given : Given) : Constants where
  recorded := (explored program given).filterMap fun point =>
    (program.code[point.pc]?).bind point.recorded?

/-- The constants of a word in ascending order, if there are any. -/
def get? (constants : Constants) (field : Field) : Option (List UInt32) :=
  match ascending ((constants.recorded.filter (·.1 = field)).map Prod.snd) with
  | [] => none
  | values => some values

/-- The words that have constants, in the order of fields. -/
def toList (constants : Constants) : List (Field × List UInt32) :=
  Field.all.filterMap fun field => (constants.get? field).map fun values => (field, values)

end Constants

end SyscallFilter.Sampling
