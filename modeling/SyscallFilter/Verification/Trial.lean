import SyscallFilter.Sampling.Candidates
import SyscallFilter.Sampling.Odometer
import SyscallFilter.Verification.Failure

/-! Comparing a program with what is expected of it, on the calls of one number.

A trial goes through argument tuples in order, stops at the first on which the
program does not give the expected answer, and keeps count of those before it. -/
namespace SyscallFilter

open Bpf Sampling

/-- The word that stands for a number in a call record: negative numbers are taken
modulo 2^32, down to -2^31. -/
def syscallWord? (number : Int) : Option UInt32 :=
  if -0x80000000 ≤ number ∧ number < 0x100000000 then some (UInt32.ofInt number) else none

structure Trial where
  number : Int
  cases : Cases
  /-- How many tuples passed. -/
  checked : Nat
  /-- How the tuple after them failed, or why there is none. -/
  failure? : Option Failure

namespace Trial

def passed (trial : Trial) : Bool :=
  trial.failure?.isNone

/-- How often the expected answer was asked for: not where the program itself failed. -/
def questions (trial : Trial) : Nat :=
  match trial.failure? with
  | some (.policy _) | some (.mismatch ..) => trial.checked + 1
  | _ => trial.checked

/-- A count taken over several trials. -/
def sumOver (count : Trial → Nat) (trials : List Trial) : Nat :=
  trials.foldr (fun trial sum => count trial + sum) 0

end Trial

section

variable (program : Program) (policy : Policy) (settings : Settings)

def counterexample (number : Int) (arch : UInt32) (args : Args) : Counterexample :=
  ⟨number, policy.name? number, arch, args⟩

/-- Compares one call. The program runs before anything is asked of the policy. -/
def checkCall (number : Int) (word arch : UInt32) (expected : Args → Except PolicyError Action)
    (args : Args) : Option Failure :=
  match program.verdict (.ofWord word arch args) settings.instructionLimit with
  | .error fault => some (.fault (counterexample policy number arch args) fault)
  | .ok actual =>
    match expected args with
    | .error error => some (.policy error)
    | .ok expected =>
      if actual = expected then none
      else some (.mismatch (counterexample policy number arch args) expected actual)

/-- Compares the calls of a number. A number that has no word fails before its first call. -/
def Trial.make (number : Int) (arch : UInt32) (cases : UInt32 → Cases)
    (expected : Args → Except PolicyError Action) : Trial :=
  match syscallWord? number with
  | none => ⟨number, .empty, 0, some (.invalidSyscallNumber number)⟩
  | some word =>
    let cases := cases word
    let outcome := cases.search (checkCall program policy settings number word arch expected)
    ⟨number, cases, outcome.passed, outcome.failure?⟩

/-- The tuples worth trying for a number, given the policy's constants by argument. -/
def sampledCases (constants : Nat → List UInt64) (word : UInt32) : Cases where
  candidates :=
    callCandidates constants (.ofProgram program ⟨policy.architecture.audit, some word⟩)
  limit := settings.caseLimit

/-- A number the policy lists is expected to be treated as the policy says. -/
def Trial.listed (number : Int) : Trial :=
  .make program policy settings number policy.architecture.audit
    (sampledCases program policy settings (policy.constants number)) (policy.evaluate number)

/-- A number the policy does not list is expected to be treated by default. Only the
program's constants tell what to try. -/
def Trial.unlisted (word : UInt32) : Trial :=
  .make program policy settings word.toNat policy.architecture.audit
    (sampledCases program policy settings fun _ => []) fun _ => .ok policy.defaultAction

/-- A call of another architecture. -/
structure ForeignCall where
  arch : UInt32
  number : Int
  args : Args
  deriving DecidableEq

/-- A call of another architecture is expected to be turned away. -/
def Trial.foreign (call : ForeignCall) : Trial :=
  .make program policy settings call.number call.arch (fun _ => .single call.args)
    fun _ => .ok policy.mismatchAction

end

/-- Makes trials up to the first that fails, after those that are `done`, the last one first. -/
def untilFailure {α : Type} (trial : α → Trial) (done : List Trial) : List α → List Trial
  | [] => done.reverse
  | a :: rest =>
    let made := trial a
    if made.passed then untilFailure trial (made :: done) rest else (made :: done).reverse

end SyscallFilter
