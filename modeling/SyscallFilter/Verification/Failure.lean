import SyscallFilter.Bpf.Fault
import SyscallFilter.Policy
import SyscallFilter.Settings

/-! Why a program does not pass a verification. -/
namespace SyscallFilter

/-- The call that a program and a policy were compared on. -/
structure Counterexample where
  number : Int
  name : Option String
  arch : UInt32
  args : Args
  deriving DecidableEq

def Counterexample.text (ce : Counterexample) : String :=
  let subject :=
    match ce.name with
    | some name => s!"{name} ({ce.number})"
    | none => s!"syscall {ce.number}"
  s!"{subject} with args {ce.args.text} on arch {hex ce.arch.toNat}"

inductive Failure where
  /-- The program cannot be loaded, or a run does not come to an end. -/
  | fault (counterexample : Counterexample) (cause : Bpf.Fault)
  | mismatch (counterexample : Counterexample) (expected actual : Action)
  | policy (error : PolicyError)
  /-- No call record can hold the number. -/
  | invalidSyscallNumber (number : Int)
  | invalidSettings (error : SettingsError)
  deriving DecidableEq

def Failure.message : Failure → String
  | fault ce cause => s!"Cannot run the program for {ce.text}: {cause.message}"
  | mismatch ce expected actual =>
    s!"Mismatch for {ce.text}: expected {expected.text}, got {actual.text}."
  | policy error => s!"Policy error: {error.message}"
  | invalidSyscallNumber number =>
    s!"Syscall number {number} cannot be represented in seccomp_data."
  | invalidSettings error => s!"Invalid verifier configuration: {error.message}"

end SyscallFilter
