import SyscallFilter.Verification.Trial

/-! Verifying that a program does what a policy says.

Three kinds of calls are tried, and the first failure ends the verification:
those of every number the policy lists, in the policy's order; those of numbers
it does not list, ascending; and, if the settings ask for it, those of other
architectures. -/
namespace SyscallFilter

open Bpf Sampling

/-- The trials that were made. A kind of calls is tried only after the kinds before it passed. -/
structure Verification where
  policy : Policy
  settings : Settings
  listed : List Trial
  unlisted : List Trial
  foreign : List Trial

/-! ### What is tried -/

section

variable (program : Program) (policy : Policy) (settings : Settings)

/-- The numbers at the ends of the signed and unsigned ranges. -/
def extremeNumbers : List UInt32 := [0x7fffffff, 0x80000000, 0xffffffff]

/-- The numbers that the program tells apart, each with its neighbours. -/
def distinguishedNumbers : List UInt32 :=
  (((Constants.ofProgram program ⟨policy.architecture.audit, none⟩).get? .nr).getD []).flatMap
    fun n => [n - 1, n, n + 1]

/-- The numbers tried for the default action: the small ones, the distinguished ones and
the extremes, without those the policy lists. -/
def probes : List UInt32 :=
  let listed := policy.syscalls.filterMap syscallWord?
  let small := (List.range settings.probeLimit).map UInt32.ofNat
  (ascending (small ++ distinguishedNumbers program policy ++ extremeNumbers)).filter
    fun word => !listed.contains word

/-- Every listed number and 0, on every foreign architecture, with all arguments at either end. -/
def foreignCalls : List ForeignCall :=
  let numbers := policy.syscalls ++ if policy.syscalls.contains 0 then [] else [0]
  policy.architecture.foreignAudits.flatMap fun arch =>
    numbers.flatMap fun number =>
      [⟨arch, number, .replicate 0⟩, ⟨arch, number, .replicate 0xffffffffffffffff⟩]

/-- Verifies a program that has been loaded. -/
def Verification.perform : Verification :=
  let listed := untilFailure (.listed program policy settings) [] policy.syscalls
  let unlisted :=
    if listed.all Trial.passed then
      untilFailure (.unlisted program policy settings) [] (probes program policy settings)
    else []
  let foreign :=
    if settings.checkForeign && listed.all Trial.passed && unlisted.all Trial.passed then
      untilFailure (.foreign program policy settings) [] (foreignCalls policy)
    else []
  ⟨policy, settings, listed, unlisted, foreign⟩

/-- The call that a program is blamed on that cannot be loaded: the first that would have
been tried. -/
def firstCall : Counterexample :=
  let number := policy.syscalls.head?.getD 0
  counterexample policy number policy.architecture.audit
    (Vector.ofFn fun index => (candidates (policy.constants number index) none none).head?.getD 0)

end

namespace Verification

/-- Verifies a program from its raw form. The settings are checked before the program is loaded. -/
def start (raw : RawProgram) (policy : Policy) (settings : Settings) :
    Except Failure Verification := do
  settings.check.mapError .invalidSettings
  let program ← (Program.load raw).mapError (.fault (firstCall policy))
  return perform program policy settings

/-! ### What came of it -/

def failure? (verification : Verification) : Option Failure :=
  (verification.listed ++ verification.unlisted ++ verification.foreign).findSome? Trial.failure?

/-- What a verification that passed has covered. -/
structure Report where
  syscallsChecked : Nat
  /-- Argument tuples over all listed numbers. -/
  casesChecked : Nat
  unlistedProbes : Nat
  foreignProbes : Nat
  /-- The listed numbers not all of whose tuples were tried. -/
  truncated : List Int
  deriving DecidableEq, Repr

/-- Numbers count if their trials passed, tuples and foreign calls as often as they were gone
through. -/
def report (verification : Verification) : Report where
  syscallsChecked := verification.listed.countP Trial.passed
  casesChecked := Trial.sumOver Trial.checked verification.listed
  unlistedProbes := verification.unlisted.countP Trial.passed
  foreignProbes := Trial.sumOver Trial.checked verification.foreign
  truncated := (verification.listed.filter (·.cases.truncated)).map (·.number)

def result (verification : Verification) : Except Failure Report :=
  match verification.failure? with
  | some failure => .error failure
  | none => .ok verification.report

/-- The questions that were put to the policy, in order. -/
def questions (verification : Verification) : List (Int × Args) :=
  verification.listed.flatMap fun trial =>
    (List.range trial.questions).map fun rank => (trial.number, trial.cases.tuple rank)

def questionCount (verification : Verification) : Nat :=
  Trial.sumOver Trial.questions verification.listed

end Verification

/-- Checks that a program does what a policy says: a report of what was checked, or the first
failure. -/
def verify (raw : RawProgram) (policy : Policy) (settings : Settings) :
    Except Failure Verification.Report := do
  (← Verification.start raw policy settings).result

end SyscallFilter
