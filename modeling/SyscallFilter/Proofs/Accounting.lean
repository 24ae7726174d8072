import Mathlib.Algebra.BigOperators.Fin
import Mathlib.Data.Set.Card
import SyscallFilter.Proofs.NumberProbes
import SyscallFilter.Proofs.Reports

/-! A report accounts exactly for the work done.

The counters of a report are kept on the way: a search counts the tuples that pass, and numbers
count once their trials have passed. `report_accounts` says that what was counted are the checks of
the sequence, all of which passed, and gives each counter in terms of the policy, the program and
the settings alone: tuples as products of numbers of candidates cut at the limit, probes as the
size of a set, foreign calls by a formula. -/
namespace SyscallFilter

open Bpf Sampling

variable {raw : RawProgram} {program : Program} {policy : Policy} {settings : Settings}

/-! ### Tuples -/

/-- The number of values that are worth trying for an argument of a listed number. -/
def candidateCount (program : Program) (policy : Policy) (number : Int) (index : Nat) : Nat :=
  let scanned : Constants :=
    .ofProgram program ⟨policy.architecture.audit, some (UInt32.ofInt number)⟩
  (candidates (policy.constants number index) (scanned.get? (.argLow index))
    (scanned.get? (.argHigh index))).length

theorem size_listedCases (program : Program) (policy : Policy) (settings : Settings)
    (number : Int) :
    (listedCases program policy settings number).size =
      ∏ index : Fin 6, candidateCount program policy number index := by
  rw [Cases.size, ways_eq_prod, ← List.prod_ofFn]
  simp only [listedCases, sampledCases, callCandidates, Vector.toList_ofFn, List.map_ofFn]
  rfl

theorem length_sampledTuples (program : Program) (policy : Policy) (settings : Settings)
    (number : Int) :
    (sampledTuples program policy settings (policy.constants number)
      (UInt32.ofInt number)).length = (listedCases program policy settings number).count := by
  rw [← Cases.length_toList, Cases.toList_eq]
  rfl

/-! ### Probes and foreign calls -/

theorem length_probes :
    (probes program policy settings).length =
      {word | Considered program policy settings word ∧ ¬policy.Lists word}.ncard := by
  have hset : {word | Considered program policy settings word ∧ ¬policy.Lists word} =
      ↑(probes program policy settings).toFinset := by
    ext word
    simp [mem_probes_iff]
  rw [hset, Set.ncard_coe_finset, List.toFinset_card_of_nodup (nodup_probes ..)]

/-- There are four foreign architectures for every one, and two calls for each of them. -/
theorem length_foreignCalls (policy : Policy) :
    (foreignCalls policy).length =
      8 * (policy.syscalls.length + if 0 ∈ policy.syscalls then 0 else 1) := by
  have haudits : policy.architecture.foreignAudits.length = 4 := by
    cases policy.architecture <;> rfl
  simp only [foreignCalls, List.length_flatMap, List.length_cons, List.length_nil,
    List.map_const', List.sum_replicate, haudits, List.length_append, List.contains_eq_mem,
    decide_eq_true_eq, smul_eq_mul]
  split
  · simp only [List.length_nil]
    omega
  · simp only [List.length_singleton]
    omega

/-- **A report accounts exactly for the work done.** Every check of the sequence was made and
passed. The listed numbers are counted with repetitions; the tuples are those that listed numbers
were called with, for each number those of the cross product up to the limit; the probes are the
numbers worth a probe that are not listed; two calls are made on each of four foreign
architectures, if those are checked at all, for every listed number and for 0; and a listed number
is reported as truncated if its cross product, as far as a 64-bit counter counts, exceeds the
limit. -/
theorem report_accounts {report : Verification.Report} (hload : Program.load raw = .ok program)
    (hverify : verify raw policy settings = .ok report) :
    (∀ check ∈ checks program policy settings, check.failure? program policy settings = none) ∧
      report.syscallsChecked = policy.syscalls.length ∧
      report.casesChecked = (policy.syscalls.map fun number =>
        (sampledTuples program policy settings (policy.constants number)
          (UInt32.ofInt number)).length).sum ∧
      report.casesChecked = (policy.syscalls.map fun number =>
        min (∏ index : Fin 6, candidateCount program policy number index) settings.caseLimit).sum ∧
      report.unlistedProbes =
        {word | Considered program policy settings word ∧ ¬policy.Lists word}.ncard ∧
      report.foreignProbes = (if settings.checkForeign then
        8 * (policy.syscalls.length + if 0 ∈ policy.syscalls then 0 else 1) else 0) ∧
      report.truncated = policy.syscalls.filter fun number => settings.caseLimit <
        min (∏ index : Fin 6, candidateCount program policy number index) 0xffffffffffffffff := by
  obtain ⟨-, hpass, rfl⟩ := (verify_eq_ok_iff_of_load hload).1 hverify
  rw [report_perform hpass, ← length_probes, ← length_foreignCalls]
  simp only [← size_listedCases program policy settings, length_sampledTuples]
  refine ⟨hpass, rfl, rfl, rfl, rfl, rfl, ?_⟩
  simp only [fullReport, Cases.truncated, Cases.total_eq]
  rfl

/-- Lists a number twice, and two numbers that have the same word. -/
def repeatedNumbers : Policy where
  syscalls := [3, -1, 0xffffffff, 3]
  evaluate _ _ := .ok .allow
  defaultAction := .errno 1
  architecture := .x86_64
  constants number index := if number = 3 ∧ index = 0 then [5] else []

def repeatedNumbersRaw : RawProgram :=
  [.plain .load 4, .branch .eq Architecture.x86_64.audit 1 0, .plain .ret Action.killProcess.code,
    .plain .load 0, .branch .eq 3 1 0, .branch .eq 0xffffffff 0 1, .plain .ret Action.allow.code,
    .plain .ret (Action.errno 1).code]

def repeatedNumbersProgram : Program where
  code := #[.load .arch, .branch .eq Architecture.x86_64.audit 3 2, .ret Action.killProcess.code,
    .load .nr, .branch .eq 3 6 5, .branch .eq 0xffffffff 6 7, .ret Action.allow.code,
    .ret (Action.errno 1).code]

def hundredCases : Settings := { caseLimit := 100, probeLimit := 2 }

/-- The number 3 has 160 tuples, of which 100 are tried, twice; the other two have 64. -/
theorem report_repeatedNumbers :
    Program.load repeatedNumbersRaw = .ok repeatedNumbersProgram ∧
      verify repeatedNumbersRaw repeatedNumbers hundredCases = .ok ⟨4, 328, 7, 40, [3, 3]⟩ ∧
      (repeatedNumbers.syscalls.map fun number => min (∏ index : Fin 6,
        candidateCount repeatedNumbersProgram repeatedNumbers number index) 100).sum = 328 ∧
      {word | Considered repeatedNumbersProgram repeatedNumbers hundredCases word ∧
        ¬repeatedNumbers.Lists word}.ncard = 7 ∧
      (repeatedNumbers.syscalls.filter fun number => 100 < min (∏ index : Fin 6,
        candidateCount repeatedNumbersProgram repeatedNumbers number index) 0xffffffffffffffff) =
        [3, 3] := by
  have hload : Program.load repeatedNumbersRaw = .ok repeatedNumbersProgram := by decide
  have hverify : verify repeatedNumbersRaw repeatedNumbers hundredCases =
      .ok ⟨4, 328, 7, 40, [3, 3]⟩ := by
    decide +kernel
  obtain ⟨-, -, -, hcases, hprobes, -, htruncated⟩ := report_accounts hload hverify
  exact ⟨hload, hverify, hcases.symm, hprobes.symm, htruncated.symm⟩

end SyscallFilter
