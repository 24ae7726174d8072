import Mathlib.Algebra.Order.BigOperators.Group.Finset
import SyscallFilter.Proofs.Accounting
import SyscallFilter.Proofs.FirstOccurrences

/-! The constants of a policy only add to what is checked.

A policy may name the values that its rules compare arguments with. They change nothing but the
samples: with more of them every argument has more candidates (`candidates_subset`), so every tuple
that is tried with fewer is a tuple of the larger cross product. If that one is tried as a whole,
no check is made with fewer constants that was not made with more
(`Policy.FewerConstants.checks_subset`). Candidates do not repeat themselves (`nodup_candidates`),
which is why there are no more tuples either. -/
namespace SyscallFilter

open Bpf

namespace Sampling

/-! ### Candidates do not repeat themselves -/

theorem nodup_joinedCandidates (low high : Option (List UInt32)) :
    (joinedCandidates low high).Nodup := by
  unfold joinedCandidates
  split
  · refine List.nodup_flatMap.2 ⟨fun h _ => ?_, ?_⟩
    · refine (nodup_eraseDups _).map fun l l' heq => ?_
      rw [← lowWord_joinWords h l, heq, lowWord_joinWords]
    · refine (nodup_eraseDups _).imp fun {h h'} hne x hx hx' => hne ?_
      obtain ⟨l, -, rfl⟩ := List.mem_map.1 hx
      obtain ⟨l', -, heq⟩ := List.mem_map.1 hx'
      rw [← highWord_joinWords h l, ← heq, highWord_joinWords]
  · exact List.nodup_nil

theorem nodup_candidates (constants : List UInt64) (low high : Option (List UInt32)) :
    (candidates constants low high).Nodup := by
  have hconstants : (ascending constants).Nodup := (pairwise_ascending _).imp UInt64.ne_of_lt
  refine List.Nodup.append (List.Nodup.append hconstants ?_ ?_) ?_ ?_
  · exact (nodup_joinedCandidates low high).filter _
  · intro x hx hx'
    simp [hx] at hx'
  · exact (nodup_eraseDups _).filter _
  · intro x hx hx'
    obtain ⟨-, hfirst⟩ := List.mem_filter.1 hx'
    simp only [Bool.and_eq_true, Bool.not_eq_true', List.contains_eq_mem,
      decide_eq_false_iff_not] at hfirst
    rcases List.mem_append.1 hx with hx | hx
    · exact hfirst.1 hx
    · exact hfirst.2 (List.mem_of_mem_filter hx)

theorem candidates_subset {constants others : List UInt64} (h : constants ⊆ others)
    (low high : Option (List UInt32)) :
    candidates constants low high ⊆ candidates others low high := by
  intro x hx
  refine mem_candidates.2 ((mem_candidates.1 hx).imp_left ?_)
  exact fun ⟨c, hc, hx⟩ => ⟨c, h hc, hx⟩

end Sampling

open Sampling

/-! ### Policies that differ in their constants -/

/-- Whether a check passes does not depend on the policy that is asked for a name. -/
theorem failure?_eq_none_congr {program : Program} {settings : Settings} {check : Check}
    (policy other : Policy) :
    check.failure? program policy settings = none ↔
      check.failure? program other settings = none := by
  cases check with
  | number number => exact Iff.rfl
  | call number arch args expected =>
    rw [Check.failure?_call_eq_none_iff, Check.failure?_call_eq_none_iff]

theorem truncated_fullReport {program : Program} {policy : Policy} {settings : Settings}
    (hsize : ∀ number ∈ policy.syscalls,
      (listedCases program policy settings number).size ≤ settings.caseLimit) :
    (fullReport program policy settings).truncated = [] := by
  refine List.filter_eq_nil_iff.2 fun number hnumber => ?_
  rw [Cases.truncated, decide_eq_true_eq, Nat.not_lt, Cases.total_eq]
  exact Nat.le_trans (Nat.min_le_left ..) (hsize number hnumber)

/-- The policies say the same about every call, and the first names no constant for an argument
of a listed number that the second does not name. -/
structure Policy.FewerConstants (fewer more : Policy) : Prop where
  syscalls : fewer.syscalls = more.syscalls
  evaluate : fewer.evaluate = more.evaluate
  defaultAction : fewer.defaultAction = more.defaultAction
  mismatchAction : fewer.mismatchAction = more.mismatchAction
  architecture : fewer.architecture = more.architecture
  constants : ∀ number ∈ more.syscalls, ∀ index < 6,
    fewer.constants number index ⊆ more.constants number index

namespace Policy.FewerConstants

variable {program : Program} {fewer more : Policy} {settings : Settings} {number : Int}
  (h : fewer.FewerConstants more)

include h

theorem probes_eq : probes program fewer settings = probes program more settings := by
  simp only [probes, distinguishedNumbers, h.syscalls, h.architecture]

theorem foreignCalls_eq : foreignCalls fewer = foreignCalls more := by
  simp only [foreignCalls, h.syscalls, h.architecture]

theorem tuples_subset (hnumber : number ∈ more.syscalls) (scanned : Constants) :
    tuples (callCandidates (fewer.constants number) scanned) ⊆
      tuples (callCandidates (more.constants number) scanned) := by
  intro args hargs
  rw [mem_callCandidates] at hargs ⊢
  exact fun i => candidates_subset (h.constants number hnumber i i.isLt) _ _ (hargs i)

theorem size_le (hnumber : number ∈ more.syscalls) :
    (listedCases program fewer settings number).size ≤
      (listedCases program more settings number).size := by
  rw [size_listedCases, size_listedCases]
  refine Finset.prod_le_prod' fun index _ => ?_
  simp only [candidateCount, h.architecture]
  exact (nodup_candidates ..).length_le_of_subset
    (candidates_subset (h.constants number hnumber index index.isLt) _ _)

/-- Fewer constants make no check that more of them do not make, if those leave no tuple out. -/
theorem checks_subset (hsize : ∀ number ∈ more.syscalls,
      (listedCases program more settings number).size ≤ settings.caseLimit) :
    checks program fewer settings ⊆ checks program more settings := by
  intro check hcheck
  rcases mem_checks.1 hcheck with ⟨number, hnumber, hmem⟩ | ⟨word, hword, hmem⟩ | ⟨hforeign, hmem⟩
  · rw [h.syscalls] at hnumber
    refine mem_checks.2 (.inl ⟨number, hnumber, ?_⟩)
    rw [listedChecks, sampledTuples, h.architecture, h.evaluate] at hmem
    refine List.cons_subset_cons _ (List.map_subset _ fun args hargs => ?_) hmem
    exact mem_sampledTuples_of_size_le (hsize number hnumber)
      (h.tuples_subset hnumber _ (List.mem_of_mem_take hargs))
  · rw [h.probes_eq] at hword
    rw [unlistedChecks, sampledTuples, h.architecture, h.defaultAction] at hmem
    exact mem_checks.2 (.inr (.inl ⟨word, hword, hmem⟩))
  · rw [foreignChecks_eq, h.foreignCalls_eq, h.mismatchAction, ← foreignChecks_eq] at hmem
    exact mem_checks.2 (.inr (.inr ⟨hforeign, hmem⟩))

/-- The reports differ in the number of tuples only. -/
theorem fullReport_eq (hsize : ∀ number ∈ more.syscalls,
      (listedCases program more settings number).size ≤ settings.caseLimit) :
    fullReport program fewer settings = { fullReport program more settings with
      casesChecked := (fullReport program fewer settings).casesChecked } := by
  have hsizeFewer : ∀ number ∈ fewer.syscalls,
      (listedCases program fewer settings number).size ≤ settings.caseLimit := by
    intro number hnumber
    rw [h.syscalls] at hnumber
    exact Nat.le_trans (h.size_le hnumber) (hsize number hnumber)
  rw [Verification.Report.mk.injEq]
  refine ⟨congrArg List.length h.syscalls, rfl, congrArg List.length h.probes_eq, ?_, ?_⟩
  · simp only [fullReport, h.foreignCalls_eq]
  · exact (truncated_fullReport hsizeFewer).trans (truncated_fullReport hsize).symm

theorem casesChecked_le :
    (fullReport program fewer settings).casesChecked ≤
      (fullReport program more settings).casesChecked := by
  simp only [fullReport, h.syscalls]
  refine List.sum_le_sum fun number hnumber => ?_
  exact min_le_min_right _ (h.size_le hnumber)

end Policy.FewerConstants

/-- **Constants of a policy only add thoroughness.** If a program passes with a policy that names
more constants, and no tuple is left out, it passes with fewer of them too. The report is the
same but for the number of tuples, which is no larger. -/
theorem verify_of_fewerConstants {raw : RawProgram} {program : Program} {fewer more : Policy}
    {settings : Settings} {report : Verification.Report} (h : fewer.FewerConstants more)
    (hload : Program.load raw = .ok program)
    (hsize : ∀ number ∈ more.syscalls,
      (listedCases program more settings number).size ≤ settings.caseLimit)
    (hverify : verify raw more settings = .ok report) :
    ∃ casesChecked ≤ report.casesChecked,
      verify raw fewer settings = .ok { report with casesChecked := casesChecked } := by
  obtain ⟨hlimit, hpass, rfl⟩ := (verify_eq_ok_iff_of_load hload).1 hverify
  have hpassFewer : ∀ check ∈ checks program fewer settings,
      check.failure? program fewer settings = none := by
    intro check hcheck
    rw [failure?_eq_none_congr fewer more]
    exact hpass check (h.checks_subset hsize hcheck)
  refine ⟨(fullReport program fewer settings).casesChecked, ?_, ?_⟩
  · rw [report_perform hpass]
    exact h.casesChecked_le
  · refine (verify_eq_ok_iff_of_load hload).2 ⟨hlimit, hpassFewer, ?_⟩
    rw [report_perform hpass, report_perform hpassFewer]
    exact h.fullReport_eq hsize

/-- Names 7 besides 5, and 5 twice. -/
def moreConstants : Policy where
  syscalls := repeatedNumbers.syscalls
  evaluate := repeatedNumbers.evaluate
  defaultAction := repeatedNumbers.defaultAction
  architecture := repeatedNumbers.architecture
  constants number index := if number = 3 ∧ index = 0 then [7, 5, 5] else []

def allCases : Settings := { probeLimit := 2 }

theorem verify_moreConstants :
    repeatedNumbers.FewerConstants moreConstants ∧
      verify repeatedNumbersRaw moreConstants allCases = .ok ⟨4, 576, 7, 40, []⟩ ∧
      ∃ casesChecked ≤ 576,
        verify repeatedNumbersRaw repeatedNumbers allCases = .ok ⟨4, casesChecked, 7, 40, []⟩ := by
  have hfewer : repeatedNumbers.FewerConstants moreConstants := by
    refine ⟨rfl, rfl, rfl, rfl, rfl, fun number _ index _ => ?_⟩
    simp only [repeatedNumbers, moreConstants]
    split
    · decide
    · exact List.Subset.refl _
  have hload : Program.load repeatedNumbersRaw = .ok repeatedNumbersProgram := by decide
  have hverify : verify repeatedNumbersRaw moreConstants allCases = .ok ⟨4, 576, 7, 40, []⟩ := by
    decide +kernel
  exact ⟨hfewer, hverify, verify_of_fewerConstants hfewer hload (by decide +kernel) hverify⟩

end SyscallFilter
