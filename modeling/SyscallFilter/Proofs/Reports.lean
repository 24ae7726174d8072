import Mathlib.Algebra.Order.BigOperators.Group.List
import Mathlib.Algebra.Order.Ring.Nat
import Mathlib.Data.List.Perm.Subperm
import SyscallFilter.Proofs.CheckSequence
import SyscallFilter.Proofs.Runs

/-! What a verification that passed reports, and what becomes of it under weaker settings.

If no check fails, every trial is made and goes through all of its tuples, so the counts that the
trials have kept are known without making them (`report_perform`): the listed numbers, their tuples
within the limit, the probes and the foreign calls.

Settings are weaker than others if they ask for no more tuples, probes and foreign calls, and let
runs take longer (`Settings.Weaker`). They make only checks that the others make
(`Settings.Weaker.checks_subset`), and a check that passes keeps passing
(`Settings.Weaker.failure?_eq_none`). Whatever passes therefore passes under weaker settings too,
and the two reports can be compared part by part (`verify_of_weaker`). -/
namespace SyscallFilter

open Bpf Sampling

/-! ### Trials without a failure -/

theorem untilFailure_eq_map {α : Type} {trial : α → Trial} {xs : List α}
    (h : ∀ a ∈ xs, (trial a).passed = true) : untilFailure trial [] xs = xs.map trial := by
  induction xs with
  | nil => rfl
  | cons a rest ih =>
    rw [untilFailure_cons, if_pos (h a (List.mem_cons_self ..)),
      ih fun b hb => h b (List.mem_cons_of_mem _ hb), List.map_cons]

theorem sumOver_map {α : Type} (count : Trial → Nat) (trial : α → Trial) (xs : List α) :
    Trial.sumOver count (xs.map trial) = (xs.map fun a => count (trial a)).sum := by
  induction xs with
  | nil => rfl
  | cons a rest ih =>
    rw [List.map_cons, List.map_cons, List.sum_cons, ← ih]
    rfl

theorem countP_map_passed {α : Type} {trial : α → Trial} {xs : List α}
    (h : ∀ a ∈ xs, (trial a).passed = true) : (xs.map trial).countP Trial.passed = xs.length := by
  rw [List.countP_eq_length.2 (List.forall_mem_map.2 h), List.length_map]

section

variable (program : Program) (policy : Policy) (settings : Settings)

/-- The tuples of a listed number. -/
def listedCases (number : Int) : Cases :=
  sampledCases program policy settings (policy.constants number) (UInt32.ofInt number)

/-- The report if no check fails. -/
def fullReport : Verification.Report where
  syscallsChecked := policy.syscalls.length
  casesChecked := (policy.syscalls.map fun number =>
    (listedCases program policy settings number).count).sum
  unlistedProbes := (probes program policy settings).length
  foreignProbes := if settings.checkForeign then (foreignCalls policy).length else 0
  truncated := policy.syscalls.filter fun number =>
    (listedCases program policy settings number).truncated

end

section

variable {program : Program} {policy : Policy} {settings : Settings}

theorem cases_listed {number : Int} {word : UInt32} (h : syscallWord? number = some word) :
    (Trial.listed program policy settings number).cases =
      listedCases program policy settings number := by
  obtain rfl := ofInt_of_syscallWord? h
  rw [Trial.listed, Trial.make, h]
  rfl

theorem number_listed (number : Int) :
    (Trial.listed program policy settings number).number = number := by
  rw [Trial.listed, Trial.make]
  split <;> rfl

theorem nodup_probes (program : Program) (policy : Policy) (settings : Settings) :
    (probes program policy settings).Nodup :=
  ((pairwise_ascending _).filter _).imp UInt32.ne_of_lt

/-! ### A verification without a failure -/

variable (hpass : ∀ check ∈ checks program policy settings,
  check.failure? program policy settings = none)

include hpass

theorem passed_listed :
    ∀ number ∈ policy.syscalls, (Trial.listed program policy settings number).passed = true := by
  intro number hnumber
  rw [Trial.passed_iff, failure?_listed, List.findSome?_eq_none_iff]
  exact fun check hcheck => hpass check (mem_checks.2 (.inl ⟨number, hnumber, hcheck⟩))

theorem exists_word {number : Int} (hnumber : number ∈ policy.syscalls ∨ number = 0) :
    ∃ word, syscallWord? number = some word := by
  have hfailure : policy.syscalls.findSome? (fun number =>
      (Trial.listed program policy settings number).failure?) = none :=
    List.findSome?_eq_none_iff.2 fun listed hlisted =>
      (Trial.passed_iff _).1 (passed_listed hpass listed hlisted)
  exact exists_word_of_passed hfailure hnumber

theorem passed_unlisted :
    ∀ word ∈ probes program policy settings,
      (Trial.unlisted program policy settings word).passed = true := by
  intro word hword
  rw [Trial.passed_iff, failure?_unlisted, List.findSome?_eq_none_iff]
  exact fun check hcheck => hpass check (mem_checks.2 (.inr (.inl ⟨word, hword, hcheck⟩)))

theorem passed_foreign (hforeign : settings.checkForeign = true) :
    ∀ call ∈ foreignCalls policy, (Trial.foreign program policy settings call).passed = true := by
  intro call hcall
  obtain ⟨word, hword⟩ := exists_word hpass (number_of_mem_foreignCalls hcall)
  rw [Trial.passed_iff, failure?_foreign hword]
  refine hpass _ (mem_checks.2 (.inr (.inr ⟨hforeign, ?_⟩)))
  rw [foreignChecks_eq]
  exact List.mem_map_of_mem hcall

/-- All trials are made. -/
theorem perform_eq :
    Verification.perform program policy settings =
      ⟨policy, settings, policy.syscalls.map (.listed program policy settings),
        (probes program policy settings).map (.unlisted program policy settings),
        if settings.checkForeign then
          (foreignCalls policy).map (.foreign program policy settings)
        else []⟩ := by
  have hlisted := passed_listed hpass
  have hunlisted := passed_unlisted hpass
  have hlistedAll := List.all_eq_true.2 (List.forall_mem_map.2 hlisted)
  have hunlistedAll := List.all_eq_true.2 (List.forall_mem_map.2 hunlisted)
  unfold Verification.perform
  dsimp only
  rw [untilFailure_eq_map hlisted, if_pos hlistedAll, untilFailure_eq_map hunlisted, hlistedAll,
    hunlistedAll, Bool.and_true, Bool.and_true]
  by_cases hforeign : settings.checkForeign = true
  · rw [if_pos hforeign, if_pos hforeign, untilFailure_eq_map (passed_foreign hpass hforeign)]
  · rw [if_neg hforeign, if_neg hforeign]

theorem checked_listed {number : Int} (hnumber : number ∈ policy.syscalls) :
    (Trial.listed program policy settings number).checked =
      (listedCases program policy settings number).count := by
  obtain ⟨word, hword⟩ := exists_word hpass (.inl hnumber)
  obtain rfl := ofInt_of_syscallWord? hword
  exact checked_make hword (passed_listed hpass number hnumber)

/-- A foreign call is gone through once. -/
theorem checked_foreign (hforeign : settings.checkForeign = true) {call : ForeignCall}
    (hcall : call ∈ foreignCalls policy) :
    (Trial.foreign program policy settings call).checked = 1 := by
  obtain ⟨word, hword⟩ := exists_word hpass (number_of_mem_foreignCalls hcall)
  have hchecked : (Trial.foreign program policy settings call).checked =
      (Cases.single call.args).count :=
    checked_make hword (passed_foreign hpass hforeign call hcall)
  rw [hchecked, Cases.count, ← Cases.length_tuples, tuples_single]
  rfl

/-- The counters that were kept on the way come to the numbers that are known beforehand. -/
theorem report_perform :
    (Verification.perform program policy settings).report = fullReport program policy settings := by
  rw [perform_eq hpass, Verification.report, fullReport, Verification.Report.mk.injEq]
  refine ⟨countP_map_passed (passed_listed hpass), ?_, countP_map_passed (passed_unlisted hpass),
    ?_, ?_⟩
  · rw [sumOver_map, List.map_congr_left fun number hnumber => checked_listed hpass hnumber]
  · by_cases hforeign : settings.checkForeign = true
    · rw [if_pos hforeign, if_pos hforeign, sumOver_map,
        List.map_congr_left fun call hcall => checked_foreign hpass hforeign hcall]
      simp
    · rw [if_neg hforeign, if_neg hforeign]
      rfl
  · have hnumbers : (·.number) ∘ Trial.listed program policy settings = id := funext number_listed
    rw [List.filter_map, List.map_map, hnumbers, List.map_id]
    refine List.filter_congr fun number hnumber => ?_
    obtain ⟨word, hword⟩ := exists_word hpass (.inl hnumber)
    rw [Function.comp_apply, cases_listed hword]

end

/-! ### Weaker settings -/

/-- Settings under which no more is checked than under others. -/
structure Settings.Weaker (weak strong : Settings) : Prop where
  caseLimit : weak.caseLimit ≤ strong.caseLimit
  probeLimit : weak.probeLimit ≤ strong.probeLimit
  checkForeign : weak.checkForeign → strong.checkForeign
  instructionLimit : strong.instructionLimit ≤ weak.instructionLimit

namespace Settings.Weaker

variable {program : Program} {policy : Policy} {weak strong : Settings} (h : weak.Weaker strong)

include h

theorem sampledTuples_subset (constants : Nat → List UInt64) (word : UInt32) :
    sampledTuples program policy weak constants word ⊆
      sampledTuples program policy strong constants word :=
  (List.take_sublist_take_left h.caseLimit).subset

theorem probes_subset : probes program policy weak ⊆ probes program policy strong := by
  intro word hword
  obtain ⟨hconsidered, hunlisted⟩ := mem_probes.1 hword
  exact mem_probes.2
    ⟨hconsidered.imp_left fun hlt => Nat.lt_of_lt_of_le hlt h.probeLimit, hunlisted⟩

/-- Weaker settings make no check that stronger ones do not make. -/
theorem checks_subset : checks program policy weak ⊆ checks program policy strong := by
  intro check hcheck
  rcases mem_checks.1 hcheck with ⟨number, hnumber, hmem⟩ | ⟨word, hword, hmem⟩ | ⟨hforeign, hmem⟩
  · refine mem_checks.2 (.inl ⟨number, hnumber, ?_⟩)
    exact List.cons_subset_cons _ (List.map_subset _ (h.sampledTuples_subset ..)) hmem
  · refine mem_checks.2 (.inr (.inl ⟨word, h.probes_subset hword, ?_⟩))
    exact List.map_subset _ (h.sampledTuples_subset ..) hmem
  · exact mem_checks.2 (.inr (.inr ⟨h.checkForeign hforeign, hmem⟩))

/-- What passes under a limit of instructions passes under a larger one. -/
theorem failure?_eq_none {check : Check} (hpass : check.failure? program policy strong = none) :
    check.failure? program policy weak = none := by
  cases check with
  | number number => exact hpass
  | call number arch args expected =>
    obtain ⟨action, hexpected, hverdict⟩ := Check.failure?_call_eq_none_iff.1 hpass
    exact Check.failure?_call_eq_none_iff.2
      ⟨action, hexpected, Program.verdict_mono hverdict h.instructionLimit⟩

/-! ### Reports compared -/

theorem length_probes_le :
    (probes program policy weak).length ≤ (probes program policy strong).length :=
  ((nodup_probes ..).subperm h.probes_subset).length_le

theorem count_listedCases_le (number : Int) :
    (listedCases program policy weak number).count ≤
      (listedCases program policy strong number).count :=
  Nat.le_min.2 ⟨Nat.min_le_left .., Nat.le_trans (Nat.min_le_right ..) h.caseLimit⟩

theorem truncated_listedCases (number : Int)
    (htruncated : (listedCases program policy strong number).truncated = true) :
    (listedCases program policy weak number).truncated = true :=
  decide_eq_true (Nat.lt_of_le_of_lt h.caseLimit (of_decide_eq_true htruncated))

end Settings.Weaker

/-- **Weaker settings pass whatever stronger ones pass.** They report the same listed numbers, no
more tuples, probes and foreign calls, and more numbers not all of whose tuples were tried. -/
theorem verify_of_weaker {raw : RawProgram} {policy : Policy} {weak strong : Settings}
    {report : Verification.Report} (h : weak.Weaker strong) (hlimit : 1 ≤ weak.caseLimit)
    (hverify : verify raw policy strong = .ok report) :
    ∃ weakReport, verify raw policy weak = .ok weakReport ∧
      weakReport.syscallsChecked = report.syscallsChecked ∧
      weakReport.casesChecked ≤ report.casesChecked ∧
      weakReport.unlistedProbes ≤ report.unlistedProbes ∧
      weakReport.foreignProbes ≤ report.foreignProbes ∧
      report.truncated.Sublist weakReport.truncated := by
  obtain ⟨-, program, hload, hpass, rfl⟩ := verify_eq_ok_iff.1 hverify
  have hpassWeak : ∀ check ∈ checks program policy weak,
      check.failure? program policy weak = none :=
    fun check hcheck => h.failure?_eq_none (hpass check (h.checks_subset hcheck))
  refine ⟨fullReport program policy weak, ?_, ?_⟩
  · exact verify_eq_ok_iff.2
      ⟨Nat.ne_of_gt hlimit, program, hload, hpassWeak, report_perform hpassWeak⟩
  · rw [report_perform hpass]
    refine ⟨rfl, ?_, h.length_probes_le, ?_, ?_⟩
    · exact List.sum_le_sum fun number _ => h.count_listedCases_le number
    · simp only [fullReport]
      split
      · next hforeign => rw [if_pos (h.checkForeign hforeign)]
      · exact Nat.zero_le _
    · exact List.monotone_filter_right _ h.truncated_listedCases

/-- The number 3 is allowed. -/
def onlyThree : Policy where
  syscalls := [3]
  evaluate _ _ := .ok .allow
  defaultAction := .errno 1
  architecture := .x86_64

def onlyThreeRaw : RawProgram :=
  [.plain .load 4, .branch .eq Architecture.x86_64.audit 1 0, .plain .ret Action.killProcess.code,
    .plain .load 0, .branch .eq 3 0 1, .plain .ret Action.allow.code,
    .plain .ret (Action.errno 1).code]

def thorough : Settings := { caseLimit := 20, probeLimit := 2 }

def brief : Settings :=
  { caseLimit := 10, probeLimit := 1, checkForeign := false, instructionLimit := 5000 }

theorem verify_onlyThree :
    verify onlyThreeRaw onlyThree thorough = .ok ⟨1, 20, 7, 16, [3]⟩ ∧
      ∃ report, verify onlyThreeRaw onlyThree brief = .ok report ∧
        report.syscallsChecked = 1 ∧ report.casesChecked ≤ 20 ∧ report.unlistedProbes ≤ 7 ∧
        report.foreignProbes ≤ 16 ∧ [3].Sublist report.truncated := by
  have hverify : verify onlyThreeRaw onlyThree thorough = .ok ⟨1, 20, 7, 16, [3]⟩ := by
    decide +kernel
  have hweaker : brief.Weaker thorough := by
    constructor <;> decide
  exact ⟨hverify, verify_of_weaker hweaker (by decide) hverify⟩

end SyscallFilter
