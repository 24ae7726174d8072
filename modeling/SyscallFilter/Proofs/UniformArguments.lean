import SyscallFilter.Proofs.ArgumentSampling

/-! Arguments that are looked at in one simple way.

Samples decide every value of an argument in two cases. If the rules compare the whole
argument with a single value, every class of the program has a sample at either end, and a
value other than the one compared with has one of the two on its own side of it
(`linked_of_single`). If the rules look at the low half only, the samples with high half 0
decide every low half; a sample of the program with another high half is tied to the one with
high half 0, which the rules do not tell from it (`linked_of_lowHalves`). -/
namespace SyscallFilter

open Bpf Sampling

namespace Sampling

variable {constants : List UInt64} {low high : Option (List UInt32)}
  {policyAlike : UInt64 → UInt64 → Prop}

/-! ### One value for the whole argument -/

theorem linked_of_single {v : UInt64} (hv : v ∈ constants)
    (hpolicy : ∀ a b, Alike [v] a b → policyAlike a b) (x : UInt64) :
    Linked (candidates constants low high) policyAlike (HalvesAlike low high) x x := by
  rcases Std.lt_trichotomy x v with hlt | rfl | hgt
  · obtain ⟨s, hs, hle, halike⟩ := exists_mem_candidates_le constants low high x
    have hslt : s < v := UInt64.lt_of_le_of_lt hle hlt
    refine .of_sample hs (hpolicy x s ?_) halike.symm
    intro c hc
    obtain rfl := List.mem_singleton.1 hc
    simp [hlt, hslt, UInt64.not_lt.2 (UInt64.le_of_lt hlt), UInt64.not_lt.2 (UInt64.le_of_lt hslt)]
  · exact .sample (mem_candidates.2 (.inl ⟨x, hv, .inl rfl⟩))
  · obtain ⟨s, hs, hge, halike⟩ := exists_mem_candidates_ge constants low high x
    have hsgt : v < s := UInt64.lt_of_lt_of_le hgt hge
    refine .of_sample hs (hpolicy x s ?_) halike.symm
    intro c hc
    obtain rfl := List.mem_singleton.1 hc
    simp [hgt, hsgt, UInt64.not_lt.2 (UInt64.le_of_lt hgt), UInt64.not_lt.2 (UInt64.le_of_lt hsgt)]

/-! ### Low halves only -/

theorem joinWords_zero {c : UInt64} (h : highWord c = 0) : joinWords 0 (lowWord c) = c := by
  rw [← h, joinWords_halves]

theorem joinWords_zero_succ {c : UInt64} (h : highWord c = 0) (hne : lowWord c + 1 ≠ 0) :
    joinWords 0 (lowWord c + 1) = c + 1 := by
  have hlow := toNat_sub_one hne
  have hc : c.toNat = (lowWord c).toNat := by
    conv_lhs => rw [← joinWords_zero h, toNat_joinWords]
    exact Nat.zero_add _
  have hlt := (lowWord c).toNat_lt
  rw [UInt32.add_sub_cancel] at hlow
  rw [← UInt64.toNat_inj, toNat_joinWords, UInt64.toNat_add, hlow, hc]
  show 0 * 0x100000000 + _ = (_ + 1) % 0x10000000000000000
  omega

/-- With high half 0 there is a sample for each class of low halves that the two kinds of
constants make together. -/
theorem exists_lowHalf_candidate (low high : Option (List UInt32))
    (hzero : ∀ c ∈ constants, highWord c = 0) (w : UInt32) :
    ∃ l, joinWords 0 l ∈ candidates constants low high ∧
      Alike (low.getD [] ++ constants.map lowWord) w l := by
  obtain ⟨l, -, halike, hl⟩ := exists_least_alike (low.getD [] ++ constants.map lowWord) w
  refine ⟨l, ?_, halike⟩
  by_cases h0 : l = 0
  · subst h0
    exact mem_candidates.2 (.inr (.inr (.inl rfl)))
  · obtain ⟨k, hk, hs⟩ := hl.resolve_left h0
    rcases List.mem_append.1 hk with hlow | hpolicy
    · have hsome : low.isSome ∨ high.isSome := by
        cases low with
        | none => cases hlow
        | some low => exact .inl rfl
      have hhalf : l ∈ halfCandidates (low.getD []) :=
        mem_halfCandidates.2 (.inl ⟨k, hlow, hs.imp_right .inr⟩)
      have hhigh : 0 ∈ halfCandidates (high.getD []) := mem_halfCandidates.2 (.inr (.inl rfl))
      exact mem_candidates.2 (.inr (.inl (joinWords_mem_joinedCandidates hsome hhigh hhalf)))
    · obtain ⟨c, hc, rfl⟩ := List.mem_map.1 hpolicy
      have hhigh := hzero c hc
      rcases hs with rfl | rfl
      · exact mem_candidates.2 (.inl ⟨c, hc, .inl (joinWords_zero hhigh)⟩)
      · exact mem_candidates.2 (.inl ⟨c, hc, .inr (.inr (joinWords_zero_succ hhigh h0))⟩)

theorem linked_lowHalf (low high : Option (List UInt32))
    (hzero : ∀ c ∈ constants, highWord c = 0)
    (hpolicy : ∀ a b, Alike (constants.map lowWord) (lowWord a) (lowWord b) → policyAlike a b)
    (w : UInt32) :
    Linked (candidates constants low high) policyAlike (HalvesAlike low high) (joinWords 0 w)
      (joinWords 0 w) := by
  obtain ⟨l, hl, halike⟩ := exists_lowHalf_candidate low high hzero w
  refine .of_sample hl (hpolicy _ _ ?_) ⟨?_, ?_⟩
  · rw [lowWord_joinWords, lowWord_joinWords]
    exact halike.mono fun k hk => List.mem_append_right _ hk
  · rw [lowWord_joinWords, lowWord_joinWords]
    exact halike.symm.mono fun k hk => List.mem_append_left _ hk
  · rw [highWord_joinWords, highWord_joinWords]
    exact .refl _ _

theorem linked_of_lowHalves (hzero : ∀ c ∈ constants, highWord c = 0)
    (hpolicy : ∀ a b, Alike (constants.map lowWord) (lowWord a) (lowWord b) → policyAlike a b)
    (x : UInt64) :
    Linked (candidates constants low high) policyAlike (HalvesAlike low high) x x := by
  have hlowHalf := linked_lowHalf low high hzero hpolicy
  have hdrop : ∀ y, policyAlike y (joinWords 0 (lowWord y)) := by
    intro y
    apply hpolicy
    rw [lowWord_joinWords]
    exact .refl _ _
  obtain ⟨s, hs, halike⟩ := exists_mem_candidates_halvesAlike constants low high x
  have hcross : HalvesAlike low high (joinWords 0 (lowWord x)) (joinWords 0 (lowWord s)) := by
    rw [HalvesAlike, lowWord_joinWords, lowWord_joinWords, highWord_joinWords, highWord_joinWords]
    exact ⟨halike.1, .refl _ _⟩
  -- from the value to its low half, on to that of the sample, and back up to the sample
  exact .chain (.program (.policy (hdrop x) (hlowHalf _)) hcross)
    (.policy (hdrop s) (hlowHalf _)) (.program (.sample hs) halike.symm)

end Sampling

/-! ### Rules that look at each argument in one way -/

/-- The conditions all look at the low half, or all compare the whole argument with one and
the same value. -/
def Condition.uniform (conditions : List Condition) : Bool :=
  conditions.all (·.width = .dword) ||
    conditions.all fun c => c.width = .qword && conditions.all (·.value = c.value)

namespace RuleSet

variable {ruleSet : RuleSet} {raw : RawProgram} {program : Program} {settings : Settings}
  {report : Verification.Report} {number : Int} {index : Nat}

/-- For every listed number, each argument is looked at in one way. -/
def looksUniformly (ruleSet : RuleSet) : Bool :=
  ruleSet.syscalls.all fun number =>
    (List.range 6).all fun index => Condition.uniform (ruleSet.conditionsOn number index)

theorem ordered_of_mem_conditionsOn (h : ruleSet.ordered) {condition : Condition}
    (hcondition : condition ∈ ruleSet.conditionsOn number index) : condition.ordered :=
  ordered_iff.1 h number condition (mem_conditionsOn.1 hcondition).1

theorem mem_constants_iff (h : ruleSet.ordered) {value : UInt64} :
    value ∈ ruleSet.constants number index ↔
      ∃ c ∈ ruleSet.conditionsOn number index, value = c.value &&& c.width.mask := by
  rw [constants_eq_flatMap, List.mem_flatMap]
  apply exists_congr
  intro c
  apply and_congr_right
  intro hc
  rw [Condition.constants_of_ordered (ordered_of_mem_conditionsOn h hc), List.mem_singleton]

theorem decided_of_dword (hordered : ruleSet.ordered)
    (hdword : ∀ c ∈ ruleSet.conditionsOn number index, c.width = .dword) (x : UInt64) :
    ruleSet.Decided program number index x := by
  apply linked_of_lowHalves
  · intro value hvalue
    obtain ⟨c, hc, rfl⟩ := (mem_constants_iff hordered).1 hvalue
    rw [hdword c hc, highWord_and, highWord_mask_dword, UInt32.and_zero]
  · intro a b halike c hc
    apply Condition.alike_of_words (ordered_of_mem_conditionsOn hordered hc)
    · refine halike.mono fun k hk => ?_
      rw [List.mem_singleton.1 hk, ← Condition.lowWord_and_mask c.width]
      exact List.mem_map_of_mem ((mem_constants_iff hordered).2 ⟨c, hc, rfl⟩)
    · intro hqword
      rw [hdword c hc] at hqword
      cases hqword

theorem decided_of_single (hordered : ruleSet.ordered) {v : UInt64}
    (hmem : v ∈ ruleSet.constants number index)
    (hsingle : ∀ c ∈ ruleSet.conditionsOn number index, c.width = .qword ∧ c.value = v)
    (x : UInt64) : ruleSet.Decided program number index x := by
  refine linked_of_single hmem ?_ x
  intro a b halike c hc
  obtain ⟨hqword, rfl⟩ := hsingle c hc
  rw [Condition.constants_of_ordered (ordered_of_mem_conditionsOn hordered hc), hqword,
    and_qword_mask, and_qword_mask, and_qword_mask]
  exact halike

theorem decided_of_uniform (hordered : ruleSet.ordered)
    (huniform : Condition.uniform (ruleSet.conditionsOn number index)) (x : UInt64) :
    ruleSet.Decided program number index x := by
  simp only [Condition.uniform, Bool.or_eq_true, List.all_eq_true, Bool.and_eq_true,
    decide_eq_true_eq] at huniform
  rcases huniform with hdword | hsingle
  · exact decided_of_dword hordered hdword x
  · by_cases hnone : ruleSet.conditionsOn number index = []
    · exact decided_of_dword hordered (by simp [hnone]) x
    · obtain ⟨c, hc⟩ := List.exists_mem_of_ne_nil _ hnone
      refine decided_of_single (v := c.value) hordered ?_ (fun d hd => ?_) x
      · refine (mem_constants_iff hordered).2 ⟨c, hc, ?_⟩
        rw [(hsingle c hc).1, and_qword_mask]
      · exact ⟨(hsingle d hd).1, (hsingle c hc).2 d hd⟩

/-- **Sampling is sound where each argument is looked at in one simple way.** If a verification
passed and tried all samples of a listed number, the program treats every call of the number
as the rules say, whatever constants it compares with. -/
theorem agrees_of_looksUniformly (hload : Program.load raw = .ok program)
    (hcomparing : program.comparing) (hordered : ruleSet.ordered)
    (huniform : ruleSet.looksUniformly)
    (hverify : verify raw ruleSet.policy settings = .ok report)
    (hnumber : number ∈ ruleSet.syscalls)
    (hsize : (sampledCases program ruleSet.policy settings (ruleSet.constants number)
      (UInt32.ofInt number)).size ≤ settings.caseLimit) (args : Args) :
    ruleSet.Agrees program settings number args := by
  apply agrees_of_decided hload hcomparing hordered hverify hnumber hsize
  intro i
  have hindices := List.all_eq_true.1 huniform number hnumber
  have hindex := List.all_eq_true.1 hindices i (List.mem_range.2 i.isLt)
  exact decided_of_uniform hordered hindex (args.get i)

/-- Only the file 1 may be closed; what stands in the high half does not matter. -/
def oneFile : RuleSet where
  rules := .ofList [
    (3, [⟨[⟨0, .dword, .eq, 0⟩], .errno 9⟩, ⟨[⟨0, .dword, .ge, 0x100000002⟩], .errno 9⟩])]
  defaultAction := .allow
  architecture := .x86_64
  names := .empty
  valid := by decide

/-- Decides the same by a comparison with a value that the rules do not mention. -/
def oneFileRaw : RawProgram :=
  [loadWord .nr, compareWord .eq 3 0 3, loadWord (.argLow 0), compareWord .eq 1 1 0,
    returnAction (.errno 9), returnAction .allow]

def oneFileProgram : Program where
  code := #[.load .nr, .branch .eq 3 2 5, .load (.argLow 0), .branch .eq 1 5 4,
    .ret (Action.errno 9).code, .ret Action.allow.code]

theorem agrees_oneFile :
    Program.load oneFileRaw = .ok oneFileProgram ∧ oneFile.looksUniformly ∧
      verify oneFileRaw oneFile.policy fewProbes = .ok ⟨1, 288, 5, 0, []⟩ ∧
      ∀ args, oneFile.Agrees oneFileProgram fewProbes 3 args := by
  have hload : Program.load oneFileRaw = .ok oneFileProgram := by decide
  have hverify : verify oneFileRaw oneFile.policy fewProbes = .ok ⟨1, 288, 5, 0, []⟩ := by
    decide +kernel
  exact ⟨hload, by decide, hverify, agrees_of_looksUniformly hload (by decide) (by decide)
    (by decide) hverify (by decide) (by decide +kernel)⟩

end RuleSet

end SyscallFilter
