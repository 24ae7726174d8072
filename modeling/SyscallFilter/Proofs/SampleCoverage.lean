import SyscallFilter.Proofs.UniformArguments

/-! What the samples exercise.

The samples of a call take every path of a program: whatever the arguments are, some tuple of
samples runs alike (`exists_sample_runsAlike`).

Of the rules' own samples the same is to be asked for the decisions of the rules. Conditions
that look at an argument in one width are served, because the least value that they do not tell
from a given one is a constant, the value after it, or 0 (`matched_of_kept`), and so are values
whose high half is 0. If the low half is compared on its own beside the whole argument, a decision
may need a low half from one constant and a high half from another, and no sample is made so. The
tuples to be tried in addition are the `Overlooked` ones. -/
namespace SyscallFilter

open Bpf Sampling

/-! ### The paths of a program -/

namespace Sampling

variable {raw : RawProgram} {program : Program}

/-- **The samples take every path of a program.** For every tuple of arguments there is one of
samples on which the program executes the same instructions and returns the same value. -/
theorem exists_sample_runsAlike (hload : Program.load raw = .ok program)
    (hcomparing : program.comparing) (arch word : UInt32) (constants : Nat → List UInt64)
    (args : Args) :
    ∃ sample ∈ tuples (callCandidates constants (.ofProgram program ⟨arch, some word⟩)),
      program.RunsAlike (.ofWord word arch args) (.ofWord word arch sample) ∧
      ∃ value, ∀ limit, raw.length ≤ limit →
        program.run (.ofWord word arch args) limit = .ok value ∧
        program.run (.ofWord word arch sample) limit = .ok value := by
  have hloaded := load_eq_ok_iff.1 hload
  have hcarries := carries_ofWord word arch
  obtain ⟨sample, hsample, halike⟩ := exists_mem_tuples_argsAlike constants
    (.ofProgram program ⟨arch, some word⟩) args
  have hruns := runsAlike_of_alike hloaded.forward hloaded.length_pos hcomparing (hcarries args)
    (hcarries sample) (callsAlike_ofWord halike)
  exact ⟨sample, hsample, hruns, hloaded.exists_same_value hruns⟩

/-- Turns away the second argument from 2 ^ 33 + 7 on. -/
def fromBound : RawProgram :=
  [.plain .load 28, .branch .gt 2 4 0, .branch .eq 2 0 2, .plain .load 24, .branch .ge 7 1 0,
    .plain .ret 0x7fff0000, .plain .ret 0x50001]

def fromBoundProgram : Program where
  code := #[.load (.argHigh 1), .branch .gt 2 6 2, .branch .eq 2 3 5, .load (.argLow 1),
    .branch .ge 7 6 5, .ret 0x7fff0000, .ret 0x50001]

/-- A value far above the bound needs no constant of the rules. -/
theorem exists_sample_fromBound :
    Program.load fromBound = .ok fromBoundProgram ∧
      ∃ sample ∈ tuples (callCandidates (fun _ => [])
          (.ofProgram fromBoundProgram ⟨7, some 1⟩)),
        fromBoundProgram.RunsAlike (.ofWord 1 7 #v[0, 0x2ffff0000, 0, 0, 0, 0])
            (.ofWord 1 7 sample) ∧
          fromBoundProgram.path (.ofWord 1 7 sample) 7 = [0, 1, 2, 3, 4, 6] := by
  have hload : Program.load fromBound = .ok fromBoundProgram := by decide
  obtain ⟨sample, hsample, hruns, -⟩ := exists_sample_runsAlike hload (by decide) 7 1 (fun _ => [])
    #v[0, 0x2ffff0000, 0, 0, 0, 0]
  refine ⟨hload, sample, hsample, hruns, ?_⟩
  rw [← (hruns 7).1]
  decide

end Sampling

/-! ### The decisions of the rules -/

/-- The conditions all look at the low half, or all at the whole argument. -/
def Condition.oneWidth (conditions : List Condition) : Bool :=
  conditions.all (·.width = .dword) || conditions.all (·.width = .qword)

namespace RuleSet

variable {ruleSet : RuleSet} {number : Int} {index : Nat} {a b c x : UInt64} {args : Args}

/-- Samples of an argument, from the constants of the rules alone. -/
def ownCandidates (ruleSet : RuleSet) (number : Int) (index : Nat) : List UInt64 :=
  candidates (ruleSet.constants number index) none none

/-- All tuples of such samples. -/
def ownTuples (ruleSet : RuleSet) (number : Int) : List Args :=
  tuples (Vector.ofFn fun index => (ruleSet.ownCandidates number index).toArray)

/-- What the rules decide for the call they decide for some tuple of samples. -/
def Exercised (ruleSet : RuleSet) (number : Int) (args : Args) : Prop :=
  ∃ sample ∈ ruleSet.ownTuples number,
    ruleSet.evaluate number sample = ruleSet.evaluate number args

/-- No condition tells the value from some sample. -/
def Matched (ruleSet : RuleSet) (number : Int) (index : Nat) (x : UInt64) : Prop :=
  ∃ s ∈ ruleSet.ownCandidates number index, ruleSet.ConditionsAlike number index x s

/-- Halves of constants that no sample puts together. -/
def Overlooked (ruleSet : RuleSet) (number : Int) (args : Args) : Prop :=
  (∀ i : Fin 6, args.get i ∈ crossings (ruleSet.constants number i) none none) ∧
    ¬∀ i : Fin 6, ruleSet.Matched number i (args.get i)

instance : Decidable (ruleSet.ConditionsAlike number index a b) :=
  inferInstanceAs (Decidable (∀ condition ∈ ruleSet.conditionsOn number index, _))

instance : Decidable (ruleSet.Matched number index x) :=
  inferInstanceAs (Decidable (∃ s ∈ ruleSet.ownCandidates number index, _))

instance : Decidable (ruleSet.Overlooked number args) :=
  inferInstanceAs (Decidable (_ ∧ _))

theorem mem_ownTuples :
    args ∈ ruleSet.ownTuples number ↔ ∀ i : Fin 6, args.get i ∈ ruleSet.ownCandidates number i := by
  rw [ownTuples, mem_tuples]
  apply forall_congr'
  intro i
  rw [get_ofFn, List.mem_toArray]

theorem ConditionsAlike.trans (hab : ruleSet.ConditionsAlike number index a b)
    (hbc : ruleSet.ConditionsAlike number index b c) : ruleSet.ConditionsAlike number index a c :=
  fun condition hcondition => (hab condition hcondition).trans (hbc condition hcondition)

/-! ### Values that have a sample -/

/-- If masks do nothing to the value and those below it, the conditions compare it with the
constants that samples are made from. -/
theorem matched_of_kept
    (hkept : ∀ c ∈ ruleSet.conditionsOn number index, ∀ y ≤ x, y &&& c.width.mask = y) :
    ruleSet.Matched number index x := by
  obtain ⟨s, hle, halike, hs⟩ := exists_least_alike_argument (ruleSet.constants number index) x
  refine ⟨s, mem_candidates.2 ?_, ?_⟩
  · rcases hs with h0 | ⟨c, hc, hs⟩
    · exact .inr (.inr (.inl h0))
    · exact .inl ⟨c, hc, hs.imp_right .inr⟩
  · intro c hc
    rw [hkept c hc x (UInt64.le_refl x), hkept c hc s hle]
    refine halike.mono fun k hk => ?_
    rw [constants_eq_flatMap]
    exact List.mem_flatMap.2 ⟨c, hc, hk⟩

theorem and_mask_dword (y : UInt64) : y &&& Width.dword.mask = joinWords 0 (lowWord y) := by
  rw [eq_iff_words, highWord_joinWords, lowWord_joinWords, highWord_and, highWord_mask_dword,
    UInt32.and_zero, Condition.lowWord_and_mask]
  exact ⟨rfl, rfl⟩

/-- Masks do nothing to a value without a high half. -/
theorem and_mask_of_le (width : Width) (hx : highWord x = 0) {y : UInt64} (hy : y ≤ x) :
    y &&& width.mask = y := by
  cases width with
  | dword =>
    have hhigh : highWord y = 0 := by
      rw [← UInt32.toNat_inj, toNat_highWord, UInt32.toNat_zero] at hx ⊢
      have hle := UInt64.le_iff_toNat_le.1 hy
      omega
    rw [and_mask_dword, joinWords_zero hhigh]
  | qword => exact and_qword_mask y

theorem matched_of_highWord_eq_zero (hx : highWord x = 0) : ruleSet.Matched number index x :=
  matched_of_kept fun c _ _ hy => and_mask_of_le c.width hx hy

theorem matched_of_oneWidth
    (hwidth : Condition.oneWidth (ruleSet.conditionsOn number index)) (x : UInt64) :
    ruleSet.Matched number index x := by
  simp only [Condition.oneWidth, Bool.or_eq_true, List.all_eq_true, decide_eq_true_eq] at hwidth
  rcases hwidth with hdword | hqword
  · have hdrop : ruleSet.ConditionsAlike number index x (joinWords 0 (lowWord x)) := by
      intro c hc
      rw [hdword c hc, and_mask_dword, and_mask_dword, lowWord_joinWords]
      exact .refl _ _
    obtain ⟨s, hs, halike⟩ : ruleSet.Matched number index (joinWords 0 (lowWord x)) :=
      matched_of_highWord_eq_zero (highWord_joinWords 0 (lowWord x))
    exact ⟨s, hs, hdrop.trans halike⟩
  · apply matched_of_kept
    intro c hc y _
    rw [hqword c hc, and_qword_mask]

/-! ### Tuples that have a sample -/

theorem exercised_congr (hordered : ruleSet.ordered) (hnumber : number ∈ ruleSet.syscalls)
    {args' : Args}
    (h : ∀ i : Fin 6, ruleSet.ConditionsAlike number i (args.get i) (args'.get i)) :
    ruleSet.Exercised number args ↔ ruleSet.Exercised number args' := by
  rw [Exercised, Exercised, evaluate_eq_answer hnumber args, evaluate_eq_answer hnumber args',
    answer_eq_of_conditionsAlike hordered h]

theorem exercised_of_matched (hordered : ruleSet.ordered) (hnumber : number ∈ ruleSet.syscalls)
    (h : ∀ i : Fin 6, ruleSet.Matched number i (args.get i)) : ruleSet.Exercised number args := by
  obtain ⟨sample, hsample⟩ := exists_args h
  rw [exercised_congr hordered hnumber fun i => (hsample i).2]
  exact ⟨sample, mem_ownTuples.2 fun i => (hsample i).1, rfl⟩

/-- Every value can be moved to a crossing that no condition tells from it. -/
theorem exists_crossing_conditionsAlike (hordered : ruleSet.ordered) (x : UInt64) :
    ∃ s ∈ crossings (ruleSet.constants number index) none none,
      ruleSet.ConditionsAlike number index x s := by
  obtain ⟨s, hs, -, hlow, hhigh⟩ :
      ∃ s ∈ crossings (ruleSet.constants number index) none none, s ≤ x ∧ HalvesAlike _ _ x s :=
    exists_mem_joinedCandidates_le (.inl rfl) x
  refine ⟨s, hs, fun c hc => ?_⟩
  -- masking leaves the low half of a constant, so the crossings know that of every condition
  have hvalue := (mem_constants_iff hordered).2 ⟨c, hc, rfl⟩
  apply Condition.alike_of_words (ordered_of_mem_conditionsOn hordered hc)
  · refine hlow.mono fun k hk => ?_
    rw [List.mem_singleton.1 hk, ← Condition.lowWord_and_mask c.width]
    exact List.mem_map_of_mem hvalue
  · intro hqword
    refine hhigh.mono fun k hk => ?_
    rw [hqword, and_qword_mask] at hvalue
    rw [List.mem_singleton.1 hk]
    exact List.mem_map_of_mem hvalue

theorem exists_crossings_conditionsAlike (hordered : ruleSet.ordered) (args : Args) :
    ∃ args' : Args,
      (∀ i : Fin 6, args'.get i ∈ crossings (ruleSet.constants number i) none none) ∧
      ∀ i : Fin 6, ruleSet.ConditionsAlike number i (args.get i) (args'.get i) := by
  obtain ⟨args', hpiece⟩ := exists_args fun i =>
    @exists_crossing_conditionsAlike ruleSet number i hordered (args.get i)
  exact ⟨args', fun i => (hpiece i).1, fun i => (hpiece i).2⟩

/-- The program's constants only add samples. -/
theorem mem_callCandidates_of_mem_ownTuples (scanned : Constants)
    (h : args ∈ ruleSet.ownTuples number) :
    args ∈ tuples (callCandidates (ruleSet.constants number) scanned) := by
  rw [mem_ownTuples] at h
  refine mem_callCandidates.2 fun i => mem_candidates.2 ?_
  rcases mem_candidates.1 (h i) with hneighbour | hjoined | hextreme
  · exact .inl hneighbour
  · obtain ⟨hsome, -⟩ := mem_joinedCandidates.1 hjoined
    simp at hsome
  · exact .inr (.inr hextreme)

/-- **What the rules' own samples exercise.** If each argument is looked at in one width, or has no
high half, some tuple of samples is decided as the call is. All decisions about a number are
exercised exactly if those about the overlooked tuples are, of which there are finitely many. And
a program with one answer for the number can pass a verification without truncation only if that
is the answer of the rules wherever they are exercised. -/
theorem exercised_iff_exercised_overlooked (hordered : ruleSet.ordered)
    (hnumber : number ∈ ruleSet.syscalls) :
    (∀ args : Args, (∀ i : Fin 6, Condition.oneWidth (ruleSet.conditionsOn number i) ∨
        highWord (args.get i) = 0) → ruleSet.Exercised number args) ∧
    ((∀ args, ruleSet.Exercised number args) ↔
      ∀ args, ruleSet.Overlooked number args → ruleSet.Exercised number args) ∧
    ∀ raw program settings report action, Program.load raw = .ok program →
      verify raw ruleSet.policy settings = .ok report →
      (sampledCases program ruleSet.policy settings (ruleSet.constants number)
        (UInt32.ofInt number)).size ≤ settings.caseLimit →
      (∀ args, program.verdict (.ofWord (UInt32.ofInt number) ruleSet.architecture.audit args)
        settings.instructionLimit = .ok action) →
      ∀ args, ruleSet.Exercised number args → ruleSet.evaluate number args = .ok action := by
  refine ⟨?_, ⟨fun h args _ => h args, ?_⟩, ?_⟩
  · intro args h
    apply exercised_of_matched hordered hnumber
    intro i
    rcases h i with hwidth | hzero
    · exact matched_of_oneWidth hwidth _
    · exact matched_of_highWord_eq_zero hzero
  · intro hoverlooked args
    obtain ⟨args', hcrossings, halike⟩ := exists_crossings_conditionsAlike hordered args
    rw [exercised_congr hordered hnumber halike]
    -- no condition tells the crossings from the tuple, so they may stand for it
    by_cases hall : ∀ i : Fin 6, ruleSet.Matched number i (args'.get i)
    · exact exercised_of_matched hordered hnumber hall
    · exact hoverlooked args' ⟨hcrossings, hall⟩
  · rintro raw program settings report action hload hverify hsize hconstant args
      ⟨sample, hsample, hsame⟩
    obtain ⟨expected, hexpected, hverdict⟩ := agrees_of_sampled hload hverify hnumber hsize
      (mem_callCandidates_of_mem_ownTuples _ hsample)
    rw [hconstant] at hverdict
    rw [← hsame, hexpected, Except.ok.inj hverdict]

/-- Turns away what has low half 5 and is not 5. -/
def highFives : RuleSet where
  rules := .ofList [
    (0, [⟨[⟨0, .dword, .eq, 5⟩, ⟨0, .qword, .ge, 0x100000000⟩], .errno 1⟩])]
  defaultAction := .allow
  architecture := .x86_64
  names := .empty
  valid := by decide

def allowsAll : Program where
  code := #[.ret Action.allow.code]

def allowsAllRaw : RawProgram :=
  [returnAction .allow]

theorem verify_allowsAllRaw :
    verify allowsAllRaw highFives.policy fewProbes = .ok ⟨1, 256, 3, 0, []⟩ := by
  decide +kernel

theorem size_allowsAll :
    (sampledCases allowsAll highFives.policy fewProbes (highFives.constants 0)
      (UInt32.ofInt 0)).size ≤ fewProbes.caseLimit := by
  decide +kernel

theorem evaluate_ownTuples_highFives :
    ∀ sample ∈ highFives.ownTuples 0, highFives.evaluate 0 sample = .ok .allow := by
  have hall : (highFives.ownTuples 0).all fun sample =>
      highFives.evaluate 0 sample = .ok .allow := by
    decide +kernel
  intro sample hsample
  exact of_decide_eq_true (List.all_eq_true.1 hall sample hsample)

theorem not_exercised_highFives : ¬highFives.Exercised 0 #v[0x100000005, 0, 0, 0, 0, 0] := by
  rintro ⟨sample, hsample, hsame⟩
  rw [evaluate_ownTuples_highFives sample hsample] at hsame
  exact absurd hsame (by decide)

/-- The rules may have a decision that none of their samples asks for, so that a program without
it is verified: 5 is only tried with high half 0. -/
theorem highFives_verified_and_never_asked :
    highFives.ordered ∧ 0 ∈ highFives.syscalls ∧
      highFives.evaluate 0 #v[0x100000005, 0, 0, 0, 0, 0] = .ok (.errno 1) ∧
      (∀ sample ∈ highFives.ownTuples 0, highFives.evaluate 0 sample = .ok .allow) ∧
      ¬highFives.Exercised 0 #v[0x100000005, 0, 0, 0, 0, 0] ∧
      Program.load allowsAllRaw = .ok allowsAll ∧
      verify allowsAllRaw highFives.policy fewProbes = .ok ⟨1, 256, 3, 0, []⟩ :=
  ⟨by decide, by decide, by decide, evaluate_ownTuples_highFives, not_exercised_highFives,
    by decide, verify_allowsAllRaw⟩

theorem overlooked_highFives :
    highFives.Overlooked 0 #v[0x100000005, 0, 0, 0, 0, 0] ∧
      highFives.Exercised 0 #v[5, 0xffffffffffff, 0, 0, 0, 0] ∧
      highFives.evaluate 0 #v[5, 0xffffffffffff, 0, 0, 0, 0] = .ok .allow ∧
      ¬∀ args, highFives.Overlooked 0 args → highFives.Exercised 0 args := by
  have hload : Program.load allowsAllRaw = .ok allowsAll := by decide
  have hordered : highFives.ordered := by decide
  have hnumber : 0 ∈ highFives.syscalls := by decide
  obtain ⟨hserved, hexact, hconstant⟩ := exercised_iff_exercised_overlooked hordered hnumber
  have hfive := hserved #v[5, 0xffffffffffff, 0, 0, 0, 0] (by decide)
  refine ⟨by decide +kernel, hfive, ?_, ?_⟩
  · exact hconstant _ _ _ _ _ hload verify_allowsAllRaw size_allowsAll (fun _ => rfl) _ hfive
  · intro hoverlooked
    exact not_exercised_highFives (hexact.2 hoverlooked _)

end RuleSet

end SyscallFilter
