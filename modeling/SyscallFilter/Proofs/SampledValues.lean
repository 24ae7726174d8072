import SyscallFilter.Proofs.Comparisons
import SyscallFilter.Proofs.ConditionCode
import SyscallFilter.Sampling.Candidates

/-! What sampling one argument settles.

A policy looks at a whole argument, a program at its two halves. The values that a policy's
constants do not tell apart form one class, those that a program's constants do not tell
apart form another, and every class of either kind has a sample in it. A value whose two
classes have a sample in common is decided by that sample; more generally it is decided if a
chain of samples leads from the one class to the other (`Linked`), and only then
(`settled_iff`).

Classes of the two kinds cut each other, and not every piece has a sample of its own. The
`crossings` are values for every piece. -/
namespace SyscallFilter.Sampling

/-! ### Which values are sampled -/

section

variable {constants : List UInt64} {low high : Option (List UInt32)}

theorem mem_halfCandidates {constants : List UInt32} {w : UInt32} :
    w ∈ halfCandidates constants ↔
      (∃ c ∈ constants, w = c ∨ w = c - 1 ∨ w = c + 1) ∨ w = 0 ∨ w = 0xffffffff := by
  simp only [halfCandidates, List.mem_eraseDups, List.mem_append, List.mem_flatMap, mem_ascending,
    List.mem_cons, List.not_mem_nil, or_false]
  constructor
  · rintro ((h | ⟨c, hc, h⟩) | h)
    · exact .inl ⟨w, h, .inl rfl⟩
    · exact .inl ⟨c, hc, .inr h⟩
    · exact .inr h
  · rintro (⟨c, hc, rfl | h⟩ | h)
    · exact .inl (.inl hc)
    · exact .inl (.inr ⟨c, hc, h⟩)
    · exact .inr h

theorem mem_joinedCandidates {x : UInt64} :
    x ∈ joinedCandidates low high ↔ (low.isSome ∨ high.isSome) ∧
      highWord x ∈ halfCandidates (high.getD []) ∧ lowWord x ∈ halfCandidates (low.getD []) := by
  unfold joinedCandidates
  by_cases h : low.isSome ∨ high.isSome
  · simp only [Bool.or_eq_true, h, if_true, List.mem_flatMap, List.mem_map, true_and]
    constructor
    · rintro ⟨h, hh, l, hl, rfl⟩
      rw [highWord_joinWords, lowWord_joinWords]
      exact ⟨hh, hl⟩
    · rintro ⟨hh, hl⟩
      exact ⟨_, hh, _, hl, joinWords_halves x⟩
  · simp [h]

theorem mem_candidates {x : UInt64} :
    x ∈ candidates constants low high ↔
      (∃ c ∈ constants, x = c ∨ x = c - 1 ∨ x = c + 1) ∨ x ∈ joinedCandidates low high ∨
        x = 0 ∨ x = 0xffffffffffffffff := by
  have hothers : x ∈ ((ascending constants).flatMap (fun c => [c - 1, c + 1]) ++
      [0, 0xffffffffffffffff]).eraseDups ↔
      (∃ c ∈ constants, x = c - 1 ∨ x = c + 1) ∨ x = 0 ∨ x = 0xffffffffffffffff := by
    simp only [List.mem_eraseDups, List.mem_append, List.mem_flatMap, mem_ascending,
      List.mem_cons, List.not_mem_nil, or_false]
  have hself : (∃ c ∈ constants, x = c ∨ x = c - 1 ∨ x = c + 1) ↔
      x ∈ constants ∨ ∃ c ∈ constants, x = c - 1 ∨ x = c + 1 := by
    constructor
    · rintro ⟨c, hc, rfl | h⟩
      · exact .inl hc
      · exact .inr ⟨c, hc, h⟩
    · rintro (h | ⟨c, hc, h⟩)
      · exact ⟨x, h, .inl rfl⟩
      · exact ⟨c, hc, .inr h⟩
  simp only [candidates, List.mem_append, List.mem_filter, hothers, hself, mem_ascending,
    List.contains_eq_mem, Bool.and_eq_true, Bool.not_eq_true', decide_eq_false_iff_not]
  -- the filters only drop what stands further to the front
  by_cases hconstant : x ∈ constants
  · simp [hconstant]
  · by_cases hjoined : x ∈ joinedCandidates low high
    · simp [hconstant, hjoined]
    · simp [hconstant, hjoined]

end

/-! ### A sample of every class -/

theorem toNat_sub_one {s : UInt32} (hs : s ≠ 0) : s.toNat = (s - 1).toNat + 1 := by
  have hpos : 0 < s.toNat := by
    rw [Nat.pos_iff_ne_zero, ne_eq, ← UInt32.toNat_zero, UInt32.toNat_inj]
    exact hs
  have hpred : (s - 1).toNat = s.toNat - 1 :=
    UInt32.toNat_sub_of_le s 1 (UInt32.le_iff_toNat_le.2 hpos)
  omega

/-- Only a constant that is one of the two tells a value from the one before it. -/
theorem exists_eq_of_not_alike {constants : List UInt32} {s : UInt32} (hs : s ≠ 0)
    (h : ¬Alike constants s (s - 1)) : ∃ c ∈ constants, s = c ∨ s = c + 1 := by
  have hpred := toNat_sub_one hs
  simp only [Alike, not_forall] at h
  obtain ⟨c, hc, hdiffers⟩ := h
  refine ⟨c, hc, ?_⟩
  rw [← UInt32.toNat_inj, ← UInt32.toNat_inj, UInt32.toNat_add]
  simp only [UInt32.lt_iff_toNat_lt] at hdiffers
  have hlt := s.toNat_lt
  show s.toNat = c.toNat ∨ s.toNat = (c.toNat + 1) % 4294967296
  omega

/-- The least value of a class is the first one of all, a constant or the one after it. -/
theorem exists_least_alike_toNat {α : Type} [LT α] {toNat : α → Nat}
    (hlt : ∀ a b, a < b ↔ toNat a < toNat b) (hbelow : ∀ a, ∀ n ≤ toNat a, ∃ b, toNat b = n)
    (constants : List α) (w : α) :
    ∃ s, toNat s ≤ toNat w ∧ Alike constants w s ∧
      (toNat s = 0 ∨ ∃ c ∈ constants, toNat s = toNat c ∨ toNat s = toNat c + 1) := by
  induction hn : toNat w generalizing w with
  | zero => exact ⟨w, Nat.le_of_eq hn, .refl _ w, .inl hn⟩
  | succ n ih =>
    obtain ⟨v, hv⟩ := hbelow w n (by omega)
    by_cases h : Alike constants w v
    · obtain ⟨s, hle, halike, hs⟩ := ih v hv
      exact ⟨s, Nat.le_succ_of_le hle, h.trans halike, hs⟩
    · -- only a constant that is one of the two tells a value from the one before it
      simp only [Alike, not_forall, hlt] at h
      obtain ⟨c, hc, hdiffers⟩ := h
      exact ⟨w, Nat.le_of_eq hn, .refl _ w, .inr ⟨c, hc, by omega⟩⟩

theorem exists_least_alike (constants : List UInt32) (w : UInt32) :
    ∃ s ≤ w, Alike constants w s ∧ (s = 0 ∨ ∃ c ∈ constants, s = c ∨ s = c + 1) := by
  have hbelow : ∀ a : UInt32, ∀ n ≤ a.toNat, ∃ b : UInt32, b.toNat = n := by
    intro a n hn
    exact ⟨.ofNat n, UInt32.toNat_ofNat_of_lt' (Nat.lt_of_le_of_lt hn a.toNat_lt)⟩
  obtain ⟨s, hle, halike, hs⟩ :=
    exists_least_alike_toNat (fun _ _ => UInt32.lt_iff_toNat_lt) hbelow constants w
  refine ⟨s, UInt32.le_iff_toNat_le.2 hle, halike, hs.imp (fun h => UInt32.toNat_inj.1 h) ?_⟩
  rintro ⟨c, hc, heq⟩
  refine ⟨c, hc, heq.imp (fun h => UInt32.toNat_inj.1 h) fun h => UInt32.toNat_inj.1 ?_⟩
  have hs := s.toNat_lt
  rw [UInt32.toNat_add, h]
  exact (Nat.mod_eq_of_lt (by omega)).symm

/-- The same for whole arguments. -/
theorem exists_least_alike_argument (constants : List UInt64) (x : UInt64) :
    ∃ s ≤ x, Alike constants x s ∧ (s = 0 ∨ ∃ c ∈ constants, s = c ∨ s = c + 1) := by
  have hbelow : ∀ a : UInt64, ∀ n ≤ a.toNat, ∃ b : UInt64, b.toNat = n := by
    intro a n hn
    exact ⟨.ofNat n, UInt64.toNat_ofNat_of_lt' (Nat.lt_of_le_of_lt hn a.toNat_lt)⟩
  obtain ⟨s, hle, halike, hs⟩ :=
    exists_least_alike_toNat (fun _ _ => UInt64.lt_iff_toNat_lt) hbelow constants x
  refine ⟨s, UInt64.le_iff_toNat_le.2 hle, halike, hs.imp (fun h => UInt64.toNat_inj.1 h) ?_⟩
  rintro ⟨c, hc, heq⟩
  refine ⟨c, hc, heq.imp (fun h => UInt64.toNat_inj.1 h) fun h => UInt64.toNat_inj.1 ?_⟩
  have hs := s.toNat_lt
  rw [UInt64.toNat_add, h]
  exact (Nat.mod_eq_of_lt (by omega)).symm

/-- The greatest value of a class is the last one of all, a constant or the one before it. -/
theorem exists_greatest_alike (constants : List UInt32) (w : UInt32) :
    ∃ s ≥ w, Alike constants w s ∧ (s = 0xffffffff ∨ ∃ c ∈ constants, s = c ∨ s = c - 1) := by
  have hlt := w.toNat_lt
  induction hn : 0xffffffff - w.toNat generalizing w with
  | zero =>
    have hmax : w = 0xffffffff := UInt32.toNat_inj.1 (show w.toNat = 0xffffffff by omega)
    exact ⟨w, UInt32.le_refl w, .refl _ w, .inl hmax⟩
  | succ n ih =>
    have hsucc : (w + 1).toNat = w.toNat + 1 := by
      rw [UInt32.toNat_add]
      exact Nat.mod_eq_of_lt (by show w.toNat + 1 < 0x100000000; omega)
    have h0 : w + 1 ≠ 0 := by
      intro h0
      rw [h0] at hsucc
      cases hsucc
    by_cases h : Alike constants (w + 1) (w + 1 - 1)
    · obtain ⟨s, hle, halike, hs⟩ := ih (w + 1) (by omega) (by omega)
      have hle' : w ≤ w + 1 := UInt32.le_iff_toNat_le.2 (by omega)
      rw [UInt32.add_sub_cancel] at h
      exact ⟨s, UInt32.le_trans hle' hle, h.symm.trans halike, hs⟩
    · obtain ⟨c, hc, heq⟩ := exists_eq_of_not_alike h0 h
      refine ⟨w, UInt32.le_refl w, .refl _ w, .inr ⟨c, hc, ?_⟩⟩
      rcases heq with rfl | heq
      · exact .inr (UInt32.add_sub_cancel ..).symm
      · exact .inl ((UInt32.add_left_inj 1).1 heq)

theorem exists_mem_halfCandidates_le (constants : List UInt32) (w : UInt32) :
    ∃ s ∈ halfCandidates constants, s ≤ w ∧ Alike constants w s := by
  obtain ⟨s, hle, halike, h0 | ⟨c, hc, hs⟩⟩ := exists_least_alike constants w
  · exact ⟨s, mem_halfCandidates.2 (.inr (.inl h0)), hle, halike⟩
  · exact ⟨s, mem_halfCandidates.2 (.inl ⟨c, hc, hs.imp_right .inr⟩), hle, halike⟩

theorem exists_mem_halfCandidates_ge (constants : List UInt32) (w : UInt32) :
    ∃ s ∈ halfCandidates constants, s ≥ w ∧ Alike constants w s := by
  obtain ⟨s, hge, halike, hmax | ⟨c, hc, hs⟩⟩ := exists_greatest_alike constants w
  · exact ⟨s, mem_halfCandidates.2 (.inr (.inr hmax)), hge, halike⟩
  · exact ⟨s, mem_halfCandidates.2 (.inl ⟨c, hc, hs.imp_right .inl⟩), hge, halike⟩

section

variable {constants : List UInt64} {low high : Option (List UInt32)} {a b x : UInt64}

/-- The program's constants for the two halves do not tell the values apart. -/
def HalvesAlike (low high : Option (List UInt32)) (a b : UInt64) : Prop :=
  Alike (low.getD []) (lowWord a) (lowWord b) ∧ Alike (high.getD []) (highWord a) (highWord b)

theorem HalvesAlike.symm (h : HalvesAlike low high a b) : HalvesAlike low high b a :=
  ⟨h.1.symm, h.2.symm⟩

/-- A program that looks at neither half has a single class. -/
theorem halvesAlike_of_not_isSome (h : ¬(low.isSome ∨ high.isSome)) (a b : UInt64) :
    HalvesAlike low high a b := by
  simp only [not_or, Option.not_isSome_iff_eq_none] at h
  obtain ⟨rfl, rfl⟩ := h
  constructor
  · intro k hk
    cases hk
  · intro k hk
    cases hk

theorem joinWords_mem_joinedCandidates (hsome : low.isSome ∨ high.isSome) {h l : UInt32}
    (hh : h ∈ halfCandidates (high.getD [])) (hl : l ∈ halfCandidates (low.getD [])) :
    joinWords h l ∈ joinedCandidates low high := by
  rw [mem_joinedCandidates, highWord_joinWords, lowWord_joinWords]
  exact ⟨hsome, hh, hl⟩

theorem joinWords_mono {h h' l l' : UInt32} (hh : h ≤ h') (hl : l ≤ l') :
    joinWords h l ≤ joinWords h' l' := by
  rw [UInt64.le_iff_toNat_le, toNat_joinWords, toNat_joinWords]
  rw [UInt32.le_iff_toNat_le] at hh hl
  omega

/-- Values are sampled half by half. -/
theorem exists_mem_joinedCandidates {lowAlike highAlike : UInt32 → UInt32 → Prop}
    (hsome : low.isSome ∨ high.isSome)
    (hlow : ∀ w, ∃ s ∈ halfCandidates (low.getD []), lowAlike w s)
    (hhigh : ∀ w, ∃ s ∈ halfCandidates (high.getD []), highAlike w s) (x : UInt64) :
    ∃ s ∈ joinedCandidates low high,
      lowAlike (lowWord x) (lowWord s) ∧ highAlike (highWord x) (highWord s) := by
  obtain ⟨l, hl, hlx⟩ := hlow (lowWord x)
  obtain ⟨h, hh, hhx⟩ := hhigh (highWord x)
  refine ⟨joinWords h l, joinWords_mem_joinedCandidates hsome hh hl, ?_⟩
  rw [lowWord_joinWords, highWord_joinWords]
  exact ⟨hlx, hhx⟩

theorem exists_mem_joinedCandidates_le (hsome : low.isSome ∨ high.isSome) (x : UInt64) :
    ∃ s ∈ joinedCandidates low high, s ≤ x ∧ HalvesAlike low high x s := by
  obtain ⟨s, hs, ⟨hlle, hlow⟩, hhle, hhigh⟩ := exists_mem_joinedCandidates hsome
    (exists_mem_halfCandidates_le _) (exists_mem_halfCandidates_le _) x
  refine ⟨s, hs, ?_, hlow, hhigh⟩
  have hle := joinWords_mono hhle hlle
  rwa [joinWords_halves, joinWords_halves] at hle

theorem exists_mem_joinedCandidates_ge (hsome : low.isSome ∨ high.isSome) (x : UInt64) :
    ∃ s ∈ joinedCandidates low high, s ≥ x ∧ HalvesAlike low high x s := by
  obtain ⟨s, hs, ⟨hlge, hlow⟩, hhge, hhigh⟩ := exists_mem_joinedCandidates hsome
    (exists_mem_halfCandidates_ge _) (exists_mem_halfCandidates_ge _) x
  refine ⟨s, hs, ?_, hlow, hhigh⟩
  have hge := joinWords_mono hhge hlge
  rwa [joinWords_halves, joinWords_halves] at hge

theorem exists_mem_candidates_le (constants : List UInt64) (low high : Option (List UInt32))
    (x : UInt64) : ∃ s ∈ candidates constants low high, s ≤ x ∧ HalvesAlike low high x s := by
  by_cases hsome : low.isSome ∨ high.isSome
  · obtain ⟨s, hs, h⟩ := exists_mem_joinedCandidates_le hsome x
    exact ⟨s, mem_candidates.2 (.inr (.inl hs)), h⟩
  · exact ⟨0, mem_candidates.2 (.inr (.inr (.inl rfl))), UInt64.zero_le,
      halvesAlike_of_not_isSome hsome x 0⟩

theorem exists_mem_candidates_ge (constants : List UInt64) (low high : Option (List UInt32))
    (x : UInt64) : ∃ s ∈ candidates constants low high, s ≥ x ∧ HalvesAlike low high x s := by
  by_cases hsome : low.isSome ∨ high.isSome
  · obtain ⟨s, hs, h⟩ := exists_mem_joinedCandidates_ge hsome x
    exact ⟨s, mem_candidates.2 (.inr (.inl hs)), h⟩
  · refine ⟨0xffffffffffffffff, mem_candidates.2 (.inr (.inr (.inr rfl))), ?_,
      halvesAlike_of_not_isSome hsome x _⟩
    exact UInt64.le_iff_toNat_le.2 (Nat.le_of_lt_succ x.toNat_lt)

theorem exists_mem_candidates_halvesAlike (constants : List UInt64)
    (low high : Option (List UInt32)) (x : UInt64) :
    ∃ s ∈ candidates constants low high, HalvesAlike low high x s := by
  obtain ⟨s, hs, -, halike⟩ := exists_mem_candidates_le constants low high x
  exact ⟨s, hs, halike⟩

end

/-! ### Values decided by samples -/

/-- Samples force what a policy does on the first value to be what a program does on the
second: a sample ties its own two classes together, and chains of samples tie others. -/
inductive Linked {α : Type} (samples : List α) (policyAlike programAlike : α → α → Prop) :
    α → α → Prop
  | sample {s : α} (h : s ∈ samples) : Linked samples policyAlike programAlike s s
  | policy {a b y : α} (h : policyAlike a b) (hb : Linked samples policyAlike programAlike b y) :
      Linked samples policyAlike programAlike a y
  | program {x a b : α} (ha : Linked samples policyAlike programAlike x a)
      (h : programAlike a b) : Linked samples policyAlike programAlike x b
  /-- From a class of the policy to one of the program, back and forth again. -/
  | chain {x y x' y' : α} (h : Linked samples policyAlike programAlike x y)
      (hback : Linked samples policyAlike programAlike x' y)
      (hforth : Linked samples policyAlike programAlike x' y') :
      Linked samples policyAlike programAlike x y'

theorem Linked.agree {α : Type} {samples : List α} {policyAlike programAlike : α → α → Prop}
    {expected actual : α → Prop}
    (hexpected : ∀ a b, policyAlike a b → (expected a ↔ expected b))
    (hactual : ∀ a b, programAlike a b → (actual a ↔ actual b))
    (hsamples : ∀ s ∈ samples, expected s ↔ actual s) {x y : α}
    (h : Linked samples policyAlike programAlike x y) : expected x ↔ actual y := by
  induction h with
  | sample h => exact hsamples _ h
  | policy h _ ih => exact (hexpected _ _ h).trans ih
  | program _ h ih => exact ih.trans (hactual _ _ h)
  | chain _ _ _ ih ihback ihforth => exact ih.trans (ihback.symm.trans ihforth)

/-- Values stay linked if a policy tells fewer of them apart. -/
theorem Linked.mono {α : Type} {samples : List α} {policyAlike coarser programAlike : α → α → Prop}
    {x y : α} (h : Linked samples policyAlike programAlike x y)
    (hcoarser : ∀ a b, policyAlike a b → coarser a b) : Linked samples coarser programAlike x y := by
  induction h with
  | sample h => exact .sample h
  | policy h _ ih => exact .policy (hcoarser _ _ h) ih
  | program _ h ih => exact .program ih h
  | chain _ _ _ ih ihback ihforth => exact .chain ih ihback ihforth

/-- A sample that neither side tells from a value decides it. -/
theorem Linked.of_sample {α : Type} {samples : List α} {policyAlike programAlike : α → α → Prop}
    {x s : α} (hs : s ∈ samples) (hpolicy : policyAlike x s) (hprogram : programAlike s x) :
    Linked samples policyAlike programAlike x x :=
  .program (.policy hpolicy (.sample hs)) hprogram

section

variable {constants : List UInt64} {low high : Option (List UInt32)} {a b x : UInt64}

/-- The candidates link the class of the policy that the value is in to that of the program. -/
def Settled (constants : List UInt64) (low high : Option (List UInt32)) (x : UInt64) : Prop :=
  Linked (candidates constants low high) (Alike constants) (HalvesAlike low high) x x

/-- **A value is decided by the samples exactly if it is settled.** If it is not, what a policy
with these constants wants and what a program with these constants does can be the same on
every sample and differ on the value. -/
theorem settled_iff :
    Settled constants low high x ↔
      ∀ expected actual : UInt64 → Prop,
        (∀ a b, Alike constants a b → (expected a ↔ expected b)) →
        (∀ a b, HalvesAlike low high a b → (actual a ↔ actual b)) →
        (∀ s ∈ candidates constants low high, expected s ↔ actual s) →
        (expected x ↔ actual x) := by
  constructor
  · intro h expected actual hexpected hactual hsamples
    exact h.agree hexpected hactual hsamples
  · intro h
    let tied := Linked (candidates constants low high) (Alike constants) (HalvesAlike low high)
    -- what is tied to the value, on the side of the policy and on that of the program
    refine (h (tied · x) (fun b => ∃ a, tied a b ∧ tied a x) ?_ ?_ ?_).2 ?_
    · intro a b hab
      exact ⟨fun ha => .policy hab.symm ha, fun hb => .policy hab hb⟩
    · intro a b hab
      constructor
      · rintro ⟨c, hca, hcx⟩
        exact ⟨c, .program hca hab, hcx⟩
      · rintro ⟨c, hcb, hcx⟩
        exact ⟨c, .program hcb hab.symm, hcx⟩
    · intro s hs
      constructor
      · intro hsx
        exact ⟨s, .sample hs, hsx⟩
      · rintro ⟨c, hcs, hcx⟩
        exact .chain (.sample hs) hcs hcx
    · obtain ⟨s, hs, halike⟩ := exists_mem_candidates_halvesAlike constants low high x
      have hsx : tied s x := .program (.sample hs) halike.symm
      exact ⟨s, hsx, hsx⟩

/-! ### A value of every piece -/

/-- Candidates for both kinds of constants at once: the halves of the policy's constants are
crossed with the program's. -/
def crossings (constants : List UInt64) (low high : Option (List UInt32)) : List UInt64 :=
  joinedCandidates (some (low.getD [] ++ constants.map lowWord))
    (some (high.getD [] ++ constants.map highWord))

theorem alike_of_halves (hlow : Alike (constants.map lowWord) (lowWord a) (lowWord b))
    (hhigh : Alike (constants.map highWord) (highWord a) (highWord b)) : Alike constants a b := by
  intro k hk
  have hl := hlow _ (List.mem_map_of_mem hk)
  have hh := hhigh _ (List.mem_map_of_mem hk)
  have heq := hhigh.eq_iff (List.mem_map_of_mem hk)
  rw [lt_iff_words, lt_iff_words, lt_iff_words, lt_iff_words, hl.1, hl.2, hh.1, hh.2, heq,
    eq_comm (a := highWord k), heq, eq_comm (a := highWord k)]
  exact ⟨Iff.rfl, Iff.rfl⟩

theorem exists_mem_crossings (constants : List UInt64) (low high : Option (List UInt32))
    (x : UInt64) :
    ∃ s ∈ crossings constants low high, Alike constants x s ∧ HalvesAlike low high x s := by
  obtain ⟨s, hs, -, hlow, hhigh⟩ :
      ∃ s ∈ crossings constants low high, s ≤ x ∧ HalvesAlike _ _ x s :=
    exists_mem_joinedCandidates_le (.inl rfl) x
  refine ⟨s, hs, alike_of_halves ?_ ?_, ?_, ?_⟩
  · exact hlow.mono fun k hk => List.mem_append_right _ hk
  · exact hhigh.mono fun k hk => List.mem_append_right _ hk
  · exact hlow.mono fun k hk => List.mem_append_left _ hk
  · exact hhigh.mono fun k hk => List.mem_append_left _ hk

end

end SyscallFilter.Sampling
