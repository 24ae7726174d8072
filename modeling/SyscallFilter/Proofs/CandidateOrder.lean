import SyscallFilter.Proofs.FirstOccurrences
import SyscallFilter.Proofs.NumberClasses
import SyscallFilter.Proofs.PolicyConstants

/-! Which values are tried for an argument, and in which order.

The order of the candidates is documented as one sequence in which values may come up again:
`candidateSequence`. What is tried are the first occurrences of that sequence
(`candidates_eq_eraseDups`). The candidates are put together in pieces, the halves of an argument
first, and repetitions are dropped in each piece; that this changes nothing is
`eraseDups_flatMap` for the nested halves and `eraseDups_append_eq_filter` for the rest. -/
namespace SyscallFilter.Sampling

/-! ### The documented sequence -/

/-- Values for one half of an argument: the constants, for each constant its neighbours, the
extremes. A half that the program does not look at has the extremes only. -/
def halfSequence : Option (List UInt32) → List UInt32
  | none => [0, 0xffffffff]
  | some constants =>
    ascending constants ++ (ascending constants).flatMap (fun c => [c - 1, c + 1]) ++
      [0, 0xffffffff]

/-- Values put together from the two halves, the high half slowest, if the program looks at one. -/
def joinedSequence : Option (List UInt32) → Option (List UInt32) → List UInt64
  | none, none => []
  | low, high => (halfSequence high).flatMap fun h => (halfSequence low).map (joinWords h)

/-- All values for an argument in order, a value as often as there is a reason to try it. -/
def candidateSequence (constants : List UInt64) (low high : Option (List UInt32)) :
    List UInt64 :=
  ascending constants ++ joinedSequence low high ++
    ((ascending constants).flatMap (fun c => [c - 1, c + 1]) ++ [0, 0xffffffffffffffff])

theorem halfCandidates_getD (constants : Option (List UInt32)) :
    halfCandidates (constants.getD []) = (halfSequence constants).eraseDups := by
  cases constants with
  | none => rfl
  | some constants => rfl

theorem joinedCandidates_eq_eraseDups (low high : Option (List UInt32)) :
    joinedCandidates low high = (joinedSequence low high).eraseDups := by
  -- no value is put together twice, so there is nothing to erase
  rw [← eraseDups_eq_self (nodup_joinedCandidates low high)]
  have hjoined : ((halfCandidates (high.getD [])).flatMap fun h =>
        (halfCandidates (low.getD [])).map (joinWords h)).eraseDups =
      ((halfSequence high).flatMap fun h => (halfSequence low).map (joinWords h)).eraseDups := by
    rw [halfCandidates_getD, halfCandidates_getD]
    exact eraseDups_flatMap (fun h => eraseDups_map _ _) _
  cases low with
  | some low => exact hjoined
  | none =>
    cases high with
    | some high => exact hjoined
    | none => rfl

theorem candidates_eq_eraseDups (constants : List UInt64) (low high : Option (List UInt32)) :
    candidates constants low high = (candidateSequence constants low high).eraseDups := by
  have hconstants : (ascending constants).Nodup := (pairwise_ascending _).imp UInt64.ne_of_lt
  rw [candidateSequence, eraseDups_append_eq_filter, eraseDups_append_eq_filter,
    eraseDups_eq_self hconstants]
  simp only [candidates, joinedCandidates_eq_eraseDups, contains_eraseDups, List.contains_append,
    Bool.not_or]

/-! ### The values -/

/-- Worth trying for one half of an argument: a constant, a neighbour of one or an extreme. -/
def BoundaryWord (constants : Option (List UInt32)) (w : UInt32) : Prop :=
  (∃ values ∈ constants, ∃ c ∈ values, w = c ∨ w = c - 1 ∨ w = c + 1) ∨ w = 0 ∨ w = 0xffffffff

theorem boundaryWord_iff {constants : Option (List UInt32)} {w : UInt32} :
    BoundaryWord constants w ↔ w ∈ halfCandidates (constants.getD []) := by
  rw [mem_halfCandidates, BoundaryWord]
  cases constants with
  | none => simp
  | some values => simp

theorem mem_joinedCandidates_iff_boundaryWord {low high : Option (List UInt32)} {x : UInt64} :
    x ∈ joinedCandidates low high ↔ (low.isSome ∨ high.isSome) ∧
      ∃ h l, BoundaryWord high h ∧ BoundaryWord low l ∧ x = joinWords h l := by
  rw [mem_joinedCandidates]
  refine and_congr_right fun _ => ?_
  simp only [boundaryWord_iff]
  constructor
  · intro ⟨hhigh, hlow⟩
    exact ⟨highWord x, lowWord x, hhigh, hlow, (joinWords_halves x).symm⟩
  · intro ⟨h, l, hh, hl, hx⟩
    rw [hx, highWord_joinWords, lowWord_joinWords]
    exact ⟨hh, hl⟩

/-- **The candidates of an argument are the boundary values in the documented order.** They do not
repeat themselves. They are the constants of the policy with their neighbours, the extremes and, if
the program looks at a half, whatever is put together from boundary words. They stand in the order
in which `candidateSequence` first mentions them; how often and in which order the policy names its
constants does not matter. -/
theorem candidates_in_order (constants : List UInt64) (low high : Option (List UInt32)) :
    (candidates constants low high).Nodup ∧
    (∀ x, x ∈ candidates constants low high ↔
      (∃ c ∈ constants, x = c ∨ x = c - 1 ∨ x = c + 1) ∨
        ((low.isSome ∨ high.isSome) ∧
          ∃ h l, BoundaryWord high h ∧ BoundaryWord low l ∧ x = joinWords h l) ∨
        x = 0 ∨ x = 0xffffffffffffffff) ∧
    candidates constants low high = (candidateSequence constants low high).eraseDups ∧
    (candidates constants low high).Pairwise (fun x y =>
      (candidateSequence constants low high).idxOf x <
        (candidateSequence constants low high).idxOf y) ∧
    ∀ others : List UInt64, (∀ c, c ∈ others ↔ c ∈ constants) →
      candidates others low high = candidates constants low high := by
  refine ⟨nodup_candidates constants low high, ?_, candidates_eq_eraseDups constants low high,
    ?_, ?_⟩
  · intro x
    rw [mem_candidates, mem_joinedCandidates_iff_boundaryWord]
  · rw [candidates_eq_eraseDups]
    exact pairwise_idxOf_eraseDups _
  · intro others hothers
    simp only [candidates, ascending_congr hothers]

-- 4, 6 and 0 come up as low halves first, and only then as neighbours of 5 and 1.
example : candidates [5, 1, 5] (some [5]) none =
    [1, 5, 4, 6, 0, 0xffffffff, 0xffffffff00000005, 0xffffffff00000004, 0xffffffff00000006,
      0xffffffff00000000, 0xffffffffffffffff, 2] := by decide

end SyscallFilter.Sampling
