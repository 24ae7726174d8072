import Mathlib.Algebra.BigOperators.Group.List.Basic
import Mathlib.Data.List.Basic
import SyscallFilter.Sampling.Cases

/-! Tuples by rank are those of the cross product, in order.

A tuple is computed from its rank as the digits of a number whose bases are the numbers of
candidates. In the order of ranks tuples come as from six nested loops over the candidates
(`Cases.map_tuple_range`). -/
namespace SyscallFilter.Sampling

/-! ### Choices by rank -/

/-- All ways to take one value from each list, the first list varying slowest. -/
def crossProduct : List (List UInt64) → List (List UInt64)
  | [] => [[]]
  | list :: rest => list.flatMap fun value => (crossProduct rest).map (value :: ·)

/-- In pieces of equal length an index is a piece and an index in it. -/
theorem getElem?_flatMap_of_length {α β : Type} {f : α → List β} {n : Nat} (hn : 0 < n)
    (hf : ∀ a, (f a).length = n) (l : List α) (k : Nat) :
    (l.flatMap f)[k]? = l[k / n]?.bind fun a => (f a)[k % n]? := by
  induction l generalizing k with
  | nil => simp
  | cons a rest ih =>
    rw [List.flatMap_cons]
    by_cases hk : k < n
    · rw [List.getElem?_append_left (by rw [hf]; exact hk), Nat.div_eq_of_lt hk, Nat.mod_eq_of_lt hk]
      rfl
    · obtain ⟨j, rfl⟩ : ∃ j, k = j + n := ⟨k - n, by omega⟩
      rw [List.getElem?_append_right (by rw [hf]; omega), hf, Nat.add_sub_cancel, ih,
        Nat.add_div_right _ hn, Nat.add_mod_right]
      rfl

theorem ways_eq_prod (lists : List (Array UInt64)) :
    ways lists = (lists.map Array.size).prod := by
  induction lists with
  | nil => rfl
  | cons list rest ih =>
    rw [List.map_cons, List.prod_cons, ← ih]
    rfl

theorem length_crossProduct (lists : List (Array UInt64)) :
    (crossProduct (lists.map Array.toList)).length = ways lists := by
  induction lists with
  | nil => rfl
  | cons list rest ih =>
    simp only [List.map_cons, crossProduct, List.length_flatMap, List.length_map, ih]
    simp [ways]

theorem getElem?_crossProduct {lists : List (Array UInt64)} {rank : Nat} (h : rank < ways lists) :
    (crossProduct (lists.map Array.toList))[rank]? = some (choice lists rank) := by
  induction lists generalizing rank with
  | nil =>
    obtain rfl : rank = 0 := by simpa [ways] using h
    rfl
  | cons list rest ih =>
    have hways : ways (list :: rest) = list.size * ways rest := rfl
    have hpos : 0 < ways rest := by
      apply Nat.pos_of_ne_zero
      intro h0
      rw [hways, h0] at h
      omega
    have hsize : rank / ways rest < list.size := by
      rw [Nat.div_lt_iff_lt_mul hpos, ← hways]
      exact h
    rw [List.map_cons, crossProduct, getElem?_flatMap_of_length hpos
      (fun value => by rw [List.length_map, length_crossProduct])]
    simp [choice, ih (Nat.mod_lt _ hpos), hsize]

/-! ### Argument tuples -/

/-- Six nested loops, the one over the first argument outermost. -/
def tuples (candidates : Vector (Array UInt64) 6) : List Args :=
  candidates[0].toList.flatMap fun a => candidates[1].toList.flatMap fun b =>
  candidates[2].toList.flatMap fun c => candidates[3].toList.flatMap fun d =>
  candidates[4].toList.flatMap fun e => candidates[5].toList.map fun f => #v[a, b, c, d, e, f]

theorem map_toList_tuples (candidates : Vector (Array UInt64) 6) :
    (tuples candidates).map Vector.toList =
      crossProduct (candidates.toList.map Array.toList) := by
  obtain ⟨⟨list⟩, hsize⟩ := candidates
  match list, hsize with
  | [a, b, c, d, e, f], _ =>
    simp [tuples, crossProduct, List.map_flatMap, Function.comp_def, ← List.map_eq_flatMap]

theorem mem_tuples {candidates : Vector (Array UInt64) 6} {args : Args} :
    args ∈ tuples candidates ↔ ∀ i : Fin 6, args.get i ∈ candidates.get i := by
  obtain ⟨⟨list⟩, hsize⟩ := args
  match list, hsize with
  | [a, b, c, d, e, f], _ =>
    simp [tuples, Fin.forall_fin_succ, Vector.get]

namespace Cases

/-- The number of all tuples. -/
def size (cases : Cases) : Nat :=
  ways cases.candidates.toList

/-- The number of tuples up to the limit. -/
def count (cases : Cases) : Nat :=
  min cases.size cases.limit

theorem length_tuples (cases : Cases) : (tuples cases.candidates).length = cases.size := by
  rw [← List.length_map Vector.toList, map_toList_tuples, length_crossProduct]
  rfl

theorem map_tuple_range (cases : Cases) :
    (List.range cases.count).map cases.tuple = (tuples cases.candidates).take cases.limit := by
  apply List.map_injective_iff.2 (fun _ _ h => Vector.toList_inj.1 h)
  rw [List.map_take, map_toList_tuples]
  apply List.ext_getElem?
  intro k
  have hlength := length_crossProduct cases.candidates.toList
  by_cases hk : k < cases.count
  · have hlimit : k < cases.limit := by
      unfold count at hk
      omega
    have hsize : k < ways cases.candidates.toList := by
      unfold count size at hk
      omega
    rw [List.getElem?_take_of_lt hlimit, getElem?_crossProduct hsize]
    simp [hk, tuple]
  · rw [List.getElem?_eq_none (by simp; omega), List.getElem?_eq_none]
    rw [List.length_take, hlength]
    unfold count size at hk
    omega

end Cases

end SyscallFilter.Sampling
