import Mathlib.Data.List.Basic

/-! Dropping repetitions from lists.

A value that comes up again keeps its first place (`pairwise_idxOf_eraseDups`). Repetitions may be
dropped at any stage: appending, mapping and nesting lists give the same first occurrences whether
or not their parts were freed of repetitions before. `eraseDups_cons_eq_filter` turns the recursion
of `eraseDups` into one on the list itself, from which all of this follows. -/
namespace SyscallFilter.Sampling

variable {α β : Type} [DecidableEq α] [DecidableEq β]

theorem filter_ne_of_not_mem {value : α} {values : List α} (h : value ∉ values) :
    values.filter (fun other => !other == value) = values := by
  refine List.filter_eq_self.2 fun other hother => ?_
  simp only [Bool.not_eq_true', beq_eq_false_iff_ne]
  intro heq
  exact h (heq ▸ hother)

theorem eraseDups_filter (p : α → Bool) (values : List α) :
    (values.filter p).eraseDups = values.eraseDups.filter p := by
  induction hn : values.length using Nat.strongRecOn generalizing values with
  | ind n ih =>
    cases values with
    | nil => rfl
    | cons value rest =>
      have hshorter : (rest.filter fun other => !other == value).length < n := by
        rw [← hn, List.length_cons]
        exact Nat.lt_succ_of_le (List.length_filter_le ..)
      by_cases hvalue : p value = true
      · rw [List.filter_cons_of_pos hvalue, List.eraseDups_cons, List.eraseDups_cons,
          List.filter_cons_of_pos hvalue, ← ih _ hshorter _ rfl, List.filter_comm]
      · -- the dropped value takes its repetitions along
        have hgone : value ∉ rest.filter p := by simp [hvalue]
        rw [List.filter_cons_of_neg hvalue, List.eraseDups_cons, List.filter_cons_of_neg hvalue,
          ← ih _ hshorter _ rfl, List.filter_comm, filter_ne_of_not_mem hgone]

theorem eraseDups_cons_eq_filter (value : α) (rest : List α) :
    (value :: rest).eraseDups = value :: rest.eraseDups.filter (fun other => !other == value) := by
  rw [List.eraseDups_cons, eraseDups_filter]

theorem eraseDups_append_eq_filter (front back : List α) :
    (front ++ back).eraseDups =
      front.eraseDups ++ back.eraseDups.filter (fun value => !front.contains value) := by
  rw [List.eraseDups_append, ← eraseDups_filter]
  rfl

theorem eraseDups_eq_self {values : List α} (h : values.Nodup) : values.eraseDups = values := by
  induction values with
  | nil => rfl
  | cons value rest ih =>
    obtain ⟨hvalue, hrest⟩ := List.nodup_cons.1 h
    rw [eraseDups_cons_eq_filter, ih hrest, filter_ne_of_not_mem hvalue]

theorem contains_eraseDups (values : List α) (value : α) :
    values.eraseDups.contains value = values.contains value := by
  rw [Bool.eq_iff_iff, List.contains_iff_mem, List.contains_iff_mem, List.mem_eraseDups]

theorem eraseDups_append_congr {front front' back back' : List α}
    (hfront : front.eraseDups = front'.eraseDups) (hback : back.eraseDups = back'.eraseDups) :
    (front ++ back).eraseDups = (front' ++ back').eraseDups := by
  have hcontains : ∀ value, front.contains value = front'.contains value := by
    intro value
    rw [← contains_eraseDups front, hfront, contains_eraseDups]
  simp only [eraseDups_append_eq_filter, hfront, hback, hcontains]

/-- What a value contributes is contributed by its first occurrence. -/
theorem eraseDups_append_flatMap_filter (f : α → List β) (value : α) (rest : List α) :
    (f value ++ (rest.filter fun other => !other == value).flatMap f).eraseDups =
      (f value ++ rest.flatMap f).eraseDups := by
  rw [eraseDups_append_eq_filter, eraseDups_append_eq_filter, ← eraseDups_filter,
    ← eraseDups_filter]
  congr 2
  induction rest with
  | nil => rfl
  | cons other rest ih =>
    rw [List.flatMap_cons, List.filter_append, ← ih]
    by_cases heq : other = value
    · rw [List.filter_cons_of_neg (by simp [heq]), heq]
      simp
    · rw [List.filter_cons_of_pos (by simp [heq]), List.flatMap_cons, List.filter_append]

theorem eraseDups_flatMap {f g : α → List β}
    (h : ∀ value, (f value).eraseDups = (g value).eraseDups) (values : List α) :
    (values.eraseDups.flatMap f).eraseDups = (values.flatMap g).eraseDups := by
  induction values with
  | nil => rfl
  | cons value rest ih =>
    rw [eraseDups_cons_eq_filter, List.flatMap_cons, eraseDups_append_flatMap_filter]
    exact eraseDups_append_congr (h value) ih

theorem eraseDups_map (f : α → β) (values : List α) :
    (values.eraseDups.map f).eraseDups = (values.map f).eraseDups := by
  rw [List.map_eq_flatMap, List.map_eq_flatMap]
  exact eraseDups_flatMap (fun _ => rfl) values

/-- Values keep the order in which they first came up. -/
theorem pairwise_idxOf_eraseDups (values : List α) :
    values.eraseDups.Pairwise fun a b => values.idxOf a < values.idxOf b := by
  induction values with
  | nil => exact .nil
  | cons value rest ih =>
    rw [eraseDups_cons_eq_filter]
    have hlater : ∀ {a}, a ∈ rest.eraseDups.filter (fun other => !other == value) →
        (value :: rest).idxOf a = rest.idxOf a + 1 := by
      intro a ha
      have hne : a ≠ value := by simpa using (List.mem_filter.1 ha).2
      exact List.idxOf_cons_ne rest (Ne.symm hne)
    refine List.pairwise_cons.2 ⟨fun a ha => ?_, ?_⟩
    · rw [List.idxOf_cons_self, hlater ha]
      exact Nat.succ_pos _
    · refine (ih.filter _).imp_of_mem fun ha hb hlt => ?_
      rw [hlater ha, hlater hb]
      exact Nat.succ_lt_succ hlt

theorem nodup_eraseDups (values : List α) : values.eraseDups.Nodup := by
  refine (pairwise_idxOf_eraseDups values).imp fun {a b} hlt heq => ?_
  rw [heq] at hlt
  exact Nat.lt_irrefl _ hlt

end SyscallFilter.Sampling
