/-! Tables from system call numbers to values, listed by ascending number.

A table is determined by its lookups; `get?_alter` and `get?_insert` say what
each change does to them. -/
namespace SyscallFilter

structure Table (α : Type) where
  entries : List (Int × α)
  ascending : entries.Pairwise fun a b => a.1 < b.1

namespace Table

variable {α : Type}

/-- Changes the value at `key`, or puts one in its place. -/
def alterEntries (key : Int) (f : Option α → α) : List (Int × α) → List (Int × α)
  | [] => [(key, f none)]
  | (k, value) :: rest =>
    if key < k then (key, f none) :: (k, value) :: rest
    else if key = k then (key, f (some value)) :: rest
    else (k, value) :: alterEntries key f rest

theorem fst_of_mem_alterEntries {key : Int} {f : Option α → α} {entries : List (Int × α)}
    {e : Int × α} (h : e ∈ alterEntries key f entries) : e.1 = key ∨ ∃ e' ∈ entries, e'.1 = e.1 := by
  induction entries with
  | nil => simp_all [alterEntries]
  | cons head rest ih =>
    unfold alterEntries at h
    grind

theorem pairwise_alterEntries (key : Int) (f : Option α → α) {entries : List (Int × α)}
    (h : entries.Pairwise fun a b => a.1 < b.1) :
    (alterEntries key f entries).Pairwise fun a b => a.1 < b.1 := by
  induction entries with
  | nil => simp [alterEntries]
  | cons head rest ih =>
    have hrest : ∀ e ∈ rest, head.1 < e.1 := (List.pairwise_cons.1 h).1
    unfold alterEntries
    split
    · next hlt =>
      refine List.pairwise_cons.2 ⟨fun e he => ?_, h⟩
      rcases List.mem_cons.1 he with rfl | he
      · exact hlt
      · exact Int.lt_trans hlt (hrest _ he)
    · split
      · next heq =>
        refine List.pairwise_cons.2 ⟨fun e he => ?_, h.of_cons⟩
        show key < e.1
        rw [heq]
        exact hrest _ he
      · next hlt hne =>
        refine List.pairwise_cons.2 ⟨fun e he => ?_, ih h.of_cons⟩
        rcases fst_of_mem_alterEntries he with hk | ⟨e', he', hk⟩
        · show head.1 < e.1
          omega
        · rw [← hk]
          exact hrest _ he'

def empty : Table α := ⟨[], .nil⟩

def alter (table : Table α) (key : Int) (f : Option α → α) : Table α :=
  ⟨alterEntries key f table.entries, pairwise_alterEntries key f table.ascending⟩

/-- A value that was at `key` is replaced. -/
def insert (table : Table α) (key : Int) (value : α) : Table α :=
  table.alter key fun _ => value

def get? (table : Table α) (key : Int) : Option α :=
  table.entries.lookup key

def keys (table : Table α) : List Int :=
  table.entries.map Prod.fst

/-- Of pairs with the same key the last one counts. -/
def ofList (pairs : List (Int × α)) : Table α :=
  pairs.foldl (fun table pair => table.insert pair.1 pair.2) empty

/-! ### Lookups -/

theorem lookup_eq_none_of_lt {key : Int} {entries : List (Int × α)}
    (h : ∀ e ∈ entries, key < e.1) : entries.lookup key = none := by
  induction entries with
  | nil => rfl
  | cons head rest ih =>
    have hne : (key == head.1) = false := by
      have := h head (List.mem_cons_self ..)
      simp only [beq_eq_false_iff_ne]
      omega
    rw [List.lookup_cons, hne]
    exact ih fun e he => h e (List.mem_cons_of_mem _ he)

theorem lookup_alterEntries (key other : Int) (f : Option α → α) {entries : List (Int × α)}
    (h : entries.Pairwise fun a b => a.1 < b.1) :
    (alterEntries key f entries).lookup other =
      if other = key then some (f (entries.lookup key)) else entries.lookup other := by
  induction entries with
  | nil =>
    by_cases ho : other = key
    · simp [alterEntries, ho]
    · simp [alterEntries, List.lookup_cons, ho, beq_false_of_ne ho]
  | cons head rest ih =>
    obtain ⟨k, value⟩ := head
    have hrest : ∀ e ∈ rest, k < e.1 := (List.pairwise_cons.1 h).1
    unfold alterEntries
    split
    · next hlt =>
      have hnone : ((k, value) :: rest).lookup key = none :=
        lookup_eq_none_of_lt fun e he => by
          rcases List.mem_cons.1 he with rfl | he
          · exact hlt
          · exact Int.lt_trans hlt (hrest _ he)
      rw [hnone, List.lookup_cons]
      by_cases ho : other = key
      · simp [ho]
      · simp [ho, beq_false_of_ne ho]
    · split
      · next heq =>
        subst heq
        by_cases ho : other = key
        · simp [ho]
        · simp [List.lookup_cons, ho, beq_false_of_ne ho]
      · next hlt hne =>
        rw [List.lookup_cons, List.lookup_cons, List.lookup_cons, ih h.of_cons, beq_false_of_ne hne]
        by_cases ho : other = key
        · subst ho
          simp [beq_false_of_ne hne]
        · simp [ho]

theorem get?_alter (table : Table α) (key other : Int) (f : Option α → α) :
    (table.alter key f).get? other =
      if other = key then some (f (table.get? key)) else table.get? other :=
  lookup_alterEntries key other f table.ascending

theorem get?_insert (table : Table α) (key other : Int) (value : α) :
    (table.insert key value).get? other = if other = key then some value else table.get? other :=
  get?_alter table key other _

end Table

end SyscallFilter
