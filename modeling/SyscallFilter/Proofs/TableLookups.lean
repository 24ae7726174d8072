import Mathlib.Data.List.Sort
import SyscallFilter.Table

/-! Tables are what their lookups say.

An entry of a table is what is looked up under its key (`mem_entries_iff`), so a search through the
entries finds the least key at which there is something to be found
(`findSome?_entries_eq_some_iff`), and tables with related values under all keys have related
entries, one by one (`map_entries_congr`). -/
namespace SyscallFilter.Table

variable {α β γ : Type} {table : Table α} {key : Int} {value : α}

/-- What stands in front of an entry has smaller keys. -/
theorem lt_of_entries_eq {before after : List (Int × α)} {entry : Int × α}
    (h : table.entries = before ++ (key, value) :: after) (hentry : entry ∈ before) :
    entry.1 < key := by
  have hascending := table.ascending
  rw [h, List.pairwise_append] at hascending
  exact hascending.2.2 entry hentry _ (List.mem_cons_self ..)

theorem mem_entries_iff : (key, value) ∈ table.entries ↔ table.get? key = some value := by
  rw [get?, List.lookup_eq_some_iff]
  constructor
  · intro h
    obtain ⟨before, after, hentries⟩ := List.append_of_mem h
    exact ⟨before, after, hentries, fun entry hentry =>
      bne_iff_ne.2 (Int.ne_of_gt (lt_of_entries_eq hentries hentry))⟩
  · intro h
    obtain ⟨before, after, hentries, -⟩ := h
    rw [hentries]
    exact List.mem_append_right _ (List.mem_cons_self ..)

theorem mem_keys_iff : key ∈ table.keys ↔ ∃ value, table.get? key = some value := by
  simp only [keys, List.mem_map, Prod.exists, ← mem_entries_iff, exists_and_right, exists_eq_right]

theorem pairwise_keys (table : Table α) : table.keys.Pairwise (· < ·) :=
  List.pairwise_map.2 table.ascending

/-- A search in the order of keys ends at the least key with a result. -/
theorem findSome?_entries_eq_some_iff {f : Int × α → Option β} {result : β} :
    table.entries.findSome? f = some result ↔
      ∃ key value, table.get? key = some value ∧ f (key, value) = some result ∧
        ∀ smaller other, smaller < key → table.get? smaller = some other →
          f (smaller, other) = none := by
  simp only [← mem_entries_iff, List.findSome?_eq_some_iff]
  constructor
  · intro h
    obtain ⟨before, ⟨key, value⟩, after, hentries, hresult, hbefore⟩ := h
    have hascending := table.ascending
    rw [hentries] at hascending ⊢
    refine ⟨key, value, List.mem_append_right _ (List.mem_cons_self ..), hresult,
      fun smaller other hlt hmem => ?_⟩
    -- a smaller key stands in front of what is found, where the search has no result
    have hbehind := (List.pairwise_cons.1 (List.pairwise_append.1 hascending).2.1).1
    rcases List.mem_append.1 hmem with hmem | hmem
    · exact hbefore _ hmem
    · rcases List.mem_cons.1 hmem with heq | hmem
      · cases heq
        exact absurd hlt (Int.lt_irrefl _)
      · exact absurd hlt (Int.lt_asymm (hbehind _ hmem))
  · intro h
    obtain ⟨key, value, hmem, hresult, hsmaller⟩ := h
    obtain ⟨before, after, hentries⟩ := List.append_of_mem hmem
    refine ⟨before, (key, value), after, hentries, hresult, fun entry hentry => ?_⟩
    have hlt := lt_of_entries_eq hentries hentry
    rw [hentries] at hsmaller
    exact hsmaller entry.1 entry.2 hlt (List.mem_append_left _ hentry)

theorem findSome?_entries_eq_none_iff {f : Int × α → Option β} :
    table.entries.findSome? f = none ↔
      ∀ key value, table.get? key = some value → f (key, value) = none := by
  simp only [List.findSome?_eq_none_iff, Prod.forall, ← mem_entries_iff]

/-- The entries are what is looked up under the keys, one after the other. -/
theorem map_entries (table : Table α) (f : Int × α → γ) :
    table.entries.map f =
      table.keys.filterMap fun key => (table.get? key).map fun value => f (key, value) := by
  rw [keys, List.filterMap_map, ← List.filterMap_eq_map]
  refine List.filterMap_congr fun entry hentry => ?_
  rw [Function.comp_apply, Function.comp_apply, mem_entries_iff.1 hentry]
  rfl

/-- What is computed from each entry depends on the lookups alone. -/
theorem map_entries_congr {R : α → β → Prop} {other : Table β} {f : Int × α → γ}
    {g : Int × β → γ} (h : ∀ key, Option.Rel R (table.get? key) (other.get? key))
    (hfg : ∀ key a b, R a b → f (key, a) = g (key, b)) :
    table.entries.map f = other.entries.map g := by
  have hkeys : table.keys = other.keys := by
    refine table.pairwise_keys.eq_of_mem_iff other.pairwise_keys fun key => ?_
    have hkey := h key
    rw [mem_keys_iff, mem_keys_iff]
    generalize table.get? key = a, other.get? key = b at hkey ⊢
    cases hkey <;> simp
  rw [map_entries, map_entries, hkeys]
  refine List.filterMap_congr fun key _ => ?_
  have hkey := h key
  generalize table.get? key = a, other.get? key = b at hkey ⊢
  cases hkey with
  | none => rfl
  | some hvalue => exact congrArg some (hfg _ _ _ hvalue)

/-! ### Tables from lists -/

theorem get?_foldl_insert (pairs : List (Int × α)) (table : Table α) (key : Int) :
    (pairs.foldl (fun table pair => table.insert pair.1 pair.2) table).get? key =
      (pairs.reverse.lookup key).or (table.get? key) := by
  induction pairs generalizing table with
  | nil => rfl
  | cons pair rest ih =>
    rw [List.foldl_cons, ih, get?_insert, List.reverse_cons, List.lookup_append, Option.or_assoc]
    congr 1
    rw [List.lookup_cons, List.lookup_nil]
    by_cases h : key = pair.1 <;> simp [h, beq_false_of_ne]

/-- The last of several pairs with a key is found. -/
theorem get?_ofList (pairs : List (Int × α)) (key : Int) :
    (ofList pairs).get? key = pairs.reverse.lookup key := by
  rw [ofList, get?_foldl_insert]
  exact Option.or_none

end SyscallFilter.Table
