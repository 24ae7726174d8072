import Mathlib.Algebra.BigOperators.Group.List.Basic
import Mathlib.Algebra.Ring.Nat
import SyscallFilter.Proofs.NumberClasses

/-! Scanning a program with a stack.

The sweep over a program meets its points in the order of the instructions. A search does without
that order: it keeps a stack of points to come and a record of the points that it has expanded.
Every round takes one point from the stack. If it was expanded before, that is all; if not, its
instruction is looked at, what it looks for is recorded, and the points that it leads to are put on
the stack (`Search.next?`).

Neither the stack nor the record tells how many rounds are left, for the stack grows at branches on
open words and the record does not grow at points met again. What does is the stack together with
all that is going to be put on it: the successors of the points not expanded yet. Every round takes
exactly one away (`Search.Round.remaining`), so a search ends, after as many rounds as there are
points on its stack altogether, and it finds what the sweep finds (`search_ends_inside`). -/
namespace SyscallFilter.Sampling

open Bpf

/-! ### The sweep meets every point once -/

section

variable {given : Given} {rest : List Instruction} {frontier : List Point} {pc : Nat}

theorem nodup_foldr_insert {found ahead : List Point} (h : ahead.Nodup) :
    (found.foldr List.insert ahead).Nodup := by
  induction found with
  | nil => exact h
  | cons head found ih => exact ih.insert

theorem nodup_sweep (h : frontier.Nodup) : (sweep given pc rest frontier).Nodup := by
  induction rest generalizing pc frontier with
  | nil => exact .nil
  | cons i rest ih =>
    refine List.nodup_append.2 ⟨h.filter _, ih (nodup_foldr_insert (h.filter _)), ?_⟩
    rintro p hhere q hlater rfl
    have hpc : p.pc = pc := by simpa using (List.mem_filter.1 hhere).2
    have hle := le_pc_of_mem_sweep hlater
    omega

theorem nodup_explored (program : Program) (given : Given) : (explored program given).Nodup :=
  nodup_sweep (List.nodup_singleton _)

end

/-! ### Points of a loaded program -/

section

variable {program : Program} {given : Given} {p q : Point}

/-- The points that the instruction at a point leads to. -/
def Point.onward (program : Program) (given : Given) (point : Point) : List Point :=
  match program.code[point.pc]? with
  | none => []
  | some i => point.successors given i

theorem Point.onward_eq {i : Instruction} (hi : program.code[p.pc]? = some i) :
    p.onward program given = p.successors given i := by
  rw [onward, hi]

theorem Point.exists_instruction_of_mem_onward (h : q ∈ p.onward program given) :
    ∃ i, program.code[p.pc]? = some i ∧ q ∈ p.successors given i := by
  unfold onward at h
  split at h
  · cases h
  · next i hi => exact ⟨i, hi, h⟩

/-- Points lead forward, and not out of the program. -/
theorem Point.pc_lt_of_mem_onward (hforward : program.Forward) (h : q ∈ p.onward program given) :
    p.pc < q.pc ∧ q.pc < program.length := by
  obtain ⟨i, hi, hq⟩ := exists_instruction_of_mem_onward h
  exact hforward p.pc i hi q.pc (pc_mem_exits hq)

theorem mem_explored_of_mem_onward (hforward : program.Forward) (hp : p ∈ explored program given)
    (h : q ∈ p.onward program given) : q ∈ explored program given := by
  obtain ⟨i, hi, hq⟩ := Point.exists_instruction_of_mem_onward h
  exact mem_explored_of_mem_successors hforward hp hi hq

theorem mem_onward_of_leads (h : Leads program given p q) : q ∈ p.onward program given := by
  obtain ⟨i, hi, hq⟩ := h.exists_successor
  rw [Point.onward_eq hi]
  exact hq

theorem pc_lt_of_mem_explored (hforward : program.Forward) (hpos : 0 < program.length)
    (h : p ∈ explored program given) : p.pc < program.length := by
  have hpath := (mem_explored_iff hforward hpos).1 h
  induction hpath with
  | refl => exact hpos
  | tail _ hleads _ => exact (Point.pc_lt_of_mem_onward hforward (mem_onward_of_leads hleads)).2

end

/-! ### Searches -/

/-- What a search has yet to do, and what it has done. -/
structure Search where
  /-- The points to come, the next one first. -/
  pending : List Point
  /-- The points that were expanded. -/
  visited : List Point
  /-- Words with the constants that were looked for in them. -/
  recorded : List (Field × UInt32)
  deriving DecidableEq, Repr

namespace Search

def start : Search :=
  ⟨[.start], [], []⟩

/-- The search after another round, if there is a point left. An index without an instruction counts
as visited, but nothing is looked at. -/
def next? (program : Program) (given : Given) (search : Search) : Option Search :=
  match search.pending with
  | [] => none
  | point :: rest =>
    if point ∈ search.visited then some { search with pending := rest }
    else
      match program.code[point.pc]? with
      | none => some { search with pending := rest, visited := point :: search.visited }
      | some i =>
        some {
          pending := point.successors given i ++ rest
          visited := point :: search.visited
          recorded := (point.recorded? i).toList ++ search.recorded }

/-- The search after so many rounds, if it has not come to its end before. -/
def after? (program : Program) (given : Given) : (rounds : Nat) → Option Search
  | 0 => some start
  | rounds + 1 => (after? program given rounds).bind (next? program given)

/-- The point that the next round expands, if it does not only drop one. -/
def expanded? (search : Search) : Option Point :=
  match search.pending with
  | [] => none
  | point :: _ => if point ∈ search.visited then none else some point

/-- What was recorded, by the word. -/
def constants (search : Search) : Constants :=
  ⟨search.recorded⟩

variable {program : Program} {given : Given} {search next : Search} {point : Point}

/-- What a round does while all points to come are inside the program. -/
inductive Round (program : Program) (given : Given) : Search → Search → Prop
  | drops {point : Point} {rest visited : List Point} {recorded : List (Field × UInt32)}
      (hvisited : point ∈ visited) :
      Round program given ⟨point :: rest, visited, recorded⟩ ⟨rest, visited, recorded⟩
  | expands {point : Point} {rest visited : List Point} {recorded : List (Field × UInt32)}
      {i : Instruction} (hnew : point ∉ visited) (hi : program.code[point.pc]? = some i) :
      Round program given ⟨point :: rest, visited, recorded⟩
        ⟨point.onward program given ++ rest, point :: visited,
          (point.recorded? i).toList ++ recorded⟩

theorem round_of_next? (hinside : ∀ p ∈ search.pending, p.pc < program.length)
    (h : search.next? program given = some next) : Round program given search next := by
  obtain ⟨pending, visited, recorded⟩ := search
  cases pending with
  | nil => cases h
  | cons point rest =>
    obtain ⟨i, hi⟩ : ∃ i, program.code[point.pc]? = some i :=
      ⟨_, Array.getElem?_eq_getElem (hinside point (List.mem_cons_self ..))⟩
    by_cases hvisited : point ∈ visited
    · simp only [next?, if_pos hvisited, Option.some.injEq] at h
      subst h
      exact .drops hvisited
    · simp only [next?, if_neg hvisited, hi, Option.some.injEq] at h
      subst h
      rw [← Point.onward_eq hi]
      exact .expands hvisited hi

theorem next?_eq_none_iff : search.next? program given = none ↔ search.pending = [] := by
  obtain ⟨pending, visited, recorded⟩ := search
  cases pending with
  | nil => simp [next?]
  | cons point rest =>
    simp only [next?, reduceCtorEq, iff_false]
    split
    · simp
    · split <;> simp

/-! ### What every round keeps -/

/-- The search is on its way: it is about points of the program only, every point that it has to
come to is on the stack or expanded, and what is recorded is what expanded points look for. -/
structure OnWay (program : Program) (given : Given) (search : Search) : Prop where
  pending : ∀ p ∈ search.pending, p ∈ explored program given
  visited : ∀ p ∈ search.visited, p ∈ explored program given
  once : search.visited.Nodup
  start : .start ∈ search.pending ∨ .start ∈ search.visited
  onward : ∀ p ∈ search.visited, ∀ q ∈ p.onward program given,
    q ∈ search.pending ∨ q ∈ search.visited
  recorded : ∀ entry, entry ∈ search.recorded ↔
    ∃ p ∈ search.visited, (program.code[p.pc]?).bind p.recorded? = some entry

theorem onWay_start (hpos : 0 < program.length) : OnWay program given start where
  pending p hp := by
    rw [List.mem_singleton.1 hp]
    exact start_mem_explored hpos
  visited := by simp [start]
  once := .nil
  start := .inl (List.mem_singleton_self _)
  onward := by simp [start]
  recorded := by simp [start]

/-- The step lemma. -/
theorem Round.onWay (h : Round program given search next) (hforward : program.Forward)
    (hsearch : OnWay program given search) : OnWay program given next := by
  obtain ⟨hpending, hvisited, honce, hstart, honward, hrecorded⟩ := hsearch
  cases h with
  | @drops point rest visited recorded hmem =>
    have hkept : ∀ q, q ∈ point :: rest ∨ q ∈ visited → q ∈ rest ∨ q ∈ visited := by
      rintro q (hq | hq)
      · rcases List.mem_cons.1 hq with rfl | hq
        · exact .inr hmem
        · exact .inl hq
      · exact .inr hq
    exact ⟨fun p hp => hpending p (List.mem_cons_of_mem _ hp), hvisited, honce, hkept _ hstart,
      fun p hp q hq => hkept q (honward p hp q hq), hrecorded⟩
  | @expands point rest visited recorded i hnew hi =>
    obtain ⟨hpoint, hrest⟩ := List.forall_mem_cons.1 hpending
    have hkept : ∀ q, q ∈ point :: rest ∨ q ∈ visited →
        q ∈ point.onward program given ++ rest ∨ q ∈ point :: visited := by
      rintro q (hq | hq)
      · rcases List.mem_cons.1 hq with rfl | hq
        · exact .inr (List.mem_cons_self ..)
        · exact .inl (List.mem_append_right _ hq)
      · exact .inr (List.mem_cons_of_mem _ hq)
    refine ⟨fun p hp => ?_, List.forall_mem_cons.2 ⟨hpoint, hvisited⟩,
      List.nodup_cons.2 ⟨hnew, honce⟩, hkept _ hstart, fun p hp q hq => ?_, fun entry => ?_⟩
    · rcases List.mem_append.1 hp with hp | hp
      · exact mem_explored_of_mem_onward hforward hpoint hp
      · exact hrest p hp
    · rcases List.mem_cons.1 hp with rfl | hp
      · exact .inl (List.mem_append_left _ hq)
      · exact hkept q (honward p hp q hq)
    · simp only [List.mem_append, Option.mem_toList, hrecorded, List.mem_cons,
        exists_eq_or_imp, hi, Option.bind_some]

theorem Round.visited_subset (h : Round program given search next) :
    search.visited ⊆ next.visited := by
  cases h with
  | drops => exact List.Subset.refl _
  | expands => exact List.subset_cons_self ..

theorem Round.mem_visited_of_expanded? (h : Round program given search next)
    (hpoint : search.expanded? = some point) : point ∈ next.visited := by
  cases h with
  | drops hvisited => simp [expanded?, hvisited] at hpoint
  | expands hnew hi =>
    simp only [expanded?, if_neg hnew, Option.some.injEq] at hpoint
    rw [hpoint]
    exact List.mem_cons_self ..

theorem not_mem_visited_of_expanded? (h : search.expanded? = some point) :
    point ∉ search.visited := by
  obtain ⟨pending, visited, recorded⟩ := search
  cases pending with
  | nil => cases h
  | cons head rest =>
    by_cases hvisited : head ∈ visited
    · simp [expanded?, hvisited] at h
    · simp only [expanded?, if_neg hvisited, Option.some.injEq] at h
      subst h
      exact hvisited

/-- What a round puts on the stack. -/
theorem Round.exists_pushed (h : Round program given search next) (hforward : program.Forward)
    {rest : List Point} (hpending : search.pending = point :: rest) :
    ∃ pushed, next.pending = pushed ++ rest ∧
      ∀ q ∈ pushed, point.pc < q.pc ∧ q.pc < program.length := by
  cases h with
  | drops hvisited =>
    obtain ⟨-, rfl⟩ := List.cons.inj hpending
    exact ⟨[], rfl, by simp⟩
  | expands hnew hi =>
    obtain ⟨rfl, rfl⟩ := List.cons.inj hpending
    exact ⟨_, rfl, fun q hq => Point.pc_lt_of_mem_onward hforward hq⟩

/-! ### How many rounds are left -/

/-- How many points are on the stack or are going to be put there. -/
def remaining (program : Program) (given : Given) (search : Search) : Nat :=
  search.pending.length +
    (((explored program given).filter (· ∉ search.visited)).map fun p =>
      (p.onward program given).length).sum

/-- What a point leads to is taken out of what is going to be put on the stack when the point is
expanded. -/
theorem sum_onward_eq_add {visited : List Point} (hpoint : point ∈ explored program given)
    (hnew : point ∉ visited) :
    (((explored program given).filter (· ∉ visited)).map fun p =>
        (p.onward program given).length).sum =
      (point.onward program given).length +
        (((explored program given).filter (· ∉ point :: visited)).map fun p =>
          (p.onward program given).length).sum := by
  have hmem : point ∈ (explored program given).filter (· ∉ visited) :=
    List.mem_filter.2 ⟨hpoint, by simpa using hnew⟩
  have hrest : (explored program given).filter (· ∉ point :: visited) =
      ((explored program given).filter (· ∉ visited)).erase point := by
    rw [((nodup_explored program given).filter _).erase_eq_filter, List.filter_filter]
    refine List.filter_congr fun p _ => ?_
    by_cases hp : p = point <;> simp [hp]
  rw [hrest]
  exact (List.sum_map_erase (fun p : Point => (p.onward program given).length) hmem).symm

theorem Round.remaining (h : Round program given search next)
    (hsearch : OnWay program given search) :
    search.remaining program given = next.remaining program given + 1 := by
  cases h with
  | drops hvisited =>
    simp only [Search.remaining, List.length_cons]
    omega
  | expands hnew hi =>
    have hpoint := hsearch.pending _ (List.mem_cons_self ..)
    simp only [Search.remaining, List.length_cons, List.length_append,
      sum_onward_eq_add hpoint hnew]
    omega

theorem remaining_start (program : Program) (given : Given) :
    start.remaining program given =
      1 + ((explored program given).map fun p => (p.onward program given).length).sum := by
  simp [remaining, start]

/-! ### Whole searches -/

section Whole

variable (hforward : program.Forward) (hpos : 0 < program.length)

include hforward hpos

theorem OnWay.round (h : OnWay program given search)
    (hnext : search.next? program given = some next) : Round program given search next :=
  round_of_next? (fun p hp => pc_lt_of_mem_explored hforward hpos (h.pending p hp)) hnext

/-- The run lemma. -/
theorem onWay_of_after? {rounds : Nat} (h : after? program given rounds = some search) :
    OnWay program given search ∧
      search.remaining program given + rounds = start.remaining program given := by
  induction rounds generalizing search with
  | zero =>
    obtain rfl := Option.some.inj h
    exact ⟨onWay_start hpos, rfl⟩
  | succ rounds ih =>
    obtain ⟨before, hbefore, hnext⟩ := Option.bind_eq_some_iff.1 h
    obtain ⟨hway, hcount⟩ := ih hbefore
    have hround := hway.round hforward hpos hnext
    have hless := hround.remaining hway
    exact ⟨hround.onWay hforward hway, by omega⟩

theorem round_of_after? {rounds : Nat} (h : after? program given rounds = some search)
    (hnext : search.next? program given = some next) : Round program given search next :=
  (onWay_of_after? hforward hpos h).1.round hforward hpos hnext

/-- As long as a point is left there is another round, which takes the point from the stack. -/
theorem exists_next_of_after? {rounds : Nat} {rest : List Point}
    (h : after? program given rounds = some search) (hpending : search.pending = point :: rest) :
    ∃ i next pushed, program.code[point.pc]? = some i ∧
      search.next? program given = some next ∧ next.pending = pushed ++ rest ∧
      ∀ q ∈ pushed, point.pc < q.pc ∧ q.pc < program.length := by
  have hpoint : point ∈ explored program given := by
    apply (onWay_of_after? hforward hpos h).1.pending
    rw [hpending]
    exact List.mem_cons_self ..
  have hi := Array.getElem?_eq_getElem (pc_lt_of_mem_explored hforward hpos hpoint)
  cases hnext : search.next? program given with
  | none => cases hpending.symm.trans (next?_eq_none_iff.1 hnext)
  | some next =>
    obtain ⟨pushed, hpushed, hlater⟩ :=
      (round_of_after? hforward hpos h hnext).exists_pushed hforward hpending
    exact ⟨_, next, pushed, hi, rfl, hpushed, hlater⟩

/-- A point stays visited from the round after its expansion on. -/
theorem mem_visited_of_expanded? {earlier more : Nat}
    (h : after? program given earlier = some search) (hpoint : search.expanded? = some point)
    (hlater : after? program given (earlier + 1 + more) = some next) : point ∈ next.visited := by
  induction more generalizing next with
  | zero =>
    obtain ⟨same, hsame, hnext⟩ := Option.bind_eq_some_iff.1 hlater
    obtain rfl : search = same := Option.some.inj (h.symm.trans hsame)
    exact (round_of_after? hforward hpos h hnext).mem_visited_of_expanded? hpoint
  | succ more ih =>
    obtain ⟨before, hbefore, hnext⟩ := Option.bind_eq_some_iff.1 hlater
    exact (round_of_after? hforward hpos hbefore hnext).visited_subset (ih hbefore)

theorem not_lt_of_expanded? {earlier later : Nat} {s t : Search}
    (hs : after? program given earlier = some s) (ht : after? program given later = some t)
    (hsp : s.expanded? = some point) (htp : t.expanded? = some point) : ¬earlier < later := by
  intro hlt
  obtain ⟨more, rfl⟩ := Nat.exists_eq_add_of_le (Nat.succ_le_of_lt hlt)
  exact not_mem_visited_of_expanded? htp (mem_visited_of_expanded? hforward hpos hs hsp ht)

/-- No two rounds expand the same point. -/
theorem eq_of_expanded? {j k : Nat} {s t : Search} (hs : after? program given j = some s)
    (ht : after? program given k = some t) (hsp : s.expanded? = some point)
    (htp : t.expanded? = some point) : j = k :=
  Nat.le_antisymm (Nat.le_of_not_lt (not_lt_of_expanded? hforward hpos ht hs htp hsp))
    (Nat.le_of_not_lt (not_lt_of_expanded? hforward hpos hs ht hsp htp))

/-- From any round on, a search comes to an end. -/
theorem exists_end_of_after? {rounds : Nat} (h : after? program given rounds = some search) :
    ∃ total last, after? program given total = some last ∧ last.pending = [] := by
  induction hn : search.remaining program given generalizing search rounds with
  | zero =>
    refine ⟨rounds, search, h, List.eq_nil_of_length_eq_zero ?_⟩
    unfold remaining at hn
    omega
  | succ n ih =>
    cases hnext : search.next? program given with
    | none => exact ⟨rounds, search, h, next?_eq_none_iff.1 hnext⟩
    | some next =>
      have hafter : after? program given (rounds + 1) = some next := by
        rw [after?, h, Option.bind_some, hnext]
      have hless := (round_of_after? hforward hpos h hnext).remaining
        (onWay_of_after? hforward hpos h).1
      exact ih hafter (by omega)

/-! ### What a search finds -/

/-- With nothing left on the stack, all points of the program are expanded. -/
theorem OnWay.mem_visited_iff (h : OnWay program given search) (hend : search.pending = []) :
    point ∈ search.visited ↔ point ∈ explored program given := by
  have hdone : ∀ q, q ∈ search.pending ∨ q ∈ search.visited → q ∈ search.visited := by
    simp [hend]
  refine ⟨h.visited point, fun hpoint => ?_⟩
  have hpath := (mem_explored_iff hforward hpos).1 hpoint
  clear hpoint
  induction hpath with
  | refl => exact hdone _ h.start
  | tail _ hleads ih => exact hdone _ (h.onward _ ih _ (mem_onward_of_leads hleads))

theorem OnWay.remaining_eq_zero (h : OnWay program given search) (hend : search.pending = []) :
    search.remaining program given = 0 := by
  have hnone : (explored program given).filter (· ∉ search.visited) = [] := by
    refine List.filter_eq_nil_iff.2 fun p hp => ?_
    simpa using (h.mem_visited_iff hforward hpos hend).2 hp
  rw [remaining, hend, hnone]
  rfl

theorem OnWay.get?_eq (h : OnWay program given search) (hend : search.pending = [])
    (field : Field) :
    search.constants.get? field = (Constants.ofProgram program given).get? field := by
  apply Constants.get?_congr
  intro k
  rw [Constants.mem_of, Constants.mem_of]
  show (field, k) ∈ search.recorded ↔ _
  simp only [h.recorded, h.mem_visited_iff hforward hpos hend, Constants.ofProgram,
    List.mem_filterMap]

/-- The search ends after as many rounds as there are points on its stack altogether. -/
theorem exists_last :
    ∃ last, after? program given
        (1 + ((explored program given).map fun p => (p.onward program given).length).sum) =
      some last ∧ last.pending = [] ∧ OnWay program given last := by
  obtain ⟨total, last, hlast, hend⟩ := exists_end_of_after? hforward hpos
    (rfl : after? program given 0 = some start)
  obtain ⟨hway, hcount⟩ := onWay_of_after? hforward hpos hlast
  rw [hway.remaining_eq_zero hforward hpos hend, Nat.zero_add] at hcount
  rw [← remaining_start, ← hcount]
  exact ⟨last, hlast, hend, hway⟩

end Whole

end Search

/-- **A search with a stack comes to its end inside the program.** In a loaded program every search
ends, after as many rounds as there are points on its stack altogether: the first one, and what
every explored point leads to. Until then every round takes a point from the stack that has an
instruction, and puts points there that are further down, but not out of the program; and no point
is expanded in two rounds. At the end exactly the explored points have been expanded, and the same
constants are recorded for every word as by the sweep. -/
theorem search_ends_inside {raw : RawProgram} {program : Program}
    (hload : Program.load raw = .ok program) (given : Given) :
    (∃ last, Search.after? program given
          (1 + ((explored program given).map fun p => (p.onward program given).length).sum) =
        some last ∧ last.pending = [] ∧ last.visited.Perm (explored program given) ∧
      ∀ field, last.constants.get? field = (Constants.ofProgram program given).get? field) ∧
    (∀ rounds search, Search.after? program given rounds = some search →
      ∀ point rest, search.pending = point :: rest →
        ∃ i next pushed, program.code[point.pc]? = some i ∧
          search.next? program given = some next ∧ next.pending = pushed ++ rest ∧
          ∀ q ∈ pushed, point.pc < q.pc ∧ q.pc < program.length) ∧
    ∀ j k s t point, Search.after? program given j = some s →
      Search.after? program given k = some t → s.expanded? = some point →
      t.expanded? = some point → j = k := by
  have hloaded := load_eq_ok_iff.1 hload
  have hforward := hloaded.forward
  have hpos := hloaded.length_pos
  refine ⟨?_, fun rounds search hsearch point rest hpending =>
      Search.exists_next_of_after? hforward hpos hsearch hpending,
    fun j k s t point hs ht => Search.eq_of_expanded? hforward hpos hs ht⟩
  obtain ⟨last, hlast, hend, hway⟩ := @Search.exists_last program given hforward hpos
  have hsame : last.visited.Perm (explored program given) :=
    (List.perm_ext_iff_of_nodup hway.once (nodup_explored program given)).2
      fun p => hway.mem_visited_iff hforward hpos hend
  exact ⟨last, hlast, hend, hsame, hway.get?_eq hforward hpos hend⟩

/-- The last comparison and a return are met on two paths each. -/
def rejoining : RawProgram :=
  [.plain .load 16, .branch .gt 10 1 0, .branch .ge 5 0 1, .branch .eq 20 0 1,
    .plain .ret 0x7fff0000, .plain .ret 0x50001]

def rejoiningProgram : Program where
  code := #[.load (.argLow 0), .branch .gt 10 3 2, .branch .ge 5 3 4, .branch .eq 20 4 5,
    .ret 0x7fff0000, .ret 0x50001]

/-- Eight rounds for six points. -/
theorem search_rejoining :
    Program.load rejoining = .ok rejoiningProgram ∧
      ∃ last, Search.after? rejoiningProgram ⟨7, none⟩ 8 = some last ∧ last.pending = [] ∧
        last.visited.length = 6 ∧ last.constants.get? (.argLow 0) = some [5, 10, 20] := by
  have hload : Program.load rejoining = .ok rejoiningProgram := by decide
  obtain ⟨⟨last, hlast, hend, hvisited, hconstants⟩, -⟩ := search_ends_inside hload ⟨7, none⟩
  refine ⟨hload, last, hlast, hend, ?_, ?_⟩
  · rw [hvisited.length_eq]
    decide
  · rw [hconstants]
    decide

end SyscallFilter.Sampling
