import Mathlib.Algebra.BigOperators.Fin
import SyscallFilter.Proofs.CaseOrder
import SyscallFilter.Sampling.Odometer

/-! An odometer shows the tuples of the cross product in order.

Its wheels are the digits of a rank (`rank`), and a turn adds one to it; what is carried out in
front is worth as much as there are tuples (`rank_turnWheels`). So an odometer that stands at a
rank shows the tuple of that rank (`ShowsFrom.next_of_lt`), and what it shows are the tuples up to
the limit, in order, and then nothing any more (`ShowsFrom.shown_eq`, `ShowsFrom.answer_eq`). A
search passes as many of them as come before the first that fails (`Cases.search_eq`). -/
namespace SyscallFilter.Sampling

/-! ### Wheels -/

namespace Wheel

theorem values_turn (wheel : Wheel) : wheel.turn.1.values = wheel.values := by
  unfold turn
  split <;> rfl

/-- Coming round takes back as many places as there are. -/
theorem position_turn (wheel : Wheel) :
    wheel.turn.1.position.val + (if wheel.turn.2 then wheel.values.size else 0) =
      wheel.position.val + 1 := by
  have hlt := wheel.position.isLt
  by_cases h : wheel.position.val + 1 < wheel.values.size
  · rw [show wheel.turn = _ from dif_pos h]
    rfl
  · rw [show wheel.turn = _ from dif_neg h]
    show 0 + wheel.values.size = _
    omega

end Wheel

/-- The number whose digits are the positions of the wheels. -/
def rank : List Wheel → Nat
  | [] => 0
  | wheel :: rest => wheel.position.val * ways (rest.map Wheel.values) + rank rest

theorem ways_cons (list : Array UInt64) (rest : List (Array UInt64)) :
    ways (list :: rest) = list.size * ways rest :=
  rfl

theorem values_turnWheels (wheels : List Wheel) :
    (turnWheels wheels).1.map Wheel.values = wheels.map Wheel.values := by
  induction wheels with
  | nil => rfl
  | cons wheel rest ih =>
    rw [turnWheels_cons]
    split
    · rw [List.map_cons, List.map_cons, ih, Wheel.values_turn]
    · rw [List.map_cons, List.map_cons, ih]

/-- A turn adds one. What is carried out in front is worth all the tuples there are. -/
theorem rank_turnWheels (wheels : List Wheel) :
    rank (turnWheels wheels).1 +
        (if (turnWheels wheels).2 then ways (wheels.map Wheel.values) else 0) =
      rank wheels + 1 := by
  induction wheels with
  | nil => rfl
  | cons wheel rest ih =>
    rw [turnWheels_cons]
    by_cases hcarry : (turnWheels rest).2
    · have hposition := wheel.position_turn
      simp only [hcarry, if_true] at ih ⊢
      simp only [rank, values_turnWheels, List.map_cons, ways_cons]
      generalize ways (rest.map Wheel.values) = w at ih ⊢
      have hcarried : wheel.turn.1.position.val * w +
          (if wheel.turn.2 then wheel.values.size * w else 0) = wheel.position.val * w + w := by
        rw [← Nat.succ_mul, Nat.succ_eq_add_one, ← hposition, Nat.add_mul]
        split <;> simp
      omega
    · simp only [hcarry, Bool.false_eq_true, if_false, Nat.add_zero] at ih ⊢
      simp only [rank, values_turnWheels, ih, Nat.add_assoc]

theorem rank_lt (wheels : List Wheel) : rank wheels < ways (wheels.map Wheel.values) := by
  induction wheels with
  | nil => exact Nat.one_pos
  | cons wheel rest ih =>
    rw [List.map_cons, ways_cons, rank]
    calc wheel.position.val * ways (rest.map Wheel.values) + rank rest
      _ < wheel.position.val * ways (rest.map Wheel.values) + ways (rest.map Wheel.values) :=
        Nat.add_lt_add_left ih _
      _ = (wheel.position.val + 1) * ways (rest.map Wheel.values) := (Nat.succ_mul ..).symm
      _ ≤ wheel.values.size * ways (rest.map Wheel.values) :=
        Nat.mul_le_mul_right _ wheel.position.isLt

theorem rank_eq_zero {wheels : List Wheel} (h : ∀ wheel ∈ wheels, wheel.position.val = 0) :
    rank wheels = 0 := by
  induction wheels with
  | nil => rfl
  | cons wheel rest ih =>
    rw [rank, h wheel (List.mem_cons_self ..), Nat.zero_mul, Nat.zero_add]
    exact ih fun w hw => h w (List.mem_cons_of_mem _ hw)

/-- The wheels show the choice of their rank. -/
theorem choice_rank (wheels : List Wheel) :
    choice (wheels.map Wheel.values) (rank wheels) = wheels.map Wheel.value := by
  induction wheels with
  | nil => rfl
  | cons wheel rest ih =>
    have hlt := rank_lt rest
    have hpos : 0 < ways (rest.map Wheel.values) := Nat.zero_lt_of_lt hlt
    have hdiv : rank (wheel :: rest) / ways (rest.map Wheel.values) = wheel.position.val := by
      rw [rank, Nat.mul_comm, Nat.mul_add_div hpos, Nat.div_eq_of_lt hlt, Nat.add_zero]
    have hmod : rank (wheel :: rest) % ways (rest.map Wheel.values) = rank rest := by
      rw [rank, Nat.mul_comm, Nat.mul_add_mod, Nat.mod_eq_of_lt hlt]
    rw [List.map_cons, choice, hdiv, hmod, ih, List.map_cons]
    simp [Wheel.value]

/-! ### The odometer -/

namespace Odometer

/-- What it says when it is asked for the `k`-th time, from 0 on. -/
def answer (odometer : Odometer) : (k : Nat) → Option Args
  | 0 => odometer.next.1
  | k + 1 => odometer.next.2.answer k

/-- The next tuple to be shown is that of the rank. -/
structure ShowsFrom (cases : Cases) (first : Nat) (odometer : Odometer) : Prop where
  remaining : odometer.remaining = cases.limit - first
  wheels : ∀ wheels, odometer.wheels = some wheels →
    wheels.toList.map Wheel.values = cases.candidates.toList ∧ rank wheels.toList = first
  ended : odometer.wheels = none → cases.size ≤ first

end Odometer

theorem ofFn_get {α : Type} {n : Nat} (v : Vector α n) : List.ofFn v.get = v.toList := by
  rw [← Vector.toList_ofFn]
  exact congrArg Vector.toList Vector.ofFn_getElem

namespace Cases

theorem size_eq_prod (cases : Cases) :
    cases.size = ∏ i : Fin 6, (cases.candidates.get i).size := by
  rw [size, ways_eq_prod, ← ofFn_get, List.map_ofFn, List.prod_ofFn]
  rfl

theorem showsFrom_odometer (cases : Cases) : cases.odometer.ShowsFrom cases 0 := by
  refine ⟨rfl, fun wheels hwheels => ?_, fun hended => ?_⟩
  · simp only [odometer] at hwheels
    split at hwheels
    · next hpos =>
      obtain rfl := Option.some.inj hwheels
      refine ⟨?_, rank_eq_zero fun wheel hwheel => ?_⟩
      · rw [Vector.toList_ofFn, List.map_ofFn]
        exact ofFn_get cases.candidates
      · rw [Vector.toList_ofFn, List.mem_ofFn] at hwheel
        obtain ⟨i, rfl⟩ := hwheel
        rfl
    · cases hwheels
  · simp only [odometer] at hended
    split at hended
    · cases hended
    · next hempty =>
      obtain ⟨i, hi⟩ := not_forall.1 hempty
      rw [size_eq_prod, Finset.prod_eq_zero (Finset.mem_univ i) (Nat.eq_zero_of_not_pos hi)]

end Cases

namespace Odometer

variable {cases : Cases} {first : Nat} {odometer : Odometer}

/-- An odometer that has a tuple to show shows it, and stands at the next one. -/
theorem ShowsFrom.next_of_lt (h : odometer.ShowsFrom cases first) (hlt : first < cases.count) :
    odometer.next.1 = some (cases.tuple first) ∧
      odometer.next.2.ShowsFrom cases (first + 1) := by
  obtain ⟨wheels?, remaining⟩ := odometer
  obtain ⟨hsize, hlimit⟩ := Nat.lt_min.1 hlt
  cases wheels? with
  | none => exact absurd (h.ended rfl) (Nat.not_le.2 hsize)
  | some wheels =>
    obtain ⟨hvalues, hrank⟩ := h.wheels wheels rfl
    obtain ⟨rest, rfl⟩ : ∃ rest, remaining = rest + 1 := by
      have hremaining : remaining = cases.limit - first := h.remaining
      exact Nat.exists_eq_succ_of_ne_zero (by omega)
    have hturn := rank_turnWheels wheels.toList
    rw [hvalues, hrank] at hturn
    refine ⟨?_, ?_, fun turned hturned => ?_, fun hended => ?_⟩
    · show some (reading wheels) = some (cases.tuple first)
      rw [Option.some.injEq, ← Vector.toList_inj]
      show wheels.toList.map Wheel.value = choice cases.candidates.toList first
      rw [← choice_rank, hvalues, hrank]
    · have hremaining : rest + 1 = cases.limit - first := h.remaining
      show rest = cases.limit - (first + 1)
      omega
    · replace hturned : turned? wheels = some turned := hturned
      unfold turned? at hturned
      split at hturned
      · cases hturned
      · next hcarry =>
        obtain rfl := Option.some.inj hturned
        rw [if_neg hcarry, Nat.add_zero] at hturn
        exact ⟨(values_turnWheels _).trans hvalues, hturn⟩
    · replace hended : turned? wheels = none := hended
      unfold turned? at hended
      split at hended
      · next hcarry =>
        rw [if_pos hcarry] at hturn
        show ways _ ≤ _
        omega
      · cases hended

/-- An odometer that has none to show stays as it is. -/
theorem ShowsFrom.next_of_le (h : odometer.ShowsFrom cases first) (hle : cases.count ≤ first) :
    odometer.next = (none, odometer) := by
  obtain ⟨wheels?, remaining⟩ := odometer
  cases wheels? with
  | none => cases remaining <;> rfl
  | some wheels =>
    obtain ⟨hvalues, hrank⟩ := h.wheels wheels rfl
    have hlt : first < cases.size := by
      rw [← hrank, Cases.size, ← hvalues]
      exact rank_lt _
    have hremaining : remaining = cases.limit - first := h.remaining
    obtain rfl : remaining = 0 := by
      unfold Cases.count at hle
      omega
    rfl

/-- In enough turns it shows the tuples from the rank on. -/
theorem ShowsFrom.shown_eq (h : odometer.ShowsFrom cases first) {turns : Nat}
    (hturns : cases.count ≤ first + turns) :
    odometer.shown turns = (List.range' first (cases.count - first)).map cases.tuple := by
  induction turns generalizing first odometer with
  | zero =>
    rw [Nat.sub_eq_zero_of_le (show cases.count ≤ first from hturns)]
    rfl
  | succ turns ih =>
    by_cases hlt : first < cases.count
    · obtain ⟨hshown, hrest⟩ := h.next_of_lt hlt
      have hremaining : cases.count - first = cases.count - (first + 1) + 1 := by omega
      rw [hremaining, List.range'_succ, List.map_cons, ← ih hrest (by omega), shown,
        ← Prod.mk.eta (p := odometer.next), hshown]
    · rw [shown, h.next_of_le (Nat.le_of_not_lt hlt),
        Nat.sub_eq_zero_of_le (Nat.le_of_not_lt hlt)]
      rfl

/-- The answers are the tuples from the rank on, and then there are none. -/
theorem ShowsFrom.answer_eq (h : odometer.ShowsFrom cases first) (k : Nat) :
    odometer.answer k = if first + k < cases.count then some (cases.tuple (first + k)) else none := by
  induction k generalizing first odometer with
  | zero =>
    rw [answer, Nat.add_zero]
    split
    · next hlt => exact (h.next_of_lt hlt).1
    · next hle => rw [h.next_of_le (Nat.le_of_not_lt hle)]
  | succ k ih =>
    rw [answer]
    by_cases hlt : first < cases.count
    · rw [ih (h.next_of_lt hlt).2, Nat.add_right_comm, Nat.add_assoc]
    · rw [h.next_of_le (Nat.le_of_not_lt hlt), ih h, if_neg (by omega), if_neg (by omega)]

end Odometer

/-! ### Counting in 64 bits -/

/-- A counter that is full stays so, unless a factor is 0. -/
theorem saturatingMul_saturatingMul (k m n : Nat) :
    saturatingMul (saturatingMul k m) n = saturatingMul (k * m) n := by
  unfold saturatingMul
  generalize k * m = product
  by_cases hfull : product ≤ 0xffffffffffffffff
  · rw [Nat.min_eq_left hfull]
  · have hle : 0xffffffffffffffff ≤ product := Nat.le_of_not_le hfull
    rw [Nat.min_eq_right hle]
    cases n with
    | zero => rfl
    | succ n =>
      have hcounter : 0xffffffffffffffff ≤ 0xffffffffffffffff * (n + 1) :=
        Nat.le_mul_of_pos_right _ n.succ_pos
      have hproduct : 0xffffffffffffffff ≤ product * (n + 1) :=
        Nat.le_trans hle (Nat.le_mul_of_pos_right _ n.succ_pos)
      rw [Nat.min_eq_right hcounter, Nat.min_eq_right hproduct]

theorem foldl_saturatingMul (lists : List (Array UInt64)) (start : Nat) :
    lists.foldl (fun count list => saturatingMul count list.size) (saturatingMul start 1) =
      saturatingMul start (ways lists) := by
  induction lists generalizing start with
  | nil => rfl
  | cons list rest ih =>
    have hstep : saturatingMul (saturatingMul start 1) list.size =
        saturatingMul (start * list.size) 1 := by
      rw [saturatingMul_saturatingMul, Nat.mul_one, saturatingMul, saturatingMul, Nat.mul_one]
    rw [List.foldl_cons, hstep, ih, ways_cons, saturatingMul, saturatingMul, Nat.mul_assoc]

/-! ### No tuple twice -/

theorem nodup_crossProduct {lists : List (List UInt64)} (h : ∀ list ∈ lists, list.Nodup) :
    (crossProduct lists).Nodup := by
  induction lists with
  | nil => exact List.nodup_singleton _
  | cons list rest ih =>
    have hrest := ih fun l hl => h l (List.mem_cons_of_mem _ hl)
    refine List.nodup_flatMap.2 ⟨fun value _ => ?_, ?_⟩
    · exact hrest.map fun _ _ heq => (List.cons.inj heq).2
    · refine (h list (List.mem_cons_self ..)).imp fun {a b} hne choice ha hb => hne ?_
      obtain ⟨as, -, rfl⟩ := List.mem_map.1 ha
      obtain ⟨bs, -, heq⟩ := List.mem_map.1 hb
      exact (List.cons.inj heq).1.symm

theorem nodup_tuples {candidates : Vector (Array UInt64) 6}
    (h : ∀ i : Fin 6, (candidates.get i).toList.Nodup) : (tuples candidates).Nodup := by
  refine List.Nodup.of_map Vector.toList ?_
  rw [map_toList_tuples]
  refine nodup_crossProduct fun list hlist => ?_
  rw [← ofFn_get, List.map_ofFn, List.mem_ofFn] at hlist
  obtain ⟨i, rfl⟩ := hlist
  exact h i

namespace Cases

theorem toList_eq_map_tuple (cases : Cases) :
    cases.toList = (List.range cases.count).map cases.tuple := by
  have hturns : cases.count ≤ 0 + cases.limit := by
    rw [Nat.zero_add]
    exact Nat.min_le_right ..
  rw [toList, cases.showsFrom_odometer.shown_eq hturns, List.range_eq_range', Nat.sub_zero]

theorem toList_eq (cases : Cases) : cases.toList = (tuples cases.candidates).take cases.limit := by
  rw [toList_eq_map_tuple, map_tuple_range]

theorem length_toList (cases : Cases) : cases.toList.length = cases.count := by
  rw [toList_eq_map_tuple, List.length_map, List.length_range]

theorem answer_odometer (cases : Cases) (k : Nat) :
    cases.odometer.answer k = cases.toList[k]? := by
  rw [cases.showsFrom_odometer.answer_eq, Nat.zero_add, toList_eq_map_tuple]
  split
  · next h => simp [h]
  · next h => simp [Nat.le_of_not_lt h]

theorem total_eq (cases : Cases) : cases.total = min cases.size 0xffffffffffffffff := by
  have hcounted := foldl_saturatingMul cases.candidates.toList 1
  rw [show saturatingMul 1 1 = 1 from rfl] at hcounted
  rw [total, hcounted, saturatingMul, Nat.one_mul]
  rfl

/-- **An odometer shows the tuples of the cross product in order.** The `k`-th answer is the `k`-th
tuple of six nested loops over the candidates, up to the limit, and these are the tuples that are
tried. There is an answer as long as the cross product and the limit allow, and never again: none
at all if some argument has no candidate. The total is the size of the cross product as a 64-bit
counter counts it, factor by factor. Without repeated candidates no tuple comes twice. -/
theorem odometer_enumerates (cases : Cases) :
    (∀ k, cases.odometer.answer k = ((tuples cases.candidates).take cases.limit)[k]?) ∧
      cases.toList = (tuples cases.candidates).take cases.limit ∧
      (∀ k, (cases.odometer.answer k).isSome ↔
        k < min (∏ i : Fin 6, (cases.candidates.get i).size) cases.limit) ∧
      ((∃ i, cases.candidates.get i = #[]) → ∀ k, cases.odometer.answer k = none) ∧
      cases.total = min (∏ i : Fin 6, (cases.candidates.get i).size) 0xffffffffffffffff ∧
      cases.candidates.toList.foldl (fun count list => saturatingMul count list.size) 1 =
        cases.total ∧
      ((∀ i, (cases.candidates.get i).toList.Nodup) → ∀ j k args,
        cases.odometer.answer j = some args → cases.odometer.answer k = some args → j = k) := by
  have hanswer : ∀ k, cases.odometer.answer k = cases.toList[k]? := cases.answer_odometer
  refine ⟨fun k => ?_, cases.toList_eq, fun k => ?_, fun hempty k => ?_, ?_, ?_,
    fun hnodup j k args hj hk => ?_⟩
  · rw [hanswer, toList_eq]
  · rw [hanswer, ← size_eq_prod, isSome_getElem?, length_toList, count]
  · obtain ⟨i, hi⟩ := hempty
    have hsize : cases.size = 0 := by
      rw [size_eq_prod]
      exact Finset.prod_eq_zero (Finset.mem_univ i) (by rw [hi]; rfl)
    rw [hanswer, List.getElem?_eq_none]
    rw [length_toList, count, hsize, Nat.zero_min]
    exact Nat.zero_le k
  · rw [total_eq, size_eq_prod]
  · rfl
  · have htried : cases.toList.Nodup := by
      rw [toList_eq]
      exact (nodup_tuples hnodup).sublist (List.take_sublist ..)
    rw [hanswer] at hj hk
    obtain ⟨hlt, -⟩ := List.getElem?_eq_some_iff.1 hj
    exact (List.getElem?_inj hlt htried).1 (hj.trans hk.symm)

end Cases

/-! ### Searching -/

variable {ε : Type}

/-- What is shown is gone through up to the first that fails, and what comes before it is counted. -/
theorem Odometer.search_eq (check : Args → Option ε) (turns : Nat) (odometer : Odometer)
    (passed : Nat) :
    odometer.search check turns passed =
      ⟨passed + ((odometer.shown turns).takeWhile fun args => (check args).isNone).length,
        (odometer.shown turns).findSome? check⟩ := by
  induction turns generalizing odometer passed with
  | zero => rfl
  | succ turns ih =>
    rw [search, shown]
    rcases odometer.next with ⟨shown?, rest⟩
    cases shown? with
    | none => rfl
    | some args =>
      dsimp only
      rw [List.findSome?_cons, List.takeWhile_cons]
      cases check args with
      | some failure => rfl
      | none =>
        rw [ih, Option.isNone_none, if_pos rfl, List.length_cons, Nat.add_right_comm, Nat.add_assoc]

/-- A search passes the tuples in front of the first that fails, and fails as that one does. -/
theorem Cases.search_eq (cases : Cases) (check : Args → Option ε) :
    cases.search check =
      ⟨(cases.toList.takeWhile fun args => (check args).isNone).length,
        cases.toList.findSome? check⟩ := by
  rw [Cases.search, Odometer.search_eq, Nat.zero_add, toList]

end SyscallFilter.Sampling
