import Mathlib.Logic.Relation
import SyscallFilter.Proofs.Loading

/-! Runs of a loaded program.

`Reaches` is a run that has not returned yet, `ReachesWithin` one that has not left a block of
the program before its last step, `Returns` one that has returned, and `Takes` says after how
many steps. In a program whose instructions all lead forward every run returns, after at most
as many steps as there are instructions from its index on (`exists_takes`); so what a run
returns does not depend on the limit once the limit is the length of the program
(`run_eq_of_returns`). -/
namespace SyscallFilter.Bpf

namespace Program

variable {program : Program} {call : Call} {s t : State} {v w : UInt32}

/-- One step that does not return. -/
def Goes (program : Program) (call : Call) (s t : State) : Prop :=
  ∃ i, program.code[s.pc]? = some i ∧ i.step call s = .goes t

/-- Any number of steps that do not return. -/
def Reaches (program : Program) (call : Call) : State → State → Prop :=
  Relation.ReflTransGen (program.Goes call)

/-- Any number of steps that do not return, all of them taken at indices from `first` on and before
`last`. -/
def ReachesWithin (program : Program) (call : Call) (first last : Nat) : State → State → Prop :=
  Relation.ReflTransGen fun s t => (first ≤ s.pc ∧ s.pc < last) ∧ program.Goes call s t

/-- The run from a state returns the value. -/
def Returns (program : Program) (call : Call) (s : State) (v : UInt32) : Prop :=
  ∃ limit, program.returned? call limit s = some v

/-! ### Steps and limits -/

theorem pc_mem_exits {i : Instruction} (h : i.step call s = .goes t) : t.pc ∈ i.exits s.pc := by
  cases i with
  | branch test k jt jf =>
    cases h
    simp only [Instruction.exits, List.mem_cons, List.not_mem_nil, or_false]
    split <;> simp
  | ret value => cases h
  | _ =>
    cases h
    simp [Instruction.exits]

theorem returned?_of_goes {i : Instruction} (hi : program.code[s.pc]? = some i)
    (h : i.step call s = .goes t) (limit : Nat) :
    program.returned? call (limit + 1) s = program.returned? call limit t := by
  simp [returned?, hi, h]

theorem returned?_mono {limit more : Nat} (h : program.returned? call limit s = some v)
    (hle : limit ≤ more) : program.returned? call more s = some v := by
  induction limit generalizing s more with
  | zero => cases h
  | succ limit ih =>
    obtain ⟨more, rfl⟩ : ∃ m, more = m + 1 := ⟨more - 1, by omega⟩
    simp only [returned?] at h ⊢
    split at h
    · cases h
    · next i hi =>
      split at h
      · next next hn => exact ih h (by omega)
      · exact h

theorem Returns.unique (hv : program.Returns call s v) (hw : program.Returns call s w) : v = w := by
  obtain ⟨m, hm⟩ := hv
  obtain ⟨n, hn⟩ := hw
  have hv' := returned?_mono hm (Nat.le_max_left m n)
  rw [returned?_mono hn (Nat.le_max_right m n)] at hv'
  exact (Option.some.inj hv').symm

theorem Goes.returns (h : program.Goes call s t) (hv : program.Returns call t v) :
    program.Returns call s v := by
  obtain ⟨i, hi, hstep⟩ := h
  obtain ⟨limit, hlimit⟩ := hv
  exact ⟨limit + 1, by rw [returned?_of_goes hi hstep, hlimit]⟩

theorem Reaches.returns (h : program.Reaches call s t) (hv : program.Returns call t v) :
    program.Returns call s v := by
  induction h using Relation.ReflTransGen.head_induction_on with
  | refl => exact hv
  | head hgoes _ ih => exact hgoes.returns ih

theorem Goes.reaches (h : program.Goes call s t) : program.Reaches call s t :=
  Relation.ReflTransGen.single h

theorem Reaches.refl (program : Program) (call : Call) (s : State) : program.Reaches call s s :=
  Relation.ReflTransGen.refl

theorem Reaches.trans {u : State} (hs : program.Reaches call s t) (ht : program.Reaches call t u) :
    program.Reaches call s u :=
  Relation.ReflTransGen.trans hs ht

section Within

variable {first last : Nat}

theorem Goes.reachesWithin {pc : Nat} {acc : UInt32} (h : program.Goes call ⟨pc, acc⟩ t)
    (hfirst : first ≤ pc) (hlast : pc < last) :
    program.ReachesWithin call first last ⟨pc, acc⟩ t :=
  Relation.ReflTransGen.single ⟨⟨hfirst, hlast⟩, h⟩

theorem ReachesWithin.trans {u : State} (hs : program.ReachesWithin call first last s t)
    (ht : program.ReachesWithin call first last t u) :
    program.ReachesWithin call first last s u :=
  Relation.ReflTransGen.trans hs ht

theorem ReachesWithin.mono {less more : Nat} (h : program.ReachesWithin call first last s t)
    (hfirst : less ≤ first) (hlast : last ≤ more) :
    program.ReachesWithin call less more s t := by
  induction h with
  | refl => exact .refl
  | tail _ hstep ih =>
    obtain ⟨⟨hle, hlt⟩, hgoes⟩ := hstep
    exact ih.tail ⟨⟨Nat.le_trans hfirst hle, Nat.lt_of_lt_of_le hlt hlast⟩, hgoes⟩

theorem ReachesWithin.reaches (h : program.ReachesWithin call first last s t) :
    program.Reaches call s t := by
  induction h with
  | refl => exact .refl program call s
  | tail _ hstep ih => exact ih.tail hstep.2

end Within

theorem Goes.pc_lt (hforward : program.Forward) (h : program.Goes call s t) :
    s.pc < t.pc ∧ t.pc < program.length := by
  obtain ⟨i, hi, hstep⟩ := h
  exact hforward s.pc i hi t.pc (pc_mem_exits hstep)

/-! ### How long a run is -/

/-- The run from a state executes so many instructions, the last of which returns the value. -/
inductive Takes (program : Program) (call : Call) : State → (steps : Nat) → UInt32 → Prop
  | returns {s : State} {value : UInt32} (hi : program.code[s.pc]? = some (.ret value)) :
      Takes program call s 1 value
  | goes {s t : State} {steps : Nat} {value : UInt32} (h : program.Goes call s t)
      (ht : Takes program call t steps value) : Takes program call s (steps + 1) value

theorem eq_ret_of_step {i : Instruction} {value : UInt32} (h : i.step call s = .returns value) :
    i = .ret value := by
  cases i <;> cases h
  rfl

/-- A run takes at most as many steps as there are instructions from its index on. -/
theorem exists_takes (hforward : program.Forward) (call : Call) (s : State)
    (hs : s.pc < program.length) :
    ∃ steps value, steps ≤ program.length - s.pc ∧ program.Takes call s steps value := by
  induction hn : program.length - s.pc using Nat.strongRecOn generalizing s with
  | ind n ih =>
    have hi := Array.getElem?_eq_getElem hs
    cases hstep : program.code[s.pc].step call s with
    | returns value =>
      rw [eq_ret_of_step hstep] at hi
      exact ⟨1, value, by omega, .returns hi⟩
    | goes t =>
      have hgoes : program.Goes call s t := ⟨_, hi, hstep⟩
      obtain ⟨hlt, hin⟩ := hgoes.pc_lt hforward
      obtain ⟨steps, value, hle, ht⟩ := ih _ (by omega) t hin rfl
      exact ⟨steps + 1, value, by omega, .goes hgoes ht⟩

namespace Takes

variable {steps : Nat} {value : UInt32} (h : program.Takes call s steps value)

include h

theorem pos : 1 ≤ steps := by
  cases h with
  | returns _ => exact Nat.le_refl 1
  | goes _ _ => exact Nat.le_add_left ..

theorem ret_mem : .ret value ∈ program.code := by
  induction h with
  | returns hi => exact Array.mem_of_getElem? hi
  | goes _ _ ih => exact ih

theorem returned?_eq (limit : Nat) :
    program.returned? call limit s = if steps ≤ limit then some value else none := by
  induction h generalizing limit with
  | returns hi =>
    cases limit with
    | zero => rfl
    | succ limit => simp [returned?, hi, Instruction.step]
  | goes hgoes _ ih =>
    cases limit with
    | zero => rfl
    | succ limit =>
      obtain ⟨i, hi, hstep⟩ := hgoes
      rw [returned?_of_goes hi hstep, ih]
      simp only [Nat.add_le_add_iff_right]

end Takes

/-- Steps lead forward, so a run returns before it runs out of instructions. -/
theorem exists_returned? (h : program.Forward) (call : Call) {limit : Nat} (s : State)
    (hpc : s.pc < program.length) (hlimit : program.length ≤ s.pc + limit) :
    ∃ v, program.returned? call limit s = some v := by
  obtain ⟨steps, value, hsteps, htakes⟩ := exists_takes h call s hpc
  exact ⟨value, by rw [htakes.returned?_eq, if_pos (by omega)]⟩

theorem run_eq_of_returns (h : program.Forward) (hpos : 0 < program.length) {limit : Nat}
    (hlimit : program.length ≤ limit) (hv : program.Returns call .start v) :
    program.run call limit = .ok v := by
  obtain ⟨w, hw⟩ : ∃ w, program.returned? call limit .start = some w :=
    exists_returned? h call .start hpos (Nat.le_trans hlimit (Nat.le_add_left ..))
  obtain rfl : v = w := hv.unique ⟨limit, hw⟩
  rw [run, hw]

/-! ### Verdicts -/

/-- A verdict is not changed by more time to run. -/
theorem verdict_mono {limit more : Nat} {action : Action}
    (h : program.verdict call limit = .ok action) (hle : limit ≤ more) :
    program.verdict call more = .ok action := by
  unfold verdict run at h ⊢
  split at h
  · next hv =>
    rw [returned?_mono hv hle]
    exact h
  · cases h

end Program

namespace Loaded

variable {raw : RawProgram} {program : Program} {call : Call} {limit : Nat} {action : Action}
  (h : Loaded raw program)

include h

theorem run_eq_of_returns {v : UInt32} (hlimit : raw.length ≤ limit)
    (hv : program.Returns call .start v) : program.run call limit = .ok v := by
  rw [← h.length] at hlimit
  exact Program.run_eq_of_returns h.forward h.length_pos hlimit hv

theorem verdict_eq_of_returns (hlimit : raw.length ≤ limit)
    (hreturns : program.Returns call .start action.code) :
    program.verdict call limit = .ok action := by
  rw [Program.verdict, h.run_eq_of_returns hlimit hreturns, Except.map, Action.ofCode_code]

/-- A loaded program returns the same value on a call whenever it may run to its end. -/
theorem exists_value (call : Call) :
    ∃ value, ∀ limit, raw.length ≤ limit → program.run call limit = .ok value := by
  obtain ⟨v, hv⟩ := Program.exists_returned? h.forward call .start h.length_pos
    (Nat.le_add_left program.length State.start.pc)
  exact ⟨v, fun limit hlimit => h.run_eq_of_returns hlimit ⟨_, hv⟩⟩

/-- A loaded program comes to a verdict on every call if it may run to its end. -/
theorem exists_verdict (call : Call) (hlimit : raw.length ≤ limit) :
    ∃ action, program.verdict call limit = .ok action := by
  obtain ⟨value, hvalue⟩ := h.exists_value call
  rw [Program.verdict, hvalue limit hlimit]
  exact ⟨_, rfl⟩

/-- A verdict that was found within some limit is found by running to the end. -/
theorem verdict_eq_ok_of_limit {enough : Nat} (henough : raw.length ≤ enough)
    (hverdict : program.verdict call limit = .ok action) :
    program.verdict call enough = .ok action := by
  unfold Program.verdict Program.run at hverdict
  split at hverdict
  · next v hv =>
    rw [Program.verdict, h.run_eq_of_returns henough ⟨_, hv⟩]
    exact hverdict
  · cases hverdict

end Loaded

end SyscallFilter.Bpf
