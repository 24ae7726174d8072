import SyscallFilter.Proofs.Comparisons

/-! What a scan of a program records is what can be looked at on its paths.

`Leads` says, one rule for each kind of instruction, how a path goes on when the words that
are given have their values and all others are left open: a branch on a value goes the way that
the value dictates, a branch on an open word either way. `mem_explored_iff` says that the
sweep meets exactly the points that such paths come to (`PathTo`), so the recorded constants
are those that some path looks for.

A run takes one of these paths. At every step, the word loaded last says what the path
knows of the accumulator (`Given.knowledge`): the value itself as long as that word is given,
and no more than the word if it is open. `leads_of_step` is the step, `pathTo_of_statesFrom` the
run. -/
namespace SyscallFilter

namespace Bpf

/-- The word that the instruction loads. -/
def Instruction.loaded? : Instruction → Option Field
  | load field => some field
  | _ => none

/-- The constant that the instruction looks for in the accumulator, by a branch or a mask. -/
def Instruction.sought? : Instruction → Option UInt32
  | alu .and k => some k
  | branch _ k _ _ => some k
  | _ => none

/-- The word that was loaded last when these states were executed, if any was. -/
def Program.lastLoad? (program : Program) (executed : List State) : Option Field :=
  executed.reverse.findSome? fun state => (program.code[state.pc]?).bind Instruction.loaded?

theorem Program.lastLoad?_cons {program : Program} {state : State} {i : Instruction}
    (hi : program.code[state.pc]? = some i) (executed : List State) :
    program.lastLoad? (state :: executed) = (program.lastLoad? executed).or i.loaded? := by
  simp [lastLoad?, hi]

end Bpf

namespace Sampling

open Bpf

/-! ### Paths -/

/-- The value of a word that is given. The words that have none are open. -/
def Given.word? (given : Given) : Field → Option UInt32
  | .arch => some given.arch
  | .nr => given.nr
  | _ => none

/-- One step of a path. Values are computed with and decide branches; of an accumulator that comes
from an open word, a path knows no more than the word. -/
inductive Leads (program : Program) (given : Given) : Point → Point → Prop
  | loadGiven {pc : Nat} {acc : Knowledge} {field : Field} {value : UInt32}
      (hi : program.code[pc]? = some (.load field)) (hgiven : given.word? field = some value) :
      Leads program given ⟨pc, acc⟩ ⟨pc + 1, .value value⟩
  | loadOpen {pc : Nat} {acc : Knowledge} {field : Field}
      (hi : program.code[pc]? = some (.load field)) (hopen : given.word? field = none) :
      Leads program given ⟨pc, acc⟩ ⟨pc + 1, .word field⟩
  | compute {pc : Nat} {value : UInt32} {op : AluOp} {k : UInt32}
      (hi : program.code[pc]? = some (.alu op k)) :
      Leads program given ⟨pc, .value value⟩ ⟨pc + 1, .value (op.apply value k)⟩
  | computeOpen {pc : Nat} {field : Field} {op : AluOp} {k : UInt32}
      (hi : program.code[pc]? = some (.alu op k)) :
      Leads program given ⟨pc, .word field⟩ ⟨pc + 1, .word field⟩
  | jump {pc target : Nat} {acc : Knowledge} (hi : program.code[pc]? = some (.jump target)) :
      Leads program given ⟨pc, acc⟩ ⟨target, acc⟩
  | branch {pc jt jf : Nat} {value : UInt32} {test : Test} {k : UInt32}
      (hi : program.code[pc]? = some (.branch test k jt jf)) :
      Leads program given ⟨pc, .value value⟩ ⟨if test.holds value k then jt else jf, .value value⟩
  | branchOpen {pc jt jf target : Nat} {field : Field} {test : Test} {k : UInt32}
      (hi : program.code[pc]? = some (.branch test k jt jf)) (htarget : target = jt ∨ target = jf) :
      Leads program given ⟨pc, .word field⟩ ⟨target, .word field⟩

/-- Some path from the first instruction, with an empty accumulator, comes to the point. -/
def PathTo (program : Program) (given : Given) (p : Point) : Prop :=
  Relation.ReflTransGen (Leads program given) ⟨0, .value 0⟩ p

variable {program : Program} {given : Given} {p q : Point} {field : Field} {k : UInt32}

theorem Given.load_of_given {value : UInt32} (h : given.word? field = some value) :
    given.load field = .value value := by
  cases field with
  | nr => simp_all [word?, load]
  | arch => simpa [word?, load] using h
  | _ => cases h

theorem Given.load_of_open (h : given.word? field = none) : given.load field = .word field := by
  cases field with
  | nr => simp_all [word?, load]
  | arch => cases h
  | _ => rfl

theorem Leads.exists_successor (h : Leads program given p q) :
    ∃ i, program.code[p.pc]? = some i ∧ q ∈ p.successors given i := by
  cases h with
  | loadGiven hi hgiven => exact ⟨_, hi, by simp [Point.successors, Given.load_of_given hgiven]⟩
  | loadOpen hi hopen => exact ⟨_, hi, by simp [Point.successors, Given.load_of_open hopen]⟩
  | compute hi => exact ⟨_, hi, List.mem_singleton_self _⟩
  | computeOpen hi => exact ⟨_, hi, List.mem_singleton_self _⟩
  | jump hi => exact ⟨_, hi, List.mem_singleton_self _⟩
  | branch hi => exact ⟨_, hi, List.mem_singleton_self _⟩
  | branchOpen hi htarget =>
    refine ⟨_, hi, ?_⟩
    rcases htarget with rfl | rfl
    · exact List.mem_cons_self ..
    · exact List.mem_cons_of_mem _ (List.mem_singleton_self _)

theorem leads_of_mem_successors {i : Instruction} (hi : program.code[p.pc]? = some i)
    (h : q ∈ p.successors given i) : Leads program given p q := by
  obtain ⟨pc, acc⟩ := p
  cases i with
  | load field =>
    obtain rfl := List.mem_singleton.1 h
    cases hword : given.word? field with
    | some value =>
      rw [Given.load_of_given hword]
      exact .loadGiven hi hword
    | none =>
      rw [Given.load_of_open hword]
      exact .loadOpen hi hword
  | alu op k =>
    cases acc with
    | value value =>
      obtain rfl := List.mem_singleton.1 h
      exact .compute hi
    | word field =>
      obtain rfl := List.mem_singleton.1 h
      exact .computeOpen hi
  | jump target =>
    obtain rfl := List.mem_singleton.1 h
    exact .jump hi
  | branch test k jt jf =>
    cases acc with
    | value value =>
      obtain rfl := List.mem_singleton.1 h
      exact .branch hi
    | word field =>
      rcases List.mem_cons.1 h with rfl | h
      · exact .branchOpen hi (.inl rfl)
      · obtain rfl := List.mem_singleton.1 h
        exact .branchOpen hi (.inr rfl)
  | ret value => cases h

/-- A word that a path is about is open. -/
theorem PathTo.open_of_word (h : PathTo program given p) (hp : p.acc = .word field) :
    given.word? field = none := by
  induction h with
  | refl => cases hp
  | tail _ hleads ih =>
    cases hleads with
    | loadOpen hi hopen =>
      cases hp
      exact hopen
    | computeOpen hi => exact ih hp
    | jump hi => exact ih hp
    | branchOpen hi htarget => exact ih hp
    | _ => cases hp

/-! ### Paths and the sweep -/

/-- Whatever joins the frontier lies on a path, if all that was there before does. -/
theorem pathTo_of_mem_sweep {rest : List Instruction} {pc : Nat} {frontier : List Point}
    (hrest : ∀ j, rest[j]? = program.code[pc + j]?)
    (hfrontier : ∀ q ∈ frontier, PathTo program given q)
    (h : p ∈ sweep given pc rest frontier) : PathTo program given p := by
  induction rest generalizing pc frontier with
  | nil => cases h
  | cons i rest ih =>
    rcases List.mem_append.1 h with hhere | hlater
    · exact hfrontier p (List.mem_of_mem_filter hhere)
    · refine ih (fun j => ?_) (fun q hq => ?_) hlater
      · rw [Nat.add_assoc, Nat.add_comm 1 j, ← hrest, List.getElem?_cons_succ]
      · rcases mem_foldr_insert.1 hq with hfound | hahead
        · obtain ⟨r, hr, hsuccessor⟩ := List.mem_flatMap.1 hfound
          obtain ⟨hr, hpc⟩ := List.mem_filter.1 hr
          have hi : program.code[r.pc]? = some i := by
            rw [of_decide_eq_true hpc]
            exact (hrest 0).symm
          exact (hfrontier r hr).tail (leads_of_mem_successors hi hsuccessor)
        · exact hfrontier q (List.mem_of_mem_filter hahead)

/-- The sweep meets exactly the points that paths come to. -/
theorem mem_explored_iff (hforward : program.Forward) (hpos : 0 < program.length) :
    p ∈ explored program given ↔ PathTo program given p := by
  constructor
  · refine pathTo_of_mem_sweep (fun j => ?_) (fun q hq => ?_)
    · rw [Nat.zero_add, Array.getElem?_toList]
    · rw [List.mem_singleton.1 hq]
      exact .refl
  · intro h
    induction h with
    | refl => exact start_mem_explored hpos
    | tail _ hleads ih =>
      obtain ⟨i, hi, hq⟩ := hleads.exists_successor
      exact mem_explored_of_mem_successors hforward ih hi hq

theorem recorded?_eq_some_iff {i : Instruction} :
    p.recorded? i = some (field, k) ↔ p.acc = .word field ∧ i.sought? = some k := by
  obtain ⟨pc, acc⟩ := p
  cases acc with
  | value value => simp [Point.recorded?]
  | word source =>
    cases i with
    | alu op operand => cases op <;> simp [Point.recorded?, Instruction.sought?]
    | _ => simp [Point.recorded?, Instruction.sought?]

/-- A constant is recorded for a word exactly if some path looks for it in that word. -/
theorem mem_constants_iff_pathTo (hforward : program.Forward) (hpos : 0 < program.length) :
    k ∈ (Constants.ofProgram program given).of field ↔
      ∃ pc i, PathTo program given ⟨pc, .word field⟩ ∧ program.code[pc]? = some i ∧
        i.sought? = some k := by
  rw [Constants.mem_of]
  simp only [Constants.ofProgram, List.mem_filterMap, Option.bind_eq_some_iff,
    recorded?_eq_some_iff, mem_explored_iff hforward hpos]
  constructor
  · intro h
    obtain ⟨⟨pc, acc⟩, hpath, i, hi, rfl, hk⟩ := h
    exact ⟨pc, i, hpath, hi, hk⟩
  · intro h
    obtain ⟨pc, i, hpath, hi, hk⟩ := h
    exact ⟨⟨pc, .word field⟩, hpath, i, hi, rfl, hk⟩

/-! ### The path of a run -/

/-- What a path knows of the accumulator, by the word that was loaded last. -/
def Given.knowledge (given : Given) (last : Option Field) (acc : UInt32) : Knowledge :=
  match last with
  | none => .value acc
  | some field => if given.word? field = none then .word field else .value acc

theorem Given.knowledge_of_open (h : given.word? field = none) (acc : UInt32) :
    given.knowledge (some field) acc = .word field :=
  if_pos h

theorem Given.knowledge_of_given {value : UInt32} (h : given.word? field = some value)
    (acc : UInt32) : given.knowledge (some field) acc = .value acc :=
  if_neg (by simp [h])

/-- What is known of the accumulator is its value, or no more than the open word it comes from. -/
theorem Given.knowledge_cases (given : Given) (last : Option Field) :
    (∀ acc, given.knowledge last acc = .value acc) ∨
      ∃ field, ∀ acc, given.knowledge last acc = .word field := by
  cases last with
  | none => exact .inl fun _ => rfl
  | some field =>
    cases h : given.word? field with
    | none => exact .inr ⟨field, knowledge_of_open h⟩
    | some value => exact .inl (knowledge_of_given h)

variable {raw : RawProgram} {call : Call} {s t : State} {last : Option Field}

/-- The path takes every step that the run takes. -/
theorem leads_of_step (hcarries : given.Carries call) {i : Instruction}
    (hi : program.code[s.pc]? = some i) (hstep : i.step call s = .goes t) :
    Leads program given ⟨s.pc, given.knowledge last s.acc⟩
      ⟨t.pc, given.knowledge (i.loaded?.or last) t.acc⟩ := by
  cases i with
  | load field =>
    cases hstep
    show Leads program given _ ⟨_, given.knowledge (some field) (call.word field)⟩
    cases hword : given.word? field with
    | none =>
      rw [Given.knowledge_of_open hword]
      exact .loadOpen hi hword
    | some value =>
      rw [hcarries field value (Given.load_of_given hword), Given.knowledge_of_given hword]
      exact .loadGiven hi hword
  | alu op k =>
    cases hstep
    show Leads program given _ ⟨_, given.knowledge last _⟩
    rcases given.knowledge_cases last with h | ⟨field, h⟩
    · rw [h, h]
      exact .compute hi
    · rw [h, h]
      exact .computeOpen hi
  | jump target =>
    cases hstep
    exact .jump hi
  | branch test k jt jf =>
    cases hstep
    show Leads program given _ ⟨_, given.knowledge last _⟩
    rcases given.knowledge_cases last with h | ⟨field, h⟩
    · rw [h]
      exact .branch hi
    · rw [h]
      refine .branchOpen hi ?_
      split
      · exact .inl rfl
      · exact .inr rfl
  | ret value => cases hstep

theorem pathTo_start (program : Program) (given : Given) :
    PathTo program given ⟨State.start.pc, given.knowledge none State.start.acc⟩ :=
  .refl

/-- Wherever a run comes to, a path comes to with it. -/
theorem pathTo_of_statesFrom (hcarries : given.Carries call) {limit : Nat}
    {before after : List State}
    (hs : PathTo program given ⟨s.pc, given.knowledge last s.acc⟩)
    (h : program.statesFrom call limit s = before ++ t :: after) :
    PathTo program given ⟨t.pc, given.knowledge ((program.lastLoad? before).or last) t.acc⟩ := by
  induction limit generalizing s last before with
  | zero => simp [Program.statesFrom] at h
  | succ limit ih =>
    rw [Program.statesFrom] at h
    split at h
    · simp at h
    · next i hi =>
      cases before with
      | nil =>
        obtain ⟨rfl, -⟩ := List.cons.inj h
        exact hs
      | cons first before =>
        obtain ⟨rfl, hrest⟩ := List.cons.inj h
        split at hrest
        · next next hstep =>
          rw [Program.lastLoad?_cons hi, Option.or_assoc]
          exact ih (hs.tail (leads_of_step hcarries hi hstep)) hrest
        · simp at hrest

theorem pathTo_of_trace (hcarries : given.Carries call) {limit : Nat} {before after : List State}
    (h : program.trace call limit = before ++ t :: after) :
    PathTo program given ⟨t.pc, given.knowledge (program.lastLoad? before) t.acc⟩ := by
  have hpath := pathTo_of_statesFrom hcarries (pathTo_start program given) h
  rwa [Option.or_none] at hpath

/-- **A scan records what can be looked for, no more and no less, and every run looks for recorded
constants only.** A constant is recorded for a word exactly if the word is open and some path
comes, with that word in the accumulator, to a branch or mask with the constant. And whenever
a run on a call with the given words executes such an instruction after it loaded an open word
last, the constant is recorded for that word. -/
theorem scan_eq_paths (hload : Program.load raw = .ok program) (given : Given) (field : Field)
    (k : UInt32) :
    (k ∈ (Constants.ofProgram program given).of field ↔
      given.word? field = none ∧ ∃ pc i, PathTo program given ⟨pc, .word field⟩ ∧
        program.code[pc]? = some i ∧ i.sought? = some k) ∧
    ∀ call : Call, call.arch = given.arch →
      (∀ number, given.nr = some number → call.word .nr = number) →
      ∀ limit before state after i, program.trace call limit = before ++ state :: after →
        program.lastLoad? before = some field → given.word? field = none →
        program.code[state.pc]? = some i → i.sought? = some k →
        k ∈ (Constants.ofProgram program given).of field := by
  have hloaded := load_eq_ok_iff.1 hload
  have hrecorded : k ∈ (Constants.ofProgram program given).of field ↔ _ :=
    mem_constants_iff_pathTo hloaded.forward hloaded.length_pos
  refine ⟨⟨fun hk => ?_, fun ⟨_, hpath⟩ => hrecorded.2 hpath⟩, ?_⟩
  · obtain ⟨pc, i, hpath, hi, hsought⟩ := hrecorded.1 hk
    exact ⟨hpath.open_of_word rfl, pc, i, hpath, hi, hsought⟩
  · intro call harch hnr limit before state after i htrace hlast hopen hi hsought
    have hpath := pathTo_of_trace (Given.carries_iff.2 ⟨harch, hnr⟩) htrace
    rw [hlast, Given.knowledge_of_open hopen] at hpath
    exact hrecorded.2 ⟨state.pc, i, hpath, hi, hsought⟩

/-- Looks at the first argument for the number 3 only, and ends with a test that is also met with
the number in the accumulator. -/
def maskedForThree : RawProgram :=
  [.plain .load 0, .plain (.alu .add) 1, .branch .eq 4 0 2, .plain .load 16,
    .plain (.alu .and) 0xf0, .branch .set 0x10 0 1, .plain .ret 0x50001, .plain .ret 0x7fff0000]

def maskedForThreeProgram : Program where
  code := #[.load .nr, .alu .add 1, .branch .eq 4 3 5, .load (.argLow 0), .alu .and 0xf0,
    .branch .set 0x10 6 7, .ret 0x50001, .ret 0x7fff0000]

/-- The test of bits is met with the argument if the number is 3, and only with the number if it
is 4. -/
theorem scan_maskedForThree :
    Program.load maskedForThree = .ok maskedForThreeProgram ∧
      (∃ pc i, PathTo maskedForThreeProgram ⟨0, some 3⟩ ⟨pc, .word (.argLow 0)⟩ ∧
        maskedForThreeProgram.code[pc]? = some i ∧ i.sought? = some 0x10) ∧
      (¬∃ pc i, PathTo maskedForThreeProgram ⟨0, some 4⟩ ⟨pc, .word (.argLow 0)⟩ ∧
        maskedForThreeProgram.code[pc]? = some i ∧ i.sought? = some 0x10) ∧
      0x10 ∈ (Constants.ofProgram maskedForThreeProgram ⟨0, some 3⟩).of (.argLow 0) := by
  have hload : Program.load maskedForThree = .ok maskedForThreeProgram := by decide
  obtain ⟨hpaths, hruns⟩ := scan_eq_paths hload ⟨0, some 3⟩ (.argLow 0) 0x10
  obtain ⟨hothers, -⟩ := scan_eq_paths hload ⟨0, some 4⟩ (.argLow 0) 0x10
  refine ⟨hload, (hpaths.1 (by decide)).2, fun hpath => ?_, ?_⟩
  · exact absurd (hothers.2 ⟨rfl, hpath⟩) (by decide)
  · exact hruns (.ofWord 3 0 (.replicate 0x15)) rfl (fun _ hnr => Option.some.inj hnr) 6
      [⟨0, 0⟩, ⟨1, 3⟩, ⟨2, 4⟩, ⟨3, 4⟩, ⟨4, 0x15⟩] ⟨5, 0x10⟩ [] _ (by decide) (by decide) rfl rfl rfl

end Sampling

end SyscallFilter
