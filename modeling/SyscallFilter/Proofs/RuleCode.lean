import SyscallFilter.Proofs.ConditionCode

/-! The code of a rule is a block with two entries.

Entered at its first instruction it returns the action of the rule, or goes on
behind the block if the rule does not apply; entered at its second instruction it
goes on one instruction further, by jumps alone (`Rule.decides_code`, `Rule.relays_code`).

A rule is assembled back to front, and `RuleTail.Works` is what holds of every part
of it: where a failed condition lands, the run goes on behind the rule; where a hop
lands, one further. A relay moves both landing places to its own jumps, so the rest
of the rule never learns how long it is. -/
namespace SyscallFilter

open Bpf

/-! ### Entries -/

/-- The run from a state returns the action, if there is one, and else goes on at `exit`. -/
def Decides (program : Program) (call : Call) (s : State) (exit : Nat) : Option Action → Prop
  | some action => program.Returns call s action.code
  | none => ∃ acc, program.Reaches call s ⟨exit, acc⟩

/-- A run that comes to index `pc` goes on at `exit` with the same accumulator. -/
def Hops (program : Program) (call : Call) (pc exit : Nat) : Prop :=
  ∀ acc, program.Reaches call ⟨pc, acc⟩ ⟨exit, acc⟩

section

variable {program : Program} {call : Call} {exit : Nat} {verdict : Option Action}

theorem Decides.of_reaches {s t : State} (h : program.Reaches call s t)
    (hd : Decides program call t exit verdict) : Decides program call s exit verdict := by
  cases verdict with
  | some action => exact h.returns hd
  | none =>
    obtain ⟨acc, hexit⟩ := hd
    exact ⟨acc, h.trans hexit⟩

end

/-! ### Jumps in a row -/

/-- Jumps alone lead from one index to the other. -/
def Relays (raw : RawProgram) : Nat → Nat → Prop :=
  Relation.ReflTransGen fun pc target =>
    ∃ distance < 0x100000000, raw[pc]? = some (jumpBy distance) ∧ target = pc + 1 + distance

section

variable {raw : RawProgram} {program : Program} {pc mid exit : Nat}

theorem Relays.refl (raw : RawProgram) (pc : Nat) : Relays raw pc pc :=
  Relation.ReflTransGen.refl

theorem Relays.trans (h : Relays raw pc mid) (h' : Relays raw mid exit) : Relays raw pc exit :=
  Relation.ReflTransGen.trans h h'

theorem relays_jumpBy {distance : Nat} {code : List RawInstruction} (hd : distance < 0x100000000)
    (hat : CodeAt raw pc (jumpBy distance :: code)) (he : exit = pc + 1 + distance) :
    Relays raw pc exit :=
  Relation.ReflTransGen.single ⟨distance, hd, hat.cons.1, he⟩

theorem Relays.hops (hr : Relays raw pc exit) (h : Loaded raw program) (call : Call) :
    Hops program call pc exit := by
  induction hr with
  | refl => exact fun acc => .refl program call _
  | tail _ hjump ih =>
    obtain ⟨distance, hd, hget, rfl⟩ := hjump
    intro acc
    exact (ih acc).trans (h.goes_jumpBy call acc hd (codeAt_singleton.2 hget)).reaches

end

/-! ### Parts of a rule -/

namespace RuleTail

/-- Landing places are in reach of a comparison and inside the rule or right behind it. -/
structure Bounded (tail : RuleTail) : Prop where
  reach : tail.distance ≤ 254
  inside : tail.distance ≤ tail.code.length
  fits : CodeFits tail.code 2

/-- What the end of a rule does where it stands. -/
structure Works (raw : RawProgram) (program : Program) (call : Call) (tail : RuleTail)
    (verdict : Option Action) : Prop where
  decides : ∀ pc exit acc, CodeAt raw pc tail.code → exit = pc + tail.code.length →
    Decides program call ⟨pc, acc⟩ exit verdict
  lands : ∀ pc exit, CodeAt raw pc tail.code → exit = pc + tail.code.length →
    Hops program call (pc + tail.distance) exit
  hops : ∀ pc exit, CodeAt raw pc tail.code → exit = pc + tail.code.length →
    Hops program call (pc + tail.distance + 1) (exit + 1)

/-- Failed conditions that land at the end of a rule are led behind it, and hops one further. -/
structure Lands (raw : RawProgram) (tail : RuleTail) : Prop where
  lands : ∀ pc exit, CodeAt raw pc tail.code → exit = pc + tail.code.length →
    Relays raw (pc + tail.distance) exit
  hops : ∀ pc exit, CodeAt raw pc tail.code → exit = pc + tail.code.length →
    Relays raw (pc + tail.distance + 1) (exit + 1)

variable {raw : RawProgram} {program : Program} {call : Call} {tail : RuleTail}
  {verdict : Option Action} {condition : Condition}

/-- There is room for a condition in front of a relayed tail. -/
theorem distance_relayed_le (tail : RuleTail) : tail.relayed.distance ≤ 248 := by
  unfold relayed Condition.maxCodeLength
  split
  · omega
  · simp

theorem Bounded.relayed (h : tail.Bounded) : tail.relayed.Bounded := by
  obtain ⟨hreach, hinside, hfits⟩ := h
  unfold RuleTail.relayed
  split
  · exact ⟨hreach, hinside, hfits⟩
  · refine ⟨by simp, by simp, codeFits_append.2 ⟨?_, hfits⟩⟩
    exact ⟨fits_jumpBy (by simp), fits_jumpBy (by simp; omega), fits_jumpBy (by simp; omega), trivial⟩

theorem Bounded.addCondition (h : tail.Bounded) (hindex : condition.index < 6) :
    (tail.addCondition condition).Bounded := by
  have hr := h.relayed
  have hreach := tail.distance_relayed_le
  have hlen := condition.length_code_le tail.relayed.distance
  have hmax : Condition.maxCodeLength = 6 := rfl
  have hinside := hr.inside
  unfold RuleTail.addCondition
  refine ⟨?_, ?_, codeFits_append.2 ⟨Condition.codeFits_code hindex ?_, hr.fits⟩⟩
  · show tail.relayed.distance + _ ≤ 254
    omega
  · show tail.relayed.distance + _ ≤ (_ ++ _ : List RawInstruction).length
    rw [List.length_append]
    omega
  · omega

theorem Lands.relayed (hl : tail.Lands raw) (hb : tail.Bounded) : tail.relayed.Lands raw := by
  have hreach := hb.reach
  unfold RuleTail.relayed
  split
  · exact hl
  · refine ⟨fun pc exit hat he => ?_, fun pc exit hat he => ?_⟩
    all_goals
      obtain ⟨hrelay, hrest⟩ := hat.append
      simp only [List.length_append, List.length_cons, List.length_nil] at hrest he ⊢
    · have hjump : Relays raw (pc + 1) (pc + 3 + tail.distance) :=
        relays_jumpBy (by omega) hrelay.cons.2 (by omega)
      exact hjump.trans (hl.lands (pc + 3) exit hrest (by omega))
    · have hjump : Relays raw (pc + 2) (pc + 3 + tail.distance + 1) :=
        relays_jumpBy (by omega) hrelay.cons.2.cons.2 (by omega)
      exact hjump.trans (hl.hops (pc + 3) exit hrest (by omega))

theorem Lands.addCondition (hl : tail.Lands raw) (hb : tail.Bounded) :
    (tail.addCondition condition).Lands raw := by
  have hr := hl.relayed hb
  unfold RuleTail.addCondition
  refine ⟨fun pc exit hat he => ?_, fun pc exit hat he => ?_⟩
  all_goals
    obtain ⟨hcondition, hrest⟩ := hat.append
    simp only [List.length_append] at he ⊢
  · have hland := hr.lands _ exit hrest (by omega)
    rwa [Nat.add_assoc, Nat.add_comm (List.length _)] at hland
  · have hhop := hr.hops _ exit hrest (by omega)
    rwa [Nat.add_assoc pc, Nat.add_comm (List.length _)] at hhop

theorem Works.of_lands (h : Loaded raw program) (hl : tail.Lands raw)
    (hdecides : ∀ pc exit acc, CodeAt raw pc tail.code → exit = pc + tail.code.length →
      Decides program call ⟨pc, acc⟩ exit verdict) : Works raw program call tail verdict :=
  ⟨hdecides, fun pc exit hat he => (hl.lands pc exit hat he).hops h call,
    fun pc exit hat he => (hl.hops pc exit hat he).hops h call⟩

theorem Works.relayed (h : Loaded raw program) (hw : Works raw program call tail verdict)
    (hb : tail.Bounded) (hl : tail.Lands raw) : Works raw program call tail.relayed verdict := by
  refine .of_lands h (hl.relayed hb) fun pc exit acc hat he => ?_
  unfold RuleTail.relayed at hat he
  split at hat
  · next hshort =>
    rw [if_pos hshort] at he
    exact hw.decides pc exit acc hat he
  · next hlong =>
    rw [if_neg hlong] at he
    obtain ⟨hrelay, hrest⟩ := hat.append
    simp only [List.length_append, List.length_cons, List.length_nil] at hrest he
    have hjump : Relays raw pc (pc + 3) := relays_jumpBy (by omega) hrelay (by omega)
    exact .of_reaches (hjump.hops h call acc) (hw.decides (pc + 3) exit acc hrest (by omega))

theorem Works.addCondition (h : Loaded raw program) (hw : Works raw program call tail verdict)
    (hb : tail.Bounded) (hl : tail.Lands raw) (hindex : condition.index < 6) :
    Works raw program call (tail.addCondition condition)
      (if condition.holds call.args then verdict else none) := by
  have hr := hw.relayed h hb hl
  have hreach := tail.distance_relayed_le
  refine .of_lands h (hl.addCondition hb) fun pc exit acc hat he => ?_
  unfold RuleTail.addCondition at hat he
  obtain ⟨hcondition, hrest⟩ := hat.append
  simp only [List.length_append] at he
  obtain ⟨acc', hrun⟩ := Condition.within_code h call acc hindex (by omega) hcondition rfl
  refine .of_reaches hrun.reaches ?_
  by_cases hholds : condition.holds call.args
  · simp only [hholds, if_true]
    exact hr.decides _ exit acc' hrest (by omega)
  · simp only [hholds]
    exact ⟨acc', hr.lands _ exit hrest (by omega) acc'⟩

end RuleTail

/-! ### Whole rules -/

namespace Rule

variable {raw : RawProgram} {program : Program} {call : Call} {rule : Rule} {pc exit : Nat}

theorem verdict?_cons (condition : Condition) (rest : List Condition) (action : Action)
    (args : Args) :
    verdict? ⟨condition :: rest, action⟩ args =
      if condition.holds args then verdict? ⟨rest, action⟩ args else none := by
  unfold verdict?
  by_cases h : condition.holds args <;> simp [h]

theorem bounded_tail (hindex : ∀ condition ∈ rule.conditions, condition.index < 6) :
    rule.tail.Bounded := by
  obtain ⟨conditions, action⟩ := rule
  induction conditions with
  | nil => exact ⟨by simp [tail], by simp [tail], fits_returnAction action, trivial⟩
  | cons condition rest ih =>
    exact (ih fun c hc => hindex c (List.mem_cons_of_mem _ hc)).addCondition
      (hindex condition (List.mem_cons_self ..))

theorem lands_tail (raw : RawProgram)
    (hindex : ∀ condition ∈ rule.conditions, condition.index < 6) : rule.tail.Lands raw := by
  obtain ⟨conditions, action⟩ := rule
  induction conditions with
  | nil =>
    refine ⟨fun pc exit _ he => ?_, fun pc exit _ he => ?_⟩
    all_goals
      subst he
      exact .refl raw _
  | cons condition rest ih =>
    have hrest : ∀ c ∈ rest, c.index < 6 := fun c hc => hindex c (List.mem_cons_of_mem _ hc)
    have hbounded : (tail ⟨rest, action⟩).Bounded := bounded_tail hrest
    exact (ih hrest).addCondition hbounded

theorem works_tail (h : Loaded raw program)
    (hindex : ∀ condition ∈ rule.conditions, condition.index < 6) :
    rule.tail.Works raw program call (rule.verdict? call.args) := by
  obtain ⟨conditions, action⟩ := rule
  induction conditions with
  | nil =>
    exact .of_lands h (lands_tail raw hindex)
      fun pc exit acc hat _ => h.returns_returnAction call acc hat
  | cons condition rest ih =>
    have hrest : ∀ c ∈ rest, c.index < 6 := fun c hc => hindex c (List.mem_cons_of_mem _ hc)
    have hbounded : (tail ⟨rest, action⟩).Bounded := bounded_tail hrest
    have hlands : (tail ⟨rest, action⟩).Lands raw := lands_tail raw hrest
    rw [verdict?_cons]
    exact (ih hrest).addCondition h hbounded hlands (hindex condition (List.mem_cons_self ..))

theorem codeFits_code (hindex : ∀ condition ∈ rule.conditions, condition.index < 6) :
    CodeFits rule.code 2 := by
  have hb := bounded_tail hindex
  have hinside := hb.inside
  exact codeFits_append.2 ⟨⟨fits_jumpBy (by simp), fits_jumpBy (by simp; omega), trivial⟩, hb.fits⟩

theorem length_code (rule : Rule) : rule.code.length = rule.tail.code.length + 2 := by
  simp [code]

/-- Entered at its first instruction, a rule decides the call or leaves it to what follows. -/
theorem decides_code (h : Loaded raw program)
    (hindex : ∀ condition ∈ rule.conditions, condition.index < 6) (hat : CodeAt raw pc rule.code)
    (he : exit = pc + rule.code.length) (acc : UInt32) :
    Decides program call ⟨pc, acc⟩ exit (rule.verdict? call.args) := by
  obtain ⟨hentry, htail⟩ := hat.append
  have hjump : Relays raw pc (pc + 2) := relays_jumpBy (by omega) hentry (by omega)
  rw [length_code] at he
  exact .of_reaches (hjump.hops h call acc)
    ((works_tail h hindex).decides (pc + 2) exit acc htail (by omega))

/-- Entered at its second instruction, a rule is passed by. -/
theorem relays_code (hindex : ∀ condition ∈ rule.conditions, condition.index < 6)
    (hat : CodeAt raw pc rule.code) (he : exit = pc + rule.code.length) :
    Relays raw (pc + 1) (exit + 1) := by
  obtain ⟨hentry, htail⟩ := hat.append
  have hreach := (bounded_tail hindex).reach
  have hjump : Relays raw (pc + 1) (pc + 2 + rule.tail.distance + 1) :=
    relays_jumpBy (by omega) hentry.cons.2 (by omega)
  rw [length_code] at he
  exact hjump.trans ((lands_tail raw hindex).hops (pc + 2) exit htail (by omega))

theorem verdict?_eq (rule : Rule) (args : Args) :
    rule.verdict? args =
      if ∀ condition ∈ rule.conditions, condition.holds args then some rule.action else none :=
  if_congr List.all_eq_true rfl rfl

/-- **A rule is a block with two entries.** In front of any two instructions the code of a rule with
any number of conditions is valid, so a program that it is part of can be loaded if all others are.
On every call, a run that enters the code at its first instruction returns the action of the rule if
all conditions hold, and else goes on behind the code. A run that enters it at its second instruction
goes on one instruction further, with the accumulator as it was. -/
theorem runs_block {rule : Rule} {before after : RawProgram}
    (hindex : ∀ condition ∈ rule.conditions, condition.index ≤ 5)
    (hbefore : CodeFits before (rule.code.length + after.length)) (hafter : CodeFits after 0)
    (hbehind : 2 ≤ after.length) (hlength : (before ++ rule.code ++ after).length ≤ maxLength)
    (hlast : ∃ last, after.getLast? = some last ∧ last.code = Opcode.ret.code) :
    ∃ program, Program.load (before ++ rule.code ++ after) = .ok program ∧ ∀ call acc,
      ((∀ condition ∈ rule.conditions, condition.holds call.args) →
        program.Returns call ⟨before.length, acc⟩ rule.action.code) ∧
      ((∃ condition ∈ rule.conditions, ¬condition.holds call.args) →
        ∃ acc', program.Reaches call ⟨before.length, acc⟩
          ⟨before.length + rule.code.length, acc'⟩) ∧
      program.Reaches call ⟨before.length + 1, acc⟩
        ⟨before.length + rule.code.length + 1, acc⟩ := by
  replace hindex : ∀ condition ∈ rule.conditions, condition.index < 6 :=
    fun condition hcondition => Nat.lt_succ_of_le (hindex condition hcondition)
  obtain ⟨last, hlast, hret⟩ := hlast
  have hfits : CodeFits (before ++ rule.code ++ after) 0 := by
    rw [List.append_assoc, codeFits_append, codeFits_append, List.length_append]
    exact ⟨hbefore, (codeFits_code hindex).mono hbehind, hafter⟩
  have hlast' : (before ++ rule.code ++ after).getLast? = some last := by
    rw [List.getLast?_append, hlast, Option.some_or]
  obtain ⟨program, hload⟩ := exists_load_of_codeFits hfits hlength hlast' hret
  have hloaded := load_eq_ok_iff.1 hload
  have hat : CodeAt (before ++ rule.code ++ after) before.length rule.code :=
    ⟨after, by rw [List.append_assoc, List.drop_left]⟩
  refine ⟨program, hload, fun call acc => ?_⟩
  have hdecides : Decides program call ⟨before.length, acc⟩ _ (rule.verdict? call.args) :=
    decides_code hloaded hindex hat rfl acc
  rw [verdict?_eq] at hdecides
  refine ⟨fun hholds => ?_, fun ⟨condition, hcondition, hfails⟩ => ?_,
    (relays_code hindex hat rfl).hops hloaded call acc⟩
  · rw [if_pos hholds] at hdecides
    exact hdecides
  · rw [if_neg fun hholds => hfails (hholds condition hcondition)] at hdecides
    exact hdecides

/-- Asks the same of an argument so often that two relays are needed. -/
def insistent : Rule :=
  ⟨List.replicate 120 ⟨0, .qword, .ge, 0x100000005⟩, .allow⟩

theorem runs_insistent :
    insistent.code.length = 609 ∧
      ∃ program, Program.load ([loadWord .nr] ++ insistent.code ++
          [returnAction .trap, returnAction .log]) = .ok program ∧ ∀ acc,
        program.Returns (.ofWord 0 0 (.replicate 0x100000005)) ⟨1, acc⟩ Action.allow.code ∧
        (∃ acc', program.Reaches (.ofWord 0 0 (.replicate 5)) ⟨1, acc⟩ ⟨610, acc'⟩) ∧
        program.Reaches (.ofWord 0 0 (.replicate 5)) ⟨2, acc⟩ ⟨611, acc⟩ := by
  have hlength : insistent.code.length = 609 := by decide +kernel
  have hmem : ∀ condition ∈ insistent.conditions, condition = ⟨0, .qword, .ge, 0x100000005⟩ :=
    fun condition hcondition => List.eq_of_mem_replicate hcondition
  obtain ⟨program, hload, hruns⟩ := @runs_block insistent [loadWord .nr]
    [returnAction .trap, returnAction .log]
    (fun condition hcondition => by rw [hmem condition hcondition]; decide)
    ⟨fits_loadWord (by decide), trivial⟩ ⟨fits_returnAction _, fits_returnAction _, trivial⟩
    (Nat.le_refl 2) (by simp [hlength, maxLength]) ⟨_, rfl, rfl⟩
  refine ⟨hlength, program, hload, fun acc => ?_⟩
  rw [hlength] at hruns
  refine ⟨(hruns _ acc).1 fun condition hcondition => ?_,
    (hruns _ acc).2.1 ⟨_, List.mem_replicate.2 ⟨by decide, rfl⟩, by decide⟩, (hruns _ acc).2.2⟩
  rw [hmem condition hcondition]
  decide

end Rule

end SyscallFilter
