import SyscallFilter.Proofs.RuleCode
import SyscallFilter.Proofs.RuleValidation

/-! The program of a rule set does what the rules say.

The comparison with a listed number either enters the chain of that number or hops
over all its rules to the next comparison, with the number still in the accumulator.
`assemble_spec` puts the blocks together: an assembled program can be loaded, and on
every call it gives the decision of the rule set (`RuleSet.decision`) as long as it may
run as many instructions as it has. -/
namespace SyscallFilter

open Bpf

/-! ### What rules say about a call -/

namespace RuleSet

/-- The action for a number, listed or not. -/
def answer (ruleSet : RuleSet) (number : Int) (args : Args) : Action :=
  match ruleSet.rules.get? number with
  | none => ruleSet.defaultAction
  | some chain => (chain.verdict? args).getD ruleSet.defaultAction

/-- The action for a call, of whatever architecture. The number is an unsigned word. -/
def decision (ruleSet : RuleSet) (call : Call) : Action :=
  if call.arch = ruleSet.architecture.audit then ruleSet.answer (call.word .nr).toNat call.args
  else .killProcess

theorem mem_syscalls_iff {ruleSet : RuleSet} {number : Int} :
    number ∈ ruleSet.syscalls ↔ ∃ chain, ruleSet.rules.get? number = some chain :=
  Table.mem_keys_iff

theorem evaluate_eq_answer {ruleSet : RuleSet} {number : Int} (h : number ∈ ruleSet.syscalls)
    (args : Args) : ruleSet.evaluate number args = .ok (ruleSet.answer number args) := by
  obtain ⟨chain, hchain⟩ := mem_syscalls_iff.1 h
  simp [evaluate, answer, hchain]

theorem answer_of_not_mem {ruleSet : RuleSet} {number : Int} (h : number ∉ ruleSet.syscalls)
    (args : Args) : ruleSet.answer number args = ruleSet.defaultAction := by
  cases hget : ruleSet.rules.get? number with
  | none => simp [answer, hget]
  | some chain => exact absurd (mem_syscalls_iff.2 ⟨chain, hget⟩) h

end RuleSet

/-! ### What a rule set is checked for -/

/-- Every condition is about an argument that exists. -/
def Chain.WellIndexed (chain : Chain) : Prop :=
  ∀ rule ∈ chain, ∀ condition ∈ rule.conditions, condition.index < 6

theorem Chain.of_defect?_eq_none {number : Int} {chain : Chain}
    (h : Chain.defect? number chain = none) :
    (0 ≤ number ∧ number < 0x100000000) ∧ chain.WellIndexed := by
  obtain ⟨⟨hnonneg, hle⟩, -, -, hindexed⟩ := defect?_eq_none_iff.1 h
  exact ⟨⟨hnonneg, by omega⟩, fun rule hrule condition hcondition =>
    Nat.lt_succ_of_le (hindexed rule hrule condition hcondition)⟩

theorem RuleSet.of_mem_entries {ruleSet : RuleSet} {entry : Int × Chain}
    (h : entry ∈ ruleSet.rules.entries) :
    (0 ≤ entry.1 ∧ entry.1 < 0x100000000) ∧ entry.2.WellIndexed :=
  Chain.of_defect?_eq_none (List.findSome?_eq_none_iff.1 ruleSet.valid entry h)

/-! ### Chains -/

namespace Chain

variable {raw : RawProgram} {program : Program} {call : Call} {chain : Chain} {pc exit : Nat}
  {number : Int} {defaultAction : Action}

theorem returns_rules (h : Loaded raw program) (hindex : chain.WellIndexed)
    (hat : CodeAt raw pc (chain.flatMap Rule.code ++ [returnAction defaultAction])) (acc : UInt32) :
    program.Returns call ⟨pc, acc⟩ ((chain.verdict? call.args).getD defaultAction).code := by
  induction chain generalizing pc acc with
  | nil => exact h.returns_returnAction call acc hat
  | cons rule rest ih =>
    rw [List.flatMap_cons, List.append_assoc] at hat
    obtain ⟨hrule, hrest⟩ := hat.append
    have hd : Decides program call ⟨pc, acc⟩ _ (rule.verdict? call.args) :=
      Rule.decides_code h (hindex rule (List.mem_cons_self ..)) hrule rfl acc
    simp only [verdict?, List.findSome?_cons]
    cases hv : rule.verdict? call.args with
    | some action =>
      rw [hv] at hd
      exact hd
    | none =>
      rw [hv] at hd
      obtain ⟨acc', hreach⟩ := hd
      exact hreach.returns (ih (fun r hr => hindex r (List.mem_cons_of_mem _ hr)) hrest acc')

theorem relays_rules (hindex : chain.WellIndexed) (hat : CodeAt raw pc (chain.flatMap Rule.code)) :
    Relays raw (pc + 1) (pc + (chain.flatMap Rule.code).length + 1) := by
  induction chain generalizing pc with
  | nil => exact .refl raw _
  | cons rule rest ih =>
    rw [List.flatMap_cons] at hat ⊢
    obtain ⟨hrule, hrest⟩ := hat.append
    rw [List.length_append, ← Nat.add_assoc]
    exact (Rule.relays_code (hindex rule (List.mem_cons_self ..)) hrule rfl).trans
      (ih (fun r hr => hindex r (List.mem_cons_of_mem _ hr)) hrest)

/-- The word of the number is answered by the chain. -/
theorem returns_code (h : Loaded raw program) (hindex : chain.WellIndexed)
    (hat : CodeAt raw pc (chain.code number defaultAction)) :
    program.Returns call ⟨pc, UInt32.ofNat number.toNat⟩
      ((chain.verdict? call.args).getD defaultAction).code := by
  rw [code, List.append_assoc] at hat
  obtain ⟨hcompare, hrules⟩ := hat.append
  have hgoes := h.goes_compareWord call (UInt32.ofNat number.toNat) (by omega) (by omega) hcompare
  simp only [Test.holds, decide_true, if_true] at hgoes
  exact hgoes.returns (returns_rules h hindex hrules _)

/-- A comparison that fails skips one instruction and hops over the rules from there. -/
theorem relays_code (hindex : chain.WellIndexed)
    (hat : CodeAt raw pc (chain.code number defaultAction)) :
    Relays raw (pc + 2) (pc + (chain.code number defaultAction).length) := by
  rw [code, List.append_assoc] at hat
  have hrelays : Relays raw (pc + 1 + 1) _ := relays_rules hindex hat.append.2.append.1
  have hlength : pc + (chain.code number defaultAction).length =
      pc + 1 + (chain.flatMap Rule.code).length + 1 := by
    simp only [code, List.length_append, List.length_cons, List.length_nil]
    omega
  rw [hlength]
  exact hrelays

/-- Any other word is passed on. -/
theorem reaches_code (h : Loaded raw program) (hindex : chain.WellIndexed)
    (hat : CodeAt raw pc (chain.code number defaultAction)) {word : UInt32}
    (hne : word ≠ UInt32.ofNat number.toNat) :
    program.Reaches call ⟨pc, word⟩ ⟨pc + (chain.code number defaultAction).length, word⟩ := by
  have hgoes := h.goes_compareWord call word (by omega) (by omega) hat
  simp only [Test.holds, hne, decide_false, Bool.false_eq_true, if_false] at hgoes
  exact hgoes.reaches.trans ((relays_code hindex hat).hops h call word)

theorem codeFits_code (hindex : chain.WellIndexed) : CodeFits (chain.code number defaultAction) 1 := by
  have hrules : CodeFits (chain.flatMap Rule.code) 2 := by
    induction chain with
    | nil => trivial
    | cons rule rest ih =>
      rw [List.flatMap_cons]
      refine codeFits_append.2 ⟨?_, ih fun r hr => hindex r (List.mem_cons_of_mem _ hr)⟩
      exact (Rule.codeFits_code (hindex rule (List.mem_cons_self ..))).mono (Nat.le_add_left ..)
  rw [code, List.append_assoc]
  refine codeFits_append.2 ⟨⟨fits_compareWord ?_ ?_, trivial⟩,
    codeFits_append.2 ⟨hrules, fits_returnAction _, trivial⟩⟩
  all_goals
    simp only [List.length_append, List.length_cons, List.length_nil]
    omega

end Chain

/-! ### Rule sets -/

namespace RuleSet

variable {raw : RawProgram} {program : Program} {call : Call} {ruleSet : RuleSet}

theorem toNat_eq_iff {number : Int} (h : 0 ≤ number ∧ number < 0x100000000) {word : UInt32} :
    (word.toNat : Int) = number ↔ word = UInt32.ofNat number.toNat := by
  rw [← UInt32.toNat_inj, UInt32.toNat_ofNat_of_lt' (by rw [UInt32.size]; omega)]
  omega

/-- The comparisons with the first numbers find the chain of the word, as the table does, or
pass the word on. -/
theorem returns_entries_append (h : Loaded raw program) {entries rest : List (Int × Chain)}
    {pc : Nat} {defaultAction : Action}
    (hvalid : ∀ entry ∈ entries, (0 ≤ entry.1 ∧ entry.1 < 0x100000000) ∧ entry.2.WellIndexed)
    (hat : CodeAt raw pc (entries.flatMap fun entry => entry.2.code entry.1 defaultAction))
    {word : UInt32}
    (hrest : program.Returns call
      ⟨pc + (entries.flatMap fun entry => entry.2.code entry.1 defaultAction).length, word⟩
      (match rest.lookup (word.toNat : Int) with
        | none => defaultAction
        | some chain => (chain.verdict? call.args).getD defaultAction).code) :
    program.Returns call ⟨pc, word⟩
      (match (entries ++ rest).lookup (word.toNat : Int) with
        | none => defaultAction
        | some chain => (chain.verdict? call.args).getD defaultAction).code := by
  induction entries generalizing pc with
  | nil => exact hrest
  | cons entry later ih =>
    obtain ⟨number, chain⟩ := entry
    obtain ⟨hnumber, hindex⟩ := hvalid _ (List.mem_cons_self ..)
    rw [List.flatMap_cons] at hat hrest
    obtain ⟨hchain, hlater⟩ := hat.append
    rw [List.length_append, ← Nat.add_assoc] at hrest
    rw [List.cons_append, List.lookup_cons]
    by_cases hword : word = UInt32.ofNat number.toNat
    · have hbeq : ((word.toNat : Int) == number) = true := by
        simpa using (toNat_eq_iff hnumber).2 hword
      simp only [hbeq]
      rw [hword]
      exact Chain.returns_code h hindex hchain
    · have hbeq : ((word.toNat : Int) == number) = false := by
        simpa using mt (toNat_eq_iff hnumber).1 hword
      simp only [hbeq]
      exact (Chain.reaches_code h hindex hchain hword).returns
        (ih (fun e he => hvalid e (List.mem_cons_of_mem _ he)) hlater hrest)

theorem returns_entries (h : Loaded raw program) {entries : List (Int × Chain)} {pc : Nat}
    {defaultAction : Action}
    (hvalid : ∀ entry ∈ entries, (0 ≤ entry.1 ∧ entry.1 < 0x100000000) ∧ entry.2.WellIndexed)
    (hat : CodeAt raw pc (entries.flatMap (fun entry => entry.2.code entry.1 defaultAction) ++
      [returnAction defaultAction])) (word : UInt32) :
    program.Returns call ⟨pc, word⟩
      (match entries.lookup (word.toNat : Int) with
        | none => defaultAction
        | some chain => (chain.verdict? call.args).getD defaultAction).code := by
  obtain ⟨hentries, hdefault⟩ := hat.append
  rw [← List.append_nil entries]
  exact returns_entries_append h hvalid hentries (h.returns_returnAction call word hdefault)

theorem codeFits_entries {entries : List (Int × Chain)} {defaultAction : Action}
    (hvalid : ∀ entry ∈ entries, entry.2.WellIndexed) :
    CodeFits (entries.flatMap fun entry => entry.2.code entry.1 defaultAction) 1 := by
  induction entries with
  | nil => trivial
  | cons entry rest ih =>
    rw [List.flatMap_cons]
    refine codeFits_append.2 ⟨?_, ih fun e he => hvalid e (List.mem_cons_of_mem _ he)⟩
    exact (Chain.codeFits_code (hvalid entry (List.mem_cons_self ..))).mono (Nat.le_add_left ..)

/-- The code behind the check of the architecture. -/
def body (ruleSet : RuleSet) : List RawInstruction :=
  (if ruleSet.rules.entries.isEmpty then [] else [loadWord .nr]) ++
    (ruleSet.rules.entries.flatMap (fun entry => entry.2.code entry.1 ruleSet.defaultAction) ++
      [returnAction ruleSet.defaultAction])

theorem code_eq (ruleSet : RuleSet) :
    ruleSet.code = architectureCode ruleSet.architecture ++ ruleSet.body := by
  simp only [code, body, List.append_assoc]

theorem codeFits_code (ruleSet : RuleSet) : CodeFits ruleSet.code 0 := by
  have hentries : CodeFits (ruleSet.rules.entries.flatMap
      fun entry => entry.2.code entry.1 ruleSet.defaultAction) 1 :=
    codeFits_entries fun entry hentry => (of_mem_entries hentry).2
  have hload : ∀ after, CodeFits (if ruleSet.rules.entries.isEmpty then [] else [loadWord .nr]) after := by
    intro after
    split
    · trivial
    · exact ⟨fits_loadWord (by decide), trivial⟩
  have hbody : 0 < ruleSet.body.length := by
    simp only [body, List.length_append, List.length_cons, List.length_nil]
    omega
  rw [code_eq]
  refine codeFits_append.2 ⟨⟨fits_loadWord (by decide), fits_compareWord ?_ ?_,
    fits_returnAction _, trivial⟩, codeFits_append.2 ⟨hload _,
    codeFits_append.2 ⟨hentries, fits_returnAction _, trivial⟩⟩⟩
  all_goals
    simp only [List.length_cons, List.length_nil]
    omega

/-- Behind the check of the architecture the number is answered. -/
theorem returns_body (h : Loaded raw program) {pc : Nat} (hat : CodeAt raw pc ruleSet.body)
    (acc : UInt32) :
    program.Returns call ⟨pc, acc⟩ (ruleSet.answer (call.word .nr).toNat call.args).code := by
  unfold body at hat
  unfold answer Table.get?
  cases hentries : ruleSet.rules.entries with
  | nil =>
    rw [hentries] at hat
    exact h.returns_returnAction call acc hat
  | cons entry rest =>
    rw [← hentries]
    rw [if_neg (by simp [hentries])] at hat
    have hgoes := h.goes_loadWord call acc (by decide) hat
    exact hgoes.returns (returns_entries h (fun e he => of_mem_entries he) hat.cons.2 _)

section Architectures

variable {architecture : Architecture}

/-- Calls of the own architecture pass the check. -/
theorem reaches_body (h : Loaded raw program) (hat : CodeAt raw 0 (architectureCode architecture))
    (harch : call.arch = architecture.audit) :
    program.Reaches call .start ⟨(architectureCode architecture).length, call.arch⟩ := by
  have hload := h.goes_loadWord call 0 (by decide) hat
  have hcompare := h.goes_compareWord call (call.word .arch) (by omega) (by omega) hat.cons.2
  simp only [Test.holds, Call.word, harch, decide_true, if_true] at hload hcompare
  rw [harch]
  exact hload.reaches.trans hcompare.reaches

theorem returns_foreign (h : Loaded raw program)
    (hat : CodeAt raw 0 (architectureCode architecture)) (harch : call.arch ≠ architecture.audit) :
    program.Returns call .start Action.killProcess.code := by
  have hload := h.goes_loadWord call 0 (by decide) hat
  have hcompare := h.goes_compareWord call (call.word .arch) (by omega) (by omega) hat.cons.2
  simp only [Test.holds, Call.word, harch, decide_false, Bool.false_eq_true, if_false] at hcompare
  exact hload.returns (hcompare.returns (h.returns_returnAction call _ hat.cons.2.cons.2))

end Architectures

theorem returns_code (h : Loaded ruleSet.code program) :
    program.Returns call .start (ruleSet.decision call).code := by
  have hat : CodeAt ruleSet.code 0 (architectureCode ruleSet.architecture ++ ruleSet.body) := by
    rw [← code_eq]
    exact List.prefix_rfl
  obtain ⟨hcheck, hbody⟩ := hat.append
  rw [Nat.zero_add] at hbody
  unfold decision
  by_cases harch : call.arch = ruleSet.architecture.audit
  · rw [if_pos harch]
    exact (reaches_body h hcheck harch).returns (returns_body h hbody _)
  · rw [if_neg harch]
    exact returns_foreign h hcheck harch

theorem assemble_eq_ok_iff :
    ruleSet.assemble = .ok raw ↔ ruleSet.code.length ≤ maxLength ∧ ruleSet.code = raw := by
  simp only [assemble]
  split
  · next h => simp [h]
  · next h => simp [h]

theorem getLast?_code (ruleSet : RuleSet) :
    ruleSet.code.getLast? = some (.plain .ret ruleSet.defaultAction.code) := by
  simp [code, returnAction]

/-- An assembled program can be loaded, and decides every call as the rule set does. -/
theorem assemble_spec (h : ruleSet.assemble = .ok raw) :
    ∃ program, Program.load raw = .ok program ∧ program.length = raw.length ∧
      ∀ call limit, raw.length ≤ limit →
        program.verdict call limit = .ok (ruleSet.decision call) := by
  obtain ⟨hlength, rfl⟩ := assemble_eq_ok_iff.1 h
  obtain ⟨program, hload⟩ :=
    load_of_codeFits ruleSet.codeFits_code hlength ruleSet.getLast?_code
  have hloaded := load_eq_ok_iff.1 hload
  exact ⟨program, hload, hloaded.length,
    fun call limit hlimit => hloaded.verdict_eq_of_returns hlimit (returns_code hloaded)⟩

/-- **Assembly keeps the meaning of rules.** On every call the program of a rule set
returns: calls of another architecture are killed, the number of a chain is treated as
the rules say, and any other number by default. -/
theorem verdict_assembled (h : ruleSet.assemble = .ok raw) (call : Call) :
    (call.arch ≠ ruleSet.architecture.audit → raw.verdict call = .ok .killProcess) ∧
    (call.arch = ruleSet.architecture.audit →
      (((call.word .nr).toNat : Int) ∈ ruleSet.syscalls →
        ∃ action, ruleSet.evaluate (call.word .nr).toNat call.args = .ok action ∧
          raw.verdict call = .ok action) ∧
      (((call.word .nr).toNat : Int) ∉ ruleSet.syscalls →
        raw.verdict call = .ok ruleSet.defaultAction)) := by
  obtain ⟨program, hload, hlength, hverdict⟩ := assemble_spec h
  have hdecision : raw.verdict call = .ok (ruleSet.decision call) := by
    rw [RawProgram.verdict, hload]
    exact hverdict call maxLength (load_eq_ok_iff.1 hload).bounded
  rw [hdecision]
  refine ⟨fun harch => ?_, fun harch => ⟨fun hlisted => ?_, fun hunlisted => ?_⟩⟩
  · rw [decision, if_neg harch]
  · exact ⟨_, evaluate_eq_answer hlisted call.args, by rw [decision, if_pos harch]⟩
  · rw [decision, if_pos harch, answer_of_not_mem hunlisted]

/-- Writes to two files and of limited length; the largest number is logged. -/
def limitedWrites : RuleSet where
  rules := .ofList [
    (1, [⟨[⟨0, .dword, .maskedEq 0xfe, 2⟩, ⟨2, .qword, .le, 0x100000000⟩], .allow⟩,
      ⟨[⟨1, .qword, .gt, 0xfffffffe⟩], .errno 22⟩]),
    (0xffffffff, [⟨[], .log⟩])]
  defaultAction := .trap
  architecture := .x86_64
  names := .empty
  valid := by decide

theorem verdict_limitedWrites :
    limitedWrites.assemble = .ok limitedWrites.code ∧
      RawProgram.verdict limitedWrites.code
        (.ofWord 1 Architecture.x86_64.audit #v[3, 0, 0xffffffff, 0, 0, 0]) = .ok .allow := by
  have hassemble : limitedWrites.assemble = .ok limitedWrites.code := by decide
  obtain ⟨action, hevaluate, hverdict⟩ :=
    ((verdict_assembled hassemble
      (.ofWord 1 Architecture.x86_64.audit #v[3, 0, 0xffffffff, 0, 0, 0])).2 rfl).1 (by decide)
  have hallow : limitedWrites.evaluate 1 #v[3, 0, 0xffffffff, 0, 0, 0] = .ok .allow := by decide
  cases hevaluate.symm.trans hallow
  exact ⟨hassemble, hverdict⟩

end RuleSet

end SyscallFilter
