import SyscallFilter.PolicyFile
import SyscallFilter.Proofs.CodeLength
import SyscallFilter.Proofs.RuleValidation

/-! What a policy file means.

A file lists entries, and a call is treated by the filter action if any entry of its number applies
(`PolicyFile.answer`). Its rule set is put together from chains, of which the first rule that
applies decides. Since all rules of a file have the same action, it does not matter which one that
is: `evaluate_eq_answer` reads the file off its rule set.

Entries in another order give chains in another order. Nothing that is checked about a chain depends
on its order, nor how long its code is, so the rule sets are refused alike or say the same
(`RuleSet.SameMeaning`), and so do their programs. -/
namespace SyscallFilter

open Bpf

namespace PolicyFile

/-! ### The meaning of entries -/

/-- All conditions of the entry hold. -/
def Entry.Applies (entry : Entry) (args : Args) : Prop :=
  ∀ condition ∈ entry.conditions.getD [], condition.holds args

instance (entry : Entry) (args : Args) : Decidable (entry.Applies args) :=
  inferInstanceAs (Decidable (∀ condition ∈ entry.conditions.getD [], condition.holds args))

/-- What the file says about a call: any entry of the number that applies is enough. -/
def answer (file : PolicyFile) (number : Int) (args : Args) : Except PolicyError Action :=
  if ∃ entry ∈ file.entries, entry.number = number then
    .ok (if ∃ entry ∈ file.entries, entry.number = number ∧ entry.Applies args then
      file.filterAction else file.defaultAction)
  else .error (.unknownSyscall number)

/-- Of the entries of the number that carry a name, the last one carries this name. -/
def LastNamed (file : PolicyFile) (number : Int) (name : String) : Prop :=
  ∃ before entry after, file.entries = before ++ entry :: after ∧ entry.number = number ∧
    entry.name = some name ∧ ∀ later ∈ after, later.number = number → later.name = none

/-- The rules of the entries of a number, in the order of the file. -/
def rulesOf (file : PolicyFile) (number : Int) : Chain :=
  (file.entries.filter fun entry => entry.number = number).map fun entry =>
    entry.rule file.filterAction

variable {file : PolicyFile} {number : Int} {args : Args} {ruleSet : RuleSet} {error : RuleError}

/-! ### Chains and names -/

theorem rulesOf_eq_nil_iff :
    file.rulesOf number = [] ↔ ¬∃ entry ∈ file.entries, entry.number = number := by
  simp [rulesOf]

theorem get?_foldl_alter (action : Action) (entries : List Entry) (table : Table Chain)
    (number : Int) :
    (entries.foldl (fun table entry =>
      table.alter entry.number fun chain => chain.getD [] ++ [entry.rule action]) table).get? number =
      match (entries.filter fun entry => entry.number = number).map (·.rule action) with
      | [] => table.get? number
      | rule :: rest => some ((table.get? number).getD [] ++ rule :: rest) := by
  induction entries generalizing table with
  | nil => rfl
  | cons entry rest ih =>
    rw [List.foldl_cons, ih, Table.get?_alter]
    by_cases h : entry.number = number
    · rw [List.filter_cons_of_pos (by simp [h]), List.map_cons, if_pos h.symm, h]
      split <;> next hrest => simp [hrest]
    · rw [List.filter_cons_of_neg (by simp [h]), if_neg (Ne.symm h)]

/-- The chain of a number is formed by its entries. -/
theorem get?_chains (file : PolicyFile) (number : Int) :
    file.chains.get? number =
      if file.rulesOf number = [] then none else some (file.rulesOf number) := by
  rw [chains, get?_foldl_alter]
  show (match file.rulesOf number with | [] => none | rule :: rest => some (rule :: rest)) = _
  cases file.rulesOf number <;> rfl

theorem verdict?_rule (entry : Entry) (action : Action) (args : Args) :
    (entry.rule action).verdict? args = if entry.Applies args then some action else none :=
  Rule.verdict?_eq (entry.rule action) args

/-- The chain of a number applies if one of its entries does. -/
theorem verdict?_rulesOf (file : PolicyFile) (number : Int) (args : Args) :
    (file.rulesOf number).verdict? args =
      if ∃ entry ∈ file.entries, entry.number = number ∧ entry.Applies args then
        some file.filterAction else none := by
  -- the first entry that applies is found, but all entries answer with the same action
  rw [rulesOf, Chain.verdict?, List.findSome?_map]
  induction file.entries with
  | nil => rfl
  | cons entry rest ih =>
    by_cases hnumber : entry.number = number
    · rw [List.filter_cons_of_pos (by simp [hnumber]), List.findSome?_cons, ih,
        Function.comp_apply, verdict?_rule]
      by_cases happlies : entry.Applies args <;> simp [hnumber, happlies]
    · rw [List.filter_cons_of_neg (by simp [hnumber]), ih]
      simp [hnumber]

theorem lookup_named (entries : List Entry) (number : Int) :
    (entries.filterMap fun entry => entry.name.map fun name => (entry.number, name)).lookup number =
      entries.findSome? fun entry => if entry.number = number then entry.name else none := by
  induction entries with
  | nil => rfl
  | cons entry rest ih =>
    rw [List.findSome?_cons, ← ih]
    cases hname : entry.name with
    | none => simp [hname]
    | some name =>
      rw [List.filterMap_cons_some (by rw [hname]; rfl), List.lookup_cons]
      by_cases h : entry.number = number
      · simp [h]
      · simp [h, beq_false_of_ne (Ne.symm h)]

/-- The name of a number is the last one that is given to it. -/
theorem get?_names_eq_some_iff {name : String} :
    file.names.get? number = some name ↔ file.LastNamed number name := by
  rw [names, Table.get?_ofList, ← List.filterMap_reverse, lookup_named,
    List.findSome?_eq_some_iff]
  constructor
  · intro h
    obtain ⟨after, entry, before, hentries, hentry, hafter⟩ := h
    refine ⟨before.reverse, entry, after.reverse, ?_, ?_⟩
    · rw [← List.reverse_reverse file.entries, hentries]
      simp
    · have hnumber : entry.number = number := by
        by_contra hne
        simp [hne] at hentry
      refine ⟨hnumber, by simpa [hnumber] using hentry, fun later hlater hlatest => ?_⟩
      simpa [hlatest] using hafter later (List.mem_reverse.1 hlater)
  · intro h
    obtain ⟨before, entry, after, hentries, hnumber, hname, hafter⟩ := h
    refine ⟨after.reverse, entry, before.reverse, by simp [hentries], by simp [hnumber, hname],
      fun later hlater => ?_⟩
    by_cases hlatest : later.number = number
    · rw [if_pos hlatest, hafter later (List.mem_reverse.1 hlater) hlatest]
    · rw [if_neg hlatest]

/-! ### The rule set of a file -/

theorem ruleSet_eq_ok_iff :
    file.ruleSet = .ok ruleSet ↔ file.defaultAction ≠ file.filterAction ∧
      ∃ h : RuleSet.defect? file.chains = none,
        ruleSet = ⟨file.chains, file.defaultAction, file.architecture, file.names, h⟩ := by
  unfold PolicyFile.ruleSet
  split
  · next hsame => simp [hsame]
  · next hdiffer =>
    simp only [bind_eq_ok_iff, RuleSet.make_eq_ok_iff, pure, Except.pure, Except.ok.injEq]
    constructor
    · intro h
      obtain ⟨made, ⟨hvalid, rfl⟩, rfl⟩ := h
      exact ⟨hdiffer, hvalid, rfl⟩
    · intro h
      obtain ⟨-, hvalid, rfl⟩ := h
      exact ⟨_, ⟨hvalid, rfl⟩, rfl⟩

theorem ruleSet_eq_error_iff :
    file.ruleSet = .error error ↔
      file.defaultAction = file.filterAction ∧ error = .identicalActions ∨
        file.defaultAction ≠ file.filterAction ∧ RuleSet.defect? file.chains = some error := by
  unfold PolicyFile.ruleSet
  split
  · next hsame => simp [hsame, eq_comm]
  · next hdiffer =>
    simp only [bind_eq_error_iff, RuleSet.make_eq_error_iff, pure, Except.pure]
    simp [hdiffer]

theorem mem_syscalls_iff_of_ruleSet (h : file.ruleSet = .ok ruleSet) :
    number ∈ ruleSet.syscalls ↔ ∃ entry ∈ file.entries, entry.number = number := by
  obtain ⟨-, hvalid, rfl⟩ := ruleSet_eq_ok_iff.1 h
  rw [RuleSet.mem_syscalls_iff, get?_chains]
  by_cases hnil : file.rulesOf number = []
  · simpa [hnil] using rulesOf_eq_nil_iff.1 hnil
  · have hsome := mt rulesOf_eq_nil_iff.2 hnil
    rw [not_not] at hsome
    simp [hnil, hsome]

/-- The rule set says what the file says. -/
theorem evaluate_eq_answer (h : file.ruleSet = .ok ruleSet) (number : Int) (args : Args) :
    ruleSet.evaluate number args = file.answer number args := by
  obtain ⟨-, hvalid, rfl⟩ := ruleSet_eq_ok_iff.1 h
  rw [RuleSet.evaluate, get?_chains, answer]
  by_cases hnil : file.rulesOf number = []
  · rw [if_pos hnil, if_neg (rulesOf_eq_nil_iff.1 hnil)]
  · rw [if_neg hnil, if_pos (not_not.1 (mt rulesOf_eq_nil_iff.2 hnil))]
    show Except.ok (((file.rulesOf number).verdict? args).getD file.defaultAction) = _
    rw [verdict?_rulesOf]
    split <;> rfl

end PolicyFile

/-! ### Chains in another order -/

namespace Chain

variable {chain other : Chain}

theorem defect?_of_perm (h : chain.Perm other) (number : Int) :
    defect? number chain = defect? number other := by
  have hnil : chain = [] ↔ other = [] := by
    rw [← List.length_eq_zero_iff, ← List.length_eq_zero_iff, h.length_eq]
  simp only [defect?_eq, hnil, h.length_eq, h.mem_iff]

theorem instructionCount_of_perm (h : chain.Perm other) :
    chain.instructionCount = other.instructionCount := by
  rw [instructionCount, instructionCount, (h.map _).sum_nat]

end Chain

namespace RuleSet

section

variable {rules others : Table Chain}
  (h : ∀ number, Option.Rel List.Perm (rules.get? number) (others.get? number))

include h

theorem keys_of_perm : rules.keys = others.keys :=
  Table.map_entries_congr h fun _ _ _ _ => rfl

theorem defect?_of_perm : defect? rules = defect? others := by
  have hdefects : (rules.entries.map fun entry => Chain.defect? entry.1 entry.2) =
      others.entries.map fun entry => Chain.defect? entry.1 entry.2 :=
    Table.map_entries_congr h fun number _ _ hperm => Chain.defect?_of_perm hperm number
  have hfind := congrArg (List.findSome? id) hdefects
  rw [List.findSome?_map, List.findSome?_map] at hfind
  exact hfind

end

theorem instructionCount_of_perm {ruleSet other : RuleSet}
    (h : ∀ number, Option.Rel List.Perm (ruleSet.rules.get? number) (other.rules.get? number)) :
    ruleSet.instructionCount = other.instructionCount := by
  have hcounts : (ruleSet.rules.entries.map fun entry => entry.2.instructionCount) =
      other.rules.entries.map fun entry => entry.2.instructionCount :=
    Table.map_entries_congr h fun _ _ _ hperm => Chain.instructionCount_of_perm hperm
  have hempty := congrArg List.isEmpty hcounts
  rw [List.isEmpty_map, List.isEmpty_map] at hempty
  rw [instructionCount, instructionCount, hempty, hcounts]

/-- The rule sets list the same numbers and say the same about all calls. To what is assembled from
the one there is a program of the other that comes to the same verdicts. -/
structure SameMeaning (ruleSet other : RuleSet) : Prop where
  syscalls : other.syscalls = ruleSet.syscalls
  evaluate : ∀ number args, other.evaluate number args = ruleSet.evaluate number args
  assemble : ∀ raw, ruleSet.assemble = .ok raw → ∃ raw', other.assemble = .ok raw' ∧
    ∀ call, ∃ action, raw.verdict call = .ok action ∧ raw'.verdict call = .ok action

section

variable {ruleSet other : RuleSet}

theorem verdict_of_assemble {raw : RawProgram} (h : ruleSet.assemble = .ok raw) (call : Call) :
    raw.verdict call = .ok (ruleSet.decision call) := by
  obtain ⟨program, hload, -, hverdict⟩ := assemble_spec h
  rw [RawProgram.verdict, hload]
  exact hverdict call maxLength (load_eq_ok_iff.1 hload).bounded

theorem SameMeaning.of_evaluate (hsyscalls : other.syscalls = ruleSet.syscalls)
    (hevaluate : ∀ number args, other.evaluate number args = ruleSet.evaluate number args)
    (hdefault : other.defaultAction = ruleSet.defaultAction)
    (harchitecture : other.architecture = ruleSet.architecture)
    (hcount : other.instructionCount = ruleSet.instructionCount) :
    ruleSet.SameMeaning other := by
  have hanswer : ∀ number args, other.answer number args = ruleSet.answer number args := by
    intro number args
    by_cases hlisted : number ∈ ruleSet.syscalls
    · have hlisted' : number ∈ other.syscalls := hsyscalls ▸ hlisted
      have hsame := hevaluate number args
      rw [evaluate_eq_answer hlisted, evaluate_eq_answer hlisted'] at hsame
      exact Except.ok.inj hsame
    · have hlisted' : number ∉ other.syscalls := hsyscalls ▸ hlisted
      rw [answer_of_not_mem hlisted, answer_of_not_mem hlisted', hdefault]
  refine ⟨hsyscalls, hevaluate, fun raw hraw => ?_⟩
  have hlength := (assemble_eq_ok_iff.1 hraw).1
  -- the other program is as long, so it is not refused either
  rw [length_code, ← hcount, ← length_code] at hlength
  have hraw' : other.assemble = .ok other.code := assemble_eq_ok_iff.2 ⟨hlength, rfl⟩
  refine ⟨other.code, hraw', fun call => ⟨_, verdict_of_assemble hraw call, ?_⟩⟩
  rw [verdict_of_assemble hraw' call, decision, decision, harchitecture, hanswer]

end

end RuleSet

/-! ### Entries in another order -/

namespace PolicyFile

section

variable {file : PolicyFile} {entries : List Entry} (h : entries.Perm file.entries)

include h

theorem answer_of_perm (number : Int) (args : Args) :
    { file with entries }.answer number args = file.answer number args := by
  simp only [answer, h.mem_iff]

theorem get?_chains_of_perm (number : Int) :
    Option.Rel List.Perm ({ file with entries }.chains.get? number) (file.chains.get? number) := by
  have hrules : ({ file with entries }.rulesOf number).Perm (file.rulesOf number) :=
    (h.filter _).map _
  rw [get?_chains, get?_chains]
  by_cases hnil : file.rulesOf number = []
  · rw [if_pos hnil, if_pos (hnil ▸ hrules).eq_nil]
    exact .none
  · rw [if_neg hnil, if_neg fun hnil' => hnil (hnil' ▸ hrules).symm.eq_nil]
    exact .some hrules

theorem ruleSet_of_perm :
    (∃ error, file.ruleSet = .error error ∧ { file with entries }.ruleSet = .error error) ∨
      ∃ ruleSet other, file.ruleSet = .ok ruleSet ∧ { file with entries }.ruleSet = .ok other ∧
        ruleSet.SameMeaning other := by
  have hchains := get?_chains_of_perm h
  have hdefect := RuleSet.defect?_of_perm hchains
  by_cases hactions : file.defaultAction = file.filterAction
  · exact .inl ⟨_, ruleSet_eq_error_iff.2 (.inl ⟨hactions, rfl⟩),
      ruleSet_eq_error_iff.2 (.inl ⟨hactions, rfl⟩)⟩
  · cases hfile : RuleSet.defect? file.chains with
    | some error =>
      rw [hfile] at hdefect
      exact .inl ⟨error, ruleSet_eq_error_iff.2 (.inr ⟨hactions, hfile⟩),
        ruleSet_eq_error_iff.2 (.inr ⟨hactions, hdefect⟩)⟩
    | none =>
      rw [hfile] at hdefect
      have hruleSet : file.ruleSet = .ok _ := ruleSet_eq_ok_iff.2 ⟨hactions, hfile, rfl⟩
      have hother : { file with entries }.ruleSet = .ok _ :=
        ruleSet_eq_ok_iff.2 ⟨hactions, hdefect, rfl⟩
      refine .inr ⟨_, _, hruleSet, hother, .of_evaluate (RuleSet.keys_of_perm hchains)
        (fun number args => ?_) rfl rfl (RuleSet.instructionCount_of_perm hchains)⟩
      rw [evaluate_eq_answer hother, evaluate_eq_answer hruleSet, answer_of_perm h]

end

/-- **A policy file says what any of its entries says, in whatever order they stand.** The rule set
of a file lists the numbers of its entries in ascending order. A number without entries has no
answer; else the call is treated by the filter action if some entry of the number applies, and by
the default action if none does. A number is called what the last of its entries with a name calls
it. With the entries in another order, the file is refused for the same reason, or its rule set says
the same about all numbers and calls; its program, if it can be assembled, does too. -/
theorem ruleSet_any_entry (file : PolicyFile) :
    (∀ ruleSet, file.ruleSet = .ok ruleSet →
      (ruleSet.syscalls.Pairwise (· < ·) ∧
        ∀ number, number ∈ ruleSet.syscalls ↔ ∃ entry ∈ file.entries, entry.number = number) ∧
      (∀ number args, ruleSet.evaluate number args = file.answer number args) ∧
      ∀ number name, ruleSet.name? number = some name ↔ file.LastNamed number name) ∧
    ∀ entries : List Entry, entries.Perm file.entries →
      (∃ error, file.ruleSet = .error error ∧ { file with entries }.ruleSet = .error error) ∨
        ∃ ruleSet other, file.ruleSet = .ok ruleSet ∧ { file with entries }.ruleSet = .ok other ∧
          ruleSet.SameMeaning other := by
  refine ⟨fun ruleSet h => ⟨⟨ruleSet.rules.pairwise_keys, fun number => ?_⟩,
    evaluate_eq_answer h, fun number name => ?_⟩, fun entries => ruleSet_of_perm⟩
  · exact mem_syscalls_iff_of_ruleSet h
  · obtain ⟨-, hvalid, rfl⟩ := ruleSet_eq_ok_iff.1 h
    exact get?_names_eq_some_iff

/-- Reading, writing to the first two streams and some device controls are allowed. Writing is named
twice. -/
def streams : PolicyFile where
  defaultAction := .errno 1
  filterAction := .allow
  architecture := .x86_64
  entries := [
    ⟨1, some "write", some [⟨0, .dword, .eq, 1⟩]⟩,
    ⟨16, none, some [⟨1, .qword, .maskedEq 0xff, 3⟩]⟩,
    ⟨0, some "read", none⟩,
    ⟨1, some "write to stream 2", some [⟨0, .dword, .eq, 2⟩, ⟨2, .qword, .lt, 0x100000000⟩]⟩]

def streamRules : RuleSet where
  rules := streams.chains
  defaultAction := .errno 1
  architecture := .x86_64
  names := streams.names
  valid := by decide

theorem ruleSet_streams :
    streams.ruleSet = .ok streamRules ∧ streamRules.assemble = .ok streamRules.code ∧
      streamRules.evaluate 1 #v[2, 0, 5, 0, 0, 0] = .ok .allow ∧
      streamRules.name? 1 = some "write to stream 2" ∧
      streams.entries.reverse.Perm streams.entries ∧
      ∃ other raw, { streams with entries := streams.entries.reverse }.ruleSet = .ok other ∧
        other.evaluate 1 #v[2, 0, 5, 0, 0, 0] = .ok .allow ∧ other.assemble = .ok raw ∧
        ∀ call, ∃ action, RawProgram.verdict streamRules.code call = .ok action ∧
          raw.verdict call = .ok action := by
  have hruleSet : streams.ruleSet = .ok streamRules := rfl
  have hassemble : streamRules.assemble = .ok streamRules.code := by decide
  have hperm : streams.entries.reverse.Perm streams.entries := List.reverse_perm _
  obtain ⟨-, hevaluate, hname⟩ := (ruleSet_any_entry streams).1 _ hruleSet
  have hallow : streamRules.evaluate 1 #v[2, 0, 5, 0, 0, 0] = .ok .allow := by
    rw [hevaluate]
    decide
  have hlast : streams.LastNamed 1 "write to stream 2" :=
    ⟨streams.entries.take 3, streams.entries[3], [], rfl, rfl, rfl, by simp⟩
  refine ⟨hruleSet, hassemble, hallow, (hname _ _).2 hlast, hperm, ?_⟩
  obtain ⟨error, herror, -⟩ | ⟨ruleSet, other, h, hother, hsame⟩ :=
    (ruleSet_any_entry streams).2 _ hperm
  · cases hruleSet.symm.trans herror
  · cases hruleSet.symm.trans h
    obtain ⟨raw, hraw, hverdicts⟩ := hsame.assemble _ hassemble
    exact ⟨other, raw, hother, (hsame.evaluate _ _).trans hallow, hraw, hverdicts⟩

end PolicyFile

end SyscallFilter
