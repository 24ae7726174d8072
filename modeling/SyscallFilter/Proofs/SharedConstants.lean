import SyscallFilter.Bpf.Edit
import SyscallFilter.Proofs.OpenPaths

/-! Programs that compare with the constants of the rules.

A program that compares the halves of the arguments with the halves of the rules' constants tells
apart whatever the rules tell apart. Each of its classes has a sample, and neither side tells
a value from the sample of its class: nothing is missed (`decided_of_sharesConstants`).

Assembled programs are of this kind. What is done to their jumps and to the values they return
does not change the constants, so a verification notices it as long as all comparisons are
still met (`exists_failure_of_rewired`). -/
namespace SyscallFilter

open Bpf Sampling

/-! ### Assembled programs only compare -/

namespace Bpf

/-- Neither arithmetic nor a test of single bits. -/
def RawInstruction.comparing (raw : RawInstruction) : Bool :=
  match Opcode.ofCode? raw.code with
  | some (.alu _) | some (.branch .set) => false
  | _ => true

theorem RawInstruction.Decodes.comparing_eq {raw : RawInstruction} {pc length : Nat}
    {i : Instruction} (h : raw.Decodes pc length i) : i.comparing = raw.comparing := by
  rw [RawInstruction.comparing, h.code_eq, Opcode.ofCode?_code]
  cases i with
  | branch test k jt jf => cases test <;> rfl
  | _ => rfl

theorem Loaded.comparing {raw : RawProgram} {program : Program} (h : Loaded raw program)
    (hraw : raw.all RawInstruction.comparing) : program.comparing := by
  apply List.all_eq_true.2
  intro i hi
  obtain ⟨pc, hpc⟩ := List.mem_iff_getElem?.1 hi
  rw [Array.getElem?_toList] at hpc
  obtain ⟨r, hr, hdecodes⟩ := h.exists_decoded hpc
  rw [hdecodes.comparing_eq]
  exact List.all_eq_true.1 hraw r (List.mem_of_getElem? hr)

@[simp] theorem comparing_loadWord (field : Field) : (loadWord field).comparing := by
  simp [RawInstruction.comparing, loadWord, RawInstruction.plain, Opcode.ofCode?_code]

@[simp] theorem comparing_jumpBy (distance : Nat) : (jumpBy distance).comparing := by
  simp [RawInstruction.comparing, jumpBy, RawInstruction.plain, Opcode.ofCode?_code]

@[simp] theorem comparing_returnAction (action : Action) : (returnAction action).comparing := by
  simp [RawInstruction.comparing, returnAction, RawInstruction.plain, Opcode.ofCode?_code]

@[simp] theorem comparing_compareWord (test : Test) (k : UInt32) (jt jf : Nat) :
    (compareWord test k jt jf).comparing = decide (test ≠ .set) := by
  rw [RawInstruction.comparing, compareWord, RawInstruction.branch, Opcode.ofCode?_code]
  cases test <;> rfl

end Bpf

theorem Condition.comparing_code {condition : Condition} (h : condition.ordered) (distance : Nat) :
    (condition.code distance).all RawInstruction.comparing := by
  have hlow : (condition.lowCode distance).all RawInstruction.comparing := by
    unfold lowCode
    cases hc : condition.comparison <;> simp
    case maskedEq mask => simp [ordered, hc] at h
  have hhigh : (condition.highCode distance).all RawInstruction.comparing := by
    unfold highCode
    cases hc : condition.comparison <;> simp
    case maskedEq mask => simp [ordered, hc] at h
  unfold code
  cases condition.width with
  | dword => exact hlow
  | qword => rw [List.all_append, hlow, hhigh, Bool.and_self]

theorem RuleTail.comparing_relayed (tail : RuleTail) :
    tail.relayed.code.all RawInstruction.comparing = tail.code.all RawInstruction.comparing := by
  unfold relayed
  split <;> simp

theorem Rule.comparing_code {rule : Rule} (h : ∀ c ∈ rule.conditions, c.ordered) :
    rule.code.all RawInstruction.comparing := by
  have htail : rule.tail.code.all RawInstruction.comparing := by
    obtain ⟨conditions, action⟩ := rule
    induction conditions with
    | nil => simp [tail]
    | cons condition rest ih =>
      obtain ⟨hc, hrest⟩ := List.forall_mem_cons.1 h
      show (_ ++ _ : List RawInstruction).all _
      rw [List.all_append, Condition.comparing_code hc, RuleTail.comparing_relayed, Bool.true_and]
      exact ih hrest
  simp [code, htail]

namespace RuleSet

variable {ruleSet : RuleSet} {number : Int}

theorem ordered_of_mem_entries (h : ruleSet.ordered) {entry : Int × Chain}
    (hentry : entry ∈ ruleSet.rules.entries) : ∀ rule ∈ entry.2, ∀ c ∈ rule.conditions, c.ordered := by
  intro rule hrule c hc
  obtain ⟨before, after, hentries⟩ := List.append_of_mem hentry
  let position : ruleSet.Position entry.1 := ⟨before, entry.2, after, hentries⟩
  exact ordered_iff.1 h entry.1 c (position.mem_conditions.2 ⟨rule, hrule, hc⟩)

theorem comparing_code (h : ruleSet.ordered) : ruleSet.code.all RawInstruction.comparing := by
  have hrules : ∀ entry ∈ ruleSet.rules.entries,
      (entry.2.code entry.1 ruleSet.defaultAction).all RawInstruction.comparing := by
    intro entry hentry
    have hentryRules : (entry.2.flatMap Rule.code).all RawInstruction.comparing := by
      rw [List.all_flatMap, List.all_eq_true]
      exact fun rule hrule => Rule.comparing_code (ordered_of_mem_entries h hentry rule hrule)
    simp [Chain.code, hentryRules]
  have hload : (if ruleSet.rules.entries.isEmpty then [] else [loadWord .nr]).all
      RawInstruction.comparing := by
    split <;> simp
  simp only [code, List.all_append, hload, List.all_flatMap, List.all_eq_true.2 hrules]
  simp [architectureCode]

/-! ### Shared constants -/

/-- The program compares the low word of an argument with that of every value the rules compare
the argument with, and the high word too where the rules compare the whole argument. -/
def SharesConstants (ruleSet : RuleSet) (program : Program) (number : Int) : Prop :=
  ∀ condition ∈ ruleSet.conditions number,
    lowWord condition.value ∈ (ruleSet.scanned program number).of (.argLow condition.index) ∧
      (condition.width = .qword →
        highWord condition.value ∈ (ruleSet.scanned program number).of (.argHigh condition.index))

variable {raw raw' : RawProgram} {program program' : Program} {settings : Settings}
  {report : Verification.Report}

/-- The sample of a class of the program decides all values of the class. -/
theorem decided_of_sharesConstants (hordered : ruleSet.ordered)
    (hshares : ruleSet.SharesConstants program number) (index : Nat) (x : UInt64) :
    ruleSet.Decided program number index x := by
  obtain ⟨s, hs, hlow, hhigh⟩ :=
    exists_mem_candidates_halvesAlike (ruleSet.constants number index)
      ((ruleSet.scanned program number).get? (.argLow index))
      ((ruleSet.scanned program number).get? (.argHigh index)) x
  refine .of_sample hs ?_ ⟨hlow.symm, hhigh.symm⟩
  intro condition hcondition
  obtain ⟨hmem, rfl⟩ := mem_conditionsOn.1 hcondition
  obtain ⟨hlowShared, hhighShared⟩ := hshares condition hmem
  apply Condition.alike_of_words (ordered_iff.1 hordered number condition hmem)
  · refine hlow.mono fun k hk => ?_
    rw [List.mem_singleton.1 hk]
    exact hlowShared
  · intro hqword
    refine hhigh.mono fun k hk => ?_
    rw [List.mem_singleton.1 hk]
    exact hhighShared hqword

theorem agrees_of_shared (hload : Program.load raw = .ok program)
    (hcomparing : program.comparing) (hordered : ruleSet.ordered)
    (hnumber : number ∈ ruleSet.syscalls) (hshares : ruleSet.SharesConstants program number)
    (hverify : verify raw ruleSet.policy settings = .ok report)
    (hsize : (sampledCases program ruleSet.policy settings (ruleSet.constants number)
      (UInt32.ofInt number)).size ≤ settings.caseLimit) (args : Args) :
    ruleSet.Agrees program settings number args :=
  agrees_of_decided hload hcomparing hordered hverify hnumber hsize
    fun i => decided_of_sharesConstants hordered hshares i (args.get i)

/-- An assembled program makes all the comparisons of its rules. -/
theorem sharesConstants_code (hordered : ruleSet.ordered) (hnumber : number ∈ ruleSet.syscalls)
    (hloaded : Loaded ruleSet.code program) : ruleSet.SharesConstants program number := by
  obtain ⟨chain, hchain⟩ := mem_syscalls_iff.1 hnumber
  obtain ⟨position, -⟩ := exists_position hchain
  obtain ⟨acc, hexplored⟩ := position.exists_explored hloaded
    (hloaded.comparing (comparing_code hordered)) position.codeAt_front
  intro condition hcondition
  obtain ⟨hlow, hhigh⟩ :=
    position.comparedFrom hordered position.codeAt_rules acc condition hcondition
  exact ⟨hlow.mem_constants hloaded hexplored,
    fun hqword => (hhigh hqword).mem_constants hloaded hexplored⟩

end RuleSet

/-! ### Other jumps and other values -/

namespace Bpf

/-- The instructions differ in the distances of jumps and in returned values only. -/
def RawInstruction.Rewired (raw raw' : RawInstruction) : Prop :=
  raw'.code = raw.code ∧
    (raw'.k = raw.k ∨ raw.code = Opcode.jump.code ∨ raw.code = Opcode.ret.code)

instance (raw raw' : RawInstruction) : Decidable (raw.Rewired raw') :=
  inferInstanceAs (Decidable (_ ∧ _))

/-- The programs differ in the distances of jumps and in returned values only. -/
def RawProgram.Rewired (raw raw' : RawProgram) : Prop :=
  List.Forall₂ RawInstruction.Rewired raw raw'

instance (raw raw' : RawProgram) : Decidable (raw.Rewired raw') :=
  inferInstanceAs (Decidable (List.Forall₂ _ raw raw'))

variable {raw raw' : RawProgram} {program program' : Program}

theorem RawProgram.Rewired.comparing (h : raw.Rewired raw') :
    raw'.all RawInstruction.comparing = raw.all RawInstruction.comparing := by
  induction h with
  | nil => rfl
  | cons hhead _ ih =>
    rw [List.all_cons, List.all_cons, ih, RawInstruction.comparing, RawInstruction.comparing,
      hhead.1]

theorem RawProgram.Rewired.exists_getElem? (h : raw.Rewired raw') {pc : Nat} {r : RawInstruction}
    (hr : raw[pc]? = some r) : ∃ r', raw'[pc]? = some r' ∧ r.Rewired r' :=
  exists_getElem?_of_forall₂ h hr

/-- Comparisons stay what they are; only where they lead to may change. -/
theorem exists_branch_of_rewired (h : Loaded raw program) (h' : Loaded raw' program')
    (hrewired : raw.Rewired raw') {pc : Nat} {test : Test} {k : UInt32} {jt jf : Nat}
    (hi : program.code[pc]? = some (.branch test k jt jf)) :
    ∃ jt' jf', program'.code[pc]? = some (.branch test k jt' jf') := by
  obtain ⟨r, hr, hdecodes⟩ := h.exists_decoded hi
  obtain ⟨r', hr', hcode, hk⟩ := hrewired.exists_getElem? hr
  obtain ⟨i', hi', hdecodes'⟩ := h'.exists_instruction hr'
  have hop : i'.opcode = .branch test := by
    rw [← Opcode.code_inj, ← hdecodes'.code_eq, hcode, hdecodes.code_eq]
    rfl
  have hkept : r'.k = r.k := by
    refine hk.resolve_right ?_
    rw [hdecodes.code_eq]
    rintro (hjump | hret)
    · cases test <;> cases hjump
    · cases test <;> cases hret
  cases i' with
  | branch test' k' jt' jf' =>
    cases hop
    have hkk : k = k' := by
      rw [hdecodes.constant, hdecodes'.constant, hkept]
    exact ⟨jt', jf', by rw [hi', hkk]⟩
  | _ => cases hop

end Bpf

namespace Sampling

/-- Wherever the one program looks at a word, the other one comes with the same word. -/
def KeepsComparisons (program program' : Program) (given : Given) : Prop :=
  ∀ p ∈ explored program given,
    (program.code[p.pc]?.bind p.recorded?).isSome → p ∈ explored program' given

instance (program program' : Program) (given : Given) :
    Decidable (KeepsComparisons program program' given) :=
  inferInstanceAs (Decidable (∀ p ∈ _, _ → _))

theorem KeepsComparisons.mem_constants {raw raw' : RawProgram} {program program' : Program}
    {given : Given} (hkept : KeepsComparisons program program' given) (h : Loaded raw program)
    (h' : Loaded raw' program') (hrewired : raw.Rewired raw') (hcomparing : program.comparing)
    {field : Field} {k : UInt32} (hk : k ∈ (Constants.ofProgram program given).of field) :
    k ∈ (Constants.ofProgram program' given).of field := by
  obtain ⟨p, hp, hrecorded⟩ := List.mem_filterMap.1 (Constants.mem_of.1 hk)
  have hp' := hkept p hp (by rw [hrecorded]; rfl)
  obtain ⟨i, hi, hlooks⟩ := Option.bind_eq_some_iff.1 hrecorded
  obtain ⟨pc, acc⟩ := p
  cases i with
  | branch test c jt jf =>
    obtain ⟨jt', jf', hi'⟩ := exists_branch_of_rewired h h' hrewired hi
    refine mem_constants_of_mem_explored hp' hi' ?_
    rw [← hlooks]
    cases acc <;> rfl
  | alu op c => cases Program.comparing_of_getElem? hcomparing hi
  | _ => cases acc <;> cases hlooks

end Sampling

namespace RuleSet

variable {ruleSet : RuleSet} {number : Int} {raw raw' : RawProgram} {program program' : Program}
  {settings : Settings} {args : Args}

theorem SharesConstants.rewired (hshares : ruleSet.SharesConstants program number)
    (h : Loaded raw program) (h' : Loaded raw' program') (hcomparing : program.comparing)
    (hrewired : raw.Rewired raw')
    (hkept : KeepsComparisons program program'
      ⟨ruleSet.architecture.audit, some (UInt32.ofInt number)⟩) :
    ruleSet.SharesConstants program' number := by
  intro condition hcondition
  obtain ⟨hlow, hhigh⟩ := hshares condition hcondition
  exact ⟨hkept.mem_constants h h' hrewired hcomparing hlow,
    fun hqword => hkept.mem_constants h h' hrewired hcomparing (hhigh hqword)⟩

/-- Other jumps and other values that change what becomes of a call do not pass. -/
theorem exists_failure_of_rewired (hordered : ruleSet.ordered) (hnumber : number ∈ ruleSet.syscalls)
    (hassemble : ruleSet.assemble = .ok raw) (hload : Program.load raw = .ok program)
    (hrewired : raw.Rewired raw') (hload' : Program.load raw' = .ok program')
    (hkept : KeepsComparisons program program'
      ⟨ruleSet.architecture.audit, some (UInt32.ofInt number)⟩)
    (hsize : (sampledCases program' ruleSet.policy settings (ruleSet.constants number)
      (UInt32.ofInt number)).size ≤ settings.caseLimit)
    (hchanged : raw'.verdict (.ofWord (UInt32.ofInt number) ruleSet.architecture.audit args) ≠
      raw.verdict (.ofWord (UInt32.ofInt number) ruleSet.architecture.audit args)) :
    ∃ failure, verify raw' ruleSet.policy settings = .error failure := by
  obtain ⟨-, rfl⟩ := assemble_eq_ok_iff.1 hassemble
  have hloaded := load_eq_ok_iff.1 hload
  have hloaded' := load_eq_ok_iff.1 hload'
  have hraw := comparing_code hordered
  have hraw' : raw'.all RawInstruction.comparing := by
    rw [hrewired.comparing]
    exact hraw
  have hshares : ruleSet.SharesConstants program' number :=
    (sharesConstants_code hordered hnumber hloaded).rewired hloaded hloaded'
      (hloaded.comparing hraw) hrewired hkept
  cases hverify : verify raw' ruleSet.policy settings with
  | error failure => exact ⟨failure, rfl⟩
  | ok report =>
    obtain ⟨action, hevaluate, hverdict⟩ := agrees_of_shared hload' (hloaded'.comparing hraw')
      hordered hnumber hshares hverify hsize args
    obtain ⟨program₀, hload₀, -, hdecision⟩ := assemble_spec hassemble
    refine absurd ?_ hchanged
    rw [RawProgram.verdict, RawProgram.verdict, hload₀, hload']
    show program'.verdict _ maxLength = program₀.verdict _ maxLength
    rw [hdecision _ _ hloaded.bounded, hloaded'.verdict_eq_ok_of_limit hloaded'.bounded hverdict]
    exact congrArg Except.ok (Except.ok.inj (hevaluate.symm.trans (decision_listed hnumber args)))

/-- **Nothing is missed where the program compares with the constants of the rules.** If a
verification passed and tried all samples of a listed number, the program treats every call of
the number as the rules say, however conditions on low halves and on whole arguments are mixed.
So a change to the jumps or to the returned values of an assembled program that changes what
becomes of a call of the number fails, as long as all comparisons are still met. -/
theorem agrees_of_sharesConstants (hordered : ruleSet.ordered)
    (hnumber : number ∈ ruleSet.syscalls) :
    (∀ raw program settings report, Program.load raw = .ok program → program.comparing →
      ruleSet.SharesConstants program number →
      verify raw ruleSet.policy settings = .ok report →
      (sampledCases program ruleSet.policy settings (ruleSet.constants number)
        (UInt32.ofInt number)).size ≤ settings.caseLimit →
      ∀ args, ruleSet.Agrees program settings number args) ∧
    (∀ raw raw' program program' settings, ruleSet.assemble = .ok raw →
      Program.load raw = .ok program → RawProgram.Rewired raw raw' →
      Program.load raw' = .ok program' →
      KeepsComparisons program program'
        ⟨ruleSet.architecture.audit, some (UInt32.ofInt number)⟩ →
      (sampledCases program' ruleSet.policy settings (ruleSet.constants number)
        (UInt32.ofInt number)).size ≤ settings.caseLimit →
      (∃ args, RawProgram.verdict raw'
          (.ofWord (UInt32.ofInt number) ruleSet.architecture.audit args) ≠
        RawProgram.verdict raw (.ofWord (UInt32.ofInt number) ruleSet.architecture.audit args)) →
      ∃ failure, verify raw' ruleSet.policy settings = .error failure) := by
  constructor
  · intro raw program settings report hload hcomparing hshares hverify hsize args
    exact agrees_of_shared hload hcomparing hordered hnumber hshares hverify hsize args
  · rintro raw raw' program program' settings hassemble hload hrewired hload' hkept hsize
      ⟨args, hchanged⟩
    exact exists_failure_of_rewired hordered hnumber hassemble hload hrewired hload' hkept hsize
      hchanged

/-- The file 5 may be read, whatever stands in the high half; large values are logged. -/
def mixedWidths : RuleSet where
  rules := .ofList [
    (1, [⟨[⟨0, .dword, .eq, 5⟩], .allow⟩, ⟨[⟨0, .qword, .ge, 0x100000000⟩], .log⟩])]
  defaultAction := .trap
  architecture := .x86_64
  names := .empty
  valid := by decide

def mixedProgram : Program where
  code := #[.load .arch, .branch .eq Architecture.x86_64.audit 3 2, .ret Action.killProcess.code,
    .load .nr, .branch .eq 1 5 6,
    .jump 7, .jump 11, .load (.argLow 0), .branch .eq 5 9 10, .ret Action.allow.code,
    .jump 12, .jump 19, .load (.argHigh 0), .branch .gt 1 17 14, .branch .eq 1 15 18,
    .load (.argLow 0), .branch .ge 0 17 18, .ret Action.log.code,
    .ret Action.trap.code, .ret Action.trap.code]

/-- The first condition turned round. -/
def turnedProgram : Program where
  code := mixedProgram.code.set! 8 (.branch .eq 5 10 9)

theorem agrees_mixedWidths :
    mixedWidths.SharesConstants mixedProgram 1 ∧
      (∀ args, mixedWidths.Agrees mixedProgram {} 1 args) ∧
      ∃ failure, verify ((Edit.swap 8).apply mixedWidths.code) mixedWidths.policy {} =
        .error failure := by
  have hassemble : mixedWidths.assemble = .ok mixedWidths.code := by decide
  have hload : Program.load mixedWidths.code = .ok mixedProgram := by decide
  have hload' : Program.load ((Edit.swap 8).apply mixedWidths.code) = .ok turnedProgram := by decide
  have hordered : mixedWidths.ordered := by decide
  have hnumber : 1 ∈ mixedWidths.syscalls := by decide
  have hshares : mixedWidths.SharesConstants mixedProgram 1 :=
    sharesConstants_code hordered hnumber (load_eq_ok_iff.1 hload)
  obtain ⟨hagrees, hcaught⟩ := agrees_of_sharesConstants hordered hnumber
  refine ⟨hshares, ?_, ?_⟩
  · obtain ⟨program, hprogram, -, hverdict⟩ := assemble_spec hassemble
    have hverify : verify mixedWidths.code mixedWidths.policy {} = .ok _ :=
      verify_eq_ok_iff.2 ⟨by decide, program, hprogram,
        fun check hcheck => checks_pass (fun call => hverdict call _ (by decide)) hcheck, rfl⟩
    exact hagrees _ _ _ _ hload (by decide) hshares hverify (by decide +kernel)
  · exact hcaught _ _ _ _ _ hassemble hload (by decide) hload' (by decide +kernel)
      (by decide +kernel) ⟨#v[5, 0, 0, 0, 0, 0], by decide +kernel⟩

end RuleSet

end SyscallFilter
