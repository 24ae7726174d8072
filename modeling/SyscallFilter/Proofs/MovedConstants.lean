import SyscallFilter.Proofs.SharedConstants

/-! Comparisons that are off by one.

The constant of one comparison in the rules of a number is moved to one of its neighbours. Jumps
and all other comparisons stay what they are, so calls of other numbers are treated as before
(`RuleBranch.returns_of_other`), and the exploration still comes to every comparison
(`Compares.setK`). The old constant may no longer be among those compared with, but then the new
one is next to it, and the samples around the new one show where the old one was
(`exists_mem_halfCandidates_moved`). -/
namespace SyscallFilter

open Bpf Sampling

/-! ### Samples around a moved constant -/

namespace Sampling

/-- Moved up by one, the constant leaves the least value of each class among the samples, and
moved down the greatest. -/
theorem exists_mem_halfCandidates_moved {constants : List UInt32} {old new : UInt32}
    (hnew : new ∈ constants) (hmoved : new = old + 1 ∨ new = old - 1) (w : UInt32) :
    ∃ s ∈ halfCandidates constants, Alike (old :: constants) w s := by
  have hself : new ∈ halfCandidates constants := mem_halfCandidates.2 (.inl ⟨new, hnew, .inl rfl⟩)
  have hold : old ∈ halfCandidates constants := by
    refine mem_halfCandidates.2 (.inl ⟨new, hnew, .inr ?_⟩)
    rcases hmoved with rfl | rfl
    · exact .inl (UInt32.add_sub_cancel ..).symm
    · exact .inr (UInt32.sub_add_cancel ..).symm
  rcases hmoved with rfl | rfl
  · obtain ⟨s, -, halike, h0 | ⟨c, hc, hs⟩⟩ := exists_least_alike (old :: constants) w
    · exact ⟨s, mem_halfCandidates.2 (.inr (.inl h0)), halike⟩
    · refine ⟨s, ?_, halike⟩
      rcases List.mem_cons.1 hc with rfl | hc
      · rcases hs with rfl | rfl
        · exact hold
        · exact hself
      · exact mem_halfCandidates.2 (.inl ⟨c, hc, hs.imp_right .inr⟩)
  · obtain ⟨s, -, halike, hmax | ⟨c, hc, hs⟩⟩ := exists_greatest_alike (old :: constants) w
    · exact ⟨s, mem_halfCandidates.2 (.inr (.inr hmax)), halike⟩
    · refine ⟨s, ?_, halike⟩
      rcases List.mem_cons.1 hc with rfl | hc
      · rcases hs with rfl | rfl
        · exact hold
        · exact hself
      · exact mem_halfCandidates.2 (.inl ⟨c, hc, hs.imp_right .inl⟩)

/-- The constant is recorded for the word, or the new one is recorded in place of the old one. -/
def Constants.RecordsMoved (constants : Constants) (old new : UInt32) (field : Field)
    (k : UInt32) : Prop :=
  k ∈ constants.of field ∨ k = old ∧ new ∈ constants.of field

theorem Constants.RecordsMoved.isSome {constants : Constants} {old new k : UInt32} {field : Field}
    (h : constants.RecordsMoved old new field k) : (constants.get? field).isSome := by
  rw [RecordsMoved, Constants.of] at h
  cases hget : constants.get? field with
  | none => simp [hget] at h
  | some values => rfl

theorem Constants.exists_mem_halfCandidates {old new : UInt32}
    (hmoved : new = old + 1 ∨ new = old - 1) (constants : Constants) (field : Field) (w : UInt32) :
    ∃ s ∈ halfCandidates (constants.of field), Alike (constants.of field) w s ∧
      ∀ k, constants.RecordsMoved old new field k → Alike [k] w s := by
  by_cases hnew : new ∈ constants.of field
  · obtain ⟨s, hs, halike⟩ := exists_mem_halfCandidates_moved hnew hmoved w
    refine ⟨s, hs, halike.mono fun k hk => List.mem_cons_of_mem _ hk, fun k hk => ?_⟩
    refine halike.mono fun c hc => ?_
    rw [List.mem_singleton.1 hc]
    rcases hk with hk | ⟨rfl, -⟩
    · exact List.mem_cons_of_mem _ hk
    · exact List.mem_cons_self ..
  · obtain ⟨s, hs, -, halike⟩ := exists_mem_halfCandidates_le (constants.of field) w
    refine ⟨s, hs, halike, fun k hk => halike.mono fun c hc => ?_⟩
    rw [List.mem_singleton.1 hc]
    exact hk.resolve_right fun hold => hnew hold.2

end Sampling

/-! ### One constant replaced -/

namespace Bpf

section

variable {raw : RawProgram} {index pc : Nat} {k : UInt32} {r : RawInstruction}

theorem getElem?_setK_of_ne (h : pc ≠ index) :
    ((Edit.setK index k).apply raw)[pc]? = raw[pc]? := by
  simp [Edit.apply, Ne.symm h]

theorem getElem?_setK_self (h : raw[index]? = some r) :
    ((Edit.setK index k).apply raw)[index]? = some { r with k } := by
  simp [Edit.apply, h]

theorem length_setK : ((Edit.setK index k).apply raw).length = raw.length :=
  List.length_modify ..

theorem comparing_setK (h : raw.all RawInstruction.comparing) :
    ((Edit.setK index k).apply raw).all RawInstruction.comparing := by
  rw [List.all_eq_true] at h ⊢
  intro r' hr'
  obtain ⟨pc, hpc⟩ := List.mem_iff_getElem?.1 hr'
  by_cases hne : pc = index
  · subst hne
    cases hr : raw[pc]? with
    | none => simp [Edit.apply, hr] at hpc
    | some r =>
      rw [getElem?_setK_self hr] at hpc
      cases hpc
      exact h r (List.mem_of_getElem? hr)
  · rw [getElem?_setK_of_ne hne] at hpc
    exact h r' (List.mem_of_getElem? hpc)

theorem codeFits_modify {f : RawInstruction → RawInstruction} {after : Nat}
    (hf : ∀ r behind, raw[index]? = some r → r.Fits behind → (f r).Fits behind)
    (h : CodeFits raw after) : CodeFits (raw.modify index f) after := by
  induction raw generalizing index with
  | nil => simpa using h
  | cons head rest ih =>
    cases index with
    | zero => exact ⟨hf head _ rfl h.1, h.2⟩
    | succ index =>
      rw [List.modify_succ_cons]
      refine ⟨?_, ih hf h.2⟩
      rw [List.length_modify]
      exact h.1

theorem CodeAt.setK {code : List RawInstruction} (h : CodeAt raw pc code)
    (hout : index < pc ∨ pc + code.length ≤ index) :
    CodeAt ((Edit.setK index k).apply raw) pc code := by
  rw [codeAt_iff] at h ⊢
  intro offset r hr
  obtain ⟨hoffset, -⟩ := List.getElem?_eq_some_iff.1 hr
  rw [getElem?_setK_of_ne (by omega)]
  exact h offset r hr

end

section

variable {raw : RawProgram} {index : Nat} {test : Test} {old new : UInt32} {jt jf : UInt8}
  (hbranch : raw[index]? = some (.branch test old jt jf))

include hbranch

/-- Only comparisons have the code of one. -/
theorem ne_of_plain {pc : Nat} {op : Opcode} {k : UInt32} (hop : op ≠ .branch test)
    (h : raw[pc]? = some (.plain op k)) : pc ≠ index := by
  rintro rfl
  have hcode : op.code = (Opcode.branch test).code :=
    congrArg RawInstruction.code (Option.some.inj (h.symm.trans hbranch))
  have hsame : Opcode.ofCode? op.code = some (.branch test) := by
    rw [hcode, Opcode.ofCode?_code]
  rw [Opcode.ofCode?_code] at hsame
  exact hop (Option.some.inj hsame)

theorem codeFits_setK {after : Nat} (h : CodeFits raw after) :
    CodeFits ((Edit.setK index new).apply raw) after := by
  refine codeFits_modify (fun r behind hr hfits => ?_) h
  obtain rfl := Option.some.inj (hbranch.symm.trans hr)
  simp only [RawInstruction.Fits, RawInstruction.branch, Opcode.ofCode?_code] at hfits ⊢
  exact hfits

/-- A program that fits is still one with another constant in a comparison. -/
theorem exists_load_setK {value : UInt32} (h : CodeFits raw 0) (hlength : raw.length ≤ maxLength)
    (hlast : raw.getLast? = some (.plain .ret value)) :
    ∃ program, Program.load ((Edit.setK index new).apply raw) = .ok program := by
  refine load_of_codeFits (k := value) (codeFits_setK hbranch h) ?_ ?_
  · rw [length_setK]
    exact hlength
  · rw [List.getLast?_eq_getElem?] at hlast ⊢
    rw [length_setK, getElem?_setK_of_ne (ne_of_plain hbranch (by simp) hlast)]
    exact hlast

end

end Bpf

section

variable {raw : RawProgram} {index : Nat} {test : Test} {old new : UInt32} {jt jf : UInt8}
  (hbranch : raw[index]? = some (.branch test old jt jf))

include hbranch

theorem Relays.setK {pc exit : Nat} (h : Relays raw pc exit) :
    Relays ((Edit.setK index new).apply raw) pc exit := by
  refine Relation.ReflTransGen.mono ?_ _ _ h
  rintro a b ⟨distance, hd, hget, hb⟩
  refine ⟨distance, hd, ?_, hb⟩
  rw [getElem?_setK_of_ne (ne_of_plain hbranch (by simp) hget)]
  exact hget

theorem OpenStep.setK {p q : Point} (h : OpenStep raw p q) :
    OpenStep ((Edit.setK index new).apply raw) p q := by
  cases h with
  | load hfield hget =>
    refine .load hfield ?_
    rw [getElem?_setK_of_ne (ne_of_plain hbranch (by simp) hget)]
    exact hget
  | jumps hr => exact .jumps (hr.setK hbranch)
  | @branch pc target field test' k jt' jf' hget ht =>
    by_cases hpc : pc = index
    · subst hpc
      exact .branch (getElem?_setK_self hget) ht
    · rw [← getElem?_setK_of_ne hpc] at hget
      exact .branch hget ht

/-- What was compared still is, or the new constant stands in its place. -/
theorem Compares.setK {p : Point} {field : Field} {k : UInt32} (h : Compares raw p field k) :
    Compares ((Edit.setK index new).apply raw) p field k ∨
      k = old ∧ Compares ((Edit.setK index new).apply raw) p field new := by
  obtain ⟨pc, test', jt', jf', hpath, hget⟩ := h
  have hpath' : OpenPath ((Edit.setK index new).apply raw) p ⟨pc, .word field⟩ :=
    Relation.ReflTransGen.mono (fun _ _ hstep => OpenStep.setK hbranch hstep) _ _ hpath
  by_cases hpc : pc = index
  · subst hpc
    have hk : k = old := congrArg RawInstruction.k (Option.some.inj (hget.symm.trans hbranch))
    exact .inr ⟨hk, pc, test', jt', jf', hpath', getElem?_setK_self hget⟩
  · rw [← getElem?_setK_of_ne hpc] at hget
    exact .inl ⟨pc, test', jt', jf', hpath', hget⟩

end

/-! ### A comparison in the rules of a number -/

namespace RuleSet

/-- A comparison in the rules of a number; what else stands there loads a word, jumps or
returns. -/
structure RuleBranch (ruleSet : RuleSet) (number : Int) where
  position : ruleSet.Position number
  offset : Nat
  test : Test
  k : UInt32
  jt : UInt8
  jf : UInt8
  getElem?_rules : position.rules[offset]? = some (.branch test k jt jf)

namespace RuleBranch

variable {ruleSet : RuleSet} {number : Int} (branch : ruleSet.RuleBranch number)

/-- Its index in the program. -/
def index : Nat :=
  branch.position.front.length + branch.offset

theorem offset_lt : branch.offset < branch.position.rules.length :=
  (List.getElem?_eq_some_iff.1 branch.getElem?_rules).1

theorem getElem?_code :
    ruleSet.code[branch.index]? = some (.branch branch.test branch.k branch.jt branch.jf) :=
  codeAt_iff.1 branch.position.codeAt_rules _ _ branch.getElem?_rules

section

variable {k : UInt32} {program : Program} {call : Call}

theorem codeAt_front_setK :
    CodeAt ((Edit.setK branch.index k).apply ruleSet.code) 0 branch.position.front := by
  refine branch.position.codeAt_front.setK (.inr ?_)
  unfold index
  omega

theorem codeAt_back_setK : CodeAt ((Edit.setK branch.index k).apply ruleSet.code)
    (branch.position.front.length + branch.position.rules.length) branch.position.back := by
  refine branch.position.codeAt_back.setK (.inl ?_)
  have hoffset := branch.offset_lt
  unfold index
  omega

/-- Other words pass the rules of the number by, on jumps that are those they were. -/
theorem reaches_back (h : Loaded ((Edit.setK branch.index k).apply ruleSet.code) program)
    {word : UInt32} (hword : word ≠ UInt32.ofNat number.toNat) :
    program.Reaches call
      ⟨4 + (branch.position.before.flatMap fun entry =>
        entry.2.code entry.1 ruleSet.defaultAction).length, word⟩
      ⟨branch.position.front.length + branch.position.rules.length + 1, word⟩ := by
  have hcompare : CodeAt ((Edit.setK branch.index k).apply ruleSet.code) _ _ :=
    branch.codeAt_front_setK.append.2.append.2
  have hgoes := h.goes_compareWord call word (by omega) (by omega) hcompare
  have hfails : ¬Test.eq.holds word (UInt32.ofNat number.toNat) := by simpa [Test.holds] using hword
  rw [if_neg hfails] at hgoes
  have hrelays : Relays ((Edit.setK branch.index k).apply ruleSet.code) _ _ :=
    (Chain.relays_rules branch.position.wellIndexed branch.position.codeAt_rules).setK
      branch.getElem?_code
  rw [branch.position.length_front] at hrelays ⊢
  exact hgoes.reaches.trans (hrelays.hops h call word)

/-- Calls of another number or architecture are treated as the rules say. -/
theorem returns_of_other (h : Loaded ((Edit.setK branch.index k).apply ruleSet.code) program)
    (hother : call.arch = ruleSet.architecture.audit →
      call.word .nr ≠ UInt32.ofNat number.toNat) :
    program.Returns call .start (ruleSet.decision call).code := by
  let position := branch.position
  obtain ⟨hnumbers, hchains⟩ :
      CodeAt ((Edit.setK branch.index k).apply ruleSet.code) 0 _ ∧ CodeAt _ 4 _ :=
    branch.codeAt_front_setK.append
  unfold decision
  by_cases harch : call.arch = ruleSet.architecture.audit
  · have hword := hother harch
    have hne : (((call.word .nr).toNat : Int) == number) = false := by
      simpa using mt (toNat_eq_iff (of_mem_entries position.mem_entries).1).1 hword
    have hafter : program.Returns call ⟨_, call.word .nr⟩ _ := returns_entries h
      (fun entry hentry => of_mem_entries (position.mem_entries_of_mem_after hentry))
      branch.codeAt_back_setK.append.2 (call.word .nr)
    rw [if_pos harch, answer, Table.get?, position.entries_eq]
    refine (Position.reaches_numbers h hnumbers harch).returns (returns_entries_append h
      (fun entry hentry => of_mem_entries (position.mem_entries_of_mem_before hentry))
      hchains.append.1 ?_)
    rw [List.lookup_cons, hne]
    exact (branch.reaches_back h hword).returns hafter
  · rw [if_neg harch]
    exact returns_foreign h hnumbers.append.1 harch

end

/-! ### Verifying the moved constant -/

section

variable {branch} {k : UInt32} {program : Program} {settings : Settings}
  {report : Verification.Report} {args : Args}

theorem comparing_of_loaded (hordered : ruleSet.ordered)
    (h : Loaded ((Edit.setK branch.index k).apply ruleSet.code) program) : program.comparing :=
  h.comparing (comparing_setK (comparing_code hordered))

theorem recordsMoved_of_compares
    (h : Loaded ((Edit.setK branch.index k).apply ruleSet.code) program) {p : Point}
    (hp : p ∈ explored program ⟨ruleSet.architecture.audit, some (UInt32.ofInt number)⟩)
    {field : Field} {c : UInt32} (hc : Compares ruleSet.code p field c) :
    (ruleSet.scanned program number).RecordsMoved branch.k k field c := by
  rcases hc.setK branch.getElem?_code with hkept | ⟨hold, hnew⟩
  · exact .inl (hkept.mem_constants h hp)
  · exact .inr ⟨hold, hnew.mem_constants h hp⟩

/-- The program still looks for all constants of the rules, up to the one that was moved. -/
theorem recordsMoved (hordered : ruleSet.ordered)
    (h : Loaded ((Edit.setK branch.index k).apply ruleSet.code) program) :
    ∀ c ∈ ruleSet.conditions number,
      (ruleSet.scanned program number).RecordsMoved branch.k k (.argLow c.index) (lowWord c.value) ∧
        (c.width = .qword → (ruleSet.scanned program number).RecordsMoved branch.k k
          (.argHigh c.index) (highWord c.value)) := by
  obtain ⟨acc, hexplored⟩ := branch.position.exists_explored h (comparing_of_loaded hordered h)
    branch.codeAt_front_setK
  intro c hc
  obtain ⟨hlow, hhigh⟩ := branch.position.comparedFrom hordered branch.position.codeAt_rules acc c hc
  exact ⟨recordsMoved_of_compares h hexplored hlow,
    fun hqword => recordsMoved_of_compares h hexplored (hhigh hqword)⟩

theorem decided (hordered : ruleSet.ordered) (hmoved : k = branch.k + 1 ∨ k = branch.k - 1)
    (h : Loaded ((Edit.setK branch.index k).apply ruleSet.code) program) (index : Nat)
    (x : UInt64) : ruleSet.Decided program number index x := by
  have hrecords := recordsMoved hordered h
  by_cases hsome : ((ruleSet.scanned program number).get? (.argLow index)).isSome ∨
      ((ruleSet.scanned program number).get? (.argHigh index)).isSome
  · obtain ⟨s, hs, ⟨hlow, hlowMoved⟩, hhigh, hhighMoved⟩ := exists_mem_joinedCandidates hsome
      (Constants.exists_mem_halfCandidates hmoved _ (.argLow index))
      (Constants.exists_mem_halfCandidates hmoved _ (.argHigh index)) x
    refine .of_sample (mem_candidates.2 (.inr (.inl hs))) ?_ ⟨hlow.symm, hhigh.symm⟩
    intro c hcondition
    obtain ⟨hc, rfl⟩ := mem_conditionsOn.1 hcondition
    exact Condition.alike_of_words (ordered_iff.1 hordered number c hc)
      (hlowMoved _ (hrecords c hc).1) fun hqword => hhighMoved _ ((hrecords c hc).2 hqword)
  · -- a program that does not look at the argument comes from rules that do not
    refine .of_sample (mem_candidates.2 (.inr (.inr (.inl rfl)))) ?_
      (halvesAlike_of_not_isSome hsome 0 x)
    intro c hcondition
    obtain ⟨hc, rfl⟩ := mem_conditionsOn.1 hcondition
    exact absurd (.inl (hrecords c hc).1.isSome) hsome

/-- Whatever check fails, it is about a call of the number that is not treated as the rules say. -/
theorem mismatch_of_check
    (h : Loaded ((Edit.setK branch.index k).apply ruleSet.code) program)
    (hlimit : ruleSet.code.length ≤ settings.instructionLimit) {check : Check}
    (hcheck : check ∈ checks program ruleSet.policy settings) {failure : Failure}
    (hfailure : check.failure? program ruleSet.policy settings = some failure) :
    ∃ args expected actual,
      failure = .mismatch ⟨number, ruleSet.name? number, ruleSet.architecture.audit, args⟩
        expected actual ∧
      ruleSet.evaluate number args = .ok expected ∧
      program.verdict (.ofWord (UInt32.ofInt number) ruleSet.architecture.audit args)
        settings.instructionLimit = .ok actual ∧
      actual ≠ expected := by
  have hnumber := branch.position.mem_syscalls
  have hend : ((Edit.setK branch.index k).apply ruleSet.code).length ≤ settings.instructionLimit := by
    rw [length_setK]
    exact hlimit
  rcases passes_or_asks_decision hcheck with hpasses | ⟨other, arch, args, hrange, rfl⟩
  · cases hpasses.symm.trans hfailure
  · by_cases hsame : arch = ruleSet.architecture.audit ∧ UInt32.ofInt other = UInt32.ofInt number
    · obtain ⟨rfl, hword⟩ := hsame
      obtain rfl : other = number := by
        rw [← toNat_ofInt hrange, ← toNat_ofInt_of_mem_syscalls hnumber, hword]
      obtain ⟨actual, hactual⟩ := h.exists_verdict
        (.ofWord (UInt32.ofInt other) ruleSet.architecture.audit args) hend
      simp only [Check.failure?, hactual] at hfailure
      split at hfailure
      · cases hfailure
      · next hne =>
        obtain rfl := Option.some.inj hfailure
        exact ⟨args, _, actual, rfl, decision_listed hnumber args, hactual, hne⟩
    · have hverdict : program.verdict (.ofWord (UInt32.ofInt other) arch args)
          settings.instructionLimit =
          .ok (ruleSet.decision (.ofWord (UInt32.ofInt other) arch args)) := by
        refine h.verdict_eq_of_returns hend (branch.returns_of_other h fun harch hword => ?_)
        exact hsame ⟨harch, hword.trans branch.position.ofInt_eq.symm⟩
      rw [Check.failure?_call_eq_none_iff.2 ⟨_, rfl, hverdict⟩] at hfailure
      cases hfailure

theorem verified_iff (hordered : ruleSet.ordered) (hmoved : k = branch.k + 1 ∨ k = branch.k - 1)
    (hload : Program.load ((Edit.setK branch.index k).apply ruleSet.code) = .ok program)
    (hlimit : ruleSet.code.length ≤ settings.instructionLimit)
    (hsize : (sampledCases program ruleSet.policy settings (ruleSet.constants number)
      (UInt32.ofInt number)).size ≤ settings.caseLimit) :
    (∃ report, verify ((Edit.setK branch.index k).apply ruleSet.code) ruleSet.policy settings =
      .ok report) ↔ ∀ args, ruleSet.Agrees program settings number args := by
  have h := load_eq_ok_iff.1 hload
  constructor
  · rintro ⟨report, hverify⟩ args
    exact agrees_of_decided hload (comparing_of_loaded hordered h) hordered hverify
      branch.position.mem_syscalls hsize fun i => decided hordered hmoved h i (args.get i)
  · intro hagrees
    have hpos := size_sampledCases_pos program ruleSet settings number
    refine ⟨_, verify_eq_ok_iff.2 ⟨by omega, program, hload, fun check hcheck => ?_, rfl⟩⟩
    cases hfailure : check.failure? program ruleSet.policy settings with
    | none => rfl
    | some failure =>
      obtain ⟨args, expected, actual, -, hexpected, hactual, hne⟩ :=
        mismatch_of_check h hlimit hcheck hfailure
      obtain ⟨action, haction, hverdict⟩ := hagrees args
      cases haction.symm.trans hexpected
      cases hverdict.symm.trans hactual
      exact absurd rfl hne

end

end RuleBranch

variable {ruleSet : RuleSet} {number : Int} {raw : RawProgram}

/-- **Constants that are off by one are found exactly if they matter.** Move the constant of a
comparison in the rules of a number up or down by one. The program can still be loaded. With
settings that let it run to its end and try all samples of the number, it passes exactly if it
still treats every call of the number as the rules say; if it does not, the verification names
the number and a tuple on which they differ. -/
theorem verify_moved_iff (hordered : ruleSet.ordered) (hassemble : ruleSet.assemble = .ok raw)
    (branch : ruleSet.RuleBranch number) {k : UInt32}
    (hmoved : k = branch.k + 1 ∨ k = branch.k - 1) :
    raw[branch.index]? = some (.branch branch.test branch.k branch.jt branch.jf) ∧
      ∃ program, Program.load ((Edit.setK branch.index k).apply raw) = .ok program ∧
        ∀ settings : Settings, raw.length ≤ settings.instructionLimit →
          (sampledCases program ruleSet.policy settings (ruleSet.constants number)
            (UInt32.ofInt number)).size ≤ settings.caseLimit →
          ((∃ report, verify ((Edit.setK branch.index k).apply raw) ruleSet.policy settings =
              .ok report) ↔ ∀ args, ruleSet.Agrees program settings number args) ∧
          ((¬∀ args, ruleSet.Agrees program settings number args) →
            ∃ args expected actual,
              verify ((Edit.setK branch.index k).apply raw) ruleSet.policy settings =
                .error (.mismatch
                  ⟨number, ruleSet.name? number, ruleSet.architecture.audit, args⟩
                  expected actual) ∧
              ruleSet.evaluate number args = .ok expected ∧
              program.verdict (.ofWord (UInt32.ofInt number) ruleSet.architecture.audit args)
                settings.instructionLimit = .ok actual ∧
              actual ≠ expected) := by
  obtain ⟨hlength, rfl⟩ := assemble_eq_ok_iff.1 hassemble
  obtain ⟨program, hload⟩ :
      ∃ program, Program.load ((Edit.setK branch.index k).apply ruleSet.code) = .ok program :=
    exists_load_setK branch.getElem?_code ruleSet.codeFits_code hlength ruleSet.getLast?_code
  refine ⟨branch.getElem?_code, program, hload, fun settings hlimit hsize => ?_⟩
  have hiff := RuleBranch.verified_iff hordered hmoved hload hlimit hsize
  refine ⟨hiff, fun hdiffers => ?_⟩
  cases hverify : verify ((Edit.setK branch.index k).apply ruleSet.code) ruleSet.policy settings with
  | ok report => exact absurd (hiff.1 ⟨report, hverify⟩) hdiffers
  | error failure =>
    have hpos := size_sampledCases_pos program ruleSet settings number
    obtain ⟨check, hcheck, hfailure⟩ := exists_check_of_verify_eq_error (by omega) hload hverify
    obtain ⟨args, expected, actual, rfl, hdifferent⟩ :=
      RuleBranch.mismatch_of_check (load_eq_ok_iff.1 hload) hlimit hcheck hfailure
    exact ⟨args, expected, actual, rfl, hdifferent⟩

/-- Only arguments of half size are allowed. -/
def halfSized : RuleSet where
  rules := .ofList [(7, [⟨[⟨0, .qword, .lt, 0x100000000⟩], .allow⟩])]
  defaultAction := .errno 22
  architecture := .x86_64
  names := .empty
  valid := by decide

/-- Where the low half is compared with 0. -/
def lowZero : halfSized.RuleBranch 7 where
  position := ⟨[], [⟨[⟨0, .qword, .lt, 0x100000000⟩], .allow⟩], [], by decide⟩
  offset := 6
  test := .ge
  k := 0
  jt := 1
  jf := 0
  getElem?_rules := by decide

def wrappedProgram : Program where
  code := #[.load .arch, .branch .eq Architecture.x86_64.audit 3 2, .ret Action.killProcess.code,
    .load .nr, .branch .eq 7 5 6,
    .jump 7, .jump 14, .load (.argHigh 0), .branch .gt 1 13 9, .branch .eq 1 10 12,
    .load (.argLow 0), .branch .ge 0xffffffff 13 12, .ret Action.allow.code,
    .ret (Action.errno 22).code, .ret (Action.errno 22).code]

/-- Moved down by one, the constant 0 becomes the last of all. -/
theorem verify_halfSized :
    halfSized.assemble = .ok halfSized.code ∧
      Program.load ((Edit.setK 11 0xffffffff).apply halfSized.code) = .ok wrappedProgram ∧
      ∃ args expected actual,
        verify ((Edit.setK 11 0xffffffff).apply halfSized.code) halfSized.policy {} =
          .error (.mismatch ⟨7, none, Architecture.x86_64.audit, args⟩ expected actual) ∧
        actual ≠ expected := by
  have hassemble : halfSized.assemble = .ok halfSized.code := by decide
  have hload : Program.load ((Edit.setK 11 0xffffffff).apply halfSized.code) =
      .ok wrappedProgram := by decide
  obtain ⟨-, program, hprogram, hverified⟩ := verify_moved_iff (by decide) hassemble lowZero
    (.inr rfl)
  obtain rfl : wrappedProgram = program := Except.ok.inj (hload.symm.trans hprogram)
  obtain ⟨args, expected, actual, hverify, -, -, hne⟩ :=
    (hverified {} (by decide) (by decide +kernel)).2 fun hagrees => by
      have hwrong := hagrees #v[0x100000000, 0, 0, 0, 0, 0]
      rw [agrees_iff (by decide)] at hwrong
      exact absurd hwrong (by decide)
  exact ⟨hassemble, hload, args, expected, actual, hverify, hne⟩

end RuleSet

end SyscallFilter
