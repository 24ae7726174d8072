import Mathlib.Algebra.BigOperators.Group.List.Basic
import SyscallFilter.Bpf.Edit
import SyscallFilter.Proofs.NumberClasses
import SyscallFilter.Proofs.NumberProbes
import SyscallFilter.Proofs.OpenPaths

/-! The last return of an assembled program is that of the numbers without a chain.

Put another return in its place. Listed numbers never come to it, so their checks still pass, and
any other number comes to nothing else. The exploration for such a number follows the run: it loads
no word that is left open, so it goes one way only (`pathTo_of_certain`), and the samples of the
number are those of a call whose arguments nobody looks at. With the number left open, the
exploration passes every chain on to the comparison with the next number (`keeps_entries`), so all
listed numbers are found and their neighbours are probed, and they cannot all be listed too. -/
namespace SyscallFilter

open Bpf Sampling

namespace Sampling

variable {raw : RawProgram} {program : Program} {given : Given} {call : Call}

/-! ### Paths without open words -/

/-- A step of a path that knows the accumulator before and after it. -/
def Certain (program : Program) (given : Given) (s t : State) : Prop :=
  Leads program given ⟨s.pc, .value s.acc⟩ ⟨t.pc, .value t.acc⟩

def CertainPath (program : Program) (given : Given) : State → State → Prop :=
  Relation.ReflTransGen (Certain program given)

/-- A certain step is that of the run on every call that carries the given words. -/
theorem Certain.goes {s t : State} (h : Certain program given s t) (hcarries : given.Carries call) :
    program.Goes call s t := by
  obtain ⟨pc, acc⟩ := s
  obtain ⟨pc', acc'⟩ := t
  cases h with
  | loadGiven hi hgiven =>
    refine ⟨_, hi, ?_⟩
    rw [Instruction.step, hcarries _ _ (Given.load_of_given hgiven)]
  | compute hi => exact ⟨_, hi, rfl⟩
  | jump hi => exact ⟨_, hi, rfl⟩
  | branch hi => exact ⟨_, hi, rfl⟩

theorem CertainPath.reaches {s t : State} (h : CertainPath program given s t)
    (hcarries : given.Carries call) : program.Reaches call s t :=
  Relation.ReflTransGen.mono (fun _ _ hstep => Certain.goes hstep hcarries) _ _ h

theorem CertainPath.pathTo {s : State} (h : CertainPath program given .start s) :
    PathTo program given ⟨s.pc, .value s.acc⟩ :=
  Relation.ReflTransGen.lift (fun s : State => (⟨s.pc, .value s.acc⟩ : Point))
    (fun _ _ hleads => hleads) _ _ h

/-- A certain step is the only one. -/
theorem Certain.eq_of_leads {s t : State} {q : Point} (h : Certain program given s t)
    (hq : Leads program given ⟨s.pc, .value s.acc⟩ q) : q = ⟨t.pc, .value t.acc⟩ := by
  obtain ⟨i, hi, ht⟩ := h.exists_successor
  obtain ⟨i', hi', hq⟩ := hq.exists_successor
  obtain rfl : i = i' := Option.some.inj (hi.symm.trans hi')
  cases i with
  | ret value => cases hq
  | _ =>
    rw [List.mem_singleton.1 hq]
    exact (List.mem_singleton.1 ht).symm

/-- If certain steps lead from the start to a return, there is no other path. -/
theorem pathTo_of_certain {e : State} {value : UInt32}
    (hcertain : CertainPath program given .start e)
    (hreturn : program.code[e.pc]? = some (.ret value)) {p : Point} (h : PathTo program given p) :
    ∃ s : State, p = ⟨s.pc, .value s.acc⟩ ∧ CertainPath program given s e := by
  induction h with
  | refl => exact ⟨.start, rfl, hcertain⟩
  | tail _ hleads ih =>
    obtain ⟨s, rfl, hpath⟩ := ih
    rcases hpath.cases_head with rfl | ⟨t, hstep, hpath⟩
    · -- nothing follows a return
      obtain ⟨i, hi, hq⟩ := hleads.exists_successor
      obtain rfl : Instruction.ret value = i := Option.some.inj (hreturn.symm.trans hi)
      cases hq
    · exact ⟨t, hstep.eq_of_leads hleads, hpath⟩

/-- Then nothing is recorded. -/
theorem get?_eq_none_of_certain (h : Loaded raw program) {e : State} {value : UInt32}
    (hcertain : CertainPath program given .start e)
    (hreturn : program.code[e.pc]? = some (.ret value)) (field : Field) :
    (Constants.ofProgram program given).get? field = none := by
  have hnone : ∀ k, k ∈ (Constants.ofProgram program given).of field ↔
      k ∈ (⟨[]⟩ : Constants).of field := by
    intro k
    rw [mem_constants_iff_pathTo h.forward h.length_pos]
    constructor
    · rintro ⟨pc, i, hpath, -⟩
      obtain ⟨s, hs, -⟩ := pathTo_of_certain hcertain hreturn hpath
      cases hs
    · intro hk
      cases hk
  rw [Constants.get?_congr hnone]
  rfl

/-! ### Comparisons that are passed -/

/-- A path along which the accumulator stays what it is. -/
def Keeps (program : Program) (given : Given) (acc : Knowledge) : Nat → Nat → Prop :=
  Relation.ReflTransGen fun pc next => Leads program given ⟨pc, acc⟩ ⟨next, acc⟩

theorem Keeps.certainPath {value : UInt32} {pc target : Nat}
    (h : Keeps program given (.value value) pc target) :
    CertainPath program given ⟨pc, value⟩ ⟨target, value⟩ :=
  Relation.ReflTransGen.lift (fun pc => (⟨pc, value⟩ : State)) (fun _ _ hleads => hleads) _ _ h

theorem Keeps.pathTo {acc : Knowledge} {pc target : Nat} (h : Keeps program given acc pc target)
    (hpath : PathTo program given ⟨pc, acc⟩) : PathTo program given ⟨target, acc⟩ :=
  Relation.ReflTransGen.trans hpath
    (Relation.ReflTransGen.lift (fun pc => (⟨pc, acc⟩ : Point)) (fun _ _ hleads => hleads) _ _ h)

theorem keeps_of_relays (h : Loaded raw program) {pc target : Nat} (hr : Relays raw pc target)
    (acc : Knowledge) : Keeps program given acc pc target := by
  induction hr with
  | refl => exact .refl
  | tail _ hjump ih =>
    obtain ⟨distance, hd, hget, rfl⟩ := hjump
    exact ih.tail (.jump (h.code_jumpBy hd hget))

/-- The accumulator is another value, or an open word, which may be. -/
def Knowledge.MayDiffer (acc : Knowledge) (k : UInt32) : Prop :=
  ∀ value, acc = .value value → value ≠ k

theorem Knowledge.mayDiffer_value {value k : UInt32} (h : value ≠ k) :
    (Knowledge.value value).MayDiffer k := by
  rintro _ ⟨⟩
  exact h

theorem Knowledge.mayDiffer_word (field : Field) (k : UInt32) :
    (Knowledge.word field).MayDiffer k := by
  rintro _ ⟨⟩

theorem leads_of_mayDiffer (h : Loaded raw program) {pc jt jf : Nat} {k : UInt32} {acc : Knowledge}
    (hjf : jf < 0x100) (hget : raw[pc]? = some (compareWord .eq k jt jf))
    (hdiffer : acc.MayDiffer k) :
    Leads program given ⟨pc, acc⟩ ⟨pc + 1 + jf, acc⟩ := by
  have hi := h.code_branch hget
  rw [UInt8.toNat_ofNat_of_lt' hjf] at hi
  cases acc with
  | word field => exact .branchOpen hi (.inr rfl)
  | value value =>
    have hleads : Leads program given ⟨pc, .value value⟩ _ := .branch hi
    have hfails : ¬Test.eq.holds value k := by simpa [Test.holds] using hdiffer value rfl
    rw [if_neg hfails] at hleads
    exact hleads

end Sampling

theorem Chain.keeps_code {raw : RawProgram} {program : Program} {given : Given} {chain : Chain}
    {pc : Nat} {number : Int} {defaultAction : Action} {acc : Knowledge} (h : Loaded raw program)
    (hindex : chain.WellIndexed) (hat : CodeAt raw pc (chain.code number defaultAction))
    (hdiffer : acc.MayDiffer (UInt32.ofNat number.toNat)) :
    Keeps program given acc pc (pc + (chain.code number defaultAction).length) := by
  have hleads : Leads program given ⟨pc, acc⟩ ⟨pc + 1 + 1, acc⟩ :=
    leads_of_mayDiffer h (by omega) hat.cons.1 hdiffer
  exact .head hleads (keeps_of_relays h (relays_code hindex hat) acc)

/-! ### The first probe -/

section

variable {program : Program} {policy : Policy} {settings : Settings} {raw : RawProgram}
  {word : UInt32}

/-- If nothing is recorded for the arguments, they are all 0 in the first sample. -/
theorem exists_sampledTuples_eq (hcases : 1 ≤ settings.caseLimit)
    (hnone : ∀ field,
      (Constants.ofProgram program ⟨policy.architecture.audit, some word⟩).get? field = none) :
    ∃ more, sampledTuples program policy settings (fun _ => []) word = .replicate 0 :: more := by
  obtain ⟨n, hn⟩ : ∃ n, settings.caseLimit = n + 1 := ⟨settings.caseLimit - 1, by omega⟩
  have hcandidates : callCandidates (fun _ => [])
      (.ofProgram program ⟨policy.architecture.audit, some word⟩) =
      Vector.replicate 6 #[0, 0xffffffffffffffff] := by
    simp only [callCandidates, hnone]
    rfl
  obtain ⟨more, hmore⟩ : ∃ more,
      tuples (Vector.replicate 6 #[0, 0xffffffffffffffff]) = Args.replicate 0 :: more := ⟨_, rfl⟩
  rw [sampledTuples, hcandidates, hmore, hn]
  exact ⟨_, rfl⟩

/-- The probes are tried in ascending order. -/
theorem le_of_probes_eq {rest : List UInt32} (h : probes program policy settings = word :: rest)
    {m : UInt32} (hm : m ∈ probes program policy settings) : word ≤ m := by
  have hascending : (probes program policy settings).Pairwise (· < ·) :=
    (pairwise_ascending _).filter _
  rw [h] at hascending hm
  rcases List.mem_cons.1 hm with rfl | hlater
  · exact UInt32.le_refl m
  · exact UInt32.le_of_lt ((List.pairwise_cons.1 hascending).1 m hlater)

/-- If all listed numbers pass and the first sample of the first probe does not, it is named. -/
theorem verify_eq_of_first_probe {rest : List UInt32} {args : Args} {more : List Args}
    {actual : Action} (hload : Program.load raw = .ok program) (hcases : settings.caseLimit ≠ 0)
    (hlisted : ∀ number ∈ policy.syscalls, ∀ check ∈ listedChecks program policy settings number,
      check.failure? program policy settings = none)
    (hprobes : probes program policy settings = word :: rest)
    (hsamples : sampledTuples program policy settings (fun _ => []) word = args :: more)
    (hverdict : program.verdict (.ofWord word policy.architecture.audit args)
      settings.instructionLimit = .ok actual)
    (hne : actual ≠ policy.defaultAction) :
    verify raw policy settings =
      .error (.mismatch ⟨word.toNat, policy.name? word.toNat, policy.architecture.audit, args⟩
        policy.defaultAction actual) := by
  have hpass : (policy.syscalls.flatMap (listedChecks program policy settings)).findSome?
      (Check.failure? program policy settings) = none := by
    rw [List.findSome?_eq_none_iff]
    intro check hcheck
    obtain ⟨number, hnumber, hcheck⟩ := List.mem_flatMap.1 hcheck
    exact hlisted number hnumber check hcheck
  let failure : Failure :=
    .mismatch ⟨word.toNat, policy.name? word.toNat, policy.architecture.audit, args⟩
      policy.defaultAction actual
  have hfirst : (Check.call word.toNat policy.architecture.audit args
      (.ok policy.defaultAction)).failure? program policy settings = some failure := by
    simp only [Check.failure?, ofInt_toNat, hverdict, if_neg hne]
    rfl
  have hfound : (checks program policy settings).findSome?
      (Check.failure? program policy settings) = some failure := by
    rw [checks, hprobes, List.flatMap_cons, unlistedChecks, hsamples, List.map_cons,
      List.findSome?_append, List.findSome?_append, hpass]
    simp only [List.cons_append, List.findSome?_cons, hfirst, Option.none_or, Option.some_or]
  show verify raw policy settings = .error failure
  rw [verify_eq, if_neg hcases, hload]
  simp only [hfound]

end

namespace RuleSet

variable {ruleSet : RuleSet} {raw : RawProgram} {program : Program} {given : Given}
  {settings : Settings}

/-- What is not one of the first numbers is passed on by their chains. -/
theorem keeps_entries (h : Loaded raw program) {entries : List (Int × Chain)} {pc : Nat}
    {defaultAction : Action} {acc : Knowledge} (hindex : ∀ entry ∈ entries, entry.2.WellIndexed)
    (hdiffer : ∀ entry ∈ entries, acc.MayDiffer (UInt32.ofNat entry.1.toNat))
    (hat : CodeAt raw pc (entries.flatMap fun entry => entry.2.code entry.1 defaultAction)) :
    Keeps program given acc pc
      (pc + (entries.flatMap fun entry => entry.2.code entry.1 defaultAction).length) := by
  induction entries generalizing pc with
  | nil => exact .refl
  | cons entry later ih =>
    rw [List.flatMap_cons] at hat ⊢
    obtain ⟨hentry, hlater⟩ := hat.append
    obtain ⟨hi, hindex⟩ := List.forall_mem_cons.1 hindex
    obtain ⟨hd, hdiffer⟩ := List.forall_mem_cons.1 hdiffer
    rw [List.length_append, ← Nat.add_assoc]
    exact (Chain.keeps_code h hi hentry hd).trans (ih hindex hdiffer hlater)

/-- The own architecture passes the check of it. -/
theorem certainPath_body (h : Loaded raw program) {architecture : Architecture}
    (hat : CodeAt raw 0 (architectureCode architecture)) (harch : given.arch = architecture.audit) :
    CertainPath program given .start ⟨3, given.arch⟩ := by
  have hload : Certain program given .start ⟨1, given.arch⟩ :=
    .loadGiven (h.code_loadWord (by decide) hat.cons.1) rfl
  have hcompare : Leads program given ⟨1, .value given.arch⟩ _ :=
    .branch (h.code_branch hat.cons.2.cons.1)
  have hholds : Test.eq.holds given.arch architecture.audit := decide_eq_true harch
  rw [if_pos hholds] at hcompare
  exact .head hload (.single hcompare)

/-! ### The numbers that are found -/

theorem pathTo_numbers (h : Loaded raw program) {architecture : Architecture}
    (hat : CodeAt raw 0 (architectureCode architecture ++ [loadWord .nr])) :
    PathTo program ⟨architecture.audit, none⟩ ⟨4, .word .nr⟩ := by
  obtain ⟨hcheck, hload⟩ := hat.append
  have hbody : PathTo program ⟨architecture.audit, none⟩ ⟨3, .value architecture.audit⟩ :=
    CertainPath.pathTo (certainPath_body h hcheck rfl)
  exact hbody.tail (.loadOpen (h.code_loadWord (by decide) hload.cons.1) rfl)

/-- The exploration with the number left open meets the comparison with every listed number. -/
theorem Position.mem_numberConstants {number : Int} (position : ruleSet.Position number)
    (h : Loaded raw program) (hat : CodeAt raw 0 position.front) :
    UInt32.ofNat number.toNat ∈ numberConstants program ruleSet.policy := by
  obtain ⟨hnumbers, hat⟩ := hat.append
  obtain ⟨hbefore, hcompare⟩ := hat.append
  have hkeeps : Keeps program ⟨ruleSet.architecture.audit, none⟩ (.word .nr) 4 _ :=
    keeps_entries h
      (fun entry hentry => (of_mem_entries (position.mem_entries_of_mem_before hentry)).2)
      (fun _ _ => Knowledge.mayDiffer_word _ _) hbefore
  exact (mem_constants_iff_pathTo h.forward h.length_pos).2
    ⟨_, _, hkeeps.pathTo (pathTo_numbers h hnumbers), h.code_branch hcompare.cons.1, rfl⟩

theorem lists_iff {word : UInt32} :
    ruleSet.policy.Lists word ↔ (word.toNat : Int) ∈ ruleSet.syscalls := by
  constructor
  · rintro ⟨number, hnumber, hword⟩
    obtain rfl := ofInt_of_syscallWord? hword
    rw [toNat_ofInt_of_mem_syscalls hnumber]
    exact hnumber
  · intro h
    exact ⟨word.toNat, h, syscallWord?_toNat word⟩

theorem mem_probes_iff_unlisted {word : UInt32} :
    word ∈ probes program ruleSet.policy settings ↔
      Considered program ruleSet.policy settings word ∧ (word.toNat : Int) ∉ ruleSet.syscalls := by
  rw [mem_probes_iff, lists_iff]

/-- If every number worth a probe is listed, all numbers are: the last one is worth a probe, and
so is the one after a listed number. -/
theorem lists_of_considered_listed
    (hfound : ∀ number ∈ ruleSet.syscalls,
      UInt32.ofInt number ∈ numberConstants program ruleSet.policy)
    (hlisted : ∀ word, Considered program ruleSet.policy settings word →
      (word.toNat : Int) ∈ ruleSet.syscalls) (n : Nat) :
    ((UInt32.ofNat n).toNat : Int) ∈ ruleSet.syscalls := by
  have hnext : ∀ word : UInt32, (word.toNat : Int) ∈ ruleSet.syscalls →
      ((word + 1).toNat : Int) ∈ ruleSet.syscalls := by
    intro word hword
    have hconstant := hfound _ hword
    rw [ofInt_toNat] at hconstant
    exact hlisted _ (.inr (.inl (mem_distinguishedNumbers_of_mem hconstant (.inr (.inr rfl)))))
  induction n with
  | zero =>
    have hlast := hlisted 0xffffffff (.inr (.inr (by decide)))
    exact hnext _ hlast
  | succ n ih =>
    rw [UInt32.ofNat_add]
    exact hnext _ ih

theorem length_syscalls_le (ruleSet : RuleSet) :
    ruleSet.syscalls.length ≤ ruleSet.code.length := by
  have hchains : ruleSet.rules.entries.length ≤
      (ruleSet.rules.entries.flatMap
        fun entry => entry.2.code entry.1 ruleSet.defaultAction).length := by
    rw [List.length_flatMap]
    refine Nat.le_trans (Nat.le_of_eq (List.length_map _).symm) (List.length_le_sum_of_one_le _ ?_)
    intro n hn
    obtain ⟨entry, -, rfl⟩ := List.mem_map.1 hn
    simp [Chain.code]
  simp only [syscalls, Table.keys, List.length_map, code, List.length_append]
  omega

/-- Some number is worth a probe and not listed. -/
theorem exists_unlisted_considered (hlength : ruleSet.code.length ≤ maxLength)
    (hfound : ∀ number ∈ ruleSet.syscalls,
      UInt32.ofInt number ∈ numberConstants program ruleSet.policy) (settings : Settings) :
    ∃ word, Considered program ruleSet.policy settings word ∧
      (word.toNat : Int) ∉ ruleSet.syscalls := by
  by_contra hnone
  have hlisted : ∀ word, Considered program ruleSet.policy settings word →
      (word.toNat : Int) ∈ ruleSet.syscalls := by
    intro word hword
    by_contra hunlisted
    exact hnone ⟨word, hword, hunlisted⟩
  -- more numbers than there are instructions
  have hsubset : (List.range (maxLength + 1)).map Int.ofNat ⊆ ruleSet.syscalls := by
    intro number hnumber
    obtain ⟨n, hn, rfl⟩ := List.mem_map.1 hnumber
    have hn := List.mem_range.1 hn
    have hmem := lists_of_considered_listed hfound hlisted n
    rw [UInt32.toNat_ofNat_of_lt' (by unfold maxLength at hn; rw [UInt32.size]; omega)] at hmem
    exact hmem
  have hnodup : ((List.range (maxLength + 1)).map Int.ofNat).Nodup :=
    List.nodup_range.map fun _ _ => Int.ofNat.inj
  have hle := (List.subperm_of_subset hnodup hsubset).length_le
  have hsyscalls := ruleSet.length_syscalls_le
  rw [List.length_map, List.length_range] at hle
  omega

/-! ### Another last return -/

/-- The program without its last instruction. -/
def trunk (ruleSet : RuleSet) : List RawInstruction :=
  architectureCode ruleSet.architecture ++
    ((if ruleSet.rules.entries.isEmpty then [] else [loadWord .nr]) ++
      ruleSet.rules.entries.flatMap fun entry => entry.2.code entry.1 ruleSet.defaultAction)

/-- The program with a return of the value at its end. -/
def endingIn (ruleSet : RuleSet) (k : UInt32) : RawProgram :=
  ruleSet.trunk ++ [.plain .ret k]

theorem code_eq_endingIn (ruleSet : RuleSet) :
    ruleSet.code = ruleSet.endingIn ruleSet.defaultAction.code := by
  simp only [code, endingIn, trunk, returnAction, List.append_assoc]

theorem length_endingIn (ruleSet : RuleSet) (k : UInt32) :
    (ruleSet.endingIn k).length = ruleSet.code.length := by
  simp only [code_eq_endingIn, endingIn, List.length_append, List.length_singleton]

theorem set_last_code (ruleSet : RuleSet) (k : UInt32) :
    (Edit.set (ruleSet.code.length - 1) (.plain .ret k)).apply ruleSet.code =
      ruleSet.endingIn k := by
  rw [code_eq_endingIn]
  simp [Edit.apply, endingIn]

theorem exists_load_endingIn (hlength : ruleSet.code.length ≤ maxLength) (k : UInt32) :
    ∃ program, Program.load (ruleSet.endingIn k) = .ok program := by
  have hfits := ruleSet.codeFits_code
  rw [code_eq_endingIn, endingIn] at hfits
  have htrunk := (codeFits_append.1 hfits).1
  refine load_of_codeFits (k := k) (codeFits_append.2 ⟨htrunk, fits_ret k, trivial⟩) ?_ ?_
  · rw [length_endingIn]
    exact hlength
  · exact List.getLast?_concat

section

variable {k : UInt32}

theorem getElem?_last : (ruleSet.endingIn k)[ruleSet.trunk.length]? = some (.plain .ret k) := by
  simp [endingIn]

theorem Position.endingIn_eq {number : Int} (position : ruleSet.Position number) :
    ruleSet.endingIn k = position.front ++
      ((position.rules ++ [returnAction ruleSet.defaultAction]) ++
        (position.after.flatMap (fun entry => entry.2.code entry.1 ruleSet.defaultAction) ++
          [.plain .ret k])) := by
  simp [endingIn, trunk, Position.front, Position.rules, position.entries_eq, Chain.code,
    List.append_assoc]

theorem Position.codeAt_front_endingIn {number : Int} (position : ruleSet.Position number) :
    CodeAt (ruleSet.endingIn k) 0 position.front :=
  ⟨_, position.endingIn_eq.symm⟩

/-- The program still looks for all listed numbers. -/
theorem mem_numberConstants_endingIn (h : Loaded (ruleSet.endingIn k) program) {number : Int}
    (hnumber : number ∈ ruleSet.syscalls) :
    UInt32.ofInt number ∈ numberConstants program ruleSet.policy := by
  obtain ⟨chain, hchain⟩ := mem_syscalls_iff.1 hnumber
  obtain ⟨position, -⟩ := exists_position hchain
  rw [position.ofInt_eq]
  exact position.mem_numberConstants h position.codeAt_front_endingIn

/-- Listed numbers are treated as the rules say. -/
theorem Position.returns_endingIn {number : Int} (position : ruleSet.Position number)
    (h : Loaded (ruleSet.endingIn k) program) (args : Args) :
    program.Returns (.ofWord (UInt32.ofInt number) ruleSet.architecture.audit args) .start
      (ruleSet.answer number args).code := by
  have hrules : CodeAt (ruleSet.endingIn k) position.front.length
      (position.rules ++ [returnAction ruleSet.defaultAction]) := by
    rw [position.endingIn_eq, CodeAt, List.drop_left]
    exact List.prefix_append ..
  have hreach : program.Reaches (.ofWord (UInt32.ofInt number) ruleSet.architecture.audit args)
      .start ⟨position.front.length, UInt32.ofInt number⟩ :=
    position.reaches_rules h position.codeAt_front_endingIn rfl position.ofInt_eq
  rw [answer, position.get?_eq]
  exact hreach.returns (Chain.returns_rules h position.wellIndexed hrules _)

/-- Other numbers come to the last return, on a path for which the two given words are enough. -/
theorem exists_certainPath_last (h : Loaded (ruleSet.endingIn k) program) {word : UInt32}
    (hword : (word.toNat : Int) ∉ ruleSet.syscalls) :
    ∃ acc, CertainPath program ⟨ruleSet.architecture.audit, some word⟩ .start
      ⟨ruleSet.trunk.length, acc⟩ := by
  have hat : CodeAt (ruleSet.endingIn k) 0 ruleSet.trunk := ⟨_, rfl⟩
  have hbody : CertainPath program ⟨ruleSet.architecture.audit, some word⟩ .start
      ⟨3, ruleSet.architecture.audit⟩ := certainPath_body h hat.append.1 rfl
  cases hempty : ruleSet.rules.entries.isEmpty with
  | true =>
    -- the number is not even loaded
    have hlength : ruleSet.trunk.length = 3 := by
      simp [trunk, architectureCode, List.isEmpty_iff.1 hempty]
    rw [hlength]
    exact ⟨_, hbody⟩
  | false =>
    have htrunk : ruleSet.trunk = (architectureCode ruleSet.architecture ++ [loadWord .nr]) ++
        ruleSet.rules.entries.flatMap fun entry => entry.2.code entry.1 ruleSet.defaultAction := by
      simp [trunk, hempty]
    rw [htrunk] at hat ⊢
    obtain ⟨hnumbers, hchains⟩ := hat.append
    have hnumber : Certain program ⟨ruleSet.architecture.audit, some word⟩
        ⟨3, ruleSet.architecture.audit⟩ ⟨4, word⟩ :=
      .loadGiven (h.code_loadWord (by decide) hnumbers.append.2.cons.1) rfl
    have hkeeps : Keeps program ⟨ruleSet.architecture.audit, some word⟩ (.value word) 4
        (4 + (ruleSet.rules.entries.flatMap
          fun entry => entry.2.code entry.1 ruleSet.defaultAction).length) := by
      refine keeps_entries h (fun entry hentry => (of_mem_entries hentry).2) ?_ hchains
      intro entry hentry
      apply Knowledge.mayDiffer_value
      intro heq
      rw [(toNat_eq_iff (of_mem_entries hentry).1).2 heq] at hword
      exact hword (List.mem_map_of_mem hentry)
    rw [List.length_append]
    exact ⟨word, (hbody.tail hnumber).trans hkeeps.certainPath⟩

/-- So they return its value, and nothing is recorded for their arguments. -/
theorem run_last (h : Loaded (ruleSet.endingIn k) program) {word : UInt32}
    (hword : (word.toNat : Int) ∉ ruleSet.syscalls) :
    (∀ args, program.Returns (.ofWord word ruleSet.architecture.audit args) .start k) ∧
      ∀ field, (Constants.ofProgram program ⟨ruleSet.architecture.audit, some word⟩).get? field =
        none := by
  obtain ⟨acc, hpath⟩ := exists_certainPath_last h hword
  constructor
  · intro args
    exact (hpath.reaches (carries_ofWord word _ args)).returns (h.returns_ret _ acc getElem?_last)
  · intro field
    exact get?_eq_none_of_certain h hpath (h.code_ret getElem?_last) field

/-- Listed numbers pass their checks whatever the last return is. -/
theorem listedChecks_pass (h : Loaded (ruleSet.endingIn k) program)
    (hlimit : ruleSet.code.length ≤ settings.instructionLimit) {number : Int}
    (hnumber : number ∈ ruleSet.syscalls) {check : Check}
    (hcheck : check ∈ listedChecks program ruleSet.policy settings number) :
    check.failure? program ruleSet.policy settings = none := by
  rcases List.mem_cons.1 hcheck with rfl | hcall
  · have hrange := number_of_mem_syscalls hnumber
    exact if_pos (by omega)
  · obtain ⟨args, -, rfl⟩ := List.mem_map.1 hcall
    obtain ⟨chain, hchain⟩ := mem_syscalls_iff.1 hnumber
    obtain ⟨position, -⟩ := exists_position hchain
    rw [← length_endingIn ruleSet k] at hlimit
    exact Check.failure?_call_eq_none_iff.2 ⟨_, evaluate_eq_answer hnumber args,
      h.verdict_eq_of_returns hlimit (position.returns_endingIn h args)⟩

end

/-- **A changed last return is caught at the first number that is probed.** Let the last
instruction of an assembled program return a value that stands for another action than the default
one. With settings that try a case and let the program run to its end, a verification names the
smallest number that is worth a probe and not listed, of which there is always one, with all
arguments 0, and tells the two actions. -/
theorem verify_changed_last (hassemble : ruleSet.assemble = .ok raw) {k : UInt32}
    (hk : Action.ofCode k ≠ ruleSet.defaultAction)
    (hcases : 1 ≤ settings.caseLimit) (hlimit : raw.length ≤ settings.instructionLimit) :
    ∃ program word,
      Program.load ((Edit.set (raw.length - 1) (.plain .ret k)).apply raw) = .ok program ∧
      Considered program ruleSet.policy settings word ∧
      (word.toNat : Int) ∉ ruleSet.syscalls ∧
      (∀ m, Considered program ruleSet.policy settings m → (m.toNat : Int) ∉ ruleSet.syscalls →
        word ≤ m) ∧
      verify ((Edit.set (raw.length - 1) (.plain .ret k)).apply raw) ruleSet.policy settings =
        .error (.mismatch
          ⟨word.toNat, ruleSet.name? word.toNat, ruleSet.architecture.audit, .replicate 0⟩
          ruleSet.defaultAction (Action.ofCode k)) := by
  obtain ⟨hlength, rfl⟩ := assemble_eq_ok_iff.1 hassemble
  obtain ⟨program, hload⟩ := exists_load_endingIn hlength k
  have h := load_eq_ok_iff.1 hload
  obtain ⟨probe, hprobe⟩ := exists_unlisted_considered hlength
    (fun number hnumber => mem_numberConstants_endingIn h hnumber) settings
  obtain ⟨word, rest, hprobes⟩ :=
    List.exists_cons_of_ne_nil (List.ne_nil_of_mem (mem_probes_iff_unlisted.2 hprobe))
  obtain ⟨hconsidered, hunlisted⟩ : Considered program ruleSet.policy settings word ∧
      (word.toNat : Int) ∉ ruleSet.syscalls := by
    rw [← mem_probes_iff_unlisted, hprobes]
    exact List.mem_cons_self ..
  obtain ⟨hreturns, hnone⟩ := run_last h hunlisted
  obtain ⟨more, hsamples⟩ : ∃ more,
      sampledTuples program ruleSet.policy settings (fun _ => []) word = .replicate 0 :: more :=
    exists_sampledTuples_eq hcases hnone
  have hverdict : program.verdict (.ofWord word ruleSet.architecture.audit (.replicate 0))
      settings.instructionLimit = .ok (Action.ofCode k) := by
    rw [← length_endingIn ruleSet k] at hlimit
    rw [Program.verdict, h.run_eq_of_returns hlimit (hreturns _)]
    rfl
  rw [set_last_code]
  refine ⟨program, word, hload, hconsidered, hunlisted, ?_, ?_⟩
  · intro m hm hother
    exact le_of_probes_eq hprobes (mem_probes_iff_unlisted.2 ⟨hm, hother⟩)
  · exact verify_eq_of_first_probe hload (by omega)
      (fun number hnumber check hcheck => listedChecks_pass h hlimit hnumber hcheck)
      hprobes hsamples hverdict hk

/-- Lists the last number only. -/
def lastListed : RuleSet where
  rules := .ofList [(0xffffffff, [⟨[⟨0, .dword, .maskedEq 1, 1⟩], .allow⟩])]
  defaultAction := .errno 1
  architecture := .x86_64
  names := .empty
  valid := by decide

def lastListedRaw : RawProgram :=
  (Edit.set (lastListed.code.length - 1) (.plain .ret 0x50002)).apply lastListed.code

def lastListedProgram : Program where
  code := #[.load .arch, .branch .eq Architecture.x86_64.audit 3 2, .ret Action.killProcess.code,
    .load .nr, .branch .eq 0xffffffff 5 6, .jump 7, .jump 12, .load (.argLow 0), .alu .and 1,
    .branch .eq 1 10 11, .ret Action.allow.code, .ret (Action.errno 1).code, .ret 0x50002]

/-- Without any small probes, 0 is tried first because it follows the last number. -/
theorem verify_lastListed :
    lastListed.assemble = .ok lastListed.code ∧ Action.ofCode 0x50002 ≠ lastListed.defaultAction ∧
      Program.load lastListedRaw = .ok lastListedProgram ∧
      verify lastListedRaw lastListed.policy fewProbes =
        .error (.mismatch ⟨0, none, Architecture.x86_64.audit, .replicate 0⟩
          (.errno 1) (.errno 2)) := by
  have hassemble : lastListed.assemble = .ok lastListed.code := by decide
  have hk : Action.ofCode 0x50002 ≠ lastListed.defaultAction := by decide
  have hload : Program.load lastListedRaw = .ok lastListedProgram := by decide
  have hcases : 1 ≤ fewProbes.caseLimit := by decide
  obtain ⟨program, word, hprogram, -, -, hleast, hverify⟩ :=
    verify_changed_last hassemble hk hcases (by decide)
  obtain rfl : lastListedProgram = program := Except.ok.inj (hload.symm.trans hprogram)
  obtain rfl : word = 0 := UInt32.le_zero_iff.1 (hleast 0 (by decide) (by decide))
  exact ⟨hassemble, hk, hload, hverify⟩

end RuleSet

end SyscallFilter
