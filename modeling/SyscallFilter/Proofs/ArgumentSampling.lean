import SyscallFilter.Proofs.Assembly
import SyscallFilter.Proofs.CheckSequence
import SyscallFilter.Proofs.SampledValues

/-! How far a verification that passed can be relied on.

The calls of a listed number are sampled, and both the rules and the program are step
functions of the arguments. Agreement on the samples therefore carries over to all tuples
of linked values, one argument after the other (`agree_of_linked_below`). It does not carry
over to every tuple: the halves of the policy's constants are not crossed with the program's,
so a piece between two policy constants may have no sample where the program takes a step.
The tuples that have to be looked at in addition are the `Missed` ones. -/
namespace SyscallFilter

open Bpf Sampling

/-! ### Rules are step functions -/

namespace Condition

/-- Compares by order, without a mask. -/
def ordered (condition : Condition) : Bool :=
  match condition.comparison with
  | .maskedEq _ => false
  | _ => true

theorem constants_of_ordered {condition : Condition} (h : condition.ordered) :
    condition.constants = [condition.value &&& condition.width.mask] := by
  obtain ⟨index, width, comparison, value⟩ := condition
  cases comparison with
  | maskedEq mask => cases h
  | _ => rfl

theorem holds_eq_of_alike {condition : Condition} (hordered : condition.ordered) {args args' : Args}
    (h : ∀ hindex : condition.index < 6, Alike condition.constants
      (args[condition.index] &&& condition.width.mask)
      (args'[condition.index] &&& condition.width.mask)) :
    condition.holds args = condition.holds args' := by
  by_cases hindex : condition.index < 6
  · have halike := h hindex
    rw [constants_of_ordered hordered] at halike
    have hvalue := List.mem_singleton_self (condition.value &&& condition.width.mask)
    obtain ⟨index, width, comparison, value⟩ := condition
    simp only [holds, Vector.getElem?_eq_getElem hindex]
    cases comparison with
    | eq => simp only [halike.eq_iff hvalue]
    | ne => simp only [ne_eq, halike.eq_iff hvalue]
    | ge => simp only [halike.ge_iff hvalue]
    | gt => simp only [(halike _ hvalue).2]
    | le => simp only [halike.le_iff hvalue]
    | lt => simp only [(halike _ hvalue).1]
    | maskedEq mask => cases hordered
  · simp [holds, Vector.getElem?_eq_none (Nat.le_of_not_lt hindex)]

theorem lowWord_and_mask (width : Width) (value : UInt64) :
    lowWord (value &&& width.mask) = lowWord value := by
  cases width with
  | dword => simp [lowWord_and, lowWord_mask_dword]
  | qword => rw [and_qword_mask]

/-- Values are alike for a condition if its two words do not tell theirs apart; the high word
counts only if the whole argument is compared. -/
theorem alike_of_words {condition : Condition} (hordered : condition.ordered) {a b : UInt64}
    (hlow : Alike [lowWord condition.value] (lowWord a) (lowWord b))
    (hhigh : condition.width = .qword →
      Alike [highWord condition.value] (highWord a) (highWord b)) :
    Alike condition.constants (a &&& condition.width.mask) (b &&& condition.width.mask) := by
  rw [constants_of_ordered hordered]
  apply alike_of_halves
  · rw [List.map_singleton, lowWord_and_mask, lowWord_and_mask, lowWord_and_mask]
    exact hlow
  · cases hwidth : condition.width with
    | dword =>
      rw [highWord_and, highWord_and, highWord_mask_dword, UInt32.and_zero, UInt32.and_zero]
      exact .refl _ _
    | qword =>
      rw [and_qword_mask, and_qword_mask, and_qword_mask]
      exact hhigh hwidth

end Condition

namespace Chain

variable {chain : Chain}

theorem verdict?_congr {args args' : Args} (h : ∀ rule ∈ chain, ∀ condition ∈ rule.conditions,
      condition.holds args = condition.holds args') :
    chain.verdict? args = chain.verdict? args' := by
  apply findSome?_congr
  intro rule hrule
  have hall : rule.conditions.all (·.holds args) = rule.conditions.all (·.holds args') := by
    rw [Bool.eq_iff_iff, List.all_eq_true, List.all_eq_true]
    exact forall₂_congr fun condition hcondition => by rw [h rule hrule condition hcondition]
  rw [Rule.verdict?, Rule.verdict?, hall]

end Chain

namespace RuleSet

variable {ruleSet : RuleSet} {number : Int} {args args' : Args}

/-- Every condition looks at a whole argument and compares by order. -/
def comparesWhole (ruleSet : RuleSet) : Bool :=
  ruleSet.rules.entries.all fun entry => entry.2.all fun rule =>
    rule.conditions.all fun condition => condition.width = .qword && condition.ordered

/-- The conditions of the rules of a number. -/
def conditions (ruleSet : RuleSet) (number : Int) : List Condition :=
  match ruleSet.rules.get? number with
  | none => []
  | some chain => chain.flatMap Rule.conditions

/-- Those of them that are about the argument of an index. -/
def conditionsOn (ruleSet : RuleSet) (number : Int) (index : Nat) : List Condition :=
  (ruleSet.conditions number).filter (·.index = index)

/-- Every condition compares by order, without a mask. -/
def ordered (ruleSet : RuleSet) : Bool :=
  ruleSet.syscalls.all fun number => (ruleSet.conditions number).all Condition.ordered

/-- No condition tells the values of the argument apart. -/
def ConditionsAlike (ruleSet : RuleSet) (number : Int) (index : Nat) (a b : UInt64) : Prop :=
  ∀ condition ∈ ruleSet.conditionsOn number index,
    Alike condition.constants (a &&& condition.width.mask) (b &&& condition.width.mask)

theorem mem_conditions {condition : Condition} :
    condition ∈ ruleSet.conditions number ↔
      ∃ chain, ruleSet.rules.get? number = some chain ∧ ∃ rule ∈ chain, condition ∈ rule.conditions := by
  unfold conditions
  cases ruleSet.rules.get? number with
  | none => simp
  | some chain => simp [List.mem_flatMap]

theorem mem_conditionsOn {condition : Condition} {index : Nat} :
    condition ∈ ruleSet.conditionsOn number index ↔
      condition ∈ ruleSet.conditions number ∧ condition.index = index := by
  simp [conditionsOn]

theorem constants_eq_flatMap (ruleSet : RuleSet) (number : Int) (index : Nat) :
    ruleSet.constants number index =
      (ruleSet.conditionsOn number index).flatMap Condition.constants := by
  unfold constants conditionsOn conditions
  cases ruleSet.rules.get? number <;> rfl

theorem ordered_iff :
    ruleSet.ordered ↔ ∀ number, ∀ condition ∈ ruleSet.conditions number, condition.ordered := by
  simp only [ordered, List.all_eq_true]
  refine ⟨fun h number condition hcondition => h number ?_ condition hcondition,
    fun h number _ => h number⟩
  obtain ⟨chain, hchain, -⟩ := mem_conditions.1 hcondition
  exact mem_syscalls_iff.2 ⟨chain, hchain⟩

theorem of_comparesWhole (h : ruleSet.comparesWhole) {condition : Condition}
    (hcondition : condition ∈ ruleSet.conditions number) :
    condition.width = .qword ∧ condition.ordered := by
  obtain ⟨chain, hchain, rule, hrule, hmem⟩ := mem_conditions.1 hcondition
  have hentry := List.all_eq_true.1 h _ (Table.mem_entries_iff.2 hchain)
  have hrules := List.all_eq_true.1 hentry rule hrule
  simpa using List.all_eq_true.1 hrules condition hmem

theorem ordered_of_comparesWhole (h : ruleSet.comparesWhole) : ruleSet.ordered :=
  ordered_iff.2 fun _ _ hcondition => (of_comparesWhole h hcondition).2

theorem conditionsAlike_of_alike (h : ruleSet.comparesWhole) {index : Nat} {a b : UInt64}
    (halike : Alike (ruleSet.constants number index) a b) :
    ruleSet.ConditionsAlike number index a b := by
  intro condition hcondition
  obtain ⟨hqword, -⟩ := of_comparesWhole h (mem_conditionsOn.1 hcondition).1
  rw [hqword, and_qword_mask, and_qword_mask]
  refine halike.mono fun value hvalue => ?_
  rw [constants_eq_flatMap]
  exact List.mem_flatMap.2 ⟨condition, hcondition, hvalue⟩

/-- Rules look at arguments through their conditions only. -/
theorem answer_eq_of_conditionsAlike (hordered : ruleSet.ordered)
    (h : ∀ i : Fin 6, ruleSet.ConditionsAlike number i (args.get i) (args'.get i)) :
    ruleSet.answer number args = ruleSet.answer number args' := by
  unfold answer
  cases hchain : ruleSet.rules.get? number with
  | none => rfl
  | some chain =>
    have hverdict : chain.verdict? args = chain.verdict? args' := by
      apply Chain.verdict?_congr
      intro rule hrule condition hcondition
      have hmem : condition ∈ ruleSet.conditions number :=
        mem_conditions.2 ⟨chain, hchain, rule, hrule, hcondition⟩
      apply Condition.holds_eq_of_alike (ordered_iff.1 hordered number condition hmem)
      intro hindex
      exact h ⟨condition.index, hindex⟩ condition (mem_conditionsOn.2 ⟨hmem, rfl⟩)
    simp only [hverdict]

theorem answer_eq_of_alike (hwhole : ruleSet.comparesWhole)
    (h : ∀ i : Fin 6, Alike (ruleSet.constants number i) (args.get i) (args'.get i)) :
    ruleSet.answer number args = ruleSet.answer number args' :=
  answer_eq_of_conditionsAlike (ordered_of_comparesWhole hwhole)
    fun i => conditionsAlike_of_alike hwhole (h i)

end RuleSet

/-! ### Programs are step functions -/

namespace Sampling

section

variable {program : Program} {word arch : UInt32} {args args' : Args}

theorem carries_ofWord (word arch : UInt32) (args : Args) :
    (⟨arch, some word⟩ : Given).Carries (.ofWord word arch args) :=
  Given.carries_number.2 ⟨rfl, rfl⟩

/-- No recorded constant tells the halves of the arguments apart. -/
def Constants.ArgsAlike (constants : Constants) (args args' : Args) : Prop :=
  ∀ i : Fin 6,
    HalvesAlike (constants.get? (.argLow i)) (constants.get? (.argHigh i)) (args.get i) (args'.get i)

theorem getElem?_eq_get (args : Args) {index : Nat} (h : index < 6) :
    args[index]? = some (args.get ⟨index, h⟩) :=
  Vector.getElem?_eq_getElem h

theorem callsAlike_ofWord {constants : Constants} (h : constants.ArgsAlike args args') :
    constants.CallsAlike (.ofWord word arch args) (.ofWord word arch args') := by
  intro field
  cases field with
  | argLow index =>
    simp only [Call.word, Call.ofWord]
    by_cases hindex : index < 6
    · rw [getElem?_eq_get args hindex, getElem?_eq_get args' hindex]
      exact (h ⟨index, hindex⟩).1
    · simp [hindex, Alike.refl]
  | argHigh index =>
    simp only [Call.word, Call.ofWord]
    by_cases hindex : index < 6
    · rw [getElem?_eq_get args hindex, getElem?_eq_get args' hindex]
      exact (h ⟨index, hindex⟩).2
    · simp [hindex, Alike.refl]
  | _ => exact .refl _ _

theorem verdict_ofWord_eq_of_alike {raw : RawProgram} (hload : Program.load raw = .ok program)
    (hcomparing : program.comparing)
    (h : (Constants.ofProgram program ⟨arch, some word⟩).ArgsAlike args args') (limit : Nat) :
    program.verdict (.ofWord word arch args) limit =
      program.verdict (.ofWord word arch args') limit := by
  have hloaded := load_eq_ok_iff.1 hload
  have hcarries := carries_ofWord word arch
  exact verdict_eq_of_alike hloaded.forward hloaded.length_pos hcomparing (hcarries args)
    (hcarries args') (callsAlike_ofWord h) limit

/-! ### From samples to all tuples -/

section

variable {α : Type} {samples : Fin 6 → List UInt64}
  {policyAlike programAlike : Fin 6 → UInt64 → UInt64 → Prop} {expected actual : Args → α}

theorem get_set_self (args : Args) (i : Fin 6) (x : UInt64) :
    (args.set i x i.isLt).get i = x :=
  Vector.getElem_set_self i.isLt

theorem get_set_of_ne (args : Args) {i j : Fin 6} (h : j ≠ i) (x : UInt64) :
    (args.set i x i.isLt).get j = args.get j :=
  Vector.getElem_set_ne i.isLt j.isLt fun heq => h (Fin.ext heq.symm)

theorem get_ofFn {β : Type} (f : Fin 6 → β) (i : Fin 6) : (Vector.ofFn f).get i = f i :=
  Vector.getElem_ofFn i.isLt

/-- Values that are found for each argument make a tuple. -/
theorem exists_args {wanted : Fin 6 → UInt64 → Prop} (h : ∀ i, ∃ x, wanted i x) :
    ∃ args : Args, ∀ i, wanted i (args.get i) := by
  choose value hvalue using h
  refine ⟨Vector.ofFn value, fun i => ?_⟩
  rw [get_ofFn]
  exact hvalue i

theorem forall_get_set {relation : Fin 6 → UInt64 → UInt64 → Prop}
    (hrefl : ∀ i x, relation i x x) (args : Args) (i : Fin 6) {x y : UInt64}
    (h : relation i x y) (j : Fin 6) : relation j ((args.set i x i.isLt).get j) ((args.set i y i.isLt).get j) := by
  by_cases hj : j = i
  · subst hj
    rw [get_set_self, get_set_self]
    exact h
  · rw [get_set_of_ne args hj, get_set_of_ne args hj]
    exact hrefl j _

/-- Agreement on samples is carried over from one argument to the next: those before `k` are
arbitrary linked values already, those from `k` on are still samples. -/
theorem agree_of_linked_below (hpolicyRefl : ∀ i x, policyAlike i x x)
    (hprogramRefl : ∀ i x, programAlike i x x)
    (hexpected : ∀ a b : Args, (∀ i, policyAlike i (a.get i) (b.get i)) → expected a = expected b)
    (hactual : ∀ a b : Args, (∀ i, programAlike i (a.get i) (b.get i)) → actual a = actual b)
    (hsamples : ∀ a : Args, (∀ i : Fin 6, a.get i ∈ samples i) → expected a = actual a)
    (k : Nat) (hk : k ≤ 6) (args : Args)
    (hlinked : ∀ i : Fin 6, i.val < k →
      Linked (samples i) (policyAlike i) (programAlike i) (args.get i) (args.get i))
    (hsampled : ∀ i : Fin 6, k ≤ i.val → args.get i ∈ samples i) : expected args = actual args := by
  induction k generalizing args with
  | zero => exact hsamples args fun i => hsampled i (Nat.zero_le _)
  | succ k ih =>
    let i : Fin 6 := ⟨k, hk⟩
    let wanted : UInt64 → Prop := fun x => expected (args.set i x i.isLt) = expected args
    let done : UInt64 → Prop := fun x => actual (args.set i x i.isLt) = expected args
    have hself : args.set i (args.get i) i.isLt = args := Vector.set_getElem_self i.isLt
    have hagree : wanted (args.get i) ↔ done (args.get i) := by
      refine (hlinked i (Nat.lt_succ_self k)).agree ?_ ?_ ?_
      · intro x y hxy
        show expected _ = _ ↔ expected _ = _
        rw [hexpected _ _ (forall_get_set hpolicyRefl args i hxy)]
      · intro x y hxy
        show actual _ = _ ↔ actual _ = _
        rw [hactual _ _ (forall_get_set hprogramRefl args i hxy)]
      · intro s hs
        have hset : expected (args.set i s i.isLt) = actual (args.set i s i.isLt) := by
          apply ih (by omega)
          · intro j hj
            rw [get_set_of_ne args (Fin.ne_of_lt hj)]
            exact hlinked j (by omega)
          · intro j hj
            by_cases hji : j = i
            · subst hji
              rw [get_set_self]
              exact hs
            · rw [get_set_of_ne args hji]
              exact hsampled j (Nat.lt_of_le_of_ne hj fun heq => hji (Fin.ext heq.symm))
        show expected _ = _ ↔ actual _ = _
        rw [hset]
    have hdone : done (args.get i) := hagree.1 (congrArg expected hself)
    exact ((congrArg actual hself).symm.trans hdone).symm

end

end

theorem mem_callCandidates {constants : Nat → List UInt64} {scanned : Constants}
    {args : Args} :
    args ∈ tuples (callCandidates constants scanned) ↔ ∀ i : Fin 6, args.get i ∈
      candidates (constants i) (scanned.get? (.argLow i)) (scanned.get? (.argHigh i)) := by
  rw [mem_tuples]
  apply forall_congr'
  intro i
  rw [callCandidates, get_ofFn, List.mem_toArray]

/-- Every tuple can be moved to samples that the program does not tell apart from it. -/
theorem exists_mem_tuples_argsAlike (constants : Nat → List UInt64) (scanned : Constants)
    (args : Args) :
    ∃ args' ∈ tuples (callCandidates constants scanned), scanned.ArgsAlike args args' := by
  obtain ⟨sample, hsample⟩ := exists_args fun i => exists_mem_candidates_halvesAlike (constants i)
    (scanned.get? (.argLow i)) (scanned.get? (.argHigh i)) (args.get i)
  exact ⟨sample, mem_callCandidates.2 fun i => (hsample i).1, fun i => (hsample i).2⟩

/-- The samples decide every argument. -/
def AllSettled (constants : Nat → List UInt64) (scanned : Constants) (args : Args) : Prop :=
  ∀ i : Fin 6,
    Settled (constants i) (scanned.get? (.argLow i)) (scanned.get? (.argHigh i)) (args.get i)

/-- The tuple is one of crossings, and the samples do not decide all of them. -/
def Missed (constants : Nat → List UInt64) (scanned : Constants) (args : Args) : Prop :=
  (∀ i : Fin 6, args.get i ∈
    crossings (constants i) (scanned.get? (.argLow i)) (scanned.get? (.argHigh i))) ∧
  ¬AllSettled constants scanned args

/-- Every tuple can be moved to crossings that nothing tells apart from it. -/
theorem exists_crossings (constants : Nat → List UInt64) (scanned : Constants) (args : Args) :
    ∃ args' : Args, (∀ i : Fin 6, args'.get i ∈
        crossings (constants i) (scanned.get? (.argLow i)) (scanned.get? (.argHigh i))) ∧
      (∀ i : Fin 6, Alike (constants i) (args.get i) (args'.get i)) ∧ scanned.ArgsAlike args args' := by
  obtain ⟨args', hpiece⟩ := exists_args fun i => exists_mem_crossings (constants i)
    (scanned.get? (.argLow i)) (scanned.get? (.argHigh i)) (args.get i)
  exact ⟨args', fun i => (hpiece i).1, fun i => (hpiece i).2.1, fun i => (hpiece i).2.2⟩

end Sampling

/-! ### What a verification that passed says -/

namespace RuleSet

variable {ruleSet : RuleSet} {raw : RawProgram} {program : Program} {settings : Settings}
  {report : Verification.Report} {number : Int} {args args' : Args}

/-- The program treats the call of a listed number as the rules say. -/
def Agrees (ruleSet : RuleSet) (program : Program) (settings : Settings) (number : Int)
    (args : Args) : Prop :=
  ∃ action, ruleSet.evaluate number args = .ok action ∧
    program.verdict (.ofWord (UInt32.ofInt number) ruleSet.architecture.audit args)
      settings.instructionLimit = .ok action

/-- What the program compares the words of the calls of a number with. -/
def scanned (ruleSet : RuleSet) (program : Program) (number : Int) : Constants :=
  .ofProgram program ⟨ruleSet.architecture.audit, some (UInt32.ofInt number)⟩

theorem agrees_iff (hnumber : number ∈ ruleSet.syscalls) :
    ruleSet.Agrees program settings number args ↔
      Except.ok (ruleSet.answer number args) =
        program.verdict (.ofWord (UInt32.ofInt number) ruleSet.architecture.audit args)
          settings.instructionLimit := by
  rw [Agrees, evaluate_eq_answer hnumber]
  constructor
  · rintro ⟨action, hanswer, hverdict⟩
    rw [hverdict, Except.ok.inj hanswer]
  · intro h
    exact ⟨_, rfl, h.symm⟩

/-- All tuples of samples were tried if they are within the limit. -/
theorem agrees_of_sampled (hload : Program.load raw = .ok program)
    (hverify : verify raw ruleSet.policy settings = .ok report)
    (hnumber : number ∈ ruleSet.syscalls)
    (hsize : (sampledCases program ruleSet.policy settings (ruleSet.constants number)
      (UInt32.ofInt number)).size ≤ settings.caseLimit)
    (hargs : args ∈ tuples (callCandidates (ruleSet.constants number)
      (ruleSet.scanned program number))) : ruleSet.Agrees program settings number args := by
  obtain ⟨-, hpass, -⟩ := (verify_eq_ok_iff_of_load hload).1 hverify
  have hsampled : args ∈ sampledTuples program ruleSet.policy settings (ruleSet.constants number)
      (UInt32.ofInt number) := mem_sampledTuples_of_size_le hsize hargs
  refine Check.failure?_call_eq_none_iff.1 (hpass _ (mem_checks.2 (.inl ⟨number, hnumber, ?_⟩)))
  exact List.mem_cons_of_mem _ (List.mem_map.2 ⟨args, hsampled, rfl⟩)

/-- There is always a tuple to try. -/
theorem size_sampledCases_pos (program : Program) (ruleSet : RuleSet) (settings : Settings)
    (number : Int) : 0 < (sampledCases program ruleSet.policy settings (ruleSet.constants number)
      (UInt32.ofInt number)).size := by
  rw [← Cases.length_tuples]
  apply List.length_pos_of_mem (a := Vector.ofFn fun _ => 0)
  refine mem_callCandidates.2 fun i => ?_
  rw [get_ofFn]
  exact mem_candidates.2 (.inr (.inr (.inl rfl)))

/-- Neither the rules nor the program tell tuples of one piece apart. -/
theorem agrees_congr (hload : Program.load raw = .ok program) (hcomparing : program.comparing)
    (hwhole : ruleSet.comparesWhole) (hnumber : number ∈ ruleSet.syscalls)
    (hpolicy : ∀ i : Fin 6, Alike (ruleSet.constants number i) (args.get i) (args'.get i))
    (hprogram : (ruleSet.scanned program number).ArgsAlike args args') :
    ruleSet.Agrees program settings number args ↔ ruleSet.Agrees program settings number args' := by
  rw [agrees_iff hnumber, agrees_iff hnumber, answer_eq_of_alike hwhole hpolicy,
    verdict_ofWord_eq_of_alike hload hcomparing hprogram]

/-- The samples of an argument of a number link what the rules say about the value to what the
program does on it. -/
def Decided (ruleSet : RuleSet) (program : Program) (number : Int) (index : Nat) (x : UInt64) :
    Prop :=
  let low := (ruleSet.scanned program number).get? (.argLow index)
  let high := (ruleSet.scanned program number).get? (.argHigh index)
  Linked (candidates (ruleSet.constants number index) low high)
    (ruleSet.ConditionsAlike number index) (HalvesAlike low high) x x

/-- A passed verification carries over to all tuples of decided values. -/
theorem agrees_of_decided (hload : Program.load raw = .ok program)
    (hcomparing : program.comparing) (hordered : ruleSet.ordered)
    (hverify : verify raw ruleSet.policy settings = .ok report)
    (hnumber : number ∈ ruleSet.syscalls)
    (hsize : (sampledCases program ruleSet.policy settings (ruleSet.constants number)
      (UInt32.ofInt number)).size ≤ settings.caseLimit)
    (hdecided : ∀ i : Fin 6, ruleSet.Decided program number i (args.get i)) :
    ruleSet.Agrees program settings number args := by
  let expected : Args → Except Fault Action := fun a => .ok (ruleSet.answer number a)
  let actual : Args → Except Fault Action := fun a =>
    program.verdict (.ofWord (UInt32.ofInt number) ruleSet.architecture.audit a)
      settings.instructionLimit
  rw [agrees_iff hnumber]
  show expected args = actual args
  refine agree_of_linked_below (fun _ _ _ _ => .refl _ _) (fun _ _ => ⟨.refl _ _, .refl _ _⟩)
    ?_ ?_ ?_ 6 (Nat.le_refl 6) args (fun i _ => hdecided i) (fun i hi => by omega)
  · intro a b h
    exact congrArg Except.ok (answer_eq_of_conditionsAlike hordered h)
  · intro a b h
    exact verdict_ofWord_eq_of_alike hload hcomparing h _
  · intro a ha
    apply (agrees_iff hnumber).1
    exact agrees_of_sampled hload hverify hnumber hsize (mem_callCandidates.2 ha)

/-- Tuples of settled values are decided by the samples. -/
theorem agrees_of_settled (hload : Program.load raw = .ok program)
    (hcomparing : program.comparing) (hwhole : ruleSet.comparesWhole)
    (hverify : verify raw ruleSet.policy settings = .ok report)
    (hnumber : number ∈ ruleSet.syscalls)
    (hsize : (sampledCases program ruleSet.policy settings (ruleSet.constants number)
      (UInt32.ofInt number)).size ≤ settings.caseLimit)
    (hsettled : AllSettled (ruleSet.constants number) (ruleSet.scanned program number) args) :
    ruleSet.Agrees program settings number args := by
  refine agrees_of_decided hload hcomparing (ordered_of_comparesWhole hwhole) hverify hnumber hsize ?_
  intro i
  exact (hsettled i).mono fun a b => conditionsAlike_of_alike hwhole

/-- **What sampling settles and what it misses.** If a verification passed, the program is
right about every tuple of settled values. It is right about all tuples of the number exactly
if it is also right about the missed ones, of which there are finitely many. -/
theorem agrees_iff_agrees_missed (hload : Program.load raw = .ok program)
    (hcomparing : program.comparing) (hwhole : ruleSet.comparesWhole)
    (hverify : verify raw ruleSet.policy settings = .ok report)
    (hnumber : number ∈ ruleSet.syscalls)
    (hsize : (sampledCases program ruleSet.policy settings (ruleSet.constants number)
      (UInt32.ofInt number)).size ≤ settings.caseLimit) :
    (∀ args, AllSettled (ruleSet.constants number) (ruleSet.scanned program number) args →
      ruleSet.Agrees program settings number args) ∧
    ((∀ args, ruleSet.Agrees program settings number args) ↔
      ∀ args, Missed (ruleSet.constants number) (ruleSet.scanned program number) args →
        ruleSet.Agrees program settings number args) := by
  have hsettled := fun args => @agrees_of_settled ruleSet raw program settings report number args
    hload hcomparing hwhole hverify hnumber hsize
  refine ⟨hsettled, fun h args _ => h args, ?_⟩
  intro hmissed args
  obtain ⟨args', hcrossings, hpolicy, hprogram⟩ := exists_crossings (ruleSet.constants number)
    (ruleSet.scanned program number) args
  rw [agrees_congr hload hcomparing hwhole hnumber hpolicy hprogram]
  by_cases hall : AllSettled (ruleSet.constants number) (ruleSet.scanned program number) args'
  · exact hsettled args' hall
  · exact hmissed args' ⟨hcrossings, hall⟩

/-- Turns away 5, with no bit of the high half set or with all of them. -/
def extremeFives : RuleSet where
  rules := .ofList [
    (0, [⟨[⟨0, .qword, .eq, 5⟩], .errno 1⟩, ⟨[⟨0, .qword, .eq, 0xffffffff00000005⟩], .errno 1⟩])]
  defaultAction := .allow
  architecture := .x86_64
  names := .empty
  valid := by decide

/-- Turns away every argument whose low half is 5. -/
def lowFives : Program where
  code := #[.load .nr, .branch .eq 0 2 5, .load (.argLow 0), .branch .eq 5 4 5,
    .ret (Action.errno 1).code, .ret Action.allow.code]

def lowFivesRaw : RawProgram :=
  [loadWord .nr, compareWord .eq 0 0 3, loadWord (.argLow 0), compareWord .eq 5 0 1,
    returnAction (.errno 1), returnAction .allow]

def fewProbes : Settings := { probeLimit := 0, checkForeign := false }

theorem verify_lowFivesRaw :
    verify lowFivesRaw extremeFives.policy fewProbes = .ok ⟨1, 320, 4, 0, []⟩ := by
  decide +kernel

theorem size_lowFives :
    (sampledCases lowFives extremeFives.policy fewProbes (extremeFives.constants 0)
      (UInt32.ofInt 0)).size ≤ fewProbes.caseLimit := by
  decide +kernel

theorem not_agrees_lowFives :
    ¬extremeFives.Agrees lowFives fewProbes 0 #v[0x100000005, 0, 0, 0, 0, 0] := by
  rw [agrees_iff (by decide)]
  decide

/-- Passing a verification does not make a program right about every tuple: the high half is
only tried at the constants of the program, and a program that ignores it has none. -/
theorem lowFives_verified_and_wrong :
    Program.load lowFivesRaw = .ok lowFives ∧ lowFives.comparing ∧ extremeFives.comparesWhole ∧
      verify lowFivesRaw extremeFives.policy fewProbes = .ok ⟨1, 320, 4, 0, []⟩ ∧
      0 ∈ extremeFives.syscalls ∧
      (sampledCases lowFives extremeFives.policy fewProbes (extremeFives.constants 0)
        (UInt32.ofInt 0)).size ≤ fewProbes.caseLimit ∧
      ¬extremeFives.Agrees lowFives fewProbes 0 #v[0x100000005, 0, 0, 0, 0, 0] :=
  ⟨by decide, by decide, by decide, verify_lowFivesRaw, by decide, size_lowFives,
    not_agrees_lowFives⟩

/-- On the samples, being one of two values is the same as having their low half. -/
theorem not_settled_five :
    ¬Settled [5, 0xffffffff00000005] (some [5]) none 0x100000005 := by
  rw [settled_iff]
  intro h
  have hfive := (h (fun x => x = 5 ∨ x = 0xffffffff00000005) (fun x => lowWord x = 5) ?_ ?_ ?_).2 rfl
  · rcases hfive with hfive | hfive <;> exact absurd hfive (by decide)
  · intro a b hab
    rw [hab.eq_iff (c := 5) (by decide), hab.eq_iff (c := 0xffffffff00000005) (by decide)]
  · intro a b hab
    exact hab.1.eq_iff (c := 5) (by decide)
  · have hall : (candidates [5, 0xffffffff00000005] (some [5]) none).all fun s =>
        decide (s = 5 ∨ s = 0xffffffff00000005) == decide (lowWord s = 5) := by decide
    intro s hs
    exact decide_eq_decide.1 (beq_iff_eq.1 (List.all_eq_true.1 hall s hs))

theorem missed_lowFives :
    Missed (extremeFives.constants 0) (extremeFives.scanned lowFives 0)
        #v[0x100000005, 0, 0, 0, 0, 0] ∧
      ¬∀ args, Missed (extremeFives.constants 0) (extremeFives.scanned lowFives 0) args →
        extremeFives.Agrees lowFives fewProbes 0 args := by
  have hload : Program.load lowFivesRaw = .ok lowFives := by decide
  have hexact := agrees_iff_agrees_missed hload (by decide) (by decide) verify_lowFivesRaw
    (by decide) size_lowFives
  refine ⟨⟨by decide +kernel, ?_⟩, ?_⟩
  · intro hsettled
    exact not_settled_five (hsettled 0)
  · intro hmissed
    exact not_agrees_lowFives (hexact.2.2 hmissed _)

end RuleSet

end SyscallFilter
