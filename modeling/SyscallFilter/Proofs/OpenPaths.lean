import SyscallFilter.Proofs.ArgumentSampling
import SyscallFilter.Proofs.AssembledChecks

/-! What the exploration of an assembled program comes to.

The words of arguments are open, so both sides of a branch on one are explored, whatever the
constant is. A path of such steps (`OpenPath`) can therefore be read off the code without its
constants. In the code of a rule every condition lies on one: a condition that holds leads to
the next one, and one that fails leads behind the rule. `Chain.comparedFrom_rules` collects
the comparisons that are met from the first rule of a number on, and
`Position.exists_explored` says that the exploration comes to that rule. -/
namespace SyscallFilter

open Bpf Sampling

/-! ### Open steps -/

/-- A word of an argument that a call has. -/
def Field.IsArgument (field : Field) : Prop :=
  ∃ index < 6, field = .argLow index ∨ field = .argHigh index

/-- A step that is explored whatever the constants of the program are. -/
inductive OpenStep (raw : RawProgram) : Point → Point → Prop
  | load {pc : Nat} {acc : Knowledge} {field : Field} (hfield : field.IsArgument)
      (h : raw[pc]? = some (loadWord field)) : OpenStep raw ⟨pc, acc⟩ ⟨pc + 1, .word field⟩
  | jumps {pc target : Nat} {acc : Knowledge} (h : Relays raw pc target) :
      OpenStep raw ⟨pc, acc⟩ ⟨target, acc⟩
  | branch {pc target : Nat} {field : Field} {test : Test} {k : UInt32} {jt jf : UInt8}
      (h : raw[pc]? = some (.branch test k jt jf))
      (ht : target = pc + 1 + jt.toNat ∨ target = pc + 1 + jf.toNat) :
      OpenStep raw ⟨pc, .word field⟩ ⟨target, .word field⟩

def OpenPath (raw : RawProgram) : Point → Point → Prop :=
  Relation.ReflTransGen (OpenStep raw)

/-- On some path from the point the word is compared with the constant. -/
def Compares (raw : RawProgram) (p : Point) (field : Field) (k : UInt32) : Prop :=
  ∃ pc test jt jf, OpenPath raw p ⟨pc, .word field⟩ ∧ raw[pc]? = some (.branch test k jt jf)

section

variable {raw : RawProgram} {program : Program} {given : Given} {p q r : Point} {field : Field}
  {k : UInt32}

theorem OpenStep.path (h : OpenStep raw p q) : OpenPath raw p q :=
  Relation.ReflTransGen.single h

theorem OpenPath.trans (h : OpenPath raw p q) (h' : OpenPath raw q r) : OpenPath raw p r :=
  Relation.ReflTransGen.trans h h'

theorem Compares.of_path (h : OpenPath raw p q) (hc : Compares raw q field k) :
    Compares raw p field k := by
  obtain ⟨pc, test, jt, jf, hpath, hget⟩ := hc
  exact ⟨pc, test, jt, jf, h.trans hpath, hget⟩

theorem Field.IsArgument.mem_all (h : field.IsArgument) : field ∈ Field.all := by
  obtain ⟨index, hindex, rfl | rfl⟩ := h
  · exact Condition.argLow_mem_all hindex
  · exact Condition.argHigh_mem_all hindex

theorem Field.IsArgument.load_eq (h : field.IsArgument) (given : Given) :
    given.load field = .word field := by
  obtain ⟨index, -, rfl | rfl⟩ := h
  · rfl
  · rfl

theorem Relays.mem_explored {pc target : Nat} {acc : Knowledge} (hr : Relays raw pc target)
    (h : Loaded raw program) (hp : ⟨pc, acc⟩ ∈ explored program given) :
    ⟨target, acc⟩ ∈ explored program given := by
  induction hr with
  | refl => exact hp
  | tail _ hjump ih =>
    obtain ⟨distance, hd, hget, rfl⟩ := hjump
    exact mem_explored_of_mem_successors h.forward ih (h.code_jumpBy hd hget)
      (List.mem_singleton_self _)

theorem OpenStep.mem_explored (hs : OpenStep raw p q) (h : Loaded raw program)
    (hp : p ∈ explored program given) : q ∈ explored program given := by
  cases hs with
  | load hfield hget =>
    apply mem_explored_of_mem_successors h.forward hp (h.code_loadWord hfield.mem_all hget)
    simp [Point.successors, hfield.load_eq]
  | jumps hr => exact hr.mem_explored h hp
  | branch hget ht =>
    apply mem_explored_of_mem_successors h.forward hp (h.code_branch hget)
    rcases ht with rfl | rfl
    · exact List.mem_cons_self ..
    · exact List.mem_cons_of_mem _ (List.mem_cons_self ..)

theorem OpenPath.mem_explored (hpath : OpenPath raw p q) (h : Loaded raw program)
    (hp : p ∈ explored program given) : q ∈ explored program given := by
  induction hpath with
  | refl => exact hp
  | tail _ hstep ih => exact hstep.mem_explored h ih

/-- What is compared from an explored point on is recorded. -/
theorem Compares.mem_constants (hc : Compares raw p field k) (h : Loaded raw program)
    (hp : p ∈ explored program given) : k ∈ (Constants.ofProgram program given).of field := by
  obtain ⟨pc, test, jt, jf, hpath, hget⟩ := hc
  exact mem_constants_of_mem_explored (hpath.mem_explored h hp) (h.code_branch hget) rfl

end

/-! ### Conditions -/

namespace Condition

variable {raw : RawProgram} {pc target distance : Nat} {condition : Condition}

/-- From the point on, the words of the argument are compared with those of the value; the high
one if the whole argument is looked at. -/
def ComparedFrom (condition : Condition) (raw : RawProgram) (p : Point) : Prop :=
  Compares raw p (.argLow condition.index) (lowWord condition.value) ∧
    (condition.width = .qword →
      Compares raw p (.argHigh condition.index) (highWord condition.value))

theorem ComparedFrom.of_path {p q : Point} (h : OpenPath raw p q)
    (hc : condition.ComparedFrom raw q) : condition.ComparedFrom raw p :=
  ⟨hc.1.of_path h, fun hqword => (hc.2 hqword).of_path h⟩

theorem openStep_compareWord {field : Field} {test : Test} {k : UInt32} {jt jf : Nat}
    {rest : List RawInstruction} (hjt : jt < 0x100) (hjf : jf < 0x100)
    (hat : CodeAt raw pc (compareWord test k jt jf :: rest))
    (ht : target = pc + 1 + jt ∨ target = pc + 1 + jf) :
    OpenStep raw ⟨pc, .word field⟩ ⟨target, .word field⟩ := by
  refine .branch hat.cons.1 ?_
  rw [UInt8.toNat_ofNat_of_lt' hjt, UInt8.toNat_ofNat_of_lt' hjf]
  exact ht

/-- A word that is loaded and compared goes both ways. -/
theorem openPath_compare {field : Field} {test : Test} {k : UInt32} {jt jf : Nat}
    {rest : List RawInstruction} (hfield : field.IsArgument) (hjt : jt < 0x100) (hjf : jf < 0x100)
    (hat : CodeAt raw pc (loadWord field :: compareWord test k jt jf :: rest)) (acc : Knowledge) :
    Compares raw ⟨pc, acc⟩ field k ∧
      ∀ target, target = pc + 2 + jt ∨ target = pc + 2 + jf →
        OpenPath raw ⟨pc, acc⟩ ⟨target, .word field⟩ := by
  have hload : OpenPath raw ⟨pc, acc⟩ ⟨pc + 1, .word field⟩ :=
    (OpenStep.load hfield hat.cons.1).path
  refine ⟨⟨_, _, _, _, hload, hat.cons.2.cons.1⟩, fun target ht => hload.trans ?_⟩
  exact (openStep_compareWord hjt hjf hat.cons.2 ht).path

theorem exists_lowCode_eq (hordered : condition.ordered) (distance : Nat) :
    ∃ test jt jf, (jt = 0 ∧ jf = distance ∨ jt = distance ∧ jf = 0) ∧
      condition.lowCode distance = [loadWord (.argLow condition.index),
        compareWord test (lowWord condition.value) jt jf] := by
  unfold lowCode
  cases hc : condition.comparison with
  | eq => exact ⟨.eq, 0, distance, .inl ⟨rfl, rfl⟩, rfl⟩
  | ne => exact ⟨.eq, distance, 0, .inr ⟨rfl, rfl⟩, rfl⟩
  | ge => exact ⟨.ge, 0, distance, .inl ⟨rfl, rfl⟩, rfl⟩
  | gt => exact ⟨.gt, 0, distance, .inl ⟨rfl, rfl⟩, rfl⟩
  | le => exact ⟨.gt, distance, 0, .inr ⟨rfl, rfl⟩, rfl⟩
  | lt => exact ⟨.ge, distance, 0, .inr ⟨rfl, rfl⟩, rfl⟩
  | maskedEq mask => simp [ordered, hc] at hordered

theorem openPath_lowCode (hordered : condition.ordered) (hindex : condition.index < 6)
    (hdistance : distance < 0x100) (hat : CodeAt raw pc (condition.lowCode distance))
    (acc : Knowledge) :
    Compares raw ⟨pc, acc⟩ (.argLow condition.index) (lowWord condition.value) ∧
      ∀ target, target = pc + (condition.lowCode distance).length ∨
          target = pc + (condition.lowCode distance).length + distance →
        OpenPath raw ⟨pc, acc⟩ ⟨target, .word (.argLow condition.index)⟩ := by
  have hfield : (Field.argLow condition.index).IsArgument := ⟨_, hindex, .inl rfl⟩
  obtain ⟨test, jt, jf, hjumps, hcode⟩ := exists_lowCode_eq hordered distance
  rw [hcode] at hat ⊢
  have hcompare := openPath_compare hfield (by omega) (by omega) hat acc
  refine ⟨hcompare.1, fun target ht => hcompare.2 target ?_⟩
  rw [List.length_cons, List.length_singleton] at ht
  omega

/-- A high word that does not settle the condition leads on to the low word. -/
theorem openPath_highCode (hordered : condition.ordered) (hindex : condition.index < 6)
    (hdistance : distance + 3 < 0x100) (hat : CodeAt raw pc (condition.highCode distance))
    (acc : Knowledge) :
    Compares raw ⟨pc, acc⟩ (.argHigh condition.index) (highWord condition.value) ∧
      OpenPath raw ⟨pc, acc⟩
        ⟨pc + (condition.highCode distance).length, .word (.argHigh condition.index)⟩ := by
  have hfield : (Field.argHigh condition.index).IsArgument := ⟨_, hindex, .inr rfl⟩
  unfold highCode at hat ⊢
  cases hc : condition.comparison <;> simp only [hc] at hat ⊢
  case maskedEq mask => simp [ordered, hc] at hordered
  case eq | ne =>
    have hcompare := openPath_compare hfield (by omega) (by omega) hat acc
    exact ⟨hcompare.1, hcompare.2 _ (.inl rfl)⟩
  case ge | gt | le | lt =>
    have hcompare := openPath_compare hfield (by omega) (by omega) hat acc
    refine ⟨hcompare.1, (hcompare.2 (pc + 2) (.inr rfl)).trans ?_⟩
    exact (openStep_compareWord (by omega) (by omega) hat.cons.2.cons.2 (.inl rfl)).path

/-- The code of a condition makes its comparisons, and is left both ways. -/
theorem openPath_code (hordered : condition.ordered) (hindex : condition.index < 6)
    (hdistance : distance + 3 < 0x100) (hat : CodeAt raw pc (condition.code distance))
    (acc : Knowledge) :
    condition.ComparedFrom raw ⟨pc, acc⟩ ∧
      ∀ target, target = pc + (condition.code distance).length ∨
          target = pc + (condition.code distance).length + distance →
        ∃ acc', OpenPath raw ⟨pc, acc⟩ ⟨target, acc'⟩ := by
  unfold code at hat ⊢
  cases hw : condition.width <;> simp only [hw] at hat ⊢
  case dword =>
    have hlow := openPath_lowCode hordered hindex (by omega) hat acc
    refine ⟨⟨hlow.1, fun hqword => ?_⟩, fun target ht => ⟨_, hlow.2 target ht⟩⟩
    rw [hw] at hqword
    cases hqword
  case qword =>
    obtain ⟨hatHigh, hatLow⟩ := hat.append
    have hhigh := openPath_highCode hordered hindex hdistance hatHigh acc
    have hlow := openPath_lowCode hordered hindex (by omega) hatLow
      (.word (.argHigh condition.index))
    refine ⟨⟨hlow.1.of_path hhigh.2, fun _ => hhigh.1⟩, fun target ht => ?_⟩
    rw [List.length_append] at ht
    exact ⟨_, hhigh.2.trans (hlow.2 target (by omega))⟩

end Condition

/-! ### Rules -/

/-- Behind a relay, if there is one, stands what it was put in front of. -/
theorem RuleTail.exists_relays_code {raw : RawProgram} {pc : Nat} {tail : RuleTail}
    (hat : CodeAt raw pc tail.relayed.code) : ∃ start, CodeAt raw start tail.code ∧
      Relays raw pc start ∧ start + tail.code.length = pc + tail.relayed.code.length := by
  unfold relayed at hat ⊢
  split at hat
  · next hshort =>
    rw [if_pos hshort]
    exact ⟨pc, hat, .refl raw pc, rfl⟩
  · next hlong =>
    rw [if_neg hlong]
    obtain ⟨hrelay, hrest⟩ := hat.append
    refine ⟨pc + 3, hrest, relays_jumpBy (by omega) hrelay (by omega), ?_⟩
    simp only [List.length_append, List.length_cons, List.length_nil]
    omega

namespace Rule

variable {raw : RawProgram} {rule : Rule} {pc : Nat}

/-- All conditions of a rule are met, and one that fails leads behind the rule. -/
theorem openPath_tail (hordered : ∀ c ∈ rule.conditions, c.ordered)
    (hindex : ∀ c ∈ rule.conditions, c.index < 6) (hat : CodeAt raw pc rule.tail.code)
    (acc : Knowledge) :
    (∀ c ∈ rule.conditions, c.ComparedFrom raw ⟨pc, acc⟩) ∧
      (rule.conditions ≠ [] →
        ∃ acc', OpenPath raw ⟨pc, acc⟩ ⟨pc + rule.tail.code.length, acc'⟩) := by
  obtain ⟨conditions, action⟩ := rule
  induction conditions generalizing pc acc with
  | nil => simp
  | cons condition rest ih =>
    obtain ⟨hc, hrest⟩ := List.forall_mem_cons.1 hordered
    obtain ⟨hci, hresti⟩ := List.forall_mem_cons.1 hindex
    let tail : RuleTail := Rule.tail ⟨rest, action⟩
    have hbounded : tail.Bounded := bounded_tail hresti
    have hlands : tail.Lands raw := lands_tail raw hresti
    have hreach := tail.distance_relayed_le
    obtain ⟨hcode, htail⟩ :
        CodeAt raw pc (condition.code tail.relayed.distance) ∧ CodeAt raw _ tail.relayed.code :=
      CodeAt.append hat
    obtain ⟨hcompared, hexits⟩ := Condition.openPath_code hc hci (by omega) hcode acc
    obtain ⟨start, hstart, hrelays, hlength⟩ := RuleTail.exists_relays_code htail
    constructor
    · intro c hmem
      rcases List.mem_cons.1 hmem with rfl | hmem
      · exact hcompared
      · obtain ⟨acc', hpath⟩ := hexits _ (.inl rfl)
        have hrelayed := hpath.trans (OpenStep.jumps hrelays).path
        exact ((ih acc' hrest hresti hstart).1 c hmem).of_path hrelayed
    · intro _
      obtain ⟨acc', hpath⟩ := hexits _ (.inr rfl)
      have hlanded := (hlands.relayed hbounded).lands _ _ htail rfl
      refine ⟨acc', ?_⟩
      have hexit : pc + (Rule.tail ⟨condition :: rest, action⟩).code.length =
          pc + (condition.code tail.relayed.distance).length + tail.relayed.code.length := by
        rw [Nat.add_assoc, ← List.length_append]
        rfl
      rw [hexit]
      exact hpath.trans (OpenStep.jumps hlanded).path

theorem openPath_code (hordered : ∀ c ∈ rule.conditions, c.ordered)
    (hindex : ∀ c ∈ rule.conditions, c.index < 6) (hat : CodeAt raw pc rule.code)
    (acc : Knowledge) :
    (∀ c ∈ rule.conditions, c.ComparedFrom raw ⟨pc, acc⟩) ∧
      (rule.conditions ≠ [] → ∃ acc', OpenPath raw ⟨pc, acc⟩ ⟨pc + rule.code.length, acc'⟩) := by
  obtain ⟨hentry, htail⟩ := hat.append
  have hjump : Relays raw pc (pc + 2) := relays_jumpBy (by omega) hentry (by omega)
  have henter : OpenPath raw ⟨pc, acc⟩ ⟨pc + 2, acc⟩ := (OpenStep.jumps hjump).path
  obtain ⟨hcompared, hexit⟩ := openPath_tail hordered hindex htail acc
  refine ⟨fun c hc => (hcompared c hc).of_path henter, fun hne => ?_⟩
  obtain ⟨acc', hpath⟩ := hexit hne
  have hlength : pc + rule.code.length = pc + 2 + rule.tail.code.length := by
    rw [length_code]
    omega
  rw [hlength]
  exact ⟨acc', henter.trans hpath⟩

end Rule

/-! ### Chains -/

namespace Chain

/-- No rule in front of another one applies to everything. -/
def Alternates (chain : Chain) : Prop :=
  1 < chain.length → ∀ rule ∈ chain, rule.conditions ≠ []

theorem alternates_of_defect?_eq_none {number : Int} {chain : Chain}
    (h : Chain.defect? number chain = none) : chain.Alternates := by
  intro hlength rule hrule hempty
  have hconflict : 1 < chain.length ∧ chain.any Rule.unconditional :=
    ⟨hlength, List.any_eq_true.2 ⟨rule, hrule, by simp [Rule.unconditional, hempty]⟩⟩
  unfold defect? at h
  split at h
  · cases h
  · split at h
    · cases h
    · cases h

/-- From the first rule of a number on, all its conditions are met. -/
theorem comparedFrom_rules {raw : RawProgram} {chain : Chain} {pc : Nat}
    (halternates : chain.Alternates) (hindex : chain.WellIndexed)
    (hordered : ∀ rule ∈ chain, ∀ c ∈ rule.conditions, c.ordered)
    (hat : CodeAt raw pc (chain.flatMap Rule.code)) (acc : Knowledge) :
    ∀ rule ∈ chain, ∀ c ∈ rule.conditions, c.ComparedFrom raw ⟨pc, acc⟩ := by
  induction chain generalizing pc acc with
  | nil => simp
  | cons first rest ih =>
    rw [List.flatMap_cons] at hat
    obtain ⟨hfirst, hrest⟩ := hat.append
    have hmem : first ∈ first :: rest := List.mem_cons_self ..
    obtain ⟨hcompared, hexit⟩ :=
      Rule.openPath_code (hordered first hmem) (hindex first hmem) hfirst acc
    intro rule hrule c hc
    rcases List.mem_cons.1 hrule with rfl | hrule
    · exact hcompared c hc
    · have hlength : 1 < (first :: rest).length :=
        Nat.succ_lt_succ (List.length_pos_of_mem hrule)
      obtain ⟨acc', hpath⟩ := hexit (halternates hlength first hmem)
      have hlater := ih (fun _ r hr => halternates hlength r (List.mem_cons_of_mem _ hr))
        (fun r hr => hindex r (List.mem_cons_of_mem _ hr))
        (fun r hr => hordered r (List.mem_cons_of_mem _ hr)) hrest acc'
      exact (hlater rule hrule c hc).of_path hpath

end Chain

/-! ### Rule sets -/

namespace RuleSet

/-- Where the chain of a number stands among all chains. -/
structure Position (ruleSet : RuleSet) (number : Int) where
  before : List (Int × Chain)
  chain : Chain
  after : List (Int × Chain)
  entries_eq : ruleSet.rules.entries = before ++ (number, chain) :: after

theorem exists_position {ruleSet : RuleSet} {number : Int} {chain : Chain}
    (h : ruleSet.rules.get? number = some chain) :
    ∃ position : ruleSet.Position number, position.chain = chain := by
  obtain ⟨before, after, hentries⟩ := List.append_of_mem (Table.mem_entries_iff.2 h)
  exact ⟨⟨before, chain, after, hentries⟩, rfl⟩

namespace Position

variable {ruleSet : RuleSet} {number : Int} (position : ruleSet.Position number)

/-- The code in front of the rules of the number. -/
def front : List RawInstruction :=
  (architectureCode ruleSet.architecture ++ [loadWord .nr]) ++
    (position.before.flatMap (fun entry => entry.2.code entry.1 ruleSet.defaultAction) ++
      [compareWord .eq (UInt32.ofNat number.toNat) 0 1])

def rules : List RawInstruction :=
  position.chain.flatMap Rule.code

/-- The code behind the rules of the number. -/
def back : List RawInstruction :=
  [returnAction ruleSet.defaultAction] ++
    (position.after.flatMap (fun entry => entry.2.code entry.1 ruleSet.defaultAction) ++
      [returnAction ruleSet.defaultAction])

theorem code_eq : ruleSet.code = position.front ++ (position.rules ++ position.back) := by
  simp [RuleSet.code, front, rules, back, position.entries_eq, Chain.code, List.append_assoc]

theorem codeAt_front : CodeAt ruleSet.code 0 position.front :=
  ⟨_, position.code_eq.symm⟩

theorem codeAt_behind :
    CodeAt ruleSet.code position.front.length (position.rules ++ position.back) :=
  ⟨[], by rw [position.code_eq, List.drop_left, List.append_nil]⟩

theorem codeAt_rules : CodeAt ruleSet.code position.front.length position.rules :=
  position.codeAt_behind.append.1

theorem codeAt_back :
    CodeAt ruleSet.code (position.front.length + position.rules.length) position.back :=
  position.codeAt_behind.append.2

theorem length_front : position.front.length = 4 + (position.before.flatMap fun entry =>
    entry.2.code entry.1 ruleSet.defaultAction).length + 1 := by
  simp only [front, architectureCode, List.length_append, List.length_cons, List.length_nil]
  omega

theorem mem_entries : (number, position.chain) ∈ ruleSet.rules.entries := by
  rw [position.entries_eq]
  exact List.mem_append_right _ (List.mem_cons_self ..)

theorem mem_entries_of_mem_before {entry : Int × Chain} (h : entry ∈ position.before) :
    entry ∈ ruleSet.rules.entries := by
  rw [position.entries_eq]
  exact List.mem_append_left _ h

theorem mem_entries_of_mem_after {entry : Int × Chain} (h : entry ∈ position.after) :
    entry ∈ ruleSet.rules.entries := by
  rw [position.entries_eq]
  exact List.mem_append_right _ (List.mem_cons_of_mem _ h)

theorem lt_of_mem_before {entry : Int × Chain} (h : entry ∈ position.before) :
    entry.1 < number :=
  Table.lt_of_entries_eq position.entries_eq h

theorem get?_eq : ruleSet.rules.get? number = some position.chain :=
  Table.mem_entries_iff.1 position.mem_entries

theorem mem_syscalls (position : ruleSet.Position number) : number ∈ ruleSet.syscalls :=
  mem_syscalls_iff.2 ⟨_, position.get?_eq⟩

theorem ofInt_eq (position : ruleSet.Position number) :
    UInt32.ofInt number = UInt32.ofNat number.toNat :=
  (toNat_eq_iff (number_of_mem_syscalls position.mem_syscalls)).1
    (toNat_ofInt_of_mem_syscalls position.mem_syscalls)

theorem wellIndexed : position.chain.WellIndexed :=
  (of_mem_entries position.mem_entries).2

theorem mem_conditions {condition : Condition} :
    condition ∈ ruleSet.conditions number ↔
      ∃ rule ∈ position.chain, condition ∈ rule.conditions := by
  rw [RuleSet.mem_conditions, position.get?_eq]
  simp

section

variable {raw : RawProgram} {program : Program} {call : Call}

/-- Words other than those of the first numbers are passed on by their chains. -/
theorem reaches_entries (h : Loaded raw program) {entries : List (Int × Chain)} {pc : Nat}
    {defaultAction : Action} {word : UInt32} (hindex : ∀ entry ∈ entries, entry.2.WellIndexed)
    (hword : ∀ entry ∈ entries, word ≠ UInt32.ofNat entry.1.toNat)
    (hat : CodeAt raw pc (entries.flatMap fun entry => entry.2.code entry.1 defaultAction)) :
    program.Reaches call ⟨pc, word⟩
      ⟨pc + (entries.flatMap fun entry => entry.2.code entry.1 defaultAction).length, word⟩ := by
  induction entries generalizing pc with
  | nil => exact .refl program call _
  | cons entry later ih =>
    rw [List.flatMap_cons] at hat ⊢
    obtain ⟨hentry, hlater⟩ := hat.append
    obtain ⟨hi, hindex⟩ := List.forall_mem_cons.1 hindex
    obtain ⟨hw, hword⟩ := List.forall_mem_cons.1 hword
    rw [List.length_append, ← Nat.add_assoc]
    exact (Chain.reaches_code h hi hentry hw).trans (ih hindex hword hlater)

/-- Calls of the own architecture come to the comparisons with numbers. -/
theorem reaches_numbers (h : Loaded raw program) {architecture : Architecture}
    (hat : CodeAt raw 0 (architectureCode architecture ++ [loadWord .nr]))
    (harch : call.arch = architecture.audit) :
    program.Reaches call .start ⟨4, call.word .nr⟩ := by
  obtain ⟨hcheck, hload⟩ := hat.append
  exact (reaches_body h hcheck harch).trans (h.goes_loadWord call _ (by decide) hload).reaches

/-- A call of the number comes to its rules. -/
theorem reaches_rules (h : Loaded raw program) (hat : CodeAt raw 0 position.front)
    (harch : call.arch = ruleSet.architecture.audit)
    (hword : call.word .nr = UInt32.ofNat number.toNat) :
    program.Reaches call .start ⟨position.front.length, call.word .nr⟩ := by
  obtain ⟨hnumbers, hat⟩ := hat.append
  obtain ⟨hbefore, hcompare⟩ := hat.append
  have hothers : ∀ entry ∈ position.before, call.word .nr ≠ UInt32.ofNat entry.1.toNat := by
    intro entry hentry heq
    have hlt := position.lt_of_mem_before hentry
    have hnumber := (toNat_eq_iff (of_mem_entries position.mem_entries).1).2 hword
    have hother := (toNat_eq_iff (of_mem_entries (position.mem_entries_of_mem_before hentry)).1).2 heq
    omega
  have hreach : program.Reaches call ⟨4, call.word .nr⟩ ⟨_, call.word .nr⟩ := reaches_entries h
    (fun entry hentry => (of_mem_entries (position.mem_entries_of_mem_before hentry)).2)
    hothers hbefore
  have hgoes := h.goes_compareWord call (call.word .nr) (by omega) (by omega) hcompare
  have hholds : Test.eq.holds (call.word .nr) (UInt32.ofNat number.toNat) := decide_eq_true hword
  rw [if_pos hholds] at hgoes
  rw [length_front]
  exact (reaches_numbers h hnumbers harch).trans (hreach.trans hgoes.reaches)

/-- The exploration for a number comes to its rules. -/
theorem exists_explored (h : Loaded raw program) (hcomparing : program.comparing)
    (hat : CodeAt raw 0 position.front) :
    ∃ acc, ⟨position.front.length, acc⟩ ∈
      explored program ⟨ruleSet.architecture.audit, some (UInt32.ofInt number)⟩ := by
  let call : Call := .ofWord (UInt32.ofInt number) ruleSet.architecture.audit (.replicate 0)
  have hreach : program.Reaches call .start ⟨position.front.length, call.word .nr⟩ :=
    position.reaches_rules h hat rfl position.ofInt_eq
  obtain ⟨⟨pc, acc⟩, hexplored, hpc, -⟩ := exists_explored_of_reaches h.forward hcomparing
    (carries_ofWord _ _ _) (start_mem_explored h.length_pos) (Point.describes_start call) hreach
  obtain rfl : position.front.length = pc := hpc
  exact ⟨acc, hexplored⟩

end

/-- All conditions of a number are met from its first rule on. -/
theorem comparedFrom {raw : RawProgram} (hordered : ruleSet.ordered)
    (hat : CodeAt raw position.front.length position.rules) (acc : Knowledge) :
    ∀ c ∈ ruleSet.conditions number, c.ComparedFrom raw ⟨position.front.length, acc⟩ := by
  have halternates : position.chain.Alternates := Chain.alternates_of_defect?_eq_none
    (List.findSome?_eq_none_iff.1 ruleSet.valid _ position.mem_entries)
  have hconditions : ∀ rule ∈ position.chain, ∀ c ∈ rule.conditions, c.ordered :=
    fun rule hrule c hc =>
      ordered_iff.1 hordered number c (position.mem_conditions.2 ⟨rule, hrule, hc⟩)
  intro c hc
  obtain ⟨rule, hrule, hmem⟩ := position.mem_conditions.1 hc
  exact Chain.comparedFrom_rules halternates position.wellIndexed hconditions hat acc rule hrule c hmem

end Position

end RuleSet

end SyscallFilter
