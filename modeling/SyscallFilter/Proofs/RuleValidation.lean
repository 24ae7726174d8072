import SyscallFilter.Proofs.TableLookups
import SyscallFilter.RuleSet.Basic

/-! Which tables of chains are rule sets.

The rules of one number are right (`Chain.Valid`) or have a first defect (`Chain.Defect`), and
`defect?` tells which (`Chain.defect?_eq_none_iff`, `Chain.defect?_eq_some_iff`). A table is gone
through by ascending number, so what is named of it is the first defect of the least number that has
one; `make_valid_rules` says this of making a rule set. -/
namespace SyscallFilter

/-! ### The rules of one number -/

namespace Chain

/-- The number is a 32-bit word and has rules, one without conditions has no other beside it, and
every condition is about one of the six arguments. -/
structure Valid (number : Int) (chain : Chain) : Prop where
  isWord : 0 ≤ number ∧ number ≤ 0xffffffff
  nonempty : chain ≠ []
  alone : ∀ rule ∈ chain, rule.conditions = [] → chain.length = 1
  indexed : ∀ rule ∈ chain, ∀ condition ∈ rule.conditions, condition.index ≤ 5

/-- What is named as wrong with the rules of a number. Of several defects the one that comes first
here is named. -/
inductive Defect (number : Int) (chain : Chain) : RuleError → Prop
  | notWord (hnumber : ¬(0 ≤ number ∧ number ≤ 0xffffffff)) :
      Defect number chain (.invalidSyscallNumber number)
  | empty (hnumber : 0 ≤ number ∧ number ≤ 0xffffffff) (hempty : chain = []) :
      Defect number chain .emptyRules
  | notAlone {rule : Rule} (hnumber : 0 ≤ number ∧ number ≤ 0xffffffff) (hrule : rule ∈ chain)
      (hconditions : rule.conditions = []) (hlength : chain.length ≠ 1) :
      Defect number chain (.conflictingRules number)
  | notIndexed {rule : Rule} {condition : Condition} (hnumber : 0 ≤ number ∧ number ≤ 0xffffffff)
      (halone : ∀ other ∈ chain, other.conditions = [] → chain.length = 1) (hrule : rule ∈ chain)
      (hcondition : condition ∈ rule.conditions) (hindex : 5 < condition.index) :
      Defect number chain .invalidArgumentNumber

variable {number : Int} {chain : Chain} {error : RuleError}

theorem alone_iff :
    (∀ rule ∈ chain, rule.conditions = [] → chain.length = 1) ↔
      ¬(1 < chain.length ∧ chain.any Rule.unconditional) := by
  simp only [List.any_eq_true, Rule.unconditional, List.isEmpty_iff, not_and, not_exists]
  constructor
  · intro halone hlength rule hrule hconditions
    exact Nat.ne_of_gt hlength (halone rule hrule hconditions)
  · intro h rule hrule hconditions
    have hpos := List.length_pos_of_mem hrule
    have hshort : ¬1 < chain.length := fun hlength => h hlength rule hrule hconditions
    omega

theorem indexed_iff :
    (∀ rule ∈ chain, ∀ condition ∈ rule.conditions, condition.index ≤ 5) ↔
      (chain.all fun rule => rule.conditions.all Condition.wellIndexed) = true := by
  simp only [List.all_eq_true, Condition.wellIndexed, decide_eq_true_eq, Nat.lt_succ_iff]

theorem defect?_eq (number : Int) (chain : Chain) :
    defect? number chain =
      if 0 ≤ number ∧ number ≤ 0xffffffff then
        if chain = [] then some .emptyRules
        else if ∀ rule ∈ chain, rule.conditions = [] → chain.length = 1 then
          if ∀ rule ∈ chain, ∀ condition ∈ rule.conditions, condition.index ≤ 5 then none
          else some .invalidArgumentNumber
        else some (.conflictingRules number)
      else some (.invalidSyscallNumber number) := by
  have hnumber : (0 ≤ number ∧ number ≤ 0xffffffff) ↔
      ¬(number < 0 ∨ 0x100000000 ≤ number) := by omega
  simp only [defect?, hnumber, alone_iff, indexed_iff, ite_not, List.isEmpty_iff]

/-- A chain without a defect is right. -/
theorem defect?_eq_none_iff : defect? number chain = none ↔ Valid number chain := by
  rw [defect?_eq]
  constructor
  · intro h
    split_ifs at h with hnumber hempty halone hindexed
    exact ⟨hnumber, hempty, halone, hindexed⟩
  · intro h
    obtain ⟨hnumber, hnonempty, halone, hindexed⟩ := h
    rw [if_pos hnumber, if_neg hnonempty, if_pos halone, if_pos hindexed]

/-- The defect that is named is the first one. -/
theorem defect?_eq_some_iff : defect? number chain = some error ↔ Defect number chain error := by
  rw [defect?_eq]
  constructor
  · intro h
    split_ifs at h with hnumber hempty halone hindexed
    all_goals cases h
    · exact .empty hnumber hempty
    · simp only [not_forall, Nat.not_le] at hindexed
      obtain ⟨rule, hrule, condition, hcondition, hindex⟩ := hindexed
      exact .notIndexed hnumber halone hrule hcondition hindex
    · simp only [not_forall] at halone
      obtain ⟨rule, hrule, hconditions, hlength⟩ := halone
      exact .notAlone hnumber hrule hconditions hlength
    · exact .notWord hnumber
  · intro h
    cases h with
    | notWord hnumber => rw [if_neg hnumber]
    | empty hnumber hempty => rw [if_pos hnumber, if_pos hempty]
    | notAlone hnumber hrule hconditions hlength =>
      rw [if_pos hnumber, if_neg (List.ne_nil_of_mem hrule),
        if_neg fun halone => hlength (halone _ hrule hconditions)]
    | notIndexed hnumber halone hrule hcondition hindex =>
      rw [if_pos hnumber, if_neg (List.ne_nil_of_mem hrule), if_pos halone,
        if_neg fun hindexed => Nat.not_lt.2 (hindexed _ hrule _ hcondition) hindex]

end Chain

/-! ### Tables of chains -/

namespace RuleSet

/-- The rules of every number in the table are right. -/
def ValidRules (rules : Table Chain) : Prop :=
  ∀ number chain, rules.get? number = some chain → Chain.Valid number chain

/-- What is named as wrong with a table: the defect of the least number whose rules are not right. -/
def FirstDefect (rules : Table Chain) (error : RuleError) : Prop :=
  ∃ number chain, rules.get? number = some chain ∧ Chain.Defect number chain error ∧
    ∀ smaller other, smaller < number → rules.get? smaller = some other →
      Chain.Valid smaller other

variable {rules : Table Chain} {error : RuleError}

theorem defect?_eq_none_iff : defect? rules = none ↔ ValidRules rules := by
  simp only [defect?, Table.findSome?_entries_eq_none_iff, Chain.defect?_eq_none_iff, ValidRules]

theorem defect?_eq_some_iff : defect? rules = some error ↔ FirstDefect rules error := by
  simp only [defect?, Table.findSome?_entries_eq_some_iff, Chain.defect?_eq_none_iff,
    Chain.defect?_eq_some_iff, FirstDefect]

/-! ### Making rule sets -/

variable {defaultAction : Action} {architecture : Architecture}

theorem make_eq_error_iff :
    make rules defaultAction architecture = .error error ↔ defect? rules = some error := by
  unfold make
  split
  · next other h => rw [h, Except.error.injEq, Option.some.injEq]
  · next h => simp [h]

theorem make_eq_ok_iff {ruleSet : RuleSet} :
    make rules defaultAction architecture = .ok ruleSet ↔
      ∃ h : defect? rules = none, ruleSet = ⟨rules, defaultAction, architecture, .empty, h⟩ := by
  unfold make
  split
  · next other h => simp [h]
  · next h => simp [h, eq_comm]

/-- **Exactly the right tables are rule sets.** For every table of chains, a rule set is made of it
if and only if every number is a 32-bit word and has rules, a rule without conditions is the only
one of its number, and every condition is about one of the six arguments. Otherwise the error is the
first defect of the least number that has one. A rule set that is made has the table, the default
action and the architecture it is made of. -/
theorem make_valid_rules (rules : Table Chain) (defaultAction : Action)
    (architecture : Architecture) :
    ((∃ ruleSet, make rules defaultAction architecture = .ok ruleSet) ↔ ValidRules rules) ∧
      (∀ error, make rules defaultAction architecture = .error error ↔ FirstDefect rules error) ∧
      ∀ ruleSet, make rules defaultAction architecture = .ok ruleSet →
        ruleSet.rules = rules ∧ ruleSet.defaultAction = defaultAction ∧
          ruleSet.architecture = architecture := by
  refine ⟨?_, fun error => make_eq_error_iff.trans defect?_eq_some_iff, fun ruleSet hmake => ?_⟩
  · simp only [make_eq_ok_iff, ← defect?_eq_none_iff]
    exact ⟨fun ⟨_, h, _⟩ => h, fun h => ⟨_, h, rfl⟩⟩
  · obtain ⟨h, rfl⟩ := make_eq_ok_iff.1 hmake
    exact ⟨rfl, rfl, rfl⟩

-- Number 3 has two defects, and there is another at a greater number.
example : defect? (.ofList [(0x100000000, []),
    (3, [⟨[], .allow⟩, ⟨[⟨6, .dword, .eq, 0⟩], .allow⟩])]) = some (.conflictingRules 3) := by decide

end RuleSet

end SyscallFilter
