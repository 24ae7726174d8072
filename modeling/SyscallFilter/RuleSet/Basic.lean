import SyscallFilter.Policy
import SyscallFilter.RuleSet.Condition
import SyscallFilter.Table

/-! Policies given by rules.

A rule names an action for the calls that meet all its conditions. Every listed
number has a chain of rules, of which the first that applies decides; if none
does, and for every number that is not listed, the default action is taken.

Not every table of chains is a rule set: `RuleSet.make` turns away those that
have a `defect?`, and every rule set carries the fact that its table has none. -/
namespace SyscallFilter

/-- What can be wrong with rules. -/
inductive RuleError where
  | emptyRules
  /-- The rules need more instructions than a program may have. -/
  | tooLarge
  | invalidArgumentNumber
  | conflictingRules (number : Int)
  | invalidSyscallNumber (number : Int)
  | identicalActions
  deriving DecidableEq, Repr

def RuleError.message : RuleError → String
  | emptyRules => "The seccomp rules vector is empty."
  | tooLarge => "The seccomp filter contains too many BPF instructions."
  | invalidArgumentNumber => "The seccomp rule contains an invalid argument number."
  | conflictingRules number => s!"Syscall {number} has conflicting rules."
  | invalidSyscallNumber number => s!"Syscall number {number} is out of range."
  | identicalActions => "`filter_action` and `default_action` are equal."

/-- A condition, if it is about an argument that exists. -/
def Condition.make (index : Nat) (width : Width) (comparison : Comparison) (value : UInt64) :
    Except RuleError Condition :=
  let condition : Condition := ⟨index, width, comparison, value⟩
  if condition.wellIndexed then .ok condition else .error .invalidArgumentNumber

structure Rule where
  conditions : List Condition
  action : Action
  deriving DecidableEq, Repr

namespace Rule

/-- The action of the rule, if it applies. -/
def verdict? (rule : Rule) (args : Args) : Option Action :=
  if rule.conditions.all (·.holds args) then some rule.action else none

def unconditional (rule : Rule) : Bool :=
  rule.conditions.isEmpty

end Rule

/-- The rules of one number. -/
abbrev Chain := List Rule

namespace Chain

/-- What is wrong with the chain of a number. A number is a 32-bit word, and a rule
without conditions leaves nothing for another rule. -/
def defect? (number : Int) (chain : Chain) : Option RuleError :=
  if number < 0 ∨ 0x100000000 ≤ number then some (.invalidSyscallNumber number)
  else if chain.isEmpty then some .emptyRules
  else if 1 < chain.length ∧ chain.any Rule.unconditional then some (.conflictingRules number)
  else if chain.all fun rule => rule.conditions.all Condition.wellIndexed then none
  else some .invalidArgumentNumber

/-- The first rule that applies decides. -/
def verdict? (chain : Chain) (args : Args) : Option Action :=
  chain.findSome? fun rule => rule.verdict? args

/-- The values that the rules compare an argument with. -/
def constants (chain : Chain) (index : Nat) : List UInt64 :=
  ((chain.flatMap Rule.conditions).filter fun condition => condition.index = index).flatMap
    Condition.constants

end Chain

/-- The first defect in the order of numbers. -/
def RuleSet.defect? (rules : Table Chain) : Option RuleError :=
  rules.entries.findSome? fun entry => Chain.defect? entry.1 entry.2

structure RuleSet where
  rules : Table Chain
  defaultAction : Action
  architecture : Architecture
  /-- Names of numbers, for messages. -/
  names : Table String
  valid : RuleSet.defect? rules = none

namespace RuleSet

def make (rules : Table Chain) (defaultAction : Action) (architecture : Architecture) :
    Except RuleError RuleSet :=
  match h : defect? rules with
  | some error => .error error
  | none => .ok ⟨rules, defaultAction, architecture, .empty, h⟩

def withName (ruleSet : RuleSet) (number : Int) (name : String) : RuleSet :=
  { ruleSet with names := ruleSet.names.insert number name }

def syscalls (ruleSet : RuleSet) : List Int :=
  ruleSet.rules.keys

def evaluate (ruleSet : RuleSet) (number : Int) (args : Args) : Except PolicyError Action :=
  match ruleSet.rules.get? number with
  | none => .error (.unknownSyscall number)
  | some chain => .ok ((chain.verdict? args).getD ruleSet.defaultAction)

def constants (ruleSet : RuleSet) (number : Int) (index : Nat) : List UInt64 :=
  match ruleSet.rules.get? number with
  | none => []
  | some chain => chain.constants index

def name? (ruleSet : RuleSet) (number : Int) : Option String :=
  ruleSet.names.get? number

def policy (ruleSet : RuleSet) : Policy where
  syscalls := ruleSet.syscalls
  evaluate := ruleSet.evaluate
  defaultAction := ruleSet.defaultAction
  architecture := ruleSet.architecture
  constants := ruleSet.constants
  name? := ruleSet.name?

end RuleSet

end SyscallFilter
