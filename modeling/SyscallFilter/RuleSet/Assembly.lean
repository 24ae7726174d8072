import SyscallFilter.Bpf.Fault
import SyscallFilter.Bpf.Raw
import SyscallFilter.RuleSet.Basic

/-! The program of a rule set.

The program first turns away foreign architectures. Then it loads the number
and compares it with each listed number in turn; a number that is found falls
into its chain, any other hops over it:

    jeq number            fall into the chain, or skip its first instruction
    rule                  one block for each rule
    ret default           no rule applied

A rule is a block with two entries. Entered at its first instruction it checks
the conditions and returns its action, or leaves at the instruction behind it.
Entered at its second instruction it leaves one instruction further, which is
the second entry of the next rule, or the comparison with the next number:

    ja 1                  check the conditions
    ja to the end + 1     hop over
    conditions            a failed one jumps to the end
    ret action

Comparisons jump over at most 255 instructions. A rule that is longer is cut by
relays, which failed conditions and hops use as stepping stones. -/
namespace SyscallFilter

open Bpf

/-! ### Single instructions -/

def loadWord (field : Field) : RawInstruction :=
  .plain .load field.offset

def compareWord (test : Test) (k : UInt32) (jt jf : Nat) : RawInstruction :=
  .branch test k (UInt8.ofNat jt) (UInt8.ofNat jf)

def maskWord (mask : UInt32) : RawInstruction :=
  .plain (.alu .and) mask

def jumpBy (distance : Nat) : RawInstruction :=
  .plain .jump (UInt32.ofNat distance)

def returnAction (action : Action) : RawInstruction :=
  .plain .ret action.code

/-! ### Conditions -/

namespace Condition

/-- Checks the high word. A condition that is settled by it leaves at once. -/
def highCode (condition : Condition) (distance : Nat) : List RawInstruction :=
  let load := loadWord (.argHigh condition.index)
  let high := highWord condition.value
  match condition.comparison with
  | .eq => [load, compareWord .eq high 0 (distance + 2)]
  | .ne => [load, compareWord .eq high 0 2]
  | .ge | .gt => [load, compareWord .gt high 3 0, compareWord .eq high 0 (distance + 2)]
  | .le | .lt => [load, compareWord .gt high (distance + 3) 0, compareWord .eq high 0 2]
  | .maskedEq mask =>
    let masked := highWord (condition.value &&& mask)
    [load, maskWord (highWord mask), compareWord .eq masked 0 (distance + 3)]

/-- Checks the low word. -/
def lowCode (condition : Condition) (distance : Nat) : List RawInstruction :=
  let load := loadWord (.argLow condition.index)
  let low := lowWord condition.value
  match condition.comparison with
  | .eq => [load, compareWord .eq low 0 distance]
  | .ne => [load, compareWord .eq low distance 0]
  | .ge => [load, compareWord .ge low 0 distance]
  | .gt => [load, compareWord .gt low 0 distance]
  | .le => [load, compareWord .gt low distance 0]
  | .lt => [load, compareWord .ge low distance 0]
  | .maskedEq mask =>
    let masked := lowWord (condition.value &&& mask)
    [load, maskWord (lowWord mask), compareWord .eq masked 0 distance]

/-- Code that runs through to its end if the condition holds, and else jumps
`distance` instructions past it. -/
def code (condition : Condition) (distance : Nat) : List RawInstruction :=
  match condition.width with
  | .dword => condition.lowCode distance
  | .qword => condition.highCode distance ++ condition.lowCode distance

/-- The most instructions that a condition takes. -/
def maxCodeLength : Nat := 6

end Condition

/-! ### Rules -/

/-- The end of a rule, from some condition on. -/
structure RuleTail where
  code : List RawInstruction
  /-- How far in front of it a failed condition is from where it has to land. -/
  distance : Nat
  deriving DecidableEq, Repr

namespace RuleTail

/-- Puts a relay in front if there is no more room for a condition in reach. The
three jumps go on with the rule, to where failed conditions land, and to where
hops land. -/
def relayed (tail : RuleTail) : RuleTail :=
  if tail.distance + (Condition.maxCodeLength + 1) ≤ 255 then tail
  else ⟨[jumpBy 2, jumpBy (tail.distance + 1), jumpBy (tail.distance + 1)] ++ tail.code, 1⟩

def addCondition (condition : Condition) (tail : RuleTail) : RuleTail :=
  let tail := tail.relayed
  let code := condition.code tail.distance
  ⟨code ++ tail.code, tail.distance + code.length⟩

end RuleTail

namespace Rule

/-- The rule without its two entries. -/
def tail (rule : Rule) : RuleTail :=
  rule.conditions.foldr RuleTail.addCondition ⟨[returnAction rule.action], 1⟩

def code (rule : Rule) : List RawInstruction :=
  [jumpBy 1, jumpBy (rule.tail.distance + 1)] ++ rule.tail.code

end Rule

/-! ### Rule sets -/

/-- The chain of a number, up to the default if no rule applies. -/
def Chain.code (number : Int) (chain : Chain) (defaultAction : Action) : List RawInstruction :=
  [compareWord .eq (UInt32.ofNat number.toNat) 0 1] ++
    chain.flatMap Rule.code ++
    [returnAction defaultAction]

namespace RuleSet

/-- Kills the process if the call is of another architecture. -/
def architectureCode (architecture : Architecture) : List RawInstruction :=
  [loadWord .arch, compareWord .eq architecture.audit 1 0, returnAction .killProcess]

/-- The program, however long. Without any chain the number need not be loaded. -/
def code (ruleSet : RuleSet) : RawProgram :=
  let chains := ruleSet.rules.entries
  architectureCode ruleSet.architecture ++
    (if chains.isEmpty then [] else [loadWord .nr]) ++
    chains.flatMap (fun entry => entry.2.code entry.1 ruleSet.defaultAction) ++
    [returnAction ruleSet.defaultAction]

/-- The program of the rule set, if it is short enough to be loaded. -/
def assemble (ruleSet : RuleSet) : Except RuleError RawProgram :=
  let code := ruleSet.code
  if code.length ≤ maxLength then .ok code else .error .tooLarge

end RuleSet

end SyscallFilter
