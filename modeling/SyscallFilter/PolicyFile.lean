import SyscallFilter.Json.Shape
import SyscallFilter.RuleSet.Basic

/-! Policy files: rule sets in JSON.

A file names two actions and lists entries, each with a number and conditions.
An entry is a rule that applies the filter action; the entries of one number
form its chain, in the order of the file. -/
namespace SyscallFilter

structure PolicyFile.Entry where
  number : Int
  name : Option String
  /-- Without conditions the entry always applies. -/
  conditions : Option (List Condition)
  deriving DecidableEq, Repr

structure PolicyFile where
  defaultAction : Action
  filterAction : Action
  architecture : Architecture
  entries : List PolicyFile.Entry
  deriving DecidableEq, Repr

namespace PolicyFile

def Entry.rule (entry : Entry) (action : Action) : Rule :=
  ⟨entry.conditions.getD [], action⟩

/-- The chains that the entries form. -/
def chains (file : PolicyFile) : Table Chain :=
  file.entries.foldl
    (fun table entry =>
      table.alter entry.number fun chain => chain.getD [] ++ [entry.rule file.filterAction])
    .empty

/-- Of several names of a number the last one counts. -/
def names (file : PolicyFile) : Table String :=
  .ofList (file.entries.filterMap fun entry => entry.name.map fun name => (entry.number, name))

def ruleSet (file : PolicyFile) : Except RuleError RuleSet :=
  if file.defaultAction = file.filterAction then .error .identicalActions
  else do
    let ruleSet ← RuleSet.make file.chains file.defaultAction file.architecture
    return { ruleSet with names := file.names }

end PolicyFile

/-! ### Reading -/

/-- The name of the action, with its number as the value of an object if it has one. -/
def Action.ofJson? (json : Json) : Option Action := do
  match ← json.variant? with
  | (name, .null) => ofName? name
  | (name, value) => ofNumbered? name (UInt16.ofNat (← value.below? UInt16.size))

def Architecture.ofJson? (json : Json) : Option Architecture := do
  match ← json.variant? with
  | (name, .null) => ofText? name
  | _ => none

def Width.ofJson? (json : Json) : Option Width := do
  match ← json.variant? with
  | ("dword", .null) => some dword
  | ("qword", .null) => some qword
  | _ => none

def Comparison.ofJson? (json : Json) : Option Comparison := do
  match ← json.variant? with
  | ("eq", .null) => some eq
  | ("ne", .null) => some ne
  | ("ge", .null) => some ge
  | ("gt", .null) => some gt
  | ("le", .null) => some le
  | ("lt", .null) => some lt
  | ("masked_eq", mask) => return maskedEq (UInt64.ofNat (← mask.below? UInt64.size))
  | _ => none

/-- An index that no argument has is left for the check of the rule set. -/
def Condition.ofJson? (json : Json) : Option Condition := do
  match ← json.record? ["index", "type", "op", "val", "comment"] with
  | [some index, some width, some comparison, some value, comment] =>
    let _ ← Json.optional Json.text? comment
    return {
      index := ← index.below? UInt8.size
      width := ← Width.ofJson? width
      comparison := ← Comparison.ofJson? comparison
      value := UInt64.ofNat (← value.below? UInt64.size) }
  | _ => none

namespace PolicyFile

def conditions? (json : Json) : Option (List Condition) := do
  (← json.items?).mapM Condition.ofJson?

def Entry.ofJson? (json : Json) : Option Entry := do
  match ← json.record? ["syscall", "name", "args", "comment"] with
  | [some number, name, conditions, comment] =>
    let _ ← Json.optional Json.text? comment
    return {
      number := ← number.integerIn? (-0x8000000000000000) 0x7fffffffffffffff
      name := ← Json.optional Json.text? name
      conditions := ← Json.optional conditions? conditions }
  | _ => none

def ofJson? (json : Json) : Option PolicyFile := do
  match ← json.record? ["default_action", "filter_action", "target_arch", "filter"] with
  | [some defaultAction, some filterAction, some architecture, some entries] =>
    return {
      defaultAction := ← Action.ofJson? defaultAction
      filterAction := ← Action.ofJson? filterAction
      architecture := ← Architecture.ofJson? architecture
      entries := ← (← entries.items?).mapM Entry.ofJson? }
  | _ => none

/-- The rule set in the text of a policy file. -/
def read (text : String) : Except (ReadError RuleError) RuleSet :=
  match (Json.parse? text).bind ofJson? with
  | none => .error .malformed
  | some file => file.ruleSet.mapError .rejected

end PolicyFile

end SyscallFilter
