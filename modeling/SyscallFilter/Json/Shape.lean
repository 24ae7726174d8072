import SyscallFilter.Json.Value

/-! The shapes that records and variants take in JSON.

A record is an object of its fields, none unknown and none repeated, or an array
of all its fields in order. A variant is its name, or an object of one member
that gives the variant its value. -/
namespace SyscallFilter

/-- What can be wrong with a text that is read: its form, or what it says. -/
inductive ReadError (ε : Type) where
  | malformed
  | rejected (error : ε)
  deriving DecidableEq, Repr

namespace Json

/-- An integer between two bounds. -/
def integerIn? (low high : Int) : Json → Option Int
  | integer value => if low ≤ value ∧ value ≤ high then some value else none
  | _ => none

/-- A natural number below a bound. -/
def below? (bound : Nat) : Json → Option Nat
  | integer (.ofNat value) => if value < bound then some value else none
  | _ => none

def text? : Json → Option String
  | string text => some text
  | _ => none

def bool? : Json → Option Bool
  | bool value => some value
  | _ => none

def items? : Json → Option (List Json)
  | array items => some items
  | _ => none

/-- The members named, in that order, if there are no others and none is repeated. -/
def members? (names : List String) (members : List (String × Json)) : Option (List (Option Json)) :=
  let keys := members.map Prod.fst
  if keys.all names.contains && decide keys.Nodup then
    some (names.map fun name => List.lookup name members)
  else none

/-- The fields of a record. A field may be missing in an object, not in an array. -/
def record? (names : List String) : Json → Option (List (Option Json))
  | object members => members? names members
  | array items => if items.length = names.length then some (items.map some) else none
  | _ => none

/-- The fields of a record all of whose fields may be missing: in an array, the last ones. -/
def looseRecord? (names : List String) : Json → Option (List (Option Json))
  | object members => members? names members
  | array items =>
    if items.length ≤ names.length then
      some (items.map some ++ List.replicate (names.length - items.length) none)
    else none
  | _ => none

/-- A field that may be missing or null. -/
def optional {α : Type} (decode : Json → Option α) : Option Json → Option (Option α)
  | none | some null => some none
  | some json => (decode json).map some

/-- The name of a variant and the value that comes with it. -/
def variant? : Json → Option (String × Json)
  | string name => some (name, null)
  | object [(name, value)] => some (name, value)
  | _ => none

end Json

end SyscallFilter
