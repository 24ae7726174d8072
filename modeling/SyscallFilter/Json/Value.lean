import SyscallFilter.Json.Token

/-! JSON values and how they are read.

Objects keep their members in order and with repetitions, so that a reader can
refuse both unknown and repeated ones. -/
namespace SyscallFilter

inductive Json where
  | null
  | bool (value : Bool)
  | integer (value : Int)
  /-- A number not written as an integer; nothing here is measured in those. -/
  | real
  | string (text : String)
  | array (items : List Json)
  | object (members : List (String × Json))
  deriving Repr

namespace Json

/-- An unfinished array or object, with what it holds so far, last item first. -/
inductive Frame where
  | array (items : List Json)
  /-- The value of `key` is being read. -/
  | object (members : List (String × Json)) (key : String)

mutual

/-- Reads a value that stands inside the given frames, innermost first. -/
def read (frames : List Frame) : List Token → Option Json
  | .null :: rest => resume frames .null rest
  | .bool value :: rest => resume frames (.bool value) rest
  | .integer value :: rest => resume frames (.integer value) rest
  | .real :: rest => resume frames .real rest
  | .string text :: rest => resume frames (.string text) rest
  | .openArray :: .closeArray :: rest => resume frames (.array []) rest
  | .openArray :: rest => read (.array [] :: frames) rest
  | .openObject :: .closeObject :: rest => resume frames (.object []) rest
  | .openObject :: .string key :: .colon :: rest => read (.object [] key :: frames) rest
  | _ => none

/-- Goes on after a value. Outside of all frames nothing may follow. -/
def resume (frames : List Frame) (value : Json) : List Token → Option Json
  | [] => if frames.isEmpty then some value else none
  | .comma :: .string next :: .colon :: rest =>
    match frames with
    | .object members key :: outer => read (.object ((key, value) :: members) next :: outer) rest
    | _ => none
  | .comma :: rest =>
    match frames with
    | .array items :: outer => read (.array (value :: items) :: outer) rest
    | _ => none
  | .closeArray :: rest =>
    match frames with
    | .array items :: outer => resume outer (.array (value :: items).reverse) rest
    | _ => none
  | .closeObject :: rest =>
    match frames with
    | .object members key :: outer =>
      resume outer (.object ((key, value) :: members).reverse) rest
    | _ => none
  | _ => none

end

/-- The value of a text that holds one value and nothing else. -/
def parse? (text : String) : Option Json := do
  read [] (← tokens? text)

end Json

end SyscallFilter
