/-! The tokens of a JSON text.

A text is scanned one character at a time. Between tokens only spaces, tabs and
line ends are skipped; a number or word goes on as long as its characters do,
and a string up to the next unescaped quote. Every token is checked when it is
complete, so a text that scans has only well-formed numbers, words and strings. -/
namespace SyscallFilter.Json

inductive Token where
  | openArray | closeArray
  | openObject | closeObject
  | comma | colon
  | null
  | bool (value : Bool)
  | integer (value : Int)
  /-- A number that is not written as an integer. Zero with a sign is one of these. -/
  | real
  | string (text : String)
  deriving DecidableEq, Repr

/-! ### Numbers and words -/

def digits (cs : List Char) : List Char := cs.takeWhile Char.isDigit

def afterDigits (cs : List Char) : List Char := cs.dropWhile Char.isDigit

def decimal (cs : List Char) : Nat :=
  cs.foldl (fun n c => 10 * n + (c.toNat - '0'.toNat)) 0

/-- What stands after `e` in a number. -/
def isExponent : List Char → Bool
  | '+' :: cs | '-' :: cs => !cs.isEmpty && cs.all Char.isDigit
  | cs => !cs.isEmpty && cs.all Char.isDigit

/-- What may follow the digits before the point: a fraction, an exponent, or both. -/
def isFraction : List Char → Bool
  | '.' :: cs =>
    !(digits cs).isEmpty &&
      match afterDigits cs with
      | [] => true
      | 'e' :: exponent | 'E' :: exponent => isExponent exponent
      | _ => false
  | 'e' :: exponent | 'E' :: exponent => isExponent exponent
  | _ => false

/-- A number without its sign: the first digit is 0 only if it stands alone. -/
def unsigned? (negative : Bool) (cs : List Char) : Option Token :=
  let whole := digits cs
  let rest := afterDigits cs
  if whole.isEmpty || (whole.length > 1 && whole.head? == some '0') then none
  else if !rest.isEmpty then
    if isFraction rest then some .real else none
  else if negative then
    if decimal whole = 0 then some .real else some (.integer (-decimal whole))
  else some (.integer (decimal whole))

def number? : List Char → Option Token
  | '-' :: cs => unsigned? true cs
  | cs => unsigned? false cs

/-- A token written without quotes or brackets. -/
def bare? (cs : List Char) : Option Token :=
  match String.ofList cs with
  | "null" => some .null
  | "true" => some (.bool true)
  | "false" => some (.bool false)
  | _ => number? cs

/-! ### Strings -/

def hexDigit? (c : Char) : Option Nat :=
  if c.isDigit then some (c.toNat - '0'.toNat)
  else if 'a' ≤ c ∧ c ≤ 'f' then some (c.toNat - 'a'.toNat + 10)
  else if 'A' ≤ c ∧ c ≤ 'F' then some (c.toNat - 'A'.toNat + 10)
  else none

/-- The 16-bit unit that four digits stand for. -/
def unit? (a b c d : Char) : Option Nat := do
  return (((← hexDigit? a) * 16 + (← hexDigit? b)) * 16 + (← hexDigit? c)) * 16 + (← hexDigit? d)

def isHighSurrogate (unit : Nat) : Bool := 0xd800 ≤ unit && unit < 0xdc00

def isLowSurrogate (unit : Nat) : Bool := 0xdc00 ≤ unit && unit < 0xe000

/-- The character that a one-letter escape stands for. -/
def escaped? : Char → Option Char
  | '"' => some '"'
  | '\\' => some '\\'
  | '/' => some '/'
  | 'b' => some '\x08'
  | 'f' => some '\x0c'
  | 'n' => some '\n'
  | 'r' => some '\r'
  | 't' => some '\t'
  | _ => none

/-- The content of a string with its escapes resolved. Surrogates have to come in
pairs, and control characters have to be escaped. -/
def unescape? : List Char → Option (List Char)
  | [] => some []
  | '\\' :: 'u' :: a :: b :: c :: d :: rest => do
    let unit ← unit? a b c d
    if isHighSurrogate unit then
      match rest with
      | '\\' :: 'u' :: a' :: b' :: c' :: d' :: rest' =>
        let low ← unit? a' b' c' d'
        if isLowSurrogate low then
          let char := Char.ofNat (0x10000 + (unit - 0xd800) * 0x400 + (low - 0xdc00))
          return char :: (← unescape? rest')
        else none
      | _ => none
    else if isLowSurrogate unit then none
    else return Char.ofNat unit :: (← unescape? rest)
  | '\\' :: c :: rest => do
    let char ← escaped? c
    return char :: (← unescape? rest)
  | c :: rest =>
    if c = '\\' || c.toNat < 0x20 then none
    else return c :: (← unescape? rest)

/-! ### Scanning -/

/-- What has been read of an unfinished token, last character first. -/
inductive Pending where
  | nothing
  | bare (chars : List Char)
  /-- Inside a string; `escaped` if the last character was a backslash that escapes. -/
  | quoted (chars : List Char) (escaped : Bool)
  deriving DecidableEq, Repr

/-- A scan in progress, with the finished tokens, last token first. -/
structure Scan where
  tokens : List Token
  pending : Pending
  deriving DecidableEq, Repr

namespace Scan

def isBare (c : Char) : Bool :=
  c.isAlphanum || c == '+' || c == '-' || c == '.'

/-- A character outside of any token. -/
def start (tokens : List Token) (c : Char) : Option Scan :=
  match c with
  | ' ' | '\t' | '\n' | '\r' => some ⟨tokens, .nothing⟩
  | '[' => some ⟨.openArray :: tokens, .nothing⟩
  | ']' => some ⟨.closeArray :: tokens, .nothing⟩
  | '\x7b' => some ⟨.openObject :: tokens, .nothing⟩
  | '\x7d' => some ⟨.closeObject :: tokens, .nothing⟩
  | ',' => some ⟨.comma :: tokens, .nothing⟩
  | ':' => some ⟨.colon :: tokens, .nothing⟩
  | '"' => some ⟨tokens, .quoted [] false⟩
  | _ => if isBare c then some ⟨tokens, .bare [c]⟩ else none

def feed (scan : Scan) (c : Char) : Option Scan :=
  match scan.pending with
  | .nothing => start scan.tokens c
  | .bare chars =>
    if isBare c then some ⟨scan.tokens, .bare (c :: chars)⟩
    else do start ((← bare? chars.reverse) :: scan.tokens) c
  | .quoted chars true => some ⟨scan.tokens, .quoted (c :: chars) false⟩
  | .quoted chars false =>
    if c = '"' then do
      let content ← unescape? chars.reverse
      return ⟨.string (String.ofList content) :: scan.tokens, .nothing⟩
    else some ⟨scan.tokens, .quoted (c :: chars) (c == '\\')⟩

/-- The tokens at the end of the text. -/
def finish (scan : Scan) : Option (List Token) :=
  match scan.pending with
  | .nothing => some scan.tokens.reverse
  | .bare chars => return ((← bare? chars.reverse) :: scan.tokens).reverse
  | .quoted _ _ => none

end Scan

def tokens? (text : String) : Option (List Token) := do
  (← text.toList.foldlM Scan.feed ⟨[], .nothing⟩).finish

end SyscallFilter.Json
