/-! The words of a call record that a program can load.

A call record is 64 bytes long: the number, the architecture, the instruction
pointer and six arguments. Programs address it by byte offset, one aligned
32-bit word at a time, and `Field` names those words. -/
namespace SyscallFilter

/-- A 32-bit word of the call record. Fields are ordered as listed here, all low
halves of arguments before all high halves. -/
inductive Field where
  | nr
  | arch
  | ipLow
  | ipHigh
  | argLow (index : Nat)
  | argHigh (index : Nat)
  deriving DecidableEq, Ord, Repr

namespace Field

/-- The sixteen words of a call record, in the order of fields. -/
def all : List Field :=
  [nr, arch, ipLow, ipHigh] ++ (List.range 6).map argLow ++ (List.range 6).map argHigh

/-- Byte offset of the word in the record. -/
def offset : Field → UInt32
  | nr => 0
  | arch => 4
  | ipLow => 8
  | ipHigh => 12
  | argLow index => 16 + 8 * UInt32.ofNat index
  | argHigh index => 20 + 8 * UInt32.ofNat index

/-- The word at a byte offset, if the offset is aligned and inside the record. -/
def ofOffset? (offset : UInt32) : Option Field :=
  if offset.toNat % 4 = 0 ∧ offset.toNat < 64 then
    match offset.toNat / 4 with
    | 0 => some nr
    | 1 => some arch
    | 2 => some ipLow
    | 3 => some ipHigh
    | word =>
      let index := (word - 4) / 2
      some (if word % 2 = 0 then argLow index else argHigh index)
  else none

/-- Fields in ascending order, repetitions kept. -/
def sort (fields : List Field) : List Field :=
  fields.mergeSort fun a b => (compare a b).isLE

/-- The name of a field in listings. -/
def text : Field → String
  | nr => "Nr"
  | arch => "Arch"
  | ipLow => "InstructionPointerLo"
  | ipHigh => "InstructionPointerHi"
  | argLow index => s!"ArgLo({index})"
  | argHigh index => s!"ArgHi({index})"

/-- Every word is found again at its offset. -/
theorem ofOffset?_offset {f : Field} (h : f ∈ all) : ofOffset? f.offset = some f := by
  revert f
  decide

/-- What is found at an offset is the word of the record that has it. -/
theorem of_ofOffset?_eq_some {offset : UInt32} {f : Field} (h : ofOffset? offset = some f) :
    f ∈ all ∧ f.offset = offset := by
  have hwords : ∀ word < 16, (ofOffset? (.ofNat (4 * word))).all fun g =>
      g ∈ all ∧ g.offset = .ofNat (4 * word) := by
    decide
  by_cases haligned : offset.toNat % 4 = 0 ∧ offset.toNat < 64
  · have hoffset : UInt32.ofNat (4 * (offset.toNat / 4)) = offset := by
      rw [show 4 * (offset.toNat / 4) = offset.toNat by omega, UInt32.ofNat_toNat]
    have hword := hwords (offset.toNat / 4) (by omega)
    rw [hoffset, h] at hword
    simpa using hword
  · simp [ofOffset?, haligned] at h

end Field

end SyscallFilter
