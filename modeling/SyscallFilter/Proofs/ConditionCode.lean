import SyscallFilter.Proofs.Code

/-! The code of a condition decides the condition.

A program sees an argument as two words. A condition on the low word is settled by
it (`lowHolds`); a condition on the whole argument is often settled by the high word
already (`highVerdict`), and else by the low word. `holds_eq` says that this is the
condition; `within_code` says that the code runs through to its end if the condition
holds, and lands `distance` instructions past it if not. A program that the code is part
of need not be of any special form for that (`leaves_code`). -/
namespace SyscallFilter

open Bpf

/-! ### Comparing words instead of values -/

theorem lt_iff_words {a b : UInt64} :
    a < b ↔ highWord a < highWord b ∨ highWord a = highWord b ∧ lowWord a < lowWord b := by
  simp only [UInt64.lt_iff_toNat_lt, UInt32.lt_iff_toNat_lt, ← UInt32.toNat_inj, toNat_highWord,
    toNat_lowWord]
  omega

theorem le_iff_words {a b : UInt64} :
    a ≤ b ↔ highWord a < highWord b ∨ highWord a = highWord b ∧ lowWord a ≤ lowWord b := by
  simp only [UInt64.le_iff_toNat_le, UInt32.lt_iff_toNat_lt, UInt32.le_iff_toNat_le,
    ← UInt32.toNat_inj, toNat_highWord, toNat_lowWord]
  omega

theorem eq_iff_words {a b : UInt64} :
    a = b ↔ highWord a = highWord b ∧ lowWord a = lowWord b := by
  simp only [← UInt64.toNat_inj, ← UInt32.toNat_inj, toNat_highWord, toNat_lowWord]
  omega

theorem lowWord_and (a b : UInt64) : lowWord (a &&& b) = lowWord a &&& lowWord b := by
  simp [lowWord]

theorem highWord_and (a b : UInt64) : highWord (a &&& b) = highWord a &&& highWord b := by
  simp [highWord, UInt64.shiftRight_and]

theorem and_qword_mask (value : UInt64) : value &&& Width.qword.mask = value := by
  show value &&& -1 = value
  simp

theorem lowWord_mask_dword : lowWord Width.dword.mask = -1 := rfl

theorem highWord_mask_dword : highWord Width.dword.mask = 0 := rfl

namespace Condition

/-- What the low word of the argument says. -/
def lowHolds (condition : Condition) (low : UInt32) : Bool :=
  match condition.comparison with
  | .eq => low = lowWord condition.value
  | .ne => low ≠ lowWord condition.value
  | .ge => lowWord condition.value ≤ low
  | .gt => lowWord condition.value < low
  | .le => low ≤ lowWord condition.value
  | .lt => low < lowWord condition.value
  | .maskedEq mask => low &&& lowWord mask = lowWord (condition.value &&& mask)

/-- What the high word of the argument says, if it settles the condition. -/
def highVerdict (condition : Condition) (high : UInt32) : Option Bool :=
  let value := highWord condition.value
  match condition.comparison with
  | .eq => if high = value then none else some false
  | .ne => if high = value then none else some true
  | .ge | .gt => if value < high then some true else if high = value then none else some false
  | .le | .lt => if value < high then some false else if high = value then none else some true
  | .maskedEq mask =>
    if high &&& highWord mask = highWord (condition.value &&& mask) then none else some false

/-- The condition in terms of the two words of the argument. -/
def wordsHold (condition : Condition) (high low : UInt32) : Bool :=
  match condition.width with
  | .dword => condition.lowHolds low
  | .qword => (condition.highVerdict high).getD (condition.lowHolds low)

theorem holds_eq {condition : Condition} {args : Args} {argument : UInt64}
    (h : args[condition.index]? = some argument) :
    condition.holds args = condition.wordsHold (highWord argument) (lowWord argument) := by
  obtain ⟨index, width, comparison, value⟩ := condition
  simp only [holds, h, wordsHold, lowHolds, highVerdict]
  cases width with
  | dword =>
    cases comparison <;>
      simp [eq_iff_words, le_iff_words, lt_iff_words, lowWord_and, highWord_and, lowWord_mask_dword, highWord_mask_dword]
  | qword =>
    simp only [and_qword_mask, ne_eq, eq_iff_words, le_iff_words, lt_iff_words, lowWord_and,
      highWord_and]
    cases comparison <;> grind

/-! ### The code -/

theorem length_lowCode (condition : Condition) (distance : Nat) :
    (condition.lowCode distance).length =
      match condition.comparison with
      | .maskedEq _ => 3
      | _ => 2 := by
  unfold lowCode
  cases condition.comparison <;> rfl

theorem length_highCode_le (condition : Condition) (distance : Nat) :
    (condition.highCode distance).length ≤ 3 := by
  unfold highCode
  cases condition.comparison <;> simp

theorem length_code_le (condition : Condition) (distance : Nat) :
    (condition.code distance).length ≤ maxCodeLength := by
  have hlow := condition.length_lowCode distance
  have hhigh := condition.length_highCode_le distance
  have hle : (condition.lowCode distance).length ≤ 3 := by
    rw [hlow]
    split <;> simp
  unfold code maxCodeLength
  split
  · omega
  · rw [List.length_append]
    omega

theorem two_le_length_code (condition : Condition) (distance : Nat) :
    2 ≤ (condition.code distance).length := by
  have hlow : 2 ≤ (condition.lowCode distance).length := by
    rw [length_lowCode]
    split <;> simp
  unfold code
  split
  · exact hlow
  · rw [List.length_append]
    exact Nat.le_trans hlow (Nat.le_add_left ..)

theorem argLow_mem_all {index : Nat} (h : index < 6) : Field.argLow index ∈ Field.all := by
  simp [Field.all, h]

theorem argHigh_mem_all {index : Nat} (h : index < 6) : Field.argHigh index ∈ Field.all := by
  simp [Field.all, h]

theorem codeFits_code {condition : Condition} {distance after : Nat} (hindex : condition.index < 6)
    (hafter : distance < after) : CodeFits (condition.code distance) after := by
  have hlow : CodeFits (condition.lowCode distance) after := by
    unfold lowCode
    cases condition.comparison <;>
      simp [CodeFits, fits_loadWord (argLow_mem_all hindex), fits_maskWord] <;>
      exact fits_compareWord (by omega) (by omega)
  have hhigh : CodeFits (condition.highCode distance)
      ((condition.lowCode distance).length + after) := by
    rw [length_lowCode]
    unfold highCode
    cases condition.comparison <;>
      simp [CodeFits, fits_loadWord (argHigh_mem_all hindex), fits_maskWord]
    case eq | ne | maskedEq => exact fits_compareWord (by omega) (by omega)
    all_goals exact ⟨fits_compareWord (by omega) (by omega), fits_compareWord (by omega) (by omega)⟩
  unfold code
  cases condition.width
  · exact hlow
  · exact codeFits_append.2 ⟨hhigh, hlow⟩

section Runs

variable {raw : RawProgram} {program : Program} {pc target distance : Nat} {condition : Condition}
  (h : Loaded raw program) (call : Call) (acc : UInt32)

include h

/-- A word is loaded and compared. -/
theorem within_compare {field : Field} {test : Test} {k : UInt32} {jt jf : Nat}
    {rest : List RawInstruction} (hfield : field ∈ Field.all) (hjt : jt < 0x100) (hjf : jf < 0x100)
    (hat : CodeAt raw pc (loadWord field :: compareWord test k jt jf :: rest))
    (ht : target = pc + 2 + if test.holds (call.word field) k then jt else jf) :
    program.ReachesWithin call pc (pc + 2) ⟨pc, acc⟩ ⟨target, call.word field⟩ := by
  subst ht
  have hload := h.goes_loadWord call acc hfield hat
  have hcompare := h.goes_compareWord call (call.word field) hjt hjf hat.cons.2
  exact (hload.reachesWithin (Nat.le_refl _) (by omega)).trans
    (hcompare.reachesWithin (by omega) (by omega))

/-- A word is loaded, masked and compared. -/
theorem within_maskedCompare {field : Field} {test : Test} {mask k : UInt32} {jt jf : Nat}
    {rest : List RawInstruction} (hfield : field ∈ Field.all) (hjt : jt < 0x100) (hjf : jf < 0x100)
    (hat : CodeAt raw pc (loadWord field :: maskWord mask :: compareWord test k jt jf :: rest))
    (ht : target = pc + 3 + if test.holds (call.word field &&& mask) k then jt else jf) :
    program.ReachesWithin call pc (pc + 3) ⟨pc, acc⟩ ⟨target, call.word field &&& mask⟩ := by
  subst ht
  have hload := h.goes_loadWord call acc hfield hat
  have hmask := h.goes_maskWord call (call.word field) hat.cons.2
  have hcompare := h.goes_compareWord call (call.word field &&& mask) hjt hjf hat.cons.2.cons.2
  exact ((hload.reachesWithin (Nat.le_refl _) (by omega)).trans
    (hmask.reachesWithin (by omega) (by omega))).trans
    (hcompare.reachesWithin (by omega) (by omega))

/-- A word is loaded and compared, and compared again where the first comparison fails. -/
theorem within_compareTwice {field : Field} {test test' : Test} {k : UInt32} {jt jt' jf' : Nat}
    {rest : List RawInstruction} (hfield : field ∈ Field.all) (hjt : jt < 0x100)
    (hjt' : jt' < 0x100) (hjf' : jf' < 0x100)
    (hat : CodeAt raw pc
      (loadWord field :: compareWord test k jt 0 :: compareWord test' k jt' jf' :: rest))
    (ht : target =
      if test.holds (call.word field) k then pc + 2 + jt
      else pc + 3 + if test'.holds (call.word field) k then jt' else jf') :
    program.ReachesWithin call pc (pc + 3) ⟨pc, acc⟩ ⟨target, call.word field⟩ := by
  by_cases hfirst : test.holds (call.word field) k
  · rw [if_pos hfirst] at ht
    exact (within_compare h call acc hfield hjt (by omega) hat (by rw [if_pos hfirst, ht])).mono
      (Nat.le_refl _) (by omega)
  · rw [if_neg hfirst] at ht
    subst ht
    have hcompare := within_compare h call acc hfield hjt (by omega) hat (by rw [if_neg hfirst])
    have hagain := h.goes_compareWord call (call.word field) hjt' hjf' hat.cons.2.cons.2
    exact (hcompare.mono (Nat.le_refl _) (by omega)).trans
      (hagain.reachesWithin (by omega) (by omega))

theorem within_lowCode (hindex : condition.index < 6) (hdistance : distance < 0x100)
    (hat : CodeAt raw pc (condition.lowCode distance))
    (ht : target = pc + (condition.lowCode distance).length +
      if condition.lowHolds (call.word (.argLow condition.index)) then 0 else distance) :
    ∃ acc', program.ReachesWithin call pc (pc + (condition.lowCode distance).length)
      ⟨pc, acc⟩ ⟨target, acc'⟩ := by
  have hfield := argLow_mem_all hindex
  rw [length_lowCode] at ht ⊢
  unfold lowCode at hat
  unfold lowHolds at ht
  cases hc : condition.comparison <;> simp only [hc] at hat ht
  case maskedEq mask =>
    exact ⟨_, within_maskedCompare h call acc hfield (by omega) hdistance hat
      (by simp [ht, Test.holds])⟩
  case eq | ge | gt =>
    exact ⟨_, within_compare h call acc hfield (by omega) hdistance hat (by simp [ht, Test.holds])⟩
  case ne | le | lt =>
    exact ⟨_, within_compare h call acc hfield hdistance (by omega) hat
      (by simp [ht, Test.holds, ← UInt32.not_lt])⟩

theorem within_highCode (hindex : condition.index < 6) (hdistance : distance + 3 < 0x100)
    (hat : CodeAt raw pc (condition.highCode distance))
    (ht : target = pc + (condition.highCode distance).length +
      match condition.highVerdict (call.word (.argHigh condition.index)) with
      | none => 0
      | some true => (condition.lowCode distance).length
      | some false => (condition.lowCode distance).length + distance) :
    ∃ acc', program.ReachesWithin call pc (pc + (condition.highCode distance).length)
      ⟨pc, acc⟩ ⟨target, acc'⟩ := by
  have hfield := argHigh_mem_all hindex
  rw [length_lowCode] at ht
  unfold highCode at hat ht ⊢
  unfold highVerdict at ht
  cases hc : condition.comparison <;> simp only [hc] at hat ht ⊢
  case maskedEq mask =>
    exact ⟨_, within_maskedCompare h call acc hfield (by omega) hdistance hat
      (by rw [ht]; grind [Test.holds])⟩
  case eq | ne =>
    exact ⟨_, within_compare h call acc hfield (by omega) (by omega) hat
      (by rw [ht]; grind [Test.holds])⟩
  case ge | gt | le | lt =>
    exact ⟨_, within_compareTwice h call acc hfield (by omega) (by omega) (by omega) hat
      (by rw [ht]; grind [Test.holds])⟩

/-- The code runs to its end if the condition holds, and else lands `distance` further. On the way
it does not leave itself. -/
theorem within_code (hindex : condition.index < 6) (hdistance : distance + 3 < 0x100)
    (hat : CodeAt raw pc (condition.code distance))
    (ht : target = pc + (condition.code distance).length +
      if condition.holds call.args then 0 else distance) :
    ∃ acc', program.ReachesWithin call pc (pc + (condition.code distance).length)
      ⟨pc, acc⟩ ⟨target, acc'⟩ := by
  have hhigh : call.word (.argHigh condition.index) = highWord call.args[condition.index] := by
    simp [Call.word, hindex]
  have hlow : call.word (.argLow condition.index) = lowWord call.args[condition.index] := by
    simp [Call.word, hindex]
  rw [holds_eq (Vector.getElem?_eq_getElem hindex), wordsHold, ← hhigh, ← hlow] at ht
  unfold code at hat ht ⊢
  cases hw : condition.width <;> simp only [hw] at hat ht ⊢
  case dword => exact within_lowCode h call acc hindex (by omega) hat ht
  case qword =>
    obtain ⟨hatHigh, hatLow⟩ := hat.append
    rw [List.length_append] at ht ⊢
    cases hv : condition.highVerdict (call.word (.argHigh condition.index)) with
    | none =>
      obtain ⟨acc', hfirst⟩ := within_highCode h call acc hindex hdistance hatHigh (by rw [hv])
      obtain ⟨acc'', hsecond⟩ := within_lowCode h call acc' hindex (by omega) hatLow rfl
      refine ⟨acc'', ?_⟩
      rw [ht, hv, ← Nat.add_assoc]
      exact (hfirst.mono (Nat.le_refl _) (by omega)).trans
        (hsecond.mono (by omega) (Nat.le_refl _))
    | some settled =>
      -- the high word decides, so the run skips the code for the low word
      obtain ⟨acc', hfirst⟩ : ∃ acc', program.ReachesWithin call pc
          (pc + (condition.highCode distance).length) ⟨pc, acc⟩ ⟨target, acc'⟩ := by
        refine within_highCode h call acc hindex hdistance hatHigh ?_
        rw [ht, hv]
        cases settled <;> simp <;> omega
      exact ⟨acc', hfirst.mono (Nat.le_refl _) (by omega)⟩

end Runs

/-! ### The code in any program -/

/-- **The code of a condition decides the condition.** Put in front of more than `distance` other
instructions, the code of a condition is valid for every distance up to 248, so a program that it
is part of can be loaded if all others are valid. On every call and with any accumulator, a run that
enters the code at its first instruction leaves it at the instruction behind it if the condition
holds, and `distance` instructions further if not. -/
theorem leaves_code {condition : Condition} {distance : Nat} {before after : RawProgram}
    (hindex : condition.index ≤ 5) (hdistance : distance ≤ 248)
    (hbefore : CodeFits before ((condition.code distance).length + after.length))
    (hafter : CodeFits after 0) (hbehind : distance < after.length)
    (hlength : (before ++ condition.code distance ++ after).length ≤ maxLength)
    (hlast : ∃ last, after.getLast? = some last ∧ last.code = Opcode.ret.code) :
    ∃ program, Program.load (before ++ condition.code distance ++ after) = .ok program ∧
      ∀ call acc, ∃ acc',
        program.ReachesWithin call before.length (before.length + (condition.code distance).length)
          ⟨before.length, acc⟩
          ⟨before.length + (condition.code distance).length +
            if condition.holds call.args then 0 else distance, acc'⟩ := by
  have hargument : condition.index < 6 := Nat.lt_succ_of_le hindex
  obtain ⟨⟨program, hload⟩, hat⟩ :=
    exists_load_around hbefore (codeFits_code hargument hbehind) hafter hlength hlast
  refine ⟨program, hload, fun call acc => ?_⟩
  exact within_code (load_eq_ok_iff.1 hload) call acc hargument (by omega) hat rfl

/-- Some bits of both words of the last argument. -/
def someBits : Condition :=
  ⟨5, .qword, .maskedEq 0xff000000ff, 0x1200000034⟩

/-- From the longest distance, over a row of returns. -/
theorem leaves_someBits :
    (someBits.code 248).length = 6 ∧
      ∃ program, Program.load ([loadWord .nr] ++ someBits.code 248 ++
          (List.replicate 248 (returnAction .allow) ++ [returnAction .trap])) = .ok program ∧
        ∀ acc,
          (∃ acc', program.ReachesWithin (.ofWord 0 0 (.replicate 0xabcd1256000034)) 1 7
            ⟨1, acc⟩ ⟨7, acc'⟩) ∧
          ∃ acc', program.ReachesWithin (.ofWord 0 0 (.replicate 0x1200000035)) 1 7
            ⟨1, acc⟩ ⟨255, acc'⟩ := by
  have hcount : (someBits.code 248).length = 6 := by decide
  have hafter : CodeFits (List.replicate 248 (returnAction .allow) ++ [returnAction .trap]) 0 := by
    refine codeFits_iff.2 fun pc r hr => ?_
    rcases List.mem_append.1 (List.mem_of_getElem? hr) with h | h
    · rw [List.eq_of_mem_replicate h]
      exact fits_returnAction .allow
    · rw [List.mem_singleton.1 h]
      exact fits_returnAction .trap
  have hbehind :
      (List.replicate 248 (returnAction .allow) ++ [returnAction .trap]).length = 249 := by
    rw [List.length_append, List.length_replicate, List.length_singleton]
  obtain ⟨program, hload, hleaves⟩ := @leaves_code someBits 248 [loadWord .nr]
    (List.replicate 248 (returnAction .allow) ++ [returnAction .trap]) (by decide) (Nat.le_refl _)
    ⟨fits_loadWord (by decide), trivial⟩ hafter (by omega)
    (by rw [List.length_append, List.length_append, hcount, hbehind]; decide)
    ⟨returnAction .trap, List.getLast?_concat, rfl⟩
  rw [hcount] at hleaves
  refine ⟨hcount, program, hload, fun acc => ⟨?_, ?_⟩⟩
  · exact hleaves (.ofWord 0 0 (.replicate 0xabcd1256000034)) acc
  · exact hleaves (.ofWord 0 0 (.replicate 0x1200000035)) acc

end Condition

end SyscallFilter
