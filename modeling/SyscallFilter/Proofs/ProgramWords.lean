import SyscallFilter.Proofs.RawMachine

/-! Programs as 64-bit words.

In a word the four fields of an instruction stand side by side. As a number it is their sum with
weights (`toNat_toWord`), and in memory it is the bytes of the fields one after the other
(`littleEndian_toWord`). A field is cut out of a word by a division and a remainder, so instructions
and words go over into each other without loss. -/
namespace SyscallFilter

/-- Numbers behind one another lie in memory one after the other. -/
theorem littleEndian_add_mul {size low : Nat} (more high : Nat) (h : low < 256 ^ size) :
    littleEndian (size + more) (low + high * 256 ^ size) =
      littleEndian size low ++ littleEndian more high := by
  rw [littleEndian_add, ← littleEndian_mod size (low + high * 256 ^ size), Nat.add_mul_mod_self_right,
    Nat.mod_eq_of_lt h, Nat.add_mul_div_right _ _ (Nat.zero_lt_of_lt h), Nat.div_eq_of_lt h,
    Nat.zero_add]

theorem littleEndian_one (byte : UInt8) : littleEndian 1 byte.toNat = [byte] :=
  congrArg (· :: []) UInt8.ofNat_toNat

namespace Bpf

namespace RawInstruction

/-! ### From fields to words -/

/-- Bits behind one another are added. -/
theorem or_shiftLeft {low distance : Nat} (high : Nat) (h : low < 2 ^ distance) :
    low ||| high <<< distance = low + high * 2 ^ distance := by
  rw [Nat.or_comm, ← Nat.shiftLeft_add_eq_or_of_lt h, Nat.shiftLeft_eq, Nat.add_comm]

theorem toNat_toWord (raw : RawInstruction) :
    raw.toWord.toNat = raw.code.toNat + raw.jt.toNat * 0x10000 + raw.jf.toNat * 0x1000000 +
      raw.k.toNat * 0x100000000 := by
  have hcode := raw.code.toNat_lt
  have hjt := raw.jt.toNat_lt
  have hjf := raw.jf.toNat_lt
  have hk := raw.k.toNat_lt
  -- no field is moved out of the word
  have hmod : ∀ {n distance : Nat}, n * 2 ^ distance < 2 ^ 64 →
      n <<< distance % 2 ^ 64 = n <<< distance := by
    intro n distance h
    rw [Nat.shiftLeft_eq, Nat.mod_eq_of_lt h]
  simp only [toWord, UInt64.toNat_or, UInt64.toNat_shiftLeft, UInt16.toNat_toUInt64,
    UInt8.toNat_toUInt64, UInt32.toNat_toUInt64, UInt64.reduceToNat, Nat.reduceMod]
  have hthree : raw.code.toNat + raw.jt.toNat * 2 ^ 16 < 2 ^ 24 := by omega
  have hfour : raw.code.toNat + raw.jt.toNat * 2 ^ 16 + raw.jf.toNat * 2 ^ 24 < 2 ^ 32 := by omega
  rw [hmod (by omega), hmod (by omega), hmod (by omega), or_shiftLeft _ hcode,
    or_shiftLeft _ hthree, or_shiftLeft _ hfour]
  rfl

/-- The bytes of an instruction as it lies in memory. -/
def image (raw : RawInstruction) : List UInt8 :=
  littleEndian 2 raw.code.toNat ++ [raw.jt, raw.jf] ++ littleEndian 4 raw.k.toNat

theorem littleEndian_toWord (raw : RawInstruction) :
    littleEndian 8 raw.toWord.toNat = raw.image := by
  have hword : raw.toWord.toNat = raw.code.toNat +
      (raw.jt.toNat + (raw.jf.toNat + raw.k.toNat * 256 ^ 1) * 256 ^ 1) * 256 ^ 2 := by
    rw [toNat_toWord]
    omega
  calc littleEndian 8 raw.toWord.toNat
    _ = littleEndian 2 raw.code.toNat ++
        (littleEndian 1 raw.jt.toNat ++
          (littleEndian 1 raw.jf.toNat ++ littleEndian 4 raw.k.toNat)) := by
      rw [hword, littleEndian_add_mul 6 _ raw.code.toNat_lt, littleEndian_add_mul 5 _ raw.jt.toNat_lt,
        littleEndian_add_mul 4 _ raw.jf.toNat_lt]
    _ = raw.image := by
      rw [littleEndian_one, littleEndian_one, image, List.append_assoc]
      rfl

/-! ### From words to fields -/

theorem toNat_code_ofWord (word : UInt64) : (ofWord word).code.toNat = word.toNat % 0x10000 := by
  simp [ofWord]

theorem toNat_jt_ofWord (word : UInt64) :
    (ofWord word).jt.toNat = word.toNat / 0x10000 % 0x100 := by
  simp [ofWord, Nat.shiftRight_eq_div_pow]

theorem toNat_jf_ofWord (word : UInt64) :
    (ofWord word).jf.toNat = word.toNat / 0x1000000 % 0x100 := by
  simp [ofWord, Nat.shiftRight_eq_div_pow]

theorem toNat_k_ofWord (word : UInt64) : (ofWord word).k.toNat = word.toNat / 0x100000000 := by
  have hlt : word.toNat / 0x100000000 < 0x100000000 := by
    have := word.toNat_lt
    omega
  simpa [ofWord, Nat.shiftRight_eq_div_pow] using hlt

/-! ### There and back -/

theorem toWord_ofWord (word : UInt64) : (ofWord word).toWord = word := by
  apply UInt64.toNat_inj.1
  rw [toNat_toWord, toNat_code_ofWord, toNat_jt_ofWord, toNat_jf_ofWord, toNat_k_ofWord]
  omega

theorem ofWord_toWord (raw : RawInstruction) : ofWord raw.toWord = raw := by
  have hword := raw.toNat_toWord
  have hcode := raw.code.toNat_lt
  have hjt := raw.jt.toNat_lt
  have hjf := raw.jf.toNat_lt
  have hcode' : (ofWord raw.toWord).code = raw.code := by
    rw [← UInt16.toNat_inj, toNat_code_ofWord]
    omega
  have hjt' : (ofWord raw.toWord).jt = raw.jt := by
    rw [← UInt8.toNat_inj, toNat_jt_ofWord]
    omega
  have hjf' : (ofWord raw.toWord).jf = raw.jf := by
    rw [← UInt8.toNat_inj, toNat_jf_ofWord]
    omega
  have hk' : (ofWord raw.toWord).k = raw.k := by
    rw [← UInt32.toNat_inj, toNat_k_ofWord]
    omega
  calc ofWord raw.toWord
    _ = ⟨(ofWord raw.toWord).code, (ofWord raw.toWord).jt, (ofWord raw.toWord).jf,
        (ofWord raw.toWord).k⟩ := rfl
    _ = raw := by rw [hcode', hjt', hjf', hk']

end RawInstruction

/-! ### Programs -/

namespace RawProgram

/-- **Programs and lists of words are the same thing.** Writing a program as words and reading it
back gives the program, and reading words as a program and writing it gives the words. The word of
an instruction is its operation code, its two distances and its operand, weighted by 1, 2^16, 2^24
and 2^32; in memory, the bytes of the fields stand in this order. -/
theorem words_bijective :
    (∀ program : RawProgram, ofWords program.toWords = program) ∧
      (∀ words : List UInt64, toWords (ofWords words) = words) ∧
      (∀ program : RawProgram, program.toWords.map UInt64.toNat =
        program.map fun raw => raw.code.toNat + raw.jt.toNat * 0x10000 +
          raw.jf.toNat * 0x1000000 + raw.k.toNat * 0x100000000) ∧
      ∀ program : RawProgram, (program.toWords.map fun word => littleEndian 8 word.toNat) =
        program.map RawInstruction.image := by
  refine ⟨fun program => ?_, fun words => ?_, fun program => ?_, fun program => ?_⟩
  · rw [toWords, ofWords, List.map_map]
    exact List.map_id'' RawInstruction.ofWord_toWord program
  · rw [toWords, ofWords, List.map_map]
    exact List.map_id'' RawInstruction.toWord_ofWord words
  · rw [toWords, List.map_map]
    exact List.map_congr_left fun raw _ => raw.toNat_toWord
  · rw [toWords, List.map_map]
    exact List.map_congr_left fun raw _ => raw.littleEndian_toWord

-- Every byte of the word is different.
example : RawInstruction.toWord ⟨0x0201, 0x03, 0x04, 0x08070605⟩ = 0x0807060504030201 := by decide

end RawProgram

end Bpf

end SyscallFilter
