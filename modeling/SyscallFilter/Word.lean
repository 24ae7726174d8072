/-! 64-bit values as pairs of 32-bit words.

The filter machine has a 32-bit accumulator, so a 64-bit value is always looked
at one half at a time. Splitting and joining are inverse to each other
(`joinWords_halves`, `lowWord_joinWords`, `highWord_joinWords`). -/
namespace SyscallFilter

/-- The least significant half. -/
def lowWord (value : UInt64) : UInt32 :=
  value.toUInt32

/-- The most significant half. -/
def highWord (value : UInt64) : UInt32 :=
  (value >>> 32).toUInt32

def joinWords (high low : UInt32) : UInt64 :=
  high.toUInt64 <<< 32 ||| low.toUInt64

theorem toNat_lowWord (value : UInt64) : (lowWord value).toNat = value.toNat % 0x100000000 := by
  simp [lowWord]

theorem toNat_highWord (value : UInt64) : (highWord value).toNat = value.toNat / 0x100000000 := by
  have := value.toNat_lt
  simp [highWord, Nat.shiftRight_eq_div_pow]
  omega

theorem toNat_joinWords (high low : UInt32) :
    (joinWords high low).toNat = high.toNat * 0x100000000 + low.toNat := by
  have hh := high.toNat_lt
  have hl := low.toNat_lt
  have hs : high.toNat <<< 32 % 0x10000000000000000 = high.toNat <<< 32 := by
    rw [Nat.shiftLeft_eq]
    omega
  simp only [joinWords, UInt64.toNat_or, UInt64.toNat_shiftLeft, UInt32.toNat_toUInt64]
  rw [show (32 : UInt64).toNat % 64 = 32 from rfl, hs, ← Nat.shiftLeft_add_eq_or_of_lt hl,
    Nat.shiftLeft_eq]

theorem joinWords_halves (value : UInt64) : joinWords (highWord value) (lowWord value) = value := by
  apply UInt64.toNat_inj.1
  rw [toNat_joinWords, toNat_highWord, toNat_lowWord]
  omega

theorem lowWord_joinWords (high low : UInt32) : lowWord (joinWords high low) = low := by
  have := low.toNat_lt
  apply UInt32.toNat_inj.1
  rw [toNat_lowWord, toNat_joinWords]
  omega

theorem highWord_joinWords (high low : UInt32) : highWord (joinWords high low) = high := by
  have := low.toNat_lt
  apply UInt32.toNat_inj.1
  rw [toNat_highWord, toNat_joinWords]
  omega

end SyscallFilter
