/-! Hexadecimal text of numbers, as addresses and opcodes are written in messages. -/
namespace SyscallFilter

/-- `0x` and the lower-case digits, without leading zeros. -/
def hex (n : Nat) : String :=
  "0x" ++ String.ofList (Nat.toDigits 16 n)

/-- `0x` and at least four digits. -/
def hex4 (n : Nat) : String :=
  let digits := Nat.toDigits 16 n
  "0x" ++ String.ofList (List.replicate (4 - digits.length) '0' ++ digits)

end SyscallFilter
