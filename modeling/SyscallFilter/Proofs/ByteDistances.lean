import SyscallFilter.Proofs.RuleCode

/-! Distances fit in bytes.

The two distances of a comparison are bytes, so a rule can only be put together as long as every
distance is one. Here the code is written once more with the distance in a byte (`Rule.byteCode?`):
a sum that is no byte, and a length that is none, leave no code at all.

That never happens (`bytes_suffice`). What carries the argument is that the distance of a tail is at
most 254 (`ByteTail.inReach`, `ByteTail.exists_addCondition?`). A relay is put in front as soon as
there is no room left for the longest condition, which brings the distance back to 1, and else the
distance is at most 248, so it stays a byte with 2, 3 or the length of a condition added. -/
namespace SyscallFilter

open Bpf

/-! ### Bytes -/

/-- The sum of two bytes, if it is a byte. -/
def addBytes? (a b : UInt8) : Option UInt8 :=
  if a.toNat + b.toNat < 0x100 then some (a + b) else none

/-- The number as a byte, if it is one. -/
def byte? (n : Nat) : Option UInt8 :=
  if n < 0x100 then some (.ofNat n) else none

theorem addBytes?_eq_some {a b : UInt8} (h : a.toNat + b.toNat < 0x100) :
    addBytes? a b = some (.ofNat (a.toNat + b.toNat)) := by
  rw [addBytes?, if_pos h, UInt8.ofNat_add, UInt8.ofNat_toNat, UInt8.ofNat_toNat]

/-- A number is added to a byte as a byte. -/
theorem byte?_bind_addBytes? {a : UInt8} {n : Nat} (h : a.toNat + n < 0x100) :
    (byte? n).bind (addBytes? a) = some (.ofNat (a.toNat + n)) := by
  have hn : n < 0x100 := Nat.lt_of_le_of_lt (Nat.le_add_left ..) h
  have hbyte : (UInt8.ofNat n).toNat = n := UInt8.toNat_ofNat_of_lt' hn
  have hsum : a.toNat + (UInt8.ofNat n).toNat < 0x100 := by
    rw [hbyte]
    exact h
  rw [byte?, if_pos hn, Option.bind_some, addBytes?_eq_some hsum, hbyte]

/-- A jump over one instruction more than a byte says. -/
def jumpPast (distance : UInt8) : RawInstruction :=
  .plain .jump (distance.toUInt32 + 1)

theorem jumpPast_eq (distance : UInt8) : jumpPast distance = jumpBy (distance.toNat + 1) := by
  have hoperand : distance.toUInt32 + 1 = UInt32.ofNat (distance.toNat + 1) := by
    rw [UInt32.ofNat_add, UInt32.ofNat_uInt8ToNat]
    rfl
  rw [jumpPast, jumpBy, hoperand]

/-! ### Conditions -/

namespace Condition

/-- Checks the high word. A jump over the check of the low word is longer than the distance. -/
def highBytes? (condition : Condition) (distance : UInt8) : Option (List RawInstruction) :=
  let load := loadWord (.argHigh condition.index)
  let high := highWord condition.value
  match condition.comparison with
  | .eq => do
    let past ← addBytes? distance 2
    return [load, .branch .eq high 0 past]
  | .ne => some [load, .branch .eq high 0 2]
  | .ge | .gt => do
    let past ← addBytes? distance 2
    return [load, .branch .gt high 3 0, .branch .eq high 0 past]
  | .le | .lt => do
    let past ← addBytes? distance 3
    return [load, .branch .gt high past 0, .branch .eq high 0 2]
  | .maskedEq mask => do
    let past ← addBytes? distance 3
    return [load, maskWord (highWord mask),
      .branch .eq (highWord (condition.value &&& mask)) 0 past]

/-- The code for a distance in a byte. The check of the low word takes the distance as it is. -/
def byteCode? (condition : Condition) (distance : UInt8) : Option (List RawInstruction) :=
  match condition.width with
  | .dword => some (condition.lowCode distance.toNat)
  | .qword => do
    let high ← condition.highBytes? distance
    return high ++ condition.lowCode distance.toNat

variable {condition : Condition} {distance : UInt8}

theorem highBytes?_eq (h : distance.toNat + 3 < 0x100) :
    condition.highBytes? distance = some (condition.highCode distance.toNat) := by
  have htwo : addBytes? distance 2 = some (.ofNat (distance.toNat + 2)) :=
    addBytes?_eq_some (Nat.lt_of_succ_lt h)
  have hthree : addBytes? distance 3 = some (.ofNat (distance.toNat + 3)) := addBytes?_eq_some h
  unfold highBytes? highCode
  cases condition.comparison with
  | eq | ge | gt =>
    rw [htwo]
    rfl
  | le | lt | maskedEq mask =>
    rw [hthree]
    rfl
  | ne => rfl

/-- With room for 3 more, the code in bytes is the code. -/
theorem byteCode?_eq (h : distance.toNat + 3 < 0x100) :
    condition.byteCode? distance = some (condition.code distance.toNat) := by
  unfold byteCode? code
  cases condition.width with
  | dword => rfl
  | qword =>
    rw [highBytes?_eq h]
    rfl

end Condition

/-! ### Tails -/

/-- The end of a rule, with its distance in a byte. -/
structure ByteTail where
  code : List RawInstruction
  distance : UInt8
  deriving DecidableEq, Repr

namespace ByteTail

def toTail (tail : ByteTail) : RuleTail :=
  ⟨tail.code, tail.distance.toNat⟩

/-- Puts a relay in front if no condition of any length would leave the distance a byte. -/
def relayed (tail : ByteTail) : ByteTail :=
  if (addBytes? tail.distance (.ofNat (Condition.maxCodeLength + 1))).isSome then tail
  else ⟨[jumpBy 2, jumpPast tail.distance, jumpPast tail.distance] ++ tail.code, 1⟩

def addCondition? (condition : Condition) (tail : ByteTail) : Option ByteTail := do
  let code ← condition.byteCode? tail.relayed.distance
  let distance ← (byte? code.length).bind (addBytes? tail.relayed.distance)
  return ⟨code ++ tail.relayed.code, distance⟩

/-- Putting the condition in front of the tail stays in reach of a comparison. -/
structure InReach (condition : Condition) (tail : ByteTail) : Prop where
  /-- The condition is asked for its code with a distance that leaves room for the longest code. -/
  asked : tail.relayed.distance ≤ 248
  /-- The longer distances in its code are bytes. -/
  past : tail.relayed.distance.toNat + 2 ≤ 255 ∧ tail.relayed.distance.toNat + 3 ≤ 255
  code : ∃ code, condition.byteCode? tail.relayed.distance = some code ∧
    2 ≤ code.length ∧ code.length ≤ 6
  next : ∃ next, addCondition? condition tail = some next ∧ next.distance ≤ 254
  /-- A relay is not put in front before it has to be, so its last two jumps are long. -/
  relay : tail.relayed = tail ∨ ∃ operand : UInt32, 250 ≤ operand ∧ operand ≤ 255 ∧
    tail.relayed.code = .plain .jump 2 :: .plain .jump operand :: .plain .jump operand :: tail.code

variable {tail : ByteTail} {condition : Condition}

theorem relayed_eq (tail : ByteTail) :
    tail.relayed =
      if tail.distance.toNat ≤ 248 then tail
      else ⟨[jumpBy 2, jumpPast tail.distance, jumpPast tail.distance] ++ tail.code, 1⟩ := by
  have hroom : (addBytes? tail.distance (.ofNat (Condition.maxCodeLength + 1))).isSome ↔
      tail.distance.toNat ≤ 248 := by
    have hseven : (UInt8.ofNat (Condition.maxCodeLength + 1)).toNat = 7 := rfl
    unfold addBytes?
    rw [hseven]
    split <;> simp <;> omega
  simp only [relayed, hroom]

/-- Relays are put in front of the same tails as with distances that are numbers. -/
theorem toTail_relayed (tail : ByteTail) : tail.relayed.toTail = tail.toTail.relayed := by
  rw [relayed_eq, RuleTail.relayed, jumpPast_eq]
  by_cases h : tail.distance.toNat ≤ 248
  · rw [if_pos h, if_pos (by simp only [toTail, Condition.maxCodeLength]; omega)]
  · rw [if_neg h, if_neg (by simp only [toTail, Condition.maxCodeLength]; omega)]
    rfl

theorem toNat_distance_relayed_le (tail : ByteTail) : tail.relayed.distance.toNat ≤ 248 := by
  have hle := tail.toTail.distance_relayed_le
  rwa [← toTail_relayed] at hle

/-- The step of the loop: there is a next tail, it is the one with numbers for distances, and its
distance leaves room for one more. -/
theorem exists_addCondition? (condition : Condition) (tail : ByteTail) :
    ∃ next, addCondition? condition tail = some next ∧
      next.toTail = tail.toTail.addCondition condition ∧ next.distance.toNat ≤ 254 := by
  have hroom := tail.toNat_distance_relayed_le
  have hlong := condition.length_code_le tail.relayed.distance.toNat
  have hmax : Condition.maxCodeLength = 6 := rfl
  have hsum : tail.relayed.distance.toNat +
      (condition.code tail.relayed.distance.toNat).length < 0x100 := by omega
  have hdistance := UInt8.toNat_ofNat_of_lt' hsum
  refine ⟨⟨condition.code tail.relayed.distance.toNat ++ tail.relayed.code,
    .ofNat (tail.relayed.distance.toNat +
      (condition.code tail.relayed.distance.toNat).length)⟩, ?_, ?_, ?_⟩
  · rw [addCondition?, Condition.byteCode?_eq (by omega)]
    show ((byte? _).bind _).bind _ = _
    rw [byte?_bind_addBytes? hsum]
    rfl
  · rw [RuleTail.addCondition, ← toTail_relayed]
    simp only [toTail, hdistance]
  · rw [hdistance]
    omega

/-- What a distance of at most 254 keeps in reach. -/
theorem inReach (condition : Condition) (h : tail.distance ≤ 254) : InReach condition tail := by
  have hroom := tail.toNat_distance_relayed_le
  have hreach : tail.distance.toNat ≤ 254 := UInt8.le_iff_toNat_le.1 h
  obtain ⟨next, hnext, -, hle⟩ := exists_addCondition? condition tail
  refine ⟨UInt8.le_iff_toNat_le.2 hroom, by omega, ?_,
    ⟨next, hnext, UInt8.le_iff_toNat_le.2 hle⟩, ?_⟩
  · exact ⟨_, Condition.byteCode?_eq (by omega), condition.two_le_length_code _,
      condition.length_code_le _⟩
  · rw [relayed_eq]
    split
    · exact .inl rfl
    · next hfar =>
      have hoperand : (tail.distance.toUInt32 + 1).toNat = tail.distance.toNat + 1 := by
        rw [UInt32.toNat_add, UInt8.toNat_toUInt32, UInt32.toNat_one]
        exact Nat.mod_eq_of_lt (by omega)
      refine .inr ⟨tail.distance.toUInt32 + 1, ?_, ?_, rfl⟩
      · rw [UInt32.le_iff_toNat_le, hoperand]
        show 250 ≤ _
        omega
      · rw [UInt32.le_iff_toNat_le, hoperand]
        show _ ≤ 255
        omega

end ByteTail

/-! ### Rules -/

namespace Rule

/-- The rule without its two entries. -/
def byteTail? (rule : Rule) : Option ByteTail :=
  rule.conditions.foldrM ByteTail.addCondition? ⟨[returnAction rule.action], 1⟩

def byteCode? (rule : Rule) : Option (List RawInstruction) := do
  let tail ← rule.byteTail?
  return [jumpBy 1, jumpPast tail.distance] ++ tail.code

/-- One round of the loop over the conditions. -/
theorem byteTail?_cons (condition : Condition) (rest : List Condition) (action : Action) :
    byteTail? ⟨condition :: rest, action⟩ =
      (byteTail? ⟨rest, action⟩).bind (ByteTail.addCondition? condition) :=
  List.foldrM_cons

/-- The loop over the conditions, from the last to the first, comes to an end with a distance in
reach. -/
theorem exists_byteTail? (rule : Rule) :
    ∃ tail, rule.byteTail? = some tail ∧ tail.toTail = rule.tail ∧ tail.distance ≤ 254 := by
  obtain ⟨conditions, action⟩ := rule
  induction conditions with
  | nil => exact ⟨⟨[returnAction action], 1⟩, rfl, rfl, show (1 : UInt8) ≤ 254 by decide⟩
  | cons condition rest ih =>
    obtain ⟨tail, htail, heq, -⟩ := ih
    obtain ⟨next, hnext, hnext_eq, hle⟩ := ByteTail.exists_addCondition? condition tail
    refine ⟨next, ?_, ?_, UInt8.le_iff_toNat_le.2 hle⟩
    · rw [byteTail?_cons, htail, Option.bind_some, hnext]
    · rw [hnext_eq, heq]
      rfl

/-- **Bytes suffice for the distances of a rule.** A rule with any number of conditions can be put
together with its distance in a byte, and that gives its code. In every round of the loop, whatever
conditions have been put in place before, the code of the condition has from 2 to 6 instructions and
is asked for with a distance of at most 248; the two longer distances are bytes too, the distance
after the round is at most 254, and the relay, if there is one, has operands from 250 to 255 in its
second and third jump. -/
theorem bytes_suffice (rule : Rule) :
    rule.byteCode? = some rule.code ∧
      ∀ condition rest, condition :: rest <:+ rule.conditions →
        ∃ tail, byteTail? ⟨rest, rule.action⟩ = some tail ∧ tail.InReach condition ∧
          byteTail? ⟨condition :: rest, rule.action⟩ = tail.addCondition? condition := by
  refine ⟨?_, fun condition rest _ => ?_⟩
  · obtain ⟨tail, htail, heq, -⟩ := rule.exists_byteTail?
    rw [byteCode?, htail, code, ← heq]
    show some ([jumpBy 1, jumpPast tail.distance] ++ tail.code) = _
    rw [jumpPast_eq]
    rfl
  · obtain ⟨tail, htail, -, hle⟩ := exists_byteTail? ⟨rest, rule.action⟩
    refine ⟨tail, htail, ByteTail.inReach condition hle, ?_⟩
    rw [byteTail?_cons, htail, Option.bind_some]

/-- The longest conditions, one more than are in reach without a relay. -/
def overlong : Rule :=
  ⟨List.replicate 43 ⟨0, .qword, .maskedEq 0, 0⟩, .allow⟩

/-- The last round begins 253 instructions in front of where it has to land, and puts a relay
there. -/
theorem bytes_suffice_overlong :
    overlong.byteCode? = some overlong.code ∧ overlong.code.length = 264 ∧
      ∃ tail, byteTail? ⟨List.replicate 42 ⟨0, .qword, .maskedEq 0, 0⟩, .allow⟩ = some tail ∧
        tail.distance = 253 ∧ tail.InReach ⟨0, .qword, .maskedEq 0, 0⟩ := by
  obtain ⟨hcode, hrounds⟩ := bytes_suffice overlong
  obtain ⟨tail, htail, hreach, -⟩ := hrounds ⟨0, .qword, .maskedEq 0, 0⟩
    (List.replicate 42 ⟨0, .qword, .maskedEq 0, 0⟩) (List.suffix_refl _)
  have hdistance : (byteTail? ⟨List.replicate 42 ⟨0, .qword, .maskedEq 0, 0⟩, .allow⟩).map
      (·.distance) = some 253 := by decide +kernel
  refine ⟨hcode, by decide +kernel, tail, htail, ?_, hreach⟩
  replace htail : byteTail? ⟨List.replicate 42 ⟨0, .qword, .maskedEq 0, 0⟩, .allow⟩ = some tail :=
    htail
  rw [htail] at hdistance
  exact Option.some.inj hdistance

end Rule

end SyscallFilter
