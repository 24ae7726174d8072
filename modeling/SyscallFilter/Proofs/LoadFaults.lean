import SyscallFilter.Proofs.Loading

/-! Which programs are refused, and the fault that is named.

An operation is recognised by the fields of its code (`Opcode.ofFields?`): a class, an operation
of that class, and no other bit set. `RawInstruction.WellFormed` lists the instructions that can
stand at an index of a program, and `RawInstruction.Defect` what can be wrong with one, each with
its fault; decoding tells the two apart (`decode_isOk_iff_wellFormed`, `decode_eq_error_iff`).

A program has many instructions and may have many defects. Decoding stops at the first of them
(`decodeFrom_eq_error_iff`), so that the fault of a program that is refused is determined
(`RawProgram.Refused`): by its length, else by its first defect, else by its last instruction. -/
namespace SyscallFilter.Bpf

theorem bind_eq_error_iff {ε α β : Type} {x : Except ε α} {f : α → Except ε β} {e : ε} :
    x >>= f = .error e ↔ x = .error e ∨ ∃ a, x = .ok a ∧ f a = .error e := by
  cases x <;> simp [bind, Except.bind]

/-! ### Operation codes as fields -/

/-- Bits 4 to 7 of the code. -/
def AluOp.selector : AluOp → UInt16
  | add => 0x00
  | sub => 0x10
  | mul => 0x20
  | div => 0x30
  | or => 0x40
  | and => 0x50
  | lsh => 0x60
  | rsh => 0x70
  | neg => 0x80
  | mod => 0x90
  | xor => 0xa0

/-- Bits 4 to 7 of the code. A jump without a comparison has 0 there. -/
def Test.selector : Test → UInt16
  | eq => 0x10
  | gt => 0x20
  | ge => 0x30
  | set => 0x40

def AluOp.ofSelector? (selector : UInt16) : Option AluOp :=
  all.find? (·.selector = selector)

def Opcode.ofJumpSelector? (selector : UInt16) : Option Opcode :=
  if selector = 0 then some jump else (Test.all.find? (·.selector = selector)).map branch

/-- Takes a code apart. Bits 0 to 2 are the class of the operation, and bits 4 to 7 select an
operation of its class. Arithmetic and jumps leave all other bits clear: bit 3 would take the
operand from elsewhere. -/
def Opcode.ofFields? (code : UInt16) : Option Opcode :=
  match (code &&& 0x07).toNat with
  | 0 => if code = 0x20 then some load else none
  | 4 => if code = 0x04 + (code &&& 0xf0) then (AluOp.ofSelector? (code &&& 0xf0)).map alu else none
  | 5 => if code = 0x05 + (code &&& 0xf0) then ofJumpSelector? (code &&& 0xf0) else none
  | 6 => if code = 0x06 then some ret else none
  | _ => none

theorem AluOp.code_of_ofSelector? {selector : UInt16} {op : AluOp}
    (h : ofSelector? selector = some op) : op.code = 0x04 + selector := by
  have hselector : op.selector = selector := by simpa using List.find?_some h
  rw [← hselector]
  cases op <;> rfl

theorem Opcode.code_of_ofJumpSelector? {selector : UInt16} {op : Opcode}
    (h : ofJumpSelector? selector = some op) : op.code = 0x05 + selector := by
  unfold ofJumpSelector? at h
  split at h
  · next hzero =>
    cases h
    rw [hzero]
    rfl
  · obtain ⟨test, htest, rfl⟩ := Option.map_eq_some_iff.1 h
    have hselector : test.selector = selector := by simpa using List.find?_some htest
    rw [← hselector]
    cases test <;> rfl

theorem Opcode.code_of_ofFields? {code : UInt16} {op : Opcode} (h : ofFields? code = some op) :
    op.code = code := by
  unfold ofFields? at h
  split at h
  case h_5 => cases h
  all_goals obtain ⟨hcode, h⟩ := Option.ite_none_right_eq_some.1 h
  case h_1 =>
    cases h
    exact hcode.symm
  case h_2 =>
    obtain ⟨alu, halu, rfl⟩ := Option.map_eq_some_iff.1 h
    exact (AluOp.code_of_ofSelector? halu).trans hcode.symm
  case h_3 => exact (code_of_ofJumpSelector? h).trans hcode.symm
  case h_4 =>
    cases h
    exact hcode.symm

theorem Opcode.ofFields?_code (op : Opcode) : ofFields? op.code = some op := by
  cases op with
  | alu op => cases op <;> decide
  | branch test => cases test <;> decide
  | _ => decide

/-- The table of codes and the fields of a code say the same. -/
theorem Opcode.ofCode?_eq_ofFields? (code : UInt16) : ofCode? code = ofFields? code := by
  apply Option.ext
  intro op
  rw [ofCode?_eq_some_iff]
  constructor
  · intro h
    rw [← h]
    exact ofFields?_code op
  · exact code_of_ofFields?

theorem Opcode.ofCode?_eq_none_iff {code : UInt16} :
    ofCode? code = none ↔ ∀ op : Opcode, op.code ≠ code := by
  rw [Option.eq_none_iff_forall_ne_some]
  exact forall_congr' fun op => not_congr ofCode?_eq_some_iff

/-! ### Single instructions -/

/-- The instruction is one of the machine's, its operand is one that the operation has a result
for, and its jumps stay inside the program. -/
inductive RawInstruction.WellFormed (raw : RawInstruction) (pc length : Nat) : Prop
  | load (hcode : raw.code = 0x20) (haligned : raw.k.toNat % 4 = 0) (hinside : raw.k.toNat < 64)
  | alu (op : AluOp) (hcode : raw.code = op.code) (hk : op.Accepts raw.k)
  | jump (hcode : raw.code = 0x05) (hk : pc + 1 + raw.k.toNat < length)
  | branch (test : Test) (hcode : raw.code = test.code) (hjt : pc + 1 + raw.jt.toNat < length)
      (hjf : pc + 1 + raw.jf.toNat < length)
  | ret (hcode : raw.code = 0x06)

/-- What is wrong with an instruction, and the fault that this is. A jump is named by where it
leads; where both jumps of a comparison lead outside, the first of them is. -/
inductive RawInstruction.Defect (raw : RawInstruction) (pc length : Nat) : Fault → Prop
  | opcode (hcode : ∀ op : Opcode, op.code ≠ raw.code) :
      Defect raw pc length (.unsupportedOpcode raw.code pc)
  | offset (hcode : raw.code = 0x20) (hk : ¬(raw.k.toNat % 4 = 0 ∧ raw.k.toNat < 64)) :
      Defect raw pc length (.invalidLoadOffset raw.k pc)
  | division (op : AluOp) (hop : op = .div ∨ op = .mod) (hcode : raw.code = op.code)
      (hk : raw.k = 0) : Defect raw pc length (.divisionByZero pc)
  | shift (op : AluOp) (hop : op = .lsh ∨ op = .rsh) (hcode : raw.code = op.code)
      (hk : ¬raw.k < 32) : Defect raw pc length (.invalidShift raw.k pc)
  | jump (hcode : raw.code = 0x05) (hk : length ≤ pc + 1 + raw.k.toNat) :
      Defect raw pc length (.jumpOutOfRange pc (pc + 1 + raw.k.toNat) length)
  | jumpTrue (test : Test) (hcode : raw.code = test.code) (hjt : length ≤ pc + 1 + raw.jt.toNat) :
      Defect raw pc length (.jumpOutOfRange pc (pc + 1 + raw.jt.toNat) length)
  | jumpFalse (test : Test) (hcode : raw.code = test.code)
      (hjt : pc + 1 + raw.jt.toNat < length) (hjf : length ≤ pc + 1 + raw.jf.toNat) :
      Defect raw pc length (.jumpOutOfRange pc (pc + 1 + raw.jf.toNat) length)

theorem ofOffset?_isSome_iff {offset : UInt32} :
    (Field.ofOffset? offset).isSome ↔ offset.toNat % 4 = 0 ∧ offset.toNat < 64 := by
  unfold Field.ofOffset?
  split
  · next h =>
    simp only [h, and_self, iff_true]
    split <;> rfl
  · next h => simp [h]

theorem AluOp.check_eq_error_iff {op : AluOp} {k : UInt32} {pc : Nat} {fault : Fault} :
    op.check k pc = .error fault ↔
      (op = .div ∨ op = .mod) ∧ k = 0 ∧ fault = .divisionByZero pc ∨
      (op = .lsh ∨ op = .rsh) ∧ ¬k < 32 ∧ fault = .invalidShift k pc := by
  cases op with
  | div | mod => by_cases hk : k = 0 <;> simp [check, hk, eq_comm]
  | lsh | rsh => by_cases hk : k < 32 <;> simp [check, hk, eq_comm]
  | _ => simp [check]

theorem le_maxIndex {length : Nat} (h : length ≤ maxLength) : length ≤ maxIndex :=
  Nat.le_trans h (by decide)

/-- No distance is so long that the index it leads to could not be named. -/
theorem jumpTarget_eq_error_iff {pc distance length : Nat} {fault : Fault} (hpc : pc < maxLength)
    (hd : distance < 0x100000000) :
    jumpTarget pc distance length = .error fault ↔
      length ≤ pc + 1 + distance ∧ fault = .jumpOutOfRange pc (pc + 1 + distance) length := by
  have hindex : pc + 1 + distance ≤ maxIndex := by
    unfold maxLength at hpc
    unfold maxIndex
    omega
  simp only [jumpTarget, Nat.min_eq_left hindex]
  split
  · next h =>
    simp only [reduceCtorEq, false_iff]
    omega
  · next h =>
    simp only [Except.error.injEq, eq_comm]
    exact ⟨fun he => ⟨Nat.le_of_not_lt h, he⟩, fun he => he.2⟩

theorem toNat_lt_distance (distance : UInt8) : distance.toNat < 0x100000000 :=
  Nat.lt_trans distance.toNat_lt (by decide)

section

variable {raw : RawInstruction} {pc length after : Nat} {fault : Fault}

theorem ofCode?_of_code_eq (op : Opcode) (h : raw.code = op.code) :
    Opcode.ofCode? raw.code = some op :=
  Opcode.ofCode?_eq_some_iff.2 h.symm

theorem wellFormed_iff_fits : raw.WellFormed pc (pc + 1 + after) ↔ raw.Fits after := by
  constructor
  · intro h
    unfold RawInstruction.Fits
    cases h with
    | load hcode haligned hinside =>
      rw [ofCode?_of_code_eq .load hcode]
      exact ofOffset?_isSome_iff.2 ⟨haligned, hinside⟩
    | alu op hcode hk =>
      rw [ofCode?_of_code_eq (.alu op) hcode]
      exact hk
    | jump hcode hk =>
      rw [ofCode?_of_code_eq .jump hcode]
      exact Nat.lt_of_add_lt_add_left hk
    | branch test hcode hjt hjf =>
      rw [ofCode?_of_code_eq (.branch test) hcode]
      exact ⟨Nat.lt_of_add_lt_add_left hjt, Nat.lt_of_add_lt_add_left hjf⟩
    | ret hcode =>
      rw [ofCode?_of_code_eq .ret hcode]
      trivial
  · intro h
    unfold RawInstruction.Fits at h
    cases hop : Opcode.ofCode? raw.code with
    | none =>
      rw [hop] at h
      cases h
    | some op =>
      have hcode := (Opcode.ofCode?_eq_some_iff.1 hop).symm
      rw [hop] at h
      cases op with
      | load =>
        obtain ⟨haligned, hinside⟩ := ofOffset?_isSome_iff.1 h
        exact .load hcode haligned hinside
      | alu op => exact .alu op hcode h
      | jump => exact .jump hcode (Nat.add_lt_add_left h _)
      | branch test =>
        exact .branch test hcode (Nat.add_lt_add_left h.1 _) (Nat.add_lt_add_left h.2 _)
      | ret => exact .ret hcode

theorem decode_isOk_iff_wellFormed (hpc : pc < length) (hl : length ≤ maxLength) :
    (∃ i, Instruction.decode raw pc length = .ok i) ↔ raw.WellFormed pc length := by
  have hlength : pc + 1 + (length - (pc + 1)) = length := Nat.add_sub_of_le hpc
  rw [← hlength] at hl ⊢
  exact (decode_isOk_iff (le_maxIndex hl)).trans wellFormed_iff_fits.symm

theorem defect_of_decode (hpc : pc < maxLength)
    (h : Instruction.decode raw pc length = .error fault) : raw.Defect pc length fault := by
  unfold Instruction.decode at h
  cases hop : Opcode.ofCode? raw.code with
  | none =>
    rw [hop] at h
    cases h
    exact .opcode (Opcode.ofCode?_eq_none_iff.1 hop)
  | some op =>
    have hcode := (Opcode.ofCode?_eq_some_iff.1 hop).symm
    cases op <;> simp only [hop] at h
    case load =>
      split at h
      · cases h
      · next hfield =>
        cases h
        exact .offset hcode (mt ofOffset?_isSome_iff.2 (by simp [hfield]))
    case alu op =>
      rcases bind_eq_error_iff.1 h with hcheck | ⟨_, _, h⟩
      · rcases AluOp.check_eq_error_iff.1 hcheck with ⟨hdivides, hk, rfl⟩ | ⟨hshifts, hk, rfl⟩
        · exact .division op hdivides hcode hk
        · exact .shift op hshifts hcode hk
      · cases h
    case jump =>
      rcases bind_eq_error_iff.1 h with htarget | ⟨_, _, h⟩
      · obtain ⟨hk, rfl⟩ := (jumpTarget_eq_error_iff hpc raw.k.toNat_lt).1 htarget
        exact .jump hcode hk
      · cases h
    case branch test =>
      rcases bind_eq_error_iff.1 h with htrue | ⟨target, htrue, h⟩
      · obtain ⟨hjt, rfl⟩ := (jumpTarget_eq_error_iff hpc (toNat_lt_distance _)).1 htrue
        exact .jumpTrue test hcode hjt
      · have hjt : pc + 1 + raw.jt.toNat < length := by
          by_contra hout
          have herror := (jumpTarget_eq_error_iff hpc (toNat_lt_distance _)).2
            ⟨Nat.le_of_not_lt hout, rfl⟩
          cases htrue.symm.trans herror
        rcases bind_eq_error_iff.1 h with hfalse | ⟨_, _, h⟩
        · obtain ⟨hjf, rfl⟩ := (jumpTarget_eq_error_iff hpc (toNat_lt_distance _)).1 hfalse
          exact .jumpFalse test hcode hjt hjf
        · cases h
    case ret => cases h

theorem RawInstruction.Defect.decode_eq (h : raw.Defect pc length fault) (hpc : pc < maxLength)
    (hl : length ≤ maxLength) : Instruction.decode raw pc length = .error fault := by
  unfold Instruction.decode
  cases h with
  | opcode hcode => rw [Opcode.ofCode?_eq_none_iff.2 hcode]
  | offset hcode hk =>
    have hfield : Field.ofOffset? raw.k = none := by simpa using mt ofOffset?_isSome_iff.1 hk
    rw [ofCode?_of_code_eq .load hcode]
    simp only [hfield]
  | division op hop hcode hk =>
    have hcheck : op.check raw.k pc = .error _ :=
      AluOp.check_eq_error_iff.2 (.inl ⟨hop, hk, rfl⟩)
    rw [ofCode?_of_code_eq (.alu op) hcode]
    exact bind_eq_error_iff.2 (.inl hcheck)
  | shift op hop hcode hk =>
    have hcheck : op.check raw.k pc = .error _ :=
      AluOp.check_eq_error_iff.2 (.inr ⟨hop, hk, rfl⟩)
    rw [ofCode?_of_code_eq (.alu op) hcode]
    exact bind_eq_error_iff.2 (.inl hcheck)
  | jump hcode hk =>
    have htarget := (jumpTarget_eq_error_iff hpc raw.k.toNat_lt).2 ⟨hk, rfl⟩
    rw [ofCode?_of_code_eq .jump hcode]
    exact bind_eq_error_iff.2 (.inl htarget)
  | jumpTrue test hcode hjt =>
    have htrue := (jumpTarget_eq_error_iff hpc (toNat_lt_distance _)).2 ⟨hjt, rfl⟩
    rw [ofCode?_of_code_eq (.branch test) hcode]
    exact bind_eq_error_iff.2 (.inl htrue)
  | jumpFalse test hcode hjt hjf =>
    have htrue := (jumpTarget_eq_ok_iff (le_maxIndex hl)).2 ⟨rfl, hjt⟩
    have hfalse := (jumpTarget_eq_error_iff hpc (toNat_lt_distance _)).2 ⟨hjf, rfl⟩
    rw [ofCode?_of_code_eq (.branch test) hcode]
    exact bind_eq_error_iff.2 (.inr ⟨_, htrue, bind_eq_error_iff.2 (.inl hfalse)⟩)

/-- Decoding fails exactly for a defect, with its fault. -/
theorem decode_eq_error_iff (hpc : pc < length) (hl : length ≤ maxLength) :
    Instruction.decode raw pc length = .error fault ↔ raw.Defect pc length fault := by
  have hpc' : pc < maxLength := Nat.lt_of_lt_of_le hpc hl
  constructor
  · exact defect_of_decode hpc'
  · intro h
    exact h.decode_eq hpc' hl

theorem RawInstruction.Defect.not_wellFormed (h : raw.Defect pc length fault) (hpc : pc < length)
    (hl : length ≤ maxLength) : ¬raw.WellFormed pc length := by
  intro hwell
  obtain ⟨i, hi⟩ := (decode_isOk_iff_wellFormed hpc hl).2 hwell
  cases hi.symm.trans ((decode_eq_error_iff hpc hl).2 h)

end

/-! ### Whole programs -/

/-- Decoding stops at the first instruction that cannot be decoded. -/
theorem decodeFrom_eq_error_iff {length pc : Nat} {raws : RawProgram} {fault : Fault} :
    Program.decodeFrom length pc raws = .error fault ↔
      ∃ k raw, raws[k]? = some raw ∧ Instruction.decode raw (pc + k) length = .error fault ∧
        ∀ j < k, ∀ earlier, raws[j]? = some earlier →
          ∃ i, Instruction.decode earlier (pc + j) length = .ok i := by
  induction raws generalizing pc with
  | nil => simp [Program.decodeFrom]
  | cons head rest ih =>
    rw [Program.decodeFrom, bind_eq_error_iff]
    constructor
    · intro h
      rcases h with hhead | ⟨i, hhead, h⟩
      · exact ⟨0, head, rfl, hhead, fun j hj => absurd hj (Nat.not_lt_zero j)⟩
      · rcases bind_eq_error_iff.1 h with hrest | ⟨_, _, h⟩
        · obtain ⟨k, raw, hk, herror, hfirst⟩ := ih.1 hrest
          rw [Nat.add_right_comm] at herror
          refine ⟨k + 1, raw, hk, herror, fun j hj earlier hearlier => ?_⟩
          cases j with
          | zero =>
            obtain rfl : head = earlier := by simpa using hearlier
            exact ⟨i, hhead⟩
          | succ j =>
            have hdecoded := hfirst j (Nat.lt_of_succ_lt_succ hj) earlier (by simpa using hearlier)
            rwa [Nat.add_right_comm] at hdecoded
        · cases h
    · intro h
      obtain ⟨k, raw, hk, herror, hfirst⟩ := h
      cases k with
      | zero =>
        obtain rfl : head = raw := by simpa using hk
        exact .inl herror
      | succ k =>
        obtain ⟨i, hhead⟩ := hfirst 0 (Nat.succ_pos k) head rfl
        have hrest : Program.decodeFrom length (pc + 1) rest = .error fault := by
          refine ih.2 ⟨k, raw, by simpa using hk, ?_, fun j hj earlier hearlier => ?_⟩
          · rwa [Nat.add_right_comm]
          · rw [Nat.add_right_comm]
            exact hfirst (j + 1) (Nat.succ_lt_succ hj) earlier (by simpa using hearlier)
        exact .inr ⟨i, hhead, bind_eq_error_iff.2 (.inl hrest)⟩

/-- What is decoded ends in a return if the program does. -/
theorem getLast?_decodeFrom {raws : RawProgram} {is : List Instruction}
    (h : Program.decodeFrom raws.length 0 raws = .ok is) (hl : raws.length ≤ maxLength) :
    (∃ value, is.getLast? = some (.ret value)) ↔
      ∃ last, raws.getLast? = some last ∧ last.code = 0x06 := by
  obtain ⟨hlength, hget⟩ := decodeFrom_eq_ok_iff.1 h
  rw [List.getLast?_eq_getElem?, List.getLast?_eq_getElem?, hlength]
  constructor
  · intro hret
    obtain ⟨value, hvalue⟩ := hret
    obtain ⟨hlt, -⟩ := List.getElem?_eq_some_iff.1 hvalue
    have hlast := List.getElem?_eq_getElem (hlength ▸ hlt)
    obtain ⟨i, hi, hk⟩ := hget _ _ hlast
    obtain rfl := Option.some.inj (hvalue.symm.trans hk)
    exact ⟨_, hlast, (decodes_of_decode (le_maxIndex hl) hi).code_eq⟩
  · intro hret
    obtain ⟨last, hlast, hcode⟩ := hret
    obtain ⟨i, hi, hk⟩ := hget _ _ hlast
    rw [Instruction.decode, ofCode?_of_code_eq .ret hcode] at hi
    cases hi
    exact ⟨last.k, hk⟩

/-- The program has between 1 and 4096 instructions, none has a defect, and the last returns. -/
structure RawProgram.WellFormed (raw : RawProgram) : Prop where
  nonempty : 1 ≤ raw.length
  bounded : raw.length ≤ 4096
  instructions : ∀ (pc : Nat) (r : RawInstruction), raw[pc]? = some r → r.WellFormed pc raw.length
  final : ∃ last, raw.getLast? = some last ∧ last.code = 0x06

/-- Why a program is refused, and the fault that is named: its length before all else, then the
defect of the first instruction that has one, and a missing return only if there is none. -/
inductive RawProgram.Refused (raw : RawProgram) : Fault → Prop
  | empty (h : raw.length = 0) : Refused raw .emptyProgram
  | tooLong (h : 4096 < raw.length) : Refused raw (.programTooLong raw.length)
  | instruction {pc : Nat} {r : RawInstruction} {fault : Fault} (hbounded : raw.length ≤ 4096)
      (hr : raw[pc]? = some r) (hdefect : r.Defect pc raw.length fault)
      (hfirst : ∀ earlier < pc, ∀ r', raw[earlier]? = some r' →
        r'.WellFormed earlier raw.length) : Refused raw fault
  | missingReturn (hnonempty : 1 ≤ raw.length) (hbounded : raw.length ≤ 4096)
      (hinstructions : ∀ (pc : Nat) (r : RawInstruction), raw[pc]? = some r →
        r.WellFormed pc raw.length)
      (hfinal : ∀ last, raw.getLast? = some last → last.code ≠ 0x06) : Refused raw .missingReturn

section

variable {raw : RawProgram} {fault : Fault}

theorem load_isOk_iff_wellFormed :
    (∃ program, Program.load raw = .ok program) ↔ raw.WellFormed := by
  rw [load_isOk_iff]
  have hfits : (∀ (pc : Nat) (r : RawInstruction), raw[pc]? = some r →
      r.Fits (raw.length - (pc + 1))) ↔
      ∀ (pc : Nat) (r : RawInstruction), raw[pc]? = some r → r.WellFormed pc raw.length := by
    refine forall₂_congr fun pc r => forall_congr' fun hr => ?_
    obtain ⟨hpc, -⟩ := List.getElem?_eq_some_iff.1 hr
    rw [← @wellFormed_iff_fits r pc, Nat.add_sub_of_le hpc]
  rw [hfits]
  constructor
  · intro h
    obtain ⟨hbounded, hinstructions, last, hlast, hcode⟩ := h
    exact ⟨List.length_pos_of_mem (List.mem_of_getLast? hlast), hbounded, hinstructions, last,
      hlast, hcode⟩
  · intro h
    exact ⟨h.bounded, h.instructions, h.final⟩

theorem wellFormed_of_decode (hbounded : raw.length ≤ maxLength) {pc : Nat} {r : RawInstruction}
    (hr : raw[pc]? = some r) (h : ∃ i, Instruction.decode r pc raw.length = .ok i) :
    r.WellFormed pc raw.length := by
  obtain ⟨hpc, -⟩ := List.getElem?_eq_some_iff.1 hr
  exact (decode_isOk_iff_wellFormed hpc hbounded).1 h

theorem refused_of_load (h : Program.load raw = .error fault) : raw.Refused fault := by
  unfold Program.load at h
  split at h
  · next hempty =>
    cases h
    exact .empty hempty
  · next hne =>
    split at h
    · next hlong =>
      cases h
      exact .tooLong hlong
    · next hshort =>
      have hbounded : raw.length ≤ maxLength := Nat.le_of_not_lt hshort
      rcases bind_eq_error_iff.1 h with hdecode | ⟨is, his, h⟩
      · obtain ⟨pc, r, hr, herror, hfirst⟩ := decodeFrom_eq_error_iff.1 hdecode
        simp only [Nat.zero_add] at herror hfirst
        obtain ⟨hpc, -⟩ := List.getElem?_eq_some_iff.1 hr
        exact .instruction hbounded hr ((decode_eq_error_iff hpc hbounded).1 herror)
          fun j hj r' hr' => wellFormed_of_decode hbounded hr' (hfirst j hj r' hr')
      · split at h
        · cases h
        · next hlast =>
          cases h
          obtain ⟨-, hget⟩ := decodeFrom_eq_ok_iff.1 his
          refine .missingReturn (Nat.pos_of_ne_zero hne) hbounded (fun pc r hr => ?_) ?_
          · obtain ⟨i, hi, -⟩ := hget pc r hr
            rw [Nat.zero_add] at hi
            exact wellFormed_of_decode hbounded hr ⟨i, hi⟩
          · intro last hget hcode
            obtain ⟨value, hvalue⟩ := (getLast?_decodeFrom his hbounded).2 ⟨last, hget, hcode⟩
            exact hlast value hvalue

theorem RawProgram.Refused.load_eq (h : raw.Refused fault) : Program.load raw = .error fault := by
  cases h with
  | empty hempty => rw [Program.load, if_pos hempty]
  | tooLong hlong =>
    rw [Program.load, if_neg (Nat.ne_of_gt (Nat.zero_lt_of_lt hlong))]
    exact if_pos hlong
  | instruction hbounded hr hdefect hfirst =>
    obtain ⟨hpc, -⟩ := List.getElem?_eq_some_iff.1 hr
    have hdecode : Program.decodeFrom raw.length 0 raw = .error fault := by
      refine decodeFrom_eq_error_iff.2 ⟨_, _, hr, ?_, fun j hj earlier hearlier => ?_⟩
      · rw [Nat.zero_add]
        exact (decode_eq_error_iff hpc hbounded).2 hdefect
      · rw [Nat.zero_add]
        exact (decode_isOk_iff_wellFormed (Nat.lt_trans hj hpc) hbounded).2
          (hfirst j hj earlier hearlier)
    rw [Program.load, if_neg (Nat.ne_of_gt (Nat.zero_lt_of_lt hpc)), hdecode]
    exact if_neg (Nat.not_lt.2 hbounded)
  | missingReturn hnonempty hbounded hinstructions hfinal =>
    -- the program is not loaded, and every other fault would have another reason
    cases hload : Program.load raw with
    | ok program =>
      obtain ⟨last, hlast, hcode⟩ := (load_isOk_iff_wellFormed.1 ⟨program, hload⟩).final
      exact absurd hcode (hfinal last hlast)
    | error other =>
      cases refused_of_load hload with
      | empty hempty => omega
      | tooLong hlong => omega
      | instruction _ hr hdefect _ =>
        obtain ⟨hpc, -⟩ := List.getElem?_eq_some_iff.1 hr
        exact absurd (hinstructions _ _ hr) (hdefect.not_wellFormed hpc hbounded)
      | missingReturn => rfl

end

/-- **Loading takes exactly the well-formed programs and names the first defect of any other.**
An operation is supported if its class and selector are and no other bit of its code is set. A
program is loaded if it has between 1 and 4096 instructions, all of them well-formed, and ends in
a return. It is refused for its length first, then for the defect of the lowest index, where the
first jump of a comparison counts before the second, and last for the return that is missing. -/
theorem load_first_defect (raw : RawProgram) :
    (∀ code, Opcode.ofCode? code = Opcode.ofFields? code) ∧
      ((∃ program, Program.load raw = .ok program) ↔ raw.WellFormed) ∧
      ∀ fault, Program.load raw = .error fault ↔ raw.Refused fault :=
  ⟨Opcode.ofCode?_eq_ofFields?, load_isOk_iff_wellFormed,
    fun _ => ⟨refused_of_load, RawProgram.Refused.load_eq⟩⟩

-- Both jumps of the comparison lead outside, and the division behind it is by 0.
example : Program.load [⟨0x15, 4, 9, 0⟩, ⟨0x34, 0, 0, 0⟩] = .error (.jumpOutOfRange 0 5 2) := by
  decide

end SyscallFilter.Bpf
