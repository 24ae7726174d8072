import Mathlib.Algebra.Ring.Nat
import Mathlib.Tactic.FinCases
import SyscallFilter.Proofs.Runs

/-! The machine that executes raw instructions.

A second account of what a program does, which knows nothing of decoding. The call record is
64 bytes (`Call.image`), of which a load takes four by their offset; what an instruction does is
read off its operation code (`RawInstruction.effect?`); jumps go forward by a distance, and all
numbers are natural ones.

Decoding keeps the effect of every instruction (`RawInstruction.Decodes.effect?_eq`), so a loaded
program returns what the machine returns (`Loaded.exists_run`). The machine looks at the distances
of none but comparisons, and at the operand of all but negation (`RawInstruction.SameUse`);
changing the other fields changes neither whether a program can be loaded nor what its runs return
(`run_eq_machine`). -/
namespace SyscallFilter

/-! ### The bytes of a call record -/

/-- A number in so many bytes, the lowest first. -/
def littleEndian : (size : Nat) → Nat → List UInt8
  | 0, _ => []
  | size + 1, n => UInt8.ofNat n :: littleEndian size (n / 256)

/-- The number that bytes stand for. -/
def ofLittleEndian : List UInt8 → Nat
  | [] => 0
  | byte :: rest => byte.toNat + 256 * ofLittleEndian rest

theorem length_littleEndian (size n : Nat) : (littleEndian size n).length = size := by
  induction size generalizing n with
  | zero => rfl
  | succ size ih => rw [littleEndian, List.length_cons, ih]

theorem ofLittleEndian_littleEndian (size n : Nat) :
    ofLittleEndian (littleEndian size n) = n % 256 ^ size := by
  induction size generalizing n with
  | zero => simp [littleEndian, ofLittleEndian, Nat.mod_one]
  | succ size ih =>
    calc ofLittleEndian (littleEndian (size + 1) n)
      _ = n % 256 + 256 * (n / 256 % 256 ^ size) := by
        rw [littleEndian, ofLittleEndian, ih, UInt8.toNat_ofNat']
      _ = n % (256 * 256 ^ size) := Nat.mod_mul.symm
      _ = n % 256 ^ (size + 1) := by rw [Nat.pow_succ']

/-- The upper bytes of a number are those of its quotient. -/
theorem littleEndian_add (low high n : Nat) :
    littleEndian (low + high) n = littleEndian low n ++ littleEndian high (n / 256 ^ low) := by
  induction low generalizing n with
  | zero => simp [littleEndian]
  | succ low ih =>
    rw [Nat.succ_add, littleEndian, littleEndian, ih, List.cons_append, Nat.div_div_eq_div_mul,
      Nat.pow_succ']

theorem littleEndian_mod (size n : Nat) :
    littleEndian size (n % 256 ^ size) = littleEndian size n := by
  induction size generalizing n with
  | zero => rfl
  | succ size ih =>
    have hbyte : UInt8.ofNat (n % (256 * 256 ^ size)) = UInt8.ofNat n := by
      rw [← UInt8.toNat_inj, UInt8.toNat_ofNat', UInt8.toNat_ofNat']
      exact Nat.mod_mul_right_mod ..
    rw [littleEndian, littleEndian, Nat.pow_succ', hbyte, Nat.mod_mul_right_div_self, ih]

/-- The record as it lies in memory: number, architecture, instruction pointer and six arguments. -/
def Call.image (call : Call) : Vector UInt8 64 where
  toArray := (littleEndian 4 (call.nr.toInt % 0x100000000).toNat ++
    littleEndian 4 call.arch.toNat ++ littleEndian 8 call.instructionPointer.toNat ++
    call.args.toList.flatMap fun arg => littleEndian 8 arg.toNat).toArray
  size_toArray := by simp [length_littleEndian]

/-- The 32-bit word at a byte offset, if all its bytes are in the record. -/
def wordAt? (image : Vector UInt8 64) (offset : Nat) : Option Nat :=
  if offset + 4 ≤ 64 then some (ofLittleEndian ((image.toList.drop offset).take 4)) else none

/-- Words laid out one after the other are read back by their place. -/
theorem ofLittleEndian_flatMap {words : List UInt32} {i : Nat} {w : UInt32}
    (h : words[i]? = some w) :
    ofLittleEndian (((words.flatMap fun w => littleEndian 4 w.toNat).drop (4 * i)).take 4) =
      w.toNat := by
  induction words generalizing i with
  | nil => cases h
  | cons head rest ih =>
    have hlength := length_littleEndian 4 head.toNat
    rw [List.flatMap_cons]
    cases i with
    | zero =>
      obtain rfl : head = w := by simpa using h
      rw [Nat.mul_zero, List.drop_zero, List.take_left' hlength, ofLittleEndian_littleEndian]
      exact Nat.mod_eq_of_lt head.toNat_lt
    | succ i =>
      rw [Nat.mul_succ, Nat.add_comm, ← List.drop_drop, List.drop_left' hlength]
      exact ih (by simpa using h)

theorem littleEndian_eight (value : UInt64) :
    littleEndian 8 value.toNat =
      littleEndian 4 (lowWord value).toNat ++ littleEndian 4 (highWord value).toNat := by
  have hpow : 256 ^ 4 = 0x100000000 := rfl
  rw [littleEndian_add 4 4, ← littleEndian_mod 4 value.toNat, hpow, toNat_lowWord, toNat_highWord]

theorem Call.toNat_word_nr (call : Call) :
    (call.word .nr).toNat = (call.nr.toInt % 0x100000000).toNat := by
  have hsigned : call.nr.toInt = ((call.word .nr).toNat : Int).bmod 0x100000000 :=
    call.nr.toBitVec.toInt_eq_toNat_bmod
  have hmod : call.nr.toInt % 0x100000000 = ((call.word .nr).toNat : Int) % 0x100000000 := by
    rw [hsigned]
    exact Int.bmod_emod
  have hlt := (call.word .nr).toNat_lt
  omega

theorem Call.toList_image (call : Call) :
    call.image.toList = call.words.flatMap fun w => littleEndian 4 w.toNat := by
  obtain ⟨nr, arch, ip, ⟨⟨list⟩, hsize⟩⟩ := call
  match list, hsize with
  | [a, b, c, d, e, f], _ =>
    have hnr := toNat_word_nr ⟨nr, arch, ip, #v[a, b, c, d, e, f]⟩
    show _ ++ _ ++ _ ++ List.flatMap _ [a, b, c, d, e, f] = List.flatMap _
      [nr.toUInt32, arch, lowWord ip, highWord ip, lowWord a, highWord a, lowWord b, highWord b,
        lowWord c, highWord c, lowWord d, highWord d, lowWord e, highWord e, lowWord f, highWord f]
    simp only [List.flatMap_cons, List.flatMap_nil, littleEndian_eight, List.append_assoc]
    simp only [word] at hnr
    rw [hnr]

theorem Call.getElem?_words (call : Call) {field : Field} (h : field ∈ Field.all) :
    call.words[field.offset.toNat / 4]? = some (call.word field) := by
  simp only [Field.all] at h
  fin_cases h <;> rfl

theorem wordAt?_image (call : Call) {field : Field} (h : field ∈ Field.all) :
    wordAt? call.image field.offset.toNat = some (call.word field).toNat := by
  have haligned : field.offset.toNat = 4 * (field.offset.toNat / 4) ∧
      field.offset.toNat + 4 ≤ 64 := by
    revert field
    decide
  rw [wordAt?, if_pos haligned.2, call.toList_image, haligned.1, ofLittleEndian_flatMap]
  exact call.getElem?_words h

namespace Bpf

/-! ### Raw instructions -/

/-- What an instruction does. -/
inductive Effect where
  /-- Go forward by the distance, with a new accumulator. -/
  | moves (distance acc : Nat)
  | returns (value : Nat)

/-- Arithmetic by operation code, modulo 2^32. There is none with a divisor of 0 or a shift by 32
or more. -/
def arithmetic? (code acc k : Nat) : Option Nat :=
  match code with
  | 0x04 => some ((acc + k) % 0x100000000)
  | 0x14 => some ((acc + (0x100000000 - k)) % 0x100000000)
  | 0x24 => some (acc * k % 0x100000000)
  | 0x34 => if k = 0 then none else some (acc / k)
  | 0x44 => some (acc ||| k)
  | 0x54 => some (acc &&& k)
  | 0x64 => if k < 32 then some (acc * 2 ^ k % 0x100000000) else none
  | 0x74 => if k < 32 then some (acc / 2 ^ k) else none
  | 0x84 => some ((0x100000000 - acc) % 0x100000000)
  | 0x94 => if k = 0 then none else some (acc % k)
  | 0xa4 => some (acc ^^^ k)
  | _ => none

/-- Comparison by operation code. -/
def comparison? (code acc k : Nat) : Option Bool :=
  match code with
  | 0x15 => some (acc = k)
  | 0x25 => some (k < acc)
  | 0x35 => some (k ≤ acc)
  | 0x45 => some (acc &&& k ≠ 0)
  | _ => none

/-- The effect of an instruction, read off its four fields. Codes that mean nothing have none. -/
def RawInstruction.effect? (image : Vector UInt8 64) (raw : RawInstruction) (acc : Nat) :
    Option Effect :=
  match raw.code.toNat with
  | 0x20 => (wordAt? image raw.k.toNat).map (.moves 1)
  | 0x05 => some (.moves (1 + raw.k.toNat) acc)
  | 0x06 => some (.returns raw.k.toNat)
  | code =>
    match comparison? code acc raw.k.toNat with
    | some holds => some (.moves (1 + if holds then raw.jt.toNat else raw.jf.toNat) acc)
    | none => (arithmetic? code acc raw.k.toNat).map (.moves 1)

/-- The machine that executes raw instructions returns a value from an index and accumulator on. -/
inductive RawProgram.Returns (raw : RawProgram) (image : Vector UInt8 64) :
    (pc acc value : Nat) → Prop
  | returns {pc acc value : Nat} {r : RawInstruction} (hr : raw[pc]? = some r)
      (heffect : r.effect? image acc = some (.returns value)) : Returns raw image pc acc value
  | moves {pc acc distance next value : Nat} {r : RawInstruction} (hr : raw[pc]? = some r)
      (heffect : r.effect? image acc = some (.moves distance next))
      (hnext : Returns raw image (pc + distance) next value) : Returns raw image pc acc value

theorem RawProgram.Returns.unique {raw : RawProgram} {image : Vector UInt8 64}
    {pc acc value other : Nat} (h : raw.Returns image pc acc value)
    (hother : raw.Returns image pc acc other) : value = other := by
  induction h with
  | returns hr heffect =>
    cases hother with
    | returns hr' heffect' =>
      cases hr.symm.trans hr'
      cases heffect.symm.trans heffect'
      rfl
    | moves hr' heffect' _ =>
      cases hr.symm.trans hr'
      cases heffect.symm.trans heffect'
  | moves hr heffect _ ih =>
    cases hother with
    | returns hr' heffect' =>
      cases hr.symm.trans hr'
      cases heffect.symm.trans heffect'
    | moves hr' heffect' hnext' =>
      cases hr.symm.trans hr'
      cases heffect.symm.trans heffect'
      exact ih hnext'

/-! ### Decoded instructions have the same effect -/

theorem comparison?_code (test : Test) (acc k : UInt32) :
    comparison? test.code.toNat acc.toNat k.toNat = some (test.holds acc k) := by
  cases test with
  | eq => simp [comparison?, Test.code, Test.holds, UInt32.toNat_inj]
  | gt => simp [comparison?, Test.code, Test.holds, UInt32.lt_iff_toNat_lt]
  | ge => simp [comparison?, Test.code, Test.holds, UInt32.le_iff_toNat_le]
  | set => simp [comparison?, Test.code, Test.holds, ← UInt32.toNat_and, ← UInt32.toNat_inj]

theorem toNat_ne_zero {k : UInt32} (h : k ≠ 0) : k.toNat ≠ 0 :=
  fun h0 => h (UInt32.toNat_inj.1 h0)

theorem arithmetic?_code {op : AluOp} {k : UInt32} (h : op.Accepts k) (acc : UInt32) :
    arithmetic? op.code.toNat acc.toNat k.toNat = some (op.apply acc k).toNat := by
  cases op with
  | sub => simp [arithmetic?, AluOp.code, AluOp.apply, UInt32.toNat_sub, Nat.add_comm]
  | div | mod =>
    replace h : k ≠ 0 := h
    simp [arithmetic?, AluOp.code, AluOp.apply, h, toNat_ne_zero h]
  | lsh | rsh =>
    replace h : k < 32 := h
    have hlt : k.toNat < 32 := UInt32.lt_iff_toNat_lt.1 h
    simp [arithmetic?, AluOp.code, AluOp.apply, h, hlt, Nat.mod_eq_of_lt hlt, Nat.shiftLeft_eq,
      Nat.shiftRight_eq_div_pow]
  | _ => simp [arithmetic?, AluOp.code, AluOp.apply]

/-- The effect of a decoded instruction, which knows where it leads to, as one of a distance. -/
def Next.effect (pc : Nat) : Next → Effect
  | goes state => .moves (state.pc - pc) state.acc.toNat
  | returns value => .returns value.toNat

section

variable {raw : RawInstruction} {image : Vector UInt8 64} {acc : Nat}

theorem effect?_of_code_alu {op : AluOp} (h : raw.code = (Opcode.alu op).code) :
    raw.effect? image acc = (arithmetic? op.code.toNat acc raw.k.toNat).map (.moves 1) := by
  rw [RawInstruction.effect?, h]
  cases op <;> rfl

theorem effect?_of_code_test {test : Test} (h : raw.code = (Opcode.branch test).code) :
    raw.effect? image acc = (comparison? test.code.toNat acc raw.k.toNat).map fun holds =>
      .moves (1 + if holds then raw.jt.toNat else raw.jf.toNat) acc := by
  rw [RawInstruction.effect?, h]
  cases test <;> rfl

end

/-- Decoding keeps the effect of an instruction, on every call. -/
theorem RawInstruction.Decodes.effect?_eq {raw : RawInstruction} {pc length : Nat}
    {i : Instruction} (h : raw.Decodes pc length i) (call : Call) (acc : UInt32) :
    raw.effect? call.image acc.toNat = some ((i.step call ⟨pc, acc⟩).effect pc) := by
  cases h with
  | load hcode hfield =>
    obtain ⟨hmem, hoffset⟩ := Field.of_ofOffset?_eq_some hfield
    rw [effect?, hcode]
    show (wordAt? call.image raw.k.toNat).map _ = _
    rw [← hoffset, wordAt?_image call hmem]
    simp [Instruction.step, Next.effect]
  | alu hcode hk =>
    rw [effect?_of_code_alu hcode, arithmetic?_code hk]
    simp [Instruction.step, Next.effect]
  | jump hcode hk =>
    rw [effect?, hcode]
    show some (Effect.moves (1 + raw.k.toNat) acc.toNat) =
      some (.moves (pc + 1 + raw.k.toNat - pc) acc.toNat)
    rw [Nat.add_assoc, Nat.add_sub_cancel_left]
  | @branch test hcode hjt hjf =>
    rw [effect?_of_code_test hcode, comparison?_code]
    simp only [Instruction.step, Next.effect, Option.map_some]
    cases test.holds acc raw.k <;> simp [Nat.add_assoc]
  | ret hcode =>
    rw [effect?, hcode]
    rfl

/-! ### Whole runs -/

theorem Loaded.returns_of_takes {raw : RawProgram} {program : Program} (h : Loaded raw program)
    {call : Call} {s : State} {steps : Nat} {value : UInt32}
    (htakes : program.Takes call s steps value) :
    raw.Returns call.image s.pc s.acc.toNat value.toNat := by
  induction htakes with
  | returns hi =>
    obtain ⟨r, hr, hdecodes⟩ := h.exists_decoded hi
    exact .returns hr (hdecodes.effect?_eq call _)
  | @goes s t _ _ hgoes _ ih =>
    obtain ⟨i, hi, hstep⟩ := hgoes
    obtain ⟨r, hr, hdecodes⟩ := h.exists_decoded hi
    have heffect := hdecodes.effect?_eq call s.acc
    -- targets are absolute and the effect is a distance: no loss, since the step leads forward
    have hpc := (Program.Goes.pc_lt h.forward ⟨i, hi, hstep⟩).1
    rw [hstep] at heffect
    refine .moves hr heffect ?_
    rw [Nat.add_sub_of_le (Nat.le_of_lt hpc)]
    exact ih

theorem Loaded.exists_run {raw : RawProgram} {program : Program} (h : Loaded raw program)
    (call : Call) {limit : Nat} (hlimit : raw.length ≤ limit) :
    ∃ value, program.run call limit = .ok value ∧
      ∀ result, raw.Returns call.image 0 0 result ↔ result = value.toNat := by
  obtain ⟨steps, value, -, htakes⟩ := Program.exists_takes h.forward call .start h.length_pos
  have hraw : raw.Returns call.image 0 0 value.toNat := h.returns_of_takes htakes
  have hreturns : program.Returns call .start value :=
    ⟨steps, by rw [htakes.returned?_eq, if_pos (Nat.le_refl _)]⟩
  refine ⟨value, h.run_eq_of_returns hlimit hreturns, fun result => ⟨fun hresult => ?_, ?_⟩⟩
  · exact hresult.unique hraw
  · rintro rfl
    exact hraw

/-! ### Fields without use -/

/-- The other instruction differs at most in fields that have no use: the distances of one that
does not compare, and the operand of negation. -/
def RawInstruction.SameUse (raw other : RawInstruction) : Prop :=
  other.code = raw.code ∧
    (raw.code ∈ Test.all.map Test.code → other.jt = raw.jt ∧ other.jf = raw.jf) ∧
    (raw.code ≠ AluOp.neg.code → other.k = raw.k)

instance : DecidableRel RawInstruction.SameUse :=
  fun _ _ => inferInstanceAs (Decidable (_ ∧ _))

namespace RawInstruction.SameUse

variable {raw other : RawInstruction} {op : Opcode}

theorem operand (h : raw.SameUse other) (hcode : raw.code = op.code) (hop : op ≠ .alu .neg) :
    other.k = raw.k := by
  refine h.2.2 fun hneg => hop (Opcode.code_inj.1 ?_)
  rw [← hcode, hneg]
  rfl

theorem distances (h : raw.SameUse other) {test : Test}
    (hcode : raw.code = (Opcode.branch test).code) : other.jt = raw.jt ∧ other.jf = raw.jf := by
  refine h.2.1 ?_
  rw [hcode]
  cases test <;> decide

theorem effect?_eq (h : raw.SameUse other) (hcode : raw.code = op.code)
    (image : Vector UInt8 64) (acc : Nat) : other.effect? image acc = raw.effect? image acc := by
  have hother : other.code = op.code := h.1.trans hcode
  by_cases hneg : op = .alu .neg
  · subst hneg
    rw [effect?_of_code_alu hother, effect?_of_code_alu hcode]
    rfl
  · have hk := h.operand hcode hneg
    cases op with
    | branch test =>
      obtain ⟨hjt, hjf⟩ := h.distances hcode
      rw [effect?_of_code_test hother, effect?_of_code_test hcode, hk, hjt, hjf]
    | alu op => rw [effect?_of_code_alu hother, effect?_of_code_alu hcode, hk]
    | _ =>
      rw [effect?, effect?, hother, hcode, hk]
      rfl

theorem fits (h : raw.SameUse other) {after : Nat} (hfits : raw.Fits after) : other.Fits after := by
  unfold Fits at hfits ⊢
  rw [h.1]
  cases hop : Opcode.ofCode? raw.code with
  | none =>
    rw [hop] at hfits
    exact hfits
  | some op =>
    rw [hop] at hfits
    have hcode := (Opcode.ofCode?_eq_some_iff.1 hop).symm
    by_cases hneg : op = .alu .neg
    · subst hneg
      trivial
    · have hk := h.operand hcode hneg
      cases op with
      | branch test =>
        obtain ⟨hjt, hjf⟩ := h.distances hcode
        dsimp only
        rw [hjt, hjf]
        exact hfits
      | ret => trivial
      | _ =>
        dsimp only
        rw [hk]
        exact hfits

end RawInstruction.SameUse

theorem Loaded.exists_opcode {raw : RawProgram} {program : Program} (h : Loaded raw program) :
    ∀ r ∈ raw, ∃ op : Opcode, r.code = op.code := by
  intro r hr
  obtain ⟨pc, hpc⟩ := List.getElem?_of_mem hr
  obtain ⟨i, -, hdecodes⟩ := h.exists_instruction hpc
  exact ⟨i.opcode, hdecodes.code_eq⟩

/-- The machine does not look at fields without use. -/
theorem RawProgram.Returns.of_sameUse {raw other : RawProgram}
    (hsame : List.Forall₂ RawInstruction.SameUse raw other)
    (hcodes : ∀ r ∈ raw, ∃ op : Opcode, r.code = op.code) {image : Vector UInt8 64}
    {pc acc value : Nat} (h : raw.Returns image pc acc value) :
    other.Returns image pc acc value := by
  -- at every index the two machines do the same step
  have hstep : ∀ {pc acc : Nat} {effect : Effect} {r : RawInstruction}, raw[pc]? = some r →
      r.effect? image acc = some effect →
      ∃ r' : RawInstruction, other[pc]? = some r' ∧ r'.effect? image acc = some effect := by
    intro pc acc effect r hr heffect
    obtain ⟨r', hr', huse⟩ := exists_getElem?_of_forall₂ hsame hr
    obtain ⟨op, hcode⟩ := hcodes r (List.mem_of_getElem? hr)
    exact ⟨r', hr', (huse.effect?_eq hcode image acc).trans heffect⟩
  induction h with
  | returns hr heffect =>
    obtain ⟨r', hr', heffect'⟩ := hstep hr heffect
    exact .returns hr' heffect'
  | moves hr heffect _ ih =>
    obtain ⟨r', hr', heffect'⟩ := hstep hr heffect
    exact .moves hr' heffect' ih

theorem exists_load_of_sameUse {raw other : RawProgram}
    (hsame : List.Forall₂ RawInstruction.SameUse raw other)
    (hload : ∃ program, Program.load raw = .ok program) :
    ∃ program, Program.load other = .ok program := by
  obtain ⟨hlen, hfits, last, hlast, hret⟩ := load_isOk_iff.1 hload
  rw [hsame.length_eq] at hlen hfits
  refine load_isOk_iff.2 ⟨hlen, fun pc r' hr' => ?_, ?_⟩
  · obtain ⟨r, hr, huse⟩ := exists_getElem?_of_forall₂ hsame.flip hr'
    exact RawInstruction.SameUse.fits huse (hfits pc r hr)
  · rw [List.getLast?_eq_getElem?, hsame.length_eq] at hlast
    obtain ⟨last', hlast', huse⟩ := exists_getElem?_of_forall₂ hsame hlast
    exact ⟨last', by rw [List.getLast?_eq_getElem?, hlast'], huse.1.trans hret⟩

/-- **A loaded program returns what its raw form does.** On every call a run to the end gives the
one value that the machine returns that executes the raw instructions. A program that differs
from it in fields without use can be loaded too, and its runs give the same. -/
theorem run_eq_machine {raw : RawProgram} {program : Program}
    (hload : Program.load raw = .ok program) :
    (∀ call limit, raw.length ≤ limit →
      ∃ value, program.run call limit = .ok value ∧
        ∀ result, raw.Returns call.image 0 0 result ↔ result = value.toNat) ∧
    ∀ other, List.Forall₂ RawInstruction.SameUse raw other →
      ∃ program', Program.load other = .ok program' ∧
        ∀ call limit, raw.length ≤ limit → program'.run call limit = program.run call limit := by
  have hloaded := load_eq_ok_iff.1 hload
  refine ⟨fun call limit hlimit => hloaded.exists_run call hlimit, fun other hsame => ?_⟩
  obtain ⟨program', hload'⟩ := exists_load_of_sameUse hsame ⟨program, hload⟩
  refine ⟨program', hload', fun call limit hlimit => ?_⟩
  obtain ⟨value, hrun, hreturns⟩ := hloaded.exists_run call hlimit
  obtain ⟨value', hrun', hreturns'⟩ := (load_eq_ok_iff.1 hload').exists_run call
    (hsame.length_eq.symm.trans_le hlimit)
  have hvalue := (hreturns' _).1 (((hreturns _).2 rfl).of_sameUse hsame hloaded.exists_opcode)
  rw [hrun, hrun', UInt32.toNat_inj.1 hvalue]

/-- Allows calls whose first argument has an upper half that is 0 or above 2^31. What stands in
fields without use is arbitrary. -/
def negatedUpper : RawProgram :=
  [⟨0x20, 7, 9, 20⟩, ⟨0x84, 1, 2, 99⟩, ⟨0x25, 2, 0, 0x7fffffff⟩, ⟨0x05, 200, 255, 0⟩,
    ⟨0x06, 5, 5, 0x7fff0000⟩, ⟨0x06, 0, 1, 0x50001⟩]

def negatedUpperPlain : RawProgram :=
  [.plain .load 20, .plain (.alu .neg) 0, .branch .gt 0x7fffffff 2 0, .plain .jump 0,
    .plain .ret 0x7fff0000, .plain .ret 0x50001]

def negatedUpperProgram : Program where
  code := #[.load (.argHigh 0), .alu .neg 99, .branch .gt 0x7fffffff 5 3, .jump 4, .ret 0x7fff0000,
    .ret 0x50001]

theorem run_negatedUpper :
    Program.load negatedUpper = .ok negatedUpperProgram ∧
      negatedUpper.Returns (Call.image (.ofWord 0 0 (.replicate 0xffffffffffffffff))) 0 0
        0x7fff0000 ∧
      ∃ plain, Program.load negatedUpperPlain = .ok plain ∧
        ∀ call, plain.run call 6 = negatedUpperProgram.run call 6 := by
  have hload : Program.load negatedUpper = .ok negatedUpperProgram := by decide
  obtain ⟨hmachine, hother⟩ := run_eq_machine hload
  obtain ⟨value, hrun, hreturns⟩ :=
    hmachine (.ofWord 0 0 (.replicate 0xffffffffffffffff)) 6 (Nat.le_refl 6)
  rw [show negatedUpperProgram.run _ 6 = .ok 0x7fff0000 from by decide] at hrun
  cases hrun
  obtain ⟨plain, hplain, hsame⟩ := hother negatedUpperPlain (by decide)
  exact ⟨hload, (hreturns _).2 rfl, plain, hplain, fun call => hsame call 6 (Nat.le_refl 6)⟩

end Bpf

end SyscallFilter
