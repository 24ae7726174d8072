import Mathlib.Data.List.Basic
import Mathlib.Data.List.Forall2
import SyscallFilter.Bpf.Program

/-! Which programs can be loaded, and what loading leaves.

Whether an instruction can be decoded depends on the rest of the program only
through the number of instructions behind it (`RawInstruction.Fits`,
`decode_isOk_iff`), so code can be judged block by block (`CodeFits`) and a whole
program is loaded exactly if its code fits with nothing behind it and ends in a
return (`load_of_codeFits`, `load_isOk_iff`).

A loaded program is its raw form decoded index by index, with a return at the end
(`load_eq_ok_iff`). What an instruction can be decoded to is said once (`Decodes`):
every one leads forward and stays inside (`Loaded.forward`), which is all that later
proofs need to know of jumps. -/
namespace SyscallFilter.Bpf

theorem bind_eq_ok_iff {ε α β : Type} {x : Except ε α} {f : α → Except ε β} {b : β} :
    x >>= f = .ok b ↔ ∃ a, x = .ok a ∧ f a = .ok b := by
  cases x <;> simp [bind, Except.bind]

theorem exists_getElem?_of_forall₂ {α β : Type} {relation : α → β → Prop} {as : List α}
    {bs : List β} (h : List.Forall₂ relation as bs) {k : Nat} {a : α} (ha : as[k]? = some a) :
    ∃ b, bs[k]? = some b ∧ relation a b := by
  obtain ⟨hk, rfl⟩ := List.getElem?_eq_some_iff.1 ha
  have hk' : k < bs.length := by
    rw [← h.length_eq]
    exact hk
  exact ⟨bs[k], List.getElem?_eq_getElem hk', h.get hk hk'⟩

/-! ### Single instructions -/

/-- The operands that arithmetic has a result for. -/
def AluOp.Accepts (op : AluOp) (k : UInt32) : Prop :=
  match op with
  | .div | .mod => k ≠ 0
  | .lsh | .rsh => k < 32
  | _ => True

theorem AluOp.check_eq_ok_iff {op : AluOp} {k : UInt32} {pc : Nat} :
    op.check k pc = .ok () ↔ op.Accepts k := by
  cases op <;> simp only [check, Accepts] <;> split <;> simp_all

/-- The instruction can stand in front of `after` others. -/
def RawInstruction.Fits (raw : RawInstruction) (after : Nat) : Prop :=
  match Opcode.ofCode? raw.code with
  | none => False
  | some .load => (Field.ofOffset? raw.k).isSome
  | some (.alu op) => op.Accepts raw.k
  | some .jump => raw.k.toNat < after
  | some (.branch _) => raw.jt.toNat < after ∧ raw.jf.toNat < after
  | some .ret => True

theorem RawInstruction.Fits.mono {raw : RawInstruction} {after more : Nat} (h : raw.Fits after)
    (hle : after ≤ more) : raw.Fits more := by
  unfold Fits at h ⊢
  split at h
  case h_4 => exact Nat.lt_of_lt_of_le h hle
  case h_5 => exact ⟨Nat.lt_of_lt_of_le h.1 hle, Nat.lt_of_lt_of_le h.2 hle⟩
  all_goals exact h

theorem jumpTarget_eq_ok_iff {pc distance length target : Nat} (hl : length ≤ maxIndex) :
    jumpTarget pc distance length = .ok target ↔
      target = pc + 1 + distance ∧ pc + 1 + distance < length := by
  simp only [jumpTarget]
  split
  · next h =>
    have hmin : min (pc + 1 + distance) maxIndex = pc + 1 + distance := by omega
    rw [hmin] at h ⊢
    simp only [Except.ok.injEq]
    exact ⟨fun he => ⟨he.symm, h⟩, fun he => he.1.symm⟩
  · next h =>
    simp only [reduceCtorEq, false_iff]
    omega

theorem jumpTarget_isOk_iff {pc distance after : Nat} (hl : pc + 1 + after ≤ maxIndex) :
    (∃ target, jumpTarget pc distance (pc + 1 + after) = .ok target) ↔ distance < after := by
  simp only [jumpTarget_eq_ok_iff hl, exists_eq_left]
  omega

/-- An instruction is decoded exactly if it fits in front of those behind it. -/
theorem decode_isOk_iff {raw : RawInstruction} {pc after : Nat} (hl : pc + 1 + after ≤ maxIndex) :
    (∃ i, Instruction.decode raw pc (pc + 1 + after) = .ok i) ↔ raw.Fits after := by
  unfold Instruction.decode RawInstruction.Fits
  cases Opcode.ofCode? raw.code with
  | none => simp
  | some op =>
    cases op with
    | load => cases Field.ofOffset? raw.k <;> simp
    | alu op =>
      dsimp only
      rw [← @AluOp.check_eq_ok_iff op raw.k pc]
      cases op.check raw.k pc <;> simp [bind, Except.bind, pure, Except.pure]
    | jump =>
      dsimp only
      rw [← jumpTarget_isOk_iff hl]
      cases jumpTarget pc raw.k.toNat (pc + 1 + after) <;> simp [bind, Except.bind, pure, Except.pure]
    | branch test =>
      dsimp only
      rw [← jumpTarget_isOk_iff hl, ← jumpTarget_isOk_iff hl]
      cases jumpTarget pc raw.jt.toNat (pc + 1 + after) <;>
        cases jumpTarget pc raw.jf.toNat (pc + 1 + after) <;>
        simp [bind, Except.bind, pure, Except.pure]
    | ret => simp

/-! ### Decoded instructions -/

/-- What an instruction can be decoded to, by its operation code. -/
inductive RawInstruction.Decodes (raw : RawInstruction) (pc length : Nat) : Instruction → Prop
  | load {field : Field} (hcode : raw.code = Opcode.load.code)
      (hfield : Field.ofOffset? raw.k = some field) : Decodes raw pc length (.load field)
  | alu {op : AluOp} (hcode : raw.code = (Opcode.alu op).code) (hk : op.Accepts raw.k) :
      Decodes raw pc length (.alu op raw.k)
  | jump (hcode : raw.code = Opcode.jump.code) (hk : pc + 1 + raw.k.toNat < length) :
      Decodes raw pc length (.jump (pc + 1 + raw.k.toNat))
  | branch {test : Test} (hcode : raw.code = (Opcode.branch test).code)
      (hjt : pc + 1 + raw.jt.toNat < length) (hjf : pc + 1 + raw.jf.toNat < length) :
      Decodes raw pc length
        (.branch test raw.k (pc + 1 + raw.jt.toNat) (pc + 1 + raw.jf.toNat))
  | ret (hcode : raw.code = Opcode.ret.code) : Decodes raw pc length (.ret raw.k)

theorem decodes_of_decode {raw : RawInstruction} {pc length : Nat} {i : Instruction}
    (hl : length ≤ maxIndex) (h : Instruction.decode raw pc length = .ok i) :
    raw.Decodes pc length i := by
  unfold Instruction.decode at h
  cases hop : Opcode.ofCode? raw.code with
  | none => simp [hop] at h
  | some op =>
    have hcode := (Opcode.ofCode?_eq_some_iff.1 hop).symm
    cases op <;> simp only [hop] at h
    case load =>
      split at h
      · next field hfield =>
        cases h
        exact .load hcode hfield
      · cases h
    case alu op =>
      obtain ⟨_, hcheck, h⟩ := bind_eq_ok_iff.1 h
      cases h
      exact .alu hcode (AluOp.check_eq_ok_iff.1 hcheck)
    case jump =>
      obtain ⟨target, ht, h⟩ := bind_eq_ok_iff.1 h
      cases h
      obtain ⟨rfl, hlt⟩ := (jumpTarget_eq_ok_iff hl).1 ht
      exact .jump hcode hlt
    case branch test =>
      obtain ⟨jt, ht, h⟩ := bind_eq_ok_iff.1 h
      obtain ⟨jf, hf, h⟩ := bind_eq_ok_iff.1 h
      cases h
      obtain ⟨rfl, htlt⟩ := (jumpTarget_eq_ok_iff hl).1 ht
      obtain ⟨rfl, hflt⟩ := (jumpTarget_eq_ok_iff hl).1 hf
      exact .branch hcode htlt hflt
    case ret =>
      cases h
      exact .ret hcode

/-- The operation that an instruction was decoded from. -/
def Instruction.opcode : Instruction → Opcode
  | load _ => .load
  | alu op _ => .alu op
  | jump _ => .jump
  | branch test .. => .branch test
  | ret _ => .ret

/-- The indices that an instruction at index `pc` may lead to. -/
def Instruction.exits (pc : Nat) : Instruction → List Nat
  | load _ | alu _ _ => [pc + 1]
  | jump target => [target]
  | branch _ _ jt jf => [jt, jf]
  | ret _ => []

namespace RawInstruction.Decodes

variable {raw : RawInstruction} {pc length : Nat}

theorem code_eq {i : Instruction} (h : raw.Decodes pc length i) : raw.code = i.opcode.code := by
  cases h <;> assumption

theorem constant {test : Test} {k : UInt32} {jt jf : Nat}
    (h : raw.Decodes pc length (.branch test k jt jf)) : k = raw.k := by
  cases h
  rfl

theorem exits {i : Instruction} (h : raw.Decodes pc length i) :
    ∀ target ∈ i.exits pc, pc < target ∧ (target < length ∨ target = pc + 1) := by
  cases h with
  | load | alu | ret => simp [Instruction.exits]
  | jump hcode hk =>
    simp only [Instruction.exits, List.mem_singleton, forall_eq]
    omega
  | branch hcode hjt hjf =>
    simp only [Instruction.exits, List.mem_cons, List.not_mem_nil, or_false, forall_eq_or_imp,
      forall_eq]
    omega

end RawInstruction.Decodes

/-! ### Blocks of code -/

/-- Every instruction of the block fits, with `after` others behind the block. -/
def CodeFits : List RawInstruction → (after : Nat) → Prop
  | [], _ => True
  | raw :: rest, after => raw.Fits (rest.length + after) ∧ CodeFits rest after

theorem codeFits_append {first second : List RawInstruction} {after : Nat} :
    CodeFits (first ++ second) after ↔
      CodeFits first (second.length + after) ∧ CodeFits second after := by
  induction first with
  | nil => simp [CodeFits]
  | cons raw rest ih =>
    simp only [List.cons_append, CodeFits, ih, List.length_append, Nat.add_assoc, and_assoc]

theorem CodeFits.mono {code : List RawInstruction} {after more : Nat} (h : CodeFits code after)
    (hle : after ≤ more) : CodeFits code more := by
  induction code with
  | nil => trivial
  | cons raw rest ih => exact ⟨h.1.mono (by omega), ih h.2⟩

theorem codeFits_iff {code : List RawInstruction} {after : Nat} :
    CodeFits code after ↔
      ∀ (pc : Nat) (r : RawInstruction), code[pc]? = some r →
        r.Fits (code.length - (pc + 1) + after) := by
  induction code with
  | nil => simp [CodeFits]
  | cons raw rest ih =>
    rw [CodeFits, ih]
    constructor
    · rintro ⟨hraw, hrest⟩ pc r hr
      cases pc with
      | zero =>
        obtain rfl : raw = r := by simpa using hr
        simpa using hraw
      | succ pc =>
        rw [List.length_cons, Nat.add_sub_add_right]
        exact hrest pc r (by simpa using hr)
    · intro h
      refine ⟨by simpa using h 0 raw rfl, fun pc r hr => ?_⟩
      have hfits := h (pc + 1) r (by simpa using hr)
      rwa [List.length_cons, Nat.add_sub_add_right] at hfits

/-! ### Decoding all instructions -/

theorem decodeFrom_cons {length pc : Nat} {raw : RawInstruction} {rest : RawProgram}
    {is : List Instruction} :
    Program.decodeFrom length pc (raw :: rest) = .ok is ↔
      ∃ i tail, Instruction.decode raw pc length = .ok i ∧
        Program.decodeFrom length (pc + 1) rest = .ok tail ∧ is = i :: tail := by
  simp only [Program.decodeFrom, bind_eq_ok_iff, pure, Except.pure, Except.ok.injEq,
    exists_and_left, @eq_comm _ is]

/-- Decoding goes index by index. -/
theorem decodeFrom_eq_ok_iff {length pc : Nat} {raws : RawProgram} {is : List Instruction} :
    Program.decodeFrom length pc raws = .ok is ↔
      is.length = raws.length ∧
        ∀ k raw, raws[k]? = some raw →
          ∃ i, Instruction.decode raw (pc + k) length = .ok i ∧ is[k]? = some i := by
  induction raws generalizing pc is with
  | nil => simp [Program.decodeFrom, eq_comm]
  | cons head rest ih =>
    rw [decodeFrom_cons]
    constructor
    · rintro ⟨i, tail, hi, htail, rfl⟩
      obtain ⟨hlen, hget⟩ := ih.1 htail
      refine ⟨by simp [hlen], fun k raw hk => ?_⟩
      cases k with
      | zero =>
        obtain rfl : head = raw := by simpa using hk
        exact ⟨i, hi, rfl⟩
      | succ k =>
        obtain ⟨i', hi', hk'⟩ := hget k raw (by simpa using hk)
        exact ⟨i', by rw [← hi']; congr 1; omega, by simpa using hk'⟩
    · rintro ⟨hlen, hget⟩
      cases is with
      | nil => simp at hlen
      | cons i tail =>
        obtain ⟨i', hi', hk'⟩ := hget 0 head rfl
        obtain rfl : i = i' := by simpa using hk'
        refine ⟨i, tail, hi', ih.2 ⟨by simpa using hlen, fun k raw hk => ?_⟩, rfl⟩
        obtain ⟨j, hj, hkj⟩ := hget (k + 1) raw (by simpa using hk)
        exact ⟨j, by rw [← hj]; congr 1; omega, by simpa using hkj⟩

theorem decodeFrom_of_codeFits {length pc : Nat} {raws : RawProgram} (h : CodeFits raws 0)
    (hlen : length = pc + raws.length) (hl : length ≤ maxIndex) :
    ∃ is, Program.decodeFrom length pc raws = .ok is := by
  induction raws generalizing pc with
  | nil => exact ⟨[], rfl⟩
  | cons head rest ih =>
    have hlen' : length = pc + 1 + (rest.length + 0) := by
      rw [hlen, List.length_cons]
      omega
    obtain ⟨i, hi⟩ := (decode_isOk_iff (by omega : pc + 1 + (rest.length + 0) ≤ maxIndex)).2 h.1
    obtain ⟨tail, htail⟩ := ih h.2 (by omega : length = pc + 1 + rest.length)
    exact ⟨i :: tail, decodeFrom_cons.2 ⟨i, tail, by rw [hlen']; exact hi, htail, rfl⟩⟩

/-! ### Loaded programs -/

/-- The program is the raw one decoded, and ends in a return. -/
structure Loaded (raw : RawProgram) (program : Program) : Prop where
  length : program.length = raw.length
  bounded : raw.length ≤ maxLength
  decoded : ∀ pc r, raw[pc]? = some r →
    ∃ i, Instruction.decode r pc raw.length = .ok i ∧ program.code[pc]? = some i
  final : ∃ value, program.code.toList.getLast? = some (.ret value)

theorem load_eq_ok_iff {raw : RawProgram} {program : Program} :
    Program.load raw = .ok program ↔ Loaded raw program := by
  constructor
  · intro h
    unfold Program.load at h
    split at h
    · cases h
    · split at h
      · cases h
      · next hlong =>
        obtain ⟨is, his, h⟩ := bind_eq_ok_iff.1 h
        obtain ⟨hlen, hget⟩ := decodeFrom_eq_ok_iff.1 his
        split at h
        · next value hlast =>
          obtain rfl : (⟨is.toArray⟩ : Program) = program := by simpa [pure, Except.pure] using h
          exact ⟨by simp [Program.length, hlen], Nat.le_of_not_lt hlong,
            fun pc r hr => by simpa using hget pc r hr, value, by simpa using hlast⟩
        · cases h
  · rintro ⟨hlen, hbounded, hdecoded, value, hlast⟩
    have hne : raw.length ≠ 0 := by
      intro h0
      have hnil : program.code.toList = [] := by
        apply List.eq_nil_of_length_eq_zero
        rw [← h0, ← hlen]
        simp [Program.length]
      rw [hnil] at hlast
      cases hlast
    have his : Program.decodeFrom raw.length 0 raw = .ok program.code.toList :=
      decodeFrom_eq_ok_iff.2 ⟨by simpa [Program.length] using hlen,
        fun k r hr => by simpa using hdecoded k r hr⟩
    unfold Program.load
    rw [if_neg hne, if_neg (Nat.not_lt.2 hbounded), his]
    simp [bind, Except.bind, hlast, pure, Except.pure]

theorem exists_load_of_codeFits {raw : RawProgram} {last : RawInstruction} (h : CodeFits raw 0)
    (hlen : raw.length ≤ maxLength) (hlast : raw.getLast? = some last)
    (hret : last.code = Opcode.ret.code) : ∃ program, Program.load raw = .ok program := by
  obtain ⟨is, his⟩ : ∃ is, Program.decodeFrom raw.length 0 raw = .ok is :=
    decodeFrom_of_codeFits h (by omega) (by unfold maxLength at hlen; unfold maxIndex; omega)
  obtain ⟨hsize, hget⟩ := decodeFrom_eq_ok_iff.1 his
  have hfinal : is.getLast? = some (.ret last.k) := by
    rw [List.getLast?_eq_getElem?] at hlast ⊢
    obtain ⟨i, hi, hk⟩ := hget _ _ hlast
    rw [Instruction.decode, hret, Opcode.ofCode?_code] at hi
    rw [hsize, hk, ← Except.ok.inj hi]
  exact ⟨⟨is.toArray⟩, load_eq_ok_iff.2 ⟨by simp [Program.length, hsize], hlen,
    fun pc r hr => by simpa using hget pc r hr, last.k, by simpa using hfinal⟩⟩

theorem load_of_codeFits {raw : RawProgram} {k : UInt32} (h : CodeFits raw 0)
    (hlen : raw.length ≤ maxLength) (hlast : raw.getLast? = some (.plain .ret k)) :
    ∃ program, Program.load raw = .ok program :=
  exists_load_of_codeFits h hlen hlast rfl

/-! ### Forward jumps -/

/-- Every instruction leads to later ones of the program. -/
def Program.Forward (program : Program) : Prop :=
  ∀ pc i, program.code[pc]? = some i → ∀ target ∈ i.exits pc, pc < target ∧ target < program.length

namespace Loaded

variable {raw : RawProgram} {program : Program}

theorem length_le_maxIndex (h : Loaded raw program) : raw.length ≤ maxIndex :=
  Nat.le_trans h.bounded (by decide)

theorem length_pos (h : Loaded raw program) : 0 < program.length := by
  obtain ⟨value, hlast⟩ := h.final
  have hmem := List.mem_of_getLast? hlast
  exact List.length_pos_of_mem hmem

/-- What stands at an index of the raw form was decoded. -/
theorem exists_instruction (h : Loaded raw program) {pc : Nat} {r : RawInstruction}
    (hr : raw[pc]? = some r) :
    ∃ i, program.code[pc]? = some i ∧ r.Decodes pc raw.length i := by
  obtain ⟨i, hdecode, hi⟩ := h.decoded pc r hr
  exact ⟨i, hi, decodes_of_decode h.length_le_maxIndex hdecode⟩

/-- What stands at an index was decoded from what stands there in the raw form. -/
theorem exists_decoded (h : Loaded raw program) {pc : Nat} {i : Instruction}
    (hi : program.code[pc]? = some i) :
    ∃ r, raw[pc]? = some r ∧ r.Decodes pc raw.length i := by
  obtain ⟨hpc, -⟩ := Array.getElem?_eq_some_iff.1 hi
  have hpc' : pc < raw.length := by
    rw [← h.length]
    exact hpc
  have hr := List.getElem?_eq_getElem hpc'
  obtain ⟨i', hi', hdecodes⟩ := h.exists_instruction hr
  obtain rfl : i = i' := Option.some.inj (hi.symm.trans hi')
  exact ⟨_, hr, hdecodes⟩

theorem forward (h : Loaded raw program) : program.Forward := by
  intro pc i hi target ht
  obtain ⟨r, hr, hdecodes⟩ := h.exists_decoded hi
  obtain ⟨hpc', -⟩ := List.getElem?_eq_some_iff.1 hr
  obtain ⟨hlt, hin⟩ := hdecodes.exits target ht
  refine ⟨hlt, ?_⟩
  -- only the last instruction could fall through to the end, and it returns
  by_contra hout
  rw [h.length] at hout
  obtain ⟨value, hlast⟩ := h.final
  have hend : pc = program.code.toList.length - 1 := by
    have hlen : program.code.toList.length = raw.length := by
      rw [← h.length]
      rfl
    omega
  rw [List.getLast?_eq_getElem?, ← hend, Array.getElem?_toList, hi] at hlast
  cases hlast
  cases ht

end Loaded

/-- Exactly those programs can be loaded that are short enough, all of whose instructions fit in
front of those behind them, and that end in a return. -/
theorem load_isOk_iff {raw : RawProgram} :
    (∃ program, Program.load raw = .ok program) ↔
      raw.length ≤ maxLength ∧
        (∀ (pc : Nat) (r : RawInstruction), raw[pc]? = some r →
          r.Fits (raw.length - (pc + 1))) ∧
        ∃ last, raw.getLast? = some last ∧ last.code = Opcode.ret.code := by
  constructor
  · rintro ⟨program, hload⟩
    have h := load_eq_ok_iff.1 hload
    refine ⟨h.bounded, fun pc r hr => ?_, ?_⟩
    · obtain ⟨hpc, -⟩ := List.getElem?_eq_some_iff.1 hr
      have hlength : pc + 1 + (raw.length - (pc + 1)) = raw.length := Nat.add_sub_of_le hpc
      obtain ⟨i, hi, -⟩ := h.decoded pc r hr
      have hbound : pc + 1 + (raw.length - (pc + 1)) ≤ maxIndex := by
        rw [hlength]
        exact h.length_le_maxIndex
      refine (decode_isOk_iff hbound).1 ⟨i, ?_⟩
      rw [hlength]
      exact hi
    · obtain ⟨value, hfinal⟩ := h.final
      rw [List.getLast?_eq_getElem?, Array.getElem?_toList] at hfinal
      obtain ⟨r, hr, hdecodes⟩ := h.exists_decoded hfinal
      refine ⟨r, ?_, ?_⟩
      · rw [List.getLast?_eq_getElem?, ← h.length]
        exact hr
      · exact hdecodes.code_eq
  · rintro ⟨hlen, hfits, last, hlast, hret⟩
    exact exists_load_of_codeFits (codeFits_iff.2 hfits) hlen hlast hret

end SyscallFilter.Bpf
