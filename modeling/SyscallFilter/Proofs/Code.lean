import SyscallFilter.Proofs.Runs
import SyscallFilter.RuleSet.Assembly

/-! Assembled instructions in their place.

For each kind of instruction that rule sets are assembled from: in front of how many
others it fits, and what it does at its index in a loaded program. -/
namespace SyscallFilter.Bpf

/-! ### What fits -/

section Fits

variable {after : Nat}

theorem fits_loadWord {field : Field} (h : field ∈ Field.all) : (loadWord field).Fits after := by
  simp [RawInstruction.Fits, loadWord, RawInstruction.plain, Opcode.ofCode?_code,
    Field.ofOffset?_offset h]

theorem fits_maskWord (mask : UInt32) : (maskWord mask).Fits after := by
  simp [RawInstruction.Fits, maskWord, RawInstruction.plain, Opcode.ofCode?_code, AluOp.Accepts]

theorem fits_jumpBy {distance : Nat} (h : distance < after) : (jumpBy distance).Fits after := by
  simp only [RawInstruction.Fits, jumpBy, RawInstruction.plain, Opcode.ofCode?_code,
    UInt32.toNat_ofNat']
  exact Nat.lt_of_le_of_lt (Nat.mod_le ..) h

theorem fits_compareWord {test : Test} {k : UInt32} {jt jf : Nat} (hjt : jt < after)
    (hjf : jf < after) : (compareWord test k jt jf).Fits after := by
  simp only [RawInstruction.Fits, compareWord, RawInstruction.branch, Opcode.ofCode?_code,
    UInt8.toNat_ofNat']
  exact ⟨Nat.lt_of_le_of_lt (Nat.mod_le ..) hjt, Nat.lt_of_le_of_lt (Nat.mod_le ..) hjf⟩

theorem fits_ret (k : UInt32) : (RawInstruction.plain .ret k).Fits after := by
  simp [RawInstruction.Fits, RawInstruction.plain, Opcode.ofCode?_code]

theorem fits_returnAction (action : Action) : (returnAction action).Fits after :=
  fits_ret action.code

end Fits

/-! ### Code in its place -/

/-- The code stands in the program from index `pc` on. -/
def CodeAt (raw : RawProgram) (pc : Nat) (code : List RawInstruction) : Prop :=
  code <+: raw.drop pc

namespace CodeAt

variable {raw : RawProgram} {pc : Nat} {instruction : RawInstruction}
  {code first second : List RawInstruction}

theorem append (h : CodeAt raw pc (first ++ second)) :
    CodeAt raw pc first ∧ CodeAt raw (pc + first.length) second := by
  obtain ⟨rest, hrest⟩ := h
  refine ⟨⟨second ++ rest, by rw [← hrest, List.append_assoc]⟩, rest, ?_⟩
  rw [← List.drop_drop, ← hrest, List.append_assoc, List.drop_left]

theorem cons (h : CodeAt raw pc (instruction :: code)) :
    raw[pc]? = some instruction ∧ CodeAt raw (pc + 1) code := by
  refine ⟨?_, (append (show CodeAt raw pc ([instruction] ++ code) from h)).2⟩
  obtain ⟨rest, hrest⟩ := h
  have hhead : (raw.drop pc)[0]? = some instruction := by
    rw [← hrest]
    rfl
  rw [List.getElem?_drop] at hhead
  exact hhead

end CodeAt

theorem codeAt_iff {raw : RawProgram} {pc : Nat} {code : List RawInstruction} :
    CodeAt raw pc code ↔ ∀ k r, code[k]? = some r → raw[pc + k]? = some r := by
  rw [CodeAt, List.prefix_iff_getElem?]
  constructor
  · intro h k r hr
    obtain ⟨hk, rfl⟩ := List.getElem?_eq_some_iff.1 hr
    rw [← List.getElem?_drop]
    exact h k hk
  · intro h k hk
    rw [List.getElem?_drop]
    exact h k _ (List.getElem?_eq_getElem hk)

theorem codeAt_singleton {raw : RawProgram} {pc : Nat} {instruction : RawInstruction} :
    CodeAt raw pc [instruction] ↔ raw[pc]? = some instruction := by
  constructor
  · intro h
    exact h.cons.1
  · intro h
    rw [codeAt_iff]
    intro k r hr
    obtain ⟨rfl, rfl⟩ : k = 0 ∧ instruction = r := by simpa [List.getElem?_singleton] using hr
    exact h

/-- A program is loaded if it is made of a block, code in front of it and code behind it that ends
in a return, all of which fit where they stand. The block then stands behind the code in front. -/
theorem exists_load_around {before block after : RawProgram}
    (hbefore : CodeFits before (block.length + after.length)) (hblock : CodeFits block after.length)
    (hafter : CodeFits after 0) (hlength : (before ++ block ++ after).length ≤ maxLength)
    (hlast : ∃ last, after.getLast? = some last ∧ last.code = Opcode.ret.code) :
    (∃ program, Program.load (before ++ block ++ after) = .ok program) ∧
      CodeAt (before ++ block ++ after) before.length block := by
  obtain ⟨last, hlast, hret⟩ := hlast
  refine ⟨?_, after, by rw [List.append_assoc, List.drop_left]⟩
  have hfits : CodeFits (before ++ block ++ after) 0 := by
    rw [List.append_assoc, codeFits_append, codeFits_append, List.length_append]
    exact ⟨hbefore, hblock, hafter⟩
  have hend : (before ++ block ++ after).getLast? = some last := by
    rw [List.getLast?_append, hlast, Option.some_or]
  exact exists_load_of_codeFits hfits hlength hend hret

/-! ### What assembled instructions do -/

namespace Loaded

variable {raw : RawProgram} {program : Program} {pc : Nat} {code : List RawInstruction}
  (h : Loaded raw program) (call : Call) (acc : UInt32)

include h

theorem code_loadWord {field : Field} (hf : field ∈ Field.all)
    (hget : raw[pc]? = some (loadWord field)) : program.code[pc]? = some (.load field) := by
  obtain ⟨i, hi, hpc⟩ := h.decoded pc _ hget
  simp only [Instruction.decode, loadWord, RawInstruction.plain, Opcode.ofCode?_code,
    Field.ofOffset?_offset hf, Except.ok.injEq] at hi
  rw [hpc, ← hi]

theorem code_jumpBy {distance : Nat} (hd : distance < 0x100000000)
    (hget : raw[pc]? = some (jumpBy distance)) :
    program.code[pc]? = some (.jump (pc + 1 + distance)) := by
  obtain ⟨i, hi, hpc⟩ := h.decoded pc _ hget
  simp only [Instruction.decode, jumpBy, RawInstruction.plain, Opcode.ofCode?_code] at hi
  obtain ⟨target, ht, hi⟩ := bind_eq_ok_iff.1 hi
  obtain ⟨rfl, -⟩ := (jumpTarget_eq_ok_iff h.length_le_maxIndex).1 ht
  obtain rfl := Except.ok.inj hi
  rw [hpc, UInt32.toNat_ofNat_of_lt' hd]

theorem code_branch {test : Test} {k : UInt32} {jt jf : UInt8}
    (hget : raw[pc]? = some (.branch test k jt jf)) :
    program.code[pc]? = some (.branch test k (pc + 1 + jt.toNat) (pc + 1 + jf.toNat)) := by
  obtain ⟨i, hi, hpc⟩ := h.decoded pc _ hget
  simp only [Instruction.decode, RawInstruction.branch, Opcode.ofCode?_code] at hi
  obtain ⟨tt, htt, hi⟩ := bind_eq_ok_iff.1 hi
  obtain ⟨tf, htf, hi⟩ := bind_eq_ok_iff.1 hi
  obtain ⟨rfl, -⟩ := (jumpTarget_eq_ok_iff h.length_le_maxIndex).1 htt
  obtain ⟨rfl, -⟩ := (jumpTarget_eq_ok_iff h.length_le_maxIndex).1 htf
  obtain rfl := Except.ok.inj hi
  exact hpc

theorem code_ret {k : UInt32} (hget : raw[pc]? = some (.plain .ret k)) :
    program.code[pc]? = some (.ret k) := by
  obtain ⟨i, hi, hpc⟩ := h.decoded pc _ hget
  obtain rfl : Instruction.ret k = i := Except.ok.inj hi
  exact hpc

theorem goes_loadWord {field : Field} (hf : field ∈ Field.all)
    (hat : CodeAt raw pc (loadWord field :: code)) :
    program.Goes call ⟨pc, acc⟩ ⟨pc + 1, call.word field⟩ :=
  ⟨_, h.code_loadWord hf hat.cons.1, rfl⟩

theorem goes_maskWord {mask : UInt32} (hat : CodeAt raw pc (maskWord mask :: code)) :
    program.Goes call ⟨pc, acc⟩ ⟨pc + 1, acc &&& mask⟩ := by
  obtain ⟨i, hi, hpc⟩ := h.decoded pc _ hat.cons.1
  refine ⟨i, hpc, ?_⟩
  simp only [Instruction.decode, maskWord, RawInstruction.plain, Opcode.ofCode?_code] at hi
  obtain rfl : Instruction.alu .and mask = i := Except.ok.inj hi
  rfl

theorem goes_jumpBy {distance : Nat} (hd : distance < 0x100000000)
    (hat : CodeAt raw pc (jumpBy distance :: code)) :
    program.Goes call ⟨pc, acc⟩ ⟨pc + 1 + distance, acc⟩ :=
  ⟨_, h.code_jumpBy hd hat.cons.1, rfl⟩

theorem goes_compareWord {test : Test} {k : UInt32} {jt jf : Nat} (ht : jt < 0x100)
    (hf : jf < 0x100) (hat : CodeAt raw pc (compareWord test k jt jf :: code)) :
    program.Goes call ⟨pc, acc⟩ ⟨pc + 1 + if test.holds acc k then jt else jf, acc⟩ := by
  refine ⟨_, h.code_branch hat.cons.1, ?_⟩
  rw [UInt8.toNat_ofNat_of_lt' ht, UInt8.toNat_ofNat_of_lt' hf]
  simp only [Instruction.step]
  split <;> rfl

theorem returns_ret {k : UInt32} (hget : raw[pc]? = some (.plain .ret k)) :
    program.Returns call ⟨pc, acc⟩ k :=
  ⟨1, by simp [Program.returned?, h.code_ret hget, Instruction.step]⟩

theorem returns_returnAction {action : Action} (hat : CodeAt raw pc (returnAction action :: code)) :
    program.Returns call ⟨pc, acc⟩ action.code :=
  h.returns_ret call acc hat.cons.1

end Loaded

end SyscallFilter.Bpf
