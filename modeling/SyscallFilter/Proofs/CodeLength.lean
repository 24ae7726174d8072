import Mathlib.Algebra.Ring.Nat
import SyscallFilter.Proofs.Assembly
import SyscallFilter.Proofs.LoadFaults

/-! How long the program of a rule set is, and when it is given up.

Every block of a program has a known length, so the length of a program is a sum over the rules
(`RuleSet.instructionCount`). The program need not be complete to be known as too long: `write`
puts it together chain by chain, looks at the length after every chain and at the end, and gives
up at once. What is too long after some chains is too long with all of them, so this is the same
as one look at the whole program (`write_eq_assemble`). -/
namespace SyscallFilter

open Bpf

/-! ### Lengths -/

namespace Chain

/-- A comparison, the rules, and a return for when none applies. -/
def instructionCount (chain : Chain) : Nat :=
  2 + (chain.map fun rule => rule.code.length).sum

theorem length_code (number : Int) (chain : Chain) (defaultAction : Action) :
    (chain.code number defaultAction).length = chain.instructionCount := by
  simp only [code, instructionCount, List.length_append, List.length_flatMap, List.length_cons,
    List.length_nil]
  omega

end Chain

namespace RuleSet

/-- The number of instructions that the rules need. -/
def instructionCount (ruleSet : RuleSet) : Nat :=
  if ruleSet.rules.entries.isEmpty then 4
  else 5 + (ruleSet.rules.entries.map fun entry => entry.2.instructionCount).sum

theorem length_code (ruleSet : RuleSet) : ruleSet.code.length = ruleSet.instructionCount := by
  simp only [code, architectureCode, instructionCount, List.length_append, List.length_flatMap,
    Chain.length_code, List.length_cons, List.length_nil]
  cases ruleSet.rules.entries with
  | nil => rfl
  | cons entry rest =>
    simp only [List.isEmpty_cons, Bool.false_eq_true, if_false, List.length_cons, List.length_nil]
    omega

/-! ### Chain by chain -/

/-- A program, if it is not too long. -/
def checkLength (program : RawProgram) : Except RuleError RawProgram :=
  if maxLength < program.length then .error .tooLarge else .ok program

/-- Writes the chains behind a program, up to the first after which it is too long. -/
def writeChains (defaultAction : Action) (program : RawProgram) :
    List (Int × Chain) → Except RuleError RawProgram
  | [] => .ok program
  | (number, chain) :: rest =>
    if number < 0 ∨ 0x100000000 ≤ number then .error (.invalidSyscallNumber number)
    else do
      let longer ← checkLength (program ++ chain.code number defaultAction)
      writeChains defaultAction longer rest

/-- Puts the program together from its front. The length is looked at after every chain, and once
more with the return at the end. Without any chain there is no need to. -/
def write (ruleSet : RuleSet) : Except RuleError RawProgram :=
  if ruleSet.rules.entries.isEmpty then
    .ok (architectureCode ruleSet.architecture ++ [returnAction ruleSet.defaultAction])
  else do
    let program ← writeChains ruleSet.defaultAction
      (architectureCode ruleSet.architecture ++ [loadWord .nr]) ruleSet.rules.entries
    checkLength (program ++ [returnAction ruleSet.defaultAction])

theorem assemble_eq_checkLength (ruleSet : RuleSet) :
    ruleSet.assemble = checkLength ruleSet.code := by
  simp only [assemble, checkLength]
  split
  · next h => rw [if_neg (Nat.not_lt.2 h)]
  · next h => rw [if_pos (Nat.lt_of_not_le h)]

section

variable {defaultAction : Action} {program : RawProgram}

theorem checkLength_of_le (h : program.length ≤ maxLength) : checkLength program = .ok program :=
  if_neg (Nat.not_lt.2 h)

/-- What is too long stays so, whatever is written behind it. -/
theorem checkLength_append_of_lt (h : maxLength < program.length) (more : List RawInstruction) :
    checkLength (program ++ more) = .error .tooLarge := by
  rw [checkLength, if_pos]
  rw [List.length_append]
  exact Nat.lt_of_lt_of_le h (Nat.le_add_right ..)

theorem checkLength_bind (more : List RawInstruction) :
    (checkLength program >>= fun written => checkLength (written ++ more)) =
      checkLength (program ++ more) := by
  by_cases h : program.length ≤ maxLength
  · rw [checkLength_of_le h]
    rfl
  · rw [checkLength_append_of_lt (Nat.lt_of_not_le h), checkLength, if_pos (Nat.lt_of_not_le h)]
    rfl

/-- All looks together are one look at the end. -/
theorem writeChains_eq {entries : List (Int × Chain)}
    (hvalid : ∀ entry ∈ entries, 0 ≤ entry.1 ∧ entry.1 < 0x100000000)
    (hlength : program.length ≤ maxLength) :
    writeChains defaultAction program entries =
      checkLength
        (program ++ entries.flatMap fun entry => entry.2.code entry.1 defaultAction) := by
  induction entries generalizing program with
  | nil => rw [List.flatMap_nil, List.append_nil, checkLength_of_le hlength, writeChains]
  | cons entry rest ih =>
    obtain ⟨number, chain⟩ := entry
    have hnumber : 0 ≤ number ∧ number < 0x100000000 := hvalid _ (List.mem_cons_self ..)
    rw [writeChains, if_neg (by omega), List.flatMap_cons, ← List.append_assoc]
    by_cases h : (program ++ chain.code number defaultAction).length ≤ maxLength
    · rw [checkLength_of_le h]
      exact ih (fun e he => hvalid e (List.mem_cons_of_mem _ he)) h
    · have hlong := Nat.lt_of_not_le h
      rw [checkLength_append_of_lt hlong, checkLength, if_pos hlong]
      rfl

end

/-- Giving up early loses no program that is short enough, and keeps none that is too long. -/
theorem write_eq_assemble (ruleSet : RuleSet) : ruleSet.write = ruleSet.assemble := by
  rw [assemble_eq_checkLength]
  unfold write
  split
  · next hempty =>
    have hentries : ruleSet.rules.entries = [] := List.isEmpty_iff.1 hempty
    simp [checkLength, code, hentries, architectureCode, maxLength]
  · next hne =>
    have hvalid : ∀ entry ∈ ruleSet.rules.entries, 0 ≤ entry.1 ∧ entry.1 < 0x100000000 :=
      fun entry hentry => (of_mem_entries hentry).1
    have hfront : (architectureCode ruleSet.architecture ++ [loadWord .nr]).length ≤ maxLength := by
      simp [architectureCode, maxLength]
    rw [writeChains_eq hvalid hfront, checkLength_bind]
    simp [code, hne]

/-! ### The limit -/

theorem assemble_eq_error_iff {ruleSet : RuleSet} {error : RuleError} :
    ruleSet.assemble = .error error ↔ maxLength < ruleSet.code.length ∧ error = .tooLarge := by
  rw [assemble_eq_checkLength, checkLength]
  split
  · next h => simp [h, eq_comm]
  · next h => simp [h]

/-- Jumps and comparisons lead to instructions of the program. -/
def JumpsInside (raw : RawProgram) : Prop :=
  ∀ (pc : Nat) (r : RawInstruction), raw[pc]? = some r →
    (r.code = Opcode.jump.code → pc + 1 + r.k.toNat < raw.length) ∧
    ∀ test : Test, r.code = test.code →
      pc + 1 + r.jt.toNat < raw.length ∧ pc + 1 + r.jf.toNat < raw.length

theorem jumpsInside_code (ruleSet : RuleSet) : JumpsInside ruleSet.code := by
  intro pc r hr
  obtain ⟨hpc, -⟩ := List.getElem?_eq_some_iff.1 hr
  have hfits := codeFits_iff.1 ruleSet.codeFits_code pc r hr
  unfold RawInstruction.Fits at hfits
  refine ⟨fun hcode => ?_, fun test hcode => ?_⟩
  · rw [ofCode?_of_code_eq .jump hcode] at hfits
    replace hfits : r.k.toNat < _ := hfits
    omega
  · rw [ofCode?_of_code_eq (.branch test) hcode] at hfits
    obtain ⟨hjt, hjf⟩ := hfits
    omega

/-- **A rule set is assembled up to the limit exactly.** The rules are refused if and only if they
need more than 4096 instructions, and for no other reason. Else the program has exactly as many
instructions as they need, it can be loaded, and every jump of it stays inside. Looking at the
length of the program while it is written comes to the same. -/
theorem assemble_up_to_limit (ruleSet : RuleSet) :
    (ruleSet.assemble = .error .tooLarge ↔ 4096 < ruleSet.instructionCount) ∧
      (∀ error, ruleSet.assemble = .error error → error = .tooLarge) ∧
      (ruleSet.instructionCount ≤ 4096 → ∃ raw program, ruleSet.assemble = .ok raw ∧
        raw.length = ruleSet.instructionCount ∧ Program.load raw = .ok program ∧
        JumpsInside raw) ∧
      ruleSet.write = ruleSet.assemble := by
  rw [← length_code]
  refine ⟨?_, fun error herror => (assemble_eq_error_iff.1 herror).2, fun hlength => ?_,
    ruleSet.write_eq_assemble⟩
  · rw [assemble_eq_error_iff]
    exact and_iff_left rfl
  · have hassemble : ruleSet.assemble = .ok ruleSet.code := assemble_eq_ok_iff.2 ⟨hlength, rfl⟩
    obtain ⟨program, hload, -⟩ := assemble_spec hassemble
    exact ⟨ruleSet.code, program, hassemble, rfl, hload, ruleSet.jumpsInside_code⟩

end RuleSet

end SyscallFilter
