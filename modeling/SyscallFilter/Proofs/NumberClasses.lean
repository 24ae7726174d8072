import Mathlib.Data.List.Sort
import SyscallFilter.Proofs.CheckSequence
import SyscallFilter.Proofs.ScannedPaths

/-! Numbers that a program does not tell apart.

A scan that leaves the number open records every constant that the number is compared with. Two
numbers on the same side of all of them are treated alike: calls that differ in nothing else run
alike, and the scans for the two numbers record the same.

For the scans, a path for a known number is one with the number left open and the number filled in
where it is in the accumulator (`Point.withNumber`). `exists_leads_withNumber` says that a step
of such a path is also one for the other number, because a branch on the number was recorded, and
`exists_pathTo_withNumber` follows whole paths. -/
namespace SyscallFilter

/-- An ascending list is determined by its members. -/
theorem ascending_congr {α : Type} [DecidableEq α] [LE α] [LT α] [DecidableLT α]
    [Std.IsLinearOrder α] [Std.LawfulOrderLT α] {as bs : List α} (h : ∀ a, a ∈ as ↔ a ∈ bs) :
    ascending as = ascending bs := by
  refine (pairwise_ascending as).eq_of_mem_iff (pairwise_ascending bs) fun a => ?_
  rw [mem_ascending, mem_ascending, h]

namespace Sampling

open Bpf

theorem Constants.get?_congr {constants others : Constants} {field : Field}
    (h : ∀ k, k ∈ constants.of field ↔ k ∈ others.of field) :
    constants.get? field = others.get? field := by
  have hvalues : ascending ((constants.recorded.filter (·.1 = field)).map Prod.snd) =
      ascending ((others.recorded.filter (·.1 = field)).map Prod.snd) := by
    apply ascending_congr
    intro k
    have hk := h k
    rw [Constants.mem_of, Constants.mem_of] at hk
    simpa using hk
  rw [Constants.get?, Constants.get?, hvalues]

/-! ### Filling in the number -/

/-- What is known of the accumulator once the number is known. -/
def Knowledge.withNumber (number : UInt32) : Knowledge → Knowledge
  | .word .nr => .value number
  | acc => acc

def Point.withNumber (number : UInt32) (p : Point) : Point :=
  ⟨p.pc, p.acc.withNumber number⟩

theorem Given.withNumber_load (arch number : UInt32) (field : Field) :
    ((⟨arch, none⟩ : Given).load field).withNumber number =
      (⟨arch, some number⟩ : Given).load field := by
  cases field <;> rfl

/-- Other words stay open whatever the number is. -/
theorem Knowledge.withNumber_eq_word {acc : Knowledge} {m : UInt32} {field : Field}
    (h : acc.withNumber m = .word field) (n : UInt32) : acc.withNumber n = .word field := by
  cases acc with
  | value value => exact h
  | word source =>
    cases source with
    | nr => cases h
    | _ => exact h

variable {raw : RawProgram} {program : Program} {arch m n : UInt32} {p q : Point}

/-- A branch on the number is met with it left open, so its constant is recorded and it goes
the same way for both numbers. -/
theorem holds_eq_of_pathTo_number (hforward : program.Forward) (hpos : 0 < program.length)
    (halike : Alike ((Constants.ofProgram program ⟨arch, none⟩).of .nr) m n) {pc : Nat}
    (hpath : PathTo program ⟨arch, none⟩ ⟨pc, .word .nr⟩) {test : Test} {k : UInt32} {jt jf : Nat}
    (hi : program.code[pc]? = some (.branch test k jt jf)) (htest : test ≠ .set) :
    test.holds m k = test.holds n k := by
  have hk : k ∈ (Constants.ofProgram program ⟨arch, none⟩).of .nr :=
    (mem_constants_iff_pathTo hforward hpos).2 ⟨pc, _, hpath, hi, rfl⟩
  exact Test.holds_eq_of_alike htest halike hk

/-- A step for one number is a step with the number left open, and also one for the other
number. -/
theorem exists_leads_withNumber (hforward : program.Forward) (hpos : 0 < program.length)
    (hcomparing : program.comparing)
    (halike : Alike ((Constants.ofProgram program ⟨arch, none⟩).of .nr) m n)
    (hq : PathTo program ⟨arch, none⟩ q)
    (h : Leads program ⟨arch, some m⟩ (q.withNumber m) p) :
    ∃ r, Leads program ⟨arch, none⟩ q r ∧ r.withNumber m = p ∧
      Leads program ⟨arch, some n⟩ (q.withNumber n) (r.withNumber n) := by
  obtain ⟨pc, acc⟩ := q
  obtain ⟨i, hi, hp⟩ := h.exists_successor
  cases i with
  | load field =>
    obtain rfl := List.mem_singleton.1 hp
    refine ⟨⟨pc + 1, (⟨arch, none⟩ : Given).load field⟩,
      leads_of_mem_successors hi (List.mem_singleton_self _), ?_,
      leads_of_mem_successors hi (List.mem_singleton.2 ?_)⟩
    · rw [Point.withNumber, Given.withNumber_load]
      rfl
    · rw [Point.withNumber, Given.withNumber_load]
      rfl
  | alu op k => cases Program.comparing_of_getElem? hcomparing hi
  | jump target =>
    obtain rfl := List.mem_singleton.1 hp
    exact ⟨⟨target, acc⟩, .jump hi, rfl, .jump hi⟩
  | branch test k jt jf =>
    cases acc with
    | value value =>
      obtain rfl := List.mem_singleton.1 hp
      exact ⟨_, .branch hi, rfl, .branch hi⟩
    | word field =>
      cases field with
      | nr =>
        have htest : test ≠ .set := by
          simpa [Instruction.comparing] using Program.comparing_of_getElem? hcomparing hi
        have hside := holds_eq_of_pathTo_number hforward hpos halike hq hi htest
        obtain rfl := List.mem_singleton.1 hp
        refine ⟨⟨if test.holds m k then jt else jf, .word .nr⟩, .branchOpen hi ?_, rfl, ?_⟩
        · split
          · exact .inl rfl
          · exact .inr rfl
        · rw [hside]
          exact .branch hi
      | _ =>
        rcases List.mem_cons.1 hp with rfl | hp
        · exact ⟨_, .branchOpen hi (.inl rfl), rfl, .branchOpen hi (.inl rfl)⟩
        · obtain rfl := List.mem_singleton.1 hp
          exact ⟨_, .branchOpen hi (.inr rfl), rfl, .branchOpen hi (.inr rfl)⟩
  | ret value => cases hp

theorem exists_pathTo_withNumber (hforward : program.Forward) (hpos : 0 < program.length)
    (hcomparing : program.comparing)
    (halike : Alike ((Constants.ofProgram program ⟨arch, none⟩).of .nr) m n)
    (h : PathTo program ⟨arch, some m⟩ p) :
    ∃ q, PathTo program ⟨arch, none⟩ q ∧ q.withNumber m = p ∧
      PathTo program ⟨arch, some n⟩ (q.withNumber n) := by
  induction h with
  | refl => exact ⟨⟨0, .value 0⟩, .refl, rfl, .refl⟩
  | tail _ hleads ih =>
    obtain ⟨q, hopen, rfl, hother⟩ := ih
    obtain ⟨r, hr, rfl, hr'⟩ :=
      exists_leads_withNumber hforward hpos hcomparing halike hopen hleads
    exact ⟨r, hopen.tail hr, rfl, hother.tail hr'⟩

theorem pathTo_word_of_alike (hforward : program.Forward) (hpos : 0 < program.length)
    (hcomparing : program.comparing)
    (halike : Alike ((Constants.ofProgram program ⟨arch, none⟩).of .nr) m n) {pc : Nat}
    {field : Field} (h : PathTo program ⟨arch, some m⟩ ⟨pc, .word field⟩) :
    PathTo program ⟨arch, some n⟩ ⟨pc, .word field⟩ := by
  obtain ⟨q, -, hm, hn⟩ := exists_pathTo_withNumber hforward hpos hcomparing halike h
  obtain ⟨rfl, hacc⟩ := Point.mk.inj hm
  rw [Point.withNumber, Knowledge.withNumber_eq_word hacc] at hn
  exact hn

/-- Scans for alike numbers record the same. -/
theorem get?_eq_of_alike_numbers (hforward : program.Forward) (hpos : 0 < program.length)
    (hcomparing : program.comparing)
    (halike : Alike ((Constants.ofProgram program ⟨arch, none⟩).of .nr) m n) (field : Field) :
    (Constants.ofProgram program ⟨arch, some m⟩).get? field =
      (Constants.ofProgram program ⟨arch, some n⟩).get? field := by
  apply Constants.get?_congr
  intro k
  rw [mem_constants_iff_pathTo hforward hpos, mem_constants_iff_pathTo hforward hpos]
  constructor
  · rintro ⟨pc, i, hpath, hk⟩
    exact ⟨pc, i, pathTo_word_of_alike hforward hpos hcomparing halike hpath, hk⟩
  · rintro ⟨pc, i, hpath, hk⟩
    exact ⟨pc, i, pathTo_word_of_alike hforward hpos hcomparing halike.symm hpath, hk⟩

/-! ### Calls of alike numbers -/

/-- **The constants of the number are the numbers that a program tells apart.** If two numbers
compare alike with every constant that a scan with the number left open records for it, calls of
the two that are otherwise the same execute the same instructions and return the same value, and
the scans for the two numbers record the same constants for every word. -/
theorem same_runs_and_scans (hload : Program.load raw = .ok program)
    (hcomparing : program.comparing) (arch : UInt32)
    (halike : Alike ((Constants.ofProgram program ⟨arch, none⟩).of .nr) m n) :
    (∀ pointer args,
      program.RunsAlike ⟨m.toInt32, arch, pointer, args⟩ ⟨n.toInt32, arch, pointer, args⟩ ∧
      ∃ value, ∀ limit, raw.length ≤ limit →
        program.run ⟨m.toInt32, arch, pointer, args⟩ limit = .ok value ∧
        program.run ⟨n.toInt32, arch, pointer, args⟩ limit = .ok value) ∧
    ∀ field, (Constants.ofProgram program ⟨arch, some m⟩).get? field =
      (Constants.ofProgram program ⟨arch, some n⟩).get? field := by
  have hloaded := load_eq_ok_iff.1 hload
  refine ⟨fun pointer args => ?_,
    get?_eq_of_alike_numbers hloaded.forward hloaded.length_pos hcomparing halike⟩
  have hruns := runsAlike_of_alike_numbers hloaded.forward hloaded.length_pos hcomparing halike
    pointer args
  exact ⟨hruns, hloaded.exists_same_value hruns⟩

/-- Looks at the number before and after the argument. -/
def looksTwice : RawProgram :=
  [.plain .load 0, .branch .gt 100 0 4, .plain .load 16, .branch .eq 5 0 3, .plain .load 0,
    .branch .ge 200 0 1, .plain .ret 0x50001, .plain .ret 0x7fff0000]

def looksTwiceProgram : Program where
  code := #[.load .nr, .branch .gt 100 2 6, .load (.argLow 0), .branch .eq 5 4 7, .load .nr,
    .branch .ge 200 6 7, .ret 0x50001, .ret 0x7fff0000]

/-- The numbers above 100 and below 200 are one class. -/
theorem same_runs_looksTwice :
    Program.load looksTwice = .ok looksTwiceProgram ∧
      Alike ((Constants.ofProgram looksTwiceProgram ⟨7, none⟩).of .nr) 101 199 ∧
      (∀ pointer args limit,
        looksTwiceProgram.path ⟨101, 7, pointer, args⟩ limit =
          looksTwiceProgram.path ⟨199, 7, pointer, args⟩ limit) ∧
      ∀ field, (Constants.ofProgram looksTwiceProgram ⟨7, some 101⟩).get? field =
        (Constants.ofProgram looksTwiceProgram ⟨7, some 199⟩).get? field := by
  have hload : Program.load looksTwice = .ok looksTwiceProgram := by decide
  have halike : Alike ((Constants.ofProgram looksTwiceProgram ⟨7, none⟩).of .nr) 101 199 := by
    decide
  obtain ⟨hruns, hscans⟩ := same_runs_and_scans hload (by decide) 7 halike
  exact ⟨hload, halike, fun pointer args limit => ((hruns pointer args).1 limit).1, hscans⟩

end Sampling

end SyscallFilter
