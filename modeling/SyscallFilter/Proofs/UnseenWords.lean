import SyscallFilter.Proofs.ScannedPaths

/-! Words that a scan does not mention have no influence on a run.

Take two calls that differ in one open word. Their runs stay side by side (`SideBySide`): they
are at the same instruction and have loaded the same word last, and the accumulators differ only
as long as that was the word in question, whatever arithmetic was done with it since. Only a
branch could lead them apart, and a branch on that word would have been recorded. -/
namespace SyscallFilter

/-- No other word of the calls differs. -/
def Call.DiffersOnlyIn (field : Field) (a b : Call) : Prop :=
  ∀ other, other ≠ field → a.word other = b.word other

namespace Sampling

open Bpf

/-- Two runs after the same loads, the last one of `last`, on calls that differ in `field`. -/
structure SideBySide (field : Field) (last : Option Field) (s t : State) : Prop where
  pc : s.pc = t.pc
  acc : last ≠ some field → s.acc = t.acc

variable {raw : RawProgram} {program : Program} {given : Given} {field : Field} {a b : Call}
  {last : Option Field} {s t : State}

/-- One instruction keeps two runs side by side, unless it branches on the word that differs. -/
theorem SideBySide.step (h : SideBySide field last s t) (hdiffers : a.DiffersOnlyIn field b)
    {i : Instruction} (hunseen : last = some field → i.sought? = none) :
    (∃ value, i.step a s = .returns value ∧ i.step b t = .returns value) ∨
      ∃ s' t', i.step a s = .goes s' ∧ i.step b t = .goes t' ∧
        SideBySide field (i.loaded?.or last) s' t' := by
  cases i with
  | load source =>
    refine .inr ⟨_, _, rfl, rfl, congrArg (· + 1) h.pc, fun hsource => ?_⟩
    exact hdiffers source fun heq => hsource (congrArg some heq)
  | alu op k =>
    refine .inr ⟨_, _, rfl, rfl, congrArg (· + 1) h.pc, fun hlast => ?_⟩
    exact congrArg (op.apply · k) (h.acc hlast)
  | jump target => exact .inr ⟨_, _, rfl, rfl, rfl, h.acc⟩
  | branch test k jt jf =>
    have hlast : last ≠ some field := by
      intro heq
      cases hunseen heq
    refine .inr ⟨_, _, rfl, rfl, ?_, h.acc⟩
    rw [h.acc hlast]
  | ret value => exact .inl ⟨value, rfl, rfl⟩

theorem returned?_eq_of_unseen (hforward : program.Forward) (hpos : 0 < program.length)
    (hcarries : given.Carries a) (hopen : given.word? field = none)
    (hunseen : ∀ k, k ∉ (Constants.ofProgram program given).of field)
    (hdiffers : a.DiffersOnlyIn field b) (limit : Nat)
    (hpath : PathTo program given ⟨s.pc, given.knowledge last s.acc⟩)
    (h : SideBySide field last s t) :
    program.returned? a limit s = program.returned? b limit t := by
  induction limit generalizing last s t with
  | zero => rfl
  | succ limit ih =>
    simp only [Program.returned?, ← h.pc]
    cases hi : program.code[s.pc]? with
    | none => rfl
    | some i =>
      have hsought : last = some field → i.sought? = none := by
        intro hlast
        rw [hlast, Given.knowledge_of_open hopen] at hpath
        rw [Option.eq_none_iff_forall_ne_some]
        intro k hk
        exact hunseen k ((mem_constants_iff_pathTo hforward hpos).2 ⟨_, i, hpath, hi, hk⟩)
      rcases h.step hdiffers hsought with ⟨value, hs, ht⟩ | ⟨s', t', hs, ht, hnext⟩
      · simp only [hs, ht]
      · simp only [hs, ht]
        exact ih (hpath.tail (leads_of_step hcarries hi hs)) hnext

theorem run_eq_of_unseen (hload : Program.load raw = .ok program) (hcarries : given.Carries a)
    (hopen : given.word? field = none)
    (hunseen : (Constants.ofProgram program given).get? field = none)
    (hdiffers : a.DiffersOnlyIn field b) (limit : Nat) :
    program.run a limit = program.run b limit := by
  have hloaded := load_eq_ok_iff.1 hload
  have hnone : ∀ k, k ∉ (Constants.ofProgram program given).of field := by
    intro k hk
    rw [Constants.of, hunseen] at hk
    cases hk
  have hreturned := returned?_eq_of_unseen hloaded.forward hloaded.length_pos hcarries hopen hnone
    hdiffers limit (pathTo_start program given) ⟨rfl, fun _ => rfl⟩
  rw [Program.run, Program.run, hreturned]

/-- **Words that the scan does not mention cannot influence a run.** If a scan for an architecture
and a number has no constants for a word of an argument or of the instruction pointer, two such
calls that differ in that word only have the same result, whatever the limit; and if a scan
for an architecture alone has none for the number, the result does not depend on the number. -/
theorem run_eq_of_unmentioned (hload : Program.load raw = .ok program) (arch : UInt32) :
    (∀ (number : UInt32) (field : Field) (a b : Call), field ≠ .arch → field ≠ .nr →
      (Constants.ofProgram program ⟨arch, some number⟩).get? field = none →
      a.arch = arch → a.word .nr = number → a.DiffersOnlyIn field b →
      ∀ limit, program.run a limit = program.run b limit) ∧
    ((Constants.ofProgram program ⟨arch, none⟩).get? .nr = none →
      ∀ call : Call, call.arch = arch → ∀ nr limit,
        program.run call limit = program.run { call with nr := nr } limit) := by
  constructor
  · intro number field a b harch hnr hunseen haarch hanr hdiffers limit
    have hopen : (⟨arch, some number⟩ : Given).word? field = none := by
      cases field with
      | arch => exact absurd rfl harch
      | nr => exact absurd rfl hnr
      | _ => rfl
    exact run_eq_of_unseen hload (Given.carries_number.2 ⟨haarch, hanr⟩) hopen hunseen hdiffers
      limit
  · intro hunseen call harch nr limit
    refine run_eq_of_unseen hload (Given.carries_arch.2 harch) rfl hunseen
      (fun other hother => ?_) limit
    cases other with
    | nr => exact absurd rfl hother
    | _ => rfl

/-- Computes with the first argument, then tests a bit of the second one. -/
def onlySecondTested : RawProgram :=
  [.plain .load 16, .plain (.alu .xor) 0xff, .plain (.alu .mul) 3, .plain .load 28,
    .branch .set 0x80 0 1, .plain .ret 0x50001, .plain .ret 0x7fff0000]

def onlySecondTestedProgram : Program where
  code := #[.load (.argLow 0), .alu .xor 0xff, .alu .mul 3, .load (.argHigh 1),
    .branch .set 0x80 5 6, .ret 0x50001, .ret 0x7fff0000]

theorem run_onlySecondTested :
    Program.load onlySecondTested = .ok onlySecondTestedProgram ∧
      (∀ limit, onlySecondTestedProgram.run (.ofWord 7 1 #v[5, 0x8000000000, 0, 0, 0, 0]) limit =
        onlySecondTestedProgram.run (.ofWord 7 1 #v[0xffffffff, 0x8000000000, 0, 0, 0, 0]) limit) ∧
      ∀ nr limit, onlySecondTestedProgram.run (.ofWord 7 1 (.replicate 0)) limit =
        onlySecondTestedProgram.run { Call.ofWord 7 1 (.replicate 0) with nr := nr } limit := by
  have hload : Program.load onlySecondTested = .ok onlySecondTestedProgram := by decide
  obtain ⟨hwords, hnumbers⟩ := run_eq_of_unmentioned hload 1
  refine ⟨hload, hwords 7 (.argLow 0) _ _ (by decide) (by decide) (by decide) rfl rfl ?_,
    hnumbers (by decide) _ rfl⟩
  intro other hother
  cases other with
  | argLow index =>
    match index with
    | 0 => exact absurd rfl hother
    | 1 | 2 | 3 | 4 | 5 => rfl
    | index + 6 => rfl
  | argHigh index =>
    match index with
    | 0 | 1 | 2 | 3 | 4 | 5 => rfl
    | index + 6 => rfl
  | _ => rfl

end Sampling

end SyscallFilter
