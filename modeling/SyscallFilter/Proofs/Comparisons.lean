import SyscallFilter.Proofs.Exploration
import SyscallFilter.Proofs.Runs

/-! Programs that only compare treat alike words alike.

Two values are alike for a list of constants if no constant tells them apart. A program
without arithmetic and without tests of single bits looks at the open words of a call
through comparisons with the recorded constants, so it takes the same path on two calls
whose words are alike, and returns the same value. -/
namespace SyscallFilter

/-! ### Values that no constant tells apart -/

section

variable {α : Type} [LT α]

/-- Both values are on the same side of every constant. -/
def Alike (constants : List α) (a b : α) : Prop :=
  ∀ c ∈ constants, (a < c ↔ b < c) ∧ (c < a ↔ c < b)

instance [DecidableLT α] (constants : List α) (a b : α) : Decidable (Alike constants a b) :=
  inferInstanceAs (Decidable (∀ c ∈ constants, _))

namespace Alike

variable {constants others : List α} {a b c : α}

theorem refl (constants : List α) (a : α) : Alike constants a a :=
  fun _ _ => ⟨Iff.rfl, Iff.rfl⟩

theorem symm (h : Alike constants a b) : Alike constants b a :=
  fun k hk => ⟨(h k hk).1.symm, (h k hk).2.symm⟩

theorem trans (hab : Alike constants a b) (hbc : Alike constants b c) : Alike constants a c :=
  fun k hk => ⟨(hab k hk).1.trans (hbc k hk).1, (hab k hk).2.trans (hbc k hk).2⟩

theorem mono (h : Alike constants a b) (hsub : ∀ k ∈ others, k ∈ constants) : Alike others a b :=
  fun k hk => h k (hsub k hk)

variable [LE α] [Std.IsLinearOrder α] [Std.LawfulOrderLT α]

theorem le_iff (h : Alike constants a b) (hc : c ∈ constants) : a ≤ c ↔ b ≤ c := by
  rw [← Std.not_lt, ← Std.not_lt, (h c hc).2]

theorem ge_iff (h : Alike constants a b) (hc : c ∈ constants) : c ≤ a ↔ c ≤ b := by
  rw [← Std.not_lt, ← Std.not_lt, (h c hc).1]

theorem eq_iff (h : Alike constants a b) (hc : c ∈ constants) : a = c ↔ b = c := by
  rw [← Std.le_antisymm_iff, h.le_iff hc, h.ge_iff hc, Std.le_antisymm_iff]

end Alike

end

namespace Bpf

/-- Neither arithmetic nor a test of single bits. -/
def Instruction.comparing : Instruction → Bool
  | alu .. => false
  | branch test .. => test ≠ .set
  | _ => true

/-- The program looks at words only by comparing them. -/
def Program.comparing (program : Program) : Bool :=
  program.code.toList.all Instruction.comparing

theorem Program.comparing_of_getElem? {program : Program} {pc : Nat} {i : Instruction}
    (h : program.comparing) (hi : program.code[pc]? = some i) : i.comparing := by
  rw [← Array.getElem?_toList] at hi
  exact List.all_eq_true.1 h i (List.mem_of_getElem? hi)

/-- The indices of the instructions that a run executes, at most `limit` of them. -/
def Program.path (program : Program) (call : Call) (limit : Nat) : List Nat :=
  (program.trace call limit).map State.pc

/-- Whatever the limit, the runs on the two calls execute the same instructions and come to the
same result. -/
def Program.RunsAlike (program : Program) (a b : Call) : Prop :=
  ∀ limit, program.path a limit = program.path b limit ∧ program.run a limit = program.run b limit

/-- Runs that are alike return the same value if they may run to their end. -/
theorem Loaded.exists_same_value {raw : RawProgram} {program : Program} (h : Loaded raw program)
    {a b : Call} (halike : program.RunsAlike a b) :
    ∃ value, ∀ limit, raw.length ≤ limit →
      program.run a limit = .ok value ∧ program.run b limit = .ok value := by
  obtain ⟨value, hvalue⟩ := h.exists_value a
  refine ⟨value, fun limit hlimit => ⟨hvalue limit hlimit, ?_⟩⟩
  rw [← (halike limit).2]
  exact hvalue limit hlimit

theorem Test.holds_eq_of_alike {test : Test} {constants : List UInt32} {k a b : UInt32}
    (htest : test ≠ .set) (h : Alike constants a b) (hk : k ∈ constants) :
    test.holds a k = test.holds b k := by
  cases test with
  | eq => simp only [holds, h.eq_iff hk]
  | gt => simp only [holds, (h k hk).2]
  | ge => simp only [holds, h.ge_iff hk]
  | set => exact absurd rfl htest

end Bpf

/-! ### Runs on alike calls -/

namespace Sampling

open Bpf

/-- The call carries the words that are given. -/
def Given.Carries (given : Given) (call : Call) : Prop :=
  ∀ field value, given.load field = .value value → call.word field = value

theorem Given.carries_iff {given : Given} {call : Call} :
    given.Carries call ↔
      call.arch = given.arch ∧ ∀ number, given.nr = some number → call.word .nr = number := by
  constructor
  · exact fun h => ⟨h .arch _ rfl, fun number hnr => h .nr number (by simp [load, hnr])⟩
  · intro h field value hload
    cases field with
    | arch =>
      cases hload
      exact h.1
    | nr =>
      cases hgiven : given.nr with
      | none => simp [load, hgiven] at hload
      | some number =>
        obtain rfl : number = value := by simpa [load, hgiven] using hload
        exact h.2 number hgiven
    | _ => cases hload

theorem Given.carries_number {arch number : UInt32} {call : Call} :
    (⟨arch, some number⟩ : Given).Carries call ↔ call.arch = arch ∧ call.word .nr = number := by
  simp [carries_iff]

theorem Given.carries_arch {arch : UInt32} {call : Call} :
    (⟨arch, none⟩ : Given).Carries call ↔ call.arch = arch := by
  simp [carries_iff]

/-- The point is where the run on a call is, and what it knows is so. -/
def Point.Describes (p : Point) (call : Call) (s : State) : Prop :=
  s.pc = p.pc ∧
    match p.acc with
    | .value value => s.acc = value
    | .word field => s.acc = call.word field

/-- No recorded constant tells the words of the calls apart. -/
def Constants.CallsAlike (constants : Constants) (a b : Call) : Prop :=
  ∀ field, Alike (constants.of field) (a.word field) (b.word field)

variable {program : Program} {given : Given} {a b : Call} {p : Point} {i : Instruction} {s t : State}

theorem Point.describes_start (call : Call) : Point.start.Describes call .start :=
  ⟨rfl, rfl⟩

theorem Given.Carries.describes_load {call : Call} (h : given.Carries call) (field : Field)
    (pc : Nat) : (⟨pc, given.load field⟩ : Point).Describes call ⟨pc, call.word field⟩ := by
  refine ⟨rfl, ?_⟩
  cases hload : given.load field with
  | value value => exact h field value hload
  | word source =>
    have hsource : source = field := by
      unfold Given.load at hload
      split at hload
      · cases hload
      · split at hload <;> cases hload
        rfl
      · cases hload
        rfl
    rw [hsource]

/-- The side of a branch that a run takes is among those explored. -/
theorem Point.Describes.branch_mem_successors (h : p.Describes a s) (test : Test) (k : UInt32)
    (jt jf : Nat) :
    ⟨if test.holds s.acc k then jt else jf, p.acc⟩ ∈ p.successors given (.branch test k jt jf) := by
  obtain ⟨-, hacc⟩ := h
  unfold Point.successors
  cases hp : p.acc with
  | value value =>
    simp only [hp] at hacc
    simp [hacc]
  | word field =>
    simp only
    split <;> simp

/-- The constant of a branch on an open word is recorded, so alike runs take the same side. -/
theorem holds_eq_of_describes (halike : (Constants.ofProgram program given).CallsAlike a b)
    (hp : p ∈ explored program given) {test : Test} {k : UInt32} {jt jf : Nat}
    (hi : program.code[p.pc]? = some (.branch test k jt jf)) (htest : test ≠ .set)
    (hs : p.Describes a s) (ht : p.Describes b t) : test.holds s.acc k = test.holds t.acc k := by
  obtain ⟨-, hsacc⟩ := hs
  obtain ⟨-, htacc⟩ := ht
  cases hacc : p.acc with
  | value value =>
    simp only [hacc] at hsacc htacc
    rw [hsacc, htacc]
  | word field =>
    simp only [hacc] at hsacc htacc
    have hk : k ∈ (Constants.ofProgram program given).of field :=
      mem_constants_of_mem_explored hp hi (by simp [Point.recorded?, hacc])
    rw [hsacc, htacc]
    exact Test.holds_eq_of_alike htest (halike field) hk

/-- One instruction takes two alike runs to the same place. -/
theorem step_alike (ha : given.Carries a) (hb : given.Carries b)
    (halike : (Constants.ofProgram program given).CallsAlike a b)
    (hp : p ∈ explored program given) (hi : program.code[p.pc]? = some i)
    (hcomparing : i.comparing) (hs : p.Describes a s) (ht : p.Describes b t) :
    (∃ v, i.step a s = .returns v ∧ i.step b t = .returns v) ∨
      ∃ s' t', i.step a s = .goes s' ∧ i.step b t = .goes t' ∧
        ∃ q ∈ p.successors given i, q.Describes a s' ∧ q.Describes b t' := by
  cases i with
  | load field =>
    refine .inr ⟨_, _, rfl, rfl, _, List.mem_singleton_self _, ?_, ?_⟩
    · rw [hs.1]
      exact ha.describes_load field _
    · rw [ht.1]
      exact hb.describes_load field _
  | alu op k => cases hcomparing
  | jump target =>
    exact .inr ⟨_, _, rfl, rfl, _, List.mem_singleton_self _, ⟨rfl, hs.2⟩, ⟨rfl, ht.2⟩⟩
  | branch test k jt jf =>
    have htest : test ≠ .set := by simpa [Instruction.comparing] using hcomparing
    have hside := holds_eq_of_describes halike hp hi htest hs ht
    refine .inr ⟨_, _, rfl, rfl, _, hs.branch_mem_successors test k jt jf, ⟨rfl, hs.2⟩, ?_, ht.2⟩
    rw [hside]
  | ret value => exact .inl ⟨value, rfl, rfl⟩

/-- Wherever a run comes to is explored. -/
theorem exists_explored_of_reaches (hforward : program.Forward) (hcomparing : program.comparing)
    (ha : given.Carries a) (hp : p ∈ explored program given) (hs : p.Describes a s)
    (h : program.Reaches a s t) : ∃ q ∈ explored program given, q.Describes a t := by
  induction h with
  | refl => exact ⟨p, hp, hs⟩
  | @tail t u _ hgoes ih =>
    obtain ⟨q, hq, hdescribes⟩ := ih
    obtain ⟨i, hi, hstep⟩ := hgoes
    rw [hdescribes.1] at hi
    rcases step_alike ha ha (fun _ => .refl _ _) hq hi (Program.comparing_of_getElem? hcomparing hi)
      hdescribes hdescribes with ⟨v, hv, -⟩ | ⟨u', -, hu', -, r, hr, hdescribes', -⟩
    · cases hstep.symm.trans hv
    · cases hstep.symm.trans hu'
      exact ⟨r, mem_explored_of_mem_successors hforward hq hi hr, hdescribes'⟩

/-- Alike runs stay at the same instructions to the end. -/
theorem statesFrom_eq_of_alike (hforward : program.Forward) (hcomparing : program.comparing)
    (ha : given.Carries a) (hb : given.Carries b)
    (halike : (Constants.ofProgram program given).CallsAlike a b) (limit : Nat)
    (hp : p ∈ explored program given) (hs : p.Describes a s) (ht : p.Describes b t) :
    (program.statesFrom a limit s).map State.pc = (program.statesFrom b limit t).map State.pc ∧
      program.returned? a limit s = program.returned? b limit t := by
  induction limit generalizing p s t with
  | zero => exact ⟨rfl, rfl⟩
  | succ limit ih =>
    simp only [Program.statesFrom, Program.returned?, hs.1, ht.1]
    cases hi : program.code[p.pc]? with
    | none => exact ⟨rfl, rfl⟩
    | some i =>
      have hstep := step_alike ha hb halike hp hi (Program.comparing_of_getElem? hcomparing hi) hs ht
      rcases hstep with ⟨v, hsv, htv⟩ | ⟨s', t', hss', htt', q, hq, hs', ht'⟩
      · simp only [hsv, htv, List.map_cons, hs.1, ht.1, and_self]
      · obtain ⟨hindices, hreturned⟩ :=
          ih (mem_explored_of_mem_successors hforward hp hi hq) hs' ht'
        simp only [hss', htt', List.map_cons, hs.1, ht.1, hindices, hreturned, and_self]

theorem runsAlike_of_alike (hforward : program.Forward) (hpos : 0 < program.length)
    (hcomparing : program.comparing) (ha : given.Carries a) (hb : given.Carries b)
    (halike : (Constants.ofProgram program given).CallsAlike a b) : program.RunsAlike a b := by
  intro limit
  obtain ⟨hpath, hreturned⟩ := statesFrom_eq_of_alike hforward hcomparing ha hb halike limit
    (start_mem_explored hpos) (Point.describes_start a) (Point.describes_start b)
  refine ⟨hpath, ?_⟩
  rw [Program.run, Program.run, hreturned]

/-- Alike calls return the same value. -/
theorem run_eq_of_alike (hforward : program.Forward) (hpos : 0 < program.length)
    (hcomparing : program.comparing) (ha : given.Carries a) (hb : given.Carries b)
    (halike : (Constants.ofProgram program given).CallsAlike a b) (limit : Nat) :
    program.run a limit = program.run b limit :=
  (runsAlike_of_alike hforward hpos hcomparing ha hb halike limit).2

/-- Calls run alike if nothing but their numbers differs and these compare alike with all numbers
that the program looks for. -/
theorem runsAlike_of_alike_numbers (hforward : program.Forward) (hpos : 0 < program.length)
    (hcomparing : program.comparing) {arch m n : UInt32}
    (halike : Alike ((Constants.ofProgram program ⟨arch, none⟩).of .nr) m n) (pointer : UInt64)
    (args : Args) :
    program.RunsAlike ⟨m.toInt32, arch, pointer, args⟩ ⟨n.toInt32, arch, pointer, args⟩ := by
  have hcarries (number : UInt32) :
      (⟨arch, none⟩ : Given).Carries ⟨number.toInt32, arch, pointer, args⟩ :=
    Given.carries_arch.2 rfl
  refine runsAlike_of_alike hforward hpos hcomparing (hcarries m) (hcarries n) fun field => ?_
  cases field with
  | nr => exact halike
  | _ => exact .refl _ _

theorem verdict_eq_of_alike (hforward : program.Forward) (hpos : 0 < program.length)
    (hcomparing : program.comparing) (ha : given.Carries a) (hb : given.Carries b)
    (halike : (Constants.ofProgram program given).CallsAlike a b) (limit : Nat) :
    program.verdict a limit = program.verdict b limit := by
  rw [Program.verdict, Program.verdict, run_eq_of_alike hforward hpos hcomparing ha hb halike]

end Sampling

end SyscallFilter
