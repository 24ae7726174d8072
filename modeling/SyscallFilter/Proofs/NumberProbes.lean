import SyscallFilter.Proofs.ArgumentSampling

/-! Which numbers the probes stand for.

A program that only compares treats numbers alike that are on the same side of every number it
compares with. The largest number of such a class is always considered for probing: it is next to
a number of the program or the last one of all (`exists_considered_alike`). But numbers that the
policy lists are left out, and a class may lose all its considered members that way while it
still has numbers that are not listed (`between_not_probed`).

What a probe says about its own number it says for all arguments: every tuple of arguments has
one among the samples that the program does not tell from it, and the samples of a probe need
not be matched with constants of the policy (`verdict_probed`). -/
namespace SyscallFilter

open Bpf Sampling

variable {program : Program} {policy : Policy} {settings : Settings} {raw : RawProgram}

/-- The numbers that the program compares the number of a call with. -/
def numberConstants (program : Program) (policy : Policy) : List UInt32 :=
  (Constants.ofProgram program ⟨policy.architecture.audit, none⟩).of .nr

/-- The number is worth a probe, listed or not. -/
def Considered (program : Program) (policy : Policy) (settings : Settings) (word : UInt32) : Prop :=
  word.toNat < settings.probeLimit ∨ word ∈ distinguishedNumbers program policy ∨
    word ∈ extremeNumbers

instance (program : Program) (policy : Policy) (settings : Settings) (word : UInt32) :
    Decidable (Considered program policy settings word) :=
  inferInstanceAs (Decidable (_ ∨ _ ∨ _))

/-- The number is that of a call the policy lists. -/
def Policy.Lists (policy : Policy) (word : UInt32) : Prop :=
  ∃ number ∈ policy.syscalls, syscallWord? number = some word

instance (policy : Policy) (word : UInt32) : Decidable (policy.Lists word) :=
  inferInstanceAs (Decidable (∃ number ∈ policy.syscalls, _))

theorem mem_probes_iff {word : UInt32} :
    word ∈ probes program policy settings ↔
      Considered program policy settings word ∧ ¬policy.Lists word := by
  rw [mem_probes, Policy.Lists, not_exists]
  simp only [not_and, ne_eq, Considered]

theorem mem_distinguishedNumbers_of_mem {c word : UInt32}
    (hc : c ∈ numberConstants program policy) (hword : word = c - 1 ∨ word = c ∨ word = c + 1) :
    word ∈ distinguishedNumbers program policy :=
  List.mem_flatMap.2 ⟨c, hc, by simpa using hword⟩

/-- Every class of numbers has a member that is considered. -/
theorem exists_considered_alike (program : Program) (policy : Policy) (settings : Settings)
    (word : UInt32) :
    ∃ m, Considered program policy settings m ∧ Alike (numberConstants program policy) word m := by
  obtain ⟨m, -, halike, hmax | ⟨c, hc, hm⟩⟩ :=
    exists_greatest_alike (numberConstants program policy) word
  · exact ⟨m, .inr (.inr (by simp [extremeNumbers, hmax])), halike⟩
  · refine ⟨m, .inr (.inl (mem_distinguishedNumbers_of_mem hc ?_)), halike⟩
    rcases hm with hm | hm
    · exact .inr (.inl hm)
    · exact .inl hm

/-- The program does the same on all numbers of a class. -/
theorem run_eq_of_alike_numbers (hload : Program.load raw = .ok program)
    (hcomparing : program.comparing) {m word : UInt32}
    (h : Alike (numberConstants program policy) word m) (args : Args) (limit : Nat) :
    program.run (.ofWord m policy.architecture.audit args) limit =
      program.run (.ofWord word policy.architecture.audit args) limit := by
  have hloaded := load_eq_ok_iff.1 hload
  have hruns := runsAlike_of_alike_numbers hloaded.forward hloaded.length_pos hcomparing h.symm 0
    args
  exact (hruns limit).2

/-- **A class of numbers is probed unless all its considered members are listed.** For every
number there is a probe on which the program does the same with all arguments, or else the
numbers worth a probe that compare like it, of which there is at least one, are all listed. -/
theorem exists_probe_or_listed (hload : Program.load raw = .ok program)
    (hcomparing : program.comparing) (policy : Policy) (settings : Settings) (word : UInt32) :
    (∃ m ∈ probes program policy settings, ∀ args limit,
      program.run (.ofWord m policy.architecture.audit args) limit =
        program.run (.ofWord word policy.architecture.audit args) limit) ∨
    (∃ m, Considered program policy settings m ∧
      Alike (numberConstants program policy) word m) ∧
    ∀ m, Considered program policy settings m →
      Alike (numberConstants program policy) word m → policy.Lists m := by
  by_cases hlisted : ∀ m, Considered program policy settings m →
      Alike (numberConstants program policy) word m → policy.Lists m
  · exact .inr ⟨exists_considered_alike program policy settings word, hlisted⟩
  · simp only [not_forall] at hlisted
    obtain ⟨m, hconsidered, halike, hunlisted⟩ := hlisted
    exact .inl ⟨m, mem_probes_iff.2 ⟨hconsidered, hunlisted⟩,
      run_eq_of_alike_numbers hload hcomparing halike⟩

/-! ### The arguments of a probe -/

variable {report : Verification.Report} {word : UInt32} {args : Args}

/-- A verification that passed saw the default action on every sample of a probe. -/
theorem verdict_of_sampled_probe (hload : Program.load raw = .ok program)
    (hverify : verify raw policy settings = .ok report)
    (hprobe : word ∈ probes program policy settings)
    (hargs : args ∈ sampledTuples program policy settings (fun _ => []) word) :
    program.verdict (.ofWord word policy.architecture.audit args) settings.instructionLimit =
      .ok policy.defaultAction := by
  obtain ⟨-, hpass, -⟩ := (verify_eq_ok_iff_of_load hload).1 hverify
  have hcheck : Check.call word.toNat policy.architecture.audit args (.ok policy.defaultAction) ∈
      unlistedChecks program policy settings word := List.mem_map.2 ⟨args, hargs, rfl⟩
  obtain ⟨action, hexpected, hverdict⟩ := Check.failure?_call_eq_none_iff.1
    (hpass _ (mem_checks.2 (.inr (.inl ⟨word, hprobe, hcheck⟩))))
  rw [ofInt_toNat] at hverdict
  rw [hverdict, Except.ok.inj hexpected]

/-- **A probed number is settled for all arguments.** If a verification passed and tried all
samples of a probe, the program gives the default action on every call of that number. -/
theorem verdict_probed (hload : Program.load raw = .ok program) (hcomparing : program.comparing)
    (hverify : verify raw policy settings = .ok report)
    (hprobe : word ∈ probes program policy settings)
    (hsize : (sampledCases program policy settings (fun _ => []) word).size ≤ settings.caseLimit)
    (args : Args) :
    program.verdict (.ofWord word policy.architecture.audit args) settings.instructionLimit =
      .ok policy.defaultAction := by
  obtain ⟨args', hsample, halike⟩ := exists_mem_tuples_argsAlike (fun _ => [])
    (Constants.ofProgram program ⟨policy.architecture.audit, some word⟩) args
  rw [verdict_ofWord_eq_of_alike hload hcomparing halike]
  exact verdict_of_sampled_probe hload hverify hprobe (mem_sampledTuples_of_size_le hsize hsample)

namespace RuleSet

/-- The number 3 is allowed with 0 for its first argument. -/
def onlyZero : RuleSet where
  rules := .ofList [(3, [⟨[⟨0, .dword, .eq, 0⟩], .allow⟩])]
  defaultAction := .errno 1
  architecture := .x86_64
  names := .empty
  valid := by decide

/-- Looks at the argument of every call before it looks at the number. -/
def argumentFirstRaw : RawProgram :=
  [loadWord (.argLow 0), compareWord .eq 0 0 2, loadWord .nr, compareWord .eq 3 1 0,
    returnAction (.errno 1), returnAction .allow]

def argumentFirst : Program where
  code := #[.load (.argLow 0), .branch .eq 0 2 4, .load .nr, .branch .eq 3 5 4,
    .ret (Action.errno 1).code, .ret Action.allow.code]

theorem verdict_argumentFirst :
    Program.load argumentFirstRaw = .ok argumentFirst ∧
      verify argumentFirstRaw onlyZero.policy fewProbes = .ok ⟨1, 192, 5, 0, []⟩ ∧
      4 ∈ probes argumentFirst onlyZero.policy fewProbes ∧
      ∀ args, argumentFirst.verdict (.ofWord 4 Architecture.x86_64.audit args) maxLength =
        .ok (.errno 1) := by
  have hload : Program.load argumentFirstRaw = .ok argumentFirst := by decide
  have hverify : verify argumentFirstRaw onlyZero.policy fewProbes = .ok ⟨1, 192, 5, 0, []⟩ := by
    decide +kernel
  have hprobe : 4 ∈ probes argumentFirst onlyZero.policy fewProbes := by decide +kernel
  exact ⟨hload, hverify, hprobe,
    verdict_probed hload (by decide) hverify hprobe (by decide +kernel)⟩

/-- Two numbers with one between them. -/
def twoListed : RuleSet where
  rules := .ofList [(2001, [⟨[], .allow⟩]), (2003, [⟨[], .allow⟩])]
  defaultAction := .errno 1
  architecture := .x86_64
  names := .empty
  valid := by decide

/-- Allows the numbers above 2000 and below 2004. -/
def betweenRaw : RawProgram :=
  architectureCode .x86_64 ++ [loadWord .nr, compareWord .gt 2000 0 2, compareWord .ge 2004 1 0,
    returnAction .allow, returnAction (.errno 1)]

def betweenProgram : Program where
  code := #[.load .arch, .branch .eq Architecture.x86_64.audit 3 2, .ret Action.killProcess.code,
    .load .nr, .branch .gt 2000 5 7, .branch .ge 2004 7 6, .ret Action.allow.code,
    .ret (Action.errno 1).code]

theorem load_betweenRaw : Program.load betweenRaw = .ok betweenProgram := by
  decide

theorem probe_like_1500 :
    ∃ m ∈ probes betweenProgram twoListed.policy fewProbes, ∀ args limit,
      betweenProgram.run (.ofWord m twoListed.policy.architecture.audit args) limit =
        betweenProgram.run (.ofWord 1500 twoListed.policy.architecture.audit args) limit := by
  refine (exists_probe_or_listed load_betweenRaw (by decide) twoListed.policy fewProbes
    1500).resolve_right ?_
  rintro ⟨-, hlisted⟩
  exact absurd (hlisted 1999 (by decide +kernel) (by decide +kernel)) (by decide)

/-- No probe is treated like 2002, which is allowed though it is not listed, and the program
passes: the numbers next to those compared with are listed. -/
theorem between_not_probed :
    Program.load betweenRaw = .ok betweenProgram ∧ betweenProgram.comparing ∧
      (∀ number ∈ twoListed.policy.syscalls, (syscallWord? number).isSome) ∧
      ¬twoListed.policy.Lists 2002 ∧
      verify betweenRaw twoListed.policy fewProbes = .ok ⟨2, 128, 7, 0, []⟩ ∧
      ∀ m ∈ probes betweenProgram twoListed.policy fewProbes, ∃ args,
        betweenProgram.run (.ofWord m twoListed.policy.architecture.audit args) maxLength ≠
          betweenProgram.run (.ofWord 2002 twoListed.policy.architecture.audit args) maxLength := by
  -- Computed on the list of probes: as a statement about all words it would have 2 ^ 32 cases.
  have hdiffers : (probes betweenProgram twoListed.policy fewProbes).all fun m =>
      betweenProgram.run (.ofWord m twoListed.policy.architecture.audit (.replicate 0)) maxLength ≠
        betweenProgram.run (.ofWord 2002 twoListed.policy.architecture.audit (.replicate 0))
          maxLength := by
    decide +kernel
  exact ⟨load_betweenRaw, by decide, by decide, by decide, by decide +kernel,
    fun m hm => ⟨_, of_decide_eq_true (List.all_eq_true.1 hdiffers m hm)⟩⟩

end RuleSet

end SyscallFilter
