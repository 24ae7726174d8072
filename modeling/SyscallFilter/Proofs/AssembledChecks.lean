import SyscallFilter.Proofs.Assembly
import SyscallFilter.Proofs.CheckSequence

/-! An assembled program passes every verification against its own rules.

Each check is passed because `assemble_spec` says what the program does on the call, and
the three lemmas below say that this is what the check expects: the listed numbers are
their own words, a probe is a number without a chain, and no foreign call carries the
architecture of the rules. -/
namespace SyscallFilter.RuleSet

open Bpf

variable {ruleSet : RuleSet}

theorem number_of_mem_syscalls {number : Int} (h : number ∈ ruleSet.syscalls) :
    0 ≤ number ∧ number < 0x100000000 := by
  obtain ⟨entry, hentry, rfl⟩ := List.mem_map.1 h
  exact (of_mem_entries hentry).1

theorem toNat_ofInt {number : Int} (hrange : 0 ≤ number ∧ number < 0x100000000) :
    ((UInt32.ofInt number).toNat : Int) = number := by
  rw [UInt32.ofInt, UInt32.toNat_ofNat_of_lt' (by rw [UInt32.size]; omega)]
  omega

theorem toNat_ofInt_of_mem_syscalls {number : Int} (h : number ∈ ruleSet.syscalls) :
    ((UInt32.ofInt number).toNat : Int) = number :=
  toNat_ofInt (number_of_mem_syscalls h)

theorem decision_ofWord (word : UInt32) (args : Args) :
    ruleSet.decision (.ofWord word ruleSet.architecture.audit args) =
      ruleSet.answer word.toNat args :=
  if_pos rfl

theorem decision_listed {number : Int} (h : number ∈ ruleSet.syscalls) (args : Args) :
    ruleSet.evaluate number args =
      .ok (ruleSet.decision (.ofWord (UInt32.ofInt number) ruleSet.architecture.audit args)) := by
  rw [evaluate_eq_answer h, decision_ofWord, toNat_ofInt_of_mem_syscalls h]

theorem decision_unlisted {word : UInt32} {program : Program} {settings : Settings}
    (h : word ∈ probes program ruleSet.policy settings) (args : Args) :
    ruleSet.decision (.ofWord word ruleSet.architecture.audit args) = ruleSet.defaultAction := by
  have hunlisted : (word.toNat : Int) ∉ ruleSet.syscalls := by
    intro hlisted
    exact (mem_probes.1 h).2 word.toNat hlisted (syscallWord?_toNat word)
  rw [decision_ofWord, answer_of_not_mem hunlisted]

theorem decision_foreign {arch : UInt32} (h : arch ∈ ruleSet.architecture.foreignAudits)
    (word : UInt32) (args : Args) : ruleSet.decision (.ofWord word arch args) = .killProcess := by
  have harch : arch ≠ ruleSet.architecture.audit := by
    rintro rfl
    exact ruleSet.architecture.audit_not_mem_foreignAudits h
  exact if_neg harch

/-- A check of a rule set passes by itself, or asks for the decision of the rules on a call. -/
theorem passes_or_asks_decision {program : Program} {settings : Settings} {check : Check}
    (hcheck : check ∈ checks program ruleSet.policy settings) :
    check.failure? program ruleSet.policy settings = none ∨
      ∃ number arch args, (0 ≤ number ∧ number < 0x100000000) ∧
        check = .call number arch args
          (.ok (ruleSet.decision (.ofWord (UInt32.ofInt number) arch args))) := by
  rcases mem_checks.1 hcheck with ⟨number, hnumber, hcheck⟩ | ⟨word, hword, hcheck⟩ | ⟨-, hcheck⟩
  · have hrange := number_of_mem_syscalls hnumber
    rcases List.mem_cons.1 hcheck with rfl | hcall
    · exact .inl (if_pos (by omega))
    · obtain ⟨args, -, rfl⟩ := List.mem_map.1 hcall
      exact .inr ⟨_, _, args, hrange, congrArg _ (decision_listed hnumber args)⟩
  · obtain ⟨args, -, rfl⟩ := List.mem_map.1 hcheck
    have hlt := word.toNat_lt
    refine .inr ⟨word.toNat, ruleSet.architecture.audit, args, by omega, ?_⟩
    rw [ofInt_toNat]
    exact congrArg (Check.call _ _ args ∘ Except.ok) (decision_unlisted hword args).symm
  · simp only [foreignChecks, List.mem_flatMap, List.mem_map] at hcheck
    obtain ⟨arch, harch, number, hnumber, args, -, rfl⟩ := hcheck
    have hrange : 0 ≤ number ∧ number < 0x100000000 := by
      rcases List.mem_append.1 hnumber with hlisted | hzero
      · exact number_of_mem_syscalls hlisted
      · split at hzero
        · cases hzero
        · rw [List.mem_singleton.1 hzero]
          decide
    exact .inr ⟨number, arch, args, hrange,
      congrArg (Check.call number arch args ∘ Except.ok) (decision_foreign harch _ args).symm⟩

/-- A program that decides as the rules do passes every check. -/
theorem checks_pass {program : Program} {settings : Settings}
    (hverdict : ∀ call, program.verdict call settings.instructionLimit =
      .ok (ruleSet.decision call)) {check : Check}
    (hcheck : check ∈ checks program ruleSet.policy settings) :
    check.failure? program ruleSet.policy settings = none := by
  rcases passes_or_asks_decision hcheck with hpasses | ⟨number, arch, args, -, rfl⟩
  · exact hpasses
  · exact Check.failure?_call_eq_none_iff.2 ⟨_, rfl, hverdict _⟩

/-- **An assembled program always verifies** against the rules it was assembled from, with
any settings that let it run to its end. -/
theorem verify_assembled {raw : RawProgram} {settings : Settings}
    (hassemble : ruleSet.assemble = .ok raw) (hcases : 1 ≤ settings.caseLimit)
    (hlimit : raw.length ≤ settings.instructionLimit) :
    ∃ report, verify raw ruleSet.policy settings = .ok report := by
  obtain ⟨program, hload, -, hverdict⟩ := assemble_spec hassemble
  refine ⟨_, verify_eq_ok_iff.2 ⟨by omega, program, hload, ?_, rfl⟩⟩
  intro check hcheck
  exact checks_pass (fun call => hverdict call _ hlimit) hcheck

theorem verify_limitedWrites :
    limitedWrites.assemble = .ok limitedWrites.code ∧
      ∃ report, verify limitedWrites.code limitedWrites.policy {} = .ok report := by
  have hassemble : limitedWrites.assemble = .ok limitedWrites.code := by decide
  exact ⟨hassemble, verify_assembled hassemble (by decide) (by decide)⟩

end SyscallFilter.RuleSet
