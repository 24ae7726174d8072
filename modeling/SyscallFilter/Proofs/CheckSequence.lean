import Mathlib.Data.List.TakeWhile
import SyscallFilter.Proofs.Odometer
import SyscallFilter.Verification.Basic

/-! A verification is one sequence of checks, up to the first that fails.

Listed numbers, unlisted numbers and foreign calls are tried in three passes, each
pass made of trials and each trial of calls. `checks` writes the calls down as one flat
list, with a check of the number itself in front of the calls of every listed number.
A trial counts its calls up to the first that fails (`make_eq`), and a verification
fails with the first check of all that fails and passes if there is none
(`failure?_perform`). -/
namespace SyscallFilter

open Bpf Sampling

/-! ### The sequence -/

/-- One thing to check. -/
inductive Check where
  /-- A call record can hold the number. -/
  | number (number : Int)
  /-- The program treats the call as expected. -/
  | call (number : Int) (arch : UInt32) (args : Args) (expected : Except PolicyError Action)

section

variable (program : Program) (policy : Policy) (settings : Settings)

/-- What is wrong, if the check fails. -/
def Check.failure? : Check → Option Failure
  | number n =>
    if -0x80000000 ≤ n ∧ n ≤ 0xffffffff then none else some (.invalidSyscallNumber n)
  | call n arch args expected =>
    let blamed : Counterexample := ⟨n, policy.name? n, arch, args⟩
    match program.verdict (.ofWord (UInt32.ofInt n) arch args) settings.instructionLimit, expected with
    | .error fault, _ => some (.fault blamed fault)
    | .ok _, .error error => some (.policy error)
    | .ok actual, .ok expected =>
      if actual = expected then none else some (.mismatch blamed expected actual)

/-- The argument tuples of a word that are within the limit. -/
def sampledTuples (constants : Nat → List UInt64) (word : UInt32) : List Args :=
  (tuples (callCandidates constants
    (.ofProgram program ⟨policy.architecture.audit, some word⟩))).take settings.caseLimit

def listedChecks (number : Int) : List Check :=
  .number number :: (sampledTuples program policy settings (policy.constants number)
    (UInt32.ofInt number)).map fun args =>
      .call number policy.architecture.audit args (policy.evaluate number args)

def unlistedChecks (word : UInt32) : List Check :=
  (sampledTuples program policy settings (fun _ => []) word).map fun args =>
    .call word.toNat policy.architecture.audit args (.ok policy.defaultAction)

def foreignChecks : List Check :=
  policy.architecture.foreignAudits.flatMap fun arch =>
    (policy.syscalls ++ if 0 ∈ policy.syscalls then [] else [0]).flatMap fun number =>
      [Args.replicate 0, Args.replicate 0xffffffffffffffff].map fun args =>
        .call number arch args (.ok policy.mismatchAction)

/-- Everything that a verification checks, in order. -/
def checks : List Check :=
  policy.syscalls.flatMap (listedChecks program policy settings) ++
    (probes program policy settings).flatMap (unlistedChecks program policy settings) ++
    if settings.checkForeign then foreignChecks policy else []

end

section

variable {program : Program} {policy : Policy} {settings : Settings}

/-- A call passes if the program and the policy both answer, and alike. -/
theorem Check.failure?_call_eq_none_iff {number : Int} {arch : UInt32} {args : Args}
    {expected : Except PolicyError Action} :
    (Check.call number arch args expected).failure? program policy settings = none ↔
      ∃ action, expected = .ok action ∧
        program.verdict (.ofWord (UInt32.ofInt number) arch args) settings.instructionLimit =
          .ok action := by
  simp only [Check.failure?]
  cases program.verdict (.ofWord (UInt32.ofInt number) arch args) settings.instructionLimit with
  | error fault => simp
  | ok actual =>
    cases expected with
    | error error => simp
    | ok expected => simp [eq_comm]

/-- Samples that are within the limit are all tried. -/
theorem mem_sampledTuples_of_size_le {constants : Nat → List UInt64} {word : UInt32} {args : Args}
    (hsize : (sampledCases program policy settings constants word).size ≤ settings.caseLimit)
    (hargs : args ∈ tuples (callCandidates constants
      (.ofProgram program ⟨policy.architecture.audit, some word⟩))) :
    args ∈ sampledTuples program policy settings constants word := by
  rw [sampledTuples, List.take_of_length_le]
  · exact hargs
  · rw [← Cases.length_tuples] at hsize
    exact hsize

theorem mem_checks {check : Check} :
    check ∈ checks program policy settings ↔
      (∃ number ∈ policy.syscalls, check ∈ listedChecks program policy settings number) ∨
      (∃ word ∈ probes program policy settings, check ∈ unlistedChecks program policy settings word) ∨
      settings.checkForeign ∧ check ∈ foreignChecks policy := by
  simp only [checks, List.mem_append, List.mem_flatMap, or_assoc]
  cases settings.checkForeign <;> simp

end

/-! ### Trials up to the first failure -/

theorem Trial.passed_iff (trial : Trial) : trial.passed = true ↔ trial.failure? = none := by
  simp [Trial.passed]

section

variable {α : Type} (trial : α → Trial)

theorem untilFailure_append_done (done : List Trial) (xs : List α) :
    untilFailure trial done xs = done.reverse ++ untilFailure trial [] xs := by
  induction xs generalizing done with
  | nil => simp [untilFailure]
  | cons a rest ih =>
    simp only [untilFailure]
    split
    · rw [ih, ih [trial a]]
      simp
    · simp

theorem untilFailure_cons (a : α) (rest : List α) :
    untilFailure trial [] (a :: rest) =
      trial a :: if (trial a).passed then untilFailure trial [] rest else [] := by
  simp only [untilFailure]
  split
  · rw [untilFailure_append_done]
    rfl
  · rfl

theorem findSome?_untilFailure (xs : List α) :
    (untilFailure trial [] xs).findSome? Trial.failure? =
      xs.findSome? fun a => (trial a).failure? := by
  induction xs with
  | nil => rfl
  | cons a rest ih =>
    rw [untilFailure_cons, List.findSome?_cons, List.findSome?_cons]
    cases hf : (trial a).failure? with
    | some failure => rfl
    | none =>
      rw [if_pos ((trial a).passed_iff.2 hf)]
      exact ih

theorem all_passed_iff (trials : List Trial) :
    trials.all Trial.passed = true ↔ trials.findSome? Trial.failure? = none := by
  simp only [List.all_eq_true, List.findSome?_eq_none_iff, Trial.passed_iff]

end

/-! ### Trials as checks -/

theorem findSome?_flatMap {α β γ : Type} (f : α → List β) (g : β → Option γ) (l : List α) :
    (l.flatMap f).findSome? g = l.findSome? fun a => (f a).findSome? g := by
  induction l with
  | nil => rfl
  | cons a rest ih =>
    rw [List.flatMap_cons, List.findSome?_append, List.findSome?_cons, ih]
    cases (f a).findSome? g <;> rfl

theorem findSome?_congr {α β : Type} {f g : α → Option β} {l : List α} (h : ∀ a ∈ l, f a = g a) :
    l.findSome? f = l.findSome? g := by
  induction l with
  | nil => rfl
  | cons a rest ih =>
    rw [List.findSome?_cons, List.findSome?_cons, h a (List.mem_cons_self ..),
      ih fun b hb => h b (List.mem_cons_of_mem _ hb)]

section

variable {program : Program} {policy : Policy} {settings : Settings}

theorem syscallWord?_eq (number : Int) :
    syscallWord? number =
      if -0x80000000 ≤ number ∧ number ≤ 0xffffffff then some (UInt32.ofInt number) else none := by
  unfold syscallWord?
  congr 1
  apply propext
  omega

theorem ofInt_of_syscallWord? {number : Int} {word : UInt32} (h : syscallWord? number = some word) :
    UInt32.ofInt number = word := by
  rw [syscallWord?_eq] at h
  split at h
  · exact Option.some.inj h
  · cases h

theorem checkCall_eq (number : Int) (arch : UInt32) (expected : Args → Except PolicyError Action)
    (args : Args) :
    checkCall program policy settings number (UInt32.ofInt number) arch expected args =
      (Check.call number arch args (expected args)).failure? program policy settings := by
  simp only [checkCall, Check.failure?, counterexample]
  cases program.verdict (.ofWord (UInt32.ofInt number) arch args) settings.instructionLimit with
  | error fault => rfl
  | ok actual => cases expected args <;> rfl

/-- The trial of a number that has a word passes its calls up to the first that fails, and fails
as that one does. -/
theorem make_eq {number : Int} {word : UInt32} (hword : syscallWord? number = some word)
    (arch : UInt32) (cases : UInt32 → Cases) (expected : Args → Except PolicyError Action) :
    let calls := ((tuples (cases word).candidates).take (cases word).limit).map fun args =>
      Check.call number arch args (expected args)
    Trial.make program policy settings number arch cases expected =
      { number := number
        cases := cases word
        checked :=
          (calls.takeWhile fun check => (check.failure? program policy settings).isNone).length
        failure? := calls.findSome? (Check.failure? program policy settings) } := by
  obtain rfl := ofInt_of_syscallWord? hword
  have hcheck : checkCall program policy settings number (UInt32.ofInt number) arch expected =
      Check.failure? program policy settings ∘ fun args =>
        Check.call number arch args (expected args) :=
    funext fun args => checkCall_eq number arch expected args
  simp only [Trial.make, hword, hcheck, Cases.search_eq, Cases.toList_eq, List.findSome?_map,
    List.takeWhile_map, List.length_map]
  rfl

theorem failure?_make {number : Int} {word : UInt32} (hword : syscallWord? number = some word)
    (arch : UInt32) (cases : UInt32 → Cases) (expected : Args → Except PolicyError Action) :
    (Trial.make program policy settings number arch cases expected).failure? =
      (((tuples (cases word).candidates).take (cases word).limit).map fun args =>
        Check.call number arch args (expected args)).findSome?
        (Check.failure? program policy settings) := by
  rw [make_eq hword]

/-- A trial that passed has gone through all the tuples. -/
theorem checked_make {number : Int} {word : UInt32} (hword : syscallWord? number = some word)
    {arch : UInt32} {cases : UInt32 → Cases} {expected : Args → Except PolicyError Action}
    (hpassed : (Trial.make program policy settings number arch cases expected).passed = true) :
    (Trial.make program policy settings number arch cases expected).checked =
      (cases word).count := by
  rw [Trial.passed_iff, failure?_make hword, List.findSome?_eq_none_iff] at hpassed
  rw [make_eq hword]
  dsimp only
  rw [List.takeWhile_eq_self_iff.2 fun check hcheck =>
      Option.isNone_iff_eq_none.2 (hpassed check hcheck),
    List.length_map, ← Cases.toList_eq, Cases.length_toList]

theorem failure?_listed (number : Int) :
    (Trial.listed program policy settings number).failure? =
      (listedChecks program policy settings number).findSome?
        (Check.failure? program policy settings) := by
  rw [listedChecks, List.findSome?_cons]
  simp only [Check.failure?]
  by_cases h : -0x80000000 ≤ number ∧ number ≤ 0xffffffff
  · have hword : syscallWord? number = some (UInt32.ofInt number) := by
      rw [syscallWord?_eq, if_pos h]
    rw [if_pos h]
    exact failure?_make hword _ _ _
  · have hword : syscallWord? number = none := by
      rw [syscallWord?_eq, if_neg h]
    rw [if_neg h]
    simp [Trial.listed, Trial.make, hword]

theorem ofInt_toNat (word : UInt32) : UInt32.ofInt word.toNat = word := by
  have hlt := word.toNat_lt
  rw [UInt32.ofInt, ← UInt32.toNat_inj, UInt32.toNat_ofNat_of_lt' (by rw [UInt32.size]; omega)]
  omega

theorem syscallWord?_toNat (word : UInt32) : syscallWord? word.toNat = some word := by
  have hlt := word.toNat_lt
  rw [syscallWord?_eq, if_pos (by omega), ofInt_toNat]

theorem failure?_unlisted (word : UInt32) :
    (Trial.unlisted program policy settings word).failure? =
      (unlistedChecks program policy settings word).findSome?
        (Check.failure? program policy settings) :=
  failure?_make (syscallWord?_toNat word) _ _ _

theorem tuples_single (args : Args) : tuples (Cases.single args).candidates = [args] := by
  obtain ⟨⟨list⟩, hsize⟩ := args
  match list, hsize with
  | [a, b, c, d, e, f], _ => rfl

theorem failure?_foreign {call : ForeignCall} {word : UInt32}
    (hword : syscallWord? call.number = some word) :
    (Trial.foreign program policy settings call).failure? =
      (Check.call call.number call.arch call.args (.ok policy.mismatchAction)).failure?
        program policy settings := by
  rw [Trial.foreign, failure?_make hword, tuples_single]
  show List.findSome? _ [_] = _
  simp

/-! ### The whole verification -/

/-- A number without a word fails its own trial, so calls of other architectures are only
tried for numbers that have one. -/
theorem exists_word_of_passed (h : policy.syscalls.findSome? (fun number =>
      (Trial.listed program policy settings number).failure?) = none) {number : Int}
    (hnumber : number ∈ policy.syscalls ∨ number = 0) : ∃ word, syscallWord? number = some word := by
  rcases hnumber with hlisted | rfl
  · have hpassed := List.findSome?_eq_none_iff.1 h number hlisted
    rw [failure?_listed, listedChecks] at hpassed
    have hnumber := List.findSome?_eq_none_iff.1 hpassed (.number number) (List.mem_cons_self ..)
    rw [syscallWord?_eq]
    simp only [Check.failure?] at hnumber
    split at hnumber
    · next hrange => exact ⟨_, if_pos hrange⟩
    · cases hnumber
  · exact ⟨0, rfl⟩

theorem foreignChecks_eq :
    foreignChecks policy = (foreignCalls policy).map fun call =>
      .call call.number call.arch call.args (.ok policy.mismatchAction) := by
  simp [foreignChecks, foreignCalls, List.map_flatMap]

theorem number_of_mem_foreignCalls {call : ForeignCall} (h : call ∈ foreignCalls policy) :
    call.number ∈ policy.syscalls ∨ call.number = 0 := by
  simp only [foreignCalls, List.mem_flatMap, List.mem_append] at h
  obtain ⟨arch, -, number, hnumber, hcall⟩ := h
  have hcall : call.number = number := by
    rcases List.mem_cons.1 hcall with rfl | hcall
    · rfl
    · rw [List.mem_singleton.1 hcall]
  rw [hcall]
  rcases hnumber with hlisted | hzero
  · exact .inl hlisted
  · split at hzero
    · cases hzero
    · exact .inr (List.mem_singleton.1 hzero)

theorem findSome?_foreignCalls (h : policy.syscalls.findSome? (fun number =>
      (Trial.listed program policy settings number).failure?) = none) :
    (foreignCalls policy).findSome? (fun call =>
        (Trial.foreign program policy settings call).failure?) =
      (foreignChecks policy).findSome? (Check.failure? program policy settings) := by
  rw [foreignChecks_eq, List.findSome?_map]
  apply findSome?_congr
  intro call hcall
  obtain ⟨word, hword⟩ := exists_word_of_passed h (number_of_mem_foreignCalls hcall)
  exact failure?_foreign hword

/-- A verification fails as its first failing check does. -/
theorem failure?_perform :
    (Verification.perform program policy settings).failure? =
      (checks program policy settings).findSome? (Check.failure? program policy settings) := by
  have hlisted := findSome?_untilFailure (Trial.listed program policy settings) policy.syscalls
  have hunlisted := findSome?_untilFailure (Trial.unlisted program policy settings)
    (probes program policy settings)
  have hforeign := findSome?_untilFailure (Trial.foreign program policy settings)
    (foreignCalls policy)
  have hchecks : (checks program policy settings).findSome? (Check.failure? program policy settings) =
      ((policy.syscalls.findSome? fun number =>
          (Trial.listed program policy settings number).failure?).or
        ((probes program policy settings).findSome? fun word =>
          (Trial.unlisted program policy settings word).failure?)).or
        ((if settings.checkForeign then foreignChecks policy else []).findSome?
          (Check.failure? program policy settings)) := by
    simp only [checks, List.findSome?_append, findSome?_flatMap, failure?_listed,
      failure?_unlisted]
  rw [hchecks]
  show List.findSome? Trial.failure? (_ ++ _ ++ _) = _
  simp only [List.findSome?_append, Verification.perform, hlisted]
  cases hl : policy.syscalls.findSome? fun number =>
      (Trial.listed program policy settings number).failure? with
  | some failure => rfl
  | none =>
    rw [hl] at hlisted
    rw [if_pos ((all_passed_iff _).2 hlisted), hunlisted]
    cases hu : (probes program policy settings).findSome? fun word =>
        (Trial.unlisted program policy settings word).failure? with
    | some failure => rfl
    | none =>
      rw [hu] at hunlisted
      simp only [(all_passed_iff _).2 hlisted, (all_passed_iff _).2 hunlisted, Bool.and_true,
        Option.none_or]
      cases settings.checkForeign with
      | false => rfl
      | true =>
        rw [if_pos rfl, if_pos rfl, hforeign, findSome?_foreignCalls hl]

end

/-! ### Probes -/

section

variable {α : Type} [DecidableEq α] [LE α] [LT α] [DecidableLT α] [Std.IsLinearOrder α]
  [Std.LawfulOrderLT α]

theorem pairwise_insertAscending (value : α) {values : List α} (h : values.Pairwise (· < ·)) :
    (insertAscending value values).Pairwise (· < ·) := by
  induction values with
  | nil => simp [insertAscending]
  | cons head rest ih =>
    obtain ⟨hhead, hrest⟩ := List.pairwise_cons.1 h
    unfold insertAscending
    split
    · exact h
    · next hne =>
      split
      · next hlt =>
        refine List.pairwise_cons.2 ⟨fun a ha => ?_, h⟩
        rcases List.mem_cons.1 ha with rfl | ha
        · exact hlt
        · exact Std.lt_trans hlt (hhead a ha)
      · next hge =>
        refine List.pairwise_cons.2 ⟨fun a ha => ?_, ih hrest⟩
        rcases mem_insertAscending.1 ha with rfl | ha
        · exact Std.lt_of_le_of_ne (Std.not_lt.1 hge) (Ne.symm hne)
        · exact hhead a ha

theorem pairwise_ascending (values : List α) : (ascending values).Pairwise (· < ·) := by
  induction values with
  | nil => exact .nil
  | cons head rest ih => exact pairwise_insertAscending head ih

end

theorem mem_probes {program : Program} {policy : Policy} {settings : Settings} {word : UInt32} :
    word ∈ probes program policy settings ↔
      (word.toNat < settings.probeLimit ∨ word ∈ distinguishedNumbers program policy ∨
        word ∈ extremeNumbers) ∧
      ∀ number ∈ policy.syscalls, syscallWord? number ≠ some word := by
  have hsmall : word ∈ (List.range settings.probeLimit).map UInt32.ofNat ↔
      word.toNat < settings.probeLimit := by
    simp only [List.mem_map, List.mem_range]
    constructor
    · rintro ⟨k, hk, rfl⟩
      rw [UInt32.toNat_ofNat']
      exact Nat.lt_of_le_of_lt (Nat.mod_le ..) hk
    · intro h
      exact ⟨word.toNat, h, by simp⟩
  simp only [probes, List.mem_filter, mem_ascending, List.mem_append, hsmall, or_assoc,
    Bool.not_eq_true', List.contains_eq_mem, decide_eq_false_iff_not, List.mem_filterMap,
    not_exists, not_and, ne_eq]

theorem mem_distinguishedNumbers {program : Program} {policy : Policy} {word : UInt32} :
    word ∈ distinguishedNumbers program policy ↔
      ∃ constants, (Constants.ofProgram program ⟨policy.architecture.audit, none⟩).get? .nr =
          some constants ∧ ∃ n ∈ constants, word = n - 1 ∨ word = n ∨ word = n + 1 := by
  unfold distinguishedNumbers
  cases (Constants.ofProgram program ⟨policy.architecture.audit, none⟩).get? .nr with
  | none => simp
  | some constants => simp

/-! ### The result -/

/-- What a verification comes to: the settings are judged first, then the program is loaded,
blaming the first call that would have been tried, and then the checks are made. -/
theorem verify_eq (raw : RawProgram) (policy : Policy) (settings : Settings) :
    verify raw policy settings =
      if settings.caseLimit = 0 then .error (.invalidSettings .invalidCaseLimit)
      else
        match Program.load raw with
        | .error fault => .error (.fault (firstCall policy) fault)
        | .ok program =>
          match (checks program policy settings).findSome?
              (Check.failure? program policy settings) with
          | some failure => .error failure
          | none => .ok (Verification.perform program policy settings).report := by
  unfold verify Verification.start Settings.check
  split
  · rfl
  · cases Program.load raw with
    | error fault => rfl
    | ok program =>
      show (Verification.perform program policy settings).result = _
      unfold Verification.result
      cases hfailure : (Verification.perform program policy settings).failure? with
      | none =>
        rw [failure?_perform] at hfailure
        simp only [hfailure]
      | some failure =>
        rw [failure?_perform] at hfailure
        simp only [hfailure]

theorem verify_eq_ok_iff {raw : RawProgram} {policy : Policy} {settings : Settings}
    {report : Verification.Report} :
    verify raw policy settings = .ok report ↔
      settings.caseLimit ≠ 0 ∧ ∃ program, Program.load raw = .ok program ∧
        (∀ check ∈ checks program policy settings,
          check.failure? program policy settings = none) ∧
        (Verification.perform program policy settings).report = report := by
  rw [verify_eq]
  by_cases hlimit : settings.caseLimit = 0
  · simp [hlimit]
  · rw [if_neg hlimit]
    cases Program.load raw with
    | error fault => simp
    | ok program =>
      simp only [Except.ok.injEq, exists_eq_left', ← List.findSome?_eq_none_iff, ne_eq, hlimit,
        not_false_eq_true, true_and]
      cases (checks program policy settings).findSome?
          (Check.failure? program policy settings) with
      | some failure => simp
      | none => simp

/-- A program that can be loaded passes if it passes every check. -/
theorem verify_eq_ok_iff_of_load {raw : RawProgram} {policy : Policy} {settings : Settings}
    {program : Program} {report : Verification.Report} (hload : Program.load raw = .ok program) :
    verify raw policy settings = .ok report ↔
      settings.caseLimit ≠ 0 ∧
        (∀ check ∈ checks program policy settings,
          check.failure? program policy settings = none) ∧
        (Verification.perform program policy settings).report = report := by
  rw [verify_eq_ok_iff, hload]
  simp only [Except.ok.injEq, exists_eq_left']

/-- A loaded program fails because of a check. -/
theorem exists_check_of_verify_eq_error {raw : RawProgram} {policy : Policy} {settings : Settings}
    {program : Program} {failure : Failure} (hlimit : settings.caseLimit ≠ 0)
    (hload : Program.load raw = .ok program)
    (hverify : verify raw policy settings = .error failure) :
    ∃ check ∈ checks program policy settings,
      check.failure? program policy settings = some failure := by
  rw [verify_eq, if_neg hlimit, hload] at hverify
  dsimp only at hverify
  split at hverify
  · next found hfound =>
    obtain rfl := Except.error.inj hverify
    exact List.exists_of_findSome?_eq_some hfound
  · cases hverify

/-- **A verification stops at the first check that fails.** Settings are judged first, then
the program is loaded, blaming the first call that would have been tried; what remains is
the flat sequence of `checks`. Numbers that the policy does not list are probed in ascending
order: the small ones, the neighbourhood of every number the program tells apart, and the
extremes. -/
theorem verify_eq_first_failure (raw : RawProgram) (policy : Policy) (settings : Settings) :
    (verify raw policy settings =
      if settings.caseLimit = 0 then .error (.invalidSettings .invalidCaseLimit)
      else
        match Program.load raw with
        | .error fault =>
          let number := policy.syscalls.head?.getD 0
          .error (.fault ⟨number, policy.name? number, policy.architecture.audit,
            Vector.ofFn fun index =>
              (candidates (policy.constants number index) none none).head?.getD 0⟩ fault)
        | .ok program =>
          match (checks program policy settings).findSome?
              (Check.failure? program policy settings) with
          | some failure => .error failure
          | none => .ok (Verification.perform program policy settings).report) ∧
    ∀ program, (probes program policy settings).Pairwise (· < ·) ∧
      ∀ word, word ∈ probes program policy settings ↔
        (word.toNat < settings.probeLimit ∨
          (∃ constants, (Constants.ofProgram program ⟨policy.architecture.audit, none⟩).get? .nr =
              some constants ∧ ∃ n ∈ constants, word = n - 1 ∨ word = n ∨ word = n + 1) ∨
          word = 0x7fffffff ∨ word = 0x80000000 ∨ word = 0xffffffff) ∧
        ∀ number ∈ policy.syscalls, syscallWord? number ≠ some word := by
  refine ⟨verify_eq raw policy settings,
    fun program => ⟨(pairwise_ascending _).filter _, fun word => ?_⟩⟩
  rw [mem_probes, mem_distinguishedNumbers]
  simp [extremeNumbers]

end SyscallFilter
