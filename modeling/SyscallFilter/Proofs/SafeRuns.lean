import SyscallFilter.Proofs.Runs

/-! Runs of a loaded program are safe.

Loading refuses whatever could go wrong later: instructions that have no meaning on some call
(`Instruction.Defined`), and jumps that lead back or out of the program. A run therefore has a
number of steps of its own (`Takes`), at most one for every instruction. It executes as many
of them as its limit allows and returns if the limit allows all of them; running into the limit
is the only way to fail (`run_loaded`). -/
namespace SyscallFilter.Bpf

/-! ### Instructions that have a meaning -/

/-- The instruction has a result on every call: it loads from none but the six arguments, does not
divide by 0 and does not shift by the whole width of a word. -/
def Instruction.Defined : Instruction → Prop
  | load (.argLow index) | load (.argHigh index) => index < 6
  | alu .div k | alu .mod k => k ≠ 0
  | alu .lsh k | alu .rsh k => k < 32
  | _ => True

theorem defined_load {field : Field} (h : field ∈ Field.all) :
    (Instruction.load field).Defined := by
  cases field with
  | argLow index => simpa [Field.all, Instruction.Defined] using h
  | argHigh index => simpa [Field.all, Instruction.Defined] using h
  | _ => trivial

theorem RawInstruction.Decodes.defined {raw : RawInstruction} {pc length : Nat} {i : Instruction}
    (h : raw.Decodes pc length i) : i.Defined := by
  cases h with
  | load hcode hfield => exact defined_load (Field.of_ofOffset?_eq_some hfield).1
  | @alu op hcode hk =>
    cases op with
    | div | mod | lsh | rsh => exact hk
    | _ => trivial
  | jump | branch | ret => trivial

theorem Loaded.defined {raw : RawProgram} {program : Program} (h : Loaded raw program) {pc : Nat}
    {i : Instruction} (hi : program.code[pc]? = some i) : i.Defined := by
  obtain ⟨r, -, hdecodes⟩ := h.exists_decoded hi
  exact hdecodes.defined

namespace Program

variable {program : Program} {call : Call} {s t : State}

/-! ### Steps lead forward -/

theorem Reaches.pc_le (hforward : program.Forward) (h : program.Reaches call s t) :
    s.pc ≤ t.pc := by
  induction h with
  | refl => exact Nat.le_refl _
  | tail _ hgoes ih => exact Nat.le_trans ih (Nat.le_of_lt (hgoes.pc_lt hforward).1)

theorem Reaches.pc_lt_length (hforward : program.Forward) (h : program.Reaches call s t)
    (hs : s.pc < program.length) : t.pc < program.length := by
  induction h with
  | refl => exact hs
  | tail _ hgoes _ => exact (hgoes.pc_lt hforward).2

theorem reaches_of_mem_statesFrom {limit : Nat} (h : t ∈ program.statesFrom call limit s) :
    program.Reaches call s t := by
  induction limit generalizing s with
  | zero => cases h
  | succ limit ih =>
    simp only [statesFrom] at h
    split at h
    · cases h
    · next i hi =>
      rcases List.mem_cons.1 h with rfl | h
      · exact .refl ..
      · split at h
        · next next hstep => exact (Goes.reaches ⟨i, hi, hstep⟩).trans (ih h)
        · cases h

/-- The instructions that a run executes stand one behind the other. -/
theorem pairwise_statesFrom (hforward : program.Forward) (limit : Nat) (s : State) :
    (program.statesFrom call limit s).Pairwise fun earlier later => earlier.pc < later.pc := by
  induction limit generalizing s with
  | zero => exact .nil
  | succ limit ih =>
    simp only [statesFrom]
    split
    · exact .nil
    · next i hi =>
      refine List.pairwise_cons.2 ⟨fun u hu => ?_, ?_⟩
      · split at hu
        · next next hstep =>
          have hnext := (Goes.pc_lt hforward ⟨i, hi, hstep⟩).1
          exact Nat.lt_of_lt_of_le hnext ((reaches_of_mem_statesFrom hu).pc_le hforward)
        · cases hu
      · split
        · exact ih _
        · exact .nil

/-! ### How long a run is -/

theorem Takes.length_statesFrom {steps : Nat} {value : UInt32}
    (h : program.Takes call s steps value) (limit : Nat) :
    (program.statesFrom call limit s).length = min limit steps := by
  induction h generalizing limit with
  | returns hi =>
    cases limit with
    | zero => rfl
    | succ limit => simp [statesFrom, hi, Instruction.step]
  | goes hgoes _ ih =>
    cases limit with
    | zero => rfl
    | succ limit =>
      obtain ⟨i, hi, hstep⟩ := hgoes
      simp [statesFrom, hi, hstep, ih, Nat.add_min_add_right]

theorem run_eq_of_takes {steps : Nat} {value : UInt32}
    (h : program.Takes call .start steps value) (limit : Nat) :
    program.run call limit =
      if steps ≤ limit then .ok value else .error (.limitExceeded limit) := by
  rw [run, h.returned?_eq]
  by_cases hsteps : steps ≤ limit
  · rw [if_pos hsteps, if_pos hsteps]
  · rw [if_neg hsteps, if_neg hsteps]

end Program

/-- **A loaded program cannot fail on the way.** On every call its run has a number of steps, at
least one and at most one for every instruction, and a value, which some instruction of the
program returns: the run executes as many steps as its limit allows, and gives the value if
those are all of them and the limit as the only fault if not. Wherever the run comes to there
is an instruction that has a meaning, each further down than the one before it. So a program
that can be loaded comes to a verdict on every call. -/
theorem run_loaded {raw : RawProgram} {program : Program} (hload : Program.load raw = .ok program)
    (call : Call) :
    (∃ steps value, 1 ≤ steps ∧ steps ≤ raw.length ∧ .ret value ∈ program.code ∧
      ∀ limit, (program.trace call limit).length = min limit steps ∧
        program.run call limit =
          if steps ≤ limit then .ok value else .error (.limitExceeded limit)) ∧
    (∀ state, program.Reaches call .start state →
      ∃ i, program.code[state.pc]? = some i ∧ i.Defined) ∧
    (∀ limit, (program.trace call limit).Pairwise fun earlier later => earlier.pc < later.pc) ∧
    ∃ action, raw.verdict call = .ok action := by
  have hloaded := load_eq_ok_iff.1 hload
  have hforward := hloaded.forward
  obtain ⟨steps, value, hsteps, htakes⟩ :=
    Program.exists_takes hforward call .start hloaded.length_pos
  refine ⟨⟨steps, value, htakes.pos, ?_, htakes.ret_mem, fun limit => ?_⟩, ?_, ?_, ?_⟩
  · rw [← hloaded.length]
    exact Nat.le_trans hsteps (Nat.sub_le ..)
  · exact ⟨htakes.length_statesFrom limit, Program.run_eq_of_takes htakes limit⟩
  · intro state hreaches
    have hin := hreaches.pc_lt_length hforward hloaded.length_pos
    have hi := Array.getElem?_eq_getElem hin
    exact ⟨_, hi, hloaded.defined hi⟩
  · exact fun limit => Program.pairwise_statesFrom hforward limit .start
  · obtain ⟨action, haction⟩ := hloaded.exists_verdict call hloaded.bounded
    exact ⟨action, by rw [RawProgram.verdict, hload]; exact haction⟩

/-- A third of the upper half of the last argument, all of whose bits but the lowest are shifted
out. -/
def lowestBit : RawProgram :=
  [.plain .load 60, .plain (.alu .div) 3, .plain (.alu .lsh) 31, .branch .eq 0 1 0,
    .plain .ret 0x7fff0000, .plain .ret 0x50001]

def lowestBitProgram : Program where
  code := #[.load (.argHigh 5), .alu .div 3, .alu .lsh 31, .branch .eq 0 5 4, .ret 0x7fff0000,
    .ret 0x50001]

theorem run_lowestBit :
    Program.load lowestBit = .ok lowestBitProgram ∧
      ∀ limit, lowestBitProgram.run (.ofWord 0 0 (.replicate 0xffffffffffffffff)) limit =
        if 5 ≤ limit then .ok 0x7fff0000 else .error (.limitExceeded limit) := by
  have hload : Program.load lowestBit = .ok lowestBitProgram := by decide
  obtain ⟨⟨steps, value, -, hsteps, -, hrun⟩, -⟩ :=
    run_loaded hload (.ofWord 0 0 (.replicate 0xffffffffffffffff))
  have hfive : steps = 5 := by
    have htrace := (hrun 6).1
    rw [show (lowestBitProgram.trace _ 6).length = 5 from by decide] at htrace
    replace hsteps : steps ≤ 6 := hsteps
    omega
  subst hfive
  have hvalue : value = 0x7fff0000 := by
    have hreturned := (hrun 6).2
    rw [show lowestBitProgram.run _ 6 = .ok 0x7fff0000 from by decide] at hreturned
    exact (Except.ok.inj hreturned).symm
  subst hvalue
  exact ⟨hload, fun limit => (hrun limit).2⟩

end SyscallFilter.Bpf
