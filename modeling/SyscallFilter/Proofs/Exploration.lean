import SyscallFilter.Proofs.Loading
import SyscallFilter.Sampling.Constants

/-! The points that a sweep meets.

Instructions lead forward, so a point joins the frontier before the sweep arrives at its
index. What is met is therefore closed under `successors`, which is all that runs need to
know about the exploration. -/
namespace SyscallFilter.Sampling

open Bpf

section

variable {given : Given} {rest : List Instruction} {frontier : List Point} {pc : Nat} {p q : Point}

theorem pc_mem_exits {i : Instruction} (h : q ∈ p.successors given i) : q.pc ∈ i.exits p.pc := by
  unfold Point.successors at h
  split at h
  · simp_all [Instruction.exits]
  · split at h <;> simp_all [Instruction.exits]
  · simp_all [Instruction.exits]
  · split at h
    · obtain rfl := List.mem_singleton.1 h
      simp only [Instruction.exits]
      split <;> simp
    · rcases List.mem_cons.1 h with rfl | h
      · simp [Instruction.exits]
      · obtain rfl := List.mem_singleton.1 h
        simp [Instruction.exits]
  · cases h

theorem mem_foldr_insert {found ahead : List Point} :
    p ∈ found.foldr List.insert ahead ↔ p ∈ found ∨ p ∈ ahead := by
  induction found with
  | nil => simp
  | cons head found ih => simp [ih, or_assoc]

theorem le_pc_of_mem_sweep (h : p ∈ sweep given pc rest frontier) : pc ≤ p.pc := by
  induction rest generalizing pc frontier with
  | nil => cases h
  | cons i rest ih =>
    rcases List.mem_append.1 h with hhere | hlater
    · have hpc : p.pc = pc := by simpa using (List.mem_filter.1 hhere).2
      omega
    · have hle := ih hlater
      omega

theorem mem_sweep_of_mem_frontier (h : p ∈ frontier) (hle : pc ≤ p.pc)
    (hlt : p.pc < pc + rest.length) : p ∈ sweep given pc rest frontier := by
  induction rest generalizing pc frontier with
  | nil =>
    rw [List.length_nil] at hlt
    omega
  | cons i rest ih =>
    rw [List.length_cons] at hlt
    apply List.mem_append.2
    by_cases hpc : p.pc = pc
    · exact .inl (List.mem_filter.2 ⟨h, by simpa using hpc⟩)
    · have hahead : p ∈ frontier.filter (·.pc ≠ pc) := List.mem_filter.2 ⟨h, by simpa using hpc⟩
      exact .inr (ih (mem_foldr_insert.2 (.inr hahead)) (by omega) (by omega))

theorem mem_sweep_of_mem_successors {i : Instruction} (h : p ∈ sweep given pc rest frontier)
    (hi : rest[p.pc - pc]? = some i) (hq : q ∈ p.successors given i) (hlt : p.pc < q.pc)
    (hend : q.pc < pc + rest.length) : q ∈ sweep given pc rest frontier := by
  induction rest generalizing pc frontier with
  | nil => cases h
  | cons head rest ih =>
    rw [List.length_cons] at hend
    apply List.mem_append.2
    right
    rcases List.mem_append.1 h with hhere | hlater
    · have hpc : p.pc = pc := by simpa using (List.mem_filter.1 hhere).2
      obtain rfl : head = i := by simpa [hpc] using hi
      have hfound : q ∈ (frontier.filter (·.pc = pc)).flatMap (·.successors given head) :=
        List.mem_flatMap.2 ⟨p, hhere, hq⟩
      exact mem_sweep_of_mem_frontier (mem_foldr_insert.2 (.inl hfound)) (by omega) (by omega)
    · have hle := le_pc_of_mem_sweep hlater
      have hindex : p.pc - pc = p.pc - (pc + 1) + 1 := by omega
      rw [hindex, List.getElem?_cons_succ] at hi
      exact ih hlater hi (by omega)

end

/-! ### What is explored -/

section

variable {program : Program} {given : Given} {p q : Point} {i : Instruction}

theorem start_mem_explored (h : 0 < program.length) : .start ∈ explored program given := by
  apply mem_sweep_of_mem_frontier (List.mem_singleton_self _) (Nat.zero_le _)
  simpa [Point.start, Program.length] using h

theorem mem_explored_of_mem_successors (hforward : program.Forward)
    (hp : p ∈ explored program given) (hi : program.code[p.pc]? = some i)
    (hq : q ∈ p.successors given i) : q ∈ explored program given := by
  obtain ⟨hlt, hend⟩ := hforward p.pc i hi q.pc (pc_mem_exits hq)
  refine mem_sweep_of_mem_successors hp ?_ hq hlt ?_
  · simpa using hi
  · simpa [Program.length] using hend

/-- The constants of a word, none if nothing is recorded for it. -/
def Constants.of (constants : Constants) (field : Field) : List UInt32 :=
  (constants.get? field).getD []

theorem Constants.mem_of {constants : Constants} {field : Field} {k : UInt32} :
    k ∈ constants.of field ↔ (field, k) ∈ constants.recorded := by
  have hmem : k ∈ ascending ((constants.recorded.filter (·.1 = field)).map Prod.snd) ↔
      (field, k) ∈ constants.recorded := by
    simp [mem_ascending]
  rw [← hmem, Constants.of, get?]
  split
  · next hnil => simp [hnil]
  · next values hvalues => rfl

theorem mem_constants_of_mem_explored {field : Field} {k : UInt32}
    (hp : p ∈ explored program given) (hi : program.code[p.pc]? = some i)
    (hk : p.recorded? i = some (field, k)) : k ∈ (Constants.ofProgram program given).of field := by
  rw [Constants.mem_of]
  apply List.mem_filterMap.2
  exact ⟨p, hp, by rw [hi, Option.bind_some, hk]⟩

end

end SyscallFilter.Sampling
