/-! Ascending lists without repetitions, as finite sets that are listed in order. -/
namespace SyscallFilter

variable {α : Type} [DecidableEq α] [LT α] [DecidableLT α]

/-- Puts a value in its place, unless it is there already. -/
def insertAscending (value : α) : List α → List α
  | [] => [value]
  | head :: rest =>
    if value = head then head :: rest
    else if value < head then value :: head :: rest
    else head :: insertAscending value rest

/-- The distinct values of a list in ascending order. -/
def ascending (values : List α) : List α :=
  values.foldr insertAscending []

theorem mem_insertAscending {a value : α} {values : List α} :
    a ∈ insertAscending value values ↔ a = value ∨ a ∈ values := by
  induction values with
  | nil => simp [insertAscending]
  | cons head rest ih =>
    unfold insertAscending
    split
    · next h => simp [h]
    · split
      · simp
      · simp only [List.mem_cons, ih]
        exact or_left_comm

theorem mem_ascending {a : α} {values : List α} : a ∈ ascending values ↔ a ∈ values := by
  induction values with
  | nil => simp [ascending]
  | cons head rest ih =>
    rw [show ascending (head :: rest) = insertAscending head (ascending rest) from rfl,
      mem_insertAscending, ih, List.mem_cons]

end SyscallFilter
