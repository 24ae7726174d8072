import SyscallFilter.Call

/-! The argument tuples to try.

Tuples are made of one candidate for each argument and ordered with the first
argument varying slowest. They are never listed: the tuple of a rank is computed
from the rank, and an odometer goes from one tuple to the next. -/
namespace SyscallFilter.Sampling

/-- The number of ways to take one candidate from each list. -/
def ways (lists : List (Array UInt64)) : Nat :=
  lists.foldr (fun list n => list.size * n) 1

/-- The choice of a rank: the first list varies slowest. -/
def choice : List (Array UInt64) → (rank : Nat) → List UInt64
  | [], _ => []
  | list :: rest, rank =>
    list.getD (rank / ways rest) 0 :: choice rest (rank % ways rest)

theorem length_choice (lists : List (Array UInt64)) (rank : Nat) :
    (choice lists rank).length = lists.length := by
  induction lists generalizing rank with
  | nil => rfl
  | cons list rest ih => simp [choice, ih]

/-- What a 64-bit counter cannot hold is its largest value. -/
def saturatingMul (m n : Nat) : Nat :=
  min (m * n) 0xffffffffffffffff

/-- Candidates for each argument, and how many tuples are tried at most. -/
structure Cases where
  candidates : Vector (Array UInt64) 6
  limit : Nat

namespace Cases

/-- No tuple at all. -/
def empty : Cases := ⟨Vector.replicate 6 #[], 0⟩

/-- A single tuple. -/
def single (args : Args) : Cases :=
  ⟨⟨(args.toList.map fun arg => #[arg]).toArray, by simp⟩, 1⟩

/-- The number of all tuples, as far as a 64-bit counter counts. -/
def total (cases : Cases) : Nat :=
  cases.candidates.toList.foldl (fun count list => saturatingMul count list.size) 1

/-- Whether the limit leaves tuples out. -/
def truncated (cases : Cases) : Bool :=
  cases.limit < cases.total

/-- The tuple of a rank below the number of all tuples. -/
def tuple (cases : Cases) (rank : Nat) : Args :=
  ⟨(choice cases.candidates.toList rank).toArray, by simp [length_choice]⟩

end Cases

end SyscallFilter.Sampling
