import SyscallFilter.Sampling.Cases

/-! Tuples one after the other, up to the first that fails.

An odometer goes through the tuples without knowing their ranks: it has a wheel for each argument,
turns the last one for every tuple, and a wheel that comes round turns the one in front of it. A
search asks it for tuples until it has none to show or one of them fails, and counts those that
pass. -/
namespace SyscallFilter.Sampling

/-! ### Wheels -/

/-- The values of an argument, and the place of the one that is shown. -/
structure Wheel where
  values : Array UInt64
  position : Fin values.size

namespace Wheel

def value (wheel : Wheel) : UInt64 :=
  wheel.values[wheel.position]

/-- Shows the next value. The flag says that the wheel has come round to its first one. -/
def turn (wheel : Wheel) : Wheel × Bool :=
  if h : wheel.position.val + 1 < wheel.values.size then
    (⟨wheel.values, ⟨wheel.position.val + 1, h⟩⟩, false)
  else (⟨wheel.values, ⟨0, wheel.position.pos⟩⟩, true)

end Wheel

/-- Turns the last wheel, and every wheel behind which all have come round. The flag says that the
first one has come round as well. -/
def turnWheels : List Wheel → List Wheel × Bool
  | [] => ([], true)
  | wheel :: rest =>
    -- Shared: each wheel would otherwise turn all those behind it several times.
    let turned := turnWheels rest
    if turned.2 then (wheel.turn.1 :: turned.1, wheel.turn.2) else (wheel :: turned.1, false)

theorem turnWheels_cons (wheel : Wheel) (rest : List Wheel) :
    turnWheels (wheel :: rest) =
      if (turnWheels rest).2 then (wheel.turn.1 :: (turnWheels rest).1, wheel.turn.2)
      else (wheel :: (turnWheels rest).1, false) :=
  rfl

theorem length_turnWheels (wheels : List Wheel) :
    (turnWheels wheels).1.length = wheels.length := by
  induction wheels with
  | nil => rfl
  | cons wheel rest ih =>
    rw [turnWheels_cons]
    split <;> rw [List.length_cons, List.length_cons, ih]

/-! ### The odometer -/

/-- Six wheels, unless all tuples have been shown, and how many may still be. -/
structure Odometer where
  wheels : Option (Vector Wheel 6)
  remaining : Nat

/-- All wheels at their first value, if each has one. -/
def Cases.odometer (cases : Cases) : Odometer where
  wheels :=
    if h : ∀ i : Fin 6, 0 < (cases.candidates.get i).size then
      some (Vector.ofFn fun i => ⟨cases.candidates.get i, ⟨0, h i⟩⟩)
    else none
  remaining := cases.limit

namespace Odometer

/-- The wheels after a turn, unless that brings all of them round. -/
def turned? (wheels : Vector Wheel 6) : Option (Vector Wheel 6) :=
  if (turnWheels wheels.toList).2 then none
  else some ⟨(turnWheels wheels.toList).1.toArray, by simp [length_turnWheels]⟩

/-- The tuple that the wheels show. -/
def reading (wheels : Vector Wheel 6) : Args :=
  ⟨(wheels.toList.map Wheel.value).toArray, by simp⟩

/-- The tuple that is shown, if there is one, and the odometer after it. -/
def next (odometer : Odometer) : Option Args × Odometer :=
  match odometer.remaining, odometer.wheels with
  | remaining + 1, some wheels => (some (reading wheels), ⟨turned? wheels, remaining⟩)
  | _, _ => (none, odometer)

/-- The tuples that are shown in so many turns. -/
def shown : (turns : Nat) → Odometer → List Args
  | 0, _ => []
  | turns + 1, odometer =>
    match odometer.next with
    | (none, _) => []
    | (some args, rest) => args :: shown turns rest

end Odometer

/-- The tuples that are tried, in order. -/
def Cases.toList (cases : Cases) : List Args :=
  cases.odometer.shown cases.limit

/-! ### Searching -/

/-- What a search comes to: how many tuples passed, and how the one after them failed. -/
structure Outcome (ε : Type) where
  passed : Nat
  failure? : Option ε

/-- Looks at the tuples that are shown in so many turns, up to the first that fails, after some
that have passed. -/
def Odometer.search {ε : Type} (check : Args → Option ε) :
    (turns : Nat) → Odometer → (passed : Nat) → Outcome ε
  | 0, _, passed => ⟨passed, none⟩
  | turns + 1, odometer, passed =>
    match odometer.next with
    | (none, _) => ⟨passed, none⟩
    | (some args, rest) =>
      match check args with
      | some failure => ⟨passed, some failure⟩
      | none => search check turns rest (passed + 1)

/-- Looks at the tuples that are tried, up to the first that fails. -/
def Cases.search {ε : Type} (cases : Cases) (check : Args → Option ε) : Outcome ε :=
  cases.odometer.search check cases.limit 0

end SyscallFilter.Sampling
