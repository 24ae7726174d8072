import SyscallFilter.Call
import SyscallFilter.Sampling.Constants

/-! Values worth trying for an argument.

A comparison with a constant is decided by the constant and its two neighbours,
so those are tried, and the two extremes. Constants come from the policy, which
compares whole arguments, and from the program, which compares the two halves of
an argument one by one; for each combination of halves a value is put together.

The order decides which failure is found first: the policy's constants, the
program's values, the neighbours of the policy's constants, the extremes. A value
that comes up again keeps its first place. -/
namespace SyscallFilter.Sampling

/-- Values for one half of an argument: the constants, their neighbours, the extremes. -/
def halfCandidates (constants : List UInt32) : List UInt32 :=
  let constants := ascending constants
  (constants ++ constants.flatMap (fun c => [c - 1, c + 1]) ++ [0, 0xffffffff]).eraseDups

/-- Values put together from the constants of the two halves, the high half varying
slowest. There are none if the program looks at neither half. -/
def joinedCandidates (low high : Option (List UInt32)) : List UInt64 :=
  if low.isSome || high.isSome then
    let lows := halfCandidates (low.getD [])
    (halfCandidates (high.getD [])).flatMap fun h => lows.map (joinWords h)
  else []

/-- Values for an argument, given the constants of the policy and of its two halves. -/
def candidates (constants : List UInt64) (low high : Option (List UInt32)) : List UInt64 :=
  let constants := ascending constants
  let joined := joinedCandidates low high
  let others := (constants.flatMap (fun c => [c - 1, c + 1]) ++ [0, 0xffffffffffffffff]).eraseDups
  constants ++ joined.filter (fun value => !constants.contains value) ++
    others.filter (fun value => !constants.contains value && !joined.contains value)

/-- Values for each argument of a call, given the constants of the policy by index. -/
def callCandidates (constants : Nat → List UInt64) (scanned : Constants) :
    Vector (Array UInt64) 6 :=
  Vector.ofFn fun index =>
    let low := scanned.get? (.argLow index)
    let high := scanned.get? (.argHigh index)
    (candidates (constants index) low high).toArray

end SyscallFilter.Sampling
