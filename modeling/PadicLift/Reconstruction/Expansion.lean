import PadicLift.Number.Binary64
import PadicLift.Position
import PadicLift.Reconstruction.Remainders

/-!
# Digits and expansions

`digits` writes a number in a base, lowest digit first. An `Accumulator` goes the other way for
several primes at once: each of its lanes sums digit vectors times rising powers of its prime, and
`combined` joins the lanes by Chinese remainders.

Adding a digit vector follows the rule for arrays: equal lengths add position by position, and a
single number is added to every position. A call that fails at one lane leaves the lanes before it
advanced; the state it leaves is part of the result.
-/

-- Powers take their instance from the core library, whatever else is in scope.
attribute [local instance (high)] instPowNat

namespace PadicLift

/-- The lowest `count` digits of a number, each with the sign of the base. -/
def lowDigits (base : Int) : Nat → Int → List Int
  | 0, _ => []
  | count + 1, value => Int.fmod value base :: lowDigits base count (Int.fdiv value base)

/-- Whether a negative power of an integer is closer to 0 than to any other double. -/
def vanishesAsDouble (base : Int) (exponent : Nat) : Bool :=
  let reached : Bool :=
    if exponent < 1075 then decide (2 ^ (1075 : Nat) ≤ base.natAbs ^ exponent) else true
  decide (2 ≤ base.natAbs) && reached

/-- Why a number has no remainder for a negative power of a base, which is a double: a number is too
large for one, or the power is 0. -/
def negativePowerFault (value base : Int) (exponent : Nat) : Option Fault :=
  if !(Binary64.isInRange base && Binary64.isInRange exponent) then some .overflow
  else if base = 0 then some .divisionByZero
  else if !Binary64.isInRange value then some .overflow
  else if vanishesAsDouble base exponent then some .divisionByZero
  else none

/-- The lowest `count` digits of a number modulo `base ^ count`; none for a negative count. -/
def digits (value base count : Int) : Except Fault (List Int) :=
  if count < 0 then
    match negativePowerFault value base count.natAbs with
    | some f => .error f
    | none => .ok []
  else if base = 0 ∧ count ≠ 0 then .error .divisionByZero
  else .ok (lowDigits base count.toNat (Int.fmod value (base ^ count.toNat)))

/-! ## Lanes -/

/-- Sum of two vectors; a vector of one number fits every length. -/
def addVectors (u v : List Int) : Except Fault (List Int) :=
  if u.length = v.length then .ok (List.zipWith (· + ·) u v)
  else
    match u, v with
    | _, [y] => .ok (u.map (· + y))
    | [x], _ => .ok (v.map (x + ·))
    | _, _ => .error .incompatibleShapes

/-- The expansion in the powers of one prime. -/
structure Lane where
  prime : Int
  power : Int
  sum : List Int
deriving DecidableEq, Repr

/-- Adds the next digit of every position. -/
def Lane.add (lane : Lane) (digit : List Int) : Except Fault Lane := do
  let sum ← addVectors lane.sum (digit.map (· * lane.power))
  return { lane with power := lane.power * lane.prime, sum := sum }

/-! ## Accumulators -/

/-- Expansions for several primes. -/
structure Accumulator where
  /-- The number of positions. -/
  size : Nat
  /-- The number of digits that have been added to all lanes. -/
  count : Nat
  lanes : List Lane
deriving DecidableEq, Repr

namespace Accumulator

/-- No digits yet. -/
def start (primes : List Int) (size : Nat) : Accumulator :=
  ⟨size, 0, primes.map fun p => ⟨p, 1, List.replicate size 0⟩⟩

/-- No digits yet, for a number of positions that is not negative. -/
def ofSize (primes : List Int) (size : Int) : Except Fault Accumulator :=
  if size < 0 ∧ primes ≠ [] then .error .incompatibleShapes else .ok (start primes size.toNat)

/-- Adds digits lane by lane until one does not fit. -/
def addLanes : List Lane → List (List Int) → Except Fault Unit × List Lane
  | lane :: lanes, digit :: rest =>
    match lane.add digit with
    | .error f => (.error f, lane :: lanes)
    | .ok next =>
      let (result, after) := addLanes lanes rest
      (result, next :: after)
  | lanes, _ => (.ok (), lanes)

/-- Adds one digit vector for every prime. -/
def add (acc : Accumulator) (digit : List (List Int)) : Except Fault Unit × Accumulator :=
  if digit.length ≠ acc.lanes.length then
    (.error (.argument (.digitVectorCount acc.lanes.length digit.length)), acc)
  else
    match addLanes acc.lanes digit with
    | (.error f, lanes) => (.error f, { acc with lanes })
    | (.ok _, lanes) => (.ok (), { acc with lanes, count := acc.count + 1 })

/-- The product of the powers reached in all lanes. -/
def modulus (acc : Accumulator) : Int := (acc.lanes.map Lane.power).foldl (· * ·) 1

/-- The expansion for one prime and the power it is known to. -/
def expansion (acc : Accumulator) (j : Int) : Except Fault (List Int × Int) := do
  let i ← place acc.lanes.length j
  let lane := acc.lanes.get i
  return (lane.sum, lane.power)

/-- The numbers congruent to the expansions of all lanes, and the product of the powers. -/
def combined (acc : Accumulator) : Except Fault (List Int × Int) :=
  if acc.count = 0 then .ok (List.replicate acc.size 0, 1)
  else do
    let ys ← Remainders.combineVectors (acc.lanes.map Lane.sum) (acc.lanes.map Lane.power)
    return (ys, acc.modulus)

end Accumulator
end PadicLift
