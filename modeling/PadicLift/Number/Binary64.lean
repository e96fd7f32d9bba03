/-!
# Double-precision values as exact rationals

A finite double is the rational number it stands for, so that every rule about sizes and
logarithms is a rule about rationals. This module holds the rounding to 53 significant bits
(nearest, ties to even), the sum, difference, product and quotient rounded once, and the
base-2 logarithm of an integer, to any number of places.

The logarithm is read off bit by bit: squaring a number in `[1, 2)` doubles its logarithm, so the
first bit of the fraction says whether the square reaches 2. `fractionBits` does this on an
interval that encloses the number; `floorLog2` falls back on the power itself where the interval
cannot tell, so that it is `⌊2 ^ k * log₂ x⌋` without exception.
-/

-- Powers take their instance from the core library, whatever else is in scope.
attribute [local instance (high)] instPowNat

namespace PadicLift
namespace Binary64

/-! ## Rounding -/

/-- The integer nearest to `a / b`, a half going to the even neighbour. -/
def divNearest (a b : Nat) : Nat :=
  let q := a / b
  let r := a % b
  if 2 * r < b then q
  else if b < 2 * r then q + 1
  else q + q % 2

/-- The double nearest to a natural number: its leading 53 bits, rounded. -/
def roundNat (n : Nat) : Nat :=
  if n < 2 ^ (53 : Nat) then n
  else
    let s := Nat.log2 n - 52
    divNearest n (2 ^ s) * 2 ^ s

/-- The double nearest to an integer. -/
def roundInt (z : Int) : Int :=
  if z < 0 then -(roundNat z.natAbs : Int) else (roundNat z.natAbs : Int)

/-- Whether the double nearest to an integer is finite. -/
def isInRange (z : Int) : Bool := decide ((roundInt z).natAbs < 2 ^ (1024 : Nat))

/-- The `e` with `2 ^ e ≤ a / d < 2 ^ (e + 1)`, for positive `a` and `d`. -/
def floorExponent (a d : Nat) : Int :=
  let k : Int := (Nat.log2 a : Int) - (Nat.log2 d : Int)
  let reached : Bool :=
    if 0 ≤ k then decide (d * 2 ^ k.toNat ≤ a) else decide (d ≤ a * 2 ^ (-k).toNat)
  if reached then k else k - 1

/-- The multiple of `2 ^ u` nearest to `a / d`. -/
def roundAt (a d : Nat) (u : Int) : Rat :=
  if 0 ≤ u then ((divNearest a (d * 2 ^ u.toNat) * 2 ^ u.toNat : Nat) : Rat)
  else mkRat (divNearest (a * 2 ^ (-u).toNat) d) (2 ^ (-u).toNat)

/-- The double nearest to a rational number. The spacing of doubles near `x` is `2 ^ (e - 52)`
where `2 ^ e ≤ |x| < 2 ^ (e + 1)`, and never less than `2 ^ (-1074)`. -/
def round (x : Rat) : Rat :=
  if x = 0 then 0
  else
    let a := x.num.natAbs
    let u := max (floorExponent a x.den - 52) (-1074)
    let r := roundAt a x.den u
    if x.num < 0 then -r else r

/-! ## Arithmetic -/

/-- Sum of two doubles. -/
def add (x y : Rat) : Rat := round (x + y)

/-- Difference of two doubles. -/
def sub (x y : Rat) : Rat := round (x - y)

/-- Product of two doubles. -/
def mul (x y : Rat) : Rat := round (x * y)

/-- Quotient of two doubles, for a divisor other than 0. -/
def div (x y : Rat) : Rat := round (x / y)

/-- The number without its fraction. -/
def truncate (x : Rat) : Int := x.num.tdiv x.den

/-- Remainder of two doubles with the sign of the dividend, which is exact. -/
def tmod (x p : Rat) : Rat := x - p * truncate (x / p)

/-- Remainder of two doubles, for a positive divisor: from 0 up to the divisor, which a rounded sum
may reach. -/
def fmod (x p : Rat) : Rat :=
  let r := tmod x p
  if r < 0 then add r p else r

/-- Quotient of two doubles rounded down, for a positive divisor: the quotient without the
remainder, taken in doubles, and then the integer next to it. -/
def fdiv (x p : Rat) : Rat :=
  let r := tmod x p
  let whole := div (sub x r) p
  let quotient := if r < 0 then sub whole 1 else whole
  let below : Rat := quotient.floor
  if (1 / 2 : Rat) < sub quotient below then add below 1 else below

/-- Sum from left to right, starting at 0. -/
def sum (xs : List Rat) : Rat := xs.foldl add 0

/-! ## Logarithm -/

/-- Appends to `acc` the first `k` bits of `log₂ y`, for a `y` with
`lo / 2 ^ w ≤ y < hi / 2 ^ w` in `[1, 2)`; `none` where the interval straddles 2. -/
def fractionBits (w : Nat) : Nat → Nat → Nat → Nat → Option Nat
  | 0, _, _, acc => some acc
  | k + 1, lo, hi, acc =>
    let lo2 := lo * lo / 2 ^ w
    let hi2 := hi * hi / 2 ^ w + 1
    if hi2 ≤ 2 ^ (w + 1) then fractionBits w k lo2 hi2 (2 * acc)
    else if 2 ^ (w + 1) ≤ lo2 then fractionBits w k (lo2 / 2) (hi2 / 2 + 1) (2 * acc + 1)
    else none

/-- Width in bits of the enclosing interval's ends. -/
def enclosureWidth : Nat := 256

/-- `⌊2 ^ k * log₂ x⌋` for a positive `x`. -/
def floorLog2 (x k : Nat) : Nat :=
  let e := Nat.log2 x
  let lo := x * 2 ^ enclosureWidth / 2 ^ e
  match fractionBits enclosureWidth k lo (lo + 1) e with
  | some t => t
  | none => Nat.log2 (x ^ (2 ^ k : Nat))

end Binary64
end PadicLift
