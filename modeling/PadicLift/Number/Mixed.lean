import PadicLift.Fault
import PadicLift.Number.Binary64

/-!
# Integers and doubles

A `Number` is an integer of any size or a double, and stays what it is: sums, differences and
products of integers are exact, and as soon as a double takes part everything becomes a double. An
integer that no finite double is near has no such sum. `floorDiv` and `rem` divide by a small
positive integer, and `integer` is the number without its fraction.
-/

-- Powers take their instance from the core library, whatever else is in scope.
attribute [local instance (high)] instPowNat

namespace PadicLift

/-- An integer or a double. -/
inductive Number
  /-- An integer of any size. -/
  | whole (value : Int)
  /-- A finite double, given by its sign and its size. -/
  | double (negative : Bool) (size : Rat)
  /-- A double beyond all finite ones. -/
  | infinite (negative : Bool)
  /-- The double that is no number. -/
  | undefined
deriving DecidableEq, Repr

namespace Number

/-- The exact value of a finite number, and 0 for the others. -/
def value : Number → Rat
  | .whole v => v
  | .double negative size => if negative then -size else size
  | .infinite _ => 0
  | .undefined => 0

/-- Whether `x` is less than `y`. -/
def before : Number → Number → Bool
  | .undefined, _ => false
  | _, .undefined => false
  | .infinite a, .infinite b => a && !b
  | .infinite a, _ => a
  | _, .infinite b => !b
  | x, y => decide (x.value < y.value)

/-- Whether two numbers are the same; there is one double that is no number. -/
def same : Number → Number → Bool
  | .undefined, .undefined => true
  | .undefined, _ => false
  | _, .undefined => false
  | .infinite a, .infinite b => a == b
  | .infinite _, _ => false
  | _, .infinite _ => false
  | x, y => x.value == y.value

/-- The number as text. -/
def text : Number → String
  | .whole v => toString v
  | .double negative size => Decimal.double negative size
  | .infinite negative => if negative then "-inf" else "inf"
  | .undefined => "nan"

/-- The least size that no finite double reaches. -/
def doubleLimit : Rat := ((2 ^ (1024 : Nat) : Nat) : Rat)

/-- The double nearest to a number of the given sign and size. -/
def ofSize (negative : Bool) (size : Rat) : Number :=
  let rounded := Binary64.round size
  if doubleLimit ≤ rounded then .infinite negative else .double negative rounded

/-- The double nearest to a decimal: a sign, its digits, and how many places the point moves to the
left. The number of digits tells the values far beyond the doubles and far below them apart from the
others. -/
def ofDecimal (negative : Bool) (digits : Nat) (places : Int) : Number :=
  let exponent : Int := (toString digits).length - places
  if digits = 0 ∨ exponent < -400 then .double negative 0
  else if 400 < exponent then .infinite negative
  else if 0 ≤ places then ofSize negative (mkRat digits (10 ^ places.toNat))
  else ofSize negative ((digits * 10 ^ (-places).toNat : Nat) : Rat)

/-! ## Arithmetic -/

/-- The double nearest to a rational number. -/
def ofRat (x : Rat) : Number := ofSize (decide (x < 0)) (if x < 0 then -x else x)

/-- A number as a double. -/
def toDouble : Number → Except Fault Number
  | .whole v =>
    if Binary64.isInRange v then .ok (ofRat (Binary64.roundInt v)) else .error .overflow
  | x => .ok x

/-- The number with the other sign. -/
def neg : Number → Number
  | .whole v => .whole (-v)
  | .double negative size => .double (!negative) size
  | .infinite negative => .infinite !negative
  | .undefined => .undefined

/-- Whether a number is less than 0. -/
def isNegative : Number → Bool
  | .infinite negative => negative
  | x => decide (x.value < 0)

/-- Sum of two doubles. -/
def addDoubles : Number → Number → Number
  | .undefined, _ => .undefined
  | _, .undefined => .undefined
  | .infinite a, .infinite b => if a = b then .infinite a else .undefined
  | .infinite a, _ => .infinite a
  | _, .infinite b => .infinite b
  | x, y => ofRat (x.value + y.value)

/-- Product of a double beyond all others and another double. -/
def mulInfinite (negative : Bool) : Number → Number
  | .undefined => .undefined
  | .infinite b => .infinite (negative != b)
  | y => if y.value = 0 then .undefined else .infinite (negative != y.isNegative)

/-- Product of two doubles. -/
def mulDoubles : Number → Number → Number
  | .undefined, _ => .undefined
  | .infinite a, y => mulInfinite a y
  | x, .infinite b => mulInfinite b x
  | _, .undefined => .undefined
  | x, y => ofRat (x.value * y.value)

/-- Sum of two numbers. -/
def add : Number → Number → Except Fault Number
  | .whole u, .whole v => .ok (.whole (u + v))
  | x, y => do return addDoubles (← x.toDouble) (← y.toDouble)

/-- Difference of two numbers. -/
def sub (x y : Number) : Except Fault Number := x.add y.neg

/-- Product of two numbers. -/
def mul : Number → Number → Except Fault Number
  | .whole u, .whole v => .ok (.whole (u * v))
  | x, y => do return mulDoubles (← x.toDouble) (← y.toDouble)

/-- Quotient by a positive integer, rounded down. -/
def floorDiv (x : Number) (p : Nat) : Number :=
  match x with
  | .whole v => .whole (Int.fdiv v p)
  | .double .. => ofRat (Binary64.fdiv x.value p)
  | _ => .undefined

/-- Remainder for a positive integer. -/
def rem (x : Number) (p : Nat) : Number :=
  match x with
  | .whole v => .whole (Int.fmod v p)
  | .double .. => ofRat (Binary64.fmod x.value p)
  | _ => .undefined

/-- The number without its fraction. -/
def integer : Number → Except Fault Int
  | .whole v => .ok v
  | .infinite _ => .error .overflow
  | .undefined => .error (.argument .undefinedInteger)
  | x => .ok (Binary64.truncate x.value)

end Number
end PadicLift
