import PadicLift.Number.Binary64

/-!
# Decimal text of numbers

`fixed` writes a rational with a given number of places, a half going to the even neighbour.
`shortest` finds the fewest digits that read back as the same double, and `Notation` says how such
digits are laid out: where positional writing ends and how an exponent looks.
-/

-- Powers take their instance from the core library, whatever else is in scope.
attribute [local instance (high)] instPowNat

namespace PadicLift
namespace Decimal

/-- `text` with zeros in front, at least `width` characters long. -/
def padLeft (width : Nat) (text : String) : String :=
  String.ofList (List.replicate (width - text.length) '0') ++ text

/-- Rounds to `places` places after the point, a half going to the even neighbour. -/
def fixed (places : Nat) (x : Rat) : String :=
  let scaled := Binary64.divNearest (x.num.natAbs * 10 ^ places) x.den
  let digits := padLeft (places + 1) (toString scaled)
  let whole := digits.toList.take (digits.length - places)
  let rest := digits.toList.drop (digits.length - places)
  let sign := if x.num < 0 then "-" else ""
  sign ++ String.ofList whole ++ (if places = 0 then "" else "." ++ String.ofList rest)

/-! ## Shortest digits -/

/-- Decimal digits `d₁ d₂ …` and a point position: the value `0.d₁d₂… * 10 ^ point`. -/
structure Digits where
  digits : Nat
  count : Nat
  point : Int
deriving Repr, DecidableEq

/-- The value `digits * 10 ^ (point - count)`. -/
def Digits.value (d : Digits) : Rat :=
  let e := d.point - d.count
  if 0 ≤ e then ((d.digits * 10 ^ e.toNat : Nat) : Rat)
  else mkRat d.digits (10 ^ (-e).toNat)

/-- The number of decimal digits in front of the point of `a / d`, negative where zeros follow it:
the least `k` with `a / d < 10 ^ k`. The search starts below and walks up. -/
def pointPosition (a d : Nat) : Int :=
  let reaches (k : Int) : Bool :=
    if 0 ≤ k then decide (d * 10 ^ k.toNat ≤ a) else decide (d ≤ a * 10 ^ (-k).toNat)
  let start : Int := Binary64.floorExponent a d * 30102 / 100000 - 2
  let steps := (List.range 8).find? fun (i : Nat) => !reaches (start + (i : Int))
  start + (steps.getD 0 : Nat)

/-- The two neighbours of `a / d` among the decimals with `n` digits, the nearer one first. -/
def neighbours (a d n : Nat) (point : Int) : List Digits :=
  let e := (n : Int) - point
  let num := if 0 ≤ e then a * 10 ^ e.toNat else a
  let den := if 0 ≤ e then d else d * 10 ^ (-e).toNat
  let low := num / den
  let lower : Digits := ⟨low, n, point⟩
  let upper : Digits := ⟨low + 1, n, point⟩
  if Binary64.divNearest num den = low then [lower, upper] else [upper, lower]

/-- The fewest digits, at most 17, that read back as the positive double `x`; of two candidates
the nearer one. -/
def shortest (x : Rat) : Digits :=
  let a := x.num.natAbs
  let point := pointPosition a x.den
  let candidates := (List.range 17).flatMap fun i => neighbours a x.den (i + 1) point
  let fits := candidates.find? fun c => Binary64.round c.value == x
  fits.getD ⟨0, 1, 1⟩

/-- Digits as text, without the zeros at their end. -/
def Digits.trimmed (d : Digits) : List Char :=
  let cs := (toString d.digits).toList
  let kept := (cs.reverse.dropWhile (· == '0')).reverse
  if kept.isEmpty then ['0'] else kept

/-- The position of the point, after a carry into one more digit. -/
def Digits.position (d : Digits) : Int :=
  d.point + ((toString d.digits).length - d.count : Int)

/-! ## Layout -/

/-- How digits are laid out. -/
structure Layout where
  /-- Positional writing while the point stands after this position … -/
  lowest : Int
  /-- … and not after this one. -/
  highest : Int
  /-- Least number of digits of an exponent. -/
  exponentWidth : Nat
  /-- Text of a whole number's empty fraction. -/
  emptyFraction : String

/-- Doubles are written positionally from `0.0001` up to sixteen digits in front of the point, with
a fraction even where it is zero; an exponent has a sign and two digits. -/
def plain : Layout := ⟨-4, 16, 2, ".0"⟩

/-- Lays out digits whose value is `0.d₁d₂… * 10 ^ point`. -/
def Layout.write (l : Layout) (digits : List Char) (point : Int) : String :=
  if l.lowest < point ∧ point ≤ l.highest then
    if point ≤ 0 then
      "0." ++ String.ofList (List.replicate (-point).toNat '0' ++ digits)
    else if digits.length ≤ point.toNat then
      String.ofList (digits ++ List.replicate (point.toNat - digits.length) '0') ++ l.emptyFraction
    else
      String.ofList (digits.take point.toNat) ++ "." ++ String.ofList (digits.drop point.toNat)
  else
    let e := point - 1
    let mantissa :=
      match digits with
      | [] => "0"
      | [c] => String.ofList [c]
      | c :: rest => String.ofList (c :: '.' :: rest)
    let sign := if e < 0 then "-" else "+"
    mantissa ++ "e" ++ sign ++ padLeft l.exponentWidth (toString e.natAbs)

/-- Text of a double, given by its sign and its size. -/
def double (negative : Bool) (size : Rat) : String :=
  let sign := if negative then "-" else ""
  if size = 0 then sign ++ "0" ++ plain.emptyFraction
  else
    let d := shortest size
    sign ++ plain.write d.trimmed d.position

end Decimal
end PadicLift
