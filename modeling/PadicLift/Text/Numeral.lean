import PadicLift.Fault
import PadicLift.Text.Blank
import PadicLift.Text.DecimalDigit
import PadicLift.Text.Quoted

/-!
# Numerals

An integer as a text: an optional sign and decimal digits of any script, in groups between single
underscores, perhaps between blanks. `Numeral.integer` reads one and says what it met where there is
none; `Numeral.integerIn` reads one in base 2, 8 or 16.
-/

namespace PadicLift
namespace Numeral

/-! ## Decimal digits -/

/-- The digits of groups between single underscores. -/
def ungrouped? (cs : List Char) : Option (List Char) :=
  let groups := cs.splitOn '_'
  if groups.all fun g => !g.isEmpty && g.all Text.isDecimalDigit then some groups.flatten else none

/-- The number that decimal digits of any script give. -/
def valueOf (digits : List Char) : Nat :=
  digits.foldl (fun s c => 10 * s + (Text.decimalDigit? c).getD 0) 0

/-- A text without the blanks around it. -/
def trimmed (cs : List Char) : List Char :=
  ((cs.dropWhile Text.isBlank).reverse.dropWhile Text.isBlank).reverse

/-- A sign and what follows it. -/
def splitSign : List Char → Bool × List Char
  | '-' :: rest => (true, rest)
  | '+' :: rest => (false, rest)
  | cs => (false, cs)

/-- The number of code points of a text that a message shows, its quotes included. -/
def shownLength : Nat := 200

/-- The fault of a text that is no integer in the given base. -/
def fault (base : Nat) (t : Text) : Fault :=
  .argument (.noInteger base (String.ofList ((Quoted.text t).toList.take shownLength)))

/-- The integer that a text spells, perhaps between blanks. -/
def integer (t : Text) : Except Fault Int :=
  let (negative, body) := splitSign (trimmed t.toString.toList)
  match ungrouped? body with
  | some digits =>
    let v : Int := valueOf digits
    .ok (if negative then -v else v)
  | none => .error (fault 10 t)

/-! ## Other bases -/

/-- The digit of a base up to 16 that a character is: a decimal digit of any script, or a letter. -/
def digitIn? (base : Nat) (c : Char) : Option Nat :=
  let letter := c.toLower
  let value :=
    if 'a' ≤ letter ∧ letter ≤ 'f' then some (letter.toNat - 'a'.toNat + 10)
    else Text.decimalDigit? c
  value.filter (· < base)

/-- The letter behind a zero that marks a base. -/
def markOf : Nat → Option Char
  | 2 => some 'b'
  | 8 => some 'o'
  | 16 => some 'x'
  | _ => none

/-- Digits without the mark of their base, which may be left out. -/
def withoutMark (base : Nat) : List Char → List Char
  | '0' :: c :: rest => if some c.toLower == markOf base then rest else '0' :: c :: rest
  | cs => cs

/-- The integer that a text without underscores spells in base 2, 8 or 16, perhaps between
blanks. -/
def integerIn (base : Nat) (t : Text) : Except Fault Int :=
  let (negative, body) := splitSign (trimmed t.toString.toList)
  match (withoutMark base body).mapM (digitIn? base) with
  | some (d :: ds) =>
    let v := (d :: ds).foldl (fun s d => base * s + d) 0
    .ok (if negative then -(v : Int) else v)
  | _ => .error (fault base t)

end Numeral
end PadicLift
