import PadicLift.Document.Json
import PadicLift.Document.Moment
import PadicLift.Text.Numeral

/-!
# Plain scalars

A scalar without quotes says by its form what it is: nothing, a truth value, a number, a day or a
point in time, or a text.
An integer is written in base 2, 8, 10 or 16, or in base 60 with colons between its places; digits
may be grouped by underscores. A double has a point, and its exponent a sign; without them the same
characters are a text. Doubles in base 60 have a point in their last place.
-/

-- Powers take their instance from the core library, whatever else is in scope.
attribute [local instance (high)] instPowNat

namespace PadicLift
namespace Scalar

/-! ## Words -/

/-- The forms of nothing. -/
def nullForms : List String := ["", "~", "null", "Null", "NULL"]

/-- The forms of true. -/
def trueForms : List String :=
  ["yes", "Yes", "YES", "true", "True", "TRUE", "on", "On", "ON"]

/-- The forms of false. -/
def falseForms : List String :=
  ["no", "No", "NO", "false", "False", "FALSE", "off", "Off", "OFF"]

/-- The forms of the double beyond all others, behind its sign. -/
def infiniteForms : List String := [".inf", ".Inf", ".INF"]

/-- The forms of the double that is no number. -/
def undefinedForms : List String := [".nan", ".NaN", ".NAN"]

/-! ## Digits -/

/-- Characters without the underscores between them. -/
def ungrouped (cs : List Char) : List Char := cs.filter (· != '_')

/-- The number that digits of a base give. -/
def valueIn (base : Nat) (cs : List Char) : Nat :=
  cs.foldl (fun s c => base * s + (Json.hexValue c).getD 0) 0

/-- Whether a character is a digit or an underscore. -/
def isGrouped (c : Char) : Bool := c == '_' || c.isDigit

/-- Whether a number starts with a digit and goes on with digits and underscores. -/
def startsDecimal : List Char → Bool
  | c :: rest => c.isDigit && rest.all isGrouped
  | [] => false

/-- Whether characters are a place of base 60: one digit, or two with the first below 6. -/
def isSixty : List Char → Bool
  | [c] => c.isDigit
  | [c, d] => '0' ≤ c && c ≤ '5' && d.isDigit
  | _ => false

/-- The places of a number in base 60, at least two of them. -/
def sixtyPlaces? (cs : List Char) : Option (List (List Char)) :=
  match cs.splitOn ':' with
  | first :: next :: rest =>
    if startsDecimal first && (next :: rest).all isSixty then
      some (ungrouped first :: next :: rest)
    else none
  | _ => none

/-! ## Integers -/

/-- The digits of a number in base 2 or 16, behind the mark of the base. There may be nothing but
underscores, which is no number. -/
def markedDigits (base : Nat) (digit : Char → Bool) (cs : List Char) :
    Option (Except Fault Nat) :=
  if cs.isEmpty || !cs.all fun c => c == '_' || digit c then none
  else
    match ungrouped cs with
    | [] => some (.error (Numeral.fault base ""))
    | ds => some (.ok (valueIn base ds))

/-- The number that places of base 60 give. -/
def sixtyValue (places : List (List Char)) : Nat :=
  places.foldl (fun s p => 60 * s + valueIn 10 p) 0

/-- An integer without its sign. -/
def magnitude? (cs : List Char) : Option (Except Fault Nat) :=
  match cs with
  | ['0'] => some (.ok 0)
  | '0' :: 'b' :: ds => markedDigits 2 (fun c => c == '0' || c == '1') ds
  | '0' :: 'x' :: ds => markedDigits 16 (fun c => (Json.hexValue c).isSome) ds
  | '0' :: ds =>
    if ds.all fun c => c == '_' || ('0' ≤ c && c ≤ '7') then
      some (.ok (valueIn 8 (ungrouped ds)))
    else none
  | _ =>
    if startsDecimal cs then some (.ok (valueIn 10 (ungrouped cs)))
    else (sixtyPlaces? cs).map fun places => .ok (sixtyValue places)

/-- An integer. -/
def integer? (cs : List Char) : Option (Except Fault Int) :=
  let (negative, body) := Numeral.splitSign cs
  (magnitude? body).map fun r => r.map fun (v : Nat) => if negative then -(v : Int) else v

/-! ## Doubles -/

/-- The exponent of a double, 0 where there is none. -/
def exponent? : List Char → Option Int
  | [] => some 0
  | mark :: sign :: digits =>
    if (mark == 'e' || mark == 'E') && (sign == '-' || sign == '+') && !digits.isEmpty &&
        digits.all Char.isDigit then
      let e : Int := valueIn 10 digits
      some (if sign == '-' then -e else e)
    else none
  | _ => none

/-- The double that digits and a fraction stand for. -/
def decimal (negative : Bool) (whole fraction : List Char) (exponent : Int) : Number :=
  .ofDecimal negative (valueIn 10 (whole ++ fraction)) (fraction.length - exponent)

/-- The double that characters in lower case spell: digits with or without a point and an exponent,
or a word for a double that is not finite, perhaps between blanks. -/
def spelledDouble? (cs : List Char) : Option Number :=
  let (negative, body) := Numeral.splitSign (Numeral.trimmed cs)
  let word := String.ofList body
  let whole := body.takeWhile Text.isDecimalDigit
  let (fraction, rest) :=
    match body.dropWhile Text.isDecimalDigit with
    | '.' :: more => (more.takeWhile Text.isDecimalDigit, more.dropWhile Text.isDecimalDigit)
    | more => ([], more)
  let scaled (e : Int) : Option Number :=
    some (.ofDecimal negative (Numeral.valueOf (whole ++ fraction)) (fraction.length - e))
  if word == "inf" || word == "infinity" then some (.infinite negative)
  else if word == "nan" then some .undefined
  else if whole.isEmpty && fraction.isEmpty then none
  else
    match rest with
    | [] => scaled 0
    | 'e' :: power =>
      let (down, digits) := Numeral.splitSign power
      let e : Int := Numeral.valueOf digits
      if digits.isEmpty || !digits.all Text.isDecimalDigit then none
      else scaled (if down then -e else e)
    | _ => none

/-- The double that characters in lower case spell. -/
def spelledDouble (cs : List Char) : Except Fault Number :=
  match spelledDouble? cs with
  | some x => .ok x
  | none => .error (.argument (.noDouble (Quoted.text (.ofChars cs))))

/-- A double in base 60. Places are added from the lowest one up; there may not be so many that the
weight of the highest one is no double. -/
def sixtyDouble (places : List (List Char)) : Except Fault Number := do
  let values ← places.mapM spelledDouble
  values.reverse.zipIdx.foldlM
    (fun s (v, i) => do s.add (← v.mul (.whole (60 ^ i : Nat)))) (.double false 0)

/-- A double: digits, a point, perhaps more digits, perhaps an exponent. A number that starts with
its point has no sign and a digit behind the point. -/
def double? (cs : List Char) : Option (Except Fault Number) :=
  let (negative, body) := Numeral.splitSign cs
  let whole := body.takeWhile (· != '.')
  match body.dropWhile (· != '.') with
  | '.' :: behind =>
    let fraction := behind.takeWhile isGrouped
    match exponent? (behind.dropWhile isGrouped) with
    | some e =>
      if startsDecimal whole || (whole.isEmpty && body == cs && startsDecimal fraction) then
        some (.ok (decimal negative (ungrouped whole) (ungrouped fraction) e))
      else if behind.all isGrouped && (sixtyPlaces? whole).isSome then
        some ((sixtyDouble ((ungrouped body).splitOn ':')).map fun x =>
          if negative then x.neg else x)
      else none
    | none => none
  | _ => none

/-- A double that is not finite. -/
def nonfinite? (cs : List Char) : Option Number :=
  let (negative, body) := Numeral.splitSign cs
  if infiniteForms.contains (String.ofList body) then some (.infinite negative)
  else if undefinedForms.contains (String.ofList cs) then some .undefined
  else none

/-! ## Announced values -/

/-- The truth value that a text spells which is announced as one, in upper or lower case. -/
def asTruth (t : Text) : Except Fault Bool :=
  let word := String.ofList (t.toString.toList.map Char.toLower)
  if trueForms.contains word then .ok true
  else if falseForms.contains word then .ok false
  else .error (.malformedDocument .truth)

/-- The integer that a text spells which is announced as one. A zero in front marks base 8, with a
letter behind it base 2 or 16. -/
def asInteger (t : Text) : Except Fault Int := do
  let cs := ungrouped t.toString.toList
  let (negative, body) := Numeral.splitSign cs
  let v ←
    match body with
    | [] => .error .indexOutOfRange
    | ['0'] => .ok 0
    | '0' :: 'b' :: ds => Numeral.integerIn 2 (.ofChars ds)
    | '0' :: 'x' :: ds => Numeral.integerIn 16 (.ofChars ds)
    | '0' :: _ => Numeral.integerIn 8 (.ofChars body)
    | _ => do
      let places ← (body.splitOn ':').mapM fun p => Numeral.integer (.ofChars p)
      pure (places.foldl (fun s p => 60 * s + p) 0)
  return if negative then -v else v

/-- The double that a text spells which is announced as one. -/
def asDouble (t : Text) : Except Fault Number := do
  let cs := (ungrouped t.toString.toList).map Char.toLower
  if cs.isEmpty then .error .indexOutOfRange
  let (negative, body) := Numeral.splitSign cs
  let x ←
    if String.ofList body == ".inf" then .ok (.infinite false)
    else if String.ofList body == ".nan" then .ok .undefined
    else
      match body.splitOn ':' with
      | [_] => spelledDouble body
      | places => sixtyDouble places
  return if negative then x.neg else x

/-! ## Scalars -/

/-- Whether characters are a truth value. -/
def isTruth (cs : List Char) : Bool :=
  (trueForms ++ falseForms).contains (String.ofList cs)

/-- The marks that stand for no value: that of fields to merge, and that of a default. -/
def markForms : List String := ["<<", "="]

/-- What a scalar without quotes stands for. -/
def resolve (cs : List Char) : Except Fault Document :=
  let t := String.ofList cs
  if nullForms.contains t then .ok .null
  else if isTruth cs then .ok (.bool (trueForms.contains t))
  else if markForms.contains t then .error (.malformedDocument .value)
  else
    match nonfinite? cs, double? cs, integer? cs, Moment.read? 2 cs with
    | some x, _, _, _ => .ok (.number x)
    | none, some r, _, _ => r.map Document.number
    | none, none, some r, _ => r.map Document.int
    | none, none, none, some r => r.map Document.moment
    | none, none, none, none => .ok (.text (.ofChars cs))

end Scalar
end PadicLift
