import PadicLift.Document.Basic
import PadicLift.Fault

/-!
# Quantities

A choice that is meant as a number may be written as an integer, as a double or as a truth value,
which counts as 1 or 0. A `Quantity` keeps how it was written, because that is how it is shown and
written back.
-/

namespace PadicLift

/-- A number, or a truth value that counts as one. -/
inductive Quantity
  | number (value : Number)
  | truth (value : Bool)
deriving DecidableEq, Repr

namespace Quantity

/-- An integer as a quantity. -/
def ofInt (v : Int) : Quantity := .number (.whole v)

/-- The quantity that a document holds. -/
def ofDocument : Document → Except Fault Quantity
  | .number n => .ok (.number n)
  | .bool b => .ok (.truth b)
  | _ => .error .kindMismatch

/-- A quantity as a document. -/
def toDocument : Quantity → Document
  | .number n => .number n
  | .truth b => .bool b

/-- What a quantity counts as. -/
def toNumber : Quantity → Number
  | .number n => n
  | .truth b => .whole (if b then 1 else 0)

/-- The integer that a quantity is; a double is none, even if it is whole. -/
def integer? (q : Quantity) : Option Int :=
  match q.toNumber with
  | .whole v => some v
  | _ => none

/-- A quantity as text. -/
def text : Quantity → String
  | .number n => n.text
  | .truth b => if b then "True" else "False"

/-- Whether a quantity is less than an integer. -/
def isBelow (q : Quantity) (bound : Int) : Bool := q.toNumber.before (.whole bound)

/-- Whether a quantity lies between two integers. -/
def isWithin (q : Quantity) (low high : Int) : Bool :=
  let above := (Number.whole low).before q.toNumber || (Number.whole low).same q.toNumber
  let below := q.isBelow high || q.toNumber.same (.whole high)
  above && below

end Quantity

/-- The integer that a document holds, as a number or as a truth value. -/
def Document.integer? (d : Document) : Option Int :=
  match Quantity.ofDocument d with
  | .ok q => q.integer?
  | .error _ => none

end PadicLift
