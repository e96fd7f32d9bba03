import PadicLift.Matrix.Tensor
import PadicLift.Number.Machine

/-!
# Reduction modulo an integer

`checkModulus` admits the moduli whose products of residues fit a double. `reduce` takes every
number of some nested lists modulo `p`. Exact numbers are reduced as they are; numbers handed over
as a plain list are stored first, in a form that depends on the sizes of all of them together
(`Storage`), and what the storage changes is reduced.
-/

-- Powers take their instance from the core library, whatever else is in scope.
attribute [local instance (high)] instPowNat

namespace PadicLift

/-- Admits a modulus from 2 up to `maxModulus`. -/
def checkModulus (p : Int) : Except Fault Nat :=
  if p < 2 then .error (.argument (.modulusTooSmall p))
  else if (maxModulus : Int) < p then .error (.lifting (.modulusTooLarge p))
  else .ok p.toNat

/-- Admits every modulus of a list, in order. -/
def checkModuli : List Int → Except Fault (List Nat)
  | [] => .ok []
  | p :: rest => do
    let q ← checkModulus p
    let qs ← checkModuli rest
    return q :: qs

/-! ## Storage of plain lists -/

/-- How the numbers of a plain list are stored. -/
inductive Storage
  /-- Signed words. -/
  | word
  /-- Unsigned words, which become signed ones before the reduction. -/
  | unsigned
  /-- Signed and unsigned words together, which become doubles. -/
  | double
  /-- Integers of any size. -/
  | exact
deriving DecidableEq, Repr

/-- Whether a number is an unsigned word and not a signed one. -/
def isLargeWord (v : Int) : Bool := 2 ^ (63 : Nat) ≤ v && v < 2 ^ (64 : Nat)

/-- The storage that suits all the given numbers. -/
def Storage.of (values : List Int) : Storage :=
  if values.all isWord then .word
  else if values.all isLargeWord then .unsigned
  else if values.all fun v => isWord v || isLargeWord v then .double
  else .exact

/-- A stored number modulo `p`. Only integers of any size know a division by zero. -/
def Storage.reduce (s : Storage) (p v : Int) : Int :=
  match s with
  | .word => Machine.word.rem v p
  | .unsigned => Machine.word.rem (Machine.wrap v) p
  | .double =>
    Machine.word.rem (Machine.truncate (Binary64.roundInt v)) p
  | .exact => Int.fmod v p

/-! ## Nested lists -/

/-- Why a cell has no remainder for `p`: it is no number, or `p` is 0. -/
def cellFault (p : Int) : Nested → Option Fault
  | .entry _ => if p = 0 then some .divisionByZero else none
  | _ => some .kindMismatch

/-- Numbers that have to be words. -/
def asWords (x : Nested) : Except Fault Nested :=
  if x.toList.all isWord then .ok x else .error .overflow

/-- The word that a place becomes: the integer that stands for it. -/
def asWord (x : Nested) : Except Fault Int := do
  let v ← x.integer
  if isWord v then return v else .error .overflow

/-- The words that the places of an array become. Lists that are left below the last level fit no
array; otherwise the first place that becomes no word is what fails. -/
def toWords (x : Nested) : Except Fault (List Int) :=
  if x.cells.any Nested.isList then .error .incompatibleShapes else x.cells.mapM asWord

/-- All numbers modulo `p`, as exact integers. The first cell without a remainder decides why there
is none. -/
def reduceExact (x : Nested) (p : Int) : Except Fault Nested :=
  match (x.branchesAt x.shape.length).findSome? (cellFault p) with
  | some f => .error f
  | none => asWords (x.map fun v => Int.fmod v p)

/-- All numbers of a plain list modulo `p`, as stored. -/
def reduceStored (x : Nested) (p : Int) : Except Fault Nested :=
  let storage := Storage.of x.toList
  if !x.isRegular then .error .incompatibleShapes
  else if storage = .exact then reduceExact x p
  else if !isWord p then .error .overflow
  else .ok (x.map (storage.reduce p))

/-- All numbers modulo `p`; `plain` says that they are handed over as a plain list. -/
def reduce (plain : Bool) (x : Nested) (p : Int) : Except Fault Nested :=
  if plain then reduceStored x p else reduceExact x p

/-- Every entry of a matrix modulo `p`. -/
def Mat.reduce {m n : Nat} (A : Mat m n) (p : Int) : Mat m n := A.map fun v => Int.fmod v p

end PadicLift
