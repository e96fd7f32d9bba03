import PadicLift.Matrix.Nested
import PadicLift.Number.Logarithm

/-!
# Size bounds for the solution of a linear system

By Cramer's rule every entry of the solution of `A x = b` is a quotient of determinants. Hadamard's
inequality bounds the denominator by the product of the lengths of the rows, and by that of the
columns; it bounds a numerator by the product of the lengths of all columns but one, times the
length of `b`. Lengths enter by their base-2 logarithms, taken in doubles.
-/

-- Powers take their instance from the core library, whatever else is in scope.
attribute [local instance (high)] instPowNat

namespace PadicLift

/-- The base-2 logarithm of the length of a vector, if the vector is not 0. -/
def lengthLog (v : List Int) : Option Rat :=
  let square := v.foldl (fun s x => s + x.natAbs * x.natAbs) 0
  if square = 0 then none else some (Binary64.div (Binary64.log2Nat square) 2)

/-- Logarithms of bounds on the minors of a matrix. -/
structure HadamardBound where
  /-- Of the determinant. -/
  log : Rat
  /-- Of the largest product of all column lengths but one. -/
  logOverShortest : Rat
deriving DecidableEq, Repr

namespace HadamardBound

/-- The least of some numbers, and 0 for none. -/
def least : List Rat → Rat
  | [] => 0
  | x :: rest => rest.foldl (fun s y => if y < s then y else s) x

/-- The bound for a matrix; there is none where a row or column is 0. -/
def ofMat {m n : Nat} (A : Mat m n) : Except Fault HadamardBound :=
  let rowLogs := (List.finRange m).mapM fun i => lengthLog (A.row i).toList
  let columnLogs := (List.finRange n).mapM fun j => lengthLog (A.column j).toList
  match rowLogs, columnLogs with
  | some rs, some cs =>
    let total := Binary64.sum cs
    .ok ⟨least [Binary64.sum rs, total], Binary64.sub total (least cs)⟩
  | _, _ => .error (.argument .zeroRowOrColumn)

end HadamardBound

/-- Logarithms of bounds on the numerators and on the common denominator of a solution. -/
structure SolutionBound where
  numLog : Rat
  denLog : Rat
deriving DecidableEq, Repr

namespace SolutionBound

/-- The power of two that reaches a bound given by its logarithm. -/
def powerAbove (log : Rat) : Nat := 2 ^ log.ceil.toNat

/-- Bound on the absolute values of the numerators. -/
def numBound (b : SolutionBound) : Nat := powerAbove b.numLog

/-- Bound on the common denominator. -/
def denBound (b : SolutionBound) : Nat := powerAbove b.denLog

/-- Logarithm of twice the product of both bounds. -/
def log (b : SolutionBound) : Rat := Binary64.roundInt (b.numLog.ceil + b.denLog.ceil + 1)

/-- The larger of a number and 0. -/
def clamp (x : Rat) : Rat := if x < 0 then 0 else x

/-- The bounds for a right side `b` and a matrix whose minors have the given bounds. -/
def ofHadamard (h : HadamardBound) (b : List Int) : SolutionBound :=
  ⟨clamp (Binary64.add h.logOverShortest (clamp ((lengthLog b).getD 0))), clamp h.log⟩

/-- The bounds for the system with matrix `A` and right side `b`. -/
def ofSystem {m n : Nat} (A : Mat m n) (b : List Int) : Except Fault SolutionBound := do
  let h ← HadamardBound.ofMat A
  return ofHadamard h b

/-- The bounds for the system with matrix `A` and a right side that may not hold integers, which
matters only once the matrix has its bound. -/
def ofPartial {m n : Nat} (A : Mat m n) (right : Except Fault (List Int)) :
    Except Fault SolutionBound := do
  let h ← HadamardBound.ofMat A
  return ofHadamard h (← right)

end SolutionBound

/-! ## Nested lists -/

/-- The largest absolute value of an entry. -/
def largestEntry (a : Nested) : Except Fault Nat := do
  let A ← a.matrix
  return A.mat.maxAbs

/-- The bound for a matrix given by nested lists. -/
def hadamardBound (a : Nested) : Except Fault HadamardBound := do
  let A ← a.matrix
  HadamardBound.ofMat A.mat

/-- The bounds for a system given by nested lists. -/
def solutionBound (a b : Nested) : Except Fault SolutionBound := do
  let A ← a.matrix
  SolutionBound.ofPartial A.mat (b.cells.mapM Nested.integer)

end PadicLift
