import PadicLift.Modular.Product
import PadicLift.Number.Inverse

/-!
# Inverse of a matrix modulo an integer

Gauss-Jordan elimination on the matrix with the identity beside it, in 64-bit words. Columns are
taken from left to right; the pivot is the first entry other than 0 at or below the current row,
and a column without one is passed over. After all columns the number of rows without a pivot is
the dimension of the kernel.
-/

namespace PadicLift
namespace Elimination

variable {n : Nat}

/-- The matrix under elimination and the number of pivots found so far. -/
structure State (n : Nat) where
  pivots : Nat
  table : Mat n (n + n)
deriving DecidableEq, Repr

/-- The residues of `A` with the identity to their right. -/
def start (A : Mat n n) : State n where
  pivots := 0
  table := Mat.ofFn fun i j => Fin.addCases (A.entry i) ((Mat.identity n).entry i) j

/-- Exchanges rows `r` and `s`. -/
def swapRows {m : Nat} (A : Mat n m) (r s : Fin n) : Mat n m :=
  Mat.ofFn fun i j => if i = r then A.entry s j else if i = s then A.entry r j else A.entry i j

/-- The first row from `from` on whose entry in column `c` is not 0. -/
def findPivot {m : Nat} (A : Mat n m) (first : Nat) (c : Fin m) : Option (Fin n) :=
  (List.finRange n).find? fun i => decide (first ≤ i.val) && A.entry i c != 0

/-- Scales row `r` by `scale` and clears column `c` in all other rows. -/
def clearColumn {m : Nat} (p : Int) (A : Mat n m) (r : Fin n) (c : Fin m) (scale : Int) :
    Mat n m :=
  let M := Machine.word
  let pivotRow : Vector Int m := Vector.ofFn fun j => M.rem (M.mul (A.entry r j) scale) p
  Mat.ofFn fun i j =>
    let (base, factor) := if i = r then (pivotRow.get j, 0) else (A.entry i j, A.entry i c)
    M.rem (M.add base (-(M.rem (M.mul factor (pivotRow.get j)) p))) p

/-- Elimination in column `c`. -/
def step (p : Nat) (s : State n) (c : Fin n) : Except Fault (State n) :=
  let column := c.castAdd n
  match findPivot s.table s.pivots column with
  | none => .ok s
  | some i =>
    if h : s.pivots < n then
      let r : Fin n := ⟨s.pivots, h⟩
      let swapped := swapRows s.table r i
      match inverse? (swapped.entry r column).toNat p with
      | none => .error (.argument .notInvertible)
      | some scale => .ok ⟨s.pivots + 1, clearColumn p swapped r column scale⟩
    else .ok s

/-- Elimination in all columns. -/
def run (p : Nat) (A : Mat n n) : Except Fault (State n) :=
  (List.finRange n).foldlM (step p) (start A)

/-- The right half of the table. -/
def State.right (s : State n) : Mat n n := Mat.ofFn fun i j => s.table.entry i (Fin.natAdd n j)

end Elimination

/-- What elimination says about a square matrix. -/
inductive Inversion (n : Nat)
  | inverse (B : Mat n n)
  /-- There is no inverse; the kernel has the given dimension, which is not 0. -/
  | singular (nullity : Nat)
deriving Repr

/-- The inverse of a reduced matrix modulo `p`. -/
def Mat.inverseMod {n : Nat} (p : Nat) (A : Mat n n) : Except Fault (Inversion n) := do
  let s ← Elimination.run p A
  if s.pivots < n then return .singular (n - s.pivots) else return .inverse s.right

/-- The outcome of an inversion together with its dimension. -/
structure SomeInversion where
  size : Nat
  outcome : Inversion size

/-- The inverse modulo `p` of a matrix given by nested lists. -/
def invert (plain : Bool) (x : Nested) (p : Int) : Except Fault SomeInversion := do
  let q ← checkModulus p
  let reduced ← reduce plain x q
  match reduced.shape with
  | [m, n] =>
    if m = n then
      let outcome ← (reduced.readMat n n).inverseMod q
      return ⟨n, outcome⟩
    else .error (.argument (.notSquare [m, n]))
  | [] => .error (.argument (.tooShallow 0))
  | [_] => .error (.argument (.tooShallow 1))
  | _ => .error (.argument .tooDeep)

end PadicLift
