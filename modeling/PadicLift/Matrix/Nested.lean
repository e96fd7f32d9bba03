import PadicLift.Matrix.Basic
import PadicLift.Number.Mixed
import PadicLift.Text.Numeral

/-!
# Nested lists of integers

Matrices and vectors arrive as lists of lists. `Nested.lengths` is the longest list of lengths on
which all branches agree, so a list of rows of unequal lengths has one length only: that of the
outer list. `Nested.shape` looks at no more than `maxLevels` levels of it. `Nested.matrix` turns
nested lists of shape `(m, n)` into an `m × n` matrix.

A place may hold something else than an integer. A double without its fraction and the numeral that
a text spells are integers all the same (`Nested.integer`); anything else has none.
-/

namespace PadicLift

/-- What a place holds that holds neither an integer nor a list. -/
inductive Foreign
  | number (value : Number)
  | text (value : Text)
  | other
deriving DecidableEq, Repr, Inhabited

/-- The integer that stands for it. -/
def Foreign.integer : Foreign → Except Fault Int
  | .number x => x.integer
  | .text t => Numeral.integer t
  | .other => .error .kindMismatch

/-- An integer, something foreign in place of one, or a list of further nested lists. -/
inductive Nested
  | entry (value : Int)
  | list (items : List Nested)
  | foreign (value : Foreign)
deriving Repr, Inhabited

namespace Nested

/-- The longest common beginning of two shapes. -/
def agreement : Shape → Shape → Shape
  | a :: as, b :: bs => if a = b then a :: agreement as bs else []
  | _, _ => []

mutual
/-- The lengths on which all branches agree, from the outside in. -/
def lengths : Nested → Shape
  | .entry _ => []
  | .list items => items.length :: sharedLengths items
  | .foreign _ => []

/-- The lengths on which all members of a list agree. -/
def sharedLengths : List Nested → Shape
  | [] => []
  | [x] => x.lengths
  | x :: y :: rest => agreement x.lengths (sharedLengths (y :: rest))
end

/-- The number of levels that an array can have. -/
def maxLevels : Nat := 64

/-- The shape of the array that nested lists make. Lists below its last level stay lists. -/
def shape (x : Nested) : Shape := x.lengths.take maxLevels

mutual
/-- Whether every number stands at the given depth. -/
def uniform : Nat → Nested → Bool
  | 0, .entry _ => true
  | depth + 1, .list items => allUniform depth items
  | _, _ => false

/-- Whether every number in a list stands at the given depth. -/
def allUniform : Nat → List Nested → Bool
  | _, [] => true
  | depth, x :: rest => x.uniform depth && allUniform depth rest
end

/-- Whether the shape describes the nested lists fully, down to the numbers. -/
def isRegular (x : Nested) : Bool := x.uniform x.shape.length

mutual
/-- All numbers in reading order. -/
def toList : Nested → List Int
  | .entry v => [v]
  | .list items => concat items
  | .foreign _ => []

/-- All numbers of a list of branches in reading order. -/
def concat : List Nested → List Int
  | [] => []
  | x :: rest => x.toList ++ concat rest
end

mutual
/-- Applies `f` to every number and keeps the nesting. -/
def map (f : Int → Int) : Nested → Nested
  | .entry v => .entry (f v)
  | .list items => .list (mapList f items)
  | .foreign x => .foreign x

/-- Applies `f` to every number of a list of branches. -/
def mapList (f : Int → Int) : List Nested → List Nested
  | [] => []
  | x :: rest => x.map f :: mapList f rest
end

/-- The branches of a list; anything else has none. -/
def items : Nested → List Nested
  | .list xs => xs
  | _ => []

/-- Whether a branch is a list. -/
def isList : Nested → Bool
  | .list _ => true
  | _ => false

/-- The branches at the given depth, in reading order; numbers above that depth are left out. -/
def branchesAt : Nat → Nested → List Nested
  | 0, x => [x]
  | depth + 1, x => x.items.flatMap fun y => y.branchesAt depth

/-- The branches at the depth of the shape. -/
def cells (x : Nested) : List Nested := x.branchesAt x.shape.length

/-- The number of positions that a shape has room for. -/
def volume (shape : Shape) : Nat := shape.foldl (· * ·) 1

/-! ## Single places -/

/-- A number as a place. -/
def ofNumber : Number → Nested
  | .whole v => .entry v
  | x => .foreign (.number x)

/-- The number that a place holds. -/
def number? : Nested → Option Number
  | .entry v => some (.whole v)
  | .foreign (.number x) => some x
  | _ => none

/-- The integer that stands for a place; a list has none. -/
def integer : Nested → Except Fault Int
  | .entry v => .ok v
  | .foreign x => x.integer
  | .list _ => .error .kindMismatch

/-- The residue of a place, without its fraction. Only numbers have residues. -/
def residue (p : Nat) (x : Nested) : Except Fault Int :=
  match x.number? with
  | some v => (v.rem p).integer
  | none => .error .kindMismatch

/-! ## Matrices, columns and vectors -/

/-- A matrix with its dimensions. -/
structure SomeMat where
  rows : Nat
  cols : Nat
  mat : Mat rows cols
deriving Repr

/-- The `m × n` matrix with the numbers of the nested lists, read by position. -/
def readMat (x : Nested) (m n : Nat) : Mat m n :=
  let table : Array (Array Int) := (x.items.map fun row => row.toList.toArray).toArray
  Mat.ofFn fun i j => (table.getD i #[]).getD j 0

/-- The `m × n` matrix with the given entries in reading order. -/
def matOfList (entries : List Int) (m n : Nat) : Mat m n :=
  let table := entries.toArray
  Mat.ofFn fun i j => table.getD (i.val * n + j.val) 0

/-- The matrix that nested lists of two levels describe. The first place without an integer is what
fails. -/
def matrix (x : Nested) : Except Fault SomeMat :=
  match x.shape with
  | [m, n] =>
    if x.isRegular then .ok ⟨m, n, x.readMat m n⟩
    else (x.cells.mapM integer).map fun entries => ⟨m, n, matOfList entries m n⟩
  | shape => .error (.argument (.notMatrix shape))

/-- The vector with the given numbers, which are expected to be `n` in number. -/
def toVector (values : List Int) (n : Nat) : Vector Int n :=
  let table := values.toArray
  Vector.ofFn fun i => table.getD i 0

end Nested
end PadicLift
