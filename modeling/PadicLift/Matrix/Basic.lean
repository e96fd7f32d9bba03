/-!
# Dense integer matrices

A matrix stores its entries by rows, once. `ofFn` builds one from a function of the two positions
and `entry` reads it back; the other operations are built from these two.
-/

namespace PadicLift

theorem get_ofFn {α : Type} {n : Nat} (f : Fin n → α) (i : Fin n) :
    (Vector.ofFn f).get i = f i := by
  show (Vector.ofFn f)[i.val] = f i
  simp

/-- An `m × n` matrix of integers. -/
structure Mat (m n : Nat) where
  /-- The rows, from top to bottom. -/
  rows : Vector (Vector Int n) m
deriving DecidableEq, Repr

namespace Mat

variable {m n k : Nat}

/-- The matrix with entry `f i j` in row `i` and column `j`. -/
def ofFn (f : Fin m → Fin n → Int) : Mat m n :=
  ⟨Vector.ofFn fun i => Vector.ofFn fun j => f i j⟩

/-- The entry in row `i` and column `j`. -/
def entry (A : Mat m n) (i : Fin m) (j : Fin n) : Int := (A.rows.get i).get j

@[simp] theorem entry_ofFn (f : Fin m → Fin n → Int) (i : Fin m) (j : Fin n) :
    (ofFn f).entry i j = f i j := by
  simp only [entry, ofFn, get_ofFn]

theorem ext_entry {A B : Mat m n} (h : ∀ i j, A.entry i j = B.entry i j) : A = B := by
  cases A with
  | mk a =>
    cases B with
    | mk b =>
      congr 1
      ext i hi j hj
      exact h ⟨i, hi⟩ ⟨j, hj⟩

/-- Row `i`. -/
def row (A : Mat m n) (i : Fin m) : Vector Int n := A.rows.get i

/-- Column `j`. -/
def column (A : Mat m n) (j : Fin n) : Vector Int m := Vector.ofFn fun i => A.entry i j

/-- Applies `f` to every entry. -/
def map (f : Int → Int) (A : Mat m n) : Mat m n := ofFn fun i j => f (A.entry i j)

@[simp] theorem entry_map (f : Int → Int) (A : Mat m n) (i : Fin m) (j : Fin n) :
    (A.map f).entry i j = f (A.entry i j) := by
  simp [map]

/-- The matrix with ones on the diagonal. -/
def identity (n : Nat) : Mat n n := ofFn fun i j => if i = j then 1 else 0

/-- The matrix with zeros only. -/
def zero (m n : Nat) : Mat m n := ofFn fun _ _ => 0

/-- The matrix with the given columns. -/
def ofColumns (columns : Vector (Vector Int m) n) : Mat m n :=
  ofFn fun i j => (columns.get j).get i

/-- Sum of the products of corresponding entries. -/
def dot (u v : Vector Int n) : Int :=
  Fin.foldl n (fun s i => s + u.get i * v.get i) 0

/-- Product of a matrix and a vector. -/
def mulVec (A : Mat m n) (v : Vector Int n) : Vector Int m :=
  Vector.ofFn fun i => dot (A.row i) v

/-- All entries, row after row. -/
def toList (A : Mat m n) : List Int := A.rows.toList.flatMap Vector.toList

/-- The rows as lists. -/
def toLists (A : Mat m n) : List (List Int) := A.rows.toList.map Vector.toList

/-- The largest absolute value of an entry, 0 for a matrix without entries. -/
def maxAbs (A : Mat m n) : Nat :=
  A.toList.foldl (fun s v => max s v.natAbs) 0

end Mat
end PadicLift
