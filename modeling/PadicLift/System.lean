import PadicLift.Matrix.Nested
import PadicLift.Modular.Reduce

/-!
# Square linear systems

A system `A x = b` with as many equations as unknowns, at least one. `SomeSystem.read` admits nested
lists that describe one. Most systems are systems of integers; in others some places hold doubles,
or texts that spell integers. What a solve is planned from is the same for all of them, a `Profile`:
the integers that stand for the entries, and the residues of the matrix.

The right side is looked at late, when the solution is estimated; a place of it without an integer
stays open until then.
-/

namespace PadicLift

/-- What a solve is planned from. -/
structure Profile (n : Nat) where
  /-- The integers that stand for the entries of the matrix. -/
  matrix : Mat n n
  /-- The residues of the matrix for a modulus. -/
  residues : Nat → Except Fault (Mat n n)
  /-- The integers that stand for the right side. -/
  right : Except Fault (Vector Int n)

/-- The system `matrix * x = right` in `n` unknowns. -/
structure LinearSystem (n : Nat) where
  matrix : Mat n n
  right : Vector Int n
deriving DecidableEq, Repr

/-- A system of integers has them for its profile. -/
def LinearSystem.profile {n : Nat} (S : LinearSystem n) : Profile n :=
  ⟨S.matrix, fun p => .ok (S.matrix.reduce p), .ok S.right⟩

/-- A system whose numbers need not be integers. -/
structure MixedSystem (n : Nat) where
  rows : Vector (Vector Number n) n
  right : Vector Number n

/-- What stands in the places of a system. -/
inductive Contents (n : Nat)
  | integers (system : LinearSystem n)
  | numbers (system : MixedSystem n)
  /-- Something that cannot be calculated with. -/
  | other

/-- A system with its size. -/
structure SomeSystem where
  size : Nat
  profile : Profile size
  contents : Contents size

namespace SomeSystem

/-- A system of integers. -/
def ofLinear {n : Nat} (S : LinearSystem n) : SomeSystem := ⟨n, S.profile, .integers S⟩

/-- The system of numbers in the given places, which are expected to be `n * n` and `n` many. -/
def mixed (n : Nat) (entries right : List Number) : MixedSystem n :=
  let table := entries.toArray
  let column := right.toArray
  ⟨Vector.ofFn fun i => Vector.ofFn fun j => table.getD (i.val * n + j.val) (.whole 0),
    Vector.ofFn fun i => column.getD i.val (.whole 0)⟩

/-- The system with the given places in reading order. The first place of the matrix without an
integer is what fails. -/
def ofCells (n : Nat) (a b : List Nested) : Except Fault SomeSystem := do
  let entries ← a.mapM Nested.integer
  let profile : Profile n := {
    matrix := Nested.matOfList entries n n
    residues := fun p => (a.mapM (Nested.residue p)).map fun rs => Nested.matOfList rs n n
    right := (b.mapM Nested.integer).map fun vs => Nested.toVector vs n }
  match a.mapM Nested.number?, b.mapM Nested.number? with
  | some us, some vs => return ⟨n, profile, .numbers (mixed n us vs)⟩
  | _, _ => return ⟨n, profile, .other⟩

/-- Reads a system from nested lists; the right side may be nested in any way. -/
def read (a b : Nested) : Except Fault SomeSystem :=
  match a.shape with
  | [m, n] =>
    if m ≠ n ∨ m = 0 then .error (.argument (.notSquareSystem [m, n]))
    else
      let length := Nested.volume b.shape
      if length ≠ n then .error (.argument (.rightSideLength length n))
      else if a.isRegular ∧ b.isRegular then
        .ok (ofLinear ⟨a.readMat n n, Nested.toVector b.toList n⟩)
      else ofCells n a.cells b.cells
  | shape => .error (.argument (.notSquareSystem shape))

end SomeSystem
end PadicLift
