import PadicLift.Matrix.Tensor
import PadicLift.Number.Machine

/-!
# Products of cells

The cells of an array may be doubles or lists. A list is multiplied by an integer by repeating it
and added to another by appending, so an array of lists still has a product with a vector of
integers; only a number and a list have no sum.
-/

-- Powers take their instance from the core library, whatever else is in scope.
attribute [local instance (high)] instPowNat

namespace PadicLift
namespace Nested

/-- The longest list that a repetition makes. -/
def repetitionLimit : Nat := 2 ^ (24 : Nat)

/-- A cell times an integer. A list is repeated, no times for a negative number. -/
def scale (x : Nested) (factor : Int) : Except Fault Nested :=
  match x with
  | .list items =>
    if !isWord factor || decide (repetitionLimit < items.length * factor.toNat) then
      .error .overflow
    else .ok (.list (List.replicate factor.toNat items).flatten)
  | _ =>
    match x.number? with
    | some v => (v.mul (.whole factor)).map ofNumber
    | none => .error .kindMismatch

/-- The sum of two cells. -/
def add (x y : Nested) : Except Fault Nested :=
  match x, y with
  | .list xs, .list ys => .ok (.list (xs ++ ys))
  | _, _ =>
    match x.number?, y.number? with
    | some u, some v => (u.add v).map ofNumber
    | _, _ => .error .kindMismatch

/-- The inner product of cells and numbers, from left to right; without any it is 0. -/
def dot : List (Nested × Int) → Except Fault Nested
  | [] => .ok (.entry 0)
  | (x, u) :: rest => do
    let first ← x.scale u
    rest.foldlM (fun sum (y, v) => do sum.add (← y.scale v)) first

end Nested

/-- The product of an array and a vector: the cells of the innermost level are summed. -/
def Tensor.mulVec (a : Tensor Nested) (v : List Int) : Except Fault (Tensor Nested) :=
  match a.shape.reverse with
  | [] => do
    let cells ← v.mapM (a.cell (.entry 0) []).scale
    return ⟨[v.length], cells.toArray⟩
  | k :: outer =>
    if k ≠ v.length then .error .incompatibleShapes
    else do
      let numbers := v.toArray
      let cells ← (positions outer.reverse).mapM fun position =>
        Nested.dot ((List.range k).map fun i =>
          (a.cell (.entry 0) (position ++ [i]), numbers.getD i 0))
      return ⟨outer.reverse, cells.toArray⟩

/-- The members of an array. Those of an array with more than one level are rows, whatever they
hold. The single cell of an array without levels has to be a list, whose members are taken. -/
def Tensor.members (a : Tensor Nested) : Except Fault (List Nested) :=
  match a.shape with
  | [] =>
    match a.cell (.entry 0) [] with
    | .list items => .ok items
    | _ => .error .kindMismatch
  | [_] => .ok a.cells.toList
  | n :: _ => .ok (List.replicate n (.list []))

end PadicLift
