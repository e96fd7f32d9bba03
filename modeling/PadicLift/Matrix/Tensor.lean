import PadicLift.Matrix.Nested

/-!
# Arrays of any depth

An array has a length at each level and one cell for every position. `ofNested` cuts nested lists at
the depth of their shape, so its cells are numbers exactly where the nesting is regular, and lists
where it is not.

Two arrays are matched from the innermost level outwards: lengths have to agree, and a length of 1
is repeated as often as needed (`joinShapes`, `spread`). `matMul` multiplies the matrices of the two
innermost levels and matches the levels around them.
-/

namespace PadicLift

/-- Lengths at each level, and the cells in reading order. -/
structure Tensor (α : Type) where
  shape : Shape
  cells : Array α
deriving Repr

namespace Tensor

variable {α β : Type}

/-! ## Positions -/

/-- All positions within a shape, in reading order. -/
def positions : Shape → List (List Nat)
  | [] => [[]]
  | n :: rest => (List.range n).flatMap fun i => (positions rest).map (i :: ·)

/-- The place of a position in reading order. -/
def offset (shape : Shape) (position : List Nat) : Nat :=
  (shape.zip position).foldl (fun s x => s * x.1 + x.2) 0

/-- The array with cell `f position` at every position. -/
def ofFn (shape : Shape) (f : List Nat → α) : Tensor α :=
  ⟨shape, ((positions shape).map f).toArray⟩

/-- The cell at a position; `other` stands for cells that are not there. -/
def cell (t : Tensor α) (other : α) (position : List Nat) : α :=
  t.cells.getD (offset t.shape position) other

/-- Applies `f` to every cell. -/
def map (f : α → β) (t : Tensor α) : Tensor β := ⟨t.shape, t.cells.map f⟩

/-- The part of an array that starts at `first` along one level and is at most `count` long. -/
def slice (t : Tensor α) (other : α) (level first count : Nat) : Tensor α :=
  ofFn (t.shape.modify level fun n => min count (n - first)) fun position =>
    t.cell other (position.modify level (first + ·))

/-! ## Matching -/

/-- The shape that two shapes, given from the inside out, have in common. -/
def joinReversed : Shape → Shape → Option Shape
  | [], bs => some bs
  | as, [] => some as
  | a :: as, b :: bs => do
    let rest ← joinReversed as bs
    if a = b ∨ b = 1 then some (a :: rest) else if a = 1 then some (b :: rest) else none

/-- The shape that two shapes have in common. -/
def joinShapes (s t : Shape) : Option Shape := (joinReversed s.reverse t.reverse).map List.reverse

/-- The position in an array of the given shape that a position of a larger array falls on. -/
def within (shape : Shape) (position : List Nat) : List Nat :=
  List.zipWith (fun n i => if n = 1 then 0 else i) shape
    (position.drop (position.length - shape.length))

/-- The array repeated to a larger shape. -/
def spread (t : Tensor α) (other : α) (shape : Shape) : Except Fault (Tensor α) :=
  if joinShapes t.shape shape = some shape then
    .ok (ofFn shape fun position => t.cell other (within t.shape position))
  else .error .incompatibleShapes

/-- Shapes whose outermost lengths of 1 beyond `depth` levels are left out. -/
def dropOuterOnes (depth : Nat) : Shape → Shape
  | 1 :: rest => if depth ≤ rest.length then dropOuterOnes depth rest else 1 :: rest
  | shape => shape

/-- The array written into a place of the given shape. -/
def fitInto (t : Tensor α) (other : α) (shape : Shape) : Except Fault (Tensor α) :=
  spread ⟨dropOuterOnes shape.length t.shape, t.cells⟩ other shape

/-- Combines two arrays cell by cell. -/
def combine (f : Int → Int → Int) (s t : Tensor Int) : Except Fault (Tensor Int) :=
  match joinShapes s.shape t.shape with
  | none => .error .incompatibleShapes
  | some shape =>
    .ok (ofFn shape fun position =>
      f (s.cell 0 (within s.shape position)) (t.cell 0 (within t.shape position)))

/-! ## Nested lists -/

/-- Nested lists as an array whose cells are what lies below their shape. -/
def ofNested (x : Nested) : Tensor Nested := ⟨x.shape, x.cells.toArray⟩

/-- Regular nested lists as an array of numbers. -/
def ofRegular (x : Nested) : Tensor Int := ⟨x.shape, x.toList.toArray⟩

/-- A vector as an array. -/
def ofVector {n : Nat} (v : Vector Int n) : Tensor Int := ⟨[n], v.toArray⟩

/-- Cells arranged by a shape. -/
def arrange : Shape → List Int → Nested
  | [], cells => .entry (cells.headD 0)
  | n :: rest, cells =>
    let size := Nested.volume rest
    .list ((List.range n).map fun i => arrange rest ((cells.drop (i * size)).take size))

/-- An array of numbers as nested lists. -/
def toNested (t : Tensor Int) : Nested := arrange t.shape t.cells.toList

/-! ## Products -/

/-- The product of the matrices of the two innermost levels, or of such matrices and a vector;
`dot` multiplies a row and a column. -/
def matMul (dot : List (Int × Int) → Int) (s t : Tensor Int) : Except Fault (Tensor Int) :=
  match s.shape.reverse, t.shape.reverse with
  | k :: outer, [r] =>
    if k ≠ r then .error .incompatibleShapes
    else
      .ok (ofFn outer.reverse fun position =>
        dot ((List.range k).map fun i => (s.cell 0 (position ++ [i]), t.cell 0 [i])))
  | k :: m :: outerS, n :: r :: outerT =>
    match joinReversed outerS outerT with
    | some outer =>
      if k ≠ r then .error .incompatibleShapes
      else
        .ok (ofFn (outer.reverse ++ [m, n]) fun position =>
          let around := position.take outer.length
          let rowOf := within outerS.reverse around ++ [position.getD outer.length 0]
          let columnOf := within outerT.reverse around
          dot ((List.range k).map fun i =>
            (s.cell 0 (rowOf ++ [i]),
              t.cell 0 (columnOf ++ [i, position.getD (outer.length + 1) 0]))))
    | none => .error .incompatibleShapes
  | _, _ => .error .incompatibleShapes

end Tensor
end PadicLift
