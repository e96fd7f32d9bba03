import PadicLift.Matrix.Tensor
import PadicLift.Residue.Planes

/-!
# Residue buffers

A buffer is a matrix of residues whose sizes are known only when the program runs, so every
operation first checks that sizes and positions fit. Where an operation stops half-way the buffer is
returned as the operation left it. Products work in a `Scratch`, which may be used again and again.
-/

namespace PadicLift

/-- Residues with their sizes. -/
structure Buffer where
  planes : Nat
  rows : Nat
  cols : Nat
  data : Planes planes rows cols

/-- The storage for products, with its sizes. -/
structure Scratch where
  planes : Nat
  rows : Nat
  cols : Nat
  contents : Workspace planes rows cols

/-- New storage for products of the given sizes. -/
def Scratch.ofSizes (b : Basis) (rows cols : Nat) : Scratch :=
  ⟨b.size, rows, cols, .zero b.size rows cols⟩

namespace Buffer

/-- The sizes from the outside in. -/
def shape (x : Buffer) : Shape := [x.planes, x.rows, x.cols]

/-- All residues, by plane and row. -/
def toLists (x : Buffer) : List (List (List Int)) := x.data.toList.map Mat.toLists

/-- The distances in bytes between neighbours in each direction. A buffer without residues has none
to tell apart, and all its distances are 0. -/
def strides (x : Buffer) : List Nat :=
  if x.shape.contains 0 then x.shape.map fun _ => 0
  else
    let cell := 8
    [cell * x.cols * x.rows, cell * x.cols, cell]

/-! ## Making buffers -/

/-- A buffer of zeros. -/
def zeros (b : Basis) (rows cols : Nat) : Buffer :=
  ⟨b.size, rows, cols, Vector.replicate b.size (Mat.zero rows cols)⟩

/-- Numbers of rows and of columns, neither of which may be negative. -/
def checkSizes (rows cols : Int) : Except Fault (Nat × Nat) :=
  if rows < 0 ∨ cols < 0 then .error .incompatibleShapes else .ok (rows.toNat, cols.toNat)

/-- The shape of the workspace for products of the given sizes. -/
def workspaceShape (b : Basis) (sizes : Nat × Nat) : Shape := [2, b.size, sizes.1, sizes.2]

/-- A buffer of zeros, if its sizes are not negative. -/
def ofSizes (b : Basis) (rows cols : Int) : Except Fault Buffer :=
  (checkSizes rows cols).map fun sizes => zeros b sizes.1 sizes.2

/-- Numbers as doubles. -/
def asDoubles (x : Nested) : Except Fault Nested :=
  if !x.isRegular then .error .incompatibleShapes
  else if x.toList.all Binary64.isInRange then .ok (x.map Binary64.roundInt)
  else .error .overflow

/-- A buffer with the given residues, as doubles. -/
def ofNested (source : Nested) : Except Fault Buffer := do
  let x ← asDoubles source
  match x.shape with
  | [k, m, n] =>
    let table := (x.items.map fun plane => plane.readMat m n).toArray
    return ⟨k, m, n, Vector.ofFn fun h => table.getD h.val (Mat.zero m n)⟩
  | shape => .error (.argument (.notPlanes shape))

/-- The shape of a source of integers; a list of numbers is a column. -/
def sourceShape (x : Nested) : Shape :=
  match x.shape with
  | [m] => [m, 1]
  | shape => shape

/-- The integer matrix that a source of the given sizes describes. -/
def sourceMat (x : Nested) (m n : Nat) : Mat m n :=
  match x.shape with
  | [_] => let v := Nested.toVector x.toList m; Mat.ofFn fun i _ => v.get i
  | _ => x.readMat m n

/-- Why a cell of a source is refused under a bound: an integer that reaches it, or no integer. -/
def boundFault (bound : Int) (cell : Nested) : Option Fault :=
  match cell.integer with
  | .ok v => if bound ≤ v.natAbs then some (.precondition .withinBound) else none
  | .error f => some f

/-- Writes the residues of an integer matrix into a buffer. With a bound, every absolute value must
lie below it; the first cell that is refused stops the operation. -/
def fill (b : Basis) (x : Buffer) (source : Nested) (bound : Option Int) :
    Except Fault Unit × Buffer :=
  if sourceShape source ≠ [x.rows, x.cols] then
    (.error (.precondition (.sameShape (sourceShape source) [x.rows, x.cols])), x)
  else
    let refused :=
      match bound with
      | none => none
      | some limit =>
        source.cells.findSome? (boundFault limit)
    match refused with
    | some f => (.error f, x)
    | none =>
      if !source.isRegular then (.error .kindMismatch, x)
      else
        let residues := b.encodeMat (sourceMat source x.rows x.cols)
        let data := Vector.ofFn fun h : Fin x.planes =>
          if hb : h.val < b.size then residues.get ⟨h.val, hb⟩ else x.data.get h
        let written := { x with data }
        (if x.planes < b.size then .error .indexOutOfRange else .ok (), written)

/-- A new buffer with the residues of an integer matrix. -/
def ofSource (b : Basis) (source : Nested) (bound : Option Int) : Except Fault Buffer :=
  match sourceShape source with
  | m :: n :: _ =>
    let (result, x) := fill b (zeros b m n) source bound
    result.map fun _ => x
  | _ => .error .indexOutOfRange

/-- The integers that a buffer's residues stand for, taken as words. Planes past those of the basis
are not looked at. -/
def toIntegers (b : Basis) (x : Buffer) : Except Fault (Mat x.rows x.cols) :=
  if h : b.size ≤ x.planes then
    .ok (b.decodeMat (Vector.ofFn fun i => (x.data.get ⟨i.val, by omega⟩).map Machine.truncate))
  else .error .indexOutOfRange

/-! ## Arithmetic -/

/-- The same residues, where the sizes are known to be others by name only. -/
def renamed {k m n k' m' n' : Nat} (X : Planes k m n) (h : k = k' ∧ m = m' ∧ n = n') :
    Planes k' m' n' :=
  Vector.ofFn fun p =>
    let plane := X.get (p.cast h.1.symm)
    Mat.ofFn fun i j => plane.entry (i.cast h.2.1.symm) (j.cast h.2.2.symm)

/-- Replaces `dst` by `β dst + α a c`. The storage, which must be as large as `dst`, may hold
anything before, and is returned as the product leaves it. -/
def multiplyIn (b : Basis) (dst a c : Buffer) (alpha beta : Int) (work : Scratch) :
    Except Fault (Buffer × Scratch) :=
  if h : (c.rows = a.cols ∧ dst.rows = a.rows ∧ dst.cols = c.cols) ∧
      (a.planes = b.size ∧ c.planes = b.size ∧ dst.planes = b.size) ∧
      (work.planes = dst.planes ∧ work.rows = dst.rows ∧ work.cols = dst.cols) then
    let D : Planes b.size dst.rows dst.cols := renamed dst.data ⟨h.2.1.2.2, rfl, rfl⟩
    let A : Planes b.size dst.rows a.cols := renamed a.data ⟨h.2.1.1, h.1.2.1.symm, rfl⟩
    let C : Planes b.size a.cols dst.cols := renamed c.data ⟨h.2.1.2.1, h.1.1, h.1.2.2.symm⟩
    let sizes := ⟨h.2.2.1.trans h.2.1.2.2, h.2.2.2⟩
    let W : Workspace b.size dst.rows dst.cols :=
      ⟨renamed work.contents.total sizes, renamed work.contents.part sizes⟩
    let (product, after) := b.multiplyIn W D A C alpha beta
    .ok (⟨b.size, dst.rows, dst.cols, product⟩, ⟨b.size, dst.rows, dst.cols, after⟩)
  else .error (.precondition .sizes)

/-- Replaces `dst` by `β dst + α a c`, in new storage. Where its sizes are given they must be those
of `dst`. -/
def multiply (b : Basis) (dst a c : Buffer) (alpha beta : Int) (workspace : Option (Nat × Nat)) :
    Except Fault Buffer :=
  let sizes := workspace.getD (dst.rows, dst.cols)
  (multiplyIn b dst a c alpha beta (.ofSizes b sizes.1 sizes.2)).map Prod.fst

/-- Multiplies every column by its factor in each plane. A basis with one modulus serves any number
of planes. -/
def scale (b : Basis) (x : Buffer) (table : List (List Int)) : Except Fault Buffer :=
  if table.length ≠ b.size ∨ table.any (fun row => row.length != x.cols) then
    .error (.precondition .sizes)
  else if x.planes ≠ b.size ∧ b.size ≠ 1 then .error .incompatibleShapes
  else
    let moduli := b.moduli.toList
    let data := Vector.ofFn fun h : Fin x.planes =>
      let g := if b.size = 1 then 0 else h.val
      let factors := Nested.toVector (table.getD g []) x.cols
      Basis.scalePlane (moduli.getD g 1) (x.data.get h) factors
    .ok { x with data }

/-! ## Positions -/

/-- A row and a column of a buffer. -/
def checkPosition (x : Buffer) (i j : Int) : Except Fault (Fin x.rows × Fin x.cols) :=
  if hi : 0 ≤ i ∧ i < x.rows then
    if hj : 0 ≤ j ∧ j < x.cols then
      .ok (⟨i.toNat, by omega⟩, ⟨j.toNat, by omega⟩)
    else .error (.precondition (.column j x.cols))
  else .error (.precondition (.row i x.rows))

/-- The residues of one entry, by plane. -/
def element (x : Buffer) (i j : Int) : Except Fault (List Int) := do
  let (r, c) ← x.checkPosition i j
  return x.data.toList.map fun plane => plane.entry r c

/-- The residues for one modulus, by row. -/
def plane (x : Buffer) (h : Int) : Except Fault (List (List Int)) :=
  if hh : 0 ≤ h ∧ h < x.planes then .ok (x.data.get ⟨h.toNat, by omega⟩).toLists
  else .error (.precondition (.plane h x.planes))

/-- The residues of one column, by plane. -/
def column (x : Buffer) (j : Int) : Except Fault (List (List Int)) := do
  let (_, c) ← x.checkPosition 0 j
  return x.data.toList.map fun plane => (plane.column c).toList

/-- Puts one number into all planes of an entry. -/
def setElement (x : Buffer) (i j value : Int) : Except Fault Buffer := do
  let (r, c) ← x.checkPosition i j
  if !Binary64.isInRange value then .error .overflow
  let v := Binary64.roundInt value
  let data := x.data.map fun plane =>
    Mat.ofFn fun i j => if i = r ∧ j = c then v else plane.entry i j
  return { x with data }

/-- Puts numbers into a column of all planes: one list for every plane, one for each plane, or a
single number for all places. The planes are one level more than the lists have, so an array of
`maxLevels` levels is too deep. -/
def setColumn (x : Buffer) (j : Int) (values : Nested) : Except Fault Buffer := do
  let (_, c) ← x.checkPosition 0 j
  let doubles ← asDoubles values
  if doubles.shape = [] ∨ doubles.shape.length = Nested.maxLevels then .error .indexOutOfRange
  let column ← (Tensor.ofRegular doubles).fitInto 0 [x.planes, x.rows]
  let data : Planes x.planes x.rows x.cols := Vector.ofFn fun h =>
    Mat.ofFn fun i j => if j = c then column.cell 0 [h.val, i.val] else (x.data.get h).entry i j
  return { x with data }

end Buffer
end PadicLift
