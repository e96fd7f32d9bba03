import PadicLift.Modular.Reduce

/-!
# Blocked products modulo an integer

Products of matrices and vectors of 64-bit words. The inner dimension is split into blocks of
`wordBlock p` terms, so that for residues below a modulus up to `maxModulus` no sum leaves the
range of a word.
-/

namespace PadicLift

/-- The number of products of residues below `p` that one word can sum. -/
def wordBlock (p : Int) : Nat := Machine.blockLength Machine.wordCapacity p

namespace Mat

variable {m n k : Nat}

/-- The product of two matrices of words modulo `p`. -/
def mulMod (p : Int) (A : Mat m k) (B : Mat k n) : Mat m n :=
  ofFn fun i j =>
    let terms := List.ofFn fun t : Fin k => (A.entry i t, B.entry t j)
    Machine.word.blockedDot (wordBlock p) p terms 0

/-- The product of a matrix and a vector of words modulo `p`. -/
def mulVecMod (p : Int) (A : Mat m k) (v : Vector Int k) : Vector Int m :=
  Vector.ofFn fun i =>
    let terms := List.ofFn fun t : Fin k => (A.entry i t, v.get t)
    Machine.word.blockedDot (wordBlock p) p terms 0

/-- Whether `B` is the inverse of `A` modulo `p`, for reduced matrices. -/
def isInverseMod (p : Int) (A B : Mat n n) : Bool := A.mulMod p B == identity n

end Mat

/-! ## Arrays -/

/-- One block of a product modulo `p`: columns of the first array against rows of the second. -/
def Tensor.blockProduct (p : Int) (a b : Tensor Int) (first count : Nat) :
    Except Fault (Tensor Int) := do
  let part ← matMul (Machine.word.blockSum ·) (a.slice 0 1 first count) (b.slice 0 0 first count)
  if isWord p then return part.map fun v => Machine.word.rem v p else .error .overflow

/-- The product of two arrays of words modulo `p`. Blocks are cut along the second level of the
first array and along the first level of the second one. -/
def Tensor.productMod (p : Int) (a b : Tensor Int) : Except Fault (Tensor Int) :=
  match a.shape, b.shape with
  | m :: 0 :: _, shape => .ok (ofFn (m :: shape.drop 1) fun _ => 0)
  | _ :: _ :: _, [] => .error .indexOutOfRange
  | _ :: k :: _, _ => do
    let block := wordBlock p
    let first ← blockProduct p a b 0 block
    let later := (List.range ((k - 1) / block)).map fun i => (i + 1) * block
    later.foldlM
      (fun total s => do
        let part ← blockProduct p a b s block
        total.combine (fun x y => Machine.word.rem (Machine.word.add x y) p) part)
      first
  | _, _ => .error .indexOutOfRange

/-! ## Nested lists -/

/-- Whether blocks of `block` columns of a matrix with `k` columns meet as many rows each. Rows past
the last block are not looked at. -/
def blocksMeet (block k rows : Nat) : Bool := k == rows || (decide (k ≤ rows) && k % block == 0)

/-- The product of regular nested lists modulo `p`. -/
def productRegular (a b : Nested) (p : Int) : Except Fault Nested :=
  let general := ((Tensor.ofRegular a).productMod p (Tensor.ofRegular b)).map Tensor.toNested
  match a.shape, b.shape with
  | [m, k], [r] =>
    if k = r ∧ isWord p then
      let v := (a.readMat m k).mulVecMod p (Nested.toVector b.toList k)
      .ok (.list (v.toList.map .entry))
    else general
  | [m, k], [r, c] =>
    if k = r ∧ isWord p then
      let M := (a.readMat m k).mulMod p (b.readMat k c)
      .ok (.list (M.toLists.map fun row => .list (row.map .entry)))
    else general
  | _, _ => general

/-- The product of two nested lists of words modulo `p`; the second may be a vector, and matrices
may lie at the innermost levels of either. -/
def productMod (a b : Nested) (p : Int) : Except Fault Nested := do
  if !a.isRegular then .error .incompatibleShapes
  let _ ← asWords a
  if !b.isRegular then .error .incompatibleShapes
  let _ ← asWords b
  productRegular a b p

/-- Whether two nested lists are inverse to each other modulo `p`; each may be handed over as a
plain list. Nested lists of different shapes, matrices that are not square, and lists of matrices
never are; lists of matrices are multiplied before they are found not to be. -/
def areInverseAs (plainA plainB : Bool) (a b : Nested) (p : Int) : Except Fault Bool := do
  let ra ← reduce plainA a p
  let rb ← reduce plainB b p
  if ra.shape ≠ rb.shape then return false
  match ra.shape with
  | m :: n :: deeper =>
    if m ≠ n then return false
    else if deeper = [] ∧ isWord p then
      return (ra.readMat n n).isInverseMod p (rb.readMat n n)
    else
      let _ ← productRegular ra rb p
      return false
  | _ => .error .indexOutOfRange

/-- Whether two nested lists of exact integers are inverse to each other modulo `p`. -/
def areInverse (a b : Nested) (p : Int) : Except Fault Bool := areInverseAs false false a b p

end PadicLift
