import PadicLift.Matrix.Basic
import PadicLift.Residue.Basis

/-!
# Matrices of residues

The residues of an integer matrix form one plane for each modulus. The planes hold doubles, so sums
and products are those of `Machine.double`; they are exact as long as inner products are summed in
blocks of `Basis.block` terms and reduced in between. `multiply` computes `β D + α A C` in all
planes, and `scale` multiplies every column by its own factor in each plane, which divides exactly
when the factors are inverses.

Products and scaled entries keep the sign that a remainder of doubles has; only `multiply` ends
with residues in `[0, q)`.

`multiplyIn` is the product as it is computed in storage that is used again and again. It clears the
running total, writes over the block, and leaves both behind for the next product.
-/

namespace PadicLift

/-- An `m × n` matrix of residues for each of `planes` moduli. -/
abbrev Planes (planes m n : Nat) := Vector (Mat m n) planes

/-- The storage that a product works in. -/
structure Workspace (planes m n : Nat) where
  /-- The running total. -/
  total : Planes planes m n
  /-- The products of one block. -/
  part : Planes planes m n
deriving DecidableEq, Repr

/-- Storage that holds zeros. -/
def Workspace.zero (planes m n : Nat) : Workspace planes m n :=
  ⟨Vector.replicate planes (Mat.zero m n), Vector.replicate planes (Mat.zero m n)⟩

/-- Puts zeros into the running total. -/
def Workspace.clear {planes m n : Nat} (work : Workspace planes m n) : Workspace planes m n :=
  { work with total := work.total.map fun plane => plane.map fun _ => 0 }

namespace Basis

variable {m n k : Nat}

/-- The residues of an integer matrix. -/
def encodeMat (b : Basis) (A : Mat m n) : Planes b.size m n :=
  b.moduli.map fun (q : Nat) => A.map fun v => Int.emod v q

/-- The integer matrix in the balanced range with the given residues. -/
def decodeMat (b : Basis) (X : Planes b.size m n) : Mat m n :=
  let M := b.product
  Mat.ofFn fun i j =>
    balanceIn M (Fin.foldl b.size
      (fun s h => s + (X.get h).entry i j * (b.weights.get h : Int)) 0)

/-- One entry of `β d + α a c` modulo `q`, from the pairs of the inner product `a c`. Without `β`
the entry `d` takes no part. -/
def multiplyEntry {α : Type} (M : Machine α) (block : Nat) (q alpha : α) (beta? : Option α) (d : α)
    (terms : List (α × α)) : α :=
  let product := M.blockedDot block q terms M.zero
  let scaled := M.rem (M.mul product alpha) q
  match beta? with
  | none => M.mod scaled q
  | some beta => M.mod (M.add scaled (M.rem (M.mul d beta) q)) q

/-- The residues of `β D + α A C` in `[0, q)`, in all planes. -/
def multiply (b : Basis) (D : Planes b.size m n) (A : Planes b.size m k)
    (C : Planes b.size k n) (alpha beta : Int) : Planes b.size m n :=
  let block := b.block
  Vector.ofFn fun h =>
    let q : Int := b.moduli.get h
    let beta? := if beta = 0 then none else some (Int.emod beta q)
    Mat.ofFn fun i j =>
      let terms := List.ofFn fun t : Fin k => ((A.get h).entry i t, (C.get h).entry t j)
      multiplyEntry Machine.double block q (Int.emod alpha q) beta? ((D.get h).entry i j) terms

/-! ## Products in place -/

/-- Works on all residues, each with the modulus of its plane. -/
def mapResidues (b : Basis) (f : Int → Int → Int) (X : Planes b.size m n) : Planes b.size m n :=
  Vector.ofFn fun h => (X.get h).map (f (b.moduli.get h : Int))

/-- Works on the residues in the same places of two matrices. -/
def zipResidues (b : Basis) (f : Int → Int → Int → Int) (X Y : Planes b.size m n) :
    Planes b.size m n :=
  Vector.ofFn fun h =>
    let q : Int := b.moduli.get h
    Mat.ofFn fun i j => f q ((X.get h).entry i j) ((Y.get h).entry i j)

/-- The products of one block, which begins at place `s` of the inner products. -/
def blockProduct (b : Basis) (A : Planes b.size m k) (C : Planes b.size k n) (s : Nat) :
    Planes b.size m n :=
  let M := Machine.double
  Vector.ofFn fun h =>
    let q : Int := b.moduli.get h
    Mat.ofFn fun i j =>
      let terms := List.ofFn fun t : Fin k => ((A.get h).entry i t, (C.get h).entry t j)
      M.rem (M.blockSum ((terms.drop s).take b.block)) q

theorem block_pos (b : Basis) : 0 < b.block := by
  unfold block Machine.blockLength
  omega

/-- Adds the blocks from place `s` on to the running total. -/
def addBlocks (b : Basis) (A : Planes b.size m k) (C : Planes b.size k n) (s : Nat)
    (work : Workspace b.size m n) : Workspace b.size m n :=
  let M := Machine.double
  if _h : s < k then
    let part := b.blockProduct A C s
    let total := b.zipResidues (fun q x y => M.rem (M.add x y) q) work.total part
    b.addBlocks A C (s + b.block) ⟨total, part⟩
  else work
termination_by k - s
decreasing_by
  have := b.block_pos
  omega

/-- The residues of `β D + α A C` in `[0, q)`, in all planes, and the storage after the product. -/
def multiplyIn (b : Basis) (work : Workspace b.size m n) (D : Planes b.size m n)
    (A : Planes b.size m k) (C : Planes b.size k n) (alpha beta : Int) :
    Planes b.size m n × Workspace b.size m n :=
  let M := Machine.double
  let summed := b.addBlocks A C 0 work.clear
  let scaled := b.mapResidues (fun q x => M.rem (M.mul x (Int.emod alpha q)) q) summed.total
  let total :=
    if beta = 0 then scaled
    else b.zipResidues (fun q x d => M.add x (M.rem (M.mul d (Int.emod beta q)) q)) scaled D
  (b.mapResidues (fun q x => M.mod x q) total, { summed with total })

/-! ## Factors for columns -/

/-- One residue times a factor, modulo `q`. -/
def scaleEntry {α : Type} (M : Machine α) (q x factor : α) : α := M.rem (M.mul x factor) q

/-- Multiplies every column by its factor, modulo `q`. -/
def scalePlane (q : Nat) (X : Mat m n) (factors : Vector Int n) : Mat m n :=
  Mat.ofFn fun i j => scaleEntry Machine.double (q : Int) (X.entry i j) (factors.get j)

/-- Multiplies column `j` of plane `h` by entry `(h, j)` of a table. -/
def scale (b : Basis) (X : Planes b.size m n) (table : Mat b.size n) : Planes b.size m n :=
  Vector.ofFn fun h => scalePlane (b.moduli.get h) (X.get h) (table.row h)

/-- The same column of numbers in every plane. -/
def spread (b : Basis) (columns : Vector (Vector Int m) n) : Planes b.size m n :=
  Vector.replicate b.size (Mat.ofColumns columns)

end Basis
end PadicLift
