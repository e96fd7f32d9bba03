import PadicLift.Lifting.Run

/-!
# Steps in place

A container holds a run and the arrays that its steps write over: quotients, remainders and digits,
the residues of remainders and digits, and the residuals after the step. A step goes through the
primes twice. The first pass fills the arrays up to the product; the second one checks the
correction for each prime and adds it to the quotient. Only when both passes are through do the
residuals change places with the new ones. A step that fails leaves the arrays partly written, and
the next step finds them so.
-/

namespace PadicLift

/-- The arrays that a step for `l` primes writes over, with `k` planes of residues. -/
structure Buffers (k n l : Nat) where
  quotients : Vector (Vector Int n) l
  remainders : Vector (Vector Int n) l
  /-- The remainders as words. -/
  words : Vector (Vector Int n) l
  digits : Vector (Vector Int n) l
  /-- The residues of the remainders, then those of the corrections. -/
  product : Planes k n l
  /-- The residues of the digits. -/
  factors : Planes k n l
  /-- What the product of the residues works in. -/
  work : Workspace k n l
  /-- The residuals after the step. -/
  spare : Vector (Vector Int n) l

/-- Puts the same numbers into column `j` of every plane. -/
def Buffers.setColumn {k m n : Nat} (X : Planes k m n) (j : Fin n) (values : Vector Int m) :
    Planes k m n :=
  X.map fun plane => Mat.ofFn fun i c => if c = j then values.get i else plane.entry i c

/-- Arrays that hold zeros. -/
def Buffers.zero (k n l : Nat) : Buffers k n l :=
  let columns := Vector.replicate l (Vector.replicate n 0)
  let planes := Vector.replicate k (Mat.zero n l)
  ⟨columns, columns, columns, columns, planes, planes, .zero k n l, columns⟩

/-- A run with the arrays that its steps write over. -/
structure Container (n l : Nat) where
  run : Run n l
  buffers : Buffers run.basis.size n l

namespace Container

variable {n l : Nat}

/-- A run with new arrays. -/
def ofRun (run : Run n l) : Container n l := ⟨run, .zero ..⟩

/-! ## One step -/

/-- The first pass at one prime: divides the residual, takes the digit of the remainder, and puts
both into the residues. -/
def prepare (run : Run n l) (x : Buffers run.basis.size n l) (j : Fin l) :
    Buffers run.basis.size n l :=
  let p := run.primes.get j
  let residual := run.residuals.get j
  let quotient := residual.map fun v => Int.fdiv v p
  let remainder := residual.map fun v => Int.fmod v p
  let x := { x with quotients := x.quotients.set j.val quotient j.isLt }
  let x := { x with remainders := x.remainders.set j.val remainder j.isLt }
  let x := { x with words := x.words.set j.val (x.remainders.get j) j.isLt }
  let digit := (run.inverses.get j).mulVecMod p (x.words.get j)
  { x with
    digits := x.digits.set j.val digit j.isLt
    product := Buffers.setColumn x.product j (x.words.get j)
    factors := Buffers.setColumn x.factors j digit }

/-- Replaces the residues of the remainders by those of the corrections. -/
def multiply (run : Run n l) (x : Buffers run.basis.size n l) : Buffers run.basis.size n l :=
  let b := run.basis
  let (product, work) := b.multiplyIn x.work x.product run.residues x.factors (-1) 1
  { x with product := b.scale product run.table, work }

/-- The second pass at some primes: checks the correction and adds it to the quotient. The first
correction that fails its check ends the pass. -/
def settle (run : Run n l) (corrections : Mat n l) :
    List (Fin l) → Buffers run.basis.size n l → Except Fault Unit × Buffers run.basis.size n l
  | [], x => (.ok (), x)
  | j :: rest, x =>
    let checked := run.checkCorrection (run.primes.get j) (x.remainders.get j) (x.digits.get j)
      (corrections.column j)
    match checked with
    | .error f => (.error f, x)
    | .ok _ =>
      let residual := Vector.ofFn fun i => (x.quotients.get j).get i + corrections.entry i j
      settle run corrections rest { x with spare := x.spare.set j.val residual j.isLt }

/-- The end of a step: the residuals and the new ones change places. -/
def exchange (run : Run n l) (x : Buffers run.basis.size n l) : Container n l where
  run := { run.record (Run.largestBits x.spare) with residuals := x.spare }
  buffers := { x with spare := run.residuals }

/-- The digits of the next step for all primes, and the container after it. -/
def next (x : Container n l) : Except Fault (Vector (Vector Int n) l) × Container n l :=
  match x.run.fault? with
  | some f => (.error f, x)
  | none =>
    let buffers := multiply x.run ((List.finRange l).foldl (prepare x.run) x.buffers)
    let corrections := x.run.basis.decodeMat buffers.product
    match settle x.run corrections (List.finRange l) buffers with
    | (.error f, buffers) => (.error f, ⟨x.run, buffers⟩)
    | (.ok _, buffers) => (.ok buffers.digits, exchange x.run buffers)

/-! ## Other operations -/

/-- A copy of the residual of one prime. -/
def residual (x : Container n l) (j : Int) : Except Fault (Vector Int n) := x.run.residual j

/-- Puts whole numbers into the table of inverses, by plane and prime. They may be of any size; the
corrections that come out of numbers beyond `2 ^ 997` are those of `Machine.double`, which does not
overflow. -/
def overwrite (x : Container n l) (entries : Nat → Nat → Int) : Container n l where
  run := { x.run with table := Mat.ofFn fun h j => entries h j }
  buffers := x.buffers

/-- Ends the run. -/
def close (x : Container n l) : Container n l := ⟨x.run.close, x.buffers⟩

end Container
end PadicLift
