import PadicLift.Lifting.Run

/-!
# Runs under test

A trial is a run in which inverses of the matrix may have been replaced by arrays of other shapes.
A replacement is met only when a digit is taken: it has to have a product with the remainders, and
the product has to fit a column of the residues, where one number may stand for all places. What the
trial emits is the product as it is. A trial without such replacements takes the steps of its run.
-/

namespace PadicLift

/-- A run with replaced inverses. -/
structure Trial (n l : Nat) where
  run : Run n l
  /-- The replacements that are no matrices of the run's size, by the place of their prime. -/
  replaced : List (Nat × Tensor Int) := []

namespace Trial

variable {n l : Nat}

/-- Replaces the inverse of the matrix for one prime by the residues of some nested lists. -/
def replace (t : Trial n l) (j : Int) (B : Nested) : Except Fault (Trial n l) := do
  if !B.isRegular then .error .incompatibleShapes
  let words ← asWords B
  let i ← place l j
  let others := t.replaced.filter fun e => e.1 != i.val
  if words.shape = [n, n] then
    return ⟨t.run.replaceInverse i (words.readMat n n), others⟩
  else
    let residues := (Tensor.ofRegular words).map fun v => Int.fmod v (t.run.primes.get i)
    return { t with replaced := (i.val, residues) :: others }

/-! ## One step -/

/-- A digit as it is emitted, and the place that it takes in the residues: a row for each plane. -/
structure Digit where
  emitted : Tensor Int
  residues : Tensor Int

/-- The digit for one prime. -/
def digit (t : Trial n l) (remainders digits : Vector (Vector Int n) l) (j : Fin l) :
    Except Fault Digit := do
  let emitted ←
    match t.replaced.lookup j.val with
    | none => Except.ok (Tensor.ofVector (digits.get j))
    | some B => B.productMod (t.run.primes.get j) (Tensor.ofVector (remainders.get j))
  let residues ← emitted.fitInto 0 [t.run.basis.size, n]
  return ⟨emitted, residues⟩

/-- A digit as a vector, for the check in exact integers. A deeper one still has a product with the
matrix, but rows in place of numbers. -/
def aligned (digit : Tensor Int) (n : Nat) : Except Fault (Vector Int n) :=
  match digit.shape.reverse with
  | [m] => if m = n then .ok (Nested.toVector digit.cells.toList n) else .error .incompatibleShapes
  | _ :: m :: _ =>
    if m = n then .error .kindMismatch else .error .incompatibleShapes
  | [] => .error .incompatibleShapes

/-- Checks the correction for one prime as far as the settings ask for it. -/
def checkCorrection (run : Run n l) (p : Nat) (remainder : Vector Int n) (digit : Tensor Int)
    (correction : Vector Int n) : Except Fault Unit := do
  run.checkSize p correction
  if run.verifySteps then
    let vector ← aligned digit n
    run.checkExact p remainder vector correction

/-- The digits and the corrections of the next step. -/
def step (t : Trial n l) : Except Fault (List (Tensor Int) × Mat n l) := do
  let run := t.run
  let remainders := run.remainders
  let digits := run.digits
  let taken ← (List.finRange l).mapM fun j => t.digit remainders digits j
  let columns := (taken.map Digit.residues).toArray
  let residues : Planes run.basis.size n l := Vector.ofFn fun h => Mat.ofFn fun i j =>
    (columns.getD j.val ⟨[], #[]⟩).cell 0 [h.val, i.val]
  let corrections := run.correctionsFor remainders residues
  ((List.finRange l).zip taken).forM fun (j, d) =>
    checkCorrection run (run.primes.get j) (remainders.get j) d.emitted (corrections.column j)
  return (taken.map Digit.emitted, corrections)

/-- The digits of the next step for all primes, and the trial after it. -/
def next (t : Trial n l) : Except Fault (List (Tensor Int)) × Trial n l :=
  if t.replaced.isEmpty then
    let (digits, after) := t.run.next
    (digits.map fun ds => ds.toList.map Tensor.ofVector, { t with run := after })
  else
    match t.run.fault? with
    | some f => (.error f, t)
    | none =>
      match t.step with
      | .error f => (.error f, t)
      | .ok (digits, corrections) => (.ok digits, { t with run := t.run.advance corrections })

/-- The digits of all remaining steps. -/
def nextAll (t : Trial n l) : Except Fault (List (List (Tensor Int))) × Trial n l :=
  go (t.run.plan.iterations - t.run.position) t
where
  /-- The digits of `fuel` steps. -/
  go : Nat → Trial n l → Except Fault (List (List (Tensor Int))) × Trial n l
    | 0, t => (.ok [], t)
    | fuel + 1, t =>
      match t.next with
      | (.error f, after) => (.error f, after)
      | (.ok d, after) =>
        match go fuel after with
        | (.error f, last) => (.error f, last)
        | (.ok ds, last) => (.ok (d :: ds), last)

/-- Puts one number into all places of the table of inverses. -/
def fillTable (t : Trial n l) (v : Int) : Except Fault (Trial n l) :=
  (t.run.fillTable v).map fun run => { t with run }

/-- Ends a trial. -/
def close (t : Trial n l) : Trial n l := { t with run := t.run.close }

end Trial
end PadicLift
