import PadicLift.Lifting.Run

/-!
# Runs over mixed numbers

A system whose numbers need not be integers is lifted by the steps of a run over integers. Residuals
keep their doubles: quotients, remainders and sums are those of `Number`. Only where a step needs an
integer or a word is the fraction left out: in the remainder that the digit is computed from, and in
the residues of a correction. The residues of the matrix are doubles with their fractions.

For fractions the correction is no exact quotient, and nothing is promised of the digits. Whole
doubles lose nothing while they stay below `2 ^ 53`.
-/

namespace PadicLift

/-- A run for `n` unknowns and `l` primes over mixed numbers. -/
structure MixedRun (n l : Nat) where
  /-- The run for the integers that stand for the system, whose residuals are not used. -/
  run : Run n l
  system : MixedSystem n
  residuals : Vector (Vector Number n) l

namespace MixedRun

variable {n l : Nat}

/-- A run before its first step. -/
def start (S : MixedSystem n) (L : LinearSystem n) (settings : Settings) (plan : Plan n) :
    Except Fault (MixedRun n plan.channels.length) := do
  let run ← Run.start L settings plan
  return ⟨run, S, Vector.replicate _ S.right⟩

/-! ## One step -/

/-- The quotients of the residuals by their primes. -/
def quotients (x : MixedRun n l) : Vector (Vector Number n) l :=
  Vector.ofFn fun j => (x.residuals.get j).map fun v => v.floorDiv (x.run.primes.get j)

/-- The remainders of the residuals for their primes. -/
def remainders (x : MixedRun n l) : Vector (Vector Number n) l :=
  Vector.ofFn fun j => (x.residuals.get j).map fun v => v.rem (x.run.primes.get j)

/-- The remainders without their fractions. -/
def wholeRemainders (x : MixedRun n l) : Except Fault (Vector (Vector Int n) l) :=
  x.remainders.mapM fun column => column.mapM Number.integer

/-- The digits of the residuals with the given remainders. -/
def digits (x : MixedRun n l) (remainders : Vector (Vector Int n) l) :
    Vector (Vector Int n) l :=
  Vector.ofFn fun j => (x.run.inverses.get j).mulVecMod (x.run.primes.get j) (remainders.get j)

/-- The residues of the matrix for one modulus. -/
def plane (x : MixedRun n l) (q : Nat) : Vector (Vector Rat n) n :=
  x.system.rows.map fun row => row.map fun v => (v.rem q).value

/-- The residue of one entry of a correction. -/
def correctionResidue (x : MixedRun n l) (h : Fin x.run.basis.size) (row : Vector Rat n)
    (remainder : Int) (digit : Vector Int n) (j : Fin l) : Int :=
  let M := Machine.fraction
  let q : Rat := (x.run.basis.moduli.get h : Int)
  let terms := (row.zip digit).toList.map fun (u, v) => (u, (v : Rat))
  let product := Basis.multiplyEntry M x.run.basis.block q (q - 1) (some 1) remainder terms
  let factor : Rat := x.run.table.entry h j
  Binary64.truncate (Basis.scaleEntry M q product factor)

/-- The corrections for given remainders and digits: one column for each prime. -/
def corrections (x : MixedRun n l) (remainders digits : Vector (Vector Int n) l) : Mat n l :=
  let b := x.run.basis
  b.decodeMat (Vector.ofFn fun h =>
    let plane := x.plane (b.moduli.get h)
    Mat.ofFn fun i j =>
      x.correctionResidue h (plane.get i) ((remainders.get j).get i) (digits.get j) j)

/-! ## Checks -/

/-- The product of a row and a digit, summed from left to right. -/
def dot (row : Vector Number n) (digit : Vector Int n) : Except Fault Number :=
  match (row.zip digit).toList with
  | [] => .ok (.whole 0)
  | (u, v) :: rest => do
    let first ← u.mul (.whole v)
    rest.foldlM (fun sum (u, v) => do sum.add (← u.mul (.whole v))) first

/-- The numbers that a correction times the prime stands for. -/
def exact (x : MixedRun n l) (remainder : Vector Number n) (digit : Vector Int n) :
    Except Fault (List Number) := do
  let products ← x.system.rows.toList.mapM fun row => dot row digit
  (remainder.toList.zip products).mapM fun (u, v) => u.sub v

/-- An integer without remainder for a prime. -/
def divisible (x : MixedRun n l) (p : Nat) (v : Number) : Except Fault Int := do
  let whole ← v.integer
  if Int.fmod whole p ≠ 0 then .error (.lifting (.indivisible p x.run.position))
  return whole

/-- Checks the correction for one prime as far as the settings ask for it. -/
def checkCorrection (x : MixedRun n l) (p : Nat) (remainder : Vector Number n)
    (digit correction : Vector Int n) : Except Fault Unit := do
  x.run.checkSize p correction
  if x.run.verifySteps then
    let exact ← x.exact remainder digit
    let wholes ← exact.mapM (x.divisible p)
    if (wholes.map fun v => Int.fdiv v p) ≠ correction.toList then
      .error (.lifting (.correctionMismatch p x.run.position))

/-! ## Steps -/

/-- Bits of the largest absolute value of an integer that stands for a residual. -/
def largestBits (residuals : Vector (Vector Number n) l) : Nat :=
  let bits (v : Number) : Nat :=
    match v.integer with
    | .ok whole => PrimeSource.bitLength whole.natAbs
    | .error _ => 0
  residuals.toList.foldl (fun s r => r.toList.foldl (fun s v => max s (bits v)) s) 0

/-- The digits of the next step for all primes, and the run after it. A correction is checked before
it is added, prime by prime. -/
def next (x : MixedRun n l) : Except Fault (Vector (Vector Int n) l × MixedRun n l) := do
  let quotients := x.quotients
  let remainders := x.remainders
  let wholes ← x.wholeRemainders
  let digits := x.digits wholes
  let corrections := x.corrections wholes digits
  let residuals ← (Vector.finRange l).mapM fun j => do
    let correction := corrections.column j
    x.checkCorrection (x.run.primes.get j) (remainders.get j) (digits.get j) correction
    ((quotients.get j).zip correction).mapM fun (u, v) => u.add (.whole v)
  return (digits, { x with run := x.run.record (largestBits residuals), residuals })

end MixedRun
end PadicLift
