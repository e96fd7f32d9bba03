import PadicLift.Plan
import PadicLift.Position
import PadicLift.Residue.Planes

/-!
# Lifting runs

A run lifts the solution of `A x = b` for all lifting primes at once. Each step divides every
residual `r` by its prime with quotient `q` and remainder `s`, emits the digit `c = B s` modulo the
prime, where `B` is the inverse of `A`, and goes on with the residual `q + (s - A c) / p`. The
correction `(s - A c) / p` is found in residues: one product for all primes in every plane, scaled
by the inverses of the primes, and decoded.

A step that fails one of its checks leaves the run as it was; so do steps after the last digit and
after closing. The table of inverses and the matrices `B` are parts of the run that can be replaced,
so that the checks can be put to the test.
-/

namespace PadicLift

/-- What is recorded about a step. -/
structure StepRecord where
  /-- The number of the step, from 1. -/
  iteration : Nat
  /-- The number of steps of the whole run. -/
  total : Nat
  /-- Bits of the largest entry of a residual after the step. -/
  residualBits : Nat
deriving DecidableEq, Repr

/-- A run for `n` unknowns and `l` primes. -/
structure Run (n l : Nat) where
  system : LinearSystem n
  plan : Plan n
  checkBounds : Bool
  verifySteps : Bool
  basis : Basis
  /-- The residues of the matrix. -/
  residues : Planes basis.size n n
  /-- The inverse of every prime for every modulus of the basis. -/
  table : Mat basis.size l
  primes : Vector Nat l
  /-- The inverse of the matrix modulo every prime. -/
  inverses : Vector (Mat n n) l
  residuals : Vector (Vector Int n) l
  /-- The number of digits emitted so far. -/
  position : Nat
  /-- The records of all steps so far. -/
  trace : List StepRecord
  isOpen : Bool

namespace Run

variable {n l : Nat}

/-- A run before its first step. -/
def start (S : LinearSystem n) (settings : Settings) (plan : Plan n) :
    Except Fault (Run n plan.channels.length) := do
  let basis ← Basis.ofList (plan.basis.map Int.ofNat)
  let rows ← basis.inverseTable (plan.primes.map Int.ofNat)
  let table := (rows.map List.toArray).toArray
  return {
    system := S
    plan := plan
    checkBounds := settings.checksBounds
    verifySteps := settings.verifies
    basis := basis
    residues := basis.encodeMat S.matrix
    table := Mat.ofFn fun h j => (table.getD h.val #[]).getD j.val 0
    primes := Vector.ofFn fun j => (plan.channels.get j).prime
    inverses := Vector.ofFn fun j => (plan.channels.get j).inverse
    residuals := Vector.replicate _ S.right
    position := 0
    trace := []
    isOpen := true }

/-! ## One step -/

/-- The quotients of the residuals by their primes. -/
def quotients (run : Run n l) : Vector (Vector Int n) l :=
  Vector.ofFn fun j => (run.residuals.get j).map fun v => Int.fdiv v (run.primes.get j)

/-- The remainders of the residuals for their primes. -/
def remainders (run : Run n l) : Vector (Vector Int n) l :=
  Vector.ofFn fun j => (run.residuals.get j).map fun v => Int.fmod v (run.primes.get j)

/-- The digits of the residuals. -/
def digits (run : Run n l) : Vector (Vector Int n) l :=
  let remainders := run.remainders
  Vector.ofFn fun j => (run.inverses.get j).mulVecMod (run.primes.get j) (remainders.get j)

/-- The corrections for given remainders and given residues of the digits: one column for each
prime. -/
def correctionsFor (run : Run n l) (remainders : Vector (Vector Int n) l)
    (residues : Planes run.basis.size n l) : Mat n l :=
  let b := run.basis
  let product := b.multiply (b.spread remainders) run.residues residues (-1) 1
  b.decodeMat (b.scale product run.table)

/-- The corrections for given remainders and digits. -/
def corrections (run : Run n l) (remainders digits : Vector (Vector Int n) l) : Mat n l :=
  run.correctionsFor remainders (run.basis.spread digits)

/-- The largest absolute value that an exact correction can have. -/
def correctionBound (run : Run n l) : Nat := n * run.plan.norm + 1

/-- The exact numbers that a correction times the prime stands for. -/
def exact (run : Run n l) (remainder digit : Vector Int n) : Vector Int n :=
  let product := run.system.matrix.mulVec digit
  Vector.ofFn fun i => remainder.get i - product.get i

/-- Checks that the correction for one prime is no larger than an exact one can be. -/
def checkSize (run : Run n l) (p : Nat) (correction : Vector Int n) : Except Fault Unit := do
  if run.checkBounds then
    let worst := correction.toList.foldl (fun s v => max s v.natAbs) 0
    if run.correctionBound < worst then
      .error (.lifting (.correctionTooLarge p run.position worst run.correctionBound))

/-- Checks the correction for one prime against exact integers. -/
def checkExact (run : Run n l) (p : Nat) (remainder digit correction : Vector Int n) :
    Except Fault Unit := do
  let exact := run.exact remainder digit
  if exact.toList.any fun v => Int.fmod v p != 0 then
    .error (.lifting (.indivisible p run.position))
  if (exact.map fun v => Int.fdiv v p) ≠ correction then
    .error (.lifting (.correctionMismatch p run.position))

/-- Checks the correction for one prime as far as the settings ask for it. -/
def checkCorrection (run : Run n l) (p : Nat) (remainder digit correction : Vector Int n) :
    Except Fault Unit := do
  run.checkSize p correction
  if run.verifySteps then
    run.checkExact p remainder digit correction

/-- Bits of the largest absolute value. -/
def largestBits (residuals : Vector (Vector Int n) l) : Nat :=
  residuals.toList.foldl
    (fun s r => r.toList.foldl (fun s v => max s (PrimeSource.bitLength v.natAbs)) s) 0

/-- Whether all digits have been emitted. -/
def exhausted (run : Run n l) : Bool := decide (run.plan.iterations ≤ run.position)

/-- Why there is no next step. -/
def fault? (run : Run n l) : Option Fault :=
  if !run.isOpen then some (.lifting .closed)
  else if run.exhausted then some (.lifting (.digitsExhausted run.plan.iterations))
  else none

/-- The run with one more step recorded, whose residuals have entries of up to `bits` bits. -/
def record (run : Run n l) (bits : Nat) : Run n l :=
  let position := run.position + 1
  { run with position, trace := run.trace ++ [⟨position, run.plan.iterations, bits⟩] }

/-- The run after a step with the given corrections. -/
def advance (run : Run n l) (corrections : Mat n l) : Run n l :=
  let quotients := run.quotients
  let residuals : Vector (Vector Int n) l := Vector.ofFn fun j =>
    Vector.ofFn fun i => (quotients.get j).get i + corrections.entry i j
  { run.record (largestBits residuals) with residuals }

/-- The digits of the next step for all primes, and the run after it. -/
def next (run : Run n l) : Except Fault (Vector (Vector Int n) l) × Run n l :=
  match run.fault? with
  | some f => (.error f, run)
  | none =>
    let remainders := run.remainders
    let digits := run.digits
    let corrections := run.corrections remainders digits
    let checked := (List.finRange l).forM fun j =>
      run.checkCorrection (run.primes.get j) (remainders.get j) (digits.get j)
        (corrections.column j)
    match checked with
    | .error f => (.error f, run)
    | .ok _ => (.ok digits, run.advance corrections)

/-- All remaining digits. -/
def nextAll (run : Run n l) : Except Fault (List (Vector (Vector Int n) l)) × Run n l :=
  go (run.plan.iterations - run.position) run
where
  /-- The digits of `fuel` steps. -/
  go : Nat → Run n l → Except Fault (List (Vector (Vector Int n) l)) × Run n l
    | 0, run => (.ok [], run)
    | fuel + 1, run =>
      match run.next with
      | (.error f, after) => (.error f, after)
      | (.ok d, after) =>
        match go fuel after with
        | (.error f, last) => (.error f, last)
        | (.ok ds, last) => (.ok (d :: ds), last)

/-! ## Other operations -/

/-- The residual of one prime. -/
def residual (run : Run n l) (j : Int) : Except Fault (Vector Int n) :=
  if !run.isOpen then .error (.lifting .closed)
  else do
    let i ← place l j
    return run.residuals.get i

/-- The residuals of all primes. -/
def allResiduals (run : Run n l) : Except Fault (List (Vector Int n)) :=
  (List.finRange l).mapM fun j => run.residual j.val

/-- Ends a run. -/
def close (run : Run n l) : Run n l := { run with isOpen := false }

/-- Puts one number into all places of the table of inverses, which holds doubles. -/
def fillTable (run : Run n l) (v : Int) : Except Fault (Run n l) :=
  if Binary64.isInRange v then .ok { run with table := Mat.ofFn fun _ _ => Binary64.roundInt v }
  else .error .overflow

/-- Replaces the inverse of the matrix for one prime by the residues of another matrix. -/
def replaceInverse (run : Run n l) (j : Fin l) (B : Mat n n) : Run n l :=
  { run with inverses := run.inverses.set j.val (B.reduce (run.primes.get j)) }

/-- The basis of a run as text; a closed run has none. -/
def basisText (run : Run n l) : String := if run.isOpen then run.basis.text else "None"

/-- A run as text. -/
def text (run : Run n l) : String :=
  s!"MultiModLiftingContainer(n={n}, primes=" ++ listing (run.primes.toList.map toString) ++
    s!", rns={run.plan.basis.length}, position={run.position}/{run.plan.iterations})"

end Run

/-- A run with its dimensions. -/
structure SomeRun where
  size : Nat
  width : Nat
  run : Run size width

/-- A supply from a source, before any replacement. -/
def Supply.ofSource (source : PrimeSource) : Supply := ⟨source, []⟩

/-- Selects a plan for a system given by nested lists and starts a run. Only a system of integers
has one. -/
def SomeRun.start (a b : Nested) (settings : Settings) (choice : Selection.Choice)
    (supplied : List (Int × Nested)) (supply : Supply) : Except Fault SomeRun × Supply :=
  match SomeSystem.read a b with
  | .error f => (.error f, supply)
  | .ok S =>
    match Selection.selectFor S.profile settings choice supplied supply, S.contents with
    | (.error f, after), _ => (.error f, after)
    | (.ok plan, after), .integers L =>
      ((Run.start L settings plan).map fun run => ⟨S.size, _, run⟩, after)
    | (.ok _, after), _ => (.error .kindMismatch, after)

end PadicLift
