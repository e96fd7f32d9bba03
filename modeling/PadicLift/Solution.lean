import PadicLift.Lifting.Mixed
import PadicLift.Matrix.Cells
import PadicLift.Reconstruction.Expansion
import PadicLift.Reconstruction.Fraction

/-!
# Exact solutions of linear systems

`Solution.solve` selects a plan, runs the lifting to its end, sums the digits, combines the primes
and reads the fractions. Every step of the run is shown to an observer, which may keep a log and may
stop the solve. `Solution.check` tests numerators and a denominator against a system without
reference to how they were found.
-/

namespace PadicLift

/-- Numerators over a common denominator, with the circumstances of the solve. -/
structure Solution where
  numerators : List Int
  denominator : Int
  iterations : Nat
  /-- The lifting primes. -/
  primes : List Nat
  /-- The primes of the residue basis. -/
  basis : List Nat
deriving DecidableEq, Repr

namespace Solution

/-- The entries as fractions. -/
def fractions (x : Solution) : Except Fault (List Rat) :=
  if x.denominator = 0 ∧ x.numerators ≠ [] then .error .divisionByZero
  else .ok (x.numerators.map fun (n : Int) => (n : Rat) / (x.denominator : Rat))

/-! ## Checking -/

/-- Whether `A * numerators = denominator * b`, as far as both sides have entries. -/
def check {m n : Nat} (A : Mat m n) (b : List Int) (numerators : Vector Int n)
    (denominator : Int) : Bool :=
  ((A.mulVec numerators).toList.zip b).all fun (u, v) => u == v * denominator

/-- Whether the members of the left side are `denominator` times those of the right side. They are
compared one after the other, as far as both sides have members; integers have to stand for all that
are compared. -/
def agree (denominator : Int) : List Nested → List Nested → Except Fault Bool
  | u :: us, v :: vs => do
    let left ← u.integer
    let right ← v.integer
    if left = right * denominator then agree denominator us vs else return false
  | _, _ => .ok true

/-- Whether a solution fits a system given by nested lists of any shape. -/
def fits (a b : Nested) (x : Solution) : Except Fault Bool :=
  let general : Except Fault Bool := do
    let product ← (Tensor.ofNested a).mulVec x.numerators
    agree x.denominator (← product.members) b.cells
  match a.shape with
  | [m, n] =>
    if a.isRegular ∧ b.isRegular ∧ n = x.numerators.length then
      .ok (check (a.readMat m n) b.toList (Nested.toVector x.numerators n) x.denominator)
    else general
  | _ => general

/-! ## Solving -/

/-- Someone who is shown every step and may refuse to go on. -/
abbrev Observer (σ : Type) := σ → StepRecord → Except Fault Unit × σ

/-- An observer who only looks on. -/
def noObserver : Observer Unit := fun s _ => (.ok (), s)

/-- One step of a run: the digits for each prime, the record of the step, and the run after it. -/
structure Step (ρ : Type) where
  digits : List (List Int)
  record? : Option StepRecord
  after : ρ

/-- The next step of a run over integers. -/
def step {n l : Nat} (run : Run n l) : Except Fault (Step (Run n l)) :=
  match run.next with
  | (.error f, _) => .error f
  | (.ok digits, after) => .ok ⟨digits.toList.map Vector.toList, after.trace.getLast?, after⟩

/-- The next step of a run over mixed numbers. -/
def mixedStep {n l : Nat} (x : MixedRun n l) : Except Fault (Step (MixedRun n l)) := do
  let (digits, after) ← x.next
  return ⟨digits.toList.map Vector.toList, after.run.trace.getLast?, after⟩

/-- Sums the digits of `fuel` steps. -/
def collect {ρ σ : Type} (observe : Observer σ) (next : ρ → Except Fault (Step ρ)) :
    Nat → ρ → Accumulator → σ → Except Fault Accumulator × σ
  | 0, _, acc, s => (.ok acc, s)
  | fuel + 1, run, acc, s =>
    match next run with
    | .error f => (.error f, s)
    | .ok taken =>
      let (verdict, s) :=
        match taken.record? with
        | some record => observe s record
        | none => (.ok (), s)
      match verdict with
      | .error f => (.error f, s)
      | .ok _ =>
        match acc.add taken.digits with
        | (.error f, _) => (.error f, s)
        | (.ok _, acc) => collect observe next fuel taken.after acc s

/-- Combines the digits of a finished run and reads the fractions. -/
def ofDigits {n : Nat} (plan : Plan n) (acc : Accumulator) : Except Fault Solution := do
  let (ys, modulus) ← acc.combined
  let x ← Fraction.ofResidues ys modulus plan.bound.numBound plan.bound.denBound
  return ⟨x.numerators, x.denominator, plan.iterations, plan.primes, plan.basis⟩

/-- Takes all steps of a run and reads the solution. -/
def ofRun {n : Nat} {ρ σ : Type} (observe : Observer σ) (next : ρ → Except Fault (Step ρ))
    (plan : Plan n) (start : Except Fault ρ) (s : σ) : Except Fault Solution × σ :=
  match start with
  | .error f => (.error f, s)
  | .ok run =>
    let acc := Accumulator.start (plan.primes.map Int.ofNat) n
    match collect observe next plan.iterations run acc s with
    | (.error f, s) => (.error f, s)
    | (.ok acc, s) => (ofDigits plan acc, s)

/-- Solves a system of integers according to a plan. -/
def ofPlan {n : Nat} {σ : Type} (observe : Observer σ) (S : LinearSystem n)
    (settings : Settings) (plan : Plan n) (s : σ) : Except Fault Solution × σ :=
  ofRun observe step plan (Run.start S settings plan) s

/-- Solves a system of mixed numbers with the given profile according to a plan. -/
def ofMixedPlan {n : Nat} {σ : Type} (observe : Observer σ) (S : MixedSystem n)
    (profile : Profile n) (settings : Settings) (plan : Plan n) (s : σ) :
    Except Fault Solution × σ :=
  let start := do
    let right ← profile.right
    MixedRun.start S ⟨profile.matrix, right⟩ settings plan
  ofRun observe mixedStep plan start s

/-- Solves a system given by nested lists, before the eyes of an observer. -/
def solveWith {σ : Type} (observe : Observer σ) (a b : Nested) (settings : Settings)
    (choice : Selection.Choice) (supplied : List (Int × Nested)) (supply : Supply) (s : σ) :
    Except Fault Solution × Supply × σ :=
  match SomeSystem.read a b with
  | .error f => (.error f, supply, s)
  | .ok S =>
    match Selection.selectFor S.profile settings choice supplied supply with
    | (.error f, after) => (.error f, after, s)
    | (.ok plan, after) =>
      let (result, s) :=
        match S.contents with
        | .integers L => ofPlan observe L settings plan s
        | .numbers M => ofMixedPlan observe M S.profile settings plan s
        | .other => (.error .kindMismatch, s)
      (result, after, s)

/-- Solves a system given by nested lists. -/
def solve (a b : Nested) (settings : Settings) (choice : Selection.Choice)
    (supplied : List (Int × Nested)) (supply : Supply) : Except Fault Solution × Supply :=
  let (result, after, _) := solveWith noObserver a b settings choice supplied supply ()
  (result, after)

end Solution
end PadicLift
