import PadicLift.Document.Fields
import PadicLift.Solution

/-!
# Journals

A journal collects records of lifting steps and of finished solves. Records of steps wait until a
given number of them has been collected, or until the journal is closed, before they are durable;
records of solves are durable at once. A closed journal takes no records; reopening it keeps what is
durable and counts from 0 again.

Times of day and durations are not part of what a journal tells: fields that hold them are left out.
-/

namespace PadicLift

/-! ## Records -/

/-- A step as a record. -/
def StepRecord.toDocument (s : StepRecord) : Document :=
  .record
    [("iteration", .int s.iteration), ("iterations_count", .int s.total),
     ("residual_bits", .int s.residualBits)]

/-- A solution as a record; its numbers may be long, so they are written as texts. -/
def Solution.toDocument (x : Solution) : Document :=
  .record
    [("numerators", .list (x.numerators.map fun (v : Int) => .string (toString v))),
     ("denominator", .string (toString x.denominator)),
     ("iterations", .int x.iterations),
     ("primes", .list (x.primes.map fun (p : Nat) => .int p)),
     ("rns_primes", .list (x.basis.map fun (p : Nat) => .int p))]

/-- The record without the given fields. A list of pairs is a record too. -/
def recordWithout (keys : List String) (record : Document) : Except Fault Document := do
  let fields := Document.textFields (← record.fields)
  return .mapping (fields.filter fun f => !keys.any fun k => f.1.same (.text k))

/-! ## Journals -/

/-- Records, how many of them are durable, and how many have been counted since the last opening. -/
structure Journal where
  /-- After so many records of steps the waiting ones become durable. -/
  flushEvery : Int := 100
  /-- Durable records of steps. -/
  steps : List Document := []
  /-- Records of steps that wait. -/
  waiting : List Document := []
  /-- Records of solves, all of them durable. -/
  solutions : List Document := []
  stepCount : Nat := 0
  solutionCount : Nat := 0
  isOpen : Bool := true

namespace Journal

/-- Makes the waiting records durable. -/
def flush (j : Journal) : Journal := { j with steps := j.steps ++ j.waiting, waiting := [] }

/-- Adds a record of a step. With the interval 0 the record is taken and counted before the call
fails. -/
def addStep (j : Journal) (record : Document) : Except Fault Unit × Journal :=
  match recordWithout ["timestamp", "elapsed_sec"] record with
  | .error f => (.error f, j)
  | .ok kept =>
    if !j.isOpen then (.error (.argument .fileClosed), j)
    else
      let taken := { j with waiting := j.waiting ++ [kept], stepCount := j.stepCount + 1 }
      if j.flushEvery = 0 then (.error .divisionByZero, taken)
      else if Int.fmod taken.stepCount j.flushEvery = 0 then (.ok (), taken.flush)
      else (.ok (), taken)

/-- Adds a record of a solve. -/
def addSolution (j : Journal) (record : Document) : Except Fault Unit × Journal :=
  match recordWithout ["timestamp", "wall_time_sec"] record with
  | .error f => (.error f, j)
  | .ok kept =>
    if !j.isOpen then (.error (.argument .fileClosed), j)
    else
      let solutions := j.solutions ++ [kept]
      (.ok (), { j with solutions, solutionCount := j.solutionCount + 1 })

/-- Makes all records durable and takes no more. -/
def close (j : Journal) : Journal := { j.flush with isOpen := false }

/-- Opens a journal behind its durable records, with the usual interval. -/
def reopen (j : Journal) : Journal := { steps := j.close.steps, solutions := j.solutions }

/-- A journal as an observer of a run. -/
def observer : Solution.Observer Journal := fun j record => j.addStep record.toDocument

/-- Solves a system and keeps a record of every step and of the solution. -/
def solve (j : Journal) (a b : Nested) (settings : Settings) (choice : Selection.Choice)
    (supplied : List (Int × Nested)) (supply : Supply) :
    Except Fault Solution × Supply × Journal :=
  let (result, after, seen) :=
    Solution.solveWith observer a b settings choice supplied supply j
  match result with
  | .error f => (.error f, after, seen)
  | .ok x =>
    match seen.addSolution x.toDocument with
    | (.error f, last) => (.error f, after, last)
    | (.ok _, last) => (.ok x, after, last)

end Journal
end PadicLift
