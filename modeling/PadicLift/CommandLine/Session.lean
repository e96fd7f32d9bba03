import PadicLift.CommandLine.Options
import PadicLift.Document.Integers
import PadicLift.Document.Yaml
import PadicLift.Log.Journal
import PadicLift.Log.Manifest

/-!
# Sessions

A session reads settings and a system from files, solves the system, and checks the solution before
it reports success. Its ending says which of these went wrong, if any, and determines the exit code:
0 for a solution that passed the check, 2 for one that did not, 1 for a failure of the lifting
family. Any other fault ends the session without a code of its own.

What the text of a file holds is not for a session to say: it is told by a `Reader`. `Yaml.read` is
one, and `run` is the session with it; `runWith` takes any. Of a system's file only the matrix and
the right side are looked at, so a reader may give any document for the rest of it.
-/

namespace PadicLift
namespace CommandLine

/-- What stands at a path. -/
inductive Place
  | file (text : String)
  | directory
deriving DecidableEq, Repr

/-- What there is, by path. -/
abbrev Files := String → Option Place

/-- The document that a text holds, or why it holds none. -/
abbrev Reader := String → Except Fault Document

/-- How a session ends. -/
inductive Ending
  | solved (solution : Solution) (fractions : List Rat) (passed : Bool)
  | refused (fault : LiftingFault)
  | failed (fault : Fault)
deriving DecidableEq, Repr

/-- The exit code of an ending. -/
def Ending.exitCode : Ending → Option Nat
  | .solved _ _ passed => some (if passed then 0 else 2)
  | .refused _ => some 1
  | .failed _ => none

/-- What an ending reports as an error. -/
def Ending.errorText : Ending → String
  | .refused f => "ERROR: " ++ f.message ++ "\n"
  | _ => ""

/-- An ending because of a fault. -/
def Ending.ofFault : Fault → Ending
  | .lifting f => .refused f
  | f => .failed f

/-- A session from its start to its end. -/
structure Session where
  /-- The line about the system, if the session got that far. -/
  heading : String := ""
  /-- The settings and the journal, where logs were asked for. -/
  logs : Option (Settings × Journal) := none
  ending : Ending

/-! ## Inputs -/

/-- The text of a file. -/
def readFile (files : Files) (path : String) : Except Fault String :=
  match files path with
  | some (.file text) => .ok text
  | some .directory => .error .notFile
  | none => .error .missingFile

/-- Admits a path at which a directory is or can be made. -/
def admitDirectory (files : Files) (path : String) : Except Fault Unit :=
  match files path with
  | some (.file _) => .error .notDirectory
  | _ => .ok ()

/-- The settings of a session: those of a file, if one is named, with the options put over them. -/
def readSettings (read : Reader) (files : Files) (o : Options) : Except Fault Settings := do
  let base ←
    match o.config with
    | none => Settings.ofFields []
    | some "" => Settings.ofFields []
    | some path => readFile files path >>= read >>= Settings.ofDocument
  let withCount :=
    if 0 < o.primesCount then { base with primesCount := .ofInt o.primesCount } else base
  let withSeed :=
    match o.seed with
    | some s => { withCount with seed := .int s }
    | none => withCount
  return if o.verifySteps then { withSeed with verifySteps := .bool true } else withSeed

/-- The matrix and the right side of a system, as a file gives them. -/
def readSystem (read : Reader) (files : Files) (path : String) :
    Except Fault (Document × Document) := do
  let text ← readFile files path
  match ← read text with
  | .mapping fields =>
    match Document.field? fields "A", Document.field? fields "b" with
    | some a, some b => return (a, b)
    | _, _ => .error (.argument (.notASystem path))
  | _ => .error (.argument (.notASystem path))

/-- What a session works on: its settings, and a system with the number of its equations. -/
structure Inputs where
  settings : Settings
  matrix : Document
  right : Document
  size : Nat

/-- Reads what a session works on. -/
def readInputs (read : Reader) (files : Files) (o : Options) : Except Fault Inputs := do
  let settings ← readSettings read files o
  let (a, b) ← readSystem read files o.input
  return ⟨settings, a, b, ← a.extent⟩

/-- Prepares for logs, where options ask for them, and says whether they do. -/
def openLogs (files : Files) (o : Options) (settings : Settings) : Except Fault Bool :=
  let dir := o.outputDir.getD ""
  if dir = "" then .ok false
  else do
    discard (Manifest.configHash (.record settings.toFields))
    admitDirectory files dir
    return true

/-! ## Solving -/

/-- The choice of lifting primes: those that are given, or as many as the settings say. -/
def choiceOf : Option (List Int) → Selection.Choice
  | some primes => .given primes
  | none => .smallest none

/-- Solves the system, and keeps a journal of it if it is to be logged. -/
def Inputs.solve (inputs : Inputs) (primes : Option (List Int)) (logged : Bool) :
    Except Fault Solution × Journal :=
  let A := inputs.matrix.outline
  let B := inputs.right.outline
  let choice := choiceOf primes
  let journal : Journal := {}
  match inputs.settings.source with
  | .error f => (.error f, journal.close)
  | .ok source =>
    let supply := Supply.ofSource source
    if logged then
      let (result, _, journal) := journal.solve A B inputs.settings choice [] supply
      (result, journal.close)
    else ((Solution.solve A B inputs.settings choice [] supply).1, journal.close)

/-- The ending that a solve comes to. A solution is checked before it is reported. -/
def Inputs.conclude (inputs : Inputs) : Except Fault Solution → Ending
  | .error f => .ofFault f
  | .ok x =>
    match Solution.fits inputs.matrix.outline inputs.right.outline x, x.fractions with
    | .ok passed, .ok fractions => .solved x fractions passed
    | .error f, _ => .failed f
    | _, .error f => .failed f

/-- The line about a system of `size` equations. -/
def heading (size : Nat) (settings : Settings) (primes : Option (List Int)) : String :=
  let shown :=
    match primes with
    | some (p :: ps) => listing ((p :: ps).map toString)
    | _ => settings.primesCount.text
  s!"System: n={size}, lifting primes=" ++ shown ++ "\n"

/-- Runs a session that reads its files with the given reader. -/
def runWith (read : Reader) (files : Files) (o : Options) : Session :=
  match readInputs read files o with
  | .error f => { ending := .failed f }
  | .ok inputs =>
    let line := heading inputs.size inputs.settings o.primes
    match openLogs files o inputs.settings with
    | .error f => { heading := line, ending := .failed f }
    | .ok logged =>
      let (result, journal) := inputs.solve o.primes logged
      { heading := line
        logs := if logged then some (inputs.settings, journal) else none
        ending := inputs.conclude result }

/-- Runs a session. -/
def run (files : Files) (o : Options) : Session := runWith Yaml.read files o

/-! ## Reports -/

/-- The fractions and the denominator as a document. -/
def resultDocument (x : Solution) (fractions : List Rat) : Document :=
  .record
    [("x", .list (fractions.map fun f => .string (Fraction.text f))),
     ("denominator", .string (toString x.denominator))]

/-- The primes and the steps of a solve; `elapsed` is the time that it took. -/
def circumstances (elapsed : String) (x : Solution) : String :=
  "Primes: " ++ listing (x.primes.map toString) ++ s!"  RNS basis: {x.basis.length} primes\n" ++
    s!"Iterations: {x.iterations}  time: " ++ elapsed

/-- What is printed about an ending. -/
def Ending.report (elapsed : String) : Ending → String
  | .solved x fractions passed =>
    circumstances elapsed x ++ "  check: " ++ (if passed then "PASS" else "FAIL") ++ "\n" ++
      Json.writeIndented 2 0 (resultDocument x fractions) ++ "\n"
  | _ => ""

/-- All that a session prints. -/
def Session.output (s : Session) (elapsed : String) : String :=
  s.heading ++ s.ending.report elapsed

end CommandLine
end PadicLift
