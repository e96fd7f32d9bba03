import PadicLift.CommandLine.Session

/-!
# The program

Reads the files that the command line names, runs a session, and writes what the session says.
-/

namespace PadicLift
namespace CommandLine

/-- The file at a path, if it can be read. -/
def loadFile (path : String) : IO (Option Place) := do
  try
    return some (.file (← IO.FS.readFile path))
  catch _ => return none

/-- What stands at the paths that options name. -/
def loadFiles (o : Options) : IO Files := do
  let paths := [o.input] ++ o.config.toList ++ o.outputDir.toList
  let places ← paths.mapM fun path => do return (path, ← loadFile path)
  return fun path => (places.lookup path).join

/-- Adds records to a file, one to a line. -/
def appendRecords (path : String) (records : List Document) : IO Unit := do
  let handle ← IO.FS.Handle.mk path .append
  for record in records do
    handle.putStrLn (Json.write record)

/-- Writes the manifest and the logs of a session. -/
def writeLogs (dir : String) (settings : Settings) (journal : Journal) : IO Unit := do
  let stamp := toString (← IO.monoMsNow)
  let manifest : Manifest :=
    ⟨Text.ofString ("solve_" ++ stamp), ⟨stamp, "unknown", "unknown", "unknown", "unknown"⟩,
      .record settings.toFields⟩
  match manifest.toFields with
  | .error _ => return
  | .ok fields =>
    IO.FS.createDirAll dir
    IO.FS.writeFile (dir ++ "/manifest.json") (Manifest.fileText fields)
    appendRecords (dir ++ "/iterations.jsonl") journal.steps
    appendRecords (dir ++ "/solutions.jsonl") journal.solutions

/-- A duration in seconds. -/
def seconds (milliseconds : Nat) : String :=
  Decimal.fixed 3 (mkRat milliseconds 1000) ++ "s"

/-- Runs a session with its files. -/
def runSession (o : Options) : IO UInt32 := do
  let files ← loadFiles o
  let start ← IO.monoMsNow
  let session := CommandLine.run files o
  let code := session.ending.exitCode
  match session.logs, o.outputDir with
  | some (settings, journal), some dir => writeLogs dir settings journal
  | _, _ => pure ()
  let stop ← IO.monoMsNow
  IO.print (session.output (seconds (stop - start)))
  IO.eprint session.ending.errorText
  match session.ending, code with
  | .failed f, _ =>
    IO.eprintln f.message
    return 1
  | _, some c => return c.toUInt32
  | _, none => return 1

end CommandLine
end PadicLift

/-- The command line program. -/
def main (words : List String) : IO UInt32 := do
  match PadicLift.CommandLine.request words with
  | .run options => PadicLift.CommandLine.runSession options
  | .help =>
    IO.print PadicLift.CommandLine.helpText
    return 0
  | .refused =>
    IO.eprintln "the command line is not understood; see --help"
    return 2
