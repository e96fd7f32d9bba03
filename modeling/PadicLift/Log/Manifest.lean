import PadicLift.Document.Json
import PadicLift.Log.Sha256

/-!
# Manifests

A manifest describes a run once: its name, the circumstances under which it ran, its settings, and a
digest of the settings, which does not depend on the order of their fields.
-/

namespace PadicLift

/-- What a run cannot know from its input: when, where and with what it ran. -/
structure Circumstances where
  timestamp : String
  commit : String
  node : String
  languageVersion : String
  arrayVersion : String
deriving DecidableEq, Repr

/-- The description of a run. -/
structure Manifest where
  runId : Text
  circumstances : Circumstances
  config : Document
deriving Repr

namespace Manifest

/-- The first sixteen digits of the digest of a document, its fields in the order of their keys. -/
def configHash (config : Document) : Except Fault String := do
  let sorted ← Json.sortKeys config
  return String.ofList ((Sha256.hex (Json.write sorted)).toList.take 16)

/-- The manifest as fields. -/
def toFields (m : Manifest) : Except Fault (List (String × Document)) := do
  let hash ← configHash m.config
  return [("run_id", .text m.runId),
    ("timestamp", .string m.circumstances.timestamp),
    ("git_commit", .string m.circumstances.commit),
    ("config_hash", .string hash),
    ("node_name", .string m.circumstances.node),
    ("python_version", .string m.circumstances.languageVersion),
    ("numpy_version", .string m.circumstances.arrayVersion),
    ("config", m.config)]

/-- The text of a manifest file with the given fields. -/
def fileText (fields : List (String × Document)) : String :=
  Json.writeIndented 2 0 (.record fields)

/-- Whether the text of a manifest file holds all of the manifest. -/
def readsBack (fields : List (String × Document)) : Bool :=
  match Json.read (fileText fields) with
  | .ok d => d.same (.record fields)
  | .error _ => false

end Manifest
end PadicLift
