import PadicLift.Document.Json

/-!
# Fields of a document

A mapping has its fields, and a list of pairs gives fields as well. `fields` reads either, and
`textFields` shows the keys as the texts that they are written as.
-/

namespace PadicLift
namespace Document

/-- The key that the first member of a pair is. -/
def pairKey (d : Document) : Except Fault Key :=
  match d.key? with
  | some k => .ok k
  | none => .error .kindMismatch

/-- The field that a pair gives: two list members, two characters, or the keys of two fields. -/
def pairField (index : Nat) : Document → Except Fault (Key × Document)
  | .list [k, v] => (pairKey k).map fun key => (key, v)
  | .list items => .error (.argument (.notPair index items.length))
  | .text t =>
    match t.points with
    | [c, d] => .ok (.text ⟨[c]⟩, .text ⟨[d]⟩)
    | cs => .error (.argument (.notPair index cs.length))
  | .mapping [(k, _), (l, _)] => .ok (k, .ofKey l)
  | .mapping fields => .error (.argument (.notPair index fields.length))
  | _ => .error .kindMismatch

/-- The fields that a list of pairs gives; a later pair replaces an earlier one of the same key. -/
def pairFields (pairs : List Document) : Except Fault Fields :=
  pairs.zipIdx.foldlM
    (fun fields (d, i) => (pairField i d).map fun f => setField fields f.1 f.2) []

/-- The fields of a mapping or of a list of pairs. A text is a list of characters, which are no
pairs. -/
def fields : Document → Except Fault Fields
  | .mapping fields => .ok fields
  | .list items => pairFields items
  | .text t => if t.isEmpty then .ok [] else .error (.argument (.notPair 0 1))
  | _ => .error .kindMismatch

/-- Fields by the texts of their keys; of several keys with one text the last field counts. -/
def textFields (fields : Fields) : Fields :=
  fields.foldl (fun done f => setField done (.text (Json.keyText f.1)) f.2) []

end Document
end PadicLift
