import PadicLift.Document.Basic
import PadicLift.Matrix.Nested

/-!
# Integers in documents

Matrices and vectors come out of documents as nested lists. `outline` gives the nesting; a truth
value counts as 1 or 0, and whatever is neither an integer nor a list is foreign.
-/

namespace PadicLift
namespace Document

mutual
/-- The nesting of a document's lists. -/
def outline : Document → Nested
  | .number n => .ofNumber n
  | .bool b => .entry (if b then 1 else 0)
  | .text t => .foreign (.text t)
  | .list items => .list (outlines items)
  | _ => .foreign .other

/-- The nesting of the members of a list. -/
def outlines : List Document → List Nested
  | [] => []
  | d :: rest => outline d :: outlines rest
end

/-- The number of members of a list or mapping, or of characters of a text. -/
def extent : Document → Except Fault Nat
  | .list items => .ok items.length
  | .mapping fields => .ok fields.length
  | .text t => .ok t.length
  | _ => .error .kindMismatch

end Document
end PadicLift
