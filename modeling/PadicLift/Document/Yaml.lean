import PadicLift.Document.Yaml.Tree

/-!
# Documents as YAML

`read` takes a text through its tokens and its nodes to the document that it holds. A text without a
document holds nothing.

This is one reader of documents, and not all that the format allows. The kinds `str`, `null`,
`bool`, `int`, `float`, `timestamp`, `seq` and `map` of tagged values are read; `binary`, `set`,
`omap` and `pairs` are refused, as are all other tags. A name stands for a node that is complete
where the name is used again, so a list or a mapping that contains itself is refused. What is proved
about sessions holds for every reader; this one serves to run them.
-/

namespace PadicLift
namespace Yaml

/-- The document that some characters hold, if a text may hold all of them. -/
def readChars (cs : List Char) : Except Fault Document :=
  if !cs.all isAllowed then .error (.malformedDocument .character)
  else do
    let chars := unifyBreaks cs
    match ← tree chars with
    | some x => x.read chars.length
    | none => return .null

/-- The document that a text holds. -/
def read (t : String) : Except Fault Document := readChars t.toList

end Yaml
end PadicLift
