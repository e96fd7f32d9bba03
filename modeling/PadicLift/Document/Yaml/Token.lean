import PadicLift.Document.Yaml.Label

/-!
# Tokens

A document is a sequence of tokens: scalars and labels as they are written, punctuation, and marks
for the beginning and the end of every block, which come from the indentation of lines.
-/

namespace PadicLift
namespace Yaml

/-- A token. -/
inductive Token
  | directive (content : Directive)
  | documentStart
  | documentEnd
  | sequenceStart
  | mappingStart
  /-- The end of a block. -/
  | blockEnd
  | flowSequenceStart
  | flowSequenceEnd
  | flowMappingStart
  | flowMappingEnd
  /-- The comma of a flow collection. -/
  | flowEntry
  /-- The dash of a block sequence. -/
  | blockEntry
  /-- The beginning of a key. -/
  | key
  /-- The colon behind a key. -/
  | value
  | alias (name : List Char)
  | anchor (name : List Char)
  | tag (text : TagText)
  /-- A scalar without quotes. -/
  | plain (chars : List Char)
  /-- A scalar in quotes, or a block scalar. -/
  | quoted (text : Text)
  | streamEnd
deriving DecidableEq, Repr

end Yaml
end PadicLift
