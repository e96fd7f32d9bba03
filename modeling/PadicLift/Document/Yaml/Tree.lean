import PadicLift.Document.Node
import PadicLift.Document.Yaml.Lexer

/-!
# From tokens to nodes

The grammar of documents: a node is a scalar, a sequence or a mapping, in block or in flow form,
with its labels in front, or it repeats a node that has been named. Where a node may be left out
there is the empty scalar. Nodes stand inside each other up to `maxDepth` levels. A text holds one
document at most.

Tokens are taken from a `Feed` one after the other. Where they run out, the fault that ended them is
what fails.
-/

namespace PadicLift
namespace Yaml

/-- Tokens, and what is known of the names and handles so far. -/
structure Feed where
  tokens : List Token
  /-- What is wrong behind the last token. -/
  fault : Fault
  /-- The nodes that have names; one that is still being read is missing. -/
  anchors : List (List Char × Option Node) := []
  /-- What handles stand for. -/
  handles : List (List Char × List Char) := []
  /-- The number of sequences and mappings around the next token. -/
  depth : Nat := 0

/-- A part of a document, taken from its tokens. -/
abbrev Reading := StateT Feed (Except Fault)

/-- Tokens that make no node. -/
def noNode : Fault := .malformedDocument .grammar

/-- A name that is used in a wrong way. -/
def wrongName : Fault := .malformedDocument .reference

/-- The next token. -/
def peek : Reading Token := do
  match (← get).tokens with
  | t :: _ => return t
  | [] => throw (← get).fault

/-- Takes the next token. -/
def drop : Reading Unit := modify fun s => { s with tokens := s.tokens.drop 1 }

/-- How many sequences and mappings may stand inside each other. -/
def maxDepth : Nat := 490

/-- Takes the content of a sequence or a mapping. -/
def within {α : Type} (content : Reading α) : Reading α := do
  if maxDepth ≤ (← get).depth then throw (.malformedDocument .depth)
  modify fun s => { s with depth := s.depth + 1 }
  let x ← content
  modify fun s => { s with depth := s.depth - 1 }
  return x

/-- The handles that are known without a directive. -/
def usualHandles : List (List Char × List Char) :=
  [(['!'], ['!']), (['!', '!'], Node.tagPrefix.toList)]

/-! ## Labels -/

/-- The name and the tag in front of a node. -/
structure Labels where
  anchor : Option (List Char)
  tag : Option TagText

/-- The name in front of a node, if there is one. -/
def readAnchor : Reading (Option (List Char)) := do
  match ← peek with
  | .anchor name => do
    drop
    return some name
  | _ => return none

/-- The tag in front of a node, if there is one. -/
def readTag : Reading (Option TagText) := do
  match ← peek with
  | .tag text => do
    drop
    return some text
  | _ => return none

/-- The labels in front of a node, in any order. -/
def readLabels : Reading Labels := do
  match ← readAnchor with
  | some name => return ⟨some name, ← readTag⟩
  | none =>
    match ← readTag with
    | some text => return ⟨← readAnchor, some text⟩
    | none => return ⟨none, none⟩

/-- A tag with its handle replaced by what it stands for. -/
def fullTag (text : TagText) : Reading (List Char) := do
  match text.handle with
  | none => return text.suffix
  | some handle =>
    match (← get).handles.lookup handle with
    | some meaning => return meaning ++ text.suffix
    | none => throw noNode

/-- The tag that says nothing. -/
def plainTag : List Char := ['!']

/-- A node under its tag. A scalar under the tag that says nothing is read like one without
quotes. -/
def applyTag (tag : Option (List Char)) (x : Node) : Node :=
  match tag, x with
  | none, _ => x
  | some t, .plain cs =>
    if t = plainTag then x else .tagged (String.ofList t) (.quoted (.ofChars cs))
  | some t, .quoted q =>
    if t = plainTag then .plain q.toString.toList else .tagged (String.ofList t) x
  | some t, _ => if t = plainTag then x else .tagged (String.ofList t) x

/-- Announces a name, which may not have been given before. -/
def announce (anchor : Option (List Char)) : Reading Unit := do
  match anchor with
  | none => return ()
  | some name =>
    if ((← get).anchors.lookup name).isSome then throw wrongName
    modify fun s => { s with anchors := (name, none) :: s.anchors }

/-- Gives a name to a node. -/
def define (anchor : Option (List Char)) (x : Node) : Reading Node := do
  match anchor with
  | none => return x
  | some name =>
    modify fun s => { s with anchors := (name, some x) :: s.anchors }
    return x

/-- The node with the given name. A node does not contain itself. -/
def anchored (name : List Char) : Reading Node := do
  match (← get).anchors.lookup name with
  | some (some x) => return x
  | some none => throw (.malformedDocument .value)
  | none => throw wrongName

/-! ## Nodes -/

/-- Whether nothing stands in front of this token in a block mapping. -/
def endsField : Token → Bool
  | .key => true
  | .value => true
  | .blockEnd => true
  | _ => false

/-- Whether nothing stands in front of this token in a flow collection with the given end. -/
def endsFlow (closing : Token) (t : Token) : Bool := t == .flowEntry || t == closing

/-- Where a node stands: the tokens that may begin it. -/
inductive Site
  | flow
  | block
  /-- In a field, where the entries of a sequence may stand at the column of the key. -/
  | field
deriving DecidableEq, Repr

mutual
/-- A node. -/
def readNode : Nat → Site → Reading Node
  | 0, _ => throw noNode
  | fuel + 1, site => do
    match ← peek with
    | .alias name => do
      drop
      anchored name
    | _ => do
      let labels ← readLabels
      let tag ← labels.tag.mapM fullTag
      let x ← readContent fuel site labels.anchor tag.isSome
      define labels.anchor (applyTag tag x)

/-- A node behind its labels. Without anything there it is empty if it has a label. -/
def readContent : Nat → Site → Option (List Char) → Bool → Reading Node
  | 0, _, _, _ => throw noNode
  | fuel + 1, site, anchor, tagged => do
    match ← peek, site with
    | .blockEntry, .field => do
      announce anchor
      return .list (← within (readEntriesHere fuel))
    | .plain cs, _ => do
      drop
      announce anchor
      return .plain cs
    | .quoted t, _ => do
      drop
      announce anchor
      return .quoted t
    | .flowSequenceStart, _ => do
      announce anchor
      drop
      return .list (← within (readItems fuel true))
    | .flowMappingStart, _ => do
      announce anchor
      drop
      return .mapping (← within (readPairs fuel true))
    | t, _ =>
      if t == .sequenceStart && site != .flow then do
        announce anchor
        drop
        return .list (← within (readEntries fuel))
      else if t == .mappingStart && site != .flow then do
        announce anchor
        drop
        return .mapping (← within (readFields fuel))
      else if anchor.isSome || tagged then do
        announce anchor
        return .empty
      else throw noNode

/-- The entries of a block sequence, and its end. -/
def readEntries : Nat → Reading (List Node)
  | 0 => throw noNode
  | fuel + 1 => do
    match ← peek with
    | .blockEntry => do
      drop
      let t ← peek
      let x ← if t == .blockEntry || t == .blockEnd then pure .empty else readNode fuel .block
      return x :: (← readEntries fuel)
    | .blockEnd => do
      drop
      return []
    | _ => throw noNode

/-- The entries of a sequence at the column of the key in front of it. -/
def readEntriesHere : Nat → Reading (List Node)
  | 0 => throw noNode
  | fuel + 1 => do
    match ← peek with
    | .blockEntry => do
      drop
      let t ← peek
      let x ← if t == .blockEntry || endsField t then pure .empty else readNode fuel .block
      return x :: (← readEntriesHere fuel)
    | _ => return []

/-- The fields of a block mapping, and its end. -/
def readFields : Nat → Reading (List (Node × Node))
  | 0 => throw noNode
  | fuel + 1 => do
    match ← peek with
    | .key => do
      drop
      let k ← if endsField (← peek) then pure .empty else readNode fuel .field
      let v ←
        if (← peek) == .value then do
          drop
          if endsField (← peek) then pure .empty else readNode fuel .field
        else pure .empty
      return (k, v) :: (← readFields fuel)
    | .blockEnd => do
      drop
      return []
    | _ => throw noNode

/-- The key behind its mark and the value behind a colon, in a flow collection with the given
end. -/
def readPair : Nat → Token → Reading (Node × Node)
  | 0, _ => throw noNode
  | fuel + 1, closing => do
    let t ← peek
    let k ← if t == .value || endsFlow closing t then pure .empty else readNode fuel .flow
    if (← peek) == .value then do
      drop
      let v ← if endsFlow closing (← peek) then pure .empty else readNode fuel .flow
      return (k, v)
    else return (k, .empty)

/-- The members of a flow sequence, and its end. A pair is a mapping of its own. -/
def readItems : Nat → Bool → Reading (List Node)
  | 0, _ => throw noNode
  | fuel + 1, first => do
    if (← peek) == .flowSequenceEnd then do
      drop
      return []
    else do
      if !first then readComma
      match ← peek with
      | .key => do
        drop
        let pair ← within (readPair fuel .flowSequenceEnd)
        return .mapping [pair] :: (← readItems fuel false)
      | .flowSequenceEnd => do
        drop
        return []
      | _ => do
        let x ← readNode fuel .flow
        return x :: (← readItems fuel false)

/-- The fields of a flow mapping, and its end. A key by itself has an empty value. -/
def readPairs : Nat → Bool → Reading (List (Node × Node))
  | 0, _ => throw noNode
  | fuel + 1, first => do
    if (← peek) == .flowMappingEnd then do
      drop
      return []
    else do
      if !first then readComma
      match ← peek with
      | .key => do
        drop
        let pair ← readPair fuel .flowMappingEnd
        return pair :: (← readPairs fuel false)
      | .flowMappingEnd => do
        drop
        return []
      | _ => do
        let k ← readNode fuel .flow
        return (k, .empty) :: (← readPairs fuel false)

/-- The comma between the members of a flow collection. -/
def readComma : Reading Unit := do
  if (← peek) == .flowEntry then drop else throw noNode
end

/-! ## Documents -/

/-- Takes the marks of documents that have ended. -/
def dropEnds : Nat → Reading Unit
  | 0 => return ()
  | fuel + 1 => do
    if (← peek) == .documentEnd then do
      drop
      dropEnds fuel

/-- Takes the directives in front of a document. There may be one version, the first major one, and
one meaning for a handle. -/
def readDirectives : Nat → Bool → Reading Unit
  | 0, _ => throw noNode
  | fuel + 1, versioned => do
    match ← peek with
    | .directive (.version major) => do
      drop
      if versioned || major != 1 then throw noNode
      readDirectives fuel true
    | .directive (.handle name meaning) => do
      drop
      if ((← get).handles.lookup name).isSome then throw noNode
      modify fun s => { s with handles := (name, meaning) :: s.handles }
      readDirectives fuel versioned
    | .directive .other => do
      drop
      readDirectives fuel versioned
    | _ => modify fun s => { s with handles := s.handles ++ usualHandles }

/-- Takes the mark of a document's beginning with the directives in front of it; there may be no
document. -/
def readStart (fuel : Nat) : Reading Bool := do
  dropEnds fuel
  if (← peek) == .streamEnd then return false
  else do
    modify fun s => { s with handles := [] }
    readDirectives fuel false
    if (← peek) == .documentStart then do
      drop
      return true
    else throw noNode

/-- Whether a document has no content in front of this token. -/
def endsDocument : Token → Bool
  | .directive _ => true
  | .documentStart => true
  | .documentEnd => true
  | .streamEnd => true
  | _ => false

/-- Whether a document without a mark of its beginning starts with this token. -/
def isBareStart : Token → Bool
  | .directive _ => false
  | .documentStart => false
  | .streamEnd => false
  | _ => true

/-- The node of a text's document, if there is one. -/
def readTree (fuel : Nat) : Reading (Option Node) := do
  let bare := isBareStart (← peek)
  if bare then modify fun s => { s with handles := usualHandles }
  let begun ← if bare then pure true else readStart fuel
  if !begun then return none
  else do
    let isEmpty := !bare && endsDocument (← peek)
    let x ← if isEmpty then pure .empty else readNode fuel .block
    if (← peek) == .documentEnd then drop
    if ← readStart fuel then throw wrongName
    return some x

/-- The node of a text's document. -/
def tree (cs : List Char) : Except Fault (Option Node) :=
  let (ts, fault) := tokens cs
  (readTree (4 * ts.length + 8)).run' { tokens := ts, fault := fault.getD noNode }

end Yaml
end PadicLift
