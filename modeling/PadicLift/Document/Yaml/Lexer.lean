import PadicLift.Document.Yaml.Literal
import PadicLift.Document.Yaml.Plain
import PadicLift.Document.Yaml.Token

/-!
# From characters to tokens

Most tokens are what the next characters spell. Two things need more than that. The indentation of
lines opens and closes blocks. And a key is known to be one only by the colon behind it, which has
to follow on the same line within `keyLimit` characters: until then a scalar is a candidate, and the
tokens from it on have to wait. A candidate that stands at the column of its block has to be a key.

`tokens` gives the tokens that leave the queue, up to the first fault. A fault behind a candidate
comes before the tokens that wait.
-/

namespace PadicLift
namespace Yaml

/-- The number of characters that a key may have. -/
def keyLimit : Nat := 1024

/-- A place where a key may have begun. -/
structure Candidate where
  /-- The number of tokens in front of it. -/
  position : Nat
  /-- Whether it has to be a key. -/
  required : Bool
  index : Nat
  line : Nat
  column : Nat
deriving Repr

/-- A text that has been read in part. -/
structure Lexer where
  cursor : Cursor
  /-- How many flow collections are open. -/
  flowLevel : Int := 0
  /-- The columns of the open blocks, from the inside out. -/
  columns : List Int := []
  /-- Whether a key may begin here. -/
  keyAllowed : Bool := true
  /-- Candidates by the level of the flow collection that they stand in. -/
  candidates : List (Int × Candidate) := []
  /-- How many tokens have left the queue. -/
  released : Nat := 0
  /-- The tokens in the queue. -/
  waiting : List Token := []
  isDone : Bool := false

namespace Lexer

/-! ## The queue -/

/-- Puts a token into the queue. -/
def push (l : Lexer) (t : Token) : Lexer := { l with waiting := l.waiting ++ [t] }

/-- Puts tokens into the queue behind as many tokens of the text as `position` says. -/
def insertAt (l : Lexer) (position : Nat) (ts : List Token) : Lexer :=
  let k := position - l.released
  { l with waiting := l.waiting.take k ++ ts ++ l.waiting.drop k }

/-- The place behind the next `count` characters. -/
def skip (l : Lexer) (count : Nat) : Lexer := { l with cursor := l.cursor.skip count }

/-- Whether no flow collection is open. -/
def inBlock (l : Lexer) : Bool := l.flowLevel == 0

/-! ## Blocks -/

/-- The column of the innermost block, or -1. -/
def column (l : Lexer) : Int := l.columns.headD (-1)

/-- Closes all blocks further in than a column. -/
def closeBlocks (l : Lexer) (column : Int) : Lexer :=
  if !l.inBlock then l
  else
    let closed := l.columns.takeWhile (column < ·)
    { l with
      columns := l.columns.drop closed.length
      waiting := l.waiting ++ closed.map fun _ => .blockEnd }

/-- Opens a block at a column, if none is open there; `start` is the token for its beginning, which
goes behind as many tokens of the text as `position` says. -/
def openBlock (l : Lexer) (column position : Nat) (start : Token) : Lexer :=
  if l.column < column then
    { l.insertAt position [start] with columns := (column : Int) :: l.columns }
  else l

/-- The number of tokens up to here. -/
def count (l : Lexer) : Nat := l.released + l.waiting.length

/-- Opens a block here. -/
def openHere (l : Lexer) (start : Token) : Lexer := l.openBlock l.cursor.column l.count start

/-! ## Candidates -/

/-- Whether a candidate is too far away to be a key. -/
def isStale (l : Lexer) (c : Candidate) : Bool :=
  c.line != l.cursor.line || decide (keyLimit < l.cursor.index - c.index)

/-- Gives up the candidates that pass a test; none of them may have to be a key. -/
def giveUp (l : Lexer) (test : Int × Candidate → Bool) : Except Fault Lexer :=
  if l.candidates.any fun c => test c && c.2.required then noToken
  else .ok { l with candidates := l.candidates.filter fun c => !test c }

/-- Gives up candidates that are too far away. -/
def giveUpStale (l : Lexer) : Except Fault Lexer := l.giveUp fun c => l.isStale c.2

/-- Gives up the candidate of this level. -/
def giveUpHere (l : Lexer) : Except Fault Lexer := l.giveUp fun c => c.1 == l.flowLevel

/-- Makes the next token a candidate, where a key may begin. -/
def propose (l : Lexer) : Except Fault Lexer :=
  if !l.keyAllowed then .ok l
  else do
    let l ← l.giveUpHere
    let c := l.cursor
    let required := l.inBlock && l.column == c.column
    let candidate : Candidate := ⟨l.count, required, c.index, c.line, c.column⟩
    return { l with candidates := (l.flowLevel, candidate) :: l.candidates }

/-! ## Space -/

/-- Drops blanks, comments and line ends. Outside of flow collections a key may begin on a new
line. -/
def skipSpace : Nat → Lexer → Lexer
  | 0, l => l
  | fuel + 1, l =>
    let here := l.cursor.skipWhile (· == ' ')
    let last := if here.isAt '#' then here.skipWhile fun x => !isBreak x else here
    match last.takeBreak with
    | none => { l with cursor := last }
    | some (_, below) =>
      skipSpace fuel { l with cursor := below, keyAllowed := l.keyAllowed || l.inBlock }

/-! ## Single tokens -/

/-- Ends the text. -/
def finish (l : Lexer) : Except Fault Lexer := do
  let l ← (l.closeBlocks (-1)).giveUpHere
  return { l.push .streamEnd with keyAllowed := false, candidates := [], isDone := true }

/-- A directive. -/
def readDirective (l : Lexer) : Except Fault Lexer := do
  let l ← (l.closeBlocks (-1)).giveUpHere
  let (found, below) ← directive l.cursor
  return { l.push (.directive found) with keyAllowed := false, cursor := below }

/-- The mark of a document's beginning or end. -/
def readBoundary (l : Lexer) (t : Token) : Except Fault Lexer := do
  let l ← (l.closeBlocks (-1)).giveUpHere
  return { (l.push t).skip 3 with keyAllowed := false }

/-- An opening bracket. -/
def readOpening (l : Lexer) (t : Token) : Except Fault Lexer := do
  let l ← l.propose
  return { (l.push t).skip 1 with flowLevel := l.flowLevel + 1, keyAllowed := true }

/-- A closing bracket. -/
def readClosing (l : Lexer) (t : Token) : Except Fault Lexer := do
  let l ← l.giveUpHere
  return { (l.push t).skip 1 with flowLevel := l.flowLevel - 1, keyAllowed := false }

/-- A comma. -/
def readComma (l : Lexer) : Except Fault Lexer := do
  let l ← l.giveUpHere
  return { (l.push .flowEntry).skip 1 with keyAllowed := true }

/-- A dash. -/
def readDash (l : Lexer) : Except Fault Lexer := do
  if l.inBlock && !l.keyAllowed then noToken
  let l ← (if l.inBlock then l.openHere .sequenceStart else l).giveUpHere
  return { (l.push .blockEntry).skip 1 with keyAllowed := true }

/-- A question mark in front of a key. -/
def readKey (l : Lexer) : Except Fault Lexer := do
  if l.inBlock && !l.keyAllowed then noToken
  let l ← (if l.inBlock then l.openHere .mappingStart else l).giveUpHere
  return { (l.push .key).skip 1 with keyAllowed := l.inBlock }

/-- A colon. If there is a candidate in front of it, that is a key. -/
def readColon (l : Lexer) : Except Fault Lexer :=
  match l.candidates.find? fun c => c.1 == l.flowLevel with
  | some (_, c) =>
    let l := { l with candidates := l.candidates.filter fun c => c.1 != l.flowLevel }
    let keyed := l.insertAt c.position [.key]
    let l := if l.inBlock then keyed.openBlock c.column c.position .mappingStart else keyed
    .ok { (l.push .value).skip 1 with keyAllowed := false }
  | none => do
    if l.inBlock && !l.keyAllowed then noToken
    let l ← (if l.inBlock then l.openHere .mappingStart else l).giveUpHere
    return { (l.push .value).skip 1 with keyAllowed := l.inBlock }

/-- A label or a scalar that ends at a place. -/
def readItem (l : Lexer) (item : Except Fault (Token × Cursor)) : Except Fault Lexer := do
  let l ← l.propose
  let (t, last) ← item
  return { l.push t with keyAllowed := false, cursor := last }

/-- A block scalar. -/
def readBlock (l : Lexer) (folded : Bool) : Except Fault Lexer := do
  let l ← l.giveUpHere
  let (t, last) ← block folded l.column l.cursor
  return { l.push (.quoted t) with keyAllowed := true, cursor := last }

/-- A plain scalar. A key may begin behind it if it is followed by a line end. -/
def readPlain (l : Lexer) : Except Fault Lexer := do
  let l ← l.propose
  let (chars, space) := plain (!l.inBlock) (l.column + 1) l.cursor
  return { l.push (.plain chars) with keyAllowed := space.breaks, cursor := space.behind }

/-! ## The next token -/

/-- Reads the next token of the text, with the ends of the blocks in front of it. -/
def read (l : Lexer) : Except Fault Lexer := do
  let l ← (l.skipSpace (l.cursor.rest.length + 1)).giveUpStale
  let l := l.closeBlocks l.cursor.column
  let c := l.cursor
  let firstColumn := c.column == 0
  match c.rest with
  | [] => l.finish
  | x :: _ =>
    if x == '%' && firstColumn then l.readDirective
    else if firstColumn && c.hasMark "---" then l.readBoundary .documentStart
    else if firstColumn && c.hasMark "..." then l.readBoundary .documentEnd
    else if x == '[' then l.readOpening .flowSequenceStart
    else if x == '\x7b' then l.readOpening .flowMappingStart
    else if x == ']' then l.readClosing .flowSequenceEnd
    else if x == '\x7d' then l.readClosing .flowMappingEnd
    else if x == ',' then l.readComma
    else if x == '-' && c.endsWord 1 then l.readDash
    else if x == '?' && (!l.inBlock || c.endsWord 1) then l.readKey
    else if x == ':' && (!l.inBlock || c.endsWord 1) then l.readColon
    else if x == '*' then l.readItem ((name c).map fun r => (.alias r.1, r.2))
    else if x == '&' then l.readItem ((name c).map fun r => (.anchor r.1, r.2))
    else if x == '!' then l.readItem ((tag c).map fun r => (.tag r.1, r.2))
    else if x == '|' && l.inBlock then l.readBlock false
    else if x == '>' && l.inBlock then l.readBlock true
    else if x == '\'' || x == '"' then l.readItem ((quoted x c).map fun r => (.quoted r.1, r.2))
    else if startsPlain (!l.inBlock) c then l.readPlain
    else noToken

/-- Whether the first token of the queue has to wait for more, because it may be a key. -/
def needsMore (l : Lexer) : Except Fault (Lexer × Bool) :=
  if l.isDone then .ok (l, false)
  else if l.waiting.isEmpty then .ok (l, true)
  else do
    let l ← l.giveUpStale
    return (l, l.candidates.any fun c => c.2.position == l.released)

/-- The tokens that leave the queue in `fuel` steps, and the fault behind them, if there is one. -/
def release : Nat → Lexer → List Token × Option Fault
  | 0, _ => ([], none)
  | fuel + 1, l =>
    match l.needsMore with
    | .error f => ([], some f)
    | .ok (l, true) =>
      match l.read with
      | .error f => ([], some f)
      | .ok l => release fuel l
    | .ok (l, false) =>
      match l.waiting with
      | [] => ([], none)
      | t :: rest =>
        let (ts, f) := release fuel { l with waiting := rest, released := l.released + 1 }
        (t :: ts, f)

end Lexer

/-- The place of a text's first token; a mark of the byte order in front of it does not count. -/
def firstPlace (cs : List Char) : Cursor :=
  let c : Cursor := { rest := cs }
  if c.isAt orderMark then c.next else c

/-- The tokens of a text up to its first fault. Every token takes a character or closes a block that
one has opened, so that six steps for each character suffice. -/
def tokens (cs : List Char) : List Token × Option Fault :=
  Lexer.release (6 * cs.length + 12) { cursor := firstPlace cs }

end Yaml
end PadicLift
