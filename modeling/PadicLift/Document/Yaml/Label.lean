import PadicLift.Document.Yaml.Quoted

/-!
# Labels and directives

Besides its content a node may carry a name, by which it is used again, and a tag, which says what
kind of value it is. A tag is written out between angles, or as a handle and what follows it.
Directives in front of a document tell what handles stand for.
-/

namespace PadicLift
namespace Yaml

/-! ## Names -/

/-- Whether a character may stand in a name. -/
def isNameChar (c : Char) : Bool := c.isAlphanum || c == '-' || c == '_'

/-- What may follow a name directly. -/
def nameEnds : List Char := ['?', ':', ',', ']', '\x7d', '%', '@', Char.ofNat 96]

/-- The name behind the mark that stands here. -/
def name (c : Cursor) : Except Fault (List Char × Cursor) :=
  let (chars, last) := c.next.takeWhile isNameChar
  if !chars.isEmpty && (last.endsWord 0 || last.head?.elim false nameEnds.contains) then
    .ok (chars, last)
  else noToken

/-! ## Tags -/

/-- A tag as it is written: a handle, if there is one, and what follows it. -/
structure TagText where
  handle : Option (List Char)
  suffix : List Char
deriving DecidableEq, Repr

/-- Whether a character may stand in a tag as it is. -/
def isTagChar (c : Char) : Bool :=
  c.isAlphanum || "-;/?:@&=+$,_.!~*'()[]".toList.contains c

/-- The byte that two hexadecimal digits behind a percent sign give. -/
def percentByte (c : Cursor) : Except Fault UInt8 :=
  match (c.next.rest.take 2).mapM Json.hexValue with
  | some [high, low] => .ok (UInt8.ofNat (16 * high + low))
  | _ => noToken

/-- The bytes written from here on. -/
def percentBytes : Nat → Cursor → Except Fault (List UInt8 × Cursor)
  | 0, c => .ok ([], c)
  | fuel + 1, c =>
    if c.isAt '%' then do
      let byte ← percentByte c
      let (more, last) ← percentBytes fuel (c.skip 3)
      return (byte :: more, last)
    else .ok ([], c)

/-- The characters of a tag from here on. -/
def tagChars : Nat → Cursor → Except Fault (List Char × Cursor)
  | 0, c => .ok ([], c)
  | fuel + 1, c =>
    if c.isAt '%' then do
      let (bytes, here) ← percentBytes c.rest.length c
      match String.fromUTF8? ⟨bytes.toArray⟩ with
      | none => noToken
      | some text =>
        let (more, last) ← tagChars fuel here
        return (text.toList ++ more, last)
    else
      match c.takeWhile isTagChar with
      | ([], _) => .ok ([], c)
      | (chars, here) => do
        let (more, last) ← tagChars fuel here
        return (chars ++ more, last)

/-- The text of a tag, which may not be empty. -/
def tagText (c : Cursor) : Except Fault (List Char × Cursor) := do
  let (chars, last) ← tagChars (c.rest.length + 1) c
  if chars.isEmpty then noToken else return (chars, last)

/-- A handle: a single mark, or a name between two marks. -/
def tagHandle (c : Cursor) : Except Fault (List Char × Cursor) :=
  if !c.isAt '!' then noToken
  else if c.next.isAt ' ' then .ok (['!'], c.next)
  else
    let (chars, last) := c.next.takeWhile isNameChar
    if last.isAt '!' then .ok ('!' :: chars ++ ['!'], last.next) else noToken

/-- Whether a blank or the end of the line is here. -/
def endsTag (c : Cursor) : Bool := c.isLineEnd || c.isAt ' '

/-- Whether a second mark stands in front of the end of the tag. -/
def hasHandle (c : Cursor) : Bool :=
  (c.next.rest.takeWhile fun x => x != ' ' && !isBreak x).contains '!'

/-- The tag that starts here. -/
def tag (c : Cursor) : Except Fault (TagText × Cursor) := do
  let (found, last) ←
    if c.next.isAt '<' then do
      let (suffix, here) ← tagText (c.skip 2)
      if here.isAt '>' then pure (⟨none, suffix⟩, here.next) else noToken
    else if c.endsWord 1 then pure ((⟨none, ['!']⟩ : TagText), c.next)
    else do
      let (handle, here) ← if hasHandle c then tagHandle c else pure (['!'], c.next)
      let (suffix, last) ← tagText here
      pure (⟨some handle, suffix⟩, last)
  if endsTag last then return (found, last) else noToken

/-! ## Directives -/

/-- A line in front of a document. -/
inductive Directive
  | version (major : Nat)
  | handle (name meaning : List Char)
  | other
deriving DecidableEq, Repr

/-- A number in decimal digits. -/
def decimalNumber (c : Cursor) : Except Fault (Nat × Cursor) :=
  match c.takeWhile Char.isDigit with
  | ([], _) => noToken
  | (digits, last) => .ok (digits.foldl (fun s d => 10 * s + (d.toNat - 48)) 0, last)

/-- A version: two numbers with a point between them. -/
def version (c : Cursor) : Except Fault (Directive × Cursor) := do
  let (major, here) ← decimalNumber (c.skipWhile (· == ' '))
  if !here.isAt '.' then noToken
  let (_, last) ← decimalNumber here.next
  if endsTag last then return (.version major, last) else noToken

/-- A handle and what it stands for. -/
def handleMeaning (c : Cursor) : Except Fault (Directive × Cursor) := do
  let (handle, here) ← tagHandle (c.skipWhile (· == ' '))
  if !here.isAt ' ' then noToken
  let (meaning, last) ← tagText (here.skipWhile (· == ' '))
  if endsTag last then return (.handle handle meaning, last) else noToken

/-- The directive that starts here, and the place below its line. -/
def directive (c : Cursor) : Except Fault (Directive × Cursor) := do
  let (kind, here) := c.next.takeWhile isNameChar
  if kind.isEmpty || !endsTag here then noToken
  let (found, last) ←
    if kind == "YAML".toList then version here
    else if kind == "TAG".toList then handleMeaning here
    else pure (.other, here.skipWhile fun x => !isBreak x)
  match last.skipBareLine with
  | some below => return (found, below)
  | none => noToken

end Yaml
end PadicLift
