/-!
# Places in a text

A `Cursor` stands at a place in a text: it knows what follows, and in which line and column it is.
Lines end where `isBreak` says so. A mark of the byte order takes no column.
-/

namespace PadicLift
namespace Yaml

/-! ## Characters -/

/-- The separators of lines and of paragraphs, which end a line and remain in a text. -/
def isSeparator (c : Char) : Bool := c.toNat == 0x2028 || c.toNat == 0x2029

/-- Whether a character ends a line. -/
def isBreak (c : Char) : Bool := c == '\n' || isSeparator c

/-- Whether a character is a blank or a tabulator. -/
def isSpace (c : Char) : Bool := c == ' ' || c == '\t'

/-- The mark of the byte order. -/
def orderMark : Char := Char.ofNat 0xFEFF

/-- Whether a text may hold a character. -/
def isAllowed (c : Char) : Bool :=
  let n := c.toNat
  c == '\t' || c == '\n' || c == '\r' || (0x20 ≤ n && n ≤ 0x7E) || n == 0x85 ||
    (0xA0 ≤ n && n != 0xFFFE && n != 0xFFFF)

/-- The characters with one and the same line end wherever a line does not end in a separator. -/
def unifyBreaks : List Char → List Char
  | [] => []
  | '\r' :: '\n' :: rest => '\n' :: unifyBreaks rest
  | c :: rest => (if c == '\r' || c.toNat == 0x85 then '\n' else c) :: unifyBreaks rest

/-! ## Places -/

/-- A place in a text. -/
structure Cursor where
  /-- The characters from here on. -/
  rest : List Char
  /-- The number of characters before. -/
  index : Nat := 0
  line : Nat := 0
  column : Nat := 0
deriving Repr

namespace Cursor

/-- The place behind the next character. -/
def next (c : Cursor) : Cursor :=
  match c.rest with
  | [] => c
  | x :: rest =>
    if isBreak x then ⟨rest, c.index + 1, c.line + 1, 0⟩
    else if x == orderMark then ⟨rest, c.index + 1, c.line, c.column⟩
    else ⟨rest, c.index + 1, c.line, c.column + 1⟩

/-- The place behind the next `count` characters. -/
def skip : Nat → Cursor → Cursor
  | 0, c => c
  | count + 1, c => skip count c.next

/-- The characters from here on that pass a test, and the place behind them. -/
def takeWhile (p : Char → Bool) (c : Cursor) : List Char × Cursor :=
  let taken := c.rest.takeWhile p
  (taken, skip taken.length c)

/-- The place behind the characters that pass a test. -/
def skipWhile (p : Char → Bool) (c : Cursor) : Cursor := (c.takeWhile p).2

/-- The end of the line, if it is here, and the place behind it. -/
def takeBreak (c : Cursor) : Option (Char × Cursor) :=
  match c.rest with
  | x :: _ => if isBreak x then some (x, c.next) else none
  | [] => none

/-- The next character. -/
def head? (c : Cursor) : Option Char := c.rest.head?

/-- Whether the given character comes next. -/
def isAt (x : Char) (c : Cursor) : Bool := c.rest.head? == some x

/-- Whether the line or the text ends here. -/
def isLineEnd (c : Cursor) : Bool := c.rest.head?.elim true isBreak

/-- Whether a blank, the end of the line or the end of the text follows the next `count`
characters. -/
def endsWord (count : Nat) (c : Cursor) : Bool :=
  (c.rest[count]?).elim true fun x => isSpace x || isBreak x

/-- Whether the given mark stands here by itself. -/
def hasMark (mark : String) (c : Cursor) : Bool :=
  mark.toList.isPrefixOf c.rest && c.endsWord mark.length

/-- Whether a document begins or ends here, at the start of a line. -/
def isBoundary (c : Cursor) : Bool := c.hasMark "---" || c.hasMark "..."

/-- The place behind the rest of a line that holds nothing but blanks and a comment, if it does. -/
def skipBareLine (c : Cursor) : Option Cursor :=
  let here := c.skipWhile (· == ' ')
  let last := if here.isAt '#' then here.skipWhile fun x => !isBreak x else here
  if last.isLineEnd then some last.next else none

end Cursor
end Yaml
end PadicLift
