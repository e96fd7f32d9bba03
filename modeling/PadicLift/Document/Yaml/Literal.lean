import PadicLift.Document.Yaml.Quoted

/-!
# Block scalars

A block scalar starts with a bar or an angle and takes all lines below that are far enough in. With
an angle lines are joined by blanks, as long as they do not start with blanks themselves. A sign
tells whether the line ends behind the last line are dropped or kept; without one a single line end
remains. A digit gives the indentation, which the first line gives otherwise.
-/

namespace PadicLift
namespace Yaml

/-- What the first line of a block scalar asks for. -/
structure BlockStyle where
  folded : Bool
  /-- Whether all line ends at the end are kept; without an answer one of them is. -/
  keep : Option Bool
  /-- The columns by which the lines are further in than the block around them. -/
  increment : Option Nat

/-- Whether the line ends at the end are kept. -/
def keepSign? : Option Char → Option Bool
  | some '+' => some true
  | some '-' => some false
  | _ => none

/-- The digit of an indentation. -/
def incrementDigit? : Option Char → Option Nat
  | some x => if x.isDigit then some (x.toNat - 48) else none
  | none => none

/-- The style that the marks behind the bar or the angle give, in any order, and the place behind
them. -/
def blockStyle (folded : Bool) (c : Cursor) : Except Fault (BlockStyle × Cursor) :=
  let (style, here) : BlockStyle × Cursor :=
    match keepSign? c.head?, incrementDigit? c.head? with
    | some keep, _ =>
      match incrementDigit? c.next.head? with
      | some k => (⟨folded, some keep, some k⟩, c.skip 2)
      | none => (⟨folded, some keep, none⟩, c.next)
    | none, some k =>
      match keepSign? c.next.head? with
      | some keep => (⟨folded, some keep, some k⟩, c.skip 2)
      | none => (⟨folded, none, some k⟩, c.next)
    | none, none => (⟨folded, none, none⟩, c)
  if style.increment = some 0 then noToken
  else if here.isLineEnd || here.isAt ' ' then .ok (style, here)
  else noToken

/-- The place behind blanks up to a column. -/
def skipIndent (column : Nat) : Nat → Cursor → Cursor
  | 0, c => c
  | fuel + 1, c =>
    if c.isAt ' ' && decide (c.column < column) then skipIndent column fuel c.next else c

/-- The line ends in front of the next line, and the place in that line at the given column, or
before it where the line is not as far in. -/
def blockBreaks (column : Nat) : Nat → Cursor → List Char × Cursor
  | 0, c => ([], c)
  | fuel + 1, c =>
    let here := skipIndent column c.rest.length c
    match here.takeBreak with
    | none => ([], here)
    | some (x, below) =>
      let (more, last) := blockBreaks column fuel below
      (x :: more, last)

/-- The line ends and blanks in front of the first line, and the largest column reached. -/
def leadingBreaks : Nat → Cursor → Nat → List Char × Cursor × Nat
  | 0, c, widest => ([], c, widest)
  | fuel + 1, c, widest =>
    match c.takeBreak with
    | some (x, below) =>
      let (more, last, column) := leadingBreaks fuel below widest
      (x :: more, last, column)
    | none =>
      if c.isAt ' ' then leadingBreaks fuel c.next (max widest c.next.column)
      else ([], c, widest)

/-- Whether a line starts with blanks of its own. -/
def startsBlank (c : Cursor) : Bool := c.head?.elim false isSpace

/-- The lines of a block scalar at the given column, with the line ends in front of them. -/
def blockLines (style : BlockStyle) (column : Nat) :
    Nat → List Char → Cursor → List Char × Cursor
  | 0, _, c => ([], c)
  | fuel + 1, breaks, c =>
    let (line, here) := c.takeWhile fun x => !isBreak x
    let (ending, below) : List Char × Cursor :=
      match here.takeBreak with
      | some (x, below) => ([x], below)
      | none => ([], here)
    let (more, next) := blockBreaks column below.rest.length below
    if next.column = column ∧ next.rest ≠ [] then
      let joins := style.folded && ending == ['\n'] && !startsBlank c && !startsBlank next
      let between := if joins then (if more.isEmpty then [' '] else []) else ending
      let (later, last) := blockLines style column fuel more next
      (breaks ++ line ++ between ++ later, last)
    else
      let kept :=
        match style.keep with
        | some false => []
        | none => ending
        | some true => ending ++ more
      (breaks ++ line ++ kept, next)

/-- The block scalar that starts here, inside a block at column `outer`. -/
def block (folded : Bool) (outer : Int) (c : Cursor) : Except Fault (Text × Cursor) := do
  let (style, here) ← blockStyle folded c.next
  match here.skipBareLine with
  | none => noToken
  | some below =>
    let least := (max 1 (outer + 1)).toNat
    let (breaks, first, column) :=
      match style.increment with
      | some k =>
        let column := least + k - 1
        let (breaks, first) := blockBreaks column below.rest.length below
        (breaks, first, column)
      | none =>
        let (breaks, first, widest) := leadingBreaks below.rest.length below 0
        (breaks, first, max least widest)
    if first.column = column ∧ first.rest ≠ [] then
      let (chars, last) := blockLines style column first.rest.length breaks first
      return (.ofChars chars, last)
    else
      return (.ofChars (if style.keep = some true then breaks else []), first)

end Yaml
end PadicLift
