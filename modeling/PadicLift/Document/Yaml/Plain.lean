import PadicLift.Document.Yaml.Quoted

/-!
# Plain scalars

A scalar without quotes consists of words between blanks and line ends. It ends in front of a colon
with a blank behind it, of a comment, and within flow collections in front of their punctuation. It
goes on below as long as lines are further in than the block around it.
-/

namespace PadicLift
namespace Yaml

/-- The punctuation of flow collections. -/
def flowMarks : List Char := [',', '[', ']', '\x7b', '\x7d']

/-- Characters that no plain scalar starts with. -/
def indicators : List Char :=
  flowMarks ++ ['-', '?', ':', '#', '&', '*', '!', '|', '>', '\'', '"', '%', '@', Char.ofNat 96]

/-- Whether a plain scalar can start here. -/
def startsPlain (flow : Bool) (c : Cursor) : Bool :=
  match c.rest with
  | [] => false
  | x :: _ =>
    !(isSpace x || isBreak x || indicators.contains x) ||
      (!c.endsWord 1 && (x == '-' || (!flow && (x == '?' || x == ':'))))

/-- Whether a colon with this behind it ends a plain scalar. -/
def colonEnds (flow : Bool) (behind : List Char) : Bool :=
  behind.head?.elim true fun x => isSpace x || isBreak x || (flow && flowMarks.contains x)

/-- The characters of a word of a plain scalar. -/
def plainWord (flow : Bool) : List Char → List Char
  | [] => []
  | x :: rest =>
    if isSpace x || isBreak x || (x == ':' && colonEnds flow rest) ||
        (flow && (x == '?' || flowMarks.contains x)) then []
    else x :: plainWord flow rest

/-- The line ends from here on, among blanks, and whether a document begins or ends there. -/
def plainBreaks : Nat → Cursor → List Char × Cursor × Bool
  | 0, c => ([], c, true)
  | fuel + 1, c =>
    if c.isBoundary then ([], c, true)
    else
      let here := c.skipWhile (· == ' ')
      match here.takeBreak with
      | none => ([], here, false)
      | some (x, below) =>
        let (more, last, stops) := plainBreaks fuel below
        (x :: more, last, stops)

/-- The space behind a word of a plain scalar. -/
structure Space where
  /-- What it comes to; nothing, where the scalar ends. -/
  chars : List Char
  behind : Cursor
  /-- Whether it goes on below its line. -/
  breaks : Bool

/-- The space from here on. -/
def plainSpace (fuel : Nat) (c : Cursor) : Space :=
  let (blanks, here) := c.takeWhile (· == ' ')
  match here.takeBreak with
  | none => ⟨blanks, here, false⟩
  | some (x, below) =>
    let (more, last, stops) := plainBreaks fuel below
    ⟨if stops then [] else fold (x :: more), last, true⟩

/-- The words from here on and the space in front of each of them but the first; `space` is the last
space. Words below the first line have to stand in the column `least` or further in. -/
def plainWords (flow : Bool) (least : Int) : Nat → Space → List Char × Space
  | 0, space => ([], space)
  | fuel + 1, space =>
    let word := if space.behind.isAt '#' then [] else plainWord flow space.behind.rest
    if word.isEmpty then ([], space)
    else
      let after := plainSpace fuel (space.behind.skip word.length)
      let begun := space.chars ++ word
      if after.chars.isEmpty || (!flow && decide (after.behind.column < least)) then (begun, after)
      else
        let (more, last) := plainWords flow least fuel after
        (begun ++ more, last)

/-- The plain scalar that starts here and the space behind it. -/
def plain (flow : Bool) (least : Int) (c : Cursor) : List Char × Space :=
  plainWords flow least (c.rest.length + 1) ⟨[], c, false⟩

end Yaml
end PadicLift
