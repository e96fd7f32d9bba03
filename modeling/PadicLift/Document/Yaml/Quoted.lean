import PadicLift.Document.Json
import PadicLift.Document.Yaml.Cursor

/-!
# Quoted scalars

A scalar between quotes may go on over several lines. Blanks around a line end do not count, a
single line end becomes a blank, and of several the first one is dropped. Between single quotes a
quote is written twice; between double quotes a backslash starts an escape.
-/

namespace PadicLift
namespace Yaml

/-- Characters that make no token. -/
def noToken {α : Type} : Except Fault α := .error (.malformedDocument .token)

/-- The code points of some characters. -/
def pointsOf (cs : List Char) : List Nat := cs.map Char.toNat

/-- What the line ends between two lines of a scalar come to: a single one becomes a blank, of more
the first one is dropped; separators are kept. -/
def fold : List Char → List Char
  | [] => []
  | c :: rest => if isSeparator c then c :: rest else if rest.isEmpty then [' '] else rest

/-! ## Line ends -/

/-- The line ends from here on, among blanks; no document may begin or end there. -/
def quotedBreaks : Nat → Cursor → Except Fault (List Char × Cursor)
  | 0, _ => noToken
  | fuel + 1, c =>
    if c.isBoundary then noToken
    else
      let here := c.skipWhile isSpace
      match here.takeBreak with
      | none => .ok ([], here)
      | some (x, below) => do
        let (more, last) ← quotedBreaks fuel below
        return (x :: more, last)

/-- Blanks and line ends inside a quoted scalar: what they come to. -/
def quotedSpace (fuel : Nat) (c : Cursor) : Except Fault (List Char × Cursor) :=
  let (blanks, here) := c.takeWhile isSpace
  match here.rest, here.takeBreak with
  | [], _ => noToken
  | _, none => .ok (blanks, here)
  | _, some (x, below) => do
    let (more, last) ← quotedBreaks fuel below
    return (fold (x :: more), last)

/-! ## Escapes -/

/-- The code point of an escape that takes no digits. -/
def escaped? : Char → Option Nat
  | '0' => some 0
  | 'a' => some 7
  | 'b' => some 8
  | 't' => some 9
  | '\t' => some 9
  | 'n' => some 10
  | 'v' => some 11
  | 'f' => some 12
  | 'r' => some 13
  | 'e' => some 27
  | ' ' => some 32
  | '"' => some 34
  | '/' => some 47
  | '\\' => some 92
  | 'N' => some 0x85
  | '_' => some 0xA0
  | 'L' => some 0x2028
  | 'P' => some 0x2029
  | _ => none

/-- How many hexadecimal digits an escape takes. -/
def escapeDigits? : Char → Option Nat
  | 'x' => some 2
  | 'u' => some 4
  | 'U' => some 8
  | _ => none

/-- The code point that the next `count` hexadecimal digits give. -/
def hexPoint (count : Nat) (c : Cursor) : Except Fault Nat :=
  match (c.rest.take count).mapM Json.hexValue with
  | none => noToken
  | some digits =>
    let n := digits.foldl (fun s d => 16 * s + d) 0
    if digits.length < count then noToken
    else if 0x80000000 ≤ n then .error .overflow
    else if 0x110000 ≤ n then .error (.argument .noCodePoint)
    else .ok n

/-- What an escape stands for, behind its backslash. An escaped line end stands for nothing. -/
def escapePoints (fuel : Nat) (c : Cursor) : Except Fault (List Nat × Cursor) :=
  match c.rest with
  | [] => noToken
  | x :: _ =>
    match escaped? x, escapeDigits? x with
    | some n, _ => .ok ([n], c.next)
    | none, some count => do
      let n ← hexPoint count c.next
      return ([n], c.next.skip count)
    | none, none =>
      if isBreak x then do
        let (breaks, last) ← quotedBreaks fuel c.next
        return (pointsOf breaks, last)
      else noToken

/-! ## Scalars -/

/-- A scalar between quotes, behind its opening quote. -/
def quotedPoints (quote : Char) : Nat → Cursor → Except Fault (List Nat × Cursor)
  | 0, _ => noToken
  | fuel + 1, c =>
    match c.rest with
    | [] => noToken
    | x :: rest =>
      if x == quote then
        if quote == '\'' && rest.head? == some quote then do
          let (more, last) ← quotedPoints quote fuel (c.skip 2)
          return (quote.toNat :: more, last)
        else .ok ([], c.next)
      else if x == '\\' && quote == '"' then do
        let (points, here) ← escapePoints fuel c.next
        let (more, last) ← quotedPoints quote fuel here
        return (points ++ more, last)
      else if isSpace x || isBreak x then do
        let (space, here) ← quotedSpace fuel c
        let (more, last) ← quotedPoints quote fuel here
        return (pointsOf space ++ more, last)
      else do
        let (more, last) ← quotedPoints quote fuel c.next
        return (x.toNat :: more, last)

/-- The scalar between quotes that starts here, and the place behind it. -/
def quoted (quote : Char) (c : Cursor) : Except Fault (Text × Cursor) := do
  let (points, last) ← quotedPoints quote c.rest.length c.next
  return (⟨points⟩, last)

end Yaml
end PadicLift
