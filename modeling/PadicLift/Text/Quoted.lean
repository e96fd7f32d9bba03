import PadicLift.Text.Basic
import PadicLift.Text.Hidden

/-!
# Quoted texts

A text inside a message stands between single quotes, or between double quotes where it holds a
single quote and no double one. Code points that do not show are written in hexadecimal.
-/

namespace PadicLift
namespace Quoted

/-- A number in hexadecimal with at least `width` digits. -/
def hex (width n : Nat) : List Char :=
  let digits := Nat.toDigits 16 n
  List.replicate (width - digits.length) '0' ++ digits

/-- A code point that does not show. -/
def codePoint (n : Nat) : List Char :=
  if n < 0x100 then '\\' :: 'x' :: hex 2 n
  else if n < 0x10000 then '\\' :: 'u' :: hex 4 n
  else '\\' :: 'U' :: hex 8 n

/-- A code point between the given quotes. -/
def escape (quote : Char) (n : Nat) : List Char :=
  if n = quote.toNat ∨ n = '\\'.toNat then ['\\', Text.character n]
  else if n = '\n'.toNat then ['\\', 'n']
  else if n = '\r'.toNat then ['\\', 'r']
  else if n = '\t'.toNat then ['\\', 't']
  else if Text.isHidden n then codePoint n
  else [Text.character n]

/-- The quotes that suit a text. -/
def quoteFor (t : Text) : Char :=
  if t.points.contains '\''.toNat && !t.points.contains '"'.toNat then '"' else '\''

/-- A text between quotes. -/
def text (t : Text) : String :=
  let quote := quoteFor t
  String.ofList (quote :: t.points.flatMap (escape quote) ++ [quote])

end Quoted
end PadicLift
