/-!
# Texts of code points

Documents may hold code points that are no characters: halves of surrogate pairs that stand alone.
A `Text` keeps every code point as it was written, where a `String` could not. Texts are ordered by
their code points.
-/

namespace PadicLift

/-- A text, code point by code point. -/
structure Text where
  points : List Nat
deriving DecidableEq, Repr, Inhabited

namespace Text

/-- The text with the given characters. -/
def ofChars (cs : List Char) : Text := ⟨cs.map Char.toNat⟩

/-- A string as a text. -/
def ofString (s : String) : Text := ofChars s.toList

instance : Coe String Text := ⟨ofString⟩

/-- The character of a code point; one that is no character is shown by the replacement mark. -/
def character (n : Nat) : Char := if n.isValidChar then Char.ofNat n else Char.ofNat 0xFFFD

/-- A text as a string. -/
def toString (t : Text) : String := String.ofList (t.points.map character)

instance : ToString Text := ⟨toString⟩

theorem character_toNat (c : Char) : character c.toNat = c := by
  have h : c.toNat.isValidChar := c.valid
  simp [character, h]

/-- Strings lose nothing as texts. -/
theorem toString_ofString (s : String) : (ofString s).toString = s := by
  simp only [toString, ofString, ofChars, List.map_map]
  have h : character ∘ Char.toNat = id := funext character_toNat
  rw [h, List.map_id, String.ofList_toList]

/-- The number of code points. -/
def length (t : Text) : Nat := t.points.length

/-- Whether a text has no code points. -/
def isEmpty (t : Text) : Bool := t.points.isEmpty

/-- Whether the code points `xs` come before the code points `ys`. -/
def pointsBefore : List Nat → List Nat → Bool
  | _, [] => false
  | [], _ :: _ => true
  | x :: xs, y :: ys => decide (x < y) || (x == y && pointsBefore xs ys)

/-- Whether `s` comes before `t`. -/
def before (s t : Text) : Bool := pointsBefore s.points t.points

end Text
end PadicLift
