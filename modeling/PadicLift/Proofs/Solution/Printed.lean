import Mathlib
import PadicLift.CommandLine.Session

/-!
# Printed solutions

A fraction is printed as an integer, or as two integers with a slash between them, and either form
reads back as the fraction (`Fraction.ofText?_text`). Such texts need no escapes, so what is printed
of a solution can be told line by line, without the rules that hold for documents in general
(`writeIndented_resultDocument`).
-/

namespace PadicLift

/-! ## Fractions -/

namespace Fraction

/-- The fraction that a text spells: an integer, or an integer and a positive one behind a slash. -/
def ofText? (t : String) : Option ℚ :=
  match t.toList.dropWhile (· != '/') with
  | [] => t.toInt?.map fun (v : ℤ) => (v : ℚ)
  | _ :: back => do
    let v ← (String.ofList (t.toList.takeWhile (· != '/'))).toInt?
    let d ← (String.ofList back).toNat?
    if d = 0 then none else some (v / d)

theorem isDigit_of_mem_repr {n : ℕ} {c : Char} (hc : c ∈ n.repr.toList) : c.isDigit = true := by
  rw [Nat.repr_eq_ofList_toDigits, String.toList_ofList] at hc
  exact Nat.isDigit_of_mem_toDigits (by decide) le_rfl hc

/-- An integer is written with digits, perhaps behind a minus sign. -/
theorem isDigit_or_eq_of_mem_repr {v : ℤ} {c : Char} (hc : c ∈ v.repr.toList) :
    c.isDigit = true ∨ c = '-' := by
  cases v with
  | ofNat n => exact .inl (isDigit_of_mem_repr (n := n) hc)
  | negSucc n =>
    rw [Int.repr, String.toList_append, List.mem_append] at hc
    rcases hc with hc | hc
    · exact .inr (List.mem_singleton.1 hc)
    · exact .inl (isDigit_of_mem_repr hc)

/-- No integer is written with a slash. -/
theorem ne_slash_of_mem_repr {v : ℤ} {c : Char} (hc : c ∈ v.repr.toList) : (c != '/') = true := by
  rw [bne_iff_ne]
  rintro rfl
  exact absurd (isDigit_or_eq_of_mem_repr hc) (by decide)

/-- A fraction that is no integer is written with a slash. -/
theorem text_of_den_ne_one {q : ℚ} (h : q.den ≠ 1) : text q = q.num.repr ++ "/" ++ q.den.repr := by
  rw [text, if_neg h]
  rfl

/-- The text of a fraction reads back as the fraction. -/
theorem ofText?_text (q : ℚ) : ofText? (text q) = some q := by
  by_cases hden : q.den = 1
  · have hwhole : text q = q.num.repr := if_pos hden
    have hslash : q.num.repr.toList.dropWhile (· != '/') = [] :=
      List.dropWhile_eq_nil_iff.2 fun c => ne_slash_of_mem_repr
    rw [ofText?, hwhole, hslash]
    dsimp only
    rw [Int.toInt?_repr, Option.map_some, Option.some.injEq]
    exact Rat.coe_int_num_of_den_eq_one hden
  · have hchars : (text q).toList = q.num.repr.toList ++ '/' :: q.den.repr.toList := by
      rw [text_of_den_ne_one hden, String.toList_append, String.toList_append, List.append_assoc]
      rfl
    have hfront : (text q).toList.takeWhile (· != '/') = q.num.repr.toList := by
      rw [hchars, List.takeWhile_append_of_pos fun c => ne_slash_of_mem_repr,
        List.takeWhile_cons_of_neg (by decide), List.append_nil]
    have hback : (text q).toList.dropWhile (· != '/') = '/' :: q.den.repr.toList := by
      rw [hchars, List.dropWhile_append_of_pos fun c => ne_slash_of_mem_repr,
        List.dropWhile_cons_of_neg (by decide)]
    rw [ofText?, hfront, hback]
    dsimp only
    rw [String.ofList_toList, String.ofList_toList, Int.toInt?_repr, Nat.toNat?_repr]
    show (if q.den = 0 then none else some ((q.num : ℚ) / q.den)) = some q
    rw [if_neg q.den_ne_zero, Rat.num_div_den]

end Fraction

/-! ## Texts without escapes -/

namespace Json

/-- The character is written as it is: printable ASCII that is neither a quote nor a backslash. -/
def IsPlain (c : Char) : Prop :=
  32 ≤ c.toNat ∧ c.toNat < 127 ∧ c.toNat ≠ 34 ∧ c.toNat ≠ 92

theorem escapePoint_of_isPlain {c : Char} (hc : IsPlain c) : escapePoint c.toNat = [c] := by
  obtain ⟨hlow, hhigh, hquote, hslash⟩ := hc
  unfold escapePoint
  rw [if_neg hquote, if_neg hslash, if_neg (by omega), if_neg (by omega), if_neg (by omega),
    if_neg (by omega), if_neg (by omega), if_pos ⟨hlow, hhigh⟩, Char.ofNat_toNat]

/-- A text of such characters stands between its quotes as it is. -/
theorem quote_of_isPlain {s : String} (hs : ∀ c ∈ s.toList, IsPlain c) :
    quote (s : Text) = "\"" ++ s ++ "\"" := by
  have hpoints : (Text.ofString s).points.flatMap escapePoint = s.toList := by
    rw [Text.ofString, Text.ofChars, List.flatMap_map]
    exact (List.flatMap_congr fun c hc => escapePoint_of_isPlain (hs c hc)).trans
      (List.flatMap_singleton' _)
  rw [quote, hpoints]
  apply String.toList_injective
  rw [String.toList_ofList, String.toList_append, String.toList_append]
  rfl

/-- Brackets around members on lines of their own. -/
theorem spread_of_ne_nil (opening closing : String) (indent step : ℕ) {members : List String}
    (h : members ≠ []) : spread opening closing indent step members
      = opening ++ newLine (indent + step) ++
        String.intercalate ("," ++ newLine (indent + step)) members ++ newLine indent ++
        closing := by
  rw [spread, if_neg (by simpa using h)]

theorem isPlain_of_isDigit {c : Char} (hc : c.isDigit = true) : IsPlain c := by
  obtain ⟨hlow, hhigh⟩ : 48 ≤ c.toNat ∧ c.toNat ≤ 57 := by
    simpa [Char.isDigit, UInt32.le_iff_toNat_le] using hc
  exact ⟨by omega, by omega, by omega, by omega⟩

theorem isPlain_of_mem_repr {v : ℤ} {c : Char} (hc : c ∈ v.repr.toList) : IsPlain c := by
  rcases Fraction.isDigit_or_eq_of_mem_repr hc with hc | rfl
  · exact isPlain_of_isDigit hc
  · exact ⟨by decide, by decide, by decide, by decide⟩

/-- A fraction is written in plain characters. -/
theorem isPlain_of_mem_text {q : ℚ} {c : Char} (hc : c ∈ (Fraction.text q).toList) :
    IsPlain c := by
  by_cases hden : q.den = 1
  · rw [Fraction.text, if_pos hden] at hc
    exact isPlain_of_mem_repr hc
  · rw [Fraction.text_of_den_ne_one hden, String.toList_append, String.toList_append,
      List.mem_append, List.mem_append] at hc
    obtain (hc | hc) | hc := hc
    · exact isPlain_of_mem_repr hc
    · rw [List.mem_singleton.1 hc]
      exact ⟨by decide, by decide, by decide, by decide⟩
    · exact isPlain_of_isDigit (Fraction.isDigit_of_mem_repr hc)

theorem quote_toString (v : ℤ) : quote (toString v : String) = "\"" ++ toString v ++ "\"" :=
  quote_of_isPlain fun _ => isPlain_of_mem_repr

end Json

/-! ## Reports -/

namespace CommandLine

/-- A line for every fraction and one for the denominator, given as texts. -/
def solutionLines (fractions : List String) (denominator : String) : String :=
  "\x7b\n  \"x\": [\n    " ++
    String.intercalate ",\n    " (fractions.map fun t => "\"" ++ t ++ "\"") ++
    "\n  ],\n  \"denominator\": \"" ++ denominator ++ "\"\n\x7d"

/-- The texts of fractions stand on their lines as they are. -/
theorem indentedItems_text (step indent : ℕ) (xs : List ℚ) :
    Json.indentedItems step indent (xs.map fun q => .string (Fraction.text q))
      = (xs.map Fraction.text).map fun t => "\"" ++ t ++ "\"" := by
  induction xs with
  | nil => rfl
  | cons q xs ih =>
    rw [List.map_cons, Json.indentedItems, ih, List.map_cons, List.map_cons, Document.string,
      Json.writeIndented, Json.quote_of_isPlain fun c => Json.isPlain_of_mem_text]

/-- The list of the fractions is spread over lines. -/
theorem writeIndented_fractions {xs : List ℚ} (hxs : xs ≠ []) :
    Json.writeIndented 2 2 (.list (xs.map fun q => .string (Fraction.text q)))
      = "[" ++ "\n    " ++
        String.intercalate ("," ++ "\n    ")
          ((xs.map Fraction.text).map fun t => "\"" ++ t ++ "\"") ++
        "\n  " ++ "]" := by
  have hmembers : (xs.map Fraction.text).map (fun t => "\"" ++ t ++ "\"") ≠ [] := by
    rw [List.map_map]
    exact mt List.map_eq_nil_iff.1 hxs
  rw [Json.writeIndented, indentedItems_text, Json.spread_of_ne_nil _ _ _ _ hmembers]
  rfl

/-- The two fields of a report stand on lines of their own. -/
theorem writeIndented_fields (d e : Document) :
    Json.writeIndented 2 0 (.record [("x", d), ("denominator", e)])
      = "\x7b" ++ "\n  " ++
        ("\"x\"" ++ ": " ++ Json.writeIndented 2 2 d ++ ("," ++ "\n  ") ++
          ("\"denominator\"" ++ ": " ++ Json.writeIndented 2 2 e)) ++
        "\n" ++ "\x7d" := by
  have hx : Json.quote ("x" : String) = "\"x\"" := by decide +kernel
  have hname : Json.quote ("denominator" : String) = "\"denominator\"" := by decide +kernel
  have hline : Json.newLine (0 + 2) = "\n  " := rfl
  have hend : Json.newLine 0 = "\n" := rfl
  rw [Document.record, List.map_cons, List.map_cons, List.map_nil, Json.writeIndented,
    Json.indentedFields, Json.indentedFields, Json.indentedFields, Json.keyText, Json.keyText,
    Json.spread_of_ne_nil _ _ _ _ (List.cons_ne_nil _ _), String.intercalate_cons_cons,
    String.intercalate_singleton, hx, hname, hline, hend]

/-- A solution with at least one fraction is printed line by line. -/
theorem writeIndented_resultDocument (x : Solution) {xs : List ℚ} (hxs : xs ≠ []) :
    Json.writeIndented 2 0 (resultDocument x xs)
      = solutionLines (xs.map Fraction.text) (toString x.denominator) := by
  have hdenominator : Json.writeIndented 2 2 (.string (toString x.denominator))
      = "\"" ++ toString x.denominator ++ "\"" := by
    rw [Document.string, Json.writeIndented, Json.quote_toString]
  rw [resultDocument, writeIndented_fields, writeIndented_fractions hxs, hdenominator]
  unfold solutionLines
  apply String.toList_injective
  simp [String.toList_append]

end CommandLine
end PadicLift
