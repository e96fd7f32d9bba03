import PadicLift.Document.Basic
import PadicLift.Fault

/-!
# Documents as JSON

`write` puts a document on one line, `writeIndented` spreads it over several; both keep to ASCII and
escape every other code point as one or two UTF-16 units. `read` accepts JSON as its grammar says,
and the words for the doubles that are not finite. A number with a point or an exponent is a double,
any other number an integer.
-/

namespace PadicLift
namespace Json

/-! ## Texts -/

/-- The digit of a number below 16. -/
def hexDigit (n : Nat) : Char := if n < 10 then Char.ofNat (48 + n) else Char.ofNat (87 + n)

/-- Four hexadecimal digits behind the mark of a UTF-16 unit. -/
def unitEscape (u : Nat) : List Char :=
  ['\\', 'u', hexDigit (u / 4096 % 16), hexDigit (u / 256 % 16), hexDigit (u / 16 % 16),
    hexDigit (u % 16)]

/-- A code point inside a text: printable ASCII as it is, with the usual escapes, and others by
their units. -/
def escapePoint (n : Nat) : List Char :=
  if n = 34 then ['\\', '"']
  else if n = 92 then ['\\', '\\']
  else if n = 10 then ['\\', 'n']
  else if n = 13 then ['\\', 'r']
  else if n = 9 then ['\\', 't']
  else if n = 8 then ['\\', 'b']
  else if n = 12 then ['\\', 'f']
  else if 32 ≤ n ∧ n < 127 then [Char.ofNat n]
  else if n < 65536 then unitEscape n
  else
    let v := n - 65536
    unitEscape (55296 + v / 1024) ++ unitEscape (56320 + v % 1024)

/-- A text between quotes. -/
def quote (t : Text) : String := String.ofList ('"' :: t.points.flatMap escapePoint ++ ['"'])

/-- A number; the doubles that are not finite have words of their own. -/
def writeNumber : Number → String
  | .infinite negative => if negative then "-Infinity" else "Infinity"
  | .undefined => "NaN"
  | n => n.text

/-- A key as a text. -/
def keyText : Key → Text
  | .null => "null"
  | .bool b => if b then "true" else "false"
  | .number n => writeNumber n
  | .text t => t
  | .moment m => m.text

/-! ## Writing -/

mutual
/-- A document on one line, with a blank behind commas and colons. -/
def write : Document → String
  | .null => "null"
  | .bool b => if b then "true" else "false"
  | .number n => writeNumber n
  | .text t => quote t
  | .moment m => quote m.text
  | .list items => "[" ++ String.intercalate ", " (writeItems items) ++ "]"
  | .mapping fields => "\x7b" ++ String.intercalate ", " (writeFields fields) ++ "\x7d"

/-- The members of a list. -/
def writeItems : List Document → List String
  | [] => []
  | d :: rest => write d :: writeItems rest

/-- The fields of a mapping. -/
def writeFields : Document.Fields → List String
  | [] => []
  | (k, d) :: rest => (quote (keyText k) ++ ": " ++ write d) :: writeFields rest
end

/-- A new line with blanks in front. -/
def newLine (indent : Nat) : String := String.ofList ('\n' :: List.replicate indent ' ')

/-- Members on lines of their own between brackets; brackets without members stay together. -/
def spread (opening closing : String) (indent step : Nat) (members : List String) : String :=
  if members.isEmpty then opening ++ closing
  else
    let inner := newLine (indent + step)
    opening ++ inner ++ String.intercalate ("," ++ inner) members ++ newLine indent ++ closing

mutual
/-- A document over several lines, each level `step` blanks further in. -/
def writeIndented (step indent : Nat) : Document → String
  | .list items => spread "[" "]" indent step (indentedItems step (indent + step) items)
  | .mapping fields =>
    spread "\x7b" "\x7d" indent step (indentedFields step (indent + step) fields)
  | .null => "null"
  | .bool b => if b then "true" else "false"
  | .number n => writeNumber n
  | .text t => quote t
  | .moment m => quote m.text

/-- The members of a list. -/
def indentedItems (step indent : Nat) : List Document → List String
  | [] => []
  | d :: rest => writeIndented step indent d :: indentedItems step indent rest

/-- The fields of a mapping. -/
def indentedFields (step indent : Nat) : Document.Fields → List String
  | [] => []
  | (k, d) :: rest =>
    (quote (keyText k) ++ ": " ++ writeIndented step indent d) :: indentedFields step indent rest
end

/-! ## Sorting -/

mutual
/-- The document with the fields of all mappings in the order of their keys, if they have one. Days
and points in time are no keys of a mapping that is written. -/
def sortKeys : Document → Except Fault Document
  | .list items => (sortItems items).map .list
  | .mapping fields =>
    if Key.areOrdered (fields.map Prod.fst) then
      (sortFields fields).map fun sorted => .mapping (Document.sortByKey sorted)
    else .error .kindMismatch
  | d => .ok d

/-- Sorts inside every member of a list. -/
def sortItems : List Document → Except Fault (List Document)
  | [] => .ok []
  | d :: rest => do
    let first ← sortKeys d
    return first :: (← sortItems rest)

/-- Sorts inside every field. -/
def sortFields : Document.Fields → Except Fault Document.Fields
  | [] => .ok []
  | (k, d) :: rest => do
    if k.isMoment then .error .kindMismatch
    let first ← sortKeys d
    return (k, first) :: (← sortFields rest)
end

/-! ## Reading -/

/-- A document that does not follow the grammar. -/
def malformed {α : Type} : Except Fault α := .error (.malformedDocument .grammar)

/-- Drops blanks and line ends. -/
def skipBlanks (cs : List Char) : List Char :=
  cs.dropWhile fun c => c == ' ' || c == '\n' || c == '\r' || c == '\t'

/-- The value of a hexadecimal digit. -/
def hexValue (c : Char) : Option Nat :=
  if '0' ≤ c ∧ c ≤ '9' then some (c.toNat - 48)
  else if 'a' ≤ c ∧ c ≤ 'f' then some (c.toNat - 87)
  else if 'A' ≤ c ∧ c ≤ 'F' then some (c.toNat - 55)
  else none

/-- The UTF-16 unit that four hexadecimal digits give. -/
def readUnit (cs : List Char) : Option (Nat × List Char) := do
  let digits ← (cs.take 4).mapM hexValue
  if digits.length = 4 then some (digits.foldl (fun s d => 16 * s + d) 0, cs.drop 4) else none

/-- The code point of an escape with units, which may take a second unit. A unit that has no partner
stands for itself. -/
def readEscapedUnits (cs : List Char) : Option (Nat × List Char) := do
  let (high, rest) ← readUnit cs
  if 55296 ≤ high ∧ high < 56320 then
    match rest with
    | '\\' :: 'u' :: more =>
      let (low, last) ← readUnit more
      if 56320 ≤ low ∧ low < 57344 then
        some (65536 + (high - 55296) * 1024 + (low - 56320), last)
      else some (high, rest)
    | _ => some (high, rest)
  else some (high, rest)

/-- The code point of an escape with one letter. -/
def escaped? : Char → Option Nat
  | 'n' => some 10
  | 'r' => some 13
  | 't' => some 9
  | 'b' => some 8
  | 'f' => some 12
  | '"' => some 34
  | '\\' => some 92
  | '/' => some 47
  | _ => none

/-- The code points up to the closing quote. -/
def readPoints : Nat → List Char → List Nat → Except Fault (Text × List Char)
  | 0, _, _ => malformed
  | fuel + 1, cs, done =>
    match cs with
    | '"' :: rest => .ok (⟨done.reverse⟩, rest)
    | '\\' :: 'u' :: rest =>
      match readEscapedUnits rest with
      | some (n, more) => readPoints fuel more (n :: done)
      | none => malformed
    | '\\' :: c :: rest =>
      match escaped? c with
      | some n => readPoints fuel rest (n :: done)
      | none => malformed
    | c :: rest => if c.toNat < 32 then malformed else readPoints fuel rest (c.toNat :: done)
    | [] => malformed

/-- The number that decimal digits give. -/
def decimalValue (cs : List Char) : Nat := cs.foldl (fun s c => 10 * s + (c.toNat - 48)) 0

/-- The exponent behind its mark, with what follows it. -/
def readExponent (cs : List Char) : Option (Int × List Char) :=
  let (negative, body) :=
    match cs with
    | '-' :: rest => (true, rest)
    | '+' :: rest => (false, rest)
    | _ => (false, cs)
  let digits := body.takeWhile Char.isDigit
  if digits.isEmpty then none
  else
    let e : Int := decimalValue digits
    some (if negative then -e else e, body.dropWhile Char.isDigit)

/-- A number: digits, perhaps a fraction, perhaps an exponent. -/
def readNumber (cs : List Char) : Except Fault (Number × List Char) :=
  let (negative, body) :=
    match cs with
    | '-' :: rest => (true, rest)
    | _ => (false, cs)
  let whole := body.takeWhile Char.isDigit
  let rest := body.dropWhile Char.isDigit
  if whole.isEmpty then malformed
  else
    let (fraction, rest) :=
      match rest with
      | '.' :: more => (some (more.takeWhile Char.isDigit), more.dropWhile Char.isDigit)
      | _ => (none, rest)
    let marked := match rest with
      | 'e' :: more => some more
      | 'E' :: more => some more
      | _ => none
    let places := (fraction.getD []).length
    let value := decimalValue (whole ++ fraction.getD [])
    match marked with
    | some more =>
      match readExponent more with
      | some (e, last) => .ok (.ofDecimal negative value (places - e), last)
      | none => malformed
    | none =>
      if fraction.isSome then .ok (.ofDecimal negative value places, rest)
      else .ok (.whole (if negative then -(value : Int) else value), rest)

/-- The values that are written as words. -/
def words : List (String × Document) :=
  [("null", .null), ("true", .bool true), ("false", .bool false), ("NaN", .number .undefined),
   ("Infinity", .number (.infinite false)), ("-Infinity", .number (.infinite true))]

/-- A value written as a word, with what follows it. -/
def readWord (cs : List Char) : Option (Document × List Char) :=
  (words.find? fun w => w.1.toList.isPrefixOf cs).map fun w => (w.2, cs.drop w.1.length)

mutual
/-- A value; `fuel` bounds the number of characters looked at. -/
def readValue : Nat → List Char → Except Fault (Document × List Char)
  | 0, _ => malformed
  | fuel + 1, cs =>
    match skipBlanks cs with
    | '"' :: rest => (readPoints fuel rest []).map fun r => (.text r.1, r.2)
    | '[' :: rest =>
      match skipBlanks rest with
      | ']' :: last => .ok (.list [], last)
      | body => (readItems fuel body).map fun r => (.list r.1, r.2)
    | '\x7b' :: rest =>
      match skipBlanks rest with
      | '\x7d' :: last => .ok (.mapping [], last)
      | body => (readFields fuel body []).map fun r => (.mapping r.1, r.2)
    | body =>
      match readWord body with
      | some r => .ok r
      | none => (readNumber body).map fun r => (.number r.1, r.2)

/-- The members of a list up to its end. -/
def readItems : Nat → List Char → Except Fault (List Document × List Char)
  | 0, _ => malformed
  | fuel + 1, cs => do
    let (d, rest) ← readValue fuel cs
    match skipBlanks rest with
    | ',' :: more =>
      let (ds, last) ← readItems fuel more
      return (d :: ds, last)
    | ']' :: last => return ([d], last)
    | _ => malformed

/-- The fields of a mapping up to its end; a later field replaces an earlier one of the same key. -/
def readFields : Nat → List Char → Document.Fields →
    Except Fault (Document.Fields × List Char)
  | 0, _, _ => malformed
  | fuel + 1, cs, done => do
    match skipBlanks cs with
    | '"' :: rest =>
      let (key, afterKey) ← readPoints fuel rest []
      match skipBlanks afterKey with
      | ':' :: body =>
        let (d, afterValue) ← readValue fuel body
        let fields := Document.setField done (.text key) d
        match skipBlanks afterValue with
        | ',' :: more => readFields fuel more fields
        | '\x7d' :: last => return (fields, last)
        | _ => malformed
      | _ => malformed
    | _ => malformed
end

/-- The document that a text holds. -/
def read (t : String) : Except Fault Document := do
  let cs := t.toList
  let (d, rest) ← readValue (cs.length + 1) cs
  if (skipBlanks rest).isEmpty then return d else malformed

end Json
end PadicLift
