import PadicLift.Document.Fields
import PadicLift.Document.Yaml
import PadicLift.Prime.Pool

/-!
# Settings of a solve

A record of all choices that a solve leaves open, with defaults. `ofFields` reads one from a
mapping: it refuses keys that no field has, then checks the ranges field by field. `toFields` writes
it back, and `ofText` reads it from the text of a file.

Four fields have to be quantities within a range. The others are kept as they are given: a seed or
an allowance of draws that is no integer fails where it is used, and a flag is on if its value does
not count as nothing.
-/

namespace PadicLift

/-- The choices that a solve leaves open. -/
structure Settings where
  /-- Number of lifting primes. -/
  primesCount : Quantity := .ofInt 2
  /-- Size in bits of generated primes. -/
  primeBits : Quantity := .ofInt 22
  /-- Start of the random source of primes. -/
  seed : Document := .int 12345
  /-- How many primes one draw may look at. -/
  maxDraws : Document := .int 10000
  /-- How many unlucky primes may be replaced; with 0 the first one ends the selection. -/
  maxRetries : Quantity := .ofInt 3
  /-- Bits of the residue basis beyond those of the matrix entries and the dimension. -/
  margin : Quantity := .number (.double false 2)
  /-- Whether every step checks the size of its corrections. -/
  checkBounds : Document := .bool true
  /-- Whether every step is checked in exact integers. -/
  verifySteps : Document := .bool false
deriving Repr

namespace Settings

/-! ## What the choices come to -/

/-- Whether every step checks the size of its corrections. -/
def checksBounds (s : Settings) : Bool := !s.checkBounds.isEmpty

/-- Whether every step is checked in exact integers. -/
def verifies (s : Settings) : Bool := !s.verifySteps.isEmpty

/-- The allowance of one draw. -/
def allowance (s : Settings) : Allowance :=
  let text :=
    match Quantity.ofDocument s.maxDraws with
    | .ok q => q.text
    | .error _ => ""
  ⟨s.maxDraws.integer?, text⟩

/-- How many unlucky primes may be replaced: the least number that is not below the limit. Where no
number reaches the limit, there may be as many as there are primes. -/
def retries (s : Settings) : Nat :=
  match s.maxRetries.toNumber with
  | .infinite _ => maxModulus
  | .undefined => maxModulus
  | x => x.value.ceil.toNat

/-- The source of primes that the settings describe. -/
def source (s : Settings) : Except Fault PrimeSource :=
  PrimeSource.ofDocuments s.primeBits.toDocument s.seed (.int 1000000)

/-! ## Ranges -/

/-- Admits a number of lifting primes. -/
def admitPrimesCount (q : Quantity) : Except Fault Quantity :=
  if q.isBelow 1 then .error (.argument (.primesCountTooSmall q.text)) else .ok q

/-- Admits a size of generated primes. -/
def admitPrimeBits (q : Quantity) : Except Fault Quantity :=
  if q.isWithin 3 26 then .ok q else .error (.argument (.primeBitsOutOfRange q.text))

/-- Admits a number of replacements. -/
def admitRetries (q : Quantity) : Except Fault Quantity :=
  if q.isBelow 0 then .error (.argument .negativeRetries) else .ok q

/-- Admits a margin. -/
def admitMargin (q : Quantity) : Except Fault Quantity :=
  if q.isBelow 1 then .error (.argument .marginTooSmall) else .ok q

/-! ## Fields -/

/-- The settings as fields, in the order of the record. -/
def toFields (s : Settings) : List (String × Document) :=
  [("primes_count", s.primesCount.toDocument),
   ("prime_bits", s.primeBits.toDocument),
   ("seed", s.seed),
   ("max_prime_draws", s.maxDraws),
   ("max_bad_prime_retries", s.maxRetries.toDocument),
   ("rns_margin_bits", s.margin.toDocument),
   ("check_bounds", s.checkBounds),
   ("verify_steps", s.verifySteps)]

/-- The keys of all fields. -/
def keys : List String := (toFields {}).map Prod.fst

/-- The field with the given name, or the default where there is no such field. -/
def fieldOr (fields : Document.Fields) (name : String) (default : Document) : Document :=
  (Document.field? fields name).getD default

/-- The quantity in the field with the given name, or the default. -/
def quantityOr (fields : Document.Fields) (name : String) (default : Quantity) :
    Except Fault Quantity :=
  Quantity.ofDocument (fieldOr fields name default.toDocument)

/-- Refuses keys that no field has; they are listed in their order, and have to have one. -/
def checkKeys (fields : Document.Fields) : Except Fault Unit :=
  let unknown := fields.filter fun f => !keys.any fun k => f.1.same (.text k)
  if unknown.isEmpty then .ok ()
  else if Key.areOrdered (unknown.map Prod.fst) then
    let shown := (Document.sortByKey unknown).map fun f => f.1.shown
    .error (.argument (.unknownKeys shown))
  else .error .kindMismatch

/-- Reads settings from the fields of a mapping. -/
def ofFields (fields : Document.Fields) : Except Fault Settings := do
  checkKeys fields
  let defaults : Settings := {}
  let primesCount ← quantityOr fields "primes_count" defaults.primesCount >>= admitPrimesCount
  let primeBits ← quantityOr fields "prime_bits" defaults.primeBits >>= admitPrimeBits
  let maxRetries ← quantityOr fields "max_bad_prime_retries" defaults.maxRetries >>= admitRetries
  let margin ← quantityOr fields "rns_margin_bits" defaults.margin >>= admitMargin
  return {
    primesCount, primeBits, maxRetries, margin
    seed := fieldOr fields "seed" defaults.seed
    maxDraws := fieldOr fields "max_prime_draws" defaults.maxDraws
    checkBounds := fieldOr fields "check_bounds" defaults.checkBounds
    verifySteps := fieldOr fields "verify_steps" defaults.verifySteps }

/-- The name of the section of a file that may hold the settings. -/
def sectionName : Text := "lifting"

/-- Whether some code points occur in others, one behind the other. -/
def occursIn (part : List Nat) : List Nat → Bool
  | [] => part.isEmpty
  | n :: rest => part.isPrefixOf (n :: rest) || occursIn part rest

/-- Reads settings from a mapping or from a list of pairs; a document that counts as nothing leaves
all defaults. -/
def ofValue (d : Document) : Except Fault Settings :=
  if d.isEmpty then ofFields [] else d.fields >>= ofFields

/-- Reads settings from a file's document. A mapping may hold them in a section of its own; anything
else must not so much as mention that section. -/
def ofDocument (d : Document) : Except Fault Settings :=
  match d with
  | .mapping fields =>
    match Document.field? fields sectionName.toString with
    | some (.mapping inner) => ofFields inner
    | _ => ofFields fields
  | .list items =>
    if items.any fun item => item.same (.text sectionName) then .error .kindMismatch
    else ofValue d
  | .text t => if occursIn sectionName.points t.points then .error .kindMismatch else ofValue d
  | _ => ofValue d

/-- The text of a file with these settings. -/
def fileText (s : Settings) : String :=
  String.join
    ("lifting:\n" :: s.toFields.map fun f => "  " ++ f.1 ++ ": " ++ Json.write f.2 ++ "\n")

/-- Reads settings from the text of a file. -/
def ofText (text : String) : Except Fault Settings := Yaml.read text >>= ofDocument

end Settings
end PadicLift
