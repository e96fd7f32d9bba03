import PadicLift.Document.Moment
import PadicLift.Number.Mixed
import PadicLift.Text.Quoted

/-!
# Documents

The values that settings, logs and input files are made of: numbers, texts, days and points in time,
lists and mappings. A number keeps whether it was written as an integer or as a double, because the
two are written back differently. A mapping keeps its fields in order of first appearance; its keys
are simple values, and two keys are the same if they are equal as values, so that the number 1, the
double 1.0 and the truth value true name the same field.
-/

namespace PadicLift

/-! ## Keys -/

/-- What a field of a mapping is found by. -/
inductive Key
  | null
  | bool (value : Bool)
  | number (value : Number)
  | text (value : Text)
  | moment (value : Moment)
deriving DecidableEq, Repr, Inhabited

namespace Key

/-- A key as a number; a truth value counts as 1 or 0. -/
def number? : Key → Option Number
  | .number n => some n
  | .bool b => some (.whole (if b then 1 else 0))
  | _ => none

/-- Whether a key is a day or a point in time. -/
def isMoment : Key → Bool
  | .moment _ => true
  | _ => false

/-- Whether two keys name the same field. -/
def same (k l : Key) : Bool :=
  match k, l with
  | .moment m, .moment n => m.same n
  | _, _ =>
    match k.number?, l.number? with
    | some x, some y => x.same y
    | none, none => k == l
    | _, _ => false

/-- Whether a key comes before another one of its kind. -/
def before (k l : Key) : Bool :=
  match k, l with
  | .text s, .text t => s.before t
  | .moment m, .moment n => m.before n
  | _, _ =>
    match k.number?, l.number? with
    | some x, some y => x.before y
    | _, _ => false

/-- Whether there is an order between two keys: both are texts, numbers, or days or points in time
that can be compared. -/
def comparable (k l : Key) : Bool :=
  match k, l with
  | .text _, .text _ => true
  | .moment m, .moment n => m.comparable n
  | _, _ => k.number?.isSome && l.number?.isSome

/-- Whether keys have an order. -/
def areOrdered : List Key → Bool
  | [] => true
  | k :: rest => rest.all k.comparable

/-- A key inside a message. -/
def shown : Key → String
  | .null => "None"
  | .bool b => if b then "True" else "False"
  | .number n => n.text
  | .text t => Quoted.text t
  | .moment m => m.shown

end Key

/-! ## Values -/

/-- A value of a document. -/
inductive Document
  | null
  | bool (value : Bool)
  | number (value : Number)
  | text (value : Text)
  | moment (value : Moment)
  | list (items : List Document)
  | mapping (fields : List (Key × Document))
deriving Repr, Inhabited

namespace Document

/-- The fields of a mapping, by key. -/
abbrev Fields := List (Key × Document)

/-- A mapping whose keys are texts. -/
def record (fields : List (String × Document)) : Document :=
  .mapping (fields.map fun f => (.text f.1, f.2))

/-- The field with the given name. -/
def field? (fields : Fields) (name : String) : Option Document :=
  (fields.find? fun f => f.1.same (.text name)).map Prod.snd

/-- The items that go on in one direction from the last one: with `back`, as long as each key comes
before the one in front of it, and otherwise, as long as none does. -/
def straight {α : Type} (back : Bool) (last : Key × α) : List (Key × α) → List (Key × α)
  | [] => []
  | x :: rest => if x.1.before last.1 == back then x :: straight back x rest else []

/-- The items at the beginning that stand in order, or in the reverse of a strict order, and the
items behind them; those at the beginning are put in order. -/
def splitStraight {α : Type} : List (Key × α) → List (Key × α) × List (Key × α)
  | [] => ([], [])
  | [x] => ([x], [])
  | x :: y :: rest =>
    let back := y.1.before x.1
    let more := straight back x (y :: rest)
    let ordered := if back then (x :: more).reverse else x :: more
    (ordered, (y :: rest).drop more.length)

/-- The place for a key among items in order, between the places `low` and `low + width`: half of
them is left out at every comparison. -/
def placeFor {α : Type} (items : Array (Key × α)) (key : Key) (low width : Nat) : Nat :=
  if h : width = 0 then low
  else
    let half := width / 2
    if (items[low + half]?).elim false fun x => key.before x.1 then placeFor items key low half
    else placeFor items key (low + half + 1) (width - half - 1)
termination_by width
decreasing_by all_goals omega

/-- Puts an item behind all items in order that do not come after it. -/
def insertByKey {α : Type} (items : List (Key × α)) (item : Key × α) : List (Key × α) :=
  let place := placeFor items.toArray item.1 0 items.length
  items.take place ++ item :: items.drop place

/-- Items in the order of their keys. A key without an order, the number that is none, stays where
these comparisons leave it. -/
def sortByKey {α : Type} (items : List (Key × α)) : List (Key × α) :=
  let (ordered, others) := splitStraight items
  others.foldl insertByKey ordered

/-- Sets a field: in place if there is one of the same key, which stays as it was written, and at
the end otherwise. -/
def setField (fields : Fields) (key : Key) (value : Document) : Fields :=
  if fields.any fun f => f.1.same key then
    fields.map fun f => if f.1.same key then (f.1, value) else f
  else fields ++ [(key, value)]

/-- The key that a value can be. -/
def key? : Document → Option Key
  | .null => some .null
  | .bool b => some (.bool b)
  | .number n => some (.number n)
  | .text t => some (.text t)
  | .moment m => some (.moment m)
  | _ => none

/-- A key as a value. -/
def ofKey : Key → Document
  | .null => .null
  | .bool b => .bool b
  | .number n => .number n
  | .text t => .text t
  | .moment m => .moment m

mutual
/-- Whether two documents are equal as values. Mappings are equal whatever the order of their
fields. -/
def same : Document → Document → Bool
  | .list xs, .list ys => sameItems xs ys
  | .mapping fs, .mapping gs => fs.length == gs.length && sameFields gs fs
  | d, e =>
    match d.key?, e.key? with
    | some k, some l => k.same l
    | _, _ => false

/-- Whether two lists of documents are equal member by member. -/
def sameItems : List Document → List Document → Bool
  | [], [] => true
  | d :: ds, e :: es => same d e && sameItems ds es
  | _, _ => false

/-- Whether every one of some fields has its equal among `others`. -/
def sameFields (others : Fields) : Fields → Bool
  | [] => true
  | (k, d) :: rest =>
    (match others.find? fun g => g.1.same k with
      | some (_, e) => same d e
      | none => false) && sameFields others rest
end

/-- Whether a value counts as nothing: null, false, zero, and anything empty. -/
def isEmpty : Document → Bool
  | .null => true
  | .bool b => !b
  | .number n => n.same (.whole 0)
  | .text t => t.isEmpty
  | .moment _ => false
  | .list xs => xs.isEmpty
  | .mapping fs => fs.isEmpty

/-- An integer as a document. -/
def int (v : Int) : Document := .number (.whole v)

/-- A string as a document. -/
def string (s : String) : Document := .text s

end Document
end PadicLift
