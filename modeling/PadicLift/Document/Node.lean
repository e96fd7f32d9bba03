import PadicLift.Document.Scalar

/-!
# Nodes

The structure of a document before its scalars are read: what stands in quotes is a text, and every
other scalar is still the characters it was written with. A node may be tagged with the kind of
value that it is; binary values, sets, and lists of fields in order are kinds that make no value
here.

`Node.read` takes a node in three steps. Fields that are to be merged are put in their place. Then
faults are looked for level by level, because the lists and mappings inside of a node are only
opened once all of its scalars have been read. Last the values are put together.
-/

namespace PadicLift

/-- A document whose scalars have not been read. -/
inductive Node
  /-- A scalar without quotes. -/
  | plain (chars : List Char)
  | quoted (text : Text)
  | list (items : List Node)
  | mapping (fields : List (Node × Node))
  | tagged (tag : String) (node : Node)
deriving Repr, Inhabited

namespace Node

/-- A node that makes no value. -/
def noValue {α : Type} : Except Fault α := .error (.malformedDocument .value)

/-- The scalar without characters, which stands for nothing. -/
def empty : Node := .plain []

/-! ## Merging -/

/-- The key whose value is a mapping, or a list of mappings, that is merged into the fields. -/
def isMergeKey : Node → Bool
  | .plain cs => cs == ['<', '<']
  | _ => false

/-- A key as it is read: an equals sign is a text there. -/
def asKey : Node → Node
  | .plain ['='] => .quoted "="
  | k => k

/-- The fields of a mapping. -/
def fieldsOf : Node → Except Fault (List (Node × Node))
  | .mapping fields => .ok fields
  | _ => noValue

/-- The fields that are merged for a value; of a list the first mapping counts most. -/
def mergedFields : Node → Except Fault (List (Node × Node))
  | .list items => do
    let each ← items.mapM fieldsOf
    return each.reverse.flatten
  | x => x.fieldsOf

mutual
/-- The node with merged fields in front of the others. -/
def merge : Node → Except Fault Node
  | .list items => (mergeAll items).map .list
  | .mapping fields => (mergeFields [] [] fields).map .mapping
  | .tagged tag x => (merge x).map (.tagged tag)
  | x => .ok x

/-- The members of a list with their merged fields. -/
def mergeAll : List Node → Except Fault (List Node)
  | [] => .ok []
  | x :: rest => do
    let first ← merge x
    return first :: (← mergeAll rest)

/-- Puts the fields that are merged in front of a mapping's own fields. -/
def mergeFields (merged own : List (Node × Node)) :
    List (Node × Node) → Except Fault (List (Node × Node))
  | [] => .ok (merged ++ own)
  | (k, v) :: rest => do
    let value ← merge v
    if k.isMergeKey then
      mergeFields (merged ++ (← value.mergedFields)) own rest
    else
      let key ← merge k
      mergeFields merged (own ++ [(key.asKey, value)]) rest
end

/-! ## Tags -/

/-- The tags of values, by their last part. -/
def tagPrefix : String := "tag:yaml.org,2002:"

/-- The kind of value that a tag names. -/
def kindOf (tag : String) : Option String :=
  if tagPrefix.toList.isPrefixOf tag.toList then
    some (String.ofList (tag.toList.drop tagPrefix.length))
  else none

/-- The document that a scalar of a tagged kind stands for. -/
def taggedScalar (tag : String) (t : Text) : Except Fault Document :=
  let cs := t.toString.toList
  match kindOf tag with
  | some "str" => .ok (.text t)
  | some "null" => .ok .null
  | some "bool" => (Scalar.asTruth t).map Document.bool
  | some "int" => (Scalar.asInteger t).map Document.int
  | some "float" => (Scalar.asDouble t).map Document.number
  | some "timestamp" =>
    match Moment.read? 1 cs with
    | some r => r.map Document.moment
    | none => .error (.malformedDocument .moment)
  | _ => noValue

/-! ## Values -/

mutual
/-- The document that a node stands for. -/
def document : Node → Except Fault Document
  | .plain cs => Scalar.resolve cs
  | .quoted t => .ok (.text t)
  | .list items => (documents items).map .list
  | .mapping fields => (fieldsOnto [] fields).map .mapping
  | .tagged tag (.quoted t) => taggedScalar tag t
  | .tagged tag (.list items) =>
    if kindOf tag == some "seq" then (documents items).map .list else noValue
  | .tagged tag (.mapping fields) =>
    if kindOf tag == some "map" then (fieldsOnto [] fields).map .mapping else noValue
  | .tagged _ _ => noValue

/-- The documents that nodes stand for. -/
def documents : List Node → Except Fault (List Document)
  | [] => .ok []
  | x :: rest => do
    let d ← document x
    return d :: (← documents rest)

/-- Adds fields to those that have been read; a later field replaces an earlier one of the same key.
Lists and mappings are no keys. -/
def fieldsOnto (done : Document.Fields) : List (Node × Node) → Except Fault Document.Fields
  | [] => .ok done
  | (k, v) :: rest => do
    let key ← document k
    match key.key? with
    | none => noValue
    | some name =>
      let value ← document v
      fieldsOnto (Document.setField done name value) rest
end

/-! ## Faults -/

/-- Enters a node: a scalar is read, and a list or a mapping is what there is to open. -/
def enter (x : Node) : Except Fault (List Node) :=
  match x with
  | .list _ => .ok [x]
  | .mapping _ => .ok [x]
  | .tagged tag (.list items) => if kindOf tag == some "seq" then .ok [.list items] else noValue
  | .tagged tag (.mapping fields) =>
    if kindOf tag == some "map" then .ok [.mapping fields] else noValue
  | _ => x.document.map fun _ => []

/-- Enters a field: its key, which is no list and no mapping, and its value. -/
def enterField (k v : Node) : Except Fault (List Node) := do
  let opened ← k.enter
  if !opened.isEmpty then noValue
  v.enter

/-- Opens a list or a mapping: what there is to open inside. -/
def inside : Node → Except Fault (List Node)
  | .list items => (items.mapM enter).map List.flatten
  | .mapping fields => (fields.mapM fun f => enterField f.1 f.2).map List.flatten
  | _ => .ok []

/-- Looks for faults in nodes that are to be opened, up to `depth` levels. -/
def check : Nat → List Node → Except Fault Unit
  | 0, _ => .ok ()
  | _, [] => .ok ()
  | depth + 1, nodes => do
    let next ← nodes.mapM inside
    check depth next.flatten

/-- The document that a node of at most `depth` levels stands for. -/
def read (depth : Nat) (x : Node) : Except Fault Document := do
  let x ← x.merge
  check depth (← x.enter)
  x.document

end Node
end PadicLift
