import Antfly.Store.Json

/-!
The update operators a transform applies to one decoded document.  An operator that fails
returns the document it was given; `resolveTransforms` logs the error and goes on with it.
-/

namespace Antfly

inductive TransformOpType where
  | set | unset | inc | push | pull | addToSet | pop | mul | min | max | currentDate | rename
  deriving DecidableEq

structure TransformOp where
  path : Bytes
  op : TransformOpType
  value : Bytes
  deriving DecidableEq

structure Transform where
  key : Bytes
  operations : List TransformOp
  upsert : Bool
  deriving DecidableEq

def normalizeJSONPath (path : Bytes) : Bytes :=
  if path.head? = some 36 then path else ascii ['$', '.'] ++ path

/-- Splits `$.foo.bar` into its parts; a path that starts with `$` but not with `$.` is invalid. -/
def parseSimplePath (path : Bytes) : Option (List Bytes) :=
  let normalized := normalizeJSONPath path
  if !hasPrefix normalized (ascii ['$', '.']) then none
  else
    let pathStr := normalized.drop 2
    if pathStr.isEmpty then some [] else some (pathStr.splitOn 46)

def getNestedValue : Obj → List Bytes → Option Json
  | doc, [] => some (.obj doc)
  | doc, [part] => doc.get? part
  | doc, part :: parts =>
    match doc.get? part with
    | some (.obj m) => getNestedValue m parts
    | _ => none

/-- Sets the value at a path; intermediate objects are created, and a non-object on the way is
replaced by one. -/
def setNestedValue : Obj → List Bytes → Json → Obj
  | doc, [], _ => doc
  | doc, [part], value => doc.set part value
  | doc, part :: parts, value =>
    match doc.get? part with
    | some (.obj m) => doc.set part (.obj (setNestedValue m parts value))
    | _ => doc.set part (.obj (setNestedValue [] parts value))

def removeNestedValue : Obj → List Bytes → Obj
  | doc, [] => doc
  | doc, [part] => doc.erase part
  | doc, part :: parts =>
    match doc.get? part with
    | some (.obj m) => doc.set part (.obj (removeNestedValue m parts))
    | _ => doc

/-- A document to which operations are applied.  `$rename` of the whole document makes it a value of
itself: `fields` then has a copy, and `links` lists the places at which it stands. -/
structure LinkedObj where
  fields : Obj
  links : List (List Bytes)

namespace LinkedObj

variable (doc : LinkedObj) (parts : List Bytes)

/-- The place a path leads to; a link leads back to the document. -/
def follow : List Bytes :=
  parts.foldl (fun place part => if place ++ [part] ∈ doc.links then [] else place ++ [part]) []

/-- The place that is set or removed: the last part is not followed. -/
def placeOf : List Bytes := doc.follow parts.dropLast ++ parts.getLast?.toList

/-- The links in a value, as paths from it. -/
def linksIn (place : List Bytes) : List (List Bytes) :=
  if place = [] then [[]]
  else (doc.links.filter fun l => place <+: l).map (·.drop place.length)

def getNestedValue : Option Json := Antfly.getNestedValue doc.fields (doc.follow parts)

def removeNestedValue : LinkedObj :=
  if parts = [] then doc
  else
    { fields := Antfly.removeNestedValue doc.fields (doc.placeOf parts)
      links := doc.links.filter fun l => ¬ doc.placeOf parts <+: l }

def setNestedValue (value : Json) (within : List (List Bytes)) : LinkedObj :=
  if parts = [] then doc
  else
    { fields := Antfly.setNestedValue doc.fields (doc.placeOf parts) value
      links := (doc.links.filter fun l => ¬ doc.placeOf parts <+: l) ++
        within.map (doc.placeOf parts ++ ·) }

/-- `json.Marshal` fails on a map that is a value of itself. -/
def marshal (c : Codec) : Option Bytes := if doc.links = [] then c.marshalObj doc.fields else none

end LinkedObj

section Operators

variable (c : Codec)

/-- Each operator returns `none` when it fails; the caller then keeps the document. -/
def setOp (doc : LinkedObj) (path value : Bytes) : Option LinkedObj := do
  let parts ← parseSimplePath path
  let v ← if value.isEmpty then some Json.null else c.unmarshal value
  return doc.setNestedValue parts v []

def unsetOp (doc : LinkedObj) (path : Bytes) : Option LinkedObj := do
  let parts ← parseSimplePath path
  return doc.removeNestedValue parts

/-- The shape `$inc`, `$mul`, `$min` and `$max` share: a numeric operand, a value for a missing
field, and a new value (or none) computed from the current number. -/
def numericOp (missing : UInt64 → UInt64) (combine : UInt64 → UInt64 → Option UInt64)
    (doc : LinkedObj) (path value : Bytes) : Option LinkedObj := do
  let parts ← parseSimplePath path
  let operand ← c.unmarshalFloat value
  match doc.getNestedValue parts with
  | none => return doc.setNestedValue parts (.num (missing operand)) []
  | some current =>
    let currentNum ← current.toFloat64
    match combine currentNum operand with
    | some r => return doc.setNestedValue parts (.num r) []
    | none => return doc

def incOp : LinkedObj → Bytes → Bytes → Option LinkedObj :=
  numericOp c id fun currentNum delta => some (c.floatAdd currentNum delta)

def mulOp : LinkedObj → Bytes → Bytes → Option LinkedObj :=
  numericOp c (fun _ => c.floatZero) fun currentNum multiplier =>
    some (c.floatMul currentNum multiplier)

def minOp : LinkedObj → Bytes → Bytes → Option LinkedObj :=
  numericOp c id fun currentNum value => if c.floatLt value currentNum then some value else none

def maxOp : LinkedObj → Bytes → Bytes → Option LinkedObj :=
  numericOp c id fun currentNum value => if c.floatLt currentNum value then some value else none

/-- The shape `$push`, `$pull` and `$addToSet` share: a decoded operand, a value for a missing
array (or a no-op), and a new array (or none) computed from the current one. -/
def arrayOp (missing : Json → Option (List Json))
    (combine : List Json → Json → Option (List Json))
    (doc : LinkedObj) (path value : Bytes) : Option LinkedObj := do
  let parts ← parseSimplePath path
  let v ← c.unmarshal value
  match doc.getNestedValue parts with
  | none =>
    match missing v with
    | some xs => return doc.setNestedValue parts (.arr xs) []
    | none => return doc
  | some (.arr xs) =>
    match combine xs v with
    | some ys => return doc.setNestedValue parts (.arr ys) []
    | none => return doc
  | some _ => none

def pushOp : LinkedObj → Bytes → Bytes → Option LinkedObj :=
  arrayOp c (fun v => some [v]) fun xs v => some (xs ++ [v])

def pullOp : LinkedObj → Bytes → Bytes → Option LinkedObj :=
  arrayOp c (fun _ => none) fun xs v => some (xs.filter fun x => !Json.deepEqual c x v)

def addToSetOp : LinkedObj → Bytes → Bytes → Option LinkedObj :=
  arrayOp c (fun v => some [v]) fun xs v =>
    if xs.any fun x => Json.deepEqual c x v then none else some (xs ++ [v])

def popOp (doc : LinkedObj) (path value : Bytes) : Option LinkedObj := do
  let parts ← parseSimplePath path
  let position ← c.unmarshalInt value
  if position ≠ -1 ∧ position ≠ 1 then none
  else
    match doc.getNestedValue parts with
    | none => return doc
    | some (.arr xs) =>
      if xs.isEmpty then return doc
      else if position = -1 then return doc.setNestedValue parts (.arr xs.tail) []
      else return doc.setNestedValue parts (.arr xs.dropLast) []
    | some _ => none

def currentDateOp (doc : LinkedObj) (path : Bytes) : Option LinkedObj := do
  let parts ← parseSimplePath path
  return doc.setNestedValue parts (.str c.nowRFC3339) []

def renameOp (doc : LinkedObj) (oldPath newPathBytes : Bytes) : Option LinkedObj := do
  let oldParts ← parseSimplePath oldPath
  let newPath ← c.unmarshalString newPathBytes
  let newParts ← parseSimplePath newPath
  match doc.getNestedValue oldParts with
  | none => return doc
  | some value =>
    let within := doc.linksIn (doc.follow oldParts)
    return (doc.removeNestedValue oldParts).setNestedValue newParts value within

/-- `none` is the error; the document is then left as it was. -/
def applyTransformOp (doc : LinkedObj) (op : TransformOp) : Option LinkedObj :=
  match op.op with
  | .set => setOp c doc op.path op.value
  | .unset => unsetOp doc op.path
  | .inc => incOp c doc op.path op.value
  | .push => pushOp c doc op.path op.value
  | .pull => pullOp c doc op.path op.value
  | .addToSet => addToSetOp c doc op.path op.value
  | .pop => popOp c doc op.path op.value
  | .mul => mulOp c doc op.path op.value
  | .min => minOp c doc op.path op.value
  | .max => maxOp c doc op.path op.value
  | .currentDate => currentDateOp c doc op.path
  | .rename => renameOp c doc op.path op.value

/-- The loop over a transform's operations: a failing operation is skipped. -/
def applyTransformOps (doc : LinkedObj) (ops : List TransformOp) : LinkedObj :=
  ops.foldl (fun doc op => (applyTransformOp c doc op).getD doc) doc

theorem applyTransformOps_append (doc : LinkedObj) (ops ops' : List TransformOp) :
    applyTransformOps c doc (ops ++ ops') =
      applyTransformOps c (applyTransformOps c doc ops) ops' := by
  simp [applyTransformOps]

end Operators

end Antfly
