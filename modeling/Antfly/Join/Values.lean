import Antfly.Store.Json

/-!
Rows are decoded JSON documents.  A Go map with `any` keys compares keys as interfaces: values of
different types differ, numbers are IEEE doubles, and arrays and objects cannot be keys at all, the
runtime panics on them.  `compareValues` panics likewise when it compares two arrays or objects.
-/

namespace Antfly

/-- Where a finite double stands among the doubles; the two zeros stand in one place. -/
def floatRank (bits : UInt64) : ℤ :=
  if bits < 0x8000000000000000 then bits.toNat else -(bits - 0x8000000000000000).toNat

/-- A key of a Go map, up to Go's equality of keys. -/
inductive HashKey where
  | bool (b : Bool)
  | num (rank : ℤ)
  | str (s : Bytes)
  deriving DecidableEq

/-- The key a value is; null is never used as a key, and other values cannot be. -/
def Json.hashKey : Json → Option HashKey
  | .bool b => some (.bool b)
  | .num bits => some (.num (floatRank bits))
  | .str s => some (.str s)
  | .null | .arr _ | .obj _ | .foreign _ => none

def Json.isNull : Json → Bool
  | .null => true
  | _ => false

namespace Join

inductive Operator where
  | equal | notEqual | lessThan | lessEqual | greaterThan | greaterEqual
  deriving DecidableEq

/-- `evaluator.ValuesEqual`; `none` is a panic. -/
def valuesEqual : Json → Json → Option Bool
  | .str a, .str b => some (decide (a = b))
  | .num a, .num b => some (decide (floatRank a = floatRank b))
  | .bool a, .bool b => some (decide (a = b))
  | .null, .null => some true
  | .arr _, .arr _ | .obj _, .obj _ | .foreign _, .foreign _ => none
  | _, _ => some false

/-- `evaluator.CompareOrdered`: values that have no order count as equal. -/
def compareOrdered : Json → Json → Ordering
  | .str a, .str b => if a < b then .lt else if b < a then .gt else .eq
  | .num a, .num b => compare (floatRank a) (floatRank b)
  | _, _ => .eq

def compareValues (left right : Json) (op : Operator) : Option Bool :=
  if left.isNull || right.isNull then some false
  else
    match op with
    | .equal => valuesEqual left right
    | .notEqual => (valuesEqual left right).map (!·)
    | .lessThan => some (compareOrdered left right).isLT
    | .lessEqual => some (compareOrdered left right).isLE
    | .greaterThan => some (compareOrdered left right).isGT
    | .greaterEqual => some (compareOrdered left right).isGE

theorem compareValues_equal_iff {left right : Json} :
    compareValues left right .equal = some true ↔
      ∃ k, left.hashKey = some k ∧ right.hashKey = some k := by
  cases left <;> cases right <;>
    simp [compareValues, valuesEqual, Json.isNull, Json.hashKey, eq_comm]

structure Row where
  id : Bytes
  fields : Obj
  score : UInt64

structure JoinedRow where
  row : Row
  rightRows : List Row

/-- `strings.Split(field, ".")`, and nothing for the empty field. -/
def splitField (field : Bytes) : List Bytes :=
  if field = [] then [] else field.splitOn 0x2E

def walk (current : Json) : List Bytes → Json
  | [] => current
  | part :: parts =>
    match current with
    | .obj o => walk ((Obj.get? o part).getD .null) parts
    | _ => .null

/-- A field is looked up as a flat key first and as a path after that. -/
def extractFieldValue (row : Row) (field : Bytes) : Json :=
  match row.fields.get? field with
  | some v => v
  | none =>
    if (splitField field).length ≤ 1 then .null else walk (.obj row.fields) (splitField field)

/-- `table.field`. -/
def prefixed (table field : Bytes) : Bytes := table ++ 0x2E :: field

def mergeFields (rightTable : Bytes) (rightFields : List Bytes) (left : Row)
    (rightRows : List Row) : JoinedRow where
  row := { left with
    fields :=
      match rightRows with
      | [] => left.fields
      | right :: _ =>
        (right.fields.filter fun f => rightFields.isEmpty || rightFields.contains f.1).foldl
          (fun fields f => fields.set (prefixed rightTable f.1) f.2) left.fields }
  rightRows := rightRows

def createNullJoinedRow (rightTable : Bytes) (rightFields : List Bytes) (left : Row) :
    JoinedRow where
  row := { left with
    fields := rightFields.foldl
      (fun fields f => fields.set (prefixed rightTable f) .null) left.fields }
  rightRows := []

def unmatchedRightRow (rightTable : Bytes) (leftFields : List Bytes) (right : Row) :
    JoinedRow where
  row :=
    { id := right.id
      fields := leftFields.foldl (fun fields f => fields.set f .null)
        (right.fields.foldl (fun fields f => fields.set (prefixed rightTable f.1) f.2) [])
      score := 0 }
  rightRows := [right]

end Join

end Antfly
