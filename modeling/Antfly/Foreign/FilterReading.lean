import Antfly.Foreign.FilterText
import Antfly.Lib.ThreeValued

/-!
SQL compares a column that is NULL with the outcome unknown.  What a database does when it compares
a column with a value of another type is a parameter.

A filter is read in the same logic: it is unknown where a column is NULL, and it may say nothing.
When its values have the types of their columns and its patterns have no backslash, its expression
means what it reads as.
-/

namespace Antfly.Foreign

open ThreeValued

/-- A column of a row; `none` is NULL.  Doubles are the numbers that are one. -/
inductive SqlColumn where
  | text (v : Option Text)
  | double (v : Option UInt64)
  | boolean (v : Option Bool)
  | other (v : Option FilterValue)

abbrev TableRow := Text → Option SqlColumn

/-- The collation of texts, in which only equal ones are equal, and what comes of comparisons of
other types; `none` fails the query. -/
structure Database where
  collate : Text → Text → Ordering
  collate_eq : ∀ s t, collate s t = .eq ↔ s = t
  compareOther : SqlColumn → FilterValue → Option (Option Ordering)
  likeOther : SqlColumn → Text → Option Truth

def SqlOperator.holds : SqlOperator → Ordering → Bool
  | equal, o => o == .eq
  | greaterEqual, o => o.isGE
  | greater, o => o.isGT
  | lessEqual, o => o.isLE
  | less, o => o.isLT

/-- The pattern of LIKE with the backslash as escape. -/
def likeItems : Text → Option (List (Glob.Item Char))
  | [] => some []
  | '\\' :: [] => none
  | '\\' :: c :: p => (likeItems p).map (.letter c :: ·)
  | '%' :: p => (likeItems p).map (.any :: ·)
  | '_' :: p => (likeItems p).map (.one :: ·)
  | c :: p => (likeItems p).map (.letter c :: ·)

section Truth

variable (db : Database) (row : TableRow)

def sqlCompare : SqlColumn → FilterValue → Option (Option Ordering)
  | _, .null => some none
  | .text v, .text t => some (v.map fun s => db.collate s t)
  | .double v, .number y => some (v.map fun x => compare (floatRank x) (floatRank y))
  | .boolean v, .boolean c => some (v.map fun b => compare b c)
  | column, value => db.compareOther column value

def sqlLike : SqlColumn → Text → Option Truth
  | .text none, _ => some none
  | .text (some s), pattern => (likeItems pattern).map fun items => some (Glob.isMatch items s)
  | column, pattern => db.likeOther column pattern

def compareTruth (field : Text) (op : SqlOperator) (value : FilterValue) : Option Truth :=
  (row field).bind fun column => (sqlCompare db column value).map fun o => o.map op.holds

mutual

/-- `none` when the query fails. -/
def SqlExpr.truth : SqlExpr → Option Truth
  | .false => some (some Bool.false)
  | .compare field op value => compareTruth db row field op value
  | .like field pattern => (row field).bind fun column => sqlLike db column pattern
  | .isIn field first rest =>
    ((first :: rest).mapM fun v => compareTruth db row field .equal v).map ThreeValued.any
  | .all e es => e.truth.bind fun t => (truthAll es).map fun ts => ThreeValued.all (t :: ts)
  | .any e es => e.truth.bind fun t => (truthAll es).map fun ts => ThreeValued.any (t :: ts)
  | .not e => e.truth.map ThreeValued.not
  | .paren e => e.truth

def truthAll : List SqlExpr → Option (List Truth)
  | [] => some []
  | e :: es => e.truth.bind fun t => (truthAll es).map fun ts => t :: ts

end

/-- A clause selects the row; an empty one selects every row. -/
def Selects : Option SqlExpr → Prop
  | none => True
  | some e => e.truth db row = some (some true)

end Truth

/-- The value of a column in the row's map. -/
def SqlColumn.goValue : SqlColumn → FilterValue
  | .text v => v.elim .null .text
  | .double v => v.elim .null .number
  | .boolean v => v.elim .null .boolean
  | .other v => v.getD .null

def rowMap (row : TableRow) : RowMap := fun field => (row field).map SqlColumn.goValue

def FilterValue.isNull : FilterValue → Bool
  | .null => true
  | _ => false

def allOfReadings (ts : List Truth) : Option Truth :=
  if ts = [] then none else some (ThreeValued.all ts)

def anyOfReadings (ts : List Truth) : List Truth := if ts = [] then [] else [ThreeValued.any ts]

section Reading

variable (row : TableRow)

def isNullAt (field : Text) : Bool := (rowMap row field).all FilterValue.isNull

def unlessNull (field : Text) (t : Truth) : Truth := if isNullAt row field then none else t

mutual

/-- What a filter says of a row; `none` when it says nothing. -/
def reading : FilterNode → Option Truth
  | .matchAllNode => none
  | .matchNoneNode => some (some false)
  | .termNode field value =>
    some (if value.isNull then none
      else unlessNull row field (onField (rowMap row) field (valuesEqual · value)))
  | .matchNode field value =>
    some (unlessNull row field (onField (rowMap row) field (valuesEqual · (.text value))))
  | .prefixNode field start =>
    some (unlessNull row field (onField (rowMap row) field (startsWith start)))
  | .wildcardNode field pattern =>
    some (unlessNull row field (onField (rowMap row) field (matchesWildcard pattern)))
  | .rangeNode field min max inclusiveMin inclusiveMax =>
    if min.isNull && max.isNull then none
    else some (unlessNull row field (onField (rowMap row) field fun v =>
      some (aboveMin v min inclusiveMin && belowMax v max inclusiveMax)))
  | .boolNode conjuncts disjuncts mustNot =>
    allOfReadings (readings conjuncts ++ anyOfReadings (readings disjuncts) ++
      notReading mustNot)
  | .queryStringNode terms =>
    if terms = [] then none
    else some (ThreeValued.any (terms.map fun t =>
      unlessNull row t.field (onField (rowMap row) t.field (valuesEqual · (.text t.value)))))

/-- What the filters say that say something. -/
def readings : List FilterNode → List Truth
  | [] => []
  | f :: fs => (reading f).toList ++ readings fs

def notReading : Option FilterNode → List Truth
  | none => []
  | some f => ((reading f).map ThreeValued.not).toList

end

end Reading

section Fits

variable (db : Database) (row : TableRow)

/-- A value that the column can be compared with. -/
def ValueFits : SqlColumn → FilterValue → Prop
  | _, .null => True
  | .text _, .text _ => True
  | .double _, .number _ => True
  | .boolean _, .boolean _ => True
  | _, _ => False

/-- A bound that the column is ordered with, texts as their bytes are. -/
def BoundFits : SqlColumn → FilterValue → Prop
  | _, .null => True
  | .text v, .text t => ∀ s ∈ v, db.collate s t = compareBytes (encodeText s) (encodeText t)
  | .double _, .number _ => True
  | _, _ => False

def isAscii (s : Text) : Prop := ∀ c ∈ s, c.utf8Size = 1

/-- The values, bounds and patterns of a node fit its columns. -/
def FitsAt : FilterNode → Prop
  | .matchAllNode => True
  | .matchNoneNode => True
  | .termNode field value => ∃ column, row field = some column ∧ ValueFits column value
  | .matchNode field _ => ∃ v, row field = some (.text v)
  | .prefixNode field start => ∃ v, row field = some (.text v) ∧ '\\' ∉ start
  | .wildcardNode field pattern =>
    ∃ v, row field = some (.text v) ∧ '\\' ∉ pattern ∧ ('?' ∈ pattern → ∀ s ∈ v, isAscii s)
  | .rangeNode field min max _ _ =>
    ∃ column, row field = some column ∧ BoundFits db column min ∧ BoundFits db column max ∧
      (min.isNull = true → max.isNull = true → isNullAt row field = false)
  | .boolNode _ _ _ => True
  | .queryStringNode terms => ∀ t ∈ terms, ∃ v, row t.field = some (.text v)

inductive Within (g : FilterNode) : FilterNode → Prop where
  | self : Within g g
  | conjunct {c : FilterNode} {cs ds : List FilterNode} {m : Option FilterNode} :
      c ∈ cs → Within g c → Within g (.boolNode cs ds m)
  | disjunct {d : FilterNode} {cs ds : List FilterNode} {m : Option FilterNode} :
      d ∈ ds → Within g d → Within g (.boolNode cs ds m)
  | mustNot {n : FilterNode} {cs ds : List FilterNode} :
      Within g n → Within g (.boolNode cs ds (some n))

def Fits (f : FilterNode) : Prop := ∀ g, Within g f → FitsAt db row g

end Fits

end Antfly.Foreign
