import Antfly.Foreign.Filter

/-!
A filter becomes the text of a WHERE clause; an empty clause selects every row.  Values are rendered
as placeholders, with the arguments collected beside the text, or as literals.

The text is that of an expression, which the same walk over the filter gives.
-/

namespace Antfly.Foreign

/-- How a value appears, with the arguments collected so far. -/
abbrev RenderValue := List FilterValue → FilterValue → List FilterValue × Text

def renderPlaceholder (placeholderFn : ℕ → Text) : RenderValue := fun args val =>
  (args ++ [val], placeholderFn (args.length + 1))

def pgQuoteIdentifier (name : Text) : Text :=
  ['"'] ++ name.flatMap (fun c => if c = '"' then ['"', '"'] else [c]) ++ ['"']

def pgQuoteLiteral (s : Text) : Text :=
  ['\''] ++ s.flatMap (fun c => if c = '\'' then ['\'', '\''] else [c]) ++ ['\'']

/-- How `fmt` prints numbers, lists and objects. -/
structure ValueFormat where
  number : UInt64 → Text
  compound : FilterValue → Text

def sqlLiteral (format : ValueFormat) : FilterValue → Text
  | .text s => pgQuoteLiteral s
  | .number bits => format.number bits
  | .boolean true => "true".toList
  | .boolean false => "false".toList
  | .null => "NULL".toList
  | .list vs => pgQuoteLiteral (format.compound (.list vs))
  | .object fields => pgQuoteLiteral (format.compound (.object fields))

def renderLiteral (format : ValueFormat) : RenderValue := fun args val =>
  (args, sqlLiteral format val)

def escapeLike (s : Text) : Text :=
  s.flatMap fun c => if c = '%' ∨ c = '_' then ['\\', c] else [c]

def wildcardToLike (pattern : Text) : Text :=
  pattern.flatMap fun c =>
    if c = '*' then ['%'] else if c = '?' then ['_']
    else if c = '%' ∨ c = '_' then ['\\', c] else [c]

inductive FilterSQLError where
  | unknownColumn (field : Text)
  deriving DecidableEq

/-- `strings.Join`. -/
def joinText (sep : Text) : List Text → Text
  | [] => []
  | [part] => part
  | part :: next :: parts => part ++ sep ++ joinText sep (next :: parts)

section Generate

variable (knownColumns : List Text) (renderValue : RenderValue)

def validateField (field : Text) : Except FilterSQLError Unit :=
  if knownColumns = [] ∨ field ∈ knownColumns then .ok () else .error (.unknownColumn field)

def equalityToSQL (field : Text) (value : FilterValue) (args : List FilterValue) :
    Except FilterSQLError (List FilterValue × Text) := do
  validateField knownColumns field
  let (args, text) := renderValue args value
  return (args, pgQuoteIdentifier field ++ " = ".toList ++ text)

def likeToSQL (field like : Text) (args : List FilterValue) :
    Except FilterSQLError (List FilterValue × Text) := do
  validateField knownColumns field
  let (args, text) := renderValue args (.text like)
  return (args, pgQuoteIdentifier field ++ " LIKE ".toList ++ text ++ " ESCAPE '\\'".toList)

/-- A bound of a range; null is no bound. -/
def boundToSQL (field op : Text) (bound : FilterValue) (args : List FilterValue) :
    List FilterValue × List Text :=
  match bound with
  | .null => (args, [])
  | _ =>
    let (args, text) := renderValue args bound
    (args, [pgQuoteIdentifier field ++ " ".toList ++ op ++ " ".toList ++ text])

def rangeToSQL (field : Text) (min max : FilterValue) (inclusiveMin inclusiveMax : Bool)
    (args : List FilterValue) : Except FilterSQLError (List FilterValue × Text) := do
  validateField knownColumns field
  let (args, minParts) := boundToSQL renderValue field
    (if inclusiveMin then ">=".toList else ">".toList) min args
  let (args, maxParts) := boundToSQL renderValue field
    (if inclusiveMax then "<=".toList else "<".toList) max args
  return (args, joinText " AND ".toList (minParts ++ maxParts))

def renderValues : List FilterValue → List FilterValue → List FilterValue × List Text
  | args, [] => (args, [])
  | args, v :: vs =>
    let (args, text) := renderValue args v
    let (args, texts) := renderValues args vs
    (args, text :: texts)

def queryStringToSQL (terms : List QueryTerm) (args : List FilterValue) :
    Except FilterSQLError (List FilterValue × Text) :=
  match terms with
  | [] => .ok (args, [])
  | first :: rest => do
      let _ ← (first :: rest).mapM fun t => validateField knownColumns t.field
      let (args, texts) :=
        renderValues renderValue args ((first :: rest).map fun t => .text t.value)
      if rest.all (fun t => t.field = first.field) ∧ rest ≠ [] then
        return (args, pgQuoteIdentifier first.field ++ " IN (".toList ++
          joinText ", ".toList texts ++ ")".toList)
      let parts := List.zipWith (fun (t : QueryTerm) text =>
        pgQuoteIdentifier t.field ++ " = ".toList ++ text) (first :: rest) texts
      if rest = [] then return (args, joinText [] parts)
      return (args, "(".toList ++ joinText " OR ".toList parts ++ ")".toList)

def parenthesize (text : Text) : Text := "(".toList ++ text ++ ")".toList

mutual

def nodeToSQL : FilterNode → List FilterValue → Except FilterSQLError (List FilterValue × Text)
  | .matchAllNode, args => .ok (args, [])
  | .matchNoneNode, args => .ok (args, "FALSE".toList)
  | .termNode field value, args => equalityToSQL knownColumns renderValue field value args
  | .matchNode field value, args => equalityToSQL knownColumns renderValue field (.text value) args
  | .prefixNode field start, args =>
    likeToSQL knownColumns renderValue field (escapeLike start ++ ['%']) args
  | .wildcardNode field pattern, args =>
    likeToSQL knownColumns renderValue field (wildcardToLike pattern) args
  | .rangeNode field min max inclusiveMin inclusiveMax, args =>
    rangeToSQL knownColumns renderValue field min max inclusiveMin inclusiveMax args
  | .boolNode conjuncts disjuncts mustNot, args => do
      let (args, parts) ← clausesToSQL conjuncts args
      let (args, orParts) ← clausesToSQL disjuncts args
      let parts :=
        parts ++ if orParts = [] then [] else [parenthesize (joinText " OR ".toList orParts)]
      let (args, notParts) ← mustNotToSQL mustNot args
      return (args, joinText " AND ".toList (parts ++ notParts))
  | .queryStringNode terms, args => queryStringToSQL knownColumns renderValue terms args

/-- The clauses that are not empty, each in parentheses. -/
def clausesToSQL : List FilterNode → List FilterValue →
    Except FilterSQLError (List FilterValue × List Text)
  | [], args => .ok (args, [])
  | child :: children, args => do
      let (args, clause) ← nodeToSQL child args
      let (args, parts) ← clausesToSQL children args
      return (args, (if clause = [] then [] else [parenthesize clause]) ++ parts)

def mustNotToSQL : Option FilterNode → List FilterValue →
    Except FilterSQLError (List FilterValue × List Text)
  | none, args => .ok (args, [])
  | some child, args => do
      let (args, clause) ← nodeToSQL child args
      return (args, if clause = [] then [] else ["NOT ".toList ++ parenthesize clause])

end

end Generate

/-- `TranslateFilter`: the clause and its arguments; `none` is the empty filter. -/
def translateFilter (placeholderFn : ℕ → Text) (knownColumns : List Text) :
    Option FilterNode → Except FilterSQLError (Text × List FilterValue)
  | none => .ok ([], [])
  | some node =>
    (nodeToSQL knownColumns (renderPlaceholder placeholderFn) node []).map Prod.swap

def filterToLiteralSQL (format : ValueFormat) (knownColumns : List Text) :
    Option FilterNode → Except FilterSQLError Text
  | none => .ok []
  | some node => (nodeToSQL knownColumns (renderLiteral format) node []).map Prod.snd

inductive SqlOperator where
  | equal | greaterEqual | greater | lessEqual | less
  deriving DecidableEq

inductive SqlExpr where
  | false
  | compare (field : Text) (op : SqlOperator) (value : FilterValue)
  | like (field pattern : Text)
  | isIn (field : Text) (first : FilterValue) (rest : List FilterValue)
  | all (first : SqlExpr) (rest : List SqlExpr)
  | any (first : SqlExpr) (rest : List SqlExpr)
  | not (e : SqlExpr)
  | paren (e : SqlExpr)

def SqlOperator.text : SqlOperator → Text
  | equal => "=".toList
  | greaterEqual => ">=".toList
  | greater => ">".toList
  | lessEqual => "<=".toList
  | less => "<".toList

section Print

variable (renderValue : RenderValue)

mutual

def SqlExpr.print : SqlExpr → List FilterValue → List FilterValue × Text
  | .false, args => (args, "FALSE".toList)
  | .compare field op value, args =>
    let (args, text) := renderValue args value
    (args, pgQuoteIdentifier field ++ " ".toList ++ op.text ++ " ".toList ++ text)
  | .like field pattern, args =>
    let (args, text) := renderValue args (.text pattern)
    (args, pgQuoteIdentifier field ++ " LIKE ".toList ++ text ++ " ESCAPE '\\'".toList)
  | .isIn field first rest, args =>
    let (args, texts) := renderValues renderValue args (first :: rest)
    (args, pgQuoteIdentifier field ++ " IN (".toList ++ joinText ", ".toList texts ++ ")".toList)
  | .all first rest, args =>
    let (args, text) := first.print args
    let (args, texts) := printAll rest args
    (args, joinText " AND ".toList (text :: texts))
  | .any first rest, args =>
    let (args, text) := first.print args
    let (args, texts) := printAll rest args
    (args, joinText " OR ".toList (text :: texts))
  | .not e, args =>
    let (args, text) := e.print args
    (args, "NOT ".toList ++ text)
  | .paren e, args =>
    let (args, text) := e.print args
    (args, parenthesize text)

def printAll : List SqlExpr → List FilterValue → List FilterValue × List Text
  | [], args => (args, [])
  | e :: es, args =>
    let (args, text) := e.print args
    let (args, texts) := printAll es args
    (args, text :: texts)

end

end Print

def allOf : List SqlExpr → Option SqlExpr
  | [] => none
  | e :: es => some (.all e es)

def anyOf : List SqlExpr → List SqlExpr
  | [] => []
  | e :: es => [.paren (.any e es)]

section Clause

variable (knownColumns : List Text)

def boundClause (field : Text) (op : SqlOperator) : FilterValue → List SqlExpr
  | .null => []
  | bound => [.compare field op bound]

def queryStringClause : List QueryTerm → Except FilterSQLError (Option SqlExpr)
  | [] => .ok none
  | first :: rest => do
      let _ ← (first :: rest).mapM fun t => validateField knownColumns t.field
      if rest.all (fun t => t.field = first.field) ∧ rest ≠ [] then
        return some (.isIn first.field (.text first.value) (rest.map fun t => .text t.value))
      let equal (t : QueryTerm) : SqlExpr := .compare t.field .equal (.text t.value)
      if rest = [] then return some (equal first)
      return some (.paren (.any (equal first) (rest.map equal)))

mutual

/-- The expression of a filter; `none` for an empty clause. -/
def clauseOf : FilterNode → Except FilterSQLError (Option SqlExpr)
  | .matchAllNode => .ok none
  | .matchNoneNode => .ok (some .false)
  | .termNode field value => do
      validateField knownColumns field
      return some (.compare field .equal value)
  | .matchNode field value => do
      validateField knownColumns field
      return some (.compare field .equal (.text value))
  | .prefixNode field start => do
      validateField knownColumns field
      return some (.like field (escapeLike start ++ ['%']))
  | .wildcardNode field pattern => do
      validateField knownColumns field
      return some (.like field (wildcardToLike pattern))
  | .rangeNode field min max inclusiveMin inclusiveMax => do
      validateField knownColumns field
      return allOf (boundClause field (if inclusiveMin then .greaterEqual else .greater) min ++
        boundClause field (if inclusiveMax then .lessEqual else .less) max)
  | .boolNode conjuncts disjuncts mustNot => do
      let parts ← clausesOf conjuncts
      let orParts ← clausesOf disjuncts
      let notPart ← mustNotOf mustNot
      return allOf (parts ++ anyOf orParts ++ notPart)
  | .queryStringNode terms => queryStringClause knownColumns terms

/-- The expressions of the clauses that are not empty. -/
def clausesOf : List FilterNode → Except FilterSQLError (List SqlExpr)
  | [] => .ok []
  | child :: children => do
      let clause ← clauseOf child
      let clauses ← clausesOf children
      return (clause.map SqlExpr.paren).toList ++ clauses

def mustNotOf : Option FilterNode → Except FilterSQLError (List SqlExpr)
  | none => .ok []
  | some child => do
      let clause ← clauseOf child
      return (clause.map fun e => SqlExpr.not (.paren e)).toList

end

end Clause

end Antfly.Foreign
