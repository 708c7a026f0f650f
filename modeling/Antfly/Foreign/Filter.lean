import Antfly.Join.Values
import Antfly.Lib.Glob

/-!
A filter query is parsed into a tree of nodes, which is evaluated on the row of a foreign table as a
map of decoded values.  Strings are lists of characters; where the code goes by bytes and this
matters, they are encoded.  A comparison of two lists or of two objects panics.
-/

namespace Antfly.Foreign

abbrev Text := List Char

/-- A decoded JSON value, or the value of a column in a row's map. -/
inductive FilterValue where
  | null
  | text (s : Text)
  | number (bits : UInt64)
  | boolean (b : Bool)
  | list (vs : List FilterValue)
  | object (fields : List (Text × FilterValue))

def encodeText (s : Text) : Bytes := s.flatMap String.utf8EncodeChar

structure QueryTerm where
  field : Text
  value : Text
  deriving DecidableEq

inductive FilterNode where
  | matchAllNode
  | matchNoneNode
  | termNode (field : Text) (value : FilterValue)
  | matchNode (field value : Text)
  | prefixNode (field start : Text)
  | wildcardNode (field pattern : Text)
  | rangeNode (field : Text) (min max : FilterValue) (inclusiveMin inclusiveMax : Bool)
  | boolNode (conjuncts disjuncts : List FilterNode) (mustNot : Option FilterNode)
  | queryStringNode (terms : List QueryTerm)

inductive FilterError where
  | invalidFilterJSON
  | unsupportedFilterType
  | missingField
  | invalidField
  | invalidTerm
  | invalidMatch
  | invalidPrefix
  | invalidWildcard
  | invalidInclusiveMin
  | invalidInclusiveMax
  | invalidConjuncts
  | invalidDisjuncts
  | invalidMustNot
  | invalidQueryString
  | unsupportedQuerySyntax (term : Text)
  deriving DecidableEq

def fieldOf (raw : List (Text × FilterValue)) (key : Text) : Option FilterValue :=
  (raw.find? fun f => f.1 = key).map Prod.snd

/-- `json.Unmarshal` into a string, which null leaves empty. -/
def asString (err : FilterError) : FilterValue → Except FilterError Text
  | .text s => .ok s
  | .null => .ok []
  | _ => .error err

/-- `json.Unmarshal` into a boolean that is true before. -/
def asFlag (err : FilterError) : Option FilterValue → Except FilterError Bool
  | none => .ok true
  | some .null => .ok true
  | some (.boolean b) => .ok b
  | some _ => .error err

/-- `json.Unmarshal` into a map of raw messages. -/
def asMap (err : FilterError) : FilterValue → Except FilterError (List (Text × FilterValue))
  | .object fields => .ok fields
  | .null => .ok []
  | _ => .error err

/-- `json.Unmarshal` into a list of maps of raw messages. -/
def asMaps (err : FilterError) :
    FilterValue → Except FilterError (List (List (Text × FilterValue)))
  | .list vs => vs.mapM (asMap err)
  | .null => .ok []
  | _ => .error err

def extractField (raw : List (Text × FilterValue)) : Except FilterError Text :=
  match fieldOf raw "field".toList with
  | none => .error .missingField
  | some v => asString .invalidField v

/-- What `unicode.IsSpace` says of a character. -/
def isSpace (c : Char) : Bool :=
  c.val ∈ [0x09, 0x0A, 0x0B, 0x0C, 0x0D, 0x20, 0x85, 0xA0, 0x1680, 0x2028, 0x2029, 0x202F, 0x205F,
    0x3000] || (0x2000 ≤ c.val && c.val ≤ 0x200A)

def trimSpace (s : Text) : Text := ((s.dropWhile isSpace).reverse.dropWhile isSpace).reverse

/-- `strings.Split` at a separator that is not empty. -/
def splitText (sep : Text) : Text → Text → List Text
  | current, [] => [current]
  | current, c :: s =>
    if sep.isPrefixOf (c :: s) then current :: splitText sep [] (s.drop (sep.length - 1))
    else splitText sep (current ++ [c]) s
  termination_by _ s => s.length
  decreasing_by
    · simp only [List.length_drop, List.length_cons]
      omega
    · simp

/-- `SplitFieldValue`: at the first colon that no backslash precedes. -/
def splitFieldValue : Text → Option (Text × Text)
  | [] => none
  | '\\' :: [] => none
  | '\\' :: c :: s => (splitFieldValue s).map fun p => ('\\' :: c :: p.1, p.2)
  | ':' :: s => some ([], s)
  | c :: s => (splitFieldValue s).map fun p => (c :: p.1, p.2)

def unescapeQueryString : Text → Text
  | [] => []
  | '\\' :: c :: s => c :: unescapeQueryString s
  | c :: s => c :: unescapeQueryString s

def parseQueryTerm (term : Text) : Except FilterError QueryTerm :=
  match splitFieldValue term with
  | none => .error (.unsupportedQuerySyntax term)
  | some (field, value) => .ok { field, value := unescapeQueryString value }

def parseQueryString (query : FilterValue) : Except FilterError FilterNode := do
  let queryStr ← asString .invalidQueryString query
  if queryStr = ['*'] ∨ queryStr = [] then return .matchAllNode
  let terms := ((splitText " OR ".toList [] queryStr).map trimSpace).filter (!·.isEmpty)
  let parsed ← terms.mapM parseQueryTerm
  return if parsed = [] then .matchAllNode else .queryStringNode parsed

def parseRange (raw : List (Text × FilterValue)) : Except FilterError FilterNode := do
  let field ← extractField raw
  let inclusiveMin ← asFlag .invalidInclusiveMin (fieldOf raw "inclusive_min".toList)
  let inclusiveMax ← asFlag .invalidInclusiveMax (fieldOf raw "inclusive_max".toList)
  return .rangeNode field ((fieldOf raw "min".toList).getD .null)
    ((fieldOf raw "max".toList).getD .null) inclusiveMin inclusiveMax

/-- The nodes that have no children. -/
def parseLeaf (raw : List (Text × FilterValue)) : Except FilterError FilterNode :=
  match fieldOf raw "query".toList with
  | some query => parseQueryString query
  | none =>
    match fieldOf raw "term".toList with
    | some term => do return .termNode (← extractField raw) term
    | none =>
      if (fieldOf raw "min".toList).isSome || (fieldOf raw "max".toList).isSome then
        parseRange raw
      else
        match fieldOf raw "match".toList with
        | some value => do
            let value ← asString .invalidMatch value
            return .matchNode (← extractField raw) value
        | none =>
          match fieldOf raw "prefix".toList with
          | some start => do
              let start ← asString .invalidPrefix start
              return .prefixNode (← extractField raw) start
          | none =>
            match fieldOf raw "wildcard".toList with
            | some pattern => do
                let pattern ← asString .invalidWildcard pattern
                return .wildcardNode (← extractField raw) pattern
            | none =>
              if (fieldOf raw "match_all".toList).isSome then .ok .matchAllNode
              else if (fieldOf raw "match_none".toList).isSome then .ok .matchNoneNode
              else .error .unsupportedFilterType

/-- `parseRaw`; `fuel` bounds the depth of the filter. -/
def parseRaw : ℕ → List (Text × FilterValue) → Except FilterError FilterNode
  | 0, _ => .error .unsupportedFilterType
  | fuel + 1, raw =>
    if (fieldOf raw "conjuncts".toList).isSome || (fieldOf raw "disjuncts".toList).isSome ||
        (fieldOf raw "must_not".toList).isSome then do
      let conjuncts ← asMaps .invalidConjuncts ((fieldOf raw "conjuncts".toList).getD .null)
      let conjuncts ← conjuncts.mapM (parseRaw fuel)
      let disjuncts ← asMaps .invalidDisjuncts ((fieldOf raw "disjuncts".toList).getD .null)
      let disjuncts ← disjuncts.mapM (parseRaw fuel)
      let mustNot ← (fieldOf raw "must_not".toList).mapM fun v => do
        parseRaw fuel (← asMap .invalidMustNot v)
      return .boolNode conjuncts disjuncts mustNot
    else parseLeaf raw

mutual

/-- How deep a value is. -/
def FilterValue.depth : FilterValue → ℕ
  | .list vs => depthList vs + 1
  | .object fields => depthFields fields + 1
  | _ => 0

def depthList : List FilterValue → ℕ
  | [] => 0
  | v :: vs => max v.depth (depthList vs)

def depthFields : List (Text × FilterValue) → ℕ
  | [] => 0
  | (_, v) :: fields => max v.depth (depthFields fields)

end

/-- `ParseFilter`; `none` is the empty filter. -/
def parseFilter : Option FilterValue → Except FilterError FilterNode
  | none => .ok .matchAllNode
  | some filter => do
      let raw ← asMap .invalidFilterJSON filter
      parseRaw (filter.depth + 1) raw

/-- `ValuesEqual`; `none` is a panic. -/
def valuesEqual : FilterValue → FilterValue → Option Bool
  | .text a, .text b => some (decide (a = b))
  | .number a, .number b => some (decide (floatRank a = floatRank b))
  | .boolean a, .boolean b => some (decide (a = b))
  | .null, .null => some true
  | .list _, .list _ => none
  | .object _, .object _ => none
  | _, _ => some false

def compareBytes (a b : Bytes) : Ordering := if a < b then .lt else if b < a then .gt else .eq

/-- `CompareOrdered`: values that have no order count as equal. -/
def compareOrdered : FilterValue → FilterValue → Ordering
  | .text a, .text b => compareBytes (encodeText a) (encodeText b)
  | .number a, .number b => compare (floatRank a) (floatRank b)
  | _, _ => .eq

/-- What a byte of a wildcard pattern stands for. -/
def wildcardItem (b : UInt8) : Glob.Item UInt8 :=
  if b = 42 then .any else if b = 63 then .one else .letter b

/-- `MatchWildcard`, a table with two rows at a time, on bytes. -/
def matchWildcard (pattern s : Text) : Bool :=
  Glob.tableMatch ((encodeText pattern).map wildcardItem) (encodeText s)

abbrev RowMap := Text → Option FilterValue

/-- A node that looks at the value of a field, which must be there and not null. -/
def onField (doc : RowMap) (field : Text) (test : FilterValue → Option Bool) : Option Bool :=
  match doc field with
  | none => some false
  | some .null => some false
  | some v => test v

def startsWith (start : Text) : FilterValue → Option Bool
  | .text s => some (start.isPrefixOf s)
  | _ => some false

def matchesWildcard (pattern : Text) : FilterValue → Option Bool
  | .text s => some (matchWildcard pattern s)
  | _ => some false

def aboveMin (docVal min : FilterValue) (inclusiveMin : Bool) : Bool :=
  match min with
  | .null => true
  | _ =>
    if inclusiveMin then (compareOrdered docVal min).isGE else (compareOrdered docVal min).isGT

def belowMax (docVal max : FilterValue) (inclusiveMax : Bool) : Bool :=
  match max with
  | .null => true
  | _ =>
    if inclusiveMax then (compareOrdered docVal max).isLE else (compareOrdered docVal max).isLT

/-- One test after another one, which is not made where the first one is false. -/
def andThen : Option Bool → Option Bool → Option Bool
  | none, _ => none
  | some false, _ => some false
  | some true, second => second

def orElse : Option Bool → Option Bool → Option Bool
  | none, _ => none
  | some true, _ => some true
  | some false, second => second

/-- The loop over the terms of a query string. -/
def evaluateTerms (doc : RowMap) : List QueryTerm → Option Bool
  | [] => some false
  | t :: terms =>
    orElse (onField doc t.field (valuesEqual · (.text t.value))) (evaluateTerms doc terms)

mutual

/-- `Evaluate`; `none` is a panic. -/
def FilterNode.evaluate (doc : RowMap) : FilterNode → Option Bool
  | .matchAllNode => some true
  | .matchNoneNode => some false
  | .termNode field value => onField doc field (valuesEqual · value)
  | .matchNode field value => onField doc field (valuesEqual · (.text value))
  | .prefixNode field start => onField doc field (startsWith start)
  | .wildcardNode field pattern => onField doc field (matchesWildcard pattern)
  | .rangeNode field min max inclusiveMin inclusiveMax =>
    onField doc field fun v =>
      some (aboveMin v min inclusiveMin && belowMax v max inclusiveMax)
  | .boolNode conjuncts disjuncts mustNot =>
    andThen (evaluateAll doc conjuncts)
      (andThen (if disjuncts.isEmpty then some true else evaluateAny doc disjuncts)
        (evaluateNot doc mustNot))
  | .queryStringNode terms => if terms = [] then some true else evaluateTerms doc terms

def evaluateAll (doc : RowMap) : List FilterNode → Option Bool
  | [] => some true
  | c :: cs => andThen (c.evaluate doc) (evaluateAll doc cs)

def evaluateAny (doc : RowMap) : List FilterNode → Option Bool
  | [] => some false
  | d :: ds => orElse (d.evaluate doc) (evaluateAny doc ds)

def evaluateNot (doc : RowMap) : Option FilterNode → Option Bool
  | none => some true
  | some m => (m.evaluate doc).map (!·)

end

end Antfly.Foreign
