import Antfly.Join.Values
import Antfly.Lib.Joins

/-!
Broadcast and shuffle fetch the filtered right table, index lookup asks for the rows that have one
of the left keys.  All three probe a hash table of what they fetched, only broadcast scans it when
the operator is not an equality.  A query runs on the rows of one table: `matchesFilter` is what
the filter query and the prefix of the join clause say, and `select` keeps the requested fields.
-/

namespace Antfly.Join

open Joins

inductive JoinType where
  | inner | left | right
  deriving DecidableEq

structure Condition where
  leftField : Bytes
  rightField : Bytes
  operator : Operator

/-- A plan; the filter query and the prefix are a predicate on rows. -/
structure Plan where
  rightTable : Bytes
  joinType : JoinType
  condition : Condition
  /-- The filter with its limit; a limit that is not positive is none. -/
  rightFilters : Option ((Row → Bool) × ℤ)
  leftFields : List Bytes
  rightFields : List Bytes

structure ExecutorConfig where
  maxBroadcastSize : ℕ
  maxConcurrency : ℕ

def defaultExecutorConfig : ExecutorConfig where
  maxBroadcastSize := 100 * 1024 * 1024
  maxConcurrency := 10

/-- The table querier over the rows of the right table. -/
structure Querier where
  rows : List Row
  /-- Ids are the document keys of the table. -/
  ids_nodup : (rows.map Row.id).Nodup
  /-- Keeps the requested fields of a row. -/
  select : List Bytes → Row → Row
  select_id : ∀ fields row, (select fields row).id = row.id
  /-- Whether the query of the right table succeeds. -/
  queryOk : Bool
  /-- Whether the lookup of a batch of keys succeeds. -/
  lookupOk : List HashKey → Bool

inductive JoinError where
  | query
  | tooLarge
  /-- A runtime panic: an array or object as a map key. -/
  | unhashable
  /-- A runtime panic: a comparison of arrays or of objects. -/
  | uncomparable
  deriving DecidableEq

/-- What the query runner returns: the matching rows up to the limit, with the requested fields. -/
def Querier.runQuery (q : Querier) (holds : Row → Bool) (fields : List Bytes) (limit : ℕ) :
    List Row :=
  ((q.rows.filter holds).take limit).map (q.select fields)

def Plan.filterHolds (plan : Plan) : Row → Bool :=
  plan.rightFilters.elim (fun _ => true) Prod.fst

/-- The limit of the filter, or that of a query without one. -/
def Plan.rightLimit (plan : Plan) : ℕ :=
  match plan.rightFilters with
  | some (_, limit) => if 0 < limit then limit.toNat else 10000
  | none => 10000

def Querier.queryTable (q : Querier) (plan : Plan) : Except JoinError (List Row) :=
  if q.queryOk then .ok (q.runQuery plan.filterHolds plan.rightFields plan.rightLimit)
  else .error .query

def maxLookupLimit : ℕ := 50000

/-- The lookup of a batch of keys; it does not take the filters of the join clause. -/
def Querier.lookupKeys (q : Querier) (plan : Plan) (keys : List HashKey) : Option (List Row) :=
  if q.lookupOk keys then
    some (q.runQuery
      (fun row => (extractFieldValue row plan.condition.rightField).hashKey.any (keys.contains ·))
      plan.rightFields (min (keys.length * 10) maxLookupLimit))
  else none

abbrev HashTable := Grouped HashKey Row

/-- Inserts the rows that have a key. -/
def buildHashTable (field : Bytes) (t : HashTable) : List Row → Except JoinError HashTable
  | [] => .ok t
  | row :: rows =>
    let key := extractFieldValue row field
    if key.isNull then buildHashTable field t rows
    else
      match key.hashKey with
      | none => .error .unhashable
      | some k => buildHashTable field (Grouped.insert k row t) rows

def HashTable.lookup (t : HashTable) (key : Json) : Except JoinError (List Row) :=
  match key.hashKey with
  | none => .error .unhashable
  | some k => .ok (Grouped.lookup k t)

/-- The right rows for which `compareValues` holds. -/
def matching (leftKey : Json) (condition : Condition) : List Row → Except JoinError (List Row)
  | [] => .ok []
  | row :: rows =>
    match compareValues leftKey (extractFieldValue row condition.rightField)
        condition.operator with
    | none => .error .uncomparable
    | some true => (matching leftKey condition rows).map (row :: ·)
    | some false => matching leftKey condition rows

/-- What becomes of a left row without a match. -/
def leftOnly (plan : Plan) (left : Row) : Option JoinedRow :=
  if plan.joinType = .left then some (createNullJoinedRow plan.rightTable plan.rightFields left)
  else none

/-- What becomes of a right row without a match. -/
def rightOnly (plan : Plan) (right : Row) : Option JoinedRow :=
  if plan.joinType = .right then some (unmatchedRightRow plan.rightTable plan.leftFields right)
  else none

/-- The matches of a left row; a null key has none. -/
def matchesOf (plan : Plan) (found : Json → Except JoinError (List Row)) (left : Row) :
    Except JoinError (List Row) :=
  let key := extractFieldValue left plan.condition.leftField
  if key.isNull then .ok [] else found key

/-- The loop over the left rows. -/
def probeRows (plan : Plan) (found : Json → Except JoinError (List Row)) :
    List Row → Except JoinError (List JoinedRow)
  | [] => .ok []
  | left :: leftRows => do
      let rights ← matchesOf plan found left
      let joined ← probeRows plan found leftRows
      match rights with
      | [] => .ok ((leftOnly plan left).toList ++ joined)
      | right :: rights =>
        .ok (mergeFields plan.rightTable plan.rightFields left (right :: rights) :: joined)

def unmatchedById (joined : List JoinedRow) (rightRows : List Row) : List Row :=
  rightRows.filter fun right => joined.all fun j => j.rightRows.all fun row => row.id ≠ right.id

/-- Looks a key up, or scans the rows when the operator is not an equality. -/
def lookupOrScan (t : HashTable) (condition : Condition) (rightRows : List Row) (key : Json) :
    Except JoinError (List Row) :=
  if condition.operator = .equal then t.lookup key else matching key condition rightRows

/-- `BroadcastExecutor.Execute`. -/
def broadcast (cfg : ExecutorConfig) (q : Querier) (plan : Plan) (leftRows : List Row) :
    Except JoinError (List JoinedRow) :=
  if leftRows.isEmpty then .ok []
  else do
    let rightRows ← q.queryTable plan
    if cfg.maxBroadcastSize < rightRows.length * 200 then .error .tooLarge
    else
      let hashTable ← buildHashTable plan.condition.rightField [] rightRows
      let joined ← probeRows plan (lookupOrScan hashTable plan.condition rightRows) leftRows
      .ok (joined ++ (unmatchedById joined rightRows).filterMap (rightOnly plan))

/-- Looks a key up, and filters what was found by the operator. -/
def lookupMatching (t : HashTable) (condition : Condition) (key : Json) :
    Except JoinError (List Row) := do
  let found ← t.lookup key
  if condition.operator = .equal then .ok found else matching key condition found

def leftKeys (plan : Plan) : List Row → Except JoinError (List HashKey)
  | [] => .ok []
  | left :: leftRows =>
    let key := extractFieldValue left plan.condition.leftField
    if key.isNull then leftKeys plan leftRows
    else
      match key.hashKey with
      | none => .error .unhashable
      | some k => (leftKeys plan leftRows).map fun keys =>
        if keys.contains k then keys else k :: keys

/-- `IndexLookupExecutor.Execute`.  `batches` are the batches of keys in the order in which their
rows arrived; a batch whose lookup fails is left out. -/
def indexLookup (q : Querier) (plan : Plan) (batches : List (List HashKey)) (leftRows : List Row) :
    Except JoinError (List JoinedRow) :=
  if leftRows.isEmpty then .ok []
  else do
    let _ ← leftKeys plan leftRows
    let rightRows := batches.flatMap fun batch => (q.lookupKeys plan batch).getD []
    let hashTable ← buildHashTable plan.condition.rightField [] rightRows
    probeRows plan (lookupMatching hashTable plan.condition) leftRows

/-- The keys may be batched in any order. -/
def IsBatching (plan : Plan) (leftRows : List Row) (batches : List (List HashKey)) : Prop :=
  ∃ keys, leftKeys plan leftRows = .ok keys ∧ batches.flatten.Perm keys

def targetPartitionSize : ℕ := 10 * 1024 * 1024

def calculatePartitions (cfg : ExecutorConfig) (leftRowCount : ℕ) : ℕ :=
  min (min (max ((leftRowCount * 200 + targetPartitionSize - 1) / targetPartitionSize) 1)
    (cfg.maxConcurrency * 2)) 128

/-- `hashKey`; `fnv` is the hash of the printed key. -/
def partitionOf (fnv : Json → ℕ) (field : Bytes) (n : ℕ) (row : Row) : ℕ :=
  let key := extractFieldValue row field
  if key.isNull then 0 else fnv key % n

def partition (fnv : Json → ℕ) (field : Bytes) (n : ℕ) (rows : List Row) (i : ℕ) : List Row :=
  rows.filter fun row => partitionOf fnv field n row = i

def joinPartition (plan : Plan) (leftPartition rightPartition : List Row) :
    Except JoinError (List JoinedRow) := do
  let hashTable ← buildHashTable plan.condition.rightField [] rightPartition
  let joined ← probeRows plan (lookupMatching hashTable plan.condition) leftPartition
  .ok (joined ++ (unmatchedById joined rightPartition).filterMap (rightOnly plan))

/-- The join by `n` partitions, taken one after the other; the source collects them as they
finish. -/
def shufflePartitions (fnv : Json → ℕ) (q : Querier) (plan : Plan) (leftRows : List Row) (n : ℕ) :
    Except JoinError (List JoinedRow) := do
  let rightRows ← q.queryTable plan
  let parts ← (List.range n).mapM fun i =>
    joinPartition plan (partition fnv plan.condition.leftField n leftRows i)
      (partition fnv plan.condition.rightField n rightRows i)
  .ok parts.flatten

/-- `ShuffleExecutor.Execute`. -/
def shuffle (cfg : ExecutorConfig) (fnv : Json → ℕ) (q : Querier) (plan : Plan)
    (leftRows : List Row) : Except JoinError (List JoinedRow) :=
  if leftRows.isEmpty then .ok []
  else shufflePartitions fnv q plan leftRows (calculatePartitions cfg leftRows.length)

end Antfly.Join
