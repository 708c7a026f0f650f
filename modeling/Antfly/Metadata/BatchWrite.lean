import Antfly.Cluster.WriteRouting
import Antfly.Lib.Grouped

/-!
`BatchWrite` takes a batch for one table and has five routes for it: one insert, one transform,
deletes only, one shard, and a transaction over several shards.  `MultiBatchWrite` takes batches for
several tables and has two.  Each route sends its own selection of the inserts, deletes and
transforms to the shards.

`BatchWrite` decodes the body over a request from a pool.  Go's decoder leaves what the body does
not name, in the request and in the elements of a list it decodes over, and the pool clears the
deletes and the inserts only.
-/

namespace Antfly.Metadata

/-- A slice with the elements of its array behind its length. -/
structure Slice (α : Type) where
  backing : List α
  len : ℕ

namespace Slice

def elems {α : Type} (s : Slice α) : List α := s.backing.take s.len

def nil {α : Type} : Slice α := ⟨[], 0⟩

/-- A JSON array is decoded over the elements of the backing array, as far as there are any. -/
def decodeElems {α β : Type} (decode : α → β → α) (zero : α) : List α → List β → List α
  | stale, [] => stale
  | [], b :: bs => decode zero b :: decodeElems decode zero [] bs
  | a :: stale, b :: bs => decode a b :: decodeElems decode zero stale bs

/-- The empty array makes a new slice. -/
def decode {α β : Type} (decode : α → β → α) (zero : α) (stale : Slice α) (bodies : List β) :
    Slice α :=
  if bodies.isEmpty then nil
  else ⟨decodeElems decode zero stale.backing bodies, bodies.length⟩

end Slice

structure ApiTransformOp where
  op : Bytes
  path : Bytes
  value : Option Json

structure ApiTransform where
  key : Bytes
  operations : Slice ApiTransformOp
  upsert : Bool

structure BatchRequest where
  inserts : OrdMap Bytes Obj
  deletes : List Bytes
  transforms : Slice ApiTransform
  syncLevel : Bytes

/-- The fields an operation of the body names; a `null` value is named. -/
structure TransformOpBody where
  op : Option Bytes
  path : Option Bytes
  value : Option (Option Json)

structure TransformBody where
  key : Option Bytes
  operations : Option (List TransformOpBody)
  upsert : Option Bool

structure BatchBody where
  inserts : Option (List (Bytes × Obj))
  deletes : Option (List Bytes)
  transforms : Option (List TransformBody)
  syncLevel : Option Bytes

def ApiTransformOp.zero : ApiTransformOp := ⟨[], [], none⟩

def ApiTransform.zero : ApiTransform := ⟨[], .nil, false⟩

def ApiTransformOp.decode (stale : ApiTransformOp) (b : TransformOpBody) : ApiTransformOp where
  op := b.op.getD stale.op
  path := b.path.getD stale.path
  value := b.value.getD stale.value

def ApiTransform.decode (stale : ApiTransform) (b : TransformBody) : ApiTransform where
  key := b.key.getD stale.key
  operations := b.operations.elim stale.operations
    (Slice.decode ApiTransformOp.decode .zero stale.operations)
  upsert := b.upsert.getD stale.upsert

namespace BatchRequest

/-- A request the pool has just made. -/
def fresh : BatchRequest := ⟨.empty, [], .nil, []⟩

def decode (kvs : BatchRequest) (body : BatchBody) : BatchRequest where
  inserts := body.inserts.elim kvs.inserts fun es =>
    es.foldl (fun m e => m.insert e.1 e.2) kvs.inserts
  deletes := body.deletes.getD kvs.deletes
  transforms := body.transforms.elim kvs.transforms
    (Slice.decode ApiTransform.decode .zero kvs.transforms)
  syncLevel := body.syncLevel.getD kvs.syncLevel

/-- What is done to a request before it goes back to the pool. -/
def clear (kvs : BatchRequest) : BatchRequest := { kvs with deletes := [], inserts := .empty }

def isEmpty (r : BatchRequest) : Bool :=
  r.deletes.isEmpty && r.inserts.entries.isEmpty && r.transforms.elems.isEmpty

end BatchRequest

/-- The shards of a table, whether it has a graph index, and its document schema. -/
structure BatchTable extends TableDef where
  hasGraphIndexes : Bool
  validateDoc : Obj → Bool

inductive DocumentKeyError where
  | shape (e : KeyShapeError)
  | graphMarker
  deriving DecidableEq

def validateDocumentInsertKey (table : BatchTable) (key : Bytes) : Option DocumentKeyError :=
  match validateDocumentMutationKey key with
  | some e => some (.shape e)
  | none =>
    if table.hasGraphIndexes && contains key indexMarker then some .graphMarker else none

def validateDocumentTransformKey (table : BatchTable) (key : Bytes) (upsert : Bool) :
    Option DocumentKeyError :=
  match validateDocumentMutationKey key with
  | some e => some (.shape e)
  | none => if upsert then validateDocumentInsertKey table key else none

def parseSyncLevel (level : Bytes) : Option SyncLevel :=
  if level.isEmpty then some .propose
  else if level = ascii ['p', 'r', 'o', 'p', 'o', 's', 'e'] then some .propose
  else if level = ascii ['w', 'r', 'i', 't', 'e'] then some .write
  else if level = ascii ['f', 'u', 'l', 'l', '_', 't', 'e', 'x', 't'] then some .fullText
  else if level = ascii ['e', 'm', 'b', 'e', 'd', 'd', 'i', 'n', 'g', 's'] then some .embeddings
  else if level = ascii ['a', 'k', 'n', 'n'] then some .embeddings
  else none

inductive BatchError where
  | noData
  | invalidSyncLevel (level : Bytes)
  | invalidDocumentID (key : Bytes) (e : DocumentKeyError)
  | validation (key : Bytes)
  | partition (e : RoutingError)
  | noPartition (keys : List Bytes)
  | nonemptyKeyRequired
  | invalidTransformValue (key : Bytes)
  | marshal (key : Bytes)
  | shardSplitting
  | insertFailed
  | transformFailed
  | forwardFailed (shardID : ℕ)
  | transactionFailed
  deriving DecidableEq

/-- The status of the answer. -/
def BatchError.status : BatchError → ℕ
  | .noData | .invalidSyncLevel _ | .invalidDocumentID .. | .validation _
  | .nonemptyKeyRequired | .invalidTransformValue _ => 400
  | .partition _ | .noPartition _ | .marshal _ | .shardSplitting | .insertFailed
  | .transformFailed | .forwardFailed _ | .transactionFailed => 500

def failIf {ε : Type} (e : Option ε) : Except ε Unit := e.elim (.ok ()) .error

/-- Adds `_timestamp` to a document that has none. -/
def injectTimestamp (timestamp : Bytes) (doc : Obj) : Obj :=
  let field := ascii ['_', 't', 'i', 'm', 'e', 's', 't', 'a', 'm', 'p']
  match doc.get? field with
  | some _ => doc
  | none => doc.set field (.str timestamp)

def parseTransformOpType (op : Bytes) : TransformOpType :=
  if op = ascii ['$', 's', 'e', 't'] then .set
  else if op = ascii ['$', 'u', 'n', 's', 'e', 't'] then .unset
  else if op = ascii ['$', 'i', 'n', 'c'] then .inc
  else if op = ascii ['$', 'p', 'u', 's', 'h'] then .push
  else if op = ascii ['$', 'p', 'u', 'l', 'l'] then .pull
  else if op = ascii ['$', 'a', 'd', 'd', 'T', 'o', 'S', 'e', 't'] then .addToSet
  else if op = ascii ['$', 'p', 'o', 'p'] then .pop
  else if op = ascii ['$', 'm', 'u', 'l'] then .mul
  else if op = ascii ['$', 'm', 'i', 'n'] then .min
  else if op = ascii ['$', 'm', 'a', 'x'] then .max
  else if op = ascii ['$', 'c', 'u', 'r', 'r', 'e', 'n', 't', 'D', 'a', 't', 'e'] then .currentDate
  else if op = ascii ['$', 'r', 'e', 'n', 'a', 'm', 'e'] then .rename
  else .set

/-- One call of a shard: `Batch` or `WriteIntent`. -/
structure Send where
  shardID : ℕ
  writes : List Write
  deletes : List Bytes
  transforms : List Transform

/-- `json.Marshal` of a document and of a transform's value. -/
structure Marshaller where
  doc : Obj → Option Bytes
  value : Json → Option Bytes

section Encode

variable (m : Marshaller)

def encodeOp (key : Bytes) (o : ApiTransformOp) : Except BatchError TransformOp := do
  let value ← match o.value with
    | none => .ok []
    | some v => (m.value v).elim (.error (.invalidTransformValue key)) .ok
  return ⟨o.path, parseTransformOpType o.op, value⟩

def transformFromAPI (t : ApiTransform) : Except BatchError Transform :=
  if t.key.isEmpty then .error .nonemptyKeyRequired
  else do
    let ops ← t.operations.elems.mapM (encodeOp m t.key)
    return ⟨t.key, ops, t.upsert⟩

/-- One write: the document of the key in the request, marshalled. -/
def encodeWrite (inserts : OrdMap Bytes Obj) (key : Bytes) : Except BatchError Write :=
  ((m.doc ((inserts.get? key).getD [])).map fun json => (key, json)).elim
    (.error (.marshal key)) .ok

end Encode

/-- The keys of each shard. -/
abbrev Partitions := List (ℕ × List Bytes)

/-- The entry of a shard in a Go map of slices. -/
def shardEntry {α : Type} (p : List (ℕ × List α)) (shardID : ℕ) : List α :=
  (p.lookup shardID).getD []

/-- The shard a key is sent to, nothing for a key outside every range. -/
def writeShard (table : BatchTable) (statuses : OrdMap ℕ ShardStatus) (key : Bytes) :
    Option (Except RoutingError ℕ) :=
  (findShardForKey table.ranges key).map (resolveWriteShardID statuses)

def shardOf (table : BatchTable) (statuses : OrdMap ℕ ShardStatus) (key : Bytes) : ℕ :=
  match writeShard table statuses key with
  | some (.ok id) => id
  | _ => 0

/-- The groups a Go map of slices holds after one `append` for each key. -/
def groups (f : Bytes → ℕ) (keys : List Bytes) : Partitions :=
  (Grouped.labels f keys).map fun id => (id, Grouped.group f keys id)

/-- The error of a key whose shard does not take writes. -/
def routingError (table : BatchTable) (statuses : OrdMap ℕ ShardStatus) (key : Bytes) :
    Option RoutingError :=
  match writeShard table statuses key with
  | some (.error e) => some e
  | _ => none

/-- The keys outside every range. -/
def unfoundKeys (table : BatchTable) (statuses : OrdMap ℕ ShardStatus) (keys : List Bytes) :
    List Bytes :=
  keys.filter fun key => (writeShard table statuses key).isNone

/-- `partitionWriteKeysByShard`, with its callers' answers to its error and to keys it has not
found.  The loop stops at the first error. -/
def partitionWriteKeysByShard (table : BatchTable) (statuses : OrdMap ℕ ShardStatus)
    (keys : List Bytes) : Except BatchError Partitions :=
  match keys.findSome? (routingError table statuses) with
  | some e => .error (.partition e)
  | none =>
    if (unfoundKeys table statuses keys).isEmpty then
      .ok (groups (shardOf table statuses) keys)
    else .error (.noPartition (unfoundKeys table statuses keys))

/-- `transformMap[key]`: a later transform of a key replaces an earlier one. -/
def transformMap (ts : List Transform) (key : Bytes) : Option Transform :=
  ts.reverse.find? fun t => t.key = key

/-- The transforms of each shard, looked up by key. -/
def partitionTransforms (ts : List Transform) (p : Partitions) : List (ℕ × List Transform) :=
  p.map fun e => (e.1, e.2.filterMap (transformMap ts))

/-- The answer to one attempt: a transient error is tried again. -/
inductive Answer where
  | accepted | transient | refused
  deriving DecidableEq

/-- `retry.Do`: the first answer that is not transient, within the given number of retries. -/
def retry : ℕ → List Answer → Bool
  | _, [] => false
  | _, .accepted :: _ => true
  | _, .refused :: _ => false
  | 0, .transient :: _ => false
  | n + 1, .transient :: as => retry n as

def writeShardRetries : ℕ := 20

/-- One attempt of an insert: the routed shard answers, or it refuses the key as out of its range
and the shard that holds the key answers in its place. -/
inductive InsertAnswer where
  | routed (a : Answer)
  | outOfRange (child : Answer)

/-- The answer that counts, and whether the shard of the key gave it.  The routed shard is not
bypassed when it is that shard itself. -/
def InsertAnswer.settle (bypass : Bool) : InsertAnswer → Answer × Bool
  | .routed a => (a, false)
  | .outOfRange child => if bypass then (child, true) else (.transient, false)

/-- The retries of `forwardInsertToShard`, and whether the routed shard was bypassed. -/
def retryInsert (bypass : Bool) : ℕ → List InsertAnswer → Option Bool
  | _, [] => none
  | n, a :: as =>
    match (a.settle bypass).1, n with
    | .accepted, _ => some (a.settle bypass).2
    | .refused, _ => none
    | .transient, 0 => none
    | .transient, n + 1 => retryInsert bypass n as

/-- How a step of a transaction ends: `cancelled` is an error that wraps `context.Canceled`. -/
inductive TxnAnswer where
  | done | failed | cancelled
  deriving DecidableEq

inductive SplitCheck where
  | passed | splitting | cancelled
  deriving DecidableEq

/-- What the cluster answers to one request. -/
structure Cluster where
  batchAnswers : ℕ → List Answer
  insertAnswers : List InsertAnswer
  initTransaction : TxnAnswer
  writeIntent : ℕ → TxnAnswer
  commitTransaction : TxnAnswer
  /-- `checkShardsNotSplitting`. -/
  splitCheck : SplitCheck
  /-- The context of the request is cancelled before the task of a shard is started. -/
  cancelled : ℕ → Bool

def forwardBatchToShard (e : Cluster) (shardID : ℕ) : Bool :=
  retry writeShardRetries (e.batchAnswers shardID)

inductive TxnFailure where
  | failed | cancelled
  deriving DecidableEq

def TxnAnswer.toExcept : TxnAnswer → Except TxnFailure Unit
  | .done => .ok ()
  | .failed => .error .failed
  | .cancelled => .error .cancelled

/-- `ExecuteTransaction`: the operations take effect when the transaction is committed. -/
def executeTransaction (e : Cluster) (sends : List Send) : Except TxnFailure (List Send) := do
  e.initTransaction.toExcept
  let _ ← sends.mapM fun s => (e.writeIntent s.shardID).toExcept
  e.commitTransaction.toExcept
  return sends

/-- One task of a worker group.  A group whose context is cancelled starts no task and reports no
error. -/
def runTask (e : Cluster) (shardID : ℕ) (send : Except BatchError Send) :
    Except BatchError (List Send) :=
  if e.cancelled shardID then .ok []
  else do
    let s ← send
    if forwardBatchToShard e shardID then return [s] else .error (.forwardFailed shardID)

/-- A worker group, and what it has sent when no task fails. -/
def runGroup (e : Cluster) (tasks : List (ℕ × Except BatchError Send)) :
    Except BatchError (List Send) := do
  let sent ← tasks.mapM fun t => runTask e t.1 t.2
  return sent.flatten

/-- The numbers of operations in a request. -/
structure BatchResponse where
  inserted : ℕ
  deleted : ℕ
  transformed : ℕ
  deriving DecidableEq

def BatchRequest.counts (kvs : BatchRequest) : BatchResponse where
  inserted := kvs.inserts.entries.length
  deleted := kvs.deletes.length
  transformed := kvs.transforms.elems.length

/-- An answer other than an error: its status and body, with the operations the shards have taken
and the sync level they carry. -/
structure Reply where
  status : ℕ
  counts : List BatchResponse
  sends : List Send
  syncLevel : SyncLevel

section Handlers

variable (m : Marshaller) (table : BatchTable) (statuses : OrdMap ℕ ShardStatus) (timestamp : Bytes)

def BatchRequest.withTimestamps (kvs : BatchRequest) : BatchRequest :=
  { kvs with
    inserts :=
      { entries := kvs.inserts.entries.map fun e => (e.1, injectTimestamp timestamp e.2)
        sorted := List.pairwise_map.mpr kvs.inserts.sorted } }

def BatchRequest.insertKeys (kvs : BatchRequest) : List Bytes := kvs.inserts.entries.map Prod.fst

def checkInsert (e : Bytes × Obj) : Except BatchError Unit := do
  failIf ((validateDocumentInsertKey table e.1).map (.invalidDocumentID e.1))
  if table.validateDoc e.2 then return () else .error (.validation e.1)

def checkDelete (key : Bytes) : Except BatchError Unit :=
  failIf ((validateDocumentMutationKey key).map fun e => .invalidDocumentID key (.shape e))

def checkTransform (t : ApiTransform) : Except BatchError Unit :=
  failIf ((validateDocumentTransformKey table t.key t.upsert).map (.invalidDocumentID t.key))

/-- The documents and the keys of a request. -/
def checkRequest (kvs : BatchRequest) : Except BatchError Unit := do
  let _ ← kvs.inserts.entries.mapM (checkInsert table)
  let _ ← kvs.deletes.mapM checkDelete
  let _ ← kvs.transforms.elems.mapM (checkTransform table)

def forwardInsertToShard (e : Cluster) (inserts : OrdMap Bytes Obj) (key : Bytes) :
    Except BatchError Send := do
  let w ← encodeWrite m inserts key
  match findShardForKey table.ranges key with
  | none => .error .insertFailed
  | some found =>
    match resolveWriteShardID statuses found with
    | .error _ => .error .insertFailed
    | .ok routed =>
      match retryInsert (decide (routed ≠ found)) writeShardRetries e.insertAnswers with
      | none => .error .insertFailed
      | some false => return ⟨routed, [w], [], []⟩
      | some true => return ⟨found, [w], [], []⟩

/-- The three partitions of a request. -/
structure Plan where
  writes : Partitions
  deletes : Partitions
  transforms : List (ℕ × List Transform)

def planRequest (kvs : BatchRequest) : Except BatchError Plan := do
  let writes ← partitionWriteKeysByShard table statuses kvs.insertKeys
  let deletes ← partitionWriteKeysByShard table statuses kvs.deletes
  let ts ← kvs.transforms.elems.mapM (transformFromAPI m)
  let keys ← partitionWriteKeysByShard table statuses (kvs.transforms.elems.map ApiTransform.key)
  return ⟨writes, deletes, partitionTransforms ts keys⟩

/-- The shards of a plan: those with writes, then those with deletes, then the others. -/
def Plan.shards (p : Plan) : List ℕ :=
  let ws := p.writes.map Prod.fst
  let ds := (p.deletes.map Prod.fst).filter fun id => id ∉ ws
  ws ++ ds ++ (p.transforms.map Prod.fst).filter fun id => id ∉ ws ∧ id ∉ ds

/-- What a plan has for one shard. -/
def Plan.send (p : Plan) (inserts : OrdMap Bytes Obj) (id : ℕ) : Except BatchError Send := do
  let writes ← (shardEntry p.writes id).mapM (encodeWrite m inserts)
  return ⟨id, writes, shardEntry p.deletes id, shardEntry p.transforms id⟩

/-- The route of deletes only. -/
def forwardDeletes (e : Cluster) (p : Plan) : Except BatchError (List Send) :=
  runGroup e (p.deletes.map fun d => (d.1, .ok ⟨d.1, [], d.2, []⟩))

def executeBatchNonTransactional (e : Cluster) (p : Plan) (inserts : OrdMap Bytes Obj) :
    Except BatchError (List Send) :=
  runGroup e (p.shards.map fun id => (id, p.send m inserts id))

/-- `executeBatchWithTransaction`, with its caller's answer to an error: a cancelled transaction
is logged and counts as done. -/
def executeBatchWithTransaction (e : Cluster) (p : Plan) (inserts : OrdMap Bytes Obj) :
    Except BatchError (List Send) := do
  let sends ← p.shards.mapM (p.send m inserts)
  match executeTransaction e sends with
  | .ok sends => return sends
  | .error .cancelled => return []
  | .error .failed => .error .transactionFailed

/-- The routes other than those of one insert and of one transform. -/
def sendPlan (e : Cluster) (kvs : BatchRequest) (p : Plan) : Except BatchError (List Send) :=
  if p.writes.isEmpty ∧ p.transforms.isEmpty then forwardDeletes e p
  else if 1 < p.shards.length then executeBatchWithTransaction m e p kvs.inserts
  else executeBatchNonTransactional m e p kvs.inserts

def executePlan (e : Cluster) (level : SyncLevel) (kvs : BatchRequest) (p : Plan) :
    Except BatchError Reply :=
  if kvs.inserts.entries.isEmpty ∧ kvs.deletes.isEmpty ∧ kvs.transforms.elems.length = 1 then
    match p.transforms with
    | (id, t :: _) :: _ =>
      if forwardBatchToShard e id then .ok ⟨200, [⟨0, 0, 1⟩], [⟨id, [], [], [t]⟩], level⟩
      else .error .transformFailed
    | _ => .error .transformFailed
  else do
    let sends ← sendPlan m e kvs p
    return ⟨201, [kvs.counts], sends, level⟩

/-- `BatchWrite` on a request from the pool.  Where the check for splitting shards is cancelled
nothing is written, and the server answers 200. -/
def batchWrite (e : Cluster) (pooled : BatchRequest) (body : BatchBody) :
    Except BatchError Reply := do
  let kvs := pooled.decode body
  failIf (if kvs.isEmpty then some .noData else none)
  let level ← (parseSyncLevel kvs.syncLevel).elim (.error (.invalidSyncLevel kvs.syncLevel)) .ok
  let kvs := kvs.withTimestamps timestamp
  checkRequest table kvs
  match kvs.insertKeys with
  | [key] => do
      let s ← forwardInsertToShard m table statuses e kvs.inserts key
      return ⟨201, [], [s], level⟩
  | _ => do
      let p ← planRequest m table statuses kvs
      match e.splitCheck with
      | .splitting => .error .shardSplitting
      | .cancelled => return ⟨200, [], [], level⟩
      | .passed => executePlan m e level kvs p

/-- The iteration of `partitionBatchRequestsByTable` for one table. -/
def partitionBatchRequest (kvs : BatchRequest) : Except BatchError (List Send) :=
  if kvs.isEmpty then .ok []
  else do
    let kvs := kvs.withTimestamps timestamp
    let _ ← kvs.inserts.entries.mapM (checkInsert table)
    let _ ← kvs.deletes.mapM checkDelete
    let writes ← partitionWriteKeysByShard table statuses kvs.insertKeys
    let deletes ← partitionWriteKeysByShard table statuses kvs.deletes
    let ts ← kvs.transforms.elems.mapM fun t => do
      checkTransform table t
      transformFromAPI m t
    let keys ← partitionWriteKeysByShard table statuses (kvs.transforms.elems.map ApiTransform.key)
    let p : Plan := ⟨writes, deletes, partitionTransforms ts keys⟩
    p.shards.mapM (p.send m kvs.inserts)

/-- The sends to one shard become one. -/
def joinSends (sends : List Send) : List Send :=
  (sends.map Send.shardID).dedup.map fun id =>
    let own := sends.filter fun s => s.shardID = id
    ⟨id, own.flatMap Send.writes, own.flatMap Send.deletes, own.flatMap Send.transforms⟩

end Handlers

/-- `resolveSyncLevel`: without a level for the whole request the highest valid one of its tables
counts. -/
def resolveSyncLevel (topLevel : Bytes) (requests : List BatchRequest) :
    Except BatchError SyncLevel := do
  let level ← (parseSyncLevel topLevel).elim (.error (.invalidSyncLevel topLevel)) .ok
  if topLevel.isEmpty then
    return requests.foldl (fun level r => match parseSyncLevel r.syncLevel with
      | some tableLevel => if level.toNat < tableLevel.toNat then tableLevel else level
      | none => level) level
  else return level

/-- `MultiBatchWrite`, from the level of the request and the requests with their tables. -/
def multiBatchWrite (m : Marshaller) (statuses : OrdMap ℕ ShardStatus) (timestamp : Bytes)
    (e : Cluster) (topLevel : Bytes) (tables : List (BatchTable × BatchRequest)) :
    Except BatchError Reply := do
  let level ← resolveSyncLevel topLevel (tables.map Prod.snd)
  let parts ← tables.mapM fun t => partitionBatchRequest m t.1 statuses timestamp t.2
  let sends := joinSends parts.flatten
  let counts := ((tables.map Prod.snd).filter fun r => !r.isEmpty).map BatchRequest.counts
  failIf (if sends.isEmpty then some .noData else none)
  match e.splitCheck with
  | .splitting => .error .shardSplitting
  | .cancelled => return ⟨200, [], [], level⟩
  | .passed =>
    match sends with
    | [s] =>
      if forwardBatchToShard e s.shardID then return ⟨201, counts, [s], level⟩
      else .error (.forwardFailed s.shardID)
    | _ =>
      match executeTransaction e sends with
      | .ok sends => return ⟨201, counts, sends, level⟩
      | .error _ => .error .transactionFailed

end Antfly.Metadata
