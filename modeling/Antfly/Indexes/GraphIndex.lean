import Antfly.Indexes.Manager

/-!
An edge is stored with its source document; the graph index keeps the reverse edges, from target to
source, in a database of its own, and counts the edges of each type.  Edges reach it through the
index manager, which passes keys and leaves the values to be read from the store, and through a
backfill that copies a snapshot of the store in batches.  `ν` is what the value of an edge decodes
to: its weight, its metadata and its times.
-/

namespace Antfly.Indexes

variable {ν : Type}

structure Edge (ν : Type) where
  source : Bytes
  target : Bytes
  edgeType : Bytes
  value : ν
  deriving DecidableEq

structure EdgeTypeConfig where
  name : Bytes
  tree : Bool

def edgeOf (name key : Bytes) : Option ParsedEdge :=
  if contains key (indexSuffix name ++ outMarker) then
    (parseEdgeKey key).bind fun edge => if edge.indexName = name then some edge else none
  else none

structure GraphIndex (ν : Type) where
  name : Bytes
  edgeTypes : List EdgeTypeConfig
  byteRange : Range
  paused : Bool
  indexDB : OrdMap Bytes ν
  edgeTypeCounts : Bytes → ℕ

namespace GraphIndex

def indexKey (idx : GraphIndex ν) (edge : ParsedEdge) : Bytes :=
  makeEdgeIndexKey idx.name edge.target edge.source edge.edgeType

/-- Without configured types, every type is allowed. -/
def isValidEdgeType (idx : GraphIndex ν) (edgeType : Bytes) : Bool :=
  idx.edgeTypes.isEmpty || idx.edgeTypes.any fun conf => conf.name = edgeType

def getEdgeTypeConfig (idx : GraphIndex ν) (edgeType : Bytes) : Option EdgeTypeConfig :=
  idx.edgeTypes.find? fun conf => conf.name = edgeType

/-- No edge of this type leaves the source for another target. -/
def validateTreeTopology (idx : GraphIndex ν) (store : OrdMap Bytes ν) (edge : ParsedEdge) : Bool :=
  let scanPrefix := edgeIteratorPrefix edge.source idx.name edge.edgeType
  (store.scan scanPrefix (prefixSuccessor scanPrefix)).all fun p =>
    match parseEdgeKey p.1 with
    | none => true
    | some existing => existing.target = edge.target

/-- What `Batch` checks of a written key; an error fails the whole batch. -/
def accepts (idx : GraphIndex ν) (store : OrdMap Bytes ν) (key : Bytes) : Bool :=
  match edgeOf idx.name key with
  | none => true
  | some edge =>
    idx.isValidEdgeType edge.edgeType &&
      match idx.getEdgeTypeConfig edge.edgeType with
      | none => true
      | some conf => !conf.tree || idx.validateTreeTopology store edge

/-- The edge and the value of a write; a value that is not passed is read from the store. -/
def lookUpEdge (idx : GraphIndex ν) (store : OrdMap Bytes ν) (write : Bytes × Option ν) :
    Option (ParsedEdge × ν) :=
  (edgeOf idx.name write.1).bind fun edge =>
    (write.2.or (store.get? write.1)).map fun value => (edge, value)

/-- How many of the edges are of a type. -/
def countType (edges : List ParsedEdge) (edgeType : Bytes) : ℕ :=
  edges.countP fun edge => edge.edgeType = edgeType

/-- `Batch`; `none` is an error.  The counts go up with every edge written, whether it was there or
not, and down with every edge deleted. -/
def batch (idx : GraphIndex ν) (store : OrdMap Bytes ν) (writes : List (Bytes × Option ν))
    (deletes : List Bytes) : Option (GraphIndex ν) :=
  if idx.paused then some idx
  else if writes.all fun write => idx.accepts store write.1 then
    let edgeAdds := writes.filterMap (idx.lookUpEdge store)
    let edgeDeletes := deletes.filterMap (edgeOf idx.name)
    some { idx with
      indexDB := idx.indexDB.applyAll
        (edgeAdds.map (fun add => .set (idx.indexKey add.1) add.2) ++
          edgeDeletes.map fun edge => .delete (idx.indexKey edge))
      edgeTypeCounts := fun edgeType =>
        idx.edgeTypeCounts edgeType + countType (edgeAdds.map Prod.fst) edgeType -
          countType edgeDeletes edgeType }
  else none

/-- The type and the source in what follows the scanned prefix of an index key. -/
def parseRemaining (edgeType remaining : Bytes) : Option (Bytes × Bytes) :=
  let parsed :=
    if edgeType.isEmpty then
      (cut (ascii [':']) remaining).bind fun q => if q.1.isEmpty then none else some q
    else some (edgeType, remaining)
  parsed.bind fun q =>
    if hasSuffix q.2 (ascii [':', 'i']) then some (q.1, trimSuffix q.2 (ascii [':', 'i'])) else none

/-- `queryEdgeIndex`: the incoming edges of a target, of one type or, without a type, of all. -/
def queryEdgeIndex (idx : GraphIndex ν) (target edgeType : Bytes) : List (Edge ν) :=
  let scanPrefix := target ++ indexMarker ++ idx.name ++ inMarker ++
    (if edgeType.isEmpty then [] else edgeType ++ ascii [':'])
  (idx.indexDB.scan scanPrefix (prefixSuccessor scanPrefix)).filterMap fun p =>
    (parseRemaining edgeType (p.1.drop scanPrefix.length)).map fun q =>
      { source := q.2, target, edgeType := q.1, value := p.2 }

def maxBatchSize : ℕ := 1000

/-- The edges the iterator of `backfillReverseIndex` shows. -/
def backfillScan (idx : GraphIndex ν) (store : OrdMap Bytes ν) (startKey : Bytes) :
    List (Bytes × ν) :=
  store.entries.filter fun p =>
    startKey ≤ p.1 && idx.byteRange.contains p.1 && (edgeOf idx.name p.1).isSome

/-- Commits a batch of the scan; every edge of it is counted. -/
def commitBackfill (idx : GraphIndex ν) (chunk : List (Bytes × ν)) : GraphIndex ν :=
  let edges := chunk.filterMap fun p => (edgeOf idx.name p.1).map fun edge => (edge, p.2)
  { idx with
    indexDB := idx.indexDB.applyAll (edges.map fun p => .set (idx.indexKey p.1) p.2)
    edgeTypeCounts := fun edgeType =>
      idx.edgeTypeCounts edgeType + countType (edges.map Prod.fst) edgeType }

end GraphIndex

/-- The start of `indexOp.Execute`. -/
def IndexOp.clip (byteRange : Range) (op : IndexOp) : IndexOp where
  writes := op.writes.filter fun key => !key.isEmpty && byteRange.contains key
  deletes := op.deletes.filter fun key => !key.isEmpty && byteRange.contains key

/-- `indexOp.Execute` for a graph index; an error is logged. -/
def GraphIndex.execute (idx : GraphIndex ν) (store : OrdMap Bytes ν) (op : IndexOp) :
    GraphIndex ν :=
  (idx.batch store ((op.clip idx.byteRange).writes.map fun key => (key, none))
    (deletesForIndex idx.name .graph (groupDeleteKeys (op.clip idx.byteRange).deletes))).getD idx

/-- The store keeps the edges, `walBuf` what the manager has queued, and `backfill` what is left of
the iterator once the backfill has begun. -/
structure GraphState (ν : Type) where
  store : OrdMap Bytes ν
  walBuf : List IndexOp
  index : GraphIndex ν
  backfill : Option (List (Bytes × ν))

/-- What changes edges: `AddEdge`, `UpdateEdgeWeight`, `DeleteEdge`, and `Batch`, which is given
edges to write and documents to delete. -/
inductive Operation (ν : Type) where
  | addEdge (indexName source target edgeType : Bytes) (value : ν)
  | updateEdgeWeight (indexName source target edgeType : Bytes) (newWeight : ν → ν)
  | deleteEdge (indexName source target edgeType : Bytes)
  | batch (writes : List (Bytes × ν)) (deletes : List Bytes) (level : SyncLevel)

def collectOutgoingEdgeKeys (store : OrdMap Bytes ν) (name key : Bytes) : List Bytes :=
  let scanPrefix := edgeIteratorPrefix key name []
  (store.scan scanPrefix (prefixSuccessor scanPrefix)).map Prod.fst

/-- The store after an operation, what the index manager is given, and the level. -/
def Operation.apply (store : OrdMap Bytes ν) (name : Bytes) :
    Operation ν → Option (OrdMap Bytes ν × IndexOp × SyncLevel)
  | addEdge indexName source target edgeType value =>
    let outKey := makeEdgeKey source target indexName edgeType
    some (store.insert outKey value, ⟨[outKey], []⟩, .write)
  | updateEdgeWeight indexName source target edgeType newWeight =>
    let outKey := makeEdgeKey source target indexName edgeType
    (store.get? outKey).map fun existing =>
      (store.insert outKey (newWeight existing), ⟨[outKey], []⟩, .write)
  | deleteEdge indexName source target edgeType =>
    let outKey := makeEdgeKey source target indexName edgeType
    some (store.erase outKey, ⟨[], [outKey]⟩, .write)
  | batch writes deletes level =>
    some (store.applyAll (writes.map (fun kv => .set kv.1 kv.2) ++
        deletes.map fun k => .deleteRange k (prefixSuccessor (keyRangeEnd k))),
      ⟨writes.map Prod.fst, deletes ++ deletes.flatMap (collectOutgoingEdgeKeys store name)⟩,
      level)

inductive GraphEvent (ν : Type) where
  | operate (operation : Operation ν)
  | dequeue (n : ℕ)
  | startBackfill (startKey : Bytes)
  | backfill
  | pause
  | resume

def GraphState.batchIndex (s : GraphState ν) (store : OrdMap Bytes ν) (op : IndexOp)
    (level : SyncLevel) : Option (GraphState ν) :=
  match level with
  | .propose | .write =>
    some { s with
      store := store
      walBuf := s.walBuf ++ partitionBatch indexManagerPartitionSize
        (op.writes.length + op.deletes.length) op.writes op.deletes }
  | .fullText | .embeddings => some { s with store := store, index := s.index.execute store op }
  | .enrichments | .internalMergeCopy => none

def graphStep (s : GraphState ν) : GraphEvent ν → Option (GraphState ν)
  | .operate operation =>
    (operation.apply s.store s.index.name).bind fun p => s.batchIndex p.1 p.2.1 p.2.2
  | .dequeue n =>
    -- The plexer is paused before the index is.
    if !s.index.paused && n ≤ 10 then
      some { s with
        walBuf := s.walBuf.drop n
        index := s.index.execute s.store (mergeOps (s.walBuf.take n)) }
    else none
  | .startBackfill startKey =>
    match s.backfill with
    | none => some { s with backfill := some (s.index.backfillScan s.store startKey) }
    | some _ => none
  | .backfill =>
    match s.backfill with
    | none => none
    | some rest =>
      if s.index.paused then none
      else
        some { s with
          index := s.index.commitBackfill (rest.take GraphIndex.maxBatchSize)
          backfill := some (rest.drop GraphIndex.maxBatchSize) }
  | .pause => some { s with index := { s.index with paused := true } }
  | .resume => some { s with index := { s.index with paused := false } }

end Antfly.Indexes
