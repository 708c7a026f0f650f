import Antfly.Lib.OrdMap
import Antfly.Lib.Runs
import Antfly.Store.Keys

/-!
The directory of a full-text index holds a log of queued writes and deletes, the Bleve index and,
while a backfill runs, a file with the key the backfill resumes from.  `Open` looks at what is there
and decides whether to backfill and from where.  A backfill reads the documents of the byte range as
they are when it starts and indexes them in batches; queued operations wait until it is over.

Only documents are modelled, with the fields that are indexed: the queue stands for what the store
tells the index of, and the store changes when something is queued.
-/

namespace Antfly.FullText

structure Field where
  name : Bytes
  value : Bytes
  /-- The value is an array of numbers or an empty array. -/
  vector : Bool
  deriving DecidableEq

abbrev Document := List Field

/-- `BleveBatchV2.Insert` deletes arrays of numbers. -/
def withoutVectors (doc : Document) : Document := doc.filter fun f => !f.vector

abbrev DocumentStore := OrdMap Bytes Document

abbrev BleveIndex := OrdMap Bytes Document

structure FullTextIndexOp where
  writes : List Bytes
  deletes : List Bytes
  deriving DecidableEq

def fullTextMaxBatches : ℕ := 100
def fullTextPartitionSize : ℕ := 100
def fullTextBackfillBatchSize : ℕ := 1000

/-- The slices `l[i:i+size]` for `i` in steps of the partition size. -/
def partitions (l : List Bytes) : List (List Bytes) :=
  (List.range ((l.length + (fullTextPartitionSize - 1)) / fullTextPartitionSize)).map fun i =>
    (l.drop (fullTextPartitionSize * i)).take fullTextPartitionSize

/-- `BleveIndexV2.Batch`: the operations that are queued.  The first partition of the writes takes
deletes along. -/
def partitionOps (writes deletes : List Bytes) : List FullTextIndexOp :=
  match partitions writes with
  | [] => (partitions deletes).map fun d => ⟨[], d⟩
  | first :: rest =>
    ⟨first, deletes.take fullTextPartitionSize⟩ :: rest.map (fun w => ⟨w, []⟩) ++
      (partitions (deletes.drop fullTextPartitionSize)).map fun d => ⟨[], d⟩

/-- `Merge` for each entry in turn. -/
def merge (ops : List FullTextIndexOp) : FullTextIndexOp where
  writes := ops.flatMap FullTextIndexOp.writes
  deletes := ops.flatMap FullTextIndexOp.deletes

/-- A written key is looked up; a missing or empty document is skipped. -/
def indexWrite (store : DocumentStore) (docs : BleveIndex) (key : Bytes) : BleveIndex :=
  match store.get? (keyRangeStart key) with
  | none => docs
  | some doc => if doc.isEmpty then docs else docs.insert key (withoutVectors doc)

/-- `Execute`: one Bleve batch, in which the deletes come after the writes. -/
def FullTextIndexOp.execute (op : FullTextIndexOp) (store : DocumentStore) (docs : BleveIndex) :
    BleveIndex :=
  op.deletes.foldl OrdMap.erase (op.writes.foldl (indexWrite store) docs)

inductive BleveDir where
  | missing
  | unopenable
  | index (docs : BleveIndex)

structure IndexDir where
  indexWAL : Option (List FullTextIndexOp)
  bleve : BleveDir
  rebuildState : Option Bytes

def IndexDir.empty : IndexDir := ⟨none, .missing, none⟩

/-- `RebuildState.Check`, together with whether a rebuild is needed already: the key to rebuild
from. -/
def rebuildFrom (rebuild : Bool) (rebuildState : Option Bytes) : Option Bytes :=
  if rebuild then some [] else rebuildState

/-- `Open`: the directory afterwards and, if there is a backfill, the key it starts from. -/
def IndexDir.openIndex (dir : IndexDir) (rebuild : Bool) : IndexDir × Option Bytes :=
  let dir := if rebuild then .empty else dir
  let resume := rebuildFrom (rebuild || dir.indexWAL.isNone) dir.rebuildState
  let wal := dir.indexWAL.getD []
  match dir.bleve, resume with
  | .index docs, none => (⟨some wal, .index docs, dir.rebuildState⟩, none)
  | .index docs, some key => (⟨some wal, .index docs, some key⟩, some key)
  -- Without an index that opens there is a rebuild in any case, from the key already decided on.
  | _, key => (⟨some wal, .index .empty, some (key.getD [])⟩, some (key.getD []))

def scans (range : Range) (from' key : Bytes) : Bool :=
  decide (range.start ≤ key) && decide (from' ≤ key) && decide (key < range.stop) &&
    !hasPrefix key metadataPrefix && hasSuffix key dbRangeStart

/-- `ScanForBackfill`: the documents in the order of their stored keys. -/
def scanForBackfill (range : Range) (from' : Bytes) (store : DocumentStore) :
    List (Bytes × Document) :=
  (store.entries.filter fun e => scans range from' e.1).map fun e =>
    (e.1.take (e.1.length - dbRangeStart.length), e.2)

def indexBatch (docs : BleveIndex) (batch : List (Bytes × Document)) : BleveIndex :=
  batch.foldl (fun docs e => docs.insert e.1 e.2) docs

inductive Backfill where
  | scheduled (from' : Bytes)
  /-- What the scan has not handed over yet. -/
  | scanning (todo : List (Bytes × Document))
  | failed
  deriving DecidableEq

/-- The index with the store it indexes.  `process` is there while the index is open, and holds the
backfill unless there was none or it has finished.  `recorded` are the keys that `rebuild.state` has
held. -/
structure Shard where
  store : DocumentStore
  dir : IndexDir
  process : Option (Option Backfill)
  recorded : List Bytes

inductive BleveLoss where
  | kept | missing | unopenable
  deriving DecidableEq

def BleveDir.lose (bleve : BleveDir) : BleveLoss → BleveDir
  | .kept => bleve
  | .missing => .missing
  | .unopenable => .unopenable

inductive Event where
  | openIndex (rebuild : Bool)
  | closeIndex
  /-- What is found in the directory afterwards. -/
  | crash (walLost : Bool) (bleve : BleveLoss) (rebuildState : Option Bytes)
  | startScan
  | backfillBatch
  | backfillFails
  | update (writes : List (Bytes × Document)) (deletes : List Bytes)
  /-- A crash between the execution and the truncation leaves the log as it was. -/
  | dequeue (truncated : Bool)

/-- The store after a batch: the deletes come after the writes. -/
def applyUpdate (store : DocumentStore) (writes : List (Bytes × Document)) (deletes : List Bytes) :
    DocumentStore :=
  deletes.foldl (fun store key => store.erase (keyRangeStart key))
    (writes.foldl (fun store e => store.insert (keyRangeStart e.1) e.2) store)

def Shard.backfillBatch (s : Shard) (docs : BleveIndex) (todo : List (Bytes × Document)) : Shard :=
  let batch := todo.take fullTextBackfillBatchSize
  match batch.getLast? with
  | some last =>
    if fullTextBackfillBatchSize ≤ todo.length then
      { s with
        dir := { s.dir with bleve := .index (indexBatch docs batch), rebuildState := some last.1 }
        process := some (some (.scanning (todo.drop fullTextBackfillBatchSize)))
        recorded := last.1 :: s.recorded }
    else
      { s with
        dir := { s.dir with bleve := .index (indexBatch docs todo), rebuildState := none }
        process := some none }
  | none => { s with
      dir := { s.dir with rebuildState := none }
      process := some none }

def Shard.step (range : Range) (s : Shard) : Event → Option Shard
  | .openIndex rebuild =>
    match s.process with
    | some _ => none
    | none =>
      let (dir, key) := s.dir.openIndex rebuild
      some { s with
        dir := dir
        process := some (key.map Backfill.scheduled)
        recorded := key.toList ++ s.recorded }
  | .closeIndex => s.process.map fun _ => { s with process := none }
  | .crash walLost bleve rebuildState =>
    if rebuildState.all fun key => decide (key ∈ s.recorded) then
      some { s with
        dir := {
          indexWAL := if walLost then none else s.dir.indexWAL
          bleve := s.dir.bleve.lose bleve
          rebuildState := rebuildState }
        process := none }
    else none
  | .startScan =>
    match s.process with
    | some (some (.scheduled from')) => some { s with
        process := some (some (.scanning (scanForBackfill range from' s.store))) }
    | _ => none
  | .backfillBatch =>
    match s.process, s.dir.bleve with
    | some (some (.scanning todo)), .index docs => some (s.backfillBatch docs todo)
    | _, _ => none
  | .backfillFails =>
    match s.process with
    | some (some _) => some { s with process := some (some .failed) }
    | _ => none
  | .update writes deletes =>
    match s.process, s.dir.indexWAL with
    | some _, some wal => some { s with
        store := applyUpdate s.store writes deletes
        dir := { s.dir with
          indexWAL := some (wal ++ partitionOps (writes.map Prod.fst) deletes) } }
    | _, _ => none
  | .dequeue truncated =>
    match s.dir.indexWAL, s.dir.bleve with
    | some wal, .index docs =>
      -- The queue waits until the backfill has come to an end.
      if s.process = some none ∨ s.process = some (some .failed) then
        some { s with
          dir := { s.dir with
            bleve := .index ((merge (wal.take fullTextMaxBatches)).execute s.store docs)
            indexWAL := some (if truncated then wal.drop fullTextMaxBatches else wal) } }
      else none
    | _, _ => none

def stored (range : Range) (store : DocumentStore) (id : Bytes) : Option Document :=
  if scans range [] (keyRangeStart id) then store.get? (keyRangeStart id) else none

/-- Once no backfill is left and the log is drained, the index on disk has the documents that the
store has in the byte range, each with its current content. -/
def Complete (range : Range) (s : Shard) : Prop :=
  s.process = some none → s.dir.indexWAL = some [] → ∃ docs, s.dir.bleve = .index docs ∧
    ∀ id, (docs.get? id).map withoutVectors = (stored range s.store id).map withoutVectors

end Antfly.FullText
