import Antfly.Indexes.Keys
import Antfly.Lib.FedSet
import Antfly.Store.Types

/-!
`IndexManager.Batch` runs a batch at once or queues it, according to the sync level.  The plexer
merges queued batches and hands each index the writes and its share of the deletes.  Full-text and
embeddings indexes queue again on their own; all indexes look the written keys up in the store
before they apply them.  The store is the list of its storage keys that hold something an index
takes, and an index is the list of its entries: ids of documents, keys of vectors, and keys of
incoming edges.
-/

namespace Antfly.Indexes

open FedSet

inductive IndexType where
  | fullText | embeddings | graph
  deriving DecidableEq

/-- The implementations; the sparse index is of the embeddings type. -/
inductive Kind where
  | fullText | embeddings | sparse | graph
  deriving DecidableEq

def Kind.type : Kind → IndexType
  | .fullText => .fullText
  | .embeddings | .sparse => .embeddings
  | .graph => .graph

/-- Whether `Batch` applies what it is given before it returns. -/
def Kind.direct : Kind → Bool
  | .fullText | .embeddings => false
  | .sparse | .graph => true

/-- How many entries of its own queue an index merges. -/
def Kind.maxBatches : Kind → ℕ
  | .fullText => 100
  | .embeddings => 10
  | .sparse | .graph => 1

/-- The keys of a batch; the values are looked up later. -/
structure IndexOp where
  writes : List Bytes
  deletes : List Bytes
  deriving DecidableEq

structure Index where
  name : Bytes
  kind : Kind
  paused : Bool
  view : View Bytes Bytes

structure IndexManager where
  byteRange : Range
  indexes : List Index
  walBuf : List IndexOp
  paused : Bool

/-- `:i:<name>`. -/
def indexSuffix (name : Bytes) : Bytes := indexMarker ++ name

/-- The entry an index makes of a written key. -/
def entryOf (name : Bytes) (kind : Kind) (key : Bytes) : Option Bytes :=
  match kind with
  | .fullText =>
    if hasSuffix key summarySuffix then (parseSummaryKey key).map Prod.fst else some key
  | .embeddings =>
    if hasSuffix key (indexSuffix name ++ embeddingSuffix) then
      some (trimSuffix key (indexSuffix name ++ embeddingSuffix))
    else none
  | .sparse =>
    if hasSuffix key (indexSuffix name ++ sparseSuffix) then
      some (trimSuffix key (indexSuffix name ++ sparseSuffix))
    else none
  | .graph =>
    if contains key (indexSuffix name ++ outMarker) then
      (parseEdgeKey key).bind fun edge =>
        if edge.indexName = name then
          some (makeEdgeIndexKey name edge.target edge.source edge.edgeType)
        else none
    else none

/-- What an index looks up for an entry: the document, or the written key itself. -/
def storageKey (kind : Kind) (key entry : Bytes) : Bytes :=
  match kind with
  | .fullText => keyRangeStart entry
  | .embeddings | .sparse | .graph => key

/-- The writes an index is given. -/
def writesFor (kind : Kind) (writes : List Bytes) : List Bytes :=
  match kind with
  | .fullText => writes.filter fun key => !hasSuffix key embeddingSuffix
  | .embeddings | .sparse | .graph => writes

structure DeleteKeyGroups where
  all : List Bytes
  documents : List Bytes
  chunksByName : Bytes → List Bytes
  edgesByName : Bytes → List Bytes

/-- `appendDeleteKeyGroup`; edges and chunks that do not parse go to no index. -/
def appendDeleteKeyGroup (groups : DeleteKeyGroups) (key : Bytes) : DeleteKeyGroups :=
  let groups := { groups with all := groups.all ++ [key] }
  if isEdgeKey key then
    match parseEdgeKey key with
    | none => groups
    | some edge =>
      { groups with
        edgesByName := fun name =>
          if name = edge.indexName then groups.edgesByName name ++ [key]
          else groups.edgesByName name }
  else if isChunkKey key then
    match parseChunkKey key with
    | none => groups
    | some (_, indexName) =>
      { groups with
        chunksByName := fun name =>
          if name = indexName then groups.chunksByName name ++ [key]
          else groups.chunksByName name }
  else { groups with documents := groups.documents ++ [key] }

/-- `groupDeleteKeys`: every key once, without the empty one. -/
def groupDeleteKeys (deletes : List Bytes) : DeleteKeyGroups :=
  (deletes.filter (· ≠ [])).eraseDups.foldl appendDeleteKeyGroup ⟨[], [], fun _ => [], fun _ => []⟩

def deletesForIndex (name : Bytes) (type : IndexType) (groups : DeleteKeyGroups) : List Bytes :=
  match type with
  | .graph => groups.edgesByName name
  | .fullText => groups.documents
  | .embeddings => groups.documents ++ groups.chunksByName name

/-- The entry an index removes for a deleted key it is given. -/
def removalOf (name : Bytes) (kind : Kind) (key : Bytes) : Option Bytes :=
  match kind with
  | .fullText => some key
  | .embeddings =>
    if hasSuffix key (indexSuffix name ++ embeddingSuffix) then
      some (trimSuffix key (indexSuffix name ++ embeddingSuffix))
    else some key
  | .sparse =>
    if hasSuffix key (indexSuffix name ++ sparseSuffix) then
      some (trimSuffix key (indexSuffix name ++ sparseSuffix))
    else if isChunkKey key then if contains key (indexSuffix name) then some key else none
    else if contains key indexMarker then none else some key
  | .graph => entryOf name .graph key

namespace Index

/-- How an index reads the store, and the entries it should have: the keys of its kind that are in
the store and in the range. -/
def source (idx : Index) (byteRange : Range) : Source (List Bytes) Bytes Bytes where
  entry := entryOf idx.name idx.kind
  live store key :=
    match entryOf idx.name idx.kind key with
    | none => false
    | some entry => decide (storageKey idx.kind key entry ∈ store)
  holds store entry :=
    match idx.kind with
    | .fullText => byteRange.contains entry = true ∧ keyRangeStart entry ∈ store
    | .embeddings | .sparse | .graph =>
      ∃ key ∈ store, byteRange.contains key = true ∧
        entryOf idx.name idx.kind key = some entry

/-- What an index is given of an op, as keys to look up and entries to remove. -/
def opOf (idx : Index) (op : IndexOp) : Op Bytes Bytes where
  unread := op.writes
  read := []
  deletes := op.deletes.filterMap (removalOf idx.name idx.kind)

/-- The share of an index in an op: all the writes and the deletes of its kind. -/
def share (idx : Index) (op : IndexOp) : IndexOp where
  writes := writesFor idx.kind op.writes
  deletes := deletesForIndex idx.name idx.kind.type (groupDeleteKeys op.deletes)

/-- `Batch` of an index that queues; `pieces` is what it cuts its share into.  A paused graph index
drops what it is given. -/
def receive (idx : Index) (pieces : List IndexOp) : Index :=
  if idx.kind = .graph && idx.paused then idx
  else { idx with view := { idx.view with queue := idx.view.queue ++ pieces.map idx.opOf } }

/-- `Batch` of an index that applies its share at once. -/
def execute (idx : Index) (byteRange : Range) (store : List Bytes) (op : IndexOp) : Index :=
  if idx.kind = .graph && idx.paused then idx
  else
    { idx with
      view := { idx.view with
        contents := apply idx.view.contents ((idx.source byteRange).found store op.writes)
          (op.deletes.filterMap (removalOf idx.name idx.kind)) } }

/-- Looks up the next key of the `i`-th queued op. -/
def lookUp (idx : Index) (byteRange : Range) (store : List Bytes) (i : ℕ) : Index :=
  match idx.view.queue[i]? with
  | none => idx
  | some op =>
    { idx with
      view := { idx.view with
        queue := idx.view.queue.take i ++ (idx.source byteRange).readNext store op ::
          idx.view.queue.drop (i + 1) } }

/-- Applies the first queued ops as one, if their keys have been looked up. -/
def commit (idx : Index) (n : ℕ) : Index :=
  match idx.view.commit n with
  | none => idx
  | some view => { idx with view := view }

end Index

def indexManagerPartitionSize : ℕ := 1000

/-- Cuts a batch into ops of at most `size` keys, the deletes after the writes. -/
def partitionBatch (size : ℕ) : ℕ → List Bytes → List Bytes → List IndexOp
  | 0, _, _ => []
  | fuel + 1, writes, deletes =>
    if writes.isEmpty && deletes.isEmpty then []
    else
      { writes := writes.take size
        deletes := deletes.take (size - (writes.take size).length) } ::
        partitionBatch size fuel (writes.drop size)
          (deletes.drop (size - (writes.take size).length))

/-- `indexOp.Merge`. -/
def mergeOps (ops : List IndexOp) : IndexOp where
  writes := ops.flatMap IndexOp.writes
  deletes := ops.flatMap IndexOp.deletes

namespace IndexManager

/-- The start of `indexOp.Execute`: keys outside the range are dropped. -/
def clip (im : IndexManager) (op : IndexOp) : IndexOp where
  writes := op.writes.filter fun key => !key.isEmpty && im.byteRange.contains key
  deletes := op.deletes.filter fun key => !key.isEmpty && im.byteRange.contains key

/-- Whether an index applies a batch of this level before `Execute` returns. -/
def syncsIndex (level : SyncLevel) (kind : Kind) : Bool :=
  kind.direct ||
    match level with
    | .fullText => kind.type = .fullText
    | .embeddings => true
    | .propose | .write | .enrichments | .internalMergeCopy => false

def CutsInto (share : IndexOp) (pieces : List IndexOp) : Prop :=
  pieces.flatMap IndexOp.writes = share.writes ∧ pieces.flatMap IndexOp.deletes = share.deletes

instance (share : IndexOp) (pieces : List IndexOp) : Decidable (CutsInto share pieces) :=
  inferInstanceAs (Decidable (_ ∧ _))

/-- `indexOp.Execute` of the plexer: every index is given its share. -/
def distribute (im : IndexManager) (op : IndexOp) (pieces : Bytes → List IndexOp) :
    Option IndexManager :=
  if ∀ idx ∈ im.indexes, CutsInto (idx.share (im.clip op)) (pieces idx.name) then
    some { im with indexes := im.indexes.map fun idx => idx.receive (pieces idx.name) }
  else none

/-- `indexOp.Execute` of a batch that is not queued: an index applies its share or queues it. -/
def executeNow (im : IndexManager) (store : List Bytes) (op : IndexOp) (level : SyncLevel)
    (pieces : Bytes → List IndexOp) : Option IndexManager :=
  if ∀ idx ∈ im.indexes, CutsInto (idx.share (im.clip op)) (pieces idx.name) then
    some { im with
      indexes := im.indexes.map fun idx =>
        if syncsIndex level idx.kind then
          idx.execute im.byteRange store (idx.share (im.clip op))
        else idx.receive (pieces idx.name) }
  else none

/-- `IndexManager.Batch`; `none` is an error, or a call that waits for the batch a graph index is
at work on. -/
def batch (im : IndexManager) (store writes deletes : List Bytes) (level : SyncLevel)
    (pieces : Bytes → List IndexOp) : Option IndexManager :=
  match level with
  | .propose | .write =>
    some { im with
      walBuf := im.walBuf ++ partitionBatch indexManagerPartitionSize
        (writes.length + deletes.length) writes deletes }
  | .fullText | .embeddings =>
    if im.indexes.all fun idx => idx.kind ≠ .graph || idx.view.queue.isEmpty then
      im.executeNow store ⟨writes, deletes⟩ level pieces
    else none
  | .enrichments | .internalMergeCopy => none

/-- The plexer takes up to ten entries. -/
def dequeue (im : IndexManager) (n : ℕ) (pieces : Bytes → List IndexOp) : Option IndexManager :=
  if !im.paused && n ≤ 10 then
    ({ im with walBuf := im.walBuf.drop n } : IndexManager).distribute
      (mergeOps (im.walBuf.take n)) pieces
  else none

def update (im : IndexManager) (name : Bytes) (f : Index → Index) : IndexManager :=
  { im with indexes := im.indexes.map fun idx => if idx.name = name then f idx else idx }

end IndexManager

structure State where
  store : List Bytes
  manager : IndexManager

inductive Event where
  /-- A batch is applied to the store and given to the manager. -/
  | batch (store writes deletes : List Bytes) (level : SyncLevel) (pieces : Bytes → List IndexOp)
  | dequeue (n : ℕ) (pieces : Bytes → List IndexOp)
  | lookUp (name : Bytes) (i : ℕ)
  | commit (name : Bytes) (n : ℕ)
  | pause
  | pauseIndex (name : Bytes)
  | resume

/-- An index goes on as long as it is not paused. -/
def runs (f : Index → Index) (idx : Index) : Index := if idx.paused then idx else f idx

def step (s : State) : Event → Option State
  | .batch store writes deletes level pieces =>
    (s.manager.batch store writes deletes level pieces).map fun im =>
      { store := store, manager := im }
  | .dequeue n pieces =>
    (s.manager.dequeue n pieces).map fun im => { s with manager := im }
  | .lookUp name i =>
    some { s with
      manager := s.manager.update name
        (runs fun idx => idx.lookUp s.manager.byteRange s.store i) }
  | .commit name n =>
    some { s with
      manager := s.manager.update name
        (runs fun idx => if n ≤ idx.kind.maxBatches then idx.commit n else idx) }
  | .pause =>
    -- The plexer acknowledges between two entries.
    if s.manager.indexes.all fun idx => !idx.kind.direct || idx.view.queue.isEmpty then
      some { s with manager := { s.manager with paused := true } }
    else none
  | .pauseIndex name =>
    if s.manager.paused then
      some { s with manager := s.manager.update name fun idx => { idx with paused := true } }
    else none
  | .resume =>
    some { s with
      manager := { s.manager with
        paused := false
        indexes := s.manager.indexes.map fun idx => { idx with paused := false } } }

end Antfly.Indexes
