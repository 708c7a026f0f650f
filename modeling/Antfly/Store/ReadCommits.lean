import Antfly.Store.StoreDB

/-!
The loop gathers the batches of a commit and applies them together.  Batches that are waiting
cancel one another by hand-written rules: a delete removes the waiting writes and transforms of its
key, a write the waiting deletes and transforms, a transform the waiting writes and deletes, and
transforms of one key are joined.  A batch of another timestamp, any other operation and the end of
a commit flush what is waiting.

What a replica reads from its own surroundings while it applies the log (its clock, the callbacks
that are registered with it, the split child it hosts) is an argument of every step.
-/

namespace Antfly

/-- What `time.Now` shows, and how `range` goes through the terms of a sparse embedding. -/
structure Clock where
  /-- Nanoseconds. -/
  now : Nat
  /-- The same time as `time.RFC3339Nano` prints it. -/
  nowRFC3339 : Bytes
  termOrder (key indexName : Bytes) (terms : Obj) : { order : Obj // order.Perm terms }

/-- A clock on a replica whose maps keep the order of the text. -/
def Clock.inOrder (now : Nat) : Clock := ⟨now, [], fun _ _ => textOrder⟩

/-- `time.Now().Unix()`. -/
def Clock.unix (t : Clock) : Int := t.now / 1000000000

def Codec.at (c : Codec) (t : Clock) : Codec :=
  { c with now := t.now, nowRFC3339 := t.nowRFC3339, termOrder := t.termOrder }

/-- The surroundings of a replica during one step. -/
structure Surroundings where
  clock : Clock
  /-- `HasCallback`. -/
  hasCallback : Bytes → Bool
  /-- Whether the local child of a split catches up while `FinalizeSplit` waits for it. -/
  childReplayed : Bool
  /-- Whether the shard has an index manager, and whether a split has a shadow one. -/
  indexManager : Bool
  shadowIndexManager : Bool
  /-- The error of the index manager's write-ahead log or of its indexes, if there is one. -/
  indexFailure : Option Bytes

/-- The batches that have been read and not been applied. -/
structure Pending where
  writes : List Write
  deletes : List Bytes
  transforms : List Transform
  /-- The ids of the requests with their sync levels. -/
  uuids : List (Bytes × SyncLevel)
  batchTimestamp : Nat
  deriving DecidableEq

namespace Pending

def empty : Pending where
  writes := []
  deletes := []
  transforms := []
  uuids := []
  batchTimestamp := 0

def isEmpty (p : Pending) : Bool :=
  p.writes.isEmpty && p.deletes.isEmpty && p.transforms.isEmpty

/-- Deletes remove the waiting writes and transforms of their keys. -/
def cancelDeleted (p : Pending) (deletes : List Bytes) : Pending :=
  { p with
    writes := p.writes.filter fun w => w.1 ∉ deletes
    transforms := p.transforms.filter fun t => t.key ∉ deletes }

/-- Writes remove the waiting deletes and transforms of their keys. -/
def cancelWritten (p : Pending) (writes : List Write) : Pending :=
  { p with
    deletes := p.deletes.filter fun d => d ∉ writes.map Prod.fst
    transforms := p.transforms.filter fun t => t.key ∉ writes.map Prod.fst }

/-- The operations of a transform join those of the first waiting transform of the same key, which
keeps its own upsert flag. -/
def joinTransform : List Transform → Transform → List Transform
  | [], t => [t]
  | s :: ts, t =>
    if s.key = t.key then { s with operations := s.operations ++ t.operations } :: ts
    else s :: joinTransform ts t

/-- A transform removes the waiting writes and deletes of its key. -/
def addTransform (p : Pending) (t : Transform) : Pending :=
  { p with
    writes := p.writes.filter fun w => w.1 ≠ t.key
    deletes := p.deletes.filter fun d => d ≠ t.key
    transforms := joinTransform p.transforms t }

/-- The case `OpBatch` of the loop, after the flush for another timestamp. -/
def add (p : Pending) (id : Bytes) (b : BatchOp) : Pending :=
  let q := b.transforms.foldl addTransform ((p.cancelDeleted b.deletes).cancelWritten b.writes)
  { writes := q.writes ++ b.writes
    deletes := q.deletes ++ b.deletes
    transforms := q.transforms
    uuids := p.uuids ++ [(id, b.syncLevel)]
    batchTimestamp := if p.batchTimestamp = 0 then b.timestamp else p.batchTimestamp }

/-- The highest sync level among the requests somebody is waiting for on this replica. -/
def effectiveSyncLevel (p : Pending) (hasCallback : Bytes → Bool) : SyncLevel :=
  p.uuids.foldl (fun level u =>
    if hasCallback u.1 && decide (level.toNat < u.2.toNat) then u.2 else level) .propose

end Pending

/-- What a batch asks of the index manager: nothing, an entry in its write-ahead log, to bring the
indexes up to date, or what it refuses. -/
inductive IndexDuty where
  | nothing | enqueue | execute | refuse
  deriving DecidableEq

/-- The cases of `IndexManager.Batch`. -/
def SyncLevel.indexDuty : SyncLevel → IndexDuty
  | .propose | .write => .enqueue
  | .fullText | .embeddings => .execute
  | .enrichments | .internalMergeCopy => .refuse

inductive IndexError where
  /-- `ErrPartialSuccess`: the batch is stored and the indexes are behind. -/
  | partialSuccess
  | invalidSyncLevel
  | failed (reason : Bytes)
  deriving DecidableEq

def SpecialFields.indexKeys (sf : SpecialFields) : List Bytes :=
  (sf.embeddingWrites ++ sf.summaryWrites ++ sf.edgeWrites).map Prod.fst ++ sf.indexDeletes

section Indexing

variable (c : Codec) (l : Surroundings) (db : DBImpl)

/-- The keys that a write the shard applies sends to the indexes. -/
def writeIndexKeys (kv : Write) : List Bytes :=
  match writeKind kv.1 with
  | .enrichment => if kv.2.isEmpty then [] else [kv.1]
  | .chunk => if kv.2.length < 8 then [] else [kv.1]
  | .document =>
    if !hasPrefix kv.2 (ascii ['\x7b']) then []
    else
      match extractAndWriteSpecialFields c db kv.2 kv.1 with
      | .error _ => []
      | .ok none => [kv.1]
      | .ok (some sf) => sf.indexKeys ++ if sf.hasNonSpecialFields then [kv.1] else []

/-- The keys of `allIndexWrites` and `allDeletes`.  The chunks and edges of a deleted key are left
out: they follow the key and lie on its side of a split key, or past it. -/
def indexKeys (internalMergeCopy : Bool) (writes : List Write) (deletes : List Bytes) :
    List Bytes :=
  (writes.filter fun kv => appliesKey db internalMergeCopy kv.1).flatMap (writeIndexKeys c db) ++
    deletes

/-- What `routeToIndexManagers` asks of the primary index manager; the shadow's answer is only
logged. -/
def indexDuty (keys : List Bytes) (level : SyncLevel) : IndexDuty :=
  let primaryKeys := match db.splitState with
    | none => keys
    | some st =>
      if l.shadowIndexManager && isActiveSplitPhase (some st) then keys.filter (· < st.splitKey)
      else keys
  if !l.indexManager || primaryKeys.isEmpty then .nothing else level.indexDuty

/-- The answer, less the text `sendToIndexManager` wraps it in. -/
def Surroundings.routeToIndexManagers (l : Surroundings) : IndexDuty → Option IndexError
  | .nothing => none
  | .enqueue => l.indexFailure.map .failed
  | .execute => some (l.indexFailure.elim .partialSuccess .failed)
  | .refuse => some .invalidSyncLevel

/-- What the waiting batches, flushed together, ask of the index manager. -/
def Pending.indexDuty (p : Pending) : IndexDuty :=
  let level := p.effectiveSyncLevel l.hasCallback
  Antfly.indexDuty l db
    (indexKeys c db (level = .internalMergeCopy) (flushWrites c db p.writes p.transforms) p.deletes)
    level

end Indexing

/-- A committed operation other than a batch, as it stands in the log. -/
inductive CommittedOp where
  | setRange (r : Range)
  | split (newShardID : Nat) (splitKey : Bytes)
  | finalizeSplit (newRangeEnd : Bytes)
  | setSplitState (state : Option SplitState)
  | setMergeState (state : Option MergeState)
  | finalizeMerge (newRange : Range)
  | initTransaction (op : InitTransactionOp)
  | commitTransaction (txnID : Bytes)
  | abortTransaction (txnID : Bytes)
  | writeIntent (op : WriteIntentOp)
  | resolveIntents (op : ResolveIntentsOp)
  | updateSchema (schema : Bytes) (ttlDuration : Nat)
  | addIndex (name : Bytes) (config : IndexConfig)
  | deleteIndex (name : Bytes)
  | backup

inductive Entry where
  | batch (id : Bytes) (b : BatchOp)
  | op (id : Bytes) (op : CommittedOp)
  | unsupported (id : Bytes)
  /-- Data that cannot be decoded; it is skipped. -/
  | unreadable

inductive CommitError where
  | op (e : OpError)
  | indexing (e : IndexError)
  | unsupportedOperation
  deriving DecidableEq

namespace StoreDB

/-- The schema is saved and adopted, with the time to live it gives the documents. -/
def updateSchema (s : StoreDB) (schema : Bytes) (ttlDuration : Nat) : StoreDB :=
  s.withCore { s.coreDB.applyOps [.set schemaKey (.schema schema)] with
    schema := some schema
    cachedTTLDuration := ttlDuration }

def saveIndexes (s : StoreDB) (configs : List (Bytes × IndexConfig)) : StoreDB :=
  s.withCore { s.coreDB.applyOps [.set indexesKey (.indexes configs)] with indexes := configs }

def addIndex (s : StoreDB) (name : Bytes) (config : IndexConfig) : StoreDB :=
  s.saveIndexes ((name, config) :: s.coreDB.indexes.filter fun i => i.1 ≠ name)

def deleteIndex (s : StoreDB) (name : Bytes) : StoreDB :=
  s.saveIndexes (s.coreDB.indexes.filter fun i => i.1 ≠ name)

/-- Applies one committed operation in the surroundings of a replica. -/
def applyCommitted (c : Codec) (l : Surroundings) (s : StoreDB) :
    CommittedOp → StoreDB × Option OpError
  | .setRange r => s.applyOp (c.at l.clock) (.setRange r)
  | .split newShardID splitKey => s.applyOp (c.at l.clock) (.split newShardID splitKey)
  | .finalizeSplit newRangeEnd =>
    s.applyOp (c.at l.clock) (.finalizeSplit newRangeEnd l.childReplayed)
  | .setSplitState state => s.applyOp (c.at l.clock) (.setSplitState state)
  | .setMergeState state => s.applyOp (c.at l.clock) (.setMergeState state)
  | .finalizeMerge newRange => s.applyOp (c.at l.clock) (.finalizeMerge newRange)
  | .initTransaction op => s.applyOp (c.at l.clock) (.initTransaction op l.clock.unix)
  | .commitTransaction txnID =>
    s.applyOp (c.at l.clock) (.commitTransaction txnID l.clock.unix)
  | .abortTransaction txnID => s.applyOp (c.at l.clock) (.abortTransaction txnID l.clock.unix)
  | .writeIntent op => s.applyOp (c.at l.clock) (.writeIntent op)
  | .resolveIntents op => s.applyOp (c.at l.clock) (.resolveIntents op)
  | .updateSchema schema ttlDuration => (s.updateSchema schema ttlDuration, none)
  | .addIndex name config => (s.addIndex name config, none)
  | .deleteIndex name => (s.deleteIndex name, none)
  | .backup => (s, none)

end StoreDB

/-- The loop's variables: the store, the waiting batches, and the calls of `NotifyCommit`, each with
whether a callback was there to hear it. -/
structure ReadCommits where
  store : StoreDB
  pending : Pending
  notified : List (Bytes × Bool × Option CommitError)

namespace ReadCommits

def start (s : StoreDB) : ReadCommits where
  store := s
  pending := .empty
  notified := []

variable (c : Codec)

def notify (l : Surroundings) (s : ReadCommits) (id : Bytes) (err : Option CommitError) :
    ReadCommits :=
  { s with notified := s.notified ++ [(id, l.hasCallback id, err)] }

/-- `flushBatch`.  Where nothing is waiting it returns at once and keeps ids and timestamp.  What the
index managers answer is the answer to a batch that was stored. -/
def flush (l : Surroundings) (s : ReadCommits) : ReadCommits :=
  if s.pending.isEmpty then s
  else
    let p := s.pending
    let (db, err) := flushBatch (c.at l.clock) s.store.coreDB p.writes p.deletes p.transforms
      (p.effectiveSyncLevel l.hasCallback) p.batchTimestamp
    let answer := l.routeToIndexManagers (p.indexDuty (c.at l.clock) l s.store.coreDB)
    { store := s.store.withCore db
      pending := .empty
      notified := s.notified ++ p.uuids.map fun u =>
        (u.1, l.hasCallback u.1, (err.map (.op ∘ .specialFields)).or (answer.map .indexing)) }

/-- A waiting batch of another timestamp is flushed before `b` is added. -/
def flushOther (l : Surroundings) (s : ReadCommits) (b : BatchOp) : ReadCommits :=
  if !s.pending.isEmpty && decide (b.timestamp ≠ s.pending.batchTimestamp) then s.flush c l else s

def addBatch (s : ReadCommits) (id : Bytes) (b : BatchOp) : ReadCommits :=
  { s with pending := s.pending.add id b }

def entry (l : Surroundings) (s : ReadCommits) : Entry → ReadCommits
  | .batch id b => (s.flushOther c l b).addBatch id b
  | .op id op =>
    let s := s.flush c l
    let (store, err) := s.store.applyCommitted c l op
    { s with store }.notify l id (err.map .op)
  | .unsupported id => s.notify l id (some .unsupportedOperation)
  | .unreadable => s

end ReadCommits

/-- What the loop of a replica meets: an entry of the log, or the end of a commit. -/
inductive CommitEvent where
  | entry (e : Entry) (l : Surroundings)
  | commitEnd (l : Surroundings)

namespace ReadCommits

variable (c : Codec)

def step (s : ReadCommits) : CommitEvent → ReadCommits
  | .entry e l => s.entry c l e
  | .commitEnd l => s.flush c l

def run (s : ReadCommits) (events : List CommitEvent) : ReadCommits := events.foldl (step c) s

theorem run_append (s : ReadCommits) (events events' : List CommitEvent) :
    s.run c (events ++ events') = (s.run c events).run c events' := by
  simp [run]

theorem run_cons (s : ReadCommits) (ev : CommitEvent) (events : List CommitEvent) :
    s.run c (ev :: events) = (s.step c ev).run c events := rfl

end ReadCommits

end Antfly
