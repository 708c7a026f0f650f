import Antfly.Store.Document
import Antfly.Store.ShardState
import Antfly.Store.Transactions

/-!
`StoreDB` keeps its own copies of the byte range and of the split and merge state next to those
of `DBImpl`.  Every committed operation is applied by one `applyOp` function; an operation that
fails reports its error and leaves what it had already changed.
-/

namespace Antfly

structure StoreDB where
  coreDB : DBImpl
  byteRange : Range
  splitState : Option SplitState
  mergeState : Option MergeState

inductive OpError where
  | specialFields (e : SpecialFieldError)
  | splitKeyOutOfRange (key : Bytes) (byteRange : Range)
  | finalizeEmptyRangeEnd
  | finalizeNoSplitState
  | childReplayTimeout
  | txn (e : TxnError)
  | writeIntent (e : WriteIntentError)
  deriving DecidableEq

inductive ResolveError where
  | read (key : Bytes)
  | marshal (key : Bytes)
  deriving DecidableEq

section Batches

variable (c : Codec)

/-- The write a transform resolves to; a missing document is skipped unless the transform upserts,
and a failing operation is skipped. -/
def resolveTransform (db : DBImpl) (t : Transform) : Except ResolveError (Option Write) :=
  let resolved (existing : Obj) : Except ResolveError (Option Write) :=
    match (applyTransformOps c ⟨existing, []⟩ t.operations).marshal c with
    | none => .error (.marshal t.key)
    | some modified => .ok (some (t.key, modified))
  match getDocument c db t.key with
  | .ok existing => resolved existing
  | .error .notFound => if t.upsert then resolved [] else .ok none
  | .error .decode => .error (.read t.key)

def resolveTransforms (db : DBImpl) (transforms : List Transform) :
    Except ResolveError (List Write) := do
  let resolved ← transforms.mapM (resolveTransform c db)
  return resolved.reduceOption

/-- Nothing to do for an empty batch; otherwise `DBImpl.Batch`. -/
def applyOpBatch (db : DBImpl) (writes : List Write) (deletes : List Bytes)
    (syncLevel : SyncLevel) (timestamp : Nat) : Except SpecialFieldError DBImpl :=
  if writes.isEmpty && deletes.isEmpty then .ok db
  else batch c db writes deletes syncLevel timestamp

/-- The writes a flush hands to the store.  When a transform cannot be resolved, all transforms of
the flush are dropped. -/
def flushWrites (db : DBImpl) (writes : List Write) (transforms : List Transform) : List Write :=
  match resolveTransforms c db transforms with
  | .ok resolved => writes ++ resolved
  | .error _ => writes

/-- `flushBatch` up to the index managers, with the error its callbacks get; a failing batch changes
nothing. -/
def flushBatch (db : DBImpl) (writes : List Write) (deletes : List Bytes)
    (transforms : List Transform) (syncLevel : SyncLevel) (timestamp : Nat) :
    DBImpl × Option SpecialFieldError :=
  match applyOpBatch c db (flushWrites c db writes transforms) deletes syncLevel timestamp with
  | .ok db' => (db', none)
  | .error e => (db, some e)

theorem config_applyOpBatch {db db' : DBImpl} {writes : List Write} {deletes : List Bytes}
    {syncLevel : SyncLevel} {ts : Nat}
    (h : applyOpBatch c db writes deletes syncLevel ts = .ok db') : db'.config = db.config := by
  unfold applyOpBatch at h
  split at h
  · cases h
    rfl
  · exact config_batch h

theorem config_flushBatch (db : DBImpl) (writes : List Write) (deletes : List Bytes)
    (transforms : List Transform) (syncLevel : SyncLevel) (timestamp : Nat) :
    (flushBatch c db writes deletes transforms syncLevel timestamp).1.config = db.config := by
  unfold flushBatch
  split
  · rename_i h
    exact config_applyOpBatch c h
  · rfl

end Batches

/-- A committed raft operation.  `batch` is one flush; clock readings and the outcome of waiting
for the local split child are part of the operation. -/
inductive RaftOp where
  | batch (writes : List Write) (deletes : List Bytes) (transforms : List Transform)
      (syncLevel : SyncLevel) (timestamp : Nat)
  | setRange (r : Range)
  | split (newShardID : Nat) (splitKey : Bytes)
  | finalizeSplit (newRangeEnd : Bytes) (childReplayed : Bool)
  | setSplitState (state : Option SplitState)
  | setMergeState (state : Option MergeState)
  | finalizeMerge (newRange : Range)
  | initTransaction (op : InitTransactionOp) (now : Int)
  | commitTransaction (txnID : Bytes) (now : Int)
  | abortTransaction (txnID : Bytes) (now : Int)
  | writeIntent (op : WriteIntentOp)
  | resolveIntents (op : ResolveIntentsOp)

/-- Data and transaction operations, which have no business with the range. -/
def RaftOp.isData : RaftOp → Bool
  | .batch .. | .initTransaction .. | .commitTransaction .. | .abortTransaction ..
  | .writeIntent .. | .resolveIntents .. => true
  | _ => false

namespace StoreDB

variable (c : Codec)

def withCore (s : StoreDB) (db : DBImpl) : StoreDB := { s with coreDB := db }

def applyOpSetRange (s : StoreDB) (r : Range) : StoreDB :=
  { s with byteRange := r, coreDB := s.coreDB.setRange r }

/-- `applyOpSplit`, without the archive it writes: the range is narrowed to the keys below the
split key, in both copies and on disk. -/
def applyOpSplit (s : StoreDB) (splitKey : Bytes) : StoreDB × Option OpError :=
  if !s.byteRange.contains splitKey then (s, some (.splitKeyOutOfRange splitKey s.byteRange))
  else
    let newRange : Range := ⟨s.byteRange.start, splitKey⟩
    ({ s with byteRange := newRange, coreDB := s.coreDB.setRange newRange }, none)

/-- The range `applyOpSetSplitState` leaves in `StoreDB`: a rollback and a cleared state put the
original end back, unless it is the empty slice of an unbounded range. -/
def restoredRange (s : StoreDB) (state : Option SplitState) : Range :=
  let restore (st : SplitState) : Range :=
    if st.originalRangeEnd.isEmpty then s.byteRange
    else ⟨s.byteRange.start, st.originalRangeEnd⟩
  match state, s.splitState with
  | some st, _ => if st.phase = .rollingBack then restore st else s.byteRange
  | none, some previous => restore previous
  | none, none => s.byteRange

/-- What entering a phase does to the delta log. -/
def splitPhaseEffect (db : DBImpl) : Option SplitState → DBImpl
  | none => db.clearSplitDeltaFinalSeq
  | some st =>
    match st.phase with
    | .prepare | .rollingBack => db.clearSplitDeltaEntries
    | .none | .splitting | .finalizing => db

def applyOpSetSplitState (s : StoreDB) (state : Option SplitState) : StoreDB :=
  { s with
    coreDB := splitPhaseEffect (s.coreDB.setSplitState state) state
    splitState := state
    byteRange := s.restoredRange state }

/-- The final sequence of the split delta log, fixed at the first finalize attempt. -/
def fixSplitDeltaFinalSeq (db : DBImpl) : DBImpl :=
  if db.splitDeltaFinalSeq = 0 then db.setSplitDeltaFinalSeq db.splitDeltaSeq else db

/-- `applyOpFinalizeSplit`.  `childReplayed` tells whether the local child caught up in time; the
source does not wait when nothing was captured. -/
def applyOpFinalizeSplit (s : StoreDB) (newRangeEnd : Bytes) (childReplayed : Bool) :
    StoreDB × Option OpError :=
  if newRangeEnd.isEmpty then (s, some .finalizeEmptyRangeEnd)
  else
    let currentRange := s.byteRange
    match s.splitState with
    | none => (s, some .finalizeNoSplitState)
    | some st =>
      let fixed := s.withCore (fixSplitDeltaFinalSeq s.coreDB)
      let finalizing :=
        if st.phase = .finalizing then fixed
        else fixed.applyOpSetSplitState (some { st with phase := .finalizing })
      if fixed.coreDB.splitDeltaFinalSeq ≠ 0 && !childReplayed then
        (finalizing, some .childReplayTimeout)
      else
        ({ finalizing with
            coreDB := ((finalizing.coreDB.finalizeSplit currentRange).clearSplitState
              ).clearSplitDeltaEntries
            splitState := none }, none)

/-- What entering a merge phase does to the delta log and the imported data. -/
def mergePhaseEffect (db : DBImpl) : Option MergeState → DBImpl
  | none => db.clearMergeDeltaFinalSeq
  | some st =>
    match st.phase with
    | .prepare => if st.captureDeltas then db.clearMergeDeltaEntries else db
    | .rollingBack =>
      if st.acceptDonorRange then db.deleteDataRange ⟨st.donorRangeStart, st.donorRangeEnd⟩
      else db
    | .none | .copying | .catchup | .finalizing => db

def applyOpSetMergeState (s : StoreDB) (state : Option MergeState) : StoreDB :=
  { s with
    coreDB := mergePhaseEffect (s.coreDB.setMergeState state) state
    mergeState := state }

def applyOpFinalizeMerge (s : StoreDB) (newRange : Range) : StoreDB :=
  { s with
    coreDB := ((s.coreDB.setRange newRange).clearMergeState).clearMergeDeltaEntries
    byteRange := newRange
    mergeState := none }

/-- `NewStoreDB` over an existing directory: the copies are taken from the opened `DBImpl`. -/
def reopen (s : StoreDB) (schema : Option Bytes) (byteRange : Range) : StoreDB :=
  let db := s.coreDB.reopen schema byteRange
  { coreDB := db, byteRange := db.byteRange, splitState := db.splitState,
    mergeState := db.mergeState }

/-- `NewStoreDB` over an empty directory: a new shard of the range `r`. -/
def create (r : Range) : StoreDB :=
  reopen { coreDB := DBImpl.empty, byteRange := ⟨[], []⟩, splitState := none, mergeState := none }
    none r

/-- Applies one committed operation. -/
def applyOp (s : StoreDB) : RaftOp → StoreDB × Option OpError
  | .batch writes deletes transforms syncLevel timestamp =>
    let (db, err) := flushBatch c s.coreDB writes deletes transforms syncLevel timestamp
    (s.withCore db, err.map .specialFields)
  | .setRange r => (s.applyOpSetRange r, none)
  | .split _ splitKey => s.applyOpSplit splitKey
  | .finalizeSplit newRangeEnd childReplayed => s.applyOpFinalizeSplit newRangeEnd childReplayed
  | .setSplitState state => (s.applyOpSetSplitState state, none)
  | .setMergeState state => (s.applyOpSetMergeState state, none)
  | .finalizeMerge newRange => (s.applyOpFinalizeMerge newRange, none)
  | .initTransaction op now => (s.withCore (Antfly.initTransaction s.coreDB op now), none)
  | .commitTransaction txnID now =>
    match Antfly.commitTransaction s.coreDB txnID 0 now with
    | .ok (db, _) => (s.withCore db, none)
    | .error e => (s, some (.txn e))
  | .abortTransaction txnID now =>
    match Antfly.abortTransaction s.coreDB txnID now with
    | .ok db => (s.withCore db, none)
    | .error e => (s, some (.txn e))
  | .writeIntent op =>
    match Antfly.writeIntent s.coreDB op with
    | .ok db => (s.withCore db, none)
    | .error e => (s, some (.writeIntent e))
  | .resolveIntents op => (s.withCore (Antfly.resolveIntents c s.coreDB op), none)

/-- The state after a log of committed operations. -/
def applyLog (s : StoreDB) (log : List RaftOp) : StoreDB :=
  log.foldl (fun s op => (s.applyOp c op).1) s

end StoreDB

end Antfly
