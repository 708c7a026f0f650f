import Antfly.Lib.OrdMap
import Antfly.Store.Keys
import Antfly.Store.Transform

/-!
The protocol records a shard keeps (split and merge state, delta entries, transaction records
and intents), the values its store holds, and the fields of `DBImpl` the mutation paths read.

A stored value keeps the constructor of the encoder that wrote it: raw bytes, zstd-compressed
JSON, an eight-byte integer, or one of the store's own records.  Reading a value through the
decoder of another constructor is a decoding error.
-/

namespace Antfly

inductive SplitPhase where
  | none | prepare | splitting | finalizing | rollingBack
  deriving DecidableEq

structure SplitState where
  phase : SplitPhase
  splitKey : Bytes
  newShardID : Nat
  startedAtUnixNanos : Int
  originalRangeEnd : Bytes
  deriving DecidableEq

inductive MergePhase where
  | none | prepare | copying | catchup | finalizing | rollingBack
  deriving DecidableEq

structure MergeState where
  phase : MergePhase
  donorShardID : Nat
  receiverShardID : Nat
  donorRangeStart : Bytes
  donorRangeEnd : Bytes
  receiverRangeStart : Bytes
  receiverRangeEnd : Bytes
  startedAtUnixNanos : Int
  replaySeq : Nat
  finalSeq : Nat
  copyCompleted : Bool
  captureDeltas : Bool
  acceptDonorRange : Bool
  denyDonorWrites : Bool
  deriving DecidableEq

def isActiveSplitPhase : Option SplitState → Bool
  | none => false
  | some st => st.phase = .prepare || st.phase = .splitting

def isActiveMergePhase : Option MergeState → Bool
  | none => false
  | some st =>
    match st.phase with
    | .prepare | .copying | .catchup | .finalizing => true
    | .none | .rollingBack => false

def isKeyInSplitOffRangeForState (key : Bytes) (state : Option SplitState) : Bool :=
  isActiveSplitPhase state &&
    match state with
    | none => false
    | some st =>
      !st.splitKey.isEmpty && decide (st.splitKey ≤ key) &&
        (st.originalRangeEnd.isEmpty || decide (key < st.originalRangeEnd))

def isKeyOwnedDuringSplit (key : Bytes) (byteRange : Range) (state : Option SplitState) : Bool :=
  byteRange.contains key || isKeyInSplitOffRangeForState key state

def MergeState.inDonorRange (st : MergeState) (key : Bytes) : Bool :=
  decide (st.donorRangeStart ≤ key) &&
    (st.donorRangeEnd.isEmpty || decide (key < st.donorRangeEnd))

def isKeyInMergeDonorRangeForState (key : Bytes) (state : Option MergeState) : Bool :=
  isActiveMergePhase state &&
    match state with
    | none => false
    | some st => st.acceptDonorRange && st.inDonorRange key

def shouldRejectDonorWriteDuringFinalize (key : Bytes) (state : Option MergeState) : Bool :=
  match state with
  | none => false
  | some st => st.denyDonorWrites && st.inDonorRange key

def isKeyOwnedDuringMerge (key : Bytes) (byteRange : Range) (state : Option MergeState) : Bool :=
  !shouldRejectDonorWriteDuringFinalize key state &&
    (byteRange.contains key || isKeyInMergeDonorRangeForState key state)

inductive SyncLevel where
  | propose | write | fullText | enrichments | embeddings
  /-- Reserved for merge copies: the receiver's range checks are bypassed. -/
  | internalMergeCopy
  deriving DecidableEq

namespace SyncLevel

/-- The numeric order of the enumeration. -/
def toNat : SyncLevel → Nat
  | propose => 0
  | write => 1
  | fullText => 2
  | enrichments => 3
  | embeddings => 4
  | internalMergeCopy => 99

end SyncLevel

/-- A key with its value. -/
abbrev Write := Bytes × Bytes

structure BatchOp where
  writes : List Write
  deletes : List Bytes
  transforms : List Transform
  syncLevel : SyncLevel
  timestamp : Nat
  deriving DecidableEq

/-- `SplitDeltaEntry` and `MergeDeltaEntry`, two messages with the same fields. -/
structure DeltaEntry where
  sequence : Nat
  timestamp : Nat
  writes : List Write
  deletes : List Bytes
  deriving DecidableEq

inductive TxnStatus where
  | pending | committed | aborted
  deriving DecidableEq

structure TxnRecord where
  txnID : Bytes
  timestamp : Nat
  commitVersion : Nat
  status : TxnStatus
  participants : List Bytes
  resolvedParticipants : List Bytes
  createdAt : Int
  finalizedAt : Int
  deriving DecidableEq

/-- The commit version if it is set, the begin timestamp otherwise. -/
def TxnRecord.version (r : TxnRecord) : Nat :=
  if 0 < r.commitVersion then r.commitVersion else r.timestamp

/-- The value under an intent key; the user key is part of that key. -/
structure TxnIntent where
  txnID : Bytes
  value : Bytes
  timestamp : Nat
  coordinatorShard : Bytes
  status : TxnStatus
  isDelete : Bool
  deriving DecidableEq

structure InitTransactionOp where
  txnID : Bytes
  timestamp : Nat
  participants : List Bytes
  deriving DecidableEq

structure VersionPredicate where
  key : Bytes
  expectedVersion : Nat
  deriving DecidableEq

structure WriteIntentOp where
  txnID : Bytes
  timestamp : Nat
  coordinatorShard : Bytes
  batch : Option BatchOp
  predicates : List VersionPredicate
  deriving DecidableEq

structure ResolveIntentsOp where
  txnID : Bytes
  status : TxnStatus
  commitVersion : Nat
  deriving DecidableEq

/-- The configuration of a registered index, as far as special fields read it. -/
inductive IndexConfig where
  | embeddings (sparse external : Bool) (dimension : Nat)
  | graph
  | fullText
  deriving DecidableEq

inductive Stored where
  | raw (b : Bytes)
  | zstd (json : Bytes)
  | uint64 (n : Nat)
  | txnRecord (r : TxnRecord)
  | txnIntent (i : TxnIntent)
  | version (n : Nat)
  | schema (json : Bytes)
  | byteRange (r : Range)
  | indexes (configs : List (Bytes × IndexConfig))
  | splitState (st : SplitState)
  | mergeState (st : MergeState)
  | splitDelta (e : DeltaEntry)
  | mergeDelta (e : DeltaEntry)
  deriving DecidableEq

abbrev PebbleDB := OrdMap Bytes Stored

abbrev PebbleOp := OrdMap.Edit Bytes Stored

structure DBImpl where
  pdb : PebbleDB
  byteRange : Range
  splitState : Option SplitState
  mergeState : Option MergeState
  splitDeltaSeq : Nat
  splitDeltaFinalSeq : Nat
  mergeDeltaSeq : Nat
  mergeDeltaFinalSeq : Nat
  /-- The registered indexes with their configurations, by name. -/
  indexes : List (Bytes × IndexConfig)
  /-- The JSON of the schema. -/
  schema : Option Bytes
  /-- The time to live of a document in nanoseconds; zero means none. -/
  cachedTTLDuration : Nat

/-- The in-memory fields of a shard, without its stored keys and delta counters. -/
structure DBConfig where
  byteRange : Range
  splitState : Option SplitState
  mergeState : Option MergeState
  indexes : List (Bytes × IndexConfig)
  schema : Option Bytes
  cachedTTLDuration : Nat

namespace DBImpl

def config (db : DBImpl) : DBConfig where
  byteRange := db.byteRange
  splitState := db.splitState
  mergeState := db.mergeState
  indexes := db.indexes
  schema := db.schema
  cachedTTLDuration := db.cachedTTLDuration

def get? (db : DBImpl) (k : Bytes) : Option Stored := db.pdb.get? k

/-- `pdb.Apply` of a write batch. -/
def applyOps (db : DBImpl) (ops : List PebbleOp) : DBImpl :=
  { db with pdb := db.pdb.applyAll ops }

@[simp] theorem config_applyOps (db : DBImpl) (ops : List PebbleOp) :
    (db.applyOps ops).config = db.config := rfl

/-- A store that has never been opened. -/
def empty : DBImpl where
  pdb := .empty
  byteRange := ⟨[], []⟩
  splitState := none
  mergeState := none
  splitDeltaSeq := 0
  splitDeltaFinalSeq := 0
  mergeDeltaSeq := 0
  mergeDeltaFinalSeq := 0
  indexes := []
  schema := none
  cachedTTLDuration := 0

theorem get?_applyOps (db : DBImpl) (ops : List PebbleOp) (x : Bytes) :
    (db.applyOps ops).get? x = (OrdMap.lastEffect ops x).getD (db.get? x) :=
  OrdMap.get?_applyAll db.pdb ops x

end DBImpl

end Antfly
