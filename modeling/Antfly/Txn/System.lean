import Antfly.Lib.Runs
import Antfly.Store.TxnFrame
import Mathlib.Logic.Function.Basic

/-!
Every shard is a raft group: a committed operation is applied by all replicas of the shard.  The
recovery loop runs on any replica; it works on the record it read at the start of its turn, sends
`ResolveIntents` to the participants, and writes its bookkeeping (the participants that answered,
the removal of a finished record) to its own replica only.  Messages may be lost, repeated and
delivered late, so the messages sent are a set that only grows, and a turn of the recovery loop
may stop at any point.
-/

namespace Antfly

/-- `types.ID` of a shard. -/
abbrev ShardID := UInt64

/-- The participant bytes of a shard: its id in little-endian order. -/
def encodeShardID (id : ShardID) : Bytes :=
  [0, 8, 16, 24, 32, 40, 48, 56].map fun s => UInt8.ofNat (id.toNat >>> s)

/-- `NotifyResolveIntent` decodes the participant bytes; any other length is an error. -/
def decodeShardID (b : Bytes) : Option ShardID :=
  if b.length ≠ 8 then none
  else some (UInt64.ofNat (b.foldr (fun c acc => c.toNat + 256 * acc) 0))

/-- A turn of the recovery loop: the record as it was read on one replica, and the participants
that have answered since. -/
structure RecoveryTurn where
  shard : ShardID
  replica : Nat
  txnID : Bytes
  record : TxnRecord
  newlyResolved : List Bytes
  deriving DecidableEq

/-- The participants the turn has to notify. -/
def RecoveryTurn.unresolved (p : RecoveryTurn) : List Bytes :=
  p.record.participants.filter fun x => x ∉ p.record.resolvedParticipants

/-- The turn removes its record: decided, old, and with as many answers as participants. -/
def RecoveryTurn.cleansUp (p : RecoveryTurn) (cutoff : Int) : Bool :=
  p.record.status ≠ .pending && decide (p.record.finalizedAt < cutoff) &&
    decide (p.record.participants.length ≤ p.record.resolvedParticipants.length)

/-- What the turn tells a shard about the transaction. -/
def RecoveryTurn.resolveOp (p : RecoveryTurn) : ResolveIntentsOp :=
  ⟨p.record.txnID, p.record.status, p.record.version⟩

/-- The replicas of all shards, the turns of recovery loops, and what has happened so far. -/
structure TxnSystem where
  shards : ShardID → List StoreDB
  turns : List RecoveryTurn
  /-- `ResolveIntents` sent so far, with the shard they are for. -/
  sent : List (ShardID × ResolveIntentsOp)
  /-- The transactions each shard has applied a `ResolveIntents` of. -/
  resolved : List (ShardID × Bytes)
  /-- The transactions each shard has applied a `WriteIntent` of. -/
  written : List (ShardID × Bytes)
  /-- The records a recovery loop has deleted. -/
  deleted : List (ShardID × Bytes)

inductive TxnEvent where
  /-- A committed operation is applied by a shard. -/
  | apply (shard : ShardID) (op : RaftOp)
  /-- The orchestrator reads the commit version back from a replica and tells a shard. -/
  | commitReply (shard : ShardID) (replica : Nat) (txnID : Bytes) (target : ShardID)
  | recoveryRead (shard : ShardID) (replica : Nat) (txnID : Bytes)
  | recoveryCleanup (turn : RecoveryTurn) (cutoff : Int)
  | recoveryNotify (turn : RecoveryTurn) (participant : Bytes)
  | recoveryAnswer (turn : RecoveryTurn) (participant : Bytes)
  | recoverySave (turn : RecoveryTurn)
  | recoverySelfResolve (turn : RecoveryTurn)

namespace TxnSystem

variable (c : Codec)

def loadRecord (s : TxnSystem) (shard : ShardID) (replica : Nat) (txnID : Bytes) :
    Except TxnError TxnRecord :=
  match (s.shards shard)[replica]? with
  | some store => loadTxnRecord store.coreDB txnID
  | none => .error .notFound

/-- What a replica sends after it has applied an operation: it resolves the intents its own shard
holds of a transaction that was just decided. -/
def asyncResolveIntents (store : StoreDB) : RaftOp → Option ResolveIntentsOp
  | .commitTransaction txnID now =>
    match Antfly.commitTransaction store.coreDB txnID 0 now with
    | .ok (_, commitVersion) => some ⟨txnID, .committed, commitVersion⟩
    | .error _ => none
  | .abortTransaction txnID now =>
    match Antfly.abortTransaction store.coreDB txnID now with
    | .ok _ => some ⟨txnID, .aborted, 0⟩
    | .error _ => none
  | _ => none

/-- A `ResolveIntents` is applied only when it was sent to the shard. -/
def canApply (s : TxnSystem) (shard : ShardID) : RaftOp → Bool
  | .resolveIntents op => (shard, op) ∈ s.sent
  | _ => true

def resolvedBy (shard : ShardID) : RaftOp → List (ShardID × Bytes)
  | .resolveIntents op => [(shard, op.txnID)]
  | _ => []

def writtenBy (shard : ShardID) : RaftOp → List (ShardID × Bytes)
  | .writeIntent op => [(shard, op.txnID)]
  | _ => []

def applyAt (s : TxnSystem) (shard : ShardID) (op : RaftOp) : TxnSystem :=
  { s with
    shards := Function.update s.shards shard
      ((s.shards shard).map fun store => (store.applyOp c op).1)
    sent := ((s.shards shard).filterMap (asyncResolveIntents · op)).map (shard, ·) ++ s.sent
    resolved := resolvedBy shard op ++ s.resolved
    written := writtenBy shard op ++ s.written }

/-- A bookkeeping write of the recovery loop, which goes to one replica's store directly. -/
def writeRecordKey (s : TxnSystem) (p : RecoveryTurn) (ops : List PebbleOp) : TxnSystem :=
  { s with
    shards := Function.update s.shards p.shard
      ((s.shards p.shard).modify p.replica fun store => store.withCore (store.coreDB.applyOps ops)) }

/-- The version the orchestrator is told after its commit; zero when it cannot be read back. -/
def commitVersionReply (s : TxnSystem) (shard : ShardID) (replica : Nat) (txnID : Bytes) : Nat :=
  match s.loadRecord shard replica txnID with
  | .ok record => record.version
  | .error _ => 0

/-- The orchestrator's commit went through when a decision to commit has been sent. -/
def committed (s : TxnSystem) (txnID : Bytes) : Bool :=
  s.sent.any fun m => m.2.txnID = txnID && m.2.status = .committed

def send (s : TxnSystem) (target : ShardID) (op : ResolveIntentsOp) : TxnSystem :=
  { s with sent := (target, op) :: s.sent }

def step (s : TxnSystem) : TxnEvent → Option TxnSystem
  | .apply shard op => if s.canApply shard op then some (s.applyAt c shard op) else none
  | .commitReply shard replica txnID target =>
    if s.committed txnID then
      some (s.send target ⟨txnID, .committed, s.commitVersionReply shard replica txnID⟩)
    else none
  | .recoveryRead shard replica txnID =>
    match s.loadRecord shard replica txnID with
    | .ok record =>
      -- A pending record is at most proposed for an abort.
      if record.status = .pending then none
      else some { s with turns := ⟨shard, replica, txnID, record, []⟩ :: s.turns }
    | .error _ => none
  | .recoveryCleanup p cutoff =>
    if p ∈ s.turns ∧ p.cleansUp cutoff then
      some { s.writeRecordKey p [.delete (makeTxnKey p.txnID)] with
        deleted := (p.shard, p.txnID) :: s.deleted }
    else none
  | .recoveryNotify p x =>
    if p ∈ s.turns ∧ x ∈ p.unresolved then
      (decodeShardID x).map fun target => s.send target p.resolveOp
    else none
  | .recoveryAnswer p x =>
    if p ∈ s.turns ∧ x ∈ p.unresolved ∧ x ∉ p.newlyResolved ∧
        (decodeShardID x).any (fun target => (target, p.record.txnID) ∈ s.resolved) then
      some { s with turns := { p with newlyResolved := p.newlyResolved ++ [x] } :: s.turns }
    else none
  | .recoverySave p =>
    if p ∈ s.turns then
      some (s.writeRecordKey p [.set (makeTxnKey p.txnID) (.txnRecord { p.record with
        resolvedParticipants := p.record.resolvedParticipants ++ p.newlyResolved })])
    else none
  | .recoverySelfResolve p =>
    if p ∈ s.turns then some (s.send p.shard p.resolveOp) else none

/-- The system before any transaction: shards with the given replicas. -/
def init (shards : ShardID → List StoreDB) : TxnSystem where
  shards
  turns := []
  sent := []
  resolved := []
  written := []
  deleted := []

end TxnSystem

/-- One shard with one new replica. -/
def oneShard : TxnSystem :=
  .init (Function.update (fun _ => []) 1 [StoreDB.create ⟨[], []⟩])

def sampleTxnID : Bytes := List.replicate 16 0x2A

def initSample : TxnEvent :=
  .apply 1 (.initTransaction ⟨sampleTxnID, 7, []⟩ 100)

def commitSample : TxnEvent := .apply 1 (.commitTransaction sampleTxnID 101)

theorem mem_oneShard {shard : ShardID} {store : StoreDB} (h : store ∈ oneShard.shards shard) :
    store = StoreDB.create ⟨[], []⟩ := by
  by_cases hshard : shard = 1
  · subst hshard
    simpa [oneShard, TxnSystem.init] using h
  · simp [oneShard, TxnSystem.init, hshard] at h

end Antfly
