import Antfly.Store.Batch

/-!
The coordinator shard keeps one record per transaction; every participant keeps provisional
intents under `<intents prefix><transaction id>:<user key>` until they are resolved.
-/

namespace Antfly

inductive TxnError where
  | notFound
  | unmarshal
  deriving DecidableEq

def initTransaction (db : DBImpl) (op : InitTransactionOp) (now : Int) : DBImpl :=
  db.applyOps [.set (makeTxnKey op.txnID) (.txnRecord
    { txnID := op.txnID
      timestamp := op.timestamp
      commitVersion := 0
      status := .pending
      participants := op.participants
      resolvedParticipants := []
      createdAt := now
      finalizedAt := 0 })]

def loadTxnRecord (db : DBImpl) (txnID : Bytes) : Except TxnError TxnRecord :=
  match db.get? (makeTxnKey txnID) with
  | none => .error .notFound
  | some (.txnRecord record) => .ok record
  | some _ => .error .unmarshal

/-- The record `finalizeTransaction` writes: status and time are overwritten, and a commit fixes
its version. -/
def TxnRecord.finalize (record : TxnRecord) (status : TxnStatus) (ctxTimestamp : Nat)
    (now : Int) : TxnRecord :=
  match status with
  | .committed =>
    { record with
      status := .committed
      finalizedAt := now
      commitVersion := if ctxTimestamp = 0 then record.version else ctxTimestamp }
  | status => { record with status, finalizedAt := now }

/-- `finalizeTransaction`, with the commit version it returns (zero unless it commits). -/
def finalizeTransaction (db : DBImpl) (txnID : Bytes) (status : TxnStatus) (ctxTimestamp : Nat)
    (now : Int) : Except TxnError (DBImpl × Nat) := do
  let record ← loadTxnRecord db txnID
  let updated := record.finalize status ctxTimestamp now
  return (db.applyOps [.set (makeTxnKey txnID) (.txnRecord updated)],
    if status = .committed then updated.commitVersion else 0)

def commitTransaction (db : DBImpl) (txnID : Bytes) (ctxTimestamp : Nat) (now : Int) :
    Except TxnError (DBImpl × Nat) :=
  finalizeTransaction db txnID .committed ctxTimestamp now

def abortTransaction (db : DBImpl) (txnID : Bytes) (now : Int) : Except TxnError DBImpl := do
  let (db', _) ← finalizeTransaction db txnID .aborted 0 now
  return db'

variable {db db' : DBImpl} {txnID : Bytes} {now : Int}

theorem config_finalizeTransaction {status : TxnStatus} {ctxTimestamp : Nat} {r : DBImpl × Nat}
    (h : finalizeTransaction db txnID status ctxTimestamp now = .ok r) :
    r.1.config = db.config := by
  simp only [finalizeTransaction, Fallible.bind_eq_ok, Fallible.pure_eq_ok] at h
  obtain ⟨record, -, rfl⟩ := h
  rfl

theorem config_abortTransaction (h : abortTransaction db txnID now = .ok db') :
    db'.config = db.config := by
  simp only [abortTransaction, Fallible.bind_eq_ok] at h
  obtain ⟨r, hr, h⟩ := h
  cases h
  exact config_finalizeTransaction hr

/-- The timestamp of a document, zero when it has none; `none` is a decoding error. -/
def getTimestamp (db : DBImpl) (key : Bytes) : Option Nat :=
  match db.get? (timestampKey (keyRangeStart key)) with
  | none => some 0
  | some (.uint64 ts) => some ts
  | some (.raw b) => some ((decodeUint64Ascending b).getD 0)
  | some _ => none

inductive WriteIntentError where
  | nilBatch
  | decodeTimestamp (key : Bytes)
  | versionConflict (key : Bytes) (expected actual : Nat)
  | intentConflict (key txnID : Bytes)
  deriving DecidableEq

/-- The entries under the intents prefix, in key order. -/
def intentEntries (db : DBImpl) : List (Bytes × Stored) :=
  db.pdb.scan txnIntentsPrefix (prefixSuccessor txnIntentsPrefix)

/-- The first other transaction that has an intent on each user key. -/
def buildConflictingIntentsMap (db : DBImpl) (excludeTxnID : Bytes) : List (Bytes × Bytes) :=
  (intentEntries db).filterMap fun e =>
    match parseIntentKey e.1 with
    | some (txnID, userKey) => if txnID = excludeTxnID then none else some (userKey, txnID)
    | none => none

def checkVersionPredicate (db : DBImpl) (conflicts : List (Bytes × Bytes))
    (p : VersionPredicate) : Except WriteIntentError Unit :=
  match getTimestamp db p.key with
  | none => .error (.decodeTimestamp p.key)
  | some actual =>
    if actual ≠ p.expectedVersion then
      .error (.versionConflict p.key p.expectedVersion actual)
    else
      match conflicts.lookup p.key with
      | some conflictTxnID => .error (.intentConflict p.key conflictTxnID)
      | none => .ok ()

def checkVersionPredicates (db : DBImpl) (predicates : List VersionPredicate)
    (excludeTxnID : Bytes) : Except WriteIntentError Unit :=
  predicates.forM (checkVersionPredicate db (buildConflictingIntentsMap db excludeTxnID))

def writeIntentOp (op : WriteIntentOp) (w : Write) : PebbleOp :=
  .set (makeIntentKey op.txnID w.1) (.txnIntent
    { txnID := op.txnID
      value := w.2
      timestamp := op.timestamp
      coordinatorShard := op.coordinatorShard
      status := .pending
      isDelete := false })

def deleteIntentOp (op : WriteIntentOp) (key : Bytes) : PebbleOp :=
  .set (makeIntentKey op.txnID key) (.txnIntent
    { txnID := op.txnID
      value := []
      timestamp := op.timestamp
      coordinatorShard := op.coordinatorShard
      status := .pending
      isDelete := true })

/-- The intents of a batch: writes, then deletes; transforms are not carried over. -/
def intentOps (op : WriteIntentOp) (b : BatchOp) : List PebbleOp :=
  b.writes.map (writeIntentOp op) ++ b.deletes.map (deleteIntentOp op)

/-- `WriteIntent`: the predicates are checked on this shard before the intents are written. -/
def writeIntent (db : DBImpl) (op : WriteIntentOp) : Except WriteIntentError DBImpl :=
  match op.batch with
  | none => .error .nilBatch
  | some b => do
      checkVersionPredicates db op.predicates op.txnID
      return db.applyOps (intentOps op b)

theorem config_writeIntent {op : WriteIntentOp} (h : writeIntent db op = .ok db') :
    db'.config = db.config := by
  unfold writeIntent at h
  split at h
  · cases h
  · simp only [Fallible.bind_eq_ok, Fallible.pure_eq_ok] at h
    obtain ⟨-, -, rfl⟩ := h
    rfl

section Resolve

variable (c : Codec) (db : DBImpl)

/-- For a document without a timestamp key: the `_timestamp` field of the stored body decides. -/
def shouldWriteValueLegacy (key : Bytes) (newTimestamp : Nat) : Bool :=
  let body := match db.get? key with
    | some (.zstd b) => some b
    | some (.raw b) => some b
    | _ => none
  match body.bind c.unmarshalObj with
  | none => true
  | some doc =>
    match doc.get? (ascii ['_', 't', 'i', 'm', 'e', 's', 't', 'a', 'm', 'p']) with
    | some (.num f) => decide (c.floatToUint64 f < newTimestamp)
    | _ => true

/-- A committed value is written only over an older timestamp; an undecodable one is ignored. -/
def shouldWriteValue (key : Bytes) (newTimestamp : Nat) : Bool :=
  match db.get? (timestampKey key) with
  | none => shouldWriteValueLegacy c db key newTimestamp
  | some (.uint64 existing) => decide (existing < newTimestamp)
  | some (.raw b) =>
    match decodeUint64Ascending b with
    | some existing => decide (existing < newTimestamp)
    | none => true
  | some _ => true

/-- The body and special fields a committed write intent stores.  When the special fields cannot
be extracted, the value is stored as it came. -/
def committedValueOps (userKey value : Bytes) (commitVersion : Nat) : List PebbleOp :=
  let actualKey := keyRangeStart userKey
  let body := match extractAndWriteSpecialFields c db value userKey with
    | .error _ => [.set actualKey (.zstd value)]
    | .ok none => [.set actualKey (.zstd value)]
    | .ok (some sf) => sf.ops commitVersion ++ [.set actualKey (.zstd sf.cleanedJSON)]
  body ++ [.set (timestampKey actualKey) (.uint64 commitVersion)]

/-- What a committed intent does to the data. -/
def committedIntentOps (userKey : Bytes) (intent : TxnIntent) (commitVersion : Nat) :
    List PebbleOp :=
  if intent.isDelete then [deleteTombstone userKey]
  else if !intent.value.isEmpty && shouldWriteValue c db (keyRangeStart userKey) commitVersion then
    committedValueOps c db userKey intent.value commitVersion
  else []

/-- One iteration of the resolution loop; entries that do not decode are left in place. -/
def resolveIntentOps (op : ResolveIntentsOp) (e : Bytes × Stored) : List PebbleOp :=
  match e.2, parseIntentKey e.1 with
  | .txnIntent intent, some (_, userKey) =>
    (if op.status = .committed then committedIntentOps c db userKey intent op.commitVersion
      else []) ++ [.delete e.1]
  | _, _ => []

/-- The intents of one transaction, in key order. -/
def transactionIntents (txnID : Bytes) : List (Bytes × Stored) :=
  let pre := txnIntentsPrefix ++ txnID
  db.pdb.scan pre (prefixSuccessor pre)

/-- `ResolveIntents`.  Every decision reads the store as it was before the batch. -/
def resolveIntents (op : ResolveIntentsOp) : DBImpl :=
  db.applyOps ((transactionIntents db op.txnID).flatMap (resolveIntentOps c db op))

end Resolve

end Antfly
