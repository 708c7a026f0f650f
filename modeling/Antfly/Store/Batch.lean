import Antfly.Store.SpecialFields

/-!
A batch runs its writes in order, then its deletes, then appends the captured mutations of a
running split or merge to the delta logs, and applies everything as one Pebble batch.  Keys the
shard does not own are skipped silently.  A document whose special fields cannot be extracted
fails the whole batch.
-/

namespace Antfly

/-- The ownership test of one key: a key of a running split's split-off range or of an accepted
donor range passes the first test, and the merge test is always made. -/
def ownsKey (db : DBImpl) (key : Bytes) : Bool :=
  (isKeyOwnedDuringSplit key db.byteRange db.splitState ||
    isKeyInMergeDonorRangeForState key db.mergeState) &&
    isKeyOwnedDuringMerge key db.byteRange db.mergeState

/-- Whether a batch applies to `key`; merge copies bypass the ownership test. -/
def appliesKey (db : DBImpl) (internalMergeCopy : Bool) (key : Bytes) : Bool :=
  internalMergeCopy || ownsKey db key

/-- A mutation of `key` is captured for the child of a running split. -/
def capturesSplit (db : DBImpl) (key : Bytes) : Bool :=
  isKeyInSplitOffRangeForState key db.splitState

/-- A mutation of `key` is captured for the receiver of a running merge. -/
def capturesMerge (db : DBImpl) (key : Bytes) : Bool :=
  match db.mergeState with
  | none => false
  | some st => st.captureDeltas && st.inDonorRange key

/-- How a write is stored, decided by the shape of its key. -/
inductive WriteKind where
  | enrichment
  | chunk
  | document
  deriving DecidableEq

def writeKind (key : Bytes) : WriteKind :=
  if hasSuffix key embeddingSuffix || hasSuffix key summarySuffix then .enrichment
  else if hasSuffix key sparseSuffix && contains key indexMarker then .enrichment
  else if isChunkKey key then .chunk
  else if isEdgeKey key || (contains key indexMarker && hasSuffix key fieldHashSuffix) then
    .enrichment
  else .document

def documentOps (key body : Bytes) (timestamp : Nat) : List PebbleOp :=
  .set (keyRangeStart key) (.zstd body) :: timestampOps (keyRangeStart key) timestamp

section Batch

variable (c : Codec) (db : DBImpl)

/-- The batch operations of a document write; a value that is not a JSON object is skipped. -/
def documentWriteOps (timestamp : Nat) (kv : Write) :
    Except SpecialFieldError (List PebbleOp) :=
  if !hasPrefix kv.2 (ascii ['\x7b']) then .ok []
  else do
    match ← extractAndWriteSpecialFields c db kv.2 kv.1 with
    | none => return documentOps kv.1 kv.2 timestamp
    | some sf =>
      return sf.ops timestamp ++
        if sf.hasNonSpecialFields then documentOps kv.1 sf.cleanedJSON timestamp else []

/-- The batch operations of one write the shard applies. -/
def storeWriteOps (timestamp : Nat) (kv : Write) : Except SpecialFieldError (List PebbleOp) :=
  match writeKind kv.1 with
  | .enrichment => .ok (if kv.2.isEmpty then [] else [rawSet kv])
  | .chunk => .ok (if kv.2.length < 8 then [] else [rawSet kv])
  | .document => documentWriteOps c db timestamp kv

/-- One iteration of the write loop. -/
def writeOps (internalMergeCopy : Bool) (timestamp : Nat) (kv : Write) :
    Except SpecialFieldError (List PebbleOp) :=
  if appliesKey db internalMergeCopy kv.1 then storeWriteOps c db timestamp kv else .ok []

def deleteTombstone (k : Bytes) : PebbleOp :=
  .deleteRange k (prefixSuccessor (keyRangeEnd k))

/-- One iteration of the delete loop. -/
def deleteOps (internalMergeCopy : Bool) (k : Bytes) : List PebbleOp :=
  if appliesKey db internalMergeCopy k then [deleteTombstone k] else []

/-- The content part of a batch: all writes, then all deletes. -/
def contentOps (internalMergeCopy : Bool) (timestamp : Nat) (writes : List Write)
    (deletes : List Bytes) : Except SpecialFieldError (List PebbleOp) := do
  let ws ← writes.mapM (writeOps c db internalMergeCopy timestamp)
  return ws.flatten ++ deletes.flatMap (deleteOps db internalMergeCopy)

/-- The mutations of a batch that satisfy a capture test. -/
def captured (capture : Bytes → Bool) (internalMergeCopy : Bool) (writes : List Write)
    (deletes : List Bytes) : List Write × List Bytes :=
  (writes.filter fun kv => appliesKey db internalMergeCopy kv.1 && capture kv.1,
    deletes.filter fun k => appliesKey db internalMergeCopy k && capture k)

end Batch

/-- `appendSplitDelta`: nothing for an empty capture, else one entry under the next sequence. -/
def appendSplitDelta (db : DBImpl) (entry : List Write × List Bytes) (timestamp : Nat) : DBImpl :=
  if entry.1.isEmpty && entry.2.isEmpty then db
  else
    let seq := db.splitDeltaSeq + 1
    { db with
      splitDeltaSeq := seq
      pdb := db.pdb.applyAll
        [.set (splitDeltaEntryKey seq) (.splitDelta ⟨seq, timestamp, entry.1, entry.2⟩),
         .set splitDeltaSeqKey (.uint64 seq)] }

def appendMergeDelta (db : DBImpl) (entry : List Write × List Bytes) (timestamp : Nat) : DBImpl :=
  if entry.1.isEmpty && entry.2.isEmpty then db
  else
    let seq := db.mergeDeltaSeq + 1
    { db with
      mergeDeltaSeq := seq
      pdb := db.pdb.applyAll
        [.set (mergeDeltaEntryKey seq) (.mergeDelta ⟨seq, timestamp, entry.1, entry.2⟩),
         .set mergeDeltaSeqKey (.uint64 seq)] }

/-- `DBImpl.Batch`.  The edits of the delta logs follow those of the content in the same Pebble
batch. -/
def batch (c : Codec) (db : DBImpl) (writes : List Write) (deletes : List Bytes)
    (syncLevel : SyncLevel) (timestamp : Nat) : Except SpecialFieldError DBImpl := do
  let internalMergeCopy := syncLevel = .internalMergeCopy
  let ops ← contentOps c db internalMergeCopy timestamp writes deletes
  let splitEntry := captured db (capturesSplit db) internalMergeCopy writes deletes
  let mergeEntry := captured db (capturesMerge db) internalMergeCopy writes deletes
  return appendMergeDelta (appendSplitDelta (db.applyOps ops) splitEntry timestamp) mergeEntry
    timestamp

@[simp] theorem config_appendSplitDelta (db : DBImpl) (entry : List Write × List Bytes) (ts : Nat) :
    (appendSplitDelta db entry ts).config = db.config := by
  unfold appendSplitDelta
  split <;> rfl

@[simp] theorem config_appendMergeDelta (db : DBImpl) (entry : List Write × List Bytes) (ts : Nat) :
    (appendMergeDelta db entry ts).config = db.config := by
  unfold appendMergeDelta
  split <;> rfl

theorem config_batch {c : Codec} {db db' : DBImpl} {writes : List Write} {deletes : List Bytes}
    {syncLevel : SyncLevel} {ts : Nat} (h : batch c db writes deletes syncLevel ts = .ok db') :
    db'.config = db.config := by
  simp only [batch, Fallible.bind_eq_ok, Fallible.pure_eq_ok] at h
  obtain ⟨ops, -, rfl⟩ := h
  simp

end Antfly
