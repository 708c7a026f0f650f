import Antfly.Store.Batch

/-!
Each setter writes the record under its metadata key and then updates the field in memory, as the
source does.  Pebble writes are taken to succeed; the source logs a failure or stops the process.
-/

namespace Antfly

namespace DBImpl

def setByteRange (db : DBImpl) (r : Range) : DBImpl := { db with byteRange := r }

def setRange (db : DBImpl) (r : Range) : DBImpl :=
  (db.applyOps [.set byteRangeKey (.byteRange r)]).setByteRange r

def clearSplitState (db : DBImpl) : DBImpl :=
  { db.applyOps [.delete splitStateKey] with splitState := none }

def setSplitState (db : DBImpl) : Option SplitState → DBImpl
  | none => db.clearSplitState
  | some st => { db.applyOps [.set splitStateKey (.splitState st)] with splitState := some st }

def clearMergeState (db : DBImpl) : DBImpl :=
  { db.applyOps [.delete mergeStateKey] with mergeState := none }

def setMergeState (db : DBImpl) : Option MergeState → DBImpl
  | none => db.clearMergeState
  | some st => { db.applyOps [.set mergeStateKey (.mergeState st)] with mergeState := some st }

def setSplitDeltaFinalSeq (db : DBImpl) (seq : Nat) : DBImpl :=
  { db.applyOps [.set splitDeltaFinalSeqKey (.uint64 seq)] with splitDeltaFinalSeq := seq }

def clearSplitDeltaFinalSeq (db : DBImpl) : DBImpl :=
  { db.applyOps [.delete splitDeltaFinalSeqKey] with splitDeltaFinalSeq := 0 }

def clearMergeDeltaFinalSeq (db : DBImpl) : DBImpl :=
  { db.applyOps [.delete mergeDeltaFinalSeqKey] with mergeDeltaFinalSeq := 0 }

/-- Drops the split delta log and resets its counters. -/
def clearSplitDeltaEntries (db : DBImpl) : DBImpl :=
  { db.applyOps
      [.deleteRange splitDeltaPrefix (prefixSuccessor splitDeltaPrefix),
       .delete splitDeltaSeqKey, .delete splitDeltaFinalSeqKey] with
    splitDeltaSeq := 0
    splitDeltaFinalSeq := 0 }

def clearMergeDeltaEntries (db : DBImpl) : DBImpl :=
  { db.applyOps
      [.deleteRange mergeDeltaPrefix (prefixSuccessor mergeDeltaPrefix),
       .delete mergeDeltaSeqKey, .delete mergeDeltaFinalSeqKey] with
    mergeDeltaSeq := 0
    mergeDeltaFinalSeq := 0 }

/-- The split delta entries with a sequence above `afterSeq`, in key order. -/
def listSplitDeltaEntriesAfter (db : DBImpl) (afterSeq : Nat) : List DeltaEntry :=
  (db.pdb.scan (splitDeltaEntryKey (afterSeq + 1)) (prefixSuccessor splitDeltaPrefix)).filterMap
    fun e => match e.2 with
      | .splitDelta entry => some entry
      | _ => none

/-- The tombstones that cut a store down to a range: everything between the metadata and the
start, and everything from the end on. -/
def trimOps (start stop : Bytes) : List PebbleOp :=
  [.deleteRange (prefixSuccessor metadataPrefix) start, .deleteRange stop rangeEndSentinel]

/-- `finalizeSplitInternal` with the index work left out: deletes the data outside the range,
persists and adopts it. -/
def finalizeSplit (db : DBImpl) (newRange : Range) : DBImpl :=
  (db.applyOps (.set byteRangeKey (.byteRange newRange) ::
    trimOps newRange.start newRange.stop)).setByteRange newRange

def deleteDataRange (db : DBImpl) (r : Range) : DBImpl :=
  db.applyOps [.deleteRange r.start r.endForPebble]

def storedByteRange (db : DBImpl) : Option Range :=
  match db.get? byteRangeKey with
  | some (.byteRange r) => some r
  | _ => none

def storedSchema (db : DBImpl) : Option Bytes :=
  match db.get? schemaKey with
  | some (.schema json) => some json
  | _ => none

/-- The stored configurations of the indexes; an empty record counts as none. -/
def storedIndexes (db : DBImpl) : Option (List (Bytes × IndexConfig)) :=
  match db.get? indexesKey with
  | some (.indexes configs) => if configs.isEmpty then none else some configs
  | _ => none

def storedSplitState (db : DBImpl) : Option SplitState :=
  match db.get? splitStateKey with
  | some (.splitState st) => some st
  | _ => none

def storedMergeState (db : DBImpl) : Option MergeState :=
  match db.get? mergeStateKey with
  | some (.mergeState st) => some st
  | _ => none

def storedCounter (db : DBImpl) (key : Bytes) : Option Nat :=
  match db.get? key with
  | some (.uint64 n) => some n
  | _ => none

/-- The value a stored counter stands for; a missing one is zero. -/
def storedUint64 (db : DBImpl) (key : Bytes) : Nat := (db.storedCounter key).getD 0

/-- `loadMetadata`: what the store keeps about the shard replaces what is in memory.  A record the
store does not keep leaves memory as it is. -/
def loadMetadata (db : DBImpl) : DBImpl :=
  { db with
    schema := db.storedSchema.or db.schema
    byteRange := db.storedByteRange.getD db.byteRange
    indexes := db.storedIndexes.getD db.indexes
    splitState := db.storedSplitState.or db.splitState
    mergeState := db.storedMergeState.or db.mergeState
    splitDeltaSeq := (db.storedCounter splitDeltaSeqKey).getD db.splitDeltaSeq
    splitDeltaFinalSeq := (db.storedCounter splitDeltaFinalSeqKey).getD db.splitDeltaFinalSeq
    mergeDeltaSeq := (db.storedCounter mergeDeltaSeqKey).getD db.mergeDeltaSeq
    mergeDeltaFinalSeq := (db.storedCounter mergeDeltaFinalSeqKey).getD db.mergeDeltaFinalSeq }

def currentStorageVersion : Nat := 1

/-- What `saveMetadata` writes under a key. -/
def metadataRecord (db : DBImpl) (x : Bytes) : Option Stored :=
  if x = versionKey then some (.version currentStorageVersion)
  else if x = schemaKey then db.schema.map .schema
  else if x = byteRangeKey then some (.byteRange db.byteRange)
  else if x = indexesKey then some (.indexes db.indexes)
  else none

def saveMetadata (db : DBImpl) : DBImpl :=
  db.applyOps
    ([.set versionKey (.version currentStorageVersion)] ++
      (db.schema.map fun json => OrdMap.Edit.set schemaKey (.schema json)).toList ++
      [.set byteRangeKey (.byteRange db.byteRange), .set indexesKey (.indexes db.indexes)])

/-- A range given at startup has a bound. -/
def rangeGiven (byteRange : Range) : Bool :=
  !byteRange.start.isEmpty || !byteRange.stop.isEmpty

/-- The metadata is loaded only when neither a schema nor a range is given. -/
def loadsMetadata (schema : Option Bytes) (byteRange : Range) : Bool :=
  schema.isNone && !rangeGiven byteRange

/-- `openInternal` over the fields `db` has in memory.  A given schema or range wins, the split state
is loaded in any case, and the metadata is saved again. -/
def openInternal (db : DBImpl) (schema : Option Bytes) (byteRange : Range) : DBImpl :=
  let loaded := if loadsMetadata schema byteRange then db.loadMetadata else db
  let given := { loaded with schema := schema.or loaded.schema }
  let ranged := if rangeGiven byteRange then given.setByteRange byteRange else given
  saveMetadata { ranged with splitState := ranged.storedSplitState.or ranged.splitState }

/-- The fields of a `DBImpl` that has not been opened, over the store of `db`.  The index
configurations and the schema's time to live are carried over. -/
def fresh (db : DBImpl) : DBImpl where
  pdb := db.pdb
  byteRange := ⟨[], []⟩
  splitState := none
  mergeState := none
  splitDeltaSeq := 0
  splitDeltaFinalSeq := 0
  mergeDeltaSeq := 0
  mergeDeltaFinalSeq := 0
  indexes := db.indexes
  schema := none
  cachedTTLDuration := db.cachedTTLDuration

/-- `Open` after a restart. -/
def reopen (db : DBImpl) (schema : Option Bytes) (byteRange : Range) : DBImpl :=
  db.fresh.openInternal schema byteRange

/-- `UpdateRange`: the trim goes to disk after the range record, and the store is opened again over
the same fields. -/
def updateRange (db : DBImpl) (r : Range) : DBImpl :=
  ((db.applyOps (.set byteRangeKey (.byteRange r) :: trimOps r.start r.endForPebble)).setByteRange
    r).openInternal db.schema r

theorem saveMetadata_get? (db : DBImpl) (x : Bytes) :
    db.saveMetadata.get? x = (db.metadataRecord x).or (db.get? x) := by
  unfold saveMetadata metadataRecord
  rw [get?_applyOps]
  by_cases hversion : x = versionKey
  · rw [if_pos hversion, hversion]
    cases db.schema <;> rfl
  · rw [if_neg hversion]
    by_cases hschema : x = schemaKey
    · rw [if_pos hschema, hschema]
      cases db.schema <;> rfl
    · rw [if_neg hschema]
      by_cases hrange : x = byteRangeKey
      · rw [if_pos hrange, hrange]
        cases db.schema <;> rfl
      · rw [if_neg hrange]
        by_cases hindexes : x = indexesKey
        · rw [if_pos hindexes, hindexes]
          cases db.schema <;> rfl
        · cases db.schema <;> simp [OrdMap.lastEffect, OrdMap.Edit.effect, *]

section Opened

variable (db : DBImpl) (schema : Option Bytes) (byteRange : Range)

theorem openInternal_schema : (db.openInternal schema byteRange).schema =
    schema.or (if loadsMetadata schema byteRange then db.storedSchema.or db.schema
      else db.schema) := by
  cases hgiven : rangeGiven byteRange <;> cases schema <;>
    simp [openInternal, loadsMetadata, hgiven, loadMetadata, setByteRange, saveMetadata, applyOps]

theorem openInternal_byteRange : (db.openInternal schema byteRange).byteRange =
    if rangeGiven byteRange then byteRange
    else if schema.isSome then db.byteRange else db.storedByteRange.getD db.byteRange := by
  cases hgiven : rangeGiven byteRange <;> cases schema <;>
    simp [openInternal, loadsMetadata, hgiven, loadMetadata, setByteRange, saveMetadata, applyOps]

theorem openInternal_indexes : (db.openInternal schema byteRange).indexes =
    if loadsMetadata schema byteRange then db.storedIndexes.getD db.indexes else db.indexes := by
  cases hgiven : rangeGiven byteRange <;> cases schema <;>
    simp [openInternal, loadsMetadata, hgiven, loadMetadata, setByteRange, saveMetadata, applyOps]

theorem openInternal_splitState : (db.openInternal schema byteRange).splitState =
    db.storedSplitState.or db.splitState := by
  have hstored : ∀ db' : DBImpl, db'.pdb = db.pdb → db'.storedSplitState = db.storedSplitState := by
    intro db' h
    simp [storedSplitState, get?, h]
  cases hgiven : rangeGiven byteRange <;> cases schema <;>
    simp [openInternal, loadsMetadata, hgiven, loadMetadata, setByteRange, saveMetadata, applyOps,
      hstored, ← Option.or_assoc]

theorem openInternal_mergeState : (db.openInternal schema byteRange).mergeState =
    if loadsMetadata schema byteRange then db.storedMergeState.or db.mergeState
    else db.mergeState := by
  cases hgiven : rangeGiven byteRange <;> cases schema <;>
    simp [openInternal, loadsMetadata, hgiven, loadMetadata, setByteRange, saveMetadata, applyOps]

/-- The store keeps what it held, except for the metadata that is saved again. -/
theorem openInternal_get? (x : Bytes) : (db.openInternal schema byteRange).get? x =
    ((db.openInternal schema byteRange).metadataRecord x).or (db.get? x) := by
  have hpdb : ∃ opened : DBImpl, db.openInternal schema byteRange = opened.saveMetadata ∧
      opened.pdb = db.pdb := by
    refine ⟨_, rfl, ?_⟩
    cases hgiven : rangeGiven byteRange <;> cases schema <;>
      simp [loadsMetadata, hgiven, loadMetadata, setByteRange]
  obtain ⟨opened, heq, hpdb⟩ := hpdb
  have hget : opened.get? x = db.get? x := by rw [get?, hpdb, get?]
  rw [heq, saveMetadata_get?, hget]
  rfl

/-- The keys `saveMetadata` writes. -/
def IsSavedKey (x : Bytes) : Prop := x ∈ [versionKey, schemaKey, byteRangeKey, indexesKey]

instance decidableIsSavedKey (x : Bytes) : Decidable (IsSavedKey x) :=
  inferInstanceAs (Decidable (x ∈ _))

theorem IsSavedKey.metadata {x : Bytes} (h : IsSavedKey x) : metadataPrefix <+: x := by
  simp only [IsSavedKey, List.mem_cons, List.not_mem_nil, or_false] at h
  rcases h with rfl | rfl | rfl | rfl <;> exact List.prefix_append _ _

theorem openInternal_get?_of_ne {x : Bytes} (hx : ¬ IsSavedKey x) :
    (db.openInternal schema byteRange).get? x = db.get? x := by
  simp only [IsSavedKey, List.mem_cons, List.not_mem_nil, or_false, not_or] at hx
  rw [openInternal_get?, metadataRecord, if_neg hx.1, if_neg hx.2.1, if_neg hx.2.2.1,
    if_neg hx.2.2.2, Option.none_or]

theorem reopen_byteRange : (db.reopen schema byteRange).byteRange =
    if rangeGiven byteRange then byteRange
    else if schema.isSome then ⟨[], []⟩ else db.storedByteRange.getD ⟨[], []⟩ :=
  openInternal_byteRange db.fresh schema byteRange

theorem reopen_splitState : (db.reopen schema byteRange).splitState = db.storedSplitState := by
  have h := openInternal_splitState db.fresh schema byteRange
  rwa [show db.fresh.splitState = none from rfl, Option.or_none] at h

theorem reopen_mergeState : (db.reopen schema byteRange).mergeState =
    if loadsMetadata schema byteRange then db.storedMergeState else none := by
  have h := openInternal_mergeState db.fresh schema byteRange
  rwa [show db.fresh.mergeState = none from rfl, Option.or_none] at h

theorem reopen_get? (x : Bytes) : (db.reopen schema byteRange).get? x =
    ((db.reopen schema byteRange).metadataRecord x).or (db.get? x) :=
  openInternal_get? db.fresh schema byteRange x

theorem reopen_get?_of_ne {x : Bytes} (hx : ¬ IsSavedKey x) :
    (db.reopen schema byteRange).get? x = db.get? x :=
  openInternal_get?_of_ne db.fresh schema byteRange hx

end Opened

end DBImpl

end Antfly
