import Antfly.Store.DeltaLog
import Antfly.Store.Snapshot

/-!
The state of a shard's splits and merges lives on disk, in `DBImpl` and in `StoreDB`.  A restart
starts from empty fields, and a snapshot is installed under the fields of the running process.  In
both cases the opening loads the metadata only when it is given neither a schema nor a range; else
it loads the split state alone.  So a restart recovers the state exactly when there is nothing else
to recover, and an installed snapshot exactly when the process already holds the state that comes
with it.
-/

namespace Antfly

/-- The fields of `DBImpl` are the records of `content`. -/
structure CoreRecovered (content db : DBImpl) : Prop where
  byteRange : ∀ r, content.storedByteRange = some r → db.byteRange = r
  splitState : db.splitState = content.storedSplitState
  mergeState : db.mergeState = content.storedMergeState
  splitDeltaSeq : db.splitDeltaSeq = content.storedUint64 splitDeltaSeqKey
  splitDeltaFinalSeq : db.splitDeltaFinalSeq = content.storedUint64 splitDeltaFinalSeqKey
  mergeDeltaSeq : db.mergeDeltaSeq = content.storedUint64 mergeDeltaSeqKey
  mergeDeltaFinalSeq : db.mergeDeltaFinalSeq = content.storedUint64 mergeDeltaFinalSeqKey

/-- The fields of `DBImpl` and of `StoreDB` are the records of `content`, and the next captured
mutation gets a number above every stored entry. -/
structure Recovered (content : DBImpl) (s : StoreDB) : Prop where
  core : CoreRecovered content s.coreDB
  byteRange : s.byteRange = s.coreDB.byteRange
  splitState : s.splitState = content.storedSplitState
  mergeState : s.mergeState = content.storedMergeState
  nextSplit : ∀ n, splitDeltaLog.Stores s.coreDB.pdb n → n < s.coreDB.splitDeltaSeq + 1
  nextMerge : ∀ n, mergeDeltaLog.Stores s.coreDB.pdb n → n < s.coreDB.mergeDeltaSeq + 1

/-- The two ways a shard comes back: a restart over its directory, and an archive put in place of
it under the running process. -/
inductive RecoveryEvent where
  | restart (schema : Option Bytes) (byteRange : Range)
  | installSnapshot (archive : PebbleDB) (schema : Option Bytes)

namespace RecoveryEvent

/-- The store that is opened, with the fields in memory at that time. -/
def content (s : StoreDB) : RecoveryEvent → DBImpl
  | restart _ _ => s.coreDB.fresh
  | installSnapshot archive _ => { s.coreDB with pdb := archive }

def run (s : StoreDB) : RecoveryEvent → StoreDB
  | restart schema byteRange => s.reopen schema byteRange
  | installSnapshot archive schema => s.loadSnapshot archive schema

end RecoveryEvent

/-- A field that is loaded must be empty where the store has no record of it; a field that is not
must already hold the record. -/
def FieldKept {α : Type} (loads : Bool) (stored : Option α) (empty held : α) : Prop :=
  if loads then stored = none → held = empty else held = stored.getD empty

/-- The fields `db` holds before an opening are what its store says, as far as the opening does not
load them. -/
structure OpenSafe (db : DBImpl) (schema : Option Bytes) (given : Range) : Prop where
  byteRange : ∀ r, db.storedByteRange = some r →
    if DBImpl.rangeGiven given then r = given else schema.isSome → r = db.byteRange
  splitState : db.storedSplitState = none → db.splitState = none
  mergeState : FieldKept (DBImpl.loadsMetadata schema given)
    (db.storedMergeState.map some) none db.mergeState
  splitDeltaSeq : FieldKept (DBImpl.loadsMetadata schema given)
    (db.storedCounter splitDeltaSeqKey) 0 db.splitDeltaSeq
  splitDeltaFinalSeq : FieldKept (DBImpl.loadsMetadata schema given)
    (db.storedCounter splitDeltaFinalSeqKey) 0 db.splitDeltaFinalSeq
  mergeDeltaSeq : FieldKept (DBImpl.loadsMetadata schema given)
    (db.storedCounter mergeDeltaSeqKey) 0 db.mergeDeltaSeq
  mergeDeltaFinalSeq : FieldKept (DBImpl.loadsMetadata schema given)
    (db.storedCounter mergeDeltaFinalSeqKey) 0 db.mergeDeltaFinalSeq

/-- `StoreDB` already holds the split and merge state of the archive and the range the opening ends
with, and the archive has no delta entry above its counters. -/
structure CopiesKept (s : StoreDB) (archive : DBImpl) (schema : Option Bytes) : Prop where
  byteRange : DBImpl.rangeGiven s.byteRange = false →
    s.byteRange = if schema.isSome then archive.byteRange
      else archive.storedByteRange.getD archive.byteRange
  splitState : s.splitState = archive.storedSplitState
  mergeState : s.mergeState = archive.storedMergeState
  splitEntries : ∀ n, splitDeltaLog.Stores archive.pdb n → n ≤ splitDeltaLog.count archive.pdb
  mergeEntries : ∀ n, mergeDeltaLog.Stores archive.pdb n → n ≤ mergeDeltaLog.count archive.pdb

/-- A restart must find in its store no more than it loads; an archive must come with the state the
process has. -/
def RecoverySafe (s : StoreDB) (e : RecoveryEvent) : Prop :=
  match e with
  | .restart schema byteRange => OpenSafe (e.content s) schema byteRange
  | .installSnapshot _ schema =>
    OpenSafe (e.content s) schema s.byteRange ∧ CopiesKept s (e.content s) schema

section Opening

variable (db : DBImpl) (schema : Option Bytes) (byteRange : Range)

/-- What an opening leaves in a field that is loaded with the metadata. -/
private def opened {α : Type} (loads : Bool) (stored : Option α) (held : α) : α :=
  if loads then stored.getD held else held

private theorem opened_eq_iff {α : Type} {loads : Bool} {stored : Option α} {empty held : α} :
    opened loads stored held = stored.getD empty ↔ FieldKept loads stored empty held := by
  unfold opened FieldKept
  cases loads with
  | false => rfl
  | true => cases stored <;> simp

private theorem openInternal_counters :
    (db.openInternal schema byteRange).splitDeltaSeq =
        opened (DBImpl.loadsMetadata schema byteRange) (db.storedCounter splitDeltaSeqKey)
          db.splitDeltaSeq ∧
      (db.openInternal schema byteRange).splitDeltaFinalSeq =
        opened (DBImpl.loadsMetadata schema byteRange) (db.storedCounter splitDeltaFinalSeqKey)
          db.splitDeltaFinalSeq ∧
      (db.openInternal schema byteRange).mergeDeltaSeq =
        opened (DBImpl.loadsMetadata schema byteRange) (db.storedCounter mergeDeltaSeqKey)
          db.mergeDeltaSeq ∧
      (db.openInternal schema byteRange).mergeDeltaFinalSeq =
        opened (DBImpl.loadsMetadata schema byteRange) (db.storedCounter mergeDeltaFinalSeqKey)
          db.mergeDeltaFinalSeq := by
  cases hgiven : DBImpl.rangeGiven byteRange <;> cases schema <;>
    simp [DBImpl.openInternal, hgiven, DBImpl.loadMetadata, DBImpl.setByteRange,
      DBImpl.saveMetadata, DBImpl.applyOps, DBImpl.loadsMetadata, opened]

private theorem openInternal_mergeState_eq :
    (db.openInternal schema byteRange).mergeState =
      opened (DBImpl.loadsMetadata schema byteRange) (db.storedMergeState.map some)
        db.mergeState := by
  rw [DBImpl.openInternal_mergeState]
  unfold opened
  cases db.storedMergeState <;> rfl

/-- An opening recovers the fields of `DBImpl` exactly when those it does not load are right. -/
theorem openInternal_recovered_iff :
    CoreRecovered db (db.openInternal schema byteRange) ↔
      OpenSafe db schema byteRange := by
  obtain ⟨hseq, hfinal, hmseq, hmfinal⟩ := openInternal_counters db schema byteRange
  have hmerge := openInternal_mergeState_eq db schema byteRange
  have hsplit := DBImpl.openInternal_splitState db schema byteRange
  have hrange : (∀ r, db.storedByteRange = some r →
      (db.openInternal schema byteRange).byteRange = r) ↔
      ∀ r, db.storedByteRange = some r →
        if DBImpl.rangeGiven byteRange then r = byteRange
        else schema.isSome → r = db.byteRange := by
    refine forall₂_congr fun r hr => ?_
    rw [DBImpl.openInternal_byteRange, hr]
    cases DBImpl.rangeGiven byteRange <;> cases schema <;> simp [eq_comm]
  have hstored : db.storedMergeState = (db.storedMergeState.map some).getD none := by
    cases db.storedMergeState <;> rfl
  constructor
  · intro h
    refine ⟨hrange.mp h.byteRange, fun hnone => ?_, opened_eq_iff.mp ?_, opened_eq_iff.mp ?_,
      opened_eq_iff.mp ?_, opened_eq_iff.mp ?_, opened_eq_iff.mp ?_⟩
    · have hstate := hsplit.symm.trans h.splitState
      rwa [hnone, Option.none_or] at hstate
    · exact hmerge.symm.trans (h.mergeState.trans hstored)
    · exact hseq.symm.trans h.splitDeltaSeq
    · exact hfinal.symm.trans h.splitDeltaFinalSeq
    · exact hmseq.symm.trans h.mergeDeltaSeq
    · exact hmfinal.symm.trans h.mergeDeltaFinalSeq
  · intro h
    refine ⟨hrange.mpr h.byteRange, hsplit.trans ?_, hmerge.trans ?_, hseq.trans ?_,
      hfinal.trans ?_, hmseq.trans ?_, hmfinal.trans ?_⟩
    · cases hstate : db.storedSplitState with
      | none => exact h.splitState hstate
      | some st => rfl
    · exact (opened_eq_iff.mpr h.mergeState).trans hstored.symm
    · exact opened_eq_iff.mpr h.splitDeltaSeq
    · exact opened_eq_iff.mpr h.splitDeltaFinalSeq
    · exact opened_eq_iff.mpr h.mergeDeltaSeq
    · exact opened_eq_iff.mpr h.mergeDeltaFinalSeq

theorem openInternal_stores_iff {log : CountedLog Bytes Stored}
    (hlog : ∀ x, DBImpl.IsSavedKey x → ¬ log.isEntry x) (n : ℕ) :
    log.Stores (db.openInternal schema byteRange).pdb n ↔ log.Stores db.pdb n := by
  have hget : ∀ x, log.isEntry x →
      (db.openInternal schema byteRange).pdb.get? x = db.pdb.get? x := fun x hx =>
    DBImpl.openInternal_get?_of_ne db schema byteRange fun hsaved => hlog x hsaved hx
  constructor
  · rintro ⟨x, v, hx, hv, hn⟩
    exact ⟨x, v, hx, (hget x hx).symm.trans hv, hn⟩
  · rintro ⟨x, v, hx, hv, hn⟩
    exact ⟨x, v, hx, (hget x hx).trans hv, hn⟩

theorem openInternal_count_eq {log : CountedLog Bytes Stored}
    (hlog : ¬ DBImpl.IsSavedKey log.counterKey) :
    log.count (db.openInternal schema byteRange).pdb = log.count db.pdb := by
  have hget := DBImpl.openInternal_get?_of_ne db schema byteRange hlog
  change (((db.openInternal schema byteRange).get? log.counterKey).bind log.counter).getD 0 =
    _
  rw [hget]
  rfl

end Opening

section Events

variable {s : StoreDB}

private theorem not_splitEntry_of_saved (x : Bytes) (hx : DBImpl.IsSavedKey x) :
    ¬ splitDeltaLog.isEntry x :=
  (by decide : ∀ x ∈ [versionKey, schemaKey, byteRangeKey, indexesKey], ¬ splitDeltaPrefix <+: x)
    x hx

private theorem not_mergeEntry_of_saved (x : Bytes) (hx : DBImpl.IsSavedKey x) :
    ¬ mergeDeltaLog.isEntry x :=
  (by decide : ∀ x ∈ [versionKey, schemaKey, byteRangeKey, indexesKey], ¬ mergeDeltaPrefix <+: x)
    x hx

theorem RecoveryEvent.run_coreDB (s : StoreDB) (e : RecoveryEvent) :
    ∃ schema byteRange,
      (e.run s).coreDB = (e.content s).openInternal schema byteRange := by
  cases e with
  | restart schema byteRange => exact ⟨schema, byteRange, rfl⟩
  | installSnapshot archive schema => exact ⟨schema, s.byteRange, rfl⟩

/-- Entries of the opened store that are at most its counters give numbers below the next one, once
the counters are recovered. -/
private theorem next_of_entries {e : RecoveryEvent}
    (hcore : CoreRecovered (e.content s) (e.run s).coreDB)
    (hsplit : ∀ n, splitDeltaLog.Stores (e.content s).pdb n →
      n ≤ splitDeltaLog.count (e.content s).pdb)
    (hmerge : ∀ n, mergeDeltaLog.Stores (e.content s).pdb n →
      n ≤ mergeDeltaLog.count (e.content s).pdb) :
    (∀ n, splitDeltaLog.Stores (e.run s).coreDB.pdb n → n < (e.run s).coreDB.splitDeltaSeq + 1) ∧
      ∀ n, mergeDeltaLog.Stores (e.run s).coreDB.pdb n →
        n < (e.run s).coreDB.mergeDeltaSeq + 1 := by
  rw [hcore.splitDeltaSeq, hcore.mergeDeltaSeq, storedUint64_split, storedUint64_merge]
  obtain ⟨schema, byteRange, hrun⟩ := RecoveryEvent.run_coreDB s e
  rw [hrun]
  refine ⟨fun n hn => ?_, fun n hn => ?_⟩
  · rw [openInternal_stores_iff _ _ _ not_splitEntry_of_saved] at hn
    exact Nat.lt_succ_of_le (hsplit n hn)
  · rw [openInternal_stores_iff _ _ _ not_mergeEntry_of_saved] at hn
    exact Nat.lt_succ_of_le (hmerge n hn)

theorem Recovered.logsBounded {e : RecoveryEvent} (h : Recovered (e.content s) (e.run s)) :
    LogsBounded (e.run s).coreDB := by
  have hsplit := h.core.splitDeltaSeq
  have hmerge := h.core.mergeDeltaSeq
  have hnextSplit := h.nextSplit
  have hnextMerge := h.nextMerge
  rw [storedUint64_split] at hsplit
  rw [storedUint64_merge] at hmerge
  obtain ⟨schema, byteRange, hrun⟩ := RecoveryEvent.run_coreDB s e
  rw [hrun] at hsplit hmerge hnextSplit hnextMerge ⊢
  refine ⟨⟨fun n hn => ?_, ?_⟩, ⟨fun n hn => ?_, ?_⟩⟩
  · rw [openInternal_count_eq _ _ _ (by decide), ← hsplit]
    exact Nat.le_of_lt_succ (hnextSplit n hn)
  · rw [openInternal_count_eq _ _ _ (by decide), hsplit]
  · rw [openInternal_count_eq _ _ _ (by decide), ← hmerge]
    exact Nat.le_of_lt_succ (hnextMerge n hn)
  · rw [openInternal_count_eq _ _ _ (by decide), hmerge]

/-- One event recovers the state exactly when it is safe; before a restart the logs are bounded. -/
theorem recovered_iff (hs : LogsBounded s.coreDB) (e : RecoveryEvent) :
    Recovered (e.content s) (e.run s) ↔ RecoverySafe s e := by
  cases e with
  | restart schema byteRange =>
    have hcore := openInternal_recovered_iff s.coreDB.fresh schema byteRange
    constructor
    · intro h
      exact hcore.mp h.core
    · intro h
      have hrec := hcore.mpr h
      obtain ⟨hsplit, hmerge⟩ := next_of_entries (s := s)
        (e := .restart schema byteRange) hrec hs.split.entries hs.merge.entries
      exact ⟨hrec, rfl, hrec.splitState, hrec.mergeState, hsplit, hmerge⟩
  | installSnapshot archive schema =>
    set db : DBImpl := { s.coreDB with pdb := archive } with hdb
    have hcore := openInternal_recovered_iff db schema s.byteRange
    have hrange : s.byteRange = (db.openInternal schema s.byteRange).byteRange ↔
        (DBImpl.rangeGiven s.byteRange = false → s.byteRange =
          if schema.isSome then db.byteRange else db.storedByteRange.getD db.byteRange) := by
      rw [DBImpl.openInternal_byteRange]
      cases DBImpl.rangeGiven s.byteRange <;> simp
    constructor
    · intro h
      have hsplit := h.nextSplit
      have hmerge := h.nextMerge
      rw [h.core.splitDeltaSeq, storedUint64_split] at hsplit
      rw [h.core.mergeDeltaSeq, storedUint64_merge] at hmerge
      refine ⟨hcore.mp h.core, hrange.mp h.byteRange, h.splitState, h.mergeState,
        fun n hn => ?_, fun n hn => ?_⟩
      · refine Nat.le_of_lt_succ (hsplit n ?_)
        exact (openInternal_stores_iff db schema s.byteRange
          not_splitEntry_of_saved n).mpr hn
      · refine Nat.le_of_lt_succ (hmerge n ?_)
        exact (openInternal_stores_iff db schema s.byteRange
          not_mergeEntry_of_saved n).mpr hn
    · rintro ⟨hopen, hcopies⟩
      have hrec := hcore.mpr hopen
      obtain ⟨hsplit, hmerge⟩ := next_of_entries (s := s)
        (e := .installSnapshot archive schema) hrec hcopies.splitEntries
        hcopies.mergeEntries
      exact ⟨hrec, hrange.mpr hcopies.byteRange, hcopies.splitState, hcopies.mergeState, hsplit,
        hmerge⟩

end Events

/-- The states a shard reaches from its creation when its operations stay clear of the metadata and
every restart and installed snapshot is safe. -/
inductive RecoveryRun (c : Codec) : StoreDB → Prop where
  | create (r : Range) : RecoveryRun c (StoreDB.create r)
  | apply {s : StoreDB} {op : RaftOp} : RecoveryRun c s → op.ClearOfMetadata s →
      RecoveryRun c (s.applyOp c op).1
  | recover {s : StoreDB} {e : RecoveryEvent} : RecoveryRun c s → RecoverySafe s e →
      RecoveryRun c (e.run s)

private theorem create_logsBounded (r : Range) : LogsBounded (StoreDB.create r).coreDB := by
  have hnone : ∀ x, ¬ DBImpl.IsSavedKey x → (StoreDB.create r).coreDB.get? x = none :=
    fun x hx => DBImpl.openInternal_get?_of_ne DBImpl.empty.fresh none r hx
  have hbounded : ∀ (log : CountedLog Bytes Stored) (next : ℕ),
      (∀ x, DBImpl.IsSavedKey x → ¬ log.isEntry x) → ¬ DBImpl.IsSavedKey log.counterKey →
      log.Bounded (StoreDB.create r).coreDB.pdb next := by
    intro log next hentry hcounter
    have hentries : ∀ x, log.isEntry x → (StoreDB.create r).coreDB.get? x = none :=
      fun x hx => hnone x fun hsaved => hentry x hsaved hx
    exact CountedLog.bounded_of_cleared (hnone _ hcounter) hentries next
  exact ⟨hbounded _ _ not_splitEntry_of_saved (by decide),
    hbounded _ _ not_mergeEntry_of_saved (by decide)⟩

theorem RecoveryRun.logsBounded {c : Codec} {s : StoreDB} (h : RecoveryRun c s) :
    LogsBounded s.coreDB := by
  induction h with
  | create r => exact create_logsBounded r
  | apply _ hop ih => exact StoreDB.applyOp_logsBounded c hop ih
  | recover _ hsafe ih => exact ((recovered_iff ih _).mpr hsafe).logsBounded

/-- Along every run whose steps are safe, a restart or an installed snapshot recovers the protocol
state exactly when it is safe itself. -/
theorem recovery_preserves_state_iff {c : Codec} {s : StoreDB} (hrun : RecoveryRun c s)
    (e : RecoveryEvent) : Recovered (e.content s) (e.run s) ↔ RecoverySafe s e :=
  recovered_iff hrun.logsBounded e

/-- The keys below `z`, split at `m`, after a delete of `n` was captured for the child. -/
def capturingStore : StoreDB :=
  (StoreDB.create ⟨[], ascii ['z']⟩).applyLog Codec.emptyObject
    [.setSplitState (some ⟨.prepare, ascii ['m'], 2, 0, ascii ['z']⟩),
      .batch [] [ascii ['n']] [] .write 5]

theorem capturingStore_run : RecoveryRun Codec.emptyObject capturingStore :=
  .apply (.apply (.create _) trivial)
    ⟨by decide, by decide, by decide⟩

/-- A restart with the range of the shard forgets the number of the captured delta, so that the
next one overwrites it. -/
theorem restart_forgets_delta_sequence :
    ∃ e : RecoveryEvent, RecoveryRun Codec.emptyObject capturingStore ∧
      ¬ Recovered (e.content capturingStore) (e.run capturingStore) := by
  refine ⟨.restart none ⟨[], ascii ['z']⟩, capturingStore_run, fun h => ?_⟩
  have hseq := h.core.splitDeltaSeq
  revert hseq
  decide

theorem recovery_preserves_state_sample :
    Recovered ((RecoveryEvent.restart none ⟨[], []⟩).content capturingStore)
        ((RecoveryEvent.restart none ⟨[], []⟩).run capturingStore) ↔
      RecoverySafe capturingStore (.restart none ⟨[], []⟩) :=
  recovery_preserves_state_iff capturingStore_run (.restart none ⟨[], []⟩)

end Antfly
