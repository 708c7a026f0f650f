import Antfly.Lib.CountedLog
import Antfly.Store.RangeTrim
import Antfly.Store.Resolution

/-!
The mutations captured during a split or a merge are numbered, and the last number is kept in
memory and on disk.  Every operation leaves the stored numbers at most the stored counter, and the
counter at most the number in memory, unless one of its ids or bounds starts with the prefix of the
metadata: such a tombstone can end between the entries and their counter.
-/

namespace Antfly

open List Fallible

def storedCount : Stored → Option ℕ
  | .uint64 n => some n
  | _ => none

def splitDeltaLog : CountedLog Bytes Stored where
  isEntry x := splitDeltaPrefix <+: x
  counterKey := splitDeltaSeqKey
  sequence
    | .splitDelta e => some e.sequence
    | _ => none
  counter := storedCount
  lt_counterKey _ hx := lt_of_lt_of_le (lt_prefixSuccessor (by decide) hx) (by decide)

def mergeDeltaLog : CountedLog Bytes Stored where
  isEntry x := mergeDeltaPrefix <+: x
  counterKey := mergeDeltaSeqKey
  sequence
    | .mergeDelta e => some e.sequence
    | _ => none
  counter := storedCount
  lt_counterKey _ hx := lt_of_lt_of_le (lt_prefixSuccessor (by decide) hx) (by decide)

theorem storedUint64_eq (db : DBImpl) (key : Bytes) :
    db.storedUint64 key = ((db.get? key).bind storedCount).getD 0 := by
  unfold DBImpl.storedUint64 DBImpl.storedCounter
  cases db.get? key with
  | none => rfl
  | some v => cases v <;> rfl

theorem storedUint64_split (db : DBImpl) :
    db.storedUint64 splitDeltaSeqKey = splitDeltaLog.count db.pdb :=
  storedUint64_eq db splitDeltaSeqKey

theorem storedUint64_merge (db : DBImpl) :
    db.storedUint64 mergeDeltaSeqKey = mergeDeltaLog.count db.pdb :=
  storedUint64_eq db mergeDeltaSeqKey

/-- Both delta logs are bounded by the numbers held in memory. -/
structure LogsBounded (db : DBImpl) : Prop where
  split : splitDeltaLog.Bounded db.pdb db.splitDeltaSeq
  merge : mergeDeltaLog.Bounded db.pdb db.mergeDeltaSeq

def SparesLogs (e : PebbleOp) : Prop := splitDeltaLog.Spares e ∧ mergeDeltaLog.Spares e

theorem LogsBounded.of_ops {db db' : DBImpl} (h : LogsBounded db) (ops : List PebbleOp)
    (hpdb : db'.pdb = db.pdb.applyAll ops) (hsplit : db'.splitDeltaSeq = db.splitDeltaSeq)
    (hmerge : db'.mergeDeltaSeq = db.mergeDeltaSeq) (hops : ∀ e ∈ ops, SparesLogs e) :
    LogsBounded db' := by
  refine ⟨?_, ?_⟩
  · rw [hpdb, hsplit]
    exact h.split.applyAll fun e he => (hops e he).1
  · rw [hpdb, hmerge]
    exact h.merge.applyAll fun e he => (hops e he).2

theorem sparesLogs_of_effect {e : PebbleOp}
    (h : ∀ y, metadataPrefix <+: y → e.effect y = none) : SparesLogs e := by
  refine ⟨CountedLog.spares_of_effect fun y hy => h y ?_,
    CountedLog.spares_of_effect fun y hy => h y ?_⟩
  · rcases hy with hy | rfl
    · exact List.IsPrefix.trans (by decide) hy
    · decide
  · rcases hy with hy | rfl
    · exact List.IsPrefix.trans (by decide) hy
    · decide

/-- A range tombstone that starts outside the metadata takes all of it or nothing from its lower
part. -/
theorem sparesLogs_deleteRange {lo : Bytes} (hlo : ¬ metadataPrefix <+: lo) (hi : Bytes) :
    SparesLogs (.deleteRange lo hi) := by
  have hle : ∀ t, lo ≤ metadataPrefix ++ t → lo ≤ metadataPrefix := fun t hkey =>
    not_lt.mp fun hgt => by
      rcases eq_or_lt_of_le hkey with rfl | hlt
      · exact hlo (prefix_append _ _)
      · exact hlo (Lex.prefix_of_mem_Ico hgt.le hlt)
  have hentry : ∀ pre x : Bytes, metadataPrefix <+: pre → pre <+: x → metadataPrefix ≤ x :=
    fun pre x hpre hx => Lex.le_of_prefix (hpre.trans hx)
  exact ⟨fun hkey _ x hx => (hle _ hkey).trans (hentry _ x (by decide) hx),
    fun hkey _ x hx => (hle _ hkey).trans (hentry _ x (by decide) hx)⟩

variable {u y : Bytes}

/-- No metadata key continues an id by a colon, which the metadata prefix does not contain. -/
theorem metadata_not_continues (hu : ¬ metadataPrefix <+: u) (hy : metadataPrefix <+: y) :
    ¬ u ++ [58] <+: y := by
  intro h
  rcases le_or_gt metadataPrefix.length u.length with hlen | hlen
  · exact hu (prefix_of_prefix_length_le hy ((prefix_append u _).trans h) hlen)
  · have hpre : u ++ [58] <+: metadataPrefix := by
      refine prefix_of_prefix_length_le h hy ?_
      rw [length_append, length_singleton]
      exact hlen
    have hcolon : (58 : UInt8) ∈ metadataPrefix := hpre.subset (by simp)
    revert hcolon
    decide

theorem metadata_not_touchedBy (hu : ¬ metadataPrefix <+: u) (hy : metadataPrefix <+: y) :
    ¬ TouchedBy u y := by
  intro h
  obtain ⟨r, rfl⟩ := h.eq_append
  exact metadata_not_continues hu hy ⟨r, by simp⟩

theorem sparesLogs_tombstone {k : Bytes} (hk : ¬ metadataPrefix <+: k) :
    SparesLogs (deleteTombstone k) :=
  sparesLogs_deleteRange hk _

section Batches

variable {c : Codec} {db : DBImpl}

variable {ts : ℕ} {w : Write} {ops : List PebbleOp} {writes : List Write} {deletes : List Bytes}
variable {syncLevel : SyncLevel} {transforms : List Transform}

theorem storeWriteOps_sparesLogs (hw : ¬ metadataPrefix <+: w.1)
    (h : storeWriteOps c db ts w = .ok ops) :
    ∀ e ∈ ops, SparesLogs e := by
  have hraw : SparesLogs (rawSet w) := by
    refine sparesLogs_of_effect fun y hy => ?_
    have hne : y ≠ w.1 := fun heq => hw (heq ▸ hy)
    simp [rawSet, OrdMap.Edit.effect, hne]
  unfold storeWriteOps at h
  intro e he
  split at h
  · cases h
    split at he
    · cases he
    · rwa [mem_singleton.mp he]
  · cases h
    split at he
    · cases he
    · rwa [mem_singleton.mp he]
  · exact sparesLogs_of_effect fun y hy =>
      documentWriteOps_not_touched (metadata_not_touchedBy hw hy) h e he

theorem contentOps_sparesLogs {bypass : Bool} (hw : ∀ w ∈ writes, ¬ metadataPrefix <+: w.1)
    (hd : ∀ k ∈ deletes, ¬ metadataPrefix <+: k)
    (h : contentOps c db bypass ts writes deletes = .ok ops) :
    ∀ e ∈ ops, SparesLogs e := by
  simp only [contentOps, bind_eq_ok, pure_eq_ok] at h
  obtain ⟨ws, hws, rfl⟩ := h
  intro e he
  rcases mem_append.mp he with he | he
  · obtain ⟨ops, hops, he⟩ := mem_flatten.mp he
    obtain ⟨w, hmem, hwrite⟩ := exists_of_mem_mapM hws hops
    unfold writeOps at hwrite
    split at hwrite
    · exact storeWriteOps_sparesLogs (hw w hmem) hwrite e he
    · cases hwrite
      cases he
  · obtain ⟨k, hk, he⟩ := mem_flatMap.mp he
    unfold deleteOps at he
    split at he
    · rw [mem_singleton.mp he]
      exact sparesLogs_tombstone (hd k hk)
    · cases he

theorem not_prefix_append {p q : Bytes} (h : ¬ p <+: q) (hlen : p.length ≤ q.length)
    (r : Bytes) : ¬ p <+: q ++ r := fun hpre =>
  h (prefix_of_prefix_length_le hpre (prefix_append q r) hlen)

private theorem append_ne {q x : Bytes} (h : ¬ q <+: x) (r : Bytes) : q ++ r ≠ x := by
  rintro rfl
  exact h (prefix_append q r)

theorem LogsBounded.appendSplitDelta (h : LogsBounded db) (entry : List Write × List Bytes)
    (ts : ℕ) : LogsBounded (appendSplitDelta db entry ts) := by
  unfold Antfly.appendSplitDelta
  split
  · exact h
  · refine ⟨h.split.append (prefix_append _ _) rfl rfl, h.merge.applyAll fun e he => ?_⟩
    simp only [mem_cons, not_mem_nil, or_false] at he
    rcases he with rfl | rfl
    · exact ⟨append_ne (by decide) _, not_prefix_append (by decide) (by decide) _⟩
    · have hne : splitDeltaSeqKey ≠ mergeDeltaSeqKey := by decide
      have hentry : ¬ mergeDeltaPrefix <+: splitDeltaSeqKey := by decide
      exact ⟨hne, hentry⟩

theorem LogsBounded.appendMergeDelta (h : LogsBounded db) (entry : List Write × List Bytes)
    (ts : ℕ) : LogsBounded (appendMergeDelta db entry ts) := by
  unfold Antfly.appendMergeDelta
  split
  · exact h
  · refine ⟨h.split.applyAll fun e he => ?_, h.merge.append (prefix_append _ _) rfl rfl⟩
    simp only [mem_cons, not_mem_nil, or_false] at he
    rcases he with rfl | rfl
    · exact ⟨append_ne (by decide) _, not_prefix_append (by decide) (by decide) _⟩
    · have hne : mergeDeltaSeqKey ≠ splitDeltaSeqKey := by decide
      have hentry : ¬ splitDeltaPrefix <+: mergeDeltaSeqKey := by decide
      exact ⟨hne, hentry⟩

theorem batch_logsBounded {db' : DBImpl} (hw : ∀ w ∈ writes, ¬ metadataPrefix <+: w.1)
    (hd : ∀ k ∈ deletes, ¬ metadataPrefix <+: k) (hdb : LogsBounded db)
    (h : batch c db writes deletes syncLevel ts = .ok db') :
    LogsBounded db' := by
  simp only [batch, bind_eq_ok, pure_eq_ok] at h
  obtain ⟨ops, hops, rfl⟩ := h
  have hcontent : LogsBounded (db.applyOps ops) :=
    hdb.of_ops ops rfl rfl rfl (contentOps_sparesLogs hw hd hops)
  exact (hcontent.appendSplitDelta _ _).appendMergeDelta _ _

theorem exists_of_mem_flushWrites (h : w ∈ flushWrites c db writes transforms) :
    w ∈ writes ∨ ∃ t ∈ transforms, resolveTransform c db t = .ok (some w) := by
  unfold flushWrites at h
  split at h
  · rename_i resolved hresolved
    rcases mem_append.mp h with h | h
    · exact .inl h
    · simp only [resolveTransforms, bind_eq_ok, pure_eq_ok] at hresolved
      obtain ⟨os, hos, rfl⟩ := hresolved
      exact .inr (exists_of_mem_mapM hos (reduceOption_mem_iff.mp h))
  · exact .inl h

theorem key_of_resolveTransform {t : Transform} (h : resolveTransform c db t = .ok (some w)) :
    w.1 = t.key := by
  unfold resolveTransform at h
  simp only at h
  split at h
  · split at h
    · cases h
    · cases h
      rfl
  · split at h
    · split at h
      · cases h
      · cases h
        rfl
    · cases h
  · cases h

theorem mem_flushWrites (h : w ∈ flushWrites c db writes transforms) :
    w ∈ writes ∨ ∃ t ∈ transforms, w.1 = t.key :=
  (exists_of_mem_flushWrites h).imp_right fun ⟨t, ht, hw⟩ => ⟨t, ht, key_of_resolveTransform hw⟩

theorem flushBatch_logsBounded (hw : ∀ w ∈ writes, ¬ metadataPrefix <+: w.1)
    (hd : ∀ k ∈ deletes, ¬ metadataPrefix <+: k)
    (ht : ∀ t ∈ transforms, ¬ metadataPrefix <+: t.key) (hdb : LogsBounded db) :
    LogsBounded (flushBatch c db writes deletes transforms syncLevel ts).1 := by
  have hwrites : ∀ w ∈ flushWrites c db writes transforms, ¬ metadataPrefix <+: w.1 := by
    intro w hmem
    rcases mem_flushWrites hmem with hmem | ⟨t, htmem, heq⟩
    · exact hw w hmem
    · rw [heq]
      exact ht t htmem
  unfold flushBatch applyOpBatch
  split
  · rename_i h
    split at h
    · cases h
      exact hdb
    · exact batch_logsBounded hwrites hd hdb h
  · exact hdb

theorem resolveIntents_logsBounded {op : ResolveIntentsOp}
    (hids : ∀ e ∈ transactionIntents db op.txnID, ∀ t u, parseIntentKey e.1 = some (t, u) →
      ¬ metadataPrefix <+: u) (hdb : LogsBounded db) : LogsBounded (resolveIntents c db op) := by
  refine hdb.of_ops _ rfl rfl rfl fun o ho => ?_
  obtain ⟨e, he, ho⟩ := mem_flatMap.mp ho
  unfold resolveIntentOps at ho
  split at ho
  · rename_i i t u hi hparse
    have hu := hids e he t u hparse
    rcases mem_append.mp ho with ho | ho
    · split at ho
      · unfold committedIntentOps at ho
        split at ho
        · rw [mem_singleton.mp ho]
          exact sparesLogs_tombstone hu
        · split at ho
          · exact sparesLogs_of_effect fun y hy =>
              committedValueOps_not_touched (metadata_not_touchedBy hu hy) o ho
          · cases ho
      · cases ho
    · rw [mem_singleton.mp ho]
      refine sparesLogs_of_effect fun y hy => ?_
      have hne : y ≠ e.1 := by
        rintro rfl
        have hintent : txnIntentsPrefix <+: e.1 := by
          unfold parseIntentKey at hparse
          split at hparse
          · cases hparse
          · rename_i hpre
            exact hasPrefix_iff.mp (by simpa using hpre)
        exact absurd (lt_metadataEnd hy) (not_lt.mpr (IsTxnKey.metadataEnd_le (.inr hintent)))
      simp [OrdMap.Edit.effect, hne]
  · cases ho

end Batches

section ShardState

variable {db : DBImpl}

private theorem sparesLogs_record {x : Bytes} {v : Stored}
    (hx : x ∈ [byteRangeKey, splitStateKey, mergeStateKey, splitDeltaFinalSeqKey,
      mergeDeltaFinalSeqKey]) : SparesLogs (.set x v) ∧ SparesLogs (.delete x) := by
  have hall : ∀ y ∈ [byteRangeKey, splitStateKey, mergeStateKey, splitDeltaFinalSeqKey,
      mergeDeltaFinalSeqKey], (y ≠ splitDeltaSeqKey ∧ ¬ splitDeltaPrefix <+: y) ∧
      y ≠ mergeDeltaSeqKey ∧ ¬ mergeDeltaPrefix <+: y := by decide
  obtain ⟨hsplit, hmerge⟩ := hall x hx
  exact ⟨⟨hsplit, hmerge⟩, ⟨hsplit.1, hmerge.1⟩⟩

/-- A change of one record of the shard's own, together with any fields in memory but the
numbers. -/
private theorem LogsBounded.of_record {db' : DBImpl} (h : LogsBounded db) {x : Bytes} {v : Stored}
    (hx : x ∈ [byteRangeKey, splitStateKey, mergeStateKey, splitDeltaFinalSeqKey,
      mergeDeltaFinalSeqKey])
    (hpdb : db'.pdb = db.pdb.applyAll [.set x v] ∨ db'.pdb = db.pdb.applyAll [.delete x])
    (hsplit : db'.splitDeltaSeq = db.splitDeltaSeq)
    (hmerge : db'.mergeDeltaSeq = db.mergeDeltaSeq) : LogsBounded db' := by
  have hspares := sparesLogs_record (v := v) hx
  rcases hpdb with hpdb | hpdb
  · refine h.of_ops _ hpdb hsplit hmerge fun e he => ?_
    rw [mem_singleton.mp he]
    exact hspares.1
  · refine h.of_ops _ hpdb hsplit hmerge fun e he => ?_
    rw [mem_singleton.mp he]
    exact hspares.2

theorem LogsBounded.setRange (h : LogsBounded db) (r : Range) : LogsBounded (db.setRange r) :=
  h.of_record (v := .byteRange r) (by decide) (.inl rfl) rfl rfl

theorem LogsBounded.setSplitState (h : LogsBounded db) (state : Option SplitState) :
    LogsBounded (db.setSplitState state) := by
  rcases state with _ | st
  · exact h.of_record (v := .uint64 0) (x := splitStateKey) (by decide) (.inr rfl) rfl rfl
  · exact h.of_record (v := .splitState st) (by decide) (.inl rfl) rfl rfl

theorem LogsBounded.setMergeState (h : LogsBounded db) (state : Option MergeState) :
    LogsBounded (db.setMergeState state) := by
  rcases state with _ | st
  · exact h.of_record (v := .uint64 0) (x := mergeStateKey) (by decide) (.inr rfl) rfl rfl
  · exact h.of_record (v := .mergeState st) (by decide) (.inl rfl) rfl rfl

theorem LogsBounded.setSplitDeltaFinalSeq (h : LogsBounded db) (seq : ℕ) :
    LogsBounded (db.setSplitDeltaFinalSeq seq) :=
  h.of_record (v := .uint64 seq) (x := splitDeltaFinalSeqKey) (by decide) (.inl rfl) rfl rfl

theorem LogsBounded.clearSplitDeltaFinalSeq (h : LogsBounded db) :
    LogsBounded db.clearSplitDeltaFinalSeq :=
  h.of_record (v := .uint64 0) (x := splitDeltaFinalSeqKey) (by decide) (.inr rfl) rfl rfl

theorem LogsBounded.clearMergeDeltaFinalSeq (h : LogsBounded db) :
    LogsBounded db.clearMergeDeltaFinalSeq :=
  h.of_record (v := .uint64 0) (x := mergeDeltaFinalSeqKey) (by decide) (.inr rfl) rfl rfl

theorem get?_clearLog (m : PebbleDB) {pre seqKey finalKey x : Bytes}
    (hpre : ∃ c ∈ pre, c ≠ 0xFF) (hx : pre <+: x ∨ x = seqKey) :
    (m.applyAll [.deleteRange pre (prefixSuccessor pre), .delete seqKey,
      .delete finalKey]).get? x = none := by
  have hgone : OrdMap.lastEffect [(.deleteRange pre (prefixSuccessor pre) : PebbleOp),
      .delete seqKey, .delete finalKey] x = some none := by
    refine OrdMap.lastEffect_eq_absent ?_ fun e he => ?_
    · rcases hx with hx | rfl
      · refine ⟨_, mem_cons_self, ?_⟩
        simp [OrdMap.Edit.effect, (mem_Ico_prefixSuccessor_iff hpre).mpr hx]
      · exact ⟨_, mem_cons_of_mem _ mem_cons_self, by simp [OrdMap.Edit.effect]⟩
    · simp only [mem_cons, not_mem_nil, or_false] at he
      rcases he with rfl | rfl | rfl <;> simp only [OrdMap.Edit.effect] <;> split <;> simp
  rw [OrdMap.get?_applyAll, hgone]
  rfl

theorem LogsBounded.clearSplitDeltaEntries (h : LogsBounded db) :
    LogsBounded db.clearSplitDeltaEntries := by
  refine ⟨CountedLog.bounded_of_cleared (get?_clearLog _ (by decide) (.inr rfl))
    (fun x hx => get?_clearLog _ (by decide) (.inl hx)) _, h.merge.applyAll fun e he => ?_⟩
  simp only [mem_cons, not_mem_nil, or_false] at he
  rcases he with rfl | rfl | rfl
  · intro hle
    exact absurd hle (by decide)
  · exact (by decide : splitDeltaSeqKey ≠ mergeDeltaSeqKey)
  · exact (by decide : splitDeltaFinalSeqKey ≠ mergeDeltaSeqKey)

theorem LogsBounded.clearMergeDeltaEntries (h : LogsBounded db) :
    LogsBounded db.clearMergeDeltaEntries := by
  refine ⟨h.split.applyAll fun e he => ?_, CountedLog.bounded_of_cleared
    (get?_clearLog _ (by decide) (.inr rfl))
    (fun x hx => get?_clearLog _ (by decide) (.inl hx)) _⟩
  simp only [mem_cons, not_mem_nil, or_false] at he
  rcases he with rfl | rfl | rfl
  · intro _ hlt
    exact absurd hlt (by decide)
  · exact (by decide : mergeDeltaSeqKey ≠ splitDeltaSeqKey)
  · exact (by decide : mergeDeltaFinalSeqKey ≠ splitDeltaSeqKey)

variable {r : Range}

theorem LogsBounded.finalizeSplit (h : LogsBounded db) (hstop : ¬ metadataPrefix <+: r.stop) :
    LogsBounded (db.finalizeSplit r) := by
  refine h.of_ops _ rfl rfl rfl fun e he => ?_
  simp only [DBImpl.trimOps, mem_cons, not_mem_nil, or_false] at he
  rcases he with rfl | rfl | rfl
  · exact (sparesLogs_record (by decide)).1
  · exact sparesLogs_deleteRange (by decide) _
  · exact sparesLogs_deleteRange hstop _

theorem LogsBounded.deleteDataRange (h : LogsBounded db) (hstart : ¬ metadataPrefix <+: r.start) :
    LogsBounded (db.deleteDataRange r) := by
  refine h.of_ops _ rfl rfl rfl fun e he => ?_
  rw [mem_singleton.mp he]
  exact sparesLogs_deleteRange hstart _

theorem LogsBounded.splitPhaseEffect (h : LogsBounded db) (state : Option SplitState) :
    LogsBounded (StoreDB.splitPhaseEffect db state) := by
  rcases state with _ | ⟨_ | _ | _ | _ | _, _, _, _⟩
  · exact h.clearSplitDeltaFinalSeq
  · exact h
  · exact h.clearSplitDeltaEntries
  · exact h
  · exact h
  · exact h.clearSplitDeltaEntries

theorem LogsBounded.mergePhaseEffect (h : LogsBounded db) {state : Option MergeState}
    (hstart : ∀ st, state = some st → ¬ metadataPrefix <+: st.donorRangeStart) :
    LogsBounded (StoreDB.mergePhaseEffect db state) := by
  rcases state with _ | st
  · exact h.clearMergeDeltaFinalSeq
  · unfold StoreDB.mergePhaseEffect
    simp only
    split
    · split
      · exact h.clearMergeDeltaEntries
      · exact h
    · split
      · exact h.deleteDataRange (hstart st rfl)
      · exact h
    all_goals exact h

theorem LogsBounded.fixSplitDeltaFinalSeq (h : LogsBounded db) :
    LogsBounded (StoreDB.fixSplitDeltaFinalSeq db) := by
  unfold StoreDB.fixSplitDeltaFinalSeq
  split
  · exact h.setSplitDeltaFinalSeq _
  · exact h

end ShardState

/-- No id the operation mutates and no bound it deletes from starts with the prefix of the
metadata. -/
def RaftOp.ClearOfMetadata (s : StoreDB) : RaftOp → Prop
  | .batch writes deletes transforms _ _ =>
    (∀ w ∈ writes, ¬ metadataPrefix <+: w.1) ∧ (∀ k ∈ deletes, ¬ metadataPrefix <+: k) ∧
      ∀ t ∈ transforms, ¬ metadataPrefix <+: t.key
  | .finalizeSplit _ _ => ¬ metadataPrefix <+: s.byteRange.stop
  | .setMergeState state => ∀ st, state = some st → ¬ metadataPrefix <+: st.donorRangeStart
  | .resolveIntents op => ∀ e ∈ transactionIntents s.coreDB op.txnID, ∀ t u,
      parseIntentKey e.1 = some (t, u) → ¬ metadataPrefix <+: u
  | _ => True

private theorem sparesLogs_setTxnKey {x : Bytes} {v : Stored} (hx : IsTxnKey x) :
    SparesLogs (.set x v) := by
  refine sparesLogs_of_effect fun y hy => ?_
  have hne : y ≠ x := by
    rintro rfl
    exact absurd (lt_metadataEnd hy) (not_lt.mpr hx.metadataEnd_le)
  simp [OrdMap.Edit.effect, hne]

variable {db : DBImpl} {s : StoreDB}

private theorem LogsBounded.setTxnRecord (h : LogsBounded db) (t : Bytes) (record : TxnRecord) :
    LogsBounded (db.applyOps [.set (makeTxnKey t) (.txnRecord record)]) := by
  refine h.of_ops _ rfl rfl rfl fun e he => ?_
  rw [mem_singleton.mp he]
  exact sparesLogs_setTxnKey (.inl (prefix_append _ _))

private theorem LogsBounded.finalizeTransaction (h : LogsBounded db) {t : Bytes}
    {status : TxnStatus} {ctxTimestamp : ℕ} {now : Int} {r : DBImpl × ℕ}
    (hr : finalizeTransaction db t status ctxTimestamp now = .ok r) :
    LogsBounded r.1 := by
  obtain ⟨record, -, heq⟩ := finalizeTransaction_cases hr
  rw [heq]
  exact h.setTxnRecord t _

private theorem LogsBounded.applyOpSetSplitState (h : LogsBounded s.coreDB)
    (state : Option SplitState) :
    LogsBounded (s.applyOpSetSplitState state).coreDB :=
  (h.setSplitState state).splitPhaseEffect state

private theorem LogsBounded.applyOpFinalizeSplit (h : LogsBounded s.coreDB)
    (hstop : ¬ metadataPrefix <+: s.byteRange.stop) (newRangeEnd : Bytes) (childReplayed : Bool) :
    LogsBounded (s.applyOpFinalizeSplit newRangeEnd childReplayed).1.coreDB := by
  unfold StoreDB.applyOpFinalizeSplit
  split
  · exact h
  · rcases hst : s.splitState with _ | st
    · exact h
    · have hfixed := h.fixSplitDeltaFinalSeq
      have hfinalizing : LogsBounded
          (if st.phase = .finalizing then s.withCore (StoreDB.fixSplitDeltaFinalSeq s.coreDB)
            else (s.withCore (StoreDB.fixSplitDeltaFinalSeq s.coreDB)).applyOpSetSplitState
              (some { st with phase := .finalizing })).coreDB := by
        split
        · exact hfixed
        · exact LogsBounded.applyOpSetSplitState (s := s.withCore _) hfixed _
      simp only
      split
      · exact hfinalizing
      · exact ((hfinalizing.finalizeSplit hstop).setSplitState none).clearSplitDeltaEntries

theorem StoreDB.applyOp_logsBounded (c : Codec) {op : RaftOp} (hop : op.ClearOfMetadata s)
    (h : LogsBounded s.coreDB) :
    LogsBounded (s.applyOp c op).1.coreDB := by
  cases op with
  | batch writes deletes transforms syncLevel timestamp =>
    exact flushBatch_logsBounded hop.1 hop.2.1 hop.2.2 h
  | setRange r => exact h.setRange r
  | split newShardID splitKey =>
    change LogsBounded (s.applyOpSplit splitKey).1.coreDB
    unfold StoreDB.applyOpSplit
    split
    · exact h
    · exact h.setRange _
  | finalizeSplit newRangeEnd childReplayed => exact h.applyOpFinalizeSplit hop _ _
  | setSplitState state => exact h.applyOpSetSplitState state
  | setMergeState state => exact (h.setMergeState state).mergePhaseEffect hop
  | finalizeMerge newRange =>
    exact ((h.setRange newRange).setMergeState none).clearMergeDeltaEntries
  | initTransaction op now => exact h.setTxnRecord _ _
  | commitTransaction txnID now =>
    simp only [StoreDB.applyOp]
    split
    · rename_i hcommit
      exact h.finalizeTransaction hcommit
    · exact h
  | abortTransaction txnID now =>
    simp only [StoreDB.applyOp]
    split
    · rename_i db habort
      simp only [Antfly.abortTransaction, bind_eq_ok] at habort
      obtain ⟨r, hfin, hr⟩ := habort
      cases hr
      exact h.finalizeTransaction hfin
    · exact h
  | writeIntent op =>
    simp only [StoreDB.applyOp]
    split
    · rename_i db hwrite
      unfold Antfly.writeIntent at hwrite
      split at hwrite
      · cases hwrite
      · simp only [bind_eq_ok, pure_eq_ok] at hwrite
        obtain ⟨-, -, rfl⟩ := hwrite
        refine h.of_ops _ rfl rfl rfl fun e he => ?_
        have hset : ∃ u v, e = .set (makeIntentKey op.txnID u) v := by
          rcases mem_append.mp he with he | he
          · obtain ⟨w, -, rfl⟩ := mem_map.mp he
            exact ⟨_, _, rfl⟩
          · obtain ⟨k, -, rfl⟩ := mem_map.mp he
            exact ⟨_, _, rfl⟩
        obtain ⟨u, v, rfl⟩ := hset
        refine sparesLogs_setTxnKey (.inr ?_)
        exact (prefix_append _ _).trans (prefix_makeIntentKey op.txnID u)
    · exact h
  | resolveIntents op => exact resolveIntents_logsBounded hop h

end Antfly
