import Antfly.Store.StoreDB

/-!
Of all operations of a shard, only the initialisation and the two decisions of a transaction write
a transaction record, and only `WriteIntent` writes an intent.  Every other operation can at most
remove or overwrite one.
-/

namespace Antfly

open List

/-- A transaction record or an intent. -/
def Stored.isTxn : Stored → Bool
  | .txnRecord _ | .txnIntent _ => true
  | _ => false

def IsTxn (_ : Bytes) (v : Stored) : Prop := v.isTxn = true

/-- Anything but a metadata record. -/
def NotMetadata (x : Bytes) (v : Stored) : Prop := ¬ (metadataPrefix <+: x ∧ v.isTxn = false)

/-- Edits that set nothing of a kind. -/
def SetsNo (kind : Bytes → Stored → Prop) (ops : List PebbleOp) : Prop :=
  ∀ k v, OrdMap.Edit.set k v ∈ ops → ¬ kind k v

namespace SetsNo

variable {kind : Bytes → Stored → Prop} {ops : List PebbleOp} {k : Bytes}

theorem nil : SetsNo kind [] := fun k v h => absurd h (by simp)

theorem append {ops' : List PebbleOp} (h : SetsNo kind ops) (h' : SetsNo kind ops') :
    SetsNo kind (ops ++ ops') := by
  intro k v hmem
  rcases mem_append.mp hmem with hmem | hmem
  · exact h k v hmem
  · exact h' k v hmem

theorem cons_set {v : Stored} (hv : ¬ kind k v) (h : SetsNo kind ops) :
    SetsNo kind (.set k v :: ops) := by
  intro k' v' hmem
  rcases mem_cons.mp hmem with heq | hmem
  · cases heq
    exact hv
  · exact h k' v' hmem

theorem cons_delete (h : SetsNo kind ops) : SetsNo kind (.delete k :: ops) := by
  intro k' v' hmem
  exact h k' v' ((mem_cons.mp hmem).resolve_left (by simp))

theorem cons_deleteRange {lo hi : Bytes} (h : SetsNo kind ops) :
    SetsNo kind (.deleteRange lo hi :: ops) := by
  intro k' v' hmem
  exact h k' v' ((mem_cons.mp hmem).resolve_left (by simp))

theorem flatten {opss : List (List PebbleOp)} (h : ∀ ops ∈ opss, SetsNo kind ops) :
    SetsNo kind opss.flatten := by
  intro k v hmem
  obtain ⟨ops, hops, hset⟩ := mem_flatten.mp hmem
  exact h ops hops k v hset

theorem flatMap {α : Type*} {xs : List α} {f : α → List PebbleOp}
    (h : ∀ x ∈ xs, SetsNo kind (f x)) : SetsNo kind (xs.flatMap f) := by
  intro k v hmem
  obtain ⟨x, hx, hset⟩ := mem_flatMap.mp hmem
  exact h x hx k v hset

end SetsNo

variable {x : Bytes} {v : Stored}

theorem eq_set_of_effect {e : PebbleOp} (h : e.effect x = some (some v)) : e = .set x v := by
  cases e with
  | set k w =>
    simp only [OrdMap.Edit.effect] at h
    split at h
    · rename_i hk
      cases h
      rw [hk]
    · cases h
  | delete k =>
    simp only [OrdMap.Edit.effect] at h
    split at h <;> cases h
  | deleteRange lo hi =>
    simp only [OrdMap.Edit.effect] at h
    split at h <;> cases h

theorem get?_applyOps_cases {db : DBImpl} {ops : List PebbleOp}
    (h : (db.applyOps ops).get? x = some v) :
    .set x v ∈ ops ∨ db.get? x = some v := by
  rw [DBImpl.get?_applyOps] at h
  cases heff : OrdMap.lastEffect ops x with
  | none =>
    rw [heff] at h
    exact Or.inr h
  | some o =>
    rw [heff] at h
    change o = some v at h
    subst h
    obtain ⟨e, he, hex⟩ := OrdMap.exists_effect_of_lastEffect heff
    rw [eq_set_of_effect hex] at he
    exact Or.inl he

/-- `db'` has nothing of a kind that `db` does not have at the same key. -/
def NoNew (kind : Bytes → Stored → Prop) (db db' : DBImpl) : Prop :=
  ∀ x v, kind x v → db'.get? x = some v → db.get? x = some v

namespace NoNew

variable {kind kind' : Bytes → Stored → Prop} {db db' db'' : DBImpl}

theorem refl (db : DBImpl) : NoNew kind db db := fun _ _ _ h => h

theorem trans (h : NoNew kind db db') (h' : NoNew kind db' db'') : NoNew kind db db'' :=
  fun x v hv hx => h x v hv (h' x v hv hx)

theorem mono (h : NoNew kind db db') (hkind : ∀ x v, kind' x v → kind x v) :
    NoNew kind' db db' := fun x v hv hx => h x v (hkind x v hv) hx

theorem of_ops (ops : List PebbleOp) (hdb : db'.pdb = db.pdb.applyAll ops)
    (h : SetsNo kind ops) : NoNew kind db db' := by
  intro x v hv hx
  have hget : (db.applyOps ops).get? x = some v := by
    rwa [DBImpl.get?, hdb] at hx
  rcases get?_applyOps_cases hget with hmem | hold
  · exact absurd hv (h x v hmem)
  · exact hold

end NoNew

section Batches

open Fallible

variable {c : Codec} {db : DBImpl}

theorem timestampOps_noTxn (key : Bytes) (ts : Nat) : SetsNo IsTxn (timestampOps key ts) := by
  unfold timestampOps
  split
  · exact .cons_set Bool.false_ne_true .nil
  · exact .nil

theorem specialFieldsOps_noTxn (sf : SpecialFields) (ts : Nat) : SetsNo IsTxn (sf.ops ts) := by
  have hraw : ∀ ws : List Write, SetsNo IsTxn (ws.map rawSet) := by
    intro ws k v hmem
    obtain ⟨w, -, hw⟩ := mem_map.mp hmem
    cases hw
    exact Bool.false_ne_true
  refine (((hraw _).append (hraw _)).append (.flatMap fun w _ => ?_)).append ?_
  · exact .cons_set Bool.false_ne_true (timestampOps_noTxn _ _)
  · intro k v hmem
    obtain ⟨d, -, hd⟩ := mem_map.mp hmem
    cases hd

theorem documentOps_noTxn (key body : Bytes) (ts : Nat) : SetsNo IsTxn (documentOps key body ts) :=
  .cons_set Bool.false_ne_true (timestampOps_noTxn _ _)

variable {ts : Nat} {ops : List PebbleOp} {writes : List Write} {deletes : List Bytes}

theorem storeWriteOps_noTxn {kv : Write} (h : storeWriteOps c db ts kv = .ok ops) :
    SetsNo IsTxn ops := by
  unfold storeWriteOps at h
  split at h
  · cases h
    split
    · exact .nil
    · exact .cons_set Bool.false_ne_true .nil
  · cases h
    split
    · exact .nil
    · exact .cons_set Bool.false_ne_true .nil
  · unfold documentWriteOps at h
    split at h
    · cases h
      exact .nil
    · rw [bind_eq_ok] at h
      obtain ⟨sf, -, h⟩ := h
      split at h
      · cases h
        exact documentOps_noTxn _ _ _
      · cases h
        refine (specialFieldsOps_noTxn _ _).append ?_
        split
        · exact documentOps_noTxn _ _ _
        · exact .nil

theorem contentOps_noTxn {bypass : Bool} (h : contentOps c db bypass ts writes deletes = .ok ops) :
    SetsNo IsTxn ops := by
  simp only [contentOps, bind_eq_ok, pure_eq_ok] at h
  obtain ⟨ws, hws, rfl⟩ := h
  refine (SetsNo.flatten fun ops hops => ?_).append (.flatMap fun k _ => ?_)
  · obtain ⟨kv, -, hkv⟩ := exists_of_mem_mapM hws hops
    unfold writeOps at hkv
    split at hkv
    · exact storeWriteOps_noTxn hkv
    · cases hkv
      exact .nil
  · unfold deleteOps
    split
    · exact .cons_deleteRange .nil
    · exact .nil

theorem appendSplitDelta_noNewTxn (entry : List Write × List Bytes) (ts : Nat) :
    NoNew IsTxn db (appendSplitDelta db entry ts) := by
  unfold appendSplitDelta
  split
  · exact .refl db
  · exact .of_ops _ rfl (.cons_set Bool.false_ne_true (.cons_set Bool.false_ne_true .nil))

theorem appendMergeDelta_noNewTxn (entry : List Write × List Bytes) (ts : Nat) :
    NoNew IsTxn db (appendMergeDelta db entry ts) := by
  unfold appendMergeDelta
  split
  · exact .refl db
  · exact .of_ops _ rfl (.cons_set Bool.false_ne_true (.cons_set Bool.false_ne_true .nil))

theorem batch_noNewTxn {db' : DBImpl} {syncLevel : SyncLevel}
    (h : batch c db writes deletes syncLevel ts = .ok db') :
    NoNew IsTxn db db' := by
  simp only [batch, bind_eq_ok, pure_eq_ok] at h
  obtain ⟨ops, hops, rfl⟩ := h
  exact ((NoNew.of_ops _ rfl (contentOps_noTxn hops)).trans
    (appendSplitDelta_noNewTxn _ _)).trans (appendMergeDelta_noNewTxn _ _)

theorem flushBatch_noNewTxn (writes : List Write) (deletes : List Bytes)
    (transforms : List Transform) (syncLevel : SyncLevel) (ts : Nat) :
    NoNew IsTxn db (flushBatch c db writes deletes transforms syncLevel ts).1 := by
  unfold flushBatch applyOpBatch
  split
  · rename_i h
    split at h
    · cases h
      exact .refl db
    · exact batch_noNewTxn h
  · exact .refl db

theorem resolveIntentsOps_noTxn (op : ResolveIntentsOp) :
    SetsNo IsTxn ((transactionIntents db op.txnID).flatMap (resolveIntentOps c db op)) := by
  refine .flatMap fun e _ => ?_
  unfold resolveIntentOps
  split
  · refine SetsNo.append ?_ (.cons_delete .nil)
    split
    · unfold committedIntentOps
      split
      · exact .cons_deleteRange .nil
      · split
        · unfold committedValueOps
          refine SetsNo.append ?_ (.cons_set Bool.false_ne_true .nil)
          split
          · exact .cons_set Bool.false_ne_true .nil
          · exact .cons_set Bool.false_ne_true .nil
          · exact (specialFieldsOps_noTxn _ _).append (.cons_set Bool.false_ne_true .nil)
        · exact .nil
    · exact .nil
  · exact .nil

theorem resolveIntents_noNewTxn (op : ResolveIntentsOp) :
    NoNew IsTxn db (resolveIntents c db op) :=
  .of_ops _ rfl (resolveIntentsOps_noTxn op)

end Batches

section ShardState

variable (db : DBImpl)

theorem metadata_record {x : Bytes} {v : Stored} (hx : metadataPrefix <+: x)
    (hv : v.isTxn = false) : ¬ NotMetadata x v := not_not.mpr ⟨hx, hv⟩

theorem setRange_keepsData (r : Range) : NoNew NotMetadata db (db.setRange r) :=
  .of_ops _ rfl (.cons_set (metadata_record (prefix_append _ _) rfl) .nil)

theorem setSplitState_keepsData (state : Option SplitState) :
    NoNew NotMetadata db (db.setSplitState state) := by
  rcases state with _ | st
  · exact .of_ops _ rfl (.cons_delete .nil)
  · exact .of_ops _ rfl (.cons_set (metadata_record (prefix_append _ _) rfl) .nil)

theorem setMergeState_keepsData (state : Option MergeState) :
    NoNew NotMetadata db (db.setMergeState state) := by
  rcases state with _ | st
  · exact .of_ops _ rfl (.cons_delete .nil)
  · exact .of_ops _ rfl (.cons_set (metadata_record (prefix_append _ _) rfl) .nil)

theorem clearSplitDeltaEntries_keepsData : NoNew NotMetadata db db.clearSplitDeltaEntries :=
  .of_ops _ rfl (.cons_deleteRange (.cons_delete (.cons_delete .nil)))

theorem clearMergeDeltaEntries_keepsData : NoNew NotMetadata db db.clearMergeDeltaEntries :=
  .of_ops _ rfl (.cons_deleteRange (.cons_delete (.cons_delete .nil)))

theorem splitPhaseEffect_keepsData (state : Option SplitState) :
    NoNew NotMetadata db (StoreDB.splitPhaseEffect db state) := by
  rcases state with _ | ⟨_ | _ | _ | _ | _, _, _, _⟩
  · exact .of_ops _ rfl (.cons_delete .nil)
  · exact .refl db
  · exact clearSplitDeltaEntries_keepsData db
  · exact .refl db
  · exact .refl db
  · exact clearSplitDeltaEntries_keepsData db

theorem mergePhaseEffect_keepsData (state : Option MergeState) :
    NoNew NotMetadata db (StoreDB.mergePhaseEffect db state) := by
  rcases state with _ | st
  · exact .of_ops _ rfl (.cons_delete .nil)
  · unfold StoreDB.mergePhaseEffect
    simp only
    split
    · split
      · exact clearMergeDeltaEntries_keepsData db
      · exact .refl db
    · split
      · exact .of_ops _ rfl (.cons_deleteRange .nil)
      · exact .refl db
    all_goals exact .refl db

theorem fixSplitDeltaFinalSeq_keepsData : NoNew NotMetadata db (StoreDB.fixSplitDeltaFinalSeq db) := by
  unfold StoreDB.fixSplitDeltaFinalSeq
  split
  · exact .of_ops _ rfl (.cons_set (metadata_record (prefix_append _ _) rfl) .nil)
  · exact .refl db

theorem finalizeSplit_keepsData (r : Range) : NoNew NotMetadata db (db.finalizeSplit r) :=
  .of_ops _ rfl (.cons_set (metadata_record (prefix_append _ _) rfl)
    (.cons_deleteRange (.cons_deleteRange .nil)))

theorem applyOpSetSplitState_keepsData (s : StoreDB) (state : Option SplitState) :
    NoNew NotMetadata s.coreDB (s.applyOpSetSplitState state).coreDB :=
  (setSplitState_keepsData _ state).trans (splitPhaseEffect_keepsData _ state)

theorem applyOpFinalizeSplit_keepsData (s : StoreDB) (newRangeEnd : Bytes) (childReplayed : Bool) :
    NoNew NotMetadata s.coreDB (s.applyOpFinalizeSplit newRangeEnd childReplayed).1.coreDB := by
  unfold StoreDB.applyOpFinalizeSplit
  split
  · exact .refl _
  · rcases hst : s.splitState with _ | st
    · exact .refl _
    · have hfixed := fixSplitDeltaFinalSeq_keepsData s.coreDB
      have hfinalizing : NoNew NotMetadata s.coreDB
          (if st.phase = .finalizing then s.withCore (StoreDB.fixSplitDeltaFinalSeq s.coreDB)
            else (s.withCore (StoreDB.fixSplitDeltaFinalSeq s.coreDB)).applyOpSetSplitState
              (some { st with phase := .finalizing })).coreDB := by
        split
        · exact hfixed
        · exact hfixed.trans (applyOpSetSplitState_keepsData _ _)
      simp only
      split
      · exact hfinalizing
      · exact ((hfinalizing.trans (finalizeSplit_keepsData _ _)).trans
          (setSplitState_keepsData _ none)).trans (clearSplitDeltaEntries_keepsData _)

/-- An operation that has no business with data sets metadata records only. -/
theorem applyOp_keepsData (c : Codec) (s : StoreDB) {op : RaftOp} (hop : op.isData = false) :
    NoNew NotMetadata s.coreDB (s.applyOp c op).1.coreDB := by
  cases op with
  | batch | initTransaction | commitTransaction | abortTransaction | writeIntent
  | resolveIntents => cases hop
  | setRange r => exact setRange_keepsData _ _
  | split newShardID splitKey =>
    change NoNew NotMetadata _ (s.applyOpSplit splitKey).1.coreDB
    unfold StoreDB.applyOpSplit
    split
    · exact .refl _
    · exact setRange_keepsData _ _
  | finalizeSplit newRangeEnd childReplayed => exact applyOpFinalizeSplit_keepsData s _ _
  | setSplitState state => exact applyOpSetSplitState_keepsData s _
  | setMergeState state =>
    exact (setMergeState_keepsData _ state).trans (mergePhaseEffect_keepsData _ state)
  | finalizeMerge newRange =>
    exact ((setRange_keepsData _ _).trans (setMergeState_keepsData _ none)).trans
      (clearMergeDeltaEntries_keepsData _)

end ShardState

variable {db db' : DBImpl} {x t : Bytes} {v : Stored}

theorem finalizeTransaction_cases {txnID : Bytes} {status : TxnStatus} {ctxTimestamp : Nat}
    {now : Int} {r : DBImpl × Nat}
    (h : finalizeTransaction db txnID status ctxTimestamp now = .ok r) :
    ∃ record, loadTxnRecord db txnID = .ok record ∧
      r.1 = db.applyOps [.set (makeTxnKey txnID)
        (.txnRecord (record.finalize status ctxTimestamp now))] := by
  simp only [finalizeTransaction, Fallible.bind_eq_ok, Fallible.pure_eq_ok] at h
  obtain ⟨record, hload, rfl⟩ := h
  exact ⟨record, hload, rfl⟩

/-- What an operation can leave as a record or an intent: one that was there, or the one the
operation is there to write. -/
inductive TxnOrigin (db : DBImpl) : RaftOp → Bytes → Stored → Prop where
  | old {op : RaftOp} {x : Bytes} {v : Stored} : db.get? x = some v → TxnOrigin db op x v
  | init (op : InitTransactionOp) (now : Int) :
      TxnOrigin db (.initTransaction op now) (makeTxnKey op.txnID) (.txnRecord
        ⟨op.txnID, op.timestamp, 0, .pending, op.participants, [], now, 0⟩)
  | commit (txnID : Bytes) (now : Int) {record : TxnRecord} :
      loadTxnRecord db txnID = .ok record →
      TxnOrigin db (.commitTransaction txnID now) (makeTxnKey txnID)
        (.txnRecord (record.finalize .committed 0 now))
  | abort (txnID : Bytes) (now : Int) {record : TxnRecord} :
      loadTxnRecord db txnID = .ok record →
      TxnOrigin db (.abortTransaction txnID now) (makeTxnKey txnID)
        (.txnRecord (record.finalize .aborted 0 now))
  | intent (op : WriteIntentOp) (userKey : Bytes) (i : TxnIntent) :
      TxnOrigin db (.writeIntent op) (makeIntentKey op.txnID userKey) (.txnIntent i)

theorem TxnOrigin.of_noNewTxn (h : NoNew IsTxn db db') {op : RaftOp} (hx : db'.get? x = some v)
    (hv : v.isTxn = true) :
    TxnOrigin db op x v :=
  .old (h x v hv hx)

theorem mem_intentOps {op : WriteIntentOp} {b : BatchOp} (h : .set x v ∈ intentOps op b) :
    ∃ userKey i, x = makeIntentKey op.txnID userKey ∧ v = .txnIntent i := by
  rcases mem_append.mp h with h | h
  · obtain ⟨w, -, hw⟩ := mem_map.mp h
    cases hw
    exact ⟨_, _, rfl, rfl⟩
  · obtain ⟨k, -, hk⟩ := mem_map.mp h
    cases hk
    exact ⟨_, _, rfl, rfl⟩

/-- Every record and every intent a shard holds after an operation has one of these origins. -/
theorem StoreDB.applyOp_txnOrigin (c : Codec) (s : StoreDB) (op : RaftOp)
    (h : (s.applyOp c op).1.coreDB.get? x = some v) (hv : v.isTxn = true) :
    TxnOrigin s.coreDB op x v := by
  cases op with
  | batch writes deletes transforms syncLevel timestamp =>
    exact .of_noNewTxn (flushBatch_noNewTxn _ _ _ _ _) h hv
  | setRange | split | finalizeSplit | setSplitState | setMergeState | finalizeMerge =>
    refine .of_noNewTxn ((applyOp_keepsData c s rfl).mono fun x v hv hmeta => ?_) h hv
    exact Bool.false_ne_true (hmeta.2.symm.trans hv)
  | initTransaction op now =>
    rcases get?_applyOps_cases h with hmem | hold
    · cases mem_singleton.mp hmem
      exact .init op now
    · exact .old hold
  | commitTransaction txnID now =>
    simp only [StoreDB.applyOp] at h
    split at h
    · rename_i db commitVersion hcommit
      obtain ⟨record, hload, hdb⟩ := finalizeTransaction_cases hcommit
      change db = _ at hdb
      subst hdb
      rcases get?_applyOps_cases h with hmem | hold
      · cases mem_singleton.mp hmem
        exact .commit txnID now hload
      · exact .old hold
    · exact .old h
  | abortTransaction txnID now =>
    simp only [StoreDB.applyOp] at h
    split at h
    · rename_i db habort
      simp only [Antfly.abortTransaction, Fallible.bind_eq_ok] at habort
      obtain ⟨r, hfin, hr⟩ := habort
      cases hr
      obtain ⟨record, hload, hdb⟩ := finalizeTransaction_cases hfin
      change r.1.get? x = some v at h
      rw [hdb] at h
      rcases get?_applyOps_cases h with hmem | hold
      · cases mem_singleton.mp hmem
        exact .abort txnID now hload
      · exact .old hold
    · exact .old h
  | writeIntent op =>
    simp only [StoreDB.applyOp] at h
    split at h
    · rename_i db hwrite
      unfold Antfly.writeIntent at hwrite
      split at hwrite
      · cases hwrite
      · rename_i b hb
        simp only [Fallible.bind_eq_ok, Fallible.pure_eq_ok] at hwrite
        obtain ⟨-, -, rfl⟩ := hwrite
        rcases get?_applyOps_cases h with hmem | hold
        · obtain ⟨userKey, i, rfl, rfl⟩ := mem_intentOps hmem
          exact .intent op userKey i
        · exact .old hold
    · exact .old h
  | resolveIntents op => exact .of_noNewTxn (resolveIntents_noNewTxn op) h hv

theorem makeTxnKey_inj {t' : Bytes} : makeTxnKey t = makeTxnKey t' ↔ t = t' := by
  simp [makeTxnKey]

theorem loadTxnRecord_eq_ok {r : TxnRecord} :
    loadTxnRecord db t = .ok r ↔ db.get? (makeTxnKey t) = some (.txnRecord r) := by
  unfold loadTxnRecord
  split <;> simp_all

theorem loadTxnRecord_congr (h : db'.get? (makeTxnKey t) = db.get? (makeTxnKey t)) :
    loadTxnRecord db' t = loadTxnRecord db t := by
  unfold loadTxnRecord
  rw [h]

theorem loadTxnRecord_set (db : DBImpl) (t t' : Bytes) (r : TxnRecord) :
    loadTxnRecord (db.applyOps [.set (makeTxnKey t') (.txnRecord r)]) t =
      if t = t' then .ok r else loadTxnRecord db t := by
  by_cases ht : t = t'
  · subst ht
    rw [if_pos rfl, loadTxnRecord_eq_ok, DBImpl.get?_applyOps]
    simp [OrdMap.lastEffect_cons, OrdMap.Edit.effect]
  · rw [if_neg ht]
    refine loadTxnRecord_congr ?_
    rw [DBImpl.get?_applyOps]
    simp [OrdMap.lastEffect_cons, OrdMap.Edit.effect, makeTxnKey_inj, ht]

theorem loadTxnRecord_delete (db : DBImpl) (t t' : Bytes) :
    loadTxnRecord (db.applyOps [.delete (makeTxnKey t')]) t =
      if t = t' then .error .notFound else loadTxnRecord db t := by
  by_cases ht : t = t'
  · subst ht
    rw [if_pos rfl]
    have hget : (db.applyOps [.delete (makeTxnKey t)]).get? (makeTxnKey t) = none := by
      rw [DBImpl.get?_applyOps]
      simp [OrdMap.lastEffect_cons, OrdMap.Edit.effect]
    unfold loadTxnRecord
    rw [hget]
  · rw [if_neg ht]
    refine loadTxnRecord_congr ?_
    rw [DBImpl.get?_applyOps]
    simp [OrdMap.lastEffect_cons, OrdMap.Edit.effect, makeTxnKey_inj, ht]

section Decisions

variable (c : Codec) (s : StoreDB) (t txnID : Bytes) (now : Int)

theorem loadTxnRecord_init (op : InitTransactionOp) :
    loadTxnRecord (s.applyOp c (.initTransaction op now)).1.coreDB t =
      if t = op.txnID then
        .ok ⟨op.txnID, op.timestamp, 0, .pending, op.participants, [], now, 0⟩
      else loadTxnRecord s.coreDB t :=
  loadTxnRecord_set _ _ _ _

theorem loadTxnRecord_finalized (db : DBImpl) (ts : Nat) (status : TxnStatus) :
    loadTxnRecord ((finalizeTransaction db txnID status ts now).toOption.elim db Prod.fst) t =
      if t = txnID then (loadTxnRecord db t).map (·.finalize status ts now)
      else loadTxnRecord db t := by
  unfold finalizeTransaction
  cases hload : loadTxnRecord db txnID with
  | error e =>
    change loadTxnRecord db t = _
    split
    · rename_i ht
      rw [ht, hload]
      rfl
    · rfl
  | ok record =>
    change loadTxnRecord (db.applyOps _) t = _
    rw [loadTxnRecord_set]
    split
    · rename_i ht
      rw [ht, hload]
      rfl
    · rfl

theorem loadTxnRecord_commit :
    loadTxnRecord (s.applyOp c (.commitTransaction txnID now)).1.coreDB t =
      if t = txnID then (loadTxnRecord s.coreDB t).map (·.finalize .committed 0 now)
      else loadTxnRecord s.coreDB t := by
  rw [← loadTxnRecord_finalized]
  simp only [StoreDB.applyOp, Antfly.commitTransaction]
  cases finalizeTransaction s.coreDB txnID .committed 0 now <;> rfl

theorem loadTxnRecord_abort :
    loadTxnRecord (s.applyOp c (.abortTransaction txnID now)).1.coreDB t =
      if t = txnID then (loadTxnRecord s.coreDB t).map (·.finalize .aborted 0 now)
      else loadTxnRecord s.coreDB t := by
  rw [← loadTxnRecord_finalized]
  simp only [StoreDB.applyOp, Antfly.abortTransaction]
  cases finalizeTransaction s.coreDB txnID .aborted 0 now <;> rfl

end Decisions

theorem loadTxnRecord_of_not_decision (c : Codec) (s : StoreDB) {op : RaftOp}
    (hinit : ∀ o now, op ≠ .initTransaction o now) (hcommit : ∀ t now, op ≠ .commitTransaction t now)
    (habort : ∀ t now, op ≠ .abortTransaction t now) {t : Bytes} {r : TxnRecord}
    (h : loadTxnRecord (s.applyOp c op).1.coreDB t = .ok r) :
    loadTxnRecord s.coreDB t = .ok r := by
  rw [loadTxnRecord_eq_ok] at h ⊢
  have horigin := s.applyOp_txnOrigin c op h rfl
  generalize hv : Stored.txnRecord r = v at horigin
  generalize hx : makeTxnKey t = x at horigin
  cases horigin with
  | old hold => exact hold
  | init o now => exact absurd rfl (hinit o now)
  | commit t now => exact absurd rfl (hcommit t now)
  | abort t now => exact absurd rfl (habort t now)
  | intent => cases hv

theorem StoreDB.create_ne_txn {r : Range} {x : Bytes} {v : Stored}
    (h : (StoreDB.create r).coreDB.get? x = some v) : v.isTxn ≠ true := by
  change (DBImpl.empty.reopen none r).get? x = some v at h
  have hnone : DBImpl.empty.get? x = none := rfl
  rw [DBImpl.reopen_get?, hnone, Option.or_none] at h
  unfold DBImpl.metadataRecord at h
  split at h
  · cases h
    exact Bool.false_ne_true
  · split at h
    · obtain ⟨json, -, rfl⟩ := Option.map_eq_some_iff.mp h
      exact Bool.false_ne_true
    · split at h
      · cases h
        exact Bool.false_ne_true
      · split at h
        · cases h
          exact Bool.false_ne_true
        · cases h

end Antfly
