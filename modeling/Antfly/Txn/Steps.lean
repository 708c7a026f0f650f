import Antfly.Store.Intents
import Antfly.Txn.System

/-!
Inversion rules for a step: where a record on some replica, a message, a turn of the recovery loop
and the notes of what was resolved and deleted can come from.  Invariants are proved from these
rules and do not look into the step function again.
-/

namespace Antfly

open List Option

namespace TxnSystem

variable {c : Codec} {s s' : TxnSystem} {e : TxnEvent}

/-- Some replica of the shard has the record. -/
def Holds (s : TxnSystem) (shard : ShardID) (t : Bytes) (r : TxnRecord) : Prop :=
  ∃ store ∈ s.shards shard, loadTxnRecord store.coreDB t = .ok r

variable {shard shard' : ShardID} {t : Bytes} {r : TxnRecord} {op : RaftOp} {store : StoreDB}
variable {p : RecoveryTurn} {ops : List PebbleOp} {m : ShardID × ResolveIntentsOp}
variable {x : ShardID × Bytes}

theorem holds_of_loadRecord {replica : Nat} (h : s.loadRecord shard replica t = .ok r) :
    s.Holds shard t r := by
  unfold loadRecord at h
  split at h
  · rename_i store hstore
    exact ⟨store, mem_of_getElem? hstore, h⟩
  · cases h

theorem mem_shards_applyAt :
    store ∈ (s.applyAt c shard op).shards shard' ↔
      if shard' = shard then ∃ store₀ ∈ s.shards shard, (store₀.applyOp c op).1 = store
      else store ∈ s.shards shard' := by
  by_cases h : shard' = shard
  · subst h
    simp [applyAt]
  · simp [applyAt, h]

private theorem mem_modify {α : Type*} {f : α → α} {l : List α} {n : Nat} {x : α}
    (h : x ∈ l.modify n f) : x ∈ l ∨ ∃ y ∈ l, x = f y := by
  induction l generalizing n with
  | nil => simp at h
  | cons y l ih =>
    cases n with
    | zero =>
      rw [modify_zero_cons, mem_cons] at h
      rcases h with rfl | h
      · exact .inr ⟨y, mem_cons_self, rfl⟩
      · exact .inl (mem_cons_of_mem _ h)
    | succ n =>
      rw [modify_succ_cons, mem_cons] at h
      rcases h with rfl | h
      · exact .inl mem_cons_self
      · rcases ih h with h | ⟨z, hz, rfl⟩
        · exact .inl (mem_cons_of_mem _ h)
        · exact .inr ⟨z, mem_cons_of_mem _ hz, rfl⟩

theorem mem_shards_writeRecordKey (h : store ∈ (s.writeRecordKey p ops).shards shard) :
    store ∈ s.shards shard ∨
      shard = p.shard ∧ ∃ store₀ ∈ s.shards shard,
        store = store₀.withCore (store₀.coreDB.applyOps ops) := by
  by_cases hshard : shard = p.shard
  · subst hshard
    simp only [writeRecordKey, Function.update_self] at h
    rcases mem_modify h with h | h
    · exact .inl h
    · exact .inr ⟨rfl, h⟩
  · simp only [writeRecordKey, ne_eq, hshard, not_false_eq_true, Function.update_of_ne] at h
    exact .inl h

/-- Where a record on some replica comes from. -/
inductive RecordOrigin (s : TxnSystem) : TxnEvent → ShardID → Bytes → TxnRecord → Prop where
  | old {e : TxnEvent} {shard : ShardID} {t : Bytes} {r : TxnRecord} :
      s.Holds shard t r → RecordOrigin s e shard t r
  | init (shard : ShardID) (op : InitTransactionOp) (now : Int) :
      RecordOrigin s (.apply shard (.initTransaction op now)) shard op.txnID
        ⟨op.txnID, op.timestamp, 0, .pending, op.participants, [], now, 0⟩
  | commit {shard : ShardID} {t : Bytes} {r : TxnRecord} (now : Int) : s.Holds shard t r →
      RecordOrigin s (.apply shard (.commitTransaction t now)) shard t
        (r.finalize .committed 0 now)
  | abort {shard : ShardID} {t : Bytes} {r : TxnRecord} (now : Int) : s.Holds shard t r →
      RecordOrigin s (.apply shard (.abortTransaction t now)) shard t (r.finalize .aborted 0 now)
  | save {p : RecoveryTurn} : p ∈ s.turns →
      RecordOrigin s (.recoverySave p) p.shard p.txnID { p.record with
        resolvedParticipants := p.record.resolvedParticipants ++ p.newlyResolved }

inductive MessageOrigin (s : TxnSystem) : TxnEvent → ShardID × ResolveIntentsOp → Prop where
  | old {e : TxnEvent} {m : ShardID × ResolveIntentsOp} : m ∈ s.sent → MessageOrigin s e m
  | commit {shard : ShardID} {t : Bytes} {r : TxnRecord} (now : Int) : s.Holds shard t r →
      MessageOrigin s (.apply shard (.commitTransaction t now))
        (shard, ⟨t, .committed, r.version⟩)
  | abort {shard : ShardID} {t : Bytes} {r : TxnRecord} (now : Int) : s.Holds shard t r →
      MessageOrigin s (.apply shard (.abortTransaction t now)) (shard, ⟨t, .aborted, 0⟩)
  | reply {shard : ShardID} {replica : Nat} {t : Bytes} (target : ShardID) :
      s.committed t = true →
      MessageOrigin s (.commitReply shard replica t target)
        (target, ⟨t, .committed, s.commitVersionReply shard replica t⟩)
  | notify {p : RecoveryTurn} {x : Bytes} (target : ShardID) : p ∈ s.turns →
      MessageOrigin s (.recoveryNotify p x) (target, p.resolveOp)
  | self {p : RecoveryTurn} : p ∈ s.turns →
      MessageOrigin s (.recoverySelfResolve p) (p.shard, p.resolveOp)

/-- Where a turn of the recovery loop comes from. -/
inductive TurnOrigin (s : TxnSystem) : TxnEvent → RecoveryTurn → Prop where
  | old {e : TxnEvent} {p : RecoveryTurn} : p ∈ s.turns → TurnOrigin s e p
  | read {shard : ShardID} {replica : Nat} {t : Bytes} {r : TxnRecord} :
      s.loadRecord shard replica t = .ok r → r.status ≠ .pending →
      TurnOrigin s (.recoveryRead shard replica t) ⟨shard, replica, t, r, []⟩
  | answer {p : RecoveryTurn} {x : Bytes} {target : ShardID} : p ∈ s.turns →
      x ∈ p.unresolved → x ∉ p.newlyResolved → decodeShardID x = some target →
      (target, p.record.txnID) ∈ s.resolved →
      TurnOrigin s (.recoveryAnswer p x) { p with newlyResolved := p.newlyResolved ++ [x] }

theorem holds_applyAt (h : (s.applyAt c shard op).Holds shard' t r) :
    RecordOrigin s (.apply shard op) shard' t r := by
  obtain ⟨store, hmem, hload⟩ := h
  rw [mem_shards_applyAt] at hmem
  split at hmem
  · rename_i hshard
    subst hshard
    obtain ⟨store₀, hmem₀, rfl⟩ := hmem
    by_cases hdec : (∃ o now, op = .initTransaction o now) ∨
        (∃ t now, op = .commitTransaction t now) ∨ ∃ t now, op = .abortTransaction t now
    · rcases hdec with ⟨o, now, rfl⟩ | ⟨t', now, rfl⟩ | ⟨t', now, rfl⟩
      · rw [loadTxnRecord_init] at hload
        split at hload
        · rename_i ht
          subst ht
          cases hload
          exact .init shard' o now
        · exact .old ⟨store₀, hmem₀, hload⟩
      · rw [loadTxnRecord_commit] at hload
        split at hload
        · rename_i ht
          subst ht
          cases hload₀ : loadTxnRecord store₀.coreDB t with
          | error err => simp [hload₀, Except.map] at hload
          | ok r₀ =>
            simp only [hload₀, Except.map, Except.ok.injEq] at hload
            subst hload
            exact .commit now ⟨store₀, hmem₀, hload₀⟩
        · exact .old ⟨store₀, hmem₀, hload⟩
      · rw [loadTxnRecord_abort] at hload
        split at hload
        · rename_i ht
          subst ht
          cases hload₀ : loadTxnRecord store₀.coreDB t with
          | error err => simp [hload₀, Except.map] at hload
          | ok r₀ =>
            simp only [hload₀, Except.map, Except.ok.injEq] at hload
            subst hload
            exact .abort now ⟨store₀, hmem₀, hload₀⟩
        · exact .old ⟨store₀, hmem₀, hload⟩
    · have hold := loadTxnRecord_of_not_decision c store₀
        (fun o now hop => hdec (.inl ⟨o, now, hop⟩))
        (fun t now hop => hdec (.inr (.inl ⟨t, now, hop⟩)))
        (fun t now hop => hdec (.inr (.inr ⟨t, now, hop⟩))) hload
      exact .old ⟨store₀, hmem₀, hold⟩
  · exact .old ⟨store, hmem, hload⟩

theorem sent_applyAt (h : m ∈ (s.applyAt c shard op).sent) :
    MessageOrigin s (.apply shard op) m := by
  rcases mem_append.mp h with h | h
  · obtain ⟨o, ho, rfl⟩ := mem_map.mp h
    obtain ⟨store, hstore, hasync⟩ := mem_filterMap.mp ho
    cases op with
    | commitTransaction t now =>
      simp only [asyncResolveIntents] at hasync
      split at hasync
      · rename_i db v hcommit
        cases hasync
        simp only [Antfly.commitTransaction, finalizeTransaction, Fallible.bind_eq_ok,
          Fallible.pure_eq_ok] at hcommit
        obtain ⟨record, hload, hr⟩ := hcommit
        cases hr
        exact .commit now ⟨store, hstore, hload⟩
      · cases hasync
    | abortTransaction t now =>
      simp only [asyncResolveIntents] at hasync
      split at hasync
      · rename_i db habort
        cases hasync
        simp only [Antfly.abortTransaction, finalizeTransaction, Fallible.bind_eq_ok,
          Fallible.pure_eq_ok] at habort
        obtain ⟨_, ⟨record, hload, -⟩, -⟩ := habort
        exact .abort now ⟨store, hstore, hload⟩
      · cases hasync
    | _ => cases hasync
  · exact .old h

theorem record_origin (h : step c s e = some s') (hr : s'.Holds shard t r) :
    RecordOrigin s e shard t r := by
  cases e with
  | apply shard' op =>
    simp only [step] at h
    split at h
    · cases h
      exact holds_applyAt hr
    · cases h
  | commitReply shard' replica t' target =>
    simp only [step] at h
    split at h
    · cases h
      exact .old hr
    · cases h
  | recoveryRead shard' replica t' =>
    simp only [step] at h
    split at h
    · split at h
      · cases h
      · cases h
        exact .old hr
    · cases h
  | recoveryCleanup p cutoff =>
    simp only [step] at h
    split at h
    · cases h
      obtain ⟨store, hmem, hload⟩ := hr
      rcases mem_shards_writeRecordKey hmem with hold | ⟨-, store₀, hmem₀, rfl⟩
      · exact .old ⟨store, hold, hload⟩
      · have hload' := (loadTxnRecord_delete store₀.coreDB t p.txnID).symm.trans hload
        split at hload'
        · cases hload'
        · exact .old ⟨store₀, hmem₀, hload'⟩
    · cases h
  | recoveryNotify p x =>
    simp only [step] at h
    split at h
    · obtain ⟨target, -, rfl⟩ := map_eq_some_iff.mp h
      exact .old hr
    · cases h
  | recoveryAnswer p x =>
    simp only [step] at h
    split at h
    · cases h
      exact .old hr
    · cases h
  | recoverySave p =>
    simp only [step] at h
    split at h
    · rename_i hp
      cases h
      obtain ⟨store, hmem, hload⟩ := hr
      rcases mem_shards_writeRecordKey hmem with hold | ⟨hshard, store₀, hmem₀, rfl⟩
      · exact .old ⟨store, hold, hload⟩
      · have hload' := (loadTxnRecord_set store₀.coreDB t p.txnID _).symm.trans hload
        split at hload'
        · rename_i ht
          cases hload'
          rw [hshard, ht]
          exact .save hp
        · exact .old ⟨store₀, hmem₀, hload'⟩
    · cases h
  | recoverySelfResolve p =>
    simp only [step] at h
    split at h
    · cases h
      exact .old hr
    · cases h

theorem message_origin (h : step c s e = some s') (hm : m ∈ s'.sent) : MessageOrigin s e m := by
  cases e with
  | apply shard' op =>
    simp only [step] at h
    split at h
    · cases h
      exact sent_applyAt hm
    · cases h
  | commitReply shard' replica t' target =>
    simp only [step] at h
    split at h
    · rename_i hc
      cases h
      rcases mem_cons.mp hm with rfl | hm
      · exact .reply target hc
      · exact .old hm
    · cases h
  | recoveryRead shard' replica t' =>
    simp only [step] at h
    split at h
    · split at h
      · cases h
      · cases h
        exact .old hm
    · cases h
  | recoveryCleanup p cutoff =>
    simp only [step] at h
    split at h
    · cases h
      exact .old hm
    · cases h
  | recoveryNotify p x =>
    simp only [step] at h
    split at h
    · rename_i hp
      obtain ⟨target, -, rfl⟩ := map_eq_some_iff.mp h
      rcases mem_cons.mp hm with rfl | hm
      · exact .notify target hp.1
      · exact .old hm
    · cases h
  | recoveryAnswer p x =>
    simp only [step] at h
    split at h
    · cases h
      exact .old hm
    · cases h
  | recoverySave p =>
    simp only [step] at h
    split at h
    · cases h
      exact .old hm
    · cases h
  | recoverySelfResolve p =>
    simp only [step] at h
    split at h
    · rename_i hp
      cases h
      rcases mem_cons.mp hm with rfl | hm
      · exact .self hp
      · exact .old hm
    · cases h

theorem turn_origin (h : step c s e = some s') (hp : p ∈ s'.turns) : TurnOrigin s e p := by
  cases e with
  | recoveryRead shard' replica t' =>
    simp only [step] at h
    split at h
    · rename_i record hload
      split at h
      · cases h
      · rename_i hpending
        cases h
        rcases mem_cons.mp hp with rfl | hp
        · exact .read hload hpending
        · exact .old hp
    · cases h
  | recoveryAnswer p' x =>
    simp only [step] at h
    split at h
    · rename_i hguard
      cases h
      rcases mem_cons.mp hp with rfl | hp
      · obtain ⟨hp', hx, hnew, hany⟩ := hguard
        obtain ⟨target, htarget, hres⟩ := (any_eq_true _ _).mp hany
        exact .answer hp' hx hnew htarget (of_decide_eq_true hres)
      · exact .old hp
    · cases h
  | recoveryNotify p' x =>
    simp only [step] at h
    split at h
    · obtain ⟨target, -, rfl⟩ := map_eq_some_iff.mp h
      exact .old hp
    · cases h
  | apply _ _ | commitReply _ _ _ _ | recoveryCleanup _ _ | recoverySave _
  | recoverySelfResolve _ =>
    simp only [step] at h
    split at h
    · cases h
      exact .old hp
    · cases h

theorem sent_mono (h : step c s e = some s') (hm : m ∈ s.sent) : m ∈ s'.sent := by
  cases e with
  | apply shard op =>
    simp only [step] at h
    split at h
    · cases h
      exact mem_append_right _ hm
    · cases h
  | recoveryRead shard replica t =>
    simp only [step] at h
    split at h
    · split at h
      · cases h
      · cases h
        exact hm
    · cases h
  | recoveryNotify p x =>
    simp only [step] at h
    split at h
    · obtain ⟨target, -, rfl⟩ := map_eq_some_iff.mp h
      exact mem_cons_of_mem _ hm
    · cases h
  | commitReply _ _ _ _ | recoverySelfResolve _ =>
    simp only [step] at h
    split at h
    · cases h
      exact mem_cons_of_mem _ hm
    · cases h
  | recoveryCleanup _ _ | recoverySave _ | recoveryAnswer _ _ =>
    simp only [step] at h
    split at h
    · cases h
      exact hm
    · cases h

theorem announce_commit (now : Int) (h : s.Holds shard t r) :
    (shard, ⟨t, .committed, r.version⟩) ∈ (s.applyAt c shard (.commitTransaction t now)).sent := by
  obtain ⟨store, hstore, hload⟩ := h
  refine mem_append_left _ (mem_map.mpr ⟨_, mem_filterMap.mpr ⟨store, hstore, ?_⟩,
    rfl⟩)
  simp [asyncResolveIntents, Antfly.commitTransaction, finalizeTransaction, hload,
    TxnRecord.finalize, bind, Except.bind, pure, Except.pure]

theorem announce_abort (now : Int) (h : s.Holds shard t r) :
    (shard, ⟨t, .aborted, 0⟩) ∈ (s.applyAt c shard (.abortTransaction t now)).sent := by
  obtain ⟨store, hstore, hload⟩ := h
  refine mem_append_left _ (mem_map.mpr ⟨_, mem_filterMap.mpr ⟨store, hstore, ?_⟩,
    rfl⟩)
  simp [asyncResolveIntents, Antfly.abortTransaction, finalizeTransaction, hload, bind,
    Except.bind, pure, Except.pure]

/-- Some replica of the shard holds an intent of the transaction. -/
def HoldsIntent (s : TxnSystem) (shard : ShardID) (t : Bytes) : Prop :=
  ∃ store ∈ s.shards shard, Antfly.HoldsIntent store.coreDB t

theorem holdsIntent_writeRecordKey (hops : ∀ x i, .set x (.txnIntent i) ∉ ops)
    (h : (s.writeRecordKey p ops).HoldsIntent shard t) :
    s.HoldsIntent shard t := by
  obtain ⟨store, hstore, u, i, hget⟩ := h
  rcases mem_shards_writeRecordKey hstore with hold | ⟨-, store₀, hmem₀, rfl⟩
  · exact ⟨store, hold, u, i, hget⟩
  · rcases get?_applyOps_cases hget with hset | hold
    · exact absurd hset (hops _ _)
    · exact ⟨store₀, hmem₀, u, i, hold⟩

theorem holdsIntent_origin (h : step c s e = some s') (hi : s'.HoldsIntent shard t) :
    s.HoldsIntent shard t ∨
      ∃ o u u', e = .apply shard (.writeIntent o) ∧
        makeIntentKey o.txnID u' = makeIntentKey t u := by
  cases e with
  | apply shard' op =>
    simp only [step] at h
    split at h
    swap
    · cases h
    cases h
    obtain ⟨store, hstore, hget⟩ := hi
    rw [mem_shards_applyAt] at hstore
    split at hstore
    · rename_i hshard
      subst hshard
      obtain ⟨store₀, hmem₀, rfl⟩ := hstore
      rcases holdsIntent_applyOp hget with hold | ⟨o, u, u', rfl, hkey⟩
      · exact .inl ⟨store₀, hmem₀, hold⟩
      · exact .inr ⟨o, u, u', rfl, hkey⟩
    · exact .inl ⟨store, hstore, hget⟩
  | recoveryCleanup p cutoff =>
    simp only [step] at h
    split at h
    · cases h
      exact .inl (holdsIntent_writeRecordKey (by simp) hi)
    · cases h
  | recoverySave p =>
    simp only [step] at h
    split at h
    · cases h
      exact .inl (holdsIntent_writeRecordKey (by simp) hi)
    · cases h
  | recoveryRead shard' replica t' =>
    simp only [step] at h
    split at h
    · split at h
      · cases h
      · cases h
        exact .inl hi
    · cases h
  | recoveryNotify p x =>
    simp only [step] at h
    split at h
    · obtain ⟨target, -, rfl⟩ := map_eq_some_iff.mp h
      exact .inl hi
    · cases h
  | commitReply _ _ _ _ | recoveryAnswer _ _ | recoverySelfResolve _ =>
    simp only [step] at h
    split at h
    · cases h
      exact .inl hi
    · cases h

/-- A transaction a shard has resolved was resolved before, or is resolved by this step, which
leaves no intent of it. -/
theorem resolved_origin (h : step c s e = some s') (hr : (shard, t) ∈ s'.resolved) :
    (shard, t) ∈ s.resolved ∨
      (t.length = uuidLen → ¬ s'.HoldsIntent shard t) := by
  cases e with
  | apply shard' op =>
    simp only [step] at h
    split at h
    swap
    · cases h
    cases h
    rcases mem_append.mp hr with hnew | hold
    · cases op with
      | resolveIntents op =>
        cases mem_singleton.mp hnew
        refine .inr fun ht => ?_
        rintro ⟨store, hstore, hget⟩
        rw [mem_shards_applyAt, if_pos rfl] at hstore
        obtain ⟨store₀, -, rfl⟩ := hstore
        exact resolveIntents_clears ht hget
      | _ => cases hnew
    · exact .inl hold
  | recoveryRead shard' replica t' =>
    simp only [step] at h
    split at h
    · split at h
      · cases h
      · cases h
        exact .inl hr
    · cases h
  | recoveryNotify p x =>
    simp only [step] at h
    split at h
    · obtain ⟨target, -, rfl⟩ := map_eq_some_iff.mp h
      exact .inl hr
    · cases h
  | commitReply _ _ _ _ | recoveryAnswer _ _ | recoverySelfResolve _ | recoveryCleanup _ _
  | recoverySave _ =>
    simp only [step] at h
    split at h
    · cases h
      exact .inl hr
    · cases h

/-- What has been applied is never forgotten, and only a `WriteIntent` adds to what was written. -/
theorem past_step (h : step c s e = some s') :
    (∀ x ∈ s.resolved, x ∈ s'.resolved) ∧ (∀ x ∈ s.written, x ∈ s'.written) ∧
      ∀ x ∈ s'.written, x ∈ s.written ∨
        ∃ o, e = .apply x.1 (.writeIntent o) ∧ o.txnID = x.2 := by
  cases e with
  | apply shard' op =>
    simp only [step] at h
    split at h
    swap
    · cases h
    cases h
    refine ⟨fun x => mem_append_right _, fun x => mem_append_right _, fun x hx => ?_⟩
    rcases mem_append.mp hx with hnew | hold
    · cases op with
      | writeIntent op =>
        cases mem_singleton.mp hnew
        exact .inr ⟨op, rfl, rfl⟩
      | _ => cases hnew
    · exact .inl hold
  | recoveryRead shard' replica t' =>
    simp only [step] at h
    split at h
    · split at h
      · cases h
      · cases h
        exact ⟨fun _ => id, fun _ => id, fun _ => .inl⟩
    · cases h
  | recoveryNotify p x' =>
    simp only [step] at h
    split at h
    · obtain ⟨target, -, rfl⟩ := map_eq_some_iff.mp h
      exact ⟨fun _ => id, fun _ => id, fun _ => .inl⟩
    · cases h
  | commitReply _ _ _ _ | recoveryAnswer _ _ | recoverySelfResolve _ | recoveryCleanup _ _
  | recoverySave _ =>
    simp only [step] at h
    split at h
    · cases h
      exact ⟨fun _ => id, fun _ => id, fun _ => .inl⟩
    · cases h

theorem deleted_origin (h : step c s e = some s') (hx : x ∈ s'.deleted) :
    x ∈ s.deleted ∨ ∃ p cutoff, e = .recoveryCleanup p cutoff ∧ p ∈ s.turns ∧
      p.cleansUp cutoff = true ∧ x = (p.shard, p.txnID) := by
  cases e with
  | recoveryCleanup p cutoff =>
    simp only [step] at h
    split at h
    · rename_i hp
      cases h
      rcases mem_cons.mp hx with rfl | hx
      · exact .inr ⟨p, cutoff, rfl, hp.1, hp.2, rfl⟩
      · exact .inl hx
    · cases h
  | recoveryRead shard' replica t' =>
    simp only [step] at h
    split at h
    · split at h
      · cases h
      · cases h
        exact .inl hx
    · cases h
  | recoveryNotify p x' =>
    simp only [step] at h
    split at h
    · obtain ⟨target, -, rfl⟩ := map_eq_some_iff.mp h
      exact .inl hx
    · cases h
  | apply _ _ | commitReply _ _ _ _ | recoveryAnswer _ _ | recoverySelfResolve _
  | recoverySave _ =>
    simp only [step] at h
    split at h
    · cases h
      exact .inl hx
    · cases h

end TxnSystem

end Antfly
