import Antfly.Txn.Steps

/-!
Every handler of a transaction rewrites the whole record and looks at no field of it first.  So
the decision is stable exactly as long as nobody asks for another one: no commit where the record
is aborted, no abort where it is committed, and no second initialisation once it is decided.
-/

namespace Antfly

variable (c : Codec) (coordinator : ShardID) (txnID : Bytes)

/-- Records, and the copies of them turns work on, carry the id they are filed under. -/
structure TxnSystem.Keyed (s : TxnSystem) : Prop where
  records : ∀ shard t record, s.Holds shard t record → record.txnID = t
  turns : ∀ p ∈ s.turns, p.record.txnID = p.txnID

/-- Nothing is known of the transaction: no replica has anything under its record key, no turn of a
recovery loop works on it, and no resolution was sent. -/
structure TxnSystem.Unknown (s : TxnSystem) : Prop where
  keyed : s.Keyed
  records : ∀ shard, ∀ store ∈ s.shards shard, loadTxnRecord store.coreDB txnID = .error .notFound
  turns : ∀ p ∈ s.turns, p.txnID ≠ txnID
  sent : ∀ m ∈ s.sent, m.2.txnID ≠ txnID

/-- The operation leaves the record of the transaction as it is, on every replica. -/
def LeavesRecord (s : TxnSystem) (shard : ShardID) (op : RaftOp) : Prop :=
  ∀ store ∈ s.shards shard,
    (store.applyOp c op).1.coreDB.get? (makeTxnKey txnID) = store.coreDB.get? (makeTxnKey txnID)

/-- The steps that respect a decision.  The transaction is initialised, committed and aborted on
its coordinator only; initialised only before it is decided, committed only where it is not
aborted, and aborted only where it is not committed.  The orchestrator reads the commit version
back from a replica that has the record. -/
def RespectsDecision (s : TxnSystem) : TxnEvent → Prop
  | .apply shard (.initTransaction op _) => op.txnID = txnID →
      shard = coordinator ∧ ∀ m ∈ s.sent, m.2.txnID ≠ txnID
  | .apply shard (.commitTransaction t _) => t = txnID →
      shard = coordinator ∧ ∀ record, s.Holds coordinator txnID record → record.status ≠ .aborted
  | .apply shard (.abortTransaction t _) => t = txnID →
      shard = coordinator ∧ ∀ record, s.Holds coordinator txnID record → record.status ≠ .committed
  | .apply shard op => shard = coordinator → LeavesRecord c txnID s shard op
  | .commitReply shard replica t _ => t = txnID →
      shard = coordinator ∧ ∃ record, s.loadRecord coordinator replica txnID = .ok record
  | _ => True

/-- From `s` on to `s'` the decision is stable: a decided record keeps its status, and all
resolutions sent carry one decision, the record's, and one commit version. -/
structure DecisionStable (s s' : TxnSystem) : Prop where
  status : ∀ record, s.Holds coordinator txnID record → record.status ≠ .pending →
    ∀ record', s'.Holds coordinator txnID record' → record'.status = record.status
  sentDecided : ∀ m ∈ s'.sent, m.2.txnID = txnID → m.2.status ≠ .pending
  sentRecord : ∀ record, s.Holds coordinator txnID record → record.status ≠ .pending →
    ∀ m ∈ s'.sent, m.2.txnID = txnID → m.2.status = record.status
  sentAgree : ∀ m ∈ s'.sent, ∀ m' ∈ s'.sent, m.2.txnID = txnID → m'.2.txnID = txnID →
    m.2.status = m'.2.status ∧
      (m.2.status = .committed → m.2.commitVersion = m'.2.commitVersion)

/-- What holds at all times: only the coordinator keeps a record of the transaction. -/
structure DecisionBase (s : TxnSystem) : Prop where
  keyed : s.Keyed
  records : ∀ shard record, s.Holds shard txnID record → shard = coordinator
  turns : ∀ p ∈ s.turns, p.txnID = txnID → p.shard = coordinator

/-- Before the decision all replicas of the coordinator read the same: nothing, or one pending
record; and nobody speaks of the transaction. -/
structure Undecided (s : TxnSystem) (o : Except TxnError TxnRecord) : Prop where
  records : ∀ store ∈ s.shards coordinator, loadTxnRecord store.coreDB txnID = o
  pending : ∀ record, o = .ok record → record.status = .pending
  turns : ∀ p ∈ s.turns, p.txnID ≠ txnID
  sent : ∀ m ∈ s.sent, m.2.txnID ≠ txnID

/-- After the decision every record, turn and message carries it, and a commit its version. -/
structure Decided (s : TxnSystem) (d : TxnStatus) (v : Nat) : Prop where
  decision : d ≠ .pending
  records : ∀ record, s.Holds coordinator txnID record → record.status = d ∧ record.version = v
  turns : ∀ p ∈ s.turns, p.txnID = txnID → p.record.status = d ∧ p.record.version = v
  announced : ∃ m ∈ s.sent, m.2.txnID = txnID
  sent : ∀ m ∈ s.sent, m.2.txnID = txnID →
    m.2.status = d ∧ (d = .committed → m.2.commitVersion = v)

section Records

theorem TxnRecord.version_finalize_committed (r : TxnRecord) (now : Int) :
    (r.finalize .committed 0 now).version = r.version := by
  by_cases hr : 0 < r.commitVersion
  · simp [finalize, version, hr]
  · by_cases ht : 0 < r.timestamp
    · simp [finalize, version, hr, ht]
    · simp [finalize, version, hr]

theorem TxnRecord.txnID_finalize (r : TxnRecord) (d : TxnStatus) (ctxTimestamp : Nat) (now : Int) :
    (r.finalize d ctxTimestamp now).txnID = r.txnID := by
  cases d <;> rfl

theorem TxnRecord.version_finalize_aborted (r : TxnRecord) (now : Int) :
    (r.finalize .aborted 0 now).version = r.version := rfl

end Records

section Steps

variable {c} {coordinator} {txnID} {s s' : TxnSystem} {e : TxnEvent}

theorem TxnSystem.Keyed.step (he : s.step c e = some s') (h : s.Keyed) : s'.Keyed := by
  refine ⟨?_, ?_⟩
  · intro shard t record hr
    cases TxnSystem.record_origin he hr with
    | old hold => exact h.records shard t record hold
    | init => rfl
    | commit now hold =>
      rw [TxnRecord.txnID_finalize]
      exact h.records _ _ _ hold
    | abort now hold =>
      rw [TxnRecord.txnID_finalize]
      exact h.records _ _ _ hold
    | save hp => exact h.turns _ hp
  · intro p hp
    cases TxnSystem.turn_origin he hp with
    | old hold => exact h.turns p hold
    | read hload _ => exact h.records _ _ _ (TxnSystem.holds_of_loadRecord hload)
    | @answer p₀ x target hold => exact h.turns p₀ hold

theorem DecisionBase.step (hok : RespectsDecision c coordinator txnID s e)
    (he : s.step c e = some s') (h : DecisionBase coordinator txnID s) :
    DecisionBase coordinator txnID s' := by
  refine ⟨h.keyed.step he, ?_, ?_⟩
  · intro shard record hr
    generalize ht : txnID = t at hr
    cases TxnSystem.record_origin he hr with
    | old hold => exact h.records shard record (ht ▸ hold)
    | init shard op now => exact (hok ht.symm).1
    | commit now hold => exact h.records _ _ (ht ▸ hold)
    | abort now hold => exact h.records _ _ (ht ▸ hold)
    | save hp => exact h.turns _ hp ht.symm
  · intro p hp ht
    cases TxnSystem.turn_origin he hp with
    | old hold => exact h.turns p hold ht
    | read hload _ =>
      change _ = txnID at ht
      subst ht
      exact h.records _ _ (TxnSystem.holds_of_loadRecord hload)
    | @answer p₀ x target hold => exact h.turns p₀ hold ht

variable {shard : ShardID} {d : TxnStatus} {v : Nat} {o : Except TxnError TxnRecord}
variable {record : TxnRecord}

theorem TxnSystem.commitVersionReply_eq {replica : Nat} {t : Bytes} {r : TxnRecord}
    (h : s.loadRecord shard replica t = .ok r) :
    s.commitVersionReply shard replica t = r.version := by
  rw [commitVersionReply, h]

theorem Decided.step (hok : RespectsDecision c coordinator txnID s e) (he : s.step c e = some s')
    (hbase : DecisionBase coordinator txnID s) (h : Decided coordinator txnID s d v) :
    Decided coordinator txnID s' d v := by
  have hd := h.decision
  obtain ⟨m₀, hm₀, hm₀t⟩ := h.announced
  refine ⟨hd, ?_, ?_, ⟨m₀, TxnSystem.sent_mono he hm₀, hm₀t⟩, ?_⟩
  · intro record hr
    generalize ht : txnID = t at hr
    generalize hs : coordinator = shard at hr
    cases TxnSystem.record_origin he hr with
    | old hold => exact h.records record (ht ▸ hs ▸ hold)
    | init shard op now => exact absurd hm₀t ((hok ht.symm).2 m₀ hm₀)
    | @commit _ _ r now hold =>
      subst ht hs
      obtain ⟨hstatus, hversion⟩ := h.records r hold
      have hnot := (hok rfl).2 r hold
      rw [TxnRecord.version_finalize_committed]
      refine ⟨?_, hversion⟩
      cases d with
      | pending => exact absurd rfl hd
      | committed => rfl
      | aborted => exact absurd hstatus hnot
    | @abort _ _ r now hold =>
      subst ht hs
      obtain ⟨hstatus, hversion⟩ := h.records r hold
      have hnot := (hok rfl).2 r hold
      rw [TxnRecord.version_finalize_aborted]
      refine ⟨?_, hversion⟩
      cases d with
      | pending => exact absurd rfl hd
      | committed => exact absurd hstatus hnot
      | aborted => rfl
    | save hp => exact h.turns _ hp ht.symm
  · intro p hp ht
    cases TxnSystem.turn_origin he hp with
    | old hold => exact h.turns p hold ht
    | read hload _ =>
      change _ = txnID at ht
      subst ht
      have hold := TxnSystem.holds_of_loadRecord hload
      have hshard := hbase.records _ _ hold
      subst hshard
      exact h.records _ hold
    | @answer p₀ x target hold => exact h.turns p₀ hold ht
  · intro m hm hmt
    cases TxnSystem.message_origin he hm with
    | old hold => exact h.sent m hold hmt
    | @commit shard t r now hold =>
      change t = txnID at hmt
      subst hmt
      obtain ⟨hshard, hnot⟩ := hok rfl
      subst hshard
      obtain ⟨hstatus, hversion⟩ := h.records r hold
      have hnot := hnot r hold
      cases d with
      | pending => exact absurd rfl hd
      | committed => exact ⟨rfl, fun _ => hversion⟩
      | aborted => exact absurd hstatus hnot
    | @abort shard t r now hold =>
      change t = txnID at hmt
      subst hmt
      obtain ⟨hshard, hnot⟩ := hok rfl
      subst hshard
      obtain ⟨hstatus, hversion⟩ := h.records r hold
      have hnot := hnot r hold
      cases d with
      | pending => exact absurd rfl hd
      | committed => exact absurd hstatus hnot
      | aborted => exact ⟨rfl, fun hc => by cases hc⟩
    | @reply shard replica t target hcommitted =>
      change t = txnID at hmt
      subst hmt
      obtain ⟨hshard, record, hload⟩ := hok rfl
      subst hshard
      obtain ⟨m, hm, hmc⟩ := List.any_eq_true.mp hcommitted
      simp only [Bool.and_eq_true, decide_eq_true_eq] at hmc
      have hdc := (h.sent m hm hmc.1).1
      rw [hmc.2] at hdc
      refine ⟨hdc, fun _ => ?_⟩
      change s.commitVersionReply shard replica t = v
      rw [TxnSystem.commitVersionReply_eq hload]
      exact (h.records record (TxnSystem.holds_of_loadRecord hload)).2
    | @notify p x target hp =>
      have hpt : p.txnID = txnID := (hbase.keyed.turns p hp).symm.trans hmt
      obtain ⟨hstatus, hversion⟩ := h.turns p hp hpt
      exact ⟨hstatus, fun _ => hversion⟩
    | @self p hp =>
      have hpt : p.txnID = txnID := (hbase.keyed.turns p hp).symm.trans hmt
      obtain ⟨hstatus, hversion⟩ := h.turns p hp hpt
      exact ⟨hstatus, fun _ => hversion⟩

theorem loadTxnRecord_writeRecordKey {p : RecoveryTurn} {ops : List PebbleOp}
    (hops : ∀ db, loadTxnRecord (db.applyOps ops) txnID = loadTxnRecord db txnID)
    (h : ∀ store ∈ s.shards shard, loadTxnRecord store.coreDB txnID = o) :
    ∀ store ∈ (s.writeRecordKey p ops).shards shard, loadTxnRecord store.coreDB txnID = o := by
  intro store hstore
  rcases TxnSystem.mem_shards_writeRecordKey hstore with hold | ⟨-, store₀, hstore₀, rfl⟩
  · exact h store hold
  · exact (hops store₀.coreDB).trans (h store₀ hstore₀)

/-- What an operation does to the record, the same on all replicas of the coordinator. -/
def recordAfter (txnID : Bytes) (o : Except TxnError TxnRecord) :
    RaftOp → Except TxnError TxnRecord
  | .initTransaction op now =>
    if txnID = op.txnID then
      .ok ⟨op.txnID, op.timestamp, 0, .pending, op.participants, [], now, 0⟩
    else o
  | .commitTransaction t now => if txnID = t then o.map (·.finalize .committed 0 now) else o
  | .abortTransaction t now => if txnID = t then o.map (·.finalize .aborted 0 now) else o
  | _ => o

theorem Undecided.records_applyAt {op : RaftOp}
    (hok : RespectsDecision c coordinator txnID s (.apply coordinator op))
    (h : Undecided coordinator txnID s o) :
    ∀ store ∈ (s.applyAt c coordinator op).shards coordinator,
      loadTxnRecord store.coreDB txnID = recordAfter txnID o op := by
  intro store hstore
  rw [TxnSystem.mem_shards_applyAt, if_pos rfl] at hstore
  obtain ⟨store₀, hmem, rfl⟩ := hstore
  have hload := h.records store₀ hmem
  cases op with
  | initTransaction op now => rw [loadTxnRecord_init, hload, recordAfter]
  | commitTransaction t now => rw [loadTxnRecord_commit, hload, recordAfter]
  | abortTransaction t now => rw [loadTxnRecord_abort, hload, recordAfter]
  | _ => exact (loadTxnRecord_congr (hok rfl store₀ hmem)).trans hload

/-- The event asks for a decision on the transaction. -/
def DecidesOn (coordinator : ShardID) (txnID : Bytes) (e : TxnEvent) : Prop :=
  ∃ now, e = .apply coordinator (.commitTransaction txnID now) ∨
    e = .apply coordinator (.abortTransaction txnID now)

theorem Undecided.load_of_holds (h : Undecided coordinator txnID s o)
    (hr : s.Holds coordinator txnID record) :
    o = .ok record := by
  obtain ⟨store, hstore, hload⟩ := hr
  rw [← h.records store hstore, hload]

theorem Undecided.turns_step (he : s.step c e = some s')
    (hbase : DecisionBase coordinator txnID s) (h : Undecided coordinator txnID s o) :
    ∀ p ∈ s'.turns, p.txnID ≠ txnID := by
  intro p hp ht
  cases TxnSystem.turn_origin he hp with
  | old hold => exact h.turns p hold ht
  | read hload hdecided =>
    change _ = txnID at ht
    subst ht
    have hold := TxnSystem.holds_of_loadRecord hload
    have hshard := hbase.records _ _ hold
    subst hshard
    exact hdecided (h.pending _ (h.load_of_holds hold))
  | @answer p₀ x target hold => exact h.turns p₀ hold ht

theorem Undecided.sent_step (he : s.step c e = some s') (hbase : DecisionBase coordinator txnID s)
    (h : Undecided coordinator txnID s o)
    (hno : ¬ (DecidesOn coordinator txnID e ∧ ∃ record, s.Holds coordinator txnID record)) :
    ∀ m ∈ s'.sent, m.2.txnID ≠ txnID := by
  intro m hm hmt
  cases TxnSystem.message_origin he hm with
  | old hold => exact h.sent m hold hmt
  | @commit shard t r now hold =>
    change t = txnID at hmt
    subst hmt
    have hshard := hbase.records shard r hold
    subst hshard
    exact hno ⟨⟨now, .inl rfl⟩, r, hold⟩
  | @abort shard t r now hold =>
    change t = txnID at hmt
    subst hmt
    have hshard := hbase.records shard r hold
    subst hshard
    exact hno ⟨⟨now, .inr rfl⟩, r, hold⟩
  | @reply shard replica t target hcommitted =>
    obtain ⟨m', hm', hmc⟩ := List.any_eq_true.mp hcommitted
    simp only [Bool.and_eq_true, decide_eq_true_eq] at hmc
    exact h.sent m' hm' (hmc.1.trans hmt)
  | @notify p x target hp => exact h.turns p hp ((hbase.keyed.turns p hp).symm.trans hmt)
  | @self p hp => exact h.turns p hp ((hbase.keyed.turns p hp).symm.trans hmt)

/-- Without a decision the replicas of the coordinator still read the same afterwards. -/
theorem Undecided.records_step (hok : RespectsDecision c coordinator txnID s e)
    (he : s.step c e = some s') (h : Undecided coordinator txnID s o)
    (hno : ¬ (DecidesOn coordinator txnID e ∧ ∃ record, s.Holds coordinator txnID record)) :
    ∃ o', (∀ store ∈ s'.shards coordinator, loadTxnRecord store.coreDB txnID = o') ∧
      ∀ record, o' = .ok record → record.status = .pending := by
  cases e with
  | apply shard op =>
    simp only [TxnSystem.step] at he
    split at he
    swap
    · cases he
    cases he
    by_cases hshard : shard = coordinator
    swap
    · refine ⟨o, ?_, h.pending⟩
      intro store hstore
      rw [TxnSystem.mem_shards_applyAt, if_neg (Ne.symm hshard)] at hstore
      exact h.records store hstore
    subst hshard
    by_cases hempty : s.shards shard = []
    · refine ⟨.error .notFound, ?_, fun _ hr => by cases hr⟩
      intro store hstore
      rw [TxnSystem.mem_shards_applyAt, if_pos rfl, hempty] at hstore
      simp at hstore
    · refine ⟨_, h.records_applyAt hok, ?_⟩
      obtain ⟨store, hstore⟩ := List.exists_mem_of_ne_nil _ hempty
      have hnone : DecidesOn shard txnID (.apply shard op) → ∀ record, o ≠ .ok record := by
        rintro hdec record rfl
        exact hno ⟨hdec, record, store, hstore, h.records store hstore⟩
      intro record hr
      cases op with
      | initTransaction op now =>
        rw [recordAfter] at hr
        split at hr
        · cases hr
          rfl
        · exact h.pending record hr
      | commitTransaction t now =>
        rw [recordAfter] at hr
        split at hr
        · rename_i ht
          subst ht
          cases o with
          | error err => cases hr
          | ok record₀ => exact absurd rfl (hnone ⟨now, .inl rfl⟩ record₀)
        · exact h.pending record hr
      | abortTransaction t now =>
        rw [recordAfter] at hr
        split at hr
        · rename_i ht
          subst ht
          cases o with
          | error err => cases hr
          | ok record₀ => exact absurd rfl (hnone ⟨now, .inr rfl⟩ record₀)
        · exact h.pending record hr
      | _ => exact h.pending record hr
  | recoveryCleanup p cutoff =>
    simp only [TxnSystem.step] at he
    split at he
    · rename_i hp
      cases he
      refine ⟨o, loadTxnRecord_writeRecordKey (fun db => ?_) h.records, h.pending⟩
      rw [loadTxnRecord_delete, if_neg (Ne.symm (h.turns p hp.1))]
    · cases he
  | recoverySave p =>
    simp only [TxnSystem.step] at he
    split at he
    · rename_i hp
      cases he
      refine ⟨o, loadTxnRecord_writeRecordKey (fun db => ?_) h.records, h.pending⟩
      rw [loadTxnRecord_set, if_neg (Ne.symm (h.turns p hp))]
    · cases he
  | recoveryRead shard replica t =>
    simp only [TxnSystem.step] at he
    split at he
    · split at he
      · cases he
      · cases he
        exact ⟨o, h.records, h.pending⟩
    · cases he
  | recoveryNotify p x =>
    simp only [TxnSystem.step] at he
    split at he
    · obtain ⟨target, -, rfl⟩ := Option.map_eq_some_iff.mp he
      exact ⟨o, h.records, h.pending⟩
    · cases he
  | commitReply _ _ _ _ | recoveryAnswer _ _ | recoverySelfResolve _ =>
    simp only [TxnSystem.step] at he
    split at he
    · cases he
      exact ⟨o, h.records, h.pending⟩
    · cases he

/-- The first decision that finds the record decides the transaction on every replica. -/
theorem Undecided.decide (hok : RespectsDecision c coordinator txnID s e)
    (he : s.step c e = some s') (hbase : DecisionBase coordinator txnID s)
    (h : Undecided coordinator txnID s o) (hdec : DecidesOn coordinator txnID e)
    (hr : s.Holds coordinator txnID record) :
    ∃ d v, Decided coordinator txnID s' d v := by
  obtain rfl := h.load_of_holds hr
  have hturns := h.turns_step he hbase
  obtain ⟨now, rfl | rfl⟩ := hdec
  · simp only [TxnSystem.step] at he
    split at he
    swap
    · cases he
    cases he
    refine ⟨.committed, record.version, by decide, ?_, fun p hp ht => absurd ht (hturns p hp),
      ⟨_, TxnSystem.announce_commit now hr, rfl⟩, ?_⟩
    · rintro record' ⟨store, hstore, hload⟩
      rw [h.records_applyAt hok store hstore, recordAfter, if_pos rfl] at hload
      cases hload
      exact ⟨rfl, record.version_finalize_committed now⟩
    · intro m hm hmt
      generalize hop : RaftOp.commitTransaction txnID now = op at hm
      cases TxnSystem.sent_applyAt hm with
      | old hold => exact absurd hmt (h.sent m hold)
      | @commit _ t r now hold =>
        change t = txnID at hmt
        subst hmt
        have hrr := h.load_of_holds hold
        cases hrr
        exact ⟨rfl, fun _ => rfl⟩
      | abort => cases hop
  · simp only [TxnSystem.step] at he
    split at he
    swap
    · cases he
    cases he
    refine ⟨.aborted, record.version, by decide, ?_, fun p hp ht => absurd ht (hturns p hp),
      ⟨_, TxnSystem.announce_abort now hr, rfl⟩, ?_⟩
    · rintro record' ⟨store, hstore, hload⟩
      rw [h.records_applyAt hok store hstore, recordAfter, if_pos rfl] at hload
      cases hload
      exact ⟨rfl, record.version_finalize_aborted now⟩
    · intro m hm hmt
      generalize hop : RaftOp.abortTransaction txnID now = op at hm
      cases TxnSystem.sent_applyAt hm with
      | old hold => exact absurd hmt (h.sent m hold)
      | commit => cases hop
      | abort => exact ⟨rfl, fun hc => by cases hc⟩

theorem Undecided.step (hok : RespectsDecision c coordinator txnID s e)
    (he : s.step c e = some s') (hbase : DecisionBase coordinator txnID s)
    (h : Undecided coordinator txnID s o) :
    (∃ o', Undecided coordinator txnID s' o') ∨ ∃ d v, Decided coordinator txnID s' d v := by
  by_cases hno : DecidesOn coordinator txnID e ∧ ∃ record, s.Holds coordinator txnID record
  · obtain ⟨hdec, record, hr⟩ := hno
    exact .inr (h.decide hok he hbase hdec hr)
  · obtain ⟨o', hrecords, hpending⟩ := h.records_step hok he hno
    exact .inl ⟨o', hrecords, hpending, h.turns_step he hbase, h.sent_step he hbase hno⟩

/-- The invariant: the transaction is undecided, or decided for good. -/
def DecisionInv (coordinator : ShardID) (txnID : Bytes) (s : TxnSystem) : Prop :=
  DecisionBase coordinator txnID s ∧
    ((∃ o, Undecided coordinator txnID s o) ∨ ∃ d v, Decided coordinator txnID s d v)

theorem DecisionInv.step (hok : RespectsDecision c coordinator txnID s e)
    (he : s.step c e = some s') (h : DecisionInv coordinator txnID s) :
    DecisionInv coordinator txnID s' := by
  obtain ⟨hbase, ⟨o, hund⟩ | ⟨d, v, hdec⟩⟩ := h
  · exact ⟨hbase.step hok he, hund.step hok he hbase⟩
  · exact ⟨hbase.step hok he, .inr ⟨d, v, hdec.step hok he hbase⟩⟩

theorem DecisionInv.of_unknown (h : s.Unknown txnID) : DecisionInv coordinator txnID s := by
  refine ⟨⟨h.keyed, ?_, fun p hp ht => absurd ht (h.turns p hp)⟩,
    .inl ⟨.error .notFound, h.records coordinator, fun _ hr => (by cases hr), h.turns, h.sent⟩⟩
  rintro shard record ⟨store, hstore, hload⟩
  rw [h.records shard store hstore] at hload
  cases hload

theorem Decided.run {es : List TxnEvent}
    (hrun : Run (TxnSystem.step c) (RespectsDecision c coordinator txnID) s es s')
    (hbase : DecisionBase coordinator txnID s) (h : Decided coordinator txnID s d v) :
    Decided coordinator txnID s' d v := by
  have hstep : ∀ s e s', RespectsDecision c coordinator txnID s e → s.step c e = some s' →
      DecisionBase coordinator txnID s ∧ Decided coordinator txnID s d v →
      DecisionBase coordinator txnID s' ∧ Decided coordinator txnID s' d v :=
    fun _ _ _ hok he hi => ⟨hi.1.step hok he, hi.2.step hok he hi.1⟩
  exact (hrun.invariant hstep ⟨hbase, h⟩).2

/-- In every run that respects decisions, a decided record keeps its decision, and all resolutions
sent for the transaction carry one decision and one commit version. -/
theorem decision_stable {s₀ : TxnSystem} {es es' : List TxnEvent} (h₀ : s₀.Unknown txnID)
    (hrun : Run (TxnSystem.step c) (RespectsDecision c coordinator txnID) s₀ es s)
    (hrun' : Run (TxnSystem.step c) (RespectsDecision c coordinator txnID) s es' s') :
    DecisionStable coordinator txnID s s' := by
  have hinv : DecisionInv coordinator txnID s :=
    hrun.invariant (fun _ _ _ => DecisionInv.step) (DecisionInv.of_unknown h₀)
  have hinv' : DecisionInv coordinator txnID s' :=
    hrun'.invariant (fun _ _ _ => DecisionInv.step) hinv
  have hkept : ∀ record, s.Holds coordinator txnID record → record.status ≠ .pending →
      ∃ v, Decided coordinator txnID s' record.status v := by
    intro record hr hne
    obtain ⟨hbase, ⟨o, hund⟩ | ⟨d, v, hdec⟩⟩ := hinv
    · exact absurd (hund.pending record (hund.load_of_holds hr)) hne
    · obtain ⟨hstatus, -⟩ := hdec.records record hr
      subst hstatus
      exact ⟨v, hdec.run hrun' hbase⟩
  refine ⟨?_, ?_, ?_, ?_⟩
  · intro record hr hne record' hr'
    obtain ⟨v, hdec⟩ := hkept record hr hne
    exact (hdec.records record' hr').1
  · intro m hm hmt
    obtain ⟨-, ⟨o, hund⟩ | ⟨d, v, hdec⟩⟩ := hinv'
    · exact absurd hmt (hund.sent m hm)
    · rw [(hdec.sent m hm hmt).1]
      exact hdec.decision
  · intro record hr hne m hm hmt
    obtain ⟨v, hdec⟩ := hkept record hr hne
    exact (hdec.sent m hm hmt).1
  · intro m hm m' hm' hmt hmt'
    obtain ⟨-, ⟨o, hund⟩ | ⟨d, v, hdec⟩⟩ := hinv'
    · exact absurd hmt (hund.sent m hm)
    · obtain ⟨hd, hv⟩ := hdec.sent m hm hmt
      obtain ⟨hd', hv'⟩ := hdec.sent m' hm' hmt'
      refine ⟨hd.trans hd'.symm, fun hc => ?_⟩
      have hdc := hd.symm.trans hc
      rw [hv hdc, hv' hdc]

end Steps

def abortSample : TxnEvent := .apply 1 (.abortTransaction sampleTxnID 102)

/-- The statuses the coordinator's replicas read. -/
def TxnSystem.statuses (s : TxnSystem) : List (Option TxnStatus) :=
  (s.shards 1).map fun store =>
    match loadTxnRecord store.coreDB sampleTxnID with
    | .ok record => some record.status
    | .error _ => none

variable {s : TxnSystem}

theorem status_of_holds {record : TxnRecord} (h : s.Holds 1 sampleTxnID record) :
    some record.status ∈ s.statuses := by
  obtain ⟨store, hstore, hload⟩ := h
  exact List.mem_map.mpr ⟨store, hstore, by rw [hload]⟩

theorem holds_of_status {d : TxnStatus} (h : some d ∈ s.statuses) :
    ∃ record, s.Holds 1 sampleTxnID record ∧ record.status = d := by
  obtain ⟨store, hstore, hd⟩ := List.mem_map.mp h
  split at hd
  · rename_i record hload
    cases hd
    exact ⟨record, ⟨store, hstore, hload⟩, rfl⟩
  · cases hd

theorem oneShard_unknown : oneShard.Unknown sampleTxnID where
  keyed := by
    refine ⟨?_, fun p hp => absurd hp (by simp [oneShard, TxnSystem.init])⟩
    rintro shard t record ⟨store, hstore, hload⟩
    rw [mem_oneShard hstore, loadTxnRecord_eq_ok] at hload
    exact absurd rfl (StoreDB.create_ne_txn hload)
  records := by
    intro shard store hstore
    rw [mem_oneShard hstore]
    rfl
  turns := by simp [oneShard, TxnSystem.init]
  sent := by simp [oneShard, TxnSystem.init]

def statusesAfter (es : List TxnEvent) : Option (List (Option TxnStatus)) :=
  (Run.exec (TxnSystem.step Codec.emptyObject) oneShard es).map TxnSystem.statuses

/-- An abort that arrives after the commit turns the record of a committed transaction over, and
both decisions have been sent. -/
theorem abort_after_commit_not_stable :
    oneShard.Unknown sampleTxnID ∧ ∃ s s',
      Run (TxnSystem.step Codec.emptyObject) (fun _ _ => True) oneShard
        [initSample, commitSample] s ∧
      Run (TxnSystem.step Codec.emptyObject) (fun _ _ => True) s [abortSample] s' ∧
      ¬ DecisionStable 1 sampleTxnID s s' := by
  have hcommitted : statusesAfter [initSample, commitSample] = some [some .committed] := by decide
  have haborted : statusesAfter ([initSample, commitSample] ++ [abortSample]) =
      some [some .aborted] := by decide
  obtain ⟨s, hs, hsc⟩ := Option.map_eq_some_iff.mp hcommitted
  obtain ⟨s', hs', hsa⟩ := Option.map_eq_some_iff.mp haborted
  rw [Run.exec_append, hs] at hs'
  refine ⟨oneShard_unknown, s, s', Run.of_exec _ _ (fun _ _ _ => trivial) hs,
    Run.of_exec _ _ (fun _ _ _ => trivial) hs', ?_⟩
  intro h
  obtain ⟨record, hr, hd⟩ := holds_of_status (s := s) (d := .committed) (by simp [hsc])
  obtain ⟨record', hr', hd'⟩ := holds_of_status (s := s') (d := .aborted) (by simp [hsa])
  have hstatus := h.status record hr (by simp [hd]) record' hr'
  rw [hd, hd'] at hstatus
  cases hstatus

/-- A repeated commit respects the decision. -/
theorem decision_stable_repeated_commit :
    ∃ s s', Run (TxnSystem.step Codec.emptyObject) (fun _ _ => True) oneShard
        [initSample, commitSample] s ∧
      Run (TxnSystem.step Codec.emptyObject) (fun _ _ => True) s [commitSample] s' ∧
      DecisionStable 1 sampleTxnID s s' := by
  have hinit : statusesAfter [initSample] = some [some .pending] := by decide
  have hfirst : statusesAfter ([initSample] ++ [commitSample]) = some [some .committed] := by decide
  have hsecond : statusesAfter (([initSample] ++ [commitSample]) ++ [commitSample]) =
      some [some .committed] := by decide
  obtain ⟨s₁, hs₁, hpending⟩ := Option.map_eq_some_iff.mp hinit
  obtain ⟨s, hs, hcommitted⟩ := Option.map_eq_some_iff.mp hfirst
  obtain ⟨s', hs', -⟩ := Option.map_eq_some_iff.mp hsecond
  rw [Run.exec_append, hs, Option.bind_some, Run.exec_singleton] at hs'
  rw [Run.exec_append, hs₁, Option.bind_some, Run.exec_singleton] at hs
  rw [Run.exec_singleton] at hs₁
  have hok : ∀ s d, d ≠ .aborted → TxnSystem.statuses s = [some d] →
      RespectsDecision Codec.emptyObject 1 sampleTxnID s commitSample := by
    intro s d hd hstatuses _
    refine ⟨rfl, fun record hr hstatus => hd ?_⟩
    have hmem := status_of_holds hr
    rw [hstatuses, hstatus, List.mem_singleton, Option.some.injEq] at hmem
    exact hmem.symm
  have hrun : Run (TxnSystem.step Codec.emptyObject)
      (RespectsDecision Codec.emptyObject 1 sampleTxnID) oneShard [initSample, commitSample] s :=
    .cons (fun _ => ⟨rfl, by simp [oneShard, TxnSystem.init]⟩) hs₁
      (.cons (hok s₁ .pending (by decide) hpending) hs (.nil s))
  have hrun' : Run (TxnSystem.step Codec.emptyObject)
      (RespectsDecision Codec.emptyObject 1 sampleTxnID) s [commitSample] s' :=
    .cons (hok s .committed (by decide) hcommitted) hs' (.nil s')
  exact ⟨s, s', hrun.mono fun _ _ _ => trivial, hrun'.mono fun _ _ _ => trivial,
    decision_stable oneShard_unknown hrun hrun'⟩

end Antfly
