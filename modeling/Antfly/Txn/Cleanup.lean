import Antfly.Txn.Steps
import Mathlib.Data.List.Nodup
import Mathlib.Data.List.Perm.Subperm

/-!
The recovery loop deletes the record of a decided transaction once as many participants have
answered as the record lists.  The list leaves out the coordinator, and an answer says nothing
about intents that arrive later.  So a deletion leaves no intent behind when the coordinator has
applied a `ResolveIntents` of the transaction itself, its own or one of a recovery loop, and no
intent of the transaction is written to a shard that has resolved it.
-/

namespace Antfly

open List

/-- Which shards take part in each transaction, and which of them keeps its record. -/
structure TxnPlan where
  shards : Bytes → List ShardID
  coordinator : Bytes → ShardID
  nodup : ∀ t, (shards t).Nodup

/-- The participants `initTransaction` writes into the record: all shards but the coordinator. -/
def TxnPlan.participants (plan : TxnPlan) (t : Bytes) : List Bytes :=
  ((plan.shards t).filter fun shard => shard ≠ plan.coordinator t).map encodeShardID

/-- What the orchestrator proposes: it initialises a transaction on its coordinator, with the
participants in any order, and writes intents on the shards of the transaction. -/
def FollowsPlan (plan : TxnPlan) : TxnEvent → Prop
  | .apply shard (.initTransaction op _) => op.txnID.length = uuidLen ∧
      shard = plan.coordinator op.txnID ∧ op.participants.Perm (plan.participants op.txnID)
  | .apply shard (.writeIntent op) => op.txnID.length = uuidLen ∧ shard ∈ plan.shards op.txnID
  | _ => True

/-- The steps that clean up safely.  A record is deleted after its coordinator has applied a
`ResolveIntents` of the transaction, unless no intent of it was ever written there; and a
`WriteIntent` comes neither after a `ResolveIntents` to the same shard nor, on the coordinator,
after its record was deleted. -/
def CleansSafely (s : TxnSystem) : TxnEvent → Prop
  | .apply shard (.writeIntent op) =>
    (shard, op.txnID) ∉ s.resolved ∧ (shard, op.txnID) ∉ s.deleted
  | .recoveryCleanup p _ =>
    (p.shard, p.txnID) ∈ s.resolved ∨ (p.shard, p.txnID) ∉ s.written
  | _ => True

/-- A system in which no transaction has been started. -/
structure TxnSystem.Fresh (s : TxnSystem) : Prop where
  records : ∀ shard t record, ¬ s.Holds shard t record
  intents : ∀ shard t, ¬ s.HoldsIntent shard t
  turns : s.turns = []
  resolved : s.resolved = []
  written : s.written = []
  deleted : s.deleted = []

/-- Every transaction whose record was deleted has no intents left, on any shard. -/
def NoOrphanedIntents (s : TxnSystem) : Prop :=
  ∀ d ∈ s.deleted, ∀ shard, ¬ s.HoldsIntent shard d.2

theorem decodeShardID_encodeShardID (id : ShardID) : decodeShardID (encodeShardID id) = some id := by
  have hlt := id.toNat_lt
  have hsum : (encodeShardID id).foldr (fun b acc => b.toNat + 256 * acc) 0 = id.toNat := by
    simp only [encodeShardID, map_cons, map_nil, foldr_cons, foldr_nil,
      UInt8.toNat_ofNat', Nat.shiftRight_eq_div_pow]
    omega
  have hlen : (encodeShardID id).length = 8 := rfl
  rw [decodeShardID, hsum, hlen]
  simp

/-- A record of the plan whose answers come from participants that have resolved. -/
structure RecordOK (plan : TxnPlan) (s : TxnSystem) (shard : ShardID) (t : Bytes)
    (r : TxnRecord) : Prop where
  txnID : r.txnID = t
  length : t.length = uuidLen
  coordinator : shard = plan.coordinator t
  participants : r.participants.Perm (plan.participants t)
  nodup : r.resolvedParticipants.Nodup
  answered : ∀ x ∈ r.resolvedParticipants, x ∈ r.participants ∧
    ∃ target, decodeShardID x = some target ∧ (target, t) ∈ s.resolved

def RecoveryTurn.saved (p : RecoveryTurn) : TxnRecord :=
  { p.record with resolvedParticipants := p.record.resolvedParticipants ++ p.newlyResolved }

structure CleanupInv (plan : TxnPlan) (s : TxnSystem) : Prop where
  records : ∀ shard t r, s.Holds shard t r → RecordOK plan s shard t r
  turns : ∀ p ∈ s.turns, RecordOK plan s p.shard p.txnID p.saved
  resolved : ∀ x ∈ s.resolved, x.2.length = uuidLen → ¬ s.HoldsIntent x.1 x.2
  located : ∀ shard t, t.length = uuidLen → s.HoldsIntent shard t →
    shard ∈ plan.shards t ∧ (shard, t) ∈ s.written
  deleted : ∀ x ∈ s.deleted, x.2.length = uuidLen ∧ x.1 = plan.coordinator x.2 ∧
    ∀ shard ∈ plan.shards x.2, (shard, x.2) ∈ s.resolved ∨ shard = x.1 ∧ x ∉ s.written

variable {plan : TxnPlan} {s : TxnSystem} {shard : ShardID} {t : Bytes} {r : TxnRecord}

theorem RecordOK.mono {s' : TxnSystem} (hs : ∀ x ∈ s.resolved, x ∈ s'.resolved)
    (h : RecordOK plan s shard t r) :
    RecordOK plan s' shard t r := by
  refine ⟨h.txnID, h.length, h.coordinator, h.participants, h.nodup, fun x hx => ?_⟩
  obtain ⟨hmem, target, htarget, hres⟩ := h.answered x hx
  exact ⟨hmem, target, htarget, hs _ hres⟩

theorem RecordOK.finalize (h : RecordOK plan s shard t r) (d : TxnStatus) (now : Int) :
    RecordOK plan s shard t (r.finalize d 0 now) := by
  cases d <;> exact ⟨h.txnID, h.length, h.coordinator, h.participants, h.nodup, h.answered⟩

/-- When the number of answers reaches the number of participants, every participant has
resolved. -/
theorem RecordOK.all_resolved (h : RecordOK plan s shard t r)
    (hlen : r.participants.length ≤ r.resolvedParticipants.length) {target : ShardID}
    (htarget : target ∈ plan.shards t) (hne : target ≠ plan.coordinator t) :
    (target, t) ∈ s.resolved := by
  have hmem : encodeShardID target ∈ r.participants := by
    rw [h.participants.mem_iff, TxnPlan.participants]
    exact mem_map_of_mem (mem_filter.mpr ⟨htarget, by simpa using hne⟩)
  have hsub : r.resolvedParticipants ⊆ r.participants := fun x hx => (h.answered x hx).1
  have hperm : r.resolvedParticipants.Perm r.participants :=
    (subperm_of_subset h.nodup hsub).perm_of_length_le hlen
  obtain ⟨-, target', htarget', hres⟩ := h.answered _ (hperm.mem_iff.mpr hmem)
  rw [decodeShardID_encodeShardID] at htarget'
  cases htarget'
  exact hres

section Steps

variable {c : Codec} {plan : TxnPlan} {s s' : TxnSystem} {e : TxnEvent}

variable {shard : ShardID} {t : Bytes}

theorem CleanupInv.records_step (hplan : FollowsPlan plan e) (he : s.step c e = some s')
    (h : CleanupInv plan s) {r : TxnRecord} (hr : s'.Holds shard t r) :
    RecordOK plan s' shard t r := by
  have hmono : ∀ x ∈ s.resolved, x ∈ s'.resolved := (TxnSystem.past_step he).1
  cases TxnSystem.record_origin he hr with
  | old hold => exact (h.records _ _ _ hold).mono hmono
  | init shard op now =>
    obtain ⟨hlen, hcoord, hpart⟩ := hplan
    exact ⟨rfl, hlen, hcoord, hpart, nodup_nil, by simp⟩
  | commit now hold => exact ((h.records _ _ _ hold).finalize _ now).mono hmono
  | abort now hold => exact ((h.records _ _ _ hold).finalize _ now).mono hmono
  | save hp => exact (h.turns _ hp).mono hmono

theorem CleanupInv.turns_step (he : s.step c e = some s') (h : CleanupInv plan s)
    {p : RecoveryTurn} (hp : p ∈ s'.turns) : RecordOK plan s' p.shard p.txnID p.saved := by
  have hmono : ∀ x ∈ s.resolved, x ∈ s'.resolved := (TxnSystem.past_step he).1
  cases TxnSystem.turn_origin he hp with
  | old hold => exact (h.turns _ hold).mono hmono
  | read hload _ =>
    have hr := (h.records _ _ _ (TxnSystem.holds_of_loadRecord hload)).mono hmono
    have hsaved := hr.nodup
    refine ⟨hr.txnID, hr.length, hr.coordinator, hr.participants, ?_, ?_⟩
    · simpa [RecoveryTurn.saved] using hsaved
    · simpa [RecoveryTurn.saved] using hr.answered
  | @answer p₀ x target hp₀ hx hnew htarget hres =>
    have hr := (h.turns _ hp₀).mono hmono
    obtain ⟨hxp, hxr⟩ := mem_filter.mp hx
    have hxr' : x ∉ p₀.record.resolvedParticipants := by simpa using hxr
    have hsaved : RecoveryTurn.saved { p₀ with newlyResolved := p₀.newlyResolved ++ [x] } =
        { p₀.saved with
          resolvedParticipants := p₀.saved.resolvedParticipants ++ [x] } := by
      simp [RecoveryTurn.saved]
    have ht : p₀.record.txnID = p₀.txnID := hr.txnID
    rw [hsaved]
    refine ⟨hr.txnID, hr.length, hr.coordinator, hr.participants, ?_, ?_⟩
    · refine nodup_append.mpr ⟨hr.nodup, nodup_singleton x, ?_⟩
      rintro y hy z hz rfl
      rw [mem_singleton] at hz
      subst hz
      rcases mem_append.mp hy with hy | hy
      · exact hxr' hy
      · exact hnew hy
    · intro y hy
      rcases mem_append.mp hy with hy | hy
      · exact hr.answered y hy
      · rw [mem_singleton] at hy
        subst hy
        exact ⟨hxp, target, htarget, hmono _ (ht ▸ hres)⟩

/-- An intent a safe step brings belongs to a transaction its shard has not resolved. -/
theorem CleanupInv.new_intent (hplan : FollowsPlan plan e) (hok : CleansSafely s e)
    (he : s.step c e = some s') (ht : t.length = uuidLen) (hi : s'.HoldsIntent shard t) :
    s.HoldsIntent shard t ∨
      shard ∈ plan.shards t ∧ (shard, t) ∉ s.resolved ∧ (shard, t) ∈ s'.written := by
  rcases TxnSystem.holdsIntent_origin he hi with hold | ⟨o, u, u', rfl, hkey⟩
  · exact Or.inl hold
  · obtain ⟨hlen, hshard⟩ := hplan
    obtain ⟨rfl, -⟩ := makeIntentKey_inj hlen ht hkey
    refine Or.inr ⟨hshard, hok.1, ?_⟩
    simp only [TxnSystem.step] at he
    split at he
    · cases he
      exact List.mem_append_left _ List.mem_cons_self
    · cases he

/-- A record is deleted when every shard of its transaction has resolved it, apart from a
coordinator that was never written to. -/
theorem CleanupInv.deleted_step (hok : CleansSafely s e) (he : s.step c e = some s')
    (h : CleanupInv plan s) {x : ShardID × Bytes} (hx : x ∈ s'.deleted) :
    x.2.length = uuidLen ∧ x.1 = plan.coordinator x.2 ∧
      ∀ shard ∈ plan.shards x.2, (shard, x.2) ∈ s'.resolved ∨ shard = x.1 ∧ x ∉ s'.written := by
  obtain ⟨hresolved, -, hwritten⟩ := TxnSystem.past_step he
  rcases TxnSystem.deleted_origin he hx with hold | ⟨p, cutoff, rfl, hp, hclean, rfl⟩
  · obtain ⟨hlen, hcoord, hall⟩ := h.deleted x hold
    refine ⟨hlen, hcoord, fun shard hshard => ?_⟩
    rcases hall shard hshard with hres | ⟨rfl, hnot⟩
    · exact .inl (hresolved _ hres)
    · refine .inr ⟨rfl, fun hnew => ?_⟩
      rcases hwritten x hnew with hx' | ⟨o, rfl, htxn⟩
      · exact hnot hx'
      · -- A first intent on the coordinator does not come after the deletion.
        have hlate : (x.1, o.txnID) ∉ s.deleted := hok.2
        rw [htxn] at hlate
        exact hlate hold
  · have hr := h.turns p hp
    refine ⟨hr.length, hr.coordinator, fun shard hshard => ?_⟩
    by_cases hcoord : shard = plan.coordinator p.txnID
    · obtain rfl : shard = p.shard := hcoord.trans hr.coordinator.symm
      refine hok.imp (hresolved _) fun hnot => ⟨rfl, fun hnew => ?_⟩
      rcases hwritten _ hnew with hx' | ⟨o, ho, -⟩
      · exact hnot hx'
      · cases ho
    · have hlen : p.saved.participants.length ≤ p.saved.resolvedParticipants.length := by
        simp only [RecoveryTurn.cleansUp, Bool.and_eq_true, decide_eq_true_eq] at hclean
        simp only [RecoveryTurn.saved, length_append]
        omega
      exact .inl (hresolved _ (hr.all_resolved hlen hshard hcoord))

theorem CleanupInv.step (hplan : FollowsPlan plan e) (hok : CleansSafely s e)
    (he : s.step c e = some s') (h : CleanupInv plan s) : CleanupInv plan s' := by
  refine ⟨fun shard t r hr => h.records_step hplan he hr, fun p hp => h.turns_step he hp,
    ?_, ?_, fun x hx => h.deleted_step hok he hx⟩
  · rintro ⟨shard, t⟩ hx ht hi
    rcases TxnSystem.resolved_origin he hx with hold | hclear
    · rcases CleanupInv.new_intent hplan hok he ht hi with hi | ⟨-, hnot, -⟩
      · exact h.resolved _ hold ht hi
      · exact hnot hold
    · exact hclear ht hi
  · intro shard t ht hi
    rcases CleanupInv.new_intent hplan hok he ht hi with hi | ⟨hshard, -, hwritten⟩
    · obtain ⟨hshard, hwritten⟩ := h.located shard t ht hi
      exact ⟨hshard, (TxnSystem.past_step he).2.1 _ hwritten⟩
    · exact ⟨hshard, hwritten⟩

/-- Whoever holds an intent was written to and has not resolved. -/
theorem CleanupInv.noOrphanedIntents (h : CleanupInv plan s) : NoOrphanedIntents s := by
  intro x hx shard hi
  obtain ⟨hlen, -, hall⟩ := h.deleted x hx
  obtain ⟨hshard, hwritten⟩ := h.located shard x.2 hlen hi
  rcases hall shard hshard with hres | ⟨rfl, hnot⟩
  · exact h.resolved _ hres hlen hi
  · exact hnot hwritten

theorem CleanupInv.of_fresh (h : s.Fresh) : CleanupInv plan s where
  records shard t r hr := absurd hr (h.records shard t r)
  turns p hp := by simp [h.turns] at hp
  resolved x hx := by simp [h.resolved] at hx
  located shard t _ hi := absurd hi (h.intents shard t)
  deleted x hx := by simp [h.deleted] at hx

/-- In every run of safe steps, a transaction whose record was deleted has no intents left on any
shard, from the deletion on. -/
theorem no_orphaned_intents {es : List TxnEvent} (h₀ : s.Fresh)
    (hrun : Run (TxnSystem.step c) (fun s e => FollowsPlan plan e ∧ CleansSafely s e) s es s') :
    NoOrphanedIntents s' := by
  have hinv : CleanupInv plan s' :=
    hrun.invariant (fun _ _ _ hok he hi => CleanupInv.step hok.1 hok.2 he hi)
      (CleanupInv.of_fresh h₀)
  exact hinv.noOrphanedIntents

end Steps

/-- Every transaction runs on the single shard, which is then its own coordinator. -/
def singleShardPlan : TxnPlan where
  shards _ := [1]
  coordinator _ := 1
  nodup _ := by simp

theorem fresh_init {shards : ShardID → List StoreDB}
    (h : ∀ shard, ∀ store ∈ shards shard, store = StoreDB.create ⟨[], []⟩) :
    (TxnSystem.init shards).Fresh where
  records := by
    rintro shard t record ⟨store, hstore, hload⟩
    rw [h shard store hstore, loadTxnRecord_eq_ok] at hload
    exact absurd rfl (StoreDB.create_ne_txn hload)
  intents := by
    rintro shard t ⟨store, hstore, u, i, hget⟩
    rw [h shard store hstore] at hget
    exact absurd rfl (StoreDB.create_ne_txn hget)
  turns := rfl
  resolved := rfl
  written := rfl
  deleted := rfl

def writeIntentSample : TxnEvent :=
  .apply 1 (.writeIntent ⟨sampleTxnID, 7, encodeShardID 1,
    some ⟨[(ascii ['k'], ascii ['v'])], [], [], .write, 0⟩, []⟩)

/-- The turn that finds the committed record; its list of participants is empty. -/
def sampleTurn : RecoveryTurn :=
  ⟨1, 0, sampleTxnID, ⟨sampleTxnID, 7, 7, .committed, [], [], 100, 101⟩, []⟩

def TxnSystem.storedIntents (s : TxnSystem) (shard : ShardID) : List (Bytes × Stored) :=
  (s.shards shard).flatMap fun store => store.coreDB.pdb.entries.filter fun e =>
    match e.2 with
    | .txnIntent _ => true
    | _ => false

/-- A transaction of a single shard whose self-resolution never arrives: its record lists no
participants, so it is deleted while its intent is still there. -/
theorem coordinator_intent_orphaned :
    oneShard.Fresh ∧ ∃ s', Run (TxnSystem.step Codec.emptyObject)
        (fun _ e => FollowsPlan singleShardPlan e) oneShard
        [initSample, writeIntentSample, commitSample, .recoveryRead 1 0 sampleTxnID,
          .recoveryCleanup sampleTurn 1000] s' ∧
      ¬ NoOrphanedIntents s' := by
  have hexec : (Run.exec (TxnSystem.step Codec.emptyObject) oneShard
      [initSample, writeIntentSample, commitSample, .recoveryRead 1 0 sampleTxnID,
        .recoveryCleanup sampleTurn 1000]).map (fun s =>
          (s.deleted, (s.storedIntents 1).map Prod.fst)) =
      some ([(1, sampleTxnID)], [makeIntentKey sampleTxnID (ascii ['k'])]) := by decide
  obtain ⟨s', hs', hobs⟩ := Option.map_eq_some_iff.mp hexec
  obtain ⟨hdeleted, hintents⟩ := Prod.mk.inj hobs
  have hplan : ∀ e ∈ [initSample, writeIntentSample, commitSample, .recoveryRead 1 0 sampleTxnID,
      .recoveryCleanup sampleTurn 1000], FollowsPlan singleShardPlan e := by
    intro e he
    simp only [List.mem_cons, List.not_mem_nil, or_false] at he
    rcases he with rfl | rfl | rfl | rfl | rfl
    · exact ⟨rfl, rfl, List.Perm.refl _⟩
    · exact ⟨rfl, List.mem_singleton.mpr rfl⟩
    · trivial
    · trivial
    · trivial
  refine ⟨fresh_init fun _ _ => mem_oneShard, s', Run.of_exec _ _ (fun _ e he => hplan e he) hs',
    fun h => ?_⟩
  have hno := h (1, sampleTxnID) (by simp [hdeleted]) 1
  obtain ⟨e, he, hkey⟩ : ∃ e ∈ s'.storedIntents 1, e.1 = makeIntentKey sampleTxnID (ascii ['k']) := by
    rw [← List.mem_map, hintents]
    exact List.mem_singleton.mpr rfl
  obtain ⟨store, hstore, he⟩ := List.mem_flatMap.mp he
  obtain ⟨hentry, hintent⟩ := List.mem_filter.mp he
  obtain ⟨x, v⟩ := e
  change x = _ at hkey
  subst hkey
  cases v with
  | txnIntent i => exact hno ⟨store, hstore, _, i, (OrdMap.mem_entries_iff _ _ _).mp hentry⟩
  | _ => cases hintent

instance (plan : TxnPlan) (s : TxnSystem) :
    (e : TxnEvent) → Decidable (FollowsPlan plan e ∧ CleansSafely s e)
  | .apply _ (.initTransaction ..) =>
    @instDecidableAnd _ _ (inferInstanceAs (Decidable (_ ∧ _ ∧ _))) instDecidableTrue
  | .apply _ (.writeIntent _) =>
    @instDecidableAnd _ _ (inferInstanceAs (Decidable (_ ∧ _))) (inferInstanceAs (Decidable (_ ∧ _)))
  | .recoveryCleanup .. =>
    @instDecidableAnd _ _ instDecidableTrue (inferInstanceAs (Decidable (_ ∨ _)))
  | .apply _ (.batch ..) | .apply _ (.setRange _) | .apply _ (.split ..) | .apply _ (.finalizeSplit ..)
  | .apply _ (.setSplitState _) | .apply _ (.setMergeState _) | .apply _ (.finalizeMerge _)
  | .apply _ (.commitTransaction ..) | .apply _ (.abortTransaction ..)
  | .apply _ (.resolveIntents _) | .commitReply .. | .recoveryRead .. | .recoveryNotify ..
  | .recoveryAnswer .. | .recoverySave _ | .recoverySelfResolve _ =>
    @instDecidableAnd _ _ instDecidableTrue instDecidableTrue

/-- Every transaction runs on two shards, the first of which keeps its record. -/
def twoShardPlan : TxnPlan where
  shards _ := [1, 2]
  coordinator _ := 1
  nodup _ := by decide

/-- A turn that reads the answers of earlier turns and has heard from other participants. -/
def twoShardTurn (earlier answered : List Bytes) : RecoveryTurn :=
  ⟨1, 0, sampleTxnID, ⟨sampleTxnID, 7, 7, .committed, [encodeShardID 2], earlier, 100, 101⟩,
    answered⟩

/-- A transaction of two shards, both of which hold intents and resolve them. -/
def twoShardEvents : List TxnEvent :=
  let write : BatchOp := ⟨[(ascii ['k'], ascii ['\x7b', '\x7d'])], [], [], .write, 0⟩
  [.apply 1 (.initTransaction ⟨sampleTxnID, 7, [encodeShardID 2]⟩ 100),
    .apply 1 (.writeIntent ⟨sampleTxnID, 7, encodeShardID 1, some write, []⟩),
    .apply 2 (.writeIntent ⟨sampleTxnID, 7, encodeShardID 1, some write, []⟩), commitSample,
    .apply 1 (.resolveIntents ⟨sampleTxnID, .committed, 7⟩), .recoveryRead 1 0 sampleTxnID,
    .recoveryNotify (twoShardTurn [] []) (encodeShardID 2),
    .apply 2 (.resolveIntents ⟨sampleTxnID, .committed, 7⟩),
    .recoveryAnswer (twoShardTurn [] []) (encodeShardID 2),
    .recoverySave (twoShardTurn [] [encodeShardID 2]), .recoveryRead 1 0 sampleTxnID,
    .recoveryCleanup (twoShardTurn [encodeShardID 2] []) 1000]

theorem no_orphaned_intents_sample :
    ∃ s', Run (TxnSystem.step Codec.emptyObject)
        (fun s e => FollowsPlan twoShardPlan e ∧ CleansSafely s e)
        (.init fun _ => [StoreDB.create ⟨[], []⟩]) twoShardEvents s' ∧
      (1, sampleTxnID) ∈ s'.deleted ∧ (2, sampleTxnID) ∈ s'.written ∧ NoOrphanedIntents s' := by
  have hexec : (Run.exec (Run.guarded (TxnSystem.step Codec.emptyObject)
      fun s e => FollowsPlan twoShardPlan e ∧ CleansSafely s e)
      (.init fun _ => [StoreDB.create ⟨[], []⟩]) twoShardEvents).map
        (fun s => (s.deleted, s.written)) =
      some ([(1, sampleTxnID)], [(2, sampleTxnID), (1, sampleTxnID)]) := by decide
  obtain ⟨s', hs', hobs⟩ := Option.map_eq_some_iff.mp hexec
  obtain ⟨hdeleted, hwritten⟩ := Prod.mk.inj hobs
  have hrun := Run.of_guarded _ hs'
  exact ⟨s', hrun, by simp [hdeleted], by simp [hwritten],
    no_orphaned_intents (fresh_init fun _ _ => List.mem_singleton.mp) hrun⟩

end Antfly
