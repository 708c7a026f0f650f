import Antfly.Raft.CommittedLog

/-!
In a node that runs, the database together with the commit that the state machine works on should
hold the data of the log up to the applied index.  After a restart the applied index is at least
the persisted commit index, and everything up to there is filtered out when raft emits it again.
So an entry that was committed but not applied when the process ended is lost to this replica.
-/

namespace Antfly.Raft

namespace RaftNode

variable {cfg : RaftNodeConfig} {log : CommittedLog} {rc rc' : RaftNode}

/-- The log storage mirrors its disk, and a snapshot to be published is its newest one. -/
structure WellFormed (rc : RaftNode) : Prop where
  loaded : PebbleStorage.load rc.raftLogStorage.db = rc.raftLogStorage
  pending : ∀ snap, rc.toPublish = some snap → rc.raftLogStorage.snapshot = some snap

theorem wellFormed_new (cfg : RaftNodeConfig) (peers : Option ConfState) :
    WellFormed (new cfg peers) where
  loaded := rfl
  pending snap h := by cases h

theorem load_compacted (rc : RaftNode) {ps : PebbleStorage} (h : PebbleStorage.load ps.db = ps)
    (committed : Bool) :
    PebbleStorage.load (rc.compacted ps committed).db = rc.compacted ps committed := by
  unfold compacted
  split
  · exact PebbleStorage.load_compact h _ committed
  · exact h

@[simp] theorem snapshot_compacted (rc : RaftNode) (ps : PebbleStorage) (committed : Bool) :
    (rc.compacted ps committed).snapshot = ps.snapshot := by
  unfold compacted
  split
  · exact PebbleStorage.snapshot_compact _ _
  · rfl

variable {e : NodeEvent} {ok : RaftNode → NodeEvent → Prop} {peers : Option ConfState}
variable {events : List NodeEvent}

theorem Stepped.wellFormed (h : Stepped cfg log rc e rc') (hwf : WellFormed rc) :
    WellFormed rc' := by
  obtain ⟨hloaded, hpending⟩ := hwf
  cases h with
  | stop e cs => exact ⟨hloaded, hpending⟩
  | idle e => exact ⟨hloaded, hpending⟩
  | save hrun hnone hok =>
    refine ⟨PebbleStorage.load_saveRaftState hloaded _ _ _ _ _, fun s hs => ?_⟩
    have hs : Option.filter _ _ = some s := hs
    dsimp only
    rw [(PebbleStorage.saveRaftState_spec hok).1, hs, Option.some_or]
  | publishSnapshot hpub hc => exact ⟨hloaded, fun s hs => by cases hs⟩
  | publish k hpub hfree => exact ⟨hloaded, hpending⟩
  | apply hcommit => exact ⟨hloaded, hpending⟩
  | loadNothing hcommit hload => exact ⟨hloaded, hpending⟩
  | load hcommit hload hc => exact ⟨hloaded, hpending⟩
  | record hrun hpub hdue hwait hok =>
    constructor
    · dsimp only
      exact rc.load_compacted (PebbleStorage.load_createSnapshot hloaded _ _ _ _) _
    · intro s hs
      dsimp only at hs
      rw [hpub] at hs
      cases hs
  | restart kept =>
    refine ⟨?_, fun s hs => by cases hs⟩
    change PebbleStorage.load (PebbleStorage.load rc.raftLogStorage.db).db =
      PebbleStorage.load rc.raftLogStorage.db
    rw [hloaded, hloaded]

/-- The database once the state machine has finished its commit. -/
def handedOver (rc : RaftNode) : Option (List Bytes) :=
  match rc.commitC with
  | none => some rc.db
  | some (.data ds) => some (rc.db ++ ds)
  | some .loadSnapshot =>
    match rc.snapshotToLoad with
    | none => some rc.db
    | some id => rc.snapStore id

/-- The index a restart counts as applied. -/
def restartIndex (rc : RaftNode) : ℕ :=
  max rc.raftLogStorage.snapIndex rc.raftLogStorage.initialState.1.commit

/-- When the process ends, the database keeps exactly the data up to the index that the restart
counts as applied; a snapshot that is installed has the data up to its index; and no snapshot is
taken while one is still to be loaded. -/
def KeepsDelivery (log : CommittedLog) (rc : RaftNode) : NodeEvent → Prop
  | .restart kept => rc.db.take kept = dataUpTo log rc.restartIndex
  | .publishSnapshot fetched => ∀ snap c, rc.toPublish = some snap →
      (rc.snapStore snap.data).or fetched = some c → c = dataUpTo log snap.index
  | .maybeTriggerSnapshot .. =>
    rc.snapshotDue = false ∨ rc.commitC ≠ some .loadSnapshot
  | _ => True

/-- Nothing is missing and nothing is there twice. -/
def Delivered (log : CommittedLog) (rc : RaftNode) : Prop :=
  rc.stopped = false → rc.toPublish = none →
    rc.handedOver = some (dataUpTo log rc.appliedIndex)

theorem Delivered.new (cfg : RaftNodeConfig) (log : CommittedLog) (peers : Option ConfState) :
    Delivered log (RaftNode.new cfg peers) := fun _ _ => rfl

theorem appliedIndex_restart (hwf : WellFormed rc) (kept : ℕ) :
    (rc.restart kept).appliedIndex = rc.restartIndex := by
  change max (PebbleStorage.load rc.raftLogStorage.db).snapIndex
    (PebbleStorage.load rc.raftLogStorage.db).initialState.1.commit = _
  rw [hwf.loaded, restartIndex]

theorem dataUpTo_published (log : CommittedLog) (rc : RaftNode) (k : ℕ) :
    dataUpTo log (rc.appliedIndex + k) = dataUpTo log rc.appliedIndex ++ nextData log rc k :=
  dataUpTo_add log rc.appliedIndex k

theorem handedOver_of_not_loading (h : rc.commitC ≠ some .loadSnapshot) (ps : PebbleStorage)
    (store : SnapshotID → Option (List Bytes)) (i : ℕ) :
    handedOver { rc with raftLogStorage := ps, snapStore := store, snapshotIndex := i } =
      handedOver rc := by
  unfold handedOver
  dsimp only
  rcases hcommit : rc.commitC with - | (ds | -)
  · rfl
  · rfl
  · exact absurd hcommit h

theorem Stepped.delivered (h : Stepped cfg log rc e rc') (hwf : WellFormed rc)
    (hkeeps : KeepsDelivery log rc e) (hdel : Delivered log rc) :
    Delivered log rc' := by
  intro hrun hpub
  cases h with
  | stop e cs => cases hrun
  | idle e => exact hdel hrun hpub
  | @save snap hs entries committed _ hnone hok =>
    have hpub : snap.filter (·.index ≠ 0) = none := hpub
    have hsnap := (PebbleStorage.saveRaftState_spec hok).1
    rw [hpub, Option.none_or] at hsnap
    have hbefore := hdel hrun hnone
    simp only [handedOver, snapshotToLoad] at hbefore ⊢
    rw [hsnap]
    exact hbefore
  | @publishSnapshot snap fetched c hsnap hc =>
    have hright := hkeeps snap c hsnap hc
    have hnewest := hwf.pending snap hsnap
    simp only [handedOver, snapshotToLoad, hnewest, Function.update_self, hright]
  | publish k hnone hfree =>
    have hbefore := hdel hrun hnone
    change handedOver (published cfg log rc k) = some (dataUpTo log (rc.appliedIndex + k))
    rw [dataUpTo_published]
    by_cases hempty : nextData log rc k = []
    · rw [hempty, List.append_nil, ← hbefore]
      simp only [handedOver, published, hempty, if_true, snapshotToLoad]
    · have hcommit := hfree.resolve_left hempty
      simp only [handedOver, hcommit, Option.some.injEq] at hbefore
      simp only [handedOver, published, hempty, if_false, hbefore]
  | apply hcommit =>
    have hbefore := hdel hrun hpub
    simp only [handedOver, hcommit] at hbefore
    exact hbefore
  | loadNothing hcommit hload =>
    have hbefore := hdel hrun hpub
    simp only [handedOver, hcommit, hload] at hbefore
    exact hbefore
  | load hcommit hload hc =>
    have hbefore := hdel hrun hpub
    simp only [handedOver, hcommit, hload] at hbefore
    rw [hbefore, Option.some_or] at hc
    exact hc.symm
  | record _ hnone hdue hwait hok =>
    have hnot : rc.commitC ≠ some .loadSnapshot :=
      hkeeps.resolve_left fun hfalse => by cases hdue.symm.trans hfalse
    exact (handedOver_of_not_loading hnot _ _ _).trans (hdel hrun hnone)
  | restart kept =>
    rw [appliedIndex_restart hwf, ← (show rc.db.take kept = _ from hkeeps)]
    rfl

theorem wellFormed_of_run (hraft : ∀ rc e, ok rc e → FromRaft log e)
    (h : Run (step cfg) ok (new cfg peers) events rc) :
    WellFormed rc :=
  h.invariant (fun _ _ _ hok hstep hwf => (step_cases (hraft _ _ hok) hstep).wellFormed hwf)
    (wellFormed_new cfg peers)

theorem delivered_of_run (hraft : ∀ rc e, ok rc e → FromRaft log e)
    (hkeeps : ∀ rc e, ok rc e → KeepsDelivery log rc e)
    (h : Run (step cfg) ok (new cfg peers) events rc) :
    Delivered log rc := by
  have hstep : ∀ rc e rc', ok rc e → step cfg rc e = some rc' →
      WellFormed rc ∧ Delivered log rc → WellFormed rc' ∧ Delivered log rc' := by
    rintro rc e rc' hok hstep ⟨hwf, hdel⟩
    have hstep := step_cases (hraft _ _ hok) hstep
    exact ⟨hstep.wellFormed hwf, hstep.delivered hwf (hkeeps _ _ hok) hdel⟩
  exact (h.invariant hstep ⟨wellFormed_new cfg peers, Delivered.new cfg log peers⟩).2

/-- A node whose restarts lose nothing has handed over the whole log up to its applied index, and
has applied it once the state machine is done.  A restart keeps that exactly under its condition. -/
theorem committed_entries_delivered (cfg : RaftNodeConfig) (log : CommittedLog)
    (peers : Option ConfState) (events : List NodeEvent) (rc : RaftNode)
    (h : Run (step cfg) (fun rc e => FromRaft log e ∧ KeepsDelivery log rc e) (new cfg peers)
      events rc) :
    Delivered log rc ∧
      (rc.stopped = false → rc.toPublish = none → rc.commitC = none →
        rc.db = dataUpTo log rc.appliedIndex) ∧
      ∀ kept, Delivered log (rc.restart kept) ↔
        rc.db.take kept = dataUpTo log rc.restartIndex := by
  have hdel : Delivered log rc :=
    delivered_of_run (fun _ _ hok => hok.1) (fun _ _ hok => hok.2) h
  have hraft : ∀ rc e, FromRaft log e ∧ KeepsDelivery log rc e → FromRaft log e :=
    fun _ _ hok => hok.1
  have hwf : WellFormed rc := wellFormed_of_run hraft h
  refine ⟨hdel, fun hrun hpub hidle => ?_, fun kept => ?_⟩
  · have hall := hdel hrun hpub
    simp only [handedOver, hidle, Option.some.injEq] at hall
    exact hall
  · have hindex := appliedIndex_restart hwf kept
    constructor
    · intro hrestarted
      have hall := hrestarted rfl rfl
      rw [hindex] at hall
      exact Option.some.inj hall
    · intro hkept _ _
      rw [hindex, ← hkept]
      rfl

end RaftNode

def oneDataEntry : CommittedLog where
  entry i := ⟨1, i, .normal (if i = 1 then [7] else [])⟩
  numbered _ := rfl

def plainNode : RaftNodeConfig := ⟨3, 1, [], []⟩

/-- The entry is saved as committed and handed over; the process is killed before it is applied, and
the entry that raft emits again is filtered out. -/
theorem killed_before_apply_skips_entry :
    ∃ rc, Run (RaftNode.step plainNode) (fun _ e => FromRaft oneDataEntry e)
        (RaftNode.new plainNode none)
        [.save none ⟨1, 1, 1⟩ (segment oneDataEntry 1 1) true,
          .publish (segment oneDataEntry 1 1), .restart 0,
          .publish (segment oneDataEntry 1 1)] rc ∧
      rc.stopped = false ∧ rc.commitC = none ∧ rc.appliedIndex = 1 ∧ rc.db = [] ∧
      ¬ RaftNode.Delivered oneDataEntry rc := by
  have hemitted : FromRaft oneDataEntry (.publish (segment oneDataEntry 1 1)) :=
    ⟨1, 1, Nat.one_pos, rfl⟩
  refine ⟨_, .cons trivial rfl (.cons hemitted rfl (.cons trivial rfl (.cons hemitted rfl (.nil _)))),
    rfl, rfl, rfl, rfl, fun hdel => ?_⟩
  have hall := hdel rfl rfl
  exact absurd hall (by decide)

/-- The entry is applied before the process ends. -/
def appliedBeforeRestart : List NodeEvent :=
  [.save none ⟨1, 1, 1⟩ (segment oneDataEntry 1 1) true, .publish (segment oneDataEntry 1 1),
    .readCommit none, .restart 1, .publish (segment oneDataEntry 1 2)]

theorem committed_entries_delivered_sample :
    ∃ rc, Run (RaftNode.step plainNode)
        (fun rc e => FromRaft oneDataEntry e ∧ RaftNode.KeepsDelivery oneDataEntry rc e)
        (RaftNode.new plainNode none) appliedBeforeRestart rc ∧
      RaftNode.Delivered oneDataEntry rc := by
  have hone : FromRaft oneDataEntry (.publish (segment oneDataEntry 1 1)) :=
    ⟨1, 1, Nat.one_pos, rfl⟩
  have htwo : FromRaft oneDataEntry (.publish (segment oneDataEntry 1 2)) :=
    ⟨1, 2, Nat.one_pos, rfl⟩
  have hrun : ∃ rc, Run (RaftNode.step plainNode)
      (fun rc e => FromRaft oneDataEntry e ∧ RaftNode.KeepsDelivery oneDataEntry rc e)
      (RaftNode.new plainNode none) appliedBeforeRestart rc :=
    ⟨_, .cons ⟨trivial, trivial⟩ rfl (.cons ⟨hone, trivial⟩ rfl (.cons ⟨trivial, trivial⟩ rfl
      (.cons ⟨trivial, rfl⟩ rfl (.cons ⟨htwo, trivial⟩ rfl (.nil _)))))⟩
  obtain ⟨rc, hrun⟩ := hrun
  exact ⟨rc, hrun, (RaftNode.committed_entries_delivered plainNode oneDataEntry none _ rc hrun).1⟩

end Antfly.Raft
