import Antfly.Raft.Delivery

/-!
The conf state is saved with the next Ready after the change, or with a snapshot, and a restart
takes the snapshot's conf state where there is one.  It skips the conf changes up to the persisted
commit index.  So a change is forgotten when the process ends after its commit index was saved and
before the conf state was.
-/

namespace Antfly.Raft

namespace RaftNode

variable {cfg : RaftNodeConfig} {log : CommittedLog} {initial : ConfState} {rc rc' : RaftNode}

/-- The applied index that the conf state of a restart belongs to. -/
def confStateIndex (rc : RaftNode) : ℕ :=
  match rc.raftLogStorage.snapshot with
  | some snap => snap.index
  | none => rc.confStateSavedAt

/-- When the process ends, no change of the membership lies between the stored conf state and the
index that the restart counts as applied; and a snapshot comes with the membership at its index. -/
def KeepsMembership (cfg : RaftNodeConfig) (log : CommittedLog) (initial : ConfState)
    (rc : RaftNode) : NodeEvent → Prop
  | .restart _ =>
    confStateAt cfg log initial rc.confStateIndex = confStateAt cfg log initial rc.restartIndex
  | .save snap _ _ _ => ∀ s, snap.filter (·.index ≠ 0) = some s →
      s.confState = confStateAt cfg log initial s.index
  | _ => True

/-- The conf states in memory and on disk are those of the log. -/
structure Members (cfg : RaftNodeConfig) (log : CommittedLog) (initial : ConfState)
    (rc : RaftNode) : Prop where
  current : rc.stopped = false → rc.confState = confStateAt cfg log initial rc.appliedIndex
  snapshot : ∀ snap, rc.raftLogStorage.snapshot = some snap →
    snap.confState = confStateAt cfg log initial snap.index
  saved : rc.raftLogStorage.snapshot = none →
    rc.raftLogStorage.db.confState.getD ∅ = confStateAt cfg log initial rc.confStateSavedAt

theorem members_new (cfg : RaftNodeConfig) (log : CommittedLog) (peers : Option ConfState) :
    Members cfg log (peers.getD ∅) (new cfg peers) where
  current _ := rfl
  snapshot snap h := by cases h
  saved _ := rfl

theorem Members.restart_confState (h : Members cfg log initial rc) (hwf : WellFormed rc)
    (kept : ℕ) :
    (rc.restart kept).confState = confStateAt cfg log initial rc.confStateIndex := by
  change (PebbleStorage.load rc.raftLogStorage.db).initialState.2 = _
  rw [hwf.loaded]
  unfold PebbleStorage.initialState confStateIndex
  cases hsnap : rc.raftLogStorage.snapshot with
  | some snap => exact h.snapshot snap hsnap
  | none => exact h.saved hsnap

theorem Stepped.members {e : NodeEvent} (h : Stepped cfg log rc e rc') (hwf : WellFormed rc)
    (hkeeps : KeepsMembership cfg log initial rc e) (hmem : Members cfg log initial rc) :
    Members cfg log initial rc' := by
  cases h with
  | stop e cs => exact ⟨fun h => (by cases h), hmem.snapshot, hmem.saved⟩
  | idle e => exact hmem
  | @save snap hs entries committed hrun hnone hok =>
    obtain ⟨hsnap, hconf⟩ := PebbleStorage.saveRaftState_spec hok
    have hkeeps : ∀ s, snap.filter (·.index ≠ 0) = some s →
      s.confState = confStateAt cfg log initial s.index := hkeeps
    refine ⟨hmem.current, ?_, ?_⟩
    · intro s hs
      dsimp only at hs
      rw [hsnap] at hs
      cases hnew : snap.filter (·.index ≠ 0) with
      | none =>
        rw [hnew, Option.none_or] at hs
        exact hmem.snapshot s hs
      | some s' =>
        rw [hnew, Option.some_or] at hs
        cases hs
        exact hkeeps s hnew
    · intro hs
      dsimp only at hs ⊢
      rw [hsnap, Option.or_eq_none_iff] at hs
      rw [hconf, hs.1, Option.getD_some, Option.elim_none]
      exact hmem.current hrun
  | publishSnapshot hpub hc =>
    exact ⟨fun _ => hmem.snapshot _ (hwf.pending _ hpub), hmem.snapshot, hmem.saved⟩
  | publish k hpub hfree =>
    refine ⟨fun hrun => ?_, hmem.snapshot, hmem.saved⟩
    have hbefore := hmem.current hrun
    change (segment log (rc.appliedIndex + 1) k).foldl (Entry.changeConf cfg) rc.confState =
      confStateAt cfg log initial (rc.appliedIndex + k)
    rw [hbefore, confStateAt_add]
  | apply hcommit => exact ⟨hmem.current, hmem.snapshot, hmem.saved⟩
  | loadNothing hcommit hload => exact ⟨hmem.current, hmem.snapshot, hmem.saved⟩
  | load hcommit hload hc => exact ⟨hmem.current, hmem.snapshot, hmem.saved⟩
  | record hrun hpub hdue hwait hok =>
    obtain ⟨-, term, hnew⟩ := PebbleStorage.createSnapshot_spec hok
    refine ⟨hmem.current, fun s hs => ?_, fun hs => ?_⟩
    · dsimp only at hs
      rw [snapshot_compacted, hnew] at hs
      cases hs
      exact hmem.current hrun
    · dsimp only at hs
      rw [snapshot_compacted, hnew] at hs
      cases hs
  | restart kept =>
    have hconf := hmem.restart_confState hwf kept
    refine ⟨fun _ => ?_, ?_, ?_⟩
    · rw [hconf, appliedIndex_restart hwf]
      exact hkeeps
    · change ∀ snap, (PebbleStorage.load rc.raftLogStorage.db).snapshot = some snap → _
      rw [hwf.loaded]
      exact hmem.snapshot
    · change (PebbleStorage.load rc.raftLogStorage.db).snapshot = none →
        (PebbleStorage.load rc.raftLogStorage.db).db.confState.getD ∅ = _
      rw [hwf.loaded]
      exact hmem.saved

/-- The voters of a node whose restarts meet the condition are those the log says, and the voters
after one more restart are those exactly under the condition. -/
theorem membership_survives_restarts (cfg : RaftNodeConfig) (log : CommittedLog)
    (peers : Option ConfState) (events : List NodeEvent) (rc : RaftNode)
    (h : Run (step cfg) (fun rc e => FromRaft log e ∧ KeepsMembership cfg log (peers.getD ∅) rc e)
      (new cfg peers) events rc) :
    (rc.stopped = false → rc.confState = confStateAt cfg log (peers.getD ∅) rc.appliedIndex) ∧
      ∀ kept, (rc.restart kept).confState = confStateAt cfg log (peers.getD ∅) rc.restartIndex ↔
        confStateAt cfg log (peers.getD ∅) rc.confStateIndex =
          confStateAt cfg log (peers.getD ∅) rc.restartIndex := by
  have hstep : ∀ rc e rc', FromRaft log e ∧ KeepsMembership cfg log (peers.getD ∅) rc e →
      step cfg rc e = some rc' → WellFormed rc ∧ Members cfg log (peers.getD ∅) rc →
      WellFormed rc' ∧ Members cfg log (peers.getD ∅) rc' := by
    rintro rc e rc' ⟨hraft, hkeeps⟩ hstep ⟨hwf, hmem⟩
    have hstep := step_cases hraft hstep
    exact ⟨hstep.wellFormed hwf, hstep.members hwf hkeeps hmem⟩
  obtain ⟨hwf, hmem⟩ := h.invariant hstep ⟨wellFormed_new cfg peers, members_new cfg log peers⟩
  refine ⟨hmem.current, fun kept => ?_⟩
  rw [hmem.restart_confState hwf kept]

end RaftNode

/-- Two nodes are added, one after the other. -/
def twoAdditions : CommittedLog where
  entry i := ⟨1, i, .confChange (if i ≤ 2 then some ⟨.addNode, i, .ok ⟨[], [], []⟩⟩ else none)⟩
  numbered _ := rfl

/-- Each addition is saved, together with the conf state before it, and published. -/
def additionsPublished : List NodeEvent :=
  [.save none ⟨1, 1, 1⟩ (segment twoAdditions 1 1) true, .publish (segment twoAdditions 1 1),
    .save none ⟨1, 1, 2⟩ (segment twoAdditions 2 1) true, .publish (segment twoAdditions 2 1)]

/-- The second addition is committed and applied, and forgotten by the restart: raft emits it again,
and it is filtered out. -/
theorem restart_forgets_addition :
    ∃ rc, Run (RaftNode.step plainNode) (fun _ e => FromRaft twoAdditions e)
        (RaftNode.new plainNode none)
        (additionsPublished ++ [.restart 0, .publish (segment twoAdditions 1 2)]) rc ∧
      rc.stopped = false ∧ rc.appliedIndex = 2 ∧ rc.confState = {1} ∧
      confStateAt plainNode twoAdditions ∅ 2 = {1, 2} := by
  have hemitted : ∀ lo n, 0 < lo → FromRaft twoAdditions (.publish (segment twoAdditions lo n)) :=
    fun lo n hlo => ⟨lo, n, hlo, rfl⟩
  refine ⟨_, .cons trivial rfl (.cons (hemitted 1 1 (by decide)) rfl (.cons trivial rfl
    (.cons (hemitted 2 1 (by decide)) rfl (.cons trivial rfl
      (.cons (hemitted 1 2 (by decide)) rfl (.nil _)))))), rfl, rfl, rfl, by decide⟩

theorem membership_survives_restarts_sample :
    ∃ rc, Run (RaftNode.step plainNode)
        (fun rc e => FromRaft twoAdditions e ∧
          RaftNode.KeepsMembership plainNode twoAdditions ∅ rc e)
        (RaftNode.new plainNode none)
        (additionsPublished ++ [.save none ⟨1, 1, 2⟩ [] true, .restart 0]) rc ∧
      rc.confState = confStateAt plainNode twoAdditions ∅ 2 := by
  have hemitted : ∀ lo n, 0 < lo → FromRaft twoAdditions (.publish (segment twoAdditions lo n)) :=
    fun lo n hlo => ⟨lo, n, hlo, rfl⟩
  have hrun : ∃ rc, Run (RaftNode.step plainNode)
      (fun rc e => FromRaft twoAdditions e ∧
        RaftNode.KeepsMembership plainNode twoAdditions ∅ rc e)
      (RaftNode.new plainNode none)
      (additionsPublished ++ [.save none ⟨1, 1, 2⟩ [] true, .restart 0]) rc ∧
      rc.stopped = false ∧ rc.appliedIndex = 2 := by
    refine ⟨_, .cons ⟨trivial, fun s hs => by cases hs⟩ rfl (.cons ⟨hemitted 1 1 (by decide), trivial⟩
      rfl (.cons ⟨trivial, fun s hs => by cases hs⟩ rfl (.cons ⟨hemitted 2 1 (by decide), trivial⟩ rfl
        (.cons ⟨trivial, fun s hs => by cases hs⟩ rfl (.cons ⟨trivial, ?_⟩ rfl (.nil _)))))), rfl, rfl⟩
    rfl
  obtain ⟨rc, hrun, hrunning, hindex⟩ := hrun
  refine ⟨rc, hrun, ?_⟩
  rw [← hindex]
  exact (RaftNode.membership_survives_restarts plainNode twoAdditions none _ rc hrun).1 hrunning

end Antfly.Raft
