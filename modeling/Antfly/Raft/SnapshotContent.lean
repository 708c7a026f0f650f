import Antfly.Raft.Membership

/-!
`maybeTriggerSnapshot` records the applied index, which counts what has been handed over, and a
storage snapshot of what has been applied.  The two fit when it waits for the state machine, and it
does so only after a batch with data.  The first snapshot of a shard that was started from an
archive records the archive itself, whatever has been applied since.
-/

namespace Antfly.Raft

open Option

namespace RaftNode

variable {cfg : RaftNodeConfig} {log : CommittedLog} {rc rc' : RaftNode}

/-- The snapshot that is due would have everything up to the applied index: the archive is recorded
only while no data entry was applied, and any other snapshot is taken after a batch with data, or
when the state machine is done. -/
def CapturesAll (log : CommittedLog) (rc : RaftNode) : Prop :=
  if rc.reusesArchive then dataUpTo log rc.appliedIndex = []
  else rc.applyDoneC = true ∨ rc.commitC = none

/-- As long as there is no snapshot, the archive is what it was. -/
structure Archived (rc : RaftNode) : Prop where
  archive : rc.raftLogStorage.snapshot = none → rc.initWithStorageSnapshot ≠ [] →
    rc.snapStore (.archive rc.initWithStorageSnapshot) = some []
  positive : ∀ snap, rc.raftLogStorage.snapshot = some snap → 0 < snap.index
  index : rc.toPublish = none → rc.snapshotIndex = rc.raftLogStorage.snapIndex
  data : ∀ ds, rc.commitC = some (.data ds) → ds ≠ []

theorem archived_new (cfg : RaftNodeConfig) (peers : Option ConfState) :
    Archived (new cfg peers) where
  archive _ _ := if_pos rfl
  positive snap h := by cases h
  index _ := rfl
  data ds h := by cases h

theorem Archived.update (h : Archived rc) {id : SnapshotID} {c : List Bytes}
    {fetched : Option (List Bytes)} (hload : rc.snapshotToLoad = some id)
    (hc : (rc.snapStore id).or fetched = some c) (hnone : rc.raftLogStorage.snapshot = none) :
    Function.update rc.snapStore id (some c) (.archive rc.initWithStorageSnapshot) = some [] := by
  unfold snapshotToLoad at hload
  rw [hnone] at hload
  dsimp only at hload
  by_cases hinit : rc.initWithStorageSnapshot = []
  · rw [if_pos hinit] at hload
    cases hload
  · rw [if_neg hinit] at hload
    cases hload
    rw [h.archive hnone hinit, some_or] at hc
    rw [Function.update_self, hc]

theorem Stepped.archived {e : NodeEvent} (h : Stepped cfg log rc e rc') (hwf : WellFormed rc)
    (ha : Archived rc) : Archived rc' := by
  cases h with
  | stop e cs => exact ⟨ha.archive, ha.positive, ha.index, ha.data⟩
  | idle e => exact ha
  | @save snap hs entries committed hrun hnone hok =>
    have hsnap := (PebbleStorage.saveRaftState_spec hok).1
    refine ⟨fun hs => ?_, fun s hs => ?_, fun hs => ?_, ha.data⟩
    · dsimp only at hs
      rw [hsnap, or_eq_none_iff] at hs
      exact ha.archive hs.2
    · dsimp only at hs
      rw [hsnap] at hs
      cases hnew : snap.filter (·.index ≠ 0) with
      | none =>
        rw [hnew, none_or] at hs
        exact ha.positive s hs
      | some s' =>
        rw [hnew, some_or] at hs
        cases hs
        have hne := (filter_eq_some_iff.mp hnew).2
        exact Nat.pos_of_ne_zero (of_decide_eq_true hne)
    · dsimp only at hs ⊢
      rw [hs, none_or] at hsnap
      rw [PebbleStorage.snapIndex, hsnap]
      exact ha.index hnone
  | publishSnapshot hpub hc =>
    have hsnap := hwf.pending _ hpub
    refine ⟨fun hs => ?_, ha.positive, fun _ => ?_, fun ds hds => by cases hds⟩
    · dsimp only at hs
      rw [hsnap] at hs
      cases hs
    · rw [PebbleStorage.snapIndex, hsnap, elim_some]
  | publish k hpub hfree =>
    refine ⟨ha.archive, ha.positive, ha.index, fun ds hds => ?_⟩
    simp only [published] at hds
    split at hds
    · exact ha.data ds hds
    · rename_i hne
      cases hds
      exact hne
  | apply hcommit => exact ⟨ha.archive, ha.positive, ha.index, fun ds hds => by cases hds⟩
  | loadNothing hcommit hload =>
    exact ⟨ha.archive, ha.positive, ha.index, fun ds hds => by cases hds⟩
  | load hcommit hload hc =>
    exact ⟨fun hs _ => ha.update hload hc hs, ha.positive, ha.index, fun ds hds => by cases hds⟩
  | record hrun hpub hdue hwait hok =>
    obtain ⟨hlt, term, hnew⟩ := PebbleStorage.createSnapshot_spec hok
    refine ⟨fun hs => ?_, fun s hs => ?_, fun _ => ?_, ha.data⟩
    · dsimp only at hs
      rw [snapshot_compacted, hnew] at hs
      cases hs
    · dsimp only at hs
      rw [snapshot_compacted, hnew] at hs
      cases hs
      exact Nat.lt_of_le_of_lt (Nat.zero_le _) hlt
    · rw [PebbleStorage.snapIndex, snapshot_compacted, hnew, elim_some]
  | restart kept =>
    have hstorage : (rc.restart kept).raftLogStorage = rc.raftLogStorage := hwf.loaded
    refine ⟨fun _ hne => absurd rfl hne, ?_, fun _ => rfl, fun ds hds => by cases hds⟩
    rw [hstorage]
    exact ha.positive

/-- The storage snapshot that is recorded is still there when the old one has been deleted. -/
theorem withoutOld_next (cfg : RaftNodeConfig) (rc : RaftNode)
    (store : SnapshotID → Option (List Bytes)) :
    rc.withoutOld cfg store (rc.nextSnapshotID cfg) = store (rc.nextSnapshotID cfg) := by
  unfold withoutOld
  cases rc.raftLogStorage.snapshot with
  | none => rfl
  | some old =>
    dsimp only
    by_cases hsame : old.data = rc.nextSnapshotID cfg
    · rw [if_pos hsame]
    · rw [if_neg hsame, Function.update_of_ne (Ne.symm hsame)]

theorem Archived.recorded (h : Archived rc) (hpub : rc.toPublish = none) :
    rc.withStorageSnapshot cfg (rc.nextSnapshotID cfg) =
      some (if rc.reusesArchive then [] else rc.db) := by
  unfold withStorageSnapshot
  by_cases hreuse : rc.reusesArchive = true
  · rw [if_pos hreuse, if_pos hreuse, nextSnapshotID, if_pos hreuse]
    obtain ⟨hzero, hinit⟩ := of_decide_eq_true hreuse
    have hindex := (h.index hpub).symm.trans hzero
    refine h.archive ?_ hinit
    cases hsnap : rc.raftLogStorage.snapshot with
    | none => rfl
    | some snap =>
      have hpos := h.positive snap hsnap
      rw [PebbleStorage.snapIndex, hsnap, elim_some] at hindex
      omega
  · rw [if_neg hreuse, if_neg hreuse, Function.update_self]

theorem content_iff (ha : Archived rc) (hdel : handedOver rc =
      some (dataUpTo log rc.appliedIndex)) (hwait : rc.applyDoneC = true → rc.commitC = none)
    (hnot : rc.commitC ≠ some .loadSnapshot) :
    (if rc.reusesArchive then [] else rc.db) = dataUpTo log rc.appliedIndex ↔
      CapturesAll log rc := by
  unfold CapturesAll
  by_cases hreuse : rc.reusesArchive = true
  · rw [if_pos hreuse, if_pos hreuse]
    exact eq_comm
  rw [if_neg hreuse, if_neg hreuse]
  rcases hcommit : rc.commitC with - | (ds | -)
  · simp only [handedOver, hcommit, Option.some.injEq] at hdel
    exact iff_of_true hdel (Or.inr rfl)
  · simp only [handedOver, hcommit, Option.some.injEq] at hdel
    refine iff_of_false (fun heq => ?_) ?_
    · rw [← hdel] at heq
      exact ha.data ds hcommit (List.self_eq_append_right.mp heq)
    · rintro (hdone | hnone)
      · have hfree := hwait hdone
        rw [hcommit] at hfree
        cases hfree
      · cases hnone
  · exact absurd hcommit hnot

/-- When a node whose earlier steps kept the delivery records a snapshot, it has the data entries up
to its index, and no others, exactly when it captures all; a replica that is restored from it and
fed the rest of the log has then applied the whole log. -/
theorem recorded_snapshot_matches_iff (cfg : RaftNodeConfig) (log : CommittedLog)
    (peers : Option ConfState) (events : List NodeEvent) (rc rc' : RaftNode)
    (created recorded compacted : Bool)
    (h : Run (step cfg) (fun rc e => FromRaft log e ∧ KeepsDelivery log rc e) (new cfg peers)
      events rc)
    (hkeeps : KeepsDelivery log rc (.maybeTriggerSnapshot created recorded compacted))
    (hstep : rc.step cfg (.maybeTriggerSnapshot created recorded compacted) = some rc')
    (hnew : rc'.raftLogStorage.snapshot ≠ rc.raftLogStorage.snapshot) :
    ∃ snap c, rc'.raftLogStorage.snapshot = some snap ∧ snap.index = rc.appliedIndex ∧
      rc'.snapStore snap.data = some c ∧
      ((c = dataUpTo log snap.index ∧
        ∀ j, snap.index ≤ j → c ++ dataAfter log snap.index j = dataUpTo log j) ↔
          CapturesAll log rc) := by
  have hdel : Delivered log rc :=
    delivered_of_run (fun _ _ hok => hok.1) (fun _ _ hok => hok.2) h
  have hinv : ∀ rc e rc', FromRaft log e ∧ KeepsDelivery log rc e →
      step cfg rc e = some rc' → WellFormed rc ∧ Archived rc →
      WellFormed rc' ∧ Archived rc' := by
    rintro rc e rc' ⟨hraft, -⟩ hstep ⟨hwf, ha⟩
    have hstep := step_cases hraft hstep
    exact ⟨hstep.wellFormed hwf, hstep.archived hwf ha⟩
  have ha := (h.invariant hinv ⟨wellFormed_new cfg peers, archived_new cfg peers⟩).2
  have hraft : FromRaft log (.maybeTriggerSnapshot created recorded compacted) := trivial
  cases step_cases hraft hstep with
  | stop e cs => exact absurd rfl hnew
  | idle e => exact absurd rfl hnew
  | record hrun hpub hdue hwait hok =>
    obtain ⟨-, term, hsnap⟩ := PebbleStorage.createSnapshot_spec hok
    have hnot : rc.commitC ≠ some .loadSnapshot :=
      hkeeps.resolve_left fun hfalse => by cases hdue.symm.trans hfalse
    have hcontent := content_iff ha (hdel hrun hpub) hwait hnot
    refine ⟨⟨rc.appliedIndex, term, rc.confState, rc.nextSnapshotID cfg⟩, _, ?_, rfl,
      (withoutOld_next cfg rc _).trans (ha.recorded hpub), ?_⟩
    · dsimp only
      rw [snapshot_compacted]
      exact hsnap
    · rw [← hcontent]
      refine ⟨fun hall => hall.1, fun heq => ⟨heq, fun j hj => ?_⟩⟩
      rw [heq]
      exact dataUpTo_append_dataAfter hj

end RaftNode

def archivedNode : RaftNodeConfig := ⟨3, 1, [], [9]⟩

/-- A node that was started from an archive applies an entry and takes its first snapshot. -/
def firstSnapshot (log : CommittedLog) : List NodeEvent :=
  [.save none ⟨1, 1, 1⟩ (segment log 1 1) true, .publish (segment log 1 1), .readCommit none]

/-- The first snapshot of index 1 is the archive, without the data entry of index 1. -/
theorem first_snapshot_reuses_archive :
    ∃ rc rc', Run (RaftNode.step archivedNode) (fun _ e => FromRaft oneDataEntry e)
        (RaftNode.new archivedNode none) (firstSnapshot oneDataEntry) rc ∧
      rc.step archivedNode (.maybeTriggerSnapshot true true true) = some rc' ∧
      rc'.raftLogStorage.snapshot = some ⟨1, 1, ∅, .archive [9]⟩ ∧
      rc'.snapStore (.archive [9]) = some [] ∧ dataUpTo oneDataEntry 1 = [[7]] := by
  have hemitted : FromRaft oneDataEntry (.publish (segment oneDataEntry 1 1)) :=
    ⟨1, 1, Nat.one_pos, rfl⟩
  exact ⟨_, _, .cons trivial rfl (.cons hemitted rfl (.cons trivial rfl (.nil _))), rfl, rfl, rfl,
    rfl⟩

/-- The first entry has no data, the second one has. -/
def emptyThenData : CommittedLog where
  entry i := ⟨1, i, .normal (if i = 2 then [7] else [])⟩
  numbered _ := rfl

theorem recorded_snapshot_matches_sample :
    ∃ rc rc' : RaftNode,
      rc.step archivedNode (.maybeTriggerSnapshot true true true) = some rc' ∧
      dataUpTo emptyThenData 2 = [[7]] ∧
      ∃ snap c, rc'.raftLogStorage.snapshot = some snap ∧ snap.index = rc.appliedIndex ∧
        rc'.snapStore snap.data = some c ∧ c = dataUpTo emptyThenData snap.index ∧
        ∀ j, snap.index ≤ j → c ++ dataAfter emptyThenData snap.index j =
          dataUpTo emptyThenData j := by
  have hemitted : FromRaft emptyThenData (.publish (segment emptyThenData 1 1)) :=
    ⟨1, 1, Nat.one_pos, rfl⟩
  have hrun : ∃ rc, Run (RaftNode.step archivedNode)
      (fun rc e => FromRaft emptyThenData e ∧ RaftNode.KeepsDelivery emptyThenData rc e)
      (RaftNode.new archivedNode none)
      [.save none ⟨1, 1, 1⟩ (segment emptyThenData 1 1) true,
        .publish (segment emptyThenData 1 1)] rc ∧
      rc.commitC = none ∧ RaftNode.CapturesAll emptyThenData rc ∧
      ∃ rc', rc.step archivedNode (.maybeTriggerSnapshot true true true) = some rc' ∧
        rc'.raftLogStorage.snapshot ≠ rc.raftLogStorage.snapshot :=
    ⟨_, .cons ⟨trivial, trivial⟩ rfl (.cons ⟨hemitted, trivial⟩ rfl (.nil _)), rfl,
      (rfl : dataUpTo emptyThenData 1 = []), _, rfl, Option.some_ne_none _⟩
  obtain ⟨rc, hrun, hidle, hcaptures, rc', hstep, hnew⟩ := hrun
  have hkeeps : RaftNode.KeepsDelivery emptyThenData rc (.maybeTriggerSnapshot true true true) := by
    refine Or.inr ?_
    rw [hidle]
    exact Option.some_ne_none _ |>.symm
  obtain ⟨snap, c, hsnap, hindex, hstored, hiff⟩ :=
    RaftNode.recorded_snapshot_matches_iff archivedNode emptyThenData none _ rc rc' true true true
      hrun hkeeps hstep hnew
  exact ⟨rc, rc', hstep, rfl, snap, c, hsnap, hindex, hstored, hiff.mpr hcaptures⟩

end Antfly.Raft
