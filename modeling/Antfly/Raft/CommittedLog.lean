import Antfly.Lib.Runs
import Antfly.Raft.RaftNode
import Mathlib.Data.List.Range

/-!
Raft hands every node consecutive entries of one log, from wherever it likes after a restart.  What
a node should have handed to its state machine, and whom it should count as a voter, are functions
of the log and of the applied index.
-/

namespace Antfly.Raft

open List Option

/-- The committed entries, numbered without a gap. -/
structure CommittedLog where
  entry : ℕ → Entry
  numbered : ∀ i, (entry i).index = i

/-- The data an entry carries for the state machine. -/
def Entry.payload (e : Entry) : Option Bytes :=
  match e.data with
  | .normal d => if d = [] then none else some d
  | .confChange _ | .confChangeV2 => none

def Entry.changeConf (cfg : RaftNodeConfig) (confState : ConfState) (e : Entry) : ConfState :=
  match e.data with
  | .confChange (some cc) => publishConfChange cfg confState cc
  | .confChange none | .normal _ | .confChangeV2 => confState

/-- The entries of the numbers `lo` to `lo + n - 1`. -/
def segment (log : CommittedLog) (lo n : ℕ) : List Entry := (List.range' lo n).map log.entry

def dataUpTo (log : CommittedLog) (i : ℕ) : List Bytes := (segment log 1 i).filterMap Entry.payload

/-- The data entries after `i` up to `j`. -/
def dataAfter (log : CommittedLog) (i j : ℕ) : List Bytes :=
  (segment log (i + 1) (j - i)).filterMap Entry.payload

/-- The membership after the entries up to `i`. -/
def confStateAt (cfg : RaftNodeConfig) (log : CommittedLog) (initial : ConfState) (i : ℕ) :
    ConfState :=
  (segment log 1 i).foldl (Entry.changeConf cfg) initial

variable {cfg : RaftNodeConfig} {log : CommittedLog} {i j n : ℕ}

theorem segment_append (log : CommittedLog) (i n : ℕ) :
    segment log 1 (i + n) = segment log 1 i ++ segment log (i + 1) n := by
  rw [segment, segment, segment, ← map_append, ← range'_append_1, Nat.add_comm 1 i]

theorem dataUpTo_add (log : CommittedLog) (i n : ℕ) :
    dataUpTo log (i + n) = dataUpTo log i ++ (segment log (i + 1) n).filterMap Entry.payload := by
  rw [dataUpTo, segment_append, filterMap_append, dataUpTo]

theorem dataUpTo_append_dataAfter (h : i ≤ j) :
    dataUpTo log i ++ dataAfter log i j = dataUpTo log j := by
  rw [dataAfter, ← dataUpTo_add, Nat.add_sub_cancel' h]

theorem confStateAt_add (cfg : RaftNodeConfig) (log : CommittedLog) (initial : ConfState) (i n : ℕ) :
    confStateAt cfg log initial (i + n) =
      (segment log (i + 1) n).foldl (Entry.changeConf cfg) (confStateAt cfg log initial i) := by
  rw [confStateAt, segment_append, foldl_append, confStateAt]

theorem publishLoop_spec {confState : ConfState} {data : List Bytes} {ents : List Entry}
    (h : (publishLoop cfg confState data ents).removed = false) :
    (publishLoop cfg confState data ents).confState =
        ents.foldl (Entry.changeConf cfg) confState ∧
      (publishLoop cfg confState data ents).data = data ++ ents.filterMap Entry.payload := by
  induction ents generalizing confState data with
  | nil =>
    rw [filterMap_nil, append_nil]
    exact ⟨rfl, rfl⟩
  | cons e ents ih =>
    rw [foldl_cons]
    unfold publishLoop at h ⊢
    cases hdata : e.data with
    | normal d =>
      have hconf : e.changeConf cfg confState = confState := by
        simp only [Entry.changeConf, hdata]
      rw [hdata] at h
      obtain ⟨hc, hd⟩ := ih h
      refine ⟨by rw [hconf]; exact hc, hd.trans ?_⟩
      by_cases hempty : d = []
      · have hpayload : e.payload = none := by simp only [Entry.payload, hdata, if_pos hempty]
        rw [if_pos hempty, filterMap_cons_none hpayload]
      · have hpayload : e.payload = some d := by
          simp only [Entry.payload, hdata, if_neg hempty]
        rw [if_neg hempty, filterMap_cons_some hpayload, append_assoc,
          singleton_append]
    | confChange cc =>
      have hpayload : e.payload = none := by simp only [Entry.payload, hdata]
      rw [hdata] at h
      rw [filterMap_cons_none hpayload]
      cases cc with
      | none =>
        have hconf : e.changeConf cfg confState = confState := by
          simp only [Entry.changeConf, hdata]
        rw [hconf]
        exact ih h
      | some cc =>
        have hconf : e.changeConf cfg confState = publishConfChange cfg confState cc := by
          simp only [Entry.changeConf, hdata]
        dsimp only at h ⊢
        by_cases hself : removesSelf cfg cc = true
        · rw [if_pos hself] at h
          cases h
        · rw [if_neg hself] at h ⊢
          rw [hconf]
          exact ih h
    | confChangeV2 =>
      have hconf : e.changeConf cfg confState = confState := by
        simp only [Entry.changeConf, hdata]
      have hpayload : e.payload = none := by simp only [Entry.payload, hdata]
      rw [hdata] at h
      rw [filterMap_cons_none hpayload, hconf]
      exact ih h

/-- Entries of the agreed log are what raft emits. -/
def FromRaft (log : CommittedLog) : NodeEvent → Prop
  | .publish ents => ∃ lo n, 0 < lo ∧ ents = segment log lo n
  | _ => True

namespace RaftNode

variable {rc rc' : RaftNode}

theorem entriesToApply_segment {lo : ℕ} {ents : List Entry}
    (h : rc.entriesToApply (segment log lo n) = some ents) :
    ∃ k, ents = segment log (rc.appliedIndex + 1) k := by
  cases n with
  | zero =>
    cases h
    exact ⟨0, rfl⟩
  | succ n =>
    have hcons : segment log lo (n + 1) = log.entry lo :: segment log (lo + 1) n := by
      rw [segment, range'_succ, map_cons, segment]
    simp only [entriesToApply, hcons, log.numbered] at h
    by_cases hgap : rc.appliedIndex + 1 < lo
    · rw [if_pos hgap] at h
      cases h
    · rw [if_neg hgap, ← hcons] at h
      cases h
      refine ⟨n + 1 - (rc.appliedIndex + 1 - lo), ?_⟩
      have hstart : lo + (rc.appliedIndex + 1 - lo) = rc.appliedIndex + 1 := by omega
      rw [segment, ← map_drop, drop_range', Nat.mul_one, hstart, segment]

def nextData (log : CommittedLog) (rc : RaftNode) (k : ℕ) : List Bytes :=
  (segment log (rc.appliedIndex + 1) k).filterMap Entry.payload

/-- The node once the next `k` entries are on their way. -/
def published (cfg : RaftNodeConfig) (log : CommittedLog) (rc : RaftNode) (k : ℕ) : RaftNode :=
  { rc with
    confState := (segment log (rc.appliedIndex + 1) k).foldl (Entry.changeConf cfg) rc.confState
    commitC := if nextData log rc k = [] then rc.commitC else some (.data (nextData log rc k))
    appliedIndex := rc.appliedIndex + k
    applyDoneC := nextData log rc k ≠ [] }

/-- Everything that publishing entries can do: the node stops, or the entries up to a later applied
index are on their way. -/
theorem publish_cases {lo : ℕ}
    (h : rc.publish cfg (segment log lo n) = some rc') :
    (∃ cs, rc' = { rc with confState := cs, stopped := true }) ∨
      ∃ k, (nextData log rc k = [] ∨ rc.commitC = none) ∧ rc' = published cfg log rc k := by
  unfold publish at h
  cases hents : rc.entriesToApply (segment log lo n) with
  | none =>
    rw [hents] at h
    exact .inl ⟨_, (Option.some.inj h).symm⟩
  | some ents =>
    obtain ⟨k, rfl⟩ := entriesToApply_segment hents
    rw [hents] at h
    dsimp only at h
    unfold publishEntries at h
    cases k with
    | zero =>
      cases h
      exact .inr ⟨0, .inl rfl, rfl⟩
    | succ k =>
      have hlast : (segment log (rc.appliedIndex + 1) (k + 1)).getLast? =
          some (log.entry (rc.appliedIndex + 1 + k)) := by
        rw [segment, range'_concat, map_append, map_singleton, Nat.one_mul,
          getLast?_concat]
      rw [hlast] at h
      dsimp only at h
      by_cases hremoved :
          (publishLoop cfg rc.confState [] (segment log (rc.appliedIndex + 1) (k + 1))).removed =
            true
      · rw [if_pos hremoved] at h
        exact .inl ⟨_, (Option.some.inj h).symm⟩
      rw [if_neg hremoved] at h
      obtain ⟨hconf, hdata⟩ := publishLoop_spec (Bool.eq_false_iff.mpr hremoved)
      rw [nil_append] at hdata
      have hindex : (log.entry (rc.appliedIndex + 1 + k)).index = rc.appliedIndex + (k + 1) := by
        rw [log.numbered]
        omega
      change _ = nextData log rc (k + 1) at hdata
      rw [hconf, hdata, hindex] at h
      refine .inr ⟨k + 1, ?_⟩
      unfold published
      by_cases hempty : nextData log rc (k + 1) = []
      · rw [if_pos (isEmpty_iff.mpr hempty)] at h
        cases h
        simp only [hempty, true_or, if_pos, ne_eq, not_true_eq_false, decide_false, and_self]
      · rw [if_neg (fun he => hempty (isEmpty_iff.mp he))] at h
        by_cases hbusy : rc.commitC.isSome = true
        · rw [if_pos hbusy] at h
          cases h
        · rw [if_neg hbusy] at h
          cases h
          have hfree : rc.commitC = none := not_isSome_iff_eq_none.mp hbusy
          refine ⟨.inr hfree, ?_⟩
          simp only [ne_eq, hempty, not_false_eq_true, decide_true, if_false]

/-- Everything a step of the node can do. -/
inductive Stepped (cfg : RaftNodeConfig) (log : CommittedLog) (rc : RaftNode) :
    NodeEvent → RaftNode → Prop where
  /-- A fatal error, or the removal of the node. -/
  | stop (e : NodeEvent) (confState : ConfState) :
      Stepped cfg log rc e { rc with confState := confState, stopped := true }
  | idle (e : NodeEvent) : Stepped cfg log rc e rc
  | save {snap : Option Snapshot} {hs : HardState} {entries : List Entry} {committed : Bool} :
      rc.stopped = false → rc.toPublish = none →
      (rc.raftLogStorage.saveRaftState snap rc.confState hs entries committed).2 = none →
      Stepped cfg log rc (.save snap hs entries committed) { rc with
        raftLogStorage := (rc.raftLogStorage.saveRaftState snap rc.confState hs entries committed).1
        toPublish := snap.filter (·.index ≠ 0)
        confStateSavedAt := rc.appliedIndex }
  | publishSnapshot {snap : Snapshot} {fetched : Option (List Bytes)} {c : List Bytes} :
      rc.toPublish = some snap → (rc.snapStore snap.data).or fetched = some c →
      Stepped cfg log rc (.publishSnapshot fetched) { rc with
        snapStore := Function.update rc.snapStore snap.data (some c)
        commitC := some .loadSnapshot
        confState := snap.confState
        snapshotIndex := snap.index
        appliedIndex := snap.index
        toPublish := none }
  | publish {ents : List Entry} (k : ℕ) :
      rc.toPublish = none → nextData log rc k = [] ∨ rc.commitC = none →
      Stepped cfg log rc (.publish ents) (published cfg log rc k)
  | apply {fetched : Option (List Bytes)} {ds : List Bytes} :
      rc.commitC = some (.data ds) →
      Stepped cfg log rc (.readCommit fetched) { rc with db := rc.db ++ ds, commitC := none }
  | loadNothing {fetched : Option (List Bytes)} :
      rc.commitC = some .loadSnapshot → rc.snapshotToLoad = none →
      Stepped cfg log rc (.readCommit fetched) { rc with commitC := none }
  | load {fetched : Option (List Bytes)} {id : SnapshotID} {c : List Bytes} :
      rc.commitC = some .loadSnapshot → rc.snapshotToLoad = some id →
      (rc.snapStore id).or fetched = some c →
      Stepped cfg log rc (.readCommit fetched) { rc with
        snapStore := Function.update rc.snapStore id (some c)
        db := c
        commitC := none }
  | record {created recorded compacted : Bool} :
      rc.stopped = false → rc.toPublish = none → rc.snapshotDue = true →
      (rc.applyDoneC = true → rc.commitC = none) →
      (rc.raftLogStorage.createSnapshot rc.appliedIndex rc.confState (rc.nextSnapshotID cfg)
        recorded).2 = none →
      Stepped cfg log rc (.maybeTriggerSnapshot created recorded compacted) { rc with
        raftLogStorage := rc.compacted (rc.raftLogStorage.createSnapshot rc.appliedIndex
          rc.confState (rc.nextSnapshotID cfg) recorded).1 compacted
        snapStore := rc.withoutOld cfg (rc.withStorageSnapshot cfg)
        snapshotIndex := rc.appliedIndex }
  | restart (kept : ℕ) : Stepped cfg log rc (.restart kept) (rc.restart kept)

theorem step_cases {e : NodeEvent} (hraft : FromRaft log e) (h : rc.step cfg e = some rc') :
    Stepped cfg log rc e rc' := by
  cases e with
  | save snap hs entries committed =>
    simp only [step, ite_none_left_eq_some, not_or, Bool.not_eq_true,
      isSome_eq_false_iff, isNone_iff_eq_none] at h
    obtain ⟨⟨hrun, hpub⟩, h⟩ := h
    obtain rfl := Option.some.inj h
    rcases rc.save_cases snap hs entries committed with heq | ⟨heq, hok⟩
    · rw [heq]
      exact .stop _ _
    · rw [heq]
      exact .save hrun hpub hok
  | publishSnapshot fetched =>
    simp only [step, ite_none_left_eq_some] at h
    obtain ⟨-, h⟩ := h
    cases hpub : rc.toPublish with
    | none =>
      rw [hpub] at h
      cases h
    | some snap =>
      rw [hpub] at h
      rcases publishSnapshot_cases h with rfl | ⟨c, hc, rfl⟩
      · exact .stop _ _
      · exact .publishSnapshot hpub hc
  | publish ents =>
    obtain ⟨lo, n, -, rfl⟩ := hraft
    simp only [step, ite_none_left_eq_some, not_or, not_isSome_iff_eq_none] at h
    obtain ⟨⟨-, hpub⟩, h⟩ := h
    rcases publish_cases h with ⟨cs, rfl⟩ | ⟨k, hfree, rfl⟩
    · exact .stop _ _
    · exact .publish k hpub hfree
  | readCommit fetched =>
    simp only [step, ite_none_left_eq_some] at h
    obtain ⟨-, h⟩ := h
    rcases readCommit_cases h with
      rfl | ⟨ds, hcommit, rfl⟩ | ⟨hcommit, ⟨hload, rfl⟩ | ⟨id, c, hload, hc, rfl⟩⟩
    · exact .stop _ _
    · exact .apply hcommit
    · exact .loadNothing hcommit hload
    · exact .load hcommit hload hc
  | maybeTriggerSnapshot created recorded compacted =>
    simp only [step, ite_none_left_eq_some, not_or, Bool.not_eq_true,
      isSome_eq_false_iff, isNone_iff_eq_none] at h
    obtain ⟨⟨hrun, hpub⟩, h⟩ := h
    rcases maybeTriggerSnapshot_cases h with rfl | rfl | ⟨hdue, hwait, hok, rfl⟩
    · exact .stop _ _
    · exact .idle _
    · exact .record hrun hpub hdue hwait hok
  | restart kept =>
    obtain rfl := Option.some.inj h
    exact .restart kept

end RaftNode

end Antfly.Raft
