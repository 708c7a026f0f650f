import Antfly.Lib.LeaderFold
import Antfly.Store.Types
import Mathlib.Data.Finset.Insert
import Mathlib.Data.Finset.Lattice.Basic

/-!
Every node that hosts a replica reports a `ShardInfo` in its heartbeat, and `UpdateStatuses` folds
the reports into one with `Merge`, over a map that Go iterates in an arbitrary order.  Peers,
snapshot and replay flags are merged with unions, conjunctions and disjunctions.  The split and
merge state come from the leader when it reports, but a state any other node still reports
overrides them, and so the outcome can depend on the order.
-/

namespace Antfly

open List

/-- `map[types.ID]struct{}`. -/
abbrev PeerSet := Finset ℕ

/-- The Raft leader (zero when unknown) and the voters, as a node sees them. -/
structure RaftStatus where
  lead : ℕ
  voters : PeerSet
  deriving DecidableEq

/-- The creation time (`none` is the zero time) and the statistics of a shard, encoded. -/
structure DBStats where
  created : Option Int
  stats : Bytes
  deriving DecidableEq

/-- The byte range of a shard and the encodings of its schema, its index configurations and its
restore configuration. -/
structure ShardConfig where
  byteRange : Range
  schema : Bytes
  indexes : Bytes
  restoreConfig : Bytes
  deriving DecidableEq

structure ShardInfo extends ShardConfig where
  shardStats : Option DBStats
  peers : PeerSet
  raftStatus : Option RaftStatus
  reportedBy : PeerSet
  hasSnapshot : Bool
  initializing : Bool
  splitting : Bool
  splitState : Option SplitState
  mergeState : Option MergeState
  splitReplayRequired : Bool
  splitReplayCaughtUp : Bool
  splitCutoverReady : Bool
  splitReplaySeq : ℕ
  splitParentShardID : ℕ
  mergeDeltaSeq : ℕ
  mergeDeltaFinalSeq : ℕ
  deriving DecidableEq

/-- The leader a status names, zero for a missing status. -/
def leadOf (status : Option RaftStatus) : ℕ := status.elim 0 RaftStatus.lead

namespace ShardInfo

/-- `NewShardInfo`: the flags that are merged by conjunction start true. -/
def new : ShardInfo where
  byteRange := ⟨[], []⟩
  schema := []
  indexes := []
  restoreConfig := []
  shardStats := some ⟨none, []⟩
  peers := ∅
  raftStatus := some ⟨0, ∅⟩
  reportedBy := ∅
  hasSnapshot := true
  initializing := false
  splitting := false
  splitState := none
  mergeState := none
  splitReplayRequired := false
  splitReplayCaughtUp := true
  splitCutoverReady := true
  splitReplaySeq := 0
  splitParentShardID := 0
  mergeDeltaSeq := 0
  mergeDeltaFinalSeq := 0

/-- A shard that can serve reads directly, when it is the child of a split. -/
def isReadyForSplitReads (s : ShardInfo) : Bool :=
  s.hasSnapshot && !s.initializing && decide (leadOf s.raftStatus ≠ 0) &&
    (!s.splitReplayRequired || s.splitCutoverReady)

/-- A split child that has caught up with the current sequence of its parent. -/
def canInitiateSplitCutover (s : ShardInfo) : Bool :=
  s.hasSnapshot && !s.initializing && decide (leadOf s.raftStatus ≠ 0) &&
    (!s.splitReplayRequired || s.splitReplayCaughtUp)

def isReadyForMergeCutover (s : ShardInfo) : Bool :=
  !s.initializing && decide (leadOf s.raftStatus ≠ 0) &&
    s.mergeState.any fun st => st.copyCompleted && decide (st.finalSeq ≤ st.replaySeq)

/-- What a leader's report overrides. -/
def takeLeader (s o : ShardInfo) : ShardInfo :=
  { s with
    raftStatus := o.raftStatus
    shardStats := o.shardStats
    splitState := o.splitState
    mergeState := o.mergeState }

/-- The two leader rules of `Merge`: the reporter is the leader `s` knows of, or takes itself for
the leader. -/
def overrideByLeader (s : ShardInfo) (nodeID : ℕ) (o : ShardInfo) : ShardInfo :=
  let s₁ := if leadOf s.raftStatus ≠ 0 ∧ leadOf s.raftStatus = nodeID then s.takeLeader o else s
  if leadOf o.raftStatus ≠ 0 ∧ leadOf o.raftStatus = nodeID then s₁.takeLeader o else s₁

/-- `Merge` folds the report `o` of node `nodeID` into `s`. -/
def merge (s : ShardInfo) (nodeID : ℕ) (o : ShardInfo) : ShardInfo :=
  let s₂ := s.overrideByLeader nodeID o
  { toShardConfig := if s.byteRange = ⟨[], []⟩ then o.toShardConfig else s.toShardConfig
    reportedBy := insert nodeID s.reportedBy
    peers := insert nodeID s.peers ∪ o.peers
    splitState := o.splitState.or s₂.splitState
    mergeState := o.mergeState.or s₂.mergeState
    raftStatus := if leadOf s₂.raftStatus = 0 then o.raftStatus else s₂.raftStatus
    shardStats := if (s₂.shardStats.bind DBStats.created).isNone then o.shardStats
      else s₂.shardStats
    hasSnapshot := s.hasSnapshot && o.hasSnapshot
    initializing := s.initializing || o.initializing
    splitting := s.splitting || o.splitting
    splitReplayRequired := s.splitReplayRequired || o.splitReplayRequired
    splitReplayCaughtUp := s.splitReplayCaughtUp && o.splitReplayCaughtUp
    splitCutoverReady := s.splitCutoverReady && o.splitCutoverReady
    splitReplaySeq := max s.splitReplaySeq o.splitReplaySeq
    splitParentShardID := if o.splitParentShardID ≠ 0 then o.splitParentShardID
      else s.splitParentShardID
    mergeDeltaSeq := max s.mergeDeltaSeq o.mergeDeltaSeq
    mergeDeltaFinalSeq := max s.mergeDeltaFinalSeq o.mergeDeltaFinalSeq }

/-- What the consumers of a merged report go by. -/
structure Observed where
  reportedBy : PeerSet
  peers : PeerSet
  readyForSplitReads : Bool
  canInitiateSplitCutover : Bool
  readyForMergeCutover : Bool
  splitState : Option SplitState
  mergeState : Option MergeState

def observe (s : ShardInfo) : Observed :=
  ⟨s.reportedBy, s.peers, s.isReadyForSplitReads, s.canInitiateSplitCutover,
    s.isReadyForMergeCutover, s.splitState, s.mergeState⟩

end ShardInfo

abbrev NodeReport := ℕ × ShardInfo

/-- The fold `UpdateStatuses` makes over the reports of a shard, in one iteration order. -/
def mergeReports (rs : List NodeReport) : ShardInfo :=
  rs.foldl (fun s r => s.merge r.1 r.2) ShardInfo.new

/-- The node reports itself as the leader. -/
def SelfLeads (r : NodeReport) : Prop :=
  leadOf r.2.raftStatus ≠ 0 ∧ leadOf r.2.raftStatus = r.1

/-- One report per node, at most one by a leader. -/
structure NodeReports (rs : List NodeReport) : Prop where
  nodup : (rs.map Prod.fst).Nodup
  leader : ∀ r ∈ rs, ∀ r' ∈ rs, SelfLeads r → SelfLeads r' → r = r'

/-- Every order of the reports gives the same observation, and the leader's split and merge state
when the leader reports. -/
def OrderIndependent (rs : List NodeReport) : Prop :=
  ∀ p : List NodeReport, p.Perm rs →
    (mergeReports p).observe = (mergeReports rs).observe ∧
    ∀ l ∈ rs, SelfLeads l → (mergeReports p).splitState = l.2.splitState ∧
      (mergeReports p).mergeState = l.2.mergeState

open LeaderFold

/-- What a report says of the leader and of one replicated state. -/
def leaderReport {α : Type} (state : ShardInfo → Option α) (r : NodeReport) : Report α :=
  ⟨r.1, leadOf r.2.raftStatus, state r.2⟩

/-- What a reader of the merged report sees of them. -/
def leaderView {α : Type} (state : ShardInfo → Option α) (s : ShardInfo) : View α :=
  ⟨leadOf s.raftStatus, state s⟩

/-- A field that a leader's report overrides and any other report fills in. -/
structure ReplicatedState {α : Type} (state : ShardInfo → Option α) : Prop where
  new : state ShardInfo.new = none
  takeLeader : ∀ s o, state (ShardInfo.takeLeader s o) = state o
  merge : ∀ s n o, state (ShardInfo.merge s n o) =
    (state o).or (state (ShardInfo.overrideByLeader s n o))

theorem replicatedState_splitState : ReplicatedState ShardInfo.splitState :=
  ⟨rfl, fun _ _ => rfl, fun _ _ _ => rfl⟩

theorem replicatedState_mergeState : ReplicatedState ShardInfo.mergeState :=
  ⟨rfl, fun _ _ => rfl, fun _ _ _ => rfl⟩

/-- Merging a report moves the leader and a replicated state as the fold of reports does. -/
theorem leaderView_merge {α : Type} {state : ShardInfo → Option α} (h : ReplicatedState state)
    (s : ShardInfo) (r : NodeReport) :
    leaderView state (s.merge r.1 r.2) = (leaderView state s).take (leaderReport state r) := by
  have hoverride : leaderView state (s.overrideByLeader r.1 r.2) =
      if leadOf r.2.raftStatus ≠ 0 ∧ leadOf r.2.raftStatus = r.1 then
        ⟨leadOf r.2.raftStatus, state r.2⟩
      else if leadOf s.raftStatus ≠ 0 ∧ leadOf s.raftStatus = r.1 then
        ⟨leadOf r.2.raftStatus, state r.2⟩
      else leaderView state s := by
    have htake : ∀ s' : ShardInfo, leaderView state (s'.takeLeader r.2) =
        ⟨leadOf r.2.raftStatus, state r.2⟩ := fun s' => by
      rw [leaderView, h.takeLeader]
      rfl
    simp only [ShardInfo.overrideByLeader, apply_ite (leaderView state), htake]
  have hlead : leadOf (s.merge r.1 r.2).raftStatus =
      if (leaderView state (s.overrideByLeader r.1 r.2)).lead = 0 then leadOf r.2.raftStatus
      else (leaderView state (s.overrideByLeader r.1 r.2)).lead :=
    apply_ite leadOf _ _ _
  have hvalue : state (s.merge r.1 r.2) =
      (state r.2).or (leaderView state (s.overrideByLeader r.1 r.2)).value := h.merge s r.1 r.2
  rw [leaderView, hlead, hvalue, hoverride]
  rfl

theorem leaderView_mergeReports {α : Type} {state : ShardInfo → Option α}
    (h : ReplicatedState state) (rs : List NodeReport) :
    leaderView state (mergeReports rs) = fold (rs.map (leaderReport state)) := by
  induction rs using List.reverseRecOn with
  | nil =>
    rw [mergeReports, foldl_nil, leaderView, h.new]
    rfl
  | append_singleton rs r ih =>
    rw [mergeReports, foldl_append, map_append, map_singleton,
      fold_append_singleton, ← ih]
    exact leaderView_merge h _ r

/-- The fields that are merged by unions, conjunctions and disjunctions. -/
structure MergedFlags (rs : List NodeReport) (s : ShardInfo) : Prop where
  reportedBy : ∀ n, n ∈ s.reportedBy ↔ ∃ r ∈ rs, n = r.1
  peers : ∀ n, n ∈ s.peers ↔ ∃ r ∈ rs, n = r.1 ∨ n ∈ r.2.peers
  hasSnapshot : s.hasSnapshot = true ↔ ∀ r ∈ rs, r.2.hasSnapshot = true
  initializing : s.initializing = true ↔ ∃ r ∈ rs, r.2.initializing = true
  replayRequired : s.splitReplayRequired = true ↔ ∃ r ∈ rs, r.2.splitReplayRequired = true
  caughtUp : s.splitReplayCaughtUp = true ↔ ∀ r ∈ rs, r.2.splitReplayCaughtUp = true
  cutoverReady : s.splitCutoverReady = true ↔ ∀ r ∈ rs, r.2.splitCutoverReady = true

theorem mergedFlags_mergeReports (rs : List NodeReport) : MergedFlags rs (mergeReports rs) := by
  induction rs using List.reverseRecOn with
  | nil => constructor <;> simp [mergeReports, ShardInfo.new]
  | append_singleton rs r ih =>
    have hmerge : mergeReports (rs ++ [r]) = (mergeReports rs).merge r.1 r.2 := by
      simp [mergeReports]
    rw [hmerge]
    constructor
    · intro n
      simp only [ShardInfo.merge, Finset.mem_insert, ih.reportedBy, mem_append,
        mem_singleton, or_and_right, exists_or, exists_eq_left]
      exact or_comm
    · intro n
      simp only [ShardInfo.merge, Finset.mem_union, Finset.mem_insert, ih.peers, mem_append,
        mem_singleton, or_and_right, exists_or, exists_eq_left]
      rw [or_comm (a := n = r.1), or_assoc]
    · simp [ShardInfo.merge, ih.hasSnapshot, or_imp, forall_and]
    · simp only [ShardInfo.merge, Bool.or_eq_true, ih.initializing, mem_append,
        mem_singleton, or_and_right, exists_or, exists_eq_left]
    · simp only [ShardInfo.merge, Bool.or_eq_true, ih.replayRequired, mem_append,
        mem_singleton, or_and_right, exists_or, exists_eq_left]
    · simp [ShardInfo.merge, ih.caughtUp, or_imp, forall_and]
    · simp [ShardInfo.merge, ih.cutoverReady, or_imp, forall_and]

private theorem bool_eq_of_iff {a b : Bool} (h : a = true ↔ b = true) : a = b := by
  cases a <;> cases b <;> simp_all

theorem mergedFlags_perm {rs p : List NodeReport} (hp : p.Perm rs) :
    (mergeReports p).reportedBy = (mergeReports rs).reportedBy ∧
      (mergeReports p).peers = (mergeReports rs).peers ∧
      (mergeReports p).hasSnapshot = (mergeReports rs).hasSnapshot ∧
      (mergeReports p).initializing = (mergeReports rs).initializing ∧
      (mergeReports p).splitReplayRequired = (mergeReports rs).splitReplayRequired ∧
      (mergeReports p).splitReplayCaughtUp = (mergeReports rs).splitReplayCaughtUp ∧
      (mergeReports p).splitCutoverReady = (mergeReports rs).splitCutoverReady := by
  have hflags := mergedFlags_mergeReports p
  have hflags' := mergedFlags_mergeReports rs
  have hall : ∀ f : NodeReport → Prop, (∀ r ∈ p, f r) ↔ ∀ r ∈ rs, f r :=
    fun f => ⟨fun h r hr => h r (hp.symm.subset hr), fun h r hr => h r (hp.subset hr)⟩
  have hex : ∀ f : NodeReport → Prop, (∃ r ∈ p, f r) ↔ ∃ r ∈ rs, f r :=
    fun f => ⟨fun ⟨r, hr, h⟩ => ⟨r, hp.subset hr, h⟩, fun ⟨r, hr, h⟩ => ⟨r, hp.symm.subset hr, h⟩⟩
  refine ⟨?_, ?_, ?_, ?_, ?_, ?_, ?_⟩
  · ext n
    rw [hflags.reportedBy, hflags'.reportedBy, hex]
  · ext n
    rw [hflags.peers, hflags'.peers, hex]
  · exact bool_eq_of_iff (by rw [hflags.hasSnapshot, hflags'.hasSnapshot, hall])
  · exact bool_eq_of_iff (by rw [hflags.initializing, hflags'.initializing, hex])
  · exact bool_eq_of_iff (by rw [hflags.replayRequired, hflags'.replayRequired, hex])
  · exact bool_eq_of_iff (by rw [hflags.caughtUp, hflags'.caughtUp, hall])
  · exact bool_eq_of_iff (by rw [hflags.cutoverReady, hflags'.cutoverReady, hall])

/-- Only the missing leader keeps the merged report from being ready for something. -/
def AwaitsLead (rs : List NodeReport) : Prop :=
  (∀ r ∈ rs, r.2.initializing = false) ∧
    (((∀ r ∈ rs, r.2.hasSnapshot = true) ∧
        ((∀ r ∈ rs, r.2.splitReplayRequired = false) ∨
          (∀ r ∈ rs, r.2.splitCutoverReady = true) ∨ ∀ r ∈ rs, r.2.splitReplayCaughtUp = true)) ∨
      ∃ r ∈ rs, ∃ st, r.2.mergeState = some st ∧ st.copyCompleted = true ∧
        st.finalSeq ≤ st.replaySeq)

/-- The reports agree on the split and on the merge state, and it is settled whether a leader is
known unless nothing depends on it. -/
structure ReportsAgree (rs : List NodeReport) : Prop where
  split : Agrees (rs.map (leaderReport ShardInfo.splitState))
  merge : Agrees (rs.map (leaderReport ShardInfo.mergeState))
  lead : AwaitsLead rs → LeadKnown (rs.map (leaderReport ShardInfo.splitState))

section Reports

variable {rs p : List NodeReport} {α : Type} {state : ShardInfo → Option α}

theorem NodeReports.wellReported (h : NodeReports rs) (state : ShardInfo → Option α) :
    WellReported (rs.map (leaderReport state)) where
  nodup := by
    rw [map_map]
    exact h.nodup
  leader := by
    intro r hr r' hr' hself hself'
    obtain ⟨n, hn, rfl⟩ := mem_map.mp hr
    obtain ⟨n', hn', rfl⟩ := mem_map.mp hr'
    rw [h.leader n hn n' hn' hself hself']

theorem exists_perm_leaderReport {q : List (Report α)} (hq : q.Perm (rs.map (leaderReport state))) :
    ∃ p : List NodeReport, p.Perm rs ∧ p.map (leaderReport state) = q := by
  have hcomp : Relation.Comp (fun q p => q = p.map (leaderReport state)) List.Perm q rs := by
    rw [eq_map_comp_perm]
    exact hq
  obtain ⟨p, hmap, hp⟩ := hcomp
  exact ⟨p, hp, hmap.symm⟩

theorem state_mergeReports (h : ReplicatedState state) (rs : List NodeReport) :
    state (mergeReports rs) = (fold (rs.map (leaderReport state))).value :=
  congrArg View.value (leaderView_mergeReports h rs)

/-- A replicated state is settled by the reports in every order exactly when they agree on it. -/
theorem state_settled_iff (h : ReplicatedState state) (hrs : NodeReports rs) :
    (∀ p : List NodeReport, p.Perm rs → state (mergeReports p) = state (mergeReports rs) ∧
      ∀ l ∈ rs, SelfLeads l → state (mergeReports p) = state l.2) ↔
      Agrees (rs.map (leaderReport state)) := by
  rw [← settled_iff (hrs.wellReported state)]
  constructor
  · intro hsettled q hq
    obtain ⟨p, hp, rfl⟩ := exists_perm_leaderReport hq
    obtain ⟨hsame, hleader⟩ := hsettled p hp
    rw [state_mergeReports h, state_mergeReports h] at hsame
    refine ⟨hsame, fun l hl hself => ?_⟩
    obtain ⟨n, hn, rfl⟩ := mem_map.mp hl
    rw [← state_mergeReports h]
    exact hleader n hn hself
  · intro hsettled p hp
    obtain ⟨hsame, hleader⟩ := hsettled _ (hp.map (leaderReport state))
    rw [state_mergeReports h, state_mergeReports h]
    exact ⟨hsame, fun l hl hself => hleader _ (mem_map_of_mem hl) hself⟩

theorem lead_mergeReports (rs : List NodeReport) :
    leadOf (mergeReports rs).raftStatus =
      (fold (rs.map (leaderReport ShardInfo.splitState))).lead :=
  congrArg View.lead (leaderView_mergeReports replicatedState_splitState rs)

theorem lead_known_iff (hrs : NodeReports rs) :
    (∀ p : List NodeReport, p.Perm rs →
      (leadOf (mergeReports p).raftStatus = 0 ↔ leadOf (mergeReports rs).raftStatus = 0)) ↔
      LeadKnown (rs.map (leaderReport ShardInfo.splitState)) := by
  rw [← lead_settled_iff (hrs.wellReported _)]
  constructor
  · intro hsettled q hq
    obtain ⟨p, hp, rfl⟩ := exists_perm_leaderReport hq
    have hsame := hsettled p hp
    rwa [lead_mergeReports, lead_mergeReports] at hsame
  · intro hsettled p hp
    rw [lead_mergeReports, lead_mergeReports]
    exact hsettled _ (hp.map _)

theorem mergeState_eq_some_iff (hrs : NodeReports rs)
    (hagrees : Agrees (rs.map (leaderReport ShardInfo.mergeState))) {st : MergeState} :
    (mergeReports rs).mergeState = some st ↔ ∃ r ∈ rs, r.2.mergeState = some st := by
  rw [state_mergeReports replicatedState_mergeState,
    value_eq_some_iff (hrs.wellReported _) hagrees (List.Perm.refl _)]
  constructor
  · rintro ⟨r, hr, hst⟩
    obtain ⟨n, hn, rfl⟩ := mem_map.mp hr
    exact ⟨n, hn, hst⟩
  · rintro ⟨r, hr, hst⟩
    exact ⟨_, mem_map_of_mem hr, hst⟩

/-- When something awaits the leader, one of the readiness predicates says whether one is known. -/
theorem ready_iff_lead (hrs : NodeReports rs)
    (hagrees : Agrees (rs.map (leaderReport ShardInfo.mergeState))) (h : AwaitsLead rs) :
    let ready s := ShardInfo.isReadyForSplitReads s || ShardInfo.canInitiateSplitCutover s ||
      ShardInfo.isReadyForMergeCutover s
    ready (mergeReports rs) = true ↔ leadOf (mergeReports rs).raftStatus ≠ 0 := by
  obtain ⟨hinit, hcases⟩ := h
  have hflags := mergedFlags_mergeReports rs
  have hnoinit : (mergeReports rs).initializing = false := by
    rw [← Bool.not_eq_true, hflags.initializing]
    rintro ⟨r, hr, hi⟩
    rw [hinit r hr] at hi
    cases hi
  dsimp only
  constructor
  · intro hready
    simp only [ShardInfo.isReadyForSplitReads, ShardInfo.canInitiateSplitCutover,
      ShardInfo.isReadyForMergeCutover, Bool.or_eq_true, Bool.and_eq_true, decide_eq_true_eq] at hready
    rcases hready with (hready | hready) | hready
    · exact hready.1.2
    · exact hready.1.2
    · exact hready.1.2
  · intro hlead
    rcases hcases with ⟨hsnap, hreplay⟩ | ⟨r, hr, st, hst, hcopy, hseq⟩
    · have hsnapshot := hflags.hasSnapshot.mpr hsnap
      rcases hreplay with hreq | hcut | hcaught
      · have hnoreq : (mergeReports rs).splitReplayRequired = false := by
          rw [← Bool.not_eq_true, hflags.replayRequired]
          rintro ⟨r, hr, hq⟩
          rw [hreq r hr] at hq
          cases hq
        simp [ShardInfo.isReadyForSplitReads, hsnapshot, hnoinit, hlead, hnoreq]
      · have hcutover := hflags.cutoverReady.mpr hcut
        simp [ShardInfo.isReadyForSplitReads, hsnapshot, hnoinit, hlead, hcutover]
      · have hcaught' := hflags.caughtUp.mpr hcaught
        simp [ShardInfo.canInitiateSplitCutover, hsnapshot, hnoinit, hlead, hcaught']
    · have hstate := (mergeState_eq_some_iff hrs hagrees).mpr ⟨r, hr, hst⟩
      simp [ShardInfo.isReadyForMergeCutover, hnoinit, hlead, hstate, hcopy, hseq]

theorem not_ready (hrs : NodeReports rs)
    (hagrees : Agrees (rs.map (leaderReport ShardInfo.mergeState))) (h : ¬ AwaitsLead rs) :
    (mergeReports rs).isReadyForSplitReads = false ∧
      (mergeReports rs).canInitiateSplitCutover = false ∧
      (mergeReports rs).isReadyForMergeCutover = false := by
  have hflags := mergedFlags_mergeReports rs
  have hinit : (mergeReports rs).initializing = false → ∀ r ∈ rs, r.2.initializing = false := by
    intro hno r hr
    by_contra hyes
    have hsome := hflags.initializing.mpr ⟨r, hr, by simpa using hyes⟩
    rw [hno] at hsome
    cases hsome
  have hreq : (mergeReports rs).splitReplayRequired = false →
      ∀ r ∈ rs, r.2.splitReplayRequired = false := by
    intro hno r hr
    by_contra hyes
    have hsome := hflags.replayRequired.mpr ⟨r, hr, by simpa using hyes⟩
    rw [hno] at hsome
    cases hsome
  refine ⟨?_, ?_, ?_⟩
  · by_contra hready
    simp only [ShardInfo.isReadyForSplitReads, Bool.not_eq_false, Bool.and_eq_true,
      Bool.not_eq_true', Bool.or_eq_true] at hready
    obtain ⟨⟨⟨hsnap, hno⟩, -⟩, hreplay⟩ := hready
    refine h ⟨hinit hno, .inl ⟨hflags.hasSnapshot.mp hsnap, ?_⟩⟩
    exact hreplay.imp hreq fun hcut => .inl (hflags.cutoverReady.mp hcut)
  · by_contra hready
    simp only [ShardInfo.canInitiateSplitCutover, Bool.not_eq_false, Bool.and_eq_true,
      Bool.not_eq_true', Bool.or_eq_true] at hready
    obtain ⟨⟨⟨hsnap, hno⟩, -⟩, hreplay⟩ := hready
    refine h ⟨hinit hno, .inl ⟨hflags.hasSnapshot.mp hsnap, ?_⟩⟩
    exact hreplay.imp hreq fun hcaught => .inr (hflags.caughtUp.mp hcaught)
  · by_contra hready
    simp only [ShardInfo.isReadyForMergeCutover, Bool.not_eq_false, Bool.and_eq_true,
      Bool.not_eq_true', Option.any_eq_true, decide_eq_true_eq] at hready
    obtain ⟨⟨hno, -⟩, st, hst, hcopy, hseq⟩ := hready
    obtain ⟨r, hr, hrst⟩ := (mergeState_eq_some_iff hrs hagrees).mp hst
    exact h ⟨hinit hno, .inr ⟨r, hr, st, hrst, hcopy, hseq⟩⟩

theorem awaitsLead_perm (hp : p.Perm rs) : AwaitsLead p ↔ AwaitsLead rs := by
  simp only [AwaitsLead, hp.mem_iff]

theorem NodeReports.perm (h : NodeReports rs) (hp : p.Perm rs) : NodeReports p where
  nodup := (hp.map Prod.fst).nodup_iff.mpr h.nodup
  leader := fun r hr r' hr' => h.leader r (hp.subset hr) r' (hp.subset hr')

theorem agrees_perm (hrs : NodeReports rs) (h : ReplicatedState state) (hp : p.Perm rs)
    (hagrees : Agrees (rs.map (leaderReport state))) : Agrees (p.map (leaderReport state)) := by
  rw [← state_settled_iff h hrs] at hagrees
  rw [← state_settled_iff h (hrs.perm hp)]
  intro q hq
  obtain ⟨hsame, hleader⟩ := hagrees q (hq.trans hp)
  refine ⟨hsame.trans (hagrees p hp).1.symm, fun l hl hself => hleader l (hp.subset hl) hself⟩

end Reports

/-- Folding the heartbeat reports of a shard is independent of their order, and faithful to the
leader, exactly when the reports agree. -/
theorem merge_order_independent_iff {rs : List NodeReport} (hrs : NodeReports rs) :
    OrderIndependent rs ↔ ReportsAgree rs := by
  constructor
  · intro hind
    have hsplit : Agrees (rs.map (leaderReport ShardInfo.splitState)) :=
      (state_settled_iff replicatedState_splitState hrs).mp fun p hp =>
        ⟨congrArg ShardInfo.Observed.splitState (hind p hp).1,
          fun l hl hself => ((hind p hp).2 l hl hself).1⟩
    have hmerge : Agrees (rs.map (leaderReport ShardInfo.mergeState)) :=
      (state_settled_iff replicatedState_mergeState hrs).mp fun p hp =>
        ⟨congrArg ShardInfo.Observed.mergeState (hind p hp).1,
          fun l hl hself => ((hind p hp).2 l hl hself).2⟩
    refine ⟨hsplit, hmerge, fun hawaits => (lead_known_iff hrs).mp fun p hp => ?_⟩
    have hobs := (hind p hp).1
    have hreads := congrArg ShardInfo.Observed.readyForSplitReads hobs
    have hcutover := congrArg ShardInfo.Observed.canInitiateSplitCutover hobs
    have hcopy := congrArg ShardInfo.Observed.readyForMergeCutover hobs
    simp only [ShardInfo.observe] at hreads hcutover hcopy
    have hready := ready_iff_lead hrs hmerge hawaits
    have hready' := ready_iff_lead (hrs.perm hp)
      (agrees_perm hrs replicatedState_mergeState hp hmerge) ((awaitsLead_perm hp).mpr hawaits)
    dsimp only at hready hready'
    rw [hreads, hcutover, hcopy, hready] at hready'
    exact not_iff_not.mp hready'.symm
  · intro hagree p hp
    obtain ⟨hsplit, hsplitLeader⟩ :=
      (state_settled_iff replicatedState_splitState hrs).mpr hagree.split p hp
    obtain ⟨hmerge, hmergeLeader⟩ :=
      (state_settled_iff replicatedState_mergeState hrs).mpr hagree.merge p hp
    refine ⟨?_, fun l hl hself => ⟨hsplitLeader l hl hself, hmergeLeader l hl hself⟩⟩
    obtain ⟨hreported, hpeers, hsnap, hinit, hreq, hcaught, hcut⟩ := mergedFlags_perm hp
    have hready : (mergeReports p).isReadyForSplitReads = (mergeReports rs).isReadyForSplitReads ∧
        (mergeReports p).canInitiateSplitCutover = (mergeReports rs).canInitiateSplitCutover ∧
        (mergeReports p).isReadyForMergeCutover = (mergeReports rs).isReadyForMergeCutover := by
      by_cases hawaits : AwaitsLead rs
      · have hlead := (lead_known_iff hrs).mpr (hagree.lead hawaits) p hp
        have hdecide : decide (leadOf (mergeReports p).raftStatus ≠ 0) =
            decide (leadOf (mergeReports rs).raftStatus ≠ 0) := by
          rw [decide_eq_decide]
          exact not_congr hlead
        simp only [ShardInfo.isReadyForSplitReads, ShardInfo.canInitiateSplitCutover,
          ShardInfo.isReadyForMergeCutover, hsnap, hinit, hreq, hcaught, hcut, hmerge, hdecide,
          and_self]
      · obtain ⟨h1, h2, h3⟩ := not_ready hrs hagree.merge hawaits
        obtain ⟨h1', h2', h3'⟩ := not_ready (hrs.perm hp)
          (agrees_perm hrs replicatedState_mergeState hp hagree.merge)
          (fun h => hawaits ((awaitsLead_perm hp).mp h))
        rw [h1, h2, h3, h1', h2', h3']
        exact ⟨rfl, rfl, rfl⟩
    simp only [ShardInfo.observe, hreported, hpeers, hready, hsplit, hmerge]

def sampleReport (node : ℕ) (splitState : Option SplitState) : NodeReport :=
  (node, { ShardInfo.new with raftStatus := some ⟨1, {1, 2}⟩, splitState })

def sampleSplit : SplitState := ⟨.prepare, ascii ['m'], 7, 0, []⟩

theorem sampleReports_nodeReports (st st' : Option SplitState) :
    NodeReports [sampleReport 1 st, sampleReport 2 st'] where
  nodup := by simp [sampleReport]
  leader := by
    have hnot : ¬ SelfLeads (sampleReport 2 st') := by
      rintro ⟨-, h⟩
      exact absurd h (by simp [sampleReport, leadOf])
    intro r hr r' hr' hself hself'
    simp only [mem_cons, not_mem_nil, or_false] at hr hr'
    rcases hr with rfl | rfl
    · rcases hr' with rfl | rfl
      · rfl
      · exact absurd hself' hnot
    · exact absurd hself hnot

/-- The leader has cleared its split state and a lagging follower still reports it: folded last,
the follower's report brings the state back. -/
theorem stale_follower_overrides_leader :
    NodeReports [sampleReport 1 none, sampleReport 2 (some sampleSplit)] ∧
      (mergeReports [sampleReport 2 (some sampleSplit), sampleReport 1 none]).splitState = none ∧
      (mergeReports [sampleReport 1 none, sampleReport 2 (some sampleSplit)]).splitState =
        some sampleSplit ∧
      ¬ OrderIndependent [sampleReport 1 none, sampleReport 2 (some sampleSplit)] := by
  have hstale : (mergeReports [sampleReport 1 none, sampleReport 2 (some sampleSplit)]).splitState =
      some sampleSplit := by decide
  refine ⟨sampleReports_nodeReports none (some sampleSplit), by decide, hstale, fun h => ?_⟩
  have hleader := ((h _ (List.Perm.refl _)).2 (sampleReport 1 none) (by simp) ⟨by decide, rfl⟩).1
  rw [hstale] at hleader
  cases hleader

/-- A follower that has not yet applied the split does no harm. -/
theorem merge_order_independent_sample :
    (OrderIndependent [sampleReport 1 (some sampleSplit), sampleReport 2 none] ↔
      ReportsAgree [sampleReport 1 (some sampleSplit), sampleReport 2 none]) ∧
    ReportsAgree [sampleReport 1 (some sampleSplit), sampleReport 2 none] := by
  refine ⟨merge_order_independent_iff (sampleReports_nodeReports _ _), ?_, ?_, fun _ => ?_⟩
  · exact ⟨by decide, by decide, by decide⟩
  · exact ⟨by decide, by decide, by decide⟩
  · exact Or.inl ⟨_, List.mem_cons_self, by decide⟩

end Antfly
