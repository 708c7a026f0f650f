import Antfly.Cluster.TableManager

/-!
The metadata service keeps a status of each shard.  After a heartbeat `needsUpdates` makes the next
status from the stored one and the merged report, and decides whether it is persisted.  The
configuration of the shard, its range included, stays that of the metadata.

The statistics of a shard are encoded; what is read of them is a parameter.
-/

namespace Antfly

structure DBStorageStats where
  diskSize : ℕ
  empty : Bool
  deriving DecidableEq

/-- The statistics of one index, as far as they are compared. -/
structure IndexReport where
  error : Bytes
  totalIndexed : ℕ
  totalNodes : ℕ
  totalTerms : ℕ
  diskUsage : ℕ
  rebuilding : Bool
  walBacklog : ℕ
  backfillProgress : UInt64
  backfillItemsProcessed : ℕ
  deriving DecidableEq

/-- What is read of the statistics of a shard and written to them; `none` is the zero time. -/
structure StatsCodec where
  updated : DBStats → Option Int
  setUpdated : DBStats → Option Int → DBStats
  storage : DBStats → Option DBStorageStats
  indexes : DBStats → List (Bytes × IndexReport)

def diffExceedsPercent (new old pct : ℕ) : Bool :=
  if old = 0 then 0 < new
  else old * pct < (if new < old then old - new else new - old) * 100

def fullTextIndexPrefix : Bytes :=
  ascii ['f', 'u', 'l', 'l', '_', 't', 'e', 'x', 't', '_', 'i', 'n', 'd', 'e', 'x']

/-- `Equal`, for the statistics of a full-text index or of one with embeddings. -/
def IndexReport.equal (name : Bytes) (s t : IndexReport) : Bool :=
  if hasPrefix name fullTextIndexPrefix then
    s.rebuilding = t.rebuilding && s.diskUsage = t.diskUsage && s.error = t.error &&
      s.totalIndexed = t.totalIndexed && s.backfillProgress = t.backfillProgress &&
      s.backfillItemsProcessed = t.backfillItemsProcessed
  else s = t

/-- A change of the statistics of an index that is persisted at once. -/
def IndexReport.exceeds (name : Bytes) (new old : IndexReport) : Bool :=
  !new.equal name old &&
    if hasPrefix name fullTextIndexPrefix then
      new.rebuilding ≠ old.rebuilding || new.error ≠ old.error ||
        diffExceedsPercent new.totalIndexed old.totalIndexed 10 ||
        diffExceedsPercent new.diskUsage old.diskUsage 10
    else
      new.error ≠ old.error || diffExceedsPercent new.totalIndexed old.totalIndexed 10 ||
        diffExceedsPercent new.totalNodes old.totalNodes 10

section Stats

variable (c : StatsCodec) (maxShardSizeBytes : ℕ)

/-- Nanoseconds. -/
def statsRefreshInterval : Int := 30000000000

def statsRefreshElapsed (old new : Option DBStats) : Bool :=
  match old.bind c.updated, new.bind c.updated with
  | some oldUpdated, some newUpdated => statsRefreshInterval < newUpdated - oldUpdated
  | _, _ => false

/-- What is compared of the storage statistics. -/
def storageNeedsPersist (old : Option DBStats) (new : DBStats) : Bool :=
  match old.bind c.storage, c.storage new with
  | none, _ => true
  | some _, none => false
  | some oldStorage, some newStorage =>
    newStorage.empty ≠ oldStorage.empty || 3 * oldStorage.diskSize < newStorage.diskSize

/-- The shard is large enough to be split. -/
def aboveSplitThreshold (new : DBStats) : Bool :=
  0 < maxShardSizeBytes && (c.storage new).any fun storage => maxShardSizeBytes ≤ storage.diskSize

/-- What is compared of the statistics of the indexes; a small change is persisted when the stored
statistics are old. -/
def indexesNeedPersist (old : Option DBStats) (new : DBStats) : Bool :=
  match old with
  | none => true
  | some oldStats =>
    if (c.indexes new).length ≠ (c.indexes oldStats).length then true
    else
      ((c.indexes new).any fun p =>
        match (c.indexes oldStats).lookup p.1 with
        | none => true
        | some oldIndex => p.2.exceeds p.1 oldIndex) ||
      ((c.indexes new).any fun p =>
        match (c.indexes oldStats).lookup p.1 with
        | none => false
        | some oldIndex => !p.2.equal p.1 oldIndex) && statsRefreshElapsed c old (some new)

def statsNeedPersist (old new : Option DBStats) : Bool :=
  match new with
  | none => false
  | some newStats =>
    storageNeedsPersist c old newStats || aboveSplitThreshold c maxShardSizeBytes newStats ||
      statsRefreshElapsed c old new || indexesNeedPersist c old newStats

end Stats

/-- The state reported, with what it lacks filled in from the stored state of the same phase. -/
def SplitState.fill (old new : SplitState) : SplitState :=
  if old.phase = new.phase then
    { new with
      newShardID := if new.newShardID = 0 then old.newShardID else new.newShardID
      splitKey := if new.splitKey = [] then old.splitKey else new.splitKey
      startedAtUnixNanos :=
        if new.startedAtUnixNanos = 0 then old.startedAtUnixNanos else new.startedAtUnixNanos
      originalRangeEnd :=
        if new.originalRangeEnd = [] then old.originalRangeEnd else new.originalRangeEnd }
  else new

def MergeState.fill (old new : MergeState) : MergeState :=
  if old.phase = new.phase then
    { new with
      donorShardID := if new.donorShardID = 0 then old.donorShardID else new.donorShardID
      receiverShardID :=
        if new.receiverShardID = 0 then old.receiverShardID else new.receiverShardID
      donorRangeStart :=
        if new.donorRangeStart = [] then old.donorRangeStart else new.donorRangeStart
      donorRangeEnd := if new.donorRangeEnd = [] then old.donorRangeEnd else new.donorRangeEnd
      receiverRangeStart :=
        if new.receiverRangeStart = [] then old.receiverRangeStart else new.receiverRangeStart
      receiverRangeEnd :=
        if new.receiverRangeEnd = [] then old.receiverRangeEnd else new.receiverRangeEnd
      startedAtUnixNanos :=
        if new.startedAtUnixNanos = 0 then old.startedAtUnixNanos else new.startedAtUnixNanos
      replaySeq := if new.replaySeq = 0 then old.replaySeq else new.replaySeq
      finalSeq := if new.finalSeq = 0 then old.finalSeq else new.finalSeq
      copyCompleted := new.copyCompleted || old.copyCompleted
      captureDeltas := new.captureDeltas || old.captureDeltas
      acceptDonorRange := new.acceptDonorRange || old.acceptDonorRange
      denyDonorWrites := new.denyDonorWrites || old.denyDonorWrites }
  else new

/-- `mergeSplitStates` and `mergeMergeStates`: the merged state, and whether it is another than the
stored one. -/
def mergeStates {α : Type} [DecidableEq α] (fill : α → α → α) :
    Option α → Option α → Option α × Bool
  | none, none => (none, false)
  | some old, none => (some old, false)
  | none, some new => (some new, true)
  | some old, some new => (some (fill old new), old ≠ fill old new)

/-- The leader has dropped the state, or what it reports is merged. -/
def clearOrMerge {α : Type} [DecidableEq α] (fill : α → α → α) (cleared : Bool)
    (old new : Option α) : Option α × Bool :=
  if cleared then (none, true) else mergeStates fill old new

def splitPhaseActive (state : Option SplitState) : Bool := state.any fun st => st.phase ≠ .none

def mergePhaseActive (state : Option MergeState) : Bool := state.any fun st => st.phase ≠ .none

def splitOffShardStatusIsReady (status : ShardStatus) : Bool :=
  match status.state with
  | .splittingOff | .splitOffPreSnap | .default => status.isReadyForSplitReads
  | _ => false

def TableManager.splitOffShardIsReady (tm : TableManager) (parent : ShardStatus) : Bool :=
  let splitKey := parent.byteRange.stop
  if splitKey = [] then true
  else
    match parent.splitState.filter fun st => st.newShardID ≠ 0 with
    | some st =>
      match tm.shardStatuses.get? st.newShardID with
      | none => false
      | some child => child.table = parent.table && child.byteRange.start = splitKey &&
          splitOffShardStatusIsReady child
    | none =>
      let candidates := tm.shardStatuses.entries.filter fun p =>
        p.2.table = parent.table && p.1 ≠ parent.id && p.2.byteRange.start = splitKey
      candidates.isEmpty || candidates.any fun p => splitOffShardStatusIsReady p.2

section NeedsUpdates

variable (c : StatsCodec) (maxShardSizeBytes : ℕ) (now : Int) (tm : TableManager)
variable (old : ShardStatus) (info : ShardInfo)

def leaderClearedSplitState : Bool :=
  splitPhaseActive old.splitState && info.splitState.isNone && leadOf info.raftStatus ≠ 0

def leaderClearedMergeState : Bool :=
  mergePhaseActive old.mergeState && old.state ≠ .preMerge && info.mergeState.isNone &&
    leadOf info.raftStatus ≠ 0

/-- The split state before the state of the shard is looked at, and whether it changed. -/
def nextSplitState : Option SplitState × Bool :=
  clearOrMerge SplitState.fill (leaderClearedSplitState old info) old.splitState info.splitState

def nextMergeState : Option MergeState × Bool :=
  clearOrMerge MergeState.fill (leaderClearedMergeState old info) old.mergeState info.mergeState

/-- A field that is compared and carried over differs. -/
def fieldsDiffer : Bool :=
  old.peers ≠ info.peers || old.reportedBy ≠ info.reportedBy ||
    old.initializing ≠ info.initializing || old.splitting ≠ info.splitting ||
    old.splitReplayRequired ≠ info.splitReplayRequired ||
    old.splitReplayCaughtUp ≠ info.splitReplayCaughtUp ||
    old.splitCutoverReady ≠ info.splitCutoverReady || old.splitReplaySeq ≠ info.splitReplaySeq ||
    old.splitParentShardID ≠ info.splitParentShardID || old.mergeDeltaSeq ≠ info.mergeDeltaSeq ||
    old.mergeDeltaFinalSeq ≠ info.mergeDeltaFinalSeq

/-- What is decided before the state of the shard is looked at. -/
def reportNeedsPersist : Bool :=
  fieldsDiffer old info || (nextSplitState old info).2 || (nextMergeState old info).2 ||
    (info.raftStatus.isSome && old.raftStatus ≠ info.raftStatus) ||
    statsNeedPersist c maxShardSizeBytes old.shardStats info.shardStats ||
    info.hasSnapshot ≠ old.hasSnapshot

/-- The statistics, with the time of the report or else the current one when they are persisted. -/
def nextShardStats : Option DBStats :=
  let shardStats := info.shardStats.or old.shardStats
  if reportNeedsPersist c maxShardSizeBytes old info then
    shardStats.map fun stats =>
      c.setUpdated stats (some (((info.shardStats.bind c.updated)).getD now))
  else shardStats

/-- The next state of the shard, and whether the step asks to be persisted. -/
def nextState : ShardState × Bool :=
  match old.state with
  | .initializing => if info.initializing then (.initializing, false) else (.default, true)
  | .preMerge => (.preMerge, false)
  | .preSplit =>
    if info.byteRange = old.byteRange then
      if info.splitting || splitPhaseActive info.splitState then (.splitting, true)
      else if tm.splitOffShardIsReady old then (.default, true)
      else (.preSplit, false)
    else (.preSplit, false)
  | .splitting =>
    if !info.splitting && tm.splitOffShardIsReady old then (.default, true)
    else (.splitting, false)
  | .splittingOff => if info.initializing then (.splittingOff, false) else (.splitOffPreSnap, true)
  | .splitOffPreSnap =>
    -- This step alone does not ask to be persisted.
    if info.isReadyForSplitReads then (.default, false) else (.splitOffPreSnap, false)
  | .default => (.default, false)

/-- A shard in its default state, with an active split state that neither the report has nor the
shard splits. -/
def splitStateOver (status : ShardStatus) : Bool :=
  status.state = .default && splitPhaseActive status.splitState && info.splitState.isNone &&
    !info.splitting

/-- A split-off shard in its default state that is ready but still has the split state. -/
def splitOffDone (status : ShardStatus) : Bool :=
  status.state = .default && splitPhaseActive status.splitState && status.splitReplayRequired &&
    status.splitCutoverReady && status.splitParentShardID ≠ 0

/-- Everything but the last look at the split state.  `Splitting` is not carried over from the
stored status. -/
def nextStatus : ShardStatus where
  id := old.id
  table := old.table
  state := (nextState tm old info).1
  byteRange := old.byteRange
  schema := old.schema
  indexes := old.indexes
  restoreConfig := if info.hasSnapshot then [] else old.restoreConfig
  shardStats := nextShardStats c maxShardSizeBytes now old info
  peers := if old.peers ≠ info.peers then info.peers else old.peers
  raftStatus := info.raftStatus.or old.raftStatus
  reportedBy := if old.reportedBy ≠ info.reportedBy then info.reportedBy else old.reportedBy
  hasSnapshot := if info.hasSnapshot ≠ old.hasSnapshot then info.hasSnapshot else old.hasSnapshot
  initializing :=
    if old.initializing ≠ info.initializing then info.initializing else old.initializing
  splitting := if old.splitting ≠ info.splitting then info.splitting else false
  splitState := (nextSplitState old info).1
  mergeState := (nextMergeState old info).1
  splitReplayRequired :=
    if old.splitReplayRequired ≠ info.splitReplayRequired then info.splitReplayRequired
    else old.splitReplayRequired
  splitReplayCaughtUp :=
    if old.splitReplayCaughtUp ≠ info.splitReplayCaughtUp then info.splitReplayCaughtUp
    else old.splitReplayCaughtUp
  splitCutoverReady :=
    if old.splitCutoverReady ≠ info.splitCutoverReady then info.splitCutoverReady
    else old.splitCutoverReady
  splitReplaySeq :=
    if old.splitReplaySeq ≠ info.splitReplaySeq then info.splitReplaySeq else old.splitReplaySeq
  splitParentShardID :=
    if old.splitParentShardID ≠ info.splitParentShardID then info.splitParentShardID
    else old.splitParentShardID
  mergeDeltaSeq :=
    if old.mergeDeltaSeq ≠ info.mergeDeltaSeq then info.mergeDeltaSeq else old.mergeDeltaSeq
  mergeDeltaFinalSeq :=
    if old.mergeDeltaFinalSeq ≠ info.mergeDeltaFinalSeq then info.mergeDeltaFinalSeq
    else old.mergeDeltaFinalSeq

/-- The next status of a shard, and whether it is persisted; a report without peers is ignored. -/
def needsUpdates : Option ShardStatus × Bool :=
  if info.peers = ∅ then (none, false)
  else
    let status := nextStatus c maxShardSizeBytes now tm old info
    let ended := splitStateOver info status || splitOffDone status
    (some { status with splitState := if ended then none else status.splitState },
      reportNeedsPersist c maxShardSizeBytes old info || (nextState tm old info).2 || ended)

end NeedsUpdates

/-- The fields that are taken over from every report. -/
structure ReportedFields where
  peers : PeerSet
  reportedBy : PeerSet
  hasSnapshot : Bool
  initializing : Bool
  splitReplayRequired : Bool
  splitReplayCaughtUp : Bool
  splitCutoverReady : Bool
  splitReplaySeq : ℕ
  splitParentShardID : ℕ
  mergeDeltaSeq : ℕ
  mergeDeltaFinalSeq : ℕ
  deriving DecidableEq

def ShardInfo.reportedFields (s : ShardInfo) : ReportedFields :=
  ⟨s.peers, s.reportedBy, s.hasSnapshot, s.initializing, s.splitReplayRequired,
    s.splitReplayCaughtUp, s.splitCutoverReady, s.splitReplaySeq, s.splitParentShardID,
    s.mergeDeltaSeq, s.mergeDeltaFinalSeq⟩

/-- The merged state is the one reported, but for what it lacks and the stored state of the same
phase has. -/
structure SplitState.Agrees (reported merged : SplitState) : Prop where
  phase : merged.phase = reported.phase
  splitKey : reported.splitKey ≠ [] → merged.splitKey = reported.splitKey
  newShardID : reported.newShardID ≠ 0 → merged.newShardID = reported.newShardID
  startedAtUnixNanos : reported.startedAtUnixNanos ≠ 0 →
    merged.startedAtUnixNanos = reported.startedAtUnixNanos
  originalRangeEnd : reported.originalRangeEnd ≠ [] →
    merged.originalRangeEnd = reported.originalRangeEnd

structure MergeState.Agrees (reported merged : MergeState) : Prop where
  phase : merged.phase = reported.phase
  donorShardID : reported.donorShardID ≠ 0 → merged.donorShardID = reported.donorShardID
  receiverShardID : reported.receiverShardID ≠ 0 →
    merged.receiverShardID = reported.receiverShardID
  donorRangeStart : reported.donorRangeStart ≠ [] →
    merged.donorRangeStart = reported.donorRangeStart
  donorRangeEnd : reported.donorRangeEnd ≠ [] → merged.donorRangeEnd = reported.donorRangeEnd
  receiverRangeStart : reported.receiverRangeStart ≠ [] →
    merged.receiverRangeStart = reported.receiverRangeStart
  receiverRangeEnd : reported.receiverRangeEnd ≠ [] →
    merged.receiverRangeEnd = reported.receiverRangeEnd
  startedAtUnixNanos : reported.startedAtUnixNanos ≠ 0 →
    merged.startedAtUnixNanos = reported.startedAtUnixNanos
  replaySeq : reported.replaySeq ≠ 0 → merged.replaySeq = reported.replaySeq
  finalSeq : reported.finalSeq ≠ 0 → merged.finalSeq = reported.finalSeq
  copyCompleted : reported.copyCompleted = true → merged.copyCompleted = true
  captureDeltas : reported.captureDeltas = true → merged.captureDeltas = true
  acceptDonorRange : reported.acceptDonorRange = true → merged.acceptDonorRange = true
  denyDonorWrites : reported.denyDonorWrites = true → merged.denyDonorWrites = true

/-- The report repeats the stored status. -/
structure Repeats (old : ShardStatus) (info : ShardInfo) : Prop where
  fields : info.reportedFields = old.reportedFields
  splitting : info.splitting = old.splitting
  splitState : info.splitState = old.splitState
  mergeState : info.mergeState = old.mergeState
  raftStatus : info.raftStatus = none ∨ info.raftStatus = old.raftStatus

def splitOffReady (status : ShardStatus) : Bool :=
  status.splitReplayRequired && status.splitCutoverReady && decide (status.splitParentShardID ≠ 0)

/-- What the next status has of the report, and when it is persisted. -/
structure StatusCarried (c : StatsCodec) (maxShardSizeBytes : ℕ) (tm : TableManager)
    (old : ShardStatus) (info : ShardInfo) (status : ShardStatus) (persist : Bool) : Prop where
  fields : status.reportedFields = info.reportedFields
  fields_persist : info.reportedFields ≠ old.reportedFields → persist = true
  splitting : info.splitting ≠ old.splitting →
    status.splitting = info.splitting ∧ persist = true
  raftStatus : ∀ rs, info.raftStatus = some rs →
    status.raftStatus = some rs ∧ (old.raftStatus ≠ some rs → persist = true)
  splitState : ∀ st, info.splitState = some st → ∃ merged, st.Agrees merged ∧
    status.splitState =
      if st.phase ≠ .none ∧ status.state = .default ∧ splitOffReady status = true then none
      else some merged
  splitState_none : info.splitState = none → status.splitState =
    if splitPhaseActive old.splitState = true ∧ (leadOf info.raftStatus ≠ 0 ∨
        status.state = .default ∧ (info.splitting = false ∨ splitOffReady status = true)) then none
    else old.splitState
  splitState_persist : status.splitState ≠ old.splitState → persist = true
  mergeState : ∀ st, info.mergeState = some st →
    ∃ merged, status.mergeState = some merged ∧ st.Agrees merged
  mergeState_none : info.mergeState = none → status.mergeState =
    if mergePhaseActive old.mergeState = true ∧ old.state ≠ .preMerge ∧
        leadOf info.raftStatus ≠ 0 then none
    else old.mergeState
  mergeState_persist : status.mergeState ≠ old.mergeState → persist = true
  state : status.state = (nextState tm old info).1
  state_persist : old.state ≠ .splitOffPreSnap → status.state ≠ old.state → persist = true
  byteRange : status.byteRange = old.byteRange
  quiet : Repeats old info → status.state = old.state → splitOffDone old = false →
    statsNeedPersist c maxShardSizeBytes old.shardStats info.shardStats = false → persist = false

theorem SplitState.fill_agrees (old new : SplitState) : new.Agrees (old.fill new) := by
  unfold SplitState.fill
  split
  · constructor
    · rfl
    iterate 4 exact fun h => if_neg h
  · exact ⟨rfl, fun _ => rfl, fun _ => rfl, fun _ => rfl, fun _ => rfl⟩

theorem SplitState.fill_self (st : SplitState) : st.fill st = st := by
  simp [SplitState.fill]

theorem MergeState.fill_agrees (old new : MergeState) : new.Agrees (old.fill new) := by
  unfold MergeState.fill
  split
  · constructor
    · rfl
    iterate 9 exact fun h => if_neg h
    iterate 4 exact fun h => Bool.or_eq_true_iff.mpr (.inl h)
  · constructor
    · rfl
    iterate 13 exact fun h => by first | rfl | exact h

theorem MergeState.fill_self (st : MergeState) : st.fill st = st := by
  unfold MergeState.fill
  rw [if_pos rfl]
  simp only [ite_self, Bool.or_self]

section MergeStates

variable {α : Type} [DecidableEq α] {fill : α → α → α} {cleared : Bool} {old new : Option α}

theorem clearOrMerge_some {st : α} (hcleared : cleared = false) (h : new = some st) :
    (clearOrMerge fill cleared old new).1 = some (old.elim st fun o => fill o st) := by
  subst h hcleared
  cases old with
  | none => rfl
  | some o => rfl

theorem clearOrMerge_none (h : new = none) :
    (clearOrMerge fill cleared old new).1 = if cleared then none else old := by
  subst h
  cases cleared with
  | true => rfl
  | false => cases old <;> rfl

theorem clearOrMerge_changed (h : (clearOrMerge fill cleared old new).1 ≠ old) :
    (clearOrMerge fill cleared old new).2 = true := by
  cases cleared with
  | true => rfl
  | false =>
    cases old with
    | none =>
      cases new with
      | none => exact absurd rfl h
      | some st => rfl
    | some o =>
      cases new with
      | none => exact absurd rfl h
      | some st =>
        apply decide_eq_true
        intro heq
        exact h (congrArg some heq.symm)

theorem clearOrMerge_repeated (hfill : ∀ st, fill st st = st) (hcleared : cleared = false) :
    clearOrMerge fill cleared old old = (old, false) := by
  subst hcleared
  cases old with
  | none => rfl
  | some o => simp [clearOrMerge, mergeStates, hfill]

end MergeStates

section NeedsUpdates

variable {c : StatsCodec} {maxShardSizeBytes : ℕ} {now : Int} {tm : TableManager}
variable {old : ShardStatus} {info : ShardInfo}

theorem SplitState.elim_agrees (old : Option SplitState) (st : SplitState) :
    st.Agrees (old.elim st fun o => o.fill st) := by
  have hsame := st.fill_agrees st
  rw [st.fill_self] at hsame
  cases old with
  | none => exact hsame
  | some o => exact o.fill_agrees st

theorem MergeState.elim_agrees (old : Option MergeState) (st : MergeState) :
    st.Agrees (old.elim st fun o => o.fill st) := by
  have hsame := st.fill_agrees st
  rw [st.fill_self] at hsame
  cases old with
  | none => exact hsame
  | some o => exact o.fill_agrees st

theorem carried_eq {α : Type} [DecidableEq α] (stored reported : α) :
    (if stored ≠ reported then reported else stored) = reported := by
  split
  · rfl
  · rename_i hsame
    exact not_not.mp hsame

theorem reportedFields_nextStatus :
    (nextStatus c maxShardSizeBytes now tm old info).reportedFields = info.reportedFields := by
  have hsnapshot : (if info.hasSnapshot ≠ old.hasSnapshot then info.hasSnapshot
      else old.hasSnapshot) = info.hasSnapshot := by
    simpa only [ne_comm] using carried_eq old.hasSnapshot info.hasSnapshot
  simp only [ShardInfo.reportedFields, nextStatus, carried_eq, hsnapshot]

theorem reportNeedsPersist_of_fields (h : info.reportedFields ≠ old.reportedFields) :
    reportNeedsPersist c maxShardSizeBytes old info = true := by
  by_contra hquiet
  apply h
  simp only [reportNeedsPersist, fieldsDiffer, Bool.or_eq_true, not_or, decide_eq_true_eq,
    ne_eq, not_not] at hquiet
  simp only [ShardInfo.reportedFields, hquiet]

theorem nextSplitState_repeated (h : info.splitState = old.splitState) :
    nextSplitState old info = (old.splitState, false) := by
  have hcleared : leaderClearedSplitState old info = false := by
    rw [leaderClearedSplitState, h]
    cases old.splitState <;> simp [splitPhaseActive]
  rw [nextSplitState, h]
  exact clearOrMerge_repeated SplitState.fill_self hcleared

theorem nextMergeState_repeated (h : info.mergeState = old.mergeState) :
    nextMergeState old info = (old.mergeState, false) := by
  have hcleared : leaderClearedMergeState old info = false := by
    rw [leaderClearedMergeState, h]
    cases old.mergeState <;> simp [mergePhaseActive]
  rw [nextMergeState, h]
  exact clearOrMerge_repeated MergeState.fill_self hcleared

theorem reportNeedsPersist_repeated (h : Repeats old info)
    (hstats : statsNeedPersist c maxShardSizeBytes old.shardStats info.shardStats = false) :
    reportNeedsPersist c maxShardSizeBytes old info = false := by
  have hraft : info.raftStatus.isSome = true → old.raftStatus = info.raftStatus := by
    intro hsome
    rcases h.raftStatus with hnone | hsame
    · rw [hnone] at hsome
      cases hsome
    · exact hsame.symm
  have hfields := h.fields
  simp only [ShardInfo.reportedFields, ReportedFields.mk.injEq] at hfields
  obtain ⟨hpeers, hreported, hsnapshot, hinitializing, hrequired, hcaught, hcutover, hseq, hparent,
    hdelta, hfinal⟩ := hfields
  have hdiffer : fieldsDiffer old info = false := by
    simp [fieldsDiffer, hpeers, hreported, hinitializing, h.splitting, hrequired, hcaught, hcutover,
      hseq, hparent, hdelta, hfinal]
  simp [reportNeedsPersist, hdiffer, nextSplitState_repeated h.splitState,
    nextMergeState_repeated h.mergeState, hstats, hsnapshot]
  exact hraft

/-- What every step of the state asks for, but for the step of a shard that was split off. -/
theorem nextState_persist (hstate : old.state ≠ .splitOffPreSnap)
    (hmoved : (nextState tm old info).1 ≠ old.state) : (nextState tm old info).2 = true := by
  unfold nextState at hmoved ⊢
  cases h : old.state with
  | splitOffPreSnap => exact absurd h hstate
  | initializing | preMerge | preSplit | splitting | splittingOff | default =>
    rw [h] at hmoved
    dsimp only at hmoved ⊢
    grind

theorem nextState_stays (hsame : (nextState tm old info).1 = old.state) :
    (nextState tm old info).2 = false := by
  unfold nextState at hsame ⊢
  cases h : old.state with
  | preMerge | default => rfl
  | initializing | preSplit | splitting | splittingOff | splitOffPreSnap =>
    rw [h] at hsame
    dsimp only at hsame ⊢
    grind

/-- What the last look at the split state leaves of it. -/
def lastSplitState (info : ShardInfo) (status : ShardStatus) : Option SplitState :=
  if splitStateOver info status || splitOffDone status then none else status.splitState

section LastLook

variable {status : ShardStatus}

theorem splitOffDone_eq : splitOffDone status =
    (decide (status.state = .default) && splitPhaseActive status.splitState &&
      splitOffReady status) := by
  simp only [splitOffDone, splitOffReady, Bool.and_assoc]

theorem lastSplitState_some (hsplit : status.splitState = (nextSplitState old info).1)
    {st : SplitState} (hst : info.splitState = some st) : ∃ merged, st.Agrees merged ∧
      lastSplitState info status =
        if st.phase ≠ .none ∧ status.state = .default ∧ splitOffReady status = true then none
        else some merged := by
  have hcleared : leaderClearedSplitState old info = false := by
    simp [leaderClearedSplitState, hst]
  have hagrees := SplitState.elim_agrees old.splitState st
  have hmerged : status.splitState = some (old.splitState.elim st fun o => o.fill st) :=
    hsplit.trans (clearOrMerge_some hcleared hst)
  refine ⟨_, hagrees, ?_⟩
  have hnot : splitStateOver info status = false := by
    simp [splitStateOver, hst]
  have hactive : splitPhaseActive status.splitState = decide (st.phase ≠ .none) := by
    rw [hmerged, ← hagrees.phase]
    rfl
  unfold lastSplitState
  rw [hnot, Bool.false_or, splitOffDone_eq, hactive, hmerged]
  congr 1
  simp only [Bool.and_eq_true, decide_eq_true_eq, eq_iff_iff]
  tauto

/-- When none is reported the stored split state stays, unless a leader has dropped it or it is
over. -/
theorem lastSplitState_none (hsplit : status.splitState = (nextSplitState old info).1)
    (hnone : info.splitState = none) : lastSplitState info status =
      if splitPhaseActive old.splitState = true ∧ (leadOf info.raftStatus ≠ 0 ∨
          status.state = .default ∧ (info.splitting = false ∨ splitOffReady status = true)) then none
      else old.splitState := by
  have hnext : status.splitState =
      if leaderClearedSplitState old info then none else old.splitState :=
    hsplit.trans (clearOrMerge_none hnone)
  unfold lastSplitState
  rw [splitOffDone_eq, splitStateOver, hnext, leaderClearedSplitState, hnone]
  by_cases hlead : leadOf info.raftStatus ≠ 0
  · cases hactive : splitPhaseActive old.splitState <;> simp [hlead, hactive]
  · cases hactive : splitPhaseActive old.splitState
    · simp [hlead, hactive]
    · cases info.splitting <;> by_cases hdefault : status.state = .default <;>
        simp [hlead, hactive, hdefault]

theorem needsUpdates_quiet (hsplit : status.splitState = (nextSplitState old info).1)
    (hstate : status.state = (nextState tm old info).1)
    (hfields : status.reportedFields = info.reportedFields) (hrepeats : Repeats old info)
    (hsame : status.state = old.state) (hdone : splitOffDone old = false)
    (hstats : statsNeedPersist c maxShardSizeBytes old.shardStats info.shardStats = false) :
    (reportNeedsPersist c maxShardSizeBytes old info || (nextState tm old info).2 ||
      (splitStateOver info status || splitOffDone status)) = false := by
  have hkept := nextSplitState_repeated hrepeats.splitState
  have hover : splitStateOver info status = false := by
    rw [splitStateOver, hsplit, hkept, ← hrepeats.splitState]
    cases info.splitState <;> simp [splitPhaseActive]
  have hdone' : splitOffDone status = false := by
    have hold := hfields.trans hrepeats.fields
    simp only [ShardInfo.reportedFields, ReportedFields.mk.injEq] at hold
    rw [splitOffDone, hsplit, hkept, hsame, hold.2.2.2.2.1, hold.2.2.2.2.2.2.1,
      hold.2.2.2.2.2.2.2.2.1]
    exact hdone
  have hmoved : (nextState tm old info).2 = false := nextState_stays (hstate ▸ hsame)
  rw [reportNeedsPersist_repeated hrepeats hstats, hover, hdone', hmoved]
  rfl

end LastLook

end NeedsUpdates

/-- Statistics of which nothing is read. -/
def silentStats : StatsCodec := ⟨fun _ => none, fun stats _ => stats, fun _ => none, fun _ => []⟩

/-- A shard that reports itself as ready. -/
def samplePeerReport : ShardInfo :=
  { ShardInfo.new with
    byteRange := ⟨[], [9]⟩
    shardStats := none
    peers := {1}
    reportedBy := {1}
    raftStatus := some ⟨1, {1}⟩ }

def sampleSplitting : ShardStatus :=
  { toShardInfo := { samplePeerReport with splitState := some ⟨.splitting, [5], 0, 3, [9]⟩ }
    id := 7
    table := [1]
    state := .splitting }

end Antfly
