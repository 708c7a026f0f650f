import Antfly.Cluster.TablePartition
import Antfly.Cluster.WriteRouting
import Antfly.Store.SplitRollback

/-!
The reconciler of the metadata service drives a split or a merge by proposing operations to the
shards that take part and by rewriting the table.  Every proposal and every rewrite is a step of
its own, since writes arrive in between.  What the reconciler plans by size, age and cooldown is
left open: a transition may be planned whenever its shards are at rest.

The shards report to the metadata service, and routing reads the statuses; they are taken to be
current.  A shard runs as the replica its leader holds.
-/

namespace Antfly

/-- What a shard reports besides its split and merge state. -/
structure ShardReport where
  raftStatus : RaftStatus
  hasSnapshot : Bool
  initializing : Bool
  splitting : Bool
  splitReplayRequired : Bool
  splitReplayCaughtUp : Bool
  splitCutoverReady : Bool
  deriving DecidableEq

/-- A running shard. -/
structure ShardNode where
  store : StoreDB
  report : ShardReport

/-- A table manager with the shards that run.  `pendingRanges` holds the `MergeRange` calls the
reconciler still has to make after it merged an empty shard in the table. -/
structure Cluster where
  tm : TableManager
  nodes : OrdMap ℕ ShardNode
  pendingRanges : OrdMap ℕ Range

def ShardState.transitioning : ShardState → Bool
  | .preMerge | .preSplit | .splittingOff | .initializing | .splitting => true
  | .default | .splitOffPreSnap => false

/-- The status after a heartbeat of the shard; the configuration stays that of the metadata. -/
def ShardStatus.reported (status : ShardStatus) (n : ShardNode) : ShardStatus :=
  { status with
    raftStatus := some n.report.raftStatus
    hasSnapshot := n.report.hasSnapshot
    initializing := n.report.initializing
    splitting := n.report.splitting
    splitReplayRequired := n.report.splitReplayRequired
    splitReplayCaughtUp := n.report.splitReplayCaughtUp
    splitCutoverReady := n.report.splitCutoverReady
    splitState := n.store.splitState
    mergeState := n.store.mergeState
    mergeDeltaSeq := n.store.coreDB.mergeDeltaSeq
    mergeDeltaFinalSeq := n.store.coreDB.mergeDeltaFinalSeq }

namespace Cluster

/-- The current statuses. -/
def statuses (s : Cluster) : OrdMap ℕ ShardStatus :=
  s.tm.shardStatuses.map fun id status => (s.nodes.get? id).elim status status.reported

def status? (s : Cluster) (id : ℕ) : Option ShardStatus := s.statuses.get? id

/-- A shard that the reconciler may plan a split or a merge for. -/
def atRest (s : Cluster) (id : ℕ) : Bool :=
  (s.status? id).any fun st =>
    decide (leadOf st.raftStatus ≠ 0) && !st.state.transitioning &&
      st.splitState.all (fun split => split.phase = .none) &&
      st.mergeState.all (fun merge => merge.phase = .none) &&
      !(st.splitReplayRequired && !st.splitCutoverReady) &&
      decide (st.state ≠ .splittingOff) && decide (st.state ≠ .splitOffPreSnap) &&
      (s.pendingRanges.get? id).isNone

/-- Two shards of the table, of which the second starts where the first ends. -/
def neighbours (s : Cluster) (t : MergeTransition) : Bool :=
  (s.status? t.shardID).any fun left => (s.status? t.mergeShardID).any fun right =>
    decide (left.table = t.tableName) && decide (right.table = t.tableName) &&
      decide (left.byteRange.stop = right.byteRange.start)

inductive SplitStep where
  /-- `PrepareSplit` at the median key that the shard finds. -/
  | prepare (found : Bytes) (now : Int)
  /-- The split of a shard whose table entry is split already is made again. -/
  | prepareAgain (now : Int)
  | enterSplitting (newShardID : ℕ)
  | split
  | finalize (childID : ℕ) (childReplayed : Bool)
  | rollBack
  | clear

def prepareSplitOp (n : ShardNode) (splitKey : Bytes) (now : Int) : Option RaftOp :=
  if n.store.byteRange.contains splitKey && n.store.splitState.all (·.phase = .none) then
    some (.setSplitState (some ⟨.prepare, splitKey, 0, now, n.store.byteRange.stop⟩))
  else none

/-- The operation that a step of a split proposes to the shard. -/
def splitOp (s : Cluster) (id : ℕ) (step : SplitStep) : Option RaftOp := do
  let n ← s.nodes.get? id
  let status ← s.status? id
  match step with
  | .prepare found now =>
    let splitKey ← findMedianKey n.store.coreDB.byteRange found
    if s.atRest id then prepareSplitOp n splitKey now else none
  | .prepareAgain now =>
    if status.state = .preSplit then prepareSplitOp n status.byteRange.stop now else none
  | .enterSplitting newShardID =>
    let st ← n.store.splitState
    if st.phase = .prepare then
      some (.setSplitState (some { st with phase := .splitting, newShardID }))
    else none
  | .split =>
    let st ← n.store.splitState
    if st.phase = .splitting then some (.split st.newShardID st.splitKey) else none
  | .finalize childID childReplayed =>
    let st ← n.store.splitState
    let child ← s.status? childID
    if (st.phase = .splitting ∨ st.phase = .finalizing) ∧
        (st.newShardID = childID ∨ st.newShardID = 0) ∧ child.canInitiateSplitCutover then
      some (.finalizeSplit st.splitKey childReplayed)
    else none
  | .rollBack =>
    let st ← n.store.splitState
    if st.phase = .none then none
    else some (.setSplitState (some { st with phase := .rollingBack }))
  | .clear =>
    let st ← n.store.splitState
    if st.phase = .rollingBack then some (.setSplitState none) else none

inductive MergeStep where
  | prepareDonor (now : Int)
  | prepareReceiver
  | copyDonor
  | copyReceiver
  | replay (seq : ℕ)
  | sealDonor
  | sealReceiver
  | finalizeReceiver
  | rollBackReceiver
  | clearDonor
  | clearReceiver

def donorState (t : MergeTransition) (donor receiver : Range) (now : Int) : MergeState where
  phase := .prepare
  donorShardID := t.mergeShardID
  receiverShardID := t.shardID
  donorRangeStart := donor.start
  donorRangeEnd := donor.stop
  receiverRangeStart := receiver.start
  receiverRangeEnd := receiver.stop
  startedAtUnixNanos := now
  replaySeq := 0
  finalSeq := 0
  copyCompleted := false
  captureDeltas := true
  acceptDonorRange := false
  denyDonorWrites := false

/-- The merge states of the receiver and the donor of a transition; each has to name the other. -/
def mergeStates (s : Cluster) (t : MergeTransition) : Option (MergeState × Option MergeState) := do
  let receiver ← s.nodes.get? t.shardID
  let donor ← s.nodes.get? t.mergeShardID
  let m ← receiver.store.mergeState
  if m.receiverShardID = t.shardID ∧ m.donorShardID = t.mergeShardID then
    some (m, donor.store.mergeState)
  else none

/-- The shard a step of a merge goes to, and the operation it proposes.  The reconciler changes
the state of the donor before that of the receiver, except in a rollback. -/
def mergeOp (s : Cluster) (t : MergeTransition) : MergeStep → Option (ℕ × RaftOp)
  | .prepareDonor now => do
      let receiver ← s.nodes.get? t.shardID
      let donor ← s.nodes.get? t.mergeShardID
      let status ← s.status? t.shardID
      if status.state = .preMerge ∧ s.neighbours t ∧ s.atRest t.mergeShardID ∧
          receiver.store.mergeState = none then
        some (t.mergeShardID, .setMergeState
          (some (donorState t donor.store.byteRange receiver.store.byteRange now)))
      else none
  | .prepareReceiver => do
      let receiver ← s.nodes.get? t.shardID
      let donor ← s.nodes.get? t.mergeShardID
      let status ← s.status? t.shardID
      let d ← donor.store.mergeState
      if status.state = .preMerge ∧ receiver.store.mergeState = none ∧ d.phase = .prepare ∧
          d.receiverShardID = t.shardID ∧ d.donorShardID = t.mergeShardID then
        some (t.shardID, .setMergeState
          (some { d with acceptDonorRange := true, captureDeltas := false }))
      else none
  | .copyDonor => do
      let (m, d) ← s.mergeStates t
      let d ← d
      if (m.phase = .prepare ∨ m.phase = .copying) ∧ m.copyCompleted = false then
        some (t.mergeShardID, .setMergeState (some { d with phase := .catchup }))
      else none
  | .copyReceiver => do
      let (m, d) ← s.mergeStates t
      let d ← d
      if (m.phase = .prepare ∨ m.phase = .copying) ∧ d.phase = .catchup then
        some (t.shardID, .setMergeState
          (some { m with phase := .catchup, copyCompleted := true }))
      else none
  | .replay seq => do
      let (m, _) ← s.mergeStates t
      if m.phase = .rollingBack then none
      else some (t.shardID, .setMergeState (some { m with replaySeq := seq }))
  | .sealDonor => do
      let (m, d) ← s.mergeStates t
      let d ← d
      let donor ← s.status? t.mergeShardID
      if m.phase = .catchup then
        some (t.mergeShardID, .setMergeState (some { d with
          phase := .finalizing, finalSeq := donor.mergeDeltaSeq, captureDeltas := false,
          denyDonorWrites := true }))
      else none
  | .sealReceiver => do
      let (m, d) ← s.mergeStates t
      let d ← d
      if m.phase = .catchup ∧ d.phase = .finalizing then
        some (t.shardID, .setMergeState
          (some { m with phase := .finalizing, finalSeq := d.finalSeq }))
      else none
  | .finalizeReceiver => do
      let (m, _) ← s.mergeStates t
      let receiver ← s.status? t.shardID
      if m.phase = .finalizing ∧ receiver.isReadyForMergeCutover then
        some (t.shardID, .finalizeMerge ⟨m.receiverRangeStart, m.donorRangeEnd⟩)
      else none
  | .rollBackReceiver => do
      let (m, _) ← s.mergeStates t
      some (t.shardID, .setMergeState (some { m with phase := .rollingBack }))
  | .clearDonor => do
      let (m, _) ← s.mergeStates t
      if m.phase = .rollingBack then some (t.mergeShardID, .setMergeState none) else none
  | .clearReceiver => do
      let (m, d) ← s.mergeStates t
      if m.phase = .rollingBack ∧ d = none then some (t.shardID, .setMergeState none) else none

/-- No merge state is left at either shard of a transition. -/
def mergeCleared (s : Cluster) (t : MergeTransition) : Bool :=
  (s.status? t.shardID).all (·.mergeState = none) &&
    (s.status? t.mergeShardID).all (·.mergeState = none)

/-- When the reconciler rewrites the table: after the split operation of a parent, before the
merge states are set and after they are cleared, after the receiver took over the range of a
sealed donor, and for an empty donor at once. -/
def allows (s : Cluster) : TableOp → Bool
  | .split t =>
    (s.status? t.shardID).any fun st =>
      decide (st.table = t.tableName) && decide (st.state = .default) &&
        (s.status? t.splitShardID).isNone && (s.nodes.get? t.splitShardID).isNone &&
        (s.nodes.get? t.shardID).any fun n =>
          decide (n.store.byteRange.stop = t.splitKey) &&
            n.store.splitState.any fun split => split.phase = .splitting &&
              decide (split.splitKey = t.splitKey) &&
              decide (split.newShardID = t.splitShardID)
  | .prepareMerge t | .merge t =>
    s.neighbours t && s.atRest t.shardID && s.atRest t.mergeShardID
  | .finalizeMerge t =>
    (s.status? t.shardID).any fun receiver => (s.status? t.mergeShardID).any fun donor =>
      decide (receiver.table = t.tableName) && decide (receiver.mergeState = none) &&
        donor.mergeState.any fun d =>
          d.phase = .finalizing && d.denyDonorWrites &&
            decide (d.receiverShardID = t.shardID) && decide (d.donorShardID = t.mergeShardID) &&
            (s.nodes.get? t.shardID).any fun n =>
              decide (n.store.byteRange = ⟨d.receiverRangeStart, d.donorRangeEnd⟩)
  | .rollbackMerge t =>
    s.neighbours t && s.mergeCleared t &&
      (s.status? t.shardID).any fun receiver => receiver.state = .preMerge

/-- The `MergeRange` call that follows a merge of an empty shard. -/
def pendingAfter (s : Cluster) (tm : TableManager) : TableOp → OrdMap ℕ Range
  | .merge t =>
    (tm.shardStatuses.get? t.shardID).elim s.pendingRanges fun st =>
      s.pendingRanges.insert t.shardID st.byteRange
  | _ => s.pendingRanges

def splitOffShardStatusIsReady (status : ShardStatus) : Bool :=
  match status.state with
  | .splittingOff | .splitOffPreSnap | .default => status.isReadyForSplitReads
  | _ => false

/-- Whether the child that starts where `parent` ends can serve reads; without a child the parent
has nobody to wait for. -/
def splitOffShardIsReady (s : Cluster) (parent : ShardStatus) : Bool :=
  let splitKey := parent.byteRange.stop
  let children := s.statuses.entries.filter fun e =>
    decide (e.2.table = parent.table) && decide (e.1 ≠ parent.id) &&
      decide (e.2.byteRange.start = splitKey)
  splitKey.isEmpty ||
    match parent.splitState with
    | some ⟨_, _, childID + 1, _, _⟩ =>
      (s.status? (childID + 1)).any fun child =>
        decide (child.table = parent.table) && decide (child.byteRange.start = splitKey) &&
          splitOffShardStatusIsReady child
    | _ => children.isEmpty || children.any fun e => splitOffShardStatusIsReady e.2

def nextState (s : Cluster) (n : ShardNode) (status : ShardStatus) : ShardState :=
  match status.state with
  | .initializing => if n.report.initializing then .initializing else .default
  | .preSplit =>
    if n.store.byteRange = status.byteRange then
      if n.report.splitting || n.store.splitState.any (·.phase ≠ .none) then .splitting
      else if s.splitOffShardIsReady status then .default else .preSplit
    else .preSplit
  | .splitting =>
    if !n.report.splitting && s.splitOffShardIsReady status then .default else .splitting
  | .splittingOff => if n.report.initializing then .splittingOff else .splitOffPreSnap
  | .splitOffPreSnap =>
    if (status.reported n).isReadyForSplitReads then .default else .splitOffPreSnap
  | .preMerge => .preMerge
  | .default => .default

/-- A step of a cluster.  `commit` is a write or a transaction operation of a shard, `report` a
change of what a shard reports, and `heartbeat` the metadata service taking note of it. -/
inductive Event where
  | commit (id : ℕ) (op : RaftOp)
  | report (id : ℕ) (report : ShardReport)
  | heartbeat (id : ℕ)
  | start (id : ℕ) (report : ShardReport)
  | stop (id : ℕ)
  | split (id : ℕ) (step : SplitStep)
  | merge (t : MergeTransition) (step : MergeStep)
  | table (op : TableOp)
  | mergeRange (id : ℕ)

variable (c : Codec)

/-- An operation applied to a running shard. -/
def applyAt (s : Cluster) (id : ℕ) (op : RaftOp) : Option Cluster :=
  (s.nodes.get? id).map fun n =>
    { s with nodes := s.nodes.insert id { n with store := (n.store.applyOp c op).1 } }

def step (s : Cluster) : Event → Option Cluster
  | .commit id op => if op.isData then s.applyAt c id op else none
  | .report id report => (s.nodes.get? id).map fun n =>
    { s with nodes := s.nodes.insert id { n with report } }
  | .heartbeat id => do
      let n ← s.nodes.get? id
      let status ← s.tm.shardStatuses.get? id
      some { s with tm := { s.tm with
        shardStatuses :=
          s.tm.shardStatuses.insert id { status with state := s.nextState n status } } }
  | .start id report => do
      let status ← s.tm.shardStatuses.get? id
      if (s.nodes.get? id).isSome || (s.pendingRanges.get? id).isSome then none
      else some { s with nodes := s.nodes.insert id ⟨StoreDB.create status.byteRange, report⟩ }
  | .stop id =>
    if (s.tm.shardStatuses.get? id).isSome then none
    else some { s with nodes := s.nodes.erase id }
  | .split id step => do
      let op ← s.splitOp id step
      s.applyAt c id op
  | .merge t step => do
      let (id, op) ← s.mergeOp t step
      s.applyAt c id op
  | .table op =>
    if s.allows op then
      match s.tm.apply op with
      | .ok tm => some { s with tm, pendingRanges := s.pendingAfter tm op }
      | .error _ => none
    else none
  | .mergeRange id => do
      let r ← s.pendingRanges.get? id
      let s' ← s.applyAt c id (.setRange r)
      some { s' with pendingRanges := s'.pendingRanges.erase id }

/-- Every table partitions its keys into shards of its own that run with the ranges the table
gives them, and nothing is under way. -/
structure Calm (s : Cluster) : Prop where
  table : ∀ name table, s.tm.tables.get? name = some table → table.PartitionsKeys
  shard : ∀ name table id conf, s.tm.tables.get? name = some table →
    table.shards.get? id = some conf →
    ∃ st n, s.tm.shardStatuses.get? id = some st ∧ st.toShardConfig = conf ∧ st.table = name ∧
      s.nodes.get? id = some n
  status : ∀ id st, s.tm.shardStatuses.get? id = some st →
    st.state = .default ∧ st.mergeState = none
  node : ∀ id n, s.nodes.get? id = some n →
    ∃ st, s.tm.shardStatuses.get? id = some st ∧ Settled st.byteRange n.store
  pending : s.pendingRanges = .empty

def findWriteShardForKey (s : Cluster) (table : TableDef) (id : Bytes) : Option ℕ := do
  let shardID ← findShardForKey table.ranges id
  (resolveWriteShardID s.statuses shardID).toOption

/-- No donor of a merge denies writes. -/
def Unsealed (s : Cluster) : Prop :=
  ∀ id st m, s.status? id = some st → st.mergeState = some m → m.denyDonorWrites = false

/-- The shard that a write of `id` is routed to validates the id and stores the write, and when
the id lies in the split-off range of a running split, it captures it. -/
def AcceptsWrite (s : Cluster) (table : TableDef) (id : Bytes) : Prop :=
  ∃ shardID n, s.findWriteShardForKey table id = some shardID ∧
    s.nodes.get? shardID = some n ∧ n.store.Accepts id ∧
    ∀ st, n.store.splitState = some st → st.phase = .prepare ∨ st.phase = .splitting →
      st.splitKey ≤ id → capturesSplit n.store.coreDB id = true

end Cluster

end Antfly
