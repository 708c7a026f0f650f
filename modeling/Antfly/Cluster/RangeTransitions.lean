import Antfly.Cluster.Assignments
import Mathlib.Algebra.Ring.Int.Defs

/-!
The reconciler splits shards that have grown too large and merges neighbours of which one has become
too small.  `computeSplitTransitions` goes over the shards that may take part, by table and range,
and plans for each a merge with its right neighbour or else a split, as far as the limits allow.
-/

namespace Antfly

/-- When a shard was created and its statistics were updated, in nanoseconds, and its size. -/
structure RangeStats where
  created : Int
  updated : Int
  diskSize : ℕ
  deriving DecidableEq

/-- The status of a shard with the part of its statistics that plans are made from; `none` if they
are missing. -/
structure RangeStatus extends ShardStatus where
  rangeStats : Option RangeStats
  deriving DecidableEq

/-- The settings of a plan: sizes and shard counts are 64-bit unsigned, the limits are signed. -/
structure RangePolicy where
  replicationFactor : ℕ
  maxShardSizeBytes : ℕ
  minShardSizeBytes : ℕ
  minShardsPerTable : ℕ
  maxShardsPerTable : ℕ
  perTableLimit : Int
  clusterLimit : Int

namespace RangePolicy

/-- The defaults that are filled in at the start. -/
def normalized (policy : RangePolicy) : RangePolicy :=
  { policy with
    minShardsPerTable := if policy.minShardsPerTable = 0 then 1 else policy.minShardsPerTable
    minShardSizeBytes :=
      if policy.minShardSizeBytes = 0 ∧ policy.maxShardSizeBytes > 0 then
        max (policy.maxShardSizeBytes / 4) 1
      else policy.minShardSizeBytes
    perTableLimit := if policy.perTableLimit ≤ 0 then 1 else policy.perTableLimit
    clusterLimit := if policy.clusterLimit ≤ 0 then 1 else policy.clusterLimit }

end RangePolicy

/-- The conversion `int(n)` of a 64-bit unsigned number. -/
def toInt (n : ℕ) : Int := if n < 2 ^ 63 then n else n - 2 ^ 64

/-- The keys under which transitions are counted. -/
inductive ActiveKey where
  | split (id : ℕ)
  | splitPair (lower upper : ℕ)
  | mergePair (lower upper : ℕ)
  | state (id : ℕ)
  deriving DecidableEq

def activeKey (status : RangeStatus) : Option ActiveKey :=
  match status.splitState.filter (fun split => split.phase ≠ .none),
    status.mergeState.filter (fun merge => merge.phase ≠ .none) with
  | some split, _ =>
    if split.newShardID ≠ 0 then
      some (.splitPair (min status.id split.newShardID) (max status.id split.newShardID))
    else some (.split status.id)
  | none, some merge =>
    let receiver := if merge.receiverShardID ≠ 0 then merge.receiverShardID else status.id
    some (.mergePair (min receiver merge.donorShardID) (max receiver merge.donorShardID))
  | none, none =>
    match status.state with
    | .preMerge | .preSplit | .splitting | .splittingOff | .splitOffPreSnap =>
      some (.state status.id)
    | .default | .initializing => none

def countActiveRangeTransitionWork (shards : OrdMap ℕ RangeStatus) : ℕ :=
  (shards.entries.filterMap fun e => activeKey e.2).toFinset.card

def oneMinute : Int := 60 * 10 ^ 9

/-- A shard that a transition may be planned for: it is out of cooldown, fully replicated under a
leader, takes part in no transition, and its statistics are fresh.  Voters that are missing are no
voters. -/
def isCandidate (replicationFactor : ℕ) (now : Int) (shardCooldown : OrdMap ℕ Int) (shardID : ℕ)
    (status : RangeStatus) : Bool :=
  (shardCooldown.get? shardID).all (fun cooldownEnd => !decide (now < cooldownEnd)) &&
    status.raftStatus.any (fun raft => decide (raft.voters ≠ ∅) &&
      decide (raft.voters.card = replicationFactor) && decide (raft.lead ≠ 0)) &&
    !status.state.transitioning &&
    status.splitState.all (fun split => decide (split.phase = .none)) &&
    status.mergeState.all (fun merge => decide (merge.phase = .none)) &&
    !(status.splitReplayRequired && !status.splitCutoverReady) &&
    decide (status.state ≠ .splittingOff) && decide (status.state ≠ .splitOffPreSnap) &&
    status.rangeStats.any fun stats => decide (now - stats.updated ≤ oneMinute)

def tableOrder (shards : OrdMap ℕ RangeStatus) (shardID1 shardID2 : ℕ) : Ordering :=
  match shards.get? shardID1, shards.get? shardID2 with
  | some status1, some status2 =>
    (compare status1.table status2.table).then
      (compare status1.byteRange.start status2.byteRange.start)
  | _, _ => .eq

/-- What the loop keeps track of. -/
structure Planning where
  splits : List SplitTransition
  merges : List MergeTransition
  tablesWithMerges : Bytes → ℕ
  plannedByShard : List ℕ
  shardsPerTable : Bytes → Int
  autoTransitionsPerTable : Bytes → Int
  remainingBudget : Int

/-- The map with one entry changed. -/
def bump {ν : Type} (m : Bytes → ν) (table : Bytes) (f : ν → ν) : Bytes → ν :=
  fun t => if t = table then f (m t) else m t

section Plan

variable (policy : RangePolicy) (shards : OrdMap ℕ RangeStatus) (now : Int)
  (newShardID : RangeStatus → ℕ) (getMedianKey : ℕ → Option Bytes)

/-- The right neighbour to merge with: the next candidate, if it continues the range, one of the two
is too small, both are old enough, and they are not too large together. -/
def mergePartner (s : Planning) (status : RangeStatus) (stats : RangeStats) (next : Option ℕ) :
    Option ℕ := do
  let rightShardID ← next
  let right ← shards.get? rightShardID
  let rightStats ← right.rangeStats
  if s.remainingBudget > 0 ∧ s.autoTransitionsPerTable status.table < policy.perTableLimit ∧
      s.shardsPerTable status.table > toInt policy.minShardsPerTable ∧
      s.tablesWithMerges status.table < 3 ∧ right.table = status.table ∧
      status.byteRange.stop = right.byteRange.start ∧ rightShardID ∉ s.plannedByShard ∧
      now - stats.created > 5 * oneMinute ∧ now - rightStats.created > 5 * oneMinute ∧
      (stats.diskSize < policy.minShardSizeBytes ∨
        rightStats.diskSize < policy.minShardSizeBytes) ∧
      (stats.diskSize + rightStats.diskSize) % 2 ^ 64 < policy.maxShardSizeBytes then
    some rightShardID
  else none

def planMerge (s : Planning) (shardID rightShardID : ℕ) (table : Bytes) : Planning :=
  { s with
    merges := s.merges ++ [⟨shardID, rightShardID, table⟩]
    tablesWithMerges := bump s.tablesWithMerges table (· + 1)
    autoTransitionsPerTable := bump s.autoTransitionsPerTable table (· + 1)
    remainingBudget := s.remainingBudget - 1
    plannedByShard := rightShardID :: shardID :: s.plannedByShard
    shardsPerTable := bump s.shardsPerTable table (· - 1) }

def splitKeyFor (s : Planning) (shardID : ℕ) (status : RangeStatus) (stats : RangeStats) :
    Option Bytes :=
  if s.shardsPerTable status.table ≥ toInt policy.maxShardsPerTable ∨ stats.diskSize = 0 then none
  else if stats.diskSize > policy.maxShardSizeBytes then
    if s.remainingBudget ≤ 0 ∨ s.autoTransitionsPerTable status.table ≥ policy.perTableLimit ∨
        shardID = newShardID status ∨ (shards.get? (newShardID status)).isSome then none
    else (getMedianKey shardID).filter fun medianKey => !medianKey.isEmpty
  else none

def planSplit (s : Planning) (shardID splitShardID : ℕ) (splitKey table : Bytes) : Planning :=
  { s with
    splits := s.splits ++ [⟨shardID, splitShardID, splitKey, table⟩]
    shardsPerTable := bump s.shardsPerTable table (· + 1)
    autoTransitionsPerTable := bump s.autoTransitionsPerTable table (· + 1)
    remainingBudget := s.remainingBudget - 1
    plannedByShard := shardID :: s.plannedByShard }

/-- One iteration of the loop; `next` is the candidate after this one. -/
def planShard (s : Planning) (shardID : ℕ) (next : Option ℕ) : Planning :=
  if shardID ∈ s.plannedByShard then s
  else
    match shards.get? shardID with
    | none => s
    | some status =>
      match status.rangeStats with
      | none => s
      | some stats =>
        match mergePartner policy shards now s status stats next with
        | some rightShardID => planMerge s shardID rightShardID status.table
        | none =>
          match splitKeyFor policy shards newShardID getMedianKey s shardID status stats with
          | some splitKey => planSplit s shardID (newShardID status) splitKey status.table
          | none => s

def planShards (s : Planning) : List ℕ → Planning
  | [] => s
  | shardID :: rest =>
    planShards (planShard policy shards now newShardID getMedianKey s shardID rest.head?) rest

end Plan

def shardsOfTable (shards : OrdMap ℕ RangeStatus) (table : Bytes) : ℕ :=
  shards.entries.countP fun e => decide (e.2.table = table)

/-- The state before the loop. -/
def initialPlanning (policy : RangePolicy) (shards : OrdMap ℕ RangeStatus) : Planning where
  splits := []
  merges := []
  tablesWithMerges _ := 0
  plannedByShard := []
  shardsPerTable table := shardsOfTable shards table
  autoTransitionsPerTable _ := 0
  remainingBudget := max (policy.clusterLimit - countActiveRangeTransitionWork shards) 0

/-- The candidates, in the order in which the loop goes over them; `order` is the order in which
Go iterates the map of the shards. -/
def sortedCandidates (sort : SortFunc) (order : List ℕ → List ℕ) (replicationFactor : ℕ)
    (shards : OrdMap ℕ RangeStatus) (now : Int) (shardCooldown : OrdMap ℕ Int) : List ℕ :=
  sort (tableOrder shards) ((order (shards.entries.map Prod.fst)).filter fun shardID =>
    (shards.get? shardID).any (isCandidate replicationFactor now shardCooldown shardID))

/-- `newShardID` is the hash of the table, the id and the range of a shard, and `getMedianKey` has
no value where it fails. -/
def computeSplitTransitions (sort : SortFunc) (order : List ℕ → List ℕ) (policy : RangePolicy)
    (shards : OrdMap ℕ RangeStatus) (shardCooldown : OrdMap ℕ Int) (now : Int)
    (newShardID : RangeStatus → ℕ) (getMedianKey : ℕ → Option Bytes) :
    List SplitTransition × List MergeTransition :=
  let policy := policy.normalized
  let shardIDs := sortedCandidates sort order policy.replicationFactor shards now shardCooldown
  let s := planShards policy shards now newShardID getMedianKey (initialPlanning policy shards)
    shardIDs
  (s.splits, s.merges)

end Antfly
