import Antfly.Cluster.Transitions
import Mathlib.Data.Finset.Sort

/-!
The reconciler assigns every shard to nodes and then moves the shards there one step at a time.
`IdealShardAssignmentsV2` gives the shards, in the order of their ids, to the nodes with the fewest
shards so far.  A shard in a transition stays where it is, and one with more peers than the
replication factor is cut back to the peers with the fewest shards.  `CreateShardTransitionPlan`
starts and stops whole shards, and changes one member of every other shard that is not where it
should be.
-/

namespace Antfly

/-- What is read of the desired status of a shard; `none` stands for the nil map. -/
structure DesiredShard where
  config : ShardConfig
  state : ShardState
  peers : Option PeerSet

/-- `slices.SortFunc`, which need not keep the order of elements that compare equal. -/
abbrev SortFunc := (ℕ → ℕ → Ordering) → List ℕ → List ℕ

structure SortFunc.Lawful (sort : SortFunc) : Prop where
  perm : ∀ cmp l, (sort cmp l).Perm l
  sorted : ∀ cmp l, Std.TransCmp cmp → (sort cmp l).Pairwise fun a b => cmp a b ≠ .gt

/-- The orders in which Go iterates the maps: the desired shards, and in each of its loops the peers
of a shard. -/
structure MapOrder where
  desiredShards : List ℕ → List ℕ
  transitioningPeers : ℕ → PeerSet → List ℕ
  currentPeers : ℕ → PeerSet → List ℕ
  assignedPeers : ℕ → PeerSet → List ℕ

/-- Every element is visited once. -/
structure MapOrder.Lawful (order : MapOrder) : Prop where
  desiredShards : ∀ ids, (order.desiredShards ids).Perm ids
  transitioningPeers : ∀ id ps, (order.transitioningPeers id ps).Perm (ps.sort (· ≤ ·))
  currentPeers : ∀ id ps, (order.currentPeers id ps).Perm (ps.sort (· ≤ ·))
  assignedPeers : ∀ id ps, (order.assignedPeers id ps).Perm (ps.sort (· ≤ ·))

/-- The assignments so far, and the number of shards on each node. -/
structure Assigning where
  ideal : OrdMap ℕ ShardInfo
  nodeLoad : ℕ → ℕ

/-- `nodeLoad[peer]++` for every peer. -/
def countPeers (nodeLoad : ℕ → ℕ) (peers : List ℕ) : ℕ → ℕ :=
  peers.foldl (fun load peer node => if node = peer then load node + 1 else load node) nodeLoad

def candidateOrder (nodeLoad : ℕ → ℕ) (currentPeers : PeerSet) (a b : ℕ) : Ordering :=
  if nodeLoad a ≠ nodeLoad b then compare (nodeLoad a) (nodeLoad b)
  else if decide (a ∈ currentPeers) ≠ decide (b ∈ currentPeers) then
    if a ∈ currentPeers then .lt else .gt
  else compare a b

section Ideal

variable (sort : SortFunc) (order : MapOrder) (replicationFactor : ℕ) (nodes : List ℕ)
  (desired : OrdMap ℕ DesiredShard) (current : OrdMap ℕ ShardInfo)

def transitioningPeers (id : ℕ) (d : DesiredShard) : PeerSet :=
  d.peers.getD ((current.get? id).elim ∅ ShardInfo.peers)

/-- The first loop: a shard in a transition keeps its peers. -/
def initShard (s : Assigning) (id : ℕ) : Assigning :=
  match desired.get? id with
  | none => s
  | some d =>
    if d.state.transitioning then
      let peers := transitioningPeers current id d
      { ideal := s.ideal.insert id (.ofConfig d.config peers)
        nodeLoad := countPeers s.nodeLoad (order.transitioningPeers id peers) }
    else { s with ideal := s.ideal.insert id (.ofConfig d.config ∅) }

/-- The peers left of a shard with too many: those with the least load. -/
def trimmedPeers (nodeLoad : ℕ → ℕ) (id : ℕ) (currentPeers : PeerSet) : PeerSet :=
  let ids := sort compare (order.currentPeers id currentPeers)
  let candidateNodes := sort (compareOn nodeLoad) ids
  (candidateNodes.take replicationFactor).toFinset

/-- The first nodes in the order of the candidates. -/
def chosenPeers (nodeLoad : ℕ → ℕ) (currentPeers : PeerSet) : PeerSet :=
  let candidateNodes := sort (candidateOrder nodeLoad currentPeers) (sort compare nodes)
  (candidateNodes.take replicationFactor).toFinset

/-- The second loop.  The load of a shard that is cut back is not counted. -/
def assignShard (s : Assigning) (id : ℕ) : Assigning :=
  match desired.get? id with
  | none => s
  | some d =>
    if d.state.transitioning then s
    else
      let currentPeers := (current.get? id).elim ∅ ShardInfo.peers
      if replicationFactor < currentPeers.card then
        let peers := trimmedPeers sort order replicationFactor s.nodeLoad id currentPeers
        { s with ideal := s.ideal.insert id (.ofConfig d.config peers) }
      else
        let peers := chosenPeers sort replicationFactor nodes s.nodeLoad currentPeers
        { ideal := s.ideal.insert id (.ofConfig d.config peers)
          nodeLoad := countPeers s.nodeLoad (order.assignedPeers id peers) }

def sortedShardIDs : List ℕ := sort compare (order.desiredShards (desired.entries.map Prod.fst))

def idealShardAssignmentsV2 : OrdMap ℕ ShardInfo :=
  let ids := sortedShardIDs sort order desired
  let initial := ids.foldl (initShard order desired current) ⟨.empty, fun _ => 0⟩
  (ids.foldl (assignShard sort order replicationFactor nodes desired current) initial).ideal

end Ideal

structure ShardTransition where
  shardID : ℕ
  addPeers : List ℕ
  removePeers : List ℕ
  deriving DecidableEq

structure ShardTransitionPlan where
  transitions : List ShardTransition
  starts : List ShardTransition
  stops : List ShardTransition

/-- The voters a status names, none for a missing status. -/
def votersOf (status : Option RaftStatus) : PeerSet := status.elim ∅ RaftStatus.voters

/-- A shard that is not there, or has no peers and is not being initialized either. -/
def needsStart (shard : Option ShardInfo) : Bool :=
  shard.all fun shard => !shard.initializing && decide (shard.peers.card = 0)

/-- The one change of a shard: the first peer to add, or else the first one to remove.  Voters are
not added again, since they may just not have reported yet. -/
def memberChange (id : ℕ) (current ideal : ShardInfo) : Option ShardTransition :=
  let addPeers := (ideal.peers \ current.reportedBy) \ votersOf current.raftStatus
  let removePeers := current.reportedBy \ ideal.peers
  match addPeers.sort (· ≤ ·), removePeers.sort (· ≤ ·) with
  | p :: _, _ => some ⟨id, [p], []⟩
  | [], p :: _ => some ⟨id, [], [p]⟩
  | [], [] => none

def createShardTransitionPlan (current ideal : OrdMap ℕ ShardInfo) : ShardTransitionPlan where
  transitions := current.entries.filterMap fun e =>
    (ideal.get? e.1).bind (memberChange e.1 e.2)
  starts := (ideal.entries.filter fun e => needsStart (current.get? e.1)).map fun e =>
    ⟨e.1, e.2.peers.sort (· ≤ ·), []⟩
  stops := (current.entries.filter fun e => (ideal.get? e.1).isNone).map fun e =>
    ⟨e.1, [], e.2.peers.sort (· ≤ ·)⟩

end Antfly
