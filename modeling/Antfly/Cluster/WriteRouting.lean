import Antfly.Cluster.TableManager

/-!
A write goes to the shard whose range holds its key, except during a transition: the child of a
split hands the writes to its parent until it has caught up, and the donor of a merge that is being
finalized hands them to a receiver that is ready.  The statuses are read in the order of their
shard ids.
-/

namespace Antfly

inductive RoutingError where
  | noStatus (id : ℕ)
  | parentNotFound
  deriving DecidableEq

def isActiveSplitParentStatus (status : ShardStatus) : Bool :=
  isActiveSplitPhase status.splitState

def shouldRouteWriteToParent (status : ShardStatus) : Bool :=
  match status.state with
  | .splittingOff | .splitOffPreSnap => !status.canInitiateSplitCutover
  | _ => false

/-- A shard of the same table that is splitting and ends where `splitOff` starts. -/
def isParentOf (splitOff status : ShardStatus) : Bool :=
  decide (status.table = splitOff.table) && isActiveSplitParentStatus status &&
    decide (status.byteRange.stop = splitOff.byteRange.start)

def findParentShardForSplitOffStatus (statuses : OrdMap ℕ ShardStatus) (splitOff : ShardStatus) :
    Except RoutingError ℕ :=
  match statuses.entries.find? fun e => isParentOf splitOff e.2 with
  | some e => .ok e.1
  | none => .error .parentNotFound

/-- The receiver that takes the writes of a donor in the last phase of its merge. -/
def readyMergeReceiver (statuses : OrdMap ℕ ShardStatus) (status : ShardStatus) : Option ℕ :=
  match status.mergeState with
  | none => none
  | some st =>
    if st.phase = .finalizing ∧ st.receiverShardID ≠ 0 then
      match statuses.get? st.receiverShardID with
      | some receiver => if receiver.isReadyForMergeCutover then some st.receiverShardID else none
      | none => none
    else none

def resolveWriteShardID (statuses : OrdMap ℕ ShardStatus) (shardID : ℕ) :
    Except RoutingError ℕ :=
  match statuses.get? shardID with
  | none => .error (.noStatus shardID)
  | some status =>
    match readyMergeReceiver statuses status with
    | some receiver => .ok receiver
    | none =>
      if shouldRouteWriteToParent status then
        findParentShardForSplitOffStatus statuses status
      else .ok shardID

def TableDef.ranges (t : TableDef) : List (ℕ × Range) :=
  t.shards.entries.map fun e => (e.1, e.2.byteRange)

end Antfly
