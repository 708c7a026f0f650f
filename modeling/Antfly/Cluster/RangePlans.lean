import Antfly.Cluster.IdealAssignments
import Antfly.Cluster.RangeTransitions

/-!
A plan has at most one transition for a shard, and none for a shard that takes part in one already.
It merges neighbours that stay below the size at which shards are split, keeps to its limits, and
does not take a table past its least or greatest number of shards.  Every iteration of the planning
loop leaves the plan as it is, adds a merge or adds a split, and the invariant is kept by all three.

The limit of a table is on the new transitions of one plan; the limit of the cluster also counts
those that are under way.
-/

namespace Antfly

open List

section Steps

variable {policy : RangePolicy} {shards : OrdMap ℕ RangeStatus} {now : Int}
  {newShardID : RangeStatus → ℕ} {getMedianKey : ℕ → Option Bytes} {s : Planning}

structure MergeGuard (policy : RangePolicy) (shards : OrdMap ℕ RangeStatus) (s : Planning)
    (shardID rightShardID : ℕ) (left : RangeStatus) : Prop where
  left_get : shards.get? shardID = some left
  left_free : shardID ∉ s.plannedByShard
  right_free : rightShardID ∉ s.plannedByShard
  budget : 0 < s.remainingBudget
  limit : s.autoTransitionsPerTable left.table < policy.perTableLimit
  count : toInt policy.minShardsPerTable < s.shardsPerTable left.table
  sizes : ∃ right leftStats rightStats, shards.get? rightShardID = some right ∧
    left.rangeStats = some leftStats ∧ right.rangeStats = some rightStats ∧
    right.table = left.table ∧ left.byteRange.stop = right.byteRange.start ∧
    (leftStats.diskSize + rightStats.diskSize) % 2 ^ 64 < policy.maxShardSizeBytes

structure SplitGuard (policy : RangePolicy) (shards : OrdMap ℕ RangeStatus) (s : Planning)
    (shardID : ℕ) (status : RangeStatus) : Prop where
  get : shards.get? shardID = some status
  free : shardID ∉ s.plannedByShard
  budget : 0 < s.remainingBudget
  limit : s.autoTransitionsPerTable status.table < policy.perTableLimit
  count : s.shardsPerTable status.table < toInt policy.maxShardsPerTable

/-- An iteration changes nothing, plans a merge with the next candidate or plans a split. -/
theorem planShard_cases (policy : RangePolicy) (shards : OrdMap ℕ RangeStatus) (now : Int)
    (newShardID : RangeStatus → ℕ) (getMedianKey : ℕ → Option Bytes) (s : Planning) (shardID : ℕ)
    (next : Option ℕ) :
    planShard policy shards now newShardID getMedianKey s shardID next = s ∨
      (∃ rightShardID left, next = some rightShardID ∧
        MergeGuard policy shards s shardID rightShardID left ∧
        planShard policy shards now newShardID getMedianKey s shardID next =
          planMerge s shardID rightShardID left.table) ∨
      ∃ status splitKey, SplitGuard policy shards s shardID status ∧
        planShard policy shards now newShardID getMedianKey s shardID next =
          planSplit s shardID (newShardID status) splitKey status.table := by
  unfold planShard
  by_cases hfree : shardID ∈ s.plannedByShard
  · exact .inl (if_pos hfree)
  rw [if_neg hfree]
  cases hget : shards.get? shardID with
  | none => exact .inl rfl
  | some status =>
    dsimp only
    cases hstats : status.rangeStats with
    | none => exact .inl rfl
    | some stats =>
      dsimp only
      cases hpartner : mergePartner policy shards now s status stats next with
      | some rightShardID =>
        right
        left
        unfold mergePartner at hpartner
        simp only [Option.bind_eq_bind, Option.bind_eq_some_iff] at hpartner
        obtain ⟨rightShardID', hnext, right, hright, rightStats, hrightStats, hpartner⟩ :=
          hpartner
        split at hpartner
        · rename_i hguard
          obtain ⟨hbudget, hlimit, hcount, -, htable, hadjacent, hrightFree, -, -, -, hsum⟩ :=
            hguard
          cases hpartner
          refine ⟨rightShardID, status, hnext, ?_, rfl⟩
          exact ⟨hget, hfree, hrightFree, hbudget, hlimit, hcount, right, stats, rightStats,
            hright, hstats, hrightStats, htable, hadjacent, hsum⟩
        · cases hpartner
      | none =>
        dsimp only
        cases hkey : splitKeyFor policy shards newShardID getMedianKey s shardID status
          stats with
        | none => exact .inl rfl
        | some splitKey =>
          right
          right
          unfold splitKeyFor at hkey
          split at hkey
          · cases hkey
          · rename_i hcount
            split at hkey
            · split at hkey
              · cases hkey
              · rename_i hguard
                simp only [not_or, not_le] at hcount hguard
                exact ⟨status, splitKey, ⟨hget, hfree, hguard.1, hguard.2.1, hcount.1⟩, rfl⟩
            · cases hkey

end Steps

/-- The shards that take part in planned transitions. -/
def transitionShards (splits : List SplitTransition) (merges : List MergeTransition) : List ℕ :=
  splits.map SplitTransition.shardID ++ merges.flatMap fun m => [m.shardID, m.mergeShardID]

def splitsOf (splits : List SplitTransition) (table : Bytes) : ℕ :=
  splits.countP fun t => decide (t.tableName = table)

def mergesOf (merges : List MergeTransition) (table : Bytes) : ℕ :=
  merges.countP fun t => decide (t.tableName = table)

/-- A merge of neighbours of one table.  Unless their sizes together exceed 64 bits, they are below
the size at which shards are split, and a shard of both sizes is not split again. -/
def MergesNeighbours (policy : RangePolicy) (shards : OrdMap ℕ RangeStatus) (m : MergeTransition) :
    Prop :=
  ∃ left right leftStats rightStats, shards.get? m.shardID = some left ∧
    shards.get? m.mergeShardID = some right ∧ left.rangeStats = some leftStats ∧
    right.rangeStats = some rightStats ∧ left.table = m.tableName ∧ right.table = m.tableName ∧
    left.byteRange.stop = right.byteRange.start ∧
    (leftStats.diskSize + rightStats.diskSize < 2 ^ 64 →
      leftStats.diskSize + rightStats.diskSize < policy.maxShardSizeBytes ∧
      ∀ newShards newShardID getMedianKey s shardID status stats,
        stats.diskSize = leftStats.diskSize + rightStats.diskSize →
        splitKeyFor policy newShards newShardID getMedianKey s shardID status stats = none)

/-- What holds throughout the loop. -/
structure Sound (policy : RangePolicy) (shards : OrdMap ℕ RangeStatus) (candidates : List ℕ)
    (budget : Int) (s : Planning) : Prop where
  planned : (transitionShards s.splits s.merges).Perm s.plannedByShard
  nodup : s.plannedByShard.Nodup
  among : ∀ id ∈ s.plannedByShard, id ∈ candidates
  merges : ∀ m ∈ s.merges, MergesNeighbours policy shards m
  counted : ∀ table,
    s.autoTransitionsPerTable table = splitsOf s.splits table + mergesOf s.merges table
  limited : ∀ table, s.autoTransitionsPerTable table ≤ policy.perTableLimit
  spent : s.remainingBudget + s.splits.length + s.merges.length = budget
  unspent : 0 ≤ s.remainingBudget
  shardCount : ∀ table, s.shardsPerTable table =
    shardsOfTable shards table + splitsOf s.splits table - mergesOf s.merges table
  atLeast : ∀ table, min (shardsOfTable shards table : Int) (toInt policy.minShardsPerTable) ≤
    s.shardsPerTable table
  atMost : ∀ table, s.shardsPerTable table ≤
    max (shardsOfTable shards table : Int) (toInt policy.maxShardsPerTable)

section Invariant

variable {policy : RangePolicy} {shards : OrdMap ℕ RangeStatus} {candidates : List ℕ}
  {budget : Int} {now : Int} {newShardID : RangeStatus → ℕ} {getMedianKey : ℕ → Option Bytes}
  {s : Planning} {shardID rightShardID : ℕ}

theorem splitsOf_append (splits : List SplitTransition) (t : SplitTransition) (table : Bytes) :
    splitsOf (splits ++ [t]) table =
      splitsOf splits table + if table = t.tableName then 1 else 0 := by
  unfold splitsOf
  rw [countP_append, countP_singleton]
  simp only [decide_eq_true_eq, @eq_comm _ table]

theorem mergesOf_append (merges : List MergeTransition) (t : MergeTransition) (table : Bytes) :
    mergesOf (merges ++ [t]) table =
      mergesOf merges table + if table = t.tableName then 1 else 0 := by
  unfold mergesOf
  rw [countP_append, countP_singleton]
  simp only [decide_eq_true_eq, @eq_comm _ table]

variable {left status : RangeStatus}

theorem MergeGuard.mergesNeighbours (h : MergeGuard policy shards s shardID rightShardID left) :
    MergesNeighbours policy shards ⟨shardID, rightShardID, left.table⟩ := by
  obtain ⟨right, leftStats, rightStats, hright, hleftStats, hrightStats, htable, hadjacent, hsum⟩ :=
    h.sizes
  refine ⟨left, right, leftStats, rightStats, h.left_get, hright, hleftStats, hrightStats, rfl,
    htable, hadjacent, fun hfits => ?_⟩
  rw [Nat.mod_eq_of_lt hfits] at hsum
  refine ⟨hsum, ?_⟩
  intro newShards newShardID getMedianKey s shardID status stats hsize
  unfold splitKeyFor
  split
  · rfl
  · rw [if_neg]
    rw [hsize]
    exact not_lt.mpr hsum.le

theorem Sound.planMerge (h : Sound policy shards candidates budget s)
    (hguard : MergeGuard policy shards s shardID rightShardID left) (hleft : shardID ∈ candidates)
    (hright : rightShardID ∈ candidates) (hne : shardID ≠ rightShardID) :
    Sound policy shards candidates budget (planMerge s shardID rightShardID left.table) where
  planned := by
    change (transitionShards s.splits (s.merges ++ [⟨shardID, rightShardID, left.table⟩])).Perm
      (rightShardID :: shardID :: s.plannedByShard)
    unfold transitionShards
    rw [flatMap_append, ← append_assoc]
    change ((transitionShards s.splits s.merges) ++ [shardID, rightShardID]).Perm _
    refine perm_append_comm.trans ?_
    exact (List.Perm.swap rightShardID shardID _).trans ((h.planned.cons _).cons _)
  nodup := by
    refine nodup_cons.mpr ⟨?_, nodup_cons.mpr ⟨hguard.left_free, h.nodup⟩⟩
    rw [mem_cons, not_or]
    exact ⟨hne.symm, hguard.right_free⟩
  among id hid := by
    rcases mem_cons.mp hid with rfl | hid
    · exact hright
    · rcases mem_cons.mp hid with rfl | hid
      · exact hleft
      · exact h.among id hid
  merges m hm := by
    rcases mem_append.mp hm with hm | hm
    · exact h.merges m hm
    · rw [mem_singleton.mp hm]
      exact hguard.mergesNeighbours
  counted table := by
    change bump s.autoTransitionsPerTable left.table (· + 1) table =
      splitsOf s.splits table + (mergesOf (s.merges ++ [_]) table : ℕ)
    rw [mergesOf_append]
    have hcounted := h.counted table
    unfold bump
    dsimp only
    split <;> omega
  limited table := by
    change bump s.autoTransitionsPerTable left.table (· + 1) table ≤ _
    have hlimited := h.limited table
    unfold bump
    dsimp only
    split
    · rename_i htable
      rw [htable]
      exact hguard.limit
    · exact hlimited
  spent := by
    change s.remainingBudget - 1 + s.splits.length + (s.merges ++ [_]).length = budget
    have hspent := h.spent
    rw [length_append, length_singleton]
    omega
  unspent := Int.sub_nonneg_of_le hguard.budget
  shardCount table := by
    change bump s.shardsPerTable left.table (· - 1) table =
      shardsOfTable shards table + splitsOf s.splits table - (mergesOf (s.merges ++ [_]) table : ℕ)
    rw [mergesOf_append]
    have hcount := h.shardCount table
    unfold bump
    dsimp only
    split <;> omega
  atLeast table := by
    change _ ≤ bump s.shardsPerTable left.table (· - 1) table
    have hleast := h.atLeast table
    unfold bump
    dsimp only
    split
    · rename_i htable
      have hcount := hguard.count
      rw [← htable] at hcount
      omega
    · exact hleast
  atMost table := by
    change bump s.shardsPerTable left.table (· - 1) table ≤ _
    have hmost := h.atMost table
    unfold bump
    dsimp only
    split
    · omega
    · exact hmost

theorem Sound.planSplit (h : Sound policy shards candidates budget s)
    (hguard : SplitGuard policy shards s shardID status) (hmem : shardID ∈ candidates)
    (splitShardID : ℕ) (splitKey : Bytes) :
    Sound policy shards candidates budget
      (planSplit s shardID splitShardID splitKey status.table) where
  planned := by
    change (transitionShards (s.splits ++ [_]) s.merges).Perm (shardID :: s.plannedByShard)
    unfold transitionShards
    rw [map_append, append_assoc]
    refine perm_middle.trans ?_
    exact h.planned.cons _
  nodup := nodup_cons.mpr ⟨hguard.free, h.nodup⟩
  among id hid := by
    rcases mem_cons.mp hid with rfl | hid
    · exact hmem
    · exact h.among id hid
  merges := h.merges
  counted table := by
    change bump s.autoTransitionsPerTable status.table (· + 1) table =
      (splitsOf (s.splits ++ [_]) table : ℕ) + mergesOf s.merges table
    rw [splitsOf_append]
    have hcounted := h.counted table
    unfold bump
    dsimp only
    split <;> omega
  limited table := by
    change bump s.autoTransitionsPerTable status.table (· + 1) table ≤ _
    have hlimited := h.limited table
    unfold bump
    dsimp only
    split
    · rename_i htable
      rw [htable]
      exact hguard.limit
    · exact hlimited
  spent := by
    change s.remainingBudget - 1 + (s.splits ++ [_]).length + s.merges.length = budget
    have hspent := h.spent
    rw [length_append, length_singleton]
    omega
  unspent := Int.sub_nonneg_of_le hguard.budget
  shardCount table := by
    change bump s.shardsPerTable status.table (· + 1) table =
      shardsOfTable shards table + (splitsOf (s.splits ++ [_]) table : ℕ) - mergesOf s.merges table
    rw [splitsOf_append]
    have hcount := h.shardCount table
    unfold bump
    dsimp only
    split <;> omega
  atLeast table := by
    change _ ≤ bump s.shardsPerTable status.table (· + 1) table
    have hleast := h.atLeast table
    unfold bump
    dsimp only
    split
    · omega
    · exact hleast
  atMost table := by
    change bump s.shardsPerTable status.table (· + 1) table ≤ _
    have hmost := h.atMost table
    unfold bump
    dsimp only
    split
    · rename_i htable
      have hcount := hguard.count
      rw [← htable] at hcount
      omega
    · exact hmost

theorem Sound.planShards (h : Sound policy shards candidates budget s) {ids : List ℕ}
    (hnodup : ids.Nodup) (hsub : ∀ id ∈ ids, id ∈ candidates) :
    Sound policy shards candidates budget
      (planShards policy shards now newShardID getMedianKey s ids) := by
  induction ids generalizing s with
  | nil => exact h
  | cons shardID rest ih =>
    obtain ⟨hnot, hnodup'⟩ := nodup_cons.mp hnodup
    have hmem : shardID ∈ candidates := hsub shardID mem_cons_self
    have hrest : ∀ id ∈ rest, id ∈ candidates := fun id hid =>
      hsub id (mem_cons_of_mem shardID hid)
    refine ih ?_ hnodup' hrest
    rcases planShard_cases policy shards now newShardID getMedianKey s shardID rest.head? with
      heq | ⟨rightShardID, left, hnext, hguard, heq⟩ | ⟨status, splitKey, hguard, heq⟩
    · rw [heq]
      exact h
    · have hright : rightShardID ∈ rest := mem_of_mem_head? hnext
      rw [heq]
      refine h.planMerge hguard hmem (hrest _ hright) ?_
      rintro rfl
      exact hnot hright
    · rw [heq]
      exact h.planSplit hguard hmem _ splitKey

theorem sound_initial (policy : RangePolicy) (shards : OrdMap ℕ RangeStatus)
    (candidates : List ℕ) :
    Sound policy.normalized shards candidates
      (max (policy.normalized.clusterLimit - countActiveRangeTransitionWork shards) 0)
      (initialPlanning policy.normalized shards) where
  planned := .nil
  nodup := nodup_nil
  among id hid := absurd hid not_mem_nil
  merges m hm := absurd hm not_mem_nil
  counted table := rfl
  limited table := by
    change (0 : Int) ≤ if policy.perTableLimit ≤ 0 then 1 else policy.perTableLimit
    split <;> omega
  spent := by
    change max _ _ + ((0 : ℕ) : Int) + ((0 : ℕ) : Int) = _
    omega
  unspent := le_max_right _ _
  shardCount table := by
    change (shardsOfTable shards table : Int) = shardsOfTable shards table + (0 : ℕ) - (0 : ℕ)
    omega
  atLeast table := min_le_left _ _
  atMost table := le_max_left _ _

theorem activeKey_of_isCandidate {replicationFactor : ℕ} {shardCooldown : OrdMap ℕ Int}
    (h : isCandidate replicationFactor now shardCooldown shardID status = true) :
    activeKey status = none := by
  unfold isCandidate at h
  simp only [Bool.and_eq_true] at h
  obtain ⟨⟨⟨⟨⟨⟨⟨⟨-, -⟩, hstate⟩, hsplit⟩, hmerge⟩, -⟩, -⟩, hpreSnap⟩, -⟩ := h
  have hnosplit : status.splitState.filter (fun split => split.phase ≠ .none) = none := by
    rw [Option.filter_eq_none_iff]
    intro split hget
    rw [hget] at hsplit
    rw [decide_eq_true_eq, not_not]
    exact of_decide_eq_true hsplit
  have hnomerge : status.mergeState.filter (fun merge => merge.phase ≠ .none) = none := by
    rw [Option.filter_eq_none_iff]
    intro merge hget
    rw [hget] at hmerge
    rw [decide_eq_true_eq, not_not]
    exact of_decide_eq_true hmerge
  unfold activeKey
  rw [hnosplit, hnomerge]
  dsimp only
  cases hcase : status.state <;> rw [hcase] at hstate hpreSnap
  case splitOffPreSnap => exact absurd hpreSnap (by decide)
  all_goals exact absurd hstate (by decide)

end Invariant

theorem toInt_of_lt {n : ℕ} (h : n < 2 ^ 63) : toInt n = n := if_pos h

def tableT : Bytes := [116]

/-- A shard of size 100 under a leader, with the given range and split state. -/
def largeShard (id : ℕ) (range : Range) (splitState : Option SplitState) : RangeStatus where
  toShardInfo := { ShardInfo.ofConfig { anyConfig with byteRange := range } {1} with
    raftStatus := some ⟨1, {1}⟩
    splitState := splitState }
  id := id
  table := tableT
  state := .default
  rangeStats := some ⟨0, 0, 100⟩

/-- One shard is being split, and the other one is too large. -/
def splittingTable : OrdMap ℕ RangeStatus :=
  .ofList [(1, largeShard 1 ⟨[], [5]⟩ (some ⟨.splitting, [3], 0, 0, [5]⟩)),
    (2, largeShard 2 ⟨[5], [9]⟩ none)]

/-- One new transition in a table, and two in the cluster. -/
def onePerTable : RangePolicy where
  replicationFactor := 1
  maxShardSizeBytes := 50
  minShardSizeBytes := 10
  minShardsPerTable := 1
  maxShardsPerTable := 10
  perTableLimit := 1
  clusterLimit := 2

/-- The transitions of a table that are under way. -/
def activeOfTable (shards : OrdMap ℕ RangeStatus) (table : Bytes) : ℕ :=
  countActiveRangeTransitionWork
    ⟨shards.entries.filter fun e => e.2.table = table, shards.sorted.filter _⟩

def splittingTablePlan : List SplitTransition × List MergeTransition :=
  computeSplitTransitions insertionSortFunc (fun ids => ids) onePerTable splittingTable .empty 0
    (fun _ => 3) (fun _ => some [7])

end Antfly
