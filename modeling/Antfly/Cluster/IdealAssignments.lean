import Antfly.Cluster.Assignments
import Antfly.Lib.LeastLoaded

/-!
An assignment is ideal when it spreads the shards evenly over active nodes only, does not depend on
the order in which maps are iterated, and is what comes out again for it.  This is so when no shard
has to be cut back.  The peers that are left of a shard that is cut back are taken from its current
ones, whether they are active or not, and are missing from the loads of the shards after it.
-/

namespace Antfly

open LeastLoaded List Option OrdMap

namespace SortFunc

variable {sort : SortFunc} {cmp : ℕ → ℕ → Ordering} {l l' : List ℕ}

theorem Lawful.compare_sorted (h : sort.Lawful) (l : List ℕ) :
    (sort compare l).Pairwise (· ≤ ·) := by
  refine (h.sorted compare l inferInstance).imp ?_
  intro a b hab
  exact Nat.compare_ne_gt.mp hab

theorem Lawful.sort_compare_of_sorted (h : sort.Lawful) (hperm : l.Perm l')
    (hsorted : l'.Pairwise (· ≤ ·)) : sort compare l = l' :=
  List.Perm.eq_of_pairwise' (h.compare_sorted l) hsorted ((h.perm compare l).trans hperm)

end SortFunc

section Candidates

variable {nodeLoad : ℕ → ℕ} {currentPeers : PeerSet}

theorem candidateOrder_eq (nodeLoad : ℕ → ℕ) (currentPeers : PeerSet) :
    candidateOrder nodeLoad currentPeers =
      compareLex (compareOn nodeLoad)
        (compareLex (compareOn fun a => if a ∈ currentPeers then 0 else 1) compare) := by
  funext a b
  unfold candidateOrder compareLex compareOn
  by_cases hload : nodeLoad a = nodeLoad b
  · rw [if_neg (not_not.mpr hload), hload, Nat.compare_eq_eq.mpr rfl]
    by_cases ha : a ∈ currentPeers <;> by_cases hb : b ∈ currentPeers <;> simp [ha, hb] <;> rfl
  · rw [if_pos hload]
    rcases lt_or_gt_of_ne hload with hlt | hgt
    · rw [Nat.compare_eq_lt.mpr hlt]
      rfl
    · rw [Nat.compare_eq_gt.mpr hgt]
      rfl

instance : Std.TransCmp (candidateOrder nodeLoad currentPeers) := by
  rw [candidateOrder_eq]
  infer_instance

theorem preferred_of_candidateOrder {a b : ℕ} (hne : a ≠ b)
    (h : candidateOrder nodeLoad currentPeers a b ≠ .gt) : Preferred nodeLoad currentPeers a b := by
  unfold candidateOrder at h
  split at h
  · rename_i hload
    left
    rw [Nat.compare_ne_gt] at h
    exact lt_of_le_of_ne h hload
  · rename_i hload
    refine .inr ⟨not_not.mp hload, ?_⟩
    split at h
    · rename_i hkeep
      split at h
      · rename_i ha
        refine .inl ⟨ha, fun hb => hkeep ?_⟩
        rw [decide_eq_true ha, decide_eq_true hb]
      · exact absurd rfl h
    · rename_i hkeep
      rw [Nat.compare_ne_gt] at h
      exact .inr ⟨decide_eq_decide.mp (not_not.mp hkeep), lt_of_le_of_ne h hne⟩

theorem chosenPeers_firstOf {sort : SortFunc} (hsort : sort.Lawful) {nodes : List ℕ}
    (hnodes : nodes.Nodup) (nodeLoad : ℕ → ℕ) (currentPeers : PeerSet) (k : ℕ) :
    FirstOf (Preferred nodeLoad currentPeers) k nodes.toFinset
      (chosenPeers sort k nodes nodeLoad currentPeers) := by
  have hperm : (sort (candidateOrder nodeLoad currentPeers) (sort compare nodes)).Perm nodes :=
    (hsort.perm _ _).trans (hsort.perm _ _)
  have hnodup := hperm.nodup_iff.mpr hnodes
  have hsorted : (sort (candidateOrder nodeLoad currentPeers) (sort compare nodes)).Pairwise
      (Preferred nodeLoad currentPeers) := by
    have hboth := hnodup.and (hsort.sorted _ (sort compare nodes) inferInstance)
    exact hboth.imp fun ⟨hne, hle⟩ => preferred_of_candidateOrder hne hle
  have hfirst := FirstOf.of_sorted hnodup hsorted k
  rwa [toFinset_eq_of_perm _ _ hperm] at hfirst

end Candidates

theorem countPeers_eq {peers : List ℕ} {ps : PeerSet} (hperm : peers.Perm (ps.sort (· ≤ ·)))
    (nodeLoad : ℕ → ℕ) : countPeers nodeLoad peers = addLoad nodeLoad ps := by
  have hcount : ∀ (l : List ℕ) (load : ℕ → ℕ) (node : ℕ),
      countPeers load l node = load node + l.count node := by
    intro l
    induction l with
    | nil => exact fun _ _ => rfl
    | cons peer l ih =>
      intro load node
      change countPeers (fun n => if n = peer then load n + 1 else load n) l node = _
      rw [ih, count_cons]
      by_cases hnode : node = peer
      · rw [if_pos hnode, if_pos (beq_iff_eq.mpr hnode.symm)]
        omega
      · rw [if_neg hnode, if_neg (fun h => hnode (beq_iff_eq.mp h).symm), Nat.add_zero]
  funext node
  rw [hcount, hperm.count_eq, addLoad]
  have hnodup : (ps.sort (· ≤ ·)).Nodup := Finset.sort_nodup ps _
  by_cases hmem : node ∈ ps
  · rw [if_pos hmem, count_eq_one_of_mem hnodup ((Finset.mem_sort _).mpr hmem)]
  · rw [if_neg hmem, count_eq_zero_of_not_mem (fun h => hmem ((Finset.mem_sort _).mp h)),
      Nat.add_zero]

section Loops

variable {sort : SortFunc} {order order' : MapOrder} {replicationFactor : ℕ} {nodes : List ℕ}
  {desired : OrdMap ℕ DesiredShard} {current : OrdMap ℕ ShardInfo}

theorem sortedShardIDs_eq (hsort : sort.Lawful) (horder : order.Lawful) :
    sortedShardIDs sort order desired = desired.entries.map Prod.fst := by
  refine hsort.sort_compare_of_sorted (horder.desiredShards _) ?_
  rw [pairwise_map]
  exact desired.sorted.imp fun h => h.le

theorem idealShardAssignmentsV2_congr (hsort : sort.Lawful) (horder : order.Lawful)
    (horder' : order'.Lawful) :
    idealShardAssignmentsV2 sort order replicationFactor nodes desired current =
      idealShardAssignmentsV2 sort order' replicationFactor nodes desired current := by
  have hinit : initShard order desired current = initShard order' desired current := by
    funext s id
    unfold initShard
    cases desired.get? id with
    | none => rfl
    | some d =>
      dsimp only
      rw [countPeers_eq (horder.transitioningPeers id _),
        countPeers_eq (horder'.transitioningPeers id _)]
  have htrim : trimmedPeers sort order replicationFactor =
      trimmedPeers sort order' replicationFactor := by
    funext load id ps
    have hsorted : (ps.sort (· ≤ ·)).Pairwise (· ≤ ·) := Finset.pairwise_sort ps _
    unfold trimmedPeers
    rw [hsort.sort_compare_of_sorted (horder.currentPeers id ps) hsorted,
      hsort.sort_compare_of_sorted (horder'.currentPeers id ps) hsorted]
  have hassign : assignShard sort order replicationFactor nodes desired current =
      assignShard sort order' replicationFactor nodes desired current := by
    funext s id
    unfold assignShard
    cases desired.get? id with
    | none => rfl
    | some d =>
      dsimp only
      rw [htrim, countPeers_eq (horder.assignedPeers id _),
        countPeers_eq (horder'.assignedPeers id _)]
  unfold idealShardAssignmentsV2
  rw [sortedShardIDs_eq hsort horder, sortedShardIDs_eq hsort horder', hinit, hassign]

def peersAt (shards : OrdMap ℕ ShardInfo) (id : ℕ) : PeerSet :=
  (shards.get? id).elim ∅ ShardInfo.peers

/-- No shard at rest has more peers than it should have. -/
def NothingToTrim (replicationFactor : ℕ) (desired : OrdMap ℕ DesiredShard)
    (current : OrdMap ℕ ShardInfo) : Prop :=
  replicationFactor = 0 ∨ ∀ id d, desired.get? id = some d → d.state.transitioning = false →
    (peersAt current id).card ≤ replicationFactor

variable (sort nodes) in
theorem assignShard_eq (horder : order.Lawful)
    (htrim : NothingToTrim replicationFactor desired current) {id : ℕ} {d : DesiredShard}
    (hd : desired.get? id = some d) (hrest : d.state.transitioning = false) (s : Assigning) :
    assignShard sort order replicationFactor nodes desired current s id =
      ⟨s.ideal.insert id (.ofConfig d.config
          (chosenPeers sort replicationFactor nodes s.nodeLoad (peersAt current id))),
        addLoad s.nodeLoad
          (chosenPeers sort replicationFactor nodes s.nodeLoad (peersAt current id))⟩ := by
  unfold assignShard
  rw [hd]
  dsimp only
  rw [hrest, if_neg Bool.false_ne_true, countPeers_eq (horder.assignedPeers id _)]
  by_cases hover : replicationFactor < (peersAt current id).card
  · rcases htrim with hzero | hall
    · -- Without replicas there is nothing to choose, and nothing to count.
      change (if replicationFactor < (peersAt current id).card then _ else _) = _
      rw [if_pos hover]
      subst hzero
      have hload : addLoad s.nodeLoad ∅ = s.nodeLoad :=
        funext fun a => if_neg (Finset.notMem_empty a)
      change _ = Assigning.mk (s.ideal.insert id (.ofConfig d.config ∅)) (addLoad s.nodeLoad ∅)
      rw [hload]
      rfl
    · exact absurd hover (not_lt.mpr (hall id d hd hrest))
  · exact if_neg hover

theorem assignShard_of_transitioning {id : ℕ} {d : DesiredShard}
    (hd : desired.get? id = some d) (htrans : d.state.transitioning = true) (s : Assigning) :
    assignShard sort order replicationFactor nodes desired current s id = s := by
  unfold assignShard
  rw [hd]
  dsimp only
  rw [htrans, if_pos rfl]

theorem get?_assignShard_of_ne {id id' : ℕ} (hne : id ≠ id') (s : Assigning) :
    (assignShard sort order replicationFactor nodes desired current s id').ideal.get? id =
      s.ideal.get? id := by
  unfold assignShard
  split
  · rfl
  · split
    · rfl
    · dsimp only
      split
      · rw [get?_insert, if_neg hne]
      · rw [get?_insert, if_neg hne]

variable {ids : List ℕ} {load : ℕ → ℕ} {keep : PeerSet}

theorem get?_assignShards_of_notMem {id : ℕ} (h : id ∉ ids) (s : Assigning) :
    (ids.foldl (assignShard sort order replicationFactor nodes desired current) s).ideal.get? id =
      s.ideal.get? id := by
  induction ids generalizing s with
  | nil => rfl
  | cons id' ids ih =>
    rw [mem_cons, not_or] at h
    exact (ih h.2 _).trans (get?_assignShard_of_ne h.1 s)

theorem get?_assignShards_of_transitioning {id : ℕ} {d : DesiredShard}
    (hd : desired.get? id = some d) (htrans : d.state.transitioning = true) (s : Assigning) :
    (ids.foldl (assignShard sort order replicationFactor nodes desired current) s).ideal.get? id =
      s.ideal.get? id := by
  induction ids generalizing s with
  | nil => rfl
  | cons id' ids ih =>
    refine (ih _).trans ?_
    by_cases hne : id = id'
    · rw [← hne, assignShard_of_transitioning hd htrans]
    · exact get?_assignShard_of_ne hne s

theorem get?_assignShards (horder : order.Lawful)
    (htrim : NothingToTrim replicationFactor desired current) {id : ℕ} {d : DesiredShard}
    (hd : desired.get? id = some d) (hrest : d.state.transitioning = false) (hmem : id ∈ ids)
    (s : Assigning) :
    ∃ load, (ids.foldl (assignShard sort order replicationFactor nodes desired current)
        s).ideal.get? id =
      some (.ofConfig d.config (chosenPeers sort replicationFactor nodes load
        (peersAt current id))) := by
  induction ids generalizing s with
  | nil => exact absurd hmem not_mem_nil
  | cons id' ids ih =>
    by_cases htail : id ∈ ids
    · exact ih htail _
    · have heq : id = id' := (mem_cons.mp hmem).resolve_right htail
      refine ⟨s.nodeLoad, ?_⟩
      rw [foldl_cons, get?_assignShards_of_notMem htail, ← heq,
        assignShard_eq sort nodes horder htrim hd hrest, get?_insert, if_pos rfl]

theorem get?_initShard (s : Assigning) (id id' : ℕ) :
    (initShard order desired current s id').ideal.get? id =
      if id = id' then ((desired.get? id').map fun d => ShardInfo.ofConfig d.config
        (if d.state.transitioning then transitioningPeers current id' d else ∅)).or
          (s.ideal.get? id) else s.ideal.get? id := by
  unfold initShard
  cases hd : desired.get? id' with
  | none =>
    dsimp only [map_none]
    rw [none_or, ite_self]
  | some d =>
    dsimp only [map_some]
    cases htrans : d.state.transitioning with
    | true =>
      rw [if_pos rfl, if_pos rfl, get?_insert]
      split <;> rfl
    | false =>
      rw [if_neg Bool.false_ne_true, if_neg Bool.false_ne_true, get?_insert]
      split <;> rfl

theorem get?_initShards_of_notMem {id : ℕ} (h : id ∉ ids) (s : Assigning) :
    (ids.foldl (initShard order desired current) s).ideal.get? id = s.ideal.get? id := by
  induction ids generalizing s with
  | nil => rfl
  | cons id' ids ih =>
    rw [mem_cons, not_or] at h
    rw [foldl_cons, ih h.2, get?_initShard, if_neg h.1]

theorem get?_initShards_of_transitioning {id : ℕ} {d : DesiredShard}
    (hd : desired.get? id = some d) (htrans : d.state.transitioning = true) (hmem : id ∈ ids)
    (s : Assigning) :
    (ids.foldl (initShard order desired current) s).ideal.get? id =
      some (.ofConfig d.config (transitioningPeers current id d)) := by
  induction ids generalizing s with
  | nil => exact absurd hmem not_mem_nil
  | cons id' ids ih =>
    by_cases htail : id ∈ ids
    · exact ih htail _
    · have heq : id = id' := (mem_cons.mp hmem).resolve_right htail
      rw [foldl_cons, get?_initShards_of_notMem htail, get?_initShard, if_pos heq, ← heq, hd]
      dsimp only [map_some]
      rw [if_pos htrans, some_or]

theorem mem_desired_iff {id : ℕ} :
    id ∈ desired.entries.map Prod.fst ↔ desired.get? id ≠ none := desired.mem_keys_iff id

theorem get?_ideal_of_none (hsort : sort.Lawful) (horder : order.Lawful) {id : ℕ}
    (hd : desired.get? id = none) :
    (idealShardAssignmentsV2 sort order replicationFactor nodes desired current).get? id =
      none := by
  have hnot : id ∉ desired.entries.map Prod.fst := fun h => mem_desired_iff.mp h hd
  unfold idealShardAssignmentsV2
  rw [sortedShardIDs_eq hsort horder]
  dsimp only
  rw [get?_assignShards_of_notMem hnot, get?_initShards_of_notMem hnot]
  rfl

theorem get?_ideal_of_transitioning (hsort : sort.Lawful) (horder : order.Lawful) {id : ℕ}
    {d : DesiredShard} (hd : desired.get? id = some d) (htrans : d.state.transitioning = true) :
    (idealShardAssignmentsV2 sort order replicationFactor nodes desired current).get? id =
      some (.ofConfig d.config (transitioningPeers current id d)) := by
  have hmem : id ∈ desired.entries.map Prod.fst :=
    mem_desired_iff.mpr fun h => by rw [hd] at h; cases h
  unfold idealShardAssignmentsV2
  rw [sortedShardIDs_eq hsort horder]
  dsimp only
  rw [get?_assignShards_of_transitioning hd htrans]
  exact get?_initShards_of_transitioning hd htrans hmem _

variable (nodes) in
theorem get?_ideal_of_rest (hsort : sort.Lawful) (horder : order.Lawful)
    (htrim : NothingToTrim replicationFactor desired current) {id : ℕ} {d : DesiredShard}
    (hd : desired.get? id = some d) (hrest : d.state.transitioning = false) :
    ∃ load, (idealShardAssignmentsV2 sort order replicationFactor nodes desired current).get? id =
      some (.ofConfig d.config (chosenPeers sort replicationFactor nodes load
        (peersAt current id))) := by
  have hmem : id ∈ desired.entries.map Prod.fst :=
    mem_desired_iff.mpr fun h => by rw [hd] at h; cases h
  unfold idealShardAssignmentsV2
  rw [sortedShardIDs_eq hsort horder]
  exact get?_assignShards horder htrim hd hrest hmem _

theorem keys_ideal (hsort : sort.Lawful) (horder : order.Lawful)
    (htrim : NothingToTrim replicationFactor desired current) :
    (idealShardAssignmentsV2 sort order replicationFactor nodes desired current).entries.map
      Prod.fst = desired.entries.map Prod.fst := by
  have hsorted : ∀ {β : Type} (m : OrdMap ℕ β), (m.entries.map Prod.fst).Pairwise (· ≤ ·) := by
    intro β m
    rw [pairwise_map]
    exact m.sorted.imp fun h => h.le
  refine List.Perm.eq_of_pairwise' (hsorted _) (hsorted _) ?_
  refine (perm_ext_iff_of_nodup (nodup_keys _) desired.nodup_keys).mpr ?_
  intro id
  rw [mem_keys_iff, mem_keys_iff]
  cases hd : desired.get? id with
  | none =>
    rw [get?_ideal_of_none hsort horder hd]
    exact iff_of_false (absurd rfl) (absurd rfl)
  | some d =>
    refine iff_of_true ?_ (some_ne_none d)
    cases htrans : d.state.transitioning with
    | true =>
      rw [get?_ideal_of_transitioning hsort horder hd htrans]
      exact some_ne_none _
    | false =>
      obtain ⟨load, hget⟩ := get?_ideal_of_rest nodes hsort horder htrim hd htrans
      rw [hget]
      exact some_ne_none _

/-- The number of shards that have the node as a peer. -/
def shardsOn (shards : OrdMap ℕ ShardInfo) (node : ℕ) : ℕ :=
  shards.entries.countP fun e => decide (node ∈ e.2.peers)

theorem shardsOn_eq (shards : OrdMap ℕ ShardInfo) (node : ℕ) :
    shardsOn shards node =
      (shards.entries.map Prod.fst).countP fun id => decide (node ∈ peersAt shards id) := by
  unfold shardsOn
  rw [countP_map]
  refine countP_congr ?_
  rintro ⟨id, info⟩ he
  have hget := (shards.mem_entries_iff id info).mp he
  simp only [Function.comp_apply, peersAt, hget, elim_some]

theorem nodeLoad_assignShards (hsort : sort.Lawful) (horder : order.Lawful) (hnodes : nodes.Nodup)
    (htrim : NothingToTrim replicationFactor desired current)
    (hrest : ∀ id ∈ ids, ∃ d, desired.get? id = some d ∧ d.state.transitioning = false)
    (hnodup : ids.Nodup) (s : Assigning) (hbalanced : Balanced s.nodeLoad nodes.toFinset) :
    let t := ids.foldl (assignShard sort order replicationFactor nodes desired current) s
    Balanced t.nodeLoad nodes.toFinset ∧ ∀ node, t.nodeLoad node =
      s.nodeLoad node + ids.countP fun id => decide (node ∈ peersAt t.ideal id) := by
  induction ids generalizing s with
  | nil => exact ⟨hbalanced, fun _ => rfl⟩
  | cons id ids ih =>
    obtain ⟨hnot, hnodup'⟩ := nodup_cons.mp hnodup
    obtain ⟨d, hd, htrans⟩ := hrest id mem_cons_self
    have hstep := assignShard_eq sort nodes horder htrim hd htrans s
    have hfirst := chosenPeers_firstOf hsort hnodes s.nodeLoad (peersAt current id)
      replicationFactor
    obtain ⟨hbalanced', hload⟩ := ih (fun id' h => hrest id' (mem_cons_of_mem id h)) hnodup'
      (assignShard sort order replicationFactor nodes desired current s id) (by
        rw [hstep]
        exact hbalanced.addLoad hfirst fun a b h => h.load_le)
    refine ⟨hbalanced', fun node => ?_⟩
    have hpeers : peersAt (ids.foldl (assignShard sort order replicationFactor nodes desired
        current) (assignShard sort order replicationFactor nodes desired current s id)).ideal id =
        chosenPeers sort replicationFactor nodes s.nodeLoad (peersAt current id) := by
      unfold peersAt
      rw [get?_assignShards_of_notMem hnot, hstep, get?_insert, if_pos rfl]
      rfl
    have hhead : (assignShard sort order replicationFactor nodes desired current s id).nodeLoad
        node = s.nodeLoad node + if decide (node ∈ chosenPeers sort replicationFactor nodes
          s.nodeLoad (peersAt current id)) = true then 1 else 0 := by
      rw [hstep]
      dsimp only
      unfold addLoad
      by_cases hmem : node ∈
          chosenPeers sort replicationFactor nodes s.nodeLoad (peersAt current id)
      · rw [if_pos hmem, if_pos (decide_eq_true hmem)]
      · rw [if_neg hmem, if_neg (mt of_decide_eq_true hmem), Nat.add_zero]
    rw [foldl_cons, hload node, countP_cons, hpeers, hhead]
    omega

theorem chosenPeers_again (hsort : sort.Lawful) (hnodes : nodes.Nodup) :
    chosenPeers sort replicationFactor nodes load
        (chosenPeers sort replicationFactor nodes load keep) =
      chosenPeers sort replicationFactor nodes load keep :=
  (chosenPeers_firstOf hsort hnodes load _ replicationFactor).unique Preferred.asymm
    (chosenPeers_firstOf hsort hnodes load keep replicationFactor).again

theorem card_chosenPeers_le (hsort : sort.Lawful) (hnodes : nodes.Nodup) :
    (chosenPeers sort replicationFactor nodes load keep).card ≤ replicationFactor := by
  rw [(chosenPeers_firstOf hsort hnodes load keep replicationFactor).card]
  exact min_le_left _ _

theorem assignShards_again {current' : OrdMap ℕ ShardInfo} (hsort : sort.Lawful)
    (horder : order.Lawful) (hnodes : nodes.Nodup)
    (htrim : NothingToTrim replicationFactor desired current)
    (htrim' : NothingToTrim replicationFactor desired current') {ids : List ℕ} (hnodup : ids.Nodup)
    (s : Assigning)
    (hsame : ∀ id ∈ ids, ∀ d, desired.get? id = some d → d.state.transitioning = false →
      peersAt current' id = peersAt
        (ids.foldl (assignShard sort order replicationFactor nodes desired current) s).ideal id) :
    ids.foldl (assignShard sort order replicationFactor nodes desired current') s =
      ids.foldl (assignShard sort order replicationFactor nodes desired current) s := by
  induction ids generalizing s with
  | nil => rfl
  | cons id ids ih =>
    obtain ⟨hnot, hnodup'⟩ := nodup_cons.mp hnodup
    have hhead : assignShard sort order replicationFactor nodes desired current' s id =
        assignShard sort order replicationFactor nodes desired current s id := by
      cases hd : desired.get? id with
      | none =>
        unfold assignShard
        rw [hd]
      | some d =>
        cases htrans : d.state.transitioning with
        | true =>
          rw [assignShard_of_transitioning hd htrans, assignShard_of_transitioning hd htrans]
        | false =>
          have hstep := assignShard_eq sort nodes horder htrim hd htrans s
          have hpeers := hsame id mem_cons_self d hd htrans
          unfold peersAt at hpeers
          rw [foldl_cons, get?_assignShards_of_notMem hnot, hstep, get?_insert,
            if_pos rfl] at hpeers
          change peersAt current' id =
            chosenPeers sort replicationFactor nodes s.nodeLoad (peersAt current id) at hpeers
          rw [assignShard_eq sort nodes horder htrim' hd htrans, hstep, hpeers,
            chosenPeers_again hsort hnodes]
    rw [foldl_cons, foldl_cons, hhead]
    refine ih hnodup' _ fun id' hid' d hd htrans => ?_
    exact hsame id' (mem_cons_of_mem id hid') d hd htrans

theorem initShards_congr {current' : OrdMap ℕ ShardInfo} {ids : List ℕ}
    (hsame : ∀ id d, desired.get? id = some d → d.state.transitioning = true →
      transitioningPeers current' id d = transitioningPeers current id d) (s : Assigning) :
    ids.foldl (initShard order desired current') s =
      ids.foldl (initShard order desired current) s := by
  have hstep : initShard order desired current' = initShard order desired current := by
    funext s id
    unfold initShard
    cases hd : desired.get? id with
    | none => rfl
    | some d =>
      dsimp only
      cases htrans : d.state.transitioning with
      | true => rw [hsame id d hd htrans]
      | false => rfl
  rw [hstep]

theorem idealShardAssignmentsV2_of_peers {current' : OrdMap ℕ ShardInfo} (hsort : sort.Lawful)
    (horder : order.Lawful) (hnodes : nodes.Nodup)
    (htrim : NothingToTrim replicationFactor desired current)
    (htrim' : NothingToTrim replicationFactor desired current')
    (htrans : ∀ id d, desired.get? id = some d → d.state.transitioning = true →
      transitioningPeers current' id d = transitioningPeers current id d)
    (hrest : ∀ id d, desired.get? id = some d → d.state.transitioning = false →
      peersAt current' id = peersAt
        (idealShardAssignmentsV2 sort order replicationFactor nodes desired current) id) :
    idealShardAssignmentsV2 sort order replicationFactor nodes desired current' =
      idealShardAssignmentsV2 sort order replicationFactor nodes desired current := by
  have hnodup : (sortedShardIDs sort order desired).Nodup := by
    rw [sortedShardIDs_eq hsort horder]
    exact desired.nodup_keys
  unfold idealShardAssignmentsV2 at hrest ⊢
  dsimp only at hrest ⊢
  rw [initShards_congr htrans, assignShards_again hsort horder hnodes htrim htrim' hnodup]
  intro id _ d hd hd'
  exact hrest id d hd hd'

theorem idealShardAssignmentsV2_again (hsort : sort.Lawful) (horder : order.Lawful)
    (hnodes : nodes.Nodup) (htrim : NothingToTrim replicationFactor desired current) :
    idealShardAssignmentsV2 sort order replicationFactor nodes desired
        (idealShardAssignmentsV2 sort order replicationFactor nodes desired current) =
      idealShardAssignmentsV2 sort order replicationFactor nodes desired current := by
  refine idealShardAssignmentsV2_of_peers hsort horder hnodes htrim (.inr ?_) ?_ ?_
  · intro id d hd hrest
    obtain ⟨load, hget⟩ := get?_ideal_of_rest nodes hsort horder htrim hd hrest
    unfold peersAt
    rw [hget]
    exact card_chosenPeers_le hsort hnodes
  · intro id d hd htrans
    have hpeers : transitioningPeers
        (idealShardAssignmentsV2 sort order replicationFactor nodes desired current) id d =
          d.peers.getD (transitioningPeers current id d) := by
      conv_lhs => unfold transitioningPeers
      rw [get?_ideal_of_transitioning hsort horder hd htrans]
      rfl
    rw [hpeers]
    unfold transitioningPeers
    cases d.peers with
    | none => rfl
    | some ps => rfl
  · intro id d _ _
    rfl

variable (sort order replicationFactor nodes desired current) in
/-- Every shard at rest has as many active nodes as it should and no others, the nodes have equally
many shards up to one when no shard is in a transition, the order of iteration plays no role, and
assigning again changes nothing. -/
structure IdealAssignment : Prop where
  placed : ∀ id d, desired.get? id = some d → d.state.transitioning = false →
    ∃ info, (idealShardAssignmentsV2 sort order replicationFactor nodes desired current).get? id =
        some info ∧
      info.peers ⊆ nodes.toFinset ∧ info.peers.card = min replicationFactor nodes.length
  balanced : (∀ id d, desired.get? id = some d → d.state.transitioning = false) →
    ∀ a ∈ nodes, ∀ b ∈ nodes,
      shardsOn (idealShardAssignmentsV2 sort order replicationFactor nodes desired current) a ≤
        shardsOn (idealShardAssignmentsV2 sort order replicationFactor nodes desired current) b + 1
  unordered : ∀ order' : MapOrder, order'.Lawful →
    idealShardAssignmentsV2 sort order' replicationFactor nodes desired current =
      idealShardAssignmentsV2 sort order replicationFactor nodes desired current
  settled : idealShardAssignmentsV2 sort order replicationFactor nodes desired
      (idealShardAssignmentsV2 sort order replicationFactor nodes desired current) =
    idealShardAssignmentsV2 sort order replicationFactor nodes desired current

variable (order current) in
theorem nodeLoad_initShards (hrest : ∀ id d, desired.get? id = some d →
    d.state.transitioning = false) (ids : List ℕ) (s : Assigning) :
    (ids.foldl (initShard order desired current) s).nodeLoad = s.nodeLoad := by
  induction ids generalizing s with
  | nil => rfl
  | cons id ids ih =>
    refine (ih _).trans ?_
    unfold initShard
    cases hd : desired.get? id with
    | none => rfl
    | some d =>
      dsimp only
      rw [if_neg (by rw [hrest id d hd]; exact Bool.false_ne_true)]

theorem idealAssignment_of_nothingToTrim (hsort : sort.Lawful) (horder : order.Lawful)
    (hnodes : nodes.Nodup) (htrim : NothingToTrim replicationFactor desired current) :
    IdealAssignment sort order replicationFactor nodes desired current where
  placed id d hd hrest := by
    obtain ⟨load, hget⟩ := get?_ideal_of_rest nodes hsort horder htrim hd hrest
    have hfirst := chosenPeers_firstOf hsort hnodes load (peersAt current id) replicationFactor
    refine ⟨_, hget, hfirst.subset, ?_⟩
    rw [← toFinset_card_of_nodup hnodes]
    exact hfirst.card
  balanced hall a ha b hb := by
    have hrest : ∀ id ∈ desired.entries.map Prod.fst,
        ∃ d, desired.get? id = some d ∧ d.state.transitioning = false := by
      intro id hid
      obtain ⟨d, hd⟩ := ne_none_iff_exists'.mp (mem_desired_iff.mp hid)
      exact ⟨d, hd, hall id d hd⟩
    have hzero := nodeLoad_initShards order current hall
      (desired.entries.map Prod.fst) ⟨.empty, fun _ => 0⟩
    obtain ⟨hbalanced, hload⟩ := nodeLoad_assignShards hsort horder hnodes htrim hrest
      desired.nodup_keys
      ((desired.entries.map Prod.fst).foldl (initShard order desired current)
        ⟨.empty, fun _ => 0⟩) (by
          rw [hzero]
          exact fun _ _ _ _ => Nat.zero_le _)
    have hshards : ∀ node, shardsOn
        (idealShardAssignmentsV2 sort order replicationFactor nodes desired current) node =
          ((desired.entries.map Prod.fst).foldl
            (assignShard sort order replicationFactor nodes desired current)
            ((desired.entries.map Prod.fst).foldl (initShard order desired current)
              ⟨.empty, fun _ => 0⟩)).nodeLoad node := by
      intro node
      rw [shardsOn_eq, keys_ideal hsort horder htrim, hload node, hzero, Nat.zero_add]
      unfold idealShardAssignmentsV2
      rw [sortedShardIDs_eq hsort horder]
    rw [hshards, hshards]
    exact hbalanced a (mem_toFinset.mpr ha) b (mem_toFinset.mpr hb)
  unordered order' horder' := idealShardAssignmentsV2_congr hsort horder' horder
  settled := idealShardAssignmentsV2_again hsort horder hnodes htrim

theorem get?_ideal_of_trim (hsort : sort.Lawful) (horder : order.Lawful) {id : ℕ}
    {d : DesiredShard} (hrest : d.state.transitioning = false)
    (hover : replicationFactor < (peersAt current id).card) :
    (idealShardAssignmentsV2 sort order replicationFactor nodes (OrdMap.empty.insert id d)
      current).get? id = some (.ofConfig d.config
        (trimmedPeers sort order replicationFactor (fun _ => 0) id (peersAt current id))) := by
  have hd : (OrdMap.empty.insert id d).get? id = some d := by rw [get?_insert, if_pos rfl]
  have hkeys : (OrdMap.empty.insert id d).entries.map Prod.fst = [id] := rfl
  unfold idealShardAssignmentsV2
  rw [sortedShardIDs_eq hsort horder, hkeys]
  dsimp only [foldl_cons, foldl_nil]
  have hinit : initShard order (OrdMap.empty.insert id d) current ⟨.empty, fun _ => 0⟩ id =
      ⟨OrdMap.empty.insert id (.ofConfig d.config ∅), fun _ => 0⟩ := by
    unfold initShard
    rw [hd]
    dsimp only
    rw [hrest, if_neg Bool.false_ne_true]
  rw [hinit]
  unfold assignShard
  rw [hd]
  dsimp only
  rw [hrest, if_neg Bool.false_ne_true]
  change (if replicationFactor < (peersAt current id).card then _ else _ : Assigning).ideal.get? id
    = _
  rw [if_pos hover, get?_insert, if_pos rfl]
  rfl

theorem exists_mem_trimmedPeers (hsort : sort.Lawful) (horder : order.Lawful) (id : ℕ)
    (load : ℕ → ℕ) {ps : PeerSet} (hfactor : 0 < replicationFactor)
    (hover : replicationFactor < ps.card) :
    ∃ p, p ∈ trimmedPeers sort order replicationFactor load id ps := by
  have hlength : (sort (compareOn load) (sort compare (order.currentPeers id ps))).length =
      ps.card := by
    rw [(hsort.perm _ _).length_eq, (hsort.perm _ _).length_eq,
      (horder.currentPeers id ps).length_eq, Finset.length_sort]
  obtain ⟨p, hp⟩ := exists_mem_of_length_pos (l := (sort (compareOn load)
    (sort compare (order.currentPeers id ps))).take replicationFactor) (by
      rw [length_take, hlength]
      omega)
  exact ⟨p, mem_toFinset.mpr hp⟩

/-- A shard with too many peers is not cut back to active nodes when one of those that are left has
just become inactive. -/
theorem exists_not_placed (hsort : sort.Lawful) (horder : order.Lawful) {id : ℕ}
    {d : DesiredShard} (hfactor : 0 < replicationFactor) (hrest : d.state.transitioning = false)
    (hover : replicationFactor < (peersAt current id).card) :
    ∃ nodes : List ℕ, nodes.Nodup ∧ ¬ IdealAssignment sort order replicationFactor nodes
      (OrdMap.empty.insert id d) current := by
  obtain ⟨p, hp⟩ := exists_mem_trimmedPeers hsort horder id (fun _ => 0) hfactor hover
  refine ⟨((peersAt current id).sort (· ≤ ·)).erase p,
    (Finset.sort_nodup _ _).erase p, fun h => ?_⟩
  have hd : (OrdMap.empty.insert id d).get? id = some d := by rw [get?_insert, if_pos rfl]
  obtain ⟨info, hget, hsub, -⟩ := h.placed id d hd hrest
  rw [get?_ideal_of_trim hsort horder hrest hover] at hget
  obtain rfl := Option.some.inj hget
  have hmem := mem_toFinset.mp (hsub hp)
  exact (Finset.sort_nodup _ _).not_mem_erase hmem

end Loops

/-- The assignment is ideal where no shard at rest has to be cut back.  From given assignments it is
ideal for all active nodes and all desired shards exactly if none of them can have to be. -/
theorem idealAssignment_iff {sort : SortFunc} {order : MapOrder} (hsort : sort.Lawful)
    (horder : order.Lawful) (replicationFactor : ℕ) (current : OrdMap ℕ ShardInfo) :
    (∀ nodes desired, nodes.Nodup → NothingToTrim replicationFactor desired current →
      IdealAssignment sort order replicationFactor nodes desired current) ∧
    ((∀ nodes desired, nodes.Nodup →
        IdealAssignment sort order replicationFactor nodes desired current) ↔
      ∀ desired, NothingToTrim replicationFactor desired current) := by
  refine ⟨fun nodes desired hnodes htrim =>
    idealAssignment_of_nothingToTrim hsort horder hnodes htrim, ?_, ?_⟩
  · intro hideal desired
    by_contra htrim
    obtain ⟨hfactor, hover⟩ := not_or.mp htrim
    push Not at hover
    obtain ⟨id, d, -, hrest, hover⟩ := hover
    obtain ⟨nodes, hnodes, hnot⟩ := exists_not_placed hsort horder (Nat.pos_of_ne_zero hfactor)
      hrest hover
    exact hnot (hideal nodes _ hnodes)
  · intro htrim nodes desired hnodes
    exact idealAssignment_of_nothingToTrim hsort horder hnodes (htrim desired)

/-- What `slices.SortFunc` does with short slices. -/
def insertionSortFunc : SortFunc := fun cmp l => l.insertionSort fun a b => (cmp a b).isLE = true

theorem lawful_insertionSortFunc : insertionSortFunc.Lawful where
  perm cmp l := perm_insertionSort _ l
  sorted cmp l h := by
    have htrans : IsTrans ℕ fun a b => (cmp a b).isLE = true :=
      ⟨fun a b c hab hbc => Std.TransCmp.isLE_trans hab hbc⟩
    have htotal : Std.Total fun a b : ℕ => (cmp a b).isLE = true := by
      refine ⟨fun a b => ?_⟩
      cases hab : cmp a b with
      | gt =>
        right
        rw [Std.OrientedCmp.gt_iff_lt.mp hab]
        rfl
      | lt => exact .inl rfl
      | eq => exact .inl rfl
    refine (pairwise_insertionSort _ l).imp fun {a b} hle hgt => ?_
    rw [hgt] at hle
    cases hle

def ascendingOrder : MapOrder where
  desiredShards ids := ids
  transitioningPeers _ ps := ps.sort (· ≤ ·)
  currentPeers _ ps := ps.sort (· ≤ ·)
  assignedPeers _ ps := ps.sort (· ≤ ·)

theorem lawful_ascendingOrder : ascendingOrder.Lawful where
  desiredShards _ := .refl _
  transitioningPeers _ _ := .refl _
  currentPeers _ _ := .refl _
  assignedPeers _ _ := .refl _

def anyConfig : ShardConfig where
  byteRange := ⟨[], []⟩
  schema := []
  indexes := []
  restoreConfig := []

def shardAtRest : OrdMap ℕ DesiredShard := .ofList [(7, ⟨anyConfig, .default, none⟩)]

theorem shardAtRest_eq :
    shardAtRest = OrdMap.empty.insert 7 ⟨anyConfig, .default, none⟩ := rfl

/-- The shard is on four nodes, of which the first has been removed. -/
def shardOnFour : OrdMap ℕ ShardInfo := .ofList [(7, .ofConfig anyConfig {1, 2, 3, 4})]

/-- With three replicas, the shard stays on the removed node and leaves the active node `4`. -/
theorem removed_node_kept :
    peersAt (idealShardAssignmentsV2 insertionSortFunc ascendingOrder 3 [2, 3, 4] shardAtRest
        shardOnFour) 7 = {1, 2, 3} ∧
      ¬ IdealAssignment insertionSortFunc ascendingOrder 3 [2, 3, 4] shardAtRest shardOnFour := by
  have hsorted : ({1, 2, 3, 4} : PeerSet).sort (· ≤ ·) = [1, 2, 3, 4] :=
    (List.toFinset_sort (· ≤ ·) (l := [1, 2, 3, 4]) (by decide)).mpr (by decide)
  have hpeers : peersAt (idealShardAssignmentsV2 insertionSortFunc ascendingOrder 3 [2, 3, 4]
      shardAtRest shardOnFour) 7 = {1, 2, 3} := by
    unfold peersAt
    have hget := @get?_ideal_of_trim insertionSortFunc ascendingOrder 3 [2, 3, 4] shardOnFour
      lawful_insertionSortFunc lawful_ascendingOrder 7 ⟨anyConfig, .default, none⟩ rfl (by decide)
    rw [shardAtRest_eq, hget]
    change trimmedPeers insertionSortFunc ascendingOrder 3 _ 7 {1, 2, 3, 4} = _
    unfold trimmedPeers ascendingOrder
    dsimp only
    rw [hsorted]
    decide
  refine ⟨hpeers, fun h => ?_⟩
  obtain ⟨info, hget, hsub, -⟩ := h.placed 7 ⟨anyConfig, .default, none⟩ rfl rfl
  unfold peersAt at hpeers
  rw [hget] at hpeers
  have hone : 1 ∈ info.peers := by
    rw [show info.peers = {1, 2, 3} from hpeers]
    decide
  exact absurd (hsub hone) (by decide)

def threeAtRest : OrdMap ℕ DesiredShard :=
  .ofList ([7, 8, 9].map fun id => (id, ⟨anyConfig, .default, none⟩))

def onRemovedNode : OrdMap ℕ ShardInfo :=
  .ofList [(7, .ofConfig anyConfig {1, 2, 3}), (8, .ofConfig anyConfig {1, 2, 3})]

/-- Two shards move from the removed node `1`, and a third one is new. -/
theorem idealAssignment_moved :
    IdealAssignment insertionSortFunc ascendingOrder 3 [2, 3, 4, 5] threeAtRest onRemovedNode := by
  refine (idealAssignment_iff lawful_insertionSortFunc lawful_ascendingOrder 3 onRemovedNode).1
    [2, 3, 4, 5] threeAtRest (by decide) (Or.inr fun id _ _ _ => ?_)
  unfold peersAt
  cases hget : onRemovedNode.get? id with
  | none => exact Nat.zero_le 3
  | some info =>
    have hfew : ∀ e ∈ onRemovedNode.entries, e.2.peers.card ≤ 3 := by decide
    exact hfew (id, info) ((mem_entries_iff _ _ _).mpr hget)

end Antfly
