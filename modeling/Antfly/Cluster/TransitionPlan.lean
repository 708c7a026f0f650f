import Antfly.Cluster.Assignments

/-!
A round makes the plan for where the shards are and where they should be, and applies it.  Shards
are started and stopped as a whole.  Of every other shard a round changes at most one member, and
it removes one only when all that should be there report or are voters.  After finitely many rounds
only ideal members report, and every ideal one reports or is a voter.
-/

namespace Antfly

open List OrdMap

def ShardInfo.started (config : ShardConfig) (peers : PeerSet) : ShardInfo :=
  { ShardInfo.ofConfig config peers with
    reportedBy := peers
    raftStatus := some ⟨0, peers⟩ }

/-- The status of a shard once a new member reports. -/
def ShardInfo.addPeer (s : ShardInfo) (p : ℕ) : ShardInfo :=
  { s with
    peers := insert p s.peers
    reportedBy := insert p s.reportedBy
    raftStatus := s.raftStatus.map fun r => { r with voters := insert p r.voters } }

/-- The status of a shard once a member has been removed and stopped. -/
def ShardInfo.removePeer (s : ShardInfo) (p : ℕ) : ShardInfo :=
  { s with
    peers := s.peers.erase p
    reportedBy := s.reportedBy.erase p
    raftStatus := s.raftStatus.map fun r => { r with voters := r.voters.erase p } }

def ShardInfo.transition (s : ShardInfo) (t : ShardTransition) : ShardInfo :=
  t.removePeers.foldl .removePeer (t.addPeers.foldl .addPeer s)

section Apply

variable (ideal : OrdMap ℕ ShardInfo)

def applyStart (shards : OrdMap ℕ ShardInfo) (t : ShardTransition) : OrdMap ℕ ShardInfo :=
  match ideal.get? t.shardID with
  | none => shards
  | some i => shards.insert t.shardID (.started i.toShardConfig t.addPeers.toFinset)

def applyTransition (shards : OrdMap ℕ ShardInfo) (t : ShardTransition) : OrdMap ℕ ShardInfo :=
  match shards.get? t.shardID with
  | none => shards
  | some s => shards.insert t.shardID (s.transition t)

/-- Where the shards are once every step of the plan has taken effect. -/
def applyPlan (shards : OrdMap ℕ ShardInfo) (plan : ShardTransitionPlan) : OrdMap ℕ ShardInfo :=
  let started := plan.starts.foldl (applyStart ideal) shards
  let stopped := plan.stops.foldl (fun shards t => shards.erase t.shardID) started
  plan.transitions.foldl applyTransition stopped

/-- One round of the reconciler. -/
def round (shards : OrdMap ℕ ShardInfo) : OrdMap ℕ ShardInfo :=
  applyPlan ideal shards (createShardTransitionPlan shards ideal)

end Apply

section Round

variable {current ideal shards : OrdMap ℕ ShardInfo} {id : ℕ} {i cur : ShardInfo}

variable {t : ShardTransition}

theorem memberChange_shardID (h : memberChange id cur i = some t) : t.shardID = id := by
  unfold memberChange at h
  dsimp only at h
  split at h
  · cases h
    rfl
  · cases h
    rfl
  · cases h

theorem mem_starts_iff :
    t ∈ (createShardTransitionPlan current ideal).starts ↔ ∃ id i, ideal.get? id = some i ∧
      needsStart (current.get? id) = true ∧ t = ⟨id, i.peers.sort (· ≤ ·), []⟩ := by
  unfold createShardTransitionPlan
  rw [mem_map]
  constructor
  · rintro ⟨⟨id, i⟩, he, rfl⟩
    obtain ⟨he, hstart⟩ := mem_filter.mp he
    exact ⟨id, i, (ideal.mem_entries_iff id i).mp he, hstart, rfl⟩
  · rintro ⟨id, i, hi, hstart, rfl⟩
    exact ⟨(id, i), mem_filter.mpr ⟨(ideal.mem_entries_iff id i).mpr hi, hstart⟩, rfl⟩

theorem mem_stops_iff :
    t ∈ (createShardTransitionPlan current ideal).stops ↔ ∃ id cur, current.get? id = some cur ∧
      ideal.get? id = none ∧ t = ⟨id, [], cur.peers.sort (· ≤ ·)⟩ := by
  unfold createShardTransitionPlan
  rw [mem_map]
  constructor
  · rintro ⟨⟨id, cur⟩, he, rfl⟩
    obtain ⟨he, hnone⟩ := mem_filter.mp he
    exact ⟨id, cur, (current.mem_entries_iff id cur).mp he, Option.isNone_iff_eq_none.mp hnone, rfl⟩
  · rintro ⟨id, cur, hcur, hnone, rfl⟩
    exact ⟨(id, cur), mem_filter.mpr ⟨(current.mem_entries_iff id cur).mpr hcur,
      Option.isNone_iff_eq_none.mpr hnone⟩, rfl⟩

theorem mem_transitions_iff :
    t ∈ (createShardTransitionPlan current ideal).transitions ↔ ∃ id cur i,
      current.get? id = some cur ∧ ideal.get? id = some i ∧ memberChange id cur i = some t := by
  unfold createShardTransitionPlan
  rw [mem_filterMap]
  constructor
  · rintro ⟨⟨id, cur⟩, he, ht⟩
    obtain ⟨i, hi, ht⟩ := Option.bind_eq_some_iff.mp ht
    exact ⟨id, cur, i, (current.mem_entries_iff id cur).mp he, hi, ht⟩
  · rintro ⟨id, cur, i, hcur, hi, ht⟩
    exact ⟨(id, cur), (current.mem_entries_iff id cur).mpr hcur,
      Option.bind_eq_some_iff.mpr ⟨i, hi, ht⟩⟩

theorem nodup_transitions :
    ((createShardTransitionPlan current ideal).transitions.map ShardTransition.shardID).Nodup := by
  unfold createShardTransitionPlan
  rw [List.Nodup, pairwise_map]
  refine List.Pairwise.filterMap _ ?_ current.sorted
  intro e e' hlt t ht t' ht'
  obtain ⟨i, -, ht⟩ := Option.bind_eq_some_iff.mp ht
  obtain ⟨i', -, ht'⟩ := Option.bind_eq_some_iff.mp ht'
  rw [memberChange_shardID ht, memberChange_shardID ht']
  exact hlt.ne

theorem nodup_starts :
    ((createShardTransitionPlan current ideal).starts.map ShardTransition.shardID).Nodup := by
  unfold createShardTransitionPlan
  rw [map_map]
  exact ideal.nodup_keys.sublist (filter_sublist.map _)

theorem get?_stops (stops : List ShardTransition) (shards : OrdMap ℕ ShardInfo) (k : ℕ) :
    (stops.foldl (fun shards t => shards.erase t.shardID) shards).get? k =
      if k ∈ stops.map ShardTransition.shardID then none else shards.get? k := by
  rw [← get?_foldl_erase, foldl_map]

theorem get?_applyStart (shards : OrdMap ℕ ShardInfo) (t : ShardTransition) (k : ℕ) :
    (applyStart ideal shards t).get? k = if k = t.shardID then
      ((ideal.get? t.shardID).map fun i => .started i.toShardConfig t.addPeers.toFinset).or
        (shards.get? k) else shards.get? k := by
  unfold applyStart
  cases ideal.get? t.shardID with
  | none =>
    dsimp only [Option.map_none]
    rw [Option.none_or, ite_self]
  | some i =>
    dsimp only [Option.map_some]
    rw [get?_insert, Option.some_or]

theorem get?_applyTransition (shards : OrdMap ℕ ShardInfo) (t : ShardTransition) (k : ℕ) :
    (applyTransition shards t).get? k = if k = t.shardID then
      (shards.get? k).map (ShardInfo.transition · t) else shards.get? k := by
  unfold applyTransition
  by_cases hk : k = t.shardID
  · rw [if_pos hk, hk]
    cases hget : shards.get? t.shardID with
    | none => exact hget
    | some s =>
      dsimp only
      rw [get?_insert, if_pos rfl]
      rfl
  · rw [if_neg hk]
    cases shards.get? t.shardID with
    | none => rfl
    | some s =>
      dsimp only
      rw [get?_insert, if_neg hk]

theorem sort_eq_nil_iff {ps : PeerSet} : ps.sort (· ≤ ·) = [] ↔ ps = ∅ := by
  constructor
  · intro h
    refine Finset.eq_empty_of_forall_notMem fun p hp => ?_
    rw [← Finset.mem_sort (· ≤ ·), h] at hp
    exact absurd hp not_mem_nil
  · rintro rfl
    exact Finset.sort_empty _

theorem sort_additions_eq_nil_iff {wanted reported voters : PeerSet} :
    ((wanted \ reported) \ voters).sort (· ≤ ·) = [] ↔ wanted ⊆ reported ∪ voters := by
  rw [sort_eq_nil_iff, sdiff_sdiff, Finset.sdiff_eq_empty_iff_subset]
  exact Iff.rfl

/-- What a round makes of a shard that should be there. -/
def settle (id : ℕ) (current : Option ShardInfo) (ideal : ShardInfo) : ShardInfo :=
  match current with
  | none => .started ideal.toShardConfig ideal.peers
  | some cur =>
    if needsStart (some cur) then .started ideal.toShardConfig ideal.peers
    else (memberChange id cur ideal).elim cur cur.transition

/-- A change adds an ideal member that neither reports nor votes.  It removes a member that is not
ideal only when there is none to add. -/
theorem memberChange_cases (h : memberChange id cur i = some t) :
    (∃ p, p ∈ i.peers ∧ p ∉ cur.reportedBy ∧ p ∉ votersOf cur.raftStatus ∧ t = ⟨id, [p], []⟩) ∨
      (i.peers ⊆ cur.reportedBy ∪ votersOf cur.raftStatus ∧
        ∃ p, p ∈ cur.reportedBy ∧ p ∉ i.peers ∧ t = ⟨id, [], [p]⟩) := by
  unfold memberChange at h
  dsimp only at h
  split at h
  · rename_i p ps hadd
    have hp : p ∈ (i.peers \ cur.reportedBy) \ votersOf cur.raftStatus := by
      rw [← Finset.mem_sort (· ≤ ·), hadd]
      exact mem_cons_self
    rw [Finset.mem_sdiff, Finset.mem_sdiff] at hp
    cases h
    exact Or.inl ⟨p, hp.1.1, hp.1.2, hp.2, rfl⟩
  · rename_i p ps hadd hremove
    have hp : p ∈ cur.reportedBy \ i.peers := by
      rw [← Finset.mem_sort (· ≤ ·), hremove]
      exact mem_cons_self
    rw [Finset.mem_sdiff] at hp
    cases h
    refine Or.inr ⟨?_, p, hp.1, hp.2, rfl⟩
    exact sort_additions_eq_nil_iff.mp hadd
  · cases h

theorem memberChange_eq_none_iff :
    memberChange id cur i = none ↔
      i.peers ⊆ cur.reportedBy ∪ votersOf cur.raftStatus ∧ cur.reportedBy ⊆ i.peers := by
  rw [← sort_additions_eq_nil_iff, ← Finset.sdiff_eq_empty_iff_subset, ← sort_eq_nil_iff]
  unfold memberChange
  dsimp only
  split
  · rename_i hcons
    rw [hcons]
    simp
  · rename_i hcons
    rw [hcons]
    simp
  · rename_i hnil hnil'
    rw [hnil, hnil']
    simp

theorem started_transition (h : memberChange id cur i = some t) (config : ShardConfig) :
    (ShardInfo.started config i.peers).transition t = .started config i.peers := by
  rcases memberChange_cases h with ⟨p, hp, -, -, rfl⟩ | ⟨-, p, -, hp, rfl⟩
  · change (ShardInfo.started config i.peers).addPeer p = _
    unfold ShardInfo.addPeer ShardInfo.started ShardInfo.ofConfig
    simp only [Finset.insert_eq_of_mem hp, Option.map_some]
  · change (ShardInfo.started config i.peers).removePeer p = _
    unfold ShardInfo.removePeer ShardInfo.started ShardInfo.ofConfig
    simp only [Finset.erase_eq_of_notMem hp, Option.map_some]

theorem get?_round_of_none (hi : ideal.get? id = none) : (round ideal current).get? id = none := by
  have hnotstart : ∀ t ∈ (createShardTransitionPlan current ideal).starts, t.shardID ≠ id := by
    rintro t ht rfl
    obtain ⟨id', i', hi', -, rfl⟩ := mem_starts_iff.mp ht
    rw [hi] at hi'
    cases hi'
  have hnottransition : ∀ t ∈ (createShardTransitionPlan current ideal).transitions,
      t.shardID ≠ id := by
    rintro t ht rfl
    obtain ⟨id', cur', i', -, hi', hchange⟩ := mem_transitions_iff.mp ht
    rw [memberChange_shardID hchange, hi'] at hi
    cases hi
  unfold round applyPlan
  dsimp only
  rw [get?_foldl_of_key_ne get?_applyTransition hnottransition, get?_stops,
    get?_foldl_of_key_ne get?_applyStart hnotstart]
  cases hcur : current.get? id with
  | none => exact ite_self none
  | some cur =>
    refine if_pos ?_
    exact mem_map.mpr ⟨_, mem_stops_iff.mpr ⟨id, cur, hcur, hi, rfl⟩, rfl⟩

theorem get?_round_of_some (hi : ideal.get? id = some i) :
    (round ideal current).get? id = some (settle id (current.get? id) i) := by
  have hnotstop : id ∉ (createShardTransitionPlan current ideal).stops.map
      ShardTransition.shardID := by
    intro hmem
    obtain ⟨t, ht, hid⟩ := mem_map.mp hmem
    obtain ⟨id', cur', -, hnone, rfl⟩ := mem_stops_iff.mp ht
    rw [show id' = id from hid, hi] at hnone
    cases hnone
  -- The shard when the transitions are applied.
  have hstart : ((createShardTransitionPlan current ideal).starts.foldl (applyStart ideal)
      current).get? id = if needsStart (current.get? id) then
        some (.started i.toShardConfig i.peers) else current.get? id := by
    by_cases hneeds : needsStart (current.get? id) = true
    · have hmem := mem_starts_iff.mpr ⟨id, i, hi, hneeds, rfl⟩
      have hget := get?_foldl_of_mem (@get?_applyStart ideal) nodup_starts hmem current
      dsimp only at hget
      rw [if_pos hneeds, hget, hi, Finset.sort_toFinset]
      rfl
    · rw [if_neg hneeds]
      refine get?_foldl_of_key_ne get?_applyStart ?_ current
      rintro t ht rfl
      obtain ⟨id', i', -, hneeds', rfl⟩ := mem_starts_iff.mp ht
      exact hneeds hneeds'
  have hstopped : ((createShardTransitionPlan current ideal).stops.foldl
      (fun shards t => shards.erase t.shardID) ((createShardTransitionPlan current
        ideal).starts.foldl (applyStart ideal) current)).get? id = if needsStart (current.get? id)
      then some (.started i.toShardConfig i.peers) else current.get? id := by
    rw [get?_stops, if_neg hnotstop, hstart]
  unfold round applyPlan
  dsimp only
  cases hcur : current.get? id with
  | none =>
    have hnot : ∀ t ∈ (createShardTransitionPlan current ideal).transitions,
        t.shardID ≠ id := by
      rintro t ht rfl
      obtain ⟨id', cur', i', hcur', -, hchange⟩ := mem_transitions_iff.mp ht
      rw [memberChange_shardID hchange, hcur'] at hcur
      cases hcur
    rw [get?_foldl_of_key_ne get?_applyTransition hnot, hstopped, hcur]
    rfl
  | some cur =>
    rw [hcur] at hstopped
    unfold settle
    dsimp only
    cases hchange : memberChange id cur i with
    | none =>
      have hnot : ∀ t ∈ (createShardTransitionPlan current ideal).transitions,
          t.shardID ≠ id := by
        rintro t ht rfl
        obtain ⟨id', cur', i', hcur', hi', hchange'⟩ := mem_transitions_iff.mp ht
        rw [memberChange_shardID hchange'] at hcur hi hchange
        obtain rfl := Option.some.inj (hcur'.symm.trans hcur)
        obtain rfl := Option.some.inj (hi'.symm.trans hi)
        rw [hchange] at hchange'
        cases hchange'
      rw [get?_foldl_of_key_ne get?_applyTransition hnot, hstopped]
      split <;> rfl
    | some t =>
      have hmem := mem_transitions_iff.mpr ⟨id, cur, i, hcur, hi, hchange⟩
      have hget := get?_foldl_of_mem get?_applyTransition nodup_transitions hmem
      rw [memberChange_shardID hchange] at hget
      rw [hget, hstopped]
      split
      · exact congrArg some (started_transition hchange _)
      · rfl

/-- The members to add and those to remove. -/
def distance (cur i : ShardInfo) : ℕ :=
  (i.peers \ (cur.reportedBy ∪ votersOf cur.raftStatus)).card + (cur.reportedBy \ i.peers).card

theorem distance_eq_zero_iff :
    distance cur i = 0 ↔
      i.peers ⊆ cur.reportedBy ∪ votersOf cur.raftStatus ∧ cur.reportedBy ⊆ i.peers := by
  unfold distance
  rw [Nat.add_eq_zero_iff, Finset.card_eq_zero, Finset.card_eq_zero,
    Finset.sdiff_eq_empty_iff_subset, Finset.sdiff_eq_empty_iff_subset]

theorem distance_started (config : ShardConfig) : distance (.started config i.peers) i = 0 :=
  distance_eq_zero_iff.mpr ⟨Finset.subset_union_left, Finset.Subset.refl _⟩

theorem votersOf_addPeer (s : ShardInfo) (p : ℕ) :
    votersOf (s.addPeer p).raftStatus ⊆ insert p (votersOf s.raftStatus) ∧
      votersOf s.raftStatus ⊆ votersOf (s.addPeer p).raftStatus := by
  unfold ShardInfo.addPeer votersOf
  cases s.raftStatus with
  | none => exact ⟨Finset.empty_subset _, Finset.Subset.refl _⟩
  | some r => exact ⟨Finset.Subset.refl _, Finset.subset_insert p _⟩

theorem votersOf_removePeer (s : ShardInfo) (p : ℕ) :
    votersOf (s.removePeer p).raftStatus = (votersOf s.raftStatus).erase p := by
  unfold ShardInfo.removePeer votersOf
  cases s.raftStatus with
  | none => rfl
  | some r => rfl

theorem distance_transition (h : memberChange id cur i = some t) :
    distance (cur.transition t) i < distance cur i := by
  rcases memberChange_cases h with ⟨p, hp, hreport, hvote, rfl⟩ | ⟨-, p, hreport, hp, rfl⟩
  · change distance (cur.addPeer p) i < _
    have hadd : i.peers \ ((cur.addPeer p).reportedBy ∪ votersOf (cur.addPeer p).raftStatus) ⊂
        i.peers \ (cur.reportedBy ∪ votersOf cur.raftStatus) := by
      rw [Finset.ssubset_iff_of_subset]
      · refine ⟨p, ?_, ?_⟩
        · rw [Finset.mem_sdiff, Finset.mem_union, not_or]
          exact ⟨hp, hreport, hvote⟩
        · rw [Finset.mem_sdiff, not_and_not_right]
          exact fun _ => Finset.mem_union_left _ (Finset.mem_insert_self p _)
      · refine Finset.sdiff_subset_sdiff (Finset.Subset.refl _) ?_
        exact Finset.union_subset_union (Finset.subset_insert p _) (votersOf_addPeer cur p).2
    have hremove : (cur.addPeer p).reportedBy \ i.peers = cur.reportedBy \ i.peers :=
      Finset.insert_sdiff_of_mem _ hp
    unfold distance
    rw [hremove]
    exact Nat.add_lt_add_right (Finset.card_lt_card hadd) _
  · change distance (cur.removePeer p) i < _
    have hadd : i.peers \ ((cur.removePeer p).reportedBy ∪
        votersOf (cur.removePeer p).raftStatus) =
          i.peers \ (cur.reportedBy ∪ votersOf cur.raftStatus) := by
      rw [votersOf_removePeer]
      change i.peers \ (cur.reportedBy.erase p ∪ (votersOf cur.raftStatus).erase p) = _
      rw [← Finset.erase_union_distrib]
      ext x
      rw [Finset.mem_sdiff, Finset.mem_sdiff, Finset.mem_erase]
      refine and_congr_right fun hx => not_congr (and_iff_right ?_)
      rintro rfl
      exact hp hx
    have hremove : (cur.removePeer p).reportedBy \ i.peers ⊂ cur.reportedBy \ i.peers := by
      rw [Finset.ssubset_iff_of_subset]
      · refine ⟨p, Finset.mem_sdiff.mpr ⟨hreport, hp⟩, ?_⟩
        rw [Finset.mem_sdiff, not_and]
        exact fun hmem => absurd hmem (Finset.notMem_erase p _)
      · exact Finset.sdiff_subset_sdiff (Finset.erase_subset p _) (Finset.Subset.refl _)
    unfold distance
    rw [hadd]
    exact Nat.add_lt_add_left (Finset.card_lt_card hremove) _

theorem distance_settle (cur : ShardInfo) :
    distance (settle id (some cur) i) i ≤ distance cur i - 1 := by
  unfold settle
  dsimp only
  split
  · rw [distance_started]
    exact Nat.zero_le _
  · cases hchange : memberChange id cur i with
    | none =>
      have hzero := distance_eq_zero_iff.mpr (memberChange_eq_none_iff.mp hchange)
      change distance cur i ≤ _
      rw [hzero]
    | some t => exact Nat.le_sub_one_of_lt (distance_transition hchange)

theorem run_settles {Keeps : ShardInfo → Prop} (hi : ideal.get? id = some i)
    (hkeeps : ∀ cur, Keeps cur → Keeps (settle id (some cur) i)) (n : ℕ)
    (hcur : shards.get? id = some cur) (hcurKeeps : Keeps cur) (hn : distance cur i ≤ n) :
    ∃ last, ((round ideal)^[n] shards).get? id = some last ∧ distance last i = 0 ∧ Keeps last := by
  induction n generalizing shards cur with
  | zero => exact ⟨cur, hcur, Nat.le_zero.mp hn, hcurKeeps⟩
  | succ n ih =>
    have hround : (round ideal shards).get? id = some (settle id (some cur) i) := by
      rw [get?_round_of_some hi, hcur]
    have hcloser : distance (settle id (some cur) i) i ≤ n :=
      (distance_settle cur).trans (Nat.sub_le_of_le_add hn)
    exact ih hround (hkeeps cur hcurKeeps) hcloser

/-- The peers are those that report, and no voter is yet to report. -/
def Consistent (s : ShardInfo) : Prop :=
  s.peers = s.reportedBy ∧ votersOf s.raftStatus ⊆ s.reportedBy

theorem consistent_started (config : ShardConfig) (peers : PeerSet) :
    Consistent (.started config peers) := ⟨rfl, Finset.Subset.refl _⟩

theorem Consistent.settle (h : Consistent cur) : Consistent (settle id (some cur) i) := by
  unfold Antfly.settle
  dsimp only
  split
  · exact consistent_started _ _
  · cases hchange : memberChange id cur i with
    | none => exact h
    | some t =>
      rcases memberChange_cases hchange with ⟨p, -, -, -, rfl⟩ | ⟨-, p, -, -, rfl⟩
      · change Consistent (cur.addPeer p)
        refine ⟨congrArg (insert p) h.1, (votersOf_addPeer cur p).1.trans ?_⟩
        exact Finset.insert_subset_insert p h.2
      · change Consistent (cur.removePeer p)
        refine ⟨congrArg (Finset.erase · p) h.1, ?_⟩
        rw [votersOf_removePeer]
        exact Finset.erase_subset_erase p h.2

/-- Where a run leaves a shard: only ideal members report, every ideal one reports or votes, and
the members of a consistent shard are the ideal ones. -/
structure Arrived (start : Option ShardInfo) (i last : ShardInfo) : Prop where
  reported : last.reportedBy ⊆ i.peers
  present : i.peers ⊆ last.reportedBy ∪ votersOf last.raftStatus
  exact : (∀ cur, start = some cur → Consistent cur) →
    last.peers = i.peers ∧ last.reportedBy = i.peers

theorem run_arrives (hi : ideal.get? id = some i) {n : ℕ}
    (hn : (current.get? id).elim 0 (distance · i) < n) :
    ∃ last, ((round ideal)^[n] current).get? id = some last ∧
      Arrived (current.get? id) i last := by
  obtain ⟨m, rfl⟩ := Nat.exists_eq_add_one_of_ne_zero (Nat.ne_zero_of_lt hn)
  have hround : (round ideal current).get? id = some (settle id (current.get? id) i) :=
    get?_round_of_some hi
  have hstart : distance (settle id (current.get? id) i) i ≤ m ∧
      ((∀ cur, current.get? id = some cur → Consistent cur) →
        Consistent (settle id (current.get? id) i)) := by
    cases hcur : current.get? id with
    | none => exact ⟨(distance_started _).le.trans (Nat.zero_le m), fun _ => consistent_started _ _⟩
    | some cur =>
      rw [hcur] at hn
      have hlt : distance cur i < m + 1 := hn
      refine ⟨(distance_settle cur).trans (by omega), fun h => (h cur rfl).settle⟩
  have hkeeps : ∀ cur, ((∀ cur, current.get? id = some cur → Consistent cur) → Consistent cur) →
      (∀ cur, current.get? id = some cur → Consistent cur) →
        Consistent (settle id (some cur) i) := fun cur h hall => (h hall).settle
  obtain ⟨last, hlast, hzero, hconsistent⟩ := run_settles hi hkeeps m hround hstart.2 hstart.1
  obtain ⟨hpresent, hreported⟩ := distance_eq_zero_iff.mp hzero
  refine ⟨last, hlast, hreported, hpresent, fun hall => ?_⟩
  obtain ⟨hpeers, hvoters⟩ := hconsistent hall
  have hexact : last.reportedBy = i.peers :=
    hreported.antisymm (hpresent.trans (Finset.union_subset (Finset.Subset.refl _) hvoters))
  exact ⟨hpeers.trans hexact, hexact⟩

/-- At most one node joins or leaves. -/
def ChangesOne (s t : ShardInfo) : Prop :=
  ∃ p, ∀ x, x ≠ p → (x ∈ t.peers ↔ x ∈ s.peers) ∧ (x ∈ t.reportedBy ↔ x ∈ s.reportedBy) ∧
    (x ∈ votersOf t.raftStatus ↔ x ∈ votersOf s.raftStatus)

theorem changesOne_refl (s : ShardInfo) : ChangesOne s s :=
  ⟨0, fun _ _ => ⟨Iff.rfl, Iff.rfl, Iff.rfl⟩⟩

theorem changesOne_addPeer (s : ShardInfo) (p : ℕ) : ChangesOne s (s.addPeer p) := by
  refine ⟨p, fun x hx => ⟨?_, ?_, fun h => ?_, fun h => (votersOf_addPeer s p).2 h⟩⟩
  · exact Finset.mem_insert.trans (or_iff_right hx)
  · exact Finset.mem_insert.trans (or_iff_right hx)
  · exact (Finset.mem_insert.mp ((votersOf_addPeer s p).1 h)).resolve_left hx

theorem changesOne_removePeer (s : ShardInfo) (p : ℕ) : ChangesOne s (s.removePeer p) := by
  refine ⟨p, fun x hx => ⟨?_, ?_, ?_⟩⟩
  · exact Finset.mem_erase.trans (and_iff_right hx)
  · exact Finset.mem_erase.trans (and_iff_right hx)
  · rw [votersOf_removePeer]
    exact Finset.mem_erase.trans (and_iff_right hx)

theorem changesOne_settle (hstart : needsStart (some cur) = false) :
    ChangesOne cur (settle id (some cur) i) := by
  unfold settle
  dsimp only
  rw [hstart, if_neg Bool.false_ne_true]
  cases hchange : memberChange id cur i with
  | none => exact changesOne_refl cur
  | some t =>
    rcases memberChange_cases hchange with ⟨p, -, -, -, rfl⟩ | ⟨-, p, -, -, rfl⟩
    · exact changesOne_addPeer cur p
    · exact changesOne_removePeer cur p

/-- The nodes that report a shard or vote in it, apart from one that is to be removed. -/
def remaining (cur : ShardInfo) (p : ℕ) : PeerSet :=
  (cur.reportedBy ∪ votersOf cur.raftStatus).erase p

/-- A member that is removed is not ideal, and all ideal ones remain, which is a quorum of them. -/
theorem removal_safe {p : ℕ} (h : memberChange id cur i = some t) (hp : p ∈ t.removePeers) :
    p ∉ i.peers ∧ i.peers ⊆ remaining cur p ∧
      (i.peers.Nonempty → i.peers.card / 2 + 1 ≤ (i.peers ∩ remaining cur p).card) := by
  rcases memberChange_cases h with ⟨q, -, -, -, rfl⟩ | ⟨hsub, q, -, hq, rfl⟩
  · exact absurd hp not_mem_nil
  · obtain rfl := mem_singleton.mp hp
    have hremain : i.peers ⊆ remaining cur p := Finset.subset_erase.mpr ⟨hsub, hq⟩
    refine ⟨hq, hremain, fun hne => ?_⟩
    have hpos := Finset.card_pos.mpr hne
    rw [Finset.inter_eq_left.mpr hremain]
    omega

end Round

/-- Shards are started and stopped as a whole, and of the others a round changes at most one member.
It removes a member only when all ideal ones report or vote, and they remain.  After finitely many
rounds the shards are where they should be. -/
theorem plans_converge (current ideal : OrdMap ℕ ShardInfo) :
    (∀ id, ideal.get? id = none → (round ideal current).get? id = none) ∧
    (∀ id i, ideal.get? id = some i → needsStart (current.get? id) = true →
      (round ideal current).get? id = some (.started i.toShardConfig i.peers)) ∧
    (∀ id i cur, ideal.get? id = some i → current.get? id = some cur →
      needsStart (some cur) = false →
      ∃ next, (round ideal current).get? id = some next ∧ ChangesOne cur next) ∧
    (∀ t ∈ (createShardTransitionPlan current ideal).transitions, ∀ p ∈ t.removePeers,
      ∃ cur i, current.get? t.shardID = some cur ∧ ideal.get? t.shardID = some i ∧
        p ∉ i.peers ∧ i.peers ⊆ remaining cur p ∧
        (i.peers.Nonempty → i.peers.card / 2 + 1 ≤ (i.peers ∩ remaining cur p).card)) ∧
    ∃ n, ∀ m, n ≤ m →
      (∀ id, ideal.get? id = none → ((round ideal)^[m] current).get? id = none) ∧
      ∀ id i, ideal.get? id = some i → ∃ last, ((round ideal)^[m] current).get? id = some last ∧
        Arrived (current.get? id) i last := by
  refine ⟨fun id hi => get?_round_of_none hi, ?_, ?_, ?_, ?_⟩
  · intro id i hi hstart
    rw [get?_round_of_some hi]
    unfold settle
    cases hcur : current.get? id with
    | none => rfl
    | some cur =>
      rw [hcur] at hstart
      dsimp only
      rw [if_pos hstart]
  · intro id i cur hi hcur hstart
    exact ⟨_, get?_round_of_some hi, hcur ▸ changesOne_settle hstart⟩
  · intro t ht p hp
    obtain ⟨id, cur, i, hcur, hi, hchange⟩ := mem_transitions_iff.mp ht
    rw [memberChange_shardID hchange]
    exact ⟨cur, i, hcur, hi, removal_safe hchange hp⟩
  · -- One round more than the farthest shard needs.
    have hbound : ∃ n, ∀ e ∈ ideal.entries, (current.get? e.1).elim 0 (distance · e.2) < n + 1 := by
      induction ideal.entries with
      | nil => exact ⟨0, fun e he => absurd he List.not_mem_nil⟩
      | cons e es ih =>
        obtain ⟨n, hn⟩ := ih
        refine ⟨max n ((current.get? e.1).elim 0 (distance · e.2)), fun e' he' => ?_⟩
        rcases List.mem_cons.mp he' with rfl | he'
        · exact Nat.lt_succ_of_le (le_max_right _ _)
        · exact (hn e' he').trans_le (Nat.succ_le_succ (le_max_left _ _))
    obtain ⟨n, hn⟩ := hbound
    refine ⟨n + 1, fun m hm => ⟨fun id hi => ?_, fun id i hi => ?_⟩⟩
    · obtain ⟨m, rfl⟩ := Nat.exists_eq_add_one_of_ne_zero (Nat.ne_zero_of_lt hm)
      rw [Function.iterate_succ_apply']
      exact get?_round_of_none hi
    · refine run_arrives hi (lt_of_lt_of_le ?_ hm)
      exact hn (id, i) ((ideal.mem_entries_iff id i).mpr hi)

/-- A shard whose new member, the voter `2`, has not reported yet. -/
def shardInTransit : ShardInfo :=
  { ShardInfo.ofConfig ⟨⟨[], []⟩, [], [], []⟩ {1, 2} with
    reportedBy := {1}
    raftStatus := some ⟨1, {1, 2}⟩ }

def shardOnTwo : ShardInfo := .ofConfig ⟨⟨[], []⟩, [], [], []⟩ {2}

def shardOnThree : ShardInfo := .ofConfig ⟨⟨[], []⟩, [], [], []⟩ {1, 2, 3}

/-- A round starts a shard on three nodes at once, and a member is removed while the ideal one is
yet to report. -/
theorem plan_not_single_steps :
    (round (.ofList [(7, shardOnThree)]) .empty).get? 7 =
        some (.started ⟨⟨[], []⟩, [], [], []⟩ {1, 2, 3}) ∧
      (∃ t ∈ (createShardTransitionPlan (.ofList [(7, shardInTransit)])
          (.ofList [(7, shardOnTwo)])).transitions, t.removePeers = [1]) ∧
      2 ∈ shardOnTwo.peers ∧ 2 ∉ shardInTransit.reportedBy := by
  have hstart : (round (.ofList [(7, shardOnThree)]) .empty).get? 7 =
      some (settle 7 none shardOnThree) := get?_round_of_some rfl
  refine ⟨hstart, ?_, by decide, by decide⟩
  cases hchange : memberChange 7 shardInTransit shardOnTwo with
  | none =>
    have hsub := (memberChange_eq_none_iff.mp hchange).2
    exact absurd hsub (by decide)
  | some t =>
    refine ⟨t, mem_transitions_iff.mpr ⟨7, shardInTransit, shardOnTwo, rfl, rfl, hchange⟩, ?_⟩
    rcases memberChange_cases hchange with ⟨p, hp, -, hvote, -⟩ | ⟨-, p, hreport, -, rfl⟩
    · rw [Finset.mem_singleton.mp hp] at hvote
      exact absurd hvote (by decide)
    · rw [Finset.mem_singleton.mp hreport]

end Antfly
