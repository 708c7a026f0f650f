import Antfly.Cluster.TransitionInvariant

/-!
A write goes to the shard that holds its key in the table, or to the parent of a split-off child
that cannot take over yet.  That shard validates the key twice, once for a running split and once
for a running merge, and either test can be passed by the shard's own range or by an additional
one.  No shard splits and merges at once, so the additional range of a split never passes the test
of the merge: only the shard's own range counts, and the split operation has taken the split-off
range out of it.
-/

namespace Antfly

namespace Cluster

/-- The shard a write of `id` goes to while no merge is sealed: the shard that holds the id in the
table, or the parent of a split-off child that cannot take over yet. -/
def writeTarget (s : Cluster) (table : TableDef) (id : Bytes) : Option ℕ := do
  let shardID ← findShardForKey table.ranges id
  let status ← s.status? shardID
  if shouldRouteWriteToParent status then
    (findParentShardForSplitOffStatus s.statuses status).toOption
  else some shardID

/-- The id lies in the range of the shard its writes go to, as `StoreDB` and as `DBImpl` hold it;
`DBImpl` may also hold it as a key of a donor the shard has accepted. -/
def InTargetRange (s : Cluster) (table : TableDef) (id : Bytes) : Prop :=
  ∃ shardID n, s.writeTarget table id = some shardID ∧ s.nodes.get? shardID = some n ∧
    n.store.byteRange.contains id = true ∧
    (n.store.coreDB.byteRange.contains id = true ∨
      isKeyInMergeDonorRangeForState id n.store.coreDB.mergeState = true)

variable {s : Cluster}

variable {id shardID : ℕ} {st : ShardStatus} {n : ShardNode} {status : Option ShardStatus}
variable {pending : Option Range} {key : Bytes}

theorem status?_mergeState (hs : s.Sound) (hst : s.status? id = some st) {m : MergeState}
    (hm : st.mergeState = some m) :
    ∃ n, s.nodes.get? id = some n ∧ n.store.mergeState = some m ∧
      (st.state = .default ∨ st.state = .preMerge) := by
  obtain ⟨stored, hstored, hstate, -, -, hnone, hsome⟩ := status?_eq_some hst
  cases hn : s.nodes.get? id with
  | none =>
    rw [hnone hn, (hs.status id stored hstored).1] at hm
    cases hm
  | some n =>
    have heq := hsome n hn
    rw [heq] at hm
    refine ⟨n, rfl, hm, ?_⟩
    rw [hstate]
    exact (hs.shard id n hn).mergingStatus m stored hm hstored

/-- While no merge is sealed, a write is redirected to a receiver only by that receiver itself. -/
theorem readyMergeReceiver_eq (hs : s.Sound) (hseal : s.Unsealed) {receiver : ℕ}
    (hst : s.status? id = some st) (h : readyMergeReceiver s.statuses st = some receiver) :
    receiver = id ∧ shouldRouteWriteToParent st = false := by
  unfold readyMergeReceiver at h
  split at h
  · cases h
  · rename_i m hm
    obtain ⟨n, hn, hnm, hstate⟩ := status?_mergeState hs hst hm
    have hwait : shouldRouteWriteToParent st = false := by
      unfold shouldRouteWriteToParent
      rcases hstate with hstate | hstate <;> rw [hstate]
    split at h
    · rename_i hguard
      have hreceiver : receiver = m.receiverShardID := by
        split at h
        · split at h
          · exact (Option.some.inj h).symm
          · cases h
        · cases h
      rcases ((hs.shard id n hn).merging m hnm).2 with hid | hdeny
      · exact ⟨hreceiver.trans hid, hwait⟩
      · have hopen := hseal id st m hst hm
        rw [hdeny hguard.1] at hopen
        cases hopen
    · cases h

theorem findWriteShardForKey_eq (hs : s.Sound) (hseal : s.Unsealed) (table : TableDef)
    (id : Bytes) : s.findWriteShardForKey table id = s.writeTarget table id := by
  unfold findWriteShardForKey writeTarget
  cases findShardForKey table.ranges id with
  | none => rfl
  | some shardID =>
    simp only [Option.bind_eq_bind, Option.bind_some]
    unfold resolveWriteShardID
    change _ = (s.statuses.get? shardID).bind _
    cases hst : s.statuses.get? shardID with
    | none => rfl
    | some st =>
      simp only [Option.bind_some]
      cases hready : readyMergeReceiver s.statuses st with
      | none =>
        cases hwait : shouldRouteWriteToParent st with
        | true => simp
        | false => simp [Except.toOption]
      | some receiver =>
        obtain ⟨hreceiver, hwait⟩ := readyMergeReceiver_eq hs hseal hst hready
        simp [hwait, hreceiver, Except.toOption]

theorem status?_of_writeTarget {table : TableDef} {id : Bytes}
    (h : s.writeTarget table id = some shardID) :
    ∃ st, s.status? shardID = some st := by
  simp only [writeTarget, Option.bind_eq_bind, Option.bind_eq_some_iff] at h
  obtain ⟨owner, -, st, hst, h⟩ := h
  split at h
  · unfold findParentShardForSplitOffStatus at h
    split at h
    · rename_i e he
      cases h
      exact ⟨e.2, (OrdMap.mem_entries_iff _ _ _).mp (List.mem_of_find?_eq_some he)⟩
    · cases h
  · cases h
    exact ⟨st, hst⟩

theorem not_denied (hseal : s.Unsealed) (hn : s.nodes.get? shardID = some n)
    (hst : s.status? shardID = some st) (id : Bytes) :
    shouldRejectDonorWriteDuringFinalize id n.store.mergeState = false := by
  obtain ⟨stored, -, -, -, -, -, hreported⟩ := status?_eq_some hst
  unfold shouldRejectDonorWriteDuringFinalize
  cases hm : n.store.mergeState with
  | none => rfl
  | some m =>
    have hopen := hseal shardID st m hst (by rw [hreported n hn]; exact hm)
    simp [hopen]

theorem not_both_ranges {o : StoreDB.Ownership} (h : ShardSound id status pending o) (key : Bytes)
    (hsplit : isKeyInSplitOffRangeForState key o.splitState = true)
    (hmerge : isKeyInMergeDonorRangeForState key o.mergeState = true) :
    False := by
  rcases h.exclusive with hnone | hnone
  · rw [hnone] at hsplit
    simp [isKeyInSplitOffRangeForState] at hsplit
  · rw [hnone] at hmerge
    simp [isKeyInMergeDonorRangeForState] at hmerge

theorem accepts_iff (h : ShardSound id status pending n.store.ownership)
    (hopen : shouldRejectDonorWriteDuringFinalize key n.store.mergeState = false) :
    n.store.Accepts key ↔ n.store.byteRange.contains key = true ∧
      (n.store.coreDB.byteRange.contains key = true ∨
        isKeyInMergeDonorRangeForState key n.store.coreDB.mergeState = true) := by
  have hboth := not_both_ranges h key
  have hmerge : n.store.coreDB.mergeState = n.store.mergeState := h.coreMerge
  have hsplit : n.store.coreDB.splitState = n.store.splitState := h.coreSplit
  simp only [StoreDB.ownership] at hboth
  simp only [StoreDB.Accepts, validateKey, ownsKey, isKeyOwnedDuringSplit, isKeyOwnedDuringMerge,
    hmerge, hsplit, hopen, Bool.not_false, Bool.true_and, Bool.and_eq_true, Bool.or_eq_true]
  constructor
  · rintro ⟨⟨hown | hoff, hown' | hdonor⟩, -, howned⟩
    · exact ⟨hown, howned⟩
    · exact ⟨hown, howned⟩
    · exact ⟨hown', howned⟩
    · exact (hboth hoff hdonor).elim
  · rintro ⟨hown, howned⟩
    refine ⟨⟨.inl hown, .inl hown⟩, ?_, howned⟩
    rcases howned with hcore | hdonor
    · exact .inl (.inl hcore)
    · exact .inr hdonor

theorem captures_of_contains (h : ShardSound id status pending n.store.ownership)
    (hown : n.store.byteRange.contains key = true) {st : SplitState}
    (hst : n.store.splitState = some st) (hphase : st.phase = .prepare ∨ st.phase = .splitting)
    (hkey : st.splitKey ≤ key) :
    capturesSplit n.store.coreDB key = true := by
  have hsplit : n.store.coreDB.splitState = some st := h.coreSplit.trans hst
  have hend : st.originalRangeEnd = [] ∨ key < st.originalRangeEnd := by
    rcases h.reachesBack st hst hphase with hend | ⟨hne, hle⟩
    · exact .inl hend
    · have hlt := (Range.contains_iff.mp hown).2.resolve_left hne
      exact .inr (hlt.trans_le hle)
  have hne : st.splitKey ≠ [] := (h.splitting st hst).2
  simp only [capturesSplit, hsplit, isKeyInSplitOffRangeForState, isActiveSplitPhase,
    Bool.and_eq_true, Bool.or_eq_true, decide_eq_true_eq, Bool.not_eq_true', List.isEmpty_iff,
    List.isEmpty_eq_false_iff]
  exact ⟨hphase, ⟨hne, hkey⟩, hend⟩

variable {c : Codec} {s₀ : Cluster}

/-- In every state a calm cluster reaches while no merge is sealed, a write is accepted, stored and
captured exactly when its id lies in the range of the shard it goes to. -/
theorem writes_accepted_iff (h₀ : s₀.Calm) {es : List Event}
    (hrun : Run.exec (Cluster.step c) s₀ es = some s) (hseal : s.Unsealed) {name : Bytes}
    {table : TableDef} (_ : s.tm.tables.get? name = some table) (id : Bytes) :
    s.AcceptsWrite table id ↔ s.InTargetRange table id := by
  have hrun' : Run (Cluster.step c) (fun _ _ => True) s₀ es s :=
    Run.of_exec _ _ (fun _ _ _ => trivial) hrun
  have hs : s.Sound := h₀.sound.run hrun'
  constructor
  · rintro ⟨shardID, n, hshard, hn, haccepts, -⟩
    rw [findWriteShardForKey_eq hs hseal] at hshard
    obtain ⟨st, hst⟩ := status?_of_writeTarget hshard
    exact ⟨shardID, n, hshard, hn,
      (accepts_iff (hs.shard _ n hn) (not_denied hseal hn hst id)).mp haccepts⟩
  · rintro ⟨shardID, n, hshard, hn, hown⟩
    obtain ⟨st, hst⟩ := status?_of_writeTarget hshard
    have hsound := hs.shard _ n hn
    refine ⟨shardID, n, ?_, hn,
      (accepts_iff hsound (not_denied hseal hn hst id)).mpr hown, ?_⟩
    · rw [findWriteShardForKey_eq hs hseal, hshard]
    · intro split hsplit hphase hkey
      exact captures_of_contains hsound hown.1 hsplit hphase hkey

def sampleConf : ShardConfig := ⟨⟨[], [0xFF]⟩, [], [], []⟩

def sampleTable : TableDef := ⟨.ofList [(1, sampleConf)]⟩

def sampleCluster : Cluster where
  tm :=
    { tables := .ofList [(ascii ['t'], sampleTable)]
      shardStatuses := .ofList [(1, { ShardInfo.ofConfig sampleConf ∅ with
        id := 1, table := ascii ['t'], state := .default })] }
  nodes := .ofList [(1,
    ⟨StoreDB.create sampleConf.byteRange, ⟨⟨1, ∅⟩, true, false, false, false, true, true⟩⟩)]
  pendingRanges := .empty

theorem get?_sample {α : Type} {k k' : ℕ} {v v' : α}
    (h : (OrdMap.ofList [(k, v)]).get? k' = some v') : k' = k ∧ v' = v := by
  have hmem := (OrdMap.get?_ofList (l := [(k, v)]) (by simp) k' v').mp h
  simpa using hmem

theorem sampleCluster_calm : sampleCluster.Calm where
  table name table h := by
    have hmem := (OrdMap.get?_ofList (l := [(ascii ['t'], sampleTable)]) (by simp) name table).mp h
    have heq : table = sampleTable := (by simpa using hmem : name = _ ∧ table = _).2
    subst heq
    refine ⟨fun id conf hconf => ?_, fun id id' conf conf' k hconf hconf' _ _ => ?_, fun k => ?_⟩
    · obtain ⟨-, rfl⟩ := get?_sample hconf
      exact .inr (by decide)
    · rw [(get?_sample hconf).1, (get?_sample hconf').1]
    · constructor
      · rintro ⟨id, conf, hconf, hk⟩
        obtain ⟨-, rfl⟩ := get?_sample hconf
        exact (Range.contains_iff.mp hk).2.resolve_left (by decide)
      · intro hk
        exact ⟨1, sampleConf, rfl, Range.contains_iff.mpr ⟨Lex.nil_le _, .inr hk⟩⟩
  shard name table id conf h hconf := by
    have hmem := (OrdMap.get?_ofList (l := [(ascii ['t'], sampleTable)]) (by simp) name table).mp h
    obtain ⟨rfl, rfl⟩ : name = ascii ['t'] ∧ table = sampleTable := by simpa using hmem
    obtain ⟨rfl, rfl⟩ := get?_sample hconf
    exact ⟨_, _, rfl, rfl, rfl, rfl⟩
  status id st h := by
    obtain ⟨rfl, rfl⟩ := get?_sample h
    exact ⟨rfl, rfl⟩
  node id n h := by
    obtain ⟨rfl, rfl⟩ := get?_sample h
    exact ⟨_, rfl, StoreDB.create_settled _⟩
  pending := rfl

/-- The shard prepares its split at `m:\x00` and enters the splitting phase. -/
def beforeSplit : List Event :=
  [.split 1 (.prepare (ascii ['m', ':']) 0), .split 1 (.enterSplitting 2)]

/-- Once the split operation is applied, the parent rejects a key of the split-off range that is
still routed to it, although the split is in its splitting phase and the statuses are current. -/
theorem narrowed_parent_rejects :
    sampleCluster.Calm ∧
      ∃ s table n st, Run.exec (Cluster.step Codec.emptyObject) sampleCluster
          (beforeSplit ++ [.split 1 .split]) = some s ∧ s.Unsealed ∧
        s.tm.tables.get? (ascii ['t']) = some table ∧ s.nodes.get? 1 = some n ∧
        leadOf n.report.raftStatus ≠ 0 ∧ n.store.splitState = some st ∧ st.phase = .splitting ∧
        st.splitKey ≤ ascii ['n'] ∧
        s.findWriteShardForKey table (ascii ['n']) = some 1 ∧
        ¬ s.AcceptsWrite table (ascii ['n']) := by
  refine ⟨sampleCluster_calm, _, _, _, _, rfl, ?_, rfl, rfl, by decide, rfl, rfl, by decide, rfl,
    ?_⟩
  · intro id st m hst hm
    obtain ⟨stored, hstored, -, -, -, -, hreported⟩ := status?_eq_some hst
    obtain ⟨rfl, -⟩ := get?_sample hstored
    have heq := hreported _ rfl
    rw [heq] at hm
    cases hm
  · rintro ⟨shardID, n, hshard, hn, ⟨hvalid, -⟩, -⟩
    have hid : (some 1 : Option ℕ) = some shardID := hshard
    cases hid
    have hnode := Option.some.inj hn
    subst hnode
    revert hvalid
    decide

/-- The cluster right before the split operation. -/
def splittingCluster : Cluster :=
  (Run.exec (Cluster.step Codec.emptyObject) sampleCluster beforeSplit).getD sampleCluster

theorem splittingCluster_run :
    Run.exec (Cluster.step Codec.emptyObject) sampleCluster beforeSplit = some splittingCluster :=
  rfl

/-- Before the split operation the parent takes the keys of the split-off range and captures
them. -/
theorem writes_accepted_while_splitting :
    splittingCluster.AcceptsWrite sampleTable (ascii ['n']) := by
  have htable : splittingCluster.tm.tables.get? (ascii ['t']) = some sampleTable := rfl
  refine (writes_accepted_iff sampleCluster_calm splittingCluster_run ?_ htable _).mpr ?_
  · intro id st m hst hm
    obtain ⟨stored, hstored, -, -, -, -, hreported⟩ := status?_eq_some hst
    obtain ⟨rfl, -⟩ := get?_sample hstored
    have heq := hreported _ rfl
    rw [heq] at hm
    cases hm
  · exact ⟨1, _, rfl, rfl, by decide, Or.inl (by decide)⟩

end Cluster

end Antfly
