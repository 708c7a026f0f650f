import Antfly.Cluster.Transitions
import Antfly.Lib.Runs

/-!
A shard never splits and merges at once, the two copies of its states agree, and the range a
running split can reach back to ends no earlier than the shard.  A shard that is merged is at rest
or waits for its merge in the metadata, so it is never the child of a split.
-/

namespace Antfly

open List Option OrdMap Fallible

namespace StoreDB

/-- The ranges and states of a shard, as both of its copies hold them. -/
structure Ownership where
  byteRange : Range
  coreRange : Range
  splitState : Option SplitState
  coreSplit : Option SplitState
  mergeState : Option MergeState
  coreMerge : Option MergeState

def ownership (s : StoreDB) : Ownership where
  byteRange := s.byteRange
  coreRange := s.coreDB.byteRange
  splitState := s.splitState
  coreSplit := s.coreDB.splitState
  mergeState := s.mergeState
  coreMerge := s.coreDB.mergeState

variable (c : Codec) (s : StoreDB)

theorem ownership_withCore {db : DBImpl} (h : db.config = s.coreDB.config) :
    (s.withCore db).ownership = s.ownership := by
  have hrange := congrArg DBConfig.byteRange h
  have hsplit := congrArg DBConfig.splitState h
  have hmerge := congrArg DBConfig.mergeState h
  simp only [DBImpl.config] at hrange hsplit hmerge
  simp [ownership, withCore, hrange, hsplit, hmerge]

theorem ownership_isData {op : RaftOp} (hop : op.isData = true) :
    (s.applyOp c op).1.ownership = s.ownership := by
  obtain ⟨db, hdb, hconfig⟩ := applyOp_isData c s hop
  rw [hdb]
  exact s.ownership_withCore hconfig

theorem ownership_setSplitState (state : Option SplitState) :
    (s.applyOpSetSplitState state).ownership =
      { s.ownership with
        byteRange := s.restoredRange state, splitState := state, coreSplit := state } := by
  rcases state with _ | ⟨_ | _ | _ | _ | _, _, _, _⟩ <;> rfl

theorem ownership_setMergeState (state : Option MergeState) :
    (s.applyOpSetMergeState state).ownership =
      { s.ownership with mergeState := state, coreMerge := state } := by
  rcases state with
    _ | ⟨_ | _ | _ | _ | _ | _, _, _, _, _, _, _, _, _, _, _, _ | _, _ | _, _⟩ <;> rfl

theorem ownership_split (splitKey : Bytes) :
    (s.applyOpSplit splitKey).1.ownership = s.ownership ∨
      s.byteRange.contains splitKey = true ∧ (s.applyOpSplit splitKey).1.ownership =
        { s.ownership with
          byteRange := ⟨s.byteRange.start, splitKey⟩
          coreRange := ⟨s.byteRange.start, splitKey⟩ } := by
  unfold applyOpSplit
  split
  · exact .inl rfl
  · rename_i hcontains
    exact .inr ⟨by simpa using hcontains, rfl⟩

/-- An attempt to finalize a split is refused, ends in the finalizing phase, or drops the split
state and gives `DBImpl` the range of `StoreDB`. -/
theorem ownership_finalizeSplit (newRangeEnd : Bytes) (childReplayed : Bool) :
    (s.applyOpFinalizeSplit newRangeEnd childReplayed).1.ownership = s.ownership ∨
      (∃ st, s.splitState = some st ∧
        (s.applyOpFinalizeSplit newRangeEnd childReplayed).1.ownership =
          { s.ownership with
            splitState := some { st with phase := .finalizing }
            coreSplit := some { st with phase := .finalizing } }) ∨
      (s.applyOpFinalizeSplit newRangeEnd childReplayed).1.ownership =
        { s.ownership with coreRange := s.byteRange, splitState := none, coreSplit := none } := by
  have hfixed : (s.withCore (fixSplitDeltaFinalSeq s.coreDB)).ownership = s.ownership := by
    apply ownership_withCore
    unfold fixSplitDeltaFinalSeq
    split <;> rfl
  unfold applyOpFinalizeSplit
  split
  · exact .inl rfl
  · rcases hst : s.splitState with _ | st
    · exact .inl rfl
    · simp only
      have hphase : ∀ finalizing : StoreDB, finalizing =
            (if st.phase = .finalizing then s.withCore (fixSplitDeltaFinalSeq s.coreDB)
              else (s.withCore (fixSplitDeltaFinalSeq s.coreDB)).applyOpSetSplitState
                (some { st with phase := .finalizing })) →
          finalizing.ownership = s.ownership ∨
            finalizing.ownership =
              { s.ownership with
                splitState := some { st with phase := .finalizing }
                coreSplit := some { st with phase := .finalizing } } := by
        rintro finalizing rfl
        split
        · exact .inl hfixed
        · rw [ownership_setSplitState, hfixed]
          exact .inr rfl
      split
      · rcases hphase _ rfl with h | h
        · exact .inl h
        · exact .inr (.inl ⟨st, rfl, h⟩)
      · refine .inr (.inr ?_)
        have hrange : ∀ finalizing : StoreDB, finalizing.ownership = s.ownership ∨
              finalizing.ownership =
                { s.ownership with
                  splitState := some { st with phase := .finalizing }
                  coreSplit := some { st with phase := .finalizing } } →
            finalizing.byteRange = s.byteRange ∧ finalizing.mergeState = s.mergeState ∧
              finalizing.coreDB.mergeState = s.coreDB.mergeState := by
          rintro finalizing (h | h)
          · exact ⟨congrArg Ownership.byteRange h, congrArg Ownership.mergeState h,
              congrArg Ownership.coreMerge h⟩
          · exact ⟨congrArg Ownership.byteRange h, congrArg Ownership.mergeState h,
              congrArg Ownership.coreMerge h⟩
        obtain ⟨hr, hm, hcm⟩ := hrange _ (hphase _ rfl)
        simp only [ownership, Ownership.mk.injEq]
        exact ⟨hr, rfl, trivial, rfl, hm, hcm⟩

end StoreDB

open StoreDB (Ownership)

/-- What holds of a running shard, given its entry among the statuses and its pending range. -/
structure ShardSound (id : ℕ) (status : Option ShardStatus) (pending : Option Range)
    (o : Ownership) : Prop where
  coreSplit : o.coreSplit = o.splitState
  coreMerge : o.coreMerge = o.mergeState
  exclusive : o.splitState = none ∨ o.mergeState = none
  splitting : ∀ st, o.splitState = some st → st.phase ≠ .none ∧ st.splitKey ≠ []
  reachesBack : ∀ st, o.splitState = some st → st.phase = .prepare ∨ st.phase = .splitting →
    st.originalRangeEnd = [] ∨
      (o.byteRange.stop ≠ [] ∧ o.byteRange.stop ≤ st.originalRangeEnd)
  merging : ∀ m, o.mergeState = some m → m.phase ≠ .none ∧
    (m.receiverShardID = id ∨ (m.phase = .finalizing → m.denyDonorWrites = true))
  mergingStatus : ∀ m st, o.mergeState = some m → status = some st →
    st.state = .default ∨ st.state = .preMerge
  preMerge : ∀ st, status = some st → st.state = .preMerge →
    o.splitState = none ∧ pending = none
  pending : pending ≠ none → o.splitState = none ∧ o.mergeState = none ∧
    ∀ st, status = some st → st.state = .default

/-- The invariant of a cluster in transition. -/
structure Cluster.Sound (s : Cluster) : Prop where
  shard : ∀ id n, s.nodes.get? id = some n →
    ShardSound id (s.tm.shardStatuses.get? id) (s.pendingRanges.get? id) n.store.ownership
  status : ∀ id st, s.tm.shardStatuses.get? id = some st →
    st.mergeState = none ∧ (st.state = .preSplit → st.byteRange.stop ≠ [])

namespace ShardSound

variable {id : ℕ} {status : Option ShardStatus} {pending : Option Range} {o : Ownership}

theorem of_quiet (hsplit : o.splitState = none) (hcore : o.coreSplit = none)
    (hmerge : o.mergeState = none) (hcoreMerge : o.coreMerge = none)
    (hpending : pending = none) : ShardSound id status pending o where
  coreSplit := by rw [hcore, hsplit]
  coreMerge := by rw [hcoreMerge, hmerge]
  exclusive := .inl hsplit
  splitting st h := by simp [hsplit] at h
  reachesBack st h := by simp [hsplit] at h
  merging m h := by simp [hmerge] at h
  mergingStatus m st h := by simp [hmerge] at h
  preMerge _ _ _ := ⟨hsplit, hpending⟩
  pending h := absurd hpending h

theorem setSplitState (h : ShardSound id status pending o) (hmerge : o.mergeState = none)
    (hpending : pending = none) {r : Range} {st : SplitState} (hphase : st.phase ≠ .none)
    (hkey : st.splitKey ≠ [])
    (hback : st.phase = .prepare ∨ st.phase = .splitting →
      st.originalRangeEnd = [] ∨ (r.stop ≠ [] ∧ r.stop ≤ st.originalRangeEnd))
    (hstatus : ∀ status', status = some status' → status'.state ≠ .preMerge) :
    ShardSound id status pending
      { o with byteRange := r, splitState := some st, coreSplit := some st } where
  coreSplit := rfl
  coreMerge := h.coreMerge
  exclusive := .inr hmerge
  splitting st' hst' := by
    cases hst'
    exact ⟨hphase, hkey⟩
  reachesBack st' hst' := by
    cases hst'
    exact hback
  merging := h.merging
  mergingStatus := h.mergingStatus
  preMerge st' hst' hpre := absurd hpre (hstatus st' hst')
  pending hp := absurd hpending hp

variable {st : SplitState} {r r' : Range} {m : MergeState}

theorem of_splitting (h : ShardSound id status pending o) (hst : o.splitState = some st) :
    o.mergeState = none ∧ pending = none ∧
      ∀ status', status = some status' → status'.state ≠ .preMerge := by
  have hmerge : o.mergeState = none := by
    rcases h.exclusive with hnone | hnone
    · simp [hst] at hnone
    · exact hnone
  have hpending : pending = none := by
    by_contra hp
    have hnone := (h.pending hp).1
    simp [hst] at hnone
  refine ⟨hmerge, hpending, fun status' hstatus hpre => ?_⟩
  have hnone := (h.preMerge status' hstatus hpre).1
  simp [hst] at hnone

theorem clearSplit (h : ShardSound id status pending o) :
    ShardSound id status pending
      { o with byteRange := r, coreRange := r', splitState := none, coreSplit := none } where
  coreSplit := rfl
  coreMerge := h.coreMerge
  exclusive := .inl rfl
  splitting st hst := by cases hst
  reachesBack st hst := by cases hst
  merging := h.merging
  mergingStatus := h.mergingStatus
  preMerge st hst hpre := ⟨rfl, (h.preMerge st hst hpre).2⟩
  pending hp := ⟨rfl, (h.pending hp).2⟩

theorem setMergeState (h : ShardSound id status pending o) (hsplit : o.splitState = none)
    (hpending : pending = none) (hphase : m.phase ≠ .none)
    (hdonor : m.receiverShardID = id ∨ (m.phase = .finalizing → m.denyDonorWrites = true))
    (hstatus : ∀ st, status = some st → st.state = .default ∨ st.state = .preMerge) :
    ShardSound id status pending { o with mergeState := some m, coreMerge := some m } where
  coreSplit := h.coreSplit
  coreMerge := rfl
  exclusive := .inl hsplit
  splitting := h.splitting
  reachesBack := h.reachesBack
  merging m' hm' := by
    cases hm'
    exact ⟨hphase, hdonor⟩
  mergingStatus _ st _ hst := hstatus st hst
  preMerge _ _ _ := ⟨hsplit, hpending⟩
  pending hp := absurd hpending hp

theorem changeMergeState (h : ShardSound id status pending o) {m' : MergeState}
    (hm : o.mergeState = some m) (hphase : m'.phase ≠ .none)
    (hdonor : m'.receiverShardID = id ∨ (m'.phase = .finalizing → m'.denyDonorWrites = true)) :
    ShardSound id status pending { o with mergeState := some m', coreMerge := some m' } := by
  have hsplit : o.splitState = none := by
    rcases h.exclusive with hnone | hnone
    · exact hnone
    · simp [hm] at hnone
  have hpending : pending = none := by
    by_contra hp
    have hnone := (h.pending hp).2.1
    simp [hm] at hnone
  exact h.setMergeState hsplit hpending hphase hdonor fun st hst => h.mergingStatus m st hm hst

theorem clearMerge (h : ShardSound id status pending o) :
    ShardSound id status pending { o with mergeState := none, coreMerge := none } where
  coreSplit := h.coreSplit
  coreMerge := rfl
  exclusive := .inr rfl
  splitting := h.splitting
  reachesBack := h.reachesBack
  merging m hm := by cases hm
  mergingStatus m st hm := by cases hm
  preMerge := h.preMerge
  pending hp := ⟨(h.pending hp).1, rfl, (h.pending hp).2.2⟩

theorem setRanges (h : ShardSound id status pending o) (hsplit : o.splitState = none) :
    ShardSound id status pending { o with byteRange := r, coreRange := r' } where
  coreSplit := h.coreSplit
  coreMerge := h.coreMerge
  exclusive := h.exclusive
  splitting := h.splitting
  reachesBack st hst := by
    change o.splitState = some st at hst
    simp [hsplit] at hst
  merging := h.merging
  mergingStatus := h.mergingStatus
  preMerge := h.preMerge
  pending := h.pending

end ShardSound

namespace Cluster

variable {c : Codec} {s s' : Cluster} {id : ℕ} {n : ShardNode}

theorem status?_eq (s : Cluster) (id : ℕ) :
    s.status? id = (s.tm.shardStatuses.get? id).map fun status =>
      (s.nodes.get? id).elim status status.reported :=
  get?_map _ _ id

theorem status?_eq_some {st : ShardStatus} (h : s.status? id = some st) :
    ∃ status, s.tm.shardStatuses.get? id = some status ∧ st.state = status.state ∧
      st.toShardConfig = status.toShardConfig ∧ st.table = status.table ∧
      (s.nodes.get? id = none → st = status) ∧
      ∀ n, s.nodes.get? id = some n → st = status.reported n := by
  rw [status?_eq, map_eq_some_iff] at h
  obtain ⟨status, hstatus, rfl⟩ := h
  refine ⟨status, hstatus, ?_⟩
  cases hn : s.nodes.get? id with
  | none => exact ⟨rfl, rfl, rfl, fun _ => rfl, fun n hn' => by simp at hn'⟩
  | some n =>
    refine ⟨rfl, rfl, rfl, fun hn' => by simp at hn', fun n' hn' => ?_⟩
    cases hn'
    rfl

theorem Sound.atRest (hs : s.Sound) (h : s.atRest id = true) :
    s.pendingRanges.get? id = none ∧
      (∃ status, s.tm.shardStatuses.get? id = some status ∧ status.state = .default) ∧
      ∀ n, s.nodes.get? id = some n → n.store.splitState = none ∧ n.store.mergeState = none := by
  unfold Cluster.atRest at h
  obtain ⟨st, hst, h⟩ := (any_eq_true _ _).mp h
  simp only [Bool.and_eq_true, Bool.not_eq_true', decide_eq_true_eq] at h
  obtain ⟨⟨⟨⟨⟨⟨⟨-, htrans⟩, hsplit⟩, hmerge⟩, -⟩, hoff⟩, hpre⟩, hpending⟩ := h
  obtain ⟨status, hstatus, hstate, -, -, -, hreported⟩ := status?_eq_some hst
  refine ⟨by simpa using hpending, ⟨status, hstatus, ?_⟩, fun n hn => ?_⟩
  · rw [← hstate]
    revert htrans hoff hpre
    cases st.state <;> simp [ShardState.transitioning]
  · have hsound := hs.shard id n hn
    have heq := hreported n hn
    rw [heq] at hsplit hmerge
    constructor
    · cases hsp : n.store.splitState with
      | none => rfl
      | some sp =>
        simp only [ShardStatus.reported, hsp, all_some, decide_eq_true_eq] at hsplit
        exact absurd hsplit (hsound.splitting sp hsp).1
    · cases hm : n.store.mergeState with
      | none => rfl
      | some m =>
        simp only [ShardStatus.reported, hm, all_some, decide_eq_true_eq] at hmerge
        exact absurd hmerge (hsound.merging m hm).1

theorem Sound.setNode (hs : s.Sound) {n' : ShardNode}
    (hn' : ShardSound id (s.tm.shardStatuses.get? id) (s.pendingRanges.get? id)
      n'.store.ownership) :
    ({ s with nodes := s.nodes.insert id n' } : Cluster).Sound where
  shard id' n hn := by
    rw [get?_insert] at hn
    split at hn
    · rename_i heq
      subst heq
      cases hn
      exact hn'
    · exact hs.shard id' n hn
  status := hs.status

variable {op : RaftOp} {status : Option ShardStatus} {pending : Option Range} {n : ShardNode}
variable {t : MergeTransition} {m : MergeState} {d : Option MergeState}

theorem applyAt_eq_some (h : s.applyAt c id op = some s') :
    ∃ n, s.nodes.get? id = some n ∧ s' =
      { s with nodes := s.nodes.insert id { n with store := (n.store.applyOp c op).1 } } := by
  obtain ⟨n, hn, heq⟩ := map_eq_some_iff.mp h
  exact ⟨n, hn, heq.symm⟩

theorem Sound.applyAt (hs : s.Sound) {op : RaftOp} (h : s.applyAt c id op = some s')
    (hop : ∀ n, s.nodes.get? id = some n →
      ShardSound id (s.tm.shardStatuses.get? id) (s.pendingRanges.get? id)
        (n.store.applyOp c op).1.ownership) : s'.Sound := by
  obtain ⟨n, hn, rfl⟩ := applyAt_eq_some h
  exact hs.setNode (hop n hn)

theorem findMedianKey_ne_nil {r : Range} {found key : Bytes}
    (h : findMedianKey r found = some key) : key ≠ [] := by
  rintro rfl
  unfold findMedianKey at h
  have hle : ∀ k : Bytes, ¬ k ≤ r.start → k ≠ [] := by
    rintro k hk rfl
    exact hk (Lex.nil_le _)
  dsimp only at h
  split at h
  · cases h
  · rename_i hstart
    split at h
    · cases h
    · exact hle _ hstart (Option.some.inj h)

theorem prepareSplit_sound {splitKey : Bytes} {now : Int}
    (h : ShardSound id status pending n.store.ownership)
    (hop : prepareSplitOp n splitKey now = some op) (hkey : splitKey ≠ [])
    (hmerge : n.store.mergeState = none) (hpending : pending = none)
    (hstatus : ∀ status', status = some status' → status'.state ≠ .preMerge) :
    ShardSound id status pending (n.store.applyOp c op).1.ownership := by
  unfold prepareSplitOp at hop
  split at hop
  · cases hop
    change ShardSound id status pending (n.store.applyOpSetSplitState _).ownership
    rw [StoreDB.ownership_setSplitState]
    refine h.setSplitState hmerge hpending (by simp) hkey (fun _ => ?_) hstatus
    by_cases hstop : n.store.byteRange.stop = []
    · exact .inl hstop
    · exact .inr ⟨hstop, le_refl _⟩
  · cases hop

theorem split_sound {st : SplitState} (h : ShardSound id status pending n.store.ownership)
    (hst : n.store.splitState = some st) (hphase : st.phase = .splitting) :
    ShardSound id status pending
      (n.store.applyOp c (.split st.newShardID st.splitKey)).1.ownership := by
  change ShardSound id status pending (n.store.applyOpSplit st.splitKey).1.ownership
  obtain ⟨hmerge, hpending, hstatus⟩ := h.of_splitting hst
  rcases n.store.ownership_split st.splitKey with heq | ⟨hcontains, heq⟩
  · rw [heq]
    exact h
  · rw [heq]
    have hkey := (h.splitting st hst).2
    have hback : st.originalRangeEnd = [] ∨
        (st.splitKey ≠ [] ∧ st.splitKey ≤ st.originalRangeEnd) := by
      rcases h.reachesBack st hst (.inr hphase) with hend | ⟨hne, hle⟩
      · exact .inl hend
      · have hlt := (Range.contains_iff.mp hcontains).2.resolve_left hne
        exact .inr ⟨hkey, hlt.le.trans hle⟩
    have hnew := h.setSplitState (r := ⟨n.store.byteRange.start, st.splitKey⟩) hmerge hpending
      (h.splitting st hst).1 hkey (fun _ => hback) hstatus
    exact
      { coreSplit := h.coreSplit
        coreMerge := h.coreMerge
        exclusive := h.exclusive
        splitting := h.splitting
        reachesBack := fun st' hst' => by
          have hsame : st' = st := Option.some.inj (hst'.symm.trans hst)
          rw [hsame]
          exact hnew.reachesBack st rfl
        merging := h.merging
        mergingStatus := h.mergingStatus
        preMerge := h.preMerge
        pending := h.pending }

theorem splitOp_sound (hs : s.Sound) {step : SplitStep} (hop : s.splitOp id step = some op)
    (hn : s.nodes.get? id = some n) :
    ShardSound id (s.tm.shardStatuses.get? id) (s.pendingRanges.get? id)
      (n.store.applyOp c op).1.ownership := by
  have h := hs.shard id n hn
  simp only [splitOp, hn, bind_eq_bind, bind_some, bind_eq_some_iff] at hop
  obtain ⟨status, hstatus, hop⟩ := hop
  obtain ⟨stored, hstored, hstate, hconf, -, -, -⟩ := status?_eq_some hstatus
  cases step with
  | prepare found now =>
    obtain ⟨key, hkey, hop⟩ := bind_eq_some_iff.mp hop
    split at hop
    · rename_i hrest
      obtain ⟨hpending, ⟨stored', hstored', hdefault⟩, hquiet⟩ := hs.atRest hrest
      refine prepareSplit_sound h hop (findMedianKey_ne_nil hkey) (hquiet n hn).2 hpending ?_
      intro status' hstatus' hpre
      rw [hstored'] at hstatus'
      cases hstatus'
      rw [hdefault] at hpre
      cases hpre
    · cases hop
  | prepareAgain now =>
    simp only at hop
    split at hop
    · rename_i hpreSplit
      rw [hstate] at hpreSplit
      have hmerge : n.store.mergeState = none := by
        rcases hm : n.store.mergeState with _ | m
        · rfl
        · rcases h.mergingStatus m stored hm hstored with hst | hst <;>
            rw [hpreSplit] at hst <;> cases hst
      have hpending : s.pendingRanges.get? id = none := by
        by_contra hp
        have hdefault := (h.pending hp).2.2 stored hstored
        rw [hpreSplit] at hdefault
        cases hdefault
      refine prepareSplit_sound h hop ?_ hmerge hpending ?_
      · rw [hconf]
        exact (hs.status id stored hstored).2 hpreSplit
      · intro status' hstatus' hpre
        rw [hstored] at hstatus'
        cases hstatus'
        rw [hpreSplit] at hpre
        cases hpre
    · cases hop
  | enterSplitting newShardID =>
    obtain ⟨st, hst, hop⟩ := bind_eq_some_iff.mp hop
    split at hop
    · rename_i hphase
      cases hop
      obtain ⟨hmerge, hpending, hpre⟩ := h.of_splitting hst
      change ShardSound id _ _ (n.store.applyOpSetSplitState _).ownership
      rw [StoreDB.ownership_setSplitState]
      exact h.setSplitState hmerge hpending (by simp) (h.splitting st hst).2
        (fun _ => h.reachesBack st hst (.inl hphase)) hpre
    · cases hop
  | split =>
    obtain ⟨st, hst, hop⟩ := bind_eq_some_iff.mp hop
    split at hop
    · rename_i hphase
      cases hop
      exact split_sound h hst hphase
    · cases hop
  | finalize childID childReplayed =>
    obtain ⟨st, hst, hop⟩ := bind_eq_some_iff.mp hop
    obtain ⟨child, -, hop⟩ := bind_eq_some_iff.mp hop
    split at hop
    · cases hop
      obtain ⟨hmerge, hpending, hpre⟩ := h.of_splitting hst
      change ShardSound id _ _ (n.store.applyOpFinalizeSplit _ _).1.ownership
      rcases n.store.ownership_finalizeSplit st.splitKey childReplayed with
        heq | ⟨st', hst', heq⟩ | heq
      · rw [heq]
        exact h
      · rw [heq]
        exact h.setSplitState hmerge hpending (by simp) (h.splitting st' hst').2 (by simp) hpre
      · rw [heq]
        exact h.clearSplit
    · cases hop
  | rollBack =>
    obtain ⟨st, hst, hop⟩ := bind_eq_some_iff.mp hop
    split at hop
    · cases hop
    · cases hop
      obtain ⟨hmerge, hpending, hpre⟩ := h.of_splitting hst
      change ShardSound id _ _ (n.store.applyOpSetSplitState _).ownership
      rw [StoreDB.ownership_setSplitState]
      exact h.setSplitState hmerge hpending (by simp) (h.splitting st hst).2 (by simp) hpre
  | clear =>
    obtain ⟨st, hst, hop⟩ := bind_eq_some_iff.mp hop
    split at hop
    · cases hop
      change ShardSound id _ _ (n.store.applyOpSetSplitState _).ownership
      rw [StoreDB.ownership_setSplitState]
      exact h.clearSplit
    · cases hop

theorem mergeStates_eq_some (h : s.mergeStates t = some (m, d)) :
    ∃ receiver donor, s.nodes.get? t.shardID = some receiver ∧
      s.nodes.get? t.mergeShardID = some donor ∧ receiver.store.mergeState = some m ∧
      donor.store.mergeState = d ∧ m.receiverShardID = t.shardID ∧
      m.donorShardID = t.mergeShardID := by
  simp only [mergeStates, bind_eq_bind, bind_eq_some_iff] at h
  obtain ⟨receiver, hreceiver, donor, hdonor, m', hm', h⟩ := h
  split at h
  · rename_i hids
    cases h
    exact ⟨receiver, donor, hreceiver, hdonor, hm', rfl, hids⟩
  · cases h

theorem changeReceiver_sound (hs : s.Sound) {m' : MergeState}
    (hstates : s.mergeStates t = some (m, d)) (hphase : m'.phase ≠ .none)
    (hreceiver : m'.receiverShardID = m.receiverShardID) (hn : s.nodes.get? t.shardID = some n) :
    ShardSound t.shardID (s.tm.shardStatuses.get? t.shardID) (s.pendingRanges.get? t.shardID)
      (n.store.applyOp c (.setMergeState (some m'))).1.ownership := by
  obtain ⟨receiver, -, hget, -, hm, -, hid, -⟩ := mergeStates_eq_some hstates
  rw [hn] at hget
  cases hget
  change ShardSound _ _ _ (n.store.applyOpSetMergeState _).ownership
  rw [StoreDB.ownership_setMergeState]
  exact (hs.shard _ n hn).changeMergeState hm hphase (.inl (hreceiver.trans hid))

theorem changeDonor_sound (hs : s.Sound) {d d' : MergeState}
    (hstates : s.mergeStates t = some (m, some d)) (hphase : d'.phase ≠ .none)
    (hdeny : d'.phase = .finalizing → d'.denyDonorWrites = true)
    (hn : s.nodes.get? t.mergeShardID = some n) :
    ShardSound t.mergeShardID (s.tm.shardStatuses.get? t.mergeShardID)
      (s.pendingRanges.get? t.mergeShardID)
      (n.store.applyOp c (.setMergeState (some d'))).1.ownership := by
  obtain ⟨-, donor, -, hget, -, hd, -, -⟩ := mergeStates_eq_some hstates
  rw [hn] at hget
  cases hget
  change ShardSound _ _ _ (n.store.applyOpSetMergeState _).ownership
  rw [StoreDB.ownership_setMergeState]
  exact (hs.shard _ n hn).changeMergeState hd hphase (.inr hdeny)

theorem clearMerge_sound (hs : s.Sound) (hn : s.nodes.get? id = some n) :
    ShardSound id (s.tm.shardStatuses.get? id) (s.pendingRanges.get? id)
      (n.store.applyOp c (.setMergeState none)).1.ownership := by
  change ShardSound _ _ _ (n.store.applyOpSetMergeState _).ownership
  rw [StoreDB.ownership_setMergeState]
  exact (hs.shard id n hn).clearMerge

theorem mergeOp_sound (hs : s.Sound) {step : MergeStep} (hop : s.mergeOp t step = some (id, op))
    (hn : s.nodes.get? id = some n) :
    ShardSound id (s.tm.shardStatuses.get? id) (s.pendingRanges.get? id)
      (n.store.applyOp c op).1.ownership := by
  have h := hs.shard id n hn
  cases step with
  | prepareDonor now =>
    simp only [mergeOp, bind_eq_bind, bind_eq_some_iff] at hop
    obtain ⟨receiver, -, donor, -, status, -, hop⟩ := hop
    split at hop
    · rename_i hguard
      cases hop
      obtain ⟨hpending, ⟨stored, hstored, hdefault⟩, hquiet⟩ := hs.atRest hguard.2.2.1
      change ShardSound _ _ _ (n.store.applyOpSetMergeState _).ownership
      rw [StoreDB.ownership_setMergeState]
      refine h.setMergeState (hquiet n hn).1 hpending (by simp [donorState])
        (.inr (by simp [donorState])) fun st hst => ?_
      rw [hstored] at hst
      cases hst
      exact .inl hdefault
    · cases hop
  | prepareReceiver =>
    simp only [mergeOp, bind_eq_bind, bind_eq_some_iff] at hop
    obtain ⟨receiver, -, donor, -, status, hstatus, d, -, hop⟩ := hop
    split at hop
    · rename_i hguard
      cases hop
      obtain ⟨hpre, -, hphase, hid, -⟩ := hguard
      obtain ⟨stored, hstored, hstate, -, -, -, -⟩ := status?_eq_some hstatus
      rw [hstate] at hpre
      obtain ⟨hsplit, hpending⟩ := h.preMerge stored hstored hpre
      change ShardSound _ _ _ (n.store.applyOpSetMergeState _).ownership
      rw [StoreDB.ownership_setMergeState]
      refine h.setMergeState hsplit hpending (by simp [hphase]) (.inl hid) fun st hst => ?_
      rw [hstored] at hst
      cases hst
      exact .inr hpre
    · cases hop
  | copyDonor =>
    simp only [mergeOp, bind_eq_bind, bind_eq_some_iff] at hop
    obtain ⟨⟨m, d⟩, hstates, d', hd, hop⟩ := hop
    cases hd
    split at hop
    · cases hop
      exact changeDonor_sound hs hstates (by simp) (by simp) hn
    · cases hop
  | copyReceiver =>
    simp only [mergeOp, bind_eq_bind, bind_eq_some_iff] at hop
    obtain ⟨⟨m, d⟩, hstates, d', hd, hop⟩ := hop
    split at hop
    · cases hop
      exact changeReceiver_sound hs hstates (by simp) rfl hn
    · cases hop
  | replay seq =>
    simp only [mergeOp, bind_eq_bind, bind_eq_some_iff] at hop
    obtain ⟨⟨m, d⟩, hstates, hop⟩ := hop
    simp only at hop
    split at hop
    · cases hop
    · cases hop
      obtain ⟨receiver, -, hget, -, hm, -, -, -⟩ := mergeStates_eq_some hstates
      exact changeReceiver_sound hs hstates ((hs.shard _ receiver hget).merging m hm).1 rfl hn
  | sealDonor =>
    simp only [mergeOp, bind_eq_bind, bind_eq_some_iff] at hop
    obtain ⟨⟨m, d⟩, hstates, d', hd, donor, -, hop⟩ := hop
    cases hd
    split at hop
    · cases hop
      exact changeDonor_sound hs hstates (by simp) (by simp) hn
    · cases hop
  | sealReceiver =>
    simp only [mergeOp, bind_eq_bind, bind_eq_some_iff] at hop
    obtain ⟨⟨m, d⟩, hstates, d', hd, hop⟩ := hop
    split at hop
    · cases hop
      exact changeReceiver_sound hs hstates (by simp) rfl hn
    · cases hop
  | finalizeReceiver =>
    simp only [mergeOp, bind_eq_bind, bind_eq_some_iff] at hop
    obtain ⟨⟨m, d⟩, hstates, status, -, hop⟩ := hop
    simp only at hop
    split at hop
    · cases hop
      obtain ⟨receiver, -, hget, -, hm, -, -, -⟩ := mergeStates_eq_some hstates
      rw [hn] at hget
      cases hget
      have hsplit : n.store.ownership.splitState = none := by
        rcases h.exclusive with hnone | hnone
        · exact hnone
        · change n.store.mergeState = none at hnone
          simp [hm] at hnone
      exact (h.clearMerge).setRanges hsplit
    · cases hop
  | rollBackReceiver =>
    simp only [mergeOp, bind_eq_bind, bind_eq_some_iff] at hop
    obtain ⟨⟨m, d⟩, hstates, hop⟩ := hop
    cases hop
    exact changeReceiver_sound hs hstates (by simp) rfl hn
  | clearDonor =>
    simp only [mergeOp, bind_eq_bind, bind_eq_some_iff] at hop
    obtain ⟨⟨m, d⟩, hstates, hop⟩ := hop
    simp only at hop
    split at hop
    · cases hop
      exact clearMerge_sound hs hn
    · cases hop
  | clearReceiver =>
    simp only [mergeOp, bind_eq_bind, bind_eq_some_iff] at hop
    obtain ⟨⟨m, d⟩, hstates, hop⟩ := hop
    simp only at hop
    split at hop
    · cases hop
      exact clearMerge_sound hs hn
    · cases hop

end Cluster

/-- The tables and statuses after an accepted operation. -/
inductive TableRewrite (tm tm' : TableManager) : TableOp → Prop where
  | split (t : SplitTransition) (table : TableDef) (conf parent child : ShardConfig)
      (status : ShardStatus) :
      tm.tables.get? t.tableName = some table → table.shards.get? t.shardID = some conf →
      tm.shardStatuses.get? t.shardID = some status →
      parent.byteRange = ⟨conf.byteRange.start, t.splitKey⟩ →
      (∀ x, tm'.shardStatuses.get? x =
        if x = t.splitShardID then
          some { ShardInfo.ofConfig child status.peers with
            id := t.splitShardID, table := t.tableName, state := .splittingOff }
        else if x = t.shardID then
          some { status with toShardConfig := parent, state := .preSplit }
        else tm.shardStatuses.get? x) →
      TableRewrite tm tm' (.split t)
  | prepareMerge (t : MergeTransition) (status : ShardStatus) :
      tm.shardStatuses.get? t.shardID = some status →
      (∀ name, tm'.tables.get? name = tm.tables.get? name) →
      (∀ x, tm'.shardStatuses.get? x =
        if x = t.shardID then some { status with state := .preMerge }
        else tm.shardStatuses.get? x) →
      TableRewrite tm tm' (.prepareMerge t)
  | merge (op : TableOp) (t : MergeTransition) (table table' : TableDef)
      (conf conf' merged : ShardConfig) (status : ShardStatus) (m : Option MergeState) :
      op = .merge t ∨ op = .finalizeMerge t → m = status.mergeState ∨ m = none →
      tm.tables.get? t.tableName = some table → table.shards.get? t.shardID = some conf →
      table.shards.get? t.mergeShardID = some conf' →
      mergedRange conf.byteRange conf'.byteRange = .ok merged.byteRange →
      tm'.tables = tm.tables.insert t.tableName table' →
      (∀ x, table'.shards.get? x = if x = t.mergeShardID then none
        else if x = t.shardID then some merged else table.shards.get? x) →
      tm.shardStatuses.get? t.shardID = some status →
      (∀ x, tm'.shardStatuses.get? x = if x = t.mergeShardID then none
        else if x = t.shardID then
          some { status with toShardConfig := merged, state := .default, mergeState := m }
        else tm.shardStatuses.get? x) →
      TableRewrite tm tm' op
  | rollbackMerge (t : MergeTransition) (receiver donor : ShardStatus) :
      tm.shardStatuses.get? t.shardID = some receiver →
      tm.shardStatuses.get? t.mergeShardID = some donor →
      (∀ name, tm'.tables.get? name = tm.tables.get? name) →
      (∀ x, tm'.shardStatuses.get? x =
        if x = t.mergeShardID then some { donor with mergeState := none }
        else if x = t.shardID then some { receiver with state := .default, mergeState := none }
        else tm.shardStatuses.get? x) →
      TableRewrite tm tm' (.rollbackMerge t)

private theorem get?_insert_self {tables : OrdMap Bytes TableDef} {name : Bytes} {table : TableDef}
    (h : tables.get? name = some table) (x : Bytes) :
    (tables.insert name table).get? x = tables.get? x := by
  rw [get?_insert]
  split
  · rename_i hx
    rw [hx, h]
  · rfl

theorem tableRewrite_of_apply {tm tm' : TableManager} {op : TableOp} (h : tm.apply op = .ok tm') :
    TableRewrite tm tm' op := by
  cases TableManager.applied h with
  | split t _ htable hconf hstatus parent child hparent =>
    refine .split t _ _ parent child _ htable hconf hstatus (by rw [hparent]) fun x => ?_
    simp only [TableManager.saveTableAndShardStatus, foldl_cons, foldl_nil, get?_insert]
  | @merge _ t _ conf _ r _ m hop hm htable hconf hconf' hr hstatus =>
    refine .merge _ t _ _ _ _ (TableManager.mergedConfig conf r) _ m hop hm htable hconf hconf' hr
      rfl
      (fun x => by rw [get?_erase, get?_insert]) hstatus fun x => ?_
    simp only [TableManager.saveTableAndShardStatus, foldl_cons, foldl_nil, get?_insert, get?_erase]
  | prepareMerge t htable _ hstatus =>
    refine .prepareMerge t _ hstatus (get?_insert_self htable) fun x => ?_
    simp only [TableManager.saveTableAndShardStatus, foldl_cons, foldl_nil, get?_insert]
  | rollbackMerge t htable _ _ hreceiver hdonor =>
    refine .rollbackMerge t _ _ hreceiver hdonor (get?_insert_self htable) fun x => ?_
    simp only [TableManager.saveTableAndShardStatus, foldl_cons, foldl_nil, get?_insert]

theorem ShardSound.reassign {id : ℕ} {status status' : Option ShardStatus}
    {pending pending' : Option Range} {o : Ownership} (h : ShardSound id status pending o)
    (hmerging : ∀ m st, o.mergeState = some m → status' = some st →
      st.state = .default ∨ st.state = .preMerge)
    (hpre : ∀ st, status' = some st → st.state = .preMerge → o.splitState = none ∧ pending' = none)
    (hpending : pending' ≠ none → o.splitState = none ∧ o.mergeState = none ∧
      ∀ st, status' = some st → st.state = .default) :
    ShardSound id status' pending' o where
  coreSplit := h.coreSplit
  coreMerge := h.coreMerge
  exclusive := h.exclusive
  splitting := h.splitting
  reachesBack := h.reachesBack
  merging := h.merging
  mergingStatus := hmerging
  preMerge := hpre
  pending := hpending

variable {status status' : Option ShardStatus} {pending : Option Range}

theorem ShardSound.toDefault {id : ℕ} {o : Ownership} (h : ShardSound id status pending o)
    (hdefault : ∀ st, status' = some st → st.state = .default) :
    ShardSound id status' pending o := by
  apply h.reassign
  · exact fun m st _ hst => .inl (hdefault st hst)
  · intro st hst hpre
    rw [hdefault st hst] at hpre
    cases hpre
  · exact fun hp => ⟨(h.pending hp).1, (h.pending hp).2.1, hdefault⟩

namespace Cluster

variable {c : Codec} {s s' : Cluster} {id : ℕ} {n : ShardNode}

theorem allows_split {t : SplitTransition} (h : s.allows (.split t) = true) :
    ∃ status n st, s.tm.shardStatuses.get? t.shardID = some status ∧ status.state = .default ∧
      s.tm.shardStatuses.get? t.splitShardID = none ∧ s.nodes.get? t.splitShardID = none ∧
      s.nodes.get? t.shardID = some n ∧ n.store.byteRange.stop = t.splitKey ∧
      n.store.splitState = some st ∧ st.phase = .splitting ∧ st.splitKey = t.splitKey := by
  simp only [allows] at h
  obtain ⟨status', hstatus, h⟩ := (any_eq_true _ _).mp h
  simp only [Bool.and_eq_true, decide_eq_true_eq, isNone_iff_eq_none] at h
  obtain ⟨⟨⟨⟨-, hstate⟩, hchild⟩, hchildNode⟩, h⟩ := h
  obtain ⟨n, hn, h⟩ := (any_eq_true _ _).mp h
  simp only [Bool.and_eq_true, decide_eq_true_eq] at h
  obtain ⟨hstop, h⟩ := h
  obtain ⟨st, hst, h⟩ := (any_eq_true _ _).mp h
  simp only [Bool.and_eq_true, decide_eq_true_eq] at h
  obtain ⟨status, hstatus', hstate', -, -, -, -⟩ := status?_eq_some hstatus
  rw [hstate'] at hstate
  rw [status?_eq, map_eq_none_iff] at hchild
  exact ⟨status, n, st, hstatus', hstate, hchild, hchildNode, hn, hstop, hst, h.1.1, h.1.2⟩

variable {tm : TableManager}

theorem Sound.split (hs : s.Sound) {t : SplitTransition} (hallow : s.allows (.split t) = true)
    (h : TableRewrite s.tm tm (.split t)) :
    ({ s with tm, pendingRanges := s.pendingAfter tm (.split t) } : Cluster).Sound := by
  cases h with
  | merge _ _ _ _ _ _ _ _ _ hkind => rcases hkind with h | h <;> cases h
  | split _ table conf parent child status htable hconf hstatus hparent hstatuses =>
    obtain ⟨status', n', st, hstatus', hdefault, -, hnone, hn', hstop, hst, -, hkey⟩ :=
      allows_split hallow
    rw [hstatus] at hstatus'
    cases hstatus'
    have hsplitKey : t.splitKey ≠ [] := by
      rw [← hkey]
      exact ((hs.shard _ n' hn').splitting st hst).2
    refine ⟨fun id n hn => ?_, fun id st' hst' => ?_⟩
    · change s.nodes.get? id = some n at hn
      change ShardSound id (tm.shardStatuses.get? id) (s.pendingRanges.get? id) _
      rw [hstatuses]
      by_cases hchild : id = t.splitShardID
      · rw [hchild, hnone] at hn
        cases hn
      · rw [if_neg hchild]
        by_cases hid : id = t.shardID
        · rw [if_pos hid]
          subst hid
          have hn'' : n' = n := Option.some.inj (hn'.symm.trans hn)
          subst hn''
          have h := hs.shard _ n' hn'
          obtain ⟨hmerge, hpending, -⟩ := h.of_splitting hst
          apply h.reassign
          · intro m _ hm
            rw [hmerge] at hm
            cases hm
          · intro _ hsome hpre
            cases hsome
            cases hpre
          · exact fun hp => absurd hpending hp
        · rw [if_neg hid]
          exact hs.shard id n hn
    · change tm.shardStatuses.get? id = some st' at hst'
      rw [hstatuses] at hst'
      split at hst'
      · cases hst'
        exact ⟨rfl, fun h => by cases h⟩
      · split at hst'
        · cases hst'
          refine ⟨(hs.status _ status hstatus).1, fun _ => ?_⟩
          change parent.byteRange.stop ≠ []
          rw [hparent]
          exact hsplitKey
        · exact hs.status id st' hst'

theorem Sound.prepareMerge (hs : s.Sound) {t : MergeTransition}
    (hallow : s.allows (.prepareMerge t) = true) (h : TableRewrite s.tm tm (.prepareMerge t)) :
    ({ s with tm, pendingRanges := s.pendingAfter tm (.prepareMerge t) } : Cluster).Sound := by
  cases h with
  | merge _ _ _ _ _ _ _ _ _ hkind => rcases hkind with h | h <;> cases h
  | prepareMerge _ status hstatus htables hstatuses =>
    simp only [allows, Bool.and_eq_true] at hallow
    obtain ⟨hpending, ⟨status', hstatus', hdefault⟩, hquiet⟩ := hs.atRest hallow.1.2
    refine ⟨fun id n hn => ?_, fun id st' hst' => ?_⟩
    · change s.nodes.get? id = some n at hn
      change ShardSound id (tm.shardStatuses.get? id) (s.pendingRanges.get? id) _
      rw [hstatuses]
      split
      · rename_i hid
        subst hid
        apply (hs.shard _ n hn).reassign
        · intro m st _ hsome
          cases hsome
          exact .inr rfl
        · exact fun _ _ _ => ⟨(hquiet n hn).1, hpending⟩
        · exact fun hp => absurd hpending hp
      · exact hs.shard id n hn
    · change tm.shardStatuses.get? id = some st' at hst'
      rw [hstatuses] at hst'
      split at hst'
      · cases hst'
        exact ⟨(hs.status _ status hstatus).1, fun h => by cases h⟩
      · exact hs.status id st' hst'

/-- Only a merge, which is finalized at once, makes the merged range a pending one. -/
theorem Sound.merge (hs : s.Sound) {t : MergeTransition} {op : TableOp}
    (hop : op = .merge t ∨ op = .finalizeMerge t) (hallow : s.allows op = true)
    (h : TableRewrite s.tm tm op) :
    ({ s with tm, pendingRanges := s.pendingAfter tm op } : Cluster).Sound := by
  cases h with
  | split | prepareMerge | rollbackMerge => rcases hop with hop | hop <;> cases hop
  | merge _ t table table' conf conf' merged status m hkind hm htable hconf hconf' hrange htables
      hshards hstatus hstatuses =>
      have hmnone : m = none := by
        rcases hm with rfl | rfl
        · exact (hs.status _ status hstatus).1
        · rfl
      have hstatus' : ∀ id st', tm.shardStatuses.get? id = some st' →
          st'.mergeState = none ∧ (st'.state = .preSplit → st'.byteRange.stop ≠ []) := by
        intro id st' hst'
        rw [hstatuses] at hst'
        split at hst'
        · cases hst'
        · split at hst'
          · cases hst'
            exact ⟨hmnone, fun h => by cases h⟩
          · exact hs.status id st' hst'
      have hother : ∀ id n, s.nodes.get? id = some n →
          ShardSound id (tm.shardStatuses.get? id) (s.pendingRanges.get? id)
            n.store.ownership := by
        intro id n hn
        have h := hs.shard id n hn
        rw [hstatuses]
        split
        · exact h.toDefault fun st hst => by cases hst
        · split
          · refine h.toDefault fun st hst => ?_
            cases hst
            rfl
          · exact h
      rcases hkind with rfl | rfl
      · simp only [allows, Bool.and_eq_true] at hallow
        obtain ⟨-, -, hquiet⟩ := hs.atRest hallow.1.2
        refine ⟨fun id n hn => ?_, hstatus'⟩
        change s.nodes.get? id = some n at hn
        have h := hother id n hn
        change ShardSound id (tm.shardStatuses.get? id)
          (((tm.shardStatuses.get? t.shardID).elim s.pendingRanges fun st =>
            s.pendingRanges.insert t.shardID st.byteRange).get? id) _
        cases hget : tm.shardStatuses.get? t.shardID with
        | none => exact h
        | some st =>
          rw [elim_some, get?_insert]
          split
          · rename_i hid
            subst hid
            have hdefault : ∀ st', tm.shardStatuses.get? t.shardID = some st' →
                st'.state = .default := by
              intro st' hst'
              rw [hstatuses] at hst'
              split at hst'
              · cases hst'
              · rw [if_pos rfl] at hst'
                cases hst'
                rfl
            apply h.reassign
            · exact fun m st' _ hst' => .inl (hdefault st' hst')
            · intro st' hst' hpre
              rw [hdefault st' hst'] at hpre
              cases hpre
            · exact fun _ => ⟨(hquiet n hn).1, (hquiet n hn).2, hdefault⟩
          · exact h
      · exact ⟨hother, hstatus'⟩

theorem Sound.rollbackMerge (hs : s.Sound) {t : MergeTransition}
    (h : TableRewrite s.tm tm (.rollbackMerge t)) :
    ({ s with tm, pendingRanges := s.pendingAfter tm (.rollbackMerge t) } : Cluster).Sound := by
  cases h with
  | merge _ _ _ _ _ _ _ _ _ hkind => rcases hkind with h | h <;> cases h
  | rollbackMerge _ receiver donor hreceiver hdonor htables hstatuses =>
    refine ⟨fun id n hn => ?_, fun id st' hst' => ?_⟩
    · change s.nodes.get? id = some n at hn
      change ShardSound id (tm.shardStatuses.get? id) (s.pendingRanges.get? id) _
      have h := hs.shard id n hn
      rw [hstatuses]
      split
      · rename_i hid
        subst hid
        apply h.reassign
        · intro m st hm hst
          cases hst
          exact h.mergingStatus m donor hm hdonor
        · intro st hst hpre
          cases hst
          exact h.preMerge donor hdonor hpre
        · intro hp
          refine ⟨(h.pending hp).1, (h.pending hp).2.1, fun st hst => ?_⟩
          cases hst
          exact (h.pending hp).2.2 donor hdonor
      · split
        · refine h.toDefault fun st hst => ?_
          cases hst
          rfl
        · exact h
    · change tm.shardStatuses.get? id = some st' at hst'
      rw [hstatuses] at hst'
      split at hst'
      · cases hst'
        exact ⟨rfl, (hs.status _ donor hdonor).2⟩
      · split at hst'
        · cases hst'
          exact ⟨rfl, fun h => by cases h⟩
        · exact hs.status id st' hst'

/-- The tables, statuses and pending ranges after a rewrite that the reconciler makes. -/
theorem Sound.table (hs : s.Sound) {op : TableOp} (hallow : s.allows op = true)
    (hop : s.tm.apply op = .ok tm) :
    ({ s with tm, pendingRanges := s.pendingAfter tm op } : Cluster).Sound := by
  have hrewrite := tableRewrite_of_apply hop
  cases op with
  | split t => exact hs.split hallow hrewrite
  | prepareMerge t => exact hs.prepareMerge hallow hrewrite
  | merge t => exact hs.merge (.inl rfl) hallow hrewrite
  | finalizeMerge t => exact hs.merge (.inr rfl) hallow hrewrite
  | rollbackMerge t => exact hs.rollbackMerge hrewrite

/-- A heartbeat leaves shards in the default state and shards of a merge where they are, and makes
no shard wait for its merge or its split. -/
theorem nextState_spec (s : Cluster) (n : ShardNode) (status : ShardStatus) :
    (status.state = .default ∨ status.state = .preMerge →
      s.nextState n status = status.state) ∧
    (s.nextState n status = .preMerge → status.state = .preMerge) ∧
    (s.nextState n status = .preSplit → status.state = .preSplit) := by
  unfold nextState
  refine ⟨?_, ?_, ?_⟩
  · rintro (h | h) <;> rw [h]
  · cases status.state <;> simp only <;> intro h <;> (repeat' split at h) <;> trivial
  · cases status.state <;> simp only <;> intro h <;> (repeat' split at h) <;> trivial

theorem Sound.heartbeat (hs : s.Sound) {status : ShardStatus} (hn : s.nodes.get? id = some n)
    (hstatus : s.tm.shardStatuses.get? id = some status) :
    ({ s with tm := { s.tm with
      shardStatuses := s.tm.shardStatuses.insert id
        { status with state := s.nextState n status } } } : Cluster).Sound := by
  obtain ⟨hkeep, hpre, hpreSplit⟩ := nextState_spec s n status
  refine ⟨fun id' n' hn' => ?_, fun id' st' hst' => ?_⟩
  · change s.nodes.get? id' = some n' at hn'
    have h := hs.shard id' n' hn'
    change ShardSound id' ((s.tm.shardStatuses.insert id _).get? id') (s.pendingRanges.get? id') _
    rw [get?_insert]
    split
    · rename_i hid
      subst hid
      apply h.reassign
      · intro m st hm hst
        cases hst
        have hold := h.mergingStatus m status hm hstatus
        change s.nextState n status = .default ∨ s.nextState n status = .preMerge
        rw [hkeep hold]
        exact hold
      · intro st hst hstate
        cases hst
        exact h.preMerge status hstatus (hpre hstate)
      · intro hp
        refine ⟨(h.pending hp).1, (h.pending hp).2.1, fun st hst => ?_⟩
        cases hst
        have hold := (h.pending hp).2.2 status hstatus
        change s.nextState n status = .default
        rw [hkeep (.inl hold), hold]
    · exact h
  · change (s.tm.shardStatuses.insert id _).get? id' = some st' at hst'
    rw [get?_insert] at hst'
    split at hst'
    · cases hst'
      exact ⟨(hs.status id status hstatus).1,
        fun h => (hs.status id status hstatus).2 (hpreSplit h)⟩
    · exact hs.status id' st' hst'

theorem Sound.step (hs : s.Sound) {e : Event} (h : s.step c e = some s') : s'.Sound := by
  cases e with
  | commit id op =>
    simp only [Cluster.step] at h
    split at h
    · rename_i hop
      refine hs.applyAt h fun n hn => ?_
      rw [StoreDB.ownership_isData c n.store hop]
      exact hs.shard id n hn
    · cases h
  | report id report =>
    obtain ⟨n, hn, heq⟩ := map_eq_some_iff.mp h
    subst heq
    exact hs.setNode (hs.shard id n hn)
  | heartbeat id =>
    simp only [Cluster.step, bind_eq_bind, bind_eq_some_iff] at h
    obtain ⟨n, hn, status, hstatus, heq⟩ := h
    cases heq
    exact hs.heartbeat hn hstatus
  | start id report =>
    simp only [Cluster.step, bind_eq_bind, bind_eq_some_iff] at h
    obtain ⟨status, hstatus, h⟩ := h
    split at h
    · cases h
    · rename_i hfree
      cases h
      have hpending : s.pendingRanges.get? id = none := by
        simp only [Bool.or_eq_true, not_or, Bool.not_eq_true, isSome_eq_false_iff,
          isNone_iff_eq_none] at hfree
        exact hfree.2
      have hsettled := StoreDB.create_settled status.byteRange
      exact hs.setNode (.of_quiet hsettled.splitState hsettled.coreSplitState
        hsettled.mergeState hsettled.coreMergeState hpending)
  | stop id =>
    simp only [Cluster.step] at h
    split at h
    · cases h
    · cases h
      refine ⟨fun id' n hn => ?_, hs.status⟩
      change (s.nodes.erase id).get? id' = some n at hn
      rw [get?_erase] at hn
      split at hn
      · cases hn
      · exact hs.shard id' n hn
  | split id step =>
    simp only [Cluster.step, bind_eq_bind, bind_eq_some_iff] at h
    obtain ⟨op, hop, h⟩ := h
    exact hs.applyAt h fun n hn => splitOp_sound hs hop hn
  | merge t step =>
    simp only [Cluster.step, bind_eq_bind, bind_eq_some_iff] at h
    obtain ⟨⟨id, op⟩, hop, h⟩ := h
    exact hs.applyAt h fun n hn => mergeOp_sound hs hop hn
  | table op =>
    simp only [Cluster.step] at h
    split at h
    · rename_i hallow
      split at h
      · rename_i tm hop
        cases h
        exact hs.table hallow hop
      · cases h
    · cases h
  | mergeRange id =>
    simp only [Cluster.step, bind_eq_bind, bind_eq_some_iff] at h
    obtain ⟨r, hr, s₁, h₁, heq⟩ := h
    cases heq
    have hs₁ : s₁.Sound := by
      refine hs.applyAt h₁ fun n hn => ?_
      have hn' := hs.shard id n hn
      exact hn'.setRanges (hn'.pending (by simp [hr])).1
    refine ⟨fun id' n hn => ?_, hs₁.status⟩
    have h' := hs₁.shard id' n hn
    change ShardSound id' (s₁.tm.shardStatuses.get? id') ((s₁.pendingRanges.erase id).get? id') _
    rw [get?_erase]
    split
    · apply h'.reassign h'.mergingStatus
      · exact fun st hst hpre => ⟨(h'.preMerge st hst hpre).1, rfl⟩
      · exact fun hp => absurd rfl hp
    · exact h'

theorem Calm.sound (h : s.Calm) : s.Sound where
  shard id n hn := by
    obtain ⟨st, -, hsettled⟩ := h.node id n hn
    exact .of_quiet hsettled.splitState hsettled.coreSplitState hsettled.mergeState
      hsettled.coreMergeState (by rw [h.pending]; rfl)
  status id st hst := by
    obtain ⟨hdefault, hmerge⟩ := h.status id st hst
    refine ⟨hmerge, fun hpre => ?_⟩
    rw [hdefault] at hpre
    cases hpre

theorem Sound.run (hs : s.Sound) {ok : Cluster → Event → Prop} {es : List Event}
    (h : Run (Cluster.step c) ok s es s') : s'.Sound :=
  h.invariant (fun _ _ _ _ hstep hsound => hsound.step hstep) hs

end Cluster

end Antfly
