import Antfly.Store.Routing
import Antfly.Store.StoreDB

/-!
A split narrows the range of a shard in three places: in `StoreDB`, in `DBImpl` and on disk.  A
rollback widens the copy in `StoreDB` only, and only when the original end is not the empty slice
of an unbounded range.  So a rollback restores the shard exactly when the split operation had not
been applied yet.
-/

namespace Antfly

variable (c : Codec)

/-- The state changes `RollbackSplit` proposes: to the rolling-back phase unless the shard is in
it already, then to no split at all. -/
def rollbackSplitOps (s : StoreDB) : List RaftOp :=
  match s.splitState with
  | none => []
  | some st =>
    if st.phase = .none then []
    else
      (if st.phase = .rollingBack then []
        else [.setSplitState (some { st with phase := .rollingBack })]) ++
      [.setSplitState none]

def rollbackSplit (s : StoreDB) : StoreDB :=
  s.applyLog c (rollbackSplitOps s)

/-- The records of the store that say which keys it owns. -/
def ownershipKeys : List Bytes := [byteRangeKey, splitStateKey, mergeStateKey]

/-- All three copies of the range are `r`, and no split or merge is running. -/
structure Settled (r : Range) (s : StoreDB) : Prop where
  byteRange : s.byteRange = r
  coreRange : s.coreDB.byteRange = r
  stored : s.coreDB.storedByteRange = some r
  splitState : s.splitState = none
  coreSplitState : s.coreDB.splitState = none
  storedSplitState : s.coreDB.storedSplitState = none
  mergeState : s.mergeState = none
  coreMergeState : s.coreDB.mergeState = none
  storedMergeState : s.coreDB.storedMergeState = none

theorem StoreDB.reopen_settled {s : StoreDB} (hsplit : s.coreDB.storedSplitState = none)
    (hmerge : s.coreDB.storedMergeState = none) {schema : Option Bytes} {given r : Range}
    (hrange : (s.coreDB.reopen schema given).byteRange = r) :
    Settled r (s.reopen schema given) := by
  have hsplit' : (s.coreDB.reopen schema given).splitState = none := by
    rw [DBImpl.reopen_splitState, hsplit]
  have hmerge' : (s.coreDB.reopen schema given).mergeState = none := by
    rw [DBImpl.reopen_mergeState, hmerge, ite_self]
  refine ⟨hrange, hrange, ?_, hsplit', hsplit', ?_, hmerge', hmerge', ?_⟩
  · change (s.coreDB.reopen schema given).storedByteRange = _
    have hget : (s.coreDB.reopen schema given).get? byteRangeKey =
        some (.byteRange (s.coreDB.reopen schema given).byteRange) := by
      rw [DBImpl.reopen_get?]
      rfl
    rw [DBImpl.storedByteRange, hget, hrange]
  · change (s.coreDB.reopen schema given).storedSplitState = _
    rw [DBImpl.storedSplitState, DBImpl.reopen_get?_of_ne _ _ _ (by decide)]
    exact hsplit
  · change (s.coreDB.reopen schema given).storedMergeState = _
    rw [DBImpl.storedMergeState, DBImpl.reopen_get?_of_ne _ _ _ (by decide)]
    exact hmerge

theorem StoreDB.create_settled (r : Range) : Settled r (StoreDB.create r) := by
  refine StoreDB.reopen_settled rfl rfl ?_
  rw [DBImpl.reopen_byteRange]
  obtain ⟨_ | ⟨a, lo⟩, _ | ⟨b, hi⟩⟩ := r <;> rfl

/-- The states of a split of `r` at `splitKey`, with a flag that tells whether the split operation
was applied.  Phase changes, attempts to finalize that time out, and data operations that leave
the shard's own records alone may come in any order and number. -/
inductive SplitRun (r : Range) (splitKey : Bytes) : StoreDB → Bool → Prop where
  | start {s : StoreDB} : Settled r s → SplitRun r splitKey s false
  | setPhase {s : StoreDB} {applied : Bool} (st : SplitState) :
      st.splitKey = splitKey → st.originalRangeEnd = r.stop →
      SplitRun r splitKey s applied →
      SplitRun r splitKey (s.applyOp c (.setSplitState (some st))).1 applied
  | split {s : StoreDB} {applied : Bool} (newShardID : Nat) :
      SplitRun r splitKey s applied →
      SplitRun r splitKey (s.applyOp c (.split newShardID splitKey)).1
        (applied || (s.applyOp c (.split newShardID splitKey)).2.isNone)
  | finalizeTimeout {s : StoreDB} {applied : Bool} (newRangeEnd : Bytes) :
      SplitRun r splitKey s applied →
      (s.applyOp c (.finalizeSplit newRangeEnd false)).2.isSome →
      SplitRun r splitKey (s.applyOp c (.finalizeSplit newRangeEnd false)).1 applied
  | data {s : StoreDB} {applied : Bool} (op : RaftOp) :
      op.isData = true →
      (∀ k ∈ ownershipKeys, (s.applyOp c op).1.coreDB.get? k = s.coreDB.get? k) →
      SplitRun r splitKey s applied → SplitRun r splitKey (s.applyOp c op).1 applied

/-- The shard takes a write of `key` at proposal time and stores it when it is applied. -/
def StoreDB.Accepts (s : StoreDB) (key : Bytes) : Prop :=
  validateKey key s.byteRange s.splitState s.mergeState = true ∧ ownsKey s.coreDB key = true

/-- The shard is back at the range `r`: all copies say so, and every key of `r` is accepted, also
after a restart that is given no range or the range `r`. -/
structure RolledBack (r : Range) (s : StoreDB) : Prop where
  byteRange : s.byteRange = r
  coreRange : s.coreDB.byteRange = r
  stored : s.coreDB.storedByteRange = some r
  accepts : ∀ key, r.contains key = true → s.Accepts key
  acceptsReopened : ∀ schema given, given = ⟨[], []⟩ ∨ given = r →
    ∀ key, r.contains key = true → (s.reopen schema given).Accepts key

section Records

variable (db : DBImpl) {x : Bytes}

private theorem get?_of_ops {db' : DBImpl} (ops : List PebbleOp) (hdb : db'.pdb = db.pdb.applyAll ops)
    (h : ∀ e ∈ ops, e.effect x = none) : db'.get? x = db.get? x := by
  rw [DBImpl.get?, hdb, OrdMap.get?_applyAll_of_untouched _ h]
  rfl

private theorem get?_clearSplitDeltaEntries (hx : x ∈ ownershipKeys) :
    db.clearSplitDeltaEntries.get? x = db.get? x := by
  refine get?_of_ops db _ rfl ?_
  simp only [ownershipKeys, List.mem_cons, List.not_mem_nil, or_false] at hx
  rcases hx with rfl | rfl | rfl <;> decide

private theorem get?_clearSplitDeltaFinalSeq (hx : x ∈ ownershipKeys) :
    db.clearSplitDeltaFinalSeq.get? x = db.get? x := by
  refine get?_of_ops db _ rfl ?_
  simp only [ownershipKeys, List.mem_cons, List.not_mem_nil, or_false] at hx
  rcases hx with rfl | rfl | rfl <;> decide

private theorem get?_setSplitDeltaFinalSeq (seq : Nat) (hx : x ∈ ownershipKeys) :
    (db.setSplitDeltaFinalSeq seq).get? x = db.get? x := by
  refine get?_of_ops db _ rfl ?_
  have hne : x ≠ splitDeltaFinalSeqKey := by
    rintro rfl
    revert hx
    decide
  simp [OrdMap.Edit.effect, hne]

private theorem get?_splitPhaseEffect (state : Option SplitState) (hx : x ∈ ownershipKeys) :
    (StoreDB.splitPhaseEffect db state).get? x = db.get? x := by
  rcases state with _ | st
  · exact get?_clearSplitDeltaFinalSeq db hx
  · rcases st with ⟨_ | _ | _ | _ | _, _, _, _⟩
    · rfl
    · exact get?_clearSplitDeltaEntries db hx
    · rfl
    · rfl
    · exact get?_clearSplitDeltaEntries db hx

private theorem get?_fixSplitDeltaFinalSeq (hx : x ∈ ownershipKeys) :
    (StoreDB.fixSplitDeltaFinalSeq db).get? x = db.get? x := by
  unfold StoreDB.fixSplitDeltaFinalSeq
  split
  · exact get?_setSplitDeltaFinalSeq db _ hx
  · rfl

end Records

theorem StoreDB.applyOp_isData (s : StoreDB) {op : RaftOp} (hop : op.isData = true) :
    ∃ db, (s.applyOp c op).1 = s.withCore db ∧ db.config = s.coreDB.config := by
  cases op with
  | batch writes deletes transforms syncLevel timestamp =>
    exact ⟨_, rfl, config_flushBatch c s.coreDB writes deletes transforms syncLevel timestamp⟩
  | initTransaction op now => exact ⟨_, rfl, rfl⟩
  | commitTransaction txnID now =>
    simp only [StoreDB.applyOp]
    split
    · rename_i h
      exact ⟨_, rfl, config_finalizeTransaction h⟩
    · exact ⟨s.coreDB, rfl, rfl⟩
  | abortTransaction txnID now =>
    simp only [StoreDB.applyOp]
    split
    · rename_i h
      exact ⟨_, rfl, config_abortTransaction h⟩
    · exact ⟨s.coreDB, rfl, rfl⟩
  | writeIntent op =>
    simp only [StoreDB.applyOp]
    split
    · rename_i h
      exact ⟨_, rfl, config_writeIntent h⟩
    · exact ⟨s.coreDB, rfl, rfl⟩
  | resolveIntents op => exact ⟨_, rfl, rfl⟩
  | setRange | split | finalizeSplit | setSplitState | setMergeState | finalizeMerge => cases hop

/-- The range `DBImpl` and the disk hold during a split. -/
def heldRange (r : Range) (splitKey : Bytes) (applied : Bool) : Range :=
  if applied then ⟨r.start, splitKey⟩ else r

/-- What holds in every state of a split: `DBImpl` and the disk agree on the held range, `StoreDB`
holds that range or has its original end back, and no merge is running. -/
structure SplitInvariant (r : Range) (splitKey : Bytes) (s : StoreDB) (applied : Bool) : Prop where
  start : s.byteRange.start = r.start
  stop : s.byteRange.stop = r.stop ∨ applied = true ∧ s.byteRange.stop = splitKey
  coreRange : s.coreDB.byteRange = heldRange r splitKey applied
  stored : s.coreDB.storedByteRange = some (heldRange r splitKey applied)
  originalEnd : ∀ st, s.splitState = some st → st.originalRangeEnd = r.stop
  mergeState : s.mergeState = none
  coreMergeState : s.coreDB.mergeState = none
  storedMergeState : s.coreDB.storedMergeState = none

namespace SplitInvariant

variable {c} {r : Range} {splitKey : Bytes} {s : StoreDB} {applied : Bool}

theorem of_settled (h : Settled r s) : SplitInvariant r splitKey s false where
  start := by rw [h.byteRange]
  stop := .inl (by rw [h.byteRange])
  coreRange := h.coreRange
  stored := h.stored
  originalEnd st hst := by simp [h.splitState] at hst
  mergeState := h.mergeState
  coreMergeState := h.coreMergeState
  storedMergeState := h.storedMergeState

/-- A step that leaves the ownership records, the merge state and the copies of the range. -/
theorem of_same {s' : StoreDB} (h : SplitInvariant r splitKey s applied)
    (hrange : s'.byteRange = s.byteRange) (hcore : s'.coreDB.byteRange = s.coreDB.byteRange)
    (hget : s'.coreDB.get? byteRangeKey = s.coreDB.get? byteRangeKey)
    (hmget : s'.coreDB.get? mergeStateKey = s.coreDB.get? mergeStateKey)
    (hsplit : ∀ st, s'.splitState = some st → st.originalRangeEnd = r.stop)
    (hmerge : s'.mergeState = s.mergeState)
    (hcmerge : s'.coreDB.mergeState = s.coreDB.mergeState) :
    SplitInvariant r splitKey s' applied where
  start := by rw [hrange, h.start]
  stop := by rw [hrange]; exact h.stop
  coreRange := by rw [hcore, h.coreRange]
  stored := by rw [DBImpl.storedByteRange, hget]; exact h.stored
  originalEnd := hsplit
  mergeState := by rw [hmerge, h.mergeState]
  coreMergeState := by rw [hcmerge, h.coreMergeState]
  storedMergeState := by rw [DBImpl.storedMergeState, hmget]; exact h.storedMergeState

/-- A change of the split state keeps the records of the range and of the merge, and puts back at
most the original end. -/
theorem setSplitState {state : Option SplitState} (h : SplitInvariant r splitKey s applied)
    (hstate : ∀ st, state = some st → st.originalRangeEnd = r.stop) :
    SplitInvariant r splitKey (s.applyOpSetSplitState state) applied := by
  have hrestored : s.restoredRange state = s.byteRange ∨
      s.restoredRange state = ⟨s.byteRange.start, r.stop⟩ := by
    rcases state with _ | st
    · rcases hprev : s.splitState with _ | st
      · simp [StoreDB.restoredRange, hprev]
      · simp only [StoreDB.restoredRange, hprev, h.originalEnd st hprev]
        split <;> simp
    · simp only [StoreDB.restoredRange, hstate st rfl]
      split
      · split <;> simp
      · simp
  have hget : ∀ x ∈ [byteRangeKey, mergeStateKey],
      (s.applyOpSetSplitState state).coreDB.get? x = s.coreDB.get? x := by
    intro x hx
    have hown : x ∈ ownershipKeys := by
      simp only [ownershipKeys, List.mem_cons, List.not_mem_nil, or_false] at hx ⊢
      tauto
    have hne : x ≠ splitStateKey := by
      rintro rfl
      revert hx
      decide
    change (StoreDB.splitPhaseEffect (s.coreDB.setSplitState state) state).get? x = _
    rw [get?_splitPhaseEffect _ _ hown]
    rcases state with _ | st
    · exact get?_of_ops s.coreDB _ rfl (by simp [OrdMap.Edit.effect, hne])
    · exact get?_of_ops s.coreDB _ rfl (by simp [OrdMap.Edit.effect, hne])
  have hcore : (s.applyOpSetSplitState state).coreDB.byteRange = s.coreDB.byteRange ∧
      (s.applyOpSetSplitState state).coreDB.mergeState = s.coreDB.mergeState := by
    rcases state with _ | ⟨_ | _ | _ | _ | _, _, _, _⟩ <;> exact ⟨rfl, rfl⟩
  refine ⟨?_, ?_, ?_, ?_, hstate, h.mergeState, ?_, ?_⟩
  · change (s.restoredRange state).start = _
    rcases hrestored with hr | hr <;> rw [hr] <;> exact h.start
  · change (s.restoredRange state).stop = _ ∨ _ ∧ (s.restoredRange state).stop = _
    rcases hrestored with hr | hr <;> rw [hr]
    · exact h.stop
    · exact .inl rfl
  · rw [hcore.1, h.coreRange]
  · rw [DBImpl.storedByteRange, hget _ List.mem_cons_self]
    exact h.stored
  · rw [hcore.2, h.coreMergeState]
  · rw [DBImpl.storedMergeState, hget _ (List.mem_cons_of_mem _ List.mem_cons_self)]
    exact h.storedMergeState

theorem split (h : SplitInvariant r splitKey s applied) :
    SplitInvariant r splitKey (s.applyOpSplit splitKey).1
      (applied || (s.applyOpSplit splitKey).2.isNone) := by
  unfold StoreDB.applyOpSplit
  split
  · simpa using h
  · have hheld : heldRange r splitKey true = ⟨s.byteRange.start, splitKey⟩ := by
      simp [heldRange, h.start]
    simp only [Option.isNone_none, Bool.or_true]
    refine ⟨h.start, .inr ⟨rfl, rfl⟩, hheld.symm, ?_, h.originalEnd, h.mergeState,
      h.coreMergeState, ?_⟩
    · rw [hheld, DBImpl.storedByteRange, DBImpl.get?]
      simp [DBImpl.setRange, DBImpl.setByteRange, DBImpl.applyOps, OrdMap.get?_applyAll,
        OrdMap.lastEffect_cons, OrdMap.Edit.effect]
    · have hget : (s.coreDB.setRange ⟨s.byteRange.start, splitKey⟩).get? mergeStateKey =
          s.coreDB.get? mergeStateKey := by
        have hne : mergeStateKey ≠ byteRangeKey := by decide
        exact get?_of_ops s.coreDB _ rfl (by simp [OrdMap.Edit.effect, hne])
      rw [DBImpl.storedMergeState, hget]
      exact h.storedMergeState

theorem fixSplitDeltaFinalSeq (h : SplitInvariant r splitKey s applied) :
    SplitInvariant r splitKey (s.withCore (StoreDB.fixSplitDeltaFinalSeq s.coreDB)) applied := by
  have hcore : (StoreDB.fixSplitDeltaFinalSeq s.coreDB).config = s.coreDB.config := by
    unfold StoreDB.fixSplitDeltaFinalSeq
    split <;> rfl
  exact h.of_same rfl (congrArg DBConfig.byteRange hcore)
    (get?_fixSplitDeltaFinalSeq _ (by decide)) (get?_fixSplitDeltaFinalSeq _ (by decide))
    h.originalEnd rfl (congrArg DBConfig.mergeState hcore)

theorem finalizeTimeout {newRangeEnd : Bytes} (h : SplitInvariant r splitKey s applied)
    (herr : (s.applyOpFinalizeSplit newRangeEnd false).2.isSome = true) :
    SplitInvariant r splitKey (s.applyOpFinalizeSplit newRangeEnd false).1 applied := by
  unfold StoreDB.applyOpFinalizeSplit at herr ⊢
  split
  · exact h
  · rename_i hend
    rw [if_neg hend] at herr
    rcases hst : s.splitState with _ | st
    · simpa [hst] using h
    · simp only [hst] at herr ⊢
      have hfixed := h.fixSplitDeltaFinalSeq
      split at herr
      · rename_i hwait
        rw [if_pos hwait]
        by_cases hphase : st.phase = .finalizing
        · simpa [hphase] using hfixed
        · simp only [hphase, if_false]
          refine hfixed.setSplitState fun st' hst' => ?_
          cases hst'
          exact h.originalEnd st hst
      · simp at herr

theorem data {op : RaftOp} (hop : op.isData = true) (h : SplitInvariant r splitKey s applied)
    (hget : ∀ k ∈ ownershipKeys, (s.applyOp c op).1.coreDB.get? k = s.coreDB.get? k) :
    SplitInvariant r splitKey (s.applyOp c op).1 applied := by
  obtain ⟨db, hdb, hconfig⟩ := StoreDB.applyOp_isData c s hop
  rw [hdb] at hget ⊢
  exact h.of_same rfl (congrArg DBConfig.byteRange hconfig) (hget _ (by decide))
    (hget _ (by decide)) h.originalEnd rfl (congrArg DBConfig.mergeState hconfig)

theorem of_run (h : SplitRun c r splitKey s applied) : SplitInvariant r splitKey s applied := by
  induction h with
  | start hs => exact of_settled hs
  | setPhase st _ hend _ ih =>
    refine ih.setSplitState fun st' hst' => ?_
    cases hst'
    exact hend
  | split _ _ ih => exact ih.split
  | finalizeTimeout _ _ herr ih => exact ih.finalizeTimeout herr
  | data _ hop hget _ ih => exact ih.data hop hget

end SplitInvariant

section Rollback

variable {c} {r : Range} {splitKey : Bytes} {s : StoreDB} {applied : Bool} {st : SplitState}

/-- Both operations of a rollback keep the invariant, and the second one clears the state. -/
theorem rollbackSplit_invariant (h : SplitInvariant r splitKey s applied)
    (hst : s.splitState = some st) (hphase : st.phase ≠ .none) :
    SplitInvariant r splitKey (rollbackSplit c s) applied ∧
      ∃ s₀ : StoreDB, rollbackSplit c s = s₀.applyOpSetSplitState none := by
  simp only [rollbackSplit, rollbackSplitOps, hst, hphase, if_false]
  split
  · exact ⟨h.setSplitState fun _ hnone => by simp at hnone, s, rfl⟩
  · have hend : ∀ st', some { st with phase := .rollingBack } = some st' →
        st'.originalRangeEnd = r.stop := by
      intro st' hst'
      cases hst'
      exact h.originalEnd st hst
    have h₁ := h.setSplitState hend
    exact ⟨h₁.setSplitState fun _ hnone => by simp at hnone, _, rfl⟩

/-- A shard whose copies agree on `r`, without a split or a merge, accepts the keys of `r`. -/
theorem accepts_of_settled (h : Settled r s) {key : Bytes} (hkey : r.contains key = true) :
    s.Accepts key := by
  refine ⟨?_, ?_⟩
  · rw [h.splitState, h.mergeState, validateKey_eq_contains, h.byteRange, hkey]
  · rw [ownsKey_eq_contains h.coreSplitState h.coreMergeState, h.coreRange, hkey]

theorem reopen_settled (h : Settled r s) (schema : Option Bytes) {given : Range}
    (hgiven : given = ⟨[], []⟩ ∨ given = r) :
    Settled (if schema.isSome then given else r) (s.reopen schema given) := by
  refine StoreDB.reopen_settled h.storedSplitState h.storedMergeState ?_
  rw [DBImpl.reopen_byteRange, h.stored]
  rcases hgiven with rfl | rfl
  · rfl
  · obtain ⟨_ | ⟨a, lo⟩, _ | ⟨b, hi⟩⟩ := given <;> simp [DBImpl.rangeGiven]

theorem rolledBack_of_settled (h : Settled r s) : RolledBack r s where
  byteRange := h.byteRange
  coreRange := h.coreRange
  stored := h.stored
  accepts _ hkey := accepts_of_settled h hkey
  acceptsReopened schema given hgiven key hkey := by
    refine accepts_of_settled (reopen_settled h schema hgiven) ?_
    rcases hgiven with rfl | rfl
    · cases schema
      · simpa using hkey
      · rfl
    · simpa using hkey

private theorem storedSplitState_cleared (s : StoreDB) :
    (s.applyOpSetSplitState none).coreDB.storedSplitState = none := by
  have hget : (s.applyOpSetSplitState none).coreDB.get? splitStateKey = none := by
    change s.coreDB.clearSplitState.clearSplitDeltaFinalSeq.get? splitStateKey = none
    rw [get?_clearSplitDeltaFinalSeq _ (by decide)]
    exact (DBImpl.get?_applyOps s.coreDB [.delete splitStateKey] splitStateKey).trans rfl
  rw [DBImpl.storedSplitState, hget]

/-- A rollback restores the shard exactly when the split operation had not been applied, or had
narrowed the range to itself. -/
theorem rollback_restores_iff (hrun : SplitRun c r splitKey s applied)
    (hst : s.splitState = some st) (hphase : st.phase ≠ .none) :
    RolledBack r (rollbackSplit c s) ↔ applied = false ∨ splitKey = r.stop := by
  obtain ⟨h, s₀, hs₀⟩ := rollbackSplit_invariant (c := c) (.of_run hrun) hst hphase
  constructor
  · intro hrb
    have hheld := h.coreRange.symm.trans hrb.coreRange
    cases applied with
    | false => exact Or.inl rfl
    | true => exact Or.inr (congrArg Range.stop hheld)
  · intro hcond
    have hheld : heldRange r splitKey applied = r := by
      rcases hcond with rfl | rfl
      · rfl
      · simp [heldRange]
    have hstop : (rollbackSplit c s).byteRange.stop = r.stop := by
      rcases h.stop with hstop | ⟨happlied, hstop⟩
      · exact hstop
      · rw [hstop]
        exact hcond.resolve_left (by simp [happlied])
    refine rolledBack_of_settled ⟨?_, ?_, ?_, ?_, ?_, ?_, h.mergeState, h.coreMergeState,
      h.storedMergeState⟩
    · have hstart := h.start
      revert hstart hstop
      cases (rollbackSplit c s).byteRange
      rintro rfl rfl
      rfl
    · rw [h.coreRange, hheld]
    · rw [h.stored, hheld]
    · rw [hs₀]
      rfl
    · rw [hs₀]
      rfl
    · rw [hs₀]
      exact storedSplitState_cleared s₀

end Rollback

/-- A shard of the keys below `z` that is about to split at `m`. -/
def preparedStore : StoreDB :=
  ((StoreDB.create ⟨[], ascii ['z']⟩).applyOp Codec.emptyObject
    (.setSplitState (some ⟨.prepare, ascii ['m'], 2, 0, ascii ['z']⟩))).1

theorem preparedStore_run :
    SplitRun Codec.emptyObject ⟨[], ascii ['z']⟩ (ascii ['m']) preparedStore false :=
  .setPhase _ rfl rfl (.start (StoreDB.create_settled _))

/-- Once the split operation has been applied, a rollback leaves `DBImpl` and the disk with the
narrowed range. -/
theorem rollback_after_split_not_restored :
    ∃ s applied, SplitRun Codec.emptyObject ⟨[], ascii ['z']⟩ (ascii ['m']) s applied ∧
      (∃ st, s.splitState = some st ∧ st.phase ≠ .none) ∧
      ¬ RolledBack ⟨[], ascii ['z']⟩ (rollbackSplit Codec.emptyObject s) := by
  have hrun := SplitRun.split 2 preparedStore_run
  refine ⟨_, _, hrun, ⟨_, rfl, by decide⟩, ?_⟩
  intro h
  have hcore := h.coreRange
  revert hcore
  decide

theorem rollback_restores_iff_prepared :
    RolledBack ⟨[], ascii ['z']⟩ (rollbackSplit Codec.emptyObject preparedStore) ↔
      false = false ∨ ascii ['m'] = ascii ['z'] :=
  rollback_restores_iff preparedStore_run rfl (by decide)

end Antfly
