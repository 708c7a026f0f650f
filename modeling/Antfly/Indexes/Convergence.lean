import Antfly.Indexes.Manager
import Antfly.Lib.Runs

/-!
What an index is still to be given waits in two queues, its own and that of the manager, and
together they are the queue of a set fed from the store.  Merging and cutting queued batches
regroups that queue; so the index catches up in every run in which no entry appears while its
removal is queued and no batch overtakes a look-up that its own removals make stale.
-/

namespace Antfly.Indexes

open FedSet List

variable {idx : Index} {im : IndexManager}

/-- The deletes that an index of this name and type is given. -/
def Routed (name : Bytes) (type : IndexType) (key : Bytes) : Prop :=
  match type with
  | .graph => isEdgeKey key = true ∧ ∃ edge, parseEdgeKey key = some edge ∧ name = edge.indexName
  | .fullText => isEdgeKey key = false ∧ isChunkKey key = false
  | .embeddings => isEdgeKey key = false ∧
      (isChunkKey key = false ∨ ∃ docKey, parseChunkKey key = some (docKey, name))

variable {groups : DeleteKeyGroups} {name k : Bytes} {type : IndexType}
variable {deletes writes store : List Bytes} {op : IndexOp} {pieces : List IndexOp}
variable {byteRange : Range} {level : SyncLevel} {im' : IndexManager} {β : Type} {g : Index → β}

theorem mem_append_group {key : Bytes} :
    k ∈ deletesForIndex name type (appendDeleteKeyGroup groups key) ↔
      k ∈ deletesForIndex name type groups ∨ k = key ∧ Routed name type key := by
  unfold appendDeleteKeyGroup
  dsimp only
  cases hedge : isEdgeKey key with
  | true =>
    rw [if_pos rfl]
    cases hparse : parseEdgeKey key with
    | none => cases type <;> simp [deletesForIndex, Routed, hedge, hparse]
    | some edge =>
      by_cases hname : name = edge.indexName <;> cases type <;>
        simp [deletesForIndex, Routed, hedge, hparse, hname]
  | false =>
    rw [if_neg Bool.false_ne_true]
    cases hchunk : isChunkKey key with
    | true =>
      rw [if_pos rfl]
      cases hparse : parseChunkKey key with
      | none => cases type <;> simp [deletesForIndex, Routed, hedge, hchunk, hparse]
      | some p =>
        obtain ⟨docKey, indexName⟩ := p
        by_cases hname : name = indexName <;> cases type <;>
          simp [deletesForIndex, Routed, hedge, hchunk, hparse, hname, or_assoc, eq_comm]
    | false =>
      rw [if_neg Bool.false_ne_true]
      cases type with
      | graph => simp [deletesForIndex, Routed, hedge]
      | fullText => simp [deletesForIndex, Routed, hedge, hchunk]
      | embeddings =>
        simp only [deletesForIndex, Routed, hedge, hchunk, mem_append,
          mem_singleton, true_or, and_self, and_true]
        exact or_right_comm

theorem mem_foldl_group {keys : List Bytes} :
    k ∈ deletesForIndex name type (keys.foldl appendDeleteKeyGroup groups) ↔
      k ∈ deletesForIndex name type groups ∨ k ∈ keys ∧ Routed name type k := by
  induction keys generalizing groups with
  | nil => simp
  | cons key keys ih =>
    rw [foldl_cons, ih, mem_append_group, or_assoc, mem_cons, or_and_right]
    refine or_congr_right (or_congr_left ?_)
    constructor <;> rintro ⟨rfl, hrouted⟩ <;> exact ⟨rfl, hrouted⟩

theorem mem_deletesForIndex :
    k ∈ deletesForIndex name type (groupDeleteKeys deletes) ↔
      k ∈ deletes ∧ k ≠ [] ∧ Routed name type k := by
  unfold groupDeleteKeys
  rw [mem_foldl_group, mem_eraseDups, mem_filter, decide_eq_true_eq, and_assoc]
  have hnone : k ∉ deletesForIndex name type ⟨[], [], fun _ => [], fun _ => []⟩ := by
    cases type <;> exact not_mem_nil
  constructor
  · rintro (hk | hk)
    · exact absurd hk hnone
    · exact hk
  · exact Or.inr

theorem announces_clip (idx : Index) (im : IndexManager) (h : IndexManager.CutsInto op pieces) :
    Announces (pieces.map fun piece => idx.opOf (idx.share (im.clip piece)))
      (idx.share (im.clip op)).writes (idx.opOf (idx.share (im.clip op))).deletes where
  unread k := by
    obtain ⟨hwrites, -⟩ := h
    have hmem : ∀ op : IndexOp, k ∈ (idx.share (im.clip op)).writes ↔
        k ∈ op.writes ∧ k ∈ writesFor idx.kind [k] ∧ (!k.isEmpty && im.byteRange.contains k) := by
      intro op
      unfold Index.share IndexManager.clip writesFor
      cases idx.kind <;> simp [mem_filter, and_left_comm]
    rw [hmem, ← hwrites, mem_flatMap]
    constructor
    · rintro ⟨op', hop', hk⟩
      obtain ⟨piece, hpiece, rfl⟩ := mem_map.mp hop'
      obtain ⟨hk, hrest⟩ := (hmem piece).mp hk
      exact ⟨⟨piece, hpiece, hk⟩, hrest⟩
    · rintro ⟨⟨piece, hpiece, hk⟩, hrest⟩
      exact ⟨_, mem_map.mpr ⟨piece, hpiece, rfl⟩, (hmem piece).mpr ⟨hk, hrest⟩⟩
  read op' hop' := by
    obtain ⟨piece, -, rfl⟩ := mem_map.mp hop'
    rfl
  deletes e := by
    obtain ⟨-, hdeletes⟩ := h
    have hmem : ∀ op : IndexOp, e ∈ (idx.opOf (idx.share (im.clip op))).deletes ↔
        ∃ k ∈ op.deletes, ((!k.isEmpty && im.byteRange.contains k) ∧ k ≠ [] ∧
          Routed idx.name idx.kind.type k) ∧ removalOf idx.name idx.kind k = some e := by
      intro op
      unfold Index.opOf Index.share IndexManager.clip
      dsimp only
      rw [mem_filterMap]
      refine exists_congr fun k => ?_
      simp only [mem_deletesForIndex, mem_filter, and_assoc]
    rw [hmem, ← hdeletes]
    constructor
    · rintro ⟨op', hop', he⟩
      obtain ⟨piece, hpiece, rfl⟩ := mem_map.mp hop'
      obtain ⟨k, hk, hrest⟩ := (hmem piece).mp he
      exact ⟨k, mem_flatMap.mpr ⟨piece, hpiece, hk⟩, hrest⟩
    · rintro ⟨k, hk, hrest⟩
      obtain ⟨piece, hpiece, hk⟩ := mem_flatMap.mp hk
      exact ⟨_, mem_map.mpr ⟨piece, hpiece, rfl⟩, (hmem piece).mpr ⟨k, hk, hrest⟩⟩

theorem announces_pieces (idx : Index) {share : IndexOp} (h : IndexManager.CutsInto share pieces) :
    Announces (pieces.map idx.opOf) share.writes (idx.opOf share).deletes where
  unread k := by
    rw [← h.1, mem_flatMap]
    constructor
    · rintro ⟨op', hop', hk⟩
      obtain ⟨piece, hpiece, rfl⟩ := mem_map.mp hop'
      exact ⟨piece, hpiece, hk⟩
    · rintro ⟨piece, hpiece, hk⟩
      exact ⟨_, mem_map.mpr ⟨piece, hpiece, rfl⟩, hk⟩
  read op' hop' := by
    obtain ⟨piece, -, rfl⟩ := mem_map.mp hop'
    rfl
  deletes e := by
    unfold Index.opOf
    dsimp only
    rw [← h.2, mem_filterMap]
    constructor
    · rintro ⟨op', hop', he⟩
      obtain ⟨piece, hpiece, rfl⟩ := mem_map.mp hop'
      obtain ⟨k, hk, hremoval⟩ := mem_filterMap.mp he
      exact ⟨k, mem_flatMap.mpr ⟨piece, hpiece, hk⟩, hremoval⟩
    · rintro ⟨k, hk, hremoval⟩
      obtain ⟨piece, hpiece, hk⟩ := mem_flatMap.mp hk
      exact ⟨_, mem_map.mpr ⟨piece, hpiece, rfl⟩, mem_filterMap.mpr ⟨k, hk, hremoval⟩⟩

theorem partitionBatch_cuts {size : ℕ} (hsize : 0 < size) {fuel : ℕ}
    (hfuel : writes.length + deletes.length ≤ fuel) :
    IndexManager.CutsInto ⟨writes, deletes⟩ (partitionBatch size fuel writes deletes) := by
  induction fuel generalizing writes deletes with
  | zero =>
    have hwrites : writes = [] := length_eq_zero_iff.mp (by omega)
    have hdeletes : deletes = [] := length_eq_zero_iff.mp (by omega)
    subst hwrites hdeletes
    exact ⟨rfl, rfl⟩
  | succ fuel ih =>
    unfold partitionBatch
    split
    · next hempty =>
      rw [Bool.and_eq_true, List.isEmpty_iff, List.isEmpty_iff] at hempty
      obtain ⟨rfl, rfl⟩ := hempty
      exact ⟨rfl, rfl⟩
    · next hne =>
      have hpos : 0 < writes.length + deletes.length := by
        cases writes with
        | cons w ws =>
          rw [length_cons]
          omega
        | nil =>
          cases deletes with
          | cons d ds =>
            rw [length_cons]
            omega
          | nil => exact absurd rfl hne
      have hless : (writes.drop size).length +
          (deletes.drop (size - (writes.take size).length)).length ≤ fuel := by
        rw [length_drop, length_drop, length_take]
        omega
      obtain ⟨hwrites, hdeletes⟩ := ih hless
      constructor
      · rw [flatMap_cons, hwrites]
        exact take_append_drop size writes
      · rw [flatMap_cons, hdeletes]
        exact take_append_drop _ deletes

/-- What an index has and what it is still to be given, by its own queue and by the manager's. -/
def Index.viewIn (idx : Index) (im : IndexManager) : View Bytes Bytes where
  queue := idx.view.queue ++ im.walBuf.map fun op => idx.opOf (idx.share (im.clip op))
  contents := idx.view.contents

theorem walBuf_unread (idx : Index) (im : IndexManager) (ops : List IndexOp) :
    ∀ op ∈ ops.map fun op => idx.opOf (idx.share (im.clip op)), op.read = [] := by
  intro op hop
  obtain ⟨op', -, rfl⟩ := mem_map.mp hop
  rfl

/-- Whether a batch of this level is queued by the manager. -/
def queued : SyncLevel → Bool
  | .propose | .write => true
  | .fullText | .enrichments | .embeddings | .internalMergeCopy => false

/-- The batch tells every index what it changes in the store; no entry appears while its removal is
queued; and a batch that is not queued removes no entry whose look-up waits in a queue it overtakes,
and finds no graph index paused. -/
structure KeepsUp (s : State) (store : List Bytes) (op : IndexOp) (level : SyncLevel) : Prop where
  told : ∀ idx ∈ s.manager.indexes, (idx.source s.manager.byteRange).Told s.store store
    (idx.share (s.manager.clip op)).writes (idx.opOf (idx.share (s.manager.clip op))).deletes
  appears_free : ∀ idx ∈ s.manager.indexes,
    AppearsFree (idx.source s.manager.byteRange) s.store store (idx.viewIn s.manager).queue
  reads_stay : queued level = false → ∀ idx ∈ s.manager.indexes,
    IndexManager.syncsIndex level idx.kind = true →
    ReadsStay (idx.source s.manager.byteRange) s.store store idx.view.queue
  not_paused : queued level = false → ∀ idx ∈ s.manager.indexes, idx.kind = .graph →
    idx.paused = false

/-- Only batches are asked for anything. -/
def Keeps (s : State) : Event → Prop
  | .batch store writes deletes level _ => KeepsUp s store ⟨writes, deletes⟩ level
  | .dequeue _ _ | .lookUp _ _ | .commit _ _ | .pause | .pauseIndex _ | .resume => True

/-- Every index lags behind only by what is queued for it, and none is paused on its own. -/
structure Converging (s : State) : Prop where
  lags : ∀ idx ∈ s.manager.indexes,
    Lags (idx.source s.manager.byteRange) s.store (idx.viewIn s.manager)
  running : s.manager.paused = false → ∀ idx ∈ s.manager.indexes, idx.paused = false

variable {s s' : State}

theorem lags_congr {idx' : Index} {v : View Bytes Bytes} (hname : idx'.name = idx.name)
    (hkind : idx'.kind = idx.kind) (h : Lags (idx.source byteRange) store v) :
    Lags (idx'.source byteRange) store v := by
  have hsource : idx'.source byteRange = idx.source byteRange := by
    unfold Index.source
    rw [hname, hkind]
  rwa [hsource]

theorem converging_queued (h : Converging s) (hkeeps : KeepsUp s store ⟨writes, deletes⟩ level) :
    Converging
      { store := store
        manager := { s.manager with
          walBuf := s.manager.walBuf ++ partitionBatch indexManagerPartitionSize
            (writes.length + deletes.length) writes deletes } } := by
  refine ⟨fun idx hidx => ?_, h.running⟩
  have hcuts : IndexManager.CutsInto ⟨writes, deletes⟩ (partitionBatch indexManagerPartitionSize
      (writes.length + deletes.length) writes deletes) :=
    partitionBatch_cuts (by decide) (Nat.le_refl _)
  have hlags := (h.lags idx hidx).insert (append_nil _).symm (fun _ hop => nomatch hop)
    (hkeeps.told idx hidx) (hkeeps.appears_free idx hidx) (announces_clip idx s.manager hcuts)
  rw [append_nil] at hlags
  have hview : idx.viewIn { s.manager with
      walBuf := s.manager.walBuf ++ partitionBatch indexManagerPartitionSize
        (writes.length + deletes.length) writes deletes } =
      { idx.viewIn s.manager with
        queue := (idx.viewIn s.manager).queue ++
          (partitionBatch indexManagerPartitionSize (writes.length + deletes.length) writes
            deletes).map fun piece => idx.opOf (idx.share (s.manager.clip piece)) } := by
    unfold Index.viewIn
    dsimp only
    rw [map_append, append_assoc]
    rfl
  rw [hview]
  exact hlags

theorem receive_of_running (h : idx.kind = .graph → idx.paused = false) :
    idx.receive pieces =
      { idx with view := { idx.view with queue := idx.view.queue ++ pieces.map idx.opOf } } := by
  unfold Index.receive
  refine if_neg ?_
  rw [Bool.and_eq_true, decide_eq_true_eq]
  rintro ⟨hkind, hpaused⟩
  rw [h hkind] at hpaused
  cases hpaused

theorem execute_of_running (h : idx.kind = .graph → idx.paused = false) :
    idx.execute byteRange store op =
      { idx with
        view := { idx.view with
          contents := apply idx.view.contents ((idx.source byteRange).found store op.writes)
            (idx.opOf op).deletes } } := by
  unfold Index.execute
  refine if_neg ?_
  rw [Bool.and_eq_true, decide_eq_true_eq]
  rintro ⟨hkind, hpaused⟩
  rw [h hkind] at hpaused
  cases hpaused

theorem converging_executeNow {pieces : Bytes → List IndexOp} (h : Converging s)
    (hkeeps : KeepsUp s store op level) (hqueued : queued level = false)
    (hstep : s.manager.executeNow store op level pieces = some im') :
    Converging { store := store, manager := im' } := by
  unfold IndexManager.executeNow at hstep
  split at hstep
  case isFalse => cases hstep
  case isTrue hcuts =>
    cases hstep
    refine ⟨fun idx' hidx' => ?_, fun hrunning idx' hidx' => ?_⟩
    · obtain ⟨idx, hidx, rfl⟩ := mem_map.mp hidx'
      have hrun := hkeeps.not_paused hqueued idx hidx
      split
      · next hsync =>
        rw [execute_of_running hrun]
        refine lags_congr rfl rfl ((h.lags idx hidx).executed (hkeeps.told idx hidx)
          (hkeeps.appears_free idx hidx) ?_)
        intro op' hop' e he hholds
        rcases mem_append.mp hop' with hop' | hop'
        · exact hkeeps.reads_stay hqueued idx hidx hsync op' hop' e he hholds
        · rw [walBuf_unread idx s.manager _ op' hop'] at he
          cases he
      · rw [receive_of_running hrun]
        exact lags_congr rfl rfl ((h.lags idx hidx).insert rfl
          (walBuf_unread idx s.manager _) (hkeeps.told idx hidx) (hkeeps.appears_free idx hidx)
          (announces_pieces idx (hcuts idx hidx)))
    · obtain ⟨idx, hidx, rfl⟩ := mem_map.mp hidx'
      have hrun := h.running hrunning idx hidx
      split
      · rw [execute_of_running fun _ => hrun]
        exact hrun
      · rw [receive_of_running fun _ => hrun]
        exact hrun

theorem converging_dequeue {n : ℕ} {pieces : Bytes → List IndexOp} (h : Converging s)
    (hstep : s.manager.dequeue n pieces = some im') :
    Converging { s with manager := im' } := by
  unfold IndexManager.dequeue at hstep
  split at hstep
  case isFalse => cases hstep
  case isTrue hrunning =>
    rw [Bool.and_eq_true, Bool.not_eq_true'] at hrunning
    unfold IndexManager.distribute at hstep
    split at hstep
    case isFalse => cases hstep
    case isTrue hcuts =>
      cases hstep
      refine ⟨fun idx' hidx' => ?_, fun _ idx' hidx' => ?_⟩
      · obtain ⟨idx, hidx, rfl⟩ := mem_map.mp hidx'
        rw [receive_of_running fun _ => h.running hrunning.1 idx hidx]
        have hqueue : (idx.viewIn s.manager).queue = idx.view.queue ++
            (s.manager.walBuf.take n).map (fun op => idx.opOf (idx.share (s.manager.clip op))) ++
            (s.manager.walBuf.drop n).map fun op => idx.opOf (idx.share (s.manager.clip op)) := by
          rw [append_assoc, ← map_append, take_append_drop]
          rfl
        exact lags_congr rfl rfl ((h.lags idx hidx).regroup hqueue
          (announces_clip idx s.manager ⟨rfl, rfl⟩) (announces_pieces idx (hcuts idx hidx)))
      · obtain ⟨idx, hidx, rfl⟩ := mem_map.mp hidx'
        have hrun := h.running hrunning.1 idx hidx
        rw [receive_of_running fun _ => hrun]
        exact hrun

theorem converging_update {name : Bytes} {f : Index → Index} (h : Converging s)
    (hname : ∀ idx, (f idx).name = idx.name) (hkind : ∀ idx, (f idx).kind = idx.kind)
    (hpaused : ∀ idx, (f idx).paused = idx.paused)
    (hf : ∀ idx ∈ s.manager.indexes,
      Lags (idx.source s.manager.byteRange) s.store (idx.viewIn s.manager) →
      Lags (idx.source s.manager.byteRange) s.store ((f idx).viewIn s.manager)) :
    Converging { s with manager := s.manager.update name f } := by
  refine ⟨fun idx' hidx' => ?_, fun hrunning idx' hidx' => ?_⟩
  · obtain ⟨idx, hidx, rfl⟩ := mem_map.mp hidx'
    split
    · exact lags_congr (hname idx) (hkind idx) (hf idx hidx (h.lags idx hidx))
    · exact h.lags idx hidx
  · obtain ⟨idx, hidx, rfl⟩ := mem_map.mp hidx'
    split
    · rw [hpaused]
      exact h.running hrunning idx hidx
    · exact h.running hrunning idx hidx

theorem lags_lookUp (i : ℕ) (h : Lags (idx.source byteRange) store (idx.viewIn im)) :
    Lags (idx.source byteRange) store ((idx.lookUp byteRange store i).viewIn im) := by
  unfold Index.lookUp
  cases hop : idx.view.queue[i]? with
  | none => exact h
  | some op =>
    obtain ⟨hi, hget⟩ := List.getElem?_eq_some_iff.mp hop
    have hsplit : idx.view.queue = idx.view.queue.take i ++ op :: idx.view.queue.drop (i + 1) := by
      rw [← hget, ← drop_eq_getElem_cons, take_append_drop]
    have hqueue : (idx.viewIn im).queue = idx.view.queue.take i ++ op ::
        (idx.view.queue.drop (i + 1) ++
          im.walBuf.map fun op => idx.opOf (idx.share (im.clip op))) := by
      rw [← cons_append, ← append_assoc, ← hsplit]
      rfl
    have hnext := h.readNext hqueue
    rw [← cons_append, ← append_assoc] at hnext
    exact hnext

theorem lags_commit (n : ℕ) (h : Lags (idx.source byteRange) store (idx.viewIn im)) :
    Lags (idx.source byteRange) store ((idx.commit n).viewIn im) := by
  unfold Index.commit
  cases hcommit : idx.view.commit n with
  | none => exact h
  | some v =>
    exact h.commit (View.commit_append
      (im.walBuf.map fun op => idx.opOf (idx.share (im.clip op))) hcommit)

theorem runs_congr {f : Index → Index} (h : ∀ idx, g (f idx) = g idx) (idx : Index) :
    g (runs f idx) = g idx := by
  unfold runs
  split
  · rfl
  · exact h idx

theorem lookUp_congr (hg : ∀ idx v, g { idx with view := v } = g idx) (byteRange : Range)
    (store : List Bytes) (i : ℕ) (idx : Index) :
    g (idx.lookUp byteRange store i) = g idx := by
  unfold Index.lookUp
  split
  · rfl
  · exact hg idx _

theorem commit_congr (hg : ∀ idx v, g { idx with view := v } = g idx) (n : ℕ) (idx : Index) :
    g (idx.commit n) = g idx := by
  unfold Index.commit
  split
  · rfl
  · exact hg idx _

theorem commitUpTo_congr (hg : ∀ idx v, g { idx with view := v } = g idx) (n : ℕ) (idx : Index) :
    g (if n ≤ idx.kind.maxBatches then idx.commit n else idx) = g idx := by
  split
  · exact commit_congr hg n idx
  · rfl

theorem converging_step {e : Event} (hkeeps : Keeps s e) (hstep : step s e = some s')
    (h : Converging s) : Converging s' := by
  cases e with
  | batch store writes deletes level pieces =>
    obtain ⟨im', him, rfl⟩ := Option.map_eq_some_iff.mp hstep
    unfold IndexManager.batch at him
    cases level with
    | propose =>
      cases him
      exact converging_queued h hkeeps
    | write =>
      cases him
      exact converging_queued h hkeeps
    | fullText =>
      dsimp only at him
      split at him
      · exact converging_executeNow h hkeeps rfl him
      · cases him
    | embeddings =>
      dsimp only at him
      split at him
      · exact converging_executeNow h hkeeps rfl him
      · cases him
    | enrichments => cases him
    | internalMergeCopy => cases him
  | dequeue n pieces =>
    obtain ⟨im', him, rfl⟩ := Option.map_eq_some_iff.mp hstep
    exact converging_dequeue h him
  | lookUp name i =>
    cases hstep
    refine converging_update h
      (runs_congr (lookUp_congr (fun _ _ => rfl) s.manager.byteRange s.store i))
      (runs_congr (lookUp_congr (fun _ _ => rfl) s.manager.byteRange s.store i))
      (runs_congr (lookUp_congr (fun _ _ => rfl) s.manager.byteRange s.store i))
      fun idx _ hlags => ?_
    unfold runs
    split
    · exact hlags
    · exact lags_lookUp i hlags
  | commit name n =>
    cases hstep
    refine converging_update h (runs_congr (commitUpTo_congr (fun _ _ => rfl) n))
      (runs_congr (commitUpTo_congr (fun _ _ => rfl) n))
      (runs_congr (commitUpTo_congr (fun _ _ => rfl) n)) fun idx _ hlags => ?_
    unfold runs
    split
    · exact hlags
    · dsimp only
      split
      · exact lags_commit n hlags
      · exact hlags
  | pause =>
    dsimp only [step] at hstep
    split at hstep
    · cases hstep
      exact ⟨h.lags, fun hrunning => nomatch hrunning⟩
    · cases hstep
  | pauseIndex name =>
    dsimp only [step] at hstep
    split at hstep
    · next hpaused =>
      cases hstep
      refine ⟨fun idx' hidx' => ?_, fun hrunning => ?_⟩
      · obtain ⟨idx, hidx, rfl⟩ := mem_map.mp hidx'
        split
        · exact lags_congr rfl rfl (h.lags idx hidx)
        · exact h.lags idx hidx
      · change s.manager.paused = false at hrunning
        rw [hpaused] at hrunning
        cases hrunning
    · cases hstep
  | resume =>
    cases hstep
    refine ⟨fun idx' hidx' => ?_, fun _ idx' hidx' => ?_⟩
    · obtain ⟨idx, hidx, rfl⟩ := mem_map.mp hidx'
      exact lags_congr rfl rfl (h.lags idx hidx)
    · obtain ⟨idx, hidx, rfl⟩ := mem_map.mp hidx'
      rfl

/-- Nothing is queued anywhere. -/
def Drained (s : State) : Prop :=
  s.manager.walBuf = [] ∧ ∀ idx ∈ s.manager.indexes, idx.view.queue = []

/-- Every index has exactly the keys of its kind that are in the store and in the range. -/
def Converged (s : State) : Prop :=
  ∀ idx ∈ s.manager.indexes, ∀ entry,
    entry ∈ idx.view.contents ↔ (idx.source s.manager.byteRange).holds s.store entry

theorem viewIn_drained (h : Drained s) (hidx : idx ∈ s.manager.indexes) :
    (idx.viewIn s.manager).queue = [] := by
  unfold Index.viewIn
  dsimp only
  rw [h.1, h.2 idx hidx]
  rfl

theorem converging_of_converged (hdrained : Drained s) (hconverged : Converged s)
    (hrunning : ∀ idx ∈ s.manager.indexes, idx.paused = false) : Converging s where
  lags idx hidx := lags_of_drained (viewIn_drained hdrained hidx) (hconverged idx hidx)
  running _ := hrunning

/-- Once all queues are drained, every index has exactly the keys of its kind that are in the store
and in the range, in every run that keeps up. -/
theorem indexes_converge {s₀ : State} {events : List Event} (hrun : Run step Keeps s₀ events s)
    (hdrained₀ : Drained s₀) (hconverged₀ : Converged s₀)
    (hrunning₀ : ∀ idx ∈ s₀.manager.indexes, idx.paused = false) (hdrained : Drained s) :
    Converged s := by
  have hstep : ∀ s e s', Keeps s e → step s e = some s' → Converging s → Converging s' :=
    fun _ _ _ hkeeps hstep h => converging_step hkeeps hstep h
  have hconverging := hrun.invariant hstep
    (converging_of_converged hdrained₀ hconverged₀ hrunning₀)
  intro idx hidx entry
  exact (hconverging.lags idx hidx).drained (viewIn_drained hdrained hidx) entry

/-- The call mirrors the batch that is applied to the store, and nothing else is asked for. -/
def Mirrors (s : State) : Event → Prop
  | .batch store writes deletes _ _ => ∀ idx ∈ s.manager.indexes,
      (idx.source s.manager.byteRange).Told s.store store
        (idx.share (s.manager.clip ⟨writes, deletes⟩)).writes
        (idx.opOf (idx.share (s.manager.clip ⟨writes, deletes⟩))).deletes
  | .dequeue _ _ | .lookUp _ _ | .commit _ _ | .pause | .pauseIndex _ | .resume => True

def sampleKey : Bytes := [0x6B]

/-- A shard that holds every key, with one full-text index. -/
def sampleState (store contents : List Bytes) (queue : List (Op Bytes Bytes))
    (walBuf : List IndexOp) : State where
  store := store
  manager :=
    { byteRange := ⟨[], []⟩
      indexes := [{ name := [0x66], kind := .fullText, paused := false, view := ⟨queue, contents⟩ }]
      walBuf := walBuf
      paused := false }

theorem sampleKey_of_stored {e : Bytes} (h : keyRangeStart e ∈ [keyRangeStart sampleKey]) :
    e = sampleKey :=
  append_cancel_right (mem_singleton.mp h)

theorem told_write (idx : Index) (hkind : idx.kind = .fullText) :
    (idx.source ⟨[], []⟩).Told [] [keyRangeStart sampleKey] [sampleKey] [] := by
  have hentry : entryOf idx.name .fullText sampleKey = some sampleKey := by rfl
  unfold Index.source
  rw [hkind]
  refine ⟨fun k _ store e he hlive => ?_, fun e he => ?_, fun k e he hlive => ?_,
    fun e he => ?_, fun e he => Or.inr ⟨sampleKey, mem_cons_self, ?_⟩⟩
  · dsimp only at he hlive ⊢
    rw [he] at hlive
    exact ⟨rfl, of_decide_eq_true hlive⟩
  · cases he
  · dsimp only at he hlive
    rw [he] at hlive
    cases hlive
  · cases he.2
  · obtain rfl := sampleKey_of_stored he.2
    dsimp only
    rw [hentry]
    exact ⟨rfl, rfl⟩

theorem told_delete (idx : Index) (hkind : idx.kind = .fullText) :
    (idx.source ⟨[], []⟩).Told [keyRangeStart sampleKey] [] [] [sampleKey] := by
  unfold Index.source
  rw [hkind]
  refine ⟨fun k hk => ?_, fun e _ he => ?_, fun k e he hlive hout => ?_, fun e he hout => ?_,
    fun e he => ?_⟩
  · cases hk
  · cases he.2
  · dsimp only at he hlive
    rw [he] at hlive
    obtain rfl := sampleKey_of_stored (of_decide_eq_true hlive)
    exact absurd (mem_singleton_self _) hout
  · obtain rfl := sampleKey_of_stored he.2
    exact absurd (mem_singleton_self _) hout
  · cases he.2

theorem drained_sample (store contents : List Bytes) :
    Drained (sampleState store contents [] []) := by
  refine ⟨rfl, fun idx hidx => ?_⟩
  obtain rfl := mem_singleton.mp hidx
  rfl

/-- A document is written, and the plexer and the index get to it. -/
theorem indexes_converge_sample :
    Converged (sampleState [keyRangeStart sampleKey] [sampleKey] [] []) := by
  have hkeeps : Keeps (sampleState [] [] [] [])
      (.batch [keyRangeStart sampleKey] [sampleKey] [] .write fun _ => []) := by
    refine KeepsUp.mk (fun idx hidx => ?_) (fun idx hidx e _ _ op hop => ?_) (fun h => ?_) (fun h => ?_)
    · obtain rfl := List.mem_singleton.mp hidx
      exact told_write _ rfl
    · obtain rfl := List.mem_singleton.mp hidx
      cases hop
    · cases h
    · cases h
  have hbatch : step (sampleState [] [] [] [])
      (.batch [keyRangeStart sampleKey] [sampleKey] [] .write fun _ => []) =
      some (sampleState [keyRangeStart sampleKey] [] [] [⟨[sampleKey], []⟩]) := by rfl
  have hdequeue : step (sampleState [keyRangeStart sampleKey] [] [] [⟨[sampleKey], []⟩])
      (.dequeue 1 fun _ => [⟨[sampleKey], []⟩]) =
      some (sampleState [keyRangeStart sampleKey] [] [⟨[sampleKey], [], []⟩] []) := by rfl
  have hlookUp : step (sampleState [keyRangeStart sampleKey] [] [⟨[sampleKey], [], []⟩] [])
      (.lookUp [0x66] 0) =
      some (sampleState [keyRangeStart sampleKey] [] [⟨[], [sampleKey], []⟩] []) := by rfl
  have hcommit : step (sampleState [keyRangeStart sampleKey] [] [⟨[], [sampleKey], []⟩] [])
      (.commit [0x66] 1) =
      some (sampleState [keyRangeStart sampleKey] [sampleKey] [] []) := by rfl
  have hempty : Converged (sampleState [] [] [] []) := by
    intro idx hidx entry
    obtain rfl := List.mem_singleton.mp hidx
    constructor
    · intro hentry
      cases hentry
    · intro hholds
      cases hholds.2
  refine indexes_converge (.cons hkeeps hbatch (.cons (by trivial) hdequeue
    (.cons (by trivial) hlookUp (.cons (by trivial) hcommit (.nil _))))) (drained_sample _ _) hempty ?_
    (drained_sample _ _)
  intro idx hidx
  obtain rfl := List.mem_singleton.mp hidx
  rfl

/-- A document deleted and written again before the plexer gets to it: the two batches are merged,
the write is applied before the delete, and the document is in the store but not in the index. -/
theorem recreated_document_lost :
    ¬∀ (s₀ s : State) (events : List Event), Run step Mirrors s₀ events s → Drained s₀ →
      Converged s₀ → Drained s → Converged s := by
  intro hclaim
  have hstart : Converged (sampleState [keyRangeStart sampleKey] [sampleKey] [] []) := by
    intro idx hidx entry
    obtain rfl := List.mem_singleton.mp hidx
    constructor
    · intro hentry
      obtain rfl := List.mem_singleton.mp hentry
      exact ⟨rfl, List.mem_singleton_self _⟩
    · intro hholds
      obtain rfl := sampleKey_of_stored hholds.2
      exact List.mem_singleton_self _
  have hdelete : step (sampleState [keyRangeStart sampleKey] [sampleKey] [] [])
      (.batch [] [] [sampleKey] .write fun _ => []) =
      some (sampleState [] [sampleKey] [] [⟨[], [sampleKey]⟩]) := by rfl
  have hwrite : step (sampleState [] [sampleKey] [] [⟨[], [sampleKey]⟩])
      (.batch [keyRangeStart sampleKey] [sampleKey] [] .write fun _ => []) =
      some (sampleState [keyRangeStart sampleKey] [sampleKey] []
        [⟨[], [sampleKey]⟩, ⟨[sampleKey], []⟩]) := by rfl
  have hdequeue : step (sampleState [keyRangeStart sampleKey] [sampleKey] []
      [⟨[], [sampleKey]⟩, ⟨[sampleKey], []⟩])
      (.dequeue 2 fun _ => [⟨[sampleKey], [sampleKey]⟩]) =
      some (sampleState [keyRangeStart sampleKey] [sampleKey]
        [⟨[sampleKey], [], [sampleKey]⟩] []) := by rfl
  have hlookUp : step (sampleState [keyRangeStart sampleKey] [sampleKey]
      [⟨[sampleKey], [], [sampleKey]⟩] []) (.lookUp [0x66] 0) =
      some (sampleState [keyRangeStart sampleKey] [sampleKey]
        [⟨[], [sampleKey], [sampleKey]⟩] []) := by rfl
  have hcommit : step (sampleState [keyRangeStart sampleKey] [sampleKey]
      [⟨[], [sampleKey], [sampleKey]⟩] []) (.commit [0x66] 1) =
      some (sampleState [keyRangeStart sampleKey] [] [] []) := by rfl
  have htold : Mirrors (sampleState [keyRangeStart sampleKey] [sampleKey] [] [])
      (.batch [] [] [sampleKey] .write fun _ => []) := by
    intro idx hidx
    obtain rfl := List.mem_singleton.mp hidx
    exact told_delete _ rfl
  have htold' : Mirrors (sampleState [] [sampleKey] [] [⟨[], [sampleKey]⟩])
      (.batch [keyRangeStart sampleKey] [sampleKey] [] .write fun _ => []) := by
    intro idx hidx
    obtain rfl := List.mem_singleton.mp hidx
    exact told_write _ rfl
  have hend := hclaim _ _ _ (.cons htold hdelete (.cons htold' hwrite (.cons (by trivial) hdequeue
    (.cons (by trivial) hlookUp (.cons (by trivial) hcommit (.nil _)))))) (drained_sample _ _) hstart
    (drained_sample _ _)
  have hlost := (hend _ (List.mem_singleton_self _) sampleKey).mpr
    ⟨rfl, List.mem_singleton_self _⟩
  cases hlost

end Antfly.Indexes
