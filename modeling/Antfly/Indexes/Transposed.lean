import Antfly.Indexes.ReverseEdges

/-!
The steps of a shard with one graph index keep the reverse edges lagging behind the stored edges by
what is queued and what the backfill still has to copy, as long as each step keeps to what is said
in `GraphKeeps`.  With the queue drained and the backfill done, the reverse edges are the stored
edges transposed, and queries for incoming edges find exactly these.
-/

namespace Antfly.Indexes

open FedMap List Option

variable {ν : Type} {s s' : GraphState ν} {name : Bytes} {store store' : OrdMap Bytes ν}
  {idx : GraphIndex ν} {op : IndexOp}

/-- What the index has and what it is still to be given. -/
def GraphState.view (s : GraphState ν) : View Bytes ν where
  queue := s.walBuf.map (given s.index)
  rest := s.backfill
  contents := reverse s.index.name s.index.indexDB

/-- The batch is run and not refused, and the snapshot holds nothing else for its keys than the
store. -/
structure Workable (idx : GraphIndex ν) (store : OrdMap Bytes ν)
    (backfill : Option (List (Bytes × ν))) (op : FedMap.Op Bytes) : Prop where
  running : idx.paused = false
  accepted : ∀ key ∈ op.writes, idx.accepts store key = true
  fresh : ∀ rest, backfill = some rest → ∀ p ∈ rest, p.1 ∈ op.writes ∨ p.1 ∈ op.deletes →
    store.get? p.1 = some p.2

/-- The edges an operation changes are plain and in the range, none appears while its removal is
queued, and a batch that is not queued is workable. -/
structure OperationKeeps (s : GraphState ν) (store' : OrdMap Bytes ν) (op : IndexOp)
    (level : SyncLevel) : Prop where
  in_range : ∀ key, (edgeOf s.index.name key).isSome → store'.get? key ≠ s.store.get? key →
    s.index.byteRange.contains key = true
  plain_writes : AllPlain s.index.name op.writes
  plain_deletes : AllPlain s.index.name op.deletes
  appears_free : ∀ queued ∈ s.walBuf, ∀ key ∈ (given s.index queued).deletes,
    (edgeOf s.index.name key).isSome → store'.get? key = none
  workable : queued level = false → Workable s.index store' s.backfill (given s.index op)

def GraphKeeps (s : GraphState ν) : GraphEvent ν → Prop
  | .operate operation => operation.Covers s.store s.index.name ∧
      ∀ store' op level, operation.apply s.store s.index.name = some (store', op, level) →
        OperationKeeps s store' op level
  | .dequeue n =>
    Workable s.index s.store s.backfill (given s.index (mergeOps (s.walBuf.take n)))
  | .startBackfill startKey => ∀ key, (edgeOf s.index.name key).isSome →
      (s.store.get? key).isSome → startKey ≤ key
  | .backfill | .pause | .resume => True

/-- The index lags behind the stored edges, which are plain and in the range. -/
structure Transposing (s : GraphState ν) : Prop where
  lags : Lags (forward s.index.name s.store) s.view
  stored_plain : ∀ key, (s.store.get? key).isSome →
    edgeOf s.index.name key = plainEdge s.index.name key
  stored_range : ∀ key, (edgeOf s.index.name key).isSome → (s.store.get? key).isSome →
    s.index.byteRange.contains key = true
  queue_plain : ∀ op ∈ s.walBuf,
    AllPlain s.index.name op.writes ∧ AllPlain s.index.name op.deletes
  filed : AllFiled s.index.name s.index.indexDB
  rest_plain : ∀ rest, s.backfill = some rest → ∀ p ∈ rest,
    (edgeOf s.index.name p.1).isSome ∧ edgeOf s.index.name p.1 = plainEdge s.index.name p.1
  rest_nodup : ∀ rest, s.backfill = some rest → (rest.map Prod.fst).Nodup

variable {key startKey : Bytes} {level : SyncLevel} {n : ℕ} {rest : List (Bytes × ν)}
variable {e : GraphEvent ν} {backfill : Option (List (Bytes × ν))}

theorem edge_ne_nil (h : (edgeOf name key).isSome) : key ≠ [] := by
  rintro rfl
  obtain ⟨edge, hedge⟩ := isSome_iff_exists.mp h
  have hcontains := (edgeOf_eq_some hedge).1
  have hinfix := contains_iff.mp hcontains
  have hnil := infix_nil.mp hinfix
  have hmarker : (58 : UInt8) ∈ indexSuffix name ++ outMarker :=
    mem_append_right _ (by decide)
  rw [hnil] at hmarker
  cases hmarker

theorem forward_ne_none (h : forward name store key ≠ none) :
    (edgeOf name key).isSome ∧ store.get? key ≠ none := by
  unfold forward at h
  cases hplain : plainEdge name key with
  | none =>
    rw [hplain] at h
    exact absurd rfl h
  | some edge =>
    rw [hplain] at h
    exact ⟨by rw [(plainEdge_eq_some.mp hplain).1]; rfl, h⟩

theorem forward_of_plain {edge : ParsedEdge} (h : plainEdge name key = some edge) :
    forward name store key = store.get? key := by
  unfold forward
  rw [h]
  rfl

theorem told_of_passes (hpasses : Passes idx.name store store' op)
    (hrange : ∀ key, (edgeOf idx.name key).isSome → store'.get? key ≠ store.get? key →
      idx.byteRange.contains key = true) :
    Told (forward idx.name store) (forward idx.name store') (given idx op).writes
      (given idx op).deletes where
  gone k hk := by
    by_contra hne
    obtain ⟨hedge, hsome⟩ := forward_ne_none hne
    exact hsome (hpasses.gone k (mem_given_deletes.mp hk).1.1 hedge)
  lost k hnone hne := by
    obtain ⟨hedge, hsome⟩ := forward_ne_none hne
    have hplain : ∃ edge, plainEdge idx.name k = some edge := by
      unfold forward at hne
      obtain ⟨x, hx⟩ := ne_none_iff_exists'.mp hne
      obtain ⟨edge, hedge, -⟩ := bind_eq_some_iff.mp hx
      exact ⟨edge, hedge⟩
    obtain ⟨edge, hplain⟩ := hplain
    rw [forward_of_plain hplain] at hnone
    have hchanged : store'.get? k ≠ store.get? k := by
      rw [hnone]
      exact hsome.symm
    have hin := hrange k hedge hchanged
    have hne := edge_ne_nil hedge
    refine mem_given_deletes.mpr ⟨⟨hpasses.lost k hedge hnone hsome, ?_⟩, hne, ?_⟩
    · rw [hin, Bool.and_true, Bool.not_eq_true', isEmpty_eq_false_iff]
      exact hne
    · exact routed_of_edgeOf (plainEdge_eq_some.mp hplain).1
  new k hne hchanged := by
    obtain ⟨hedge, hsome⟩ := forward_ne_none hne
    have hraw : store'.get? k ≠ store.get? k := by
      intro heq
      apply hchanged
      unfold forward
      rw [heq]
    have hin := hrange k hedge hraw
    refine mem_given_writes.mpr ⟨hpasses.new k hsome hraw, ?_⟩
    rw [hin, Bool.and_true, Bool.not_eq_true', isEmpty_eq_false_iff]
    exact edge_ne_nil hedge

theorem appearsFree_of (h : ∀ queued ∈ s.walBuf, ∀ key ∈ (given s.index queued).deletes,
    (edgeOf s.index.name key).isSome → store'.get? key = none) :
    AppearsFree (forward s.index.name store') s.view.queue := by
  rintro k ⟨op, hop, hk⟩
  obtain ⟨queued, hqueued, rfl⟩ := mem_map.mp hop
  by_contra hne
  obtain ⟨hedge, hsome⟩ := forward_ne_none hne
  exact hsome (h queued hqueued k hk hedge)

theorem fresh_of_workable (h : Transposing s) {op : FedMap.Op Bytes}
    (hwork : Workable s.index store' s.backfill op) :
    Fresh (forward s.index.name store') s.view op.writes op.deletes := by
  rintro k x ⟨rest, hrest, hx⟩ hk
  obtain ⟨hedge, hplain⟩ := h.rest_plain rest hrest _ hx
  obtain ⟨edge, hedge⟩ := isSome_iff_exists.mp hedge
  rw [hedge] at hplain
  rw [forward_of_plain hplain.symm]
  exact hwork.fresh rest hrest _ hx hk

theorem allPlain_given (hwrites : AllPlain idx.name op.writes)
    (hdeletes : AllPlain idx.name op.deletes) :
    AllPlain idx.name (given idx op).writes ∧ AllPlain idx.name (given idx op).deletes := by
  constructor
  · intro key hkey
    exact hwrites key (mem_given_writes.mp hkey).1
  · intro key hkey
    exact hdeletes key (mem_given_deletes.mp hkey).1.1

theorem allPlain_merged {ops : List IndexOp}
    (h : ∀ op ∈ ops, AllPlain name op.writes ∧ AllPlain name op.deletes) :
    AllPlain name (mergeOps ops).writes ∧ AllPlain name (mergeOps ops).deletes := by
  constructor
  · intro key hkey
    obtain ⟨op, hop, hkey⟩ := mem_flatMap.mp hkey
    exact (h op hop).1 key hkey
  · intro key hkey
    obtain ⟨op, hop, hkey⟩ := mem_flatMap.mp hkey
    exact (h op hop).2 key hkey

theorem stored_of_passes (h : Transposing s) (hpasses : Passes s.index.name s.store store' op)
    (hkeeps : OperationKeeps s store' op level) :
    (∀ key, (store'.get? key).isSome → edgeOf s.index.name key = plainEdge s.index.name key) ∧
      ∀ key, (edgeOf s.index.name key).isSome → (store'.get? key).isSome →
        s.index.byteRange.contains key = true := by
  constructor
  · intro key hsome
    by_cases hchanged : store'.get? key = s.store.get? key
    · rw [hchanged] at hsome
      exact h.stored_plain key hsome
    · exact hkeeps.plain_writes key
        (hpasses.new key (isSome_iff_ne_none.mp hsome) hchanged)
  · intro key hedge hsome
    by_cases hchanged : store'.get? key = s.store.get? key
    · rw [hchanged] at hsome
      exact h.stored_range key hedge hsome
    · exact hkeeps.in_range key hedge hchanged

theorem queued_of_partition {op : IndexOp} {piece : IndexOp}
    (hpiece : piece ∈ partitionBatch indexManagerPartitionSize
      (op.writes.length + op.deletes.length) op.writes op.deletes)
    (hwrites : AllPlain name op.writes) (hdeletes : AllPlain name op.deletes) :
    AllPlain name piece.writes ∧ AllPlain name piece.deletes := by
  have hsize : 0 < indexManagerPartitionSize := Nat.succ_pos _
  obtain ⟨hcutw, hcutd⟩ := partitionBatch_cuts hsize
    (Nat.le_refl (op.writes.length + op.deletes.length))
  dsimp only at hcutw hcutd
  constructor
  · intro key hkey
    apply hwrites
    rw [← hcutw]
    exact mem_flatMap.mpr ⟨piece, hpiece, hkey⟩
  · intro key hkey
    apply hdeletes
    rw [← hcutd]
    exact mem_flatMap.mpr ⟨piece, hpiece, hkey⟩

theorem transposing_queued (h : Transposing s) (hpasses : Passes s.index.name s.store store' op)
    (hkeeps : OperationKeeps s store' op level) :
    Transposing { s with
      store := store'
      walBuf := s.walBuf ++ partitionBatch indexManagerPartitionSize
        (op.writes.length + op.deletes.length) op.writes op.deletes } := by
  obtain ⟨hplain, hrange⟩ := stored_of_passes h hpasses hkeeps
  have hsize : 0 < indexManagerPartitionSize := Nat.succ_pos _
  have hcuts := partitionBatch_cuts hsize (Nat.le_refl (op.writes.length + op.deletes.length))
  have hlags := h.lags.queued (told_of_passes hpasses hkeeps.in_range)
    (appearsFree_of hkeeps.appears_free) (announces_given hcuts)
  refine ⟨?_, hplain, hrange, ?_, h.filed, h.rest_plain, h.rest_nodup⟩
  · unfold GraphState.view at hlags ⊢
    rw [map_append]
    exact hlags
  · intro piece hpiece
    rcases mem_append.mp hpiece with hpiece | hpiece
    · exact h.queue_plain piece hpiece
    · exact queued_of_partition hpiece hkeeps.plain_writes hkeeps.plain_deletes

theorem transposing_executed (h : Transposing s) (hpasses : Passes s.index.name s.store store' op)
    (hkeeps : OperationKeeps s store' op level)
    (hwork : Workable s.index store' s.backfill (given s.index op)) :
    Transposing { s with store := store', index := s.index.execute store' op } := by
  obtain ⟨hplain, hrange⟩ := stored_of_passes h hpasses hkeeps
  obtain ⟨hwrites, hdeletes⟩ := allPlain_given hkeeps.plain_writes hkeeps.plain_deletes
  have hlags := h.lags.executed (told_of_passes hpasses hkeeps.in_range)
    (appearsFree_of hkeeps.appears_free) (fresh_of_workable h hwork)
  rw [execute_eq hwork.running hwork.accepted]
  refine ⟨?_, hplain, hrange, h.queue_plain, allFiled_fedIndex hwrites h.filed, h.rest_plain,
    h.rest_nodup⟩
  have hreverse : reverse s.index.name
      (fedIndex s.index store' (given s.index op).writes (given s.index op).deletes).indexDB =
      _ := reverse_fedIndex hwrites hdeletes
  unfold GraphState.view at hlags ⊢
  dsimp only at hlags ⊢
  rw [← hreverse] at hlags
  exact hlags

theorem transposing_dequeue (h : Transposing s)
    (hwork : Workable s.index s.store s.backfill (given s.index (mergeOps (s.walBuf.take n)))) :
    Transposing { s with
      walBuf := s.walBuf.drop n
      index := s.index.execute s.store (mergeOps (s.walBuf.take n)) } := by
  have htaken : ∀ op ∈ s.walBuf.take n,
      AllPlain s.index.name op.writes ∧ AllPlain s.index.name op.deletes :=
    fun op hop => h.queue_plain op (mem_of_mem_take hop)
  obtain ⟨hmergedw, hmergedd⟩ := allPlain_merged htaken
  obtain ⟨hwrites, hdeletes⟩ := allPlain_given hmergedw hmergedd
  have hqueue : s.view.queue = [] ++ (s.walBuf.take n).map (given s.index) ++
      (s.walBuf.drop n).map (given s.index) := by
    rw [nil_append, ← map_append, take_append_drop]
    rfl
  have hmerge : IndexManager.CutsInto (mergeOps (s.walBuf.take n)) (s.walBuf.take n) :=
    ⟨rfl, rfl⟩
  have hlags := h.lags.fed hqueue (announces_given hmerge) (fresh_of_workable h hwork)
  rw [execute_eq hwork.running hwork.accepted]
  refine ⟨?_, h.stored_plain, h.stored_range,
    fun op hop => h.queue_plain op (mem_of_mem_drop hop),
    allFiled_fedIndex hwrites h.filed, h.rest_plain, h.rest_nodup⟩
  have hreverse : reverse s.index.name (fedIndex s.index s.store
      (given s.index (mergeOps (s.walBuf.take n))).writes
      (given s.index (mergeOps (s.walBuf.take n))).deletes).indexDB = _ :=
    reverse_fedIndex hwrites hdeletes
  unfold GraphState.view at hlags ⊢
  dsimp only at hlags ⊢
  rw [← hreverse] at hlags
  exact hlags

theorem mem_backfillScan (h : Transposing s)
    (hstart : ∀ key, (edgeOf s.index.name key).isSome → (s.store.get? key).isSome → startKey ≤ key)
    {x : ν} :
    (key, x) ∈ s.index.backfillScan s.store startKey ↔
      forward s.index.name s.store key = some x := by
  unfold GraphIndex.backfillScan
  rw [mem_filter, OrdMap.mem_entries_iff, Bool.and_eq_true, Bool.and_eq_true,
    decide_eq_true_eq]
  dsimp only
  constructor
  · rintro ⟨hget, -, hedge⟩
    have hsome : (s.store.get? key).isSome := by
      rw [hget]
      rfl
    obtain ⟨edge, hedge⟩ := isSome_iff_exists.mp hedge
    have hplain := h.stored_plain key hsome
    rw [hedge] at hplain
    rw [forward_of_plain hplain.symm]
    exact hget
  · intro hforward
    obtain ⟨edge, hplain, hget⟩ := bind_eq_some_iff.mp hforward
    have hsome : (s.store.get? key).isSome := by
      rw [hget]
      rfl
    have hedge : (edgeOf s.index.name key).isSome := by
      rw [(plainEdge_eq_some.mp hplain).1]
      rfl
    exact ⟨hget, ⟨hstart key hedge hsome, h.stored_range key hedge hsome⟩, hedge⟩

theorem transposing_startBackfill (h : Transposing s) {startKey : Bytes}
    (hstart : ∀ key, (edgeOf s.index.name key).isSome → (s.store.get? key).isSome →
      startKey ≤ key) :
    Transposing { s with backfill := some (s.index.backfillScan s.store startKey) } := by
  refine ⟨h.lags.begin fun _ _ => mem_backfillScan h hstart, h.stored_plain, h.stored_range,
    h.queue_plain, h.filed, ?_, ?_⟩
  · intro rest hrest p hp
    cases hrest
    obtain ⟨hmem, hshown⟩ := mem_filter.mp hp
    have hsome : (s.store.get? p.1).isSome := by
      rw [(OrdMap.mem_entries_iff ..).mp hmem]
      rfl
    rw [Bool.and_eq_true] at hshown
    exact ⟨hshown.2, h.stored_plain p.1 hsome⟩
  · intro rest hrest
    cases hrest
    have hsorted := s.store.sorted.filter fun p =>
      decide (startKey ≤ p.1) && s.index.byteRange.contains p.1 &&
        (edgeOf s.index.name p.1).isSome
    unfold List.Nodup
    rw [pairwise_map]
    exact hsorted.imp fun hlt heq => (lt_irrefl _ (heq ▸ hlt)).elim

theorem transposing_backfill (h : Transposing s) (hrest : s.backfill = some rest) (n : ℕ) :
    Transposing { s with
      index := s.index.commitBackfill (rest.take n)
      backfill := some (rest.drop n) } := by
  have hsplit : s.view.rest = some (rest.take n ++ rest.drop n) := by
    rw [take_append_drop]
    exact hrest
  have hchunk : AllPlain s.index.name ((rest.take n).map Prod.fst) := by
    intro key hkey
    obtain ⟨p, hp, rfl⟩ := mem_map.mp hkey
    exact (h.rest_plain rest hrest p (mem_of_mem_take hp)).2
  have hedges : (rest.take n).filter (fun p => (edgeOf s.index.name p.1).isSome) =
      rest.take n := by
    rw [filter_eq_self]
    exact fun p hp => (h.rest_plain rest hrest p (mem_of_mem_take hp)).1
  have hlags := h.lags.chunk hsplit
  refine ⟨?_, h.stored_plain, h.stored_range, h.queue_plain,
    allFiled_commitBackfill hchunk h.filed, ?_, ?_⟩
  · have hreverse : reverse s.index.name (s.index.commitBackfill (rest.take n)).indexDB = _ :=
      reverse_commitBackfill hchunk
    rw [hedges] at hreverse
    unfold GraphState.view at hlags ⊢
    dsimp only at hlags ⊢
    rw [← hreverse] at hlags
    exact hlags
  · intro rest' hrest' p hp
    cases hrest'
    exact h.rest_plain rest hrest p (mem_of_mem_drop hp)
  · intro rest' hrest'
    cases hrest'
    have hnodup := h.rest_nodup rest hrest
    rw [← take_append_drop n rest, map_append] at hnodup
    exact hnodup.of_append_right

theorem transposing_paused (h : Transposing s) (paused : Bool) :
    Transposing { s with index := { s.index with paused := paused } } :=
  ⟨h.lags, h.stored_plain, h.stored_range, h.queue_plain, h.filed, h.rest_plain, h.rest_nodup⟩

theorem graphStep_dequeue (h : graphStep s (.dequeue n) = some s') :
    s' = { s with
      walBuf := s.walBuf.drop n
      index := s.index.execute s.store (mergeOps (s.walBuf.take n)) } := by
  dsimp only [graphStep] at h
  split at h
  · exact (Option.some.inj h).symm
  · cases h

theorem graphStep_startBackfill (h : graphStep s (.startBackfill startKey) = some s') :
    s' = { s with backfill := some (s.index.backfillScan s.store startKey) } := by
  dsimp only [graphStep] at h
  split at h
  · exact (Option.some.inj h).symm
  · cases h

theorem graphStep_backfill (h : graphStep s .backfill = some s') :
    ∃ rest, s.backfill = some rest ∧ s' = { s with
      index := s.index.commitBackfill (rest.take GraphIndex.maxBatchSize)
      backfill := some (rest.drop GraphIndex.maxBatchSize) } := by
  dsimp only [graphStep] at h
  split at h
  · cases h
  · rename_i rest hrest
    split at h
    · cases h
    · exact ⟨rest, hrest, (Option.some.inj h).symm⟩

theorem transposing_step (hkeeps : GraphKeeps s e) (hstep : graphStep s e = some s')
    (h : Transposing s) :
    Transposing s' := by
  cases e with
  | operate operation =>
    obtain ⟨hcovers, hkeeps⟩ := hkeeps
    obtain ⟨⟨store', op, level⟩, happly, hbatch⟩ := bind_eq_some_iff.mp hstep
    have hpasses := passes_of_apply happly hcovers
    have hop := hkeeps store' op level happly
    cases level with
    | propose | write =>
      cases hbatch
      exact transposing_queued h hpasses hop
    | fullText | embeddings =>
      cases hbatch
      exact transposing_executed h hpasses hop (hop.workable rfl)
    | enrichments | internalMergeCopy => cases hbatch
  | dequeue n =>
    rw [graphStep_dequeue hstep]
    exact transposing_dequeue h hkeeps
  | startBackfill startKey =>
    rw [graphStep_startBackfill hstep]
    exact transposing_startBackfill h hkeeps
  | backfill =>
    obtain ⟨rest, hrest, rfl⟩ := graphStep_backfill hstep
    exact transposing_backfill h hrest _
  | pause =>
    cases hstep
    exact transposing_paused h true
  | resume =>
    cases hstep
    exact transposing_paused h false

/-- Every edge worked off or copied is new to the index, and every edge removed is there. -/
def GraphCountsOnce (s : GraphState ν) : GraphEvent ν → Prop
  | .operate operation => ∀ store' op level,
      operation.apply s.store s.index.name = some (store', op, level) → queued level = false →
        CountsOnce s.index store' (given s.index op)
  | .dequeue n => CountsOnce s.index s.store (given s.index (mergeOps (s.walBuf.take n)))
  | .backfill => ∀ rest, s.backfill = some rest → ∀ p ∈ rest.take GraphIndex.maxBatchSize,
      reverse s.index.name s.index.indexDB p.1 = none
  | .startBackfill _ | .pause | .resume => True

/-- The counts are those of the edges the index has. -/
def Counting (s : GraphState ν) : Prop :=
  Tallies (typeOf s.index.name) (reverse s.index.name s.index.indexDB) s.index.edgeTypeCounts

theorem name_execute (hwork : Workable idx store backfill (given idx op)) :
    (idx.execute store op).name = idx.name := by
  rw [execute_eq hwork.running hwork.accepted]
  rfl

theorem counting_execute (hwork : Workable idx store backfill (given idx op))
    (hwrites : AllPlain idx.name op.writes) (hdeletes : AllPlain idx.name op.deletes)
    (honce : CountsOnce idx store (given idx op))
    (h : Tallies (typeOf idx.name) (reverse idx.name idx.indexDB) idx.edgeTypeCounts) :
    Tallies (typeOf (idx.execute store op).name)
      (reverse (idx.execute store op).name (idx.execute store op).indexDB)
      (idx.execute store op).edgeTypeCounts := by
  obtain ⟨hgivenw, hgivend⟩ := allPlain_given hwrites hdeletes
  have htallies := tallies_fedIndex hgivenw hgivend (nodup_given_deletes op) h honce
  rw [name_execute hwork, execute_eq hwork.running hwork.accepted]
  exact htallies

theorem counting_backfill (h : Transposing s) (hrest : s.backfill = some rest)
    (hnew : ∀ p ∈ rest.take n, reverse s.index.name s.index.indexDB p.1 = none)
    (hcounting : Counting s) :
    Counting { s with
      index := s.index.commitBackfill (rest.take n)
      backfill := some (rest.drop n) } := by
  have hchunk : AllPlain s.index.name ((rest.take n).map Prod.fst) := by
    intro key hkey
    obtain ⟨p, hp, rfl⟩ := mem_map.mp hkey
    exact (h.rest_plain rest hrest p (mem_of_mem_take hp)).2
  have hedges : (rest.take n).filter (fun p => (edgeOf s.index.name p.1).isSome) =
      rest.take n := by
    rw [filter_eq_self]
    exact fun p hp => (h.rest_plain rest hrest p (mem_of_mem_take hp)).1
  have hnodup := h.rest_nodup rest hrest
  rw [← take_append_drop n rest, map_append] at hnodup
  have hfree : ∀ k ∈ (rest.take n).map Prod.fst,
      reverse s.index.name s.index.indexDB k = none := by
    intro k hk
    obtain ⟨p, hp, rfl⟩ := mem_map.mp hk
    exact hnew p hp
  have hreverse : reverse s.index.name (s.index.commitBackfill (rest.take n)).indexDB = _ :=
    reverse_commitBackfill hchunk
  rw [hedges] at hreverse
  have htallies := Tallies.chunk hcounting hnodup.of_append_left hfree
  rw [← hreverse, ← counts_commitBackfill] at htallies
  exact htallies

theorem counting_step (hkeeps : GraphKeeps s e) (honce : GraphCountsOnce s e)
    (hstep : graphStep s e = some s') (h : Transposing s) (hcounting : Counting s) :
    Counting s' := by
  cases e with
  | operate operation =>
    obtain ⟨hcovers, hkeeps⟩ := hkeeps
    obtain ⟨⟨store', op, level⟩, happly, hbatch⟩ := bind_eq_some_iff.mp hstep
    have hop := hkeeps store' op level happly
    have hcounts := honce store' op level happly
    cases level with
    | propose | write =>
      cases hbatch
      exact hcounting
    | fullText | embeddings =>
      cases hbatch
      exact counting_execute (hop.workable rfl) hop.plain_writes hop.plain_deletes (hcounts rfl)
        hcounting
    | enrichments | internalMergeCopy => cases hbatch
  | dequeue n =>
    have htaken : ∀ op ∈ s.walBuf.take n,
        AllPlain s.index.name op.writes ∧ AllPlain s.index.name op.deletes :=
      fun op hop => h.queue_plain op (mem_of_mem_take hop)
    obtain ⟨hwrites, hdeletes⟩ := allPlain_merged htaken
    rw [graphStep_dequeue hstep]
    exact counting_execute hkeeps hwrites hdeletes honce hcounting
  | startBackfill startKey =>
    rw [graphStep_startBackfill hstep]
    exact hcounting
  | backfill =>
    obtain ⟨rest, hrest, rfl⟩ := graphStep_backfill hstep
    exact counting_backfill h hrest (honce rest hrest) hcounting
  | pause =>
    cases hstep
    exact hcounting
  | resume =>
    cases hstep
    exact hcounting

/-- A graph index that has just been opened on a store. -/
structure GraphOpened (s : GraphState ν) : Prop where
  walBuf : s.walBuf = []
  indexDB : s.index.indexDB = OrdMap.empty
  counts : s.index.edgeTypeCounts = fun _ => 0
  backfill : s.backfill = none

/-- The stored edges are plain and in the range. -/
structure StoredPlain (s : GraphState ν) : Prop where
  plain : ∀ key, (s.store.get? key).isSome →
    edgeOf s.index.name key = plainEdge s.index.name key
  in_range : ∀ key, (edgeOf s.index.name key).isSome → (s.store.get? key).isSome →
    s.index.byteRange.contains key = true

/-- The entries of the index are the stored edges, filed under their targets. -/
def Transposed (s : GraphState ν) : Prop :=
  ∀ r x, s.index.indexDB.get? r = some x ↔
    ∃ key edge, edgeOf s.index.name key = some edge ∧ s.store.get? key = some x ∧
      r = s.index.indexKey edge

/-- Queries find the stored edges into the target, of the type if one is given. -/
def Answers (s : GraphState ν) : Prop :=
  ∀ target edgeType, 58 ∉ edgeType → ∀ e : Edge ν,
    e ∈ s.index.queryEdgeIndex target edgeType ↔
      e.target = target ∧ (edgeType = [] ∨ e.edgeType = edgeType) ∧
        ∃ key, s.store.get? key = some e.value ∧
          edgeOf s.index.name key =
            some ⟨e.source, e.target, s.index.name, e.edgeType⟩

/-- The count of each type is the number of stored edges of it. -/
def Counted (s : GraphState ν) : Prop :=
  ∀ t, s.index.edgeTypeCounts t =
    (s.store.entries.filter fun p => typeOf s.index.name p.1 = some t).length

theorem transposing_opened (hopened : GraphOpened s) (hplain : StoredPlain s) :
    Transposing s := by
  have hempty : ∀ k, reverse s.index.name s.index.indexDB k = none := by
    intro k
    rw [hopened.indexDB]
    unfold reverse
    cases plainEdge s.index.name k <;> rfl
  have hview : s.view = { queue := [], rest := none, contents := fun _ => none } := by
    unfold GraphState.view
    rw [hopened.walBuf, hopened.backfill]
    exact congrArg (View.mk [] none) (funext hempty)
  refine ⟨?_, hplain.plain, hplain.in_range, ?_, ?_, ?_, ?_⟩
  · rw [hview]
    exact lags_of_empty _
  · intro op hop
    rw [hopened.walBuf] at hop
    cases hop
  · intro r x hget
    rw [hopened.indexDB] at hget
    cases hget
  · intro rest hrest
    rw [hopened.backfill] at hrest
    cases hrest
  · intro rest hrest
    rw [hopened.backfill] at hrest
    cases hrest

theorem counting_opened (hopened : GraphOpened s) : Counting s := by
  unfold Counting
  have hempty : reverse s.index.name s.index.indexDB = fun _ => none := by
    funext k
    rw [hopened.indexDB]
    unfold reverse
    cases plainEdge s.index.name k <;> rfl
  rw [hempty, hopened.counts]
  exact tallies_empty _

theorem reverse_eq_forward (h : Transposing s) (hqueue : s.walBuf = [])
    (hdone : s.backfill = some []) :
    reverse s.index.name s.index.indexDB = forward s.index.name s.store := by
  have hempty : s.view.queue = [] := by
    unfold GraphState.view
    rw [hqueue]
    rfl
  exact h.lags.drained hempty hdone

theorem transposed_of (h : Transposing s) (hqueue : s.walBuf = [])
    (hdone : s.backfill = some []) : Transposed s := by
  have heq := reverse_eq_forward h hqueue hdone
  intro r x
  constructor
  · intro hget
    obtain ⟨key, edge, hplain, rfl⟩ := h.filed r x hget
    have hreverse : reverse s.index.name s.index.indexDB key = some x := by
      unfold reverse
      rw [hplain]
      exact hget
    rw [heq, forward_of_plain hplain] at hreverse
    exact ⟨key, edge, (plainEdge_eq_some.mp hplain).1, hreverse, rfl⟩
  · rintro ⟨key, edge, hedge, hget, rfl⟩
    have hsome : (s.store.get? key).isSome := by
      rw [hget]
      rfl
    have hplain := h.stored_plain key hsome
    rw [hedge] at hplain
    have hforward : forward s.index.name s.store key = some x := by
      rw [forward_of_plain hplain.symm]
      exact hget
    rw [← heq] at hforward
    unfold reverse at hforward
    rw [← hplain] at hforward
    exact hforward

theorem answers_of (h : Transposing s) (htransposed : Transposed s) : Answers s := by
  have hstored : ∀ key edge x, edgeOf s.index.name key = some edge →
      s.store.get? key = some x → Filed s.index.name edge := by
    intro key edge x hedge hget
    have hsome : (s.store.get? key).isSome := by
      rw [hget]
      rfl
    have hplain := h.stored_plain key hsome
    rw [hedge] at hplain
    exact (plainEdge_eq_some.mp hplain.symm).2.2
  have hfiled : ∀ r x, s.index.indexDB.get? r = some x →
      ∃ edge, Filed s.index.name edge ∧ r = s.index.indexKey edge := by
    intro r x hget
    obtain ⟨key, edge, hplain, hr⟩ := h.filed r x hget
    exact ⟨edge, (plainEdge_eq_some.mp hplain).2.2, hr⟩
  intro target edgeType hcolon e
  rw [mem_queryEdgeIndex hfiled hcolon]
  apply and_congr_right
  intro _
  apply and_congr_right
  intro _
  constructor
  · rintro ⟨edge, hfiled, hsource, htarget, htype, hget⟩
    obtain ⟨key, edge', hedge', hget', hkey⟩ := (htransposed _ _).mp hget
    obtain ⟨htarget', hsource', htype'⟩ := filed_inj hfiled (hstored key edge' _ hedge' hget') hkey
    have hname := (edgeOf_eq_some hedge').2.2
    refine ⟨key, hget', ?_⟩
    rw [hedge', ← hsource, ← htarget, ← htype, htarget', hsource', htype', ← hname]
  · rintro ⟨key, hget, hedge⟩
    exact ⟨_, hstored key _ _ hedge hget, rfl, rfl, rfl,
      (htransposed _ _).mpr ⟨key, _, hedge, hget, rfl⟩⟩

theorem counted_of (h : Transposing s) (hcounting : Counting s) (hqueue : s.walBuf = [])
    (hdone : s.backfill = some []) : Counted s := by
  have heq := reverse_eq_forward h hqueue hdone
  have hnodup : (s.store.entries.map Prod.fst).Nodup := by
    unfold List.Nodup
    rw [pairwise_map]
    exact s.store.sorted.imp fun hlt heq => (lt_irrefl _ (heq ▸ hlt)).elim
  intro t
  have hkeys : ((s.store.entries.map Prod.fst).filter fun key =>
      (edgeOf s.index.name key).isSome).Nodup := hnodup.filter _
  have hmem : ∀ k, k ∈ (s.store.entries.map Prod.fst).filter
      (fun key => (edgeOf s.index.name key).isSome) ↔
      (reverse s.index.name s.index.indexDB k).isSome := by
    intro k
    rw [heq, mem_filter, List.mem_map]
    constructor
    · rintro ⟨⟨p, hp, rfl⟩, hedge⟩
      have hget := (OrdMap.mem_entries_iff ..).mp hp
      have hsome : (s.store.get? p.1).isSome := by
        rw [hget]
        rfl
      obtain ⟨edge, hedge⟩ := isSome_iff_exists.mp hedge
      have hplain := h.stored_plain p.1 hsome
      rw [hedge] at hplain
      rw [forward_of_plain hplain.symm]
      exact hsome
    · intro hsome
      obtain ⟨x, hx⟩ := isSome_iff_exists.mp hsome
      obtain ⟨edge, hplain, hget⟩ := bind_eq_some_iff.mp hx
      refine ⟨⟨(k, x), (OrdMap.mem_entries_iff ..).mpr hget, rfl⟩, ?_⟩
      rw [(plainEdge_eq_some.mp hplain).1]
      rfl
  rw [Tallies.eq hcounting hkeys hmem t]
  unfold tallyOf
  rw [countP_filter, countP_map, countP_eq_length_filter]
  apply congrArg
  apply filter_congr
  intro p _
  dsimp only [Function.comp_apply]
  unfold typeOf
  cases edgeOf s.index.name p.1 <;> simp

/-- Once the queue is drained and the backfill is done, the reverse edges are the stored edges
transposed and queries find them; and if no edge was counted twice, the counts are right. -/
theorem reverse_edges_transposed {s₀ : GraphState ν} {events : List (GraphEvent ν)}
    (hopened : GraphOpened s₀) (hplain : StoredPlain s₀)
    (hrun : Run graphStep GraphKeeps s₀ events s) (hqueue : s.walBuf = [])
    (hdone : s.backfill = some []) :
    Transposed s ∧ Answers s ∧
      (Run graphStep (fun s e => GraphKeeps s e ∧ GraphCountsOnce s e) s₀ events s →
        Counted s) := by
  have hstep : ∀ (s : GraphState ν) e s', GraphKeeps s e → graphStep s e = some s' → Transposing s →
      Transposing s' := fun _ _ _ hkeeps hstep h => transposing_step hkeeps hstep h
  have htransposing := hrun.invariant hstep (transposing_opened hopened hplain)
  have htransposed := transposed_of htransposing hqueue hdone
  refine ⟨htransposed, answers_of htransposing htransposed, fun hcounts => ?_⟩
  have hstep' : ∀ (s : GraphState ν) e s', GraphKeeps s e ∧ GraphCountsOnce s e →
      graphStep s e = some s' → Transposing s ∧ Counting s → Transposing s' ∧ Counting s' :=
    fun _ _ _ hok hstep h => ⟨transposing_step hok.1 hstep h.1,
      counting_step hok.1 hok.2 hstep h.1 h.2⟩
  have hboth := hcounts.invariant hstep'
    ⟨transposing_opened hopened hplain, counting_opened hopened⟩
  exact counted_of hboth.1 hboth.2 hqueue hdone

def sampleEdgeKey (target : Char) : Bytes :=
  makeEdgeKey (ascii ['a']) (ascii [target]) (ascii ['g']) (ascii ['t'])

/-- A graph index without configured types, opened on a shard that holds every key and one edge. -/
def sampleOpened : GraphState ℕ where
  store := OrdMap.empty.insert (sampleEdgeKey 'b') 1
  walBuf := []
  index :=
    { name := ascii ['g']
      edgeTypes := []
      byteRange := ⟨[], []⟩
      paused := false
      indexDB := OrdMap.empty
      edgeTypeCounts := fun _ => 0 }
  backfill := none

theorem sampleOpened_opened : GraphOpened sampleOpened := ⟨rfl, rfl, rfl, rfl⟩

theorem sampleOpened_plain : StoredPlain sampleOpened := by
  have hkey : ∀ key, (sampleOpened.store.get? key).isSome → key = sampleEdgeKey 'b' := by
    intro key hsome
    by_contra hne
    unfold sampleOpened at hsome
    rw [OrdMap.get?_insert, if_neg hne] at hsome
    cases hsome
  constructor
  · intro key hsome
    rw [hkey key hsome]
    decide
  · intro key _ hsome
    rw [hkey key hsome]
    decide

def sampleScanned : GraphState ℕ :=
  { sampleOpened with backfill := some [(sampleEdgeKey 'b', 1)] }

def sampleCopied : GraphState ℕ :=
  { sampleScanned with
    index := sampleScanned.index.commitBackfill [(sampleEdgeKey 'b', 1)]
    backfill := some [] }

def sampleAdded : GraphState ℕ :=
  { sampleCopied with
    store := sampleCopied.store.insert (sampleEdgeKey 'c') 2
    walBuf := [⟨[sampleEdgeKey 'c'], []⟩] }

def sampleIndexed : GraphState ℕ :=
  { sampleAdded with
    walBuf := []
    index := sampleAdded.index.execute sampleAdded.store ⟨[sampleEdgeKey 'c'], []⟩ }

def sampleAddEdge : GraphEvent ℕ :=
  .operate (.addEdge (ascii ['g']) (ascii ['a']) (ascii ['c']) (ascii ['t']) 2)

theorem sampleAdded_keeps : GraphKeeps sampleCopied sampleAddEdge := by
  refine ⟨trivial, ?_⟩
  intro store' op level happly
  cases happly
  refine ⟨fun _ _ _ => rfl, ?_, ?_, ?_, ?_⟩
  · intro key hkey
    rw [mem_singleton.mp hkey]
    decide
  · intro key hkey
    cases hkey
  · intro queued hqueued
    cases hqueued
  · intro hlevel
    cases hlevel

theorem sampleIndexed_keeps : GraphKeeps sampleAdded (.dequeue 1) := by
  refine ⟨rfl, ?_, ?_⟩
  · decide
  · intro rest hrest p hp
    cases hrest
    cases hp

theorem sampleCopied_counts : GraphCountsOnce sampleScanned .backfill := by
  intro rest hrest p hp
  cases hrest
  obtain rfl := mem_singleton.mp hp
  rfl

theorem sampleIndexed_counts : GraphCountsOnce sampleAdded (.dequeue 1) := by
  constructor
  · decide
  · intro key hkey _
    obtain rfl := mem_singleton.mp hkey
    decide
  · intro key hkey
    cases hkey

/-- An edge that was stored before is copied, and one added later is indexed. -/
theorem reverse_edges_transposed_sample :
    Transposed sampleIndexed ∧ Answers sampleIndexed ∧ Counted sampleIndexed := by
  have hstart : GraphKeeps sampleOpened (.startBackfill []) := fun key _ _ => Lex.nil_le key
  have hscan : graphStep sampleOpened (.startBackfill []) = some sampleScanned := by rfl
  have hcopy : graphStep sampleScanned .backfill = some sampleCopied := by rfl
  have hadd : graphStep sampleCopied sampleAddEdge = some sampleAdded := by rfl
  have hindex : graphStep sampleAdded (.dequeue 1) = some sampleIndexed := by rfl
  have hrun : Run graphStep GraphKeeps sampleOpened
      [.startBackfill [], .backfill, sampleAddEdge, .dequeue 1] sampleIndexed :=
    .cons hstart hscan (.cons trivial hcopy (.cons sampleAdded_keeps hadd
      (.cons sampleIndexed_keeps hindex (.nil _))))
  have hcounts : Run graphStep (fun s e => GraphKeeps s e ∧ GraphCountsOnce s e) sampleOpened
      [.startBackfill [], .backfill, sampleAddEdge, .dequeue 1] sampleIndexed :=
    .cons ⟨hstart, trivial⟩ hscan (.cons ⟨trivial, sampleCopied_counts⟩ hcopy
      (.cons ⟨sampleAdded_keeps, fun _ _ _ happly hlevel => by cases happly; cases hlevel⟩ hadd
        (.cons ⟨sampleIndexed_keeps, sampleIndexed_counts⟩ hindex (.nil _))))
  obtain ⟨htransposed, hanswers, hcounted⟩ := reverse_edges_transposed sampleOpened_opened
    sampleOpened_plain hrun rfl rfl
  exact ⟨htransposed, hanswers, hcounted hcounts⟩

def sampleDeleteEdge : GraphEvent ℕ :=
  .operate (.deleteEdge (ascii ['g']) (ascii ['a']) (ascii ['b']) (ascii ['t']))

/-- An edge of the snapshot is deleted, and its removal is worked off before the backfill commits:
the backfill brings the edge back. -/
theorem deleted_edge_copied :
    ¬∀ (s₀ s : GraphState ℕ) (events : List (GraphEvent ℕ)), GraphOpened s₀ → StoredPlain s₀ →
      Run graphStep (fun _ _ => True) s₀ events s → s.walBuf = [] → s.backfill = some [] →
        Transposed s ∧ Counted s := by
  intro hclaim
  obtain ⟨s, hs⟩ : ∃ s, Run.exec graphStep sampleOpened
      [.startBackfill [], sampleDeleteEdge, .dequeue 1, .backfill] = some s := ⟨_, rfl⟩
  have hrun : Run graphStep (fun _ _ => True) sampleOpened
      [.startBackfill [], sampleDeleteEdge, .dequeue 1, .backfill] s :=
    Run.of_exec graphStep sampleOpened (fun _ _ _ => trivial) hs
  cases hs
  obtain ⟨htransposed, -⟩ := hclaim _ _ _ sampleOpened_opened sampleOpened_plain hrun rfl rfl
  have hcopied := htransposed
    (makeEdgeIndexKey (ascii ['g']) (ascii ['b']) (ascii ['a']) (ascii ['t'])) 1
  obtain ⟨key, edge, -, hget, -⟩ := hcopied.mp rfl
  have hmem := (OrdMap.mem_entries_iff _ _ _).mpr hget
  have hempty : ((OrdMap.empty.insert (sampleEdgeKey 'b') 1).erase (sampleEdgeKey 'b')).entries =
      ([] : List (Bytes × ℕ)) := by decide
  have hnone : (key, 1) ∈ ((OrdMap.empty.insert (sampleEdgeKey 'b') 1).erase
      (sampleEdgeKey 'b')).entries := hmem
  rw [hempty] at hnone
  cases hnone

end Antfly.Indexes
