import Antfly.Indexes.EdgeKeys
import Antfly.Indexes.Convergence

/-!
An edge type may be declared a tree: then each source should have at most one edge of the type, and
the graph index checks every edge it is given against the stored ones.  The edge is stored before it
is checked.
-/

namespace Antfly

open List

theorem cut_append {sep x y z : Bytes} (h : cut sep (x ++ sep ++ y) = some (x, y)) :
    cut sep (x ++ sep ++ z) = some (x, z) := by
  induction x with
  | nil =>
    cases sep with
    | nil => cases z <;> simp [cut]
    | cons c sep => simp [cut]
  | cons c x ih =>
    have hcons : ∀ w, c :: x ++ sep ++ w = c :: (x ++ sep ++ w) := fun w => rfl
    rw [hcons, cut] at h
    split at h
    · cases h
    · rename_i hleading
      obtain ⟨⟨before, after⟩, hcut, heq⟩ := Option.map_eq_some_iff.mp h
      have hbefore := (List.cons.inj (Prod.mk.inj heq).1).2
      have hafter := (Prod.mk.inj heq).2
      dsimp only at hbefore hafter
      rw [hbefore, hafter] at hcut
      have hnot : ¬ sep.isPrefixOf (c :: (x ++ sep ++ z)) = true := by
        intro hpre
        have hshort : sep <+: c :: (x ++ sep) :=
          prefix_of_prefix_length_le ( isPrefixOf_iff_prefix.mp hpre)
            (prefix_append (c :: (x ++ sep)) z) (by
              rw [length_cons, length_append]
              omega)
        exact hleading ( isPrefixOf_iff_prefix.mpr
          (hshort.trans (prefix_append (c :: (x ++ sep)) y)))
      rw [hcons, cut, if_neg hnot, ih hcut]
      rfl

namespace Indexes

variable {ν : Type} {name : Bytes}

variable {key key' : Bytes}

theorem eq_makeEdgeKey_of_scanned {edge existing : ParsedEdge}
    (hedge : edgeOf name key = some edge) (htyped : edge.edgeType ≠ [])
    (hscan : edgeIteratorPrefix edge.source name edge.edgeType <+: key')
    (hparse : parseEdgeKey key' = some existing) :
    key' = makeEdgeKey edge.source existing.target name edge.edgeType := by
  obtain ⟨-, hparsed, hname⟩ := edgeOf_eq_some hedge
  have htype := edgeType_no_colon hparsed
  obtain ⟨rest, rfl⟩ := hscan
  have hshape : edgeIteratorPrefix edge.source name edge.edgeType ++ rest =
      edge.source ++ indexMarker ++ (name ++ [58] ++ (ascii ['o', 'u', 't'] ++ [58] ++
        (edge.edgeType ++ [58] ++ rest))) := by
    rw [edgeIteratorPrefix, if_neg (by simpa using htyped)]
    simp only [append_assoc]
    rfl
  have hcutKey : ∃ after, cut indexMarker key = some (edge.source, after) ∧ 58 ∉ name := by
    unfold parseEdgeKey at hparsed
    simp only [Option.bind_eq_bind, Option.bind_eq_some_iff] at hparsed
    obtain ⟨p, hp, q, hq, r, -, t, -, hparts⟩ := hparsed
    split at hparts
    · cases hparts
      exact ⟨p.2, hp, hname ▸ not_mem_of_cut hq⟩
    · cases hparts
  obtain ⟨after, hcutKey, hcolon⟩ := hcutKey
  have hcut' : cut indexMarker (edgeIteratorPrefix edge.source name edge.edgeType ++ rest) =
      some (edge.source, name ++ [58] ++ (ascii ['o', 'u', 't'] ++ [58] ++
        (edge.edgeType ++ [58] ++ rest))) := by
    rw [hshape]
    apply cut_append (y := after)
    rw [← cut_eq_some hcutKey]
    exact hcutKey
  unfold parseEdgeKey at hparse
  have hout : (58 : UInt8) ∉ ascii ['o', 'u', 't'] := by decide
  simp only [Option.bind_eq_bind, hcut', Option.bind_some] at hparse
  rw [show ascii [':'] = [58] from rfl, cut_of_not_mem hcolon, Option.bind_some] at hparse
  dsimp only at hparse
  rw [cut_of_not_mem hout, Option.bind_some] at hparse
  dsimp only at hparse
  rw [cut_of_not_mem htype, Option.bind_some] at hparse
  dsimp only at hparse
  split at hparse
  · rename_i hsuffix
    cases hparse
    obtain ⟨target, rfl⟩ := hasSuffix_iff.mp hsuffix
    have htrim : trimSuffix (target ++ edgeOutSuffix) edgeOutSuffix = target := by
      rw [trimSuffix, length_append, Nat.add_sub_cancel]
      exact take_left
    rw [htrim, hshape, makeEdgeKey]
    simp only [outMarker, append_assoc]
    rfl
  · cases hparse

def GraphIndex.Tree (idx : GraphIndex ν) (edgeType : Bytes) : Prop :=
  ∃ conf, idx.getEdgeTypeConfig edgeType = some conf ∧ conf.tree = true

/-- The keys are those of two edges of one source and one tree type. -/
def GraphIndex.Conflict (idx : GraphIndex ν) (key key' : Bytes) : Prop :=
  ∃ source target target' edgeType, idx.Tree edgeType ∧
    key = makeEdgeKey source target idx.name edgeType ∧
    key' = makeEdgeKey source target' idx.name edgeType ∧ target ≠ target'

/-- The edge that `Batch` refuses for its topology: the first write that it does not accept. -/
def refusedEdge (idx : GraphIndex ν) (store : OrdMap Bytes ν) (op : IndexOp) : Option Bytes :=
  if idx.paused then none
  else
    ((op.clip idx.byteRange).writes.find? fun key => !idx.accepts store key).filter fun key =>
      (edgeOf idx.name key).any fun edge => idx.isValidEdgeType edge.edgeType

/-- The edge that is refused in a step. -/
def GraphState.refusal (s : GraphState ν) : GraphEvent ν → Option Bytes
  | .operate operation =>
    (operation.apply s.store s.index.name).bind fun p =>
      match p.2.2 with
      | .fullText | .embeddings => refusedEdge s.index p.1 p.2.1
      | _ => none
  | .dequeue n => refusedEdge s.index s.store (mergeOps (s.walBuf.take n))
  | _ => none

/-- A shard with a graph index, and the edge that the last step refused. -/
structure TreeState (ν : Type) where
  graph : GraphState ν
  refused : Option Bytes

/-- A graph index opened on an empty shard. -/
def treeStart (ν : Type) (name : Bytes) (edgeTypes : List EdgeTypeConfig) (byteRange : Range) :
    TreeState ν where
  graph :=
    { store := OrdMap.empty
      walBuf := []
      index :=
        { name, edgeTypes, byteRange
          paused := false
          indexDB := OrdMap.empty
          edgeTypeCounts := fun _ => 0 }
      backfill := none }
  refused := none

def treeStep (s : TreeState ν) (e : GraphEvent ν) : Option (TreeState ν) :=
  (graphStep s.graph e).map fun graph => ⟨graph, s.graph.refusal e⟩

/-- Each source has at most one edge of a tree type, and an edge that was refused is neither in the
store nor in the index. -/
structure TreeTopology (s : TreeState ν) : Prop where
  single : ∀ source target target' edgeType, s.graph.index.Tree edgeType →
    (s.graph.store.get? (makeEdgeKey source target s.graph.index.name edgeType)).isSome →
    (s.graph.store.get? (makeEdgeKey source target' s.graph.index.name edgeType)).isSome →
      target = target'
  refused : ∀ key, s.refused = some key → s.graph.store.get? key = none ∧
    ∀ edge, edgeOf s.graph.index.name key = some edge →
      s.graph.index.indexDB.get? (s.graph.index.indexKey edge) = none

/-- The key of an edge of a tree type is the one its parts make, and the type has a name. -/
def GraphIndex.Shaped (idx : GraphIndex ν) (key : Bytes) : Prop :=
  ∀ edge, edgeOf idx.name key = some edge → idx.Tree edge.edgeType →
    edge.edgeType ≠ [] ∧ key = makeEdgeKey edge.source edge.target idx.name edge.edgeType

/-- An operation writes no edge of a tree type to a source for which it writes another one, or
another one waits in the queue of the manager or is stored and stays. -/
def KeepsTree (s : TreeState ν) : GraphEvent ν → Prop
  | .operate operation => ∀ store' op level,
      operation.apply s.graph.store s.graph.index.name = some (store', op, level) →
        ∀ key ∈ op.writes, s.graph.index.Shaped key ∧
          ∀ key', (key' ∈ op.writes ∨ (∃ queued ∈ s.graph.walBuf, key' ∈ queued.writes) ∨
            (s.graph.store.get? key').isSome ∧ (store'.get? key').isSome) →
              ¬ s.graph.index.Conflict key key'
  | _ => True

variable {idx : GraphIndex ν} {store : OrdMap Bytes ν} {op : IndexOp}

theorem GraphIndex.Conflict.symm (h : idx.Conflict key key') : idx.Conflict key' key := by
  obtain ⟨source, target, target', edgeType, htree, hkey, hkey', hne⟩ := h
  exact ⟨source, target', target, edgeType, htree, hkey', hkey, hne.symm⟩

theorem refusedEdge_eq_none (h : ∀ key ∈ op.writes, idx.Shaped key ∧
    ∀ key', (store.get? key').isSome → ¬ idx.Conflict key key') :
    refusedEdge idx store op = none := by
  unfold refusedEdge
  split
  · rfl
  · rw [Option.filter_eq_none_iff]
    intro key hfind hvalid
    have hnot := find?_some hfind
    have hmem := (mem_filter.mp (mem_of_find?_eq_some hfind)).1
    cases hedge : edgeOf idx.name key with
    | none =>
      rw [hedge] at hvalid
      cases hvalid
    | some edge =>
      rw [hedge, Option.any_some] at hvalid
      obtain ⟨hshaped, hfree⟩ := h key hmem
      simp only [GraphIndex.accepts, hedge, hvalid, Bool.true_and, Bool.not_eq_true'] at hnot
      cases hconf : idx.getEdgeTypeConfig edge.edgeType with
      | none =>
        rw [hconf] at hnot
        cases hnot
      | some conf =>
        rw [hconf, Bool.or_eq_false_iff, Bool.not_eq_false'] at hnot
        obtain ⟨htree, hnot⟩ := hnot
        obtain ⟨htyped, hkey⟩ := hshaped edge hedge ⟨conf, hconf, htree⟩
        unfold GraphIndex.validateTreeTopology at hnot
        rw [all_eq_false] at hnot
        obtain ⟨⟨key', value⟩, hscan, hother⟩ := hnot
        obtain ⟨hpre, hget⟩ := mem_scan_edges.mp hscan
        dsimp only at hother
        cases hparse : parseEdgeKey key' with
        | none =>
          rw [hparse] at hother
          exact hother rfl
        | some existing =>
          rw [hparse, decide_eq_true_eq] at hother
          refine hfree key' (Option.isSome_iff_exists.mpr ⟨value, hget⟩)
            ⟨edge.source, edge.target, existing.target, edge.edgeType, ⟨conf, hconf, htree⟩,
              hkey, eq_makeEdgeKey_of_scanned hedge htyped hpre hparse, Ne.symm hother⟩

variable {operation : Operation ν} {store' : OrdMap Bytes ν} {level : SyncLevel}

theorem stored_apply (h : operation.apply store name = some (store', op, level))
    (hkey : (store'.get? key).isSome) :
    key ∈ op.writes ∨ (store.get? key).isSome := by
  cases operation with
  | addEdge indexName source target edgeType value =>
    cases h
    rw [OrdMap.get?_insert] at hkey
    split at hkey
    · rename_i heq
      exact .inl (mem_singleton.mpr heq)
    · exact .inr hkey
  | updateEdgeWeight indexName source target edgeType newWeight =>
    obtain ⟨existing, -, heq⟩ := Option.map_eq_some_iff.mp h
    cases heq
    rw [OrdMap.get?_insert] at hkey
    split at hkey
    · rename_i heq
      exact .inl (mem_singleton.mpr heq)
    · exact .inr hkey
  | deleteEdge indexName source target edgeType =>
    cases h
    rw [OrdMap.get?_erase] at hkey
    split at hkey
    · cases hkey
    · exact .inr hkey
  | batch writes deletes level =>
    cases h
    rw [OrdMap.get?_applyAll] at hkey
    cases hlast : OrdMap.lastEffect (writes.map (fun kv => OrdMap.Edit.set kv.1 kv.2) ++
        deletes.map fun k => .deleteRange k (prefixSuccessor (keyRangeEnd k))) key with
    | none =>
      rw [hlast] at hkey
      exact .inr hkey
    | some o =>
      rw [hlast] at hkey
      obtain ⟨e, he, heffect⟩ := OrdMap.exists_effect_of_lastEffect hlast
      rcases mem_append.mp he with hwrite | hdelete
      · obtain ⟨kv, hkv, rfl⟩ := mem_map.mp hwrite
        simp only [OrdMap.Edit.effect] at heffect
        split at heffect
        · rename_i heq
          exact .inl (heq ▸ mem_map_of_mem hkv)
        · cases heffect
      · obtain ⟨k, -, rfl⟩ := mem_map.mp hdelete
        simp only [OrdMap.Edit.effect] at heffect
        split at heffect
        · cases heffect
          cases hkey
        · cases heffect

/-- No two stored edges are in conflict, and no edge that waits in the queue is with a stored
one. -/
structure TreeSound (s : TreeState ν) : Prop where
  stored : ∀ key key', (s.graph.store.get? key).isSome → (s.graph.store.get? key').isSome →
    ¬ s.graph.index.Conflict key key'
  queued : ∀ queued ∈ s.graph.walBuf, ∀ key ∈ queued.writes, s.graph.index.Shaped key ∧
    ∀ key', (s.graph.store.get? key').isSome → ¬ s.graph.index.Conflict key key'
  refused : s.refused = none

theorem TreeSound.topology {s : TreeState ν} (h : TreeSound s) : TreeTopology s where
  single := by
    intro source target target' edgeType htree hstored hstored'
    by_contra hne
    exact h.stored _ _ hstored hstored'
      ⟨source, target, target', edgeType, htree, rfl, rfl, hne⟩
  refused := by
    intro key hkey
    rw [h.refused] at hkey
    cases hkey

/-- Batches, the backfill and pauses leave the configuration of the index alone. -/
def SameConfig (idx idx' : GraphIndex ν) : Prop :=
  idx'.name = idx.name ∧ idx'.edgeTypes = idx.edgeTypes

theorem sameConfig_execute (idx : GraphIndex ν) (store : OrdMap Bytes ν) (op : IndexOp) :
    SameConfig idx (idx.execute store op) := by
  unfold GraphIndex.execute GraphIndex.batch
  split
  · exact ⟨rfl, rfl⟩
  · split
    · exact ⟨rfl, rfl⟩
    · exact ⟨rfl, rfl⟩

variable {idx idx' : GraphIndex ν}

theorem SameConfig.conflict (h : SameConfig idx idx') : idx'.Conflict = idx.Conflict := by
  obtain ⟨hname, htypes⟩ := h
  unfold GraphIndex.Conflict GraphIndex.Tree GraphIndex.getEdgeTypeConfig
  rw [hname, htypes]

theorem SameConfig.shaped (h : SameConfig idx idx') : idx'.Shaped = idx.Shaped := by
  obtain ⟨hname, htypes⟩ := h
  unfold GraphIndex.Shaped GraphIndex.Tree GraphIndex.getEdgeTypeConfig
  rw [hname, htypes]

variable {s' : TreeState ν}

theorem TreeSound.of_config {s : TreeState ν} (h : TreeSound s)
    (hconfig : SameConfig s.graph.index s'.graph.index) (hstore : s'.graph.store = s.graph.store)
    (hqueue : ∀ queued ∈ s'.graph.walBuf, queued ∈ s.graph.walBuf) (hrefused : s'.refused = none) :
    TreeSound s' where
  stored := by
    rw [hstore, hconfig.conflict]
    exact h.stored
  queued := by
    intro queued hqueued
    rw [hstore, hconfig.conflict, hconfig.shaped]
    exact h.queued queued (hqueue queued hqueued)
  refused := hrefused

theorem TreeSound.free {s : TreeState ν} (h : TreeSound s)
    (hkeeps : KeepsTree s (.operate operation))
    (happly : operation.apply s.graph.store s.graph.index.name = some (store', op, level)) :
    (∀ key ∈ op.writes, ∀ key', (store'.get? key').isSome → ¬ s.graph.index.Conflict key key') ∧
    (∀ queued ∈ s.graph.walBuf, ∀ key ∈ queued.writes, ∀ key', (store'.get? key').isSome →
      ¬ s.graph.index.Conflict key key') ∧
    ∀ key key', (store'.get? key).isSome → (store'.get? key').isSome →
      ¬ s.graph.index.Conflict key key' := by
  have hwritten : ∀ key ∈ op.writes, ∀ key', (store'.get? key').isSome →
      ¬ s.graph.index.Conflict key key' := by
    intro key hkey key' hstored
    apply (hkeeps store' op level happly key hkey).2
    rcases stored_apply happly hstored with hnew | hold
    · exact .inl hnew
    · exact .inr (.inr ⟨hold, hstored⟩)
  refine ⟨hwritten, ?_, ?_⟩
  · intro queued hqueued key hkey key' hstored hconflict
    rcases stored_apply happly hstored with hnew | hold
    · exact (hkeeps store' op level happly key' hnew).2 key
        (.inr (.inl ⟨queued, hqueued, hkey⟩)) hconflict.symm
    · exact (h.queued queued hqueued key hkey).2 key' hold hconflict
  · intro key key' hstored hstored' hconflict
    rcases stored_apply happly hstored with hnew | hold
    · exact hwritten key hnew key' hstored' hconflict
    · rcases stored_apply happly hstored' with hnew | hold'
      · exact hwritten key' hnew key hstored hconflict.symm
      · exact h.stored key key' hold hold' hconflict

theorem refusal_operate {s : GraphState ν}
    (happly : operation.apply s.store s.index.name = some (store', op, level))
    (hnone : refusedEdge s.index store' op = none) :
    s.refusal (.operate operation) = none := by
  rw [GraphState.refusal, happly, Option.bind_some]
  cases level with
  | fullText | embeddings => exact hnone
  | propose | write | enrichments | internalMergeCopy => rfl

theorem TreeSound.operate {s : TreeState ν} (h : TreeSound s)
    (hkeeps : KeepsTree s (.operate operation))
    (hstep : treeStep s (.operate operation) = some s') :
    TreeSound s' := by
  obtain ⟨graph, hgraph, rfl⟩ := Option.map_eq_some_iff.mp hstep
  obtain ⟨⟨store', op, level⟩, happly, hbatch⟩ := Option.bind_eq_some_iff.mp hgraph
  obtain ⟨hwritten, hqueued, hstored⟩ := h.free hkeeps happly
  have hrefusal : s.graph.refusal (.operate operation) = none := by
    apply refusal_operate happly
    apply refusedEdge_eq_none
    intro key hkey
    exact ⟨(hkeeps store' op level happly key hkey).1, hwritten key hkey⟩
  rw [hrefusal]
  cases level with
  | propose | write =>
    cases hbatch
    refine ⟨hstored, ?_, rfl⟩
    intro queued hmem key hkey
    rcases mem_append.mp hmem with hold | hnew
    · exact ⟨(h.queued queued hold key hkey).1, hqueued queued hold key hkey⟩
    · have hsize : 0 < indexManagerPartitionSize := Nat.succ_pos _
      obtain ⟨hwrites, -⟩ := partitionBatch_cuts hsize
        (Nat.le_refl (op.writes.length + op.deletes.length))
      have hop : key ∈ op.writes := by
        dsimp only at hwrites
        rw [← hwrites]
        exact mem_flatMap.mpr ⟨queued, hnew, hkey⟩
      exact ⟨(hkeeps store' op _ happly key hop).1, hwritten key hop⟩
  | fullText | embeddings =>
    cases hbatch
    have hconfig := sameConfig_execute s.graph.index store' op
    refine ⟨?_, ?_, rfl⟩
    · rw [hconfig.conflict]
      exact hstored
    · intro queued hmem key hkey
      rw [hconfig.conflict, hconfig.shaped]
      exact ⟨(h.queued queued hmem key hkey).1, hqueued queued hmem key hkey⟩
  | enrichments | internalMergeCopy => cases hbatch

theorem TreeSound.step {s : TreeState ν} {e : GraphEvent ν} (h : TreeSound s)
    (hkeeps : KeepsTree s e) (hstep : treeStep s e = some s') :
    TreeSound s' := by
  cases e with
  | operate operation => exact h.operate hkeeps hstep
  | dequeue n =>
    obtain ⟨graph, hgraph, rfl⟩ := Option.map_eq_some_iff.mp hstep
    dsimp only [graphStep] at hgraph
    split at hgraph
    · cases hgraph
      have hconfig := sameConfig_execute s.graph.index s.graph.store
        (mergeOps (s.graph.walBuf.take n))
      have hrefusal : s.graph.refusal (.dequeue n) = none := by
        apply refusedEdge_eq_none
        intro key hkey
        obtain ⟨queued, hqueued, hkey⟩ := mem_flatMap.mp hkey
        exact h.queued queued (mem_of_mem_take hqueued) key hkey
      exact h.of_config hconfig rfl (fun _ hmem => mem_of_mem_drop hmem) hrefusal
    · cases hgraph
  | startBackfill startKey =>
    obtain ⟨graph, hgraph, rfl⟩ := Option.map_eq_some_iff.mp hstep
    dsimp only [graphStep] at hgraph
    split at hgraph
    · cases hgraph
      exact h.of_config ⟨rfl, rfl⟩ rfl (fun _ hmem => hmem) rfl
    · cases hgraph
  | backfill =>
    obtain ⟨graph, hgraph, rfl⟩ := Option.map_eq_some_iff.mp hstep
    dsimp only [graphStep] at hgraph
    split at hgraph
    · cases hgraph
    · split at hgraph
      · cases hgraph
      · cases hgraph
        exact h.of_config ⟨rfl, rfl⟩ rfl (fun _ hmem => hmem) rfl
  | pause =>
    cases hstep
    exact h.of_config ⟨rfl, rfl⟩ rfl (fun _ hmem => hmem) rfl
  | resume =>
    cases hstep
    exact h.of_config ⟨rfl, rfl⟩ rfl (fun _ hmem => hmem) rfl

theorem treeSound_start (name : Bytes) (edgeTypes : List EdgeTypeConfig) (byteRange : Range) :
    TreeSound (treeStart ν name edgeTypes byteRange) := by
  refine ⟨?_, ?_, rfl⟩
  · intro key key' hstored
    cases hstored
  · intro queued hmem
    cases hmem

/-- In every run whose operations keep the tree, the topology holds. -/
theorem tree_topology_kept (name : Bytes) (edgeTypes : List EdgeTypeConfig) (byteRange : Range)
    (events : List (GraphEvent ν)) (s : TreeState ν)
    (h : Run treeStep KeepsTree (treeStart ν name edgeTypes byteRange) events s) :
    TreeTopology s :=
  (h.invariant (fun _ _ _ hkeeps hstep hs => hs.step hkeeps hstep)
    (treeSound_start name edgeTypes byteRange)).topology

/-- An index with one edge type, a tree. -/
def sampleTree : TreeState ℕ :=
  treeStart ℕ (ascii ['g']) [⟨ascii ['t'], true⟩] ⟨[], []⟩

def sampleParent (source target : Char) : GraphEvent ℕ :=
  .operate (.addEdge (ascii ['g']) (ascii [source]) (ascii [target]) (ascii ['t']) 1)

theorem GraphIndex.Conflict.head (h : idx.Conflict key key') : key.head? = key'.head? := by
  obtain ⟨source, target, target', edgeType, -, rfl, rfl, -⟩ := h
  cases source <;> rfl

/-- Edges of other sources do not stand in the way of a source's first edge. -/
theorem keepsTree_sampleParent {s : TreeState ℕ} {source target : Char}
    (hname : s.graph.index.name = ascii ['g'])
    (hparse : edgeOf (ascii ['g']) (makeEdgeKey (ascii [source]) (ascii [target]) (ascii ['g'])
      (ascii ['t'])) = some ⟨ascii [source], ascii [target], ascii ['g'], ascii ['t']⟩)
    (hfree : ∀ key ∈ s.graph.walBuf.flatMap IndexOp.writes ++ s.graph.store.entries.map Prod.fst,
      key.head? ≠ (ascii [source]).head?) :
    KeepsTree s (sampleParent source target) := by
  intro store' op level happly key hkey
  cases happly
  obtain rfl := mem_singleton.mp hkey
  constructor
  · intro edge hedge _
    rw [hname] at hedge
    cases hparse.symm.trans hedge
    rw [hname]
    exact ⟨cons_ne_nil _ _, rfl⟩
  · intro key' hkey' hconflict
    rcases hkey' with hsame | ⟨queued, hqueued, hmem⟩ | ⟨hstored, -⟩
    · obtain ⟨source, target, target', edgeType, -, hkey, hkey', hne⟩ := hconflict
      rw [mem_singleton.mp hsame, hkey] at hkey'
      exact hne (makeEdgeKey_inj hkey')
    · exact hfree key' (mem_append_left _ (mem_flatMap.mpr ⟨queued, hqueued, hmem⟩))
        hconflict.head.symm
    · have hkeys := (OrdMap.mem_keys_iff s.graph.store key').mpr
        (Option.isSome_iff_ne_none.mp hstored)
      exact hfree key' (mem_append_right _ hkeys) hconflict.head.symm

/-- Two sources get an edge; the one of `a` is deleted, and `a` gets another one. -/
theorem first_parent_kept : ∃ s : TreeState ℕ,
    s.graph.index.queryEdgeIndex (ascii ['b']) [] = [⟨ascii ['c'], ascii ['b'], ascii ['t'], 1⟩] ∧
    s.graph.index.queryEdgeIndex (ascii ['d']) [] = [⟨ascii ['a'], ascii ['d'], ascii ['t'], 1⟩] ∧
    TreeTopology s := by
  have hrun : ∃ s, Run treeStep KeepsTree sampleTree
      [sampleParent 'a' 'b', sampleParent 'c' 'b', .dequeue 2,
        .operate (.deleteEdge (ascii ['g']) (ascii ['a']) (ascii ['b']) (ascii ['t'])), .dequeue 1,
        sampleParent 'a' 'd', .dequeue 1] s ∧
      s.graph.index.queryEdgeIndex (ascii ['b']) [] =
        [⟨ascii ['c'], ascii ['b'], ascii ['t'], 1⟩] ∧
      s.graph.index.queryEdgeIndex (ascii ['d']) [] =
        [⟨ascii ['a'], ascii ['d'], ascii ['t'], 1⟩] := by
    refine ⟨_, .cons (keepsTree_sampleParent rfl ?_ ?_) rfl
      (.cons (keepsTree_sampleParent rfl ?_ ?_) rfl (.cons trivial rfl
        (.cons (fun _ _ _ happly _ hkey => by cases happly; cases hkey) rfl (.cons trivial rfl
          (.cons (keepsTree_sampleParent rfl ?_ ?_) rfl (.cons trivial rfl (.nil _))))))), ?_, ?_⟩
    all_goals decide +kernel
  obtain ⟨s, hrun, hb, hd⟩ := hrun
  exact ⟨s, hb, hd, tree_topology_kept _ _ _ _ _ hrun⟩

/-- A source gets a second edge of the tree type; the index refuses it, but it stays stored. -/
theorem second_parent_stored : ∃ s : TreeState ℕ,
    Run treeStep (fun _ _ => True) sampleTree
      [sampleParent 'a' 'b', sampleParent 'a' 'c', .dequeue 2] s ∧
    ¬ TreeTopology s := by
  refine ⟨_, .cons trivial rfl (.cons trivial rfl (.cons trivial rfl (.nil _))), ?_⟩
  intro h
  have heq := h.single (ascii ['a']) (ascii ['b']) (ascii ['c']) (ascii ['t'])
    ⟨⟨ascii ['t'], true⟩, rfl, rfl⟩ (by decide +kernel) (by decide +kernel)
  exact absurd heq (by decide)

end Indexes

end Antfly
