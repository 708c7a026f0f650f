import Antfly.Graph.TraversalEnds

/-!
Where each node is taken once, the queue holds the nodes in the order of their distances from the
start, of which there are at most two: what is new when a node is taken is one step further than
that, since all nodes that are nearer have been gone on from.  The results are then the nodes within
the depth, each once, at its distance and the nearest first; a limit on them cuts this list.
-/

namespace Antfly.Graph

open Trails List

section Exact

variable {g : EdgeStore} {rules : TraversalRules} {startKey : Bytes} {current : QueueItem}
  {done queue : List QueueItem} {s : Traversal}

structure Added (rules : TraversalRules) (current : QueueItem) (edges : List Edge)
    (s s' : Traversal) (new : List QueueItem) : Prop where
  queue_eq : s'.queue = s.queue ++ new
  visited_iff : ∀ v, v ∈ s'.visited ↔ v ∈ s.visited ∨ v ∈ new.map QueueItem.key
  nodup : (new.map QueueItem.key).Nodup
  unseen : ∀ v ∈ new.map QueueItem.key, v ∉ s.visited
  stepped : ∀ x ∈ new, ∃ e ∈ edges, rules.shouldTraverseEdge e = true ∧ x = rules.next current e
  all : ∀ e ∈ edges, rules.shouldTraverseEdge e = true → rules.nextKey current.key e ∈ s'.visited

theorem added_foldl (hdedup : rules.deduplicateNodes = true) (edges : List Edge)
    (s : Traversal) :
    ∃ new, Added rules current edges s (edges.foldl (rules.processEdge current) s) new := by
  induction edges generalizing s with
  | nil =>
    refine ⟨[], (append_nil _).symm, ?_, nodup_nil, ?_, ?_, ?_⟩
    · intro v
      simp
    · intro v hv
      exact absurd hv not_mem_nil
    · intro x hx
      exact absurd hx not_mem_nil
    · intro e he
      exact absurd he not_mem_nil
  | cons e edges ih =>
    rw [foldl_cons]
    rcases processEdge_cases rules current s e with ⟨hsame, hdone⟩ | ⟨hpass, hnew, hadded⟩
    · rw [hsame]
      obtain ⟨new, h⟩ := ih s
      refine ⟨new, h.queue_eq, h.visited_iff, h.nodup, h.unseen, ?_, ?_⟩
      · intro x hx
        obtain ⟨e', he', hstep⟩ := h.stepped x hx
        exact ⟨e', mem_cons_of_mem e he', hstep⟩
      · intro e' he' hpass
        rcases mem_cons.mp he' with rfl | he'
        · exact (h.visited_iff _).mpr (.inl (hdone hpass).2)
        · exact h.all e' he' hpass
    · rw [hadded, if_pos hdedup]
      have hnew := hnew hdedup
      obtain ⟨new, h⟩ := ih { s with
        visited := rules.nextKey current.key e :: s.visited
        queue := s.queue ++ [rules.next current e] }
      have hseen : ∀ v, v ∈ rules.nextKey current.key e :: s.visited ↔
          v ∈ s.visited ∨ v = rules.nextKey current.key e := by
        intro v
        rw [mem_cons, or_comm]
      refine ⟨rules.next current e :: new, ?_, ?_, ?_, ?_, ?_, ?_⟩
      · rw [h.queue_eq]
        exact append_assoc s.queue [rules.next current e] new
      · intro v
        rw [h.visited_iff, hseen, map_cons, mem_cons, or_assoc]
        rfl
      · rw [map_cons, nodup_cons]
        exact ⟨fun hmem => h.unseen _ hmem mem_cons_self, h.nodup⟩
      · intro v hv
        rcases mem_cons.mp hv with rfl | hv
        · exact hnew
        · exact fun hold => h.unseen v hv (mem_cons_of_mem _ hold)
      · intro x hx
        rcases mem_cons.mp hx with rfl | hx
        · exact ⟨e, mem_cons_self, hpass, rfl⟩
        · obtain ⟨e', he', hstep⟩ := h.stepped x hx
          exact ⟨e', mem_cons_of_mem e he', hstep⟩
      · intro e' he' hpass'
        rcases mem_cons.mp he' with rfl | he'
        · exact (h.visited_iff _).mpr (.inl mem_cons_self)
        · exact h.all e' he' hpass'

/-- The new nodes are the ones not seen that the current node is joined to, unless it is at the
greatest depth. -/
structure Discovered (g : EdgeStore) (rules : TraversalRules) (current : QueueItem)
    (s s' : Traversal) (new : List QueueItem) : Prop where
  queue_eq : s'.queue = s.queue ++ new
  results_eq : s'.results = s.results
  visited_iff : ∀ v, v ∈ s'.visited ↔ v ∈ s.visited ∨ v ∈ new.map QueueItem.key
  nodup : (new.map QueueItem.key).Nodup
  unseen : ∀ v ∈ new.map QueueItem.key, v ∉ s.visited
  stepped : ∀ x ∈ new, rules.atMaxDepth current = false ∧
    ∃ e, rules.Passes g current.key e x.key ∧ x = rules.next current e
  all : rules.atMaxDepth current = false → ∀ e v, rules.Passes g current.key e v → v ∈ s'.visited

theorem discovered_expand (hdedup : rules.deduplicateNodes = true) (s : Traversal) :
    ∃ new, Discovered g rules current s (rules.expand g current s) new := by
  have hresults := @expand_results g rules current s
  unfold TraversalRules.expand at hresults ⊢
  split at hresults
  · rename_i hdepth
    rw [if_pos hdepth]
    refine ⟨[], (append_nil _).symm, rfl, ?_, nodup_nil, ?_, ?_, ?_⟩
    · intro v
      simp
    · intro v hv
      exact absurd hv not_mem_nil
    · intro x hx
      exact absurd hx not_mem_nil
    · intro hnot
      rw [hdepth] at hnot
      cases hnot
  · rename_i hdepth
    rw [if_neg hdepth]
    obtain ⟨new, h⟩ := @added_foldl rules current hdedup (rules.getEdges g current.key) s
    refine ⟨new, h.queue_eq, hresults, h.visited_iff, h.nodup, h.unseen, ?_, ?_⟩
    · intro x hx
      obtain ⟨e, he, hpass, rfl⟩ := h.stepped x hx
      exact ⟨Bool.eq_false_of_not_eq_true hdepth, e,
        TraversalRules.passes_iff.mpr ⟨he, hpass, rfl⟩, rfl⟩
    · intro _ e v hpass
      obtain ⟨he, hfilter, rfl⟩ := TraversalRules.passes_iff.mp hpass
      exact h.all e he hfilter

/-- The items of `done` have been taken, in this order. -/
structure Explored (g : EdgeStore) (rules : TraversalRules) (startKey : Bytes)
    (done : List QueueItem) (s : Traversal) : Prop where
  nodup : ((done ++ s.queue).map QueueItem.key).Nodup
  visited_iff : ∀ v, v ∈ s.visited ↔ v ∈ (done ++ s.queue).map QueueItem.key
  start : startKey ∈ s.visited
  met : ∀ x ∈ done ++ s.queue, Met g rules startKey x
  nearest : ∀ x ∈ done ++ s.queue, Nearest (rules.Passes g) startKey x.depth x.key
  ordered : (done ++ s.queue).Pairwise fun x y => x.depth ≤ y.depth
  near : ∀ x ∈ s.queue, ∀ y ∈ s.queue, y.depth ≤ x.depth + 1
  closed : ∀ x ∈ done, rules.atMaxDepth x = false →
    ∀ e v, rules.Passes g x.key e v → v ∈ s.visited
  results : s.results = (done.filter rules.reports).map rules.result

theorem Explored.closedBelow (h : Explored g rules startKey done s)
    (hqueue : s.queue = current :: queue) :
    ClosedBelow (rules.Passes g) startKey (fun v => v ∈ s.visited) current.depth := by
  intro u hu k hk hnearest e v hpass
  obtain ⟨x, hx, rfl⟩ := mem_map.mp ((h.visited_iff u).mp hu)
  have hdepth : x.depth = k := (h.nearest x hx).unique hnearest
  have hcurrent : current ∈ done ++ s.queue :=
    mem_append_right done (hqueue ▸ mem_cons_self)
  rcases mem_append.mp hx with hx | hx
  · refine h.closed x hx ?_ e v hpass
    refine decide_eq_false ?_
    rintro ⟨hlimit, hdeep⟩
    have hle := (h.met current hcurrent).2 hlimit
    omega
  · have hordered := (pairwise_append.mp h.ordered).2.1
    rw [hqueue] at hordered hx
    rcases mem_cons.mp hx with rfl | hx
    · omega
    · have hle := rel_of_pairwise_cons hordered hx
      omega

theorem Explored.step (hdedup : rules.deduplicateNodes = true)
    (h : Explored g rules startKey done s) (hqueue : s.queue = current :: queue) :
    Explored g rules startKey (done ++ [current])
      (rules.expand g current (rules.taken current queue s)) := by
  obtain ⟨new, hnew⟩ := @discovered_expand g rules current hdedup (rules.taken current queue s)
  have hall : done ++ [current] ++ (rules.expand g current (rules.taken current queue s)).queue =
      (done ++ s.queue) ++ new := by
    rw [hnew.queue_eq, hqueue, append_assoc, append_assoc]
    rfl
  have hcurrent : current ∈ done ++ s.queue :=
    mem_append_right done (hqueue ▸ mem_cons_self)
  have hrest : ∀ x ∈ queue, x ∈ s.queue := fun x hx => hqueue ▸ mem_cons_of_mem current hx
  have hnewDepth : ∀ x ∈ new, x.depth = current.depth + 1 := by
    intro x hx
    obtain ⟨-, e, -, rfl⟩ := hnew.stepped x hx
    rfl
  have hbefore : ∀ x ∈ done, x.depth ≤ current.depth := fun x hx =>
    (pairwise_append.mp h.ordered).2.2 x hx current (hqueue ▸ mem_cons_self)
  have hafter : ∀ x ∈ queue, current.depth ≤ x.depth := by
    have hordered := (pairwise_append.mp h.ordered).2.1
    rw [hqueue] at hordered
    exact fun x hx => rel_of_pairwise_cons hordered hx
  have hnear : ∀ x ∈ s.queue, x.depth ≤ current.depth + 1 :=
    fun x hx => h.near current (hqueue ▸ mem_cons_self) x hx
  constructor
  · rw [hall, map_append]
    refine nodup_append.mpr ⟨h.nodup, hnew.nodup, ?_⟩
    rintro v hold w hv rfl
    exact hnew.unseen v hv ((h.visited_iff v).mpr hold)
  · intro v
    rw [hall, hnew.visited_iff, map_append, mem_append]
    exact or_congr_left (h.visited_iff v)
  · exact (hnew.visited_iff startKey).mpr (.inl h.start)
  · rw [hall]
    intro x hx
    rcases mem_append.mp hx with hx | hx
    · exact h.met x hx
    · refine met_expand hqueue (fun y hy => h.met y (mem_append_right done hy)) x ?_
      rw [hnew.queue_eq]
      exact mem_append_right _ hx
  · rw [hall]
    intro x hx
    rcases mem_append.mp hx with hx | hx
    · exact h.nearest x hx
    · obtain ⟨-, e, hpass, -⟩ := hnew.stepped x hx
      rw [hnewDepth x hx]
      refine (h.closedBelow hqueue).nearest_succ h.start (h.nearest current hcurrent) hpass ?_
      exact hnew.unseen x.key (mem_map_of_mem hx)
  · rw [hall]
    refine pairwise_append.mpr ⟨h.ordered, ?_, ?_⟩
    · refine pairwise_of_forall_mem_list ?_
      intro x hx y hy
      rw [hnewDepth x hx, hnewDepth y hy]
    · intro x hx y hy
      rw [hnewDepth y hy]
      rcases mem_append.mp hx with hx | hx
      · exact (hbefore x hx).trans (Nat.le_succ _)
      · exact hnear x hx
  · rw [hnew.queue_eq]
    have hbounds : ∀ x ∈ queue ++ new,
        current.depth ≤ x.depth ∧ x.depth ≤ current.depth + 1 := by
      intro x hx
      rcases mem_append.mp hx with hx | hx
      · exact ⟨hafter x hx, hnear x (hrest x hx)⟩
      · rw [hnewDepth x hx]
        exact ⟨Nat.le_succ _, Nat.le_refl _⟩
    intro x hx y hy
    have hlow := (hbounds x hx).1
    have hhigh := (hbounds y hy).2
    omega
  · intro x hx hdepth e v hpass
    rcases mem_append.mp hx with hx | hx
    · exact (hnew.visited_iff v).mpr (.inl (h.closed x hx hdepth e v hpass))
    · rw [mem_singleton.mp hx] at hdepth hpass
      exact hnew.all hdepth e v hpass
  · rw [hnew.results_eq, filter_append, map_append, ← h.results]
    unfold TraversalRules.taken
    cases hreports : rules.reports current <;> simp [hreports]

theorem explored_start (hdedup : rules.deduplicateNodes = true) :
    Explored g rules startKey [] (initialTraversal rules startKey) := by
  have hvisited : (initialTraversal rules startKey).visited = [startKey] := if_pos hdedup
  constructor
  · exact nodup_singleton startKey
  · intro v
    rw [hvisited]
    rfl
  · rw [hvisited]
    exact mem_singleton_self startKey
  · exact met_start g rules startKey
  · intro x hx
    rw [mem_singleton.mp hx]
    exact nearest_start
  · exact pairwise_singleton _ _
  · intro x hx y hy
    rw [mem_singleton.mp hx, mem_singleton.mp hy]
    exact Nat.le_succ _
  · intro x hx
    exact absurd hx not_mem_nil
  · rfl

/-- The node is to be reported: walks to it keep to the depth, and it is not the start, unless the
depth is unlimited by zero. -/
def Due (g : EdgeStore) (rules : TraversalRules) (startKey v : Bytes) : Prop :=
  (v ≠ startKey ∨ rules.maxDepth = 0) ∧
    ∃ t, IsTrail (rules.Passes g) startKey t v ∧
      (0 < rules.maxDepth → (t.length : ℤ) ≤ rules.maxDepth)

/-- Each node that is due is reported once, at its distance and by a walk of this length, and the
nearest ones first. -/
structure Exhaustive (g : EdgeStore) (rules : TraversalRules) (startKey : Bytes)
    (all : List TraversalResult) : Prop where
  once : (all.map TraversalResult.key).Nodup
  mem_iff : ∀ v, v ∈ all.map TraversalResult.key ↔ Due g rules startKey v
  nearest : ∀ r ∈ all, Nearest (rules.Passes g) startKey r.depth r.key
  path : rules.includePaths = true → ∀ r ∈ all,
    ∃ t, IsTrail (rules.Passes g) startKey t r.key ∧ t.length = r.depth ∧
      r.path = (nodes t r.key).reverse ∧ r.pathEdges = (t.map Prod.fst).reverse
  ordered : all.Pairwise fun r r' => r.depth ≤ r'.depth

def TraversalRules.limited (rules : TraversalRules) (all : List TraversalResult) :
    List TraversalResult :=
  if 0 < rules.maxResults then all.take rules.maxResults.toNat else all

theorem Explored.mem_visited (h : Explored g rules startKey done s) (hqueue : s.queue = [])
    {t : List (Edge × Bytes)} {v : Bytes} (ht : IsTrail (rules.Passes g) startKey t v)
    (hdepth : 0 < rules.maxDepth → (t.length : ℤ) ≤ rules.maxDepth) : v ∈ s.visited := by
  have hclosed : ClosedBelow (rules.Passes g) startKey (fun v => v ∈ s.visited) t.length := by
    intro u hu k hk hnearest e w hpass
    obtain ⟨x, hx, rfl⟩ := mem_map.mp ((h.visited_iff u).mp hu)
    have hdepthx : x.depth = k := (h.nearest x hx).unique hnearest
    rw [hqueue, append_nil] at hx
    refine h.closed x hx (decide_eq_false ?_) e w hpass
    rintro ⟨hlimit, hdeep⟩
    have hle := hdepth hlimit
    omega
  exact hclosed.seen_of_trail h.start ht (Nat.le_refl _)

theorem Explored.exhaustive (h : Explored g rules startKey done s) (hqueue : s.queue = []) :
    Exhaustive g rules startKey s.results := by
  have hdone {x : QueueItem} (hx : x ∈ done) : x ∈ done ++ s.queue :=
    mem_append_left s.queue hx
  have hresult : ∀ r ∈ s.results, ∃ x ∈ done, rules.reports x = true ∧ rules.result x = r := by
    intro r hr
    rw [h.results] at hr
    obtain ⟨x, hx, hxr⟩ := mem_map.mp hr
    exact ⟨x, (mem_filter.mp hx).1, (mem_filter.mp hx).2, hxr⟩
  constructor
  · rw [h.results, map_map]
    have hnodup := h.nodup
    rw [hqueue, append_nil] at hnodup
    exact hnodup.sublist (filter_sublist.map QueueItem.key)
  · intro v
    constructor
    · intro hv
      obtain ⟨r, hr, rfl⟩ := mem_map.mp hv
      obtain ⟨x, hx, hreports, rfl⟩ := hresult r hr
      obtain ⟨⟨t, ht, hlength, -⟩, hdepth⟩ := h.met x (hdone hx)
      refine ⟨?_, t, ht, hlength ▸ hdepth⟩
      refine (of_decide_eq_true hreports).imp_left ?_
      intro hpos hstart
      have hzero := (h.nearest x (hdone hx)).eq_zero_iff.mpr hstart
      omega
    · rintro ⟨hreported, t, ht, hdepth⟩
      have hv := (h.visited_iff v).mp (h.mem_visited hqueue ht hdepth)
      rw [hqueue, append_nil] at hv
      obtain ⟨x, hx, rfl⟩ := mem_map.mp hv
      have hreports : rules.reports x = true := by
        refine decide_eq_true (hreported.imp_left fun hne => ?_)
        exact Nat.pos_of_ne_zero fun hzero =>
          hne ((h.nearest x (hdone hx)).eq_zero_iff.mp hzero)
      rw [h.results, map_map]
      exact mem_map.mpr ⟨x, mem_filter.mpr ⟨hx, hreports⟩, rfl⟩
  · intro r hr
    obtain ⟨x, hx, -, rfl⟩ := hresult r hr
    exact h.nearest x (hdone hx)
  · intro hinclude r hr
    obtain ⟨x, hx, -, rfl⟩ := hresult r hr
    obtain ⟨⟨t, ht, hlength, hpath⟩, -⟩ := h.met x (hdone hx)
    obtain ⟨hnodes, hedges⟩ := hpath hinclude
    refine ⟨t, ht, hlength, ?_, ?_⟩
    · exact (if_pos hinclude).trans hnodes
    · exact (if_pos hinclude).trans hedges
  · rw [h.results, pairwise_map]
    exact (pairwise_append.mp h.ordered).1.filter rules.reports

theorem Explored.exists_exhaustive (hdedup : rules.deduplicateNodes = true) {n : ℕ}
    (h : Explored g rules startKey done s) (hn : pending g s < n) :
    ∃ all, Exhaustive g rules startKey all ∧ s.results <+: all := by
  induction n generalizing done s with
  | zero => exact absurd hn (Nat.not_lt_zero _)
  | succ n ih =>
    cases hqueue : s.queue with
    | nil => exact ⟨s.results, h.exhaustive hqueue, prefix_refl _⟩
    | cons current queue =>
      have hless := @pending_expand g rules current hdedup (rules.taken current queue s)
      obtain ⟨all, hall, hprefix⟩ := ih (h.step hdedup hqueue) (by
        unfold pending at hn hless ⊢
        rw [hqueue, length_cons] at hn
        change _ ≤ queue.length + (unmarked g s.visited).length at hless
        omega)
      refine ⟨all, hall, List.IsPrefix.trans ?_ hprefix⟩
      rw [expand_results]
      unfold TraversalRules.taken
      dsimp only
      split
      · exact prefix_append _ _
      · exact prefix_refl _

theorem limited_of_not_full {results : List TraversalResult} (h : ¬rules.Full results) :
    rules.limited results = results := by
  unfold TraversalRules.limited
  split
  · rename_i hlimit
    refine take_of_length_le ?_
    have hless := not_le.mp fun hle => h ⟨hlimit, hle⟩
    omega
  · rfl

theorem traverseLoop_exact (hdedup : rules.deduplicateNodes = true) {fuel : ℕ}
    (h : Explored g rules startKey done s) (hnotFull : ¬rules.Full s.results)
    {results : List TraversalResult} (hends : traverseLoop g rules fuel s = some results) :
    ∃ all, Exhaustive g rules startKey all ∧ results = rules.limited all := by
  induction fuel generalizing done s with
  | zero => cases hends
  | succ fuel ih =>
    cases hqueue : s.queue with
    | nil =>
      rw [traverseLoop_nil hqueue] at hends
      cases hends
      exact ⟨s.results, h.exhaustive hqueue, (limited_of_not_full hnotFull).symm⟩
    | cons current queue =>
      have hstep := h.step hdedup hqueue
      rw [traverseLoop_cons hqueue] at hends
      split at hends
      · rename_i hfull
        obtain ⟨hreports, hlimit, hle⟩ := hfull
        cases hends
        obtain ⟨all, hall, hprefix⟩ := hstep.exists_exhaustive hdedup (Nat.lt_succ_self _)
        rw [expand_results] at hprefix
        have hlast : (rules.taken current queue s).results.length = s.results.length + 1 := by
          unfold TraversalRules.taken
          dsimp only
          rw [if_pos hreports, length_append, length_singleton]
        have hless := not_le.mp fun hle => hnotFull ⟨hlimit, hle⟩
        have hlength :
            (rules.taken current queue s).results.length = rules.maxResults.toNat := by
          omega
        refine ⟨all, hall, ?_⟩
        unfold TraversalRules.limited
        rw [if_pos hlimit, ← hlength]
        exact prefix_iff_eq_take.mp hprefix
      · rename_i hnot
        refine ih hstep ?_ hends
        rw [expand_results]
        cases hreports : rules.reports current with
        | true => exact fun hfull => hnot ⟨hreports, hfull⟩
        | false =>
          unfold TraversalRules.taken
          rw [hreports]
          exact hnotFull

end Exact

/-- A traversal ends unless nodes are met again, neither depth nor results are limited and walks go
on for ever.  Where each node is taken once it reports, up to the limit on the results, the nodes
that are due. -/
theorem traverseEdges_exact (g : EdgeStore) (rules : TraversalRules) (startKey : Bytes) :
    ((∃ fuel results, traverseEdges g rules startKey fuel = some results) ↔
      rules.deduplicateNodes = true ∨ 0 < rules.maxDepth ∨ 0 < rules.maxResults ∨
        ¬Endless (rules.Passes g) startKey) ∧
    (rules.deduplicateNodes = true → ∀ fuel results,
      traverseEdges g rules startKey fuel = some results →
      ∃ all, Exhaustive g rules startKey all ∧ results = rules.limited all) := by
  refine ⟨exists_traverseEdges_iff, ?_⟩
  intro hdedup fuel results hends
  refine traverseLoop_exact hdedup (explored_start hdedup) ?_ hends
  rintro ⟨hlimit, hle⟩
  exact absurd hlimit (not_lt.mpr hle)

def nodeA : Bytes := [97]
def nodeB : Bytes := [98]

def edgeBetween (source target : Bytes) : Edge := ⟨source, target, [101], 1, []⟩

def twoNodes : EdgeStore where
  outgoing := [edgeBetween nodeA nodeB, edgeBetween nodeB nodeA]
  incoming := [edgeBetween nodeB nodeA, edgeBetween nodeA nodeB]
  same := .swap _ _ _

/-- Outgoing edges of any type and weight, with paths. -/
def followOut (deduplicateNodes : Bool) (maxDepth maxResults : ℤ) : TraversalRules where
  deduplicateNodes := deduplicateNodes
  direction := some .out
  edgeTypes := []
  includePaths := true
  maxDepth := maxDepth
  maxResults := maxResults
  maxWeight := 0
  minWeight := 0

theorem passes_twoNodes {deduplicateNodes : Bool} {maxDepth maxResults : ℤ} {u v : Bytes}
    (h : u = nodeA ∧ v = nodeB ∨ u = nodeB ∧ v = nodeA) :
    (followOut deduplicateNodes maxDepth maxResults).Passes twoNodes u (edgeBetween u v) v := by
  have hpass (e : Edge) :
      (followOut deduplicateNodes maxDepth maxResults).shouldTraverseEdge e = true := by
    simp [TraversalRules.shouldTraverseEdge, followOut]
  rcases h with ⟨rfl, rfl⟩ | ⟨rfl, rfl⟩
  · exact ⟨mem_cons_self, hpass _, .out, rfl, rfl, rfl⟩
  · exact ⟨mem_cons_of_mem _ mem_cons_self, hpass _, .out, rfl, rfl, rfl⟩

/-- The traversal goes back and forth without end, and the start is reported for no depth but
zero. -/
theorem traversal_without_limits :
    (∀ fuel, traverseEdges twoNodes (followOut false 0 0) nodeA fuel = none) ∧
      traverseEdges twoNodes (followOut true 2 0) nodeA 3 =
        some [⟨nodeB, 1, [nodeA, nodeB], [edgeBetween nodeA nodeB], 1⟩] ∧
      IsTrail ((followOut true 2 0).Passes twoNodes) nodeA
        [(edgeBetween nodeB nodeA, nodeB), (edgeBetween nodeA nodeB, nodeA)] nodeA := by
  refine ⟨?_, by decide +kernel, ?_⟩
  · have hendless : Endless ((followOut false 0 0).Passes twoNodes) nodeA := by
      suffices hboth : ∀ n, ∃ t v,
          IsTrail ((followOut false 0 0).Passes twoNodes) nodeA t v ∧ t.length = n ∧
            (v = nodeA ∨ v = nodeB) by
        intro n
        obtain ⟨t, v, ht, hlength, -⟩ := hboth n
        exact ⟨t, v, ht, hlength⟩
      intro n
      induction n with
      | zero => exact ⟨[], nodeA, IsTrail.nil, rfl, Or.inl rfl⟩
      | succ n ih =>
        obtain ⟨t, v, ht, hlength, rfl | rfl⟩ := ih
        · refine ⟨_, nodeB, IsTrail.cons ht (passes_twoNodes (Or.inl ⟨rfl, rfl⟩)), ?_, Or.inr rfl⟩
          rw [List.length_cons, hlength]
        · refine ⟨_, nodeA, IsTrail.cons ht (passes_twoNodes (Or.inr ⟨rfl, rfl⟩)), ?_, Or.inl rfl⟩
          rw [List.length_cons, hlength]
    intro fuel
    refine traverseLoop_endless rfl (Int.le_refl 0) (Int.le_refl 0) fuel ?_
    exact ⟨_, List.mem_singleton_self _, hendless⟩
  · refine IsTrail.cons (IsTrail.cons IsTrail.nil ?_) ?_
    · exact passes_twoNodes (Or.inl ⟨rfl, rfl⟩)
    · exact passes_twoNodes (Or.inr ⟨rfl, rfl⟩)

/-- A cycle of three nodes with an edge out of it. -/
def cycleGraph : EdgeStore where
  outgoing := [edgeBetween nodeA nodeB, edgeBetween nodeB [99], edgeBetween [99] nodeA,
    edgeBetween nodeB [100]]
  incoming := [edgeBetween nodeA nodeB, edgeBetween nodeB [99], edgeBetween [99] nodeA,
    edgeBetween nodeB [100]]
  same := .refl _

/-- With each node taken once, a traversal of depth two goes around the cycle without returning. -/
theorem traversal_of_cycle :
    ∃ all, Exhaustive cycleGraph (followOut true 2 0) nodeA all ∧
      (followOut true 2 0).limited all =
        [⟨nodeB, 1, [nodeA, nodeB], [edgeBetween nodeA nodeB], 1⟩,
          ⟨[99], 2, [nodeA, nodeB, [99]], [edgeBetween nodeA nodeB, edgeBetween nodeB [99]], 1⟩,
          ⟨[100], 2, [nodeA, nodeB, [100]],
            [edgeBetween nodeA nodeB, edgeBetween nodeB [100]], 1⟩] := by
  refine ((traverseEdges_exact cycleGraph (followOut true 2 0) nodeA).2 rfl 5 _ ?_).imp
    fun all => And.imp_right Eq.symm
  decide +kernel

end Antfly.Graph
