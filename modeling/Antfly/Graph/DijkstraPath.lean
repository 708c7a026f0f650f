import Antfly.Graph.ShortestPath

/-!
A node is settled with the first of its entries that is popped, and goes on from that one alone.
The run is followed along one path `p` to the target: its nodes are settled with entries that are no
heavier than the path so far and can be gone on from, unless another walk gets in the way
(`Unobstructed`).
-/

namespace Antfly.Graph

open Trails List Function

section Followed

variable (g : EdgeStore) (q : PathQuery)

/-- The edges a search goes along: both directions are searched as the outgoing one. -/
def Followed (filter : ℚ → Bool) (u : Bytes) (e : Edge) (v : Bytes) : Prop :=
  e ∈ g.outgoing ∧ q.allows e = true ∧ filter e.weight = true ∧ v ∉ q.excludedNodes ∧
    if q.direction = .incoming then e.target = u ∧ e.source = v else e.source = u ∧ e.target = v

variable {g q} {filter : ℚ → Bool} {u v : Bytes} {e : Edge}

theorem Followed.mem_getEdges (h : Followed g q filter u e v) :
    e ∈ g.getEdges u q.direction ∧ q.neighborKey e = v := by
  obtain ⟨hmem, -, -, -, hends⟩ := h
  cases hdir : q.direction with
  | out =>
    simp only [hdir, reduceCtorEq, if_false] at hends
    simp [EdgeStore.getEdges, PathQuery.neighborKey, hdir, hmem, hends]
  | incoming =>
    simp only [hdir, if_true] at hends
    simp [EdgeStore.getEdges, PathQuery.neighborKey, hdir, g.same.mem_iff, hmem, hends]
  | both =>
    simp only [hdir, reduceCtorEq, if_false] at hends
    simp [EdgeStore.getEdges, PathQuery.neighborKey, hdir, hmem, hends]

theorem followed_of_mem (hmem : e ∈ g.getEdges u q.direction) (hallows : q.allows e = true)
    (hfilter : filter e.weight = true) (hnode : q.neighborKey e ∉ q.excludedNodes)
    (hne : q.neighborKey e ≠ u) : Followed g q filter u e (q.neighborKey e) := by
  cases hdir : q.direction with
  | out =>
    simp only [EdgeStore.getEdges, hdir, mem_filter, decide_eq_true_eq] at hmem
    simp only [PathQuery.neighborKey, hdir, true_or, if_true] at hnode ⊢
    exact ⟨hmem.1, hallows, hfilter, hnode, by simp [hdir, hmem.2]⟩
  | incoming =>
    simp only [EdgeStore.getEdges, hdir, mem_filter, decide_eq_true_eq] at hmem
    simp only [PathQuery.neighborKey, hdir, reduceCtorEq, or_self, if_false] at hnode ⊢
    exact ⟨g.same.mem_iff.mp hmem.1, hallows, hfilter, hnode, by simp [hdir, hmem.2]⟩
  | both =>
    simp only [EdgeStore.getEdges, hdir, mem_append, mem_filter,
      decide_eq_true_eq] at hmem
    simp only [PathQuery.neighborKey, hdir, or_true, if_true] at hnode hne ⊢
    rcases hmem with hmem | hmem
    · exact ⟨hmem.1, hallows, hfilter, hnode, by simp [hdir, hmem.2]⟩
    · exact absurd hmem.2 hne

theorem getEdges_length_le (g : EdgeStore) (u : Bytes) (d : EdgeDirection) :
    (g.getEdges u d).length ≤
      (g.outgoing.filter fun e => e.source = u).length +
        (g.incoming.filter fun e => e.target = u).length := by
  cases d with
  | out => exact Nat.le_add_right _ _
  | incoming => exact Nat.le_add_left _ _
  | both => simp [EdgeStore.getEdges]

end Followed

variable {a b : PathNode}

theorem PathNode.less_eq_false_iff :
    a.less b = false ↔ b.distance < a.distance ∨ b.distance = a.distance ∧ b.hops ≤ a.hops := by
  unfold PathNode.less
  split
  · rename_i heq
    simp [heq]
  · rename_i hne
    rw [decide_eq_false_iff_not, not_lt]
    constructor
    · intro hle
      exact .inl (lt_of_le_of_ne hle (Ne.symm hne))
    · rintro (hlt | ⟨heq, -⟩)
      · exact hlt.le
      · exact absurd heq.symm hne

theorem weakOrder_less : BinaryHeap.WeakOrder PathNode.less where
  asymm a b hless := by
    unfold PathNode.less at hless
    rw [PathNode.less_eq_false_iff]
    split at hless
    · rename_i heq
      exact .inr ⟨heq, (of_decide_eq_true hless).le⟩
    · exact .inl (of_decide_eq_true hless)
  trans a b c hba hcb := by
    rw [PathNode.less_eq_false_iff] at *
    rcases hba with hab | ⟨hab, hhab⟩
    · rcases hcb with hbc | ⟨hbc, -⟩
      · exact .inl (hab.trans hbc)
      · exact .inl (hbc ▸ hab)
    · rcases hcb with hbc | ⟨hbc, hhbc⟩
      · exact .inl (hab ▸ hbc)
      · exact .inr ⟨hab.trans hbc, hhab.trans hhbc⟩

theorem PathNode.distance_le_of_less (h : a.less b = false) : b.distance ≤ a.distance := by
  rcases PathNode.less_eq_false_iff.mp h with hlt | ⟨heq, -⟩
  · exact hlt.le
  · exact heq.le

theorem pop_lightest {pq : List PathNode}
    (hord : BinaryHeap.Ordered PathNode.less pq.length pq) (hne : pq ≠ []) :
    ∃ current rest, BinaryHeap.pop PathNode.less pq = some (current, rest) ∧
      (current :: rest).Perm pq ∧ BinaryHeap.Ordered PathNode.less rest.length rest ∧
      ∀ x ∈ pq, current.distance ≤ x.distance := by
  obtain ⟨current, rest, hpop, hperm, hrest, hleast⟩ := BinaryHeap.pop_spec weakOrder_less hord hne
  exact ⟨current, rest, hpop, hperm, hrest,
    fun x hx => PathNode.distance_le_of_less (hleast x hx)⟩

def DijkstraConfig.cost (cfg : DijkstraConfig) : List (Edge × Bytes) → ℚ
  | [] => cfg.startDistance
  | (e, _) :: t => cfg.distanceFn (cfg.cost t) e.weight

/-- An entry stands for a walk from the source that does not pass a node twice. -/
structure Reached (step : Bytes → Edge → Bytes → Prop) (cost : List (Edge × Bytes) → ℚ)
    (depth : ℕ) (source : Bytes) (x : PathNode) : Prop where
  trail : IsTrail step source x.trail x.key
  distance : x.distance = cost x.trail
  hops : x.hops = x.trail.length
  bounded : x.hops ≤ depth
  simple : (nodes x.trail x.key).Nodup

section Dijkstra

variable (g : EdgeStore) (q : PathQuery) (cfg : DijkstraConfig) (source target : Bytes)

/-- The nodes settled so far are those of `done`.  An edge that `open_` names need not be relaxed
yet. -/
structure Settled (open_ : PathNode → Edge → Prop) (s : DijkstraState) (done : List PathNode) :
    Prop where
  visited : s.visited = done.map PathNode.key
  heap : BinaryHeap.Ordered PathNode.less s.pq.length s.pq
  reached : ∀ x ∈ s.pq ++ done, Reached (Followed g q cfg.extraFilter) cfg.cost q.depth source x
  parents : ∀ x ∈ s.pq ++ done, ∀ e u t, x.trail = (e, u) :: t →
    ∃ y ∈ done, y.key = u ∧ y.trail = t
  labelled : ∀ v, v ∉ s.visited → ∀ d, s.distances v = some d →
    ∃ x ∈ s.pq, x.key = v ∧ x.distance = d
  start : source ∉ s.visited → ∃ x ∈ s.pq, x.key = source ∧ x.distance = cfg.startDistance
  relaxed : ∀ y ∈ done, y.hops < q.depth → y.key ≠ target → ∀ e v,
    Followed g q cfg.extraFilter y.key e v → ¬open_ y e →
      v ∈ s.visited ∨ ∃ d, s.distances v = some d ∧ d ≤ cfg.distanceFn y.distance e.weight

variable {g q cfg source target}

variable {open_ : PathNode → Edge → Prop} {s : DijkstraState} {done rest : List PathNode}
variable {x current found : PathNode} {t p r : List (Edge × Bytes)} {v w : Bytes} {seen : List Edge}
variable {fuel : ℕ}

theorem Settled.station (hs : Settled g q cfg source target open_ s done) (hx : x ∈ s.pq ++ done)
    (ht : (t, v) ∈ stations x.trail x.key) :
    (t, v) = (x.trail, x.key) ∨ ∃ y ∈ done, y.key = v ∧ y.trail = t := by
  obtain ⟨trail, htrail⟩ : ∃ trail, trail = x.trail := ⟨_, rfl⟩
  induction trail generalizing x with
  | nil =>
    rw [← htrail, mem_stations_nil] at ht
    rw [← htrail]
    exact .inl ht
  | cons head trail ih =>
    obtain ⟨e, u⟩ := head
    rw [← htrail, mem_stations_cons] at ht
    rcases ht with heq | hrest
    · rw [← htrail]
      exact .inl heq
    · obtain ⟨y, hy, hkey, htail⟩ := hs.parents x hx e u trail htrail.symm
      rw [← hkey, ← htail] at hrest
      right
      rcases ih (mem_append_right s.pq hy) hrest htail.symm with heq | hfound
      · cases heq
        exact ⟨y, hy, rfl, rfl⟩
      · exact hfound

theorem mem_nodes_iff : w ∈ nodes t v ↔ ∃ r, (r, w) ∈ stations t v := by
  induction t generalizing v with
  | nil => simp [nodes, stations]
  | cons head t ih =>
    obtain ⟨e, u⟩ := head
    have htail : w ∈ nodes ((e, u) :: t) v ↔ w = v ∨ w ∈ nodes t u := by simp [nodes]
    rw [htail, ih]
    simp only [mem_stations_cons, Prod.mk.injEq]
    constructor
    · rintro (rfl | ⟨r, hr⟩)
      · exact ⟨(e, u) :: t, .inl ⟨rfl, rfl⟩⟩
      · exact ⟨r, .inr hr⟩
    · rintro ⟨r, ⟨-, rfl⟩ | hr⟩
      · exact .inl rfl
      · exact .inr ⟨r, hr⟩

theorem Settled.nodes_visited (hs : Settled g q cfg source target open_ s done) (hx : x ∈ done)
    (hw : w ∈ nodes x.trail x.key) :
    w ∈ s.visited := by
  rw [hs.visited]
  obtain ⟨r, hr⟩ := mem_nodes_iff.mp hw
  rcases hs.station (mem_append_right s.pq hx) hr with heq | ⟨y, hy, hkey, -⟩
  · cases heq
    exact mem_map_of_mem hx
  · exact hkey ▸ mem_map_of_mem hy

theorem dijkstraVisit_cases (q : PathQuery) (cfg : DijkstraConfig) (current : PathNode)
    (s : DijkstraState) (e : Edge) :
    (dijkstraVisit q cfg current s e = s ∧
      (q.allows e = true → cfg.extraFilter e.weight = true → q.neighborKey e ∉ q.excludedNodes →
        q.neighborKey e ∈ s.visited ∨ ∃ d, s.distances (q.neighborKey e) = some d ∧
          d ≤ cfg.distanceFn current.distance e.weight)) ∨
    (q.allows e = true ∧ cfg.extraFilter e.weight = true ∧ q.neighborKey e ∉ q.excludedNodes ∧
      q.neighborKey e ∉ s.visited ∧
      (∀ d, s.distances (q.neighborKey e) = some d →
        cfg.distanceFn current.distance e.weight < d) ∧
      dijkstraVisit q cfg current s e =
        { s with
          distances := Function.update s.distances (q.neighborKey e)
            (some (cfg.distanceFn current.distance e.weight))
          pq := BinaryHeap.push PathNode.less s.pq
            ⟨q.neighborKey e, cfg.distanceFn current.distance e.weight, current.hops + 1,
              (e, current.key) :: current.trail⟩ }) := by
  unfold dijkstraVisit
  by_cases hskip : (!q.allows e || !cfg.extraFilter e.weight ||
      decide (q.neighborKey e ∈ q.excludedNodes) || decide (q.neighborKey e ∈ s.visited)) = true
  · left
    simp only [hskip, if_true, true_and]
    intro hallows hfilter hnode
    left
    simpa [hallows, hfilter, hnode] using hskip
  · have hgo := hskip
    simp only [Bool.or_eq_true, Bool.not_eq_true', decide_eq_true_eq, not_or,
      Bool.not_eq_false] at hgo
    obtain ⟨⟨⟨hallows, hfilter⟩, hnode⟩, hvisited⟩ := hgo
    simp only [hskip, Bool.false_eq_true, if_false]
    cases hold : s.distances (q.neighborKey e) with
    | none =>
      right
      simp [hallows, hfilter, hnode, hvisited]
    | some d =>
      by_cases hlt : cfg.distanceFn current.distance e.weight < d
      · right
        simp [hallows, hfilter, hnode, hvisited, hlt]
      · left
        simp only [Option.all_some, hlt, decide_false, Bool.false_eq_true, if_false, true_and]
        intro _ _ _
        exact .inr ⟨d, rfl, not_lt.mp hlt⟩

/-- Visiting an edge of the node that was just settled keeps the invariant and relaxes the edge. -/
theorem Settled.visit
    (hs : Settled g q cfg source target (fun y e => y = current ∧ e ∉ seen) s done)
    (hcurrent : current ∈ done) (hdepth : current.hops < q.depth) {e : Edge}
    (he : e ∈ g.getEdges current.key q.direction) :
    Settled g q cfg source target (fun y e' => y = current ∧ e' ∉ e :: seen)
        (dijkstraVisit q cfg current s e) done ∧
      (dijkstraVisit q cfg current s e).visited = s.visited ∧
      (dijkstraVisit q cfg current s e).pq.length ≤ s.pq.length + 1 := by
  rcases dijkstraVisit_cases q cfg current s e with
    ⟨hsame, hdone⟩ | ⟨hallows, hfilter, hnode, hvisited, hlighter, hpushed⟩
  · rw [hsame]
    refine ⟨{ hs with relaxed := ?_ }, rfl, Nat.le_succ _⟩
    intro y hy hhops hkey e' v hfollowed hopen
    by_cases hthis : y = current ∧ e' = e
    · obtain ⟨rfl, rfl⟩ := hthis
      have hneighbor := hfollowed.mem_getEdges.2
      have hnot := hfollowed.2.2.2.1
      rw [← hneighbor] at hnot ⊢
      exact hdone hfollowed.2.1 hfollowed.2.2.1 hnot
    · refine hs.relaxed y hy hhops hkey e' v hfollowed ?_
      rintro ⟨rfl, hunseen⟩
      refine hopen ⟨rfl, ?_⟩
      rw [mem_cons, not_or]
      exact ⟨fun heq => hthis ⟨rfl, heq⟩, hunseen⟩
  · obtain ⟨child, hchild⟩ : ∃ child : PathNode, child = ⟨q.neighborKey e,
      cfg.distanceFn current.distance e.weight, current.hops + 1,
      (e, current.key) :: current.trail⟩ := ⟨_, rfl⟩
    rw [← hchild] at hpushed
    rw [hpushed]
    have hreached := hs.reached current (mem_append_right s.pq hcurrent)
    have hperm := @BinaryHeap.push_perm _ PathNode.less s.pq child
    have hne : q.neighborKey e ≠ current.key := by
      intro heq
      apply hvisited
      rw [heq, hs.visited]
      exact mem_map_of_mem hcurrent
    have hnew : Reached (Followed g q cfg.extraFilter) cfg.cost q.depth source child := by
      rw [hchild]
      constructor
      · exact IsTrail.cons hreached.trail (followed_of_mem he hallows hfilter hnode hne)
      · simp [DijkstraConfig.cost, hreached.distance]
      · simp [hreached.hops]
      · exact hdepth
      · have hsimple : (q.neighborKey e :: nodes current.trail current.key).Nodup := by
          rw [nodup_cons]
          exact ⟨fun hmem => hvisited (hs.nodes_visited hcurrent hmem), hreached.simple⟩
        exact hsimple
    have hin {x : PathNode}
        (hx : x ∈ BinaryHeap.push PathNode.less s.pq child ++ done) :
        x = child ∨ x ∈ s.pq ++ done := by
      rcases mem_append.mp hx with hx | hx
      · rcases mem_cons.mp (hperm.mem_iff.mp hx) with heq | hx
        · exact .inl heq
        · exact .inr (mem_append_left done hx)
      · exact .inr (mem_append_right s.pq hx)
    have hkeep {x : PathNode} (hx : x ∈ s.pq) :
        x ∈ BinaryHeap.push PathNode.less s.pq child :=
      hperm.mem_iff.mpr (mem_cons_of_mem child hx)
    refine ⟨⟨hs.visited, BinaryHeap.push_ordered weakOrder_less hs.heap child _, ?_, ?_, ?_, ?_, ?_⟩,
      rfl, ?_⟩
    · intro x hx
      rcases hin hx with rfl | hx
      · exact hnew
      · exact hs.reached x hx
    · intro x hx e' u t ht
      rcases hin hx with rfl | hx
      · rw [hchild] at ht
        cases ht
        exact ⟨current, hcurrent, rfl, rfl⟩
      · exact hs.parents x hx e' u t ht
    · intro v hv d hd
      dsimp only at hd
      by_cases hvn : v = q.neighborKey e
      · subst hvn
        rw [update_self, Option.some.injEq] at hd
        refine ⟨child, hperm.mem_iff.mpr mem_cons_self, ?_, ?_⟩
        · rw [hchild]
        · rw [hchild, ← hd]
      · rw [update_of_ne hvn] at hd
        obtain ⟨x, hx, hkey, hdistance⟩ := hs.labelled v hv d hd
        exact ⟨x, hkeep hx, hkey, hdistance⟩
    · intro hsource
      obtain ⟨x, hx, hkey, hdistance⟩ := hs.start hsource
      exact ⟨x, hkeep hx, hkey, hdistance⟩
    · intro y hy hhops hkey e' v hfollowed hopen
      by_cases hvn : v = q.neighborKey e
      · subst hvn
        right
        refine ⟨_, update_self _ _ _, ?_⟩
        by_cases hthis : y = current ∧ e' = e
        · obtain ⟨rfl, rfl⟩ := hthis
          exact le_rfl
        · have hunopened : ¬(y = current ∧ e' ∉ seen) := by
            rintro ⟨rfl, hunseen⟩
            refine hopen ⟨rfl, ?_⟩
            rw [mem_cons, not_or]
            exact ⟨fun heq => hthis ⟨rfl, heq⟩, hunseen⟩
          rcases hs.relaxed y hy hhops hkey e' _ hfollowed hunopened with hin' | ⟨d, hd, hle⟩
          · exact absurd hin' hvisited
          · exact (hlighter d hd).le.trans hle
      · dsimp only
        rw [update_of_ne hvn]
        refine hs.relaxed y hy hhops hkey e' v hfollowed ?_
        rintro ⟨rfl, hunseen⟩
        refine hopen ⟨rfl, ?_⟩
        rw [mem_cons, not_or]
        refine ⟨?_, hunseen⟩
        rintro rfl
        exact hvn hfollowed.mem_getEdges.2.symm
    · exact hperm.length_eq.le

theorem Settled.visitAll (edges : List Edge)
    (hs : Settled g q cfg source target (fun y e => y = current ∧ e ∉ seen) s done)
    (hcurrent : current ∈ done) (hdepth : current.hops < q.depth)
    (hedges : ∀ e ∈ edges, e ∈ g.getEdges current.key q.direction) :
    Settled g q cfg source target (fun y e => y = current ∧ e ∉ edges ++ seen)
        (edges.foldl (dijkstraVisit q cfg current) s) done ∧
      (edges.foldl (dijkstraVisit q cfg current) s).visited = s.visited ∧
      (edges.foldl (dijkstraVisit q cfg current) s).pq.length ≤ s.pq.length + edges.length := by
  induction edges generalizing s seen with
  | nil => exact ⟨hs, rfl, Nat.le_refl _⟩
  | cons e edges ih =>
    obtain ⟨hvisit, hvisited, hlength⟩ :=
      hs.visit hcurrent hdepth (hedges e mem_cons_self)
    obtain ⟨hrest, hsame, hle⟩ := ih hvisit fun e' he' => hedges e' (mem_cons_of_mem e he')
    refine ⟨?_, hsame.trans hvisited, ?_⟩
    · refine { hrest with relaxed := ?_ }
      intro y hy hhops hkey e' v hfollowed hopen
      refine hrest.relaxed y hy hhops hkey e' v hfollowed ?_
      rintro ⟨rfl, hunseen⟩
      refine hopen ⟨rfl, ?_⟩
      rw [mem_append, mem_cons] at hunseen
      rw [mem_append, mem_cons]
      tauto
    · rw [foldl_cons, length_cons]
      omega

theorem Settled.drop (hs : Settled g q cfg source target (fun _ _ => False) s done)
    (hperm : (current :: rest).Perm s.pq)
    (hrest : BinaryHeap.Ordered PathNode.less rest.length rest)
    (hvisited : current.key ∈ s.visited) :
    Settled g q cfg source target (fun _ _ => False) { s with pq := rest } done := by
  have hin {x : PathNode} (hx : x ∈ rest ++ done) : x ∈ s.pq ++ done := by
    rcases mem_append.mp hx with hx | hx
    · exact mem_append_left done (hperm.mem_iff.mp (mem_cons_of_mem current hx))
    · exact mem_append_right s.pq hx
  have hstay {x : PathNode} (hx : x ∈ s.pq) (hnot : x.key ∉ s.visited) : x ∈ rest := by
    rcases mem_cons.mp (hperm.mem_iff.mpr hx) with rfl | hx
    · exact absurd hvisited hnot
    · exact hx
  refine ⟨hs.visited, hrest, fun x hx => hs.reached x (hin hx), fun x hx => hs.parents x (hin hx),
    ?_, ?_, hs.relaxed⟩
  · intro v hv d hd
    obtain ⟨x, hx, rfl, hdistance⟩ := hs.labelled v hv d hd
    exact ⟨x, hstay hx hv, rfl, hdistance⟩
  · intro hsource
    obtain ⟨x, hx, rfl, hdistance⟩ := hs.start hsource
    exact ⟨x, hstay hx hsource, rfl, hdistance⟩

theorem Settled.settle (hs : Settled g q cfg source target (fun _ _ => False) s done)
    (hperm : (current :: rest).Perm s.pq)
    (hrest : BinaryHeap.Ordered PathNode.less rest.length rest) :
    Settled g q cfg source target (fun y _ => y = current)
      { s with visited := current.key :: s.visited, pq := rest } (current :: done) := by
  have hin {x : PathNode} (hx : x ∈ rest ++ current :: done) : x ∈ s.pq ++ done := by
    rcases mem_append.mp hx with hx | hx
    · exact mem_append_left done (hperm.mem_iff.mp (mem_cons_of_mem current hx))
    · rcases mem_cons.mp hx with rfl | hx
      · exact mem_append_left done (hperm.mem_iff.mp mem_cons_self)
      · exact mem_append_right s.pq hx
  have hstay {x : PathNode} (hx : x ∈ s.pq) (hne : x.key ≠ current.key) : x ∈ rest := by
    rcases mem_cons.mp (hperm.mem_iff.mpr hx) with rfl | hx
    · exact absurd rfl hne
    · exact hx
  refine ⟨?_, hrest, fun x hx => hs.reached x (hin hx), ?_, ?_, ?_, ?_⟩
  · simp [hs.visited]
  · intro x hx e u t ht
    obtain ⟨y, hy, hkey, htrail⟩ := hs.parents x (hin hx) e u t ht
    exact ⟨y, mem_cons_of_mem current hy, hkey, htrail⟩
  · intro v hv d hd
    rw [mem_cons, not_or] at hv
    obtain ⟨x, hx, rfl, hdistance⟩ := hs.labelled v hv.2 d hd
    exact ⟨x, hstay hx hv.1, rfl, hdistance⟩
  · intro hsource
    rw [mem_cons, not_or] at hsource
    obtain ⟨x, hx, rfl, hdistance⟩ := hs.start hsource.2
    exact ⟨x, hstay hx hsource.1, rfl, hdistance⟩
  · intro y hy hhops hkey e v hfollowed hopen
    have hy := (mem_cons.mp hy).resolve_left hopen
    rcases hs.relaxed y hy hhops hkey e v hfollowed not_false with hv | hd
    · exact .inl (mem_cons_of_mem _ hv)
    · exact .inr hd

/-- A node that is not gone on from, the target or one at the full depth, has nothing to relax. -/
theorem Settled.stop (hs : Settled g q cfg source target (fun y _ => y = current) s done)
    (hstop : q.depth ≤ current.hops) :
    Settled g q cfg source target (fun _ _ => False) s done := by
  refine { hs with relaxed := ?_ }
  intro y hy hhops hkey e v hfollowed _
  refine hs.relaxed y hy hhops hkey e v hfollowed ?_
  rintro rfl
  omega

theorem Settled.expand (hs : Settled g q cfg source target (fun y _ => y = current) s done)
    (hcurrent : current ∈ done) (hdepth : current.hops < q.depth) :
    Settled g q cfg source target (fun _ _ => False)
        ((g.getEdges current.key q.direction).foldl (dijkstraVisit q cfg current) s) done ∧
      ((g.getEdges current.key q.direction).foldl (dijkstraVisit q cfg current) s).visited =
        s.visited ∧
      ((g.getEdges current.key q.direction).foldl (dijkstraVisit q cfg current) s).pq.length ≤
        s.pq.length + (g.getEdges current.key q.direction).length := by
  have hnone : Settled g q cfg source target (fun y e => y = current ∧ e ∉ []) s done := by
    refine { hs with relaxed := ?_ }
    intro y hy hhops hkey e v hfollowed hopen
    refine hs.relaxed y hy hhops hkey e v hfollowed ?_
    rintro rfl
    exact hopen ⟨rfl, not_mem_nil⟩
  obtain ⟨hall, hvisited, hlength⟩ :=
    hnone.visitAll (g.getEdges current.key q.direction) hcurrent hdepth fun e he => he
  refine ⟨{ hall with relaxed := ?_ }, hvisited, hlength⟩
  intro y hy hhops hkey e v hfollowed _
  refine hall.relaxed y hy hhops hkey e v hfollowed ?_
  rintro ⟨rfl, hunseen⟩
  exact hunseen (mem_append_left [] hfollowed.mem_getEdges.1)

/-- The pops that are still to come: one for each entry, and one for each edge of a node that is
not settled. -/
def popsLeft (g : EdgeStore) (s : DijkstraState) : ℕ :=
  s.pq.length + (g.outgoing.filter fun e => e.source ∉ s.visited).length +
    (g.incoming.filter fun e => e.target ∉ s.visited).length

theorem filter_notMem_cons (ends : Edge → Bytes) (edges : List Edge) {key : Bytes}
    {visited : List Bytes} (hkey : key ∉ visited) :
    (edges.filter fun e => ends e ∉ key :: visited).length +
        (edges.filter fun e => ends e = key).length =
      (edges.filter fun e => ends e ∉ visited).length := by
  induction edges with
  | nil => rfl
  | cons e edges ih =>
    by_cases heq : ends e = key
    · have hnot : ends e ∉ visited := heq ▸ hkey
      simp only [filter_cons, mem_cons, heq, true_or, not_true_eq_false, decide_false,
        Bool.false_eq_true, if_false, decide_true, if_true, length_cons, hkey,
        not_false_eq_true]
      simp only [mem_cons] at ih
      omega
    · by_cases hin : ends e ∈ visited
      · simp only [filter_cons, mem_cons, heq, hin, or_true, not_true_eq_false,
          decide_false, Bool.false_eq_true, if_false]
        simpa only [mem_cons] using ih
      · simp only [filter_cons, mem_cons, heq, hin, or_self, not_false_eq_true,
          decide_true, if_true, decide_false, Bool.false_eq_true, if_false, length_cons]
        simp only [mem_cons] at ih
        omega

/-- Every walk to a node of the path, without repeated nodes and within the depth, passes through a
walk that is heavier than all the path passes through before, or is no heavier than the path so far
and can be gone on from: it is shorter than the depth or has passed through the next node. -/
def Unobstructed (step : Bytes → Edge → Bytes → Prop) (cost : List (Edge × Bytes) → ℚ) (depth : ℕ)
    (source target : Bytes) (p : List (Edge × Bytes)) : Prop :=
  ∀ r v, (r, v) ∈ stations p target → ∀ w, IsTrail step source w v → (nodes w v).Nodup →
    w.length ≤ depth →
      (∃ w' x, (w', x) ∈ stations w v ∧ ∀ r' y, (r', y) ∈ stations r v → cost r' < cost w') ∨
        (cost w ≤ cost r ∧
          ∀ e x, ((e, v) :: r, x) ∈ stations p target → w.length < depth ∨ x ∈ nodes w v)

/-- The nodes of the path that are settled are settled well, and nothing heavier than the way to
the next one has been popped. -/
structure OnCourse (cfg : DijkstraConfig) (depth : ℕ) (target : Bytes) (p : List (Edge × Bytes))
    (visited : List Bytes) (done : List PathNode) : Prop where
  well : ∀ r v, (r, v) ∈ stations p target → ∀ y ∈ done, y.key = v →
    y.distance ≤ cfg.cost r ∧
      ∀ e x, ((e, v) :: r, x) ∈ stations p target → y.hops < depth ∨ x ∈ visited
  ahead : ∀ z ∈ done, ∀ r v, (r, v) ∈ stations p target → v ∉ visited →
    ∃ r' x, (r', x) ∈ stations r v ∧ z.distance ≤ cfg.cost r'

def DijkstraConfig.Monotone (cfg : DijkstraConfig) : Prop :=
  ∀ d d' w, cfg.extraFilter w = true → d ≤ d' → cfg.distanceFn d w ≤ cfg.distanceFn d' w

/-- Short of an unsettled node of the path, an entry is waiting that is no heavier than the path. -/
theorem Settled.entry_ahead (hmono : cfg.Monotone)
    (hp : IsTrail (Followed g q cfg.extraFilter) source p target)
    (hs : Settled g q cfg source target (fun _ _ => False) s done)
    (hcourse : OnCourse cfg q.depth target p s.visited done) (htarget : target ∉ s.visited)
    (hr : (r, v) ∈ stations p target) (hv : v ∉ s.visited) :
    ∃ x ∈ s.pq, ∃ r' w, (r', w) ∈ stations r v ∧ x.distance ≤ cfg.cost r' := by
  obtain ⟨r', w, hr', hw, hfirst⟩ := (hp.station hr).exists_first hv
  rcases hfirst with ⟨rfl, rfl⟩ | ⟨e, u, t, rfl, hu, hstep⟩
  · obtain ⟨x, hx, -, hdistance⟩ := hs.start hw
    exact ⟨x, hx, [], w, hr', hdistance.le⟩
  · rw [hs.visited] at hu
    obtain ⟨y, hy, rfl⟩ := mem_map.mp hu
    have hstation := mem_stations_trans hr hr'
    obtain ⟨hle, hroom⟩ := hcourse.well t y.key (mem_stations_parent hstation) y hy rfl
    have hhops := (hroom e w hstation).resolve_right hw
    have hkey : y.key ≠ target := by
      rintro hkey
      apply htarget
      rw [← hkey, hs.visited]
      exact mem_map_of_mem hy
    rcases hs.relaxed y hy hhops hkey e w hstep not_false with hin | ⟨d, hd, hdle⟩
    · exact absurd hin hw
    · obtain ⟨x, hx, -, hdistance⟩ := hs.labelled w hw d hd
      refine ⟨x, hx, (e, y.key) :: t, w, hr', ?_⟩
      calc
        x.distance = d := hdistance
        _ ≤ cfg.distanceFn y.distance e.weight := hdle
        _ ≤ cfg.distanceFn (cfg.cost t) e.weight := hmono _ _ _ hstep.2.2.1 hle

theorem OnCourse.settles (hmono : cfg.Monotone)
    (hp : IsTrail (Followed g q cfg.extraFilter) source p target)
    (hclear : Unobstructed (Followed g q cfg.extraFilter) cfg.cost q.depth source target p)
    (hs : Settled g q cfg source target (fun _ _ => False) s done)
    (hcourse : OnCourse cfg q.depth target p s.visited done) (htarget : target ∉ s.visited)
    (hcurrent : current ∈ s.pq) (hnew : current.key ∉ s.visited)
    (hlightest : ∀ x ∈ s.pq, current.distance ≤ x.distance)
    (hr : (r, current.key) ∈ stations p target) :
    current.distance ≤ cfg.cost r ∧ ∀ e x, ((e, current.key) :: r, x) ∈ stations p target →
      current.hops < q.depth ∨ x ∈ nodes current.trail current.key := by
  have hmem := mem_append_left done hcurrent
  have hreached := hs.reached current hmem
  have hbounded := hreached.bounded
  rw [hreached.hops] at hbounded
  rcases hclear r current.key hr current.trail hreached.trail hreached.simple hbounded with
    ⟨w, x, hw, hheavy⟩ | hwell
  · exfalso
    rcases hs.station hmem hw with heq | ⟨y, hy, -, htrail⟩
    · cases heq
      obtain ⟨x, hx, r', w, hr', hle⟩ := hs.entry_ahead hmono hp hcourse htarget hr hnew
      have hlt := hheavy r' w hr'
      rw [← hreached.distance] at hlt
      exact absurd ((hlightest x hx).trans hle) (not_le_of_gt hlt)
    · obtain ⟨r', w', hr', hle⟩ := hcourse.ahead y hy r current.key hr hnew
      have hlt := hheavy r' w' hr'
      rw [← htrail, ← (hs.reached y (mem_append_right s.pq hy)).distance] at hlt
      exact absurd hle (not_le_of_gt hlt)
  · rw [hreached.distance, hreached.hops]
    exact hwell

theorem Settled.nodes_settled (hs : Settled g q cfg source target (fun _ _ => False) s done)
    (hcurrent : current ∈ s.pq) (hw : w ∈ nodes current.trail current.key) :
    w ∈ current.key :: s.visited := by
  obtain ⟨r, hr⟩ := mem_nodes_iff.mp hw
  rcases hs.station (mem_append_left done hcurrent) hr with heq | ⟨y, hy, rfl, -⟩
  · cases heq
    exact mem_cons_self
  · rw [hs.visited]
    exact mem_cons_of_mem _ (mem_map_of_mem hy)

theorem OnCourse.settle (hmono : cfg.Monotone)
    (hp : IsTrail (Followed g q cfg.extraFilter) source p target)
    (hclear : Unobstructed (Followed g q cfg.extraFilter) cfg.cost q.depth source target p)
    (hs : Settled g q cfg source target (fun _ _ => False) s done)
    (hcourse : OnCourse cfg q.depth target p s.visited done) (htarget : target ∉ s.visited)
    (hcurrent : current ∈ s.pq) (hnew : current.key ∉ s.visited)
    (hlightest : ∀ x ∈ s.pq, current.distance ≤ x.distance) :
    OnCourse cfg q.depth target p (current.key :: s.visited) (current :: done) := by
  constructor
  · rintro r v hr y hy rfl
    rcases mem_cons.mp hy with rfl | hy
    · obtain ⟨hle, hroom⟩ :=
        hcourse.settles hmono hp hclear hs htarget hcurrent hnew hlightest hr
      refine ⟨hle, ?_⟩
      intro e x hx
      exact (hroom e x hx).imp_right fun hin => hs.nodes_settled hcurrent hin
    · obtain ⟨hle, hroom⟩ := hcourse.well r y.key hr y hy rfl
      exact ⟨hle, fun e x hx => (hroom e x hx).imp_right (mem_cons_of_mem _)⟩
  · intro z hz r v hr hv
    rw [mem_cons, not_or] at hv
    rcases mem_cons.mp hz with rfl | hz
    · obtain ⟨x, hx, r', w, hr', hle⟩ := hs.entry_ahead hmono hp hcourse htarget hr hv.2
      exact ⟨r', w, hr', (hlightest x hx).trans hle⟩
    · exact hcourse.ahead z hz r v hr hv.2

theorem popsLeft_drop (hperm : (current :: rest).Perm s.pq) :
    popsLeft g { s with pq := rest } + 1 = popsLeft g s := by
  have hlength := hperm.length_eq
  rw [length_cons] at hlength
  simp only [popsLeft]
  omega

theorem popsLeft_settle (hperm : (current :: rest).Perm s.pq) (hnew : current.key ∉ s.visited)
    (d : EdgeDirection) :
    popsLeft g { s with visited := current.key :: s.visited, pq := rest } +
        (g.getEdges current.key d).length + 1 ≤ popsLeft g s := by
  have hlength := hperm.length_eq
  rw [length_cons] at hlength
  have hout := filter_notMem_cons Edge.source g.outgoing hnew
  have hin := filter_notMem_cons Edge.target g.incoming hnew
  have hedges := getEdges_length_le g current.key d
  simp only [popsLeft]
  omega

theorem dijkstraLoop_sound (hs : Settled g q cfg source target (fun _ _ => False) s done)
    (hfound : dijkstraLoop g q cfg target fuel s = some found) :
    Reached (Followed g q cfg.extraFilter) cfg.cost q.depth source found ∧ found.key = target := by
  induction fuel generalizing s done with
  | zero => cases hfound
  | succ fuel ih =>
    by_cases hempty : s.pq = []
    · rw [dijkstraLoop, hempty] at hfound
      simp [BinaryHeap.pop, BinaryHeap.down] at hfound
    obtain ⟨current, rest, hpop, hperm, hrest, -⟩ := pop_lightest hs.heap hempty
    have hcurrent : current ∈ s.pq := hperm.mem_iff.mp mem_cons_self
    simp only [dijkstraLoop, hpop] at hfound
    split at hfound
    · rename_i hvisited
      exact ih (hs.drop hperm hrest hvisited) hfound
    have hsettled := hs.settle hperm hrest
    split at hfound
    · rename_i hkey
      cases hfound
      exact ⟨hs.reached _ (mem_append_left done hcurrent), hkey⟩
    split at hfound
    · rename_i hdepth
      exact ih (hsettled.stop hdepth) hfound
    · rename_i hdepth
      exact ih (hsettled.expand mem_cons_self (by omega)).1 hfound

/-- The run comes to the target, with an entry that is no heavier than the unobstructed path. -/
theorem dijkstraLoop_reaches (hmono : cfg.Monotone)
    (hp : IsTrail (Followed g q cfg.extraFilter) source p target)
    (hclear : Unobstructed (Followed g q cfg.extraFilter) cfg.cost q.depth source target p)
    (hs : Settled g q cfg source target (fun _ _ => False) s done)
    (hcourse : OnCourse cfg q.depth target p s.visited done) (htarget : target ∉ s.visited)
    (hfuel : popsLeft g s ≤ fuel) :
    ∃ found, dijkstraLoop g q cfg target fuel s = some found ∧ found.distance ≤ cfg.cost p := by
  induction fuel generalizing s done with
  | zero =>
    obtain ⟨x, hx, -⟩ := hs.entry_ahead hmono hp hcourse htarget
      (mem_stations_self p target) htarget
    have hpos := length_pos_of_mem hx
    unfold popsLeft at hfuel
    omega
  | succ fuel ih =>
    obtain ⟨x, hx, -⟩ := hs.entry_ahead hmono hp hcourse htarget
      (mem_stations_self p target) htarget
    obtain ⟨current, rest, hpop, hperm, hrest, hlightest⟩ :=
      pop_lightest hs.heap (ne_nil_of_mem hx)
    have hcurrent : current ∈ s.pq := hperm.mem_iff.mp mem_cons_self
    simp only [dijkstraLoop, hpop]
    split
    · rename_i hvisited
      have hpops := popsLeft_drop (g := g) hperm
      exact ih (hs.drop hperm hrest hvisited) hcourse htarget (by omega)
    rename_i hnew
    have hsettled := hs.settle hperm hrest
    have hcourse' := hcourse.settle hmono hp hclear hs htarget hcurrent hnew hlightest
    have hpops := popsLeft_settle (g := g) hperm hnew q.direction
    split
    · rename_i hkey
      have hlast : (p, current.key) ∈ stations p target := by
        rw [hkey]
        exact mem_stations_self p target
      have hwell :=
        hcourse.settles hmono hp hclear hs htarget hcurrent hnew hlightest hlast
      exact ⟨current, rfl, hwell.1⟩
    rename_i hkey
    have htarget' : target ∉ current.key :: s.visited := by
      rw [mem_cons, not_or]
      exact ⟨Ne.symm hkey, htarget⟩
    split
    · rename_i hdepth
      exact ih (hsettled.stop hdepth) hcourse' htarget' (by omega)
    · rename_i hdepth
      obtain ⟨hnext, hvisited, hpq⟩ := hsettled.expand mem_cons_self (by omega)
      refine ih hnext ?_ ?_ ?_
      · rw [hvisited]
        exact hcourse'
      · rw [hvisited]
        exact htarget'
      · simp only [popsLeft, hvisited] at hpops hfuel ⊢
        simp only at hpq
        omega

theorem settled_start (g : EdgeStore) (q : PathQuery) (cfg : DijkstraConfig)
    (source target : Bytes) :
    Settled g q cfg source target (fun _ _ => False)
      ⟨Function.update (fun _ => none) source (some cfg.startDistance), [],
        [⟨source, cfg.startDistance, 0, []⟩]⟩ [] := by
  refine ⟨rfl, ?_, ?_, ?_, ?_, ?_, ?_⟩
  · intro c hc hcn
    simp at hcn
    omega
  · intro x hx
    rw [append_nil, mem_singleton] at hx
    subst hx
    exact ⟨IsTrail.nil, rfl, rfl, Nat.zero_le _, nodup_singleton source⟩
  · intro x hx e u t ht
    rw [append_nil, mem_singleton] at hx
    subst hx
    cases ht
  · intro v _ d hd
    dsimp only at hd
    by_cases hv : v = source
    · subst hv
      rw [update_self, Option.some.injEq] at hd
      exact ⟨_, mem_singleton_self _, rfl, hd⟩
    · rw [update_of_ne hv] at hd
      cases hd
  · intro _
    exact ⟨_, mem_singleton_self _, rfl, rfl⟩
  · intro y hy
    simp at hy

theorem dijkstraPath_sound (hfound : dijkstraPath g q cfg source target = some found) :
    Reached (Followed g q cfg.extraFilter) cfg.cost q.depth source found ∧ found.key = target :=
  dijkstraLoop_sound (settled_start g q cfg source target) hfound

theorem dijkstraPath_reaches (hmono : cfg.Monotone)
    (hp : IsTrail (Followed g q cfg.extraFilter) source p target)
    (hclear : Unobstructed (Followed g q cfg.extraFilter) cfg.cost q.depth source target p) :
    ∃ found, dijkstraPath g q cfg source target = some found ∧ found.distance ≤ cfg.cost p := by
  refine dijkstraLoop_reaches hmono hp hclear (settled_start g q cfg source target)
    ⟨?_, ?_⟩ not_mem_nil ?_
  · intro r v _ y hy
    simp at hy
  · intro z hz
    simp at hz
  · simp only [popsLeft, EdgeStore.pops]
    have hout := length_filter_le (fun e => decide (e.source ∉ ([] : List Bytes))) g.outgoing
    have hin := length_filter_le (fun e => decide (e.target ∉ ([] : List Bytes))) g.incoming
    simp only [length_singleton]
    omega

end Dijkstra

end Antfly.Graph
