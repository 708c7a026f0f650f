import Antfly.Graph.DijkstraPath

/-!
A node is marked when it is pushed, with one hop more than the node that is popped.  No entry that
waits has fewer hops than that one, so no walk to the node is shorter: every entry has the fewest
hops there are.
-/

namespace Antfly.Graph

open Trails List

section Bfs

variable (g : EdgeStore) (q : PathQuery) (source target : Bytes)

/-- Breadth-first search filters no weights of its own. -/
def Hopped : Bytes → Edge → Bytes → Prop := Followed g q fun _ => true

/-- The nodes gone on from so far are those of `done`.  An edge that `open_` names need not be
looked at yet. -/
structure Marked (open_ : PathNode → Edge → Prop) (s : BfsState) (done : List PathNode) : Prop where
  heap : BinaryHeap.Ordered PathNode.less s.pq.length s.pq
  reached : ∀ x ∈ s.pq ++ done,
    Reached (Hopped g q) (fun t => (t.length : ℚ)) q.depth source x
  passed : ∀ x ∈ s.pq ++ done, ∀ w ∈ nodes x.trail x.key, w ∈ s.visited
  held : ∀ v ∈ s.visited, ∃ x ∈ s.pq ++ done, x.key = v
  source_visited : source ∈ s.visited
  relaxed : ∀ y ∈ done, y.hops < q.depth → ∀ e v, Hopped g q y.key e v → ¬open_ y e →
    v ∈ s.visited
  shortest : ∀ x ∈ s.pq ++ done, ∀ r, IsTrail (Hopped g q) source r x.key → x.hops ≤ r.length

variable {g q source target}

theorem bfsVisit_cases (q : PathQuery) (current : PathNode) (s : BfsState) (e : Edge) :
    (bfsVisit q current s e = s ∧
      (q.allows e = true → q.neighborKey e ∉ q.excludedNodes → q.neighborKey e ∈ s.visited)) ∨
    (q.allows e = true ∧ q.neighborKey e ∉ q.excludedNodes ∧ q.neighborKey e ∉ s.visited ∧
      bfsVisit q current s e =
        { visited := q.neighborKey e :: s.visited
          pq := BinaryHeap.push PathNode.less s.pq ⟨q.neighborKey e, current.distance + 1,
            current.hops + 1, (e, current.key) :: current.trail⟩ }) := by
  unfold bfsVisit
  by_cases hskip : (!q.allows e || decide (q.neighborKey e ∈ q.excludedNodes) ||
      decide (q.neighborKey e ∈ s.visited)) = true
  · left
    simp only [hskip, if_true, true_and]
    intro hallows hnode
    simpa [hallows, hnode] using hskip
  · right
    have hgo := hskip
    simp only [Bool.or_eq_true, Bool.not_eq_true', decide_eq_true_eq, not_or,
      Bool.not_eq_false] at hgo
    simp only [hskip, Bool.false_eq_true, if_false, and_true]
    exact ⟨hgo.1.1, hgo.1.2, hgo.2⟩

variable {open_ : PathNode → Edge → Prop} {s : BfsState} {done : List PathNode}
variable {current found : PathNode} {v : Bytes} {e : Edge} {visited : List Bytes} {seen : List Edge}
variable {p : List (Edge × Bytes)} {fuel : ℕ}

theorem Marked.hops_lt (hs : Marked g q source open_ s done) (hdepth : current.hops < q.depth)
    (hopen : ∀ y e, open_ y e → y = current) (hleast : ∀ x ∈ s.pq, current.hops ≤ x.hops)
    (hv : v ∉ s.visited) {r : List (Edge × Bytes)} (hr : IsTrail (Hopped g q) source r v) :
    current.hops + 1 ≤ r.length := by
  by_cases hlong : q.depth < r.length
  · omega
  obtain ⟨r', w, hr', hw, hfirst⟩ := hr.exists_first hv
  have hle := length_le_of_mem_stations hr'
  rcases hfirst with ⟨-, rfl⟩ | ⟨e, u, t, rfl, hu, hstep⟩
  · exact absurd hs.source_visited hw
  · obtain ⟨x, hx, rfl⟩ := hs.held u hu
    have htrail : IsTrail (Hopped g q) source t x.key :=
      (hr.station hr').station (mem_stations_parent (mem_stations_self _ w))
    have hxle := hs.shortest x hx t htrail
    rw [length_cons] at hle
    have hcurrent : current.hops ≤ x.hops := by
      rcases mem_append.mp hx with hx | hx
      · exact hleast x hx
      · by_cases hin : open_ x e
        · rw [hopen x e hin]
        · exact absurd (hs.relaxed x hx (by omega) e w hstep hin) hw
    omega

/-- The nodes that can be marked still. -/
def unmarked (g : EdgeStore) (visited : List Bytes) : List Bytes :=
  (g.outgoing.map Edge.target ++ g.incoming.map Edge.source).filter fun v => v ∉ visited

theorem mem_unmarked {u : Bytes} {filter : ℚ → Bool} (h : Followed g q filter u e v)
    (hv : v ∉ visited) :
    v ∈ unmarked g visited := by
  obtain ⟨hmem, -, -, -, hends⟩ := h
  rw [unmarked, mem_filter, mem_append]
  refine ⟨?_, decide_eq_true hv⟩
  split at hends
  · obtain ⟨-, rfl⟩ := hends
    exact .inr (mem_map_of_mem (g.same.mem_iff.mpr hmem))
  · obtain ⟨-, rfl⟩ := hends
    exact .inl (mem_map_of_mem hmem)

theorem unmarked_length_lt (hv : v ∈ unmarked g visited) :
    (unmarked g (v :: visited)).length < (unmarked g visited).length := by
  have hsub : unmarked g (v :: visited) = (unmarked g visited).filter fun w => w ≠ v := by
    rw [unmarked, unmarked, filter_filter]
    apply filter_congr
    intro w _
    simp [not_or]
  rw [hsub]
  apply length_filter_lt_length_iff_exists.mpr
  exact ⟨v, hv, by simp⟩

/-- Visiting an edge of the popped node keeps the invariant; a push marks one more node. -/
theorem Marked.visit (hs : Marked g q source (fun y e => y = current ∧ e ∉ seen) s done)
    (hcurrent : current ∈ done) (hdepth : current.hops < q.depth)
    (hleast : ∀ x ∈ s.pq, current.hops ≤ x.hops) (he : e ∈ g.getEdges current.key q.direction) :
    Marked g q source (fun y e' => y = current ∧ e' ∉ e :: seen) (bfsVisit q current s e) done ∧
      (∀ x ∈ (bfsVisit q current s e).pq, current.hops ≤ x.hops) ∧
      (bfsVisit q current s e).pq.length +
          (unmarked g (bfsVisit q current s e).visited).length ≤
        s.pq.length + (unmarked g s.visited).length := by
  rcases bfsVisit_cases q current s e with ⟨hsame, hdone⟩ | ⟨hallows, hnode, hnew, hpushed⟩
  · rw [hsame]
    refine ⟨{ hs with relaxed := ?_ }, hleast, Nat.le_refl _⟩
    intro y hy hhops e' v hfollowed hopen
    by_cases hthis : y = current ∧ e' = e
    · obtain ⟨rfl, rfl⟩ := hthis
      have hneighbor := hfollowed.mem_getEdges.2
      have hnot := hfollowed.2.2.2.1
      rw [← hneighbor] at hnot ⊢
      exact hdone hfollowed.2.1 hnot
    · refine hs.relaxed y hy hhops e' v hfollowed ?_
      rintro ⟨rfl, hunseen⟩
      refine hopen ⟨rfl, ?_⟩
      rw [mem_cons, not_or]
      exact ⟨fun heq => hthis ⟨rfl, heq⟩, hunseen⟩
  · obtain ⟨child, hchild⟩ : ∃ child : PathNode, child = ⟨q.neighborKey e, current.distance + 1,
      current.hops + 1, (e, current.key) :: current.trail⟩ := ⟨_, rfl⟩
    rw [← hchild] at hpushed
    rw [hpushed]
    have hcurrentIn := mem_append_right s.pq hcurrent
    have hreached := hs.reached current hcurrentIn
    have hperm := @BinaryHeap.push_perm _ PathNode.less s.pq child
    have hne : q.neighborKey e ≠ current.key := by
      intro heq
      exact hnew (heq ▸ hs.passed current hcurrentIn current.key mem_cons_self)
    have hstep : Hopped g q current.key e (q.neighborKey e) :=
      followed_of_mem he hallows rfl hnode hne
    have hpassed : ∀ w ∈ nodes child.trail child.key, w ∈ q.neighborKey e :: s.visited := by
      intro w hw
      rw [hchild] at hw
      rcases mem_cons.mp hw with rfl | hw
      · exact mem_cons_self
      · exact mem_cons_of_mem _ (hs.passed current hcurrentIn w hw)
    have hchildReached : Reached (Hopped g q) (fun t => (t.length : ℚ)) q.depth source child := by
      rw [hchild]
      constructor
      · exact IsTrail.cons hreached.trail hstep
      · simp [hreached.distance]
      · simp [hreached.hops]
      · exact hdepth
      · have hsimple : (q.neighborKey e :: nodes current.trail current.key).Nodup := by
          rw [nodup_cons]
          exact ⟨fun hmem => hnew (hs.passed current hcurrentIn _ hmem), hreached.simple⟩
        exact hsimple
    have hin {x : PathNode} (hx : x ∈ BinaryHeap.push PathNode.less s.pq child ++ done) :
        x = child ∨ x ∈ s.pq ++ done := by
      rcases mem_append.mp hx with hx | hx
      · rcases mem_cons.mp (hperm.mem_iff.mp hx) with heq | hx
        · exact .inl heq
        · exact .inr (mem_append_left done hx)
      · exact .inr (mem_append_right s.pq hx)
    have hkeep {x : PathNode} (hx : x ∈ s.pq ++ done) :
        x ∈ BinaryHeap.push PathNode.less s.pq child ++ done := by
      rcases mem_append.mp hx with hx | hx
      · exact mem_append_left done (hperm.mem_iff.mpr (mem_cons_of_mem child hx))
      · exact mem_append_right _ hx
    have hpush : child ∈ BinaryHeap.push PathNode.less s.pq child ++ done :=
      mem_append_left done (hperm.mem_iff.mpr mem_cons_self)
    refine ⟨⟨BinaryHeap.push_ordered weakOrder_less hs.heap child _, ?_, ?_, ?_, ?_, ?_, ?_⟩, ?_, ?_⟩
    · intro x hx
      rcases hin hx with rfl | hx
      · exact hchildReached
      · exact hs.reached x hx
    · intro x hx w hw
      rcases hin hx with rfl | hx
      · exact hpassed w hw
      · exact mem_cons_of_mem _ (hs.passed x hx w hw)
    · intro v hv
      rcases mem_cons.mp hv with rfl | hv
      · exact ⟨child, hpush, by rw [hchild]⟩
      · obtain ⟨x, hx, hkey⟩ := hs.held v hv
        exact ⟨x, hkeep hx, hkey⟩
    · exact mem_cons_of_mem _ hs.source_visited
    · intro y hy hhops e' v hfollowed hopen
      by_cases hvn : v = q.neighborKey e
      · exact hvn ▸ mem_cons_self
      · refine mem_cons_of_mem _ (hs.relaxed y hy hhops e' v hfollowed ?_)
        rintro ⟨rfl, hunseen⟩
        refine hopen ⟨rfl, ?_⟩
        rw [mem_cons, not_or]
        refine ⟨?_, hunseen⟩
        rintro rfl
        exact hvn hfollowed.mem_getEdges.2.symm
    · intro x hx r hr
      rcases hin hx with rfl | hx
      · have hkey : x.key = q.neighborKey e := by rw [hchild]
        have hhops : x.hops = current.hops + 1 := by rw [hchild]
        rw [hkey] at hr
        rw [hhops]
        exact hs.hops_lt hdepth (fun y e' hopen => hopen.1) hleast hnew hr
      · exact hs.shortest x hx r hr
    · intro x hx
      rcases mem_cons.mp (hperm.mem_iff.mp hx) with rfl | hx
      · rw [hchild]
        exact Nat.le_succ _
      · exact hleast x hx
    · have hlength := hperm.length_eq
      rw [length_cons] at hlength
      have hfewer := unmarked_length_lt (mem_unmarked hstep hnew)
      dsimp only
      omega

theorem Marked.visitAll (edges : List Edge)
    (hs : Marked g q source (fun y e => y = current ∧ e ∉ seen) s done)
    (hcurrent : current ∈ done) (hdepth : current.hops < q.depth)
    (hleast : ∀ x ∈ s.pq, current.hops ≤ x.hops)
    (hedges : ∀ e ∈ edges, e ∈ g.getEdges current.key q.direction) :
    Marked g q source (fun y e => y = current ∧ e ∉ edges ++ seen)
        (edges.foldl (bfsVisit q current) s) done ∧
      (edges.foldl (bfsVisit q current) s).pq.length +
          (unmarked g (edges.foldl (bfsVisit q current) s).visited).length ≤
        s.pq.length + (unmarked g s.visited).length := by
  induction edges generalizing s seen with
  | nil => exact ⟨hs, Nat.le_refl _⟩
  | cons e edges ih =>
    obtain ⟨hvisit, hleast', hlength⟩ :=
      hs.visit hcurrent hdepth hleast (hedges e mem_cons_self)
    obtain ⟨hrest, hle⟩ :=
      ih hvisit hleast' fun e' he' => hedges e' (mem_cons_of_mem e he')
    refine ⟨{ hrest with relaxed := ?_ }, hle.trans hlength⟩
    intro y hy hhops e' v hfollowed hopen
    refine hrest.relaxed y hy hhops e' v hfollowed ?_
    rintro ⟨rfl, hunseen⟩
    refine hopen ⟨rfl, ?_⟩
    rw [mem_append, mem_cons] at hunseen
    rw [mem_append, mem_cons]
    tauto

theorem Marked.take {rest : List PathNode} (hs : Marked g q source (fun _ _ => False) s done)
    (hperm : (current :: rest).Perm s.pq)
    (hrest : BinaryHeap.Ordered PathNode.less rest.length rest) :
    Marked g q source (fun y _ => y = current) { s with pq := rest } (current :: done) := by
  have hmoved : (rest ++ current :: done).Perm (s.pq ++ done) :=
    perm_middle.trans (hperm.append_right done)
  refine ⟨hrest, ?_, ?_, ?_, hs.source_visited, ?_, ?_⟩
  · intro x hx
    exact hs.reached x (hmoved.mem_iff.mp hx)
  · intro x hx
    exact hs.passed x (hmoved.mem_iff.mp hx)
  · intro v hv
    obtain ⟨x, hx, hkey⟩ := hs.held v hv
    exact ⟨x, hmoved.mem_iff.mpr hx, hkey⟩
  · intro y hy hhops e v hfollowed hopen
    have hy := (mem_cons.mp hy).resolve_left hopen
    exact hs.relaxed y hy hhops e v hfollowed not_false
  · intro x hx
    exact hs.shortest x (hmoved.mem_iff.mp hx)

theorem Marked.stop (hs : Marked g q source (fun y _ => y = current) s done)
    (hstop : q.depth ≤ current.hops) :
    Marked g q source (fun _ _ => False) s done := by
  refine { hs with relaxed := ?_ }
  intro y hy hhops e v hfollowed _
  refine hs.relaxed y hy hhops e v hfollowed ?_
  rintro rfl
  omega

theorem Marked.expand (hs : Marked g q source (fun y _ => y = current) s done)
    (hcurrent : current ∈ done) (hdepth : current.hops < q.depth)
    (hleast : ∀ x ∈ s.pq, current.hops ≤ x.hops) :
    Marked g q source (fun _ _ => False)
        ((g.getEdges current.key q.direction).foldl (bfsVisit q current) s) done ∧
      ((g.getEdges current.key q.direction).foldl (bfsVisit q current) s).pq.length +
          (unmarked g
            ((g.getEdges current.key q.direction).foldl (bfsVisit q current) s).visited).length ≤
        s.pq.length + (unmarked g s.visited).length := by
  have hnone : Marked g q source (fun y e => y = current ∧ e ∉ []) s done := by
    refine { hs with relaxed := ?_ }
    intro y hy hhops e v hfollowed hopen
    refine hs.relaxed y hy hhops e v hfollowed ?_
    rintro rfl
    exact hopen ⟨rfl, not_mem_nil⟩
  obtain ⟨hall, hlength⟩ := hnone.visitAll (g.getEdges current.key q.direction) hcurrent hdepth
    hleast fun e he => he
  refine ⟨{ hall with relaxed := ?_ }, hlength⟩
  intro y hy hhops e v hfollowed _
  refine hall.relaxed y hy hhops e v hfollowed ?_
  rintro ⟨rfl, hunseen⟩
  exact hunseen (mem_append_left [] hfollowed.mem_getEdges.1)

theorem Marked.least (hs : Marked g q source open_ s done) (hcurrent : current ∈ s.pq)
    (hlightest : ∀ x ∈ s.pq, current.distance ≤ x.distance) :
    ∀ x ∈ s.pq, current.hops ≤ x.hops := by
  intro x hx
  have hle := hlightest x hx
  have hc := hs.reached current (mem_append_left done hcurrent)
  have hxr := hs.reached x (mem_append_left done hx)
  rw [hc.distance, hxr.distance, Nat.cast_le] at hle
  rw [hc.hops, hxr.hops]
  exact hle

/-- While a walk to the target is left and the target has not been popped, an entry waits. -/
theorem Marked.pq_ne_nil (hs : Marked g q source (fun _ _ => False) s done)
    (htarget : ∀ y ∈ done, y.key ≠ target) (hp : IsTrail (Hopped g q) source p target)
    (hlength : p.length ≤ q.depth) :
    s.pq ≠ [] := by
  intro hempty
  have hdone {x : PathNode} (hx : x ∈ s.pq ++ done) : x ∈ done := by
    rwa [hempty, nil_append] at hx
  by_cases hvisited : target ∈ s.visited
  · obtain ⟨x, hx, hkey⟩ := hs.held target hvisited
    exact htarget x (hdone hx) hkey
  · obtain ⟨r, w, hr, hw, hfirst⟩ := hp.exists_first hvisited
    have hle := length_le_of_mem_stations hr
    rcases hfirst with ⟨-, rfl⟩ | ⟨e, u, t, rfl, hu, hstep⟩
    · exact hw hs.source_visited
    · obtain ⟨x, hx, rfl⟩ := hs.held u hu
      have htrail : IsTrail (Hopped g q) source t x.key :=
        (hp.station hr).station (mem_stations_parent (mem_stations_self _ w))
      have hxle := hs.shortest x hx t htrail
      rw [length_cons] at hle
      exact hw (hs.relaxed x (hdone hx) (by omega) e w hstep not_false)

theorem bfsLoop_sound (hs : Marked g q source (fun _ _ => False) s done)
    (hfound : bfsLoop g q target fuel s = some found) :
    Reached (Hopped g q) (fun t => (t.length : ℚ)) q.depth source found ∧ found.key = target ∧
      ∀ r, IsTrail (Hopped g q) source r target → found.hops ≤ r.length := by
  induction fuel generalizing s done with
  | zero => cases hfound
  | succ fuel ih =>
    by_cases hempty : s.pq = []
    · rw [bfsLoop, hempty] at hfound
      simp [BinaryHeap.pop, BinaryHeap.down] at hfound
    obtain ⟨current, rest, hpop, hperm, hrest, hlightest⟩ := pop_lightest hs.heap hempty
    have hcurrent : current ∈ s.pq := hperm.mem_iff.mp mem_cons_self
    simp only [bfsLoop, hpop] at hfound
    have htaken := hs.take hperm hrest
    split at hfound
    · rename_i hkey
      cases hfound
      have hmem := mem_append_left done hcurrent
      exact ⟨hs.reached _ hmem, hkey, fun r hr => hs.shortest _ hmem r (hkey ▸ hr)⟩
    split at hfound
    · rename_i hdepth
      exact ih (htaken.stop hdepth) hfound
    · rename_i hdepth
      have hleast := hs.least hcurrent hlightest
      refine ih (htaken.expand mem_cons_self (by omega) ?_).1 hfound
      intro x hx
      exact hleast x (hperm.mem_iff.mp (mem_cons_of_mem current hx))

theorem bfsLoop_reaches (hp : IsTrail (Hopped g q) source p target) (hlength : p.length ≤ q.depth)
    (hs : Marked g q source (fun _ _ => False) s done) (htarget : ∀ y ∈ done, y.key ≠ target)
    (hfuel : s.pq.length + (unmarked g s.visited).length ≤ fuel) :
    ∃ found, bfsLoop g q target fuel s = some found := by
  have hne := hs.pq_ne_nil htarget hp hlength
  induction fuel generalizing s done with
  | zero =>
    have hpos := length_pos_iff.mpr hne
    omega
  | succ fuel ih =>
    obtain ⟨current, rest, hpop, hperm, hrest, hlightest⟩ := pop_lightest hs.heap hne
    have hcurrent : current ∈ s.pq := hperm.mem_iff.mp mem_cons_self
    have htaken := hs.take hperm hrest
    have hpq := hperm.length_eq
    rw [length_cons] at hpq
    simp only [bfsLoop, hpop]
    split
    · exact ⟨current, rfl⟩
    rename_i hkey
    have htarget' : ∀ y ∈ current :: done, y.key ≠ target := by
      intro y hy
      rcases mem_cons.mp hy with rfl | hy
      · exact hkey
      · exact htarget y hy
    split
    · rename_i hdepth
      have hnext := htaken.stop hdepth
      refine ih hnext htarget' ?_ (hnext.pq_ne_nil htarget' hp hlength)
      dsimp only
      omega
    · rename_i hdepth
      have hleast := hs.least hcurrent hlightest
      obtain ⟨hnext, hle⟩ := htaken.expand mem_cons_self (by omega) (by
        intro x hx
        exact hleast x (hperm.mem_iff.mp (mem_cons_of_mem current hx)))
      refine ih hnext htarget' ?_ (hnext.pq_ne_nil htarget' hp hlength)
      dsimp only at hle
      omega

theorem marked_start (g : EdgeStore) (q : PathQuery) (source : Bytes) :
    Marked g q source (fun _ _ => False) ⟨[source], [⟨source, 0, 0, []⟩]⟩ [] := by
  refine ⟨?_, ?_, ?_, ?_, mem_singleton_self source, ?_, ?_⟩
  · intro c hc hcn
    simp at hcn
    omega
  · intro x hx
    rw [append_nil, mem_singleton] at hx
    subst hx
    exact ⟨IsTrail.nil, by simp, rfl, Nat.zero_le _, nodup_singleton source⟩
  · intro x hx w hw
    rw [append_nil, mem_singleton] at hx
    subst hx
    exact hw
  · intro v hv
    rw [mem_singleton] at hv
    exact ⟨_, mem_singleton_self _, hv.symm⟩
  · intro y hy
    simp at hy
  · intro x hx r _
    rw [append_nil, mem_singleton] at hx
    subst hx
    exact Nat.zero_le _

theorem bfsShortestPath_sound (hfound : bfsShortestPath g q source target = some found) :
    Reached (Hopped g q) (fun t => (t.length : ℚ)) q.depth source found ∧ found.key = target ∧
      ∀ r, IsTrail (Hopped g q) source r target → found.hops ≤ r.length :=
  bfsLoop_sound (marked_start g q source) hfound

theorem bfsShortestPath_reaches (hp : IsTrail (Hopped g q) source p target)
    (hlength : p.length ≤ q.depth) :
    ∃ found, bfsShortestPath g q source target = some found := by
  refine bfsLoop_reaches hp hlength (marked_start g q source) ?_ ?_
  · intro y hy
    simp at hy
  · have hle := length_filter_le (fun v => decide (v ∉ [source]))
      (g.outgoing.map Edge.target ++ g.incoming.map Edge.source)
    rw [length_append, length_map, length_map] at hle
    simp only [unmarked, EdgeStore.pops, length_singleton]
    omega

end Bfs

end Antfly.Graph
