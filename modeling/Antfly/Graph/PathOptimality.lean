import Antfly.Graph.BfsPath

/-!
The path asked for is a walk through permitted edges of at most `depth` edges that no other such
walk is better than.  In direction `both` an edge is permitted either way, but only the outgoing way
is searched; in the weight modes a walk that uses up the depth can settle a node and block the
better way through it.  `PathClear` is the condition on the graph under which neither happens.
-/

namespace Antfly.Graph

open Trails

abbrev Trail := List (Edge × Bytes)

/-- The same query without exclusions, which is what `FindShortestPath` asks. -/
def PathQuery.unrestricted (q : PathQuery) : PathQuery :=
  { q with excludedEdges := [], excludedNodes := [] }

def EdgeDirection.leads : EdgeDirection → Bytes → Edge → Bytes → Prop
  | .out, u, e, v => e.source = u ∧ e.target = v
  | .incoming, u, e, v => e.target = u ∧ e.source = v
  | .both, u, e, v => (e.source = u ∧ e.target = v) ∨ (e.target = u ∧ e.source = v)

/-- An edge of the graph with an allowed type and weight, in the direction asked for. -/
def Permitted (g : EdgeStore) (q : PathQuery) (u : Bytes) (e : Edge) (v : Bytes) : Prop :=
  e ∈ g.outgoing ∧ q.unrestricted.allows e = true ∧ q.direction.leads u e v

def trailWeights (t : Trail) : List ℚ := t.map fun step => step.1.weight

/-- The first walk is better than the second. -/
def PathWeightMode.Better : PathWeightMode → Trail → Trail → Prop
  | .minHops, t, t' => t.length < t'.length
  | .minWeight, t, t' => (trailWeights t).sum < (trailWeights t').sum
  | .maxWeight, t, t' => (trailWeights t').prod < (trailWeights t).prod

structure ShortestTrail (g : EdgeStore) (q : PathQuery) (mode : PathWeightMode)
    (source target : Bytes) (t : Trail) : Prop where
  trail : IsTrail (Permitted g q) source t target
  bounded : t.length ≤ q.depth
  best : ∀ t', IsTrail (Permitted g q) source t' target → t'.length ≤ q.depth →
    ¬mode.Better t' t

def pathOf (target : Bytes) (t : Trail) : Path := reconstructPath ⟨target, 0, t.length, t⟩

/-- What is returned is a best walk, and there is no path only where there is no walk. -/
def FindsShortest (g : EdgeStore) (q : PathQuery) (mode : PathWeightMode)
    (source target : Bytes) : Prop :=
  (∀ path, findShortestPath g q mode source target = .ok path →
    ∃ t, ShortestTrail g q mode source target t ∧ path = pathOf target t) ∧
  (findShortestPath g q mode source target = .error .noPath ↔
    ¬∃ t, IsTrail (Permitted g q) source t target ∧ t.length ≤ q.depth)

/-- The configuration of a mode; breadth-first search counts. -/
def PathWeightMode.config : PathWeightMode → DijkstraConfig
  | .minHops => ⟨0, fun d _ => d + 1, fun _ => true⟩
  | .maxWeight => dijkstraMaxWeightConfig
  | .minWeight => dijkstraMinWeightConfig

/-- There is no walk, or a best one is followed by the search and, unless it looks for the fewest
hops, not obstructed. -/
def PathClear (g : EdgeStore) (q : PathQuery) (mode : PathWeightMode) (source target : Bytes) :
    Prop :=
  (¬∃ t, IsTrail (Permitted g q) source t target ∧ t.length ≤ q.depth) ∨
    ∃ p, ShortestTrail g q mode source target p ∧
      IsTrail (Followed g q.unrestricted mode.config.extraFilter) source p target ∧
      (mode = .minHops ∨ Unobstructed (Followed g q.unrestricted mode.config.extraFilter)
        mode.config.cost q.depth source target p)

section Walks

variable {g : EdgeStore} {q : PathQuery} {mode : PathWeightMode} {source target : Bytes}

variable {v : Bytes} {t p : Trail}

theorem Followed.permitted {filter : ℚ → Bool} {u : Bytes} {e : Edge}
    (h : Followed g q.unrestricted filter u e v) :
    Permitted g q u e v := by
  obtain ⟨hmem, hallows, -, -, hends⟩ := h
  refine ⟨hmem, hallows, ?_⟩
  have hdirection : q.unrestricted.direction = q.direction := rfl
  rw [hdirection] at hends
  cases hdir : q.direction with
  | out => simpa [EdgeDirection.leads, hdir] using hends
  | incoming => simpa [EdgeDirection.leads, hdir] using hends
  | both =>
    left
    simpa [hdir] using hends

theorem monotone_config (mode : PathWeightMode) : mode.config.Monotone := by
  intro d d' w hw hle
  cases mode with
  | minHops =>
    exact add_le_add hle le_rfl
  | minWeight =>
    exact add_le_add hle le_rfl
  | maxWeight =>
    have hpos : 0 < w := of_decide_eq_true hw
    exact mul_le_mul_of_nonneg_right hle (inv_nonneg.mpr hpos.le)

theorem cost_minWeight (t : Trail) : dijkstraMinWeightConfig.cost t = (trailWeights t).sum := by
  induction t with
  | nil => rfl
  | cons step t ih =>
    have hcons : (trailWeights (step :: t)).sum = step.1.weight + (trailWeights t).sum := by
      simp [trailWeights]
    rw [DijkstraConfig.cost, hcons, ih]
    exact add_comm _ _

theorem cost_maxWeight
    (ht : IsTrail (Followed g q dijkstraMaxWeightConfig.extraFilter) source t v) :
    0 < (trailWeights t).prod ∧
      dijkstraMaxWeightConfig.cost t = ((trailWeights t).prod)⁻¹ := by
  induction ht with
  | nil =>
    constructor
    · exact one_pos
    · simp [trailWeights, DijkstraConfig.cost, dijkstraMaxWeightConfig]
  | @cons e u v t _ hstep ih =>
    have hweight : 0 < e.weight := of_decide_eq_true hstep.2.2.1
    have hcons : (trailWeights ((e, u) :: t)).prod = e.weight * (trailWeights t).prod := by
      simp [trailWeights]
    rw [hcons, DijkstraConfig.cost, ih.2]
    refine ⟨mul_pos hweight ih.1, ?_⟩
    rw [mul_inv, mul_comm]
    rfl

theorem better_of_cost_le {t' : Trail} (hmode : mode ≠ .minHops)
    (ht : IsTrail (Followed g q mode.config.extraFilter) source t target)
    (hp : IsTrail (Followed g q mode.config.extraFilter) source p target)
    (hle : mode.config.cost t ≤ mode.config.cost p) (hbetter : mode.Better t' t) :
    mode.Better t' p := by
  cases mode with
  | minHops => exact absurd rfl hmode
  | minWeight =>
    simp only [PathWeightMode.config, cost_minWeight] at hle
    exact lt_of_lt_of_le hbetter hle
  | maxWeight =>
    obtain ⟨htpos, htcost⟩ := cost_maxWeight ht
    obtain ⟨hppos, hpcost⟩ := cost_maxWeight hp
    simp only [PathWeightMode.config, htcost, hpcost] at hle
    have hprod : (trailWeights p).prod ≤ (trailWeights t).prod :=
      (inv_le_inv₀ htpos hppos).mp hle
    exact lt_of_le_of_lt hprod hbetter

theorem ShortestTrail.of_cost_le (hmode : mode ≠ .minHops)
    (hp : ShortestTrail g q mode source target p)
    (hpf : IsTrail (Followed g q.unrestricted mode.config.extraFilter) source p target)
    (ht : IsTrail (Followed g q.unrestricted mode.config.extraFilter) source t target)
    (hbounded : t.length ≤ q.depth) (hle : mode.config.cost t ≤ mode.config.cost p) :
    ShortestTrail g q mode source target t where
  trail := ht.mono fun _ _ _ h => h.permitted
  bounded := hbounded
  best t' ht' hlength hbetter :=
    hp.best t' ht' hlength (better_of_cost_le hmode ht hpf hle hbetter)

theorem source_mem_stations {step : Bytes → Edge → Bytes → Prop} (ht : IsTrail step source t v) :
    ([], source) ∈ stations t v := by
  induction ht with
  | nil => exact mem_stations_self [] source
  | cons _ _ ih => exact mem_stations_cons.mpr (.inr ih)

end Walks

section Results

variable {g : EdgeStore} {q : PathQuery} {mode : PathWeightMode} {source target : Bytes}

/-- The node at which the search of a mode ends. -/
def pathNode (g : EdgeStore) (q : PathQuery) (mode : PathWeightMode) (source target : Bytes) :
    Option PathNode :=
  match mode with
  | .minHops => bfsShortestPath g q.unrestricted source target
  | .maxWeight => dijkstraPath g q.unrestricted dijkstraMaxWeightConfig source target
  | .minWeight => dijkstraPath g q.unrestricted dijkstraMinWeightConfig source target

theorem findShortestPath_of_ne (hs : source ≠ []) (ht : target ≠ []) (hne : source ≠ target) :
    findShortestPath g q mode source target =
      match pathNode g q mode source target with
      | none => .error .noPath
      | some found => .ok (reconstructPath found) := by
  have hvalid : ¬(source = [] ∨ target = []) := not_or.mpr ⟨hs, ht⟩
  have hquery : ({ q with excludedEdges := [], excludedNodes := [] } : PathQuery) =
      q.unrestricted := rfl
  have hsearch : findShortestPathWithExclusions g q.unrestricted mode source target =
      .ok ((pathNode g q mode source target).map reconstructPath) := by
    unfold findShortestPathWithExclusions
    rw [if_neg hvalid, if_neg hne]
    cases mode <;> rfl
  unfold findShortestPath
  rw [hquery, hsearch]
  cases pathNode g q mode source target <;> rfl

theorem findShortestPath_self (hs : source ≠ []) :
    findShortestPath g q mode source source = .ok (pathOf source []) := by
  have hvalid : ¬(source = [] ∨ source = []) := not_or.mpr ⟨hs, hs⟩
  unfold findShortestPath findShortestPathWithExclusions
  rw [if_neg hvalid, if_pos rfl]
  rfl

/-- The node at which the search of a mode ends, exclusions included. -/
def searchNode (g : EdgeStore) (q : PathQuery) (mode : PathWeightMode) (source target : Bytes) :
    Option PathNode :=
  match mode with
  | .minHops => bfsShortestPath g q source target
  | .maxWeight => dijkstraPath g q dijkstraMaxWeightConfig source target
  | .minWeight => dijkstraPath g q dijkstraMinWeightConfig source target

theorem cost_minHops (t : Trail) : PathWeightMode.minHops.config.cost t = t.length := by
  induction t with
  | nil => rfl
  | cons step t ih =>
    rw [DijkstraConfig.cost, ih, List.length_cons]
    push_cast
    rfl

variable {found : PathNode}

theorem searchNode_sound (hfound : searchNode g q mode source target = some found) :
    Reached (Followed g q mode.config.extraFilter) mode.config.cost q.depth source found ∧
      found.key = target := by
  cases mode with
  | minHops =>
    obtain ⟨hr, hkey, -⟩ := bfsShortestPath_sound hfound
    have hdistance : found.distance = PathWeightMode.minHops.config.cost found.trail := by
      rw [cost_minHops]
      exact hr.distance
    exact ⟨⟨hr.trail, hdistance, hr.hops, hr.bounded, hr.simple⟩, hkey⟩
  | maxWeight => exact dijkstraPath_sound hfound
  | minWeight => exact dijkstraPath_sound hfound

theorem pathNode_sound (hfound : pathNode g q mode source target = some found) :
    IsTrail (Followed g q.unrestricted mode.config.extraFilter) source found.trail target ∧
      found.trail.length ≤ q.depth ∧ found.hops = found.trail.length ∧ found.key = target ∧
      (mode ≠ .minHops → found.distance = mode.config.cost found.trail) := by
  obtain ⟨hr, hkey⟩ := @searchNode_sound g q.unrestricted mode source target found hfound
  exact ⟨hkey ▸ hr.trail, hr.hops ▸ hr.bounded, hr.hops, hkey, fun _ => hr.distance⟩

theorem reconstructPath_eq (hkey : found.key = target) :
    reconstructPath found = pathOf target found.trail := by
  subst hkey
  rfl

theorem pathNode_shortest {p : Trail} (hp : ShortestTrail g q mode source target p)
    (hpf : IsTrail (Followed g q.unrestricted mode.config.extraFilter) source p target)
    (hclear : mode = .minHops ∨ Unobstructed
      (Followed g q.unrestricted mode.config.extraFilter) mode.config.cost q.depth source target p) :
    ∃ found, pathNode g q mode source target = some found ∧
      ShortestTrail g q mode source target found.trail := by
  have hmono := monotone_config mode
  cases mode with
  | minHops =>
    obtain ⟨found, hfound⟩ := bfsShortestPath_reaches hpf hp.bounded
    obtain ⟨-, -, hleast⟩ := bfsShortestPath_sound hfound
    obtain ⟨htrail, hlength, hhops, -⟩ := @pathNode_sound g q .minHops source target found hfound
    refine ⟨found, hfound, htrail.mono fun _ _ _ h => h.permitted, hlength, ?_⟩
    intro t' ht' hbounded hbetter
    have hle := hleast p hpf
    rw [hhops] at hle
    exact hp.best t' ht' hbounded (lt_of_lt_of_le hbetter hle)
  | maxWeight =>
    obtain ⟨found, hfound, hle⟩ :=
      dijkstraPath_reaches hmono hpf (hclear.resolve_left (by decide))
    obtain ⟨htrail, hlength, -, -, hdistance⟩ :=
      @pathNode_sound g q .maxWeight source target found hfound
    rw [hdistance (by decide)] at hle
    exact ⟨found, hfound, hp.of_cost_le (by decide) hpf htrail hlength hle⟩
  | minWeight =>
    obtain ⟨found, hfound, hle⟩ :=
      dijkstraPath_reaches hmono hpf (hclear.resolve_left (by decide))
    obtain ⟨htrail, hlength, -, -, hdistance⟩ :=
      @pathNode_sound g q .minWeight source target found hfound
    rw [hdistance (by decide)] at hle
    exact ⟨found, hfound, hp.of_cost_le (by decide) hpf htrail hlength hle⟩

/-- The empty walk is best where a clear query has one and the same source and target. -/
theorem shortest_nil {p : Trail} (hp : ShortestTrail g q mode source source p)
    (hpf : IsTrail (Followed g q.unrestricted mode.config.extraFilter) source p source)
    (hclear : mode = .minHops ∨ Unobstructed
      (Followed g q.unrestricted mode.config.extraFilter) mode.config.cost q.depth source source p) :
    ShortestTrail g q mode source source [] := by
  by_cases hmode : mode = .minHops
  · subst hmode
    exact ⟨IsTrail.nil, Nat.zero_le _, fun t' _ _ hbetter => absurd hbetter (Nat.not_lt_zero _)⟩
  · have hunobstructed := hclear.resolve_left hmode
    refine hp.of_cost_le hmode hpf IsTrail.nil (Nat.zero_le _) ?_
    rcases hunobstructed p source (mem_stations_self p source) [] IsTrail.nil
      (List.nodup_singleton source) (Nat.zero_le _) with ⟨w, x, hw, hheavy⟩ | hwell
    · cases mem_stations_nil.mp hw
      have hlt := hheavy [] source (source_mem_stations hpf)
      exact absurd hlt (lt_irrefl _)
    · exact hwell.1

/-- The path found is a best one, and none is reported only where there is none, when the query is
clear; looking for the fewest hops, exactly when it is. -/
theorem findShortestPath_spec (hs : source ≠ []) (ht : target ≠ []) :
    (PathClear g q mode source target → FindsShortest g q mode source target) ∧
      (mode = .minHops → FindsShortest g q mode source target →
        PathClear g q mode source target) := by
  constructor
  · intro hclear
    by_cases hne : source = target
    · subst hne
      rcases hclear with hnone | ⟨p, hp, hpf, hclear⟩
      · exact absurd ⟨[], IsTrail.nil, Nat.zero_le _⟩ hnone
      have hbest := shortest_nil hp hpf hclear
      unfold FindsShortest
      rw [findShortestPath_self hs]
      constructor
      · intro path hpath
        cases hpath
        exact ⟨[], hbest, rfl⟩
      · constructor
        · intro herror
          cases herror
        · intro hnone
          exact absurd ⟨[], hbest.trail, hbest.bounded⟩ hnone
    · unfold FindsShortest
      rw [findShortestPath_of_ne hs ht hne]
      rcases hclear with hnone | ⟨p, hp, hpf, hclear⟩
      · cases hfound : pathNode g q mode source target with
        | none =>
          constructor
          · intro path hpath
            cases hpath
          · exact ⟨fun _ => hnone, fun _ => rfl⟩
        | some found =>
          obtain ⟨htrail, hlength, -⟩ := pathNode_sound hfound
          exact absurd ⟨_, htrail.mono fun _ _ _ h => h.permitted, hlength⟩ hnone
      · obtain ⟨found, hfound, hbest⟩ := pathNode_shortest hp hpf hclear
        obtain ⟨-, -, -, hkey, -⟩ := pathNode_sound hfound
        rw [hfound]
        constructor
        · intro path hpath
          cases hpath
          exact ⟨found.trail, hbest, reconstructPath_eq hkey⟩
        · constructor
          · intro herror
            cases herror
          · intro hnone
            exact absurd ⟨p, hp.trail, hp.bounded⟩ hnone
  · rintro rfl hfinds
    by_cases hwalk : ∃ t, IsTrail (Permitted g q) source t target ∧ t.length ≤ q.depth
    · right
      by_cases hne : source = target
      · subst hne
        refine ⟨[], ⟨IsTrail.nil, Nat.zero_le _, ?_⟩, IsTrail.nil, Or.inl rfl⟩
        intro t' _ _ hbetter
        exact absurd hbetter (Nat.not_lt_zero _)
      · unfold FindsShortest at hfinds
        rw [findShortestPath_of_ne hs ht hne] at hfinds
        cases hfound : pathNode g q .minHops source target with
        | none =>
          rw [hfound] at hfinds
          exact absurd hwalk (hfinds.2.mp rfl)
        | some found =>
          rw [hfound] at hfinds
          obtain ⟨t, hbest, hpath⟩ := hfinds.1 _ rfl
          obtain ⟨htrail, hlength, -⟩ := pathNode_sound hfound
          have hsame : found.trail.length = t.length := congrArg Path.length hpath
          refine ⟨found.trail, ⟨htrail.mono fun _ _ _ h => h.permitted, hlength, ?_⟩, htrail,
            Or.inl rfl⟩
          intro t' ht' hbounded hbetter
          exact hbest.best t' ht' hbounded (lt_of_lt_of_eq hbetter hsame)
    · exact Or.inl hwalk

end Results

def edge12 : Edge := ⟨[1], [2], [], 5, []⟩
def edge13 : Edge := ⟨[1], [3], [], 1, []⟩
def edge32 : Edge := ⟨[3], [2], [], 1, []⟩
def edge24 : Edge := ⟨[2], [4], [], 1, []⟩

/-- From 1 to 4 over 2, which is reached directly or, at less weight, over 3. -/
def detourGraph : EdgeStore :=
  ⟨[edge12, edge13, edge32, edge24], [edge12, edge13, edge32, edge24], List.Perm.refl _⟩

def within (maxDepth : ℤ) : PathQuery := ⟨[], .out, maxDepth, 0, 0, [], []⟩

theorem followed_detour (maxDepth : ℤ) {e : Edge} (he : e ∈ detourGraph.outgoing) :
    Followed detourGraph (within maxDepth).unrestricted (fun _ => true) e.source e e.target := by
  refine ⟨he, ?_, rfl, List.not_mem_nil, ⟨rfl, rfl⟩⟩
  simp only [detourGraph, List.mem_cons, List.not_mem_nil, or_false] at he
  rcases he with rfl | rfl | rfl | rfl <;>
    simp [PathQuery.allows, PathQuery.inRange, PathQuery.unrestricted, within, edge12, edge13,
      edge32, edge24]

theorem trails_detour {maxDepth : ℤ} {t : Trail} {v : Bytes}
    (ht : IsTrail (Permitted detourGraph (within maxDepth)) [1] t v) :
    (v = [1] ∧ t = []) ∨ (v = [3] ∧ t = [(edge13, [1])]) ∨
      (v = [2] ∧ (t = [(edge12, [1])] ∨ t = [(edge32, [3]), (edge13, [1])])) ∨
      (v = [4] ∧ (t = [(edge24, [2]), (edge12, [1])] ∨
        t = [(edge24, [2]), (edge32, [3]), (edge13, [1])])) := by
  induction ht with
  | nil => exact .inl ⟨rfl, rfl⟩
  | @cons e u v t _ hstep ih =>
    obtain ⟨hmem, -, hsource, htarget⟩ := hstep
    subst htarget
    simp only [detourGraph, List.mem_cons, List.not_mem_nil, or_false] at hmem
    rcases hmem with rfl | rfl | rfl | rfl <;> subst hsource <;>
      simp_all [edge12, edge13, edge32, edge24]

theorem clear_detour : PathClear detourGraph (within 3) .minWeight [1] [4] := by
  have hfirst := followed_detour 3 (e := edge13) (by decide +kernel)
  have hsecond := followed_detour 3 (e := edge32) (by decide +kernel)
  have hthird := followed_detour 3 (e := edge24) (by decide +kernel)
  have hfollowed : IsTrail (Followed detourGraph (within 3).unrestricted fun _ => true) [1]
      [(edge24, [2]), (edge32, [3]), (edge13, [1])] [4] :=
    IsTrail.cons (IsTrail.cons (IsTrail.cons IsTrail.nil hfirst) hsecond) hthird
  right
  refine ⟨_, ⟨hfollowed.mono fun _ _ _ h => h.permitted, by decide, ?_⟩, hfollowed, .inr ?_⟩
  · intro t' ht' _
    rcases trails_detour ht' with h | h | h | ⟨-, rfl | rfl⟩
    · exact absurd h.1 (by decide)
    · exact absurd h.1 (by decide)
    · exact absurd h.1 (by decide)
    · exact not_lt.mpr (by decide +kernel)
    · exact not_lt.mpr (by decide +kernel)
  · intro r v hr w hw _ _
    have hw := trails_detour (hw.mono fun _ _ _ h => h.permitted)
    simp only [mem_stations_cons, mem_stations_nil, Prod.mk.injEq] at hr
    rcases hr with ⟨rfl, rfl⟩ | ⟨rfl, rfl⟩ | ⟨rfl, rfl⟩ | ⟨rfl, rfl⟩
    · rcases hw with h | h | h | ⟨-, rfl | rfl⟩
      · exact absurd h.1 (by decide)
      · exact absurd h.1 (by decide)
      · exact absurd h.1 (by decide)
      · left
        refine ⟨_, _, mem_stations_self _ _, ?_⟩
        simp only [mem_stations_cons, mem_stations_nil, Prod.mk.injEq]
        rintro r' y (⟨rfl, rfl⟩ | ⟨rfl, rfl⟩ | ⟨rfl, rfl⟩ | ⟨rfl, rfl⟩) <;> decide +kernel
      · right
        refine ⟨le_rfl, ?_⟩
        intro e x hx
        simp [stations] at hx
    · rcases hw with h | h | ⟨-, rfl | rfl⟩ | h
      · exact absurd h.1 (by decide)
      · exact absurd h.1 (by decide)
      · left
        refine ⟨_, _, mem_stations_self _ _, ?_⟩
        simp only [mem_stations_cons, mem_stations_nil, Prod.mk.injEq]
        rintro r' y (⟨rfl, rfl⟩ | ⟨rfl, rfl⟩ | ⟨rfl, rfl⟩) <;> decide +kernel
      · exact .inr ⟨le_rfl, fun _ _ _ => .inl (by decide)⟩
      · exact absurd h.1 (by decide)
    · rcases hw with h | ⟨-, rfl⟩ | h | h
      · exact absurd h.1 (by decide)
      · exact .inr ⟨le_rfl, fun _ _ _ => .inl (by decide)⟩
      · exact absurd h.1 (by decide)
      · exact absurd h.1 (by decide)
    · rcases hw with ⟨-, rfl⟩ | h | h | h
      · exact .inr ⟨le_rfl, fun _ _ _ => .inl (by decide)⟩
      · exact absurd h.1 (by decide)
      · exact absurd h.1 (by decide)
      · exact absurd h.1 (by decide)

/-- With three edges the detour is found, as the lightest path. -/
theorem detour_found : FindsShortest detourGraph (within 3) .minWeight [1] [4] :=
  (findShortestPath_spec (by decide) (by decide)).1 clear_detour

/-- With two edges the detour uses up the depth at node 2, and the direct way is not found; and an
edge that leads back is not followed in direction `both`. -/
theorem detour_blocks_path : ¬FindsShortest detourGraph (within 2) .minWeight [1] [4] ∧
    ¬FindsShortest ⟨[edge12], [edge12], List.Perm.refl _⟩
      { within 1 with direction := .both } .minHops [2] [1] := by
  constructor
  · intro hfinds
    have hnone : findShortestPath detourGraph (within 2) .minWeight [1] [4] = .error .noPath := by
      decide +kernel
    have hfirst := followed_detour 2 (e := edge12) (by decide +kernel)
    have hsecond := followed_detour 2 (e := edge24) (by decide +kernel)
    refine hfinds.2.mp hnone ⟨[(edge24, [2]), (edge12, [1])], ?_, by decide⟩
    exact IsTrail.cons (IsTrail.cons IsTrail.nil hfirst.permitted) hsecond.permitted
  · intro hfinds
    have hnone : findShortestPath ⟨[edge12], [edge12], List.Perm.refl _⟩
        { within 1 with direction := .both } .minHops [2] [1] = .error .noPath := by
      decide +kernel
    refine hfinds.2.mp hnone ⟨[(edge12, [2])], IsTrail.cons IsTrail.nil ⟨?_, ?_, ?_⟩, by decide⟩
    · exact List.mem_singleton_self edge12
    · decide +kernel
    · exact Or.inr ⟨rfl, rfl⟩

end Antfly.Graph
