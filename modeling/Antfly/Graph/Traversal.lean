import Antfly.Graph.ShortestPath
import Antfly.Lib.Reach

/-!
`TraverseEdges` explores the nodes around a start node breadth first.  Every node that is taken from
the queue is a result, save the start unless the depth is unlimited, and its edges that pass the
filters of the rules put their other ends into the queue: each node once, or as often as it is met.

`fuel` bounds the number of nodes that are taken, and there is no result where it does not suffice.
-/

namespace Antfly.Graph

open Trails

/-- A limit on the depth is positive, and zero is none; so is a negative one, for which the start is
no result.  A `direction` that is not known is `none`. -/
structure TraversalRules where
  deduplicateNodes : Bool
  direction : Option EdgeDirection
  edgeTypes : List Bytes
  includePaths : Bool
  maxDepth : ℤ
  maxResults : ℤ
  maxWeight : ℚ
  minWeight : ℚ

structure TraversalResult where
  key : Bytes
  depth : ℕ
  path : List Bytes
  pathEdges : List Edge
  totalWeight : ℚ
  deriving DecidableEq

structure QueueItem where
  key : Bytes
  depth : ℕ
  path : List Bytes
  pathEdges : List Edge
  totalWeight : ℚ
  deriving DecidableEq

structure Traversal where
  queue : List QueueItem
  visited : List Bytes
  results : List TraversalResult

namespace TraversalRules

/-- A weight bound of zero and an empty list of types are no filters. -/
def shouldTraverseEdge (rules : TraversalRules) (e : Edge) : Bool :=
  !(decide (rules.minWeight ≠ 0) && decide (e.weight < rules.minWeight)) &&
    !(decide (rules.maxWeight ≠ 0) && decide (rules.maxWeight < e.weight)) &&
    decide (rules.edgeTypes = [] ∨ e.type ∈ rules.edgeTypes)

/-- An unknown direction has no edges. -/
def getEdges (g : EdgeStore) (rules : TraversalRules) (key : Bytes) : List Edge :=
  match rules.direction with
  | some direction => g.getEdges key direction
  | none => []

def nextKey (rules : TraversalRules) (current : Bytes) (e : Edge) : Bytes :=
  match rules.direction with
  | some .out => e.target
  | some .incoming => e.source
  | _ => if e.source = current then e.target else e.source

/-- A node is a result unless it is the start and only its neighbours are wanted. -/
def reports (rules : TraversalRules) (item : QueueItem) : Bool :=
  decide (0 < item.depth ∨ rules.maxDepth = 0)

def result (rules : TraversalRules) (item : QueueItem) : TraversalResult where
  key := item.key
  depth := item.depth
  path := if rules.includePaths then item.path else []
  pathEdges := if rules.includePaths then item.pathEdges else []
  totalWeight := item.totalWeight

def next (rules : TraversalRules) (current : QueueItem) (e : Edge) : QueueItem where
  key := rules.nextKey current.key e
  depth := current.depth + 1
  path := if rules.includePaths then current.path ++ [rules.nextKey current.key e] else []
  pathEdges := if rules.includePaths then current.pathEdges ++ [e] else []
  totalWeight := current.totalWeight * e.weight

def processEdge (rules : TraversalRules) (current : QueueItem) (s : Traversal) (e : Edge) :
    Traversal :=
  if !rules.shouldTraverseEdge e then s
  else if rules.deduplicateNodes && decide (rules.nextKey current.key e ∈ s.visited) then s
  else
    { s with
      visited :=
        if rules.deduplicateNodes then rules.nextKey current.key e :: s.visited else s.visited
      queue := s.queue ++ [rules.next current e] }

def atMaxDepth (rules : TraversalRules) (current : QueueItem) : Bool :=
  decide (0 < rules.maxDepth ∧ rules.maxDepth ≤ current.depth)

def expand (g : EdgeStore) (rules : TraversalRules) (current : QueueItem) (s : Traversal) :
    Traversal :=
  if rules.atMaxDepth current then s
  else (rules.getEdges g current.key).foldl (rules.processEdge current) s

end TraversalRules

def traverseLoop (g : EdgeStore) (rules : TraversalRules) :
    ℕ → Traversal → Option (List TraversalResult)
  | 0, _ => none
  | fuel + 1, s =>
    match s.queue with
    | [] => some s.results
    | current :: queue =>
      if rules.reports current then
        let results := s.results ++ [rules.result current]
        if 0 < rules.maxResults ∧ rules.maxResults ≤ results.length then some results
        else
          traverseLoop g rules fuel
            (rules.expand g current { s with queue := queue, results := results })
      else traverseLoop g rules fuel (rules.expand g current { s with queue := queue })

def initialTraversal (rules : TraversalRules) (startKey : Bytes) : Traversal where
  queue := [⟨startKey, 0, [startKey], [], 1⟩]
  visited := if rules.deduplicateNodes then [startKey] else []
  results := []

def traverseEdges (g : EdgeStore) (rules : TraversalRules) (startKey : Bytes) (fuel : ℕ) :
    Option (List TraversalResult) :=
  traverseLoop g rules fuel (initialTraversal rules startKey)

/-- The state after a node was taken and its result added. -/
def TraversalRules.taken (rules : TraversalRules) (current : QueueItem) (queue : List QueueItem)
    (s : Traversal) : Traversal :=
  { s with
    queue := queue
    results := if rules.reports current then s.results ++ [rules.result current] else s.results }

def TraversalRules.Full (rules : TraversalRules) (results : List TraversalResult) : Prop :=
  0 < rules.maxResults ∧ rules.maxResults ≤ results.length

instance (rules : TraversalRules) (results : List TraversalResult) :
    Decidable (rules.Full results) := instDecidableAnd

variable {g : EdgeStore} {rules : TraversalRules} {s : Traversal} {u v : Bytes} {e : Edge}

theorem traverseLoop_nil (hqueue : s.queue = []) (fuel : ℕ) :
    traverseLoop g rules (fuel + 1) s = some s.results := by
  rw [traverseLoop, hqueue]

theorem traverseLoop_cons {current : QueueItem} {queue : List QueueItem}
    (hqueue : s.queue = current :: queue) (fuel : ℕ) :
    traverseLoop g rules (fuel + 1) s =
      if rules.reports current = true ∧ rules.Full (rules.taken current queue s).results then
        some (rules.taken current queue s).results
      else traverseLoop g rules fuel (rules.expand g current (rules.taken current queue s)) := by
  rw [traverseLoop, hqueue]
  dsimp only
  unfold TraversalRules.taken TraversalRules.Full
  cases rules.reports current with
  | false => simp
  | true => simp

/-- The edge leads from `u` to `v` in the direction. -/
def EdgeDirection.Leads (e : Edge) (u v : Bytes) : EdgeDirection → Prop
  | .out => e.source = u ∧ e.target = v
  | .incoming => e.target = u ∧ e.source = v
  | .both => (e.source = u ∧ e.target = v) ∨ (e.target = u ∧ e.source = v)

/-- The edge passes the filters and leads from `u` to `v`. -/
def TraversalRules.Passes (g : EdgeStore) (rules : TraversalRules) (u : Bytes) (e : Edge)
    (v : Bytes) : Prop :=
  e ∈ g.outgoing ∧ rules.shouldTraverseEdge e = true ∧
    ∃ direction, rules.direction = some direction ∧ direction.Leads e u v

theorem TraversalRules.passes_iff :
    rules.Passes g u e v ↔
      e ∈ rules.getEdges g u ∧ rules.shouldTraverseEdge e = true ∧ rules.nextKey u e = v := by
  have hsame : e ∈ g.incoming ↔ e ∈ g.outgoing := g.same.mem_iff
  unfold Passes getEdges nextKey
  cases hdir : rules.direction with
  | none => simp
  | some direction =>
    cases direction with
    | out =>
      simp only [EdgeStore.getEdges, EdgeDirection.Leads, Option.some.injEq, exists_eq_left',
        List.mem_filter, decide_eq_true_eq]
      tauto
    | incoming =>
      simp only [EdgeStore.getEdges, EdgeDirection.Leads, Option.some.injEq, exists_eq_left',
        List.mem_filter, decide_eq_true_eq, hsame]
      tauto
    | both =>
      simp only [EdgeStore.getEdges, EdgeDirection.Leads, Option.some.injEq, exists_eq_left',
        List.mem_append, List.mem_filter, decide_eq_true_eq, hsame]
      by_cases hsource : e.source = u
      · simp only [hsource, if_true]
        constructor
        · rintro ⟨hmem, hpass, ⟨-, htarget⟩ | ⟨htarget, rfl⟩⟩
          · exact ⟨.inl ⟨hmem, trivial⟩, hpass, htarget⟩
          · exact ⟨.inl ⟨hmem, trivial⟩, hpass, htarget⟩
        · rintro ⟨⟨hmem, -⟩ | ⟨hmem, -⟩, hpass, htarget⟩
          · exact ⟨hmem, hpass, .inl ⟨trivial, htarget⟩⟩
          · exact ⟨hmem, hpass, .inl ⟨trivial, htarget⟩⟩
      · simp only [hsource, if_false, false_and, false_or, and_false]
        tauto

def EdgeStore.ends (g : EdgeStore) : List Bytes :=
  g.outgoing.map Edge.target ++ g.incoming.map Edge.source

theorem TraversalRules.Passes.mem_ends (h : rules.Passes g u e v) : v ∈ g.ends := by
  obtain ⟨hmem, -, direction, -, hleads⟩ := h
  have htarget : e.target ∈ g.ends :=
    List.mem_append_left _ (List.mem_map_of_mem hmem)
  have hsource : e.source ∈ g.ends :=
    List.mem_append_right _ (List.mem_map_of_mem (g.same.mem_iff.mpr hmem))
  cases direction with
  | out => exact hleads.2 ▸ htarget
  | incoming => exact hleads.2 ▸ hsource
  | both =>
    rcases hleads with ⟨-, rfl⟩ | ⟨-, rfl⟩
    · exact htarget
    · exact hsource

end Antfly.Graph
