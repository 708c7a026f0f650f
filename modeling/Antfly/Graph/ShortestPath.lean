import Antfly.Bytes
import Antfly.Lib.BinaryHeap
import Antfly.Lib.Trails
import Mathlib.Algebra.BigOperators.Group.List.Basic
import Mathlib.Algebra.Order.Field.Rat
import Mathlib.Logic.Function.Basic

/-!
`FindShortestPath` looks for a path of at most `maxDepth` edges: the one with the fewest edges, with
the least sum of weights or with the greatest product of weights.  All three searches keep the ends
of the paths found so far in a heap, the least distance first.  Breadth-first search marks a node
when it is pushed, Dijkstra's algorithm when it is popped.

Weights are rationals.  The distance of the maximum-weight mode is the sum of the negative
logarithms of the weights; here it is the exponential of that, the product of their inverses, which
is ordered in the same way.
-/

namespace Antfly.Graph

structure Edge where
  source : Bytes
  target : Bytes
  type : Bytes
  weight : ℚ
  metadata : Bytes
  deriving DecidableEq

inductive EdgeDirection where
  | out
  | incoming
  | both
  deriving DecidableEq

inductive PathWeightMode where
  | minHops
  | maxWeight
  | minWeight
  deriving DecidableEq

/-- The edges in the order of their keys, and the same ones in the order of the edge index. -/
structure EdgeStore where
  outgoing : List Edge
  incoming : List Edge
  same : incoming.Perm outgoing

def EdgeStore.getEdges (g : EdgeStore) (key : Bytes) : EdgeDirection → List Edge
  | .out => g.outgoing.filter fun e => e.source = key
  | .incoming => g.incoming.filter fun e => e.target = key
  | .both =>
    (g.outgoing.filter fun e => e.source = key) ++ g.incoming.filter fun e => e.target = key

/-- An end of a path: the chain of its parents is the edges back to the start, each with the key of
the node it was followed from. -/
structure PathNode where
  key : Bytes
  distance : ℚ
  hops : ℕ
  trail : List (Edge × Bytes)
  deriving DecidableEq

def PathNode.less (a b : PathNode) : Bool :=
  if a.distance = b.distance then decide (a.hops < b.hops) else decide (a.distance < b.distance)

structure DijkstraConfig where
  startDistance : ℚ
  distanceFn : ℚ → ℚ → ℚ
  extraFilter : ℚ → Bool

def dijkstraMinWeightConfig : DijkstraConfig := ⟨0, fun d w => d + w, fun _ => true⟩

def dijkstraMaxWeightConfig : DijkstraConfig := ⟨1, fun d w => d * w⁻¹, fun w => 0 < w⟩

/-- What a search is told besides its ends.  Excluded edges are named by source, target and type. -/
structure PathQuery where
  edgeTypes : List Bytes
  direction : EdgeDirection
  maxDepth : ℤ
  minWeight : ℚ
  maxWeight : ℚ
  excludedEdges : List (Bytes × Bytes × Bytes)
  excludedNodes : List Bytes

/-- 50 where no depth is given. -/
def PathQuery.depth (q : PathQuery) : ℕ := if q.maxDepth ≤ 0 then 50 else q.maxDepth.toNat

/-- Two zero bounds stand for nonnegative weights. -/
def PathQuery.inRange (q : PathQuery) (weight : ℚ) : Bool :=
  if q.minWeight = 0 ∧ q.maxWeight = 0 then decide (0 ≤ weight)
  else decide (q.minWeight ≤ weight ∧ weight ≤ q.maxWeight)

def PathQuery.allows (q : PathQuery) (e : Edge) : Bool :=
  decide (q.edgeTypes = [] ∨ e.type ∈ q.edgeTypes) && q.inRange e.weight &&
    decide ((e.source, e.target, e.type) ∉ q.excludedEdges)

/-- The end of an edge that a search goes on from. -/
def PathQuery.neighborKey (q : PathQuery) (e : Edge) : Bytes :=
  if q.direction = .out ∨ q.direction = .both then e.target else e.source

structure Path where
  nodes : List Bytes
  edges : List Edge
  totalWeight : ℚ
  length : ℕ
  deriving DecidableEq

def reconstructPath (finalNode : PathNode) : Path where
  nodes := (finalNode.key :: finalNode.trail.map Prod.snd).reverse
  edges := (finalNode.trail.map Prod.fst).reverse
  totalWeight := ((finalNode.trail.map Prod.fst).reverse.map Edge.weight).sum
  length := finalNode.trail.length

section Searches

variable (g : EdgeStore) (q : PathQuery)

structure BfsState where
  visited : List Bytes
  pq : List PathNode

def bfsVisit (current : PathNode) (s : BfsState) (e : Edge) : BfsState :=
  let neighbor := q.neighborKey e
  if !q.allows e || decide (neighbor ∈ q.excludedNodes) || decide (neighbor ∈ s.visited) then s
  else
    { visited := neighbor :: s.visited
      pq := BinaryHeap.push PathNode.less s.pq
        ⟨neighbor, current.distance + 1, current.hops + 1, (e, current.key) :: current.trail⟩ }

/-- `none` where the heap runs empty; `fuel` bounds the number of pops. -/
def bfsLoop (target : Bytes) : ℕ → BfsState → Option PathNode
  | 0, _ => none
  | fuel + 1, s =>
    match BinaryHeap.pop PathNode.less s.pq with
    | none => none
    | some (current, rest) =>
      if current.key = target then some current
      else if q.depth ≤ current.hops then bfsLoop target fuel { s with pq := rest }
      else
        bfsLoop target fuel
          ((g.getEdges current.key q.direction).foldl (bfsVisit q current)
            { s with pq := rest })

/-- A bound on the number of nodes that are pushed. -/
def EdgeStore.pops : ℕ := g.outgoing.length + g.incoming.length + 1

def bfsShortestPath (source target : Bytes) : Option PathNode :=
  bfsLoop g q target g.pops ⟨[source], [⟨source, 0, 0, []⟩]⟩

structure DijkstraState where
  distances : Bytes → Option ℚ
  visited : List Bytes
  pq : List PathNode

variable (cfg : DijkstraConfig)

def dijkstraVisit (current : PathNode) (s : DijkstraState) (e : Edge) : DijkstraState :=
  let neighbor := q.neighborKey e
  if !q.allows e || !cfg.extraFilter e.weight || decide (neighbor ∈ q.excludedNodes) ||
      decide (neighbor ∈ s.visited) then s
  else
    let newDistance := cfg.distanceFn current.distance e.weight
    if (s.distances neighbor).all fun oldDistance => newDistance < oldDistance then
      { s with
        distances := Function.update s.distances neighbor (some newDistance)
        pq := BinaryHeap.push PathNode.less s.pq
          ⟨neighbor, newDistance, current.hops + 1, (e, current.key) :: current.trail⟩ }
    else s

def dijkstraLoop (target : Bytes) : ℕ → DijkstraState → Option PathNode
  | 0, _ => none
  | fuel + 1, s =>
    match BinaryHeap.pop PathNode.less s.pq with
    | none => none
    | some (current, rest) =>
      if current.key ∈ s.visited then dijkstraLoop target fuel { s with pq := rest }
      else
        let marked := { s with visited := current.key :: s.visited, pq := rest }
        if current.key = target then some current
        else if q.depth ≤ current.hops then dijkstraLoop target fuel marked
        else
          dijkstraLoop target fuel
            ((g.getEdges current.key q.direction).foldl (dijkstraVisit q cfg current) marked)

def dijkstraPath (source target : Bytes) : Option PathNode :=
  dijkstraLoop g q cfg target g.pops
    ⟨Function.update (fun _ => none) source (some cfg.startDistance), [],
      [⟨source, cfg.startDistance, 0, []⟩]⟩

end Searches

inductive PathError where
  | emptyNode
  | noPath
  deriving DecidableEq

/-- `FindShortestPathWithExclusions`; no path is no error there. -/
def findShortestPathWithExclusions (g : EdgeStore) (q : PathQuery) (mode : PathWeightMode)
    (source target : Bytes) : Except PathError (Option Path) :=
  if source = [] ∨ target = [] then .error .emptyNode
  else if source = target then .ok (some ⟨[source], [], 0, 0⟩)
  else
    .ok ((match mode with
      | .minHops => bfsShortestPath g q source target
      | .maxWeight => dijkstraPath g q dijkstraMaxWeightConfig source target
      | .minWeight => dijkstraPath g q dijkstraMinWeightConfig source target).map reconstructPath)

def findShortestPath (g : EdgeStore) (q : PathQuery) (mode : PathWeightMode)
    (source target : Bytes) : Except PathError Path :=
  match findShortestPathWithExclusions g { q with excludedEdges := [], excludedNodes := [] } mode
    source target with
  | .error e => .error e
  | .ok none => .error .noPath
  | .ok (some path) => .ok path

end Antfly.Graph
