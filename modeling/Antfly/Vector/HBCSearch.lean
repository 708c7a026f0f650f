import Antfly.Lib.BinaryHeap
import Antfly.Vector.Rerank

/-!
A search walks a tree of clusters from its root, the nearest cluster first, and keeps the nearest
members of the leaves in a bounded heap.  Members with metadata are collapsed by a key: of those
with one key the nearest is kept, and one that is superseded stays in the heap, marked as removed.

This is the search without quantization.  Distances are rationals; `none` for `epsilon2` is a value
so large that nothing is pruned.  Items are known by their ids.
-/

namespace Antfly.Vector

structure HBCConfig where
  dimension : ℕ
  searchWidth : ℕ
  epsilon2 : Option ℚ
  collapseKeysFunc : Option (Bytes → Bytes)
  measureDistance : List ℚ → List ℚ → ℚ
  /-- The query as the centroids are stored. -/
  transformed : List ℚ → List ℚ
  /-- The query as the vectors are stored. -/
  normalized : List ℚ → List ℚ

structure HBCNode where
  id : ℕ
  isLeaf : Bool
  centroid : List ℚ
  children : List ℕ
  members : List ℕ
  deriving DecidableEq

structure HBCMetadata where
  rootNode : ℕ
  activeCount : ℕ

/-- What the index database holds; `none` where it cannot be read. -/
structure HBCIndex where
  config : HBCConfig
  getMetadata : Option HBCMetadata
  loadNode : ℕ → Option HBCNode
  memberMetadata : ℕ → Option Bytes
  getVector : ℕ → Option (List ℚ)

structure SearchRequest where
  embedding : List ℚ
  k : ℕ
  filterIDs : List ℕ
  excludeIDs : List ℕ
  filterPrefix : Bytes
  distanceOver : Option ℚ
  distanceUnder : Option ℚ
  searchWidth : Option ℕ
  epsilon2 : Option (Option ℚ)

inductive SearchError where
  | dimensionMismatch
  | gettingMetadata
  | loadingRoot
  deriving DecidableEq

structure PriorityItem where
  id : ℕ
  distance : ℚ
  deriving DecidableEq

/-- The order of the heap of candidates. -/
def nearer (a b : PriorityItem) : Bool := decide (a.distance < b.distance)

/-- The order of the heap of results. -/
def farther (a b : PriorityItem) : Bool := decide (a.distance > b.distance)

/-- The heap of results, the items marked as removed and the item of each collapse key. -/
structure SearchResults where
  heap : List PriorityItem
  removed : List ℕ
  collapseKeyToItem : Bytes → Option PriorityItem

def noResults : SearchResults where
  heap := []
  removed := []
  collapseKeyToItem := fun _ => none

namespace SearchResults

def push (s : SearchResults) (item : PriorityItem) : SearchResults :=
  { s with heap := BinaryHeap.push farther s.heap item }

def pop (s : SearchResults) : SearchResults :=
  { s with heap := (BinaryHeap.pop farther s.heap).elim s.heap Prod.snd }

/-- `cleanTopRemoved`; `fuel` bounds the number of pops. -/
def cleanTopRemoved : ℕ → SearchResults → SearchResults
  | 0, s => s
  | fuel + 1, s =>
    match s.heap with
    | [] => s
    | top :: _ => if top.id ∈ s.removed then cleanTopRemoved fuel s.pop else s

/-- `Peek`: the heap without removed items at its top, and its top. -/
def peek (s : SearchResults) : SearchResults × Option PriorityItem :=
  let s := cleanTopRemoved s.heap.length s
  (s, s.heap.head?)

/-- Marks the item of the key, if any, as removed when the new one takes its place. -/
def setCollapseKey (s : SearchResults) (key : Bytes) (item : PriorityItem) : SearchResults :=
  { s with
    removed := ((s.collapseKeyToItem key).map PriorityItem.id).toList ++ s.removed
    collapseKeyToItem := Function.update s.collapseKeyToItem key (some item) }

end SearchResults

def insertResultWithCollapse (collapseKeysFunc : Option (Bytes → Bytes)) (s : SearchResults)
    (item : PriorityItem) (metadata : Bytes) : SearchResults :=
  match collapseKeysFunc with
  | none => s.push item
  | some collapseKeys =>
    if metadata = [] then s.push item
    else
      let collapseKey := collapseKeys metadata
      match s.collapseKeyToItem collapseKey with
      | some existing =>
        if item.distance < existing.distance then (s.setCollapseKey collapseKey item).push item
        else s
      | none => (s.setCollapseKey collapseKey item).push item

section Search

variable (idx : HBCIndex) (req : SearchRequest)

def shouldSkip (memberID : ℕ) : Bool :=
  if req.excludeIDs.contains memberID then true
  else if !req.filterPrefix.isEmpty &&
      !(idx.memberMetadata memberID).any (hasPrefix · req.filterPrefix) then true
  else !req.filterIDs.isEmpty && !req.filterIDs.contains memberID

def passingDistance (memberID : ℕ) : Option ℚ :=
  if shouldSkip idx req memberID then none
  else
    match idx.getVector memberID with
    | none => none
    | some vector =>
      let dist := idx.config.measureDistance (idx.config.normalized req.embedding) vector
      if req.distanceOver.any fun bound => decide (dist ≤ bound) then none
      else if req.distanceUnder.any fun under => decide (dist ≥ under) then none
      else some dist

/-- The metadata that the collapse key is taken from. -/
def collapseMetadata (memberID : ℕ) : Bytes := (idx.memberMetadata memberID).getD []

/-- The loop over the members of a leaf. -/
def searchMember (s : SearchResults) (memberID : ℕ) : SearchResults :=
  match passingDistance idx req memberID with
  | none => s
  | some dist =>
    let pi : PriorityItem := { id := memberID, distance := dist }
    let metadata := collapseMetadata idx memberID
    if s.heap.length < req.k then
      insertResultWithCollapse idx.config.collapseKeysFunc s pi metadata
    else
      match s.peek with
      | (s, none) => s
      | (s, some topResult) =>
        if dist < topResult.distance then
          insertResultWithCollapse idx.config.collapseKeysFunc s.pop pi metadata
        else s

structure SearchState where
  candidates : List PriorityItem
  visited : List ℕ
  leavesExplored : ℕ
  /-- `none` is the greatest value. -/
  dynamicPruningMin : Option ℚ
  results : SearchResults

def pushChild (s : SearchState) (childID : ℕ) : SearchState :=
  if childID ∈ s.visited then s
  else
    match idx.loadNode childID with
    | none => s
    | some child =>
      let childDist := idx.config.measureDistance (idx.config.transformed req.embedding)
        child.centroid
      { s with
        candidates :=
          BinaryHeap.push nearer s.candidates { id := childID, distance := childDist } }

def exploreLeaf (s : SearchState) (node : HBCNode) : SearchState :=
  { s with
    leavesExplored := s.leavesExplored + 1
    results := node.members.foldl (searchMember idx req) s.results }

/-- Whether an inner node is too far to be explored. -/
def prunesNode (epsilon2 dynamicPruningMin : Option ℚ) (dist : ℚ) : Bool :=
  match epsilon2, dynamicPruningMin with
  | some epsilon2, some least => decide (dist > least * (epsilon2 + 1))
  | _, _ => false

/-- Whether a leaf is too far to be explored. -/
def prunesLeaf (epsilon2 dynamicPruningMin : Option ℚ) (dist : ℚ) : Bool :=
  match epsilon2, dynamicPruningMin with
  | some epsilon2, some least => decide (|dist| > |least * (epsilon2 + 1)|)
  | _, _ => false

/-- A turn of the loop with the candidate that was popped. -/
def visitCandidate (epsilon2 : Option ℚ) (s : SearchState) (item : PriorityItem) : SearchState :=
  if item.id ∈ s.visited then s
  else
    let s := { s with visited := item.id :: s.visited }
    match idx.loadNode item.id with
    | none => s
    | some node =>
      let full := decide (req.k ≤ s.results.heap.length)
      if node.centroid = [] then s
      else if node.isLeaf then
        if full && s.dynamicPruningMin.all fun least => decide (item.distance < least) then
          exploreLeaf idx req { s with dynamicPruningMin := some item.distance } node
        else if full && prunesLeaf epsilon2 s.dynamicPruningMin item.distance then s
        else exploreLeaf idx req s node
      else if full && prunesNode epsilon2 s.dynamicPruningMin item.distance then s
      else node.children.foldl (pushChild idx req) s

/-- The loop over the candidates; it ends when `fuel` does. -/
def traverse (epsilon2 : Option ℚ) (searchWidth : ℕ) : ℕ → SearchState → Option SearchState
  | 0, _ => none
  | fuel + 1, s =>
    if s.leavesExplored < searchWidth then
      match BinaryHeap.pop nearer s.candidates with
      | none => some s
      | some (item, rest) =>
        traverse epsilon2 searchWidth fuel
          (visitCandidate idx req epsilon2 { s with candidates := rest } item)
    else some s

def startState (root : HBCNode) : SearchState where
  candidates := [{
    id := root.id
    distance := idx.config.measureDistance (idx.config.transformed req.embedding) root.centroid }]
  visited := []
  leavesExplored := 0
  dynamicPruningMin := none
  results := noResults

/-- The items of the heap that are not removed, in the order in which they are popped. -/
def drain (removed : List ℕ) : ℕ → List PriorityItem → List PriorityItem
  | 0, _ => []
  | fuel + 1, heap =>
    match BinaryHeap.pop farther heap with
    | none => []
    | some (item, rest) =>
      if item.id ∈ removed then drain removed fuel rest else item :: drain removed fuel rest

def resultOf (item : PriorityItem) : Result where
  id := item.id
  distance := item.distance
  errorBound := 0
  metadata := (idx.memberMetadata item.id).getD []

/-- What is returned of the results. -/
def finish (sort : List Result → List Result) (s : SearchResults) : List Result :=
  rerankAndTrim sort (fun _ => none) .never req.k req.distanceOver req.distanceUnder
    (sort ((drain s.removed s.heap.length s.heap).map (resultOf idx)))

/-- `Search`; `none` when `fuel` ends. -/
def search (sort : List Result → List Result) (fuel : ℕ) :
    Option (Except SearchError (List Result)) :=
  if req.embedding.length ≠ idx.config.dimension then some (.error .dimensionMismatch)
  else
    match idx.getMetadata with
    | none => some (.error .gettingMetadata)
    | some metadata =>
      if metadata.activeCount = 0 then some (.ok [])
      else
        match idx.loadNode metadata.rootNode with
        | none => some (.error .loadingRoot)
        | some root =>
          (traverse idx req (req.epsilon2.getD idx.config.epsilon2)
              (req.searchWidth.getD idx.config.searchWidth) fuel (startState idx req root)).map
            fun s => .ok (finish idx req sort s.results)

end Search

end Antfly.Vector
