import Antfly.Cluster.TableMetadata
import Antfly.Graph.ShortestPath

/-!
A pattern is a list of steps.  `executePattern` binds the start nodes to the alias of the first step
and extends every match by the nodes that `findReachableNodes` finds from the node of the step
before; an alias that is bound already has to be reached again.  The nodes are found level by level:
every edge that is looked at yields its other end, and a node is gone on from once.

Node keys stand for their base64 encodings.  A document and a query are bytes; `queryMatches` is the
evaluation of a query, which also passes a query that cannot be parsed.
-/

namespace Antfly.Graph

structure NodeFilter where
  filterPrefix : Bytes
  filterQuery : Option Bytes

structure PatternEdgeStep where
  types : List Bytes
  direction : EdgeDirection
  minHops : ℤ
  maxHops : ℤ
  minWeight : ℚ
  maxWeight : ℚ

structure PatternStep where
  aliasName : Bytes
  edge : PatternEdgeStep
  nodeFilter : NodeFilter

structure GraphResultNode where
  key : Bytes
  depth : ℕ
  document : Option Bytes
  deriving DecidableEq

structure PathEdge where
  source : Bytes
  target : Bytes
  type : Bytes
  weight : ℚ
  metadata : Bytes
  deriving DecidableEq

/-- The documents of the table and the evaluation of queries. -/
structure Documents where
  fetch : Bytes → Option Bytes
  queryMatches : Bytes → Option Bytes → Bool

def nodePassesPrefixFilter (key : Bytes) (filter : NodeFilter) : Bool :=
  filter.filterPrefix = [] || hasPrefix key filter.filterPrefix

def Documents.nodePassesQueryFilter (docs : Documents) (doc : Option Bytes) (filter : NodeFilter) :
    Bool :=
  match filter.filterQuery with
  | none => true
  | some query => docs.queryMatches query doc

def PatternEdgeStep.minimum (s : PatternEdgeStep) : ℤ := if s.minHops = 0 then 1 else s.minHops
def PatternEdgeStep.maximum (s : PatternEdgeStep) : ℤ := if s.maxHops = 0 then 1 else s.maxHops

/-- A single type is matched by the store, which takes an empty one for any. -/
def PatternEdgeStep.admitsType (s : PatternEdgeStep) (type : Bytes) : Bool :=
  match s.types with
  | [] => true
  | [only] => decide (only = [] ∨ type = only)
  | types => decide (type ∈ types)

/-- A weight bound that is not positive is none. -/
def PatternEdgeStep.admits (s : PatternEdgeStep) (e : Edge) : Bool :=
  s.admitsType e.type &&
    !(decide (0 < s.minWeight) && decide (e.weight < s.minWeight)) &&
    !(decide (0 < s.maxWeight) && decide (s.maxWeight < e.weight))

structure Frontier where
  key : Bytes
  path : List PathEdge
  hops : ℕ

structure ReachableNode where
  node : GraphResultNode
  path : List PathEdge

structure Exploration where
  visited : List Bytes
  results : List ReachableNode
  next : List Frontier

section Reachable

variable (g : EdgeStore) (step : PatternEdgeStep) (filter : NodeFilter)

def targetKeys (e : Edge) : List Bytes :=
  match step.direction with
  | .out => [e.target]
  | .incoming => [e.source]
  | .both => [e.source, e.target]

/-- One end of an edge: it is a result, and is gone on from when it is met for the first time. -/
def visitTarget (f : Frontier) (e : Edge) (s : Exploration) (targetKey : Bytes) : Exploration :=
  if targetKey = f.key then s
  else
    let newHops := f.hops + 1
    let newPath := f.path ++ [⟨f.key, targetKey, e.type, e.weight, e.metadata⟩]
    let results :=
      if step.minimum ≤ newHops ∧ nodePassesPrefixFilter targetKey filter then
        s.results ++ [⟨⟨targetKey, newHops, none⟩, newPath⟩]
      else s.results
    if (newHops : ℤ) < step.maximum ∧ targetKey ∉ s.visited then
      ⟨targetKey :: s.visited, results, s.next ++ [⟨targetKey, newPath, newHops⟩]⟩
    else { s with results := results }

def visitEdge (f : Frontier) (s : Exploration) (e : Edge) : Exploration :=
  (targetKeys step e).foldl (visitTarget step filter f e) s

def visitFrontier (s : Exploration) (f : Frontier) : Exploration :=
  if step.maximum ≤ f.hops then s
  else ((g.getEdges f.key step.direction).filter step.admits).foldl (visitEdge step filter f) s

def safetyLimit : ℕ := 1000

/-- The levels from the current one on; `fuel` bounds their number. -/
def exploreLevels : ℕ → List Frontier → List Bytes → List ReachableNode → List ReachableNode
  | 0, _, _, results => results
  | fuel + 1, current, visited, results =>
    if current = [] ∨ safetyLimit ≤ results.length then results
    else
      let s := current.foldl (visitFrontier g step filter) ⟨visited, results, []⟩
      exploreLevels fuel s.next s.visited s.results

/-- There are no more levels than hops. -/
def findReachableNodes (startKey : Bytes) : List ReachableNode :=
  exploreLevels g step filter (step.maximum.toNat + 1) [⟨startKey, [], 0⟩] [startKey] []

end Reachable

structure MatchState where
  bindings : OrdMap Bytes GraphResultNode
  path : List PathEdge

structure GraphQuery.Pattern where
  steps : List PatternStep
  maxResults : ℕ
  returnAliases : List Bytes
  includeDocuments : Bool

structure PatternMatch where
  bindings : OrdMap Bytes GraphResultNode
  path : List PathEdge

inductive PatternError where
  | noSteps
  deriving DecidableEq

def stepAlias (stepIdx : ℕ) (step : PatternStep) : Bytes :=
  if step.aliasName = [] then ascii ['_', 's', 't', 'e', 'p'] ++ decimal stepIdx
  else step.aliasName

section Pattern

variable (g : EdgeStore) (docs : Documents)

def extendMatch (alias_ : Bytes) (filter : NodeFilter) (m : MatchState) (reached : ReachableNode) :
    Option MatchState :=
  match m.bindings.get? alias_ with
  | some expected =>
    if reached.node.key ≠ expected.key ∨
        nodePassesPrefixFilter reached.node.key filter = false then
      none
    else some ⟨m.bindings, m.path ++ reached.path⟩
  | none =>
    if nodePassesPrefixFilter reached.node.key filter = false then none
    else some ⟨m.bindings.insert alias_ reached.node, m.path ++ reached.path⟩

def matchExtensions (prevAlias alias_ : Bytes) (step : PatternStep) (m : MatchState) :
    List MatchState :=
  match m.bindings.get? prevAlias with
  | none => []
  | some current =>
    (findReachableNodes g step.edge step.nodeFilter current.key).filterMap
      (extendMatch alias_ step.nodeFilter m)

/-- Appends one by one until there are `limit`. -/
def appendUpTo (limit : ℕ) : List MatchState → List MatchState → List MatchState
  | acc, [] => acc
  | acc, m :: rest =>
    if limit ≤ (acc ++ [m]).length then acc ++ [m] else appendUpTo limit (acc ++ [m]) rest

/-- The matches of a step, extended one match after the other until there are `limit`. -/
def nextMatches (limit : ℕ) (prevAlias alias_ : Bytes) (step : PatternStep) :
    List MatchState → List MatchState → List MatchState
  | acc, [] => acc
  | acc, m :: rest =>
    let acc' := appendUpTo limit acc (matchExtensions g prevAlias alias_ step m)
    if limit ≤ acc'.length then acc' else nextMatches limit prevAlias alias_ step acc' rest

/-- The remaining steps, each with its alias. -/
def runSteps (limit : ℕ) : Bytes → List (Bytes × PatternStep) → List MatchState → List MatchState
  | _, [], current => current
  | prevAlias, (alias_, step) :: rest, current =>
    let next := nextMatches g limit prevAlias alias_ step [] current
    if next = [] then [] else runSteps limit alias_ rest next

/-- The start nodes that pass the first step's filters, each a match. -/
def firstMatches (firstAlias : Bytes) (filter : NodeFilter) (startNodes : List Bytes) :
    List MatchState :=
  let matched := startNodes.filter fun key => nodePassesPrefixFilter key filter
  match filter.filterQuery with
  | none => matched.map fun key => ⟨OrdMap.empty.insert firstAlias ⟨key, 0, none⟩, []⟩
  | some _ =>
    matched.filterMap fun key =>
      (docs.fetch key).bind fun doc =>
        if docs.nodePassesQueryFilter (some doc) filter then
          some ⟨OrdMap.empty.insert firstAlias ⟨key, 0, some doc⟩, []⟩
        else none

/-- The keys of the last step's nodes whose documents have not been fetched. -/
def keysToFetch (lastAlias : Bytes) (current : List MatchState) : List Bytes :=
  current.filterMap fun m =>
    (m.bindings.get? lastAlias).bind fun node =>
      if node.document.isNone then some node.key else none

/-- The query filter of the last step, which is applied when a document was left to fetch. -/
def filterLast (lastAlias : Bytes) (filter : NodeFilter) (current : List MatchState) :
    List MatchState :=
  match filter.filterQuery with
  | none => current
  | some _ =>
    let keys := keysToFetch lastAlias current
    if keys = [] then current
    else
      current.filterMap fun m =>
        (m.bindings.get? lastAlias).bind fun node =>
          let fetched := if node.key ∈ keys then docs.fetch node.key else none
          let doc := fetched.or node.document
          if docs.nodePassesQueryFilter doc filter then
            some { m with bindings := m.bindings.insert lastAlias { node with document := doc } }
          else none

def aliased (steps : List PatternStep) : List (Bytes × PatternStep) :=
  steps.zipIdx.map fun p => (stepAlias p.2 p.1, p.1)

def GraphQuery.Pattern.limit (query : GraphQuery.Pattern) : ℕ :=
  if query.maxResults = 0 then 100 else query.maxResults

/-- The matches before the number of results is limited. -/
def patternMatches (limit : ℕ) (startNodes : List Bytes) (first : Bytes × PatternStep)
    (rest : List (Bytes × PatternStep)) : List MatchState :=
  let last := (first :: rest).getLast (List.cons_ne_nil first rest)
  filterLast docs last.1 last.2.nodeFilter
    (runSteps g (limit * 10) first.1 rest
      (firstMatches docs first.1 first.2.nodeFilter startNodes))

def returnMatch (query : GraphQuery.Pattern) (m : MatchState) : PatternMatch :=
  let returned :=
    m.bindings.filter fun name => decide (query.returnAliases = [] ∨ name ∈ query.returnAliases)
  ⟨returned.map fun _ node =>
      if query.includeDocuments ∧ node.document.isNone then
        { node with document := docs.fetch node.key }
      else node,
    m.path⟩

def executePattern (query : GraphQuery.Pattern) (startNodes : List Bytes) :
    Except PatternError (List PatternMatch) :=
  match aliased query.steps with
  | [] => .error .noSteps
  | first :: rest =>
    .ok (((patternMatches g docs query.limit startNodes first rest).take query.limit).map
      (returnMatch docs query))

end Pattern

end Antfly.Graph
