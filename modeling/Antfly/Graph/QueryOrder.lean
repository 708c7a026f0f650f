import Antfly.Bytes
import Antfly.Lib.Kahn
import Antfly.Lib.OrdMap

/-!
The graph queries of a request are named, and a query may take its start or target nodes from the
results of another one.  They are run in an order in which every query comes behind those it refers
to.  A reference to a name that is not in the request is left to the resolution of the reference.
-/

namespace Antfly.Graph

open List

structure GraphNodeSelector where
  resultRef : Bytes

structure GraphQuery where
  startNodes : GraphNodeSelector
  targetNodes : GraphNodeSelector

/-- `$graph_results.` -/
def graphResultsPrefix : Bytes :=
  ascii ['$', 'g', 'r', 'a', 'p', 'h', '_', 'r', 'e', 's', 'u', 'l', 't', 's', '.']

/-- The name of the query that is referred to, empty where none is. -/
def extractGraphDependency (ref : Bytes) : Bytes :=
  if hasPrefix ref graphResultsPrefix then ref.drop graphResultsPrefix.length else []

/-- The orders in which the map of the queries is iterated, one for each loop over it. -/
structure IterationOrders (queries : OrdMap Bytes GraphQuery) where
  order : ℕ → List Bytes
  perm : ∀ i, (order i).Perm (queries.entries.map Prod.fst)

section Sorting

variable (queries : OrdMap Bytes GraphQuery)

def addDependency (deps : List Bytes) (ref : Bytes) : List Bytes :=
  let dep := extractGraphDependency ref
  if dep ≠ [] ∧ (queries.get? dep).isSome then deps ++ [dep] else deps

/-- The queries that a query depends on; one that is start and target is listed twice. -/
def dependencies (name : Bytes) : List Bytes :=
  match queries.get? name with
  | none => []
  | some query =>
    addDependency queries (addDependency queries [] query.startNodes.resultRef)
      query.targetNodes.resultRef

/-- The state when the queue is empty; there are at most as many pops as queries. -/
def sortQueries (orders : IterationOrders queries) : Kahn.State Bytes :=
  Kahn.loop (dependencies queries) (fun i => orders.order (i + 1)) queries.entries.length
    (Kahn.start (dependencies queries) (orders.order 0))

inductive SortError where
  | circularDependency (remaining : List Bytes)
  deriving DecidableEq

def sortGraphQueriesByDependencies (orders : IterationOrders queries) :
    Except SortError (List Bytes) :=
  let sorted := (sortQueries queries orders).sorted
  if sorted.length ≠ queries.entries.length then
    .error (.circularDependency
      ((orders.order (queries.entries.length + 1)).filter fun name => name ∉ sorted))
  else .ok sorted

/-- Query `a` takes its start or target nodes from the results of `b`. -/
def References (a b : Bytes) : Prop :=
  queries.get? b ≠ none ∧ b ≠ [] ∧ ∃ query, queries.get? a = some query ∧
    (query.startNodes.resultRef = graphResultsPrefix ++ b ∨
      query.targetNodes.resultRef = graphResultsPrefix ++ b)

end Sorting

variable {queries : OrdMap Bytes GraphQuery}

theorem extractGraphDependency_eq_iff {ref name : Bytes} (hname : name ≠ []) :
    extractGraphDependency ref = name ↔ ref = graphResultsPrefix ++ name := by
  unfold extractGraphDependency
  constructor
  · intro h
    split at h
    · rename_i hprefix
      obtain ⟨rest, rfl⟩ := hasPrefix_iff.mp hprefix
      rw [drop_left] at h
      rw [h]
    · exact absurd h.symm hname
  · rintro rfl
    rw [if_pos (hasPrefix_iff.mpr (prefix_append _ _)), drop_left]

theorem mem_addDependency {deps : List Bytes} {ref name : Bytes} :
    name ∈ addDependency queries deps ref ↔ name ∈ deps ∨
      queries.get? name ≠ none ∧ name ≠ [] ∧ ref = graphResultsPrefix ++ name := by
  unfold addDependency
  dsimp only
  constructor
  · intro h
    split at h
    · rename_i hdep
      rcases mem_append.mp h with h | h
      · exact .inl h
      · rw [mem_singleton.mp h]
        refine .inr ⟨?_, hdep.1, (extractGraphDependency_eq_iff hdep.1).mp rfl⟩
        exact Option.isSome_iff_ne_none.mp hdep.2
    · exact .inl h
  · rintro (h | ⟨hsome, hname, href⟩)
    · split
      · exact mem_append_left _ h
      · exact h
    · have hdep := (extractGraphDependency_eq_iff hname).mpr href
      rw [if_pos ⟨hdep ▸ hname, hdep ▸ Option.isSome_iff_ne_none.mpr hsome⟩, hdep]
      exact mem_append_right _ (mem_singleton_self _)

theorem mem_dependencies {a b : Bytes} : b ∈ dependencies queries a ↔ References queries a b := by
  unfold dependencies References
  cases hquery : queries.get? a with
  | none => simp
  | some query =>
    simp only [mem_addDependency, not_mem_nil, false_or, Option.some.injEq,
      exists_eq_left']
    tauto

theorem dependsOn_iff {a b : Bytes} :
    Kahn.DependsOn (queries.entries.map Prod.fst) (dependencies queries) a b ↔
      References queries a b := by
  unfold Kahn.DependsOn
  rw [mem_dependencies]
  constructor
  · exact And.right
  · intro h
    obtain ⟨-, -, query, hquery, -⟩ := id h
    refine ⟨(queries.mem_keys_iff a).mpr ?_, h⟩
    rw [hquery]
    exact Option.some_ne_none query

theorem sound_sortQueries (orders : IterationOrders queries) :
    Kahn.Sound (queries.entries.map Prod.fst) (dependencies queries)
      (sortQueries queries orders) ∧ (sortQueries queries orders).queue = [] := by
  apply (Kahn.sound_start queries.nodup_keys (orders.perm 0)).loop queries.nodup_keys
    (fun i => orders.perm (i + 1))
  rw [length_map]
  exact Nat.le_add_left _ _

/-- Whatever the orders in which the map is iterated, an error is returned exactly when a query
refers to itself through others, and else all queries, each behind those it refers to. -/
theorem sortGraphQueriesByDependencies_spec (queries : OrdMap Bytes GraphQuery)
    (orders : IterationOrders queries) :
    match sortGraphQueriesByDependencies queries orders with
    | .error _ => ∃ name, Relation.TransGen (References queries) name name
    | .ok sorted => (¬ ∃ name, Relation.TransGen (References queries) name name) ∧
        sorted.Perm (queries.entries.map Prod.fst) ∧
        ∀ a b, References queries a b →
          ∃ before after, sorted = before ++ a :: after ∧ b ∈ before := by
  obtain ⟨hsound, hqueue⟩ := sound_sortQueries orders
  have hmem : ∀ n ∈ queries.entries.map Prod.fst, ∀ d ∈ dependencies queries n,
      d ∈ queries.entries.map Prod.fst := by
    intro n _ d hd
    exact (queries.mem_keys_iff d).mpr (mem_dependencies.mp hd).1
  have hcycle := hsound.length_ne_iff queries.nodup_keys hmem hqueue
  have hsame : Kahn.DependsOn (queries.entries.map Prod.fst) (dependencies queries) =
      References queries := by
    funext a b
    exact propext dependsOn_iff
  rw [List.length_map, hsame] at hcycle
  unfold sortGraphQueriesByDependencies
  dsimp only
  by_cases hlength : (sortQueries queries orders).sorted.length = queries.entries.length
  · rw [if_neg (not_not.mpr hlength)]
    have hperm := hsound.perm_of_length_eq (hlength.trans (List.length_map _).symm)
    refine ⟨fun h => hcycle.mpr h hlength, hperm, fun a b hab => ?_⟩
    obtain ⟨ha, hb⟩ := dependsOn_iff.mpr hab
    obtain ⟨before, after, hsplit⟩ := List.append_of_mem (hperm.mem_iff.mpr ha)
    exact ⟨before, after, hsplit, hsound.placed before a after hsplit b hb⟩
  · rw [if_pos hlength]
    exact hcycle.mp hlength

end Antfly.Graph
