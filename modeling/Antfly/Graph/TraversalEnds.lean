import Antfly.Graph.BfsPath
import Antfly.Graph.Traversal

/-!
A traversal that takes each node once ends when there are no new nodes, one with a limit on the
results when these are met, and one with a limit on the depth when all walks of this length have
been followed.  Without any of them a traversal follows every walk, so that it ends exactly where
the walks from the start are bounded in length.
-/

namespace Antfly.Graph

open Trails List

section Expansion

variable {g : EdgeStore} {rules : TraversalRules} {current : QueueItem}

theorem processEdge_cases (rules : TraversalRules) (current : QueueItem) (s : Traversal)
    (e : Edge) :
    (rules.processEdge current s e = s ∧ (rules.shouldTraverseEdge e = true →
      rules.deduplicateNodes = true ∧ rules.nextKey current.key e ∈ s.visited)) ∨
    (rules.shouldTraverseEdge e = true ∧
      (rules.deduplicateNodes = true → rules.nextKey current.key e ∉ s.visited) ∧
      rules.processEdge current s e =
        { s with
          visited :=
            if rules.deduplicateNodes then rules.nextKey current.key e :: s.visited
            else s.visited
          queue := s.queue ++ [rules.next current e] }) := by
  unfold TraversalRules.processEdge
  cases hpass : rules.shouldTraverseEdge e with
  | false =>
    left
    exact ⟨rfl, fun h => Bool.noConfusion h⟩
  | true =>
    simp only [Bool.not_true, Bool.false_eq_true, if_false]
    split
    · rename_i hskip
      rw [Bool.and_eq_true, decide_eq_true_eq] at hskip
      exact .inl ⟨rfl, fun _ => hskip⟩
    · rename_i hnew
      rw [Bool.and_eq_true, decide_eq_true_eq, not_and] at hnew
      exact .inr ⟨trivial, hnew, rfl⟩

theorem processEdge_results (s : Traversal) (e : Edge) :
    (rules.processEdge current s e).results = s.results := by
  rcases processEdge_cases rules current s e with ⟨hsame, -⟩ | ⟨-, -, hadded⟩
  · rw [hsame]
  · rw [hadded]

theorem foldl_processEdge_results (edges : List Edge) (s : Traversal) :
    (edges.foldl (rules.processEdge current) s).results = s.results := by
  induction edges generalizing s with
  | nil => rfl
  | cons e edges ih =>
    rw [foldl_cons, ih]
    exact processEdge_results s e

theorem expand_results (s : Traversal) : (rules.expand g current s).results = s.results := by
  unfold TraversalRules.expand
  split
  · rfl
  · exact foldl_processEdge_results _ s

variable {s : Traversal} {x : QueueItem} {startKey : Bytes}

theorem foldl_processEdge_queue {edges : List Edge}
    (hx : x ∈ (edges.foldl (rules.processEdge current) s).queue) :
    x ∈ s.queue ∨ ∃ e ∈ edges, rules.shouldTraverseEdge e = true ∧ x = rules.next current e := by
  induction edges generalizing s with
  | nil => exact .inl hx
  | cons e edges ih =>
    rcases ih hx with hold | ⟨e', he', hpass, rfl⟩
    · rcases processEdge_cases rules current s e with ⟨hsame, -⟩ | ⟨hpass, -, hadded⟩
      · rw [hsame] at hold
        exact .inl hold
      · rw [hadded] at hold
        rcases mem_append.mp hold with hold | hnew
        · exact .inl hold
        · exact .inr ⟨e, mem_cons_self, hpass, mem_singleton.mp hnew⟩
    · exact .inr ⟨e', mem_cons_of_mem e he', hpass, rfl⟩

/-- What is new in the queue was stepped to from the current node, which is not at the greatest
depth. -/
theorem expand_queue (hx : x ∈ (rules.expand g current s).queue) :
    x ∈ s.queue ∨ (rules.atMaxDepth current = false ∧
      ∃ e, rules.Passes g current.key e x.key ∧ x = rules.next current e) := by
  unfold TraversalRules.expand at hx
  split at hx
  · exact .inl hx
  · rename_i hdepth
    rcases foldl_processEdge_queue hx with hold | ⟨e, he, hpass, rfl⟩
    · exact .inl hold
    · refine .inr ⟨Bool.eq_false_of_not_eq_true hdepth, e, ?_, rfl⟩
      exact TraversalRules.passes_iff.mpr ⟨he, hpass, rfl⟩

/-- The item has come by a walk of its depth, which it shows if paths are included. -/
def Walked (g : EdgeStore) (rules : TraversalRules) (startKey : Bytes) (x : QueueItem) : Prop :=
  ∃ t, IsTrail (rules.Passes g) startKey t x.key ∧ t.length = x.depth ∧
    (rules.includePaths = true →
      x.path = (nodes t x.key).reverse ∧ x.pathEdges = (t.map Prod.fst).reverse)

theorem Walked.next (h : Walked g rules startKey current) {e : Edge}
    (hpass : rules.Passes g current.key e (rules.next current e).key) :
    Walked g rules startKey (rules.next current e) := by
  obtain ⟨t, ht, hlength, hpath⟩ := h
  refine ⟨(e, current.key) :: t, IsTrail.cons ht hpass, ?_, ?_⟩
  · rw [length_cons, hlength]
    rfl
  · intro hinclude
    obtain ⟨hnodes, hedges⟩ := hpath hinclude
    have hnextPath : (rules.next current e).path =
        current.path ++ [(rules.next current e).key] := if_pos hinclude
    have hnextEdges : (rules.next current e).pathEdges = current.pathEdges ++ [e] :=
      if_pos hinclude
    constructor
    · rw [hnextPath, hnodes, ← reverse_cons]
      rfl
    · rw [hnextEdges, hedges, ← reverse_cons]
      rfl

def Met (g : EdgeStore) (rules : TraversalRules) (startKey : Bytes) (x : QueueItem) : Prop :=
  Walked g rules startKey x ∧ (0 < rules.maxDepth → (x.depth : ℤ) ≤ rules.maxDepth)

theorem met_start (g : EdgeStore) (rules : TraversalRules) (startKey : Bytes) :
    ∀ x ∈ (initialTraversal rules startKey).queue, Met g rules startKey x := by
  intro x hx
  rw [mem_singleton.mp hx]
  exact ⟨⟨[], IsTrail.nil, rfl, fun _ => ⟨rfl, rfl⟩⟩, fun hlimit => hlimit.le⟩

theorem met_expand {queue : List QueueItem} (hqueue : s.queue = current :: queue)
    (hs : ∀ x ∈ s.queue, Met g rules startKey x) :
    ∀ x ∈ (rules.expand g current (rules.taken current queue s)).queue,
      Met g rules startKey x := by
  intro x hx
  rcases expand_queue hx with hold | ⟨hdepth, e, hpass, rfl⟩
  · exact hs x (hqueue ▸ mem_cons_of_mem current hold)
  · refine ⟨(hs current (hqueue ▸ mem_cons_self)).1.next hpass, ?_⟩
    intro hlimit
    have hless := of_decide_eq_false hdepth
    change ((current.depth + 1 : ℕ) : ℤ) ≤ rules.maxDepth
    omega

end Expansion

section Once

variable {g : EdgeStore} {rules : TraversalRules} {current : QueueItem}

/-- The items that wait and the nodes that can be met still. -/
def pending (g : EdgeStore) (s : Traversal) : ℕ := s.queue.length + (unmarked g s.visited).length

theorem pending_foldl (hdedup : rules.deduplicateNodes = true) {edges : List Edge}
    (hedges : ∀ e ∈ edges, e ∈ rules.getEdges g current.key) (s : Traversal) :
    pending g (edges.foldl (rules.processEdge current) s) ≤ pending g s := by
  induction edges generalizing s with
  | nil => exact Nat.le_refl _
  | cons e edges ih =>
    refine (ih (fun e' he' => hedges e' (mem_cons_of_mem e he')) _).trans ?_
    rcases processEdge_cases rules current s e with ⟨hsame, -⟩ | ⟨hpass, hnew, hadded⟩
    · rw [hsame]
    · have hnew := hnew hdedup
      have hpasses : rules.Passes g current.key e (rules.nextKey current.key e) :=
        TraversalRules.passes_iff.mpr ⟨hedges e mem_cons_self, hpass, rfl⟩
      have hmem : rules.nextKey current.key e ∈ unmarked g s.visited :=
        mem_filter.mpr ⟨hpasses.mem_ends, decide_eq_true hnew⟩
      have hfewer := unmarked_length_lt hmem
      rw [hadded]
      unfold pending
      dsimp only
      rw [if_pos hdedup, length_append, length_singleton]
      omega

theorem pending_expand (hdedup : rules.deduplicateNodes = true) (s : Traversal) :
    pending g (rules.expand g current s) ≤ pending g s := by
  unfold TraversalRules.expand
  split
  · exact Nat.le_refl _
  · exact pending_foldl hdedup (fun e he => he) s

theorem traverseLoop_ends_of_dedup (hdedup : rules.deduplicateNodes = true) {fuel : ℕ}
    {s : Traversal} (hfuel : pending g s < fuel) :
    ∃ results, traverseLoop g rules fuel s = some results := by
  induction fuel generalizing s with
  | zero => exact absurd hfuel (Nat.not_lt_zero _)
  | succ fuel ih =>
    cases hqueue : s.queue with
    | nil => exact ⟨s.results, traverseLoop_nil hqueue fuel⟩
    | cons current queue =>
      rw [traverseLoop_cons hqueue]
      split
      · exact ⟨_, rfl⟩
      · refine ih (lt_of_le_of_lt (pending_expand hdedup _) ?_)
        unfold pending at hfuel ⊢
        rw [hqueue, length_cons] at hfuel
        change queue.length + (unmarked g s.visited).length < fuel
        omega

end Once

section Limited

variable {g : EdgeStore} {rules : TraversalRules}

variable {s : Traversal}

theorem depth_pos_expand {current : QueueItem} {queue : List QueueItem}
    (hqueue : ∀ x ∈ queue, 0 < x.depth) :
    ∀ x ∈ (rules.expand g current (rules.taken current queue s)).queue, 0 < x.depth := by
  intro x hx
  rcases expand_queue hx with hold | ⟨-, e, -, rfl⟩
  · exact hqueue x hold
  · exact Nat.succ_pos _

theorem traverseLoop_ends_of_limit (hlimit : 0 < rules.maxResults) {fuel : ℕ}
    (hpos : ∀ x ∈ s.queue, 0 < x.depth) (hfuel : rules.maxResults.toNat < s.results.length + fuel) :
    ∃ results, traverseLoop g rules (fuel + 1) s = some results := by
  induction fuel generalizing s with
  | zero =>
    cases hqueue : s.queue with
    | nil => exact ⟨s.results, traverseLoop_nil hqueue 0⟩
    | cons current queue =>
      have hreports : rules.reports current = true :=
        decide_eq_true (.inl (hpos current (hqueue ▸ mem_cons_self)))
      rw [traverseLoop_cons hqueue, if_pos]
      · exact ⟨_, rfl⟩
      · refine ⟨hreports, hlimit, ?_⟩
        unfold TraversalRules.taken
        dsimp only
        rw [if_pos hreports, length_append]
        omega
  | succ fuel ih =>
    cases hqueue : s.queue with
    | nil => exact ⟨s.results, traverseLoop_nil hqueue _⟩
    | cons current queue =>
      have hreports : rules.reports current = true :=
        decide_eq_true (.inl (hpos current (hqueue ▸ mem_cons_self)))
      rw [traverseLoop_cons hqueue]
      split
      · exact ⟨_, rfl⟩
      · refine ih (depth_pos_expand fun x hx => ?_) ?_
        · exact hpos x (hqueue ▸ mem_cons_of_mem current hx)
        · rw [expand_results]
          unfold TraversalRules.taken
          dsimp only
          rw [if_pos hreports, length_append, length_singleton]
          omega

end Limited

section Walks

variable {g : EdgeStore} {rules : TraversalRules} {current : QueueItem}

theorem foldl_processEdge_eq (hdedup : rules.deduplicateNodes = false) (edges : List Edge)
    (s : Traversal) :
    edges.foldl (rules.processEdge current) s =
      { s with queue := s.queue ++
          (edges.filter rules.shouldTraverseEdge).map (rules.next current) } := by
  induction edges generalizing s with
  | nil => simp
  | cons e edges ih =>
    rw [foldl_cons, ih]
    unfold TraversalRules.processEdge
    cases hpass : rules.shouldTraverseEdge e <;> simp [hdedup, hpass]

/-- The number of walks of at most `n` steps. -/
def walks (g : EdgeStore) (rules : TraversalRules) : ℕ → Bytes → ℕ
  | 0, _ => 1
  | n + 1, key =>
    1 + (((rules.getEdges g key).filter rules.shouldTraverseEdge).map fun e =>
      walks g rules n (rules.nextKey key e)).sum

/-- The walks that are left to follow if none is longer than `n`. -/
def walksLeft (g : EdgeStore) (rules : TraversalRules) (n : ℕ) (queue : List QueueItem) : ℕ :=
  (queue.map fun x => walks g rules (n - x.depth) x.key).sum

theorem walks_pos (n : ℕ) (key : Bytes) : 0 < walks g rules n key := by
  cases n with
  | zero => exact Nat.one_pos
  | succ n =>
    rw [walks]
    omega

theorem walksLeft_expand (hdedup : rules.deduplicateNodes = false) {n : ℕ} {s : Traversal}
    (hdepth : current.depth ≤ n)
    (hlast : current.depth = n →
      rules.atMaxDepth current = true ∨ ∀ e v, ¬rules.Passes g current.key e v) :
    walksLeft g rules n (rules.expand g current s).queue <
      walks g rules (n - current.depth) current.key + walksLeft g rules n s.queue := by
  have hpos := @walks_pos g rules (n - current.depth) current.key
  unfold TraversalRules.expand
  split
  · omega
  · rename_i hnot
    rw [foldl_processEdge_eq hdedup]
    unfold walksLeft
    rw [map_append, sum_append, map_map]
    rcases Nat.eq_or_lt_of_le hdepth with heq | hlt
    · have hnone : (rules.getEdges g current.key).filter rules.shouldTraverseEdge = [] := by
        rw [filter_eq_nil_iff]
        intro e he hpass
        exact (hlast heq).resolve_left hnot e _ (TraversalRules.passes_iff.mpr ⟨he, hpass, rfl⟩)
      rw [hnone, map_nil, sum_nil]
      omega
    · obtain ⟨m, hm⟩ : ∃ m, n - current.depth = m + 1 := ⟨n - current.depth - 1, by omega⟩
      have hnext : n - (current.depth + 1) = m := by omega
      rw [hm, walks]
      have hsame : ((fun x : QueueItem => walks g rules (n - x.depth) x.key) ∘
          rules.next current) = fun e => walks g rules m (rules.nextKey current.key e) := by
        funext e
        change walks g rules (n - (current.depth + 1)) (rules.nextKey current.key e) = _
        rw [hnext]
      rw [hsame]
      omega

theorem traverseLoop_ends_of_walks (hdedup : rules.deduplicateNodes = false) {n : ℕ}
    {startKey : Bytes}
    (hn : ∀ x, Met g rules startKey x → x.depth ≤ n ∧
      (x.depth = n → rules.atMaxDepth x = true ∨ ∀ e v, ¬rules.Passes g x.key e v))
    {fuel : ℕ} {s : Traversal} (hs : ∀ x ∈ s.queue, Met g rules startKey x)
    (hfuel : walksLeft g rules n s.queue < fuel) :
    ∃ results, traverseLoop g rules fuel s = some results := by
  induction fuel generalizing s with
  | zero => exact absurd hfuel (Nat.not_lt_zero _)
  | succ fuel ih =>
    cases hqueue : s.queue with
    | nil => exact ⟨s.results, traverseLoop_nil hqueue fuel⟩
    | cons current queue =>
      rw [traverseLoop_cons hqueue]
      split
      · exact ⟨_, rfl⟩
      · obtain ⟨hdepth, hlast⟩ := hn current (hs current (hqueue ▸ mem_cons_self))
        have hless := @walksLeft_expand g rules current hdedup n
          (rules.taken current queue s) hdepth hlast
        refine ih (met_expand hqueue hs) (lt_of_lt_of_le hless ?_)
        rw [hqueue] at hfuel
        unfold walksLeft at hfuel ⊢
        rw [map_cons, sum_cons] at hfuel
        change _ + (queue.map fun x => walks g rules (n - x.depth) x.key).sum ≤ fuel
        omega

end Walks

section Ends

variable {g : EdgeStore} {rules : TraversalRules} {startKey : Bytes}

theorem traverseLoop_endless (hdedup : rules.deduplicateNodes = false)
    (hdepth : rules.maxDepth ≤ 0) (hlimit : rules.maxResults ≤ 0) (fuel : ℕ) {s : Traversal}
    (hs : ∃ x ∈ s.queue, Endless (rules.Passes g) x.key) :
    traverseLoop g rules fuel s = none := by
  induction fuel generalizing s with
  | zero => rfl
  | succ fuel ih =>
    obtain ⟨x, hx, hendless⟩ := hs
    cases hqueue : s.queue with
    | nil => exact absurd hx (hqueue ▸ not_mem_nil)
    | cons current queue =>
      have hnotFull : ¬(rules.reports current = true ∧
          rules.Full (rules.taken current queue s).results) :=
        fun hfull => absurd hfull.2.1 (not_lt.mpr hlimit)
      have hnotDeep : ¬rules.atMaxDepth current = true :=
        fun hdeep => absurd (of_decide_eq_true hdeep).1 (not_lt.mpr hdepth)
      rw [traverseLoop_cons hqueue, if_neg hnotFull]
      unfold TraversalRules.expand
      rw [if_neg hnotDeep, foldl_processEdge_eq hdedup]
      refine ih ?_
      rcases mem_cons.mp (hqueue ▸ hx) with rfl | hold
      · obtain ⟨e, v, hpass, hv⟩ := hendless.exists_step fun e v hpass => hpass.mem_ends
        obtain ⟨hedge, hfilter, hkey⟩ := TraversalRules.passes_iff.mp hpass
        refine ⟨rules.next x e, mem_append_right _ ?_, ?_⟩
        · exact mem_map_of_mem (mem_filter.mpr ⟨hedge, hfilter⟩)
        · change Endless (rules.Passes g) (rules.nextKey x.key e)
          exact hkey ▸ hv
      · exact ⟨x, mem_append_left _ hold, hendless⟩

theorem exists_traverseEdges_of_walks (hdedup : rules.deduplicateNodes = false) {n : ℕ}
    (hn : ∀ x, Met g rules startKey x → x.depth ≤ n ∧
      (x.depth = n → rules.atMaxDepth x = true ∨ ∀ e v, ¬rules.Passes g x.key e v)) :
    ∃ fuel results, traverseEdges g rules startKey fuel = some results :=
  ⟨_, traverseLoop_ends_of_walks hdedup hn (met_start g rules startKey) (Nat.lt_succ_self _)⟩

theorem exists_traverseEdges_of_limit (hlimit : 0 < rules.maxResults) :
    ∃ fuel results, traverseEdges g rules startKey fuel = some results := by
  refine ⟨rules.maxResults.toNat + 1 + 1 + 1, ?_⟩
  unfold traverseEdges
  rw [traverseLoop_cons (s := initialTraversal rules startKey) rfl]
  split
  · exact ⟨_, rfl⟩
  · refine traverseLoop_ends_of_limit hlimit ?_ (by omega)
    exact depth_pos_expand fun x hx => absurd hx not_mem_nil

theorem exists_traverseEdges_iff :
    (∃ fuel results, traverseEdges g rules startKey fuel = some results) ↔
      rules.deduplicateNodes = true ∨ 0 < rules.maxDepth ∨ 0 < rules.maxResults ∨
        ¬Endless (rules.Passes g) startKey := by
  constructor
  · rintro ⟨fuel, results, hends⟩
    by_contra hnone
    simp only [not_or, not_not, Bool.not_eq_true, not_lt] at hnone
    obtain ⟨hdedup, hdepth, hlimit, hendless⟩ := hnone
    have hnever := @traverseLoop_endless g rules hdedup hdepth hlimit fuel
      (initialTraversal rules startKey) ⟨_, mem_singleton_self _, hendless⟩
    rw [traverseEdges, hnever] at hends
    cases hends
  · intro hcondition
    cases hdedup : rules.deduplicateNodes with
    | true => exact ⟨_, traverseLoop_ends_of_dedup hdedup (Nat.lt_succ_self _)⟩
    | false =>
      rcases hcondition with hon | hdepth | hlimit | hbounded
      · rw [hdedup] at hon
        cases hon
      · refine exists_traverseEdges_of_walks hdedup (n := rules.maxDepth.toNat) ?_
        intro x hx
        have hle := hx.2 hdepth
        refine ⟨by omega, fun heq => .inl (decide_eq_true ⟨hdepth, ?_⟩)⟩
        omega
      · exact exists_traverseEdges_of_limit hlimit
      · obtain ⟨bound, hbound⟩ := not_endless_iff.mp hbounded
        refine exists_traverseEdges_of_walks hdedup (n := bound) ?_
        rintro x ⟨⟨t, ht, hlength, -⟩, -⟩
        refine ⟨hlength ▸ hbound t x.key ht, fun heq => .inr ?_⟩
        intro e v hpass
        have hlonger := hbound _ v (IsTrail.cons ht hpass)
        rw [length_cons] at hlonger
        omega

end Ends

end Antfly.Graph
