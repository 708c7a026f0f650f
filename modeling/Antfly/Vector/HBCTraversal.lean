import Antfly.Vector.HBCSearch

/-!
Where nothing is pruned and the width is not less than the number of leaves, a search visits every
leaf of a tree once.  What it finds is then what the loop over all members finds, in the order in
which the leaves come.
-/

namespace Antfly.Vector

open BinaryHeap List

section Tree

variable (idx : HBCIndex)

def isLeafAt (id : ℕ) : Bool := (idx.loadNode id).any HBCNode.isLeaf

def leafMembers (id : ℕ) : List ℕ :=
  match idx.loadNode id with
  | some node => if node.isLeaf then node.members else []
  | none => []

/-- The children of an inner node. -/
def childrenOf (id : ℕ) : List ℕ :=
  match idx.loadNode id with
  | some node => if node.isLeaf then [] else node.children
  | none => []

inductive Reached (root : ℕ) : ℕ → Prop where
  | root : Reached root root
  | child {id c : ℕ} : Reached root id → c ∈ childrenOf idx id → Reached root c

/-- The nodes form a tree: each has its record, a centroid and one parent, and each member is in one
leaf. -/
structure TreeInvariant (metadata : HBCMetadata) (nodes : List ℕ) : Prop where
  nodup : nodes.Nodup
  mem_iff : ∀ id, id ∈ nodes ↔ Reached idx metadata.rootNode id
  loads : ∀ id ∈ nodes, ∃ node, idx.loadNode id = some node ∧ node.id = id ∧ node.centroid ≠ []
  children_nodup : ∀ id ∈ nodes, (childrenOf idx id).Nodup
  one_parent : ∀ p ∈ nodes, ∀ q ∈ nodes, ∀ c, c ∈ childrenOf idx p → c ∈ childrenOf idx q → p = q
  root_top : ∀ p ∈ nodes, metadata.rootNode ∉ childrenOf idx p
  members_nodup : (nodes.flatMap (leafMembers idx)).Nodup
  active : metadata.activeCount = (nodes.flatMap (leafMembers idx)).length

end Tree

theorem weakOrder_nearer : WeakOrder nearer where
  asymm a b hab := by
    unfold nearer at *
    rw [decide_eq_true_eq] at hab
    rw [decide_eq_false_iff_not]
    exact lt_asymm hab
  trans a b c hba hcb := by
    unfold nearer at *
    rw [decide_eq_false_iff_not, not_lt] at *
    exact hba.trans hcb

/-- The nodes that wait to be visited and those that have been. -/
def SearchState.known (s : SearchState) : List ℕ := s.candidates.map PriorityItem.id ++ s.visited

section Frontier

variable {idx : HBCIndex} {req : SearchRequest} {metadata : HBCMetadata} {nodes : List ℕ}
  {s : SearchState}

/-- Every visited leaf has been searched, and the children of visited nodes wait if they have not
been visited themselves. -/
structure Frontier (idx : HBCIndex) (req : SearchRequest) (metadata : HBCMetadata)
    (nodes : List ℕ) (s : SearchState) : Prop where
  ordered : Ordered nearer s.candidates.length s.candidates
  nodup : s.known.Nodup
  subset : ∀ id ∈ s.known, id ∈ nodes
  root : metadata.rootNode ∈ s.known
  closed : ∀ v ∈ s.visited, ∀ c ∈ childrenOf idx v, c ∈ s.known
  parent : ∀ c ∈ s.known, c = metadata.rootNode ∨ ∃ v ∈ s.visited, c ∈ childrenOf idx v
  leaves : s.leavesExplored = (s.visited.filter (isLeafAt idx)).length
  results : s.results =
    (s.visited.reverse.flatMap (leafMembers idx)).foldl (searchMember idx req) noResults

theorem pushChildren {cs : List ℕ} (hord : Ordered nearer s.candidates.length s.candidates)
    (hnew : ∀ c ∈ cs, c ∉ s.visited) (hloads : ∀ c ∈ cs, ∃ node, idx.loadNode c = some node) :
    let s' := cs.foldl (pushChild idx req) s
    s'.visited = s.visited ∧ s'.leavesExplored = s.leavesExplored ∧ s'.results = s.results ∧
      (s'.candidates.map PriorityItem.id).Perm (cs ++ s.candidates.map PriorityItem.id) ∧
      Ordered nearer s'.candidates.length s'.candidates := by
  induction cs generalizing s with
  | nil => exact ⟨rfl, rfl, rfl, List.Perm.refl _, hord⟩
  | cons c cs ih =>
    obtain ⟨child, hchild⟩ := hloads c mem_cons_self
    obtain ⟨pushed, hpushed, hvisited, hleaves, hresults, hperm, hord'⟩ :
        ∃ s₁, pushChild idx req s c = s₁ ∧ s₁.visited = s.visited ∧
          s₁.leavesExplored = s.leavesExplored ∧ s₁.results = s.results ∧
          (s₁.candidates.map PriorityItem.id).Perm (c :: s.candidates.map PriorityItem.id) ∧
          Ordered nearer s₁.candidates.length s₁.candidates := by
      refine ⟨_, rfl, ?_⟩
      unfold pushChild
      rw [if_neg (hnew c mem_cons_self), hchild]
      exact ⟨rfl, rfl, rfl, (push_perm _ _).map PriorityItem.id,
        push_ordered weakOrder_nearer hord _ _⟩
    have hrest := @ih pushed hord'
      (fun c' hc' => hvisited ▸ hnew c' (mem_cons_of_mem _ hc'))
      fun c' hc' => hloads c' (mem_cons_of_mem _ hc')
    rw [foldl_cons, hpushed]
    refine ⟨hrest.1.trans hvisited, hrest.2.1.trans hleaves, hrest.2.2.1.trans hresults, ?_,
      hrest.2.2.2.2⟩
    exact hrest.2.2.2.1.trans ((hperm.append_left cs).trans perm_middle)

variable {item : PriorityItem} {node root : HBCNode} {rest : List PriorityItem}
variable {c id fuel searchWidth : ℕ}

theorem visitCandidate_leaf (hnew : item.id ∉ s.visited)
    (hload : idx.loadNode item.id = some node) (hcentroid : node.centroid ≠ [])
    (hleaf : node.isLeaf = true) :
    let s' := visitCandidate idx req none s item
    s'.candidates = s.candidates ∧ s'.visited = item.id :: s.visited ∧
      s'.leavesExplored = s.leavesExplored + 1 ∧
      s'.results = node.members.foldl (searchMember idx req) s.results := by
  have hprunes : ∀ least, prunesLeaf none least item.distance = false := fun _ => rfl
  unfold visitCandidate
  rw [if_neg hnew]
  simp only [hload, if_neg hcentroid, hleaf, if_true, hprunes, Bool.and_false,
    Bool.false_eq_true]
  split
  · exact ⟨rfl, rfl, rfl, rfl⟩
  · exact ⟨rfl, rfl, rfl, rfl⟩

theorem visitCandidate_inner (hnew : item.id ∉ s.visited)
    (hload : idx.loadNode item.id = some node) (hcentroid : node.centroid ≠ [])
    (hinner : node.isLeaf = false) :
    visitCandidate idx req none s item =
      node.children.foldl (pushChild idx req) { s with visited := item.id :: s.visited } := by
  have hprunes : ∀ least, prunesNode none least item.distance = false := fun _ => rfl
  unfold visitCandidate
  rw [if_neg hnew]
  simp only [hload, if_neg hcentroid, hinner, hprunes, Bool.and_false, Bool.false_eq_true, if_false]

theorem Frontier.not_mem_of_child (h : Frontier idx req metadata nodes s)
    (htree : TreeInvariant idx metadata nodes) (hperm : (item :: rest).Perm s.candidates)
    (hc : c ∈ childrenOf idx item.id) :
    c ∉ s.known := by
  have hitem : item.id ∈ s.candidates.map PriorityItem.id :=
    mem_map_of_mem (hperm.mem_iff.mp mem_cons_self)
  have hnodes : item.id ∈ nodes := h.subset _ (mem_append_left _ hitem)
  intro hmem
  rcases h.parent c hmem with rfl | ⟨v, hv, hcv⟩
  · exact htree.root_top _ hnodes hc
  · have hvnodes := h.subset v (mem_append_right _ hv)
    obtain rfl := htree.one_parent v hvnodes _ hnodes c hcv hc
    exact (nodup_append.mp h.nodup).2.2 _ hitem _ hv rfl

theorem childrenOf_eq (hload : idx.loadNode id = some node) :
    childrenOf idx id = if node.isLeaf then [] else node.children := by
  unfold childrenOf
  rw [hload]

theorem leafMembers_eq (hload : idx.loadNode id = some node) :
    leafMembers idx id = if node.isLeaf then node.members else [] := by
  unfold leafMembers
  rw [hload]

theorem isLeafAt_eq (hload : idx.loadNode id = some node) : isLeafAt idx id = node.isLeaf := by
  unfold isLeafAt
  rw [hload]
  rfl

theorem TreeInvariant.mem_child (htree : TreeInvariant idx metadata nodes) (hid : id ∈ nodes)
    (hc : c ∈ childrenOf idx id) :
    c ∈ nodes :=
  (htree.mem_iff c).mpr (((htree.mem_iff id).mp hid).child hc)

theorem Frontier.step (h : Frontier idx req metadata nodes s)
    (htree : TreeInvariant idx metadata nodes) (hperm : (item :: rest).Perm s.candidates)
    (hord : Ordered nearer rest.length rest) :
    let s' := visitCandidate idx req none { s with candidates := rest } item
    Frontier idx req metadata nodes s' ∧ s'.visited = item.id :: s.visited := by
  have hknown : (rest.map PriorityItem.id ++ item.id :: s.visited).Perm s.known :=
    perm_middle.trans ((hperm.map PriorityItem.id).append_right s.visited)
  have hitem : item.id ∈ s.candidates.map PriorityItem.id :=
    mem_map_of_mem (hperm.mem_iff.mp mem_cons_self)
  have hnodes : item.id ∈ nodes := h.subset _ (mem_append_left _ hitem)
  have hnew : item.id ∉ s.visited := fun hv =>
    (nodup_append.mp h.nodup).2.2 _ hitem _ hv rfl
  have hchild := fun c => h.not_mem_of_child htree hperm (c := c)
  obtain ⟨node, hload, -, hcentroid⟩ := htree.loads item.id hnodes
  have hresults : ∀ found : List ℕ, leafMembers idx item.id = found →
      found.foldl (searchMember idx req) s.results =
        ((item.id :: s.visited).reverse.flatMap (leafMembers idx)).foldl (searchMember idx req)
          noResults := by
    rintro found rfl
    rw [reverse_cons, flatMap_append, foldl_append, ← h.results,
      flatMap_singleton]
  cases hleaf : node.isLeaf with
  | true =>
    obtain ⟨hcandidates, hvisited, hleaves, hfound⟩ :=
      @visitCandidate_leaf idx req { s with candidates := rest } item node hnew hload hcentroid
        hleaf
    have hnone : childrenOf idx item.id = [] := by
      rw [childrenOf_eq hload, if_pos hleaf]
    refine ⟨⟨?_, ?_, ?_, ?_, ?_, ?_, ?_, ?_⟩, hvisited⟩
    · rw [hcandidates]
      exact hord
    all_goals try unfold SearchState.known
    all_goals try rw [hcandidates]
    all_goals try rw [hvisited]
    · exact hknown.nodup_iff.mpr h.nodup
    · exact fun id hid => h.subset id (hknown.mem_iff.mp hid)
    · exact hknown.mem_iff.mpr h.root
    · intro v hv c hc
      rcases mem_cons.mp hv with rfl | hv
      · rw [hnone] at hc
        exact absurd hc not_mem_nil
      · exact hknown.mem_iff.mpr (h.closed v hv c hc)
    · intro c hc
      exact (h.parent c (hknown.mem_iff.mp hc)).imp_right fun ⟨v, hv, hcv⟩ =>
        ⟨v, mem_cons_of_mem _ hv, hcv⟩
    · rw [hleaves, filter_cons_of_pos ((isLeafAt_eq hload).trans hleaf), length_cons,
        h.leaves]
    · rw [hfound]
      exact hresults _ ((leafMembers_eq hload).trans (if_pos hleaf))
  | false =>
    have hchildren : childrenOf idx item.id = node.children := by
      rw [childrenOf_eq hload, hleaf]
      rfl
    have hvisit :=
      @visitCandidate_inner idx req { s with candidates := rest } item node hnew hload hcentroid
        hleaf
    have hfresh : ∀ c ∈ childrenOf idx item.id, c ∉ item.id :: s.visited := by
      intro c hc hmem
      refine hchild c hc (hknown.mem_iff.mp (mem_append_right _ hmem))
    have hloads : ∀ c ∈ childrenOf idx item.id, ∃ node, idx.loadNode c = some node := by
      intro c hc
      obtain ⟨child, hload, -⟩ := htree.loads c (htree.mem_child hnodes hc)
      exact ⟨child, hload⟩
    obtain ⟨hvisited, hleaves, hfound, hcandidates, hord'⟩ :=
      @pushChildren idx req { s with candidates := rest, visited := item.id :: s.visited }
        (childrenOf idx item.id) hord hfresh hloads
    rw [hchildren, ← hvisit] at hvisited hleaves hfound hcandidates hord'
    rw [← hchildren] at hcandidates
    have hknown' : (visitCandidate idx req none { s with candidates := rest } item).known.Perm
        (childrenOf idx item.id ++ s.known) := by
      unfold SearchState.known
      rw [hvisited]
      refine (hcandidates.append_right _).trans ?_
      rw [append_assoc]
      exact hknown.append_left _
    refine ⟨⟨hord', ?_, ?_, ?_, ?_, ?_, ?_, ?_⟩, hvisited⟩
    · rw [hknown'.nodup_iff]
      refine nodup_append.mpr ⟨htree.children_nodup _ hnodes, h.nodup, ?_⟩
      rintro c hc _ hmem rfl
      exact hchild c hc hmem
    · intro id hid
      rcases mem_append.mp (hknown'.mem_iff.mp hid) with hid | hid
      · exact htree.mem_child hnodes hid
      · exact h.subset id hid
    · exact hknown'.mem_iff.mpr (mem_append_right _ h.root)
    · intro v hv c hc
      rw [hvisited] at hv
      rw [hknown'.mem_iff]
      rcases mem_cons.mp hv with rfl | hv
      · exact mem_append_left _ hc
      · exact mem_append_right _ (h.closed v hv c hc)
    · intro c hc
      rw [hvisited]
      rcases mem_append.mp (hknown'.mem_iff.mp hc) with hc | hc
      · exact .inr ⟨item.id, mem_cons_self, hc⟩
      · exact (h.parent c hc).imp_right fun ⟨v, hv, hcv⟩ => ⟨v, mem_cons_of_mem _ hv, hcv⟩
    · have hnot : ¬ isLeafAt idx item.id = true := by
        rw [isLeafAt_eq hload, hleaf]
        exact Bool.false_ne_true
      rw [hleaves, hvisited, filter_cons_of_neg hnot]
      exact h.leaves
    · have hnone : leafMembers idx item.id = [] := by
        rw [leafMembers_eq hload, hleaf]
        rfl
      rw [hfound, hvisited]
      exact hresults [] hnone

/-- A search that has room for all nodes ends when no candidates are left or enough leaves have been
searched. -/
theorem Frontier.traverse (h : Frontier idx req metadata nodes s)
    (htree : TreeInvariant idx metadata nodes) (searchWidth : ℕ)
    (hfuel : nodes.length < fuel + s.visited.length) :
    ∃ s', Vector.traverse idx req none searchWidth fuel s = some s' ∧
      Frontier idx req metadata nodes s' ∧
      (s'.candidates = [] ∨ searchWidth ≤ s'.leavesExplored) := by
  have hvisited : ∀ {s}, Frontier idx req metadata nodes s → s.visited.length ≤ nodes.length := by
    intro s h
    refine ((nodup_append.mp h.nodup).2.1.subperm fun id hid => ?_).length_le
    exact h.subset id (mem_append_right _ hid)
  induction fuel generalizing s with
  | zero =>
    have := hvisited h
    omega
  | succ fuel ih =>
    unfold Vector.traverse
    by_cases hwidth : s.leavesExplored < searchWidth
    · rw [if_pos hwidth]
      by_cases hne : s.candidates = []
      · have hpop : pop nearer s.candidates = none := by
          rw [hne]
          rfl
        rw [hpop]
        exact ⟨s, rfl, h, .inl hne⟩
      · obtain ⟨item, rest, hpop, hperm, hord, -⟩ := pop_spec weakOrder_nearer h.ordered hne
        obtain ⟨hstep, hlength⟩ := h.step htree hperm hord
        rw [hpop]
        refine ih hstep ?_
        rw [hlength, length_cons]
        omega
    · rw [if_neg hwidth]
      exact ⟨s, rfl, h, .inr (by omega)⟩

theorem frontier_start (htree : TreeInvariant idx metadata nodes)
    (hid : root.id = metadata.rootNode) :
    Frontier idx req metadata nodes (startState idx req root) where
  ordered := by
    intro c hpos hc
    simp [startState] at hc
    omega
  nodup := nodup_singleton _
  subset id hmem := by
    rw [mem_singleton.mp hmem]
    exact (htree.mem_iff _).mpr (hid ▸ .root)
  root := mem_singleton.mpr hid.symm
  closed v hv := absurd hv not_mem_nil
  parent c hc := .inl ((mem_singleton.mp hc).trans hid)
  leaves := rfl
  results := rfl

/-- When no candidates are left, or as many leaves have been searched as there are, all of them
have been. -/
theorem Frontier.leaves_perm (h : Frontier idx req metadata nodes s)
    (htree : TreeInvariant idx metadata nodes)
    (hwidth : (nodes.filter (isLeafAt idx)).length ≤ searchWidth)
    (hend : s.candidates = [] ∨ searchWidth ≤ s.leavesExplored) :
    (s.visited.filter (isLeafAt idx)).Perm (nodes.filter (isLeafAt idx)) := by
  have hnodup := (nodup_append.mp h.nodup).2.1
  have hsub : s.visited.filter (isLeafAt idx) ⊆ nodes.filter (isLeafAt idx) := by
    intro id hid
    obtain ⟨hid, hleaf⟩ := mem_filter.mp hid
    exact mem_filter.mpr ⟨h.subset id (mem_append_right _ hid), hleaf⟩
  rcases hend with hnone | henough
  · have hknown : s.known = s.visited := by
      unfold SearchState.known
      rw [hnone]
      rfl
    have hall : ∀ id, Reached idx metadata.rootNode id → id ∈ s.visited := by
      intro id hreached
      induction hreached with
      | root => exact hknown ▸ h.root
      | child _ hc ih => exact hknown ▸ h.closed _ ih _ hc
    refine (perm_ext_iff_of_nodup (hnodup.filter _) (htree.nodup.filter _)).mpr fun id =>
      ⟨fun hid => hsub hid, fun hid => ?_⟩
    obtain ⟨hid, hleaf⟩ := mem_filter.mp hid
    exact mem_filter.mpr ⟨hall id ((htree.mem_iff id).mp hid), hleaf⟩
  · refine ((hnodup.filter _).subperm hsub).perm_of_length_le ?_
    rw [← h.leaves]
    exact hwidth.trans henough

theorem flatMap_leafMembers_filter (idx : HBCIndex) (ids : List ℕ) :
    (ids.filter (isLeafAt idx)).flatMap (leafMembers idx) = ids.flatMap (leafMembers idx) := by
  induction ids with
  | nil => rfl
  | cons id ids ih =>
    rw [flatMap_cons]
    by_cases hleaf : isLeafAt idx id = true
    · rw [filter_cons_of_pos hleaf, flatMap_cons, ih]
    · have hnone : leafMembers idx id = [] := by
        unfold leafMembers
        unfold isLeafAt at hleaf
        split
        · next node hload =>
            rw [hload] at hleaf
            exact if_neg hleaf
        · rfl
      rw [filter_cons_of_neg hleaf, ih, hnone, nil_append]

/-- The members of the tree. -/
def allMembers (idx : HBCIndex) (nodes : List ℕ) : List ℕ := nodes.flatMap (leafMembers idx)

theorem traverse_members (htree : TreeInvariant idx metadata nodes)
    (hload : idx.loadNode metadata.rootNode = some root)
    (hwidth : (nodes.filter (isLeafAt idx)).length ≤ searchWidth) (hfuel : nodes.length < fuel) :
    ∃ arrivals : List ℕ, arrivals.Perm (allMembers idx nodes) ∧
      (traverse idx req none searchWidth fuel (startState idx req root)).map
          SearchState.results =
        some (arrivals.foldl (searchMember idx req) noResults) := by
  have hroot := (htree.mem_iff metadata.rootNode).mpr .root
  obtain ⟨node, hload', hid, -⟩ := htree.loads _ hroot
  rw [hload] at hload'
  obtain rfl := Option.some.inj hload'
  have hstart := @frontier_start idx req metadata nodes root htree hid
  have hroom : nodes.length < fuel + (startState idx req root).visited.length := hfuel
  obtain ⟨s', htraverse, hfrontier, hend⟩ := hstart.traverse htree searchWidth hroom
  refine ⟨s'.visited.reverse.flatMap (leafMembers idx), ?_, ?_⟩
  · unfold allMembers
    rw [← flatMap_leafMembers_filter idx, ← flatMap_leafMembers_filter idx nodes]
    refine List.Perm.flatMap_right _ ?_
    have hreverse := (s'.visited.reverse_perm).filter (isLeafAt idx)
    exact hreverse.trans (hfrontier.leaves_perm htree hwidth hend)
  · rw [htraverse, Option.map_some, hfrontier.results]

end Frontier

end Antfly.Vector
