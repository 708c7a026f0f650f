import Antfly.Vector.CollapseSteps
import Antfly.Vector.RerankTrim
import Mathlib.Data.List.Permutation

/-!
A search of a whole tree returns the nearest members, one of each collapse key, as long as every
member that arrives at a full heap fits.  Without collapse keys every member fits.
-/

namespace Antfly.Vector

open BinaryHeap NearestPerClass List

section Exact

variable {idx : HBCIndex} {req : SearchRequest}

def passes (idx : HBCIndex) (req : SearchRequest) (id : ℕ) : Bool :=
  (passingDistance idx req id).isSome

/-- The members that pass the filters and the bounds. -/
def passing (idx : HBCIndex) (req : SearchRequest) (members : List ℕ) : Finset ℕ :=
  (members.filter (passes idx req)).toFinset

def foundAfter (idx : HBCIndex) (req : SearchRequest) (members : List ℕ) : SearchResults :=
  members.foldl (searchMember idx req) noResults

/-- The results are the nearest members that pass, one of each collapse key and as many as there
are, in the order of their distances. -/
structure ExactResults (idx : HBCIndex) (req : SearchRequest) (members : List ℕ)
    (results : List Result) : Prop where
  sorted : results.Pairwise fun a b => a.distance ≤ b.distance
  ids_nodup : (results.map Result.id).Nodup
  distance : ∀ r ∈ results, r.distance = memberDistance idx req r.id
  nearest : Chosen (collapseClass idx) (memberDistance idx req) req.k (passing idx req members)
    (results.map Result.id).toFinset

variable {members arrivals : List ℕ} {id fuel : ℕ} {dist : ℚ} {s : SearchResults}
variable {sort : List Result → List Result}

theorem passing_append_some (hpasses : passingDistance idx req id = some dist) :
    passing idx req (members ++ [id]) = insert id (passing idx req members) := by
  have hsome : passes idx req id = true := by
    unfold passes
    rw [hpasses]
    rfl
  unfold passing
  ext found
  rw [filter_append, filter_cons_of_pos hsome, Finset.mem_insert, mem_toFinset,
    mem_append, mem_toFinset, filter_nil, mem_singleton]
  exact or_comm

theorem passing_append_none (hpasses : passingDistance idx req id = none) :
    passing idx req (members ++ [id]) = passing idx req members := by
  have hnone : ¬ passes idx req id = true := by
    unfold passes
    rw [hpasses]
    exact Bool.false_ne_true
  unfold passing
  rw [filter_append, filter_cons_of_neg hnone, filter_nil, append_nil]

theorem foundAfter_append (idx : HBCIndex) (req : SearchRequest) (members : List ℕ) (id : ℕ) :
    foundAfter idx req (members ++ [id]) =
      searchMember idx req (foundAfter idx req members) id := by
  unfold foundAfter
  rw [foldl_append]
  rfl

theorem searchMember_none (hpasses : passingDistance idx req id = none) :
    searchMember idx req s id = s := by
  unfold searchMember
  rw [hpasses]

theorem notMem_passing (h : id ∉ members) : id ∉ passing idx req members := fun hmem =>
  h (mem_of_mem_filter (mem_toFinset.mp hmem))

theorem soundResults_start (idx : HBCIndex) (req : SearchRequest) :
    SoundResults idx req ∅ noResults where
  ordered c _ hc := absurd hc (Nat.not_lt_zero c)
  nodup := nodup_nil
  items item hitem := absurd hitem not_mem_nil
  keys key item hkey := by cases hkey
  live item hitem := absurd hitem not_mem_nil
  removed id hid := absurd hid not_mem_nil
  size := Nat.zero_le _

theorem soundResults_run (hnodup : members.Nodup) :
    SoundResults idx req (passing idx req members) (foundAfter idx req members) := by
  induction members using List.reverseRecOn with
  | nil => exact soundResults_start idx req
  | append_singleton members id ih =>
    obtain ⟨hmembers, -, hdisjoint⟩ := nodup_append.mp hnodup
    have hid : id ∉ members := fun hmem =>
      hdisjoint id hmem id (mem_singleton_self id) rfl
    rw [foundAfter_append]
    cases hpasses : passingDistance idx req id with
    | none =>
      rw [passing_append_none hpasses, searchMember_none hpasses]
      exact ih hmembers
    | some dist =>
      rw [passing_append_some hpasses]
      exact (ih hmembers).searchMember (notMem_passing hid) hpasses

/-- The results are the nearest after every member if and only if every member that passes fits. -/
theorem foundNearest_run_iff (hnodup : arrivals.Nodup) :
    (∀ first, first <+: arrivals →
        FoundNearest idx req (passing idx req first) (foundAfter idx req first)) ↔
      ∀ first id, first ++ [id] <+: arrivals → passes idx req id = true →
        Fits idx req (foundAfter idx req first) id := by
  have hsound {first : List ℕ} (hfirst : first <+: arrivals) :=
    @soundResults_run idx req first (hnodup.sublist hfirst.sublist)
  have hnew {first : List ℕ} {id : ℕ} (hfirst : first ++ [id] <+: arrivals) : id ∉ first := by
    obtain ⟨-, -, hdisjoint⟩ := nodup_append.mp (hnodup.sublist hfirst.sublist)
    exact fun hmem => hdisjoint id hmem id (mem_singleton_self id) rfl
  constructor
  · intro h first id hfirst hpasses
    obtain ⟨dist, hdist⟩ := Option.isSome_iff_exists.mp hpasses
    have hbefore := (prefix_append first [id]).trans hfirst
    have hafter := h _ hfirst
    rw [passing_append_some hdist, foundAfter_append] at hafter
    exact (searchMember_iff (hsound hbefore) (h first hbefore) (notMem_passing (hnew hfirst))
      hdist).mp hafter
  · intro h first
    induction first using List.reverseRecOn with
    | nil => exact fun _ => chosen_empty _ _ _
    | append_singleton first id ih =>
      intro hfirst
      have hbefore := (prefix_append first [id]).trans hfirst
      rw [foundAfter_append]
      cases hpasses : passingDistance idx req id with
      | none =>
        rw [passing_append_none hpasses, searchMember_none hpasses]
        exact ih hbefore
      | some dist =>
        have hsome : passes idx req id = true := by
          unfold passes
          rw [hpasses]
          rfl
        rw [passing_append_some hpasses]
        exact (searchMember_iff (hsound hbefore) (ih hbefore) (notMem_passing (hnew hfirst))
          hpasses).mpr (h first id hfirst hsome)

theorem drain_perm (removed : List ℕ) {heap : List PriorityItem}
    (hord : Ordered farther heap.length heap) (hfuel : heap.length ≤ fuel) :
    (drain removed fuel heap).Perm (heap.filter fun item => item.id ∉ removed) := by
  induction fuel generalizing heap with
  | zero =>
    rw [length_eq_zero_iff.mp (Nat.le_zero.mp hfuel)]
    exact List.Perm.refl _
  | succ fuel ih =>
    by_cases hne : heap = []
    · subst hne
      exact List.Perm.refl _
    · obtain ⟨item, rest, hpop, hperm, hrest, -⟩ := pop_spec weakOrder_farther hord hne
      have hlength := hperm.length_eq
      rw [length_cons] at hlength
      have hdrain := ih hrest (by omega)
      refine List.Perm.trans ?_ (hperm.filter _)
      rw [drain, hpop]
      dsimp only
      by_cases hremoved : item.id ∈ removed
      · rw [if_pos hremoved, filter_cons_of_neg (by simpa using hremoved)]
        exact hdrain
      · rw [if_neg hremoved, filter_cons_of_pos (by simpa using hremoved)]
        exact hdrain.cons item

theorem inBounds_of_passing (hpasses : passingDistance idx req id = some dist) :
    InBounds req.distanceOver req.distanceUnder dist := by
  unfold passingDistance at hpasses
  split at hpasses
  · cases hpasses
  · split at hpasses
    · cases hpasses
    · dsimp only at hpasses
      split at hpasses
      · cases hpasses
      · next hover =>
          split at hpasses
          · cases hpasses
          · next hunder =>
              obtain rfl := Option.some.inj hpasses
              constructor
              · intro bound hmem
                rw [Option.mem_def] at hmem
                rw [hmem] at hover
                simpa using hover
              · intro under hmem
                rw [Option.mem_def] at hmem
                rw [hmem] at hunder
                simpa using hunder

theorem finish_spec (hsort : LawfulSort sort)
    (hsound : SoundResults idx req (passing idx req members) s) :
    let results := finish idx req sort s
    (results.Pairwise fun a b => a.distance ≤ b.distance) ∧ (results.map Result.id).Nodup ∧
      (∀ r ∈ results, r.distance = memberDistance idx req r.id) ∧
      (results.map Result.id).toFinset = s.live := by
  have hdrain := drain_perm s.removed hsound.ordered (Nat.le_refl s.heap.length)
  have hperm := (hsort.perm ((drain s.removed s.heap.length s.heap).map (resultOf idx))).trans
    (hdrain.map (resultOf idx))
  have hsorted := hsort.sorted ((drain s.removed s.heap.length s.heap).map (resultOf idx))
  have hitem : ∀ r ∈ sort ((drain s.removed s.heap.length s.heap).map (resultOf idx)),
      ∃ item ∈ s.heap, resultOf idx item = r := by
    intro r hr
    obtain ⟨item, hitem, rfl⟩ := mem_map.mp (hperm.mem_iff.mp hr)
    exact ⟨item, mem_of_mem_filter hitem, rfl⟩
  have hbounds : ∀ r ∈ sort ((drain s.removed s.heap.length s.heap).map (resultOf idx)),
      InBounds req.distanceOver req.distanceUnder r.distance := by
    intro r hr
    obtain ⟨item, hmem, rfl⟩ := hitem r hr
    obtain ⟨hpassing, hdistance⟩ := hsound.items item hmem
    have hpasses := (mem_filter.mp (mem_toFinset.mp hpassing)).2
    obtain ⟨dist, hdist⟩ := Option.isSome_iff_exists.mp hpasses
    have hsame : (resultOf idx item).distance = dist := by
      refine hdistance.trans ?_
      unfold memberDistance
      rw [hdist]
      rfl
    rw [hsame]
    exact inBounds_of_passing hdist
  have hall : finish idx req sort s =
      sort ((drain s.removed s.heap.length s.heap).map (resultOf idx)) := by
    unfold finish rerankAndTrim
    dsimp only
    rw [if_pos rfl, trim_eq_filter hsorted,
      filter_eq_self.mpr fun r hr => decide_eq_true (hbounds r hr)]
    refine take_of_length_le ?_
    rw [hperm.length_eq, length_map, ← hsound.card_live]
    exact hsound.card_live_le.trans hsound.size
  have hids : ((s.heap.filter fun item => item.id ∉ s.removed).map (resultOf idx)).map Result.id =
      (s.heap.filter fun item => item.id ∉ s.removed).map PriorityItem.id := by
    rw [map_map]
    rfl
  dsimp only
  rw [hall]
  refine ⟨hsorted, ?_, ?_, ?_⟩
  · rw [(hperm.map Result.id).nodup_iff, hids]
    exact hsound.nodup.sublist (filter_sublist.map _)
  · intro r hr
    obtain ⟨item, hmem, rfl⟩ := hitem r hr
    exact (hsound.items item hmem).2
  · rw [toFinset_eq_of_perm _ _ (hperm.map Result.id), hids]
    rfl

theorem search_run {metadata : HBCMetadata} {nodes : List ℕ}
    (htree : TreeInvariant idx metadata nodes) (hmetadata : idx.getMetadata = some metadata)
    (hdimension : req.embedding.length = idx.config.dimension)
    (hprunes : req.epsilon2.getD idx.config.epsilon2 = none)
    (hwidth : (nodes.filter (isLeafAt idx)).length ≤ req.searchWidth.getD idx.config.searchWidth)
    (hsort : LawfulSort sort) (hfuel : nodes.length < fuel) :
    ∃ arrivals : List ℕ, arrivals.Perm (allMembers idx nodes) ∧
      search idx req sort fuel =
        some (.ok (finish idx req sort (foundAfter idx req arrivals))) := by
  obtain ⟨root, hload, -, -⟩ := htree.loads _ ((htree.mem_iff metadata.rootNode).mpr .root)
  obtain ⟨arrivals, hperm, htraverse⟩ :=
    @traverse_members idx req metadata nodes root fuel _ htree hload hwidth hfuel
  refine ⟨arrivals, hperm, ?_⟩
  unfold search
  rw [if_neg (not_not.mpr hdimension), hmetadata]
  dsimp only
  by_cases hactive : metadata.activeCount = 0
  · -- Without members nothing is found.
    have hnone : arrivals = [] := by
      have hlength := hperm.length_eq
      rw [show (allMembers idx nodes).length = 0 from htree.active.symm.trans hactive] at hlength
      exact length_eq_zero_iff.mp hlength
    have hnil : finish idx req sort (foundAfter idx req []) = [] := by
      obtain ⟨-, -, -, hlive⟩ := finish_spec hsort (@soundResults_run idx req [] nodup_nil)
      have hempty := hlive.trans (by rfl : noResults.live = ∅)
      rwa [toFinset_eq_empty_iff, map_eq_nil_iff] at hempty
    rw [if_pos hactive, hnone, hnil]
  · rw [if_neg hactive, hload, hprunes]
    dsimp only
    obtain ⟨s, hs, hresults⟩ := Option.map_eq_some_iff.mp htraverse
    rw [hs, Option.map_some, hresults]
    rfl

theorem exact_of_fits {arrivals members : List ℕ} (hperm : arrivals.Perm members)
    (hnodup : members.Nodup) {sort : List Result → List Result} (hsort : LawfulSort sort)
    (hfits : ∀ first id, first ++ [id] <+: arrivals → passes idx req id = true →
      Fits idx req (foundAfter idx req first) id) :
    ExactResults idx req members (finish idx req sort (foundAfter idx req arrivals)) := by
  have harrivals := hperm.nodup_iff.mpr hnodup
  obtain ⟨hsorted, hids, hdistance, hlive⟩ := finish_spec hsort (soundResults_run harrivals)
  have hpassing : passing idx req arrivals = passing idx req members :=
    toFinset_eq_of_perm _ _ (hperm.filter _)
  have hfound := (foundNearest_run_iff harrivals).mpr hfits arrivals (prefix_refl _)
  refine ⟨hsorted, hids, hdistance, ?_⟩
  rw [hlive, ← hpassing]
  exact hfound

theorem cleanTopRemoved_of_removed_nil {s : SearchResults} (h : s.removed = []) (fuel : ℕ) :
    s.cleanTopRemoved fuel = s := by
  cases fuel with
  | zero => rfl
  | succ fuel =>
    unfold SearchResults.cleanTopRemoved
    split
    · rfl
    · rw [h, if_neg not_mem_nil]

/-- Without a collapse function no item is taken for removed. -/
theorem removed_foundAfter (hcollapse : idx.config.collapseKeysFunc = none) (members : List ℕ) :
    (foundAfter idx req members).removed = [] := by
  induction members using List.reverseRecOn with
  | nil => rfl
  | append_singleton members id ih =>
    rw [foundAfter_append]
    unfold searchMember SearchResults.peek
    rw [hcollapse, cleanTopRemoved_of_removed_nil ih]
    split
    · exact ih
    · dsimp only
      split
      · exact ih
      · split
        · simp_all
        · split <;> simp_all [insertResultWithCollapse, SearchResults.push, SearchResults.pop]

/-- Without a collapse function every member fits. -/
theorem fits_of_no_collapse (hcollapse : idx.config.collapseKeysFunc = none) {first : List ℕ}
    {id : ℕ} (hnodup : (first ++ [id]).Nodup) : Fits idx req (foundAfter idx req first) id := by
  obtain ⟨hfirst, -, hdisjoint⟩ := nodup_append.mp hnodup
  have hclass : ∀ found, collapseClass idx found = .inr found := by
    intro found
    unfold collapseClass
    rw [hcollapse]
  have hnone : ∀ item ∈ (foundAfter idx req first).heap,
      item.id ∉ (foundAfter idx req first).removed := by
    rw [removed_foundAfter hcollapse]
    exact fun _ _ => not_mem_nil
  refine fun _ top _ => ⟨fun _ => .inr ⟨fun hmem => ?_, hnone⟩, fun _ => .inr hnone⟩
  obtain ⟨found, hfound, heq⟩ := Finset.mem_image.mp hmem
  obtain ⟨item, hitem, rfl, -⟩ := SearchResults.mem_live.mp hfound
  rw [hclass, hclass] at heq
  have harrived := ((soundResults_run hfirst).items item hitem).1
  exact hdisjoint item.id (mem_of_mem_filter (mem_toFinset.mp harrived)) id
    (mem_singleton_self id) (Sum.inr.inj heq)

end Exact

/-- A tree of one leaf whose members are at the distances 1, 5 and 3 of every query. -/
def oneLeaf (collapseKeysFunc : Option (Bytes → Bytes)) : HBCIndex where
  config := {
    dimension := 0
    searchWidth := 1
    epsilon2 := none
    collapseKeysFunc := collapseKeysFunc
    measureDistance := fun _ vector => vector.headD 0
    transformed := id
    normalized := id }
  getMetadata := some { rootNode := 10, activeCount := 3 }
  loadNode id :=
    if id = 10 then
      some { id := 10, isLeaf := true, centroid := [3], children := [], members := [1, 2, 3] }
    else none
  memberMetadata id := if id = 2 then some [67] else some [65]
  getVector id := some [if id = 1 then 1 else if id = 2 then 5 else 3]

def nearestTwo : SearchRequest where
  embedding := []
  k := 2
  filterIDs := []
  excludeIDs := []
  filterPrefix := []
  distanceOver := none
  distanceUnder := none
  searchWidth := none
  epsilon2 := none

def byDistance (l : List Result) : List Result :=
  l.insertionSort fun a b => a.distance ≤ b.distance

theorem lawfulSort_byDistance : LawfulSort byDistance where
  perm l := perm_insertionSort _ l
  sorted l := pairwise_insertionSort _ l

theorem treeInvariant_oneLeaf (collapseKeysFunc : Option (Bytes → Bytes)) :
    TreeInvariant (oneLeaf collapseKeysFunc) { rootNode := 10, activeCount := 3 } [10] where
  nodup := nodup_singleton 10
  mem_iff id := by
    rw [mem_singleton]
    constructor
    · rintro rfl
      exact .root
    · intro hreached
      induction hreached with
      | root => rfl
      | child _ hchild ih =>
        subst ih
        exact absurd hchild not_mem_nil
  loads id hid := by
    obtain rfl := mem_singleton.mp hid
    exact ⟨_, rfl, rfl, cons_ne_nil _ _⟩
  children_nodup id hid := by
    obtain rfl := mem_singleton.mp hid
    exact nodup_nil
  one_parent p hp q hq _ _ _ :=
    (mem_singleton.mp hp).trans (mem_singleton.mp hq).symm
  root_top p hp := by
    obtain rfl := mem_singleton.mp hp
    exact not_mem_nil
  members_nodup := (by decide : [1, 2, 3].Nodup)
  active := rfl

def nearestOne : SearchRequest := { nearestTwo with k := 1 }

instance (idx : HBCIndex) (req : SearchRequest) (s : SearchResults) (id : ℕ) :
    Decidable (Fits idx req s id) :=
  inferInstanceAs (Decidable (_ → ∀ top ∈ s.peek.2, (_ → _ ∨ _ ∧ ∀ item ∈ s.heap, _) ∧
    (_ → _ ∨ ∀ item ∈ s.heap, _)))

end Antfly.Vector
