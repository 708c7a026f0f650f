import Antfly.Vector.RerankSound
import Mathlib.Tactic.NormNum

/-!
A search that computes the exact distances at the boundary only ends in the same sets of results as
one that computes all of them.
-/

namespace Antfly.Vector

open LeastLoaded Boundary List

section Outcomes

variable {exact : ℕ → Option ℚ} {l : List Result} {distanceOver distanceUnder : Option ℚ} {k : ℕ}

def firstChoices (distanceOver distanceUnder : Option ℚ) (k : ℕ) (l : List Result) :
    Set (Finset ℕ) :=
  {chosen | FirstOf (fun a b => keyOf l a ≤ keyOf l b) k (boundedIds distanceOver distanceUnder l)
    chosen}

theorem outcomes_of_sorted {rerankPolicy : RerankPolicy} {reranked : List Result}
    (hsorted : ∀ sort, LawfulSort sort →
      rerankAndTrim sort exact rerankPolicy k distanceOver distanceUnder l =
        (trimUnder distanceUnder (trimOver distanceOver (sort reranked))).take k)
    (hids : (reranked.map Result.id).Nodup) :
    Outcomes exact rerankPolicy k distanceOver distanceUnder l =
      firstChoices distanceOver distanceUnder k reranked := by
  ext chosen
  refine Iff.trans ?_ (exists_sort_iff hids chosen)
  constructor
  · rintro ⟨sort, hsort, rfl⟩
    rw [hsorted sort hsort]
    exact ⟨sort, hsort, rfl⟩
  · rintro ⟨sort, hsort, rfl⟩
    refine ⟨sort, hsort, ?_⟩
    rw [hsorted sort hsort]
    rfl

theorem outcomes_always (hids : (l.map Result.id).Nodup) :
    Outcomes exact .always k distanceOver distanceUnder l =
      firstChoices distanceOver distanceUnder k (l.map (computeExactDistance exact)) := by
  refine outcomes_of_sorted (fun sort hsort => ?_) ((map_exact_ids exact l).symm ▸ hids)
  unfold rerankAndTrim
  dsimp only
  rw [rerank_range]
  by_cases hnil : l = []
  · subst hnil
    rw [map_nil, (hsort.perm []).eq_nil, length_nil, range_zero, if_pos rfl]
  · rw [if_neg (by rwa [range_eq_nil, length_eq_zero_iff])]

theorem outcomes_boundary (hne : selectAutoRerankCandidates l k distanceOver distanceUnder ≠ [])
    {reranked : List Result}
    (hreranked : rerank exact (selectAutoRerankCandidates l k distanceOver distanceUnder) l =
      reranked)
    (hids : (reranked.map Result.id).Nodup) :
    Outcomes exact .boundary k distanceOver distanceUnder l =
      firstChoices distanceOver distanceUnder k reranked := by
  refine outcomes_of_sorted (fun sort _ => ?_) hids
  unfold rerankAndTrim
  dsimp only
  rw [if_neg hne, hreranked]

theorem outcomes_of_nil
    (hnil : selectAutoRerankCandidates l k distanceOver distanceUnder = []) :
    Outcomes exact .boundary k distanceOver distanceUnder l =
      {trimmedIds distanceOver distanceUnder k l} := by
  have hsame : ∀ sort, rerankAndTrim sort exact .boundary k distanceOver distanceUnder l =
      (trimUnder distanceUnder (trimOver distanceOver l)).take k := by
    intro sort
    unfold rerankAndTrim
    dsimp only
    rw [if_pos hnil]
  obtain ⟨sort, hsort⟩ := exists_lawfulSort
  ext chosen
  constructor
  · rintro ⟨sort', -, rfl⟩
    rw [hsame]
    rfl
  · rintro rfl
    refine ⟨sort, hsort, ?_⟩
    rw [hsame]
    rfl

theorem outcomes_eq_of_limit (hlimit : min k l.length = 0) :
    Outcomes exact .boundary k distanceOver distanceUnder l =
      Outcomes exact .always k distanceOver distanceUnder l := by
  rcases Nat.eq_zero_or_pos k with rfl | hk
  · rfl
  · obtain rfl : l = [] := length_eq_zero_iff.mp (by omega)
    unfold Outcomes rerankAndTrim selectAutoRerankCandidates
    dsimp only
    rw [if_pos hlimit, length_nil, range_zero]

theorem outcomes_eq_of_ambiguous {r : Result} (hr : r ∈ l.take (min k l.length))
    (hbad : thresholdAmbiguous distanceOver distanceUnder r = true) :
    Outcomes exact .boundary k distanceOver distanceUnder l =
      Outcomes exact .always k distanceOver distanceUnder l := by
  have hlimit : min k l.length ≠ 0 := by
    intro hzero
    rw [hzero, take_zero] at hr
    exact absurd hr not_mem_nil
  have hselect : selectAutoRerankCandidates l k distanceOver distanceUnder =
      List.range l.length := by
    unfold selectAutoRerankCandidates
    dsimp only
    rw [if_neg hlimit, if_pos (any_eq_true.mpr ⟨r, hr, hbad⟩)]
  unfold Outcomes rerankAndTrim
  dsimp only
  rw [hselect]

theorem firstOf_limit {l' : List Result} (hlength : l'.length = l.length) {limit : ℕ}
    (hlimit : min k l.length = limit) {chosen : Finset ℕ} {before : ℕ → ℕ → Prop} :
    FirstOf before k (boundedIds distanceOver distanceUnder l') chosen ↔
      FirstOf before limit (boundedIds distanceOver distanceUnder l') chosen := by
  have hle := @card_boundedIds_le l' distanceOver distanceUnder
  have hcard : min k (boundedIds distanceOver distanceUnder l').card =
      min limit (boundedIds distanceOver distanceUnder l').card := by omega
  exact ⟨fun h => ⟨h.subset, h.card.trans hcard, h.first⟩,
    fun h => ⟨h.subset, h.card.trans hcard.symm, h.first⟩⟩

section Clear

variable {near far : List Result}

theorem ids_subset_bounded {reranked : List Result} (hids : (reranked.map Result.id).Nodup)
    (hsame : reranked.map Result.id = (near ++ far).map Result.id)
    (hbounds : ∀ r ∈ near, InBounds distanceOver distanceUnder (keyOf reranked r.id)) :
    ids near ⊆ boundedIds distanceOver distanceUnder reranked := by
  intro id hid
  obtain ⟨r, hr, rfl⟩ := mem_ids.mp hid
  rw [mem_boundedIds hids, hsame]
  exact ⟨mem_map_of_mem (mem_append_left _ hr), hbounds r hr⟩

theorem mem_near_or_far {reranked : List Result} (hids : (reranked.map Result.id).Nodup)
    (hsame : reranked.map Result.id = (near ++ far).map Result.id) {id : ℕ}
    (hid : id ∈ boundedIds distanceOver distanceUnder reranked) : id ∈ ids near ∨ id ∈ ids far := by
  have hmem := ((mem_boundedIds hids).mp hid).1
  rw [hsame, map_append, mem_append] at hmem
  exact hmem.imp mem_toFinset.mpr mem_toFinset.mpr

theorem disjoint_near_far (hids : ((near ++ far).map Result.id).Nodup) :
    Disjoint (ids near) (ids far) := by
  rw [map_append] at hids
  rw [Finset.disjoint_left]
  intro id hnear hfar
  exact (nodup_append.mp hids).2.2 id (mem_toFinset.mp hnear) id
    (mem_toFinset.mp hfar) rfl

theorem card_near (hids : ((near ++ far).map Result.id).Nodup) : (ids near).card = near.length := by
  rw [map_append] at hids
  unfold ids
  rw [toFinset_card_of_nodup (nodup_append.mp hids).1, length_map]

theorem firstChoices_cut (hids : ((near ++ far).map Result.id).Nodup)
    (hestimated : Estimated exact (near ++ far))
    (hbounds : ∀ r ∈ near, ∀ distance, r.distance - r.errorBound ≤ distance →
      distance ≤ r.distance + r.errorBound → InBounds distanceOver distanceUnder distance)
    (hlimit : min k (near ++ far).length = near.length) :
    firstChoices distanceOver distanceUnder k (rerankBoundary exact near far) =
      firstChoices distanceOver distanceUnder k
        ((near ++ far).map (computeExactDistance exact)) := by
  have hmap := @rerankBoundary_ids exact near far
  have hmap' := map_exact_ids exact (near ++ far)
  have hnodup : ((rerankBoundary exact near far).map Result.id).Nodup := hmap.symm ▸ hids
  have hnodup' : (((near ++ far).map (computeExactDistance exact)).map Result.id).Nodup :=
    hmap'.symm ▸ hids
  have hlength : (rerankBoundary exact near far).length = (near ++ far).length := by
    simpa using congrArg List.length hmap
  have hlength' : ((near ++ far).map (computeExactDistance exact)).length =
      (near ++ far).length := length_map _
  have hnear : ids near ⊆
      boundedIds distanceOver distanceUnder (rerankBoundary exact near far) := by
    refine ids_subset_bounded hnodup hmap fun r hr => ?_
    obtain ⟨hlow, hhigh⟩ := keyOf_boundary_within hids hestimated (mem_append_left far hr)
    exact hbounds r hr _ hlow hhigh
  have hnear' : ids near ⊆ boundedIds distanceOver distanceUnder
      ((near ++ far).map (computeExactDistance exact)) := by
    refine ids_subset_bounded hnodup' hmap' fun r hr => ?_
    obtain ⟨hlow, hhigh⟩ := keyOf_exact_within hids hestimated (mem_append_left far hr)
    exact hbounds r hr _ hlow hhigh
  have hsame : ∀ id, keyOf (rerankBoundary exact near far) id =
        keyOf ((near ++ far).map (computeExactDistance exact)) id →
      (id ∈ boundedIds distanceOver distanceUnder (rerankBoundary exact near far) ↔
        id ∈ boundedIds distanceOver distanceUnder
          ((near ++ far).map (computeExactDistance exact))) := by
    intro id hkey
    rw [mem_boundedIds hnodup, mem_boundedIds hnodup', hmap, hmap', hkey]
  have hseparates := separates_cut hids hestimated
  have hdisjoint := disjoint_near_far hids
  have hcard := card_near hids
  ext chosen
  unfold firstChoices
  rw [Set.mem_ofPred_eq, Set.mem_ofPred_eq, firstOf_limit hlength hlimit,
    firstOf_limit hlength' hlimit]
  constructor
  · exact FirstOf.transfer hseparates hcard hnear hnear' (fun _ => mem_near_or_far hnodup hmap)
      (fun _ => mem_near_or_far hnodup' hmap') hdisjoint hsame
  · exact FirstOf.transfer hseparates.symm hcard hnear' hnear
      (fun _ => mem_near_or_far hnodup' hmap') (fun _ => mem_near_or_far hnodup hmap) hdisjoint
      fun id hkey => (hsame id hkey.symm).symm

/-- Where no result behind the cut may be closer than one before it, the ones before are chosen. -/
theorem firstChoices_apart (hids : ((near ++ far).map Result.id).Nodup)
    (hestimated : Estimated exact (near ++ far))
    (hbounds : ∀ r ∈ near, ∀ distance, r.distance - r.errorBound ≤ distance →
      distance ≤ r.distance + r.errorBound → InBounds distanceOver distanceUnder distance)
    (hlimit : min k (near ++ far).length = near.length)
    (happart : ∀ r ∈ near, ∀ r' ∈ far, ¬ resultMaybeCloser r' r = true) {chosen : Finset ℕ}
    (hchosen : chosen ∈ firstChoices distanceOver distanceUnder k (rerankBoundary exact near far)) :
    chosen = ids near := by
  have hmap := @rerankBoundary_ids exact near far
  have hnodup : ((rerankBoundary exact near far).map Result.id).Nodup := hmap.symm ▸ hids
  have hlength : (rerankBoundary exact near far).length = (near ++ far).length := by
    simpa using congrArg List.length hmap
  have hnear : ids near ⊆
      boundedIds distanceOver distanceUnder (rerankBoundary exact near far) := by
    refine ids_subset_bounded hnodup hmap fun r hr => ?_
    obtain ⟨hlow, hhigh⟩ := keyOf_boundary_within hids hestimated (mem_append_left far hr)
    exact hbounds r hr _ hlow hhigh
  refine FirstOf.eq_near ?_ (card_near hids) hnear ((firstOf_limit hlength hlimit).mp hchosen)
  intro n hn f hf hout
  have hfar := (mem_near_or_far hnodup hmap hf).resolve_left hout
  obtain ⟨r, hr, rfl⟩ := mem_ids.mp hn
  obtain ⟨r', hr', rfl⟩ := mem_ids.mp hfar
  exact (keyOf_lt_of_not_closer hids hestimated hr hr' (happart r hr r' hr')).1

end Clear

theorem rerank_nil (exact : ℕ → Option ℚ) (l : List Result) : rerank exact [] l = l := by
  unfold rerank
  conv_rhs => rw [← zipIdx_map_fst 0 l]
  exact map_congr_left fun p _ => if_neg not_mem_nil

theorem outcomes_eq_of_clear (hsorted : l.Pairwise fun a b => a.distance ≤ b.distance)
    (hids : (l.map Result.id).Nodup) (hestimated : Estimated exact l)
    (hover : ∀ r ∈ l, ∀ bound ∈ distanceOver, resultMaybeOver r bound = true)
    (hunder : ∀ r ∈ l, ∀ under ∈ distanceUnder, resultMaybeUnder r under = true)
    (hpos : min k l.length ≠ 0)
    (hclear : ∀ r ∈ l.take (min k l.length),
      thresholdAmbiguous distanceOver distanceUnder r = false) :
    Outcomes exact .boundary k distanceOver distanceUnder l =
      Outcomes exact .always k distanceOver distanceUnder l := by
  have hparts := take_append_drop (min k l.length) l
  have hids' : ((l.take (min k l.length) ++ l.drop (min k l.length)).map Result.id).Nodup :=
    hparts.symm ▸ hids
  have hestimated' : Estimated exact (l.take (min k l.length) ++ l.drop (min k l.length)) :=
    hparts.symm ▸ hestimated
  have hlimit : min k (l.take (min k l.length) ++ l.drop (min k l.length)).length =
      (l.take (min k l.length)).length := by
    rw [hparts, length_take]
    exact (min_eq_left (min_le_right _ _)).symm
  have hbounds : ∀ r ∈ l.take (min k l.length), ∀ distance, r.distance - r.errorBound ≤ distance →
      distance ≤ r.distance + r.errorBound → InBounds distanceOver distanceUnder distance := by
    intro r hr distance
    have hmem := mem_of_mem_take hr
    exact inBounds_of_clear (hover r hmem) (hunder r hmem) (hclear r hr)
  have hboundary := @rerank_boundary exact l distanceOver distanceUnder k _ rfl hpos hclear
  have hcut := firstChoices_cut hids' hestimated' hbounds hlimit
  rw [hparts] at hcut
  rw [outcomes_always hids, ← hcut]
  by_cases hnil : selectAutoRerankCandidates l k distanceOver distanceUnder = []
  · have happart : ∀ r ∈ l.take (min k l.length), ∀ r' ∈ l.drop (min k l.length),
        ¬ resultMaybeCloser r' r = true :=
      fun _ hr _ hr' => not_closer_of_nil rfl hpos hclear hnil hr hr'
    -- Nothing is reranked: the results are the ones before the cut, as they are.
    have hself : rerankBoundary exact (l.take (min k l.length)) (l.drop (min k l.length)) = l := by
      rw [← hboundary, hnil, rerank_nil]
    have honly : ∀ chosen ∈ firstChoices distanceOver distanceUnder k
        (rerankBoundary exact (l.take (min k l.length)) (l.drop (min k l.length))),
        chosen = ids (l.take (min k l.length)) :=
      fun _ => firstChoices_apart hids' hestimated' hbounds hlimit happart
    have htrimmed : trimmedIds distanceOver distanceUnder k l ∈
        firstChoices distanceOver distanceUnder k
          (rerankBoundary exact (l.take (min k l.length)) (l.drop (min k l.length))) := by
      rw [hself]
      exact trimmedIds_first hids (fun _ => keyOf_of_mem hids) hsorted
    rw [outcomes_of_nil hnil]
    ext chosen
    constructor
    · rintro rfl
      exact htrimmed
    · intro hchosen
      exact (honly chosen hchosen).trans (honly _ htrimmed).symm
  · refine outcomes_boundary hnil hboundary ?_
    rwa [rerankBoundary_ids]

theorem card_le_of_mem_outcomes {rerankPolicy : RerankPolicy} {chosen : Finset ℕ}
    (h : chosen ∈ Outcomes exact rerankPolicy k distanceOver distanceUnder l) :
    chosen.card ≤ k := by
  obtain ⟨sort, -, rfl⟩ := h
  refine (toFinset_card_le _).trans ?_
  unfold rerankAndTrim
  rw [length_map, length_take]
  exact min_le_left _ _

def trueDistance (exact : ℕ → Option ℚ) (id : ℕ) : ℚ := (exact id).getD 0

/-- The candidates whose true distances are within the bounds. -/
def trulyBounded (exact : ℕ → Option ℚ) (distanceOver distanceUnder : Option ℚ)
    (l : List Result) : Finset ℕ :=
  (ids l).filter fun id => InBounds distanceOver distanceUnder (trueDistance exact id)

/-- The choices of the `k` nearest candidates within the bounds, or of all of these. -/
def nearest (exact : ℕ → Option ℚ) (k : ℕ) (distanceOver distanceUnder : Option ℚ)
    (l : List Result) : Set (Finset ℕ) :=
  {chosen | FirstOf (fun a b => trueDistance exact a ≤ trueDistance exact b) k
    (trulyBounded exact distanceOver distanceUnder l) chosen}

theorem keyOf_eq_trueDistance (hids : (l.map Result.id).Nodup) (hestimated : Estimated exact l)
    {id : ℕ} (hid : id ∈ ids l) :
    keyOf (l.map (computeExactDistance exact)) id = trueDistance exact id := by
  obtain ⟨r, hr, rfl⟩ := mem_ids.mp hid
  obtain ⟨distance, hexact, -⟩ := hestimated r hr
  rw [keyOf_exact hids hr]
  simp [computeExactDistance, trueDistance, hexact]

theorem firstChoices_exact (hids : (l.map Result.id).Nodup) (hestimated : Estimated exact l) :
    firstChoices distanceOver distanceUnder k (l.map (computeExactDistance exact)) =
      nearest exact k distanceOver distanceUnder l := by
  have hids' : ((l.map (computeExactDistance exact)).map Result.id).Nodup :=
    (map_exact_ids exact l).symm ▸ hids
  have hkey := fun {id} => @keyOf_eq_trueDistance exact l hids hestimated id
  have hbounded : boundedIds distanceOver distanceUnder (l.map (computeExactDistance exact)) =
      trulyBounded exact distanceOver distanceUnder l := by
    ext id
    rw [mem_boundedIds hids', map_exact_ids, trulyBounded, Finset.mem_filter, ← mem_toFinset]
    exact and_congr_right fun hid => by rw [hkey hid]
  ext chosen
  unfold firstChoices nearest
  rw [Set.mem_ofPred_eq, Set.mem_ofPred_eq, hbounded]
  have hmem : ∀ {a}, a ∈ trulyBounded exact distanceOver distanceUnder l → a ∈ ids l :=
    fun ha => (Finset.mem_filter.mp ha).1
  constructor
  · intro h
    refine h.mono fun a ha b hb _ hle => ?_
    rwa [hkey (hmem (h.subset ha)), hkey (hmem hb)] at hle
  · intro h
    refine h.mono fun a ha b hb _ hle => ?_
    rwa [hkey (hmem (h.subset ha)), hkey (hmem hb)]

/-- Without ties there is one choice of the nearest. -/
theorem nearest_unique (hestimated : Estimated exact l)
    (hties : ∀ r ∈ l, ∀ r' ∈ l, exact r.id = exact r'.id → r = r') {chosen chosen' : Finset ℕ}
    (h : chosen ∈ nearest exact k distanceOver distanceUnder l)
    (h' : chosen' ∈ nearest exact k distanceOver distanceUnder l) : chosen = chosen' := by
  have hstrict : ∀ a ∈ ids l, ∀ b ∈ ids l, trueDistance exact a = trueDistance exact b →
      a = b := by
    intro a ha b hb heq
    obtain ⟨r, hr, rfl⟩ := mem_ids.mp ha
    obtain ⟨r', hr', rfl⟩ := mem_ids.mp hb
    obtain ⟨distance, hexact, -⟩ := hestimated r hr
    obtain ⟨distance', hexact', -⟩ := hestimated r' hr'
    have hsame : distance = distance' := by simpa [trueDistance, hexact, hexact'] using heq
    exact congrArg Result.id (hties r hr r' hr' (by rw [hexact, hexact', hsame]))
  have hlt : ∀ {c}, c ∈ nearest exact k distanceOver distanceUnder l →
      FirstOf (fun a b => trueDistance exact a < trueDistance exact b) k
        (trulyBounded exact distanceOver distanceUnder l) c := by
    intro c hc
    refine FirstOf.mono hc fun a ha b hb hout hle => lt_of_le_of_ne hle fun heq => hout ?_
    rwa [← hstrict a (Finset.mem_filter.mp (hc.subset ha)).1 b (Finset.mem_filter.mp hb).1 heq]
  exact FirstOf.unique (fun a b => lt_asymm) (hlt h) (hlt h')

/-- Reranking at the boundary ends in the same sets of at most `k` results as reranking all: however
ties are sorted, the nearest ones by true distance, and without ties exactly one set. -/
theorem boundary_rerank_sound (exact : ℕ → Option ℚ) (l : List Result) (k : ℕ)
    (distanceOver distanceUnder : Option ℚ)
    (hsorted : l.Pairwise fun a b => a.distance ≤ b.distance) (hids : (l.map Result.id).Nodup)
    (hestimated : Estimated exact l)
    (hover : ∀ r ∈ l, ∀ bound ∈ distanceOver, resultMaybeOver r bound = true)
    (hunder : ∀ r ∈ l, ∀ under ∈ distanceUnder, resultMaybeUnder r under = true) :
    Outcomes exact .boundary k distanceOver distanceUnder l =
        Outcomes exact .always k distanceOver distanceUnder l ∧
      Outcomes exact .always k distanceOver distanceUnder l =
        nearest exact k distanceOver distanceUnder l ∧
      (∀ chosen ∈ Outcomes exact .boundary k distanceOver distanceUnder l, chosen.card ≤ k) ∧
      ((∀ r ∈ l, ∀ r' ∈ l, exact r.id = exact r'.id → r = r') →
        ∃! chosen, chosen ∈ Outcomes exact .boundary k distanceOver distanceUnder l) := by
  have hsame : Outcomes exact .boundary k distanceOver distanceUnder l =
      Outcomes exact .always k distanceOver distanceUnder l := by
    by_cases hlimit : min k l.length = 0
    · exact outcomes_eq_of_limit hlimit
    by_cases hbad : ∃ r ∈ l.take (min k l.length),
        thresholdAmbiguous distanceOver distanceUnder r = true
    · obtain ⟨r, hr, hbad⟩ := hbad
      exact outcomes_eq_of_ambiguous hr hbad
    · refine outcomes_eq_of_clear hsorted hids hestimated hover hunder hlimit fun r hr => ?_
      rw [← Bool.not_eq_true]
      exact fun hr' => hbad ⟨r, hr, hr'⟩
  have hnearest : Outcomes exact .always k distanceOver distanceUnder l =
      nearest exact k distanceOver distanceUnder l :=
    (outcomes_always hids).trans (firstChoices_exact hids hestimated)
  refine ⟨hsame, hnearest, fun chosen => card_le_of_mem_outcomes, fun hties => ?_⟩
  obtain ⟨sort, hsort⟩ := exists_lawfulSort
  refine ⟨_, ⟨sort, hsort, rfl⟩, fun chosen hchosen => ?_⟩
  have hmem := fun {c} => (hsame.trans hnearest ▸ id :
    c ∈ Outcomes exact .boundary k distanceOver distanceUnder l →
      c ∈ nearest exact k distanceOver distanceUnder l)
  exact nearest_unique hestimated hties (hmem hchosen) (hmem ⟨sort, hsort, rfl⟩)

end Outcomes

/-- Three candidates, of which the second turns out to be closer than the first. -/
def threeCandidates : List Result := [⟨1, 2, 1, []⟩, ⟨2, 2, 1 / 2, []⟩, ⟨3, 5, 1, []⟩]

def threeDistances (id : ℕ) : Option ℚ :=
  if id = 1 then some (9 / 4) else if id = 2 then some (7 / 4) else some 5

theorem boundary_rerank_sound_three :
    Outcomes threeDistances .boundary 1 (some 0) (some 7) threeCandidates =
      nearest threeDistances 1 (some 0) (some 7) threeCandidates := by
  have h := boundary_rerank_sound threeDistances threeCandidates 1 (some 0) (some 7) ?_ ?_ ?_ ?_ ?_
  · exact h.1.trans h.2.1
  · decide
  · decide
  · intro r hr
    simp only [threeCandidates, List.mem_cons, List.not_mem_nil, or_false] at hr
    rcases hr with rfl | rfl | rfl
    · exact ⟨9 / 4, rfl, by norm_num [abs_le]⟩
    · exact ⟨7 / 4, rfl, by norm_num [abs_le]⟩
    · exact ⟨5, rfl, by norm_num [abs_le]⟩
  · decide +kernel
  · decide +kernel

end Antfly.Vector
