import Antfly.Vector.RerankTrim
import Mathlib.Tactic.Linarith

/-!
Of the candidates before the cut and those behind it, two that are not both reranked are in the
same order by estimated and by exact distances.  So the first `k` of the candidates within the
bounds are the same, whichever distances they are taken by.
-/

namespace Antfly.Vector

open LeastLoaded Boundary List

section Rerank

variable {exact : ℕ → Option ℚ} {l : List Result} {distanceOver distanceUnder : Option ℚ} {k : ℕ}

theorem computeExactDistance_id (exact : ℕ → Option ℚ) (r : Result) :
    (computeExactDistance exact r).id = r.id := by
  unfold computeExactDistance
  split <;> rfl

/-- Every true distance is within the bound of the estimated one. -/
def Estimated (exact : ℕ → Option ℚ) (l : List Result) : Prop :=
  ∀ r ∈ l, ∃ distance, exact r.id = some distance ∧ |distance - r.distance| ≤ r.errorBound

/-- Both distances of a result are within its error bound. -/
structure Within (r r' : Result) : Prop where
  low : r.distance - r.errorBound ≤ r'.distance
  high : r'.distance ≤ r.distance + r.errorBound

variable {r : Result} {limit : ℕ}

theorem Estimated.within (h : Estimated exact l) (hr : r ∈ l) :
    Within r (computeExactDistance exact r) ∧ Within r r := by
  obtain ⟨distance, hexact, hle⟩ := h r hr
  have hnonneg := (abs_nonneg _).trans hle
  obtain ⟨hlow, hhigh⟩ := abs_le.mp hle
  have hdistance : (computeExactDistance exact r).distance = distance := by
    unfold computeExactDistance
    rw [hexact]
  refine ⟨⟨?_, ?_⟩, ⟨?_, ?_⟩⟩
  · rw [hdistance]
    linarith
  · rw [hdistance]
    linarith
  · linarith
  · linarith

/-- The results before the cut at `limit`, reranked where one behind it may be closer, and those
behind it, reranked where they may be closer than one before it. -/
def rerankBoundary (exact : ℕ → Option ℚ) (near far : List Result) : List Result :=
  (near.map fun r =>
      if far.any fun r' => resultMaybeCloser r' r then computeExactDistance exact r else r) ++
    far.map fun r =>
      if near.any fun r' => resultMaybeCloser r r' then computeExactDistance exact r else r

theorem rerank_range (exact : ℕ → Option ℚ) (l : List Result) :
    rerank exact (List.range l.length) l = l.map (computeExactDistance exact) := by
  have hall : rerank exact (List.range l.length) l =
      l.zipIdx.map fun p => computeExactDistance exact p.1 := by
    refine map_congr_left fun p hp => if_pos ?_
    obtain ⟨i, r⟩ := p
    have hlt := snd_lt_of_mem_zipIdx hp
    exact mem_range.mpr (by simpa using hlt)
  rw [hall, ← zipIdx_map_fst 0 l, map_map, zipIdx_map_fst]
  rfl

theorem mem_filter_zipIdx {α : Type*} {l : List α} {f : α × ℕ → Bool} {p : α × ℕ}
    (hp : p ∈ l.zipIdx) : p.2 ∈ (l.zipIdx.filter f).map Prod.snd ↔ f p = true := by
  rw [mem_map]
  constructor
  · rintro ⟨q, hq, heq⟩
    obtain ⟨hq, hf⟩ := mem_filter.mp hq
    rw [mem_zipIdx_iff_getElem?] at hp hq
    rw [heq, hp] at hq
    have hsame : p = q := Prod.ext (Option.some.inj hq) heq.symm
    rwa [hsame]
  · exact fun hf => ⟨p, mem_filter.mpr ⟨hp, hf⟩, rfl⟩

theorem rerank_boundary (hlimit : min k l.length = limit) (hpos : limit ≠ 0)
    (hclear : ∀ r ∈ l.take limit, thresholdAmbiguous distanceOver distanceUnder r = false) :
    rerank exact (selectAutoRerankCandidates l k distanceOver distanceUnder) l =
      rerankBoundary exact (l.take limit) (l.drop limit) := by
  have hany : ¬ (l.take limit).any (thresholdAmbiguous distanceOver distanceUnder) = true := by
    rw [any_eq_true]
    rintro ⟨r, hr, hbad⟩
    exact Bool.false_ne_true ((hclear r hr).symm.trans hbad)
  have hlength : (l.take limit).length = limit := by
    rw [length_take]
    exact min_eq_left (hlimit ▸ min_le_right _ _)
  have hselect : rerank exact (selectAutoRerankCandidates l k distanceOver distanceUnder) l =
      l.zipIdx.map fun p =>
        if p.2 < limit then
          if (l.drop limit).any fun r => resultMaybeCloser r p.1 then
            computeExactDistance exact p.1 else p.1
        else
          if (l.take limit).any fun r => resultMaybeCloser p.1 r then
            computeExactDistance exact p.1 else p.1 := by
    refine map_congr_left fun p hp => ?_
    unfold selectAutoRerankCandidates
    dsimp only
    rw [hlimit, if_neg hpos, if_neg hany]
    simp only [mem_filter_zipIdx hp]
    split <;> rfl
  have hsplit : l.zipIdx = (l.take limit).zipIdx ++ (l.drop limit).zipIdx limit := by
    conv_lhs => rw [← take_append_drop limit l]
    rw [zipIdx_append, hlength, Nat.zero_add]
  rw [hselect, hsplit, map_append]
  unfold rerankBoundary
  congr 1
  · conv_rhs => rw [← zipIdx_map_fst 0 (l.take limit)]
    rw [map_map]
    refine map_congr_left fun p hp => if_pos ?_
    have hlt := snd_lt_of_mem_zipIdx hp
    omega
  · conv_rhs => rw [← zipIdx_map_fst limit (l.drop limit)]
    rw [map_map]
    refine map_congr_left fun p hp => if_neg ?_
    have hle := le_snd_of_mem_zipIdx hp
    omega

/-- Where nothing is to be reranked, no result behind the cut may be closer than one before it. -/
theorem not_closer_of_nil (hlimit : min k l.length = limit) (hpos : limit ≠ 0)
    (hclear : ∀ r ∈ l.take limit, thresholdAmbiguous distanceOver distanceUnder r = false)
    (hnil : selectAutoRerankCandidates l k distanceOver distanceUnder = []) {r' : Result}
    (hr : r ∈ l.take limit) (hr' : r' ∈ l.drop limit) :
    ¬ resultMaybeCloser r' r = true := by
  intro hcloser
  have hany : ¬ (l.take limit).any (thresholdAmbiguous distanceOver distanceUnder) = true := by
    rw [any_eq_true]
    rintro ⟨r, hr, hbad⟩
    exact Bool.false_ne_true ((hclear r hr).symm.trans hbad)
  unfold selectAutoRerankCandidates at hnil
  dsimp only at hnil
  rw [hlimit, if_neg hpos, if_neg hany] at hnil
  obtain ⟨i, hi, hget⟩ := mem_iff_getElem.mp hr
  rw [length_take] at hi
  rw [getElem_take] at hget
  have hmem : (r, i) ∈ l.zipIdx := by
    rw [mem_zipIdx_iff_getElem?]
    exact List.getElem?_eq_some_iff.mpr ⟨_, hget⟩
  refine absurd ?_ (eq_nil_iff_forall_not_mem.mp hnil i)
  refine (mem_filter_zipIdx hmem).mpr ?_
  dsimp only
  rw [if_pos (by omega)]
  exact any_eq_true.mpr ⟨r', hr', hcloser⟩

end Rerank

def ids (l : List Result) : Finset ℕ := (l.map Result.id).toFinset

section Cut

variable {exact : ℕ → Option ℚ} {near far : List Result} {distanceOver distanceUnder : Option ℚ}
  {k : ℕ}

variable {l : List Result} {r : Result}

theorem mem_ids {id : ℕ} : id ∈ ids l ↔ ∃ r ∈ l, r.id = id := by
  unfold ids
  rw [mem_toFinset, mem_map]

theorem map_exact_ids (exact : ℕ → Option ℚ) (l : List Result) :
    (l.map (computeExactDistance exact)).map Result.id = l.map Result.id := by
  rw [map_map]
  exact map_congr_left fun r _ => computeExactDistance_id exact r

theorem rerankBoundary_ids :
    (rerankBoundary exact near far).map Result.id = (near ++ far).map Result.id := by
  unfold rerankBoundary
  rw [map_append, map_append, map_map, map_map]
  congr 1
  all_goals
    refine map_congr_left fun r _ => ?_
    rw [Function.comp_apply, apply_ite Result.id, computeExactDistance_id, ite_self]

theorem keyOf_exact (hids : (l.map Result.id).Nodup) (hr : r ∈ l) :
    keyOf (l.map (computeExactDistance exact)) r.id = (computeExactDistance exact r).distance := by
  have hids' : ((l.map (computeExactDistance exact)).map Result.id).Nodup :=
    (map_exact_ids exact l).symm ▸ hids
  have hkey := keyOf_of_mem hids' (mem_map_of_mem hr)
  rwa [computeExactDistance_id] at hkey

theorem keyOf_boundary {p : Result → Bool} (hids : ((near ++ far).map Result.id).Nodup)
    (hr : (if p r then computeExactDistance exact r else r) ∈ rerankBoundary exact near far) :
    keyOf (rerankBoundary exact near far) r.id =
      if p r then (computeExactDistance exact r).distance else r.distance := by
  have hids' : ((rerankBoundary exact near far).map Result.id).Nodup :=
    rerankBoundary_ids.symm ▸ hids
  have hkey := keyOf_of_mem hids' hr
  rwa [apply_ite Result.id, apply_ite Result.distance, computeExactDistance_id, ite_self] at hkey

theorem keyOf_near (hids : ((near ++ far).map Result.id).Nodup) (hr : r ∈ near) :
    keyOf (rerankBoundary exact near far) r.id =
      if far.any fun r' => resultMaybeCloser r' r then (computeExactDistance exact r).distance
      else r.distance :=
  keyOf_boundary (p := fun r => far.any fun r' => resultMaybeCloser r' r) hids
    (mem_append_left _ (mem_map_of_mem hr))

theorem keyOf_far (hids : ((near ++ far).map Result.id).Nodup) (hr : r ∈ far) :
    keyOf (rerankBoundary exact near far) r.id =
      if near.any fun r' => resultMaybeCloser r r' then (computeExactDistance exact r).distance
      else r.distance :=
  keyOf_boundary (p := fun r => near.any fun r' => resultMaybeCloser r r') hids
    (mem_append_right _ (mem_map_of_mem hr))

theorem keyOf_boundary_within (hids : ((near ++ far).map Result.id).Nodup)
    (hestimated : Estimated exact (near ++ far)) (hr : r ∈ near ++ far) :
    r.distance - r.errorBound ≤ keyOf (rerankBoundary exact near far) r.id ∧
      keyOf (rerankBoundary exact near far) r.id ≤ r.distance + r.errorBound := by
  obtain ⟨hexact, hself⟩ := hestimated.within hr
  rcases mem_append.mp hr with hr | hr
  · rw [keyOf_near hids hr]
    split
    · exact ⟨hexact.low, hexact.high⟩
    · exact ⟨hself.low, hself.high⟩
  · rw [keyOf_far hids hr]
    split
    · exact ⟨hexact.low, hexact.high⟩
    · exact ⟨hself.low, hself.high⟩

theorem keyOf_exact_within (hids : (l.map Result.id).Nodup) (hestimated : Estimated exact l)
    (hr : r ∈ l) :
    r.distance - r.errorBound ≤ keyOf (l.map (computeExactDistance exact)) r.id ∧
      keyOf (l.map (computeExactDistance exact)) r.id ≤ r.distance + r.errorBound := by
  obtain ⟨hexact, -⟩ := hestimated.within hr
  rw [keyOf_exact hids hr]
  exact ⟨hexact.low, hexact.high⟩

/-- A result before the cut that none behind it may be closer than is before them by every key. -/
theorem keyOf_lt_of_not_closer (hids : ((near ++ far).map Result.id).Nodup)
    (hestimated : Estimated exact (near ++ far)) {r' : Result} (hr : r ∈ near) (hr' : r' ∈ far)
    (hcloser : ¬ resultMaybeCloser r' r = true) :
    keyOf (rerankBoundary exact near far) r.id < keyOf (rerankBoundary exact near far) r'.id ∧
      keyOf ((near ++ far).map (computeExactDistance exact)) r.id <
        keyOf ((near ++ far).map (computeExactDistance exact)) r'.id := by
  have happart : r.distance + r.errorBound < r'.distance - r'.errorBound := by
    unfold resultMaybeCloser at hcloser
    rwa [decide_eq_true_eq, not_le] at hcloser
  have hnear := keyOf_boundary_within hids hestimated (mem_append_left far hr)
  have hfar := keyOf_boundary_within hids hestimated (mem_append_right near hr')
  have hnear' := keyOf_exact_within hids hestimated (mem_append_left far hr)
  have hfar' := keyOf_exact_within hids hestimated (mem_append_right near hr')
  exact ⟨hnear.2.trans_lt (happart.trans_le hfar.1), hnear'.2.trans_lt (happart.trans_le hfar'.1)⟩

/-- Two results across the cut have both their exact distances, or are in order by all. -/
theorem separates_cut (hids : ((near ++ far).map Result.id).Nodup)
    (hestimated : Estimated exact (near ++ far)) :
    Separates (keyOf (rerankBoundary exact near far))
      (keyOf ((near ++ far).map (computeExactDistance exact))) (ids near) (ids far) := by
  intro n hn f hf
  obtain ⟨r, hr, rfl⟩ := mem_ids.mp hn
  obtain ⟨r', hr', rfl⟩ := mem_ids.mp hf
  by_cases hcloser : resultMaybeCloser r' r = true
  · right
    rw [keyOf_near hids hr, keyOf_far hids hr', keyOf_exact hids (mem_append_left _ hr),
      keyOf_exact hids (mem_append_right _ hr'),
      if_pos (any_eq_true.mpr ⟨r', hr', hcloser⟩),
      if_pos (any_eq_true.mpr ⟨r, hr, hcloser⟩)]
    exact ⟨rfl, rfl⟩
  · exact Or.inl (keyOf_lt_of_not_closer hids hestimated hr hr' hcloser)

/-- A result that may be within the bounds and is not in doubt is within them by every distance
that its error bound allows. -/
theorem inBounds_of_clear {distance : ℚ}
    (hover : ∀ bound ∈ distanceOver, resultMaybeOver r bound = true)
    (hunder : ∀ under ∈ distanceUnder, resultMaybeUnder r under = true)
    (hclear : thresholdAmbiguous distanceOver distanceUnder r = false)
    (hlow : r.distance - r.errorBound ≤ distance) (hhigh : distance ≤ r.distance + r.errorBound) :
    InBounds distanceOver distanceUnder distance := by
  obtain ⟨hclearOver, hclearUnder⟩ := Bool.or_eq_false_iff.mp hclear
  constructor
  · intro bound hmem
    rw [Option.mem_def] at hmem
    subst hmem
    have hdefinitely : resultDefinitelyOver r bound = true := by
      simpa [hover bound rfl] using hclearOver
    exact (of_decide_eq_true hdefinitely).trans_le hlow
  · intro under hmem
    rw [Option.mem_def] at hmem
    subst hmem
    have hdefinitely : resultDefinitelyUnder r under = true := by
      simpa [hunder under rfl] using hclearUnder
    exact hhigh.trans_lt (of_decide_eq_true hdefinitely)

end Cut

end Antfly.Vector
