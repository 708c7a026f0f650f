import Antfly.Lib.Fallible
import Antfly.Sparse.Search
import Mathlib.Tactic.Ring

/-!
Both searches extract their hits from a map of scores.  On a regular query the two maps are one: a
term without metadata has no postings to add, and collected weights add up to the score that is kept
directly.  What is extracted is then the best of all matching documents, cut down to the allowed
ones afterwards.
-/

namespace Antfly.Sparse

open List OrdMap

variable {d k : ℕ} {c : Content} {query : SparseVector} {t : UInt32 × ℚ} {m : OrdMap ℕ DocTerms}
variable {score : ℕ → ℚ} {P : ℕ → Prop} {docs : List ℕ} {filterIDs : List Bytes}

theorem weightSum_of_notMem {ps : List (ℕ × ℚ)} (hd : d ∉ ps.map Prod.fst) :
    weightSum ps d = 0 := by
  have hfilter : ps.filter (fun p => p.1 = d) = [] := by
    rw [filter_eq_nil_iff]
    intro p hp heq
    exact hd (mem_map.mpr ⟨p, hp, of_decide_eq_true heq⟩)
  simp [weightSum, hfilter]

theorem get?_foldl_addScore (q : ℚ) (ps : List (ℕ × ℚ)) (m : OrdMap ℕ ℚ) (d : ℕ) :
    (ps.foldl (addScore q) m).get? d =
      if d ∈ ps.map Prod.fst then some ((m.get? d).getD 0 + q * weightSum ps d)
      else m.get? d := by
  induction ps generalizing m with
  | nil => rfl
  | cons p ps ih =>
    rw [foldl_cons, ih, addScore, get?_insert, map_cons]
    by_cases hd : d = p.1
    · subst hd
      have hsum : weightSum (p :: ps) p.1 = p.2 + weightSum ps p.1 := by simp [weightSum]
      rw [hsum]
      by_cases hmem : p.1 ∈ ps.map Prod.fst
      · simp only [hmem, if_true, mem_cons, true_or, Option.getD_some]
        congr 1
        ring
      · simp [hmem, weightSum_of_notMem hmem]
    · have hsum : weightSum (p :: ps) d = weightSum ps d := by simp [weightSum, Ne.symm hd]
      have hmem : d ∈ p.1 :: ps.map Prod.fst ↔ d ∈ ps.map Prod.fst := by simp [hd]
      simp only [hd, hsum, hmem, if_false]

theorem matching_iff :
    Matching c query d ↔ d ∈ query.flatMap fun t => (c.postings t.1).map Prod.fst := by
  rw [mem_flatMap]
  rfl

theorem get?_foldl_scoreTerm (c : Content) (ts : SparseVector) (m : OrdMap ℕ ℚ) (d : ℕ) :
    (ts.foldl (scoreTerm c) m).get? d =
      if d ∈ ts.flatMap (fun t => (c.postings t.1).map Prod.fst) then
        some ((m.get? d).getD 0 + dotProduct c ts d)
      else m.get? d := by
  induction ts generalizing m with
  | nil => rfl
  | cons t ts ih =>
    simp only [foldl_cons, ih, scoreTerm, get?_foldl_addScore, flatMap_cons,
      mem_append]
    have hsum : dotProduct c (t :: ts) d =
        t.2 * weightSum (c.postings t.1) d + dotProduct c ts d := by simp [dotProduct]
    rw [hsum]
    by_cases hhere : d ∈ (c.postings t.1).map Prod.fst
    · simp only [hhere, if_true, true_or, Option.getD_some]
      by_cases hlater : d ∈ ts.flatMap fun t => (c.postings t.1).map Prod.fst
      · simp only [hlater, if_true]
        congr 1
        ring
      · have hzero : dotProduct c ts d = 0 := by
          have hall : ∀ t ∈ ts, d ∉ (c.postings t.1).map Prod.fst := by
            intro t ht hmem
            exact hlater (mem_flatMap.mpr ⟨t, ht, hmem⟩)
          unfold dotProduct
          refine sum_eq_zero ?_
          intro x hx
          obtain ⟨t, ht, rfl⟩ := mem_map.mp hx
          rw [weightSum_of_notMem (hall t ht), mul_zero]
        simp [hlater, hzero]
    · simp only [hhere, weightSum_of_notMem hhere, if_false, false_or, mul_zero, zero_add]

/-- The score map a search works with: the dot product of every matching document. -/
def scoresOf (c : Content) (query : SparseVector) : OrdMap ℕ ℚ :=
  query.foldl (scoreTerm c) .empty

theorem get?_scoresOf (c : Content) (query : SparseVector) (d : ℕ) :
    (scoresOf c query).get? d =
      if d ∈ query.flatMap (fun t => (c.postings t.1).map Prod.fst) then
        some (dotProduct c query d)
      else none := by
  rw [scoresOf, get?_foldl_scoreTerm, get?_empty, Option.getD_none, zero_add]

theorem scoreTerm_of_postings_eq_nil (ht : c.postings t.1 = []) (m : OrdMap ℕ ℚ) :
    scoreTerm c m t = m := by
  rw [scoreTerm, ht]
  rfl

theorem foldl_listed {ts : SparseVector}
    (hlisted : ∀ t ∈ ts, c.postings t.1 ≠ [] → (c.termMeta t.1).isSome) (m : OrdMap ℕ ℚ) :
    (ts.filter fun t => (c.termMeta t.1).isSome).foldl (scoreTerm c) m =
      ts.foldl (scoreTerm c) m := by
  induction ts generalizing m with
  | nil => rfl
  | cons t ts ih =>
    have hrest := ih fun t' ht' => hlisted t' (mem_cons_of_mem t ht')
    rw [foldl_cons]
    by_cases hmeta : (c.termMeta t.1).isSome
    · rw [filter_cons_of_pos (by simpa using hmeta), foldl_cons]
      exact hrest _
    · have hempty : c.postings t.1 = [] := by
        by_contra hne
        exact hmeta (hlisted t mem_cons_self hne)
      rw [filter_cons_of_neg (by simpa using hmeta), scoreTerm_of_postings_eq_nil hempty]
      exact hrest m

def DocTerms.value (dt : DocTerms) : ℚ := (List.zipWith (· * ·) dt.queryWeights dt.docWeights).sum

/-- Every document has as many weights of the query as of its own. -/
def Balanced (m : OrdMap ℕ DocTerms) : Prop :=
  ∀ d dt, m.get? d = some dt → dt.queryWeights.length = dt.docWeights.length

theorem foldl_add_mul (l : List (ℚ × ℚ)) (x : ℚ) :
    l.foldl (fun score w => score + w.1 * w.2) x = x + (l.map fun w => w.1 * w.2).sum := by
  induction l generalizing x with
  | nil => simp
  | cons w l ih =>
    rw [foldl_cons, ih, map_cons, sum_cons]
    ring

theorem DocTerms.score_eq (vec : VecDot) {dt : DocTerms}
    (hlength : dt.queryWeights.length = dt.docWeights.length) : dt.score vec = dt.value := by
  unfold DocTerms.score DocTerms.value
  split
  · exact vec.dot_eq _ _ hlength
  · rw [foldl_add_mul, zero_add, map_zip_eq_zipWith]
    rfl

theorem balanced_addDocTerm (hm : Balanced m) (q : ℚ) (p : ℕ × ℚ) :
    Balanced (addDocTerm q m p) := by
  intro d dt hget
  rw [addDocTerm, get?_insert] at hget
  split at hget
  · cases hget
    cases hold : m.get? p.1 with
    | none => simp
    | some old => simpa using hm p.1 old hold
  · exact hm d dt hget

theorem value_addDocTerm (hm : Balanced m) (q : ℚ) (p : ℕ × ℚ) :
    (addDocTerm q m p).map (fun _ dt => dt.value) =
      addScore q (m.map fun _ dt => dt.value) p := by
  apply ext_get?
  intro d
  rw [get?_map, addDocTerm, addScore, get?_insert, get?_insert,
    get?_map, get?_map]
  by_cases hd : d = p.1
  · rw [if_pos hd, if_pos hd]
    cases hold : m.get? p.1 with
    | none => simp [DocTerms.value]
    | some old =>
      have hlength := hm p.1 old hold
      simp [DocTerms.value, zipWith_append hlength]
  · rw [if_neg hd, if_neg hd]

theorem value_foldl_addDocTerm (q : ℚ) (ps : List (ℕ × ℚ)) (hm : Balanced m) :
    Balanced (ps.foldl (addDocTerm q) m) ∧
      (ps.foldl (addDocTerm q) m).map (fun _ dt => dt.value) =
        ps.foldl (addScore q) (m.map fun _ dt => dt.value) := by
  induction ps generalizing m with
  | nil => exact ⟨hm, rfl⟩
  | cons p ps ih =>
    rw [foldl_cons, foldl_cons, ← value_addDocTerm hm]
    exact ih (balanced_addDocTerm hm q p)

theorem queryWeightMap_eq (hsingle : ∀ t ∈ query, ∀ t' ∈ query, t.1 = t'.1 → t.2 = t'.2)
    (ht : t ∈ query) :
    queryWeightMap query t.1 = t.2 := by
  have hmem : t ∈ query.filter fun t' => t'.1 = t.1 := by simp [ht]
  have hne := ne_nil_of_mem hmem
  have hlast := getLast_mem hne
  rw [mem_filter] at hlast
  have heq : ((query.filter fun t' => t'.1 = t.1).getLast hne).1 = t.1 := of_decide_eq_true hlast.2
  rw [queryWeightMap, getLast?_eq_some_getLast hne]
  exact hsingle _ hlast.1 t ht heq

theorem value_foldl_collectTerm (c : Content)
    (hsingle : ∀ t ∈ query, ∀ t' ∈ query, t.1 = t'.1 → t.2 = t'.2) (ts : SparseVector)
    (hts : ∀ t ∈ ts, t ∈ query) (hm : Balanced m) :
    Balanced (ts.foldl (collectTerm c query) m) ∧
      (ts.foldl (collectTerm c query) m).map (fun _ dt => dt.value) =
        ts.foldl (scoreTerm c) (m.map fun _ dt => dt.value) := by
  induction ts generalizing m with
  | nil => exact ⟨hm, rfl⟩
  | cons t ts ih =>
    have hweight := queryWeightMap_eq hsingle (hts t mem_cons_self)
    obtain ⟨hbalanced, hvalue⟩ := value_foldl_addDocTerm t.2 (c.postings t.1) hm
    rw [foldl_cons, foldl_cons, collectTerm, hweight, scoreTerm, ← hvalue]
    exact ih (fun t' ht' => hts t' (mem_cons_of_mem t ht')) hbalanced

theorem simdScores_eq (vec : VecDot) (c : Content)
    (hsingle : ∀ t ∈ query, ∀ t' ∈ query, t.1 = t'.1 → t.2 = t'.2) :
    (query.foldl (collectTerm c query) .empty).map (fun _ dt => dt.score vec) =
      scoresOf c query := by
  have hempty : Balanced .empty := by
    intro d dt hget
    simp at hget
  obtain ⟨hbalanced, hvalue⟩ := value_foldl_collectTerm c hsingle query (fun _ ht => ht) hempty
  have hmap : (query.foldl (collectTerm c query) .empty).map (fun _ dt => dt.score vec) =
      (query.foldl (collectTerm c query) .empty).map fun _ dt => dt.value := by
    apply ext_get?
    intro d
    rw [get?_map, get?_map]
    cases hget : (query.foldl (collectTerm c query) .empty).get? d with
    | none => rfl
    | some dt => exact congrArg some (DocTerms.score_eq vec (hbalanced d dt hget))
  rw [hmap, hvalue]
  rfl

/-- A document number with its score. -/
def scored (score : ℕ → ℚ) (d : ℕ) : ℕ × ℚ := (d, score d)

theorem weakOrder_scoreLess : BinaryHeap.WeakOrder scoreLess where
  asymm a b hless := by
    have hlt : a.2 < b.2 := of_decide_eq_true hless
    exact decide_eq_false hlt.not_gt
  trans a b c hab hbc := by
    have hba : a.2 ≤ b.2 := le_of_not_gt (of_decide_eq_false hab)
    have hcb : b.2 ≤ c.2 := le_of_not_gt (of_decide_eq_false hbc)
    exact decide_eq_false (hba.trans hcb).not_gt

theorem eq_map_scored {entries : List (ℕ × ℚ)} (h : ∀ e ∈ entries, e.2 = score e.1) :
    entries = (entries.map Prod.fst).map (scored score) := by
  rw [map_map]
  have hid : entries.map (scored score ∘ Prod.fst) = entries.map id := by
    apply map_congr_left
    intro e he
    exact Prod.ext rfl (h e he).symm
  rw [hid, map_id]

/-- The documents kept of a list without repetitions are its best, by non-increasing score. -/
theorem bestOf_scored (score : ℕ → ℚ) (k : ℕ) (hnodup : docs.Nodup) (hP : ∀ d, d ∈ docs ↔ P d) :
    ∃ kept, BinaryHeap.bestOf scoreLess k (docs.map (scored score)) = kept.map (scored score) ∧
      Best P score k kept ∧ kept.Pairwise fun d e => score e ≤ score d := by
  obtain ⟨dropped, hkeeps, hperm, hpairs⟩ :=
    BinaryHeap.bestOf_spec weakOrder_scoreLess k (docs.map (scored score))
  obtain ⟨r, hr⟩ : ∃ r, r = BinaryHeap.bestOf scoreLess k (docs.map (scored score)) := ⟨_, rfl⟩
  rw [← hr] at hkeeps hperm hpairs ⊢
  have hfirst : (docs.map (scored score)).map Prod.fst = docs := by
    rw [map_map]
    exact map_id docs
  have hscore : ∀ e ∈ r ++ dropped, e.2 = score e.1 := by
    intro e he
    obtain ⟨d, -, rfl⟩ := mem_map.mp (hperm.mem_iff.mp he)
    rfl
  have hdocs : (r.map Prod.fst ++ dropped.map Prod.fst).Perm docs := by
    have hmapped := hperm.map Prod.fst
    rwa [map_append, hfirst] at hmapped
  have hnodup' := hdocs.nodup_iff.mpr hnodup
  rw [nodup_append] at hnodup'
  have hkept (e : ℕ × ℚ) (he : e ∈ r) : e.2 = score e.1 :=
    hscore e (mem_append_left dropped he)
  refine ⟨r.map Prod.fst, eq_map_scored hkept, ⟨hnodup'.1, ?_, ?_, ?_⟩, ?_⟩
  · intro d hd
    exact (hP d).mp (hdocs.mem_iff.mp (mem_append_left _ hd))
  · rw [length_map]
    exact hkeeps.fits
  · intro d hd hnot
    have hmem := hdocs.mem_iff.mpr ((hP d).mpr hd)
    have hdropped := (mem_append.mp hmem).resolve_left hnot
    obtain ⟨b, hb, rfl⟩ := mem_map.mp hdropped
    rw [length_map]
    refine ⟨hkeeps.full (ne_nil_of_mem hb), ?_⟩
    intro e he
    obtain ⟨a, ha, rfl⟩ := mem_map.mp he
    have hnotLess : ¬a.2 < b.2 := of_decide_eq_false (hkeeps.best a ha b hb)
    rw [← hkept a ha, ← hscore b (mem_append_right r hb)]
    exact le_of_not_gt hnotLess
  · rw [pairwise_map]
    refine hpairs.imp_of_mem ?_
    intro a b ha hb hless
    rw [← hkept a ha, ← hkept b hb]
    exact le_of_not_gt (of_decide_eq_false hless)

theorem bestOf_scored_append {best others : List ℕ} (hbest : Best P score k best)
    (hothers : ∀ d ∈ others, P d ∧ d ∉ best) :
    (BinaryHeap.bestOf scoreLess k ((best ++ others).map (scored score))).Perm
      (best.map (scored score)) := by
  rw [map_append]
  refine BinaryHeap.bestOf_append weakOrder_scoreLess ⟨?_, ?_, ?_⟩
  · rw [length_map]
    exact hbest.fits
  · intro hne
    rw [length_map]
    have hother : others ≠ [] := by
      intro hnil
      exact hne (by rw [hnil]; rfl)
    obtain ⟨d, hd⟩ := exists_mem_of_ne_nil others hother
    exact (hbest.others d (hothers d hd).1 (hothers d hd).2).1
  · intro a ha b hb
    obtain ⟨e, he, rfl⟩ := mem_map.mp ha
    obtain ⟨d, hd, rfl⟩ := mem_map.mp hb
    have hle := (hbest.others d (hothers d hd).1 (hothers d hd).2).2 e he
    exact decide_eq_false hle.not_gt

/-- The hits are found when every entry has an id, and are those of the allowed documents. -/
theorem collectHits_eq_ok_iff {c : Content} {filterIDs : List Bytes} {score : ℕ → ℚ}
    {docs : List ℕ} {hits : List SearchHit} :
    collectHits c filterIDs (docs.map (scored score)) = .ok hits ↔
      (∀ d ∈ docs, (c.reverse d).isSome) ∧
        hits = hitsOf c score (docs.filter (permits c filterIDs)) := by
  induction docs generalizing hits with
  | nil =>
    constructor
    · intro hfound
      cases hfound
      exact ⟨by simp, rfl⟩
    · rintro ⟨-, rfl⟩
      rfl
  | cons d docs ih =>
    rw [map_cons, scored, collectHits, Fallible.bind_eq_ok]
    cases hid : c.reverse d with
    | none => simp [lookupDocID, hid]
    | some docID =>
      have hlookup (x : Bytes) : lookupDocID c d = .ok x ↔ docID = x := by
        simp [lookupDocID, hid]
      simp only [hlookup, exists_eq_left', Fallible.bind_eq_ok, ih, mem_cons,
        forall_eq_or_imp, hid, Option.isSome_some, true_and]
      by_cases hskip : filterIDs ≠ [] ∧ docID ∉ filterIDs
      · have hpermits : permits c filterIDs d = false := by simpa [permits, hid] using hskip
        rw [filter_cons_of_neg (by simp [hpermits])]
        constructor
        · rintro ⟨found, ⟨hall, rfl⟩, hhits⟩
          rw [if_pos hskip] at hhits
          cases hhits
          exact ⟨hall, rfl⟩
        · rintro ⟨hall, rfl⟩
          exact ⟨_, ⟨hall, rfl⟩, if_pos hskip⟩
      · have hpermits : permits c filterIDs d = true := by
          simp only [permits, hid, decide_eq_true_eq]
          by_contra hnot
          exact hskip (not_or.mp hnot)
        have hfirst : hitsOf c score (d :: docs.filter (permits c filterIDs)) =
            ⟨docID, score d⟩ :: hitsOf c score (docs.filter (permits c filterIDs)) := by
          simp [hitsOf, hid]
        rw [filter_cons_of_pos hpermits, hfirst]
        constructor
        · rintro ⟨found, ⟨hall, rfl⟩, hhits⟩
          rw [if_neg hskip] at hhits
          cases hhits
          exact ⟨hall, rfl⟩
        · rintro ⟨hall, rfl⟩
          exact ⟨_, ⟨hall, rfl⟩, if_neg hskip⟩

/-- What both searches keep of a regular query's documents, visited in the given order. -/
def keptEntries (c : Content) (order : MapOrder) (query : SparseVector) (k : ℕ) : List (ℕ × ℚ) :=
  BinaryHeap.bestOf scoreLess k
    ((order.visit ((scoresOf c query).entries.map Prod.fst)).map (scored (dotProduct c query)))

theorem extractTopK_scoresOf (c : Content) (order : MapOrder) (query : SparseVector) (k : ℕ)
    (filterIDs : List Bytes) (hits : List SearchHit) :
    (∃ result, extractTopK c order (scoresOf c query) k filterIDs = .ok result ∧
        result.hits = hits) ↔ collectHits c filterIDs (keptEntries c order query k) = .ok hits := by
  have hvisited : (order.visit ((scoresOf c query).entries.map Prod.fst)).map
      (fun d => (d, ((scoresOf c query).get? d).getD 0)) =
      (order.visit ((scoresOf c query).entries.map Prod.fst)).map (scored (dotProduct c query)) := by
    apply map_congr_left
    intro d hd
    have hmem := (order.perm _).mem_iff.mp hd
    rw [mem_keys_iff, get?_scoresOf] at hmem
    rw [scored, get?_scoresOf]
    split at hmem
    · rename_i hmatch
      rw [if_pos hmatch, Option.getD_some]
    · contradiction
  simp only [extractTopK, hvisited, Fallible.bind_eq_ok]
  constructor
  · rintro ⟨result, ⟨found, hfound, hresult⟩, rfl⟩
    cases hresult
    exact hfound
  · intro hfound
    exact ⟨_, ⟨hits, hfound, rfl⟩, rfl⟩

theorem keptEntries_eq_nil (h : k = 0 ∨ scoresOf c query = .empty) (order : MapOrder) :
    keptEntries c order query k = [] := by
  obtain ⟨dropped, hkeeps, hperm, -⟩ := BinaryHeap.bestOf_spec weakOrder_scoreLess k
    ((order.visit ((scoresOf c query).entries.map Prod.fst)).map (scored (dotProduct c query)))
  have hfits := hkeeps.fits
  have hlength := hperm.length_eq
  rw [length_append, length_map, (order.perm _).length_eq, length_map] at hlength
  apply eq_nil_of_length_eq_zero
  unfold keptEntries
  rcases h with rfl | hempty
  · omega
  · have hzero : (scoresOf c query).entries.length = 0 := by rw [hempty]; rfl
    omega

theorem nil_hits_iff {order : MapOrder} (h : k = 0 ∨ scoresOf c query = .empty)
    (filterIDs : List Bytes) (status : Option SearchStatus) (hits : List SearchHit) :
    (∃ result, (Except.ok ⟨[], 0, status⟩ : Except SearchError SearchResult) = .ok result ∧
        result.hits = hits) ↔ collectHits c filterIDs (keptEntries c order query k) = .ok hits := by
  rw [keptEntries_eq_nil h]
  constructor
  · rintro ⟨result, hresult, rfl⟩
    cases hresult
    rfl
  · intro hfound
    cases hfound
    exact ⟨_, rfl, rfl⟩

theorem search_hits_iff {k : ℤ} (h : 0 < k → Regular c query) (order : MapOrder)
    (filterIDs : List Bytes) (hits : List SearchHit) :
    (∃ result, search c order query k filterIDs = .ok result ∧ result.hits = hits) ↔
      collectHits c filterIDs (keptEntries c order query k.toNat) = .ok hits := by
  unfold search
  split
  · exact nil_hits_iff (.inl (by omega)) filterIDs none hits
  rename_i hk
  have hlisted := foldl_listed (h (by omega)).listed .empty
  split
  · rename_i hquery
    subst hquery
    exact nil_hits_iff (.inr rfl) filterIDs none hits
  simp only
  split
  · rename_i hterms
    rw [hterms] at hlisted
    exact nil_hits_iff (.inr hlisted.symm) filterIDs (some ⟨0, 1⟩) hits
  · rw [hlisted]
    exact extractTopK_scoresOf c order query k.toNat filterIDs hits

theorem searchSIMD_hits_iff {k : ℤ} (h : 0 < k → Regular c query) (vec : VecDot)
    (order : MapOrder) (filterIDs : List Bytes) (hits : List SearchHit) :
    (∃ result, searchSIMD vec c order query k filterIDs = .ok result ∧ result.hits = hits) ↔
      collectHits c filterIDs (keptEntries c order query k.toNat) = .ok hits := by
  unfold searchSIMD
  split
  · rename_i hearly
    refine nil_hits_iff ?_ filterIDs none hits
    rcases hearly with hk | hquery
    · exact .inl (by omega)
    · exact .inr (by rw [hquery]; rfl)
  · rename_i hlate
    simp only [simdScores_eq vec c (h (by omega)).single]
    exact extractTopK_scoresOf c order query k.toNat filterIDs hits

theorem searchCorrect_iff {k : ℤ} (h : 0 < k → Regular c query) (filterIDs : List Bytes) :
    SearchCorrect c query k filterIDs ↔ ∀ order order', ∃ hits hits',
      collectHits c filterIDs (keptEntries c order query k.toNat) = .ok hits ∧
        TopK c query k.toNat filterIDs hits ∧
      collectHits c filterIDs (keptEntries c order' query k.toNat) = .ok hits' ∧
        hits'.Perm hits := by
  constructor
  · intro hcorrect order order'
    let vec : VecDot := ⟨fun a b => (List.zipWith (· * ·) a b).sum, fun _ _ _ => rfl⟩
    obtain ⟨result, simd, hsearch, htop, hsimd, hsame⟩ := hcorrect vec order order'
    exact ⟨result.hits, simd.hits, (search_hits_iff h order filterIDs _).mp ⟨result, hsearch, rfl⟩,
      htop, (searchSIMD_hits_iff h vec order' filterIDs _).mp ⟨simd, hsimd, rfl⟩, hsame⟩
  · intro hkept vec order order'
    obtain ⟨hits, hits', hfound, htop, hfound', hsame⟩ := hkept order order'
    obtain ⟨result, hsearch, rfl⟩ := (search_hits_iff h order filterIDs hits).mpr hfound
    obtain ⟨simd, hsimd, rfl⟩ := (searchSIMD_hits_iff h vec order' filterIDs hits').mpr hfound'
    exact ⟨result, simd, hsearch, htop, hsimd, hsame⟩

theorem mem_keys_scoresOf : d ∈ (scoresOf c query).entries.map Prod.fst ↔ Matching c query d := by
  rw [mem_keys_iff, get?_scoresOf, matching_iff]
  simp

theorem nodup_keys_scoresOf (c : Content) (query : SparseVector) :
    ((scoresOf c query).entries.map Prod.fst).Nodup := by
  unfold List.Nodup
  rw [pairwise_map]
  exact (scoresOf c query).sorted.imp fun hlt => hlt.ne

theorem keptEntries_best (c : Content) (order : MapOrder) (query : SparseVector) (k : ℕ) :
    ∃ kept, keptEntries c order query k = kept.map (scored (dotProduct c query)) ∧
      Best (Matching c query) (dotProduct c query) k kept ∧
      kept.Pairwise fun d e => dotProduct c query e ≤ dotProduct c query d := by
  have hperm := order.perm ((scoresOf c query).entries.map Prod.fst)
  refine bestOf_scored (dotProduct c query) k (hperm.nodup_iff.mpr (nodup_keys_scoresOf c query)) ?_
  intro d
  rw [hperm.mem_iff, mem_keys_scoresOf]

theorem exists_order_keeping (hbest : Best (Matching c query) (dotProduct c query) k docs) :
    ∃ order, (keptEntries c order query k).Perm (docs.map (scored (dotProduct c query))) := by
  obtain ⟨keys, hkeys⟩ : ∃ keys, keys = (scoresOf c query).entries.map Prod.fst := ⟨_, rfl⟩
  obtain ⟨others, hothers⟩ : ∃ others, others = keys.filter fun d => d ∉ docs := ⟨_, rfl⟩
  have hmem (d : ℕ) : d ∈ others ↔ Matching c query d ∧ d ∉ docs := by
    rw [hothers, mem_filter, hkeys, mem_keys_scoresOf, decide_eq_true_eq]
  have hsame : (docs ++ others).Perm keys := by
    have hkeysNodup : keys.Nodup := hkeys ▸ nodup_keys_scoresOf c query
    refine (perm_ext_iff_of_nodup ?_ hkeysNodup).mpr ?_
    · rw [nodup_append]
      refine ⟨hbest.nodup, hothers ▸ hkeysNodup.filter _, ?_⟩
      rintro d hd e he rfl
      exact ((hmem d).mp he).2 hd
    · intro d
      rw [mem_append, hmem, hkeys, mem_keys_scoresOf]
      constructor
      · rintro (hd | hd)
        · exact hbest.holds d hd
        · exact hd.1
      · intro hd
        by_cases hin : d ∈ docs
        · exact .inl hin
        · exact .inr ⟨hd, hin⟩
  refine ⟨⟨fun l => if l.Perm (docs ++ others) then docs ++ others else l, ?_⟩, ?_⟩
  · intro l
    split
    · rename_i hperm
      exact hperm.symm
    · exact List.Perm.refl l
  · simp only [keptEntries, ← hkeys, if_pos hsame.symm]
    exact bestOf_scored_append hbest fun d hd => (hmem d).mp hd

theorem hitsOf_length (score : ℕ → ℚ) (hids : ∀ d ∈ docs, (c.reverse d).isSome) :
    (hitsOf c score docs).length = docs.length := by
  induction docs with
  | nil => rfl
  | cons d docs ih =>
    obtain ⟨docID, hid⟩ := Option.isSome_iff_exists.mp (hids d mem_cons_self)
    have hrest := ih fun e he => hids e (mem_cons_of_mem d he)
    simp only [hitsOf] at hrest ⊢
    simp [hid, hrest]

theorem isSome_of_permits (hd : permits c filterIDs d = true) : (c.reverse d).isSome := by
  cases hid : c.reverse d with
  | none => simp [permits, hid] at hd
  | some docID => rfl

/-- Cutting the best down to the allowed leaves the best allowed ones, where they are uncrowded. -/
theorem Best.filter_permits {c : Content} {query : SparseVector} {k : ℕ} {filterIDs : List Bytes}
    {kept : List ℕ} (hbest : Best (Matching c query) (dotProduct c query) k kept)
    (hroom : (∀ d ∈ kept, permits c filterIDs d = true) ∨
      ∀ d, Matching c query d → permits c filterIDs d = true → d ∈ kept) :
    Best (fun d => Matching c query d ∧ permits c filterIDs d = true) (dotProduct c query) k
      (kept.filter (permits c filterIDs)) where
  nodup := hbest.nodup.filter _
  holds d hd := by
    rw [mem_filter] at hd
    exact ⟨hbest.holds d hd.1, hd.2⟩
  fits := (length_filter_le _ _).trans hbest.fits
  others d hd hnot := by
    rcases hroom with hall | hin
    · rw [filter_eq_self.mpr hall] at hnot ⊢
      exact hbest.others d hd.1 hnot
    · exact absurd (mem_filter.mpr ⟨hin d hd.1 hd.2, hd.2⟩) hnot

/-- Whatever documents are the best, some order keeps them. -/
theorem exists_kept (hbest : Best (Matching c query) (dotProduct c query) k docs) :
    ∃ order, ∃ kept : List ℕ, keptEntries c order query k = kept.map (scored (dotProduct c query)) ∧
      kept.Perm docs := by
  obtain ⟨order, hperm⟩ := exists_order_keeping hbest
  obtain ⟨kept, hkept, -, -⟩ := keptEntries_best c order query k
  refine ⟨order, kept, hkept, ?_⟩
  have hmapped := (hkept ▸ hperm).map Prod.fst
  rw [map_map, map_map] at hmapped
  simpa [Function.comp_def, scored] using hmapped

/-- Where what is left of the best is the best of the allowed, nothing allowed was crowded out. -/
theorem Best.uncrowded {kept : List ℕ}
    (hbest : Best (Matching c query) (dotProduct c query) k kept)
    (htop : TopK c query k filterIDs
      (hitsOf c (dotProduct c query) (kept.filter (permits c filterIDs)))) :
    (∀ d ∈ kept, permits c filterIDs d = true) ∨
      ∀ d, Matching c query d → permits c filterIDs d = true → d ∈ kept := by
  obtain ⟨allowed, hallowed, -, hhits⟩ := htop
  by_contra hcrowded
  obtain ⟨hout, hleft⟩ := not_or.mp hcrowded
  push Not at hout hleft
  obtain ⟨e, he, hforbidden⟩ := hout
  obtain ⟨d, hmatching, hpermits, hd⟩ := hleft
  have hshort : (kept.filter (permits c filterIDs)).length < kept.length :=
    length_filter_lt_length_iff_exists.mpr ⟨e, he, hforbidden⟩
  have hlength : allowed.length = (kept.filter (permits c filterIDs)).length := by
    have hhit := congrArg length hhits
    rw [hitsOf_length _ fun d hd => isSome_of_permits (hallowed.holds d hd).2,
      hitsOf_length _ fun d hd => isSome_of_permits (mem_filter.mp hd).2] at hhit
    exact hhit.symm
  have hall (x : ℕ) (hx : Matching c query x ∧ permits c filterIDs x = true) : x ∈ allowed := by
    by_contra hnot
    have hfull := (hallowed.others x hx hnot).1
    have hfits := hbest.fits
    omega
  have hnodup : (d :: kept.filter (permits c filterIDs)).Nodup := by
    rw [nodup_cons]
    exact ⟨fun hmem => hd (mem_filter.mp hmem).1, hbest.nodup.filter _⟩
  have hsub : ∀ x ∈ d :: kept.filter (permits c filterIDs), x ∈ allowed := by
    intro x hx
    rcases mem_cons.mp hx with rfl | hx
    · exact hall x ⟨hmatching, hpermits⟩
    · obtain ⟨hin, hok⟩ := mem_filter.mp hx
      exact hall x ⟨hbest.holds x hin, hok⟩
  have hle := (subperm_of_subset hnodup hsub).length_le
  rw [length_cons] at hle
  omega

theorem hitsOf_filter_perm {docs' : List ℕ} (h : docs.Perm docs') :
    (hitsOf c score (docs.filter (permits c filterIDs))).Perm
      (hitsOf c score (docs'.filter (permits c filterIDs))) :=
  (h.filter _).filterMap _

/-- The searches are right for exactly the inputs whose best documents, chosen without the filter,
are all allowed or leave no allowed one out, and leave no choice.  That the query is regular is
asked of searches that look at it. -/
theorem search_returns_top_k {c : Content} {query : SparseVector} {k : ℤ}
    (h : 0 < k → Regular c query) (filterIDs : List Bytes) :
    SearchCorrect c query k filterIDs ↔
      Uncrowded c query k.toNat filterIDs ∧ Untied c query k.toNat filterIDs := by
  rw [searchCorrect_iff h]
  constructor
  · intro hcorrect
    refine ⟨fun docs hbest => ?_, fun docs docs' hbest hbest' => ?_⟩
    · obtain ⟨order, kept, hkept, hsame⟩ := exists_kept hbest
      obtain ⟨hits, -, hfound, htop, -⟩ := hcorrect order order
      rw [hkept] at hfound
      obtain ⟨hids, hhits⟩ := collectHits_eq_ok_iff.mp hfound
      rw [hhits] at htop
      obtain ⟨kept', hkept', hbestKept, -⟩ := keptEntries_best c order query k.toNat
      have heq : kept = kept' := by
        have hmapped := congrArg (List.map Prod.fst) (hkept.symm.trans hkept')
        simpa [Function.comp_def, scored] using hmapped
      subst heq
      refine ⟨fun d hd => hids d (hsame.mem_iff.mpr hd), ?_⟩
      refine (hbestKept.uncrowded htop).imp (fun hall d hd => hall d (hsame.mem_iff.mpr hd)) ?_
      exact fun hin d hd hok => hsame.mem_iff.mp (hin d hd hok)
    · obtain ⟨order, kept, hkept, hsame⟩ := exists_kept hbest
      obtain ⟨order', kept', hkept', hsame'⟩ := exists_kept hbest'
      obtain ⟨hits, hits', hfound, -, hfound', hperm⟩ := hcorrect order order'
      rw [hkept] at hfound
      rw [hkept'] at hfound'
      rw [(collectHits_eq_ok_iff.mp hfound).2, (collectHits_eq_ok_iff.mp hfound').2] at hperm
      exact (hitsOf_filter_perm hsame).symm.trans
        (hperm.symm.trans (hitsOf_filter_perm hsame'))
  · rintro ⟨hroom, huntied⟩ order order'
    obtain ⟨kept, hkept, hbest, hsorted⟩ := keptEntries_best c order query k.toNat
    obtain ⟨kept', hkept', hbest', -⟩ := keptEntries_best c order' query k.toNat
    obtain ⟨hids, hcases⟩ := hroom kept hbest
    rw [hkept, hkept']
    refine ⟨_, _, collectHits_eq_ok_iff.mpr ⟨hids, rfl⟩,
      ⟨kept.filter (permits c filterIDs), hbest.filter_permits hcases, hsorted.filter _, rfl⟩,
      collectHits_eq_ok_iff.mpr ⟨(hroom kept' hbest').1, rfl⟩, ?_⟩
    exact huntied kept' kept hbest' hbest

/-- Documents 0 and 1 with the ids 0 and 1, and term 7 with weights 1 and 2. -/
def twoDocs : Content where
  termMeta := fun t => if t = 7 then some 2 else none
  chunks := fun t => if t = 7 then [[(0, 1), (1, 2)]] else []
  reverse := fun d => if d < 2 then some [UInt8.ofNat d] else none

theorem regular_twoDocs : Regular twoDocs [(7, 1)] where
  listed t ht _ := by
    rw [mem_singleton.mp ht]
    rfl
  single t ht t' ht' _ := by rw [mem_singleton.mp ht, mem_singleton.mp ht']

theorem matching_twoDocs : Matching twoDocs [(7, 1)] d ↔ d = 0 ∨ d = 1 := by
  rw [matching_iff]
  have hkeys : ([(7, 1)] : SparseVector).flatMap (fun t => (twoDocs.postings t.1).map Prod.fst) =
      [0, 1] := by decide +kernel
  rw [hkeys]
  simp

theorem best_twoDocs (hbest : Best (Matching twoDocs [(7, 1)]) (dotProduct twoDocs [(7, 1)]) 1 docs) :
    docs = [1] := by
  have hscores : dotProduct twoDocs [(7, 1)] 0 < dotProduct twoDocs [(7, 1)] 1 := by
    decide +kernel
  have hfits := hbest.fits
  have hin : 1 ∈ docs := by
    by_contra hout
    obtain ⟨hfull, hless⟩ := hbest.others 1 (matching_twoDocs.mpr (.inr rfl)) hout
    obtain ⟨d, hd⟩ := exists_mem_of_ne_nil docs (by rintro rfl; cases hfull)
    rcases matching_twoDocs.mp (hbest.holds d hd) with rfl | rfl
    · exact absurd (hless 0 hd) (not_le_of_gt hscores)
    · exact hout hd
  match docs, hin with
  | [d], hin => rw [← mem_singleton.mp hin]
  | _ :: _ :: _, _ =>
    simp only [length_cons] at hfits
    omega

theorem better_document_found : SearchCorrect twoDocs [(7, 1)] 1 [[1]] := by
  refine (search_returns_top_k (fun _ => regular_twoDocs) [[1]]).mpr ⟨?_, ?_⟩
  · intro docs hbest
    rw [best_twoDocs hbest]
    exact ⟨by decide, Or.inl (by decide)⟩
  · intro docs docs' hbest hbest'
    rw [best_twoDocs hbest, best_twoDocs hbest']

/-- With only the other document allowed, the better one takes the place in the heap, and is cut
off afterwards: nothing is found. -/
theorem allowed_document_cut : ¬SearchCorrect twoDocs [(7, 1)] 1 [[0]] := by
  intro hcorrect
  obtain ⟨result, -, hsearch, ⟨docs, hbest, -, hhits⟩, -⟩ :=
    hcorrect ⟨fun a b => (List.zipWith (· * ·) a b).sum, fun _ _ _ => rfl⟩
      ⟨id, fun keys => List.Perm.refl keys⟩ ⟨id, fun keys => List.Perm.refl keys⟩
  have hnothing : search twoDocs ⟨id, fun keys => List.Perm.refl keys⟩ [(7, 1)] 1 [[0]] =
      .ok ⟨[], 0, some ⟨1, 1⟩⟩ := by decide +kernel
  rw [hnothing] at hsearch
  cases hsearch
  have hlength := hitsOf_length (dotProduct twoDocs [(7, 1)]) fun d hd =>
    isSome_of_permits (hbest.holds d hd).2
  rw [← hhits, List.length_nil] at hlength
  have hempty := List.eq_nil_of_length_eq_zero hlength.symm
  subst hempty
  have hallowed : permits twoDocs [[0]] 0 = true := by decide
  have hfull := hbest.others 0 ⟨matching_twoDocs.mpr (Or.inl rfl), hallowed⟩ (by simp)
  exact absurd hfull.1 (by decide)

end Antfly.Sparse
