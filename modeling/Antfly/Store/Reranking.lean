import Antfly.Lib.ComparisonSort
import Antfly.Store.EnrichmentScan

/-!
`lookupFields` replaces the ids of the hits by document ids, drops repeated and missing documents,
asks the reranker for a score of each document left and sorts the hits by these scores.  The hits of
a full-text result, of a fused one and of each vector index are treated alike.

The sort is given a comparison that reads the scores of two places, while what it swaps are the
hits: the scores stay where they are.
-/

namespace Antfly.Lookup

open ComparisonSort Enrichment Fallible List

/-- A slice expression with a negative bound. -/
inductive LookupPanic where
  | sliceBounds
  deriving DecidableEq

/-- The document of a summary key, of a chunk key or of a plain id. -/
def normalizeDocID (docID : Bytes) : Except LookupPanic Bytes :=
  if hasSuffix docID summarySuffix then
    match cutLast indexMarker (trimSuffix docID summarySuffix) with
    | some (docKey, _) => .ok docKey
    | none => .error .sliceBounds
  else .ok ((extractDocKeyFromChunk docID).getD docID)

structure DocumentMatch (S D : Type) where
  id : Bytes
  score : S
  fields : Option D
  deriving DecidableEq

structure FusionHit (S D : Type) where
  id : Bytes
  score : S
  rerankedScore : Option S
  fields : Option D

structure SearchHit (S D : Type) where
  id : Bytes
  score : S
  fields : Option D

/-- What the lookup does to a hit. -/
structure HitKind (H S D : Type) where
  id : H → Bytes
  setID : H → Bytes → H
  setFields : H → D → H
  setScore : H → S → H
  /-- Where a score of the reranker is read. -/
  rerankScore : H → Option S
  id_setID : ∀ h x, id (setID h x) = x
  id_setFields : ∀ h d, id (setFields h d) = id h
  id_setScore : ∀ h s, id (setScore h s) = id h
  rerankScore_setScore : ∀ h s, rerankScore (setScore h s) = some s

def documentMatchKind (S D : Type) : HitKind (DocumentMatch S D) S D where
  id := DocumentMatch.id
  setID hit docID := { hit with id := docID }
  setFields hit fields := { hit with fields := some fields }
  setScore hit score := { hit with score := score }
  rerankScore hit := some hit.score
  id_setID _ _ := rfl
  id_setFields _ _ := rfl
  id_setScore _ _ := rfl
  rerankScore_setScore _ _ := rfl

def fusionHitKind (S D : Type) : HitKind (FusionHit S D) S D where
  id := FusionHit.id
  setID hit docID := { hit with id := docID }
  setFields hit fields := { hit with fields := some fields }
  setScore hit score := { hit with rerankedScore := some score }
  rerankScore := FusionHit.rerankedScore
  id_setID _ _ := rfl
  id_setFields _ _ := rfl
  id_setScore _ _ := rfl
  rerankScore_setScore _ _ := rfl

def searchHitKind (S D : Type) : HitKind (SearchHit S D) S D where
  id := SearchHit.id
  setID hit docID := { hit with id := docID }
  setFields hit fields := { hit with fields := some fields }
  setScore hit score := { hit with score := score }
  rerankScore hit := some hit.score
  id_setID _ _ := rfl
  id_setFields _ _ := rfl
  id_setScore _ _ := rfl
  rerankScore_setScore _ _ := rfl

structure LookupRequest (S D : Type) where
  countStar : Bool
  /-- The answer of the configured reranker; `none` where it cannot be made or fails. -/
  rerankerConfig : Option (List D → Option (List S))
  /-- What the selected columns leave of the fields. -/
  filterFields : D → D

structure SearchResult (S D : Type) where
  bleveSearchResult : Option (List (DocumentMatch S D))
  fusionResult : Option (List (FusionHit S D))
  vectorSearchResult : List (Bytes × List (SearchHit S D))

variable {H S D : Type}

/-- No scores without a reranker. -/
def rerank (request : LookupRequest S D) (documents : List D) : Option (List S) :=
  match request.rerankerConfig with
  | none => some []
  | some reranker =>
    match reranker documents with
    | none => none
    | some scores => if scores.length = documents.length then some scores else none

/-- `less(i, j)` of the sort. -/
def lessScores [LinearOrder S] (scores : List S) {n : ℕ} (i j : Fin n) : Bool :=
  match scores[i.val]?, scores[j.val]? with
  | some a, some b => decide (b < a)
  | _, _ => false

def sortSlice (sort : ∀ n, SortProgram n) (less : ∀ {n}, Fin n → Fin n → Bool) (hits : List H) :
    List H :=
  List.ofFn ((sort hits.length).run (fun _ => less) hits.get)

section Lookup

variable [LinearOrder S] (k : HitKind H S D) (sort : ∀ n, SortProgram n)
  (request : LookupRequest S D) (fetch : Bytes → Option D)

def normalizeHits (hits : List H) : Except LookupPanic (List H) :=
  hits.mapM fun hit => (normalizeDocID (k.id hit)).map (k.setID hit)

/-- The first hit of each document. -/
def dropDuplicates (seenIDs : List Bytes) : List H → List H
  | [] => []
  | hit :: hits =>
    if k.id hit ∈ seenIDs then dropDuplicates seenIDs hits
    else hit :: dropDuplicates (k.id hit :: seenIDs) hits

def foundHits (hits : List H) : List (H × D) :=
  hits.filterMap fun hit => (fetch (k.id hit)).map fun fields => (hit, fields)

def rerankHits (hits : List H) (documents : List D) : List H :=
  match rerank request documents with
  | none => hits
  | some scores =>
    if scores.isEmpty then hits
    else sortSlice sort (lessScores scores) (List.zipWith k.setScore hits scores)

/-- The lookup of one list of hits.  Fused and vector hits are left alone without a reranker or
without documents (`skipEmpty`). -/
def lookupHits (skipEmpty : Bool) (hits : List H) : Except LookupPanic (List H) :=
  (normalizeHits k hits).map fun hits =>
    let found := foundHits k fetch (dropDuplicates k [] hits)
    let documents := found.map Prod.snd
    let validHits := found.map fun x => k.setFields x.1 (request.filterFields x.2)
    if skipEmpty && (request.rerankerConfig.isNone || documents.isEmpty) then validHits
    else rerankHits k sort request validHits documents

end Lookup

def lookupFields [LinearOrder S] (sort : ∀ n, SortProgram n) (request : LookupRequest S D)
    (fetch : Bytes → Option D) (result : SearchResult S D) :
    Except LookupPanic (SearchResult S D) :=
  if request.countStar then .ok result
  else
    match result.bleveSearchResult with
    | some hits =>
      (lookupHits (documentMatchKind S D) sort request fetch false hits).map fun hits =>
        { result with bleveSearchResult := some hits }
    | none =>
      match result.fusionResult with
      | some hits =>
        (lookupHits (fusionHitKind S D) sort request fetch true hits).map fun hits =>
          { result with fusionResult := some hits }
      | none =>
        (result.vectorSearchResult.mapM fun v =>
          (lookupHits (searchHitKind S D) sort request fetch true v.2).map
            fun hits => (v.1, hits)).map fun vectors =>
              { result with vectorSearchResult := vectors }

def firstOccurrences (seenIDs : List Bytes) : List Bytes → List Bytes
  | [] => []
  | docID :: docIDs =>
    if docID ∈ seenIDs then firstOccurrences seenIDs docIDs
    else docID :: firstOccurrences (docID :: seenIDs) docIDs

/-- The distinct documents that hits with these ids stand for, as far as they are found. -/
def foundDocuments (fetch : Bytes → Option D) (ids : List Bytes) : List (Bytes × D) :=
  (firstOccurrences [] (ids.filterMap fun docID => (normalizeDocID docID).toOption)).filterMap
    fun docID => (fetch docID).map fun fields => (docID, fields)

def documentScores (fetch : Bytes → Option D) (score : List D → List S) (ids : List Bytes) :
    List S :=
  score ((foundDocuments fetch ids).map Prod.snd)

/-- The documents of hits with these ids, each with its score, from high to low. -/
structure Reranked [LinearOrder S] (fetch : Bytes → Option D) (score : List D → List S)
    (ids : List Bytes) (ranking : List (Bytes × Option S)) : Prop where
  distinct : (ranking.map Prod.fst).Nodup
  found : ∀ docID, docID ∈ ranking.map Prod.fst ↔
    (∃ hitID ∈ ids, normalizeDocID hitID = .ok docID) ∧ (fetch docID).isSome
  scored : ranking.Perm (((foundDocuments fetch ids).map Prod.fst).zip
    ((documentScores fetch score ids).map some))
  descending : ranking.Pairwise fun a b => ∀ x ∈ a.2, ∀ y ∈ b.2, y ≤ x

/-- The ids of the lists of hits that the lookup treats. -/
def hitLists (result : SearchResult S D) : List (List Bytes) :=
  match result.bleveSearchResult, result.fusionResult with
  | some hits, _ => [hits.map (documentMatchKind S D).id]
  | none, some hits => [hits.map (fusionHitKind S D).id]
  | none, none => result.vectorSearchResult.map fun v => v.2.map (searchHitKind S D).id

def rankingOf (k : HitKind H S D) (hits : List H) : List (Bytes × Option S) :=
  hits.map fun hit => (k.id hit, k.rerankScore hit)

def rankings (result : SearchResult S D) : List (List (Bytes × Option S)) :=
  match result.bleveSearchResult, result.fusionResult with
  | some hits, _ => [rankingOf (documentMatchKind S D) hits]
  | none, some hits => [rankingOf (fusionHitKind S D) hits]
  | none, none => result.vectorSearchResult.map fun v => rankingOf (searchHitKind S D) v.2

theorem mem_firstOccurrences {docIDs seenIDs : List Bytes} {x : Bytes} :
    x ∈ firstOccurrences seenIDs docIDs ↔ x ∈ docIDs ∧ x ∉ seenIDs := by
  induction docIDs generalizing seenIDs with
  | nil => simp [firstOccurrences]
  | cons docID docIDs ih =>
    rw [firstOccurrences]
    split
    · next hseen =>
        rw [ih, mem_cons]
        constructor
        · rintro ⟨hx, hnew⟩
          exact ⟨Or.inr hx, hnew⟩
        · rintro ⟨rfl | hx, hnew⟩
          · exact absurd hseen hnew
          · exact ⟨hx, hnew⟩
    · next hseen =>
        rw [mem_cons, ih, mem_cons, mem_cons]
        by_cases hx : x = docID
        · subst hx
          simp [hseen]
        · simp [hx]

theorem firstOccurrences_nodup (docIDs seenIDs : List Bytes) :
    (firstOccurrences seenIDs docIDs).Nodup := by
  induction docIDs generalizing seenIDs with
  | nil => exact nodup_nil
  | cons docID docIDs ih =>
    rw [firstOccurrences]
    split
    · exact ih _
    · rw [nodup_cons, mem_firstOccurrences]
      exact ⟨fun h => h.2 mem_cons_self, ih _⟩

theorem ids_dropDuplicates (k : HitKind H S D) (seenIDs : List Bytes) (hits : List H) :
    (dropDuplicates k seenIDs hits).map k.id = firstOccurrences seenIDs (hits.map k.id) := by
  induction hits generalizing seenIDs with
  | nil => rfl
  | cons hit hits ih =>
    rw [dropDuplicates, map_cons, firstOccurrences]
    split
    · exact ih _
    · rw [map_cons, ih]

variable {k : HitKind H S D} {hits normalized : List H} {ids : List Bytes}

theorem ids_normalizeHits (h : normalizeHits k hits = .ok normalized) :
    normalized.map k.id =
      (hits.map k.id).filterMap fun docID => (normalizeDocID docID).toOption := by
  rw [normalizeHits, mapM_eq_ok_iff] at h
  induction h with
  | nil => rfl
  | @cons hit _ hits _ hhit _ ih =>
    cases hnorm : normalizeDocID (k.id hit) with
    | error e =>
      rw [hnorm] at hhit
      cases hhit
    | ok docID =>
      rw [hnorm] at hhit
      cases hhit
      simp only [map_cons, k.id_setID, ih]
      rw [filterMap_cons_some (b := docID) (by rw [hnorm]; rfl)]

theorem foundHits_ids (k : HitKind H S D) (fetch : Bytes → Option D) (hits : List H) :
    (foundHits k fetch hits).map (fun x => (k.id x.1, x.2)) =
      (hits.map k.id).filterMap fun docID => (fetch docID).map fun fields => (docID, fields) := by
  rw [foundHits, map_filterMap, filterMap_map]
  refine congrArg (fun f => List.filterMap f hits) (funext fun hit => ?_)
  simp [Function.comp_def]

theorem foundHits_eq (fetch : Bytes → Option D) (h : normalizeHits k hits = .ok normalized) :
    (foundHits k fetch (dropDuplicates k [] normalized)).map (fun x => (k.id x.1, x.2)) =
      foundDocuments fetch (hits.map k.id) := by
  rw [foundHits_ids, ids_dropDuplicates, ids_normalizeHits h, foundDocuments]

theorem normalizeHits_ok_iff :
    (∃ normalized, normalizeHits k hits = .ok normalized) ↔
      ∀ hitID ∈ hits.map k.id, ∃ docID, normalizeDocID hitID = .ok docID := by
  rw [normalizeHits, exists_mapM_ok_iff, forall_mem_map]
  refine forall₂_congr fun hit _ => ?_
  cases normalizeDocID (k.id hit) <;> simp [Except.map]

theorem foundDocuments_ids_nodup (fetch : Bytes → Option D) (ids : List Bytes) :
    ((foundDocuments fetch ids).map Prod.fst).Nodup := by
  rw [foundDocuments, map_filterMap]
  refine (firstOccurrences_nodup _ _).filterMap ?_
  intro a b c ha hb
  simp only [Option.map_map, Option.mem_def, Option.map_eq_some_iff] at ha hb
  obtain ⟨_, -, rfl⟩ := ha
  obtain ⟨_, -, rfl⟩ := hb
  rfl

theorem mem_foundDocuments_ids {fetch : Bytes → Option D} {docID : Bytes} :
    docID ∈ (foundDocuments fetch ids).map Prod.fst ↔
      (∃ hitID ∈ ids, normalizeDocID hitID = .ok docID) ∧ (fetch docID).isSome := by
  have hids : docID ∈ (ids.filterMap fun hitID => (normalizeDocID hitID).toOption) ↔
      ∃ hitID ∈ ids, normalizeDocID hitID = .ok docID := by
    rw [mem_filterMap]
    refine exists_congr fun hitID => and_congr_right fun _ => ?_
    cases normalizeDocID hitID <;> simp [Except.toOption]
  rw [foundDocuments, map_filterMap, mem_filterMap, ← hids]
  constructor
  · rintro ⟨x, hx, hfetch⟩
    rw [Option.map_map, Option.map_eq_some_iff] at hfetch
    obtain ⟨fields, hfields, rfl⟩ := hfetch
    exact ⟨(mem_firstOccurrences.mp hx).1, by rw [Function.comp_apply, hfields]; rfl⟩
  · rintro ⟨hx, hfetch⟩
    obtain ⟨fields, hfields⟩ := Option.isSome_iff_exists.mp hfetch
    refine ⟨docID, mem_firstOccurrences.mpr ⟨hx, not_mem_nil⟩, ?_⟩
    rw [hfields]
    rfl

theorem exists_mapM_forall₂_iff {α β γ δ ε : Type} {f : α → Except ε β} {R : γ → δ → Prop}
    {g : α → γ} {r : β → δ} (xs : List α) :
    (∃ ys, xs.mapM f = .ok ys ∧ List.Forall₂ R (xs.map g) (ys.map r)) ↔
      ∀ x ∈ xs, ∃ y, f x = .ok y ∧ R (g x) (r y) := by
  simp only [mapM_eq_ok_iff, forall₂_map_left_iff, forall₂_map_right_iff]
  induction xs with
  | nil => simp
  | cons x xs ih =>
    rw [forall_mem_cons, ← ih]
    constructor
    · rintro ⟨ys, hys, hR⟩
      cases hys with
      | cons hy hys =>
        cases hR with
        | cons hr hR => exact ⟨⟨_, hy, hr⟩, _, hys, hR⟩
    · rintro ⟨⟨y, hy, hr⟩, ys, hys, hR⟩
      exact ⟨y :: ys, .cons hy hys, .cons hr hR⟩

theorem sortSlice_nil (sort : ∀ n, SortProgram n) (less : ∀ {n}, Fin n → Fin n → Bool) :
    sortSlice sort less ([] : List H) = [] := by
  simp [sortSlice]

theorem sortSlice_perm (sort : ∀ n, SortProgram n) (less : ∀ {n}, Fin n → Fin n → Bool)
    (hits : List H) : (sortSlice sort less hits).Perm hits := by
  have hperm := (sort hits.length).ofFn_run_perm (fun _ => less) hits.get
  rwa [ofFn_get] at hperm

theorem rankingOf_zipWith (k : HitKind H S D) (hits : List H) (scores : List S) :
    rankingOf k (List.zipWith k.setScore hits scores) =
      (hits.map k.id).zip (scores.map some) := by
  induction hits generalizing scores with
  | nil => rfl
  | cons hit hits ih =>
    cases scores with
    | nil => rfl
    | cons score scores =>
      rw [zipWith_cons_cons, rankingOf, map_cons, k.id_setScore,
        k.rerankScore_setScore, map_cons, map_cons, zip_cons_cons, ← ih]
      rfl

theorem descending_sortSlice_iff [LinearOrder S] (k : HitKind H S D) (sort : ∀ n, SortProgram n)
    {scoredHits : List H} {scores : List S} {n : ℕ} (hn : scoredHits.length = n)
    (hscores : scores.length = n) (hranking : rankingOf k scoredHits = ids.zip (scores.map some)) :
    ((rankingOf k (sortSlice sort (lessScores scores) scoredHits)).Pairwise
        fun a b => ∀ x ∈ a.2, ∀ y ∈ b.2, y ≤ x) ↔
      Descending ((sort n).run (fun _ => keyLess fun i : Fin n => scores[i])
        fun i => scores[i]) := by
  subst hn
  have hless : (lessScores scores : Fin scoredHits.length → Fin scoredHits.length → Bool) =
      keyLess fun i : Fin scoredHits.length => scores[i] := by
    funext i j
    have hi : i.val < scores.length := by omega
    have hj : j.val < scores.length := by omega
    simp [lessScores, keyLess, hi, hj]
  have hscore : ∀ i : Fin scoredHits.length,
      k.rerankScore scoredHits[i.val] = some scores[i.val] := by
    intro i
    have hi : i.val < scores.length := by omega
    have hget : (rankingOf k scoredHits)[i.val]? = (ids.zip (scores.map some))[i.val]? := by
      rw [hranking]
    rw [rankingOf, getElem?_map, getElem?_eq_getElem i.isLt] at hget
    obtain ⟨_, hright⟩ := getElem?_zip_eq_some.mp hget.symm
    rw [getElem?_map, getElem?_eq_getElem hi] at hright
    exact (Option.some.inj hright).symm
  rw [sortSlice, hless, SortProgram.run_fixed, SortProgram.run_fixed, rankingOf, map_ofFn,
    pairwise_ofFn]
  refine forall₃_congr fun i j _ => ?_
  simp [hscore]

section Reranked

variable [LinearOrder S] {request : LookupRequest S D} (fetch : Bytes → Option D)
  {score : List D → List S}
  (hconfig : request.rerankerConfig = some fun documents => some (score documents))
  (hlength : ∀ documents, (score documents).length = documents.length)

include hconfig hlength

theorem lookupHits_eq (k : HitKind H S D) (skipEmpty : Bool) {hits normalized : List H}
    (h : normalizeHits k hits = .ok normalized) :
    ∃ scoredHits : List H,
      rankingOf k scoredHits = ((foundDocuments fetch (hits.map k.id)).map Prod.fst).zip
        ((documentScores fetch score (hits.map k.id)).map some) ∧
      ∀ sort, lookupHits k sort request fetch skipEmpty hits =
        .ok (sortSlice sort (lessScores (documentScores fetch score (hits.map k.id)))
          scoredHits) := by
  have hfound := foundHits_eq fetch h
  set found := foundHits k fetch (dropDuplicates k [] normalized) with hdef
  set scores := documentScores fetch score (hits.map k.id) with hscores
  have hdocuments : found.map Prod.snd = (foundDocuments fetch (hits.map k.id)).map Prod.snd := by
    rw [← hfound, map_map]
    rfl
  have hids : (found.map fun x => k.setFields x.1 (request.filterFields x.2)).map k.id =
      (foundDocuments fetch (hits.map k.id)).map Prod.fst := by
    rw [← hfound, map_map, map_map]
    exact map_congr_left fun x _ => k.id_setFields _ _
  have hrerank : rerank request (found.map Prod.snd) = some scores := by
    rw [rerank, hconfig]
    simp only [hlength, if_true]
    rw [hscores, documentScores, hdocuments]
  have hsame : scores.length = found.length := by
    rw [hscores, documentScores, hlength, ← hdocuments, length_map]
  refine ⟨List.zipWith k.setScore
    (found.map fun x => k.setFields x.1 (request.filterFields x.2)) scores, ?_, fun sort => ?_⟩
  · rw [rankingOf_zipWith, hids]
  · rw [lookupHits, h]
    simp only [Except.map, ← hdef, rerankHits, hrerank, hconfig]
    cases hcase : found with
    | nil =>
      have hnil : scores = [] := length_eq_zero_iff.mp (by rw [hsame, hcase]; rfl)
      simp [hnil, sortSlice_nil]
    | cons x xs =>
      have hne : scores.isEmpty = false := by
        rw [isEmpty_eq_false_iff, ← length_pos_iff, hsame, hcase]
        exact Nat.succ_pos _
      simp [hne]

theorem lookupHits_reranked_iff (k : HitKind H S D) (skipEmpty : Bool) (hits : List H) :
    (∀ sort, IsComparisonSort sort → ∃ out,
        lookupHits k sort request fetch skipEmpty hits = .ok out ∧
          Reranked fetch score (hits.map k.id) (rankingOf k out)) ↔
      (∀ hitID ∈ hits.map k.id, ∃ docID, normalizeDocID hitID = .ok docID) ∧
        ∀ a ∈ documentScores fetch score (hits.map k.id),
          ∀ b ∈ documentScores fetch score (hits.map k.id), a = b := by
  rw [← normalizeHits_ok_iff]
  cases hnorm : normalizeHits k hits with
  | error e =>
    simp only [reduceCtorEq, exists_const, false_and, iff_false]
    intro h
    obtain ⟨out, hout, _⟩ := h insertionSort insertionSort_isComparisonSort
    rw [lookupHits, hnorm] at hout
    cases hout
  | ok normalized =>
    obtain ⟨scoredHits, hranking, hlookup⟩ :=
      lookupHits_eq fetch hconfig hlength k skipEmpty hnorm
    set scores := documentScores fetch score (hits.map k.id) with hscores
    have hlen : scores.length = scoredHits.length := by
      have hcount := congrArg List.length hranking
      have hsame : scores.length = (foundDocuments fetch (hits.map k.id)).length := by
        rw [hscores, documentScores, hlength, length_map]
      rw [rankingOf, length_map, length_zip, length_map, length_map] at hcount
      omega
    have hequal : (∀ i j : Fin scoredHits.length, scores[i] = scores[j]) ↔
        ∀ a ∈ scores, ∀ b ∈ scores, a = b := by
      constructor
      · intro h a ha b hb
        obtain ⟨i, hi, rfl⟩ := mem_iff_getElem.mp ha
        obtain ⟨j, hj, rfl⟩ := mem_iff_getElem.mp hb
        exact h ⟨i, by omega⟩ ⟨j, by omega⟩
      · intro h i j
        exact h _ (getElem_mem _) _ (getElem_mem _)
    rw [← hequal, ← fixed_keys_sorted_iff]
    simp only [Except.ok.injEq, exists_eq', true_and]
    refine forall₂_congr fun sort hsort => ?_
    rw [← descending_sortSlice_iff k sort rfl hlen hranking]
    rw [hlookup sort]
    have hperm : (rankingOf k (sortSlice sort (lessScores scores) scoredHits)).Perm
        (((foundDocuments fetch (hits.map k.id)).map Prod.fst).zip (scores.map some)) := by
      rw [← hranking]
      exact (sortSlice_perm sort _ _).map _
    have hids : (((foundDocuments fetch (hits.map k.id)).map Prod.fst).zip
        (scores.map some)).map Prod.fst =
          (foundDocuments fetch (hits.map k.id)).map Prod.fst := by
      refine map_fst_zip ?_
      rw [length_map, length_map, hscores, documentScores, hlength, length_map]
    constructor
    · rintro ⟨out, hout, hreranked⟩
      cases hout
      exact hreranked.descending
    · intro hdescending
      refine ⟨_, rfl, ?_, ?_, hperm, hdescending⟩
      · rw [(hperm.map Prod.fst).nodup_iff, hids]
        exact foundDocuments_ids_nodup _ _
      · intro docID
        rw [(hperm.map Prod.fst).mem_iff, hids]
        exact mem_foundDocuments_ids

variable {fetch} in
/-- The reranked lists of a result are sorted by every sort exactly where the documents of each
list have one score. -/
theorem reranked_hits_sorted_iff (hcount : request.countStar = false)
    (result : SearchResult S D) :
    (∀ sort, IsComparisonSort sort → ∃ out, lookupFields sort request fetch result = .ok out ∧
        List.Forall₂ (Reranked fetch score) (hitLists result) (rankings out)) ↔
      ∀ ids ∈ hitLists result, (∀ hitID ∈ ids, ∃ docID, normalizeDocID hitID = .ok docID) ∧
        ∀ a ∈ documentScores fetch score ids, ∀ b ∈ documentScores fetch score ids, a = b := by
  have hlist := fun {H : Type} (k : HitKind H S D) (skipEmpty : Bool) (hits : List H) =>
    lookupHits_reranked_iff fetch hconfig hlength k skipEmpty hits
  obtain ⟨bleve, fusion, vectors⟩ := result
  cases bleve with
  | some hits =>
    simp only [hitLists, List.forall_mem_singleton]
    refine Iff.trans (forall₂_congr fun sort _ => ?_) (hlist (documentMatchKind S D) false hits)
    simp only [lookupFields, hcount, Bool.false_eq_true, if_false]
    cases lookupHits (documentMatchKind S D) sort request fetch false hits <;>
      simp [Except.map, rankings]
  | none =>
    cases fusion with
    | some hits =>
      simp only [hitLists, List.forall_mem_singleton]
      refine Iff.trans (forall₂_congr fun sort _ => ?_) (hlist (fusionHitKind S D) true hits)
      simp only [lookupFields, hcount, Bool.false_eq_true, if_false]
      cases lookupHits (fusionHitKind S D) sort request fetch true hits <;>
        simp [Except.map, rankings]
    | none =>
      rw [hitLists, List.forall_mem_map]
      refine Iff.trans ?_ (forall₂_congr fun v _ => hlist (searchHitKind S D) true v.2)
      have hone : ∀ sort, (∃ out, lookupFields sort request fetch
          (⟨none, none, vectors⟩ : SearchResult S D) = .ok out ∧
            List.Forall₂ (Reranked fetch score)
              (vectors.map fun v => v.2.map (searchHitKind S D).id) (rankings out)) ↔
          ∀ v ∈ vectors, ∃ out,
            lookupHits (searchHitKind S D) sort request fetch true v.2 = .ok out ∧
              Reranked fetch score (v.2.map (searchHitKind S D).id)
                (rankingOf (searchHitKind S D) out) := by
        intro sort
        have hmap := exists_mapM_forall₂_iff (R := Reranked fetch score)
          (f := fun v => (lookupHits (searchHitKind S D) sort request fetch true v.2).map
            fun hits => (v.1, hits))
          (g := fun v => v.2.map (searchHitKind S D).id)
          (r := fun v => rankingOf (searchHitKind S D) v.2) vectors
        refine Iff.trans ?_ (hmap.trans (forall₂_congr fun v _ => ?_))
        · simp only [lookupFields, hcount, Bool.false_eq_true, if_false]
          cases vectors.mapM fun v =>
              (lookupHits (searchHitKind S D) sort request fetch true v.2).map
                fun hits => (v.1, hits) <;>
            simp [Except.map, rankings]
        · cases lookupHits (searchHitKind S D) sort request fetch true v.2 <;>
            simp [Except.map]
      simp only [hone]
      exact ⟨fun h v hv sort hsort => h sort hsort v hv,
        fun h sort hsort v hv => h v hv sort hsort⟩

end Reranked

def threeHits : SearchResult ℕ ℕ where
  bleveSearchResult := some [⟨[97], 0, none⟩, ⟨[98], 0, none⟩, ⟨[99], 0, none⟩]
  fusionResult := none
  vectorSearchResult := []

def fieldsOfThree (docID : Bytes) : Option ℕ :=
  if docID = [97] then some 2 else if docID = [98] then some 1 else some 3

def fieldScores (documents : List ℕ) : List ℕ := documents

def fieldRequest : LookupRequest ℕ ℕ where
  countStar := false
  rerankerConfig := some fun documents => some (fieldScores documents)
  filterFields := id

/-- The insertion sort of `sort.Slice` leaves the documents in the order 2, 3, 1. -/
theorem reranked_hits_unsorted :
    ¬ (∀ sort, IsComparisonSort sort → ∃ out,
        lookupFields sort fieldRequest fieldsOfThree threeHits = .ok out ∧
          List.Forall₂ (Reranked fieldsOfThree fieldScores) (hitLists threeHits)
            (rankings out)) := by
  intro h
  obtain ⟨out, hout, hranked⟩ := h insertionSort insertionSort_isComparisonSort
  have hresult : (lookupFields insertionSort fieldRequest fieldsOfThree threeHits).map rankings =
      .ok [[([97], some 2), ([99], some 3), ([98], some 1)]] := by decide +kernel
  rw [hout] at hresult
  rw [Except.map, Except.ok.injEq] at hresult
  rw [hresult] at hranked
  cases hranked with
  | cons hlist _ =>
    have hdescending := hlist.descending
    revert hdescending
    simp

/-- Documents with one score are sorted by every sort. -/
theorem reranked_hits_sorted_iff_oneScore : fieldRequest.countStar = false ∧
    ∀ sort, IsComparisonSort sort → ∃ out,
      lookupFields sort fieldRequest (fun _ => some 2) threeHits = .ok out ∧
        List.Forall₂ (Reranked (fun _ => some 2) fieldScores) (hitLists threeHits)
          (rankings out) := by
  refine ⟨rfl, (reranked_hits_sorted_iff rfl (fun _ => rfl) rfl threeHits).mpr fun ids hids => ?_⟩
  obtain rfl := List.mem_singleton.mp hids
  constructor
  · intro hitID hmem
    simp only [List.map_cons, List.map_nil, List.mem_cons, List.not_mem_nil] at hmem
    rcases hmem with rfl | rfl | rfl | hfalse
    · exact ⟨[97], rfl⟩
    · exact ⟨[98], rfl⟩
    · exact ⟨[99], rfl⟩
    · cases hfalse
  · decide

end Antfly.Lookup
