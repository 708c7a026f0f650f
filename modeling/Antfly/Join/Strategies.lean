import Antfly.Join.Agreement

/-!
For each executor, what must be known of the tables, the plan and the fetches for its rows to be
those of the nested loop.  The empty left list is apart: no executor fetches anything for it, and a
right join then loses the whole right table.
-/

namespace Antfly.Join

open Joins Fallible List

variable {cfg : ExecutorConfig} {fnv : Json → ℕ} {q : Querier} {plan : Plan}
  {batches : List (List HashKey)} {leftRows : List Row}

def ShowsJoinField (q : Querier) (plan : Plan) (rows : List Row) : Prop :=
  ∀ row ∈ rows, extractFieldValue (q.select plan.rightFields row) plan.condition.rightField =
    extractFieldValue row plan.condition.rightField

def LeftUsable (plan : Plan) (leftRows : List Row) : Prop :=
  ∀ left ∈ leftRows, usable (extractFieldValue left plan.condition.leftField) = true

/-- Rows match only under one key, as they do for an equality. -/
def FoundByKey (q : Querier) (plan : Plan) (leftRows : List Row) : Prop :=
  ∀ left ∈ leftRows, ∀ right ∈ filteredRight q plan,
    joins plan left right = true → SameKey plan left right

/-- The query of the right table brings all the filtered rows, with keys that can be hashed. -/
structure FetchesRight (q : Querier) (plan : Plan) : Prop where
  query_ok : q.queryOk = true
  not_truncated : (filteredRight q plan).length ≤ plan.rightLimit
  shows_join_field : ShowsJoinField q plan (filteredRight q plan)
  right_usable : ∀ right ∈ filteredRight q plan,
    usable (extractFieldValue right plan.condition.rightField) = true

structure BroadcastFits (cfg : ExecutorConfig) (q : Querier) (plan : Plan) (leftRows : List Row) :
    Prop extends FetchesRight q plan where
  size : (filteredRight q plan).length * 200 ≤ cfg.maxBroadcastSize
  left_usable : plan.condition.operator = .equal → LeftUsable plan leftRows

/-- Equal doubles are printed the same way but for the two zeros, so partitions separate only
these. -/
structure ShuffleFits (cfg : ExecutorConfig) (fnv : Json → ℕ) (q : Querier) (plan : Plan)
    (leftRows : List Row) : Prop extends FetchesRight q plan where
  found_by_key : FoundByKey q plan leftRows
  left_usable : LeftUsable plan leftRows
  concurrency : 0 < cfg.maxConcurrency
  same_partition : ∀ left ∈ leftRows, ∀ right ∈ filteredRight q plan, joins plan left right = true →
    partitionOf fnv plan.condition.leftField (calculatePartitions cfg leftRows.length) left =
      partitionOf fnv plan.condition.rightField (calculatePartitions cfg leftRows.length) right

structure IndexLookupFits (q : Querier) (plan : Plan) (batches : List (List HashKey))
    (leftRows : List Row) : Prop where
  found_by_key : FoundByKey q plan leftRows
  left_usable : LeftUsable plan leftRows
  shows_join_field : ShowsJoinField q plan q.rows
  batching : IsBatching plan leftRows batches
  /-- The filters of the clause exclude no row that is found and matches. -/
  filters_idle : ∀ left ∈ leftRows, ∀ right ∈ q.rows, SameKey plan left right →
    joins plan left right = true → right ∈ filteredRight q plan
  lookup_ok : ∀ batch ∈ batches, q.lookupOk batch = true
  not_truncated : ∀ batch ∈ batches, (q.rows.filter fun row =>
      (extractFieldValue row plan.condition.rightField).hashKey.any (batch.contains ·)).length ≤
    min (batch.length * 10) maxLookupLimit
  right_matched : plan.joinType = .right → ∀ right ∈ filteredRight q plan,
    ∃ left ∈ leftRows, joins plan left right = true

/-- The filtered rows with their selected fields. -/
def selectedRight (q : Querier) (plan : Plan) : List Row :=
  (filteredRight q plan).map (q.select plan.rightFields)

theorem filteredRight_sublist : (filteredRight q plan).Sublist q.rows := by
  unfold filteredRight
  cases plan.rightFilters with
  | none => exact List.Sublist.refl _
  | some filters =>
    obtain ⟨holds, limit⟩ := filters
    dsimp only
    split
    · exact (take_sublist _ _).trans filter_sublist
    · exact filter_sublist

theorem queryTable_eq (h : FetchesRight q plan) :
    q.queryTable plan = .ok (selectedRight q plan) := by
  have hlimit := h.not_truncated
  have hrows : (q.rows.filter plan.filterHolds).take plan.rightLimit = filteredRight q plan := by
    unfold filteredRight Plan.filterHolds Plan.rightLimit at *
    cases hfilters : plan.rightFilters with
    | none =>
      rw [hfilters] at hlimit
      simp only [Option.elim_none, filter_true]
      exact take_of_length_le hlimit
    | some filters =>
      obtain ⟨holds, limit⟩ := filters
      rw [hfilters] at hlimit
      dsimp only [Option.elim_some] at hlimit ⊢
      by_cases hpos : 0 < limit
      · rw [if_pos hpos, if_pos hpos]
      · rw [if_neg hpos, if_neg hpos] at hlimit
        rw [if_neg hpos, if_neg hpos]
        exact take_of_length_le hlimit
  rw [Querier.queryTable, if_pos h.query_ok, Querier.runQuery, hrows, selectedRight]

theorem selected_ids_nodup :
    ((selectedRight q plan).map Row.id).Nodup := by
  have hids : Row.id ∘ q.select plan.rightFields = Row.id :=
    funext fun row => q.select_id plan.rightFields row
  rw [selectedRight, map_map, hids]
  exact q.ids_nodup.sublist (filteredRight_sublist.map Row.id)

theorem selected_usable (h : FetchesRight q plan) :
    ∀ row ∈ selectedRight q plan,
      usable (extractFieldValue row plan.condition.rightField) = true := by
  intro row hrow
  obtain ⟨right, hright, rfl⟩ := mem_map.mp hrow
  rw [h.shows_join_field right hright]
  exact h.right_usable right hright

variable {rows : List Row} {left right : Row} {n : ℕ} {k : HashKey}

theorem joins_select (h : ShowsJoinField q plan rows) (hright : right ∈ rows) :
    joins plan left (q.select plan.rightFields right) = joins plan left right := by
  rw [joins, joins, h right hright]

theorem joinRows_select (h : ShowsJoinField q plan (filteredRight q plan)) :
    joinRows plan leftRows (selectedRight q plan) =
      nestedLoopJoin q plan leftRows := by
  rw [joinRows, selectedRight, nestedLoop_map, nestedLoopJoin]
  refine nestedLoop_congr fun left _ right hright => ?_
  exact joins_select h hright

theorem broadcast_eq (h : BroadcastFits cfg q plan leftRows) (hne : leftRows ≠ []) :
    broadcast cfg q plan leftRows = .ok (nestedLoopJoin q plan leftRows) := by
  have husable := selected_usable h.toFetchesRight
  obtain ⟨t, hbuild, hlookup⟩ := buildHashTable_ok husable []
  have hsize : ¬cfg.maxBroadcastSize <
      (selectedRight q plan).length * 200 := by
    rw [selectedRight, length_map]
    exact Nat.not_lt.mpr h.size
  have hprobe : probeRows plan (lookupOrScan t plan.condition
      (selectedRight q plan)) leftRows =
      .ok (matchedRows plan leftRows (selectedRight q plan)) := by
    refine probeRows_eq fun left hleft hnull => ?_
    unfold lookupOrScan
    split
    · next hop =>
      exact lookup_eq_filter hop hlookup (h.left_usable hop left hleft) hnull
    · exact matching_eq_filter left husable
  rw [broadcast, if_neg (by rwa [List.isEmpty_iff]), queryTable_eq h.toFetchesRight]
  change (if _ then _ else _) = _
  rw [if_neg hsize, hbuild]
  change (probeRows plan _ leftRows >>= _) = _
  rw [hprobe]
  change Except.ok _ = _
  rw [unmatchedById_eq selected_ids_nodup, ← joinRows_select h.shows_join_field]
  rfl

theorem joinPartition_eq {leftPartition rightPartition : List Row}
    (hfound : ∀ left ∈ leftPartition, ∀ right ∈ rightPartition,
      joins plan left right = true → SameKey plan left right)
    (hleft : LeftUsable plan leftPartition)
    (hright : ∀ row ∈ rightPartition,
      usable (extractFieldValue row plan.condition.rightField) = true)
    (hids : (rightPartition.map Row.id).Nodup) :
    joinPartition plan leftPartition rightPartition =
      .ok (joinRows plan leftPartition rightPartition) := by
  obtain ⟨t, hbuild, hlookup⟩ := buildHashTable_ok hright []
  have hprobe : probeRows plan (lookupMatching t plan.condition) leftPartition =
      .ok (matchedRows plan leftPartition rightPartition) := by
    refine probeRows_eq fun left hmem hnull => ?_
    refine lookupMatching_eq (fun k hk => ?_) (hleft left hmem) hnull
    rw [hlookup]
    change (∀ row ∈ rightPartition.filter _, _) ∧ (rightPartition.filter _).filter _ = _
    constructor
    · intro row hrow
      exact of_decide_eq_true (mem_filter.mp hrow).2
    · rw [filter_filter]
      refine filter_congr fun row hrow => ?_
      rw [Bool.and_eq_left_iff_imp, decide_eq_true_eq]
      intro hjoins
      obtain ⟨k', hk', hrow'⟩ := hfound left hmem row hrow hjoins
      rw [hrow', ← hk', hk]
  unfold joinPartition
  rw [hbuild]
  change (probeRows plan _ leftPartition >>= _) = _
  rw [hprobe]
  change Except.ok _ = _
  rw [unmatchedById_eq hids]
  rfl

theorem partitionOf_lt {field : Bytes} (hn : 0 < n) (row : Row) :
    partitionOf fnv field n row < n := by
  unfold partitionOf
  dsimp only
  split
  · exact hn
  · exact Nat.mod_lt _ hn

theorem calculatePartitions_pos (h : 0 < cfg.maxConcurrency) (count : ℕ) :
    0 < calculatePartitions cfg count := by
  unfold calculatePartitions
  omega

theorem partitionOf_select (h : ShowsJoinField q plan rows) (hright : right ∈ rows) :
    partitionOf fnv plan.condition.rightField n (q.select plan.rightFields right) =
      partitionOf fnv plan.condition.rightField n right := by
  unfold partitionOf
  rw [h right hright]

theorem mapM_ok_of_eq {α β : Type} {f : α → Except JoinError β} {g : α → β} {xs : List α}
    (h : ∀ x ∈ xs, f x = .ok (g x)) : xs.mapM f = .ok (xs.map g) := by
  rw [mapM_eq_ok_iff, forall₂_map_right_iff, forall₂_same]
  exact h

/-- The join of the `i`-th parts. -/
def joinedPartition (fnv : Json → ℕ) (plan : Plan) (n : ℕ) (leftRows rightRows : List Row)
    (i : ℕ) : List JoinedRow :=
  joinRows plan (partition fnv plan.condition.leftField n leftRows i)
    (partition fnv plan.condition.rightField n rightRows i)

theorem shufflePartitions_perm {n : ℕ} (h : FetchesRight q plan) (hn : 0 < n)
    (hfound : FoundByKey q plan leftRows) (hleft : LeftUsable plan leftRows)
    (hsame : ∀ left ∈ leftRows, ∀ right ∈ filteredRight q plan, joins plan left right = true →
      partitionOf fnv plan.condition.leftField n left =
        partitionOf fnv plan.condition.rightField n right) :
    ∃ rows, shufflePartitions fnv q plan leftRows n = .ok rows ∧
      rows.Perm (nestedLoopJoin q plan leftRows) := by
  have hparts : ∀ i ∈ List.range n,
      joinPartition plan (partition fnv plan.condition.leftField n leftRows i)
        (partition fnv plan.condition.rightField n (selectedRight q plan) i) =
      .ok (joinedPartition fnv plan n leftRows (selectedRight q plan) i) := by
    intro i _
    refine joinPartition_eq ?_ ?_ ?_ ?_
    · intro left hmem row hrow hjoins
      obtain ⟨right, hright, rfl⟩ := mem_map.mp (mem_filter.mp hrow).1
      rw [joins_select h.shows_join_field hright] at hjoins
      obtain ⟨k, hk, hk'⟩ := hfound left (mem_filter.mp hmem).1 right hright hjoins
      refine ⟨k, hk, ?_⟩
      rw [h.shows_join_field right hright]
      exact hk'
    · intro left hmem
      exact hleft left (mem_filter.mp hmem).1
    · intro right hmem
      exact selected_usable h right (mem_filter.mp hmem).1
    · exact selected_ids_nodup.sublist (filter_sublist.map Row.id)
  have hmatch : ∀ left ∈ leftRows, ∀ right ∈ selectedRight q plan,
      joins plan left right = true →
      partitionOf fnv plan.condition.leftField n left =
        partitionOf fnv plan.condition.rightField n right := by
    intro left hmem row hrow hjoins
    obtain ⟨right, hright, rfl⟩ := mem_map.mp hrow
    rw [joins_select h.shows_join_field hright] at hjoins
    rw [partitionOf_select h.shows_join_field hright]
    exact hsame left hmem right hright hjoins
  refine ⟨(List.range n).flatMap (joinedPartition fnv plan n leftRows (selectedRight q plan)),
    ?_, ?_⟩
  · rw [shufflePartitions, queryTable_eq h]
    change (List.mapM (m := Except JoinError) _ _ >>= _) = _
    rw [mapM_ok_of_eq hparts]
    exact congrArg Except.ok flatMap_def.symm
  · rw [← joinRows_select h.shows_join_field]
    exact nestedLoop_parts hmatch (fun left _ => partitionOf_lt hn left)
      fun right _ => partitionOf_lt hn right

theorem shuffle_perm (h : ShuffleFits cfg fnv q plan leftRows) (hne : leftRows ≠ []) :
    ∃ rows, shuffle cfg fnv q plan leftRows = .ok rows ∧
      rows.Perm (nestedLoopJoin q plan leftRows) := by
  rw [shuffle, if_neg (by rwa [List.isEmpty_iff])]
  exact shufflePartitions_perm h.toFetchesRight (calculatePartitions_pos h.concurrency _)
    h.found_by_key h.left_usable h.same_partition

theorem leftKeys_mem {keys : List HashKey} (h : leftKeys plan leftRows = .ok keys) :
    keys.Nodup ∧ ∀ left ∈ leftRows, ∀ k,
      (extractFieldValue left plan.condition.leftField).hashKey = some k → k ∈ keys := by
  induction leftRows generalizing keys with
  | nil =>
    cases h
    exact ⟨nodup_nil, fun left hleft => nomatch hleft⟩
  | cons left lefts ih =>
    unfold leftKeys at h
    dsimp only at h
    cases hnull : (extractFieldValue left plan.condition.leftField).isNull with
    | true =>
      rw [hnull, if_pos rfl] at h
      obtain ⟨hnodup, hmem⟩ := ih h
      refine ⟨hnodup, fun left' hleft' k hk => ?_⟩
      rcases mem_cons.mp hleft' with rfl | hleft'
      · rw [hashKey_of_null hnull] at hk
        cases hk
      · exact hmem left' hleft' k hk
    | false =>
      rw [hnull, if_neg Bool.false_ne_true] at h
      cases hkey : (extractFieldValue left plan.condition.leftField).hashKey with
      | none =>
        rw [hkey] at h
        cases h
      | some k₀ =>
        rw [hkey] at h
        cases hrest : leftKeys plan lefts with
        | error e =>
          rw [hrest] at h
          cases h
        | ok rest =>
          rw [hrest] at h
          cases h
          obtain ⟨hnodup, hmem⟩ := ih hrest
          dsimp only
          by_cases hin : rest.contains k₀ = true
          · rw [if_pos hin]
            refine ⟨hnodup, fun left' hleft' k hk => ?_⟩
            rcases mem_cons.mp hleft' with rfl | hleft'
            · rw [hkey] at hk
              cases hk
              exact contains_iff_mem.mp hin
            · exact hmem left' hleft' k hk
          · rw [if_neg hin]
            rw [contains_iff_mem] at hin
            refine ⟨nodup_cons.mpr ⟨hin, hnodup⟩, fun left' hleft' k hk => ?_⟩
            rcases mem_cons.mp hleft' with rfl | hleft'
            · rw [hkey] at hk
              cases hk
              exact mem_cons_self
            · exact mem_cons_of_mem k₀ (hmem left' hleft' k hk)

theorem lookupKeys_filter (h : IndexLookupFits q plan batches leftRows) {batch : List HashKey}
    (hbatch : batch ∈ batches) (k : HashKey) :
    ((q.lookupKeys plan batch).getD []).filter (fun row =>
      (extractFieldValue row plan.condition.rightField).hashKey = some k) =
    if k ∈ batch then
      (q.rows.filter fun row =>
        (extractFieldValue row plan.condition.rightField).hashKey = some k).map
          (q.select plan.rightFields)
    else [] := by
  rw [Querier.lookupKeys, if_pos (h.lookup_ok batch hbatch), Option.getD_some, Querier.runQuery,
    take_of_length_le (h.not_truncated batch hbatch), filter_map, filter_filter]
  split
  · next hk =>
    refine congrArg _ (filter_congr fun row hrow => ?_)
    dsimp only [Function.comp]
    rw [h.shows_join_field row hrow, Bool.and_eq_left_iff_imp, decide_eq_true_eq]
    intro hkey
    rw [hkey, Option.any_some, contains_iff_mem]
    exact hk
  · next hk =>
    rw [map_eq_nil_iff, filter_eq_nil_iff]
    intro row hrow hboth
    rw [Bool.and_eq_true] at hboth
    obtain ⟨hkey, hany⟩ := hboth
    dsimp only [Function.comp] at hkey
    rw [h.shows_join_field row hrow, decide_eq_true_eq] at hkey
    rw [hkey, Option.any_some, contains_iff_mem] at hany
    exact hk hany

theorem lookups_filter (h : IndexLookupFits q plan batches leftRows) (hleft : left ∈ leftRows)
    (hk : (extractFieldValue left plan.condition.leftField).hashKey = some k) :
    (batches.flatMap fun batch => (q.lookupKeys plan batch).getD []).filter (fun row =>
      (extractFieldValue row plan.condition.rightField).hashKey = some k) =
    (q.rows.filter fun row =>
      (extractFieldValue row plan.condition.rightField).hashKey = some k).map
        (q.select plan.rightFields) := by
  obtain ⟨keys, hkeys, hperm⟩ := h.batching
  obtain ⟨hnodup, hmem⟩ := leftKeys_mem hkeys
  rw [filter_flatMap, flatMap_congr fun batch hbatch => lookupKeys_filter h hbatch k]
  exact flatMap_batches (hperm.nodup_iff.mpr hnodup) (hperm.mem_iff.mpr (hmem left hleft k hk))

theorem lookups_matching (h : IndexLookupFits q plan batches leftRows) (hleft : left ∈ leftRows)
    (hk : (extractFieldValue left plan.condition.leftField).hashKey = some k) :
    ((q.rows.filter fun row =>
      (extractFieldValue row plan.condition.rightField).hashKey = some k).map
        (q.select plan.rightFields)).filter (joins plan left) =
    (selectedRight q plan).filter (joins plan left) := by
  have hstored : (filteredRight q plan).filter (fun row => joins plan left row &&
        (extractFieldValue row plan.condition.rightField).hashKey = some k) =
      q.rows.filter fun row => joins plan left row &&
        (extractFieldValue row plan.condition.rightField).hashKey = some k := by
    refine filter_eq_of_sublist filteredRight_sublist q.ids_nodup.of_map fun row hrow hboth => ?_
    obtain ⟨hjoins, hkey⟩ := Bool.and_eq_true_iff.mp hboth
    exact h.filters_idle left hleft row hrow ⟨k, hk, of_decide_eq_true hkey⟩ hjoins
  have hfound : (filteredRight q plan).filter (fun row => joins plan left row &&
        (extractFieldValue row plan.condition.rightField).hashKey = some k) =
      (filteredRight q plan).filter (joins plan left) := by
    refine filter_congr fun row hrow => ?_
    rw [Bool.and_eq_left_iff_imp, decide_eq_true_eq]
    intro hjoins
    obtain ⟨k', hk', hrow'⟩ := h.found_by_key left hleft row hrow hjoins
    rw [hrow', ← hk', hk]
  have hselect : ∀ rows, rows ⊆ q.rows → rows.filter (joins plan left ∘ q.select plan.rightFields) =
      rows.filter (joins plan left) := by
    intro rows hsub
    exact filter_congr fun row hrow => joins_select h.shows_join_field (hsub hrow)
  rw [selectedRight, filter_map, filter_map, hselect _ (filter_subset_self _),
    hselect _ filteredRight_sublist.subset, filter_filter, ← hstored, hfound]

theorem lookups_usable (h : IndexLookupFits q plan batches leftRows) :
    ∀ row ∈ batches.flatMap fun batch => (q.lookupKeys plan batch).getD [],
      usable (extractFieldValue row plan.condition.rightField) = true := by
  intro row hrow
  obtain ⟨batch, hbatch, hrow⟩ := mem_flatMap.mp hrow
  rw [Querier.lookupKeys, if_pos (h.lookup_ok batch hbatch), Option.getD_some, Querier.runQuery]
    at hrow
  obtain ⟨stored, hstored, rfl⟩ := mem_map.mp hrow
  obtain ⟨hmem, hany⟩ := mem_filter.mp (mem_of_mem_take hstored)
  rw [h.shows_join_field stored hmem, usable]
  cases hkey : (extractFieldValue stored plan.condition.rightField).hashKey with
  | none =>
    rw [hkey] at hany
    cases hany
  | some k => exact Bool.or_true _

theorem indexLookup_eq (h : IndexLookupFits q plan batches leftRows) (hne : leftRows ≠ []) :
    indexLookup q plan batches leftRows = .ok (nestedLoopJoin q plan leftRows) := by
  obtain ⟨t, hbuild, hlookup⟩ := buildHashTable_ok (lookups_usable h) []
  obtain ⟨keys, hkeys, -⟩ := h.batching
  have hshows : ShowsJoinField q plan (filteredRight q plan) := by
    intro row hrow
    exact h.shows_join_field row (filteredRight_sublist.subset hrow)
  have hprobe : probeRows plan (lookupMatching t plan.condition) leftRows =
      .ok (matchedRows plan leftRows (selectedRight q plan)) := by
    refine probeRows_eq fun left hleft hnull => ?_
    refine lookupMatching_eq (fun k hk => ?_) (h.left_usable left hleft) hnull
    have hstored : Grouped.lookup k t = (q.rows.filter fun row =>
        (extractFieldValue row plan.condition.rightField).hashKey = some k).map
          (q.select plan.rightFields) := by
      rw [hlookup, lookups_filter h hleft hk]
      rfl
    rw [hstored]
    refine ⟨fun row hrow => ?_, lookups_matching h hleft hk⟩
    obtain ⟨stored, hmem, rfl⟩ := mem_map.mp hrow
    obtain ⟨hmem, hkey⟩ := mem_filter.mp hmem
    rw [h.shows_join_field stored hmem]
    exact of_decide_eq_true hkey
  have hrest : (unmatched (joins plan) leftRows (selectedRight q plan)).filterMap
      (rightOnly plan) = [] := by
    refine filterMap_eq_nil_iff.mpr fun row hrow => ?_
    unfold rightOnly
    refine if_neg fun hright => ?_
    obtain ⟨hmem, hall⟩ := mem_filter.mp hrow
    obtain ⟨right, hstored, rfl⟩ := mem_map.mp hmem
    obtain ⟨left, hleft, hjoins⟩ := h.right_matched hright right hstored
    rw [all_eq_true] at hall
    have hnot := hall left hleft
    rw [joins_select hshows hstored, hjoins] at hnot
    cases hnot
  rw [indexLookup, if_neg (by rwa [List.isEmpty_iff]), hkeys]
  change (buildHashTable _ _ _ >>= _) = _
  rw [hbuild]
  change probeRows plan _ leftRows = _
  rw [hprobe, ← joinRows_select hshows, joinRows, nestedLoop, hrest, append_nil]
  rfl

/-- The executor returns the rows of the nested loop, in some order. -/
def Agrees (q : Querier) (plan : Plan) (leftRows : List Row)
    (out : Except JoinError (List JoinedRow)) : Prop :=
  ∃ rows, out = .ok rows ∧ rows.Perm (nestedLoopJoin q plan leftRows)

theorem nestedLoopJoin_nil_iff : nestedLoopJoin q plan [] = [] ↔
    (plan.joinType = .right → filteredRight q plan = []) := by
  have hall : unmatched (joins plan) [] (filteredRight q plan) = filteredRight q plan :=
    filter_eq_self.mpr fun _ _ => rfl
  unfold nestedLoopJoin nestedLoop
  rw [hall]
  change (filteredRight q plan).filterMap _ = [] ↔ _
  rw [filterMap_eq_nil_iff]
  constructor
  · intro hnone hright
    refine eq_nil_iff_forall_not_mem.mpr fun row hrow => ?_
    have hrow := hnone row hrow
    rw [rightOnly, if_pos hright] at hrow
    cases hrow
  · intro hempty row hrow
    unfold rightOnly
    refine if_neg fun hright => ?_
    rw [hempty hright] at hrow
    cases hrow

theorem agrees_nil_iff : Agrees q plan [] (.ok []) ↔
    (plan.joinType = .right → filteredRight q plan = []) := by
  rw [← nestedLoopJoin_nil_iff]
  constructor
  · rintro ⟨rows, hrows, hperm⟩
    cases hrows
    exact hperm.nil_eq.symm
  · intro hnil
    exact ⟨[], rfl, by rw [hnil]⟩

/-- Where each executor returns the rows of the nested loop: always when its condition holds, and
for an empty left list exactly when the nested loop has no rows. -/
theorem executors_agree (cfg : ExecutorConfig) (fnv : Json → ℕ) (q : Querier) (plan : Plan)
    (batches : List (List HashKey)) (leftRows : List Row) :
    (leftRows = [] →
      (Agrees q plan leftRows (broadcast cfg q plan leftRows) ↔
        (plan.joinType = .right → filteredRight q plan = [])) ∧
      (Agrees q plan leftRows (indexLookup q plan batches leftRows) ↔
        (plan.joinType = .right → filteredRight q plan = [])) ∧
      (Agrees q plan leftRows (shuffle cfg fnv q plan leftRows) ↔
        (plan.joinType = .right → filteredRight q plan = []))) ∧
    (leftRows ≠ [] →
      (BroadcastFits cfg q plan leftRows →
        Agrees q plan leftRows (broadcast cfg q plan leftRows)) ∧
      (IndexLookupFits q plan batches leftRows →
        Agrees q plan leftRows (indexLookup q plan batches leftRows)) ∧
      (ShuffleFits cfg fnv q plan leftRows →
        Agrees q plan leftRows (shuffle cfg fnv q plan leftRows))) := by
  constructor
  · rintro rfl
    exact ⟨agrees_nil_iff, agrees_nil_iff, agrees_nil_iff⟩
  · intro hne
    refine ⟨fun h => ?_, fun h => ?_, fun h => shuffle_perm h hne⟩
    · exact ⟨_, broadcast_eq h hne, List.Perm.refl _⟩
    · exact ⟨_, indexLookup_eq h hne, List.Perm.refl _⟩

def sampleField : Bytes := [0x6B]

def sampleRow (id : UInt8) (bits : UInt64) : Row where
  id := [id]
  fields := [(sampleField, .num bits)]
  score := 0

/-- A right table with one row, whose key is two. -/
def sampleQuerier : Querier where
  rows := [sampleRow 0x72 0x4000000000000000]
  ids_nodup := by decide
  select _ row := row
  select_id _ _ := rfl
  queryOk := true
  lookupOk _ := true

def samplePlan (op : Operator) : Plan where
  rightTable := [0x74]
  joinType := .inner
  condition := { leftField := sampleField, rightField := sampleField, operator := op }
  rightFilters := none
  leftFields := []
  rightFields := []

theorem fetchesRight_sample (op : Operator) : FetchesRight sampleQuerier (samplePlan op) where
  query_ok := rfl
  not_truncated := by cases op <;> decide
  shows_join_field _ _ := rfl
  right_usable := by cases op <;> decide

/-- The keys two and one. -/
def sampleLeft : List Row := [sampleRow 0x6C 0x4000000000000000, sampleRow 0x6D 0x3FF0000000000000]

theorem executors_agree_sample :
    Agrees sampleQuerier (samplePlan .equal) sampleLeft
        (broadcast defaultExecutorConfig sampleQuerier (samplePlan .equal) sampleLeft) ∧
      Agrees sampleQuerier (samplePlan .equal) sampleLeft
        (indexLookup sampleQuerier (samplePlan .equal)
          [[.num (floatRank 0x4000000000000000), .num (floatRank 0x3FF0000000000000)]]
          sampleLeft) ∧
      Agrees sampleQuerier (samplePlan .equal) sampleLeft
        (shuffle defaultExecutorConfig (fun _ => 5) sampleQuerier (samplePlan .equal)
          sampleLeft) := by
  obtain ⟨hbroadcast, hlookup, hshuffle⟩ := (executors_agree defaultExecutorConfig (fun _ => 5)
    sampleQuerier (samplePlan .equal)
    [[.num (floatRank 0x4000000000000000), .num (floatRank 0x3FF0000000000000)]] sampleLeft).2
    (List.cons_ne_nil _ _)
  have husable : LeftUsable (samplePlan .equal) sampleLeft := by
    unfold LeftUsable
    decide
  refine ⟨hbroadcast ?_, hlookup ?_, hshuffle ?_⟩
  · exact {
      toFetchesRight := fetchesRight_sample .equal
      size := by decide
      left_usable := fun _ => husable }
  · exact {
      found_by_key := fun _ _ _ _ hjoins => (joins_equal_iff rfl).mp hjoins
      left_usable := husable
      shows_join_field := fun _ _ => rfl
      batching := ⟨_, rfl, List.Perm.refl _⟩
      filters_idle := fun _ _ _ hright _ _ => hright
      lookup_ok := fun _ _ => rfl
      not_truncated := by decide
      right_matched := fun h => nomatch h }
  · exact {
      toFetchesRight := fetchesRight_sample .equal
      found_by_key := fun _ _ _ _ hjoins => (joins_equal_iff rfl).mp hjoins
      left_usable := husable
      concurrency := by decide
      same_partition := by decide }

/-- One is less than two: the nested loop and broadcast pair the rows, the two executors that look
the left key up do not. -/
theorem inequality_looks_up_left_key :
    (nestedLoopJoin sampleQuerier (samplePlan .lessThan)
      [sampleRow 0x6C 0x3FF0000000000000]).length = 1 ∧
    Agrees sampleQuerier (samplePlan .lessThan) [sampleRow 0x6C 0x3FF0000000000000]
      (broadcast defaultExecutorConfig sampleQuerier (samplePlan .lessThan)
        [sampleRow 0x6C 0x3FF0000000000000]) ∧
    ¬Agrees sampleQuerier (samplePlan .lessThan) [sampleRow 0x6C 0x3FF0000000000000]
      (indexLookup sampleQuerier (samplePlan .lessThan) [[.num (floatRank 0x3FF0000000000000)]]
        [sampleRow 0x6C 0x3FF0000000000000]) ∧
    ¬Agrees sampleQuerier (samplePlan .lessThan) [sampleRow 0x6C 0x3FF0000000000000]
      (shuffle defaultExecutorConfig (fun _ => 0) sampleQuerier (samplePlan .lessThan)
        [sampleRow 0x6C 0x3FF0000000000000]) := by
  have hloop : (nestedLoopJoin sampleQuerier (samplePlan .lessThan)
      [sampleRow 0x6C 0x3FF0000000000000]).length = 1 := by decide
  have hempty : ¬Agrees sampleQuerier (samplePlan .lessThan) [sampleRow 0x6C 0x3FF0000000000000]
      (.ok []) := by
    rintro ⟨rows, hrows, hperm⟩
    cases hrows
    have hlength := hperm.length_eq
    rw [hloop] at hlength
    cases hlength
  have hpartitions : calculatePartitions defaultExecutorConfig 1 = 1 := by decide
  have hshuffle : shufflePartitions (fun _ => 0) sampleQuerier (samplePlan .lessThan)
      [sampleRow 0x6C 0x3FF0000000000000] 1 = .ok [] := by rfl
  refine ⟨hloop, ?_, hempty, ?_⟩
  · refine ⟨_, broadcast_eq ?_ (List.cons_ne_nil _ _), List.Perm.refl _⟩
    exact {
      toFetchesRight := fetchesRight_sample .lessThan
      size := by decide
      left_usable := fun h => nomatch h }
  · rw [shuffle, if_neg (by decide), List.length_singleton, hpartitions, hshuffle]
    exact hempty

end Antfly.Join
