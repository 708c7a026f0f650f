import Antfly.Join.Executors
import Antfly.Lib.Fallible

/-!
Each executor returns the rows of the nested loop when what it fetches is the filtered right table,
its keys can be keys of a map, and, for the two that only probe, the operator is an equality.
Index lookup ignores the filters of the clause and never sees right rows without a match.
-/

namespace Antfly.Join

open Joins Fallible List

def filteredRight (q : Querier) (plan : Plan) : List Row :=
  match plan.rightFilters with
  | some (holds, limit) =>
    if 0 < limit then (q.rows.filter holds).take limit.toNat else q.rows.filter holds
  | none => q.rows

/-- `compareValues` holds on the two join fields. -/
def joins (plan : Plan) (left right : Row) : Bool :=
  compareValues (extractFieldValue left plan.condition.leftField)
    (extractFieldValue right plan.condition.rightField) plan.condition.operator == some true

def matchedRows (plan : Plan) (leftRows rightRows : List Row) : List JoinedRow :=
  probe (fun left => rightRows.filter (joins plan left))
    (mergeFields plan.rightTable plan.rightFields) (leftOnly plan) leftRows

/-- The join of rows that have been fetched. -/
def joinRows (plan : Plan) (leftRows rightRows : List Row) : List JoinedRow :=
  nestedLoop (joins plan) (mergeFields plan.rightTable plan.rightFields) (leftOnly plan)
    (rightOnly plan) leftRows rightRows

/-- The nested loop over the stored rows; a joined row shows the selected fields. -/
def nestedLoopJoin (q : Querier) (plan : Plan) (leftRows : List Row) : List JoinedRow :=
  nestedLoop (joins plan)
    (fun left rights =>
      mergeFields plan.rightTable plan.rightFields left (rights.map (q.select plan.rightFields)))
    (leftOnly plan) (fun right => rightOnly plan (q.select plan.rightFields right))
    leftRows (filteredRight q plan)

variable {q : Querier} {plan : Plan} {leftRows rightRows : List Row}

/-- A value that is skipped as a key or can be one. -/
def usable (v : Json) : Bool := v.isNull || v.hashKey.isSome

theorem compareValues_ne_none {left right : Json} (op : Operator) (h : usable right = true) :
    compareValues left right op ≠ none := by
  cases op <;> cases left <;> cases right <;>
    simp_all [compareValues, valuesEqual, Json.isNull, usable, Json.hashKey]

theorem not_joins_of_null {left right : Row}
    (h : (extractFieldValue left plan.condition.leftField).isNull = true) :
    joins plan left right = false := by
  simp [joins, compareValues, h]

def SameKey (plan : Plan) (left right : Row) : Prop :=
  ∃ k, (extractFieldValue left plan.condition.leftField).hashKey = some k ∧
    (extractFieldValue right plan.condition.rightField).hashKey = some k

theorem joins_equal_iff {left right : Row} (hop : plan.condition.operator = .equal) :
    joins plan left right = true ↔ SameKey plan left right := by
  rw [joins, hop, beq_iff_eq, compareValues_equal_iff]
  rfl

theorem hashKey_of_null {v : Json} (h : v.isNull = true) : v.hashKey = none := by
  cases v <;> first | rfl | cases h

theorem buildHashTable_ok {field : Bytes}
    (h : ∀ row ∈ rightRows, usable (extractFieldValue row field) = true) (t : HashTable) :
    ∃ t', buildHashTable field t rightRows = .ok t' ∧ ∀ k, Grouped.lookup k t' =
      Grouped.lookup k t ++
        rightRows.filter fun row => (extractFieldValue row field).hashKey = some k := by
  induction rightRows generalizing t with
  | nil => exact ⟨t, rfl, fun k => (append_nil _).symm⟩
  | cons row rows ih =>
    have hrow := h row mem_cons_self
    have hrows := ih fun row' hmem => h row' (mem_cons_of_mem row hmem)
    unfold buildHashTable
    dsimp only
    by_cases hnull : (extractFieldValue row field).isNull = true
    · rw [if_pos hnull]
      obtain ⟨t', hbuild, hlookup⟩ := hrows t
      refine ⟨t', hbuild, fun k => ?_⟩
      rw [hlookup, filter_cons_of_neg (by simp [hashKey_of_null hnull])]
    · rw [if_neg hnull]
      rw [usable, Bool.or_eq_true, Option.isSome_iff_exists] at hrow
      obtain ⟨k₀, hk₀⟩ := hrow.resolve_left hnull
      rw [hk₀]
      obtain ⟨t', hbuild, hlookup⟩ := hrows (Grouped.insert k₀ row t)
      refine ⟨t', hbuild, fun k => ?_⟩
      rw [hlookup, Grouped.lookup_insert, append_assoc]
      by_cases hk : k₀ = k
      · rw [if_pos hk, filter_cons_of_pos (by simp [hk₀, hk]), singleton_append]
      · rw [if_neg hk, filter_cons_of_neg (by simp [hk₀, hk]), nil_append]

theorem matching_eq_filter (left : Row)
    (h : ∀ row ∈ rightRows, usable (extractFieldValue row plan.condition.rightField) = true) :
    matching (extractFieldValue left plan.condition.leftField) plan.condition rightRows =
      .ok (rightRows.filter (joins plan left)) := by
  induction rightRows with
  | nil => rfl
  | cons row rows ih =>
    have hrest := ih fun row' hmem => h row' (mem_cons_of_mem row hmem)
    have hsome : compareValues (extractFieldValue left plan.condition.leftField)
        (extractFieldValue row plan.condition.rightField) plan.condition.operator ≠ none :=
      compareValues_ne_none plan.condition.operator (h row mem_cons_self)
    unfold matching
    cases hcompare : compareValues (extractFieldValue left plan.condition.leftField)
        (extractFieldValue row plan.condition.rightField) plan.condition.operator with
    | none => exact absurd hcompare hsome
    | some b =>
      cases b with
      | true =>
        rw [filter_cons_of_pos (by rw [joins, hcompare]; rfl), hrest]
        rfl
      | false =>
        rw [filter_cons_of_neg (by rw [joins, hcompare]; exact Bool.false_ne_true), hrest]

theorem usable_of_hashKey {v : Json} {k : HashKey} (h : v.hashKey = some k) : usable v = true := by
  rw [usable, h]
  exact Bool.or_true _

theorem exists_hashKey {v : Json} (h : usable v = true) (hnull : v.isNull = false) :
    ∃ k, v.hashKey = some k := by
  rwa [usable, hnull, Bool.false_or, Option.isSome_iff_exists] at h

theorem lookup_eq_filter {t : HashTable} {left : Row} (hop : plan.condition.operator = .equal)
    (ht : ∀ k, Grouped.lookup k t = rightRows.filter fun row =>
      (extractFieldValue row plan.condition.rightField).hashKey = some k)
    (hleft : usable (extractFieldValue left plan.condition.leftField) = true)
    (hnull : (extractFieldValue left plan.condition.leftField).isNull = false) :
    t.lookup (extractFieldValue left plan.condition.leftField) =
      .ok (rightRows.filter (joins plan left)) := by
  obtain ⟨k, hk⟩ := exists_hashKey hleft hnull
  unfold HashTable.lookup
  rw [hk]
  dsimp only
  rw [ht k]
  refine congrArg Except.ok (filter_congr fun row _ => ?_)
  rw [Bool.eq_iff_iff, joins_equal_iff hop, SameKey, hk, decide_eq_true_eq]
  constructor
  · intro hrow
    exact ⟨k, rfl, hrow⟩
  · rintro ⟨k', hk', hrow⟩
    rw [hrow, ← hk']

theorem lookupMatching_eq {t : HashTable} {left : Row}
    (hfound : ∀ k, (extractFieldValue left plan.condition.leftField).hashKey = some k →
      (∀ row ∈ Grouped.lookup k t,
        (extractFieldValue row plan.condition.rightField).hashKey = some k) ∧
      (Grouped.lookup k t).filter (joins plan left) = rightRows.filter (joins plan left))
    (hleft : usable (extractFieldValue left plan.condition.leftField) = true)
    (hnull : (extractFieldValue left plan.condition.leftField).isNull = false) :
    lookupMatching t plan.condition (extractFieldValue left plan.condition.leftField) =
      .ok (rightRows.filter (joins plan left)) := by
  obtain ⟨k, hk⟩ := exists_hashKey hleft hnull
  obtain ⟨hkey, hfilter⟩ := hfound k hk
  have hlookup : t.lookup (extractFieldValue left plan.condition.leftField) =
      .ok (Grouped.lookup k t) := by
    unfold HashTable.lookup
    rw [hk]
  rw [lookupMatching, hlookup, ← hfilter]
  change (if _ then _ else _) = _
  split
  · next hop =>
    have hall : ∀ row ∈ Grouped.lookup k t, joins plan left row = true := by
      intro row hrow
      exact (joins_equal_iff hop).mpr ⟨k, hk, hkey row hrow⟩
    rw [filter_eq_self.mpr hall]
  · exact matching_eq_filter left fun row hrow => usable_of_hashKey (hkey row hrow)

/-- The loop over the left rows is that of the nested loop when each finds its matches. -/
theorem probeRows_eq {found : Json → Except JoinError (List Row)}
    (h : ∀ left ∈ leftRows, (extractFieldValue left plan.condition.leftField).isNull = false →
      found (extractFieldValue left plan.condition.leftField) =
        .ok (rightRows.filter (joins plan left))) :
    probeRows plan found leftRows =
      .ok (matchedRows plan leftRows rightRows) := by
  induction leftRows with
  | nil => rfl
  | cons left lefts ih =>
    have hrest := ih fun left' hmem => h left' (mem_cons_of_mem left hmem)
    have hfound : matchesOf plan found left = .ok (rightRows.filter (joins plan left)) := by
      unfold matchesOf
      dsimp only
      cases hnull : (extractFieldValue left plan.condition.leftField).isNull with
      | true =>
        rw [if_pos rfl, filter_eq_nil_iff.mpr]
        intro row _
        rw [not_joins_of_null hnull]
        exact Bool.false_ne_true
      | false =>
        rw [if_neg Bool.false_ne_true]
        exact h left mem_cons_self hnull
    unfold probeRows
    rw [hfound, hrest]
    unfold matchedRows
    rw [probe_cons]
    cases rightRows.filter (joins plan left) with
    | nil => rfl
    | cons right rights => rfl

theorem mem_matchedRows {j : JoinedRow} (hj : j ∈ matchedRows plan leftRows rightRows) {row : Row}
    (hrow : row ∈ j.rightRows) :
    ∃ left ∈ leftRows, row ∈ rightRows.filter (joins plan left) := by
  obtain ⟨left, hmem, hleft⟩ := mem_filterMap.mp hj
  refine ⟨left, hmem, ?_⟩
  dsimp only at hleft
  cases hfound : rightRows.filter (joins plan left) with
  | nil =>
    rw [hfound] at hleft
    dsimp only [leftOnly] at hleft
    split at hleft
    · cases hleft
      cases hrow
    · cases hleft
  | cons right rights =>
    rw [hfound] at hleft
    cases hleft
    exact hrow

theorem unmatchedById_eq (hids : (rightRows.map Row.id).Nodup) :
    unmatchedById (matchedRows plan leftRows rightRows) rightRows =
      unmatched (joins plan) leftRows rightRows := by
  refine filter_congr fun right hright => ?_
  rw [Bool.eq_iff_iff, all_eq_true, all_eq_true]
  constructor
  · intro hall left hleft
    rw [Bool.not_eq_true']
    by_contra hjoins
    rw [Bool.not_eq_false] at hjoins
    have hfound : right ∈ rightRows.filter (joins plan left) :=
      mem_filter.mpr ⟨hright, hjoins⟩
    obtain ⟨first, rest, hcons⟩ := exists_cons_of_ne_nil (ne_nil_of_mem hfound)
    have hmem : mergeFields plan.rightTable plan.rightFields left (first :: rest) ∈
        matchedRows plan leftRows rightRows := by
      refine mem_filterMap.mpr ⟨left, hleft, ?_⟩
      dsimp only
      rw [hcons]
    have hids := hall _ hmem
    rw [all_eq_true] at hids
    have hself := hids right (by rw [hcons] at hfound; exact hfound)
    exact of_decide_eq_true hself rfl
  · intro hall j hj
    rw [all_eq_true]
    intro row hrow
    rw [decide_eq_true_eq]
    intro hid
    obtain ⟨left, hleft, hfound⟩ := mem_matchedRows hj hrow
    obtain ⟨hmem, hjoins⟩ := mem_filter.mp hfound
    have hsame : row = right := inj_on_of_nodup_map hids hmem hright hid
    have hnot := hall left hleft
    rw [← hsame, hjoins] at hnot
    cases hnot

end Antfly.Join
