import Antfly.Foreign.Filter

/-!
`MatchWildcard` fills a table of which it keeps two rows.  The row before the last one is cleared
and written over in place; then the two change their roles.
-/

namespace Antfly.Evaluator

open Foreign Glob List

/-- The inner loop for `*`, up to the column `n`. -/
def fillAny (prev : List Bool) (n : ℕ) (curr : List Bool) : List Bool :=
  (List.range n).foldl
    (fun curr k => curr.set (k + 1) (prev.getD (k + 1) false || curr.getD k false)) curr

/-- The inner loop for another byte of the pattern: a cell is written where the byte fits. -/
def fillByte (pc : UInt8) (s : Bytes) (prev : List Bool) (n : ℕ) (curr : List Bool) : List Bool :=
  (List.range n).foldl
    (fun curr k =>
      if pc = 63 ∨ pc = s.getD k 0 then curr.set (k + 1) (prev.getD k false) else curr) curr

/-- What one byte of the pattern makes of `prev` and `curr`, which are swapped in the end. -/
def fillRow (s : Bytes) (rows : List Bool × List Bool) (pc : UInt8) : List Bool × List Bool :=
  let cleared := rows.2.map fun _ => false
  let curr :=
    if pc = 42 then fillAny rows.1 s.length (cleared.set 0 (rows.1.getD 0 false))
    else fillByte pc s rows.1 s.length cleared
  (curr, rows.1)

def matchWildcard (pattern s : Bytes) : Bool :=
  (pattern.foldl (fillRow s)
    (true :: List.replicate s.length false, List.replicate (s.length + 1) false)).1.getD
      s.length false

/-- The cells of a row say which beginnings of the text the items match. -/
structure RowOf (items : List (Item UInt8)) (s : Bytes) (row : List Bool) : Prop where
  length : row.length = s.length + 1
  cell : ∀ j ≤ s.length, row.getD j false = isMatch items (s.take j)

variable {items : List (Item UInt8)} {s : Bytes} {prev curr : List Bool} {pc : UInt8}

theorem getD_set_self {row : List Bool} {j : ℕ} (h : j < row.length) (b : Bool) :
    (row.set j b).getD j false = b := by
  simp [getD_eq_getElem?_getD, h]

theorem getD_set_ne {row : List Bool} {i j : ℕ} (h : i ≠ j) (b : Bool) :
    (row.set i b).getD j false = row.getD j false := by
  simp [getD_eq_getElem?_getD, getElem?_set_ne h]

theorem take_succ_getD {k : ℕ} (hk : k < s.length) : s.take (k + 1) = s.take k ++ [s.getD k 0] := by
  rw [take_succ_eq_append_getElem hk]
  simp [getD_eq_getElem?_getD, hk]

theorem isMatch_any_step (u : Bytes) (c : UInt8) :
    isMatch (items ++ [.any]) (u ++ [c]) =
      (isMatch items (u ++ [c]) || isMatch (items ++ [.any]) u) := by
  rw [isMatch_append_any, isMatch_append_any, inits_append, any_append]
  simp [Bool.or_comm]

theorem fillAny_cell (hprev : RowOf items s prev) (hlength : curr.length = s.length + 1)
    (hzero : curr.getD 0 false = isMatch (items ++ [.any]) []) {n : ℕ} (hn : n ≤ s.length) :
    (fillAny prev n curr).length = s.length + 1 ∧
      ∀ j ≤ n, (fillAny prev n curr).getD j false = isMatch (items ++ [.any]) (s.take j) := by
  induction n with
  | zero =>
    refine ⟨hlength, fun j hj => ?_⟩
    rw [Nat.le_zero.mp hj, take_zero]
    exact hzero
  | succ n ih =>
    obtain ⟨hlen, hcell⟩ := ih (Nat.le_of_succ_le hn)
    have hstep : fillAny prev (n + 1) curr = (fillAny prev n curr).set (n + 1)
        (prev.getD (n + 1) false || (fillAny prev n curr).getD n false) := by
      unfold fillAny
      rw [range_succ, foldl_append]
      rfl
    rw [hstep]
    refine ⟨by rw [length_set, hlen], fun j hj => ?_⟩
    rcases Nat.lt_or_eq_of_le hj with hlt | rfl
    · rw [getD_set_ne (by omega), hcell j (by omega)]
    · rw [getD_set_self (by omega), hprev.cell _ hn, hcell n le_rfl, take_succ_getD hn,
        isMatch_any_step]

/-- The loop for a byte has written the columns up to `n`; the later ones are as they were. -/
theorem fillByte_cell (hprev : RowOf items s prev) (hlength : curr.length = s.length + 1)
    (hclear : ∀ j, curr.getD j false = false) (hpc : pc ≠ 42) {n : ℕ} (hn : n ≤ s.length) :
    (fillByte pc s prev n curr).length = s.length + 1 ∧
      (∀ j ≤ n, (fillByte pc s prev n curr).getD j false =
        isMatch (items ++ [wildcardItem pc]) (s.take j)) ∧
      ∀ j, n < j → (fillByte pc s prev n curr).getD j false = false := by
  have hitem : isMatch [wildcardItem pc] [] = false := by
    unfold wildcardItem
    split <;> [contradiction; split <;> rfl]
  induction n with
  | zero =>
    refine ⟨hlength, fun j hj => ?_, fun j _ => hclear j⟩
    rw [Nat.le_zero.mp hj, take_zero, isMatch_append_nil hitem]
    exact hclear 0
  | succ n ih =>
    obtain ⟨hlen, hcell, hlater⟩ := ih (Nat.le_of_succ_le hn)
    have hstep : fillByte pc s prev (n + 1) curr =
        if pc = 63 ∨ pc = s.getD n 0 then
          (fillByte pc s prev n curr).set (n + 1) (prev.getD n false)
        else fillByte pc s prev n curr := by
      unfold fillByte
      rw [range_succ, foldl_append]
      rfl
    have hvalue : isMatch (items ++ [wildcardItem pc]) (s.take (n + 1)) =
        (decide (pc = 63 ∨ pc = s.getD n 0) && prev.getD n false) := by
      rw [take_succ_getD hn, hprev.cell n (Nat.le_of_succ_le hn)]
      unfold wildcardItem
      rw [if_neg hpc]
      by_cases hone : pc = 63
      · rw [if_pos hone, isMatch_append_one, decide_eq_true (.inl hone), Bool.true_and]
      · rw [if_neg hone, isMatch_append_letter]
        simp only [hone, false_or]
    rw [hstep]
    split
    · next hfits =>
      refine ⟨by rw [length_set, hlen], fun j hj => ?_, fun j hj => ?_⟩
      · rcases Nat.lt_or_eq_of_le hj with hlt | rfl
        · rw [getD_set_ne (by omega), hcell j (by omega)]
        · rw [getD_set_self (by omega), hvalue, decide_eq_true hfits, Bool.true_and]
      · rw [getD_set_ne (by omega), hlater j (by omega)]
    · next hfits =>
      refine ⟨hlen, fun j hj => ?_, fun j hj => hlater j (by omega)⟩
      rcases Nat.lt_or_eq_of_le hj with hlt | rfl
      · exact hcell j (by omega)
      · rw [hlater _ (Nat.lt_succ_self n), hvalue, decide_eq_false hfits, Bool.false_and]

theorem RowOf.fillRow {rows : List Bool × List Bool} (hprev : RowOf items s rows.1)
    (hlength : rows.2.length = s.length + 1) (pc : UInt8) :
    RowOf (items ++ [wildcardItem pc]) s (fillRow s rows pc).1 := by
  unfold Evaluator.fillRow
  have hclear : ∀ j, (rows.2.map fun _ => false).getD j false = false := by
    intro j
    rw [map_const', getD_eq_getElem?_getD, getElem?_replicate]
    split <;> rfl
  by_cases hpc : pc = 42
  · have hzero : ((rows.2.map fun _ => false).set 0 (rows.1.getD 0 false)).getD 0 false =
        isMatch (items ++ [.any]) [] := by
      rw [getD_set_self (by simp [hlength]), hprev.cell 0 (Nat.zero_le _), isMatch_append_any]
      simp
    obtain ⟨hlen, hcell⟩ := fillAny_cell hprev (by simp [hlength]) hzero le_rfl
    have hitem : wildcardItem pc = .any := if_pos hpc
    rw [hitem]
    simp only [if_pos hpc]
    exact ⟨hlen, hcell⟩
  · obtain ⟨hlen, hcell, -⟩ := fillByte_cell hprev (by simp [hlength]) hclear hpc le_rfl
    simp only [if_neg hpc]
    exact ⟨hlen, hcell⟩

theorem foldl_fillRow (pattern : Bytes) (rows : List Bool × List Bool)
    (hrow : RowOf items s rows.1) (hlength : rows.2.length = s.length + 1) :
    RowOf (items ++ pattern.map wildcardItem) s (pattern.foldl (fillRow s) rows).1 := by
  induction pattern generalizing items rows with
  | nil => rwa [map_nil, append_nil]
  | cons pc pattern ih =>
    rw [map_cons, append_cons, foldl_cons]
    exact ih _ (hrow.fillRow hlength pc) hrow.length

theorem rowOf_first (s : Bytes) : RowOf [] s (true :: List.replicate s.length false) := by
  refine ⟨by simp, fun j hj => ?_⟩
  rw [Bool.eq_iff_iff, isMatch_nil_iff, take_eq_nil_iff]
  cases j with
  | zero => exact iff_of_true rfl (.inl rfl)
  | succ j =>
    refine iff_of_false ?_ ?_
    · rw [getD_cons_succ, getD_eq_getElem?_getD, getElem?_replicate]
      split <;> exact Bool.false_ne_true
    · rintro (h | rfl)
      · cases h
      · exact absurd hj (Nat.not_succ_le_zero j)

theorem matchWildcard_eq_isMatch (pattern s : Bytes) :
    matchWildcard pattern s = isMatch (pattern.map wildcardItem) s := by
  have hlast := (foldl_fillRow pattern (_, List.replicate (s.length + 1) false) (rowOf_first s)
    length_replicate).cell s.length le_rfl
  rw [take_length, nil_append] at hlast
  exact hlast

/-- What may stand in the place of a byte of the pattern. -/
def Replaces (pc : UInt8) (piece : Bytes) : Prop :=
  if pc = 42 then True else if pc = 63 then piece.length = 1 else piece = [pc]

theorem isMatch_iff_replaces (pattern s : Bytes) :
    isMatch (pattern.map wildcardItem) s = true ↔
      ∃ pieces, List.Forall₂ Replaces pattern pieces ∧ pieces.flatten = s := by
  induction pattern generalizing s with
  | nil =>
    rw [map_nil, isMatch_nil_iff]
    constructor
    · rintro rfl
      exact ⟨[], .nil, rfl⟩
    · rintro ⟨pieces, hpieces, rfl⟩
      cases hpieces
      rfl
  | cons pc pattern ih =>
    have hone : isMatch ([wildcardItem pc] ++ pattern.map wildcardItem) s = true ↔
        ∃ piece rest, s = piece ++ rest ∧ Replaces pc piece ∧
          isMatch (pattern.map wildcardItem) rest = true := by
      rw [isMatch_append_iff]
      refine exists₂_congr fun piece rest => and_congr_right fun _ => and_congr_left fun _ => ?_
      unfold Replaces wildcardItem
      split
      · exact iff_of_true (isMatch_any_iff.mpr ⟨[], nil_suffix, rfl⟩) trivial
      · split
        · simp [isMatch_one_iff, isMatch_nil_iff, length_eq_one_iff]
        · simp [isMatch_letter_iff, isMatch_nil_iff]
    rw [map_cons, ← singleton_append, hone]
    constructor
    · rintro ⟨piece, rest, rfl, hpiece, hrest⟩
      obtain ⟨pieces, hpieces, rfl⟩ := (ih rest).mp hrest
      exact ⟨piece :: pieces, .cons hpiece hpieces, flatten_cons⟩
    · rintro ⟨pieces, hpieces, rfl⟩
      cases hpieces with
      | cons hpiece hpieces =>
        exact ⟨_, _, flatten_cons, hpiece, (ih _).mpr ⟨_, hpieces, rfl⟩⟩

/-- The matcher accepts the strings that are the pattern with its wildcards replaced. -/
theorem matchWildcard_iff (pattern s : Bytes) :
    matchWildcard pattern s = true ↔
      ∃ pieces, List.Forall₂ Replaces pattern pieces ∧ pieces.flatten = s := by
  rw [matchWildcard_eq_isMatch]
  exact isMatch_iff_replaces pattern s

end Antfly.Evaluator
