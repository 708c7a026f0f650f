import Mathlib.Data.List.Basic
import Mathlib.Data.List.Infix
import Mathlib.Data.List.Count
import Mathlib.Order.Lattice

/-!
A loop that visits a list and stops once `n` of the visited elements were counted has visited a
beginning of the list.  It is the whole list, or the last element of it is the `n`-th counted one.
-/

namespace CountedPrefix

open List

variable {α : Type*} (p : α → Bool)

/-- The elements visited until `n` of them satisfied `p`. -/
def takeCounted : ℕ → List α → List α
  | 0, _ => []
  | _ + 1, [] => []
  | n + 1, a :: l => a :: takeCounted (if p a then n else n + 1) l

variable {p}

theorem takeCounted_begins (n : ℕ) (l : List α) : takeCounted p n l <+: l := by
  induction l generalizing n with
  | nil => cases n <;> exact prefix_rfl
  | cons a l ih =>
    cases n with
    | zero => exact nil_prefix
    | succ n =>
      rw [takeCounted]
      exact (prefix_cons_inj a).mpr (ih _)

theorem takeCounted_eq_or (n : ℕ) (l : List α) :
    takeCounted p n l = l ∨ (takeCounted p n l).countP p = n := by
  induction l generalizing n with
  | nil => cases n <;> exact .inl rfl
  | cons a l ih =>
    cases n with
    | zero => exact .inr rfl
    | succ n =>
      rw [takeCounted]
      rcases ih (if p a then n else n + 1) with h | h
      · exact .inl (by rw [h])
      · refine .inr ?_
        rw [countP_cons, h]
        cases p a <;> rfl

theorem takeCounted_append {l l' : List α} (h : ∀ a ∈ l, p a = true) :
    takeCounted p l.length (l ++ l') = l := by
  induction l with
  | nil => rw [length_nil, takeCounted]
  | cons a l ih =>
    rw [length_cons, cons_append, takeCounted, h a mem_cons_self, if_pos rfl,
      ih fun b hb => h b (mem_cons_of_mem a hb)]

theorem takeCounted_of_length_le {n : ℕ} {l : List α} (h : l.length ≤ n) :
    takeCounted p n l = l := by
  induction l generalizing n with
  | nil => cases n <;> rfl
  | cons a l ih =>
    rw [length_cons] at h
    obtain ⟨m, rfl⟩ : ∃ m, n = m + 1 := ⟨n - 1, by omega⟩
    have hle : l.length ≤ if p a then m else m + 1 := by
      split <;> omega
    rw [takeCounted, ih hle]

variable {β : Type*} [LinearOrder β] {f : α → β}

/-- In a sorted list just those elements are visited that have too few counted ones before them. -/
theorem mem_takeCounted_iff {n : ℕ} {l : List α} (hl : l.Pairwise fun a b => f a < f b) {x : α} :
    x ∈ takeCounted p n l ↔ x ∈ l ∧ (l.filter fun b => f b < f x).countP p < n := by
  induction l generalizing n with
  | nil => cases n <;> simp [takeCounted]
  | cons a l ih =>
    obtain ⟨hhead, htail⟩ := pairwise_cons.mp hl
    cases n with
    | zero => simp [takeCounted]
    | succ n =>
      rw [takeCounted, mem_cons, ih htail, mem_cons]
      by_cases hx : x = a
      · subst hx
        have hnone : (x :: l).filter (fun b => f b < f x) = [] := by
          rw [filter_eq_nil_iff]
          intro b hb
          rcases mem_cons.mp hb with rfl | hb
          · simp
          · simpa using (hhead b hb).le
        rw [hnone]
        simp
      · rw [or_iff_right hx, or_iff_right hx]
        refine and_congr_right fun hmem => ?_
        rw [filter_cons_of_pos (by simpa using hhead x hmem), countP_cons]
        cases p a <;> simp

/-- The list with its first `n` elements, or the whole list. -/
def upTo (n : Option ℕ) (l : List β) : List β :=
  match n with
  | some n => l.take n
  | none => l

/-- A sorted list begins as another one does exactly when it holds that beginning, and what else it
holds comes after it where the beginning is cut. -/
theorem upTo_eq_upTo_iff {n : Option ℕ} {l l' : List β} (hl : l.Pairwise (· < ·))
    (hl' : l'.Pairwise (· < ·)) :
    upTo n l = upTo n l' ↔
      (∀ x ∈ upTo n l', x ∈ l) ∧
        ∀ x ∈ l, x ∉ upTo n l' → n = some (upTo n l').length ∧ ∀ y ∈ upTo n l', y < x := by
  constructor
  · intro h
    rw [← h]
    cases n with
    | none => exact ⟨fun _ hx => hx, fun x hx hnot => absurd hx hnot⟩
    | some n =>
      refine ⟨fun _ hx => mem_of_mem_take hx, fun x hx hnot => ?_⟩
      have hdrop : x ∈ l.drop n := by
        rw [← take_append_drop n l] at hx
        exact (mem_append.mp hx).resolve_left hnot
      have hlength : n ≤ l.length := by
        by_contra hlt
        rw [drop_eq_nil_of_le (not_le.mp hlt).le] at hdrop
        cases hdrop
      refine ⟨by simp [upTo, hlength], fun y hy => ?_⟩
      rw [← take_append_drop n l, pairwise_append] at hl
      exact hl.2.2 y hy x hdrop
  · rintro ⟨hsub, hothers⟩
    have hbegin : (upTo n l').Pairwise (· < ·) := by
      cases n with
      | none => exact hl'
      | some n => exact hl'.sublist (take_sublist n l')
    -- the list is the beginning and then its other elements
    have hsplit : l = upTo n l' ++ l.filter (· ∉ upTo n l') := by
      refine List.Perm.eq_of_pairwise (fun a b _ _ hab hba => absurd hba hab.not_gt) hl ?_ ?_
      · rw [pairwise_append]
        refine ⟨hbegin, hl.filter _, fun y hy x hx => ?_⟩
        obtain ⟨hx, hnot⟩ := mem_filter.mp hx
        exact (hothers x hx (by simpa using hnot)).2 y hy
      · refine (perm_ext_iff_of_nodup (hl.imp fun h => h.ne) ?_).mpr fun x => ?_
        · refine nodup_append.mpr
            ⟨hbegin.imp fun h => h.ne, (hl.imp fun h => h.ne).filter _, fun x hx y hy => ?_⟩
          rintro rfl
          simpa [hx] using (mem_filter.mp hy).2
        · rw [mem_append, mem_filter]
          by_cases hx : x ∈ upTo n l'
          · exact iff_of_true (hsub x hx) (.inl hx)
          · simp [hx]
    cases hrest : l.filter (· ∉ upTo n l') with
    | nil =>
      rw [hrest, append_nil] at hsplit
      rw [hsplit]
      cases n with
      | none => rfl
      | some n => exact take_of_length_le (length_take_le n l')
    | cons x rest =>
      have hx : x ∈ l.filter (· ∉ upTo n l') := by rw [hrest]; exact mem_cons_self
      obtain ⟨hmem, hnot⟩ := mem_filter.mp hx
      obtain ⟨hn, -⟩ := hothers x hmem (by simpa using hnot)
      generalize hT : upTo n l' = T at *
      rw [hn, hsplit]
      exact take_left' rfl

end CountedPrefix
