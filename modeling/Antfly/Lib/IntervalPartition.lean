import Mathlib.Order.Interval.Set.Defs
import Mathlib.Order.Lattice
import Mathlib.Tactic.Push

/-!
A family of half-open intervals `[a, b)` of a linear order, indexed by the identifiers of their
owners, that covers a set without overlaps.  Cutting an interval in two and joining two intervals
that touch keep the partition, as long as the cut hands its upper half to a new owner.
-/

/-- Every owner has a nonempty interval, no point has two owners, and the points with an owner are
those of `K`. -/
structure IntervalPartition {ι α : Type*} [LinearOrder α] (f : ι → Option (α × α)) (K : Set α) :
    Prop where
  nonempty : ∀ i p, f i = some p → p.1 < p.2
  disjoint : ∀ i j p q x, f i = some p → f j = some q → x ∈ Set.Ico p.1 p.2 →
    x ∈ Set.Ico q.1 q.2 → i = j
  union : ∀ x, (∃ i p, f i = some p ∧ x ∈ Set.Ico p.1 p.2) ↔ x ∈ K

namespace IntervalPartition

variable {ι α : Type*} [LinearOrder α] {f g : ι → Option (α × α)} {K : Set α} {i j : ι}
  {a b c : α}

theorem of_bounds {n : ℕ} {bound : ℕ → α} (hmono : ∀ k < n, bound k < bound (k + 1)) {s : ℕ}
    {f : ℕ → Option (α × α)}
    (hf : ∀ i, f i = if s ≤ i ∧ i < s + n then some (bound (i - s), bound (i - s + 1)) else none) :
    IntervalPartition f (Set.Ico (bound 0) (bound n)) := by
  have hle : ∀ k l, k ≤ l → l ≤ n → bound k ≤ bound l := by
    intro k l hkl hl
    induction l, hkl using Nat.le_induction with
    | base => exact le_rfl
    | succ l _ ih => exact (ih (Nat.le_of_succ_le hl)).trans (hmono l hl).le
  have hinv : ∀ i p, f i = some p → ∃ k < n, i = s + k ∧ p = (bound k, bound (k + 1)) := by
    intro i p hp
    rw [hf] at hp
    split at hp
    · rename_i hi
      cases hp
      exact ⟨i - s, by omega, by omega, rfl⟩
    · cases hp
  refine ⟨fun i p hp => ?_, fun i j p q x hp hq hx hy => ?_, fun x => ⟨?_, fun hx => ?_⟩⟩
  · obtain ⟨k, hk, -, rfl⟩ := hinv i p hp
    exact hmono k hk
  · obtain ⟨k, hk, rfl, rfl⟩ := hinv i p hp
    obtain ⟨l, hl, rfl, rfl⟩ := hinv j q hq
    rcases lt_trichotomy k l with hkl | rfl | hlk
    · exact absurd (hx.2.trans_le (hle (k + 1) l hkl hl.le)) (not_lt.mpr hy.1)
    · rfl
    · exact absurd (hy.2.trans_le (hle (l + 1) k hlk hk.le)) (not_lt.mpr hx.1)
  · rintro ⟨i, p, hp, hx⟩
    obtain ⟨k, hk, -, rfl⟩ := hinv i p hp
    exact ⟨(hle 0 k (Nat.zero_le k) hk.le).trans hx.1, hx.2.trans_le (hle (k + 1) n hk le_rfl)⟩
  · -- The interval of `x` starts at the last bound that is not above it.
    have hfind : ∀ m ≤ n, x < bound m → ∃ k < m, bound k ≤ x ∧ x < bound (k + 1) := by
      intro m hm hlt
      induction m with
      | zero => exact absurd hlt (not_lt.mpr hx.1)
      | succ m ih =>
        rcases lt_or_ge x (bound m) with hlow | hlow
        · obtain ⟨k, hk, hkx⟩ := ih (Nat.le_of_succ_le hm) hlow
          exact ⟨k, hk.trans (Nat.lt_succ_self m), hkx⟩
        · exact ⟨m, Nat.lt_succ_self m, hlow, hlt⟩
    obtain ⟨k, hk, hkx⟩ := hfind n le_rfl hx.2
    refine ⟨s + k, (bound k, bound (k + 1)), ?_, hkx⟩
    rw [hf, if_pos ⟨Nat.le_add_right s k, Nat.add_lt_add_left hk s⟩, Nat.add_sub_cancel_left]

/-- Cutting the interval of `i` at an inner point hands the upper half to the new owner `j`. -/
theorem split [DecidableEq ι] (h : IntervalPartition f K) (hij : i ≠ j) (hi : f i = some (a, c))
    (hj : f j = none) (hab : a < b) (hbc : b < c)
    (hg : ∀ x, g x = if x = j then some (b, c) else if x = i then some (a, b) else f x) :
    IntervalPartition g K := by
  -- Every interval of the new family lies inside the old interval of its parent.
  have hparent : ∀ k p, g k = some p → (k = j ∧ p = (b, c)) ∨ (k = i ∧ p = (a, b)) ∨
      (k ≠ i ∧ k ≠ j ∧ f k = some p) := by
    intro k p hp
    rw [hg] at hp
    split at hp
    · cases hp
      exact .inl ⟨‹_›, rfl⟩
    · split at hp
      · cases hp
        exact .inr (.inl ⟨‹_›, rfl⟩)
      · exact .inr (.inr ⟨‹_›, ‹_›, hp⟩)
  refine ⟨fun k p hp => ?_, fun k l p q x hp hq hx hy => ?_, fun x => ?_⟩
  · rcases hparent k p hp with ⟨-, rfl⟩ | ⟨-, rfl⟩ | ⟨-, -, hold⟩
    · exact hbc
    · exact hab
    · exact h.nonempty k p hold
  · have hupper : x ∈ Set.Ico b c → x ∈ Set.Ico a c := fun hx => ⟨hab.le.trans hx.1, hx.2⟩
    have hlower : x ∈ Set.Ico a b → x ∈ Set.Ico a c := fun hx => ⟨hx.1, hx.2.trans hbc⟩
    rcases hparent k p hp with ⟨rfl, rfl⟩ | ⟨rfl, rfl⟩ | ⟨hki, hkj, hold⟩ <;>
      rcases hparent l q hq with ⟨rfl, rfl⟩ | ⟨rfl, rfl⟩ | ⟨hli, hlj, hold'⟩
    · rfl
    · exact absurd hy.2 (not_lt.mpr hx.1)
    · exact absurd (h.disjoint _ _ _ _ x hi hold' (hupper hx) hy).symm hli
    · exact absurd hx.2 (not_lt.mpr hy.1)
    · rfl
    · exact absurd (h.disjoint _ _ _ _ x hi hold' (hlower hx) hy).symm hli
    · exact absurd (h.disjoint _ _ _ _ x hold hi hx (hupper hy)) hki
    · exact absurd (h.disjoint _ _ _ _ x hold hi hx (hlower hy)) hki
    · exact h.disjoint k l p q x hold hold' hx hy
  · rw [← h.union x]
    constructor
    · rintro ⟨k, p, hp, hx⟩
      rcases hparent k p hp with ⟨-, rfl⟩ | ⟨-, rfl⟩ | ⟨-, -, hold⟩
      · exact ⟨i, _, hi, hab.le.trans hx.1, hx.2⟩
      · exact ⟨i, _, hi, hx.1, hx.2.trans hbc⟩
      · exact ⟨k, p, hold, hx⟩
    · rintro ⟨k, p, hp, hx⟩
      by_cases hki : k = i
      · subst hki
        rw [hi] at hp
        cases hp
        rcases lt_or_ge x b with hxb | hxb
        · exact ⟨k, (a, b), by rw [hg, if_neg hij, if_pos rfl], hx.1, hxb⟩
        · exact ⟨j, (b, c), by rw [hg, if_pos rfl], hxb, hx.2⟩
      · have hkj : k ≠ j := by
          rintro rfl
          rw [hj] at hp
          cases hp
        exact ⟨k, p, by rw [hg, if_neg hkj, if_neg hki, hp], hx⟩

/-- Handing the upper half to an owner that has an interval already loses that interval. -/
theorem not_split_of_used [DecidableEq ι] (h : IntervalPartition f K) (hij : i ≠ j)
    (hi : f i = some (a, c)) {q : α × α} (hj : f j = some q) (hab : a < b) (hbc : b < c)
    (hg : ∀ x, g x = if x = j then some (b, c) else if x = i then some (a, b) else f x) :
    ¬ IntervalPartition g K := by
  intro h'
  have hq : q.1 ∈ Set.Ico q.1 q.2 := ⟨le_rfl, h.nonempty j q hj⟩
  obtain ⟨k, p, hp, hx⟩ := (h'.union q.1).mpr ((h.union q.1).mp ⟨j, q, hj, hq⟩)
  rw [hg] at hp
  split at hp
  · cases hp
    exact hij (h.disjoint i j _ _ q.1 hi hj ⟨hab.le.trans hx.1, hx.2⟩ hq)
  · rename_i hkj
    split at hp
    · cases hp
      exact hij (h.disjoint i j _ _ q.1 hi hj ⟨hx.1, hx.2.trans hbc⟩ hq)
    · exact hkj (h.disjoint k j _ _ q.1 hp hj hx hq)

theorem merge [DecidableEq ι] (h : IntervalPartition f K) (hij : i ≠ j)
    (hadj : (f i = some (a, b) ∧ f j = some (b, c)) ∨ (f i = some (b, c) ∧ f j = some (a, b)))
    (hg : ∀ x, g x = if x = j then none else if x = i then some (a, c) else f x) :
    IntervalPartition g K := by
  have hab : a < b := by
    rcases hadj with ⟨hi, -⟩ | ⟨-, hj⟩
    · exact h.nonempty i _ hi
    · exact h.nonempty j _ hj
  have hbc : b < c := by
    rcases hadj with ⟨-, hj⟩ | ⟨hi, -⟩
    · exact h.nonempty j _ hj
    · exact h.nonempty i _ hi
  have hside : ∀ x, x ∈ Set.Ico a c → ∃ k p, (k = i ∨ k = j) ∧ f k = some p ∧
      x ∈ Set.Ico p.1 p.2 := by
    intro x hx
    rcases lt_or_ge x b with hxb | hxb
    · rcases hadj with ⟨hi, -⟩ | ⟨-, hj⟩
      · exact ⟨i, _, .inl rfl, hi, hx.1, hxb⟩
      · exact ⟨j, _, .inr rfl, hj, hx.1, hxb⟩
    · rcases hadj with ⟨-, hj⟩ | ⟨hi, -⟩
      · exact ⟨j, _, .inr rfl, hj, hxb, hx.2⟩
      · exact ⟨i, _, .inl rfl, hi, hxb, hx.2⟩
  have hjoined : ∀ k p x, (k = i ∨ k = j) → f k = some p → x ∈ Set.Ico p.1 p.2 →
      x ∈ Set.Ico a c := by
    intro k p x hk hp hx
    rcases hadj with ⟨hi, hj⟩ | ⟨hi, hj⟩ <;> rcases hk with rfl | rfl
    · rw [hi] at hp
      cases hp
      exact ⟨hx.1, hx.2.trans hbc⟩
    · rw [hj] at hp
      cases hp
      exact ⟨hab.le.trans hx.1, hx.2⟩
    · rw [hi] at hp
      cases hp
      exact ⟨hab.le.trans hx.1, hx.2⟩
    · rw [hj] at hp
      cases hp
      exact ⟨hx.1, hx.2.trans hbc⟩
  have hkeep : ∀ k p, g k = some p → k ≠ j ∧ ((k = i ∧ p = (a, c)) ∨ (k ≠ i ∧ f k = some p)) := by
    intro k p hp
    rw [hg] at hp
    split at hp
    · cases hp
    · split at hp
      · cases hp
        exact ⟨‹_›, .inl ⟨‹_›, rfl⟩⟩
      · exact ⟨‹_›, .inr ⟨‹_›, hp⟩⟩
  have hother : ∀ k p x, k ≠ j → k ≠ i → f k = some p → x ∈ Set.Ico p.1 p.2 →
      x ∉ Set.Ico a c := by
    intro k p x hkj hki hp hx hin
    obtain ⟨l, q, hl, hq, hxq⟩ := hside x hin
    have hkl := h.disjoint k l p q x hp hq hx hxq
    rcases hl with rfl | rfl
    · exact hki hkl
    · exact hkj hkl
  refine ⟨fun k p hp => ?_, fun k l p q x hp hq hx hy => ?_, fun x => ?_⟩
  · rcases (hkeep k p hp).2 with ⟨-, rfl⟩ | ⟨-, hold⟩
    · exact hab.trans hbc
    · exact h.nonempty k p hold
  · obtain ⟨hkj, hk⟩ := hkeep k p hp
    obtain ⟨hlj, hl⟩ := hkeep l q hq
    rcases hk with ⟨rfl, rfl⟩ | ⟨hki, hold⟩ <;> rcases hl with ⟨rfl, rfl⟩ | ⟨hli, hold'⟩
    · rfl
    · exact absurd hx (hother l q x hlj hli hold' hy)
    · exact absurd hy (hother k p x hkj hki hold hx)
    · exact h.disjoint k l p q x hold hold' hx hy
  · rw [← h.union x]
    constructor
    · rintro ⟨k, p, hp, hx⟩
      rcases (hkeep k p hp).2 with ⟨-, rfl⟩ | ⟨-, hold⟩
      · obtain ⟨l, q, -, hq, hxq⟩ := hside x hx
        exact ⟨l, q, hq, hxq⟩
      · exact ⟨k, p, hold, hx⟩
    · rintro ⟨k, p, hp, hx⟩
      by_cases hk : k = i ∨ k = j
      · exact ⟨i, (a, c), by rw [hg, if_neg hij, if_pos rfl], hjoined k p x hk hp hx⟩
      · rw [not_or] at hk
        exact ⟨k, p, by rw [hg, if_neg hk.2, if_neg hk.1, hp], hx⟩

end IntervalPartition
