import Mathlib.Data.List.Lex
import Mathlib.Data.List.Infix
import Mathlib.Order.Lattice
import Mathlib.Tactic.Push

/-!
An ordered key-value store keeps variable-length keys in lexicographic order and addresses
groups of keys by half-open intervals.  Two intervals matter: `[k, k ++ [b])`, which holds `k`
and the extensions of `k` whose next symbol is below `b`, and `[q ++ [a], q ++ [b])` for an
immediate successor `b` of `a`, which holds exactly the extensions of `q ++ [a]`.
-/

namespace Lex

open List

variable {α : Type*} [LinearOrder α]

@[simp] theorem append_lt_append_left (s x y : List α) : s ++ x < s ++ y ↔ x < y := by
  induction s with
  | nil => simp
  | cons a s ih => simp [ih]

@[simp] theorem append_le_append_left (s x y : List α) : s ++ x ≤ s ++ y ↔ x ≤ y := by
  rw [← not_lt, ← not_lt, append_lt_append_left]

theorem nil_le (x : List α) : [] ≤ x :=
  not_lt.mp (not_lt_nil x)

theorem le_append (s x : List α) : s ≤ s ++ x := by
  have h := (append_le_append_left s [] x).mpr (nil_le x)
  simpa using h

variable {s x : List α} {b m : α} {n : Nat}

theorem le_of_prefix (h : s <+: x) : s ≤ x := by
  obtain ⟨t, rfl⟩ := h
  exact le_append s t

theorem lt_append_of_ne_nil (s : List α) (hx : x ≠ []) : s < s ++ x := by
  cases x with
  | nil => exact absurd rfl hx
  | cons a x =>
    have h := (append_lt_append_left s [] (a :: x)).mpr (nil_lt_cons a x)
    simpa using h

theorem lt_singleton_iff : x < [b] ↔ x = [] ∨ ∃ c t, x = c :: t ∧ c < b := by
  cases x with
  | nil => simp
  | cons c t => simp [cons_lt_cons_iff]

theorem prefix_of_mem_Ico {y : List α} (hl : s ≤ x) (hr : x < s ++ y) : s <+: x := by
  induction s generalizing x with
  | nil => exact nil_prefix
  | cons a s ih =>
    cases x with
    | nil => exact absurd (nil_lt_cons a s) (not_lt.mpr hl)
    | cons c t =>
      rw [cons_append, cons_lt_cons_iff] at hr
      rw [← not_lt, cons_lt_cons_iff, not_or] at hl
      rcases hr with hca | ⟨rfl, hts⟩
      · exact absurd hca hl.1
      · have hst : s ≤ t := not_lt.mp fun h => hl.2 ⟨rfl, h⟩
        exact (prefix_cons_inj c).mpr (ih hst hts)

/-- The interval `[s, s ++ [b])` is `s` and the extensions of `s` that continue below `b`. -/
theorem mem_Ico_append_singleton : (s ≤ x ∧ x < s ++ [b]) ↔ ∃ t, x = s ++ t ∧ t < [b] := by
  constructor
  · rintro ⟨hl, hr⟩
    obtain ⟨t, rfl⟩ := prefix_of_mem_Ico hl hr
    exact ⟨t, rfl, by simpa using hr⟩
  · rintro ⟨t, rfl, ht⟩
    exact ⟨le_append s t, by simpa using ht⟩

/-- The upper bound `q ++ [b]` closes the extensions of `q ++ [a]` when nothing lies between `a`
and `b`. -/
theorem mem_Ico_append_succ {q : List α} {a : α} (hab : a < b)
    (hsucc : ∀ c, a ≤ c → c < b → c = a) :
    (q ++ [a] ≤ x ∧ x < q ++ [b]) ↔ q ++ [a] <+: x := by
  constructor
  · rintro ⟨hl, hr⟩
    have hq : q ≤ x := le_trans (le_append q [a]) hl
    obtain ⟨t, rfl⟩ := prefix_of_mem_Ico hq hr
    rw [append_le_append_left] at hl
    rw [append_lt_append_left, lt_singleton_iff] at hr
    rcases hr with rfl | ⟨c, u, rfl, hcb⟩
    · exact absurd (nil_lt_cons a []) (not_lt.mpr hl)
    · have hac : a ≤ c := by
        rw [← not_lt, cons_lt_cons_iff, not_or] at hl
        exact not_lt.mp hl.1
      obtain rfl := hsucc c hac hcb
      exact ⟨u, by simp⟩
  · rintro ⟨u, rfl⟩
    refine ⟨le_append _ u, ?_⟩
    rw [append_assoc, append_lt_append_left]
    exact List.Lex.rel hab

theorem le_replicate_append (hm : ∀ a, a ≤ m) (hx : x.length ≤ n) (w : List α) :
    x ≤ List.replicate n m ++ w := by
  induction x generalizing n with
  | nil => exact nil_le _
  | cons a x ih =>
    cases n with
    | zero => simp at hx
    | succ n =>
      have hle : x ≤ List.replicate n m ++ w := ih (by simpa using hx)
      rw [← not_lt, replicate_succ, cons_append, cons_lt_cons_iff]
      rintro (hma | ⟨-, hlt⟩)
      · exact absurd hma (not_lt.mpr (hm a))
      · exact absurd hlt (not_lt.mpr hle)

theorem replicate_prefix_of_le (hm : ∀ a, a ≤ m) (h : List.replicate n m ≤ x) :
    List.replicate n m <+: x := by
  induction n generalizing x with
  | zero => exact nil_prefix
  | succ n ih =>
    rw [replicate_succ] at h ⊢
    cases x with
    | nil => exact absurd (nil_lt_cons m _) (not_lt.mpr h)
    | cons a x =>
      rw [← not_lt, cons_lt_cons_iff, not_or] at h
      obtain rfl : m = a := le_antisymm (not_lt.mp h.1) (hm a)
      exact (prefix_cons_inj m).mpr (ih (not_lt.mp fun hlt => h.2 ⟨rfl, hlt⟩))

end Lex
