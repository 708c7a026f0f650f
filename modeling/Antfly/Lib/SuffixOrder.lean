import Antfly.Lib.Lex

/-!
A store that files a record under its key and a fixed suffix compares the suffixed keys.  For two
keys neither of which begins the other the suffix plays no part.  For a key and a continuation of
it the order of the suffixed keys is decided by the suffix and what continues the key.
-/

namespace Lex

open List

variable {α : Type*} [LinearOrder α]

/-- Two lists whose first difference decides the comparison of all their continuations. -/
structure Apart (s t : List α) : Prop where
  ne : s ≠ t
  lt_iff : ∀ u v, s ++ u < t ++ v ↔ s < t
  gt_iff : ∀ u v, t ++ v < s ++ u ↔ t < s

theorem Apart.cons {s t : List α} (h : Apart s t) (a : α) : Apart (a :: s) (a :: t) where
  ne heq := h.ne (List.cons.inj heq).2
  lt_iff u v := by
    simp only [cons_append, cons_lt_cons_iff, lt_irrefl, true_and, false_or, h.lt_iff u v]
  gt_iff u v := by
    simp only [cons_append, cons_lt_cons_iff, lt_irrefl, true_and, false_or, h.gt_iff u v]

theorem Apart.of_ne {a b : α} (h : a ≠ b) (s t : List α) : Apart (a :: s) (b :: t) where
  ne heq := h (List.cons.inj heq).1
  lt_iff u v := by
    simp only [cons_append, cons_lt_cons_iff, h, false_and, or_false]
  gt_iff u v := by
    simp only [cons_append, cons_lt_cons_iff, h.symm, false_and, or_false]

theorem prefix_or_apart (s t : List α) : s <+: t ∨ t <+: s ∨ Apart s t := by
  induction s generalizing t with
  | nil => exact .inl nil_prefix
  | cons a s ih =>
    cases t with
    | nil => exact .inr (.inl nil_prefix)
    | cons b t =>
      by_cases hab : a = b
      · subst hab
        rcases ih t with h | h | h
        · exact .inl ((prefix_cons_inj a).mpr h)
        · exact .inr (.inl ((prefix_cons_inj a).mpr h))
        · exact .inr (.inr (h.cons a))
      · exact .inr (.inr (Apart.of_ne hab s t))

theorem Apart.symm {s t : List α} (h : Apart s t) : Apart t s where
  ne := h.ne.symm
  lt_iff u v := h.gt_iff v u
  gt_iff u v := h.lt_iff v u

theorem Apart.not_prefix {s t : List α} (h : Apart s t) : ¬ s <+: t := by
  rintro ⟨w, rfl⟩
  have hw : w ≠ [] := by
    rintro rfl
    exact h.ne (append_nil s).symm
  have hlt := (h.lt_iff w []).mpr (lt_append_of_ne_nil s hw)
  rw [append_nil] at hlt
  exact lt_irrefl _ hlt

end Lex
