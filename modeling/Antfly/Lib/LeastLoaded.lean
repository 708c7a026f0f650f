import Mathlib.Data.Finset.Card
import Mathlib.Order.Defs.LinearOrder

/-!
Items are given, one after the other, to a fixed number of candidates each, and every time to those
that carry the least load.  The loads then never differ by more than one.  Ties are broken by
keeping the candidates an item has already, so that what is assigned stays as it is when it is
assigned again.
-/

namespace LeastLoaded

open List

variable {α : Type*}

/-- The chosen ones are `k` candidates, or all of them if they are fewer, and come before every
candidate that is left out. -/
structure FirstOf (before : α → α → Prop) (k : ℕ) (candidates chosen : Finset α) : Prop where
  subset : chosen ⊆ candidates
  card : chosen.card = min k candidates.card
  first : ∀ a ∈ chosen, ∀ b ∈ candidates, b ∉ chosen → before a b

section Choice

variable {before : α → α → Prop} {k : ℕ} {candidates chosen chosen' : Finset α}

theorem FirstOf.unique (hasymm : ∀ a b, before a b → ¬ before b a)
    (h : FirstOf before k candidates chosen) (h' : FirstOf before k candidates chosen') :
    chosen = chosen' := by
  have hcard : chosen.card = chosen'.card := h.card.trans h'.card.symm
  by_contra hne
  have hleft : ¬ chosen ⊆ chosen' := fun hsub =>
    hne (Finset.eq_of_subset_of_card_le hsub hcard.ge)
  have hright : ¬ chosen' ⊆ chosen := fun hsub =>
    hne (Finset.eq_of_subset_of_card_le hsub hcard.le).symm
  obtain ⟨a, ha, ha'⟩ := Finset.not_subset.mp hleft
  obtain ⟨b, hb', hb⟩ := Finset.not_subset.mp hright
  exact hasymm a b (h.first a ha b (h'.subset hb') hb) (h'.first b hb' a (h.subset ha) ha')

theorem FirstOf.mono {before' : α → α → Prop} (h : FirstOf before k candidates chosen)
    (hbefore : ∀ a ∈ chosen, ∀ b ∈ candidates, b ∉ chosen → before a b → before' a b) :
    FirstOf before' k candidates chosen where
  subset := h.subset
  card := h.card
  first a ha b hb hout := hbefore a ha b hb hout (h.first a ha b hb hout)

theorem FirstOf.of_sorted [DecidableEq α] {l : List α} (hnodup : l.Nodup)
    (hsorted : l.Pairwise before) (k : ℕ) :
    FirstOf before k l.toFinset (l.take k).toFinset where
  subset a ha := mem_toFinset.mpr (mem_of_mem_take (mem_toFinset.mp ha))
  card := by
    rw [toFinset_card_of_nodup (hnodup.sublist (take_sublist k l)),
      toFinset_card_of_nodup hnodup, length_take]
  first a ha b hb hout := by
    rw [mem_toFinset] at ha hb hout
    rw [← take_append_drop k l] at hb hsorted
    have hdrop : b ∈ l.drop k := (mem_append.mp hb).resolve_left hout
    exact (pairwise_append.mp hsorted).2.2 a ha b hdrop

end Choice

section Loads

variable [DecidableEq α] {before : α → α → Prop} {k : ℕ} {candidates chosen : Finset α}
  {load : α → ℕ}

def Balanced (load : α → ℕ) (candidates : Finset α) : Prop :=
  ∀ a ∈ candidates, ∀ b ∈ candidates, load a ≤ load b + 1

/-- One more for each of the chosen ones. -/
def addLoad (load : α → ℕ) (chosen : Finset α) (a : α) : ℕ :=
  if a ∈ chosen then load a + 1 else load a

theorem Balanced.addLoad (h : Balanced load candidates)
    (hfirst : FirstOf before k candidates chosen) (hbefore : ∀ a b, before a b → load a ≤ load b) :
    Balanced (addLoad load chosen) candidates := by
  intro a ha b hb
  have hab := h a ha b hb
  unfold LeastLoaded.addLoad
  by_cases hina : a ∈ chosen
  · by_cases hinb : b ∈ chosen
    · rw [if_pos hina, if_pos hinb]
      omega
    · have hle := hbefore a b (hfirst.first a hina b hb hinb)
      rw [if_pos hina, if_neg hinb]
      omega
  · rw [if_neg hina]
    split <;> omega

end Loads

section Keeping

variable [LinearOrder α] {k : ℕ} {candidates chosen : Finset α} {load : α → ℕ} {keep : Finset α}

/-- Less load comes first, then what is to be kept, then the smaller one. -/
def Preferred (load : α → ℕ) (keep : Finset α) (a b : α) : Prop :=
  load a < load b ∨ load a = load b ∧ (a ∈ keep ∧ b ∉ keep ∨ (a ∈ keep ↔ b ∈ keep) ∧ a < b)

theorem Preferred.load_le {a b : α} (h : Preferred load keep a b) : load a ≤ load b := by
  rcases h with h | ⟨h, -⟩
  · exact h.le
  · exact h.le

theorem Preferred.asymm (a b : α) (h : Preferred load keep a b) : ¬ Preferred load keep b a := by
  rintro (h' | ⟨heq', h'⟩)
  · exact absurd h.load_le (not_le.mpr h')
  · rcases h with h | ⟨heq, h⟩
    · exact absurd heq' h.ne'
    · rcases h with ⟨ha, hb⟩ | ⟨hiff, hlt⟩
      · rcases h' with ⟨hb', -⟩ | ⟨hiff', -⟩
        · exact hb hb'
        · exact hb (hiff'.mpr ha)
      · rcases h' with ⟨hb', ha'⟩ | ⟨-, hlt'⟩
        · exact ha' (hiff.mpr hb')
        · exact lt_asymm hlt hlt'

theorem FirstOf.again (h : FirstOf (Preferred load keep) k candidates chosen) :
    FirstOf (Preferred load chosen) k candidates chosen := by
  refine h.mono fun a ha b _ hb hbefore => ?_
  rcases hbefore with hlt | ⟨heq, -⟩
  · exact .inl hlt
  · exact .inr ⟨heq, .inl ⟨ha, hb⟩⟩

end Keeping

end LeastLoaded
