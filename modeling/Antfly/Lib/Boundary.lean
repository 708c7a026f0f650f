import Antfly.Lib.LeastLoaded
import Mathlib.Data.List.Sort
import Mathlib.Order.Basic

/-!
The first `k` candidates depend on the key they are ordered by.  Two keys give the same choices when
they agree on every pair across a cut: both put the near one first, or neither changes the two.  A
choice of first candidates is what some arrangement of the candidates in order begins with, as ties
may be broken in every way.
-/

namespace Boundary

open LeastLoaded List Finset

variable {α β : Type*} [LinearOrder β]

/-- Both keys put `near` before `far`, except for pairs on which the keys are the same. -/
def Separates (key key' : α → β) (near far : Finset α) : Prop :=
  ∀ n ∈ near, ∀ f ∈ far, (key n < key f ∧ key' n < key' f) ∨ (key n = key' n ∧ key f = key' f)

theorem Separates.symm {key key' : α → β} {near far : Finset α}
    (h : Separates key key' near far) : Separates key' key near far := by
  intro n hn f hf
  rcases h n hn f hf with ⟨hlt, hlt'⟩ | ⟨hn, hf⟩
  · exact Or.inl ⟨hlt', hlt⟩
  · exact Or.inr ⟨hn.symm, hf.symm⟩

section Transfer

variable [DecidableEq α] {key key' : α → β} {near far candidates candidates' chosen : Finset α}
  {k : ℕ}

theorem exists_near_left_out (hcard : near.card = k) (hchosen : chosen.card = k) {f : α}
    (hf : f ∈ chosen) (hfar : f ∉ near) : ∃ n ∈ near, n ∉ chosen := by
  by_contra hnone
  have hsub : near ⊆ chosen := fun n hn => by
    by_contra hout
    exact hnone ⟨n, hn, hout⟩
  have heq := eq_of_subset_of_card_le hsub (by omega)
  exact hfar (heq ▸ hf)

theorem exists_far_chosen (hcard : near.card = k) (hchosen : chosen.card = k) {n : α}
    (hn : n ∈ near) (hout : n ∉ chosen) : ∃ f ∈ chosen, f ∉ near := by
  by_contra hnone
  have hsub : chosen ⊆ near := fun f hf => by
    by_contra hfar
    exact hnone ⟨f, hf, hfar⟩
  have heq := eq_of_subset_of_card_le hsub (by omega)
  exact hout (heq ▸ hn)

theorem FirstOf.transfer (hseparates : Separates key key' near far) (hcard : near.card = k)
    (hnear : near ⊆ candidates) (hnear' : near ⊆ candidates')
    (hsplit : ∀ a ∈ candidates, a ∈ near ∨ a ∈ far)
    (hsplit' : ∀ a ∈ candidates', a ∈ near ∨ a ∈ far)
    (hdisjoint : Disjoint near far)
    (hsame : ∀ a, key a = key' a → (a ∈ candidates ↔ a ∈ candidates'))
    (h : FirstOf (fun a b => key a ≤ key b) k candidates chosen) :
    FirstOf (fun a b => key' a ≤ key' b) k candidates' chosen := by
  have hfarNot {f : α} (hf : f ∈ far) : f ∉ near :=
    fun hn => disjoint_left.mp hdisjoint hn hf
  have hchosen : chosen.card = k := by
    have hle := card_le_card hnear
    rw [h.card]
    exact min_eq_left (hcard ▸ hle)
  -- Across the cut, a far candidate that is not after a near one has the same keys as it.
  have hcross {n f : α} (hn : n ∈ near) (hf : f ∈ far) (hle : key f ≤ key n) :
      key n = key' n ∧ key f = key' f :=
    (hseparates n hn f hf).resolve_left fun hlt => absurd hlt.1 (not_lt.mpr hle)
  have hfar {f : α} (hf : f ∈ chosen) (hout : f ∉ near) : f ∈ far :=
    (hsplit f (h.subset hf)).resolve_left hout
  have hsub : chosen ⊆ candidates' := by
    intro a ha
    by_cases hmem : a ∈ near
    · exact hnear' hmem
    · obtain ⟨n, hn, hout⟩ := exists_near_left_out hcard hchosen ha hmem
      have hkeys := hcross hn (hfar ha hmem) (h.first a ha n (hnear hn) hout)
      exact (hsame a hkeys.2).mp (h.subset ha)
  refine ⟨hsub, ?_, ?_⟩
  · have hle := card_le_card hnear'
    rw [hchosen]
    exact (min_eq_left (hcard ▸ hle)).symm
  intro a ha b hb hout
  by_cases hamem : a ∈ near
  · rcases hsplit' b hb with hbmem | hbfar
    · obtain ⟨f, hf, hfout⟩ := exists_far_chosen hcard hchosen hbmem hout
      have hfmem := hfar hf hfout
      have hbf := hcross hbmem hfmem (h.first f hf b (hnear hbmem) hout)
      have hfirst := h.first f hf b (hnear hbmem) hout
      rcases hseparates a hamem f hfmem with ⟨-, hlt⟩ | ⟨hasame, -⟩
      · rw [hbf.1, hbf.2] at hfirst
        exact hlt.le.trans hfirst
      · have hab := h.first a ha b (hnear hbmem) hout
        rwa [hasame, hbf.1] at hab
    · rcases hseparates a hamem b hbfar with ⟨-, hlt⟩ | ⟨hasame, hbsame⟩
      · exact hlt.le
      · have hab := h.first a ha b ((hsame b hbsame).mpr hb) hout
        rwa [hasame, hbsame] at hab
  · obtain ⟨n, hn, hnout⟩ := exists_near_left_out hcard hchosen ha hamem
    have hafar := hfar ha hamem
    have han := h.first a ha n (hnear hn) hnout
    have hkeys := hcross hn hafar han
    rcases hsplit' b hb with hbmem | hbfar
    · have hab := h.first a ha b (hnear hbmem) hout
      have hbkeys := hcross hbmem hafar hab
      rwa [hkeys.2, hbkeys.1] at hab
    · rcases hseparates n hn b hbfar with ⟨-, hlt⟩ | ⟨-, hbsame⟩
      · rw [hkeys.1, hkeys.2] at han
        exact han.trans hlt.le
      · have hab := h.first a ha b ((hsame b hbsame).mpr hb) hout
        rwa [hkeys.2, hbsame] at hab

theorem FirstOf.eq_near (hstrict : ∀ n ∈ near, ∀ f ∈ candidates, f ∉ near → key n < key f)
    (hcard : near.card = k) (hnear : near ⊆ candidates)
    (h : FirstOf (fun a b => key a ≤ key b) k candidates chosen) : chosen = near := by
  have hle := card_le_card hnear
  have hchosen : chosen.card = k := by
    rw [h.card]
    exact min_eq_left (hcard ▸ hle)
  refine eq_of_subset_of_card_le (fun a ha => ?_) (by omega)
  by_contra hout
  obtain ⟨n, hn, hnout⟩ := exists_near_left_out hcard hchosen ha hout
  have hlt := hstrict n hn a (h.subset ha) hout
  exact absurd (h.first a ha n (hnear hn) hnout) (not_le.mpr hlt)

end Transfer

section Arrange

variable {key : α → β} {k : ℕ}

theorem exists_sorted (key : α → β) (l : List α) :
    ∃ l' : List α, l'.Perm l ∧ l'.Pairwise fun a b => key a ≤ key b :=
  ⟨l.insertionSort fun a b => key a ≤ key b, perm_insertionSort _ l,
    pairwise_insertionSort _ l⟩

theorem FirstOf.exists_arrangement [DecidableEq α] {l : List α} (hnodup : l.Nodup)
    {chosen : Finset α}
    (h : FirstOf (fun a b => key a ≤ key b) k l.toFinset chosen) :
    ∃ l' : List α, l'.Perm l ∧ (l'.Pairwise fun a b => key a ≤ key b) ∧
      (l'.take k).toFinset = chosen := by
  obtain ⟨first, hfirst, hsorted⟩ := exists_sorted key (l.filter fun a => a ∈ chosen)
  obtain ⟨rest, hrest, hsorted'⟩ := exists_sorted key (l.filter fun a => ¬ a ∈ chosen)
  have hmem : ∀ a, a ∈ first ↔ a ∈ chosen := by
    intro a
    rw [hfirst.mem_iff, mem_filter, decide_eq_true_eq]
    exact ⟨fun ha => ha.2, fun ha => ⟨mem_toFinset.mp (h.subset ha), ha⟩⟩
  have hfirstSet : first.toFinset = chosen := by
    ext a
    rw [mem_toFinset, hmem]
  have hlength : first.length = min k l.length := by
    have hnodup' : first.Nodup := hfirst.nodup_iff.mpr (hnodup.filter _)
    rw [← toFinset_card_of_nodup hnodup', hfirstSet, h.card,
      toFinset_card_of_nodup hnodup]
  have hperm : (first ++ rest).Perm l := by
    refine (hfirst.append hrest).trans ?_
    have hparts := filter_append_perm (fun a => decide (a ∈ chosen)) l
    simpa using hparts
  refine ⟨first ++ rest, hperm, ?_, ?_⟩
  · refine pairwise_append.mpr ⟨hsorted, hsorted', ?_⟩
    intro a ha b hb
    have hb' := mem_filter.mp (hrest.mem_iff.mp hb)
    exact h.first a ((hmem a).mp ha) b (mem_toFinset.mpr hb'.1) (of_decide_eq_true hb'.2)
  · rw [← hfirstSet]
    congr 1
    rcases Nat.le_total k l.length with hle | hle
    · rw [← min_eq_left hle, ← hlength]
      exact take_left' rfl
    · have hall := hperm.length_eq
      rw [length_append, hlength, min_eq_right hle] at hall
      have hnil : rest = [] := length_eq_zero_iff.mp (by omega)
      rw [hnil, append_nil]
      exact take_of_length_le (by omega)

end Arrange

end Boundary
