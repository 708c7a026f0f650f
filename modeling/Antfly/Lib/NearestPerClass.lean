import Mathlib.Data.Finset.Card
import Mathlib.Data.Finset.Insert
import Mathlib.Data.Finset.Erase
import Mathlib.Order.Defs.LinearOrder

/-!
Of items in classes the `k` nearest are chosen, one of each class.  What a new item does to such a
choice is one of five things: it begins a class while there is room, it takes the place of the item
of its own class or of the farthest one, or it changes nothing, being behind the item of its class
or behind all.
-/

namespace NearestPerClass

open Finset

variable {α κ β : Type*} [DecidableEq α] [DecidableEq κ] [LinearOrder β]

/-- The chosen items are nearest in their classes, one of each, and nearer than the items of the
classes that are left out; they are `k` if there are so many classes. -/
structure Chosen (cls : α → κ) (dist : α → β) (k : ℕ) (items chosen : Finset α) : Prop where
  subset : chosen ⊆ items
  one : ∀ a ∈ chosen, ∀ b ∈ chosen, cls a = cls b → a = b
  nearest : ∀ a ∈ chosen, ∀ b ∈ items, cls a = cls b → dist a ≤ dist b
  card : chosen.card = min k (items.image cls).card
  first : ∀ b ∈ items, cls b ∉ chosen.image cls → ∀ a ∈ chosen, dist a ≤ dist b

section Lemmas

variable {cls : α → κ} {dist : α → β} {k : ℕ} {items chosen : Finset α}

omit [DecidableEq α] in
theorem chosen_empty (cls : α → κ) (dist : α → β) (k : ℕ) : Chosen cls dist k ∅ ∅ where
  subset := Finset.Subset.refl _
  one a ha := absurd ha (notMem_empty a)
  nearest a ha := absurd ha (notMem_empty a)
  card := by
    rw [image_empty, card_empty]
    exact (Nat.min_zero k).symm
  first b hb := absurd hb (notMem_empty b)

omit [DecidableEq α] in
theorem Chosen.card_image (h : Chosen cls dist k items chosen) :
    (chosen.image cls).card = chosen.card :=
  card_image_of_injOn fun a ha b hb => h.one a ha b hb

omit [DecidableEq α] in
theorem Chosen.represented (h : Chosen cls dist k items chosen) (hroom : chosen.card < k) {b : α}
    (hb : b ∈ items) : cls b ∈ chosen.image cls := by
  have hcard := h.card
  have hsub : chosen.image cls ⊆ items.image cls := image_subset_image h.subset
  have heq := eq_of_subset_of_card_le hsub (by rw [h.card_image]; omega)
  rw [heq]
  exact mem_image_of_mem cls hb

theorem image_insert_of_mem {x : α} (hx : cls x ∈ items.image cls) :
    (insert x items).image cls = items.image cls := by
  rw [image_insert, insert_eq_self.mpr hx]

theorem card_image_insert_of_notMem {x : α} (hx : cls x ∉ items.image cls) :
    ((insert x items).image cls).card = (items.image cls).card + 1 := by
  rw [image_insert, card_insert_of_notMem hx]

omit [DecidableEq α] in
theorem Chosen.image_subset (h : Chosen cls dist k items chosen) :
    chosen.image cls ⊆ items.image cls := image_subset_image h.subset

theorem Chosen.insert_new (h : Chosen cls dist k items chosen) {x : α} (hroom : chosen.card < k)
    (hnew : cls x ∉ items.image cls) : Chosen cls dist k (insert x items) (insert x chosen) := by
  have hother : ∀ a ∈ items, cls a ≠ cls x := fun a ha heq =>
    hnew (heq ▸ mem_image_of_mem cls ha)
  have hout : x ∉ chosen := fun hx => hother x (h.subset hx) rfl
  refine ⟨insert_subset_insert x h.subset, ?_, ?_, ?_, ?_⟩
  · intro a ha b hb heq
    rcases mem_insert.mp ha with rfl | ha'
    · rcases mem_insert.mp hb with rfl | hb'
      · rfl
      · exact absurd heq.symm (hother b (h.subset hb'))
    · rcases mem_insert.mp hb with rfl | hb'
      · exact absurd heq (hother a (h.subset ha'))
      · exact h.one a ha' b hb' heq
  · intro a ha b hb heq
    rcases mem_insert.mp ha with rfl | ha'
    · rcases mem_insert.mp hb with rfl | hb'
      · exact le_refl _
      · exact absurd heq.symm (hother b hb')
    · rcases mem_insert.mp hb with rfl | hb'
      · exact absurd heq (hother a (h.subset ha'))
      · exact h.nearest a ha' b hb' heq
  · have hcard := h.card
    rw [card_insert_of_notMem hout, card_image_insert_of_notMem hnew]
    omega
  · intro b hb hcls
    refine absurd ?_ hcls
    rw [image_insert, mem_insert]
    rcases mem_insert.mp hb with rfl | hb
    · exact Or.inl rfl
    · exact Or.inr (h.represented hroom hb)

theorem Chosen.insert_behind (h : Chosen cls dist k items chosen) {x e : α} (he : e ∈ chosen)
    (hcls : cls e = cls x) (hle : dist e ≤ dist x) : Chosen cls dist k (insert x items) chosen := by
  have hmem : cls x ∈ chosen.image cls := hcls ▸ mem_image_of_mem cls he
  refine ⟨h.subset.trans (subset_insert x items), h.one, ?_, ?_, ?_⟩
  · intro a ha b hb heq
    rcases mem_insert.mp hb with rfl | hb
    · rwa [h.one a ha e he (heq.trans hcls.symm)]
    · exact h.nearest a ha b hb heq
  · rw [image_insert_of_mem (h.image_subset hmem)]
    exact h.card
  · intro b hb hout
    rcases mem_insert.mp hb with rfl | hb
    · exact absurd hmem hout
    · exact h.first b hb hout

theorem Chosen.insert_last (h : Chosen cls dist k items chosen) {x : α} (hfull : chosen.card = k)
    (hlast : ∀ a ∈ chosen, dist a ≤ dist x) : Chosen cls dist k (insert x items) chosen := by
  refine ⟨h.subset.trans (subset_insert x items), h.one, ?_, ?_, ?_⟩
  · intro a ha b hb heq
    rcases mem_insert.mp hb with rfl | hb
    · exact hlast a ha
    · exact h.nearest a ha b hb heq
  · have hcard := h.card
    have hle := card_le_card
      (image_subset_image (f := cls) (subset_insert x items))
    omega
  · intro b hb hout
    rcases mem_insert.mp hb with rfl | hb
    · exact hlast
    · exact h.first b hb hout

/-- An item that takes the place of another: of the one of its class, or of the farthest one if
there is no room for its class. -/
theorem Chosen.exchange (h : Chosen cls dist k items chosen) {x e : α} (hx : x ∉ items)
    (he : e ∈ chosen) (hlt : dist x < dist e)
    (hplace : cls e = cls x ∨ chosen.card = k ∧ cls x ∉ chosen.image cls ∧
      ∀ a ∈ chosen, dist a ≤ dist e) :
    Chosen cls dist k (insert x items) (insert x (chosen.erase e)) := by
  have hout : x ∉ chosen := fun hmem => hx (h.subset hmem)
  -- Nothing but the exchanged item may be of the new item's class.
  have hother : ∀ a ∈ chosen, a ≠ e → cls a ≠ cls x := by
    intro a ha hne heq
    rcases hplace with hcls | ⟨-, hnew, -⟩
    · exact hne (h.one a ha e he (heq.trans hcls.symm))
    · exact hnew (heq ▸ mem_image_of_mem cls ha)
  have hbefore : ∀ b ∈ items, cls b = cls x → dist x ≤ dist b := by
    intro b hb heq
    rcases hplace with hcls | ⟨-, hnew, -⟩
    · exact hlt.le.trans (h.nearest e he b hb (hcls.trans heq.symm))
    · exact hlt.le.trans (h.first b hb (heq ▸ hnew) e he)
  refine ⟨?_, ?_, ?_, ?_, ?_⟩
  · exact insert_subset_insert x ((erase_subset e chosen).trans h.subset)
  · intro a ha b hb heq
    rcases mem_insert.mp ha with rfl | ha'
    · rcases mem_insert.mp hb with rfl | hb'
      · rfl
      · obtain ⟨hne, hb'⟩ := mem_erase.mp hb'
        exact absurd heq.symm (hother b hb' hne)
    · obtain ⟨hne, ha'⟩ := mem_erase.mp ha'
      rcases mem_insert.mp hb with rfl | hb'
      · exact absurd heq (hother a ha' hne)
      · exact h.one a ha' b (mem_of_mem_erase hb') heq
  · intro a ha b hb heq
    rcases mem_insert.mp ha with rfl | ha'
    · rcases mem_insert.mp hb with rfl | hb'
      · exact le_refl _
      · exact hbefore b hb' heq.symm
    · obtain ⟨hne, ha'⟩ := mem_erase.mp ha'
      rcases mem_insert.mp hb with rfl | hb'
      · exact absurd heq (hother a ha' hne)
      · exact h.nearest a ha' b hb' heq
  · have hcard := h.card
    have hpos := card_pos.mpr ⟨e, he⟩
    rw [card_insert_of_notMem fun hmem => hout (mem_of_mem_erase hmem),
      card_erase_of_mem he]
    rcases hplace with hcls | ⟨hfull, -, -⟩
    · rw [image_insert_of_mem (hcls ▸ mem_image_of_mem cls (h.subset he))]
      omega
    · have hle := card_le_card
        (image_subset_image (f := cls) (subset_insert x items))
      omega
  · intro b hb hcls a ha
    rw [image_insert, mem_insert, not_or] at hcls
    have hb : b ∈ items :=
      (mem_insert.mp hb).resolve_left fun heq => hcls.1 (congrArg cls heq)
    have hdist : ∀ a ∈ chosen, dist a ≤ dist b := by
      by_cases hrep : cls b ∈ chosen.image cls
      · -- Only the exchanged item has been of the class, so it is the farthest one.
        obtain ⟨c, hc, hcb⟩ := mem_image.mp hrep
        have hce : c = e := by
          by_contra hne
          exact hcls.2 (mem_image.mpr ⟨c, mem_erase.mpr ⟨hne, hc⟩, hcb⟩)
        subst hce
        rcases hplace with hsame | ⟨-, -, hfarthest⟩
        · exact absurd (hcb.symm.trans hsame) hcls.1
        · exact fun a ha => (hfarthest a ha).trans (h.nearest c hc b hb hcb)
      · exact h.first b hb hrep
    rcases mem_insert.mp ha with rfl | ha
    · exact hlt.le.trans (hdist e he)
    · exact hdist a (mem_of_mem_erase ha)

/-- As many are chosen as before when a new item is of a class that is there, or when all places are
taken. -/
theorem Chosen.card_insert (h : Chosen cls dist k items chosen) {x : α} {chosen' : Finset α}
    (h' : Chosen cls dist k (insert x items) chosen')
    (hplace : cls x ∈ items.image cls ∨ chosen.card = k) : chosen'.card = chosen.card := by
  rw [h'.card, h.card]
  rcases hplace with hmem | hfull
  · rw [image_insert_of_mem hmem]
  · have hcard := h.card
    have hle := card_le_card
      (image_subset_image (f := cls) (subset_insert x items))
    omega

theorem Chosen.card_insert_new (h : Chosen cls dist k items chosen) {x : α} {chosen' : Finset α}
    (h' : Chosen cls dist k (insert x items) chosen') (hroom : chosen.card < k)
    (hnew : cls x ∉ items.image cls) : chosen'.card = chosen.card + 1 := by
  have hcard := h.card
  rw [h'.card, card_image_insert_of_notMem hnew]
  omega

end Lemmas

end NearestPerClass
