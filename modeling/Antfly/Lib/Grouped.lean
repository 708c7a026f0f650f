import Mathlib.Data.List.Dedup
import Mathlib.Data.List.Perm.Basic

/-!
A list is divided into the groups of its labels, each in the order of the list.  Put together again
the groups are a permutation of the list, and elements that share a label keep their order.
-/

universe u v

namespace Grouped

open List

variable {α : Type u} {β : Type v} [DecidableEq β] (f : α → β)

/-- The labels that occur. -/
def labels (xs : List α) : List β := (xs.map f).dedup

/-- The elements under one label. -/
def group (xs : List α) (b : β) : List α := xs.filter fun x => f x = b

variable {f}

theorem nodup_labels (xs : List α) : (labels f xs).Nodup := nodup_dedup _

variable {xs : List α} {b : β} {bs : List β}

theorem mem_labels : b ∈ labels f xs ↔ ∃ x ∈ xs, f x = b := by
  simp [labels]

theorem labels_eq_nil : labels f xs = [] ↔ xs = [] := by
  constructor
  · intro h
    cases xs with
    | nil => rfl
    | cons x xs =>
      have hx : f x ∈ labels f (x :: xs) := mem_labels.mpr ⟨x, mem_cons_self, rfl⟩
      rw [h] at hx
      exact absurd hx not_mem_nil
  · rintro rfl
    rfl

theorem mem_group {x : α} : x ∈ group f xs b ↔ x ∈ xs ∧ f x = b := by
  simp [group]

theorem group_eq_nil : group f xs b = [] ↔ b ∉ labels f xs := by
  rw [mem_labels]
  constructor
  · rintro h ⟨x, hx, hb⟩
    have hmem : x ∈ group f xs b := mem_group.mpr ⟨hx, hb⟩
    rw [h] at hmem
    exact not_mem_nil hmem
  · intro h
    apply filter_eq_nil_iff.mpr
    intro x hx hb
    exact h ⟨x, hx, by simpa using hb⟩

theorem eq_of_groups : ∀ {xs ys : List α}, xs.map f = ys.map f →
    (∀ b, group f xs b = group f ys b) → xs = ys
  | [], [], _, _ => rfl
  | x :: xs, [], h, _ => by simp at h
  | [], y :: ys, h, _ => by simp at h
  | x :: xs, y :: ys, h, hgroups => by
      rw [map_cons, map_cons, List.cons.injEq] at h
      have hhead := hgroups (f x)
      have hx : group f (x :: xs) (f x) = x :: group f xs (f x) := by simp [group]
      have hy : group f (y :: ys) (f x) = y :: group f ys (f x) := by simp [group, h.1]
      rw [hx, hy, List.cons.injEq] at hhead
      rw [hhead.1]
      congr 1
      apply eq_of_groups h.2
      intro b
      by_cases hb : f x = b
      · rw [← hb]
        exact hhead.2
      · have hyb : f y ≠ b := by
          rw [← h.1]
          exact hb
        have htail := hgroups b
        simpa [group, hb, hyb] using htail

theorem group_filter_ne {c : β} (h : c ≠ b) :
    group f (xs.filter fun x => f x ≠ b) c = group f xs c := by
  unfold group
  rw [filter_filter]
  apply filter_congr
  intro x _
  by_cases hx : f x = c
  · simp [hx, h]
  · simp [hx]

theorem perm_flatMap_group (hnd : bs.Nodup) :
    ∀ {xs : List α}, (∀ x ∈ xs, f x ∈ bs) → (bs.flatMap (group f xs)).Perm xs := by
  induction bs with
  | nil =>
    intro xs h
    cases xs with
    | nil => exact List.Perm.refl _
    | cons x xs => exact absurd (h x mem_cons_self) not_mem_nil
  | cons b bs ih =>
    intro xs h
    have hb : b ∉ bs := (nodup_cons.mp hnd).1
    have hrest : ∀ x ∈ xs.filter fun x => f x ≠ b, f x ∈ bs := by
      intro x hx
      rw [mem_filter] at hx
      have hne : f x ≠ b := by simpa using hx.2
      exact (mem_cons.mp (h x hx.1)).resolve_left hne
    have hsame : bs.flatMap (group f (xs.filter fun x => f x ≠ b)) = bs.flatMap (group f xs) := by
      rw [flatMap_def, flatMap_def]
      congr 1
      apply map_congr_left
      intro c hc
      apply group_filter_ne
      rintro rfl
      exact hb hc
    have htail := ih (nodup_cons.mp hnd).2 hrest
    rw [hsame] at htail
    rw [flatMap_cons]
    apply (htail.append_left _).trans
    have hsplit := filter_append_perm (fun x => decide (f x = b)) xs
    simpa [group] using hsplit

omit [DecidableEq β] in
theorem flatMap_eq_of_only {γ : Type*} {g : β → List γ} (hnd : bs.Nodup) (hb : b ∈ bs)
    (hother : ∀ c, c ≠ b → g c = []) :
    bs.flatMap g = g b := by
  induction bs with
  | nil => exact absurd hb not_mem_nil
  | cons c cs ih =>
    have hc := nodup_cons.mp hnd
    rw [flatMap_cons]
    rcases mem_cons.mp hb with rfl | hb
    · have hnil : cs.flatMap g = [] := by
        apply flatMap_eq_nil_iff.mpr
        intro c hcc
        apply hother
        rintro rfl
        exact hc.1 hcc
      rw [hnil, append_nil]
    · have hne : c ≠ b := by
        rintro rfl
        exact hc.1 hb
      rw [hother c hne, nil_append]
      exact ih hc.2 hb

theorem filter_flatMap_group (hnd : bs.Nodup) {p : α → Bool} (hcover : ∀ x ∈ xs, f x ∈ bs)
    (hp : ∀ x ∈ xs, p x = true → f x = b) :
    (bs.flatMap (group f xs)).filter p = xs.filter p := by
  have hother : ∀ c, c ≠ b → (group f xs c).filter p = [] := by
    intro c hc
    apply filter_eq_nil_iff.mpr
    intro x hxc hpx
    have hx := mem_group.mp hxc
    apply hc
    rw [← hx.2]
    exact hp x hx.1 hpx
  rw [filter_flatMap]
  by_cases hb : b ∈ bs
  · rw [flatMap_eq_of_only hnd hb hother]
    unfold group
    rw [filter_filter]
    apply filter_congr
    intro x hx
    cases hpx : p x with
    | false => simp
    | true => simp [hp x hx hpx]
  · have hnone : ∀ x ∈ xs, ¬ p x = true := by
      intro x hx hpx
      apply hb
      rw [← hp x hx hpx]
      exact hcover x hx
    rw [filter_eq_nil_iff.mpr hnone]
    apply flatMap_eq_nil_iff.mpr
    intro c hc
    apply hother
    rintro rfl
    exact hb hc

end Grouped
