import Antfly.Lib.BinaryHeap

/-!
The greatest `k` entries of a list are kept in a min-heap that is offered one entry after another:
a full heap gives up its root for an entry that the root is less than.  Emptying the heap lists them
from the greatest to the least.  Which of several equal entries stay depends on the order they are
offered in, and every choice is made by some order.
-/

namespace BinaryHeap

open List

variable {α : Type*} (less : α → α → Bool)

/-- One entry offered to a heap of at most `k`. -/
def offer (k : ℕ) (h : List α) (x : α) : List α :=
  if h.length < k then push less h x
  else
    match h with
    | [] => []
    | root :: _ => if less root x then replaceRoot less h x else h

/-- Pops `n` entries; each is put before the ones popped earlier. -/
def drain : ℕ → List α → List α → List α
  | 0, _, popped => popped
  | n + 1, h, popped =>
    match pop less h with
    | none => popped
    | some (x, rest) => drain n rest (x :: popped)

def bestOf (k : ℕ) (entries : List α) : List α :=
  let h := entries.foldl (offer less k) []
  drain less h.length h []

variable {less}

/-- What is kept of the entries offered, and what is dropped. -/
structure Keeps (less : α → α → Bool) (k : ℕ) (kept dropped : List α) : Prop where
  fits : kept.length ≤ k
  full : dropped ≠ [] → kept.length = k
  best : ∀ a ∈ kept, ∀ b ∈ dropped, less a b = false

theorem push_length (h : List α) (x : α) : (push less h x).length = h.length + 1 :=
  (push_perm h x).length_eq

/-- One entry offered: the heap stays a heap, and what it drops is not above what it keeps. -/
theorem offer_step (ho : WeakOrder less) {k : ℕ} {h dropped : List α}
    (hord : Ordered less h.length h) (hkeeps : Keeps less k h dropped) (x : α) :
    ∃ dropped', Ordered less (offer less k h x).length (offer less k h x) ∧
      Keeps less k (offer less k h x) dropped' ∧
      (offer less k h x ++ dropped').Perm (x :: (h ++ dropped)) := by
  by_cases hroom : h.length < k
  · have hempty : dropped = [] := by
      by_contra hne
      have hfull := hkeeps.full hne
      omega
    subst hempty
    have hpush : offer less k h x = push less h x := if_pos hroom
    rw [hpush]
    refine ⟨[], push_ordered ho hord x _, ⟨?_, by simp, by simp⟩, ?_⟩
    · rw [push_length]
      omega
    · simpa using push_perm h x
  cases h with
  | nil =>
    have hk : k = 0 := by simpa using hroom
    subst hk
    refine ⟨x :: dropped, ?_, ⟨Nat.le_refl 0, fun _ => rfl, by simp [offer]⟩, by simp [offer]⟩
    simpa [offer] using hord
  | cons root t =>
    have hk : (root :: t).length = k := Nat.le_antisymm hkeeps.fits (Nat.le_of_not_lt hroom)
    rw [offer, if_neg hroom]
    by_cases hless : less root x = true
    · have hperm := @replaceRoot_perm _ less root x t
      have hlength := hperm.length_eq
      rw [if_pos hless]
      refine ⟨root :: dropped, ?_, ⟨?_, ?_, ?_⟩, ?_⟩
      · have hord' := replaceRoot_ordered ho hord x
        rwa [hlength]
      · rw [hlength]
        exact hkeeps.fits
      · intro _
        rw [hlength]
        exact hk
      · intro a ha b hb
        have hroot : less a root = false := by
          rcases mem_cons.mp (hperm.mem_iff.mp ha) with rfl | hat
          · exact ho.asymm _ _ hless
          · exact hord.root_le ho rfl (mem_cons_of_mem root hat)
        rcases mem_cons.mp hb with rfl | hb
        · exact hroot
        · exact ho.trans b root a (hkeeps.best root mem_cons_self b hb) hroot
      · exact (hperm.append_right _).trans (List.Perm.cons x perm_middle)
    · rw [if_neg hless]
      rw [Bool.not_eq_true] at hless
      refine ⟨x :: dropped, hord, ⟨hkeeps.fits, fun _ => hk, ?_⟩, perm_middle⟩
      intro a ha b hb
      rcases mem_cons.mp hb with rfl | hb
      · exact ho.trans b root a hless (hord.root_le ho rfl ha)
      · exact hkeeps.best a ha b hb

theorem foldl_offer (ho : WeakOrder less) (k : ℕ) (entries : List α) {h dropped : List α}
    (hord : Ordered less h.length h) (hkeeps : Keeps less k h dropped) :
    ∃ dropped', Ordered less (entries.foldl (offer less k) h).length
        (entries.foldl (offer less k) h) ∧
      Keeps less k (entries.foldl (offer less k) h) dropped' ∧
      (entries.foldl (offer less k) h ++ dropped').Perm (entries ++ (h ++ dropped)) := by
  induction entries generalizing h dropped with
  | nil => exact ⟨dropped, hord, hkeeps, List.Perm.refl _⟩
  | cons x entries ih =>
    obtain ⟨dropped₁, hord₁, hkeeps₁, hperm₁⟩ := offer_step ho hord hkeeps x
    obtain ⟨dropped₂, hord₂, hkeeps₂, hperm₂⟩ := ih hord₁ hkeeps₁
    have hmoved := (hperm₁.append_left entries).trans perm_middle
    exact ⟨dropped₂, hord₂, hkeeps₂, hperm₂.trans hmoved⟩

theorem ordered_nil (n : ℕ) : Ordered less n ([] : List α) := by
  intro c _ _
  rfl

theorem drain_spec (ho : WeakOrder less) {n : ℕ} {h popped : List α} (hn : h.length = n)
    (hord : Ordered less h.length h) (hsorted : popped.Pairwise fun a b => less a b = false)
    (hbelow : ∀ a ∈ h, ∀ b ∈ popped, less a b = false) :
    (drain less n h popped).Perm (h ++ popped) ∧
      (drain less n h popped).Pairwise fun a b => less a b = false := by
  induction n generalizing h popped with
  | zero =>
    have hnil : h = [] := length_eq_zero_iff.mp hn
    subst hnil
    exact ⟨List.Perm.refl _, hsorted⟩
  | succ n ih =>
    have hne : h ≠ [] := by
      intro hnil
      simp [hnil] at hn
    obtain ⟨x, rest, hpop, hperm, hrest, hleast⟩ := pop_spec ho hord hne
    have hx : x ∈ h := hperm.mem_iff.mp mem_cons_self
    have hlength : rest.length = n := by
      have hl := hperm.length_eq
      rw [hn, length_cons] at hl
      omega
    have hsorted' : (x :: popped).Pairwise fun a b => less a b = false :=
      pairwise_cons.mpr ⟨hbelow x hx, hsorted⟩
    have hbelow' : ∀ a ∈ rest, ∀ b ∈ x :: popped, less a b = false := by
      intro a ha b hb
      have hah : a ∈ h := hperm.mem_iff.mp (mem_cons_of_mem x ha)
      rcases mem_cons.mp hb with rfl | hb
      · exact hleast a hah
      · exact hbelow a hah b hb
    obtain ⟨hdrained, hpairs⟩ := ih hlength hrest hsorted' hbelow'
    simp only [drain, hpop]
    have hmoved : (rest ++ x :: popped).Perm (h ++ popped) :=
      perm_middle.trans (hperm.append_right popped)
    exact ⟨hdrained.trans hmoved, hpairs⟩

/-- The entries kept are the greatest, and they are listed from the greatest to the least. -/
theorem bestOf_spec (ho : WeakOrder less) (k : ℕ) (entries : List α) :
    ∃ dropped, Keeps less k (bestOf less k entries) dropped ∧
      (bestOf less k entries ++ dropped).Perm entries ∧
      (bestOf less k entries).Pairwise fun a b => less a b = false := by
  obtain ⟨dropped, hord, hkeeps, hperm⟩ :=
    foldl_offer ho k entries (ordered_nil 0) (⟨Nat.zero_le k, by simp, by simp⟩ : Keeps less k [] [])
  obtain ⟨hdrained, hpairs⟩ := drain_spec ho rfl hord List.Pairwise.nil (by simp)
  rw [append_nil] at hdrained
  have hsame : (bestOf less k entries).Perm (entries.foldl (offer less k) []) := hdrained
  refine ⟨dropped, ⟨?_, ?_, ?_⟩, ?_, hpairs⟩
  · rw [hsame.length_eq]
    exact hkeeps.fits
  · rw [hsame.length_eq]
    exact hkeeps.full
  · intro a ha
    exact hkeeps.best a (hsame.mem_iff.mp ha)
  · simpa using (hsame.append_right dropped).trans hperm

theorem foldl_offer_push {k : ℕ} (kept : List α) {h : List α} (hroom : h.length + kept.length ≤ k) :
    (kept.foldl (offer less k) h).Perm (kept ++ h) := by
  induction kept generalizing h with
  | nil => exact List.Perm.refl h
  | cons x kept ih =>
    rw [length_cons] at hroom
    have hpush : offer less k h x = push less h x := if_pos (by omega)
    rw [foldl_cons, hpush]
    have hlength := @push_length _ less h x
    exact (ih (by omega)).trans (((push_perm h x).append_left kept).trans perm_middle)

theorem foldl_offer_drop {k : ℕ} {h : List α} (dropped : List α) (hk : dropped ≠ [] → h.length = k)
    (hbest : ∀ a ∈ h, ∀ b ∈ dropped, less a b = false) :
    dropped.foldl (offer less k) h = h := by
  induction dropped with
  | nil => rfl
  | cons x dropped ih =>
    have hfull := hk (cons_ne_nil x dropped)
    have hsame : offer less k h x = h := by
      cases h with
      | nil =>
        have hk0 : ¬([] : List α).length < k := by omega
        exact if_neg hk0
      | cons root t =>
        have hnot := hbest root mem_cons_self x mem_cons_self
        rw [offer, if_neg (by omega), if_neg (by simp [hnot])]
    rw [foldl_cons, hsame]
    refine ih (fun _ => hfull) ?_
    intro a ha b hb
    exact hbest a ha b (mem_cons_of_mem x hb)

theorem bestOf_append (ho : WeakOrder less) {k : ℕ} {kept dropped : List α}
    (hkeeps : Keeps less k kept dropped) : (bestOf less k (kept ++ dropped)).Perm kept := by
  have hpushed : (kept.foldl (offer less k) []).Perm kept := by
    have hfirst := @foldl_offer_push _ less k kept [] (by simpa using hkeeps.fits)
    rwa [append_nil] at hfirst
  have hfold : (kept ++ dropped).foldl (offer less k) [] = kept.foldl (offer less k) [] := by
    rw [foldl_append]
    refine foldl_offer_drop dropped ?_ ?_
    · rw [hpushed.length_eq]
      exact hkeeps.full
    · intro a ha
      exact hkeeps.best a (hpushed.mem_iff.mp ha)
  obtain ⟨-, hord, -⟩ := foldl_offer ho k (kept ++ dropped) (ordered_nil 0)
    (⟨Nat.zero_le k, by simp, by simp⟩ : Keeps less k [] [])
  obtain ⟨hdrained, -⟩ := drain_spec ho rfl hord List.Pairwise.nil (by simp)
  rw [append_nil, hfold] at hdrained
  unfold bestOf
  simp only [hfold]
  exact hdrained.trans hpushed

end BinaryHeap
