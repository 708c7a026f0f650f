import Mathlib.Data.List.Nodup
import Mathlib.Data.Nat.Init
import Mathlib.Order.Lattice

/-!
A reader takes the first `n` keys at or above a bound, and while the pages are full it goes on at a
bound that is computed from the last key of the page.  What it reads in the end is a sorted list.
Whether a given list is read depends on the last keys of its full pages: the bound after such a key
must lie behind it, leave no key of the list out, and leave out every other key of the store.
-/

namespace PagedScan

open List

section Pages

variable {α : Type*} {n : ℕ} {X p : List α} {k : α}

/-- `k` is the last key of a full page of `X`. -/
def LastOfPage (n : ℕ) (X : List α) (k : α) : Prop := ∃ i, X[(i + 1) * n - 1]? = some k

theorem not_lastOfPage (h : X.length < n) : ¬ LastOfPage n X k := by
  rintro ⟨i, hi⟩
  obtain ⟨hlt, -⟩ := List.getElem?_eq_some_iff.mp hi
  have hle : n ≤ (i + 1) * n := Nat.le_mul_of_pos_left n i.succ_pos
  omega

theorem lastOfPage_append {a : α} (hfull : (p ++ [a]).length = n) :
    LastOfPage n ((p ++ [a]) ++ X) k ↔ k = a ∨ LastOfPage n X k := by
  have hlength : p.length + 1 = n := by simpa using hfull
  have hfirst : ((p ++ [a]) ++ X)[(0 + 1) * n - 1]? = some a := by
    rw [getElem?_append_left (by rw [hfull]; omega),
      getElem?_append_right (by omega)]
    have hzero : (0 + 1) * n - 1 - p.length = 0 := by omega
    rw [hzero]
    rfl
  have hlater : ∀ i, ((p ++ [a]) ++ X)[(i + 1 + 1) * n - 1]? = X[(i + 1) * n - 1]? := by
    intro i
    have hmul : (i + 1 + 1) * n = (i + 1) * n + n := Nat.succ_mul _ _
    have hpos : n ≤ (i + 1) * n := Nat.le_mul_of_pos_left n i.succ_pos
    rw [getElem?_append_right (by rw [hfull]; omega), hfull]
    congr 1
    omega
  constructor
  · rintro ⟨i, hi⟩
    cases i with
    | zero => exact .inl (Option.some.inj (hi.symm.trans hfirst))
    | succ i => exact .inr ⟨i, (hlater i).symm.trans hi⟩
  · rintro (rfl | ⟨i, hi⟩)
    · exact ⟨0, hfirst⟩
    · exact ⟨i + 1, (hlater i).trans hi⟩

theorem mem_of_lastOfPage (h : LastOfPage n X k) : k ∈ X := by
  obtain ⟨i, hi⟩ := h
  exact mem_of_getElem? hi

end Pages

variable {α : Type*} [LinearOrder α]

/-- The keys of one page. -/
def page (L : List α) (n : ℕ) (lo : α) : List α := (L.filter fun x => lo ≤ x).take n

/-- A reader that starts at `lo` ends with the keys `out`. -/
inductive Reads (L : List α) (after : α → α) (n : ℕ) : α → List α → Prop where
  | last {lo : α} (h : (page L n lo).length < n) : Reads L after n lo (page L n lo)
  | more {lo k : α} {p out : List α} (hpage : page L n lo = p ++ [k])
      (hfull : (p ++ [k]).length = n) (hrest : Reads L after n (after k) out) :
      Reads L after n lo ((p ++ [k]) ++ out)

/-- The conditions under which a reader that starts at `lo` ends with `X`. -/
structure Exactly (L : List α) (after : α → α) (n : ℕ) (lo : α) (X : List α) : Prop where
  stored : ∀ x ∈ X, x ∈ L ∧ lo ≤ x
  forward : ∀ k, LastOfPage n X k → k < after k ∧ ∀ x ∈ X, k < x → after k ≤ x
  others : ∀ e ∈ L, lo ≤ e → e ∉ X → ∃ k, LastOfPage n X k ∧ k < e ∧ e < after k

theorem eq_of_sorted {l l' : List α} (hl : l.Pairwise (· < ·)) (hl' : l'.Pairwise (· < ·))
    (h : ∀ x, x ∈ l ↔ x ∈ l') : l = l' := by
  have hnodup : ∀ {s : List α}, s.Pairwise (· < ·) → s.Nodup := fun hs => hs.imp fun h => h.ne
  have hperm := (perm_ext_iff_of_nodup (hnodup hl) (hnodup hl')).mpr h
  exact hperm.eq_of_pairwise (fun a b _ _ hab hba => absurd hab hba.not_gt) hl hl'

section Reader

variable {L : List α} {after : α → α} {n : ℕ} {lo : α} {X : List α}

theorem page_eq_of_length_lt (h : (page L n lo).length < n) :
    page L n lo = L.filter fun x => lo ≤ x := by
  unfold page at h ⊢
  rw [length_take] at h
  exact take_of_length_le (by omega)

theorem mem_page_of_le {p : List α} {k : α} (hL : L.Pairwise (· < ·))
    (hpage : page L n lo = p ++ [k]) {e : α} (he : e ∈ L) (hlo : lo ≤ e) (hek : e ≤ k) :
    e ∈ p ++ [k] := by
  have hmem : e ∈ L.filter fun x => lo ≤ x := mem_filter.mpr ⟨he, decide_eq_true hlo⟩
  have hsorted := hL.filter fun x => lo ≤ x
  rw [← take_append_drop n (L.filter fun x => lo ≤ x)] at hmem hsorted
  change e ∈ page L n lo ++ _ at hmem
  change (page L n lo ++ _).Pairwise _ at hsorted
  rw [hpage] at hmem hsorted
  rcases mem_append.mp hmem with h | h
  · exact h
  · exact absurd ((pairwise_append.mp hsorted).2.2 k (by simp) e h) (not_lt.mpr hek)

theorem mem_page {x : α} (h : x ∈ page L n lo) : x ∈ L ∧ lo ≤ x := by
  obtain ⟨hL, hlo⟩ := mem_filter.mp (mem_of_mem_take h)
  exact ⟨hL, of_decide_eq_true hlo⟩

theorem page_sorted (hL : L.Pairwise (· < ·)) : (page L n lo).Pairwise (· < ·) :=
  (hL.filter _).sublist (take_sublist _ _)

theorem Reads.unique {Y : List α} (h : Reads L after n lo X) (h' : Reads L after n lo Y) :
    X = Y := by
  induction h generalizing Y with
  | last hlt =>
    cases h' with
    | last => rfl
    | more hpage hfull => rw [hpage] at hlt; omega
  | more hpage hfull hrest ih =>
    cases h' with
    | last hlt => rw [hpage] at hlt; omega
    | more hpage' hfull' hrest' =>
      obtain ⟨rfl, hk⟩ := append_inj' (hpage.symm.trans hpage') rfl
      cases hk
      rw [ih hrest']

theorem Reads.after_page {k : α} (h : Reads L after n lo X) (hk : LastOfPage n X k) :
    ∃ Y, Reads L after n (after k) Y ∧ Y.length < X.length := by
  induction h with
  | last hlt => exact absurd hk (not_lastOfPage hlt)
  | @more lo a p out hpage hfull hrest ih =>
    rcases (lastOfPage_append hfull).mp hk with rfl | hk
    · exact ⟨out, hrest, by simp; omega⟩
    · obtain ⟨Y, hY, hlt⟩ := ih hk
      rw [length_append]
      exact ⟨Y, hY, Nat.lt_of_lt_of_le hlt (Nat.le_add_left _ _)⟩

theorem Reads.subset (h : Reads L after n lo X) : X ⊆ L := by
  induction h with
  | last hlt => exact fun x hx => (mem_page hx).1
  | more hpage hfull hrest ih =>
    exact append_subset.mpr ⟨fun x hx => (mem_page (hpage ▸ hx)).1, ih⟩

theorem Reads.progress {k : α} (h : Reads L after n lo X)
    (hafter : ∀ k ∈ L, k < after k ∨ after k = lo) (hk : LastOfPage n X k) : k < after k := by
  refine (hafter k (h.subset (mem_of_lastOfPage hk))).resolve_right fun hback => ?_
  obtain ⟨Y, hY, hlt⟩ := h.after_page hk
  rw [hback] at hY
  rw [h.unique hY] at hlt
  exact Nat.lt_irrefl _ hlt

theorem Reads.sorted_exactly (hL : L.Pairwise (· < ·)) (h : Reads L after n lo X)
    (hforward : ∀ k, LastOfPage n X k → k < after k) :
    X.Pairwise (· < ·) ∧ Exactly L after n lo X := by
  induction h with
  | @last lo hlt =>
    refine ⟨page_sorted hL, fun x => mem_page, ?_, ?_⟩
    · intro k hk
      exact absurd hk (not_lastOfPage hlt)
    · intro e he hlo hnot
      rw [page_eq_of_length_lt hlt] at hnot
      exact absurd (mem_filter.mpr ⟨he, decide_eq_true hlo⟩) hnot
  | @more lo k p out hpage hfull hrest ih =>
    have hlater : ∀ b, LastOfPage n out b → b < after b := fun b hb =>
      hforward b ((lastOfPage_append hfull).mpr (.inr hb))
    have hk : k < after k := hforward k ((lastOfPage_append hfull).mpr (.inl rfl))
    obtain ⟨hsorted, hout⟩ := ih hlater
    have hpages : (p ++ [k]).Pairwise (· < ·) := hpage ▸ page_sorted hL
    have hle : ∀ x ∈ p ++ [k], x ≤ k := by
      intro x hx
      rcases mem_append.mp hx with hx | hx
      · exact ((pairwise_append.mp hpages).2.2 x hx k mem_cons_self).le
      · exact (mem_singleton.mp hx).le
    have hgt : ∀ x ∈ out, k < x := fun x hx => hk.trans_le (hout.stored x hx).2
    have hfirst : ∀ x ∈ p ++ [k], x ∈ L ∧ lo ≤ x := fun x hx => mem_page (hpage ▸ hx)
    have hlok : lo ≤ k := (hfirst k (by simp)).2
    refine ⟨pairwise_append.mpr ⟨hpages, hsorted, fun x hx y hy =>
      (hle x hx).trans_lt (hgt y hy)⟩, ?_, ?_, ?_⟩
    · intro x hx
      rcases mem_append.mp hx with hx | hx
      · exact hfirst x hx
      · exact ⟨(hout.stored x hx).1, hlok.trans (hgt x hx).le⟩
    · intro b hb
      rcases (lastOfPage_append hfull).mp hb with rfl | hb
      · refine ⟨hk, fun x hx hbx => ?_⟩
        rcases mem_append.mp hx with hx | hx
        · exact absurd hbx (not_lt.mpr (hle x hx))
        · exact (hout.stored x hx).2
      · refine ⟨(hout.forward b hb).1, fun x hx hbx => ?_⟩
        rcases mem_append.mp hx with hx | hx
        · exact absurd (hgt b (mem_of_lastOfPage hb)) (not_lt.mpr (hbx.le.trans (hle x hx)))
        · exact (hout.forward b hb).2 x hx hbx
    · intro e he hlo hnot
      rw [mem_append, not_or] at hnot
      have hke : k < e := not_le.mp fun hek => hnot.1 (mem_page_of_le hL hpage he hlo hek)
      rcases lt_or_ge e (after k) with h | h
      · exact ⟨k, (lastOfPage_append hfull).mpr (.inl rfl), hke, h⟩
      · obtain ⟨b, hb, hbe⟩ := hout.others e he h hnot.2
        exact ⟨b, (lastOfPage_append hfull).mpr (.inr hb), hbe⟩

theorem Exactly.reads (hn : 0 < n) (hL : L.Pairwise (· < ·)) (hX : X.Pairwise (· < ·))
    (h : Exactly L after n lo X) : Reads L after n lo X := by
  induction hlength : X.length using Nat.strongRecOn generalizing X lo with
  | _ m ih =>
    rcases Nat.lt_or_ge X.length n with hlt | hge
    · have hpage : page L n lo = X := by
        have hall : (L.filter fun x => lo ≤ x) = X := by
          refine eq_of_sorted (hL.filter _) hX fun x => ?_
          rw [mem_filter, decide_eq_true_eq]
          refine ⟨fun ⟨hx, hlo⟩ => ?_, h.stored x⟩
          by_contra hnot
          obtain ⟨k, hk, -⟩ := h.others x hx hlo hnot
          exact not_lastOfPage hlt hk
        unfold page
        rw [hall]
        exact take_of_length_le (Nat.le_of_lt hlt)
      rw [← hpage] at hlt ⊢
      exact Reads.last hlt
    · obtain ⟨p, k, hp⟩ : ∃ p k, X.take n = p ++ [k] := by
        have hne : X.take n ≠ [] := by
          rw [← length_pos_iff, length_take]
          omega
        exact ⟨_, _, (dropLast_append_getLast hne).symm⟩
      have hfull : (p ++ [k]).length = n := by
        rw [← hp, length_take]
        omega
      have hsplit : X = (p ++ [k]) ++ X.drop n := by rw [← hp, take_append_drop]
      rw [hsplit] at hX h ⊢
      obtain ⟨hpages, hrest, hcross⟩ := pairwise_append.mp hX
      have hkmem : k ∈ p ++ [k] := by simp
      have hle : ∀ x ∈ p ++ [k], x ≤ k := by
        intro x hx
        rcases mem_append.mp hx with hx | hx
        · exact ((pairwise_append.mp hpages).2.2 x hx k mem_cons_self).le
        · exact (mem_singleton.mp hx).le
      obtain ⟨hk, hskip⟩ := h.forward k ((lastOfPage_append hfull).mpr (.inl rfl))
      have hlok : lo ≤ k := (h.stored k (mem_append_left _ hkmem)).2
      have hborder : ∀ {b}, LastOfPage n ((p ++ [k]) ++ X.drop n) b → k ≤ b := by
        intro b hb
        rcases (lastOfPage_append hfull).mp hb with rfl | hb
        · exact le_rfl
        · exact (hcross k hkmem b (mem_of_lastOfPage hb)).le
      refine Reads.more ?_ hfull (ih _ ?_ hrest ?_ rfl)
      · -- Up to `k` the store holds just the first page.
        have hfirst : ∀ x, x ∈ L ∧ lo ≤ x ∧ x ≤ k ↔ x ∈ p ++ [k] := by
          intro x
          constructor
          · rintro ⟨hx, hlo, hxk⟩
            by_contra hnot
            have hnot' : x ∉ (p ++ [k]) ++ X.drop n := by
              rw [mem_append, not_or]
              exact ⟨hnot, fun hd => absurd hxk (not_le.mpr (hcross k hkmem x hd))⟩
            obtain ⟨b, hb, hbx, -⟩ := h.others x hx hlo hnot'
            exact absurd (hborder hb) (not_le.mpr (hbx.trans_le hxk))
          · intro hx
            obtain ⟨hxL, hlo⟩ := h.stored x (mem_append_left _ hx)
            exact ⟨hxL, hlo, hle x hx⟩
        have hkeys : (L.filter fun x => lo ≤ x) =
            (p ++ [k]) ++ L.filter fun x => k < x := by
          refine eq_of_sorted (hL.filter _) ?_ fun x => ?_
          · refine pairwise_append.mpr ⟨hpages, hL.filter _, fun x hx y hy => ?_⟩
            exact (hle x hx).trans_lt (of_decide_eq_true (mem_filter.mp hy).2)
          · rw [mem_append, ← hfirst, mem_filter, mem_filter, decide_eq_true_eq,
              decide_eq_true_eq]
            constructor
            · rintro ⟨hx, hlo⟩
              exact (le_or_gt x k).imp (fun hxk => ⟨hx, hlo, hxk⟩) fun hkx => ⟨hx, hkx⟩
            · rintro (⟨hx, hlo, -⟩ | ⟨hx, hkx⟩)
              · exact ⟨hx, hlo⟩
              · exact ⟨hx, hlok.trans hkx.le⟩
        unfold page
        rw [hkeys]
        exact take_left' hfull
      · rw [← hlength, length_drop]
        omega
      · refine ⟨?_, ?_, ?_⟩
        · intro x hx
          refine ⟨(h.stored x (mem_append_right _ hx)).1, ?_⟩
          exact hskip x (mem_append_right _ hx) (hcross k hkmem x hx)
        · intro b hb
          obtain ⟨hlt, hforward⟩ := h.forward b ((lastOfPage_append hfull).mpr (.inr hb))
          exact ⟨hlt, fun x hx => hforward x (mem_append_right _ hx)⟩
        · intro e he hlo hnot
          have hnot' : e ∉ (p ++ [k]) ++ X.drop n := by
            rw [mem_append, not_or]
            exact ⟨fun hp => absurd (hk.trans_le hlo) (not_lt.mpr (hle e hp)), hnot⟩
          obtain ⟨b, hb, hbe, heb⟩ := h.others e he (hlok.trans (hk.le.trans hlo)) hnot'
          rcases (lastOfPage_append hfull).mp hb with rfl | hb
          · exact absurd heb (not_lt.mpr hlo)
          · exact ⟨b, hb, hbe, heb⟩

theorem reads_iff (hn : 0 < n) (hL : L.Pairwise (· < ·))
    (hafter : ∀ k ∈ L, k < after k ∨ after k = lo) :
    Reads L after n lo X ↔ X.Pairwise (· < ·) ∧ Exactly L after n lo X :=
  ⟨fun h => h.sorted_exactly hL fun _ => h.progress hafter, fun h => h.2.reads hn hL h.1⟩

end Reader

end PagedScan
