import Mathlib.Data.List.Flatten
import Mathlib.Data.List.Nodup
import Mathlib.Data.List.Perm.Subperm

/-!
The nested loop is what a join means: every left row with all the right rows it matches, and, for
the outer kinds, the rows of either side that match nothing.  A table of the right rows grouped by
key answers the same question for an equality, and rows that match only within their own part may
be joined part by part.
-/

namespace Joins

open List

variable {α β γ κ : Type*}

/-- Joins each left row with its matches; `leftOnly` stands in where there are none. -/
def probe (found : α → List β) (both : α → List β → γ) (leftOnly : α → Option γ) (as : List α) :
    List γ :=
  as.filterMap fun a =>
    match found a with
    | [] => leftOnly a
    | b :: bs => some (both a (b :: bs))

/-- The right rows that match no left row. -/
def unmatched (r : α → β → Bool) (as : List α) (bs : List β) : List β :=
  bs.filter fun b => as.all fun a => !r a b

def nestedLoop (r : α → β → Bool) (both : α → List β → γ) (leftOnly : α → Option γ)
    (rightOnly : β → Option γ) (as : List α) (bs : List β) : List γ :=
  probe (fun a => bs.filter (r a)) both leftOnly as ++ (unmatched r as bs).filterMap rightOnly

theorem probe_cons (found : α → List β) (both : α → List β → γ) (leftOnly : α → Option γ) (a : α)
    (as : List α) : probe found both leftOnly (a :: as) =
      (match found a with
        | [] => (leftOnly a).toList
        | b :: bs => [both a (b :: bs)]) ++ probe found both leftOnly as := by
  unfold probe
  rw [filterMap_cons]
  cases found a with
  | nil =>
    dsimp only
    cases leftOnly a <;> rfl
  | cons b bs => rfl

variable {both : α → List β → γ} {leftOnly : α → Option γ} {as : List α}

theorem probe_congr {found found' : α → List β} (h : ∀ a ∈ as, found a = found' a) :
    probe found both leftOnly as = probe found' both leftOnly as := by
  refine filterMap_congr fun a ha => ?_
  rw [h a ha]

theorem nestedLoop_congr {r r' : α → β → Bool} {rightOnly : β → Option γ} {bs : List β}
    (h : ∀ a ∈ as, ∀ b ∈ bs, r a b = r' a b) :
    nestedLoop r both leftOnly rightOnly as bs = nestedLoop r' both leftOnly rightOnly as bs := by
  have hrest : unmatched r as bs = unmatched r' as bs := by
    refine filter_congr fun b hb => ?_
    rw [Bool.eq_iff_iff, all_eq_true, all_eq_true]
    refine forall_congr' fun a => forall_congr' fun ha => ?_
    rw [h a ha b hb]
  rw [nestedLoop, nestedLoop, hrest,
    probe_congr fun a ha => filter_congr fun b hb => h a ha b hb]

theorem nestedLoop_map {δ : Type*} (r : α → β → Bool) (both : α → List β → γ)
    (leftOnly : α → Option γ) (rightOnly : β → Option γ) (s : δ → β) (as : List α) (ds : List δ) :
    nestedLoop r both leftOnly rightOnly as (ds.map s) =
      nestedLoop (fun a d => r a (s d)) (fun a ds => both a (ds.map s)) leftOnly
        (fun d => rightOnly (s d)) as ds := by
  have hprobe : probe (fun a => (ds.map s).filter (r a)) both leftOnly as =
      probe (fun a => ds.filter fun d => r a (s d)) (fun a ds => both a (ds.map s)) leftOnly as := by
    refine filterMap_congr fun a _ => ?_
    dsimp only
    rw [filter_map]
    change (match (ds.filter fun d => r a (s d)).map s with
      | [] => leftOnly a
      | b :: bs => some (both a (b :: bs))) = _
    cases ds.filter fun d => r a (s d) <;> rfl
  have hrest : (unmatched r as (ds.map s)).filterMap rightOnly =
      (unmatched (fun a d => r a (s d)) as ds).filterMap fun d => rightOnly (s d) := by
    unfold unmatched
    rw [filter_map, filterMap_map]
    rfl
  rw [nestedLoop, nestedLoop, hprobe, hrest]

theorem flatMap_parts (f : α → ℕ) (as : List α) (n : ℕ) :
    ((List.range n).flatMap fun i => as.filter fun a => f a = i).Perm
      (as.filter fun a => f a < n) := by
  induction n with
  | zero => simp
  | succ n ih =>
    rw [range_succ, flatMap_append, flatMap_singleton]
    have hsplit := filter_append_perm (fun a => decide (f a < n))
      (as.filter fun a => f a < n + 1)
    have hlow : (as.filter fun a => decide (f a < n + 1)).filter (fun a => decide (f a < n)) =
        as.filter fun a => f a < n := by
      rw [filter_filter]
      refine filter_congr fun a _ => ?_
      rw [Bool.and_eq_left_iff_imp, decide_eq_true_eq, decide_eq_true_eq]
      omega
    have hhigh : (as.filter fun a => decide (f a < n + 1)).filter (fun a => !decide (f a < n)) =
        as.filter fun a => f a = n := by
      rw [filter_filter]
      refine filter_congr fun a _ => ?_
      rw [Bool.eq_iff_iff]
      simp only [Bool.and_eq_true, Bool.not_eq_true', decide_eq_false_iff_not, decide_eq_true_eq]
      omega
    rw [hlow, hhigh] at hsplit
    exact (ih.append_right _).trans hsplit

variable {r : α → β → Bool} {both : α → List β → γ} {leftOnly : α → Option γ}
  {rightOnly : β → Option γ} {as : List α} {bs : List β} {f : α → ℕ} {g : β → ℕ} {n : ℕ}

theorem nestedLoop_parts (hmatch : ∀ a ∈ as, ∀ b ∈ bs, r a b = true → f a = g b)
    (hf : ∀ a ∈ as, f a < n) (hg : ∀ b ∈ bs, g b < n) :
    ((List.range n).flatMap fun i => nestedLoop r both leftOnly rightOnly
        (as.filter fun a => f a = i) (bs.filter fun b => g b = i)).Perm
      (nestedLoop r both leftOnly rightOnly as bs) := by
  have hprobe : ∀ i, probe (fun a => (bs.filter fun b => g b = i).filter (r a)) both leftOnly
      (as.filter fun a => f a = i) =
      probe (fun a => bs.filter (r a)) both leftOnly (as.filter fun a => f a = i) := by
    intro i
    refine probe_congr fun a ha => ?_
    obtain ⟨ha, hi⟩ := mem_filter.mp ha
    rw [filter_filter]
    refine filter_congr fun b hb => ?_
    rw [Bool.and_eq_left_iff_imp]
    intro hr
    rw [decide_eq_true_eq] at hi ⊢
    exact (hmatch a ha b hb hr).symm.trans hi
  have hrest : ∀ i, unmatched r (as.filter fun a => f a = i) (bs.filter fun b => g b = i) =
      (unmatched r as bs).filter fun b => g b = i := by
    intro i
    unfold unmatched
    rw [filter_filter, filter_filter]
    refine filter_congr fun b hb => ?_
    rw [Bool.and_comm, Bool.eq_iff_iff]
    simp only [Bool.and_eq_true, decide_eq_true_eq, all_eq_true, mem_filter,
      Bool.not_eq_true', and_congr_right_iff]
    intro hi
    constructor
    · intro hall a ha
      by_contra hr
      rw [Bool.not_eq_false] at hr
      rw [hall a ⟨ha, (hmatch a ha b hb hr).trans hi⟩] at hr
      cases hr
    · intro hall a ha
      exact hall a ha.1
  simp only [nestedLoop, hprobe, hrest]
  refine (flatMap_append_perm _ _ _).symm.trans (List.Perm.append ?_ ?_)
  · unfold probe
    rw [← filterMap_flatMap]
    refine List.Perm.filterMap _ ((flatMap_parts f as n).trans ?_)
    rw [filter_eq_self.mpr fun a ha => decide_eq_true (hf a ha)]
  · rw [← filterMap_flatMap]
    refine List.Perm.filterMap _ ((flatMap_parts g _ n).trans ?_)
    have hall : ∀ b ∈ unmatched r as bs, decide (g b < n) = true := by
      intro b hb
      exact decide_eq_true (hg b (mem_filter.mp hb).1)
    rw [filter_eq_self.mpr hall]

theorem flatMap_batches [DecidableEq κ] {batches : List (List κ)} {k : κ} {found : List β}
    (hnodup : batches.flatten.Nodup) (hk : k ∈ batches.flatten) :
    (batches.flatMap fun batch => if k ∈ batch then found else []) = found := by
  induction batches with
  | nil => cases hk
  | cons batch batches ih =>
    rw [flatten_cons, nodup_append] at hnodup
    rw [flatten_cons, mem_append] at hk
    rw [flatMap_cons]
    by_cases hin : k ∈ batch
    · have hrest : (batches.flatMap fun batch => if k ∈ batch then found else []) = [] := by
        rw [flatMap_eq_nil_iff]
        intro batch' hmem
        refine if_neg fun hk' => ?_
        exact hnodup.2.2 k hin k (mem_flatten.mpr ⟨batch', hmem, hk'⟩) rfl
      rw [if_pos hin, hrest, append_nil]
    · rw [if_neg hin, nil_append]
      exact ih hnodup.2.1 (hk.resolve_left hin)

theorem filter_eq_of_sublist {p : β → Bool} {bs bs' : List β} (hsub : bs'.Sublist bs)
    (hnodup : bs.Nodup) (hall : ∀ b ∈ bs, p b = true → b ∈ bs') : bs'.filter p = bs.filter p := by
  refine (hsub.filter p).eq_of_length_le ?_
  refine (subperm_of_subset (hnodup.filter p) fun b hb => ?_).length_le
  obtain ⟨hb, hp⟩ := mem_filter.mp hb
  exact mem_filter.mpr ⟨hall b hb hp, hp⟩

/-- A map from keys to the rows that have them. -/
abbrev Grouped (κ β : Type*) := List (κ × List β)

namespace Grouped

variable [DecidableEq κ]

def lookup (k : κ) : Grouped κ β → List β
  | [] => []
  | (k', bs) :: t => if k' = k then bs else lookup k t

def insert (k : κ) (b : β) : Grouped κ β → Grouped κ β
  | [] => [(k, [b])]
  | (k', bs) :: t => if k' = k then (k', bs ++ [b]) :: t else (k', bs) :: insert k b t

theorem lookup_insert (t : Grouped κ β) (k k' : κ) (b : β) :
    lookup k' (insert k b t) = lookup k' t ++ if k = k' then [b] else [] := by
  induction t with
  | nil =>
    simp only [insert, lookup, nil_append]
  | cons e t ih =>
    obtain ⟨k₀, bs⟩ := e
    simp only [insert]
    by_cases hk : k₀ = k
    · subst hk
      rw [if_pos rfl]
      simp only [lookup]
      split
      · rfl
      · rw [append_nil]
    · rw [if_neg hk]
      simp only [lookup]
      by_cases hk' : k₀ = k'
      · subst hk'
        rw [if_pos rfl, if_pos rfl, if_neg (fun h => hk h.symm), append_nil]
      · rw [if_neg hk', if_neg hk', ih]

end Grouped

end Joins
