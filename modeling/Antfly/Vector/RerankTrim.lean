import Antfly.Vector.Rerank

/-!
Sorting by distance and trimming to the bounds leaves the first `k` of the results within the
bounds, and as ties may be sorted in every way, every choice of first ones is left by some sort.
-/

namespace Antfly.Vector

open LeastLoaded Boundary List

theorem dropWhile_eq_filter {α : Type*} {p : α → Bool} {l : List α}
    (h : l.Pairwise fun a b => p a = false → p b = false) :
    l.dropWhile p = l.filter fun a => !p a := by
  induction l with
  | nil => rfl
  | cons a l ih =>
    obtain ⟨hhead, htail⟩ := pairwise_cons.mp h
    cases ha : p a with
    | true => rw [dropWhile_cons_of_pos ha, filter_cons_of_neg (by simp [ha]), ih htail]
    | false =>
      rw [dropWhile_cons_of_neg (by simp [ha])]
      refine (filter_eq_self.mpr fun b hb => ?_).symm
      rcases mem_cons.mp hb with rfl | hb
      · rw [ha]
        rfl
      · rw [hhead b hb ha]
        rfl

/-- A distance that the bounds let through. -/
def InBounds (distanceOver distanceUnder : Option ℚ) (distance : ℚ) : Prop :=
  (∀ bound ∈ distanceOver, bound < distance) ∧ ∀ under ∈ distanceUnder, distance < under

instance (distanceOver distanceUnder : Option ℚ) (distance : ℚ) :
    Decidable (InBounds distanceOver distanceUnder distance) := by
  unfold InBounds
  infer_instance

section Trim

variable {l : List Result} {distanceOver distanceUnder : Option ℚ}

theorem trimOver_eq_filter (hsorted : l.Pairwise fun a b => a.distance ≤ b.distance) :
    trimOver distanceOver l = l.filter fun r => ∀ bound ∈ distanceOver, bound < r.distance := by
  cases distanceOver with
  | none => simp [trimOver]
  | some bound =>
    unfold trimOver
    dsimp only
    rw [dropWhile_eq_filter]
    · simp
    · refine hsorted.imp ?_
      intro a b hle ha
      simp only [Bool.not_eq_false', decide_eq_true_eq] at ha ⊢
      exact lt_of_lt_of_le ha hle

theorem trimUnder_eq_filter (hsorted : l.Pairwise fun a b => a.distance ≤ b.distance) :
    trimUnder distanceUnder l = l.filter fun r => ∀ under ∈ distanceUnder, r.distance < under := by
  cases distanceUnder with
  | none => simp [trimUnder]
  | some under =>
    unfold trimUnder List.rdropWhile
    dsimp only
    rw [dropWhile_eq_filter]
    · simp
    · rw [pairwise_reverse]
      refine hsorted.imp ?_
      intro a b hle hb
      simp only [Bool.not_eq_false', decide_eq_true_eq] at hb ⊢
      exact lt_of_le_of_lt hle hb

theorem trim_eq_filter (hsorted : l.Pairwise fun a b => a.distance ≤ b.distance) :
    trimUnder distanceUnder (trimOver distanceOver l) =
      l.filter fun r => InBounds distanceOver distanceUnder r.distance := by
  rw [trimOver_eq_filter hsorted, trimUnder_eq_filter (hsorted.filter _), filter_filter]
  refine filter_congr fun r _ => ?_
  unfold InBounds
  rw [← Bool.decide_and]
  exact decide_eq_decide.mpr and_comm

end Trim

def boundedIds (distanceOver distanceUnder : Option ℚ) (l : List Result) : Finset ℕ :=
  ((l.filter fun r => InBounds distanceOver distanceUnder r.distance).map Result.id).toFinset

def trimmedIds (distanceOver distanceUnder : Option ℚ) (k : ℕ) (l : List Result) : Finset ℕ :=
  (((trimUnder distanceUnder (trimOver distanceOver l)).take k).map Result.id).toFinset

section First

variable {l l' : List Result} {distanceOver distanceUnder : Option ℚ} {key : ℕ → ℚ} {k : ℕ}

theorem boundedIds_perm (h : l'.Perm l) :
    boundedIds distanceOver distanceUnder l' = boundedIds distanceOver distanceUnder l := by
  unfold boundedIds
  exact toFinset_eq_of_perm _ _ ((h.filter _).map _)

theorem trimmedIds_first (hids : (l.map Result.id).Nodup) (hkey : ∀ r ∈ l, key r.id = r.distance)
    (hsorted : l.Pairwise fun a b => a.distance ≤ b.distance) :
    FirstOf (fun a b => key a ≤ key b) k (boundedIds distanceOver distanceUnder l)
      (trimmedIds distanceOver distanceUnder k l) := by
  unfold boundedIds trimmedIds
  rw [trim_eq_filter hsorted, map_take]
  refine FirstOf.of_sorted ?_ ?_ k
  · exact hids.sublist (filter_sublist.map Result.id)
  · rw [pairwise_map]
    refine (hsorted.filter _).imp_of_mem ?_
    intro a b ha hb hle
    rwa [hkey a (mem_of_mem_filter ha), hkey b (mem_of_mem_filter hb)]

/-- Results in order, with those below the bounds before them and those above behind them. -/
theorem exists_around {mid : List Result}
    (hmid : mid.Perm (l.filter fun r => InBounds distanceOver distanceUnder r.distance))
    (hsorted : mid.Pairwise fun a b => a.distance ≤ b.distance) :
    ∃ l' : List Result, l'.Perm l ∧ (l'.Pairwise fun a b => a.distance ≤ b.distance) ∧
      trimUnder distanceUnder (trimOver distanceOver l') = mid := by
  let above (r : Result) : Bool := decide (∀ bound ∈ distanceOver, bound < r.distance)
  let under (r : Result) : Bool := decide (∀ under ∈ distanceUnder, r.distance < under)
  have hbounds : ∀ r, decide (InBounds distanceOver distanceUnder r.distance) =
      (above r && under r) := fun r => Bool.decide_and _ _
  obtain ⟨low, hlow, hlowSorted⟩ := exists_sorted Result.distance (l.filter fun r => !above r)
  obtain ⟨high, hhigh, hhighSorted⟩ :=
    exists_sorted Result.distance ((l.filter above).filter fun r => !under r)
  have hmid' : mid.Perm ((l.filter above).filter under) := by
    rw [filter_filter]
    refine hmid.trans (List.Perm.of_eq (filter_congr fun r _ => ?_))
    rw [hbounds, Bool.and_comm]
  have hlowMem : ∀ r ∈ low, above r = false := fun r hr =>
    (Bool.not_eq_true' _).mp (mem_filter.mp (hlow.mem_iff.mp hr)).2
  have hmidMem : ∀ r ∈ mid, above r = true ∧ under r = true := by
    intro r hr
    obtain ⟨hr, hunder⟩ := mem_filter.mp (hmid'.mem_iff.mp hr)
    exact ⟨(mem_filter.mp hr).2, hunder⟩
  have hhighMem : ∀ r ∈ high, above r = true ∧ under r = false := by
    intro r hr
    obtain ⟨hr, hunder⟩ := mem_filter.mp (hhigh.mem_iff.mp hr)
    exact ⟨(mem_filter.mp hr).2, (Bool.not_eq_true' _).mp hunder⟩
  have hbelow : ∀ a b, above a = false → above b = true → a.distance ≤ b.distance := by
    intro a b ha hb
    have hnot := of_decide_eq_false ha
    simp only [not_forall, not_lt] at hnot
    obtain ⟨bound, hbound, hle⟩ := hnot
    exact hle.trans (of_decide_eq_true hb bound hbound).le
  have habove : ∀ a b, under a = true → under b = false → a.distance ≤ b.distance := by
    intro a b ha hb
    have hnot := of_decide_eq_false hb
    simp only [not_forall, not_lt] at hnot
    obtain ⟨bound, hbound, hle⟩ := hnot
    exact (of_decide_eq_true ha bound hbound).le.trans hle
  have hall : (low ++ (mid ++ high)).Pairwise fun a b => a.distance ≤ b.distance := by
    refine pairwise_append.mpr ⟨hlowSorted, pairwise_append.mpr ⟨hsorted, hhighSorted,
      fun a ha b hb => habove a b (hmidMem a ha).2 (hhighMem b hb).2⟩, ?_⟩
    intro a ha b hb
    rcases mem_append.mp hb with hb | hb
    · exact hbelow a b (hlowMem a ha) (hmidMem b hb).1
    · exact hbelow a b (hlowMem a ha) (hhighMem b hb).1
  refine ⟨low ++ (mid ++ high), ?_, hall, ?_⟩
  · have hparts := (hmid'.append hhigh).trans (filter_append_perm under (l.filter above))
    refine (hlow.append hparts).trans (perm_append_comm.trans ?_)
    exact filter_append_perm above l
  · have hlowNone : low.filter (fun r => InBounds distanceOver distanceUnder r.distance) = [] := by
      refine filter_eq_nil_iff.mpr fun r hr => ?_
      rw [hbounds, hlowMem r hr]
      exact Bool.false_ne_true
    have hmidAll : mid.filter (fun r => InBounds distanceOver distanceUnder r.distance) = mid := by
      refine filter_eq_self.mpr fun r hr => ?_
      rw [hbounds, (hmidMem r hr).1, (hmidMem r hr).2]
      rfl
    have hhighNone :
        high.filter (fun r => InBounds distanceOver distanceUnder r.distance) = [] := by
      refine filter_eq_nil_iff.mpr fun r hr => ?_
      rw [hbounds, (hhighMem r hr).1, (hhighMem r hr).2]
      exact Bool.false_ne_true
    rw [trim_eq_filter hall, filter_append, filter_append, hlowNone, hmidAll, hhighNone,
      append_nil, nil_append]

theorem exists_trimmedIds (hids : (l.map Result.id).Nodup)
    (hkey : ∀ r ∈ l, key r.id = r.distance) {chosen : Finset ℕ}
    (h : FirstOf (fun a b => key a ≤ key b) k (boundedIds distanceOver distanceUnder l) chosen) :
    ∃ l' : List Result, l'.Perm l ∧ (l'.Pairwise fun a b => a.distance ≤ b.distance) ∧
      trimmedIds distanceOver distanceUnder k l' = chosen := by
  let bounded := l.filter fun r => InBounds distanceOver distanceUnder r.distance
  let picked := (bounded.filter fun r => r.id ∈ chosen).toFinset
  have hbounded : (bounded.map Result.id).Nodup := hids.sublist (filter_sublist.map Result.id)
  have himage : picked.image Result.id = chosen := by
    ext id
    simp only [picked, Finset.mem_image, mem_toFinset, mem_filter, decide_eq_true_eq]
    constructor
    · rintro ⟨r, ⟨-, hr⟩, rfl⟩
      exact hr
    · intro hid
      obtain ⟨r, hr, rfl⟩ := mem_map.mp (mem_toFinset.mp (h.subset hid))
      exact ⟨r, ⟨hr, hid⟩, rfl⟩
  have hinj : ∀ a ∈ bounded, ∀ b ∈ bounded, a.id = b.id → a = b :=
    fun a ha b hb heq => inj_on_of_nodup_map hbounded ha hb heq
  have hfirst :
      FirstOf (fun a b : Result => a.distance ≤ b.distance) k bounded.toFinset picked := by
    refine ⟨?_, ?_, ?_⟩
    · intro r hr
      exact mem_toFinset.mpr (mem_of_mem_filter (mem_toFinset.mp hr))
    · rw [← Finset.card_image_of_injOn (s := picked) (f := Result.id), himage, h.card]
      · congr 1
        rw [toFinset_card_of_nodup (List.Nodup.of_map _ hbounded)]
        exact (toFinset_card_of_nodup hbounded).trans (length_map _)
      · intro a ha b hb heq
        have hmem : ∀ r ∈ picked, r ∈ bounded := fun r hr =>
          mem_of_mem_filter (mem_toFinset.mp hr)
        exact hinj a (hmem a ha) b (hmem b hb) heq
    · intro a ha b hb hout
      have ha' := mem_filter.mp (mem_toFinset.mp ha)
      have hb' := mem_toFinset.mp hb
      have hle := h.first a.id (of_decide_eq_true ha'.2) b.id
        (mem_toFinset.mpr (mem_map_of_mem hb')) (fun hid =>
          hout (mem_toFinset.mpr (mem_filter.mpr ⟨hb', decide_eq_true hid⟩)))
      rwa [hkey a (mem_of_mem_filter ha'.1), hkey b (mem_of_mem_filter hb')] at hle
  obtain ⟨mid, hmid, hsorted, htake⟩ :=
    FirstOf.exists_arrangement (List.Nodup.of_map _ hbounded) hfirst
  obtain ⟨l', hperm, hsorted', htrim⟩ := exists_around hmid hsorted
  refine ⟨l', hperm, hsorted', ?_⟩
  unfold trimmedIds
  rw [htrim, ← himage, ← htake]
  ext id
  simp only [mem_toFinset, mem_map, Finset.mem_image]

end First

def keyOf (l : List Result) (id : ℕ) : ℚ :=
  ((l.find? fun r => r.id = id).map Result.distance).getD 0

section Keys

variable {l : List Result} {distanceOver distanceUnder : Option ℚ} {k : ℕ}

theorem keyOf_of_mem (hids : (l.map Result.id).Nodup) {r : Result} (hr : r ∈ l) :
    keyOf l r.id = r.distance := by
  unfold keyOf
  cases hfind : l.find? fun r' => r'.id = r.id with
  | none =>
    rw [find?_eq_none] at hfind
    exact absurd (decide_eq_true rfl) (hfind r hr)
  | some r' =>
    have hid : r'.id = r.id := by simpa using find?_some hfind
    have hsame := inj_on_of_nodup_map hids (mem_of_find?_eq_some hfind) hr hid
    rw [hsame]
    rfl

theorem mem_boundedIds (hids : (l.map Result.id).Nodup) {id : ℕ} :
    id ∈ boundedIds distanceOver distanceUnder l ↔
      id ∈ l.map Result.id ∧ InBounds distanceOver distanceUnder (keyOf l id) := by
  unfold boundedIds
  simp only [mem_toFinset, mem_map, mem_filter, decide_eq_true_eq]
  constructor
  · rintro ⟨r, ⟨hr, hbounds⟩, rfl⟩
    exact ⟨⟨r, hr, rfl⟩, (keyOf_of_mem hids hr).symm ▸ hbounds⟩
  · rintro ⟨⟨r, hr, rfl⟩, hbounds⟩
    exact ⟨r, ⟨hr, keyOf_of_mem hids hr ▸ hbounds⟩, rfl⟩

theorem card_boundedIds_le : (boundedIds distanceOver distanceUnder l).card ≤ l.length := by
  refine (toFinset_card_le _).trans ?_
  rw [length_map]
  exact length_filter_le _ _

theorem exists_lawfulSort : ∃ sort, LawfulSort sort :=
  ⟨fun l => l.insertionSort fun a b => a.distance ≤ b.distance,
    fun l => perm_insertionSort _ l, fun l => pairwise_insertionSort _ l⟩

theorem exists_sort_iff (hids : (l.map Result.id).Nodup) (chosen : Finset ℕ) :
    (∃ sort, LawfulSort sort ∧ trimmedIds distanceOver distanceUnder k (sort l) = chosen) ↔
      FirstOf (fun a b => keyOf l a ≤ keyOf l b) k (boundedIds distanceOver distanceUnder l)
        chosen := by
  constructor
  · rintro ⟨sort, hsort, rfl⟩
    rw [← boundedIds_perm (hsort.perm l)]
    refine trimmedIds_first ?_ ?_ (hsort.sorted l)
    · exact ((hsort.perm l).map Result.id).nodup_iff.mpr hids
    · intro r hr
      exact keyOf_of_mem hids ((hsort.perm l).mem_iff.mp hr)
  · intro h
    obtain ⟨l', hperm, hsorted, htrimmed⟩ := exists_trimmedIds hids (fun r => keyOf_of_mem hids) h
    obtain ⟨sort, hsort⟩ := exists_lawfulSort
    refine ⟨Function.update sort l l', ⟨?_, ?_⟩, ?_⟩
    · intro m
      by_cases hm : m = l
      · subst hm
        rwa [Function.update_self]
      · rw [Function.update_of_ne hm]
        exact hsort.perm m
    · intro m
      by_cases hm : m = l
      · subst hm
        rwa [Function.update_self]
      · rw [Function.update_of_ne hm]
        exact hsort.sorted m
    · rwa [Function.update_self]

end Keys

end Antfly.Vector
