import Antfly.Lib.OrdMap
import Mathlib.Data.List.Range
import Mathlib.Data.Nat.Basic

/-!
A log numbers its entries from one.  What was compacted away is remembered as an offset only, so
the entries that are left are the list of those with the numbers above the offset.  An ordered map
from numbers to entries `Holds` such a log when it has every entry of it under its number; below
the offset and above the last entry the map may keep anything.
-/

structure OffsetLog (ε : Type*) where
  offset : ℕ
  entries : List ε

namespace OffsetLog

open List

variable {ε : Type*} (l : OffsetLog ε) {i j k lo hi : ℕ}

def last : ℕ := l.offset + l.entries.length

/-- The entry of number `i`, if the log still has it. -/
def get? (i : ℕ) : Option ε := if i ≤ l.offset then none else l.entries[i - l.offset - 1]?

/-- The entries of the numbers `lo` to `hi - 1`. -/
def slice (lo hi : ℕ) : List ε := (l.entries.drop (lo - l.offset - 1)).take (hi - lo)

/-- Drops the entries from `i` on and puts `es` in their place. -/
def splice (i : ℕ) (es : List ε) : OffsetLog ε where
  offset := l.offset
  entries := l.entries.take (i - l.offset - 1) ++ es

/-- Forgets the entries up to `i`. -/
def compact (i : ℕ) : OffsetLog ε where
  offset := i
  entries := l.entries.drop (i - l.offset)

theorem offset_le_last : l.offset ≤ l.last := Nat.le_add_right _ _

theorem get?_isSome (hlo : l.offset < i) (hhi : i ≤ l.last) : ∃ e, l.get? i = some e := by
  have hlt : i - l.offset - 1 < l.entries.length := by
    unfold last at hhi
    omega
  refine ⟨l.entries[i - l.offset - 1], ?_⟩
  rw [get?, if_neg (by omega), getElem?_eq_getElem hlt]

theorem lt_of_get? {e : ε} (h : l.get? i = some e) : l.offset < i ∧ i ≤ l.last := by
  unfold get? at h
  split at h
  · cases h
  · obtain ⟨hlt, -⟩ := List.getElem?_eq_some_iff.mp h
    unfold last
    omega

@[simp] theorem offset_splice (es : List ε) : (l.splice i es).offset = l.offset := rfl

theorem last_splice (es : List ε) (hlo : l.offset < i) (hhi : i ≤ l.last + 1) :
    (l.splice i es).last + 1 = i + es.length := by
  unfold last at hhi
  simp only [splice, last, length_append, length_take]
  omega

theorem get?_splice (es : List ε) (j : ℕ) : (l.splice i es).get? j =
    if j ≤ l.offset then none
    else (l.entries.take (i - l.offset - 1) ++ es)[j - l.offset - 1]? := rfl

theorem get?_splice_of_lt {es : List ε} (hhi : i ≤ l.last + 1) (hj : j < i) :
    (l.splice i es).get? j = l.get? j := by
  unfold last at hhi
  rw [get?_splice, get?]
  by_cases hjo : j ≤ l.offset
  · rw [if_pos hjo, if_pos hjo]
  · rw [if_neg hjo, if_neg hjo, getElem?_append_left (by rw [length_take]; omega),
      getElem?_take_of_lt (by omega)]

theorem get?_splice_of_ge {es : List ε} (hlo : l.offset < i) (hhi : i ≤ l.last + 1) (hj : i ≤ j) :
    (l.splice i es).get? j = es[j - i]? := by
  unfold last at hhi
  have hlen : (l.entries.take (i - l.offset - 1)).length = i - l.offset - 1 := by
    rw [length_take]
    omega
  rw [get?_splice, if_neg (by omega), getElem?_append_right (by omega), hlen]
  congr 1
  omega

theorem splice_splice {e : ε} {es : List ε} (hlo : l.offset < i) (hhi : i ≤ l.last + 1) :
    (l.splice i [e]).splice (i + 1) es = l.splice i (e :: es) := by
  unfold last at hhi
  have hlen : (l.entries.take (i - l.offset - 1)).length = i - l.offset - 1 := by
    rw [length_take]
    omega
  have htake : (l.entries.take (i - l.offset - 1) ++ [e]).take (i + 1 - l.offset - 1) =
      l.entries.take (i - l.offset - 1) ++ [e] := by
    refine take_of_length_le ?_
    rw [length_append, hlen, length_singleton]
    omega
  simp only [splice, htake, append_assoc, singleton_append]

theorem last_compact (hlo : l.offset ≤ i) (hhi : i ≤ l.last) : (l.compact i).last = l.last := by
  unfold last at hhi
  simp only [compact, last, length_drop]
  omega

theorem get?_compact (hlo : l.offset ≤ i) (hj : i < j) : (l.compact i).get? j = l.get? j := by
  have hget : (l.compact i).get? j =
      if j ≤ i then none else (l.entries.drop (i - l.offset))[j - i - 1]? := rfl
  rw [hget, get?, if_neg (by omega), if_neg (by omega), getElem?_drop]
  congr 1
  omega

theorem length_slice (hlo : l.offset < lo) (hhi : hi ≤ l.last + 1) :
    (l.slice lo hi).length = hi - lo := by
  unfold last at hhi
  rw [slice, length_take, length_drop]
  omega

theorem getElem?_slice (hlo : l.offset < lo) (hk : lo + k < hi) :
    (l.slice lo hi)[k]? = l.get? (lo + k) := by
  unfold slice get?
  rw [getElem?_take_of_lt (by omega), getElem?_drop, if_neg (by omega)]
  congr 1
  omega

end OffsetLog

namespace OrdMap

open List

variable {ε : Type*} {m : OrdMap ℕ ε} {l : OffsetLog ε} {lo hi : ℕ}

/-- The map has every entry of the log under its number. -/
def Holds (m : OrdMap ℕ ε) (l : OffsetLog ε) : Prop :=
  ∀ i, l.offset < i → i ≤ l.last → m.get? i = l.get? i

theorem scan_of_get? {f : ℕ → ε} (h : ∀ i, lo ≤ i → i < hi → m.get? i = some (f i)) :
    m.scan lo hi = (List.range' lo (hi - lo)).map fun i => (i, f i) := by
  let listed : OrdMap ℕ ε := {
    entries := (List.range' lo (hi - lo)).map fun i => (i, f i)
    sorted := by
      rw [pairwise_map]
      exact pairwise_lt_range' }
  have hlisted : ∀ i, lo ≤ i → i < hi → listed.get? i = some (f i) := by
    intro i hl hr
    rw [← mem_entries_iff]
    refine mem_map.mpr ⟨i, ?_, rfl⟩
    rw [mem_range'_1]
    omega
  have hscan : listed.scan lo hi = listed.entries := by
    refine filter_eq_self.mpr fun e he => ?_
    obtain ⟨i, hi', rfl⟩ := mem_map.mp he
    rw [mem_range'_1] at hi'
    rw [decide_eq_true_eq]
    omega
  rw [scan_congr fun i hl hr => (h i hl hr).trans (hlisted i hl hr).symm, hscan]

theorem Holds.scan_eq (h : m.Holds l) (hlo : l.offset < lo) (hhi : hi ≤ l.last + 1) :
    (m.scan lo hi).map Prod.snd = l.slice lo hi := by
  rcases Nat.lt_or_ge lo hi with hlt | hge
  · have hsome : ∀ i, lo ≤ i → i < hi → ∃ e, l.get? i = some e := fun i hl hr =>
      l.get?_isSome (by omega) (by omega)
    obtain ⟨e₀, -⟩ := hsome lo (Nat.le_refl lo) hlt
    let f : ℕ → ε := fun i => (l.get? i).getD e₀
    have hf : ∀ i, lo ≤ i → i < hi → l.get? i = some (f i) := by
      intro i hl hr
      obtain ⟨e, he⟩ := hsome i hl hr
      simp only [f, he, Option.getD_some]
    rw [scan_of_get? (f := f) fun i hl hr => (h i (by omega) (by omega)).trans (hf i hl hr),
      map_map]
    refine ext_getElem? fun k => ?_
    rcases Nat.lt_or_ge k (hi - lo) with hk | hk
    · rw [l.getElem?_slice hlo (by omega), hf (lo + k) (by omega) (by omega), getElem?_map,
        getElem?_range' (by omega)]
      simp only [Option.map_some, Function.comp_apply, Nat.one_mul]
    · rw [getElem?_eq_none (by rw [length_map, length_range']; exact hk),
        getElem?_eq_none (by rw [l.length_slice hlo hhi]; exact hk)]
  · have hnone : m.scan lo hi = [] := by
      refine filter_eq_nil_iff.mpr fun e _ hin => ?_
      rw [decide_eq_true_eq] at hin
      omega
    have hslice : l.slice lo hi = [] := by
      rw [OffsetLog.slice, Nat.sub_eq_zero_of_le hge, take_zero]
    rw [hnone, hslice, map_nil]

theorem Holds.put (h : m.Holds l) {i : ℕ} {e : ε} (hlo : l.offset < i) (hhi : i ≤ l.last + 1)
    {m' : OrdMap ℕ ε} (hm' : ∀ j, j < i → m'.get? j = m.get? j) :
    (m'.insert i e).Holds (l.splice i [e]) := by
  intro j hj hj'
  have hlast := l.last_splice [e] hlo hhi
  rw [length_singleton] at hlast
  rw [get?_insert]
  rcases Nat.lt_or_ge j i with hji | hji
  · rw [if_neg (by omega), hm' j hji, l.get?_splice_of_lt hhi hji]
    exact h j hj (by omega)
  · have heq : j = i := by omega
    subst heq
    rw [if_pos rfl, l.get?_splice_of_ge hlo hhi (Nat.le_refl j), Nat.sub_self,
      getElem?_cons_zero]

theorem Holds.compact (h : m.Holds l) {i : ℕ} (hlo : l.offset ≤ i) (hhi : i ≤ l.last)
    {m' : OrdMap ℕ ε} (hm' : ∀ j, i ≤ j → m'.get? j = m.get? j) : m'.Holds (l.compact i) := by
  intro j hj hj'
  rw [l.last_compact hlo hhi] at hj'
  have hij : i < j := hj
  rw [hm' j (Nat.le_of_lt hij), l.get?_compact hlo hij]
  exact h j (by omega) hj'

end OrdMap
