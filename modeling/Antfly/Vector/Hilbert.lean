import Mathlib.Data.List.Basic

/-!
Skilling's algorithm turns the axes of a point into the transposed index by exchanging and
inverting low bits, one bit plane after the other, and by a Gray code.  Every turn of its loops
undoes itself, so the loops of the decoder, which run backwards, undo those of the encoder.
-/

namespace Antfly.Hilbert

open List

/-- The coordinates of a point, or of a transposed index. -/
abbrev Coords := List (BitVec 32)

/-- The values of `q` from `2` up to `1 << 31`; the next doubling is zero. -/
def planes : List (BitVec 32) := (List.range 31).map fun k => BitVec.twoPow 32 (k + 1)

/-- The body of the exchange loops. -/
def exchange (q : BitVec 32) (x : Coords) (i : ℕ) : Coords :=
  let p := q - 1
  if x.getD i 0 &&& q ≠ 0 then x.set 0 (x.getD 0 0 ^^^ p)
  else
    let t := (x.getD 0 0 ^^^ x.getD i 0) &&& p
    let x := x.set 0 (x.getD 0 0 ^^^ t)
    x.set i (x.getD i 0 ^^^ t)

/-- The body of the Gray loops, `x[i+1] ^= x[i]`. -/
def grayStep (x : Coords) (i : ℕ) : Coords := x.set (i + 1) (x.getD (i + 1) 0 ^^^ x.getD i 0)

/-- The `t` that the encoder collects from the last coordinate. -/
def grayTail (g : BitVec 32) : BitVec 32 :=
  planes.reverse.foldl (fun t q => if g &&& q ≠ 0 then t ^^^ (q - 1) else t) 0

def axesToTranspose (x : Coords) : Coords :=
  let n := x.length
  let x := planes.reverse.foldl (fun x q => (List.range n).foldl (exchange q) x) x
  let x := (List.range (n - 1)).foldl grayStep x
  let t := grayTail (x.getD (n - 1) 0)
  x.map (· ^^^ t)

def transposedToAxes (x : Coords) : Coords :=
  let n := x.length
  let t := x.getD (n - 1) 0 >>> 1
  let x := (List.range (n - 1)).reverse.foldl grayStep x
  let x := x.set 0 (x.getD 0 0 ^^^ t)
  planes.foldl (fun x q => (List.range n).reverse.foldl (exchange q) x) x

section Loops

variable {σ α : Type*} {f g : σ → α → σ} {P : σ → Prop} {l : List α}

theorem foldl_keeps (hf : ∀ x, P x → ∀ a ∈ l, P (f x a)) {x : σ} (hx : P x) : P (l.foldl f x) := by
  induction l generalizing x with
  | nil => exact hx
  | cons a l ih =>
    exact ih (fun x hx a ha => hf x hx a (mem_cons_of_mem _ ha))
      (hf x hx a mem_cons_self)

/-- Where each turn is undone by the other body, so is the loop by the loop that runs back. -/
theorem foldl_reverse_foldl (hf : ∀ x, P x → ∀ a ∈ l, P (f x a) ∧ g (f x a) a = x) {x : σ}
    (hx : P x) : l.reverse.foldl g (l.foldl f x) = x := by
  induction l generalizing x with
  | nil => rfl
  | cons a l ih =>
    obtain ⟨hP, hback⟩ := hf x hx a mem_cons_self
    have hrest := ih (fun x hx a ha => hf x hx a (mem_cons_of_mem _ ha)) hP
    rw [foldl_cons, reverse_cons, foldl_append, hrest]
    exact hback

end Loops

variable {x : Coords} {n i : ℕ} {q : BitVec 32}

theorem exists_of_mem_planes (h : q ∈ planes) : ∃ k : Fin 31, q = BitVec.twoPow 32 (k + 1) := by
  obtain ⟨k, hk, rfl⟩ := mem_map.mp h
  exact ⟨⟨k, mem_range.mp hk⟩, rfl⟩

theorem plane_apart (h : q ∈ planes) : (q - 1) &&& q = 0 := by
  obtain ⟨k, rfl⟩ := exists_of_mem_planes h
  revert k
  decide +kernel

theorem plane_shift (h : q ∈ planes) : (q ^^^ (q - 1)) >>> 1 = q - 1 := by
  obtain ⟨k, rfl⟩ := exists_of_mem_planes h
  revert k
  decide +kernel

theorem and_plane (h : q ∈ planes) {g : BitVec 32} (hbit : g &&& q ≠ 0) : g &&& q = q := by
  obtain ⟨k, rfl⟩ := exists_of_mem_planes h
  rw [BitVec.and_twoPow] at hbit ⊢
  split
  · rfl
  · next hclear => exact absurd (if_neg hclear) hbit

theorem planes_xor : planes.reverse.foldl (· ^^^ ·) 0 = BitVec.allOnes 32 - 1 := by
  decide +kernel


@[simp] theorem exchange_length : (exchange q x i).length = x.length := by
  unfold exchange
  simp only
  split <;> simp

theorem xor_and_apart {b t q : BitVec 32} (h : t &&& q = 0) : (b ^^^ t) &&& q = b &&& q := by
  apply BitVec.eq_of_getLsbD_eq
  intro j _
  have hj : (t.getLsbD j && q.getLsbD j) = false := by
    rw [← BitVec.getLsbD_and, h]
    exact BitVec.getLsbD_zero
  rw [BitVec.getLsbD_and, BitVec.getLsbD_and, BitVec.getLsbD_xor, Bool.and_xor_distrib_right, hj,
    Bool.xor_false]

theorem xor_xor_cancel (a t : BitVec 32) : (a ^^^ t) ^^^ t = a := by
  rw [BitVec.xor_assoc, BitVec.xor_self, BitVec.xor_zero]

theorem xor_xor_common (a b t : BitVec 32) : (a ^^^ t) ^^^ (b ^^^ t) = a ^^^ b := by
  rw [BitVec.xor_comm b t, ← BitVec.xor_assoc, xor_xor_cancel]

section Turn

variable {a p b : BitVec 32}

theorem exchange_zero :
    exchange q (a :: x) 0 = if a &&& q ≠ 0 then (a ^^^ (q - 1)) :: x else a :: x := by
  unfold exchange
  simp

theorem exchange_invert (h : x.getD i 0 &&& q ≠ 0) :
    exchange q (a :: x) (i + 1) = (a ^^^ (q - 1)) :: x := by
  unfold exchange
  rw [getD_cons_succ, if_pos h]
  rfl

theorem exchange_swap (h : x.getD i 0 &&& q = 0) :
    exchange q (a :: x) (i + 1) =
      (a ^^^ ((a ^^^ x.getD i 0) &&& (q - 1))) ::
        x.set i (x.getD i 0 ^^^ ((a ^^^ x.getD i 0) &&& (q - 1))) := by
  unfold exchange
  rw [getD_cons_succ, if_neg (not_not.mpr h)]
  rfl

end Turn

theorem getD_set_self (hi : i < x.length) (v : BitVec 32) : (x.set i v).getD i 0 = v := by
  simp [getD_eq_getElem?_getD, hi]

theorem set_getD_self : x.set i (x.getD i 0) = x := by
  by_cases hi : i < x.length
  · simp [getD_eq_getElem?_getD, hi]
  · exact set_eq_of_length_le (Nat.le_of_not_lt hi)

/-- A turn reads a bit that it does not write, and what it writes the second time is what it wrote
the first time. -/
theorem exchange_exchange (hq : (q - 1) &&& q = 0) (hi : i < x.length) :
    exchange q (exchange q x i) i = x := by
  have hlow : ∀ t : BitVec 32, (t &&& (q - 1)) &&& q = 0 := by
    intro t
    rw [BitVec.and_assoc, hq]
    exact BitVec.and_zero
  cases x with
  | nil => cases hi
  | cons a x =>
    cases i with
    | zero =>
      rw [exchange_zero]
      split
      · next hbit => rw [exchange_zero, xor_and_apart hq, if_pos hbit, xor_xor_cancel]
      · next hbit => rw [exchange_zero, if_neg hbit]
    | succ i =>
      have hi : i < x.length := Nat.lt_of_succ_lt_succ hi
      by_cases hbit : x.getD i 0 &&& q = 0
      · have hnext : ∀ v : BitVec 32, v &&& q = 0 → (x.set i v).getD i 0 &&& q = 0 := by
          intro v hv
          rwa [getD_set_self hi]
        rw [exchange_swap hbit, exchange_swap (hnext _ ((xor_and_apart (hlow _)).trans hbit)),
          getD_set_self hi, xor_xor_common, xor_xor_cancel, xor_xor_cancel, set_set,
          set_getD_self]
      · rw [exchange_invert hbit, exchange_invert hbit, xor_xor_cancel]

variable {is : List ℕ} {t : BitVec 32} {m : ℕ}

theorem foldl_exchange_length : (is.foldl (exchange q) x).length = x.length :=
  foldl_keeps (P := fun y : Coords => y.length = x.length)
    (fun _ hy _ _ => exchange_length.trans hy) rfl

theorem exchange_loop (hq : q ∈ planes) (his : ∀ i ∈ is, i < n) (hx : x.length = n) :
    is.reverse.foldl (exchange q) (is.foldl (exchange q) x) = x := by
  refine foldl_reverse_foldl (P := fun y : Coords => y.length = n) ?_ hx
  intro y hy i hi
  exact ⟨exchange_length.trans hy, exchange_exchange (plane_apart hq) (hy ▸ his i hi)⟩

theorem exchange_loops (qs : List (BitVec 32)) (is : List ℕ) (hqs : ∀ q ∈ qs, q ∈ planes)
    (his : ∀ i ∈ is, i < n) (hx : x.length = n) :
    qs.reverse.foldl (fun x q => is.reverse.foldl (exchange q) x)
      (qs.foldl (fun x q => is.foldl (exchange q) x) x) = x := by
  refine foldl_reverse_foldl (P := fun y : Coords => y.length = n) ?_ hx
  intro y hy q hq
  exact ⟨foldl_exchange_length.trans hy, exchange_loop (hqs q hq) his hy⟩

theorem exchange_loops_length {qs : List (BitVec 32)} :
    (qs.foldl (fun x q => is.foldl (exchange q) x) x).length = x.length :=
  foldl_keeps (P := fun y : Coords => y.length = x.length)
    (fun _ hy _ _ => foldl_exchange_length.trans hy) rfl

@[simp] theorem grayStep_length : (grayStep x i).length = x.length := length_set

theorem getD_set (hi : i < x.length) (v : BitVec 32) (j : ℕ) :
    (x.set i v).getD j 0 = if i = j then v else x.getD j 0 := by
  simp only [getD_eq_getElem?_getD, getElem?_set]
  split
  · rfl
  · rfl

theorem ext_getD {y : Coords} (hlength : x.length = y.length)
    (h : ∀ j < x.length, x.getD j 0 = y.getD j 0) : x = y := by
  refine ext_getElem hlength fun j hx hy => ?_
  have hj := h j hx
  simpa [getD_eq_getElem?_getD, hx, hy] using hj

theorem grayStep_grayStep (hi : i + 1 < x.length) : grayStep (grayStep x i) i = x := by
  unfold grayStep
  rw [getD_set_self hi, getD_set hi, if_neg (Nat.succ_ne_self i), xor_xor_cancel, set_set,
    set_getD_self]

theorem foldl_grayStep_length : (is.foldl grayStep x).length = x.length :=
  foldl_keeps (P := fun y : Coords => y.length = x.length)
    (fun _ hy _ _ => grayStep_length.trans hy) rfl

theorem gray_loop (his : ∀ i ∈ is, i < n - 1) (hx : x.length = n) :
    is.reverse.foldl grayStep (is.foldl grayStep x) = x := by
  refine foldl_reverse_foldl (P := fun y : Coords => y.length = n) ?_ hx
  intro y hy i hi
  have hi := his i hi
  exact ⟨grayStep_length.trans hy, grayStep_grayStep (by omega)⟩

def shiftLow (m : ℕ) (t : BitVec 32) (x : Coords) : Coords :=
  x.mapIdx fun j v => if j ≤ m then v ^^^ t else v

@[simp] theorem shiftLow_length : (shiftLow m t x).length = x.length :=
  length_mapIdx

theorem shiftLow_getD {j : ℕ} (hj : j < x.length) :
    (shiftLow m t x).getD j 0 = if j ≤ m then x.getD j 0 ^^^ t else x.getD j 0 := by
  simp [shiftLow, getD_eq_getElem?_getD, hj]

theorem grayStep_getD (hi : i + 1 < x.length) (j : ℕ) :
    (grayStep x i).getD j 0 =
      if i + 1 = j then x.getD (i + 1) 0 ^^^ x.getD i 0 else x.getD j 0 :=
  getD_set hi _ j

theorem grayStep_shiftLow (t : BitVec 32) (hi : i + 1 < x.length) :
    grayStep (shiftLow (i + 1) t x) i = shiftLow i t (grayStep x i) := by
  refine ext_getD (by simp) fun j hj => ?_
  have hj : j < x.length := by simpa using hj
  rw [grayStep_getD (by simpa), shiftLow_getD hi, shiftLow_getD (by omega), shiftLow_getD hj,
    shiftLow_getD (by simpa), grayStep_getD hi, if_pos (Nat.le_refl _), if_pos (Nat.le_succ i),
    xor_xor_common]
  split
  · next h => rw [if_neg (by omega)]
  · next h =>
    by_cases hle : j ≤ i
    · rw [if_pos hle, if_pos (Nat.le_succ_of_le hle)]
    · rw [if_neg hle, if_neg (by omega)]

theorem gray_shiftLow (t : BitVec 32) (hm : m < x.length) :
    (List.range m).reverse.foldl grayStep (shiftLow m t x) =
      shiftLow 0 t ((List.range m).reverse.foldl grayStep x) := by
  induction m generalizing x with
  | zero => rfl
  | succ m ih =>
    rw [range_succ, reverse_append, reverse_singleton, singleton_append,
      foldl_cons, foldl_cons, grayStep_shiftLow t hm]
    exact ih (by rw [grayStep_length]; omega)

/-- Where the encoder has put `t` on every coordinate, the decoder's loop leaves it on the first. -/
theorem gray_map_xor (t : BitVec 32) (hx : x.length = n) (hn : 0 < n) :
    (List.range (n - 1)).reverse.foldl grayStep (x.map (· ^^^ t)) =
      ((List.range (n - 1)).reverse.foldl grayStep x).set 0
        (((List.range (n - 1)).reverse.foldl grayStep x).getD 0 0 ^^^ t) := by
  have hall : x.map (· ^^^ t) = shiftLow (n - 1) t x := by
    refine ext_getD (by simp) fun j hj => ?_
    have hj : j < x.length := by simpa using hj
    rw [shiftLow_getD hj, if_pos (by omega)]
    simp [getD_eq_getElem?_getD, hj]
  rw [hall, gray_shiftLow t (by omega)]
  have hlength : ∀ is : List ℕ, (is.foldl grayStep x).length = x.length :=
    fun is => foldl_grayStep_length
  refine ext_getD (by simp) fun j hj => ?_
  rw [shiftLow_length] at hj
  rw [shiftLow_getD hj, getD_set (by rw [hlength]; omega)]
  cases j with
  | zero => rfl
  | succ j => rw [if_neg (by omega), if_neg (by omega)]

section Tail

variable {g t u m : BitVec 32}

theorem grayTail_step (hq : q ∈ planes) (h : t = ((g &&& m) ^^^ t) >>> 1) :
    (if g &&& q ≠ 0 then t ^^^ (q - 1) else t) =
      ((g &&& (m ^^^ q)) ^^^ (if g &&& q ≠ 0 then t ^^^ (q - 1) else t)) >>> 1 := by
  have hmask : g &&& (m ^^^ q) = (g &&& m) ^^^ (g &&& q) := by
    apply BitVec.eq_of_getLsbD_eq
    intro j _
    simp [Bool.and_xor_distrib_left]
  rw [hmask]
  by_cases hbit : g &&& q = 0
  · rw [if_neg (not_not.mpr hbit), hbit]
    simpa using h
  · have hcommute : ((g &&& m) ^^^ q) ^^^ (t ^^^ (q - 1)) =
        ((g &&& m) ^^^ t) ^^^ (q ^^^ (q - 1)) := by
      rw [BitVec.xor_assoc, BitVec.xor_assoc, ← BitVec.xor_assoc q, BitVec.xor_comm q t,
        BitVec.xor_assoc]
    rw [if_pos hbit, and_plane hq hbit, hcommute, BitVec.ushiftRight_xor_distrib, plane_shift hq,
      ← h]

theorem grayTail_fold (qs : List (BitVec 32)) (hqs : ∀ q ∈ qs, q ∈ planes)
    (h : t = ((g &&& m) ^^^ t) >>> 1) :
    qs.foldl (fun t q => if g &&& q ≠ 0 then t ^^^ (q - 1) else t) t =
      ((g &&& qs.foldl (· ^^^ ·) m) ^^^
        qs.foldl (fun t q => if g &&& q ≠ 0 then t ^^^ (q - 1) else t) t) >>> 1 := by
  induction qs generalizing t m with
  | nil => exact h
  | cons q qs ih =>
    rw [foldl_cons, foldl_cons]
    exact ih (fun q hq => hqs q (mem_cons_of_mem _ hq))
      (grayTail_step (hqs q mem_cons_self) h)

theorem grayTail_eq (g : BitVec 32) : grayTail g = (g ^^^ grayTail g) >>> 1 := by
  have h := grayTail_fold (g := g) (t := 0) (m := 0) planes.reverse
    (fun q hq => mem_reverse.mp hq) (by simp)
  have hlow : (g &&& (BitVec.allOnes 32 - 1)) >>> 1 = g >>> 1 := by
    have hmask : (BitVec.allOnes 32 - 1) >>> 1 = BitVec.allOnes 32 >>> 1 := by decide +kernel
    rw [BitVec.ushiftRight_and_distrib, hmask, ← BitVec.ushiftRight_and_distrib,
      BitVec.and_allOnes]
  rw [planes_xor, BitVec.ushiftRight_xor_distrib, hlow, ← BitVec.ushiftRight_xor_distrib] at h
  exact h

theorem tail_unique (ht : t = (g ^^^ t) >>> 1) (hu : u = (g ^^^ u) >>> 1) : t = u := by
  have hdiff : t ^^^ u = (t ^^^ u) >>> 1 := by
    conv_lhs => rw [ht, hu]
    rw [← BitVec.ushiftRight_xor_distrib, BitVec.xor_comm g, BitVec.xor_comm g, xor_xor_common]
  have hzero : t ^^^ u = 0#32 := by
    apply BitVec.eq_of_toNat_eq
    have hnat := congrArg BitVec.toNat hdiff
    rw [BitVec.toNat_ushiftRight, Nat.shiftRight_eq_div_pow] at hnat
    simp only [BitVec.toNat_ofNat]
    omega
  exact BitVec.xor_eq_zero_iff.mp hzero

theorem grayTail_unshift (z : BitVec 32) : grayTail (z ^^^ z >>> 1) = z >>> 1 :=
  tail_unique (grayTail_eq _) (by rw [xor_xor_cancel])

end Tail

variable {j : ℕ} {t : BitVec 32} {y : Coords}

theorem getD_map_xor (t : BitVec 32) (hj : j < x.length) :
    (x.map (· ^^^ t)).getD j 0 = x.getD j 0 ^^^ t := by
  simp [getD_eq_getElem?_getD, hj]

@[simp] theorem axesToTranspose_length : (axesToTranspose x).length = x.length := by
  unfold axesToTranspose
  simp only [length_map]
  rw [foldl_grayStep_length, exchange_loops_length]

@[simp] theorem transposedToAxes_length : (transposedToAxes x).length = x.length := by
  unfold transposedToAxes
  simp only
  rw [exchange_loops_length, length_set, foldl_grayStep_length]

theorem mem_range_pred (h : j ∈ (List.range (n - 1)).reverse) : j < n - 1 :=
  mem_range.mp (mem_reverse.mp h)

theorem gray_decode (hx : x.length = n) (hn : 0 < n) (ht : t = grayTail (x.getD (n - 1) 0))
    (hy : y = (List.range (n - 1)).reverse.foldl grayStep (x.map (· ^^^ t))) :
    y.set 0 (y.getD 0 0 ^^^ (x.map (· ^^^ t)).getD (n - 1) 0 >>> 1) =
      (List.range (n - 1)).reverse.foldl grayStep x := by
  have htail : (x.map (· ^^^ t)).getD (n - 1) 0 >>> 1 = t := by
    rw [getD_map_xor t (by omega), ht]
    exact (grayTail_eq _).symm
  rw [htail, hy, gray_map_xor t hx hn, getD_set_self (by rw [foldl_grayStep_length]; omega),
    xor_xor_cancel, set_set, set_getD_self]

theorem gray_encode (hx : x.length = n) (hn : 0 < n) (ht : t = x.getD (n - 1) 0 >>> 1)
    (hy : y = (List.range (n - 1)).reverse.foldl grayStep x) :
    (List.range (n - 1)).foldl grayStep (y.set 0 (y.getD 0 0 ^^^ t)) = x.map (· ^^^ t) ∧
      grayTail ((x.map (· ^^^ t)).getD (n - 1) 0) = t := by
  constructor
  · have hloop := gray_loop (x := x.map (· ^^^ t)) (n := n) (fun _ => mem_range_pred) (by simpa)
    rwa [reverse_reverse, gray_map_xor t hx hn, ← hy] at hloop
  · rw [getD_map_xor t (by omega), ht]
    exact grayTail_unshift _

theorem transposedToAxes_axesToTranspose (hx : 0 < x.length) :
    transposedToAxes (axesToTranspose x) = x := by
  unfold transposedToAxes
  rw [axesToTranspose_length]
  unfold axesToTranspose
  simp only
  rw [gray_decode (by rw [foldl_grayStep_length, exchange_loops_length]) hx rfl rfl,
    gray_loop (fun _ => mem_range.mp) exchange_loops_length]
  have hloops := exchange_loops planes.reverse (List.range x.length)
    (fun _ => mem_reverse.mp) (fun _ => mem_range.mp) rfl
  rwa [reverse_reverse] at hloops

theorem axesToTranspose_transposedToAxes (hx : 0 < x.length) :
    axesToTranspose (transposedToAxes x) = x := by
  unfold axesToTranspose
  rw [transposedToAxes_length]
  unfold transposedToAxes
  simp only
  generalize hy : (List.range (x.length - 1)).reverse.foldl grayStep x = y
  generalize ht : x.getD (x.length - 1) 0 >>> 1 = t
  have hlength : (y.set 0 (y.getD 0 0 ^^^ t)).length = x.length := by
    rw [length_set, ← hy, foldl_grayStep_length]
  have hloops := exchange_loops planes (List.range x.length).reverse
    (fun _ hq => hq) (fun _ hi => mem_range.mp (mem_reverse.mp hi)) hlength
  rw [reverse_reverse] at hloops
  obtain ⟨hmap, htail⟩ := gray_encode rfl hx ht.symm hy.symm
  rw [hloops, hmap, htail, map_map]
  simp only [Function.comp_def, xor_xor_cancel, map_id']

end Antfly.Hilbert
