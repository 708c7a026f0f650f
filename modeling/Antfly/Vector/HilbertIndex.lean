import Antfly.Vector.Hilbert
import Mathlib.Algebra.Group.Nat.Defs
import Mathlib.Data.List.Induction
import Mathlib.Data.List.Lex
import Mathlib.Order.Lattice

/-!
The transposed index holds the bits of the index by planes.  The encoder packs them into bytes,
highest first; the decoder spreads the bits of a number over the coordinates.  All positions are
computed on 32 bits, and so is the length of the index, `32 * dimension`.
-/

namespace Antfly.Hilbert

open List

abbrev Byte := BitVec 8

/-- `big.Int.SetBytes`. -/
def ofBytes (t : List Byte) : ℕ := t.foldl (fun v b => 256 * v + b.toNat) 0

/-- `big.Int.Bytes`: without leading zeros. -/
def toBytes (v : ℕ) : List Byte :=
  if v = 0 then [] else toBytes (v / 256) ++ [BitVec.ofNat 8 v]
termination_by v

/-- The byte that holds the bit, from the end, and the bit in it. -/
def byteBit (t : List Byte) (i : ℕ) : Bool :=
  (t.getD (t.length - 1 - i / 8) 0).getLsbD (i % 8)

/-- A Hilbert curve of the dimension that the constructor accepts. -/
structure Curve where
  dimension : BitVec 32
  positive : dimension ≠ 0

namespace Curve

variable (s : Curve)

def length : BitVec 32 := 32 * s.dimension

def byteLen : BitVec 32 := (s.length + 7) / 8

/-- `NewHilbert`. -/
def new (n : BitVec 32) : Option Curve := if h : n = 0 then none else some ⟨n, h⟩

/-- The body of `untransposeInto`'s loops: an index out of range is a panic. -/
def packBit (x : Coords) (state : BitVec 32 × List Byte) (k j : ℕ) :
    Option (BitVec 32 × List Byte) :=
  let (bIndex, t) := state
  if (x.getD j 0).getLsbD (31 - k) then
    let pos := (s.byteLen - 1 - bIndex / 8).toNat
    if pos < t.length then
      some (bIndex - 1, t.set pos (t.getD pos 0 ||| BitVec.twoPow 8 (bIndex % 8).toNat))
    else none
  else some (bIndex - 1, t)

def untransposeBytes (x : Coords) : Option (List Byte) := do
  let (_, t) ← (List.range 32).foldlM (fun state k =>
    (List.range x.length).foldlM (fun state j => s.packBit x state k j) state)
    (s.length - 1, List.replicate s.byteLen.toNat 0)
  return t

/-- `EncodeVecBytes`, of the bit patterns of a vector. -/
def encodeBytes (x : Coords) : Option (List Byte) := s.untransposeBytes (axesToTranspose x)

def encode (x : Coords) : Option ℕ := (s.untransposeBytes (axesToTranspose x)).map ofBytes

/-- The body of `transpose`'s loop. -/
def spreadBit (b : List Byte) (x : Coords) (idx : ℕ) : Coords :=
  if byteBit b idx then
    let dim := ((s.length - BitVec.ofNat 32 idx - 1) % s.dimension).toNat
    let shift := (BitVec.ofNat 32 idx / s.dimension % 32).toNat
    x.set dim (x.getD dim 0 ||| BitVec.twoPow 32 shift)
  else x

def transpose (index : ℕ) : Coords :=
  let b := toBytes index
  (List.range (8 * b.length)).foldl (s.spreadBit b) (List.replicate s.dimension.toNat 0)

def decode (index : ℕ) : Coords := transposedToAxes (s.transpose index)

end Curve

theorem ofBytes_append (t : List Byte) (b : Byte) :
    ofBytes (t ++ [b]) = 256 * ofBytes t + b.toNat := by
  unfold ofBytes
  rw [foldl_append]
  rfl

theorem testBit_ofBytes (t : List Byte) (i : ℕ) :
    (ofBytes t).testBit i = (decide (i < 8 * t.length) && byteBit t i) := by
  induction t using List.reverseRecOn generalizing i with
  | nil => simp [ofBytes]
  | append_singleton t b ih =>
    rw [ofBytes_append, show 256 = 2 ^ 8 from rfl, Nat.testBit_two_pow_mul_add _ b.isLt]
    unfold byteBit at ih ⊢
    rw [length_append, length_singleton]
    split
    · next h =>
      have hdiv : i / 8 = 0 := by omega
      have hmod : i % 8 = i := by omega
      rw [hdiv, hmod, decide_eq_true (by omega)]
      simp [getD_eq_getElem?_getD, BitVec.testBit_toNat]
    · next h =>
      rw [ih]
      by_cases hi : i < 8 * (t.length + 1)
      · have hat : t.length + 1 - 1 - i / 8 = t.length - 1 - (i - 8) / 8 := by omega
        have hmod : (i - 8) % 8 = i % 8 := by omega
        rw [hat, hmod, decide_eq_true hi, decide_eq_true (by omega), getD_eq_getElem?_getD,
          getD_eq_getElem?_getD, getElem?_append_left (by omega)]
      · rw [decide_eq_false hi, decide_eq_false (by omega), Bool.false_and, Bool.false_and]

theorem ofBytes_toBytes (v : ℕ) : ofBytes (toBytes v) = v := by
  induction v using toBytes.induct with
  | case1 => 
    unfold toBytes
    rfl
  | case2 v h ih =>
    unfold toBytes
    rw [if_neg h, ofBytes_append, ih, BitVec.toNat_ofNat]
    omega

variable {v m b n r : ℕ} {t : List Byte}

theorem toBytes_length (h : v < 256 ^ m) : (toBytes v).length ≤ m := by
  induction m generalizing v with
  | zero =>
    rw [Nat.lt_one_iff.mp h]
    unfold toBytes
    exact Nat.le_refl 0
  | succ m ih =>
    unfold toBytes
    split
    · exact Nat.zero_le _
    · rw [length_append]
      exact Nat.succ_le_succ (ih (by rw [Nat.pow_succ] at h; omega))

theorem ofBytes_cons (b : Byte) (t : List Byte) :
    ofBytes (b :: t) = b.toNat * 256 ^ t.length + ofBytes t := by
  induction t using List.reverseRecOn with
  | nil => simp [ofBytes]
  | append_singleton t c ih =>
    rw [← cons_append, ofBytes_append, ofBytes_append, ih, length_append,
      length_singleton, Nat.pow_succ, ← Nat.mul_assoc, Nat.mul_comm _ 256]
    omega

theorem ofBytes_lt (t : List Byte) : ofBytes t < 256 ^ t.length := by
  induction t using List.reverseRecOn with
  | nil => exact Nat.one_pos
  | append_singleton t b ih =>
    rw [ofBytes_append, length_append, length_singleton, Nat.pow_succ]
    have hb := b.isLt
    omega

theorem lt_of_high_lt {c w u : ℕ} (h : b < c) (hv : v < w) : b * w + v < c * w + u := by
  have hmul := Nat.mul_le_mul_right w h
  rw [Nat.succ_mul] at hmul
  omega

theorem ofBytes_lt_iff {u : List Byte} (h : t.length = u.length) :
    t < u ↔ ofBytes t < ofBytes u := by
  induction t generalizing u with
  | nil => simp [length_eq_zero_iff.mp h.symm, not_lt_nil]
  | cons b t ih =>
    cases u with
    | nil => cases h
    | cons c u =>
      have h : t.length = u.length := Nat.succ.inj h
      have ht := ofBytes_lt t
      have hu := ofBytes_lt u
      rw [cons_lt_cons_iff, ih h, ofBytes_cons, ofBytes_cons, h, BitVec.lt_def,
        ← BitVec.toNat_inj]
      rw [h] at ht
      constructor
      · rintro (hlt | ⟨heq, hlt⟩)
        · exact lt_of_high_lt hlt ht
        · rw [heq]
          exact Nat.add_lt_add_left hlt _
      · intro hlt
        rcases Nat.lt_trichotomy b.toNat c.toNat with hb | hb | hb
        · exact .inl hb
        · rw [hb] at hlt
          exact .inr ⟨hb, Nat.lt_of_add_lt_add_left hlt⟩
        · exact absurd (lt_of_high_lt hb hu) (Nat.lt_asymm hlt)

/-- The bit of the index that the encoder reads in the plane `31 - k` of the coordinate `j`. -/
theorem place {k j : ℕ} (hk : k < 32) (hj : j < n) :
    32 * n - 1 - (k * n + j) = (31 - k) * n + (n - 1 - j) ∧
      k * n + j < 32 * n := by
  have hmul := Nat.mul_le_mul_right n (Nat.le_of_lt_succ hk)
  rw [Nat.sub_mul]
  omega

theorem place_div (hr : r < n) : (b * n + r) / n = b := by
  rw [Nat.add_comm, Nat.add_mul_div_right _ _ (by omega), Nat.div_eq_of_lt hr, Nat.zero_add]

theorem place_mod (hr : r < n) : (b * n + r) % n = r := by
  rw [Nat.add_comm, Nat.add_mul_mod_self_right, Nat.mod_eq_of_lt hr]

theorem foldlM_range {σ : Type*} {f : σ → ℕ → Option σ} {R : ℕ → Option σ → Prop} {x : σ}
    (hzero : R 0 (some x)) (hstep : ∀ j < m, ∀ r, R j r → R (j + 1) (r.bind (f · j))) :
    R m ((List.range m).foldlM f x) := by
  induction m with
  | zero => exact hzero
  | succ m ih =>
    have hm := ih fun j hj => hstep j (Nat.lt_succ_of_lt hj)
    have hnext := hstep m (Nat.lt_succ_self m) _ hm
    rw [range_succ, foldlM_append]
    cases hr : (List.range m).foldlM f x with
    | none =>
      rw [hr] at hnext
      exact hnext
    | some y =>
      rw [hr] at hnext
      simpa using hnext

theorem foldlM_planes {σ : Type*} {f : σ → ℕ → ℕ → Option σ} {R : ℕ → Option σ → Prop} {n : ℕ}
    {x : σ} (hzero : R 0 (some x))
    (hstep : ∀ k < 32, ∀ j < n, ∀ r, R (k * n + j) r →
      R (k * n + j + 1) (r.bind fun x => f x k j)) :
    R (32 * n) ((List.range 32).foldlM
      (fun x k => (List.range n).foldlM (fun x j => f x k j) x) x) := by
  refine foldlM_range (R := fun k => R (k * n)) (by rwa [Nat.zero_mul]) fun k hk r hr => ?_
  cases r with
  | none =>
    rw [Nat.succ_mul]
    have hnone : ∀ j ≤ n, R (k * n + j) none := by
      intro j hj
      induction j with
      | zero => exact hr
      | succ j ih => exact hstep k hk j hj none (ih (Nat.le_of_succ_le hj))
    exact hnone n (Nat.le_refl n)
  | some y =>
    rw [Nat.succ_mul]
    exact foldlM_range (R := fun j => R (k * n + j)) hr fun j hj r hr => hstep k hk j hj r hr

theorem byteBit_set {p i : ℕ} (hp : p < 8 * t.length) (hi : i < 8 * t.length) :
    byteBit (t.set (t.length - 1 - p / 8)
      (t.getD (t.length - 1 - p / 8) 0 ||| BitVec.twoPow 8 (p % 8))) i =
        (byteBit t i || decide (i = p)) := by
  unfold byteBit
  rw [length_set]
  simp only [getD_eq_getElem?_getD, getElem?_set]
  by_cases hbyte : i / 8 = p / 8
  · rw [if_pos (by rw [hbyte]), if_pos (by omega), Option.getD_some, BitVec.getLsbD_or,
      BitVec.getLsbD_twoPow, hbyte, decide_eq_true (Nat.mod_lt p (by omega)), Bool.true_and]
    have hsame : (p % 8 = i % 8) = (i = p) := propext ⟨by omega, by omega⟩
    simp only [hsame]
  · rw [if_neg (by omega), decide_eq_false (by omega), Bool.or_false]

/-- The bit of the index in the transposed index. -/
def bitAt (n : ℕ) (x : Coords) (i : ℕ) : Bool := (x.getD (n - 1 - i % n) 0).getLsbD (i / n)

namespace Curve

variable {s : Curve} {x : Coords} {n : ℕ}

theorem pos (hn : s.dimension.toNat = n) : 0 < n := by
  have h := s.positive
  rw [ne_eq, ← BitVec.toNat_inj] at h
  exact Nat.pos_of_ne_zero (hn ▸ h)

theorem length_toNat (hn : s.dimension.toNat = n) : s.length.toNat = 32 * n % 2 ^ 32 := by
  rw [length, BitVec.toNat_mul, hn]
  rfl

theorem byteLen_toNat : s.byteLen.toNat = s.length.toNat / 8 := by
  have hmod : s.length.toNat % 32 = 0 := by
    rw [length_toNat rfl]
    omega
  have hlt := s.length.isLt
  rw [byteLen, BitVec.toNat_udiv, BitVec.toNat_add]
  simp only [BitVec.reduceToNat]
  omega

variable {c k j index : ℕ} {state : BitVec 32 × List Byte} {b : List Byte}

theorem bIndex_toNat (hc : c < s.length.toNat) :
    (s.length - 1 - BitVec.ofNat 32 c).toNat = s.length.toNat - 1 - c := by
  have hlt := s.length.isLt
  have hone : (1 : BitVec 32).toNat = 1 := rfl
  simp only [BitVec.toNat_sub, BitVec.toNat_ofNat, hone]
  omega

theorem pos_toNat {b : BitVec 32} (hb : b.toNat < s.length.toNat) :
    (s.byteLen - 1 - b / 8).toNat = s.byteLen.toNat - 1 - b.toNat / 8 := by
  have hlt := s.byteLen.isLt
  have hlen := byteLen_toNat (s := s)
  have hmod : s.length.toNat % 32 = 0 := by
    rw [length_toNat rfl]
    omega
  simp only [BitVec.toNat_sub, BitVec.toNat_udiv, BitVec.reduceToNat]
  omega

theorem packBit_clear (hbit : (x.getD j 0).getLsbD (31 - k) = false) :
    s.packBit x state k j = some (state.1 - 1, state.2) := by
  unfold packBit
  rw [hbit]
  rfl

/-- What the state is after `c` turns, whichever bits have been set. -/
structure Reached (s : Curve) (c : ℕ) (state : BitVec 32 × List Byte) : Prop where
  bIndex : state.1 = s.length - 1 - BitVec.ofNat 32 c
  length : state.2.length = s.byteLen.toNat

theorem Reached.next {state' : BitVec 32 × List Byte} (h : Reached s c state)
    (hpack : s.packBit x state k j = some state') :
    Reached s (c + 1) state' := by
  have hnext : state.1 - 1 = s.length - 1 - BitVec.ofNat 32 (c + 1) := by
    rw [h.bIndex, BitVec.ofNat_add]
    bv_omega
  unfold packBit at hpack
  simp only at hpack
  split at hpack
  · split at hpack
    · cases hpack
      exact ⟨hnext, (length_set ..).trans h.length⟩
    · cases hpack
  · cases hpack
    exact ⟨hnext, h.length⟩

/-- The bytes hold the bits of the index from the place of the turn on. -/
structure Packed (s : Curve) (x : Coords) (n c : ℕ) (state : BitVec 32 × List Byte) : Prop
    extends Reached s c state where
  bits : ∀ i < 32 * n, byteBit state.2 i = (decide (32 * n - c ≤ i) && bitAt n x i)

theorem Packed.next (hn : s.dimension.toNat = n) (hsmall : n < 2 ^ 27)
    (h : Packed s x n (k * n + j) state) (hk : k < 32) (hj : j < n) :
    ∃ state', s.packBit x state k j = some state' ∧ Packed s x n (k * n + j + 1) state' := by
  have hlen : s.length.toNat = 32 * n := by
    rw [length_toNat hn]
    omega
  obtain ⟨hplace, hc⟩ := place hk hj
  have hb : state.1.toNat = 32 * n - 1 - (k * n + j) := by
    rw [h.bIndex, bIndex_toNat (by omega), hlen]
  have hpos := pos_toNat (s := s) (b := state.1) (by omega)
  have hbyte := h.length
  rw [byteLen_toNat] at hpos hbyte
  have hbit : bitAt n x (32 * n - 1 - (k * n + j)) = (x.getD j 0).getLsbD (31 - k) := by
    have hr : n - 1 - j < n := by omega
    have hcoord : n - 1 - (n - 1 - j) = j := by omega
    rw [bitAt, hplace, place_div hr, place_mod hr, hcoord]
  cases hset : (x.getD j 0).getLsbD (31 - k) with
  | false =>
    have hpack : s.packBit x state k j = some (state.1 - 1, state.2) := packBit_clear hset
    refine ⟨_, hpack, h.toReached.next hpack, fun i hi => ?_⟩
    rw [h.bits i hi]
    by_cases hat : i = 32 * n - 1 - (k * n + j)
    · rw [hat, hbit, hset, Bool.and_false, Bool.and_false]
    · have hle : (32 * n - (k * n + j + 1) ≤ i) = (32 * n - (k * n + j) ≤ i) :=
        propext ⟨by omega, by omega⟩
      simp only [hle]
  | true =>
    have hmod : (state.1 % 8).toNat = state.1.toNat % 8 := BitVec.toNat_umod
    have hpack : s.packBit x state k j = some (state.1 - 1, state.2.set
        (state.2.length - 1 - state.1.toNat / 8)
        (state.2.getD (state.2.length - 1 - state.1.toNat / 8) 0 |||
          BitVec.twoPow 8 (state.1.toNat % 8))) := by
      unfold packBit
      simp only
      rw [if_pos hset, hpos, hmod, ← hbyte, if_pos (by omega)]
    refine ⟨_, hpack, h.toReached.next hpack, fun i hi => ?_⟩
    rw [byteBit_set (by omega) (by omega), h.bits i hi, hb]
    by_cases hat : i = 32 * n - 1 - (k * n + j)
    · rw [hat, hbit, hset, decide_eq_true rfl, Bool.or_true, decide_eq_true (by omega),
        Bool.and_true]
    · have hle : (32 * n - (k * n + j + 1) ≤ i) = (32 * n - (k * n + j) ≤ i) :=
        propext ⟨by omega, by omega⟩
      rw [decide_eq_false hat, Bool.or_false]
      simp only [hle]

theorem byteBit_zeros (m i : ℕ) : byteBit (List.replicate m 0) i = false := by
  unfold byteBit
  rw [getD_eq_getElem?_getD, getElem?_replicate]
  split <;> exact BitVec.getLsbD_zero

theorem untransposeBytes_spec (hn : s.dimension.toNat = n) (hsmall : n < 2 ^ 27)
    (hx : x.length = n) :
    ∃ t, s.untransposeBytes x = some t ∧ t.length = 4 * n ∧
      ∀ i < 32 * n, byteBit t i = bitAt n x i := by
  have hlen : s.byteLen.toNat = 4 * n := by
    rw [byteLen_toNat, length_toNat hn]
    omega
  have hfirst : Packed s x n 0 (s.length - 1, List.replicate s.byteLen.toNat 0) := by
    refine ⟨⟨by simp, length_replicate⟩, fun i hi => ?_⟩
    rw [byteBit_zeros, decide_eq_false (by omega), Bool.false_and]
  obtain ⟨state, hrun, hpacked⟩ := foldlM_planes (f := fun state k j => s.packBit x state k j)
    (R := fun c r => ∃ state, r = some state ∧ Packed s x n c state) (n := n) ⟨_, rfl, hfirst⟩ (by
      rintro k hk j hj _ ⟨state, rfl, h⟩
      exact h.next hn hsmall hk hj)
  refine ⟨state.2, ?_, hpacked.length.trans hlen, fun i hi => ?_⟩
  · unfold untransposeBytes
    rw [hx]
    simp only [hrun]
    rfl
  · rw [hpacked.bits i hi, Nat.sub_self, decide_eq_true (Nat.zero_le i), Bool.true_and]

theorem packBit_wrapped (h : Reached s s.length.toNat state)
    (hset : (x.getD j 0).getLsbD (31 - k) = true) :
    s.packBit x state k j = none := by
  have hlast : state.1 = BitVec.allOnes 32 := by
    have hones : BitVec.allOnes 32 = 0 - 1 := by decide +kernel
    rw [h.bIndex, BitVec.ofNat_toNat, BitVec.setWidth_eq, hones]
    bv_omega
  have hlen := byteLen_toNat (s := s)
  have hlt := s.length.isLt
  have hpos : (s.byteLen - 1 - state.1 / 8).toNat = s.byteLen.toNat + (2 ^ 32 - 2 ^ 29) := by
    have hone : (1 : BitVec 32).toNat = 1 := rfl
    have heighth : (BitVec.allOnes 32 / 8).toNat = 2 ^ 29 - 1 := rfl
    rw [hlast]
    simp only [BitVec.toNat_sub, hone, heighth]
    omega
  unfold packBit
  simp only
  rw [if_pos hset, hpos, if_neg (by rw [h.length]; omega)]

/-- From `2 ^ 27` dimensions on the length of the index has wrapped, and the loop comes to the end
of it before its own. -/
theorem untransposeBytes_wraps (hn : s.dimension.toNat = n) (hlarge : 2 ^ 27 ≤ n)
    (hx : x.length = n) (hset : ∀ j < n, ∀ k < 32, (x.getD j 0).getLsbD k = true) :
    s.untransposeBytes x = none := by
  have hshort : s.length.toNat < 32 * n := by
    have hlt := s.length.isLt
    omega
  have hstop := foldlM_planes (f := fun state k j => s.packBit x state k j) (n := n)
    (x := (s.length - 1, List.replicate s.byteLen.toNat 0))
    (R := fun c r => ∀ state, r = some state → Reached s c state ∧ c ≤ s.length.toNat) (by
      rintro _ ⟨⟩
      exact ⟨⟨by simp, length_replicate⟩, Nat.zero_le _⟩) (by
      intro k hk j hj r hr state' hstate'
      cases r with
      | none => cases hstate'
      | some state =>
        obtain ⟨hreached, hle⟩ := hr state rfl
        refine ⟨hreached.next hstate', Nat.lt_of_le_of_ne hle fun hat => ?_⟩
        rw [hat] at hreached
        rw [Option.bind_some, packBit_wrapped hreached (hset j hj _ (by omega))] at hstate'
        cases hstate')
  unfold untransposeBytes
  rw [hx]
  rw [Option.eq_none_iff_forall_ne_some.mpr fun state hstate =>
    absurd (hstop state hstate).2 (Nat.not_le_of_lt hshort)]
  rfl

theorem spreadBit_eq {i : ℕ} (hn : s.dimension.toNat = n) (hsmall : n < 2 ^ 27) (hi : i < 32 * n) :
    s.spreadBit b x i =
      if byteBit b i then
        x.set (n - 1 - i % n) (x.getD (n - 1 - i % n) 0 ||| BitVec.twoPow 32 (i / n))
      else x := by
  have hpos := pos hn
  have hlen : s.length.toNat = 32 * n := by
    rw [length_toNat hn]
    omega
  have hdim : ((s.length - BitVec.ofNat 32 i - 1) % s.dimension).toNat = n - 1 - i % n := by
    have hone : (1 : BitVec 32).toNat = 1 := rfl
    have hr := Nat.mod_lt i hpos
    have hplace := (place (Nat.div_lt_of_lt_mul (Nat.mul_comm 32 n ▸ hi)) hr).1
    rw [Nat.mul_comm (i / n), Nat.div_add_mod] at hplace
    have hsub : (s.length - BitVec.ofNat 32 i - 1).toNat = 32 * n - 1 - i := by
      simp only [BitVec.toNat_sub, BitVec.toNat_ofNat, hone]
      omega
    rw [BitVec.toNat_umod, hn, hsub, hplace, place_mod (by omega)]
  have hshift : (BitVec.ofNat 32 i / s.dimension % 32).toNat = i / n := by
    have hlt := Nat.div_lt_of_lt_mul (Nat.mul_comm 32 n ▸ hi)
    have hwidth : (32 : BitVec 32).toNat = 32 := rfl
    rw [BitVec.toNat_umod, BitVec.toNat_udiv, BitVec.toNat_ofNat, hn, hwidth,
      Nat.mod_eq_of_lt (a := i) (by omega), Nat.mod_eq_of_lt hlt]
  unfold spreadBit
  simp only [hdim, hshift]

/-- The coordinates hold the first `m` bits of the index. -/
structure Spread (b : List Byte) (n m : ℕ) (x : Coords) : Prop where
  length : x.length = n
  bits : ∀ d < n, ∀ k < 32, (x.getD d 0).getLsbD k =
    (decide (k * n + (n - 1 - d) < m) && byteBit b (k * n + (n - 1 - d)))

theorem Spread.next {m : ℕ} (hn : s.dimension.toNat = n) (hsmall : n < 2 ^ 27) (hm : m < 32 * n)
    (h : Spread b n m x) :
    Spread b n (m + 1) (s.spreadBit b x m) := by
  have hpos := pos hn
  have hr := Nat.mod_lt m hpos
  have hk := Nat.div_lt_of_lt_mul (Nat.mul_comm 32 n ▸ hm)
  have hlt : ∀ d k, k * n + (n - 1 - d) ≠ m →
      (k * n + (n - 1 - d) < m + 1) = (k * n + (n - 1 - d) < m) :=
    fun d k hne => propext ⟨by omega, by omega⟩
  rw [spreadBit_eq hn hsmall hm]
  have hother : ∀ d < n, ∀ k, k * n + (n - 1 - d) = m → d = n - 1 - m % n ∧ k = m / n := by
    rintro d hd k rfl
    have hd' : n - 1 - d < n := by omega
    rw [place_div hd', place_mod hd']
    omega
  have hself : m / n * n + (n - 1 - (n - 1 - m % n)) = m := by
    have hdiv := Nat.div_add_mod m n
    rw [Nat.mul_comm] at hdiv
    omega
  split
  · next hset =>
    refine ⟨(length_set ..).trans h.length, fun d hd k hk' => ?_⟩
    rw [getD_set (by rw [h.length]; omega)]
    split
    · next hat =>
      rw [BitVec.getLsbD_or, BitVec.getLsbD_twoPow, decide_eq_true hk, Bool.true_and, hat,
        h.bits d hd k hk']
      by_cases hplane : m / n = k
      · rw [← hplane, ← hat, hself, decide_eq_true rfl, Bool.or_true,
          decide_eq_true (Nat.lt_succ_self m), hset, Bool.true_and]
      · rw [decide_eq_false hplane, Bool.or_false]
        simp only [hlt d k fun heq => hplane (hother d hd k heq).2.symm]
    · next hat =>
      rw [h.bits d hd k hk']
      simp only [hlt d k fun heq => hat (hother d hd k heq).1.symm]
  · next hclear =>
    refine ⟨h.length, fun d hd k hk' => ?_⟩
    rw [h.bits d hd k hk']
    by_cases hat : k * n + (n - 1 - d) = m
    · rw [hat, Bool.eq_false_iff.mpr hclear, Bool.and_false, Bool.and_false]
    · simp only [hlt d k hat]

theorem transpose_spec (hn : s.dimension.toNat = n) (hsmall : n < 2 ^ 27)
    (hindex : index < 2 ^ (32 * n)) :
    (s.transpose index).length = n ∧
      ∀ d < n, ∀ k < 32, ((s.transpose index).getD d 0).getLsbD k =
        index.testBit (k * n + (n - 1 - d)) := by
  have hbytes : 8 * (toBytes index).length ≤ 32 * n := by
    have hpow : 2 ^ (32 * n) = 256 ^ (4 * n) := by
      rw [show 256 = 2 ^ 8 from rfl, ← Nat.pow_mul]
      congr 1
      omega
    have hlen := toBytes_length (hpow ▸ hindex)
    omega
  have hrun : ∀ m ≤ 32 * n, Spread (toBytes index) n m
      ((List.range m).foldl (s.spreadBit (toBytes index)) (List.replicate n 0)) := by
    intro m hm
    induction m with
    | zero =>
      refine ⟨length_replicate, fun d _ k _ => ?_⟩
      rw [decide_eq_false (Nat.not_lt_zero _), Bool.false_and, range_zero, foldl_nil,
        getD_eq_getElem?_getD, getElem?_replicate]
      split <;> exact BitVec.getLsbD_zero
    | succ m ih =>
      rw [range_succ, foldl_append]
      exact (ih (Nat.le_of_succ_le hm)).next hn hsmall hm
  have hspread := hrun _ hbytes
  unfold transpose
  rw [hn]
  refine ⟨hspread.length, fun d hd k hk => ?_⟩
  rw [hspread.bits d hd k hk, ← testBit_ofBytes, ofBytes_toBytes]

/-- What is asked of the index: the two directions are inverse, and the bytes sort as the numbers
do. -/
structure Bijective (s : Curve) : Prop where
  decode_encode : ∀ x : Coords, x.length = s.dimension.toNat →
    ∃ index, s.encode x = some index ∧ s.decode index = x
  encode_decode : ∀ index < 2 ^ (32 * s.dimension.toNat), s.encode (s.decode index) = some index
  sorts : ∀ x y : Coords, x.length = s.dimension.toNat → y.length = s.dimension.toNat →
    ∃ t u i j, s.encodeBytes x = some t ∧ s.encodeBytes y = some u ∧
      s.encode x = some i ∧ s.encode y = some j ∧ (t < u ↔ i < j) ∧ (t = u → x = y)

theorem encode_spec (hn : s.dimension.toNat = n) (hsmall : n < 2 ^ 27) (hx : x.length = n) :
    ∃ t, s.encodeBytes x = some t ∧ s.encode x = some (ofBytes t) ∧ t.length = 4 * n ∧
      ∀ i, (ofBytes t).testBit i = (decide (i < 32 * n) && bitAt n (axesToTranspose x) i) := by
  obtain ⟨t, ht, hlength, hbits⟩ := untransposeBytes_spec (x := axesToTranspose x) hn hsmall
    (axesToTranspose_length.trans hx)
  refine ⟨t, ht, by unfold encode; rw [ht]; rfl, hlength, fun i => ?_⟩
  rw [testBit_ofBytes, hlength, show 8 * (4 * n) = 32 * n by omega]
  by_cases hi : i < 32 * n
  · rw [hbits i hi]
  · rw [decide_eq_false hi, Bool.false_and, Bool.false_and]

theorem ext_bits {x y : Coords} (hx : x.length = n) (hy : y.length = n)
    (h : ∀ d < n, ∀ k < 32, (x.getD d 0).getLsbD k = (y.getD d 0).getLsbD k) : x = y :=
  ext_getD (hx.trans hy.symm) fun d hd => BitVec.eq_of_getLsbD_eq fun k hk => h d (hx ▸ hd) k hk

theorem decode_of_bits (hn : s.dimension.toNat = n) (hsmall : n < 2 ^ 27) (hx : x.length = n)
    (hbits : ∀ i, index.testBit i = (decide (i < 32 * n) && bitAt n (axesToTranspose x) i)) :
    s.decode index = x := by
  have hpos := pos hn
  have hindex : index < 2 ^ (32 * n) := by
    refine Nat.lt_pow_two_of_testBit _ fun i hi => ?_
    rw [hbits, decide_eq_false (Nat.not_lt_of_le hi), Bool.false_and]
  obtain ⟨hlength, hspec⟩ := transpose_spec hn hsmall hindex
  have htranspose : s.transpose index = axesToTranspose x := by
    refine ext_bits hlength (axesToTranspose_length.trans hx) fun d hd k hk => ?_
    have hr : n - 1 - d < n := by omega
    have hcoord : n - 1 - (n - 1 - d) = d := by omega
    have hplace := (place hk hr).2
    rw [hspec d hd k hk, hbits, decide_eq_true hplace, Bool.true_and, bitAt, place_div hr,
      place_mod hr, hcoord]
  rw [decode, htranspose, transposedToAxes_axesToTranspose (hx ▸ hpos)]

theorem encode_decode (hn : s.dimension.toNat = n) (hsmall : n < 2 ^ 27)
    (hindex : index < 2 ^ (32 * n)) :
    s.encode (s.decode index) = some index := by
  have hpos := pos hn
  obtain ⟨hlength, hspec⟩ := transpose_spec hn hsmall hindex
  obtain ⟨t, -, hencode, -, hbits⟩ := encode_spec (x := s.decode index) hn hsmall
    (transposedToAxes_length.trans hlength)
  rw [hencode, Option.some_inj]
  refine Nat.eq_of_testBit_eq fun i => ?_
  rw [hbits, decode, axesToTranspose_transposedToAxes (hlength ▸ hpos)]
  by_cases hi : i < 32 * n
  · have hr := Nat.mod_lt i hpos
    have hself : i / n * n + (n - 1 - (n - 1 - i % n)) = i := by
      have hdiv := Nat.div_add_mod i n
      rw [Nat.mul_comm] at hdiv
      omega
    rw [decide_eq_true hi, Bool.true_and, bitAt, hspec _ (by omega) _
      (Nat.div_lt_of_lt_mul (Nat.mul_comm 32 n ▸ hi)), hself]
  · rw [decide_eq_false hi, Bool.false_and]
    exact (Nat.testBit_lt_two_pow (Nat.lt_of_lt_of_le hindex
      (Nat.pow_le_pow_right Nat.two_pos (Nat.le_of_not_lt hi)))).symm

theorem encode_eq_none (hn : s.dimension.toNat = n) (hlarge : 2 ^ 27 ≤ n) :
    s.encode (transposedToAxes (List.replicate n (BitVec.allOnes 32))) = none := by
  have hset : ∀ j < n, ∀ k < 32,
      ((List.replicate n (BitVec.allOnes 32)).getD j 0).getLsbD k = true := by
    intro j hj k hk
    rw [getD_eq_getElem?_getD, getElem?_replicate, if_pos hj, Option.getD_some,
      BitVec.getLsbD_allOnes, decide_eq_true hk]
  unfold encode
  rw [axesToTranspose_transposedToAxes (by rw [length_replicate]; omega),
    untransposeBytes_wraps hn hlarge length_replicate hset]
  rfl

/-- The index is a bijection below `2 ^ 27` dimensions and no further. -/
theorem bijective_iff (s : Curve) : s.Bijective ↔ s.dimension.toNat < 2 ^ 27 := by
  constructor
  · intro h
    refine Nat.lt_of_not_le fun hlarge => ?_
    obtain ⟨index, hencode, -⟩ := h.decode_encode _
      (transposedToAxes_length.trans (List.length_replicate (a := BitVec.allOnes 32)))
    rw [encode_eq_none rfl hlarge] at hencode
    cases hencode
  · intro hsmall
    refine ⟨fun x hx => ?_, fun index hindex => encode_decode rfl hsmall hindex,
      fun x y hx hy => ?_⟩
    · obtain ⟨t, -, hencode, -, hbits⟩ := encode_spec rfl hsmall hx
      exact ⟨_, hencode, decode_of_bits rfl hsmall hx hbits⟩
    · obtain ⟨t, ht, hi, htlength, hxbits⟩ := encode_spec rfl hsmall hx
      obtain ⟨u, hu, hj, hulength, hybits⟩ := encode_spec rfl hsmall hy
      refine ⟨t, u, _, _, ht, hu, hi, hj, ofBytes_lt_iff (htlength.trans hulength.symm), ?_⟩
      rintro rfl
      exact (decode_of_bits rfl hsmall hx hxbits).symm.trans (decode_of_bits rfl hsmall hy hybits)

/-- At `2 ^ 27` dimensions the length of the index is zero. -/
theorem not_bijective_at_wrap :
    ∃ s, new (BitVec.twoPow 32 27) = some s ∧ ¬ s.Bijective := by
  have hne : BitVec.twoPow 32 27 ≠ 0 := by decide +kernel
  refine ⟨⟨_, hne⟩, dif_neg hne, fun h => ?_⟩
  obtain ⟨index, hencode, -⟩ := h.decode_encode _
    (transposedToAxes_length.trans (List.length_replicate (a := BitVec.allOnes 32)))
  have hwidth : 2 ^ 27 = (BitVec.twoPow 32 27).toNat := by decide +kernel
  rw [encode_eq_none rfl (Nat.le_of_eq hwidth)] at hencode
  cases hencode

end Curve

end Antfly.Hilbert
