import Antfly.Lib.Lex
import Mathlib.Algebra.Group.Nat.Defs
import Mathlib.Data.List.TakeWhile
import Mathlib.Order.Basic

/-!
Keys, values and range bounds are Go byte slices, compared by `bytes.Compare`, which is the
lexicographic order of unsigned bytes.  A nil slice and an empty slice are one value here; no
modelled function tells them apart.
-/

namespace Antfly

open List

instance linearOrderUInt8 : LinearOrder UInt8 where
  le_refl := UInt8.le_refl
  le_trans _ _ _ := UInt8.le_trans
  le_antisymm _ _ := UInt8.le_antisymm
  le_total := UInt8.le_total
  toDecidableLE := inferInstance
  lt_iff_le_not_ge a b := by
    simp only [UInt8.lt_iff_toNat_lt, UInt8.le_iff_toNat_le]
    omega

abbrev Bytes := List UInt8

instance decidableMemBytes (x : Bytes) (l : List Bytes) : Decidable (x ∈ l) :=
  inferInstanceAs (Decidable (x ∈ l))

theorem any_decide_eq {x : List Bytes} {l : List (List Bytes)} :
    (l.any fun r => decide (r = x)) = true ↔ x ∈ l := by
  rw [any_eq_true]
  constructor
  · rintro ⟨r, hr, heq⟩
    rwa [← of_decide_eq_true heq]
  · intro hx
    exact ⟨x, hx, decide_eq_true rfl⟩

instance decidableMemByteLists (x : List Bytes) (l : List (List Bytes)) : Decidable (x ∈ l) :=
  decidable_of_iff _ any_decide_eq

/-- The bytes of an ASCII literal. -/
def ascii (cs : List Char) : Bytes :=
  cs.map fun c => UInt8.ofNat c.toNat

/-- `bytes.HasPrefix`. -/
def hasPrefix (b pre : Bytes) : Bool := pre.isPrefixOf b

/-- `bytes.HasSuffix`. -/
def hasSuffix (b suf : Bytes) : Bool := suf.isSuffixOf b

def contains : Bytes → Bytes → Bool
  | [], sub => sub.isEmpty
  | c :: b, sub => sub.isPrefixOf (c :: b) || contains b sub

variable {b pre x : Bytes} {c : UInt8}

theorem hasPrefix_iff : hasPrefix b pre = true ↔ pre <+: b := by
  simp [hasPrefix]

theorem hasSuffix_iff {suf : Bytes} : hasSuffix b suf = true ↔ suf <:+ b := by
  simp [hasSuffix]

theorem contains_iff {sub : Bytes} : contains b sub = true ↔ sub <:+: b := by
  induction b with
  | nil => simp [contains]
  | cons c b ih => simp [contains, ih, infix_cons_iff]

/-- Drops the trailing `0xFF` bytes and increments the last byte that is left.  An empty prefix
gives the empty slice, and a prefix of `0xFF` bytes only is returned unchanged. -/
def prefixSuccessor (pre : Bytes) : Bytes :=
  match pre.reverse.dropWhile (· = 0xFF) with
  | [] => pre
  | last :: rest => rest.reverse ++ [last + 1]

theorem prefixSuccessor_append_singleton (q : Bytes) (hc : c ≠ 0xFF) :
    prefixSuccessor (q ++ [c]) = q ++ [c + 1] := by
  simp [prefixSuccessor, hc]

theorem prefixSuccessor_append_ff (q : Bytes) (hc : c ≠ 0xFF) :
    prefixSuccessor (q ++ [c, 0xFF]) = q ++ [c + 1] := by
  simp [prefixSuccessor, hc]

private theorem uint8_lt_succ (hc : c ≠ 0xFF) : c < c + 1 := by
  have hne : c.toNat ≠ 255 := fun h => hc (UInt8.toNat_inj.mp h)
  have hlt := c.toNat_lt
  rw [UInt8.lt_iff_toNat_lt, UInt8.toNat_add]
  have h1 : (1 : UInt8).toNat = 1 := rfl
  omega

private theorem uint8_eq_of_lt_succ {d : UInt8} (hc : c ≠ 0xFF) (hcd : c ≤ d) (hd : d < c + 1) :
    d = c := by
  have hne : c.toNat ≠ 255 := fun h => hc (UInt8.toNat_inj.mp h)
  have hlt := c.toNat_lt
  have h1 : (1 : UInt8).toNat = 1 := rfl
  rw [UInt8.lt_iff_toNat_lt, UInt8.toNat_add] at hd
  rw [UInt8.le_iff_toNat_le] at hcd
  exact UInt8.toNat_inj.mp (by omega)

private theorem uint8_le_ff (c : UInt8) : c ≤ 0xFF := by
  have hlt := c.toNat_lt
  have hff : (0xFF : UInt8).toNat = 255 := rfl
  rw [UInt8.le_iff_toNat_le]
  omega

theorem mem_prefix_range_iff {q : Bytes} (hc : c ≠ 0xFF) :
    (q ++ [c] ≤ x ∧ x < prefixSuccessor (q ++ [c])) ↔ q ++ [c] <+: x := by
  rw [prefixSuccessor_append_singleton q hc]
  exact Lex.mem_Ico_append_succ (uint8_lt_succ hc) fun d => uint8_eq_of_lt_succ hc

private theorem prefixSuccessor_split (hpre : ∃ c ∈ pre, c ≠ 0xFF) :
    ∃ q c n, c ≠ 0xFF ∧ pre = q ++ [c] ++ List.replicate n 0xFF ∧
      prefixSuccessor pre = q ++ [c + 1] := by
  have hsplit := takeWhile_append_dropWhile (p := (· = (0xFF : UInt8))) (l := pre.reverse)
  cases hdrop : pre.reverse.dropWhile (· = 0xFF) with
  | nil =>
    obtain ⟨c, hc, hne⟩ := hpre
    rw [dropWhile_eq_nil_iff] at hdrop
    exact absurd (by simpa using hdrop c (mem_reverse.mpr hc)) hne
  | cons last rest =>
    have hlast : last ≠ 0xFF := by
      have hhead := head_dropWhile_not (p := (· = (0xFF : UInt8))) (l := pre.reverse)
        (by rw [hdrop]; simp)
      simpa [hdrop] using hhead
    have hrun : pre.reverse.takeWhile (· = 0xFF) =
        List.replicate (pre.reverse.takeWhile (· = 0xFF)).length 0xFF := by
      refine eq_replicate_of_mem fun b hb => ?_
      simpa using mem_takeWhile_imp hb
    refine ⟨rest.reverse, last, (pre.reverse.takeWhile (· = 0xFF)).length, hlast, ?_, ?_⟩
    · have hrev := congrArg List.reverse hsplit
      rw [hdrop, hrun] at hrev
      simpa using hrev.symm
    · simp [prefixSuccessor, hdrop]

/-- Every extension of a prefix lies below the prefix's successor, unless the prefix consists of
`0xFF` bytes only. -/
theorem lt_prefixSuccessor (hpre : ∃ c ∈ pre, c ≠ 0xFF) (h : pre <+: x) :
    x < prefixSuccessor pre := by
  obtain ⟨t, rfl⟩ := h
  obtain ⟨q, c, n, hc, hq, hsucc⟩ := prefixSuccessor_split hpre
  rw [hsucc, hq, append_assoc, append_assoc, Lex.append_lt_append_left]
  exact List.Lex.rel (uint8_lt_succ hc)

theorem mem_Ico_prefixSuccessor_iff (hpre : ∃ c ∈ pre, c ≠ 0xFF) :
    (pre ≤ x ∧ x < prefixSuccessor pre) ↔ pre <+: x := by
  refine ⟨?_, fun h => ⟨Lex.le_of_prefix h, lt_prefixSuccessor hpre h⟩⟩
  rintro ⟨hl, hr⟩
  obtain ⟨q, c, n, hc, hq, hsucc⟩ := prefixSuccessor_split hpre
  rw [hsucc, ← prefixSuccessor_append_singleton q hc] at hr
  have hlow : q ++ [c] ≤ x := by
    rw [hq] at hl
    exact le_trans (Lex.le_append _ _) hl
  obtain ⟨t, rfl⟩ := (mem_prefix_range_iff hc).mp ⟨hlow, hr⟩
  rw [hq, Lex.append_le_append_left] at hl
  rw [hq, prefix_append_right_inj]
  exact Lex.replicate_prefix_of_le uint8_le_ff hl

/-- Big-endian eight-byte encoding, whose byte order is the numeric order. -/
def encodeUint64Ascending (v : Nat) : Bytes :=
  [56, 48, 40, 32, 24, 16, 8, 0].map fun s => UInt8.ofNat (v >>> s)

/-- `DecodeUint64Ascending` reads the first eight bytes and fails on fewer. -/
def decodeUint64Ascending (b : Bytes) : Option Nat :=
  if b.length < 8 then none
  else some ((b.take 8).foldl (fun acc c => acc * 256 + c.toNat) 0)

theorem shiftRight_byte (n k : ℕ) :
    n >>> (k + 8) * 256 + (UInt8.ofNat (n >>> k)).toNat = n >>> k := by
  rw [UInt8.toNat_ofNat', Nat.shiftRight_add, Nat.shiftRight_eq_div_pow _ 8]
  exact Nat.div_add_mod' (n >>> k) 256

theorem decodeUint64Ascending_encodeUint64Ascending {v : ℕ} (h : v < 2 ^ 64) :
    decodeUint64Ascending (encodeUint64Ascending v) = some v := by
  have hbytes := shiftRight_byte v
  have hfirst : 0 * 256 + (UInt8.ofNat (v >>> 56)).toNat = v >>> 56 := by
    rw [Nat.zero_mul, Nat.zero_add, UInt8.toNat_ofNat', Nat.shiftRight_eq_div_pow]
    exact Nat.mod_eq_of_lt (Nat.div_lt_of_lt_mul h)
  change some ((encodeUint64Ascending v).foldl (fun acc c => acc * 256 + c.toNat) 0) = _
  rw [encodeUint64Ascending, foldl_map]
  simp only [foldl_cons, foldl_nil]
  rw [hfirst, hbytes 48, hbytes 40, hbytes 32, hbytes 24, hbytes 16, hbytes 8, hbytes 0]
  rfl

/-- 256 bytes of `0xFF`, the upper bound that stands for an unbounded range end. -/
def rangeEndSentinel : Bytes := List.replicate 256 0xFF

/-- The half-open byte range `[start, end)`; an empty bound is unbounded. -/
structure Range where
  start : Bytes
  stop : Bytes
  deriving DecidableEq, Inhabited

namespace Range

def contains (r : Range) (k : Bytes) : Bool :=
  (r.start.isEmpty || decide (r.start ≤ k)) && (r.stop.isEmpty || decide (k < r.stop))

def endForPebble (r : Range) : Bytes :=
  if r.stop.isEmpty then rangeEndSentinel else r.stop

variable {r : Range} {k : Bytes}

theorem contains_iff : r.contains k = true ↔ r.start ≤ k ∧ (r.stop = [] ∨ k < r.stop) := by
  have hnil := Lex.nil_le k
  cases hs : r.start <;> simp_all [contains]

theorem start_le_of_contains (h : r.contains k = true) : r.start ≤ k :=
  (contains_iff.mp h).1

end Range

end Antfly
