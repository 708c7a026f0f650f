import Antfly.Lib.Fallible
import Antfly.Sparse.MergeOperand
import Mathlib.Data.List.Sort

/-!
Pebble makes a merger from one value of a key, hands it the newer or older values next to it, and
asks it to finish: with the base, when no older value is left, and without it in between.  The
merger keeps all values in the order it meets them, newer or older, and looks at them when it
finishes: the union of all deletes is taken from the union of all postings, and of several postings
of a document the one it met last stays.

Document numbers are `uint64` in memory and `uint32` in the values.
-/

namespace Antfly.Sparse

open List

structure Posting where
  docNum : Nat
  weight : Weight
  deriving DecidableEq

/-- What the merger uses of the vector library. -/
structure Highway where
  minMax : List Weight → Weight × Weight
  deltaEncode : List UInt32 → UInt32 → List UInt32
  deltaDecode : List UInt32 → UInt32 → List UInt32
  quantizeFloat32 : List Weight → Weight → Weight → List UInt8
  dequantizeUint8 : List UInt8 → Weight → Weight → List Weight

def quantizationStep (minW maxW : Weight) : Weight :=
  let scale := Float32.ofBits maxW - Float32.ofBits minW
  ((if scale == 0 then 1 else scale) / 255).toBits

section Merger

variable (hw : Highway)

def encodeChunk (postings : List Posting) : Except EncodingError Bytes :=
  if postings.isEmpty then .error .emptyChunk
  else
    let weights := postings.map Posting.weight
    let (minW, maxW) := hw.minMax weights
    match postings.find? fun p => decide (4294967295 < p.docNum) with
    | some p => .error (.docNumExceedsUint32 p.docNum)
    | none =>
      let docDeltas := hw.deltaEncode (postings.map fun p => UInt32.ofNat p.docNum) 0
      .ok (formatVersion :: putUint32 (UInt32.ofNat postings.length) ++ putUint32 maxW ++
        putUint32 minW ++ putUint32s docDeltas ++
        hw.quantizeFloat32 weights minW (quantizationStep minW maxW))

/-- The postings of a chunk and its greatest weight. -/
def decodeChunk (data : Bytes) : Except EncodingError (List Posting × Weight) :=
  match data with
  | [] => .error (.chunkTooShort 0)
  | version :: rest =>
    if data.length < 13 then .error (.chunkTooShort data.length)
    else if version ≠ formatVersion then .error (.chunkVersion version)
    else
      let n := (getUint32 rest).toNat
      let maxW := getUint32 (rest.drop 4)
      let minW := getUint32 (rest.drop 8)
      let expectedSize := 13 + 4 * n + n
      if data.length < expectedSize then .error (.chunkTooShortFor n expectedSize data.length)
      else
        let body := rest.drop 12
        let docNums := hw.deltaDecode (getUint32s n body) 0
        let quantizedWeights := (body.drop (4 * n)).take n
        let weights := hw.dequantizeUint8 quantizedWeights minW (quantizationStep minW maxW)
        .ok (List.zipWith (fun d w => ⟨d.toNat, w⟩) docNums weights, maxW)

/-- `chunkValueMerger`: the value it was made from and the others in the order they were merged. -/
structure ChunkValueMerger where
  base : Bytes
  operands : List Bytes

def newChunkValueMerger (value : Bytes) : ChunkValueMerger := ⟨value, []⟩

def ChunkValueMerger.mergeNewer (m : ChunkValueMerger) (value : Bytes) : ChunkValueMerger :=
  { m with operands := m.operands ++ [value] }

def ChunkValueMerger.mergeOlder (m : ChunkValueMerger) (value : Bytes) : ChunkValueMerger :=
  { m with operands := m.operands ++ [value] }

/-- The entries and the delete set `resolve` collects. -/
structure Collected where
  entries : List Posting
  deleteSet : List UInt32

/-- Adds one encoded value; a value of an unknown version or kind is skipped. -/
def Collected.process (acc : Collected) (data : Bytes) : Except EncodingError Collected :=
  match data with
  | [] => .ok acc
  | version :: _ =>
    if version = formatVersion then do
      let (postings, _) ← decodeChunk hw data
      return { acc with entries := acc.entries ++ postings }
    else if version = mergeOperandVersion then do
      let (opType, docNums, weights) ← decodeMergeOperand data
      if opType = opTypeAdd then
        return { acc with
          entries := acc.entries ++ List.zipWith (fun d w => ⟨d.toNat, w⟩) docNums weights }
      else if opType = opTypeDelete then
        return { acc with deleteSet := acc.deleteSet ++ docNums }
      else return acc
    else .ok acc

/-- Of several entries of a document the last one stays. -/
def keepLast : List Posting → List Posting
  | [] => []
  | e :: es => if es.any (·.docNum = e.docNum) then keepLast es else e :: keepLast es

/-- The deletes, the deduplication and the sort of `resolve`. -/
def Collected.postings (c : Collected) : List Posting :=
  (keepLast (c.entries.filter fun e => decide (UInt32.ofNat e.docNum ∉ c.deleteSet))).insertionSort
    fun a b => a.docNum ≤ b.docNum

namespace ChunkValueMerger

variable (m : ChunkValueMerger)

/-- The first part of `resolve`: all values, in the order the merger met them. -/
def collect : Except EncodingError Collected :=
  (m.base :: m.operands).foldlM (Collected.process hw) ⟨[], []⟩

/-- `resolve`; the third result of the source is whether there are no postings. -/
def resolve : Except EncodingError (List Posting) := do
  let c ← m.collect hw
  return c.postings

def partialOperand (postings : List Posting) : Bytes :=
  encodeMergeOperand opTypeAdd
    (postings.map fun p => if 4294967295 < p.docNum then 4294967295 else UInt32.ofNat p.docNum)
    (postings.map Posting.weight)

def finishFull : Except EncodingError Bytes := do
  let postings ← m.resolve hw
  if postings.isEmpty then return encodeMergeOperand opTypeAdd [] []
  else encodeChunk hw postings

def finishPartial : Except EncodingError Bytes := do
  let postings ← m.resolve hw
  if postings.isEmpty then return encodeMergeOperand opTypeAdd [] []
  else return partialOperand postings

def finish (includesBase : Bool) : Except EncodingError Bytes :=
  if includesBase then m.finishFull hw else m.finishPartial hw

/-- `DeletableFinish`: the value, and whether the key is to be deleted instead. -/
def deletableFinish (includesBase : Bool) : Except EncodingError (Bytes × Bool) := do
  let postings ← m.resolve hw
  if postings.isEmpty && includesBase then return ([], true)
  else if postings.isEmpty then return (encodeMergeOperand opTypeAdd [] [], false)
  else if includesBase then return (← encodeChunk hw postings, false)
  else return (partialOperand postings, false)

end ChunkValueMerger

end Merger

/-- The weights of the entries of a document, in their order. -/
def weightsOf (d : Nat) (es : List Posting) : List Weight :=
  (es.filter fun e => decide (e.docNum = d)).map Posting.weight

@[simp] theorem weightsOf_nil (d : Nat) : weightsOf d [] = [] := rfl

theorem weightsOf_cons (d : Nat) (e : Posting) (es : List Posting) :
    weightsOf d (e :: es) =
      if e.docNum = d then e.weight :: weightsOf d es else weightsOf d es := by
  by_cases hd : e.docNum = d
  · simp [weightsOf, hd]
  · simp [weightsOf, hd]

@[simp] theorem weightsOf_append (d : Nat) (es es' : List Posting) :
    weightsOf d (es ++ es') = weightsOf d es ++ weightsOf d es' := by
  simp [weightsOf]

theorem mem_weightsOf {d : Nat} {es : List Posting} {w : Weight} :
    w ∈ weightsOf d es ↔ ⟨d, w⟩ ∈ es := by
  unfold weightsOf
  rw [mem_map]
  constructor
  · rintro ⟨e, he, rfl⟩
    obtain ⟨hmem, hd⟩ := mem_filter.mp he
    obtain rfl := of_decide_eq_true hd
    exact hmem
  · intro h
    exact ⟨_, mem_filter.mpr ⟨h, decide_eq_true rfl⟩, rfl⟩

theorem weightsOf_eq_nil_iff {d : Nat} {es : List Posting} :
    weightsOf d es = [] ↔ ∀ e ∈ es, e.docNum ≠ d := by
  simp [weightsOf, filter_eq_nil_iff]

theorem weightsOf_filter (d : Nat) (keep : Nat → Bool) (es : List Posting) :
    weightsOf d (es.filter fun e => keep e.docNum) = if keep d then weightsOf d es else [] := by
  induction es with
  | nil => simp
  | cons e es ih =>
    by_cases hd : e.docNum = d
    · cases hkeep : keep d <;> simp [weightsOf_cons, hd, hkeep, ih]
    · cases hkeep : keep e.docNum <;> simp [weightsOf_cons, hd, hkeep, ih]

theorem mem_keepLast {e : Posting} {es : List Posting} :
    e ∈ keepLast es ↔ (weightsOf e.docNum es).getLast? = some e.weight := by
  induction es with
  | nil => simp [keepLast]
  | cons a es ih =>
    rw [weightsOf_cons, keepLast]
    by_cases hlater : es.any (·.docNum = a.docNum)
    · rw [if_pos hlater, ih]
      by_cases hd : a.docNum = e.docNum
      · -- A later entry of the document decides.
        have hne : weightsOf e.docNum es ≠ [] := by
          rw [Ne, weightsOf_eq_nil_iff]
          simp only [any_eq_true, decide_eq_true_eq] at hlater
          obtain ⟨b, hb, hba⟩ := hlater
          intro hall
          exact hall b hb (hba.trans hd)
        rw [if_pos hd, getLast?_cons_of_ne_nil hne]
      · rw [if_neg hd]
    · rw [if_neg hlater, mem_cons, ih]
      by_cases hd : a.docNum = e.docNum
      · have hnil : weightsOf e.docNum es = [] := by
          rw [weightsOf_eq_nil_iff]
          intro b hb hbe
          apply hlater
          simp only [any_eq_true, decide_eq_true_eq]
          exact ⟨b, hb, hbe.trans hd.symm⟩
        rw [if_pos hd, hnil]
        obtain ⟨da, wa⟩ := a
        obtain ⟨de, we⟩ := e
        obtain rfl : da = de := hd
        simp [eq_comm]
      · rw [if_neg hd]
        constructor
        · rintro (rfl | h)
          · exact absurd rfl hd
          · exact h
        · exact Or.inr

theorem keepLast_nodup (es : List Posting) : ((keepLast es).map Posting.docNum).Nodup := by
  induction es with
  | nil => exact nodup_nil
  | cons a es ih =>
    rw [keepLast]
    split
    · exact ih
    · rename_i hlater
      rw [map_cons, nodup_cons]
      refine ⟨fun hmem => hlater ?_, ih⟩
      obtain ⟨e, he, hed⟩ := mem_map.mp hmem
      have hlast := mem_keepLast.mp he
      have hw := mem_weightsOf.mp (mem_of_getLast? hlast)
      simp only [any_eq_true, decide_eq_true_eq]
      exact ⟨_, hw, hed⟩

namespace Collected

variable (c : Collected)

/-- The weight the merger settles on for a document. -/
def weight? (d : Nat) : Option Weight :=
  if UInt32.ofNat d ∈ c.deleteSet then none else (weightsOf d c.entries).getLast?

theorem mem_postings {p : Posting} : p ∈ c.postings ↔ c.weight? p.docNum = some p.weight := by
  unfold postings weight?
  rw [mem_insertionSort, mem_keepLast,
    weightsOf_filter p.docNum fun d => decide (UInt32.ofNat d ∉ c.deleteSet)]
  by_cases hdel : UInt32.ofNat p.docNum ∈ c.deleteSet
  · simp [hdel]
  · simp [hdel]

theorem postings_sorted : c.postings.Pairwise fun a b => a.docNum < b.docNum := by
  have hle : c.postings.Pairwise fun a b => a.docNum ≤ b.docNum :=
    have : Std.Total fun a b : Posting => a.docNum ≤ b.docNum := ⟨fun a b => Nat.le_total _ _⟩
    have : IsTrans Posting fun a b => a.docNum ≤ b.docNum := ⟨fun a b c => Nat.le_trans⟩
    pairwise_insertionSort _ _
  have hne : c.postings.Pairwise fun a b => a.docNum ≠ b.docNum := by
    have hperm := (perm_insertionSort (fun a b : Posting => a.docNum ≤ b.docNum)
      (keepLast (c.entries.filter fun e => decide (UInt32.ofNat e.docNum ∉ c.deleteSet))))
    have hnodup := (hperm.map Posting.docNum).nodup_iff.mpr (keepLast_nodup _)
    exact pairwise_map.mp hnodup
  exact hle.imp₂ (fun a b h h' => Nat.lt_of_le_of_ne h h') hne

theorem getLast?_weightsOf_postings (d : Nat) :
    (weightsOf d c.postings).getLast? = c.weight? d := by
  cases hlast : (weightsOf d c.postings).getLast? with
  | some w =>
    have hmem := mem_weightsOf.mp (mem_of_getLast? hlast)
    exact (c.mem_postings.mp hmem).symm
  | none =>
    rw [getLast?_eq_none_iff] at hlast
    symm
    rw [Option.eq_none_iff_forall_not_mem]
    intro w hw
    have hmem : w ∈ weightsOf d c.postings := mem_weightsOf.mpr (c.mem_postings.mpr hw)
    rw [hlast] at hmem
    exact not_mem_nil hmem

theorem postings_eq_iff {c c' : Collected} :
    c.postings = c'.postings ↔ ∀ d, c.weight? d = c'.weight? d := by
  constructor
  · intro h d
    rw [← getLast?_weightsOf_postings, ← getLast?_weightsOf_postings, h]
  · intro h
    have hasymm : Std.Asymm fun a b : Posting => a.docNum < b.docNum :=
      ⟨fun a b => Nat.lt_asymm⟩
    apply c.postings_sorted.eq_of_mem_iff c'.postings_sorted
    intro p
    rw [mem_postings, mem_postings, h]

end Collected

end Antfly.Sparse
