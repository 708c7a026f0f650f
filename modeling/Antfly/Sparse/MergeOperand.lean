import Antfly.Bytes

/-!
A chunk of a posting list is stored whole, in a format of version 1, or as a merge operand of
version 2 that adds postings or deletes document numbers.  Document numbers of operands are
absolute and their weights raw.

A weight is the bit pattern of its `float32`.
-/

namespace Antfly.Sparse

abbrev Weight := UInt32

def formatVersion : UInt8 := 1
def mergeOperandVersion : UInt8 := 2
def opTypeAdd : UInt8 := 0x01
def opTypeDelete : UInt8 := 0x02

/-- The errors of the encoders and decoders, with the numbers their texts name. -/
inductive EncodingError where
  | emptyChunk
  | weightsLength (docNums weights : Nat)
  | docNumExceedsUint32 (docNum : Nat)
  | chunkTooShort (length : Nat)
  | chunkVersion (version : UInt8)
  | chunkTooShortFor (entries need got : Nat)
  | operandTooShort (length : Nat)
  | operandVersion (version : UInt8)
  | operandTooShortFor (entries need got : Nat)
  deriving DecidableEq

/-- `binary.LittleEndian.PutUint32`. -/
def putUint32 (v : UInt32) : Bytes :=
  [UInt8.ofNat v.toNat, UInt8.ofNat (v.toNat / 256), UInt8.ofNat (v.toNat / 65536),
    UInt8.ofNat (v.toNat / 16777216)]

/-- `binary.LittleEndian.Uint32`; the callers check the length before. -/
def getUint32 : Bytes → UInt32
  | a :: b :: c :: d :: _ =>
    UInt32.ofNat (a.toNat + 256 * b.toNat + 65536 * c.toNat + 16777216 * d.toNat)
  | _ => 0

def putUint32s (vs : List UInt32) : Bytes := vs.flatMap putUint32

def getUint32s : Nat → Bytes → List UInt32
  | 0, _ => []
  | n + 1, data => getUint32 data :: getUint32s n (data.drop 4)

@[simp] theorem length_putUint32 (v : UInt32) : (putUint32 v).length = 4 := rfl

@[simp] theorem length_putUint32s (vs : List UInt32) : (putUint32s vs).length = 4 * vs.length := by
  induction vs with
  | nil => rfl
  | cons v vs ih =>
    change (putUint32 v ++ putUint32s vs).length = _
    rw [List.length_append, ih, length_putUint32, List.length_cons]
    omega

@[simp] theorem getUint32_putUint32 (v : UInt32) (rest : Bytes) :
    getUint32 (putUint32 v ++ rest) = v := by
  apply UInt32.toNat_inj.mp
  have hlt := v.toNat_lt
  simp only [putUint32, List.cons_append, List.nil_append, getUint32, UInt8.toNat_ofNat',
    UInt32.toNat_ofNat']
  omega

@[simp] theorem getUint32s_putUint32s (vs : List UInt32) (rest : Bytes) :
    getUint32s vs.length (putUint32s vs ++ rest) = vs := by
  induction vs with
  | nil => rfl
  | cons v vs ih =>
    have hsplit : putUint32s (v :: vs) ++ rest = putUint32 v ++ (putUint32s vs ++ rest) := by
      simp [putUint32s]
    have hdrop : (putUint32 v ++ (putUint32s vs ++ rest)).drop 4 = putUint32s vs ++ rest :=
      List.drop_left' rfl
    rw [hsplit, List.length_cons, getUint32s, getUint32_putUint32, hdrop, ih]

/-- `encodeMergeOperand`; the weights of a delete are ignored. -/
def encodeMergeOperand (opType : UInt8) (docNums : List UInt32) (weights : List Weight) : Bytes :=
  mergeOperandVersion :: opType :: putUint32 (UInt32.ofNat docNums.length) ++ putUint32s docNums ++
    if opType = opTypeAdd then putUint32s weights else []

/-- `decodeMergeOperand`: the kind of the operand, its document numbers, and the weights of an
add. -/
def decodeMergeOperand (data : Bytes) :
    Except EncodingError (UInt8 × List UInt32 × List Weight) :=
  match data with
  | version :: opType :: rest =>
    if data.length < 6 then .error (.operandTooShort data.length)
    else if version ≠ mergeOperandVersion then .error (.operandVersion version)
    else
      let n := (getUint32 rest).toNat
      let expectedSize := 6 + 4 * n + if opType = opTypeAdd then 4 * n else 0
      if data.length < expectedSize then
        .error (.operandTooShortFor n expectedSize data.length)
      else
        let body := rest.drop 4
        .ok (opType, getUint32s n body,
          if opType = opTypeAdd then getUint32s n (body.drop (4 * n)) else [])
  | _ => .error (.operandTooShort data.length)

theorem length_encodeMergeOperand (opType : UInt8) (docNums : List UInt32)
    (weights : List Weight) :
    (encodeMergeOperand opType docNums weights).length =
      6 + 4 * docNums.length + if opType = opTypeAdd then 4 * weights.length else 0 := by
  by_cases hadd : opType = opTypeAdd
  · simp [encodeMergeOperand, hadd]
    omega
  · simp [encodeMergeOperand, hadd]
    omega

/-- An operand whose number of entries fits its count field is read back as it was written. -/
theorem decodeMergeOperand_encodeMergeOperand {opType : UInt8} {docNums : List UInt32}
    {weights : List Weight} (hcount : docNums.length < 4294967296)
    (hweights : opType = opTypeAdd → weights.length = docNums.length) :
    decodeMergeOperand (encodeMergeOperand opType docNums weights) =
      .ok (opType, docNums, if opType = opTypeAdd then weights else []) := by
  have hlength := length_encodeMergeOperand opType docNums weights
  have hshape : encodeMergeOperand opType docNums weights =
      mergeOperandVersion :: opType :: (putUint32 (UInt32.ofNat docNums.length) ++
        (putUint32s docNums ++ if opType = opTypeAdd then putUint32s weights else [])) := by
    simp [encodeMergeOperand]
  rw [hshape] at hlength ⊢
  have hn : (UInt32.ofNat docNums.length).toNat = docNums.length := by
    rw [UInt32.toNat_ofNat']
    exact Nat.mod_eq_of_lt hcount
  have hbody : ∀ tail : Bytes, (putUint32 (UInt32.ofNat docNums.length) ++ tail).drop 4 = tail :=
    fun tail => List.drop_left' rfl
  have hrest : ∀ tail : Bytes, (putUint32s docNums ++ tail).drop (4 * docNums.length) = tail :=
    fun tail => List.drop_left' (length_putUint32s docNums)
  simp only [decodeMergeOperand, getUint32_putUint32, hn, hbody, hrest, hlength,
    getUint32s_putUint32s]
  by_cases hadd : opType = opTypeAdd
  · have hw := hweights hadd
    have hread : getUint32s docNums.length (putUint32s weights) = weights := by
      rw [← hw, ← List.append_nil (putUint32s weights), getUint32s_putUint32s]
    simp only [hadd, if_true, hw, hread]
    rw [if_neg (by omega), if_neg (by simp), if_neg (by omega)]
  · simp only [hadd, if_false]
    rw [if_neg (by omega), if_neg (by simp), if_neg (by omega)]

end Antfly.Sparse
