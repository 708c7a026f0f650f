import Antfly.Bytes

/-!
Decoded JSON objects are Go maps; a map is the list of its fields, in one iteration order.
Numbers are the bit patterns of IEEE doubles.  `foreign` is a Go value of a static type other
than the decoder's own (`map[string][]float32`, for instance): it marshals like the JSON value it
holds, but a type assertion to `map[string]any` or `[]any` fails on it.

The JSON library is configurable in the source and the floating-point unit is the machine's, so
both are fields of `Codec`.
-/

namespace Antfly

inductive Json where
  | null
  | bool (b : Bool)
  | num (bits : UInt64)
  | str (s : Bytes)
  | arr (xs : List Json)
  | obj (fields : List (Bytes × Json))
  | foreign (j : Json)
  deriving Inhabited

/-- `map[string]any`. -/
abbrev Obj := List (Bytes × Json)

namespace Obj

def get? (o : Obj) (k : Bytes) : Option Json := o.lookup k

def erase (o : Obj) (k : Bytes) : Obj := o.filter fun f => f.1 ≠ k

/-- Assignment `o[k] = v`. -/
def set (o : Obj) (k : Bytes) (v : Json) : Obj :=
  if o.any fun f => f.1 = k then o.map fun f => if f.1 = k then (k, v) else f
  else o ++ [(k, v)]

end Obj

/-- An edge of a graph index, as `EncodeEdgeValue` receives it. -/
structure Edge where
  source : Bytes
  target : Bytes
  type : Bytes
  weight : UInt64
  createdAt : Nat
  updatedAt : Nat
  metadata : Option Obj

/-- The encoders, decoders and machine operations the store calls but does not define. -/
structure Codec where
  /-- `json.Unmarshal` into a `map[string]any`. -/
  unmarshalObj : Bytes → Option Obj
  /-- `json.Unmarshal` into an `any`. -/
  unmarshal : Bytes → Option Json
  /-- `json.Unmarshal` into a `float64`. -/
  unmarshalFloat : Bytes → Option UInt64
  /-- `json.Unmarshal` into an `int`. -/
  unmarshalInt : Bytes → Option Int
  /-- `json.Unmarshal` into a `string`. -/
  unmarshalString : Bytes → Option Bytes
  /-- `json.Marshal` of a `map[string]any`; it fails on infinities and NaN. -/
  marshalObj : Obj → Option Bytes
  floatAdd : UInt64 → UInt64 → UInt64
  floatMul : UInt64 → UInt64 → UInt64
  floatLt : UInt64 → UInt64 → Bool
  floatEq : UInt64 → UInt64 → Bool
  /-- Conversion of a double to `uint64`. -/
  floatToUint64 : UInt64 → Nat
  floatZero : UInt64
  floatOne : UInt64
  /-- Conversion of a double to a single-precision float. -/
  floatToFloat32 : UInt64 → UInt32
  /-- `fmt.Sscanf(s, "%d")`, truncated to `uint32`. -/
  parseTermID : Bytes → Option UInt32
  /-- `ConvertToFloat32Slice`, applied to a decoded array. -/
  convertToFloat32Slice : List Json → Option (List UInt32)
  /-- `vector.T.UnmarshalJSON` of a base64 string. -/
  decodeBase64Vector : Bytes → Option (List UInt32)
  encodeSparseVec : List (UInt32 × UInt32) → Bytes
  /-- The order in which `range` visits the terms a document `key` gives for an index; Go leaves it
  open. -/
  termOrder (key indexName : Bytes) (terms : Obj) : { order : Obj // order.Perm terms }
  /-- `EncodeEmbeddingWithHashID`. -/
  encodeEmbedding : List UInt32 → Nat → Bytes
  /-- `DecodeEmbeddingWithHashID`, as the JSON value the embedding marshals to. -/
  decodeEmbedding : Bytes → Option Json
  xxhash : Bytes → Nat
  encodeEdgeValue : Edge → Option Bytes
  /-- `time.Now`, in nanoseconds. -/
  now : Nat
  /-- `time.Now().Format(time.RFC3339Nano)`. -/
  nowRFC3339 : Bytes

/-- The terms in the order of the text. -/
def textOrder (terms : Obj) : { order : Obj // order.Perm terms } := ⟨terms, .refl terms⟩

/-- A codec for stores whose only JSON text is `\x7b\x7d`, the empty object. -/
def Codec.emptyObject : Codec where
  unmarshalObj b := if b = ascii ['\x7b', '\x7d'] then some [] else none
  unmarshal b := if b = ascii ['\x7b', '\x7d'] then some (.obj []) else none
  unmarshalFloat _ := none
  unmarshalInt _ := none
  unmarshalString _ := none
  marshalObj o := if o.isEmpty then some (ascii ['\x7b', '\x7d']) else none
  floatAdd a _ := a
  floatMul a _ := a
  floatLt _ _ := false
  floatEq a b := a = b
  floatToUint64 _ := 0
  floatZero := 0
  floatOne := 0x3FF0000000000000
  floatToFloat32 _ := 0
  parseTermID _ := none
  convertToFloat32Slice xs := if xs.isEmpty then some [] else none
  decodeBase64Vector _ := none
  encodeSparseVec _ := []
  termOrder _ _ := textOrder
  encodeEmbedding _ _ := []
  decodeEmbedding _ := none
  xxhash _ := 0
  encodeEdgeValue _ := none
  now := 0
  nowRFC3339 := []

namespace Json

variable (c : Codec)

/-- `evaluator.ToFloat64` on a decoded value. -/
def toFloat64 : Json → Option UInt64
  | num b => some b
  | _ => none

mutual

/-- `reflect.DeepEqual` on decoded values. -/
def deepEqual : Json → Json → Bool
  | null, null => true
  | bool a, bool b => a == b
  | num a, num b => c.floatEq a b
  | str a, str b => a == b
  | arr xs, arr ys => deepEqualList xs ys
  | obj fs, obj gs => fs.length == gs.length && deepEqualFields fs gs
  | foreign x, foreign y => deepEqual x y
  | _, _ => false

def deepEqualList : List Json → List Json → Bool
  | [], [] => true
  | x :: xs, y :: ys => deepEqual x y && deepEqualList xs ys
  | _, _ => false

def deepEqualFields : List (Bytes × Json) → List (Bytes × Json) → Bool
  | [], _ => true
  | (k, v) :: fs, gs =>
    (match gs.lookup k with
      | some w => deepEqual v w
      | none => false) && deepEqualFields fs gs

end

end Json

end Antfly
