import Antfly.Bytes

/-!
A document `k` is stored under `k ++ ":\x00"`, its timestamp under `k ++ ":\x00:t"` and its
derived data under `k ++ ":i:" ++ index ++ ...`.  The store's own records live under prefixes
that start with two zero bytes.
-/

namespace Antfly

def dbRangeStart : Bytes := ascii [':', '\x00']
def dbRangeEnd : Bytes := ascii [':'] ++ [0xFF]
def embeddingSuffix : Bytes := ascii [':', 'e']
def summarySuffix : Bytes := ascii [':', 's']
def sparseSuffix : Bytes := ascii [':', 's', 'p']
def transactionSuffix : Bytes := ascii [':', 't']
def edgeOutSuffix : Bytes := ascii [':', 'o']
def fieldHashSuffix : Bytes := ascii [':', 'f', 'h']
def indexMarker : Bytes := ascii [':', 'i', ':']
def outMarker : Bytes := ascii [':', 'o', 'u', 't', ':']
def inMarker : Bytes := ascii [':', 'i', 'n', ':']

def metadataPrefix : Bytes := ascii ['\x00', '\x00', '_', '_', 'm', 'e', 't', 'a', '_', '_']

def keyRangeStart (key : Bytes) : Bytes := key ++ dbRangeStart
def keyRangeEnd (key : Bytes) : Bytes := key ++ dbRangeEnd

def timestampKey (key : Bytes) : Bytes := key ++ transactionSuffix

def isEdgeKey (key : Bytes) : Bool :=
  contains key indexMarker && (contains key outMarker || contains key inMarker)

def isChunkKey (key : Bytes) : Bool :=
  hasSuffix key (ascii [':', 'c']) || hasSuffix key (ascii [':', 'c', 'f', 't']) ||
    hasSuffix key (ascii [':', 'c', 'm'])

def makeEmbeddingKey (docKey indexName : Bytes) : Bytes :=
  docKey ++ indexMarker ++ indexName ++ embeddingSuffix

def makeSummaryKey (docKey indexName : Bytes) : Bytes :=
  docKey ++ indexMarker ++ indexName ++ summarySuffix

def makeSparseKey (docKey indexName : Bytes) : Bytes :=
  docKey ++ indexMarker ++ indexName ++ sparseSuffix

def makeEdgeKey (source target indexName edgeType : Bytes) : Bytes :=
  source ++ indexMarker ++ indexName ++ outMarker ++ edgeType ++ ascii [':'] ++ target ++
    edgeOutSuffix

def edgeIteratorPrefix (key indexName edgeType : Bytes) : Bytes :=
  key ++ indexMarker ++ indexName ++ outMarker ++
    (if edgeType.isEmpty then [] else edgeType ++ ascii [':'])

theorem prefixSuccessor_keyRangeEnd (k : Bytes) :
    prefixSuccessor (keyRangeEnd k) = k ++ ascii [';'] :=
  prefixSuccessor_append_ff k (c := 58) (by decide)

/-- The range tombstone of a document delete covers `k` itself and every key that continues `k`
with a byte below `;`: digits, the separator `:` and most punctuation. -/
theorem mem_deleteRange_iff {k x : Bytes} :
    (k ≤ x ∧ x < prefixSuccessor (keyRangeEnd k)) ↔ ∃ t, x = k ++ t ∧ t < ascii [';'] := by
  rw [prefixSuccessor_keyRangeEnd]
  exact Lex.mem_Ico_append_singleton

theorem mem_deleteRange_colon (k t : Bytes) :
    k ≤ k ++ 58 :: t ∧ k ++ 58 :: t < prefixSuccessor (keyRangeEnd k) := by
  rw [mem_deleteRange_iff]
  exact ⟨58 :: t, rfl, List.Lex.rel (by decide)⟩

def byteRangeKey : Bytes :=
  metadataPrefix ++ ascii ['b', 'y', 't', 'e', 'r', 'a', 'n', 'g', 'e']

def versionKey : Bytes := metadataPrefix ++ ascii ['v', 'e', 'r', 's', 'i', 'o', 'n']

def schemaKey : Bytes := metadataPrefix ++ ascii ['s', 'c', 'h', 'e', 'm', 'a']

def indexesKey : Bytes := metadataPrefix ++ ascii ['i', 'n', 'd', 'e', 'x', 'e', 's']

def splitStateKey : Bytes :=
  metadataPrefix ++ ascii ['s', 'p', 'l', 'i', 't', 's', 't', 'a', 't', 'e']

def splitDelta : Bytes :=
  metadataPrefix ++ ascii ['s', 'p', 'l', 'i', 't', 'd', 'e', 'l', 't', 'a', ':']

def splitDeltaSeqKey : Bytes := splitDelta ++ ascii ['s', 'e', 'q']

def splitDeltaFinalSeqKey : Bytes := splitDelta ++ ascii ['f', 'i', 'n', 'a', 'l', 's', 'e', 'q']

def splitDeltaPrefix : Bytes := splitDelta ++ ascii ['e', 'n', 't', 'r', 'y', ':']

def mergeStateKey : Bytes :=
  metadataPrefix ++ ascii ['m', 'e', 'r', 'g', 'e', 's', 't', 'a', 't', 'e']

def mergeDelta : Bytes :=
  metadataPrefix ++ ascii ['m', 'e', 'r', 'g', 'e', 'd', 'e', 'l', 't', 'a', ':']

def mergeDeltaSeqKey : Bytes := mergeDelta ++ ascii ['s', 'e', 'q']

def mergeDeltaFinalSeqKey : Bytes := mergeDelta ++ ascii ['f', 'i', 'n', 'a', 'l', 's', 'e', 'q']

def mergeDeltaPrefix : Bytes := mergeDelta ++ ascii ['e', 'n', 't', 'r', 'y', ':']

def splitDeltaEntryKey (seq : Nat) : Bytes := splitDeltaPrefix ++ encodeUint64Ascending seq

def mergeDeltaEntryKey (seq : Nat) : Bytes := mergeDeltaPrefix ++ encodeUint64Ascending seq

def txnRecordsPrefix : Bytes :=
  ascii ['\x00', '\x00', '_', '_', 't', 'x', 'n', '_', 'r', 'e', 'c', 'o', 'r', 'd', 's', '_',
    '_', ':']

def txnIntentsPrefix : Bytes :=
  ascii ['\x00', '\x00', '_', '_', 't', 'x', 'n', '_', 'i', 'n', 't', 'e', 'n', 't', 's', '_',
    '_', ':']

def makeTxnKey (txnID : Bytes) : Bytes := txnRecordsPrefix ++ txnID

def makeIntentKey (txnID userKey : Bytes) : Bytes :=
  txnIntentsPrefix ++ txnID ++ ascii [':'] ++ userKey

/-- Splits an intent key into its transaction id (a 16-byte UUID) and user key. -/
def parseIntentKey (intentKey : Bytes) : Option (Bytes × Bytes) :=
  if !hasPrefix intentKey txnIntentsPrefix then none
  else
    let remaining := intentKey.drop txnIntentsPrefix.length
    if remaining.length < 17 then none
    else if remaining[16]? ≠ some 58 then none
    else some (remaining.take 16, remaining.drop 17)

end Antfly
