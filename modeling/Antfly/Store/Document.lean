import Antfly.Store.SpecialFields

/-!
`DBImpl.Get` decodes the stored body of a document and puts its stored embeddings and summaries
back as the fields `_embeddings` and `_summaries`.  An expired document counts as missing.
-/

namespace Antfly

inductive GetError where
  | notFound
  | decode
  deriving DecidableEq

/-- The value of an enrichment that was marked as impossible to compute. -/
def dudEnrichmentValue : Bytes := [0xDD]

/-- What follows the last `:i:` of a key suffix. -/
def afterLastIndexMarker : Bytes → Option Bytes
  | [] => none
  | b :: rest =>
    match afterLastIndexMarker rest with
    | some name => some name
    | none => if indexMarker.isPrefixOf (b :: rest) then some ((b :: rest).drop 3) else none

def enrichmentIndexName (key entryKey : Bytes) : Option Bytes :=
  afterLastIndexMarker ((entryKey.drop key.length).dropLast.dropLast)

section Get

variable (c : Codec)

/-- The embedding an iterated entry holds, if it holds one. -/
def entryEmbedding (key : Bytes) (e : Bytes × Stored) : Except GetError (Option (Bytes × Json)) :=
  if !hasSuffix e.1 embeddingSuffix then .ok none
  else
    match enrichmentIndexName key e.1, e.2 with
    | none, _ => .ok none
    | some name, .raw v =>
      if v = dudEnrichmentValue then .ok none
      else
        match c.decodeEmbedding v with
        | some emb => .ok (some (name, emb))
        | none => .error .decode
    | some _, _ => .error .decode

/-- The summary an iterated entry holds, if it holds one; the first eight bytes are its hash. -/
def entrySummary (key : Bytes) (e : Bytes × Stored) : Except GetError (Option (Bytes × Json)) :=
  if !hasSuffix e.1 summarySuffix || e.2 = .raw dudEnrichmentValue then .ok none
  else
    match enrichmentIndexName key e.1, e.2 with
    | none, _ => .ok none
    | some name, .raw v => if v.length < 8 then .error .decode else .ok (some (name, .str (v.drop 8)))
    | some _, _ => .error .decode

/-- Puts the read-back enrichments into the document, as a map of another static type. -/
def injectField (doc : Obj) (field : Bytes) (entries : List (Bytes × Json)) : Obj :=
  if entries.isEmpty then doc
  else doc.set field (.foreign (.obj (entries.foldl (fun o e => Obj.set o e.1 e.2) [])))

/-- `isDocumentExpiredByTimestamp`, which reads the key `<key>:t`. -/
def isDocumentExpired (db : DBImpl) (key : Bytes) : Except GetError Bool :=
  if db.cachedTTLDuration = 0 then .ok false
  else
    match db.get? (timestampKey key) with
    | none => .ok false
    | some (.uint64 ts) => .ok (decide (ts + db.cachedTTLDuration < c.now))
    | some (.raw b) =>
      match decodeUint64Ascending b with
      | some ts => .ok (decide (ts + db.cachedTTLDuration < c.now))
      | none => .error .decode
    | some _ => .error .decode

/-- The entries an iterator over the keys of a document shows. -/
def documentEntries (db : DBImpl) (key : Bytes) : List (Bytes × Stored) :=
  db.pdb.scan (keyRangeStart key) (prefixSuccessor (keyRangeEnd key))

/-- `DBImpl.Get` with all embeddings and summaries. -/
def getDocument (db : DBImpl) (key : Bytes) : Except GetError Obj :=
  match documentEntries db key with
  | [] => .error .notFound
  | (k, v) :: rest =>
    if k ≠ keyRangeStart key then .error .notFound
    else
      match v with
      | .zstd body =>
        match c.unmarshalObj body with
        | none => .error .decode
        | some doc => do
            let embeddings ← rest.mapM (entryEmbedding c key)
            let summaries ← rest.mapM (entrySummary key)
            let expired ← isDocumentExpired c db key
            if expired then .error .notFound
            else
              return injectField
                (injectField doc embeddingsField embeddings.reduceOption)
                summariesField summaries.reduceOption
      | _ => .error .decode

theorem getDocument_congr {db db' : DBImpl} {key : Bytes}
    (httl : db.cachedTTLDuration = db'.cachedTTLDuration)
    (hts : db.get? (timestampKey key) = db'.get? (timestampKey key))
    (h : ∀ x, keyRangeStart key ≤ x → x < prefixSuccessor (keyRangeEnd key) →
      db.get? x = db'.get? x) :
    getDocument c db key = getDocument c db' key := by
  have hentries : documentEntries db key = documentEntries db' key := OrdMap.scan_congr h
  have hexpired : isDocumentExpired c db key = isDocumentExpired c db' key := by
    simp only [isDocumentExpired, httl, hts]
  simp only [getDocument, hentries, hexpired]

end Get

end Antfly
