import Antfly.Indexes.KeyCodecs
import Antfly.Lib.MarkedStream

/-!
`ScanForEnrichment` goes once through the storage keys of a range.  The items are documents or
summaries, told by the suffix of their keys; the enrichments of one index are told by another one.
An item is put into the next batch when the next key of an item comes and no enrichment of it has
been seen by then.

Values are bytes here.  What zstd and JSON make of a body is a parameter.
-/

namespace Antfly.Enrichment

structure DocumentScanState where
  currentDocKey : Bytes
  document : Option Obj
  enrichment : Option Bytes
  enrichmentHashID : ℕ

structure EnrichmentScanOptions (ε : Type) where
  /-- `none` is unbounded. -/
  byteRange : Option Bytes × Option Bytes
  /-- `none` is the suffix of documents. -/
  primarySuffix : Option Bytes
  enrichmentSuffix : Bytes
  batchSize : ℕ
  processBatch : List DocumentScanState → Except ε Unit

inductive EnrichmentScanError (ε : Type) where
  | decompressing (itemKey : Bytes)
  | decoding (itemKey : Bytes)
  | processBatch (err : ε)

def isDudEnrichment (value : Bytes) : Bool := decide (value = dudEnrichmentValue)

def extractDocKeyFromChunk (chunkKey : Bytes) : Option Bytes :=
  (parseChunkKey chunkKey).map Prod.fst

structure EnrichmentScan where
  batch : List DocumentScanState
  currentDoc : Option DocumentScanState
  hasEnrichment : Bool
  seenEnrichments : Bytes → Bool
  seenEnrichmentHashIDs : Bytes → Option ℕ
  /-- The batches given to `ProcessBatch`. -/
  processed : List (List DocumentScanState)

section Scan

variable {ε : Type} (decompress : Bytes → Option Bytes) (decodeJSON : Bytes → Option Obj)
  (opts : EnrichmentScanOptions ε)

def itemSuffix : Bytes := opts.primarySuffix.getD dbRangeStart

def scanningDocuments : Bool := decide (itemSuffix opts = dbRangeStart)

def inByteRange (key : Bytes) : Bool :=
  (opts.byteRange.1.all fun lower => decide (lower ≤ key)) &&
    opts.byteRange.2.all fun upper => decide (key < upper)

def skipPoint (userKey : Bytes) : Bool :=
  hasPrefix userKey metadataPrefix ||
    (!hasSuffix userKey (itemSuffix opts) && !hasSuffix userKey opts.enrichmentSuffix)

/-- The entries that the iteration shows. -/
def scannedEntries (db : OrdMap Bytes Bytes) : List (Bytes × Bytes) :=
  db.entries.filter fun e => inByteRange opts e.1 && !skipPoint opts e.1

def flushBatch (s : EnrichmentScan) : Except (EnrichmentScanError ε) EnrichmentScan :=
  if s.batch = [] then .ok s
  else
    match opts.processBatch s.batch with
    | .error err => .error (.processBatch err)
    | .ok () => .ok { s with batch := [], processed := s.processed ++ [s.batch] }

/-- The current item goes into the batch if it needs the enrichment. -/
def reportCurrent (s : EnrichmentScan) : Except (EnrichmentScanError ε) EnrichmentScan :=
  match s.currentDoc with
  | none => .ok s
  | some currentDoc =>
    if s.hasEnrichment then .ok s
    else
      let s := { s with batch := s.batch ++ [currentDoc] }
      if opts.batchSize ≤ s.batch.length then flushBatch opts s else .ok s

/-- The item of a key; `none` for a summary that is too short. -/
def readItem (key value : Bytes) : Except (EnrichmentScanError ε) (Option DocumentScanState) :=
  let itemKey := trimSuffix key (itemSuffix opts)
  if scanningDocuments opts then
    match decompress value with
    | none => .error (.decompressing itemKey)
    | some decompressed =>
      match decodeJSON decompressed with
      | none => .error (.decoding itemKey)
      | some doc => .ok (some {
          currentDocKey := itemKey
          document := some doc
          enrichment := none
          enrichmentHashID := 0 })
  else if value.length < 8 then .ok none
  else .ok (some {
    currentDocKey := itemKey
    document := none
    enrichment := some (value.drop 8)
    enrichmentHashID := 0 })

/-- The item becomes the current one; an enrichment seen before it counts. -/
def startItem (s : EnrichmentScan) (doc : DocumentScanState) : EnrichmentScan :=
  let itemKey := doc.currentDocKey
  if s.seenEnrichments itemKey then
    { s with
      currentDoc := some { doc with
        enrichmentHashID := (s.seenEnrichmentHashIDs itemKey).getD doc.enrichmentHashID }
      hasEnrichment := true
      seenEnrichments := Function.update s.seenEnrichments itemKey false
      seenEnrichmentHashIDs := Function.update s.seenEnrichmentHashIDs itemKey none }
  else { s with currentDoc := some doc, hasEnrichment := false }

def enrichmentHashID (value : Bytes) : ℕ :=
  if hasSuffix opts.enrichmentSuffix embeddingSuffix then
    if 12 ≤ value.length then (decodeUint64Ascending value).getD 0 else 0
  else if hasSuffix opts.enrichmentSuffix summarySuffix then
    if 8 ≤ value.length then (decodeUint64Ascending value).getD 0 else 0
  else 0

/-- The item that the key of an enrichment is taken to belong to. -/
def matchKey (key : Bytes) : Bytes :=
  let baseKey := trimSuffix key opts.enrichmentSuffix
  (extractDocKeyFromChunk baseKey).getD baseKey

def rememberEnrichment (s : EnrichmentScan) (key : Bytes) (hashID : ℕ) : EnrichmentScan :=
  { s with
    seenEnrichments := Function.update s.seenEnrichments key true
    seenEnrichmentHashIDs :=
      if hashID = 0 then s.seenEnrichmentHashIDs
      else Function.update s.seenEnrichmentHashIDs key (some hashID) }

def visitEnrichment (s : EnrichmentScan) (key value : Bytes) : EnrichmentScan :=
  let matchKey := matchKey opts key
  let hashID := enrichmentHashID opts value
  if isDudEnrichment value then s
  else
    match s.currentDoc with
    | some currentDoc =>
      if matchKey = currentDoc.currentDocKey then
        { s with
          hasEnrichment := true
          currentDoc := some { currentDoc with enrichmentHashID := hashID } }
      else rememberEnrichment s matchKey hashID
    | none => rememberEnrichment s matchKey hashID

def visitEntry (s : EnrichmentScan) (entry : Bytes × Bytes) :
    Except (EnrichmentScanError ε) EnrichmentScan :=
  if hasSuffix entry.1 (itemSuffix opts) then
    match reportCurrent opts s with
    | .error err => .error err
    | .ok s =>
      match readItem decompress decodeJSON opts entry.1 entry.2 with
      | .error err => .error err
      | .ok none => .ok s
      | .ok (some doc) => .ok (startItem s doc)
  else if hasSuffix entry.1 opts.enrichmentSuffix then
    .ok (visitEnrichment opts s entry.1 entry.2)
  else .ok s

def startScan : EnrichmentScan where
  batch := []
  currentDoc := none
  hasEnrichment := false
  seenEnrichments := fun _ => false
  seenEnrichmentHashIDs := fun _ => none
  processed := []

/-- The last item, and what is left in the batch. -/
def finishScan (s : EnrichmentScan) : Except (EnrichmentScanError ε) EnrichmentScan :=
  flushBatch opts
    (if s.hasEnrichment then s else { s with batch := s.batch ++ s.currentDoc.toList })

/-- `ScanForEnrichment`, with the batches that it has processed. -/
def scanForEnrichment (db : OrdMap Bytes Bytes) :
    Except (EnrichmentScanError ε) (List (List DocumentScanState)) :=
  match (scannedEntries opts db).foldlM (visitEntry decompress decodeJSON opts) startScan with
  | .error err => .error err
  | .ok s => (finishScan opts s).map EnrichmentScan.processed

end Scan

end Antfly.Enrichment
