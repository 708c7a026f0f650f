import Antfly.Store.EnrichmentScan

/-!
The enrichments of an index belong to an item or to a chunk of it.  A scan is exact if it reports
the items of the range without an enrichment once, and the others never.
-/

namespace Antfly.Enrichment

/-- An enrichment of one index: of the item itself, or of a chunk of it. -/
inductive Artefact where
  | own (item : Bytes)
  | chunk (kind : ChunkKind) (item indexName : Bytes) (chunkID : UInt32)

def Artefact.item : Artefact → Bytes
  | own item => item
  | chunk _ item _ _ => item

def Artefact.key (enrichmentSuffix : Bytes) : Artefact → Bytes
  | own item => item ++ enrichmentSuffix
  | chunk kind item indexName chunkID => kind.makeKey item indexName chunkID ++ enrichmentSuffix

/-- The values of a store, and what the enrichments of an index were written as. -/
structure EnrichedStore (enrichmentSuffix : Bytes) where
  db : OrdMap Bytes Bytes
  artefactAt : Bytes → Option Artefact
  artefact_key : ∀ key a, artefactAt key = some a → a.key enrichmentSuffix = key

section Spec

variable {ε : Type} (decompress : Bytes → Option Bytes) (decodeJSON : Bytes → Option Obj)
  (opts : EnrichmentScanOptions ε)

/-- The item has an enrichment that is not the dud marker. -/
def Enriched {enrichmentSuffix : Bytes} (store : EnrichedStore enrichmentSuffix) (item : Bytes) :
    Prop :=
  ∃ key value a, store.db.get? key = some value ∧ store.artefactAt key = some a ∧
    a.item = item ∧ isDudEnrichment value = false

/-- The keys of items in the range. -/
def IsPrimaryKey (db : OrdMap Bytes Bytes) (key : Bytes) : Prop :=
  (∃ value, db.get? key = some value) ∧ inByteRange opts key = true ∧
    hasPrefix key metadataPrefix = false ∧ hasSuffix key (itemSuffix opts) = true

/-- The documents or summaries of the range, as they are reported. -/
def IsItem (db : OrdMap Bytes Bytes) (key : Bytes) (doc : DocumentScanState) : Prop :=
  IsPrimaryKey opts db key ∧
    ∃ value, db.get? key = some value ∧
      readItem decompress decodeJSON opts key value = .ok (some doc)

/-- The items without an enrichment are reported once, the others never. -/
structure ExactBatches (store : EnrichedStore opts.enrichmentSuffix)
    (batches : List (List DocumentScanState)) : Prop where
  size : ∀ batch ∈ batches, batch.length ≤ opts.batchSize
  stored : ∀ doc ∈ batches.flatten, ∃ key, IsItem decompress decodeJSON opts store.db key doc
  once : ∀ key doc, IsItem decompress decodeJSON opts store.db key doc →
    ¬ Enriched store doc.currentDocKey →
      batches.flatten.countP (fun d => d.currentDocKey = doc.currentDocKey) = 1
  never : ∀ key doc, IsItem decompress decodeJSON opts store.db key doc →
    Enriched store doc.currentDocKey → ∀ d ∈ batches.flatten, d.currentDocKey ≠ doc.currentDocKey

/-- A key in the range that the scan takes for an enrichment of the item. -/
def CountsFor (db : OrdMap Bytes Bytes) (key item : Bytes) : Prop :=
  (∃ value, db.get? key = some value ∧ isDudEnrichment value = false) ∧
    inByteRange opts key = true ∧ hasPrefix key metadataPrefix = false ∧
    hasSuffix key (itemSuffix opts) = false ∧ hasSuffix key opts.enrichmentSuffix = true ∧
    matchKey opts key = item

/-- A key that counts for the item comes before the next key of an item after `key`. -/
def CountsBeforeNext (db : OrdMap Bytes Bytes) (key item : Bytes) : Prop :=
  ∃ mark, CountsFor opts db mark item ∧
    ∀ next, IsPrimaryKey opts db next → key < next → mark < next

/-- The key of a summary that is too short, or of a document that cannot be read. -/
def IsMalformed (db : OrdMap Bytes Bytes) (key : Bytes) : Prop :=
  IsPrimaryKey opts db key ∧ ∀ doc, ¬ IsItem decompress decodeJSON opts db key doc

/-- The condition on the store. -/
structure ScansInTime (store : EnrichedStore opts.enrichmentSuffix) : Prop where
  decodes : ∀ key value, IsPrimaryKey opts store.db key → store.db.get? key = some value →
    ∃ doc, readItem decompress decodeJSON opts key value = .ok doc
  batchSize : opts.batchSize = 0 → ∀ key doc, IsItem decompress decodeJSON opts store.db key doc →
    Enriched store doc.currentDocKey
  counts : ∀ key doc, IsItem decompress decodeJSON opts store.db key doc →
    (Enriched store doc.currentDocKey ↔ CountsBeforeNext opts store.db key doc.currentDocKey)
  malformed : ∀ key doc, IsItem decompress decodeJSON opts store.db key doc →
    ¬ Enriched store doc.currentDocKey →
    ∀ next, IsMalformed decompress decodeJSON opts store.db next → key < next →
      (∀ other, IsPrimaryKey opts store.db other → key < other → next ≤ other) →
      CountsBeforeNext opts store.db next doc.currentDocKey

end Spec

end Antfly.Enrichment
