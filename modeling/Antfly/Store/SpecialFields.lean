import Antfly.Lib.Fallible
import Antfly.Store.Types
import Mathlib.Data.List.ReduceOption

/-!
A document may carry `_embeddings`, `_summaries` and `_edges` next to its own fields.  A write
extracts them: each entry becomes an enrichment key of the document, `_edges` also deletes the
stored edges it no longer lists, and the body is stored without the three fields when anything
was extracted.
-/

namespace Antfly

open List

def embeddingsField : Bytes :=
  ascii ['_', 'e', 'm', 'b', 'e', 'd', 'd', 'i', 'n', 'g', 's']

def summariesField : Bytes := ascii ['_', 's', 'u', 'm', 'm', 'a', 'r', 'i', 'e', 's']

def edgesField : Bytes := ascii ['_', 'e', 'd', 'g', 'e', 's']

inductive SpecialFieldError where
  | unmarshal
  | embeddingsNotMap
  | indexNotFound (name : Bytes)
  | indexNoEmbeddings (name : Bytes)
  | manualDeleteNotAllowed (name : Bytes)
  | manualEmbeddingNotAllowed (name : Bytes)
  | sparseNotObject (name : Bytes)
  | invalidSparseTerm (name : Bytes)
  | invalidSparseWeight (name : Bytes)
  | invalidVector (name : Bytes)
  | dimensionMismatch (name : Bytes) (expected got : Nat)
  | summariesNotMap
  | summaryNotString (name : Bytes)
  | edgesNotMap
  | graphIndexNotFound (name : Bytes)
  | notGraphIndex (name : Bytes)
  | edgeTypesNotMap (name : Bytes)
  | edgesNotArray (edgeType : Bytes)
  | edgeNotMap
  | edgeNoTarget
  | edgeTargetNotString
  | encodeEdge
  | marshal
  deriving DecidableEq

/-- What the special fields of one document amount to. -/
structure SpecialFields where
  embeddingWrites : List Write
  summaryWrites : List Write
  edgeWrites : List Write
  indexDeletes : List Bytes
  cleanedJSON : Bytes
  hasNonSpecialFields : Bool
  deriving DecidableEq

section Extract

variable (c : Codec) (db : DBImpl)

/-- The terms of a sparse vector: `{"42": 0.8, "1337": 1.2}`. -/
def sparseTerm (indexName : Bytes) (term : Bytes × Json) :
    Except SpecialFieldError (UInt32 × UInt32) :=
  match c.parseTermID term.1, term.2 with
  | none, _ => .error (.invalidSparseTerm indexName)
  | some id, .num w => .ok (id, c.floatToFloat32 w)
  | some _, _ => .error (.invalidSparseWeight indexName)

/-- A dense vector: an array of numbers, or a base64 string. -/
def denseVector (indexName : Bytes) : Json → Except SpecialFieldError (List UInt32)
  | .arr ev => (c.convertToFloat32Slice ev).elim (.error (.invalidVector indexName)) .ok
  | .str ev => (c.decodeBase64Vector ev).elim (.error (.invalidVector indexName)) .ok
  | _ => .error (.invalidVector indexName)

/-- One entry of `_embeddings`: a write, or the key of a deleted embedding. -/
def extractEmbedding (key indexName : Bytes) (value : Json) :
    Except SpecialFieldError (Write ⊕ Bytes) :=
  match db.indexes.lookup indexName with
  | none => .error (.indexNotFound indexName)
  | some (.embeddings sparse external dimension) =>
    match value with
    | .null =>
      if !external then .error (.manualDeleteNotAllowed indexName)
      else .ok (.inr (if sparse then makeSparseKey key indexName
        else makeEmbeddingKey key indexName))
    | value =>
      if !external then .error (.manualEmbeddingNotAllowed indexName)
      else if sparse then
        match value with
        | .obj terms => do
            let sv ← (c.termOrder key indexName terms).1.mapM (sparseTerm c indexName)
            return .inl (makeSparseKey key indexName,
              List.replicate 8 0 ++ c.encodeSparseVec sv)
        | _ => .error (.sparseNotObject indexName)
      else do
        let embedding ← denseVector c indexName value
        if embedding.length ≠ dimension then
          .error (.dimensionMismatch indexName dimension embedding.length)
        else return .inl (makeEmbeddingKey key indexName, c.encodeEmbedding embedding 0)
  | some _ => .error (.indexNoEmbeddings indexName)

/-- One entry of `_summaries`; a summary for an unknown index is skipped. -/
def extractSummary (key indexName : Bytes) (value : Json) :
    Except SpecialFieldError (Option Write) :=
  match db.indexes.lookup indexName with
  | none => .ok none
  | some _ =>
    match value with
    | .str summaryText =>
      .ok (some (makeSummaryKey key indexName,
        encodeUint64Ascending (c.xxhash summaryText) ++ summaryText))
    | _ => .error (.summaryNotString indexName)

/-- One edge of `_edges`: the target is required, the weight defaults to one. -/
def extractEdge (key indexName edgeType : Bytes) (edgeAny : Json) :
    Except SpecialFieldError Write :=
  match edgeAny with
  | .obj edgeMap =>
    match Obj.get? edgeMap (ascii ['t', 'a', 'r', 'g', 'e', 't']) with
    | none => .error .edgeNoTarget
    | some (.str target) =>
      let weight := match Obj.get? edgeMap (ascii ['w', 'e', 'i', 'g', 'h', 't']) with
        | some (.num w) => w
        | _ => c.floatOne
      let metadata := match Obj.get? edgeMap
          (ascii ['m', 'e', 't', 'a', 'd', 'a', 't', 'a']) with
        | some (.obj m) => some m
        | _ => none
      let edge : Edge :=
        { source := key, target, type := edgeType, weight, createdAt := c.now,
          updatedAt := c.now, metadata }
      match c.encodeEdgeValue edge with
      | none => .error .encodeEdge
      | some edgeValue => .ok (makeEdgeKey key target indexName edgeType, edgeValue)
    | some _ => .error .edgeTargetNotString
  | _ => .error .edgeNotMap

def extractEdgeType (key indexName edgeType : Bytes) (edgesListAny : Json) :
    Except SpecialFieldError (List Write) :=
  match edgesListAny with
  | .arr edgesList => edgesList.mapM (extractEdge c key indexName edgeType)
  | _ => .error (.edgesNotArray edgeType)

def extractIndexEdges (key indexName : Bytes) (edgeTypesAny : Json) :
    Except SpecialFieldError (List Write) :=
  match db.indexes.lookup indexName with
  | none => .error (.graphIndexNotFound indexName)
  | some .graph =>
    match edgeTypesAny with
    | .obj edgeTypesMap => do
        let edges ← edgeTypesMap.mapM fun et => extractEdgeType c key indexName et.1 et.2
        return edges.flatten
    | _ => .error (.edgeTypesNotMap indexName)
  | some _ => .error (.notGraphIndex indexName)

/-- The stored edges of the listed graph indexes that `_edges` does not list any more. -/
def reconcileEdges (key : Bytes) (indexNames : List Bytes) (desiredEdges : List Bytes) :
    List Bytes :=
  indexNames.flatMap fun indexName =>
    let pre := edgeIteratorPrefix key indexName []
    ((db.pdb.scan pre (prefixSuccessor pre)).map Prod.fst).filter fun k => k ∉ desiredEdges

def isSpecialField (name : Bytes) : Bool :=
  name = embeddingsField || name = summariesField || name = edgesField

def fieldEntries (doc : Obj) (name : Bytes) (notMap : SpecialFieldError) :
    Except SpecialFieldError Obj :=
  match doc.get? name with
  | none => .ok []
  | some (.obj entries) => .ok entries
  | some _ => .error notMap

def extractSpecialFields (docJSON key : Bytes) : Except SpecialFieldError SpecialFields := do
  let doc ← (c.unmarshalObj docJSON).elim (.error .unmarshal) .ok
  let embeddingsObj ← fieldEntries doc embeddingsField .embeddingsNotMap
  let extracted ← embeddingsObj.mapM fun e => extractEmbedding c db key e.1 e.2
  let embeddingWrites := extracted.filterMap Sum.getLeft?
  let embeddingDeletes := extracted.filterMap Sum.getRight?
  let summariesObj ← fieldEntries doc summariesField .summariesNotMap
  let summaries ← summariesObj.mapM fun s => extractSummary c db key s.1 s.2
  let summaryWrites := summaries.reduceOption
  let edgesObj ← fieldEntries doc edgesField .edgesNotMap
  let edges ← edgesObj.mapM fun g => extractIndexEdges c db key g.1 g.2
  let edgeWrites := edges.flatten
  let indexDeletes := embeddingDeletes ++
    reconcileEdges db key (edgesObj.map Prod.fst) (edgeWrites.map Prod.fst)
  let hasNonSpecialFields := doc.any fun f => !isSpecialField f.1
  if embeddingWrites.isEmpty && summaryWrites.isEmpty && edgeWrites.isEmpty &&
      indexDeletes.isEmpty then
    -- Nothing was extracted: the document is stored as it came.
    return { embeddingWrites, summaryWrites, edgeWrites, indexDeletes, cleanedJSON := docJSON,
             hasNonSpecialFields }
  else
    let cleaned := doc.filter fun f => !isSpecialField f.1
    let cleanedJSON ← (c.marshalObj cleaned).elim (.error .marshal) .ok
    return { embeddingWrites, summaryWrites, edgeWrites, indexDeletes, cleanedJSON,
             hasNonSpecialFields }

end Extract

section Keys

variable {c : Codec} {db : DBImpl} {key : Bytes}

open Fallible

def IsEmbeddingKeyOf (key x : Bytes) : Prop :=
  ∃ indexName, x = makeEmbeddingKey key indexName ∨ x = makeSparseKey key indexName

variable {indexName : Bytes} {value : Json} {w : Write}

theorem extractEmbedding_key {r : Write ⊕ Bytes}
    (h : extractEmbedding c db key indexName value = .ok r) :
    r.elim Prod.fst id = makeEmbeddingKey key indexName ∨
      r.elim Prod.fst id = makeSparseKey key indexName := by
  unfold extractEmbedding at h
  split at h
  · cases h
  · split at h
    · split at h
      · cases h
      · cases h
        split <;> simp
    · split at h
      · cases h
      · split at h
        · split at h
          · simp only [bind_eq_ok, pure_eq_ok] at h
            obtain ⟨sv, -, rfl⟩ := h
            simp
          · cases h
        · rw [bind_eq_ok] at h
          obtain ⟨embedding, -, h⟩ := h
          split at h
          · cases h
          · rw [pure_eq_ok] at h
            subst h
            simp
  · cases h

theorem extractSummary_key (h : extractSummary c db key indexName value = .ok (some w)) :
    w.1 = makeSummaryKey key indexName := by
  unfold extractSummary at h
  split at h
  · cases h
  · split at h
    · cases h
      rfl
    · cases h

theorem extractEdge_key {edgeType : Bytes} {edgeAny : Json}
    (h : extractEdge c key indexName edgeType edgeAny = .ok w) :
    ∃ target, w.1 = makeEdgeKey key target indexName edgeType := by
  unfold extractEdge at h
  split at h
  · split at h
    · cases h
    · dsimp only at h
      split at h
      · cases h
      · cases h
        exact ⟨_, rfl⟩
    · cases h
  · cases h

theorem extractIndexEdges_key {edgeTypesAny : Json} {ws : List Write}
    (h : extractIndexEdges c db key indexName edgeTypesAny = .ok ws) (hw : w ∈ ws) :
    ∃ target edgeType, w.1 = makeEdgeKey key target indexName edgeType := by
  unfold extractIndexEdges at h
  split at h
  · cases h
  · split at h
    · simp only [bind_eq_ok, pure_eq_ok] at h
      obtain ⟨edges, hedges, rfl⟩ := h
      obtain ⟨es, hes, hwes⟩ := mem_flatten.mp hw
      obtain ⟨et, -, het⟩ := exists_of_mem_mapM hedges hes
      unfold extractEdgeType at het
      split at het
      · obtain ⟨e, -, he⟩ := exists_of_mem_mapM het hwes
        obtain ⟨target, htarget⟩ := extractEdge_key he
        exact ⟨target, et.1, htarget⟩
      · cases het
    · cases h
  · cases h

theorem edgeIteratorPrefix_eq (key indexName : Bytes) :
    edgeIteratorPrefix key indexName [] =
      (key ++ indexMarker ++ indexName ++ ascii [':', 'o', 'u', 't']) ++ [58] := by
  simp [edgeIteratorPrefix, outMarker, ascii]

theorem mem_reconcileEdges {indexNames desired : List Bytes} {x : Bytes} :
    x ∈ reconcileEdges db key indexNames desired ↔
      (∃ indexName ∈ indexNames, edgeIteratorPrefix key indexName [] <+: x) ∧
        (db.get? x).isSome ∧ x ∉ desired := by
  simp only [reconcileEdges, mem_flatMap, mem_filter, mem_map, decide_eq_true_eq]
  constructor
  · rintro ⟨n, hn, ⟨⟨x', v⟩, hscan, rfl⟩, hd⟩
    obtain ⟨hrange, hget⟩ := (OrdMap.mem_scan_iff _ _ _ _ _).mp hscan
    rw [edgeIteratorPrefix_eq, mem_prefix_range_iff (by decide), ← edgeIteratorPrefix_eq] at hrange
    exact ⟨⟨n, hn, hrange⟩, by simp [DBImpl.get?, hget], hd⟩
  · rintro ⟨⟨n, hn, hpre⟩, hsome, hd⟩
    obtain ⟨v, hv⟩ := Option.isSome_iff_exists.mp hsome
    refine ⟨n, hn, ⟨(x, v), (OrdMap.mem_scan_iff _ _ _ _ _).mpr ⟨?_, hv⟩, rfl⟩, hd⟩
    rw [edgeIteratorPrefix_eq, mem_prefix_range_iff (by decide), ← edgeIteratorPrefix_eq]
    exact hpre

/-- Every key the extracted fields of `key` write or delete is an enrichment of `key`. -/
structure SpecialFields.KeysOf (sf : SpecialFields) (key : Bytes) : Prop where
  embeddings : ∀ w ∈ sf.embeddingWrites, IsEmbeddingKeyOf key w.1
  summaries : ∀ w ∈ sf.summaryWrites, ∃ indexName, w.1 = makeSummaryKey key indexName
  edges : ∀ w ∈ sf.edgeWrites, ∃ target indexName edgeType,
    w.1 = makeEdgeKey key target indexName edgeType
  deletes : ∀ d ∈ sf.indexDeletes, IsEmbeddingKeyOf key d ∨
    ∃ indexName, edgeIteratorPrefix key indexName [] <+: d

theorem extractSpecialFields_keysOf {docJSON : Bytes} {sf : SpecialFields}
    (h : extractSpecialFields c db docJSON key = .ok sf) : sf.KeysOf key := by
  simp only [extractSpecialFields, bind_eq_ok] at h
  obtain ⟨doc, -, embeddingsObj, -, extracted, hext, summariesObj, -, summaries, hsum, edgesObj,
    -, edges, hedges, h⟩ := h
  have hfields : sf.embeddingWrites = extracted.filterMap Sum.getLeft? ∧
      sf.summaryWrites = summaries.reduceOption ∧ sf.edgeWrites = edges.flatten ∧
      sf.indexDeletes = extracted.filterMap Sum.getRight? ++
        reconcileEdges db key (edgesObj.map Prod.fst) (edges.flatten.map Prod.fst) := by
    split at h
    · rw [pure_eq_ok] at h
      subst h
      exact ⟨rfl, rfl, rfl, rfl⟩
    · simp only [bind_eq_ok, pure_eq_ok] at h
      obtain ⟨_, -, rfl⟩ := h
      exact ⟨rfl, rfl, rfl, rfl⟩
  obtain ⟨he, hs, hg, hd⟩ := hfields
  refine ⟨?_, ?_, ?_, ?_⟩
  · intro w hw
    rw [he, mem_filterMap] at hw
    obtain ⟨r, hr, hrw⟩ := hw
    obtain ⟨e, -, hex⟩ := exists_of_mem_mapM hext hr
    have hkey : IsEmbeddingKeyOf key (r.elim Prod.fst id) := ⟨e.1, extractEmbedding_key hex⟩
    rw [Sum.getLeft?_eq_some_iff] at hrw
    simpa [hrw] using hkey
  · intro w hw
    rw [hs, reduceOption_mem_iff] at hw
    obtain ⟨e, -, hex⟩ := exists_of_mem_mapM hsum hw
    exact ⟨e.1, extractSummary_key hex⟩
  · intro w hw
    rw [hg] at hw
    obtain ⟨ws, hws, hwws⟩ := mem_flatten.mp hw
    obtain ⟨g, -, hex⟩ := exists_of_mem_mapM hedges hws
    obtain ⟨target, edgeType, hw1⟩ := extractIndexEdges_key hex hwws
    exact ⟨target, g.1, edgeType, hw1⟩
  · intro d hdm
    rw [hd, mem_append] at hdm
    rcases hdm with hdm | hdm
    · rw [mem_filterMap] at hdm
      obtain ⟨r, hr, hrd⟩ := hdm
      obtain ⟨e, -, hex⟩ := exists_of_mem_mapM hext hr
      have hkey : IsEmbeddingKeyOf key (r.elim Prod.fst id) := ⟨e.1, extractEmbedding_key hex⟩
      rw [Sum.getRight?_eq_some_iff] at hrd
      left
      simpa [hrd] using hkey
    · obtain ⟨⟨n, -, hpre⟩, -⟩ := mem_reconcileEdges.mp hdm
      exact Or.inr ⟨n, hpre⟩

end Keys

/-- The textual test that decides whether a document is decoded at all. -/
def mentionsSpecialFields (docJSON : Bytes) : Bool :=
  contains docJSON (ascii ['"'] ++ embeddingsField ++ ascii ['"']) ||
    contains docJSON (ascii ['"'] ++ summariesField ++ ascii ['"']) ||
    contains docJSON (ascii ['"'] ++ edgesField ++ ascii ['"'])

/-- Timestamps are kept for documents and edges, not for metadata and enrichments. -/
def shouldWriteTimestamp (key : Bytes) : Bool :=
  !hasPrefix key metadataPrefix && !hasSuffix key embeddingSuffix &&
    !hasSuffix key summarySuffix && !hasSuffix key sparseSuffix

/-- The timestamp key of `key`, written when there is a timestamp and `key` takes one. -/
def timestampOps (key : Bytes) (timestamp : Nat) : List PebbleOp :=
  if 0 < timestamp && shouldWriteTimestamp key then
    [.set (timestampKey key) (.uint64 timestamp)]
  else []

def rawSet (w : Write) : PebbleOp := .set w.1 (.raw w.2)

/-- The batch operations of the extracted fields. -/
def SpecialFields.ops (sf : SpecialFields) (timestamp : Nat) : List PebbleOp :=
  sf.embeddingWrites.map rawSet ++ sf.summaryWrites.map rawSet ++
    (sf.edgeWrites.flatMap fun w => rawSet w :: timestampOps w.1 timestamp) ++
    sf.indexDeletes.map .delete

/-- `none` when the document mentions no special field. -/
def extractAndWriteSpecialFields (c : Codec) (db : DBImpl) (docJSON docKey : Bytes) :
    Except SpecialFieldError (Option SpecialFields) :=
  if !mentionsSpecialFields docJSON then .ok none
  else do
    let sf ← extractSpecialFields c db docJSON docKey
    return some sf

/-- Special fields depend on the registered indexes and on the stored enrichments of the id. -/
theorem extractAndWriteSpecialFields_congr {c : Codec} {db db' : DBImpl} {u value : Bytes}
    (hidx : db.indexes = db'.indexes)
    (h : ∀ x, u ++ indexMarker <+: x → db.get? x = db'.get? x) :
    extractAndWriteSpecialFields c db value u = extractAndWriteSpecialFields c db' value u := by
  have hembeddings : ∀ n j, extractEmbedding c db u n j = extractEmbedding c db' u n j := by
    intro n j
    simp only [extractEmbedding, hidx]
  have hsummaries : ∀ n j, extractSummary c db u n j = extractSummary c db' u n j := by
    intro n j
    simp only [extractSummary, hidx]
  have hedges : ∀ n j, extractIndexEdges c db u n j = extractIndexEdges c db' u n j := by
    intro n j
    simp only [extractIndexEdges, hidx]
  have hreconcile : ∀ ns ds, reconcileEdges db u ns ds = reconcileEdges db' u ns ds := by
    intro ns ds
    unfold reconcileEdges
    refine flatMap_congr fun n _ => ?_
    dsimp only
    rw [OrdMap.scan_congr fun x hl hr => h x ?_]
    rw [edgeIteratorPrefix_eq] at hl hr
    refine List.IsPrefix.trans ?_ ((mem_prefix_range_iff (by decide)).mp ⟨hl, hr⟩)
    exact ⟨n ++ ascii [':', 'o', 'u', 't'] ++ [58], by simp⟩
  unfold extractAndWriteSpecialFields extractSpecialFields
  simp only [hembeddings, hsummaries, hedges, hreconcile]

end Antfly
