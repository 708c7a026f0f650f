import Antfly.Store.SpecialFields

/-!
The special fields of a document are a declaration: for each graph index that `_edges` names, its
edges are to be the stored ones of the document, with their timestamps; the embeddings and the
summaries are to be stored, and the body is to have none of the three fields.  When a document is
written several times, each index follows the last of the writes that names it.
-/

namespace Antfly

open Fallible

section Listing

variable (c : Codec) (db : DBImpl) (key : Bytes)

/-- The entries of a special field of a document. -/
def specialEntries (json name : Bytes) : Obj :=
  match (c.unmarshalObj json).bind (Obj.get? · name) with
  | some (.obj entries) => entries
  | _ => []

/-- The document names an entry of a special field. -/
def Names (field json name : Bytes) : Prop :=
  name ∈ (specialEntries c json field).map Prod.fst

/-- The edges a document lists for a graph index, as keys with their values. -/
def declaredEdges (json indexName : Bytes) : List Write :=
  ((specialEntries c json edgesField).filter fun g => g.1 = indexName).flatMap fun g =>
    getD (extractIndexEdges c db key g.1 g.2) []

def summaryValue (text : Bytes) : Bytes := encodeUint64Ascending (c.xxhash text) ++ text

def NoSpecialFields (json : Bytes) : Prop :=
  ∀ doc, c.unmarshalObj json = some doc → ∀ f ∈ doc, isSpecialField f.1 = false

/-- The special fields of a document say something that is to be written or deleted. -/
def Extracts (json : Bytes) : Prop :=
  specialEntries c json embeddingsField ≠ [] ∨
    (∃ s ∈ specialEntries c json summariesField, db.indexes.lookup s.1 ≠ none) ∨
    (∃ indexName, declaredEdges c db key json indexName ≠ []) ∨
    ∃ indexName, Names c edgesField json indexName ∧
      ∃ x, edgeIteratorPrefix key indexName [] <+: x ∧ db.get? x ≠ none

end Listing

structure EdgesAre (get : Bytes → Option Stored) (key indexName : Bytes) (ts : Nat)
    (listed : List Write) : Prop where
  stored : ∀ w ∈ listed, get w.1 = some (.raw w.2) ∧ get (timestampKey w.1) = some (.uint64 ts)
  removed : ∀ target type, makeEdgeKey key target indexName type ∉ listed.map Prod.fst →
    get (makeEdgeKey key target indexName type) = none ∧
      get (timestampKey (makeEdgeKey key target indexName type)) = none

/-- A stored body that has none of the special fields. -/
def CleanBody (c : Codec) (body : Option Stored) : Prop :=
  ∀ json, body = some (.zstd json) → NoSpecialFields c json

/-- `json` is the last of the documents with a property, after those of `before`. -/
structure LastWith (p : Bytes → Prop) (docs before : List Bytes) (json : Bytes) : Prop where
  holds : p json
  last : ∃ after, docs = before ++ json :: after ∧ ∀ later ∈ after, ¬ p later

section Declaration

variable (c : Codec) (db : DBImpl) (key : Bytes) (ts : Nat)

/-- What the documents that are written under `key` are to leave of their special fields. -/
structure Declarative (get : Bytes → Option Stored) (docs : List Bytes) : Prop where
  edges : ∀ before json indexName,
    LastWith (Names c edgesField · indexName) docs before json →
      EdgesAre get key indexName ts (declaredEdges c db key json indexName)
  embeddings : ∀ before json e, e ∈ specialEntries c json embeddingsField →
    LastWith (Names c embeddingsField · e.1) docs before json →
      ∀ w, extractEmbedding c db key e.1 e.2 = .ok (.inl w) → get w.1 = some (.raw w.2)
  summaries : ∀ before json s, s ∈ specialEntries c json summariesField →
    LastWith (Names c summariesField · s.1) docs before json →
      ∀ text, s.2 = .str text →
        get (makeSummaryKey key s.1) = some (.raw (summaryValue c text))
  body : CleanBody c (get (keyRangeStart key))

/-- When the store follows the declaration: no listed edge has a stored timestamp, none is listed
with two values, an edge that a document of the same batch brought and a later one leaves out was
stored before; summaries are listed for registered indexes; and the body that is stored last comes
from a document whose special fields are not all void. -/
structure DeclarativeWhen (storesBody : Bytes → Bool) (docs : List Bytes) : Prop where
  fresh : ∀ before json indexName,
    LastWith (Names c edgesField · indexName) docs before json →
      ∀ w ∈ declaredEdges c db key json indexName, db.get? (timestampKey w.1) = none
  consistent : ∀ before json indexName,
    LastWith (Names c edgesField · indexName) docs before json →
      ∀ w ∈ declaredEdges c db key json indexName, ∀ w' ∈ declaredEdges c db key json indexName,
        w.1 = w'.1 → w.2 = w'.2
  replaced : ∀ before json indexName,
    LastWith (Names c edgesField · indexName) docs before json →
      ∀ earlier ∈ before, ∀ w ∈ declaredEdges c db key earlier indexName,
        w.1 ∉ (declaredEdges c db key json indexName).map Prod.fst →
          db.get? w.1 ≠ none ∧ db.get? (timestampKey w.1) ≠ none
  registered : ∀ before json s, s ∈ specialEntries c json summariesField →
    LastWith (Names c summariesField · s.1) docs before json →
      ∀ text, s.2 = .str text → db.indexes.lookup s.1 ≠ none ∨
        db.get? (makeSummaryKey key s.1) = some (.raw (summaryValue c text))
  cleaned : ∀ before json, LastWith (storesBody · = true) docs before json →
    NoSpecialFields c json ∨ Extracts c db key json
  kept : (∀ json ∈ docs, storesBody json = false) → CleanBody c (db.get? (keyRangeStart key))

end Declaration

section Extracted

variable {c : Codec} {db : DBImpl} {key json : Bytes}

theorem fieldEntries_eq_ok {doc : Obj} {name : Bytes} {notMap : SpecialFieldError} {entries : Obj}
    (hdoc : c.unmarshalObj json = some doc) (h : fieldEntries doc name notMap = .ok entries) :
    specialEntries c json name = entries := by
  unfold specialEntries
  rw [hdoc, Option.bind_some]
  unfold fieldEntries at h
  cases hget : doc.get? name with
  | none =>
    rw [hget] at h
    exact Except.ok.inj h
  | some v =>
    rw [hget] at h
    cases v with
    | obj o => exact Except.ok.inj h
    | _ => cases h

/-- What the extraction of a document finds, by the entries of its special fields. -/
structure Extracted (c : Codec) (db : DBImpl) (key json : Bytes) (sf : SpecialFields) : Prop where
  embeddings : ∀ e ∈ specialEntries c json embeddingsField, ∃ r,
    extractEmbedding c db key e.1 e.2 = .ok r
  mem_embeddingWrites : ∀ w, w ∈ sf.embeddingWrites ↔
    ∃ e ∈ specialEntries c json embeddingsField, extractEmbedding c db key e.1 e.2 = .ok (.inl w)
  summaries : ∀ s ∈ specialEntries c json summariesField, ∃ r,
    extractSummary c db key s.1 s.2 = .ok r
  mem_summaryWrites : ∀ w, w ∈ sf.summaryWrites ↔
    ∃ s ∈ specialEntries c json summariesField, extractSummary c db key s.1 s.2 = .ok (some w)
  edges : ∀ g ∈ specialEntries c json edgesField, ∃ ws, extractIndexEdges c db key g.1 g.2 = .ok ws
  mem_edgeWrites : ∀ w, w ∈ sf.edgeWrites ↔
    ∃ indexName, w ∈ declaredEdges c db key json indexName
  mem_indexDeletes : ∀ d, d ∈ sf.indexDeletes ↔
    (∃ e ∈ specialEntries c json embeddingsField,
      extractEmbedding c db key e.1 e.2 = .ok (.inr d)) ∨
    d ∈ reconcileEdges db key ((specialEntries c json edgesField).map Prod.fst)
      (sf.edgeWrites.map Prod.fst)
  body : ∃ doc, c.unmarshalObj json = some doc ∧
    (sf.hasNonSpecialFields = true ↔ ∃ f ∈ doc, isSpecialField f.1 = false) ∧
    if sf.embeddingWrites = [] ∧ sf.summaryWrites = [] ∧ sf.edgeWrites = [] ∧ sf.indexDeletes = []
      then sf.cleanedJSON = json
      else c.marshalObj (doc.filter fun f => !isSpecialField f.1) = some sf.cleanedJSON

theorem mem_filterMap_mapM {α β γ ε : Type} {f : α → Except ε β} {g : β → Option γ} {xs : List α}
    {ys : List β} (h : xs.mapM f = .ok ys) {z : γ} :
    z ∈ ys.filterMap g ↔ ∃ x ∈ xs, ∃ y, f x = .ok y ∧ g y = some z := by
  rw [List.mem_filterMap]
  constructor
  · rintro ⟨y, hy, hz⟩
    obtain ⟨x, hx, hfx⟩ := exists_of_mem_mapM h hy
    exact ⟨x, hx, y, hfx, hz⟩
  · rintro ⟨x, hx, y, hfx, hz⟩
    obtain ⟨y', hy', hfx'⟩ := exists_mem_of_mapM h hx
    obtain rfl := Except.ok.inj (hfx'.symm.trans hfx)
    exact ⟨y', hy', hz⟩

theorem exists_mem_declaredEdges {w : Write} :
    (∃ indexName, w ∈ declaredEdges c db key json indexName) ↔
      ∃ g ∈ specialEntries c json edgesField,
        w ∈ getD (extractIndexEdges c db key g.1 g.2) [] := by
  simp only [declaredEdges, List.mem_flatMap, List.mem_filter, decide_eq_true_eq]
  constructor
  · rintro ⟨indexName, g, ⟨hg, -⟩, hw⟩
    exact ⟨g, hg, hw⟩
  · rintro ⟨g, hg, hw⟩
    exact ⟨g.1, g, ⟨hg, rfl⟩, hw⟩

theorem extractSpecialFields_extracted {sf : SpecialFields}
    (h : extractSpecialFields c db json key = .ok sf) : Extracted c db key json sf := by
  simp only [extractSpecialFields, bind_eq_ok] at h
  obtain ⟨doc, hdoc, embeddingsObj, hembObj, extracted, hext, summariesObj, hsumObj, summaries,
    hsum, edgesObj, hedgesObj, edges, hedges, h⟩ := h
  rw [elim_eq_ok] at hdoc
  obtain rfl := fieldEntries_eq_ok hdoc hembObj
  obtain rfl := fieldEntries_eq_ok hdoc hsumObj
  obtain rfl := fieldEntries_eq_ok hdoc hedgesObj
  have hfields : sf.embeddingWrites = extracted.filterMap Sum.getLeft? ∧
      sf.summaryWrites = summaries.reduceOption ∧ sf.edgeWrites = edges.flatten ∧
      sf.indexDeletes = extracted.filterMap Sum.getRight? ++
        reconcileEdges db key ((specialEntries c json edgesField).map Prod.fst)
          (sf.edgeWrites.map Prod.fst) ∧
      sf.hasNonSpecialFields = doc.any (fun f => !isSpecialField f.1) ∧
      if sf.embeddingWrites = [] ∧ sf.summaryWrites = [] ∧ sf.edgeWrites = [] ∧
          sf.indexDeletes = []
        then sf.cleanedJSON = json
        else c.marshalObj (doc.filter fun f => !isSpecialField f.1) = some sf.cleanedJSON := by
    split at h
    · next hempty =>
        rw [pure_eq_ok] at h
        subst h
        simp only [Bool.and_eq_true, List.isEmpty_iff] at hempty
        obtain ⟨⟨⟨hemb, hsumm⟩, hedge⟩, hdel⟩ := hempty
        refine ⟨rfl, rfl, rfl, rfl, rfl, ?_⟩
        rw [if_pos ⟨hemb, hsumm, hedge, hdel⟩]
    · next hempty =>
        simp only [bind_eq_ok, pure_eq_ok] at h
        obtain ⟨cleaned, hcleaned, rfl⟩ := h
        refine ⟨rfl, rfl, rfl, rfl, rfl, ?_⟩
        rw [if_neg]
        · exact elim_eq_ok.mp hcleaned
        · rintro ⟨hemb, hsumm, hedge, hdel⟩
          refine hempty ?_
          simp only [Bool.and_eq_true, List.isEmpty_iff]
          exact ⟨⟨⟨hemb, hsumm⟩, hedge⟩, hdel⟩
  obtain ⟨he, hs, hg, hd, hnon, hbody⟩ := hfields
  refine ⟨fun e hmem => (exists_mem_of_mapM hext hmem).imp fun r hr => hr.2, fun w => ?_,
    fun s hmem => (exists_mem_of_mapM hsum hmem).imp fun r hr => hr.2, fun w => ?_,
    fun g hmem => (exists_mem_of_mapM hedges hmem).imp fun ws hws => hws.2, fun w => ?_,
    fun d => ?_, doc, hdoc, ?_, hbody⟩
  · rw [he, mem_filterMap_mapM hext]
    simp only [Sum.getLeft?_eq_some_iff, exists_eq_right]
  · rw [hs, List.reduceOption_mem_iff]
    constructor
    · exact fun hmem => exists_of_mem_mapM hsum hmem
    · rintro ⟨s, hmem, hw⟩
      obtain ⟨r, hr, hfr⟩ := exists_mem_of_mapM hsum hmem
      exact Except.ok.inj (hfr.symm.trans hw) ▸ hr
  · rw [hg, flatten_of_mapM hedges, List.mem_flatMap]
    exact exists_mem_declaredEdges.symm
  · rw [hd, List.mem_append, mem_filterMap_mapM hext]
    simp only [Sum.getRight?_eq_some_iff, exists_eq_right]
  · rw [hnon, List.any_eq_true]
    simp only [Bool.not_eq_true']

end Extracted

end Antfly
