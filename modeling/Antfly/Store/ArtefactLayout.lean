import Antfly.Store.RetrieveDocument

/-!
A shard stores documents and artefacts: embeddings, summaries and chunks of documents, and those
derived from chunks and summaries.  Which of them are stored is its layout.  Reading a document back
is exact when, whatever the values are and in whatever order they were written, it gives the
artefacts of that document and no others, each under its index name.
-/

namespace Antfly

open List OrdMap

inductive ArtefactKind where
  | embedding
  | summary
  | chunk (kind : ChunkKind) (chunkID : UInt32)
  deriving DecidableEq

/-- An artefact of a document, or of a chunk or summary. -/
structure Artefact where
  owner : Bytes
  indexName : Bytes
  kind : ArtefactKind
  deriving DecidableEq

def Artefact.tuple (a : Artefact) : StorageTuple :=
  match a.kind with
  | .embedding => .embedding a.owner a.indexName
  | .summary => .summary a.owner a.indexName
  | .chunk kind chunkID => .chunk kind a.owner a.indexName chunkID

def Artefact.key (a : Artefact) : Bytes := a.tuple.key

def ArtefactKind.isChunk : ArtefactKind → Bool
  | .chunk .. => true
  | _ => false

/-- What follows the index name in a key. -/
def ArtefactKind.ending : ArtefactKind → Bytes
  | .embedding => embeddingSuffix
  | .summary => summarySuffix
  | .chunk kind chunkID => [58] ++ decimal chunkID.toNat ++ kind.suffix

theorem Artefact.key_eq (a : Artefact) :
    a.key = a.owner ++ indexMarker ++ a.indexName ++ a.kind.ending := by
  obtain ⟨owner, n, kind⟩ := a
  cases kind with
  | embedding => rfl
  | summary => rfl
  | chunk kind chunkID =>
    have hkey := kind.makeKey_eq owner n chunkID
    rw [append_assoc, append_assoc] at hkey
    simpa [Artefact.key, Artefact.tuple, StorageTuple.key, ArtefactKind.ending] using hkey

/-- The documents and artefacts a shard stores. -/
structure ArtefactLayout where
  ids : List Bytes
  artefacts : List Artefact
  accepted : ∀ id ∈ ids, validateDocumentMutationKey id = none
  nodup : artefacts.Nodup
  owned : ∀ a ∈ artefacts, a.owner ∈ ids ∨ ∃ id ∈ ids, EnrichedKey id a.owner
  named : ∀ a ∈ artefacts, a.indexName ≠ []

section Values

variable (c : Codec) {C : Type} (unmarshalChunk : Bytes → Option C)

/-- The values an artefact can have, the mark of an impossible one apart: eight bytes of hash, and
what the readers of its kind accept. -/
def Artefact.Proper (a : Artefact) (v : Bytes) : Prop :=
  8 ≤ v.length ∧
    match a.kind with
    | .embedding => (c.decodeEmbedding v).isSome
    | .summary => True
    | .chunk .. => (unmarshalChunk (v.drop 8)).isSome

/-- A history of writes that leaves a shard with this layout. -/
structure Contents (L : ArtefactLayout) where
  body : Bytes → Bytes
  timestamp : Bytes → Nat
  writes : List (Artefact × Bytes)
  decodes : ∀ id ∈ L.ids, (c.unmarshalObj (body id)).isSome
  complete : (writes.map Prod.fst).Perm L.artefacts
  proper : ∀ w ∈ writes, w.2 = dudEnrichmentValue ∨ w.1.Proper c unmarshalChunk w.2

variable {c unmarshalChunk} {L : ArtefactLayout}

def Contents.ops (s : Contents c unmarshalChunk L) : List PebbleOp :=
  (L.ids.flatMap fun id => documentOps id (s.body id) (s.timestamp id)) ++
    s.writes.map fun w => .set w.1.key (.raw w.2)

def Contents.pdb (s : Contents c unmarshalChunk L) : PebbleDB := OrdMap.empty.applyAll s.ops

/-- The artefacts of `key` of one kind under one index name, those marked as impossible apart. -/
def Contents.Has (s : Contents c unmarshalChunk L) (key name : Bytes) (kind : ArtefactKind)
    (v : Bytes) : Prop :=
  (⟨key, name, kind⟩, v) ∈ s.writes ∧ v ≠ dudEnrichmentValue

def Contents.chunksOf (s : Contents c unmarshalChunk L) (key name : Bytes) : List C :=
  s.writes.filterMap fun w =>
    if w.1.owner = key ∧ w.1.indexName = name ∧ w.1.kind.isChunk ∧ w.2 ≠ dudEnrichmentValue then
      unmarshalChunk (w.2.drop 8)
    else none

/-- The document with its own artefacts, each under its index name, and no others. -/
structure Contents.Exact (s : Contents c unmarshalChunk L) (key : Bytes)
    (d : RetrievedDocument C) : Prop where
  document : c.unmarshalObj (s.body key) = some d.document
  embeddings : ∀ name e, d.embeddings.get? name = some e ↔
    ∃ v, s.Has key name .embedding v ∧ c.decodeEmbedding v = some e
  summaries : ∀ name e, d.summaries.get? name = some e ↔
    ∃ v, s.Has key name .summary v ∧ e = .str (v.drop 8)
  chunks : ∀ name, ((d.chunks.get? name).getD []).Perm (s.chunksOf key name)

variable (c unmarshalChunk) (L) in
/-- Every document is read back exactly, whatever the values. -/
def ReadBackExact : Prop :=
  ∀ s : Contents c unmarshalChunk L, ∀ key ∈ L.ids,
    ∃ d, retrieveDocument c unmarshalChunk s.pdb key = .ok d ∧ s.Exact key d

/-- A continuation of an id reads as a chunk key: after its first marker a name that is not empty,
and then `:cft:`, or without any `:cft:` then `:c:`. -/
def ChunkFormat (w : Bytes) : Prop :=
  ∃ x y, cut indexMarker w = some (x, y) ∧
    ((fullTextSeparator <:+: y ∧ ¬ fullTextSeparator <+: y) ∨
      (¬ fullTextSeparator <:+: y ∧ chunkSeparator <:+: y ∧ ¬ chunkSeparator <+: y))

variable (c unmarshalChunk) (L) in
/-- When the artefacts of one document can be told from the others by their keys. -/
structure ReadBackCondition (key : Bytes) : Prop where
  /-- No index name of its own embeddings and summaries completes a marker. -/
  own : ∀ a ∈ L.artefacts, a.owner = key → a.kind = .embedding ∨ a.kind = .summary →
    StartsAfterMarker a.indexName
  /-- The other embeddings and summaries whose keys continue the id have no marker after it. -/
  others : ∀ a ∈ L.artefacts, a.owner ≠ key → a.kind = .embedding ∨ a.kind = .summary →
    ∀ w, a.key = key ++ 58 :: w ++ a.kind.ending → ¬ indexMarker <:+: 58 :: w
  /-- It has no chunks. -/
  noChunks : ∀ a ∈ L.artefacts, a.owner = key → a.kind.isChunk = false
  /-- What reads as the key of a chunk holds none. -/
  chunkFormat : ∀ a ∈ L.artefacts, ∀ w, a.key = key ++ 58 :: w → ChunkFormat (58 :: w) →
    ∀ v, a.Proper c unmarshalChunk v → unmarshalChunk (v.drop 8) = none

variable {s : Contents c unmarshalChunk L} {key : Bytes}

/-- The values under a key. -/
inductive Contents.Stores (s : Contents c unmarshalChunk L) : Bytes → Stored → Prop where
  | body {id : Bytes} (hid : id ∈ L.ids) : Stores s (keyRangeStart id) (.zstd (s.body id))
  | timestamp {id : Bytes} (hid : id ∈ L.ids) (n : Nat) :
      Stores s (documentTimestampKey id) (.uint64 n)
  | artefact {a : Artefact} {v : Bytes} (hw : (a, v) ∈ s.writes) : Stores s a.key (.raw v)

theorem Contents.mem_artefacts {a : Artefact} {v : Bytes} (h : (a, v) ∈ s.writes) :
    a ∈ L.artefacts :=
  s.complete.mem_iff.mp (mem_map_of_mem (f := Prod.fst) h)

theorem Contents.stores_of_get? {x : Bytes} {v : Stored} (h : s.pdb.get? x = some v) :
    s.Stores x v := by
  unfold Contents.pdb at h
  rw [get?_applyAll] at h
  cases hlast : OrdMap.lastEffect s.ops x with
  | none =>
    rw [hlast] at h
    cases h
  | some o =>
    rw [hlast] at h
    obtain rfl : o = some v := h
    obtain ⟨e, he, heffect⟩ := exists_effect_of_lastEffect hlast
    rcases mem_append.mp he with hdoc | hartefact
    · obtain ⟨id, hid, hops⟩ := mem_flatMap.mp hdoc
      rcases effect_documentOps hops heffect with ⟨rfl, ho⟩ | ⟨rfl, ho⟩
      · cases ho
        exact .body hid
      · cases ho
        exact .timestamp hid _
    · obtain ⟨⟨a, b⟩, hw, rfl⟩ := mem_map.mp hartefact
      rw [OrdMap.Edit.effect] at heffect
      split at heffect
      · rename_i hx
        cases heffect
        rw [hx]
        exact .artefact hw
      · cases heffect

theorem Artefact.key_ne_documentKey (a : Artefact) (id : Bytes) : ¬ IsDocumentKey id a.key := by
  obtain ⟨owner, n, kind⟩ := a
  rintro (h | h)
  · have hsuffix := (@parts_eq_of_key_eq _ (.body id) h).1
    cases kind <;> cases hsuffix
  · have hsuffix := (@parts_eq_of_key_eq _ (.timestamp id) h).1
    cases kind <;> cases hsuffix

theorem Contents.get?_body {id : Bytes} (hid : id ∈ L.ids) :
    s.pdb.get? (keyRangeStart id) = some (.zstd (s.body id)) := by
  unfold Contents.pdb
  rw [get?_applyAll]
  cases hlast : OrdMap.lastEffect s.ops (keyRangeStart id) with
  | none =>
    exfalso
    have hset : OrdMap.Edit.set (keyRangeStart id) (Stored.zstd (s.body id)) ∈ s.ops := by
      apply mem_append_left
      exact mem_flatMap.mpr ⟨id, hid, mem_cons_self⟩
    have huntouched := lastEffect_eq_none_iff.mp hlast _ hset
    rw [OrdMap.Edit.effect, if_pos rfl] at huntouched
    cases huntouched
  | some o =>
    obtain ⟨e, he, heffect⟩ := exists_effect_of_lastEffect hlast
    rcases mem_append.mp he with hdoc | hartefact
    · obtain ⟨id', hid', hops⟩ := mem_flatMap.mp hdoc
      rcases effect_documentOps hops heffect with ⟨hkey, rfl⟩ | ⟨hkey, -⟩
      · rw [keyRangeStart_inj.mp hkey]
        rfl
      · exact absurd hkey (keyRangeStart_ne_timestampKey id id')
    · obtain ⟨⟨a, b⟩, hw, rfl⟩ := mem_map.mp hartefact
      rw [OrdMap.Edit.effect] at heffect
      split at heffect
      · rename_i hx
        exact absurd (.inl hx.symm) (a.key_ne_documentKey id)
      · cases heffect

theorem Contents.exists_get?_key {a : Artefact} {v : Bytes} (hw : (a, v) ∈ s.writes) :
    ∃ a' v', (a', v') ∈ s.writes ∧ a'.key = a.key ∧ s.pdb.get? a.key = some (.raw v') := by
  have hget : ∃ w, s.pdb.get? a.key = some w := by
    unfold Contents.pdb
    rw [get?_applyAll]
    cases hlast : OrdMap.lastEffect s.ops a.key with
    | none =>
      exfalso
      have hset : OrdMap.Edit.set a.key (Stored.raw v) ∈ s.ops :=
        mem_append_right _ (mem_map.mpr ⟨_, hw, rfl⟩)
      have huntouched := lastEffect_eq_none_iff.mp hlast _ hset
      rw [OrdMap.Edit.effect, if_pos rfl] at huntouched
      cases huntouched
    | some o =>
      obtain ⟨e, he, heffect⟩ := exists_effect_of_lastEffect hlast
      cases o with
      | some w => exact ⟨w, rfl⟩
      | none =>
        exfalso
        rcases mem_append.mp he with hdoc | hartefact
        · obtain ⟨id, hid, hops⟩ := mem_flatMap.mp hdoc
          rcases effect_documentOps hops heffect with ⟨-, ho⟩ | ⟨-, ho⟩ <;> cases ho
        · obtain ⟨w, hw', rfl⟩ := mem_map.mp hartefact
          rw [OrdMap.Edit.effect] at heffect
          split at heffect <;> cases heffect
  obtain ⟨w, hw'⟩ := hget
  generalize hx : a.key = x at hw'
  cases s.stores_of_get? hw' with
  | body hid => exact absurd (.inl hx) (a.key_ne_documentKey _)
  | timestamp hid n => exact absurd (.inr hx) (a.key_ne_documentKey _)
  | artefact hw'' => exact ⟨_, _, hw'', rfl, hw'⟩

end Values

end Antfly
