import Antfly.Indexes.KeyCodecs

/-!
`Batch` takes a key for that of an embedding, a summary, a sparse vector, a chunk or graph data by
its suffix and its markers, in this order, and every other key for a document id.  The names in use
on a shard form a vocabulary: the ids a client can write, the nonempty names of its indexes and the
types of its edges.
-/

namespace Antfly

open List

/-- What `Batch` takes a key for. -/
inductive KeyClass where
  | embedding | summary | sparse | chunk | graph | document
  deriving DecidableEq

def batchClass (key : Bytes) : KeyClass :=
  if hasSuffix key embeddingSuffix then .embedding
  else if hasSuffix key summarySuffix then .summary
  else if hasSuffix key sparseSuffix && contains key indexMarker then .sparse
  else if isChunkKey key then .chunk
  else if isEdgeKey key || (contains key indexMarker && hasSuffix key fieldHashSuffix) then .graph
  else .document

def KeyClass.writeKind : KeyClass → WriteKind
  | .chunk => .chunk
  | .document => .document
  | _ => .enrichment

theorem writeKind_eq (key : Bytes) : writeKind key = (batchClass key).writeKind := by
  unfold writeKind batchClass
  grind [KeyClass.writeKind]

variable {id x m y : Bytes} {t t' : StorageTuple} {c : UInt8}

theorem batchClass_of_accepted (h : validateDocumentMutationKey id = none) :
    batchClass id = .document := by
  have hkind := writeKind_of_accepted h
  rw [writeKind_eq] at hkind
  cases hclass : batchClass id <;> rw [hclass] at hkind
  all_goals first | rfl | cases hkind

/-- What a storage key is made of. -/
inductive StorageTuple where
  | body (id : Bytes)
  | timestamp (id : Bytes)
  | embedding (id indexName : Bytes)
  | summary (id indexName : Bytes)
  | chunk (kind : ChunkKind) (id indexName : Bytes) (chunkID : UInt32)
  | edge (source target indexName edgeType : Bytes)
  deriving DecidableEq

def StorageTuple.key : StorageTuple → Bytes
  | .body id => keyRangeStart id
  | .timestamp id => documentTimestampKey id
  | .embedding id indexName => makeEmbeddingKey id indexName
  | .summary id indexName => makeSummaryKey id indexName
  | .chunk kind id indexName chunkID => kind.makeKey id indexName chunkID
  | .edge source target indexName edgeType => makeEdgeKey source target indexName edgeType

/-- The endings of the keys. -/
inductive KeySuffix where
  | body | timestamp | embedding | summary
  | chunk (kind : ChunkKind)
  | edge
  deriving DecidableEq

def KeySuffix.bytes : KeySuffix → Bytes
  | .body => dbRangeStart
  | .timestamp => dbRangeStart ++ transactionSuffix
  | .embedding => embeddingSuffix
  | .summary => summarySuffix
  | .chunk kind => kind.suffix
  | .edge => edgeOutSuffix

/-- The class of the keys that end so; `Batch` has none for the two keys of a document itself. -/
def KeySuffix.keyClass : KeySuffix → KeyClass
  | .body | .timestamp => .document
  | .embedding => .embedding
  | .summary => .summary
  | .chunk _ => .chunk
  | .edge => .graph

def StorageTuple.suffix : StorageTuple → KeySuffix
  | .body _ => .body
  | .timestamp _ => .timestamp
  | .embedding .. => .embedding
  | .summary .. => .summary
  | .chunk kind .. => .chunk kind
  | .edge .. => .edge

/-- What precedes the suffix of a tuple's key. -/
def StorageTuple.stem : StorageTuple → Bytes
  | .body id | .timestamp id => id
  | .embedding id indexName | .summary id indexName => id ++ indexMarker ++ indexName
  | .chunk _ id indexName chunkID =>
    id ++ indexMarker ++ indexName ++ [58] ++ decimal chunkID.toNat
  | .edge source target indexName edgeType =>
    source ++ indexMarker ++ indexName ++ outMarker ++ edgeType ++ [58] ++ target

theorem StorageTuple.key_eq (t : StorageTuple) : t.key = t.stem ++ t.suffix.bytes := by
  cases t with
  | timestamp id => exact append_assoc _ _ _
  | chunk kind id indexName chunkID => exact kind.makeKey_eq id indexName chunkID
  | _ => rfl

/-- The names in use on a shard.  Index names are not empty; edge types can be any string, and so
can the targets of edges. -/
structure KeyVocabulary where
  ids : Set Bytes
  graphIndexes : Set Bytes
  enrichedIndexes : Set Bytes
  edgeTypes : Set Bytes
  accepted : ∀ id ∈ ids, validateDocumentMutationKey id = none
  named : ∀ n ∈ graphIndexes ∪ enrichedIndexes, n ≠ []

variable {V : KeyVocabulary}

/-- The tuples a shard can store keys of. -/
inductive StorageTuple.InUse (V : KeyVocabulary) : StorageTuple → Prop where
  | body {id : Bytes} (hid : id ∈ V.ids) : InUse V (.body id)
  | timestamp {id : Bytes} (hid : id ∈ V.ids) : InUse V (.timestamp id)
  | embedding {id n : Bytes} (hid : id ∈ V.ids) (hn : n ∈ V.enrichedIndexes) :
      InUse V (.embedding id n)
  | summary {id n : Bytes} (hid : id ∈ V.ids) (hn : n ∈ V.enrichedIndexes) :
      InUse V (.summary id n)
  | chunk (kind : ChunkKind) {id n : Bytes} (hid : id ∈ V.ids) (hn : n ∈ V.enrichedIndexes)
      (chunkID : UInt32) : InUse V (.chunk kind id n chunkID)
  | edge {source n t : Bytes} (hid : source ∈ V.ids) (target : Bytes) (hn : n ∈ V.graphIndexes)
      (ht : t ∈ V.edgeTypes) : InUse V (.edge source target n t)

/-- The storage keys over a vocabulary are read back exactly, are distinct, and have their class. -/
structure CodecsExact (V : KeyVocabulary) : Prop where
  edges : ∀ source ∈ V.ids, ∀ target, ∀ indexName ∈ V.graphIndexes, ∀ edgeType ∈ V.edgeTypes,
    parseEdgeKey (makeEdgeKey source target indexName edgeType) =
      some { source, target, indexName, edgeType }
  chunks : ∀ (kind : ChunkKind), ∀ id ∈ V.ids, ∀ indexName ∈ V.enrichedIndexes, ∀ chunkID,
    parseChunkKey (kind.makeKey id indexName chunkID) = some (id, indexName)
  summaries : ∀ id ∈ V.ids, ∀ indexName ∈ V.enrichedIndexes,
    parseSummaryKey (makeSummaryKey id indexName) = some (id, indexName)
  distinct : ∀ t t' : StorageTuple, t.InUse V → t'.InUse V → t.key = t'.key → t = t'
  classes : ∀ t : StorageTuple, t.InUse V → batchClass t.key = t.suffix.keyClass
  documents : ∀ id ∈ V.ids, batchClass id = .document

/-- Which vocabularies the formats of the keys support. -/
structure CodecCondition (V : KeyVocabulary) : Prop where
  edges : ∀ source ∈ V.ids, ∀ indexName ∈ V.graphIndexes, ∀ edgeType ∈ V.edgeTypes,
    EndsBeforeMarker source ∧ 58 ∉ indexName ∧ 58 ∉ edgeType
  derived : V.ids.Nonempty → ∀ indexName ∈ V.enrichedIndexes, StartsAfterMarker indexName
  bodies : ∀ id ∈ V.ids, isEdgeKey (id ++ ascii [':']) = false

theorem KeySuffix.not_suffix {s s' : KeySuffix} (h : s ≠ s') : ¬ s.bytes <:+ s'.bytes := by
  revert h
  rcases s with _ | _ | _ | _ | (_ | _ | _) | _ <;>
    rcases s' with _ | _ | _ | _ | (_ | _ | _) | _ <;> decide

theorem parts_eq_of_key_eq (h : t.key = t'.key) : t.suffix = t'.suffix ∧ t.stem = t'.stem := by
  rw [t.key_eq, t'.key_eq] at h
  have hleft : t.suffix.bytes <:+ t'.stem ++ t'.suffix.bytes := h ▸ suffix_append _ _
  have hright : t'.suffix.bytes <:+ t'.stem ++ t'.suffix.bytes := suffix_append _ _
  have hsuffix : t.suffix = t'.suffix := by
    by_contra hne
    rcases le_total t.suffix.bytes.length t'.suffix.bytes.length with hle | hle
    · exact KeySuffix.not_suffix hne (suffix_of_suffix_length_le hleft hright hle)
    · exact KeySuffix.not_suffix (Ne.symm hne) (suffix_of_suffix_length_le hright hleft hle)
  rw [hsuffix] at h
  exact ⟨hsuffix, append_cancel_right h⟩

/-- Both parts of a derived key are determined when the index names start after their markers. -/
theorem derived_inj {id' n n' : Bytes} (hn : StartsAfterMarker n) (hn' : StartsAfterMarker n')
    (h : id ++ indexMarker ++ n = id' ++ indexMarker ++ n') :
    id = id' ∧ n = n' := by
  have hcut := (cutLast_append_iff (x := id) indexMarker_ne_nil).mpr hn
  have hcut' := (cutLast_append_iff (x := id') indexMarker_ne_nil).mpr hn'
  rw [h, hcut'] at hcut
  cases hcut
  exact ⟨rfl, rfl⟩

theorem chunkStem_inj {x' : Bytes} {i i' : UInt32}
    (h : x ++ [58] ++ decimal i.toNat = x' ++ [58] ++ decimal i'.toNat) :
    x = x' ∧ i = i' := by
  have hcut := cutLast_of_not_mem (x := x) (colon_not_mem_decimal i.toNat)
  have hcut' := cutLast_of_not_mem (x := x') (colon_not_mem_decimal i'.toNat)
  rw [h, hcut'] at hcut
  obtain ⟨hx, hi⟩ := Prod.mk.inj (Option.some.inj hcut)
  exact ⟨hx.symm, UInt32.toNat_inj.mp (decimal_inj.mp hi.symm)⟩

theorem CodecCondition.distinct (h : CodecCondition V) (ht : t.InUse V) (ht' : t'.InUse V)
    (hkey : t.key = t'.key) :
    t = t' := by
  obtain ⟨hsuffix, hstem⟩ := parts_eq_of_key_eq hkey
  have hstarts : ∀ {id n : Bytes}, id ∈ V.ids → n ∈ V.enrichedIndexes → StartsAfterMarker n :=
    fun hid hn => h.derived ⟨_, hid⟩ _ hn
  cases ht with
  | body hid =>
    cases ht' with
    | body hid' => exact congrArg _ hstem
    | _ => cases hsuffix
  | timestamp hid =>
    cases ht' with
    | timestamp hid' => exact congrArg _ hstem
    | _ => cases hsuffix
  | embedding hid hn =>
    cases ht' with
    | embedding hid' hn' =>
      obtain ⟨rfl, rfl⟩ := derived_inj (hstarts hid hn) (hstarts hid' hn') hstem
      rfl
    | _ => cases hsuffix
  | summary hid hn =>
    cases ht' with
    | summary hid' hn' =>
      obtain ⟨rfl, rfl⟩ := derived_inj (hstarts hid hn) (hstarts hid' hn') hstem
      rfl
    | _ => cases hsuffix
  | chunk kind hid hn i =>
    cases ht' with
    | chunk kind' hid' hn' i' =>
      obtain ⟨hderived, rfl⟩ := chunkStem_inj hstem
      obtain ⟨rfl, rfl⟩ := derived_inj (hstarts hid hn) (hstarts hid' hn') hderived
      cases hsuffix
      rfl
    | _ => cases hsuffix
  | @edge source n ty hid target hn hty =>
    cases ht' with
    | @edge source' n' ty' hid' target' hn' hty' =>
      have hparse := (parseEdgeKey_makeEdgeKey_iff source target n ty).mpr
        (h.edges _ hid _ hn _ hty)
      have hparse' := (parseEdgeKey_makeEdgeKey_iff source' target' n' ty').mpr
        (h.edges _ hid' _ hn' _ hty')
      have hsame : makeEdgeKey source target n ty = makeEdgeKey source' target' n' ty' := hkey
      rw [hsame, hparse'] at hparse
      cases hparse
      rfl
    | _ => cases hsuffix

theorem prefix_of_append_cons (hc : c ∉ m) (h : m <+: x ++ c :: y) : m <+: x := by
  rcases le_or_gt m.length x.length with hle | hlt
  · exact prefix_of_prefix_length_le h (prefix_append x _) hle
  · exfalso
    have hx : x ++ [c] <+: x ++ c :: y := ⟨y, by rw [append_assoc, singleton_append]⟩
    have hin : x ++ [c] <+: m := by
      apply prefix_of_prefix_length_le hx h
      rw [length_append, length_singleton]
      exact hlt
    exact hc (hin.subset (mem_append_right x mem_cons_self))

theorem infix_append_cons_iff (hc : c ∉ m) : m <:+: x ++ c :: y ↔ m <:+: x ∨ m <:+: y := by
  constructor
  · intro h
    induction x with
    | nil =>
      rcases infix_cons_iff.mp h with hpre | hin
      · have hnil := prefix_of_append_cons (x := []) hc hpre
        rw [prefix_nil.mp hnil]
        exact .inl nil_infix
      · exact .inr hin
    | cons d x ih =>
      rcases infix_cons_iff.mp h with hpre | hin
      · exact .inl (prefix_of_append_cons (x := d :: x) hc hpre).isInfix
      · exact (ih hin).imp_left fun hx => hx.trans (suffix_cons d x).isInfix
  · rintro (hx | hy)
    · exact hx.trans (prefix_append x _).isInfix
    · exact hy.trans ((suffix_cons c y).trans (suffix_append x _)).isInfix

theorem contains_documentKey {t : Bytes} (hm : 0 ∉ m) (ht : ¬ m <:+: t) :
    contains (id ++ 58 :: 0 :: t) m = contains (id ++ ascii [':']) m := by
  rw [Bool.eq_iff_iff, contains_iff, contains_iff]
  have hsplit : id ++ 58 :: 0 :: t = (id ++ ascii [':']) ++ 0 :: t := by simp [ascii]
  rw [hsplit, infix_append_cons_iff hm]
  exact or_iff_left ht

theorem isEdgeKey_documentKey {t : Bytes} (ht : t = [] ∨ t = transactionSuffix) :
    isEdgeKey (id ++ 58 :: 0 :: t) = isEdgeKey (id ++ ascii [':']) := by
  unfold isEdgeKey
  rw [contains_documentKey (by decide), contains_documentKey (by decide),
    contains_documentKey (by decide)]
  all_goals rcases ht with rfl | rfl <;> decide

def testedSuffixes : List Bytes :=
  [embeddingSuffix, summarySuffix, sparseSuffix, chunkSuffix, chunkFullTextSuffix, chunkMediaSuffix,
    fieldHashSuffix]

theorem hasSuffix_append {s t : Bytes} (h : s.length < t.length → ¬ s <:+ t) :
    hasSuffix (x ++ s) t = hasSuffix s t := by
  rw [Bool.eq_iff_iff, hasSuffix_iff, hasSuffix_iff]
  constructor
  · intro ht
    rcases le_or_gt t.length s.length with hle | hlt
    · exact suffix_of_suffix_length_le ht (suffix_append x s) hle
    · have hs := suffix_of_suffix_length_le (suffix_append x s) ht hlt.le
      exact absurd hs (h hlt)
  · intro ht
    exact ht.trans (suffix_append x s)

theorem KeySuffix.hasSuffix_eq (s : KeySuffix) (x : Bytes) :
    ∀ t ∈ testedSuffixes, hasSuffix (x ++ s.bytes) t = hasSuffix s.bytes t := by
  intro t ht
  apply hasSuffix_append
  revert t
  rcases s with _ | _ | _ | _ | (_ | _ | _) | _ <;> decide

/-- The keys that end as those of an artefact have its class; those of a document itself are told
from graph data by the markers of edges only. -/
theorem batchClass_append (x : Bytes) (s : KeySuffix)
    (hdocument : s.keyClass = .document → isEdgeKey (x ++ s.bytes) = false)
    (hgraph : s.keyClass = .graph → isEdgeKey (x ++ s.bytes) = true) :
    batchClass (x ++ s.bytes) = s.keyClass := by
  have htests := s.hasSuffix_eq x
  simp only [testedSuffixes, forall_mem_cons] at htests
  obtain ⟨hembedding, hsummary, hsparse, hchunk, hfullText, hmedia, hfieldHash, -⟩ := htests
  unfold batchClass isChunkKey
  rw [hembedding, hsummary, hsparse, hfieldHash]
  change (if _ then _ else if _ then _ else if _ then _ else
    if hasSuffix _ chunkSuffix || hasSuffix _ chunkFullTextSuffix || hasSuffix _ chunkMediaSuffix
    then _ else _) = _
  rw [hchunk, hfullText, hmedia]
  generalize contains (x ++ s.bytes) indexMarker = marked
  generalize isEdgeKey (x ++ s.bytes) = edged at hdocument hgraph ⊢
  revert marked edged
  rcases s with _ | _ | _ | _ | (_ | _ | _) | _ <;> decide

theorem isEdgeKey_of_document {key : Bytes} (h : batchClass key = .document) :
    isEdgeKey key = false := by
  unfold batchClass at h
  grind

theorem isEdgeKey_makeEdgeKey (source target indexName edgeType : Bytes) :
    isEdgeKey (makeEdgeKey source target indexName edgeType) = true := by
  have hindex : contains (makeEdgeKey source target indexName edgeType) indexMarker = true := by
    apply contains_iff.mpr
    refine ⟨source,
      indexName ++ outMarker ++ edgeType ++ ascii [':'] ++ target ++ edgeOutSuffix, ?_⟩
    simp only [makeEdgeKey, append_assoc]
  have hout : contains (makeEdgeKey source target indexName edgeType) outMarker = true := by
    apply contains_iff.mpr
    refine ⟨source ++ indexMarker ++ indexName,
      edgeType ++ ascii [':'] ++ target ++ edgeOutSuffix, ?_⟩
    simp only [makeEdgeKey, append_assoc]
  unfold isEdgeKey
  rw [hindex, hout]
  rfl

theorem CodecCondition.classes (h : CodecCondition V) (ht : t.InUse V) :
    batchClass t.key = t.suffix.keyClass := by
  rw [t.key_eq]
  apply batchClass_append
  · intro hdocument
    cases ht with
    | body hid =>
      exact (isEdgeKey_documentKey (.inl rfl)).trans (h.bodies _ hid)
    | timestamp hid =>
      exact (isEdgeKey_documentKey (.inr rfl)).trans (h.bodies _ hid)
    | _ => cases hdocument
  · intro hgraph
    rw [← t.key_eq]
    cases ht with
    | edge => exact isEdgeKey_makeEdgeKey ..
    | _ => cases hgraph

/-- The storage keys over a vocabulary are read back exactly, are distinct and keep their class just
when no source completes the first marker of its edge keys, no index name or type of an edge has a
colon, no index name of an artefact completes the last marker, and no id has the markers of an
edge. -/
theorem codecsExact_iff : CodecsExact V ↔ CodecCondition V := by
  have hid : ∀ {id : Bytes}, id ∈ V.ids → id ≠ [] := fun h => ne_nil_of_accepted (V.accepted _ h)
  constructor
  · intro h
    constructor
    · intro source hsource n hn ty hty
      exact (parseEdgeKey_makeEdgeKey_iff source [] n ty).mp (h.edges _ hsource _ _ hn _ hty)
    · rintro ⟨id, hmem⟩ n hn
      exact (parseSummaryKey_makeSummaryKey_iff (hid hmem) (V.named n (Or.inr hn))).mp
        (h.summaries _ hmem _ hn)
    · intro id hmem
      have hclass : batchClass (keyRangeStart id) = .document := h.classes _ (.body hmem)
      rw [← isEdgeKey_documentKey (Or.inl rfl)]
      exact isEdgeKey_of_document hclass
  · intro h
    constructor
    · intro source hsource target n hn ty hty
      exact (parseEdgeKey_makeEdgeKey_iff source target n ty).mpr (h.edges _ hsource _ hn _ hty)
    · intro kind id hmem n hn chunkID
      exact (parseChunkKey_makeKey_iff kind (hid hmem) (V.named n (Or.inr hn)) chunkID).mpr
        (h.derived ⟨id, hmem⟩ n hn)
    · intro id hmem n hn
      exact (parseSummaryKey_makeSummaryKey_iff (hid hmem) (V.named n (Or.inr hn))).mpr
        (h.derived ⟨id, hmem⟩ n hn)
    · intro t t' ht ht' hkey
      exact h.distinct ht ht' hkey
    · intro t ht
      exact h.classes ht
    · intro id hmem
      exact batchClass_of_accepted (V.accepted id hmem)

/-- A source that ends in `:i` completes the marker a byte early, so that its edges are read back
with another source, index and type. -/
def vocabularyWithMarker : KeyVocabulary where
  ids := {ascii ['a', ':', 'i']}
  graphIndexes := {ascii ['g']}
  enrichedIndexes := ∅
  edgeTypes := {ascii ['t']}
  accepted := by
    rintro id rfl
    decide
  named := by
    rintro n (rfl | h)
    · decide
    · exact absurd h (Set.notMem_empty n)

theorem edge_not_read_back :
    parseEdgeKey (makeEdgeKey (ascii ['a', ':', 'i']) (ascii ['b']) (ascii ['g']) (ascii ['t'])) =
        some { source := ascii ['a'], target := ascii ['t', ':', 'b'], indexName := ascii ['i'],
               edgeType := ascii ['o', 'u', 't'] } ∧
      ¬ CodecsExact vocabularyWithMarker := by
  refine ⟨by decide, ?_⟩
  intro h
  have hparse := h.edges (ascii ['a', ':', 'i']) rfl (ascii ['b']) (ascii ['g']) rfl
    (ascii ['t']) rfl
  revert hparse
  decide

end Antfly
