import Antfly.Store.ArtefactLayout

/-!
The reader knows the keys of a document by their beginning only, and takes the index name from the
last marker.  So it is exact just when no other stored embedding or summary has a marker between the
id and the end of its key, and the names of the document's own indexes do not complete a marker.  It
looks for chunks in a format their keys do not have, and never finds them under their names.
-/

namespace Antfly

open List OrdMap

section Values

variable {c : Codec} {C : Type} {unmarshalChunk : Bytes → Option C} {L : ArtefactLayout}
variable {s : Contents c unmarshalChunk L} {key : Bytes}

/-- The keys after the body of a document that the iteration shows. -/
def Scanned (key x : Bytes) : Prop :=
  keyRangeStart key < x ∧ x < prefixSuccessor (keyRangeEnd key)

variable {x w name b : Bytes} {a : Artefact} {v : Stored} {e : Json} {kind : ArtefactKind}

theorem Scanned.eq_append {key : Bytes} (h : Scanned key x) : ∃ w, x = key ++ 58 :: w := by
  obtain ⟨hlo, hhi⟩ := h
  have hkey : key ≤ keyRangeStart key := (mem_deleteRange_colon key [0]).1
  obtain ⟨t, rfl, ht⟩ := mem_deleteRange_iff.mp ⟨hkey.trans hlo.le, hhi⟩
  have hcolon : [58, 0] < t := by
    have happend : key ++ [58, 0] < key ++ t := hlo
    exact (Lex.append_lt_append_left _ _ _).mp happend
  cases t with
  | nil => exact absurd hcolon (not_lt_nil _)
  | cons d t =>
    have hle : d ≤ 58 := by
      rcases cons_lt_cons_iff.mp ht with hlt | ⟨-, hnil⟩
      · have hnat : d.toNat < 59 := UInt8.lt_iff_toNat_lt.mp hlt
        exact UInt8.le_iff_toNat_le.mpr (Nat.le_of_lt_succ hnat)
      · exact absurd hnil (not_lt_nil _)
    have hge : 58 ≤ d := by
      rcases cons_lt_cons_iff.mp hcolon with hlt | ⟨heq, -⟩
      · exact hlt.le
      · exact heq.le
    exact ⟨t, by rw [le_antisymm hle hge]⟩

theorem Artefact.scanned (h : a.key = key ++ 58 :: w) : Scanned key a.key := by
  have hw : w ≠ [] := by
    rintro rfl
    have hlast := congrArg List.getLast? h
    rw [Artefact.key, a.tuple.key_eq] at hlast
    obtain ⟨owner, n, kind⟩ := a
    rcases kind with _ | _ | ⟨_ | _ | _, _⟩ <;>
      simp [Artefact.tuple, StorageTuple.suffix, KeySuffix.bytes, ChunkKind.suffix,
        embeddingSuffix, summarySuffix, chunkSuffix, chunkFullTextSuffix, chunkMediaSuffix,
        ascii] at hlast
  have hrange := mem_deleteRange_colon key w
  rw [← h] at hrange
  refine ⟨lt_of_le_of_ne ?_ fun heq => a.key_ne_documentKey key (.inl heq.symm), hrange.2⟩
  have hzero : [58, 0] ≤ 58 :: w := by
    obtain ⟨d, w, rfl⟩ := exists_cons_of_ne_nil hw
    rcases eq_or_lt_of_le (UInt8.zero_le : 0 ≤ d) with rfl | hlt
    · exact (Lex.append_le_append_left [58, 0] [] w).mpr (Lex.nil_le w)
    · exact le_of_lt (cons_lt_cons_iff.mpr (.inr ⟨rfl, List.Lex.rel hlt⟩))
  rw [h]
  exact (Lex.append_le_append_left key _ _).mpr hzero

theorem entryEmbedding_eq_some_iff :
    entryEmbedding c key (x, v) = .ok (some (name, e)) ↔
      hasSuffix x embeddingSuffix = true ∧ enrichmentIndexName key x = some name ∧
        ∃ b, v = .raw b ∧ b ≠ dudEnrichmentValue ∧ c.decodeEmbedding b = some e := by
  unfold entryEmbedding
  dsimp only
  cases hasSuffix x embeddingSuffix <;> cases enrichmentIndexName key x <;> cases v <;>
    simp
  rename_i b
  by_cases hdud : b = dudEnrichmentValue
  · simp [hdud]
  · cases c.decodeEmbedding b <;> simp [hdud]

theorem entrySummary_eq_some_iff :
    entrySummary key (x, v) = .ok (some (name, e)) ↔
      hasSuffix x summarySuffix = true ∧ enrichmentIndexName key x = some name ∧
        ∃ b, v = .raw b ∧ b ≠ dudEnrichmentValue ∧ 8 ≤ b.length ∧ e = .str (b.drop 8) := by
  unfold entrySummary
  dsimp only
  cases hasSuffix x summarySuffix with
  | false => simp
  | true =>
    by_cases hdud : v = .raw dudEnrichmentValue
    · simp [hdud]
    · cases enrichmentIndexName key x <;> cases v <;> simp [hdud]
      rename_i b
      by_cases hlength : b.length < 8
      · simp [hlength]
      · have hne : b ≠ dudEnrichmentValue := fun heq => hdud (heq ▸ rfl)
        simp [hlength, hne, Nat.le_of_not_lt hlength, eq_comm]

theorem beforeChunkSeparator_ne_nil_iff (y : Bytes) : beforeChunkSeparator y ≠ [] ↔
    (fullTextSeparator <:+: y ∧ ¬ fullTextSeparator <+: y) ∨
      (¬ fullTextSeparator <:+: y ∧ chunkSeparator <:+: y ∧ ¬ chunkSeparator <+: y) := by
  have hinfix : ∀ {sep p : Bytes} {q : Bytes}, cut sep y = some (p, q) → sep <:+: y :=
    fun hcut => ⟨_, _, (cut_eq_some hcut).symm⟩
  unfold beforeChunkSeparator
  cases hfullText : cut fullTextSeparator y with
  | some p =>
    have hin := hinfix hfullText
    simp only [ne_eq, before_eq_nil_iff hfullText, hin, true_and, not_true_eq_false, false_and,
      or_false]
  | none =>
    have hnot := cut_eq_none_iff.mp hfullText
    cases hchunk : cut chunkSeparator y with
    | some p =>
      have hin := hinfix hchunk
      simp only [ne_eq, before_eq_nil_iff hchunk, hin, hnot, not_false_eq_true, true_and,
        false_and, false_or]
    | none =>
      have hnot' := cut_eq_none_iff.mp hchunk
      simp [hnot, hnot']

theorem chunkIndexName_eq_some_iff :
    chunkIndexName key (key ++ w) = some name ↔
      ∃ x y, cut indexMarker w = some (x, y) ∧ beforeChunkSeparator y = name ∧ name ≠ [] := by
  unfold chunkIndexName
  rw [drop_left]
  cases cut indexMarker w with
  | none => simp
  | some p =>
    dsimp only
    split
    · rename_i hempty
      have hnil := isEmpty_iff.mp hempty
      constructor
      · intro h
        cases h
      · rintro ⟨x, y, hcut, hbefore, hname⟩
        cases hcut
        exact absurd (hbefore.symm.trans hnil) hname
    · rename_i hempty
      constructor
      · intro h
        cases h
        exact ⟨p.1, p.2, rfl, rfl, fun hnil => hempty (isEmpty_iff.mpr hnil)⟩
      · rintro ⟨x, y, hcut, hbefore, hname⟩
        cases hcut
        rw [hbefore]

theorem chunkFormat_iff : ChunkFormat w ↔ ∃ name, chunkIndexName key (key ++ w) = some name := by
  unfold ChunkFormat
  simp only [chunkIndexName_eq_some_iff, ← beforeChunkSeparator_ne_nil_iff]
  constructor
  · rintro ⟨x, y, hcut, hne⟩
    exact ⟨_, x, y, hcut, rfl, hne⟩
  · rintro ⟨name, x, y, hcut, rfl, hne⟩
    exact ⟨x, y, hcut, hne⟩

theorem contains_chunkSuffix (h : chunkIndexName key (key ++ w) = some name) :
    contains (key ++ w) chunkSuffix = true := by
  obtain ⟨x, y, hcut, hbefore, hname⟩ := chunkIndexName_eq_some_iff.mp h
  have hy : chunkSuffix <:+: y := by
    have hne : beforeChunkSeparator y ≠ [] := hbefore.symm ▸ hname
    rcases (beforeChunkSeparator_ne_nil_iff y).mp hne with ⟨hin, -⟩ | ⟨-, hin, -⟩
    · exact List.IsInfix.trans ⟨[], ascii ['f', 't', ':'], rfl⟩ hin
    · exact List.IsInfix.trans ⟨[], ascii [':'], rfl⟩ hin
  apply contains_iff.mpr
  have hw : y <:+ w := ⟨x ++ indexMarker, (cut_eq_some hcut).symm⟩
  exact hy.trans (hw.isInfix.trans (suffix_append key w).isInfix)

theorem entryChunk_eq_some_iff {chunk : C} :
    entryChunk unmarshalChunk key (key ++ w, v) = .ok (some (name, chunk)) ↔
      chunkIndexName key (key ++ w) = some name ∧
        ∃ b, v = .raw b ∧ b ≠ dudEnrichmentValue ∧ 8 ≤ b.length ∧
          unmarshalChunk (b.drop 8) = some chunk := by
  unfold entryChunk
  dsimp only
  cases hname : chunkIndexName key (key ++ w) with
  | none => cases v <;> simp
  | some n =>
    rw [contains_chunkSuffix hname, Bool.not_true, Bool.and_false, if_neg Bool.false_ne_true]
    cases v <;> simp
    rename_i b
    by_cases hdud : b = dudEnrichmentValue
    · simp [hdud]
    · by_cases hlength : b.length < 8
      · simp [hdud, hlength]
      · cases unmarshalChunk (b.drop 8) <;> simp [hdud, hlength, Nat.le_of_not_lt hlength]

variable {x : Bytes} {v : Stored}

theorem Contents.value_cases (hw : (a, b) ∈ s.writes) :
    b = dudEnrichmentValue ∨ (8 ≤ b.length ∧ (a.kind = .embedding → (c.decodeEmbedding b).isSome) ∧
      (a.kind.isChunk = true → (unmarshalChunk (b.drop 8)).isSome)) := by
  refine (s.proper _ hw).imp_right ?_
  obtain ⟨owner, n, kind⟩ := a
  rintro ⟨hlength, hkind⟩
  cases kind with
  | embedding => exact ⟨hlength, fun _ => hkind, nofun⟩
  | summary => exact ⟨hlength, nofun, nofun⟩
  | chunk kind i => exact ⟨hlength, nofun, fun _ => hkind⟩

theorem StorageTuple.hasSuffix_key (t : StorageTuple) :
    hasSuffix t.key embeddingSuffix = decide (t.suffix = .embedding) ∧
      hasSuffix t.key summarySuffix = decide (t.suffix = .summary) := by
  rw [t.key_eq, t.suffix.hasSuffix_eq t.stem _ (by decide),
    t.suffix.hasSuffix_eq t.stem _ (by decide)]
  generalize t.suffix = u
  rcases u with _ | _ | _ | _ | (_ | _ | _) | _ <;> decide

theorem Artefact.hasSuffix_embedding_iff :
    hasSuffix a.key embeddingSuffix = true ↔ a.kind = .embedding := by
  rw [Artefact.key, a.tuple.hasSuffix_key.1, decide_eq_true_iff]
  obtain ⟨owner, n, kind⟩ := a
  cases kind <;> simp [Artefact.tuple, StorageTuple.suffix]

theorem Artefact.hasSuffix_summary_iff :
    hasSuffix a.key summarySuffix = true ↔ a.kind = .summary := by
  rw [Artefact.key, a.tuple.hasSuffix_key.2, decide_eq_true_iff]
  obtain ⟨owner, n, kind⟩ := a
  cases kind <;> simp [Artefact.tuple, StorageTuple.suffix]

theorem Artefact.hasSuffix_ending_iff (hkind : kind = .embedding ∨ kind = .summary) :
    hasSuffix a.key kind.ending = true ↔ a.kind = kind := by
  rcases hkind with rfl | rfl
  · exact Artefact.hasSuffix_embedding_iff
  · exact Artefact.hasSuffix_summary_iff

theorem hasSuffix_documentKey {id : Bytes} (h : IsDocumentKey id x) :
    hasSuffix x embeddingSuffix = false ∧ hasSuffix x summarySuffix = false := by
  rcases h with rfl | rfl
  · exact (StorageTuple.body id).hasSuffix_key
  · exact (StorageTuple.timestamp id).hasSuffix_key

theorem Contents.Stores.entryEmbedding_ok (h : s.Stores x v) :
    ∃ o, entryEmbedding c key (x, v) = .ok o := by
  unfold entryEmbedding
  dsimp only
  cases h with
  | body hid =>
    rw [(hasSuffix_documentKey (.inl rfl)).1]
    exact ⟨_, rfl⟩
  | timestamp hid n =>
    rw [(hasSuffix_documentKey (.inr rfl)).1]
    exact ⟨_, rfl⟩
  | @artefact a b hw =>
    split
    · exact ⟨_, rfl⟩
    · rename_i hsuffix
      rw [Bool.not_eq_true', Bool.not_eq_false] at hsuffix
      have hkind := Artefact.hasSuffix_embedding_iff.mp hsuffix
      cases enrichmentIndexName key a.key with
      | none => exact ⟨_, rfl⟩
      | some n =>
        dsimp only
        split
        · exact ⟨_, rfl⟩
        · rename_i hdud
          obtain ⟨-, hdecode, -⟩ := (s.value_cases hw).resolve_left hdud
          obtain ⟨e, he⟩ := Option.isSome_iff_exists.mp (hdecode hkind)
          rw [he]
          exact ⟨_, rfl⟩

theorem Contents.Stores.entrySummary_ok (h : s.Stores x v) :
    ∃ o, entrySummary key (x, v) = .ok o := by
  unfold entrySummary
  dsimp only
  cases h with
  | body hid =>
    rw [(hasSuffix_documentKey (.inl rfl)).2]
    exact ⟨_, rfl⟩
  | timestamp hid n =>
    rw [(hasSuffix_documentKey (.inr rfl)).2]
    exact ⟨_, rfl⟩
  | @artefact a b hw =>
    split
    · exact ⟨_, rfl⟩
    · rename_i hread
      have hdud : b ≠ dudEnrichmentValue := by
        rintro rfl
        apply hread
        simp
      obtain ⟨hlength, -⟩ := (s.value_cases hw).resolve_left hdud
      cases enrichmentIndexName key a.key with
      | none => exact ⟨_, rfl⟩
      | some n =>
        dsimp only
        rw [if_neg (Nat.not_lt.mpr hlength)]
        exact ⟨_, rfl⟩

theorem Contents.Stores.entryChunk_ok (h : s.Stores x v) :
    ∃ o, entryChunk unmarshalChunk key (x, v) = .ok o := by
  unfold entryChunk
  split
  · exact ⟨_, rfl⟩
  · cases h with
    | body hid => exact ⟨_, rfl⟩
    | timestamp hid n => exact ⟨_, rfl⟩
    | @artefact a b hw =>
      dsimp only
      cases chunkIndexName key a.key with
      | none => exact ⟨_, rfl⟩
      | some n =>
        dsimp only
        split
        · exact ⟨_, rfl⟩
        · rename_i hdud
          obtain ⟨hlength, -⟩ := (s.value_cases hw).resolve_left hdud
          rw [if_neg (Nat.not_lt.mpr hlength)]
          exact ⟨_, rfl⟩

/-- What is read back, in terms of the entries the iteration shows. -/
structure ReadFrom (s : Contents c unmarshalChunk L) (key : Bytes) (d : RetrievedDocument C) :
    Prop where
  document : c.unmarshalObj (s.body key) = some d.document
  embeddings_mem : ∀ name e, d.embeddings.get? name = some e → ∃ x v, s.pdb.get? x = some v ∧
    Scanned key x ∧ entryEmbedding c key (x, v) = .ok (some (name, e))
  embeddings_found : ∀ name e x v, s.pdb.get? x = some v → Scanned key x →
    entryEmbedding c key (x, v) = .ok (some (name, e)) → ∃ e', d.embeddings.get? name = some e'
  summaries_mem : ∀ name e, d.summaries.get? name = some e → ∃ x v, s.pdb.get? x = some v ∧
    Scanned key x ∧ entrySummary key (x, v) = .ok (some (name, e))
  summaries_found : ∀ name e x v, s.pdb.get? x = some v → Scanned key x →
    entrySummary key (x, v) = .ok (some (name, e)) → ∃ e', d.summaries.get? name = some e'
  chunks : ∀ name chunk, chunk ∈ (d.chunks.get? name).getD [] ↔ ∃ x v, s.pdb.get? x = some v ∧
    Scanned key x ∧ entryChunk unmarshalChunk key (x, v) = .ok (some (name, chunk))

theorem mem_reduceOption_mapM {β : Type} {f : Bytes × Stored → Except GetError (Option β)}
    {rest : List (Bytes × Stored)} {ys : List (Option β)} (h : rest.mapM f = .ok ys) {b : β} :
    b ∈ ys.reduceOption ↔ ∃ e ∈ rest, f e = .ok (some b) := by
  rw [reduceOption_mem_iff]
  constructor
  · intro hb
    exact Fallible.exists_of_mem_mapM h hb
  · rintro ⟨e, he, hf⟩
    obtain ⟨y, hy, hfy⟩ := Fallible.exists_mem_of_mapM h he
    rw [hf] at hfy
    cases hfy
    exact hy

/-- The iteration shows the body first, and then the other entries under keys of the document. -/
theorem Contents.scan_eq (hkey : key ∈ L.ids) :
    ∃ rest, s.pdb.scan (keyRangeStart key) (prefixSuccessor (keyRangeEnd key)) =
        (keyRangeStart key, .zstd (s.body key)) :: rest ∧
      ∀ e : Bytes × Stored, e ∈ rest ↔ s.pdb.get? e.1 = some e.2 ∧ Scanned key e.1 := by
  have hlt : keyRangeStart key < prefixSuccessor (keyRangeEnd key) :=
    (mem_deleteRange_colon key [0]).2
  obtain ⟨rest, hscan⟩ := scan_eq_cons hlt (s.get?_body hkey)
  refine ⟨rest, hscan, ?_⟩
  have hsorted : ((keyRangeStart key, Stored.zstd (s.body key)) :: rest).Pairwise
      fun a b => a.1 < b.1 := by
    rw [← hscan]
    exact s.pdb.sorted.filter _
  intro e
  constructor
  · intro he
    have hmem : (e.1, e.2) ∈ s.pdb.scan (keyRangeStart key)
        (prefixSuccessor (keyRangeEnd key)) := by
      rw [hscan]
      exact mem_cons_of_mem _ he
    obtain ⟨⟨-, hhi⟩, hget⟩ := (mem_scan_iff _ _ _ _ _).mp hmem
    exact ⟨hget, rel_of_pairwise_cons hsorted he, hhi⟩
  · rintro ⟨hget, hlo, hhi⟩
    have hmem : (e.1, e.2) ∈ s.pdb.scan (keyRangeStart key)
        (prefixSuccessor (keyRangeEnd key)) :=
      (mem_scan_iff _ _ _ _ _).mpr ⟨⟨hlo.le, hhi⟩, hget⟩
    rw [hscan] at hmem
    rcases mem_cons.mp hmem with heq | hrest
    · exact absurd (congrArg Prod.fst heq).symm hlo.ne
    · exact hrest

theorem Contents.retrieve_ok (s : Contents c unmarshalChunk L) (hkey : key ∈ L.ids) :
    ∃ d, retrieveDocument c unmarshalChunk s.pdb key = .ok d ∧ ReadFrom s key d := by
  obtain ⟨rest, hscan, hrest⟩ := s.scan_eq hkey
  obtain ⟨document, hdocument⟩ := Option.isSome_iff_exists.mp (s.decodes key hkey)
  have hstores : ∀ e ∈ rest, s.Stores e.1 e.2 :=
    fun e he => s.stores_of_get? ((hrest e).mp he).1
  obtain ⟨es, hes⟩ : ∃ es, rest.mapM (entryEmbedding c key) = .ok es :=
    Fallible.exists_mapM_ok_iff.mpr fun e he => (hstores e he).entryEmbedding_ok
  obtain ⟨ss, hss⟩ : ∃ ss, rest.mapM (entrySummary key) = .ok ss :=
    Fallible.exists_mapM_ok_iff.mpr fun e he => (hstores e he).entrySummary_ok
  obtain ⟨cs, hcs⟩ : ∃ cs, rest.mapM (entryChunk unmarshalChunk key) = .ok cs :=
    Fallible.exists_mapM_ok_iff.mpr fun e he => (hstores e he).entryChunk_ok
  refine ⟨⟨document, .ofList es.reduceOption, .ofList ss.reduceOption,
    groupChunks cs.reduceOption⟩, ?_, ?_⟩
  · unfold retrieveDocument
    rw [hscan]
    dsimp only
    rw [if_neg (not_not.mpr rfl), hdocument]
    dsimp only
    rw [hes, hss, hcs]
    rfl
  · constructor
    · exact hdocument
    · intro name e hget
      have hlisted := mem_of_get?_ofList hget
      obtain ⟨⟨x, v⟩, hmem, hread⟩ := (mem_reduceOption_mapM hes).mp hlisted
      exact ⟨x, v, ((hrest _).mp hmem).1, ((hrest _).mp hmem).2, hread⟩
    · intro name e x v hget hscanned hread
      exact exists_get?_ofList
        ((mem_reduceOption_mapM hes).mpr ⟨(x, v), (hrest (x, v)).mpr ⟨hget, hscanned⟩, hread⟩)
    · intro name e hget
      have hlisted := mem_of_get?_ofList hget
      obtain ⟨⟨x, v⟩, hmem, hread⟩ := (mem_reduceOption_mapM hss).mp hlisted
      exact ⟨x, v, ((hrest _).mp hmem).1, ((hrest _).mp hmem).2, hread⟩
    · intro name e x v hget hscanned hread
      exact exists_get?_ofList
        ((mem_reduceOption_mapM hss).mpr ⟨(x, v), (hrest (x, v)).mpr ⟨hget, hscanned⟩, hread⟩)
    · intro name chunk
      rw [get?_groupChunks]
      constructor
      · intro hmem
        obtain ⟨⟨n, ch⟩, hfilter, rfl⟩ := mem_map.mp hmem
        obtain ⟨hin, hname⟩ := mem_filter.mp hfilter
        obtain rfl : n = name := of_decide_eq_true hname
        obtain ⟨⟨x, v⟩, hx, hread⟩ := (mem_reduceOption_mapM hcs).mp hin
        exact ⟨x, v, ((hrest _).mp hx).1, ((hrest _).mp hx).2, hread⟩
      · rintro ⟨x, v, hget, hscanned, hread⟩
        apply mem_map.mpr
        refine ⟨(name, chunk), mem_filter.mpr ⟨?_, decide_eq_true rfl⟩, rfl⟩
        exact (mem_reduceOption_mapM hcs).mpr ⟨(x, v), (hrest (x, v)).mpr ⟨hget, hscanned⟩, hread⟩

theorem Artefact.key_of_owner (h : a.owner = key) :
    a.key = key ++ (indexMarker ++ a.indexName) ++ a.kind.ending := by
  rw [a.key_eq, h, append_assoc key]

theorem ArtefactKind.ending_pair (h : kind = .embedding ∨ kind = .summary) :
    ∃ b, kind.ending = [58, b] ∧ b ≠ 58 := by
  rcases h with rfl | rfl
  · exact ⟨101, rfl, by decide⟩
  · exact ⟨115, rfl, by decide⟩

theorem Contents.value_unique {b' : Bytes} (h : (a, b) ∈ s.writes) (h' : (a, b') ∈ s.writes) :
    b = b' := by
  have hnodup : (s.writes.map Prod.fst).Nodup := s.complete.nodup_iff.mpr L.nodup
  have heq := inj_on_of_nodup_map hnodup h h' rfl
  exact (Prod.mk.inj heq).2

namespace ReadBackCondition

variable {a : Artefact} {name b x : Bytes}

theorem own_of_read (h : ReadBackCondition c unmarshalChunk L key) (ha : a ∈ L.artefacts)
    (hkind : a.kind = .embedding ∨ a.kind = .summary) (hscanned : Scanned key a.key)
    (hread : enrichmentIndexName key a.key = some name) :
    a.owner = key ∧ a.indexName = name := by
  obtain ⟨b, hending, hb⟩ := ArtefactKind.ending_pair hkind
  obtain ⟨w, hw⟩ := hscanned.eq_append
  have hend : [58, b] <:+ key ++ 58 :: w := by
    rw [← hw, a.key_eq, hending]
    exact suffix_append _ _
  have howner : a.owner = key := by
    by_contra hne
    have hsuffix : [58, b] <:+ 58 :: w := by
      apply suffix_of_suffix_length_le hend (suffix_append key _)
      have hlong : w ≠ [] := by
        rintro rfl
        obtain ⟨t, ht⟩ := hend
        have hlast := congrArg List.getLast? ht
        simp at hlast
        exact hb hlast
      have hpos := length_pos_iff.mpr hlong
      simp only [length_cons, length_nil]
      omega
    obtain ⟨u, hu⟩ := hsuffix
    rw [hw, ← hu, ← append_assoc, enrichmentIndexName_append] at hread
    cases u with
    | nil => cases hread
    | cons d u =>
      obtain ⟨rfl, -⟩ := List.cons.inj hu
      apply h.others a ha hne hkind u
      · rw [hw, ← hu, hending, append_assoc]
      · by_contra hin
        rw [afterLastIndexMarker_eq_none_iff.mpr hin] at hread
        cases hread
  refine ⟨howner, ?_⟩
  rw [Artefact.key_of_owner howner, hending, enrichmentIndexName_append] at hread
  have hown := afterLastIndexMarker_append_iff (x := []) |>.mpr (h.own a ha howner hkind)
  rw [nil_append, hread] at hown
  exact (Option.some.inj hown).symm

theorem get?_own (h : ReadBackCondition c unmarshalChunk L key) (hw : (a, b) ∈ s.writes)
    (howner : a.owner = key) (hkind : a.kind = .embedding ∨ a.kind = .summary) :
    s.pdb.get? a.key = some (.raw b) := by
  obtain ⟨a', b', hw', hkey, hget⟩ := s.exists_get?_key hw
  have hsame : a'.kind = a.kind :=
    (Artefact.hasSuffix_ending_iff hkind).mp (hkey ▸ (Artefact.hasSuffix_ending_iff hkind).mpr rfl)
  have hform := Artefact.key_of_owner howner
  have howner' : a'.owner = key := by
    by_contra hne
    refine h.others a' (s.mem_artefacts hw') hne (hsame.symm ▸ hkind)
      (ascii ['i', ':'] ++ a.indexName) ?_ ⟨[], a.indexName, rfl⟩
    rw [hkey, hform, hsame]
    rfl
  have heq : a' = a := by
    have hname := Artefact.key_of_owner howner'
    rw [hkey, hform, hsame] at hname
    have hindex := append_cancel_left (append_cancel_left
      (append_cancel_right hname))
    obtain ⟨owner, n, kind⟩ := a
    obtain ⟨owner', n', kind'⟩ := a'
    obtain rfl : n = n' := hindex
    obtain rfl : kind' = kind := hsame
    obtain rfl : owner = owner' := howner.trans howner'.symm
    rfl
  subst heq
  rw [hget, s.value_unique hw hw']

theorem no_chunk (h : ReadBackCondition c unmarshalChunk L key) {v : Stored}
    (hget : s.pdb.get? x = some v) (hscanned : Scanned key x) {chunk : C} :
    entryChunk unmarshalChunk key (x, v) ≠ .ok (some (name, chunk)) := by
  obtain ⟨w, rfl⟩ := hscanned.eq_append
  intro hread
  obtain ⟨hname, b, rfl, hdud, -, hchunk⟩ := entryChunk_eq_some_iff.mp hread
  generalize hx : key ++ 58 :: w = x at hget
  cases s.stores_of_get? hget with
  | artefact hw =>
    have hproper := (s.proper _ hw).resolve_left hdud
    rw [h.chunkFormat _ (s.mem_artefacts hw) w hx.symm (chunkFormat_iff.mpr ⟨name, hname⟩) b
      hproper] at hchunk
    cases hchunk

theorem scanned_own (howner : a.owner = key) : Scanned key a.key := by
  apply Artefact.scanned (w := ascii ['i', ':'] ++ a.indexName ++ a.kind.ending)
  rw [Artefact.key_of_owner howner]
  simp [indexMarker, ascii]

theorem enrichmentIndexName_own (h : ReadBackCondition c unmarshalChunk L key)
    (ha : a ∈ L.artefacts) (howner : a.owner = key)
    (hkind : a.kind = .embedding ∨ a.kind = .summary) :
    enrichmentIndexName key a.key = some a.indexName := by
  obtain ⟨b, hending, -⟩ := ArtefactKind.ending_pair hkind
  have hown := (afterLastIndexMarker_append_iff (x := [])).mpr (h.own a ha howner hkind)
  rw [nil_append] at hown
  rw [Artefact.key_of_owner howner, hending, enrichmentIndexName_append, hown]

theorem mem_writes_of_read (h : ReadBackCondition c unmarshalChunk L key) {kind : ArtefactKind}
    (hkind : kind = .embedding ∨ kind = .summary) (hget : s.pdb.get? x = some (.raw b))
    (hscanned : Scanned key x) (hsuffix : hasSuffix x kind.ending = true)
    (hname : enrichmentIndexName key x = some name) :
    (⟨key, name, kind⟩, b) ∈ s.writes := by
  cases s.stores_of_get? hget with
  | @artefact a b hw =>
    have hsame := (Artefact.hasSuffix_ending_iff hkind).mp hsuffix
    obtain ⟨howner, hindex⟩ :=
      h.own_of_read (s.mem_artefacts hw) (hsame ▸ hkind) hscanned hname
    obtain ⟨owner, n, kind'⟩ := a
    obtain rfl : owner = key := howner
    obtain rfl : n = name := hindex
    obtain rfl : kind' = kind := hsame
    exact hw

theorem exact (h : ReadBackCondition c unmarshalChunk L key) {d : RetrievedDocument C}
    (hread : ReadFrom s key d) : s.Exact key d := by
  constructor
  · exact hread.document
  · have hsound : ∀ name e, d.embeddings.get? name = some e →
        ∃ v, s.Has key name .embedding v ∧ c.decodeEmbedding v = some e := by
      intro name e hget
      obtain ⟨x, v, hstored, hscanned, hentry⟩ := hread.embeddings_mem name e hget
      obtain ⟨hsuffix, hname, b, rfl, hdud, hdecode⟩ := entryEmbedding_eq_some_iff.mp hentry
      exact ⟨b, ⟨h.mem_writes_of_read (.inl rfl) hstored hscanned hsuffix hname, hdud⟩, hdecode⟩
    intro name e
    refine ⟨hsound name e, ?_⟩
    rintro ⟨b, ⟨hw, hdud⟩, hdecode⟩
    have hname := h.enrichmentIndexName_own (s.mem_artefacts hw) rfl (.inl rfl)
    have hsuffix := (Artefact.hasSuffix_ending_iff (.inl rfl)).mpr
      (rfl : Artefact.kind ⟨key, name, .embedding⟩ = .embedding)
    obtain ⟨e', he'⟩ := hread.embeddings_found name e _ _ (h.get?_own hw rfl (.inl rfl))
      (scanned_own rfl)
      (entryEmbedding_eq_some_iff.mpr ⟨hsuffix, hname, b, rfl, hdud, hdecode⟩)
    obtain ⟨b', ⟨hw', -⟩, hdecode'⟩ := hsound name e' he'
    rw [s.value_unique hw hw', hdecode'] at hdecode
    rw [he', hdecode]
  · have hsound : ∀ name e, d.summaries.get? name = some e →
        ∃ v, s.Has key name .summary v ∧ e = .str (v.drop 8) := by
      intro name e hget
      obtain ⟨x, v, hstored, hscanned, hentry⟩ := hread.summaries_mem name e hget
      obtain ⟨hsuffix, hname, b, rfl, hdud, -, he⟩ := entrySummary_eq_some_iff.mp hentry
      exact ⟨b, ⟨h.mem_writes_of_read (.inr rfl) hstored hscanned hsuffix hname, hdud⟩, he⟩
    intro name e
    refine ⟨hsound name e, ?_⟩
    rintro ⟨b, ⟨hw, hdud⟩, rfl⟩
    have hname := h.enrichmentIndexName_own (s.mem_artefacts hw) rfl (.inr rfl)
    have hsuffix := (Artefact.hasSuffix_ending_iff (.inr rfl)).mpr
      (rfl : Artefact.kind ⟨key, name, .summary⟩ = .summary)
    have hlength : 8 ≤ b.length := ((s.value_cases hw).resolve_left hdud).1
    obtain ⟨e', he'⟩ := hread.summaries_found name _ _ _ (h.get?_own hw rfl (.inr rfl))
      (scanned_own rfl)
      (entrySummary_eq_some_iff.mpr ⟨hsuffix, hname, b, rfl, hdud, hlength, rfl⟩)
    obtain ⟨b', ⟨hw', -⟩, heq⟩ := hsound name e' he'
    rw [he', heq, s.value_unique hw hw']
  · intro name
    have hfound : (d.chunks.get? name).getD [] = [] := by
      apply eq_nil_iff_forall_not_mem.mpr
      intro chunk hmem
      obtain ⟨x, v, hget, hscanned, hentry⟩ := (hread.chunks name chunk).mp hmem
      exact h.no_chunk hget hscanned hentry
    have hnone : s.chunksOf key name = [] := by
      apply filterMap_eq_nil_iff.mpr
      rintro ⟨a, b⟩ hw
      apply if_neg
      rintro ⟨howner, -, hchunk, -⟩
      rw [h.noChunks a (s.mem_artefacts hw) howner] at hchunk
      cases hchunk
    rw [hfound, hnone]

end ReadBackCondition

variable (c unmarshalChunk) in
/-- There are values of each kind. -/
structure ValuesExist : Prop where
  body : ∃ b, (c.unmarshalObj b).isSome
  embedding : ∃ v : Bytes, 8 ≤ v.length ∧ (c.decodeEmbedding v).isSome
  chunk : ∃ v : Bytes, 8 ≤ v.length ∧ (unmarshalChunk (v.drop 8)).isSome

theorem ValuesExist.exists_proper (h : ValuesExist c unmarshalChunk) (a : Artefact) :
    ∃ v, a.Proper c unmarshalChunk v := by
  obtain ⟨owner, n, kind⟩ := a
  cases kind with
  | embedding => exact h.embedding
  | summary => exact ⟨List.replicate 8 0, by decide, trivial⟩
  | chunk kind i => exact h.chunk

variable {a : Artefact} {v w : Bytes}

theorem ValuesExist.exists_solo (h : ValuesExist c unmarshalChunk) (ha : a ∈ L.artefacts)
    (hv : a.Proper c unmarshalChunk v) :
    ∃ s : Contents c unmarshalChunk L, (a, v) ∈ s.writes ∧ s.pdb.get? a.key = some (.raw v) ∧
      ∀ a' v', (a', v') ∈ s.writes → v' ≠ dudEnrichmentValue → a' = a ∧ v' = v := by
  obtain ⟨body, hbody⟩ := h.body
  let writes := (L.artefacts.erase a).map (fun a' => (a', dudEnrichmentValue)) ++ [(a, v)]
  have hcomplete : (writes.map Prod.fst).Perm L.artefacts := by
    have hfst : writes.map Prod.fst = L.artefacts.erase a ++ [a] := by
      simp [writes, Function.comp_def]
    rw [hfst]
    exact (perm_append_singleton a _).trans (perm_cons_erase ha).symm
  have hproper : ∀ w ∈ writes, w.2 = dudEnrichmentValue ∨ w.1.Proper c unmarshalChunk w.2 := by
    intro w hw
    rcases mem_append.mp hw with hdud | hlast
    · obtain ⟨a', -, rfl⟩ := mem_map.mp hdud
      exact .inl rfl
    · rw [mem_singleton.mp hlast]
      exact .inr hv
  refine ⟨⟨fun _ => body, fun _ => 0, writes, fun _ _ => hbody, hcomplete, hproper⟩,
    mem_append_right _ mem_cons_self, ?_, ?_⟩
  · simp only [Contents.pdb, Contents.ops, writes, map_append, ← append_assoc,
      map_cons, map_nil]
    rw [get?_applyAll, lastEffect_append]
    simp [OrdMap.lastEffect, OrdMap.Edit.effect]
  · intro a' v' hw hdud
    rcases mem_append.mp hw with hmem | hlast
    · obtain ⟨a'', -, heq⟩ := mem_map.mp hmem
      cases heq
      exact absurd rfl hdud
    · cases mem_singleton.mp hlast
      exact ⟨rfl, rfl⟩

theorem ne_dud_of_proper (h : a.Proper c unmarshalChunk v) : v ≠ dudEnrichmentValue := by
  rintro rfl
  exact absurd h.1 (by decide)

theorem ReadBackExact.read (h : ReadBackExact c unmarshalChunk L) (s : Contents c unmarshalChunk L)
    (hkey : key ∈ L.ids) : ∃ d, ReadFrom s key d ∧ s.Exact key d := by
  obtain ⟨d, hd, hexact⟩ := h s key hkey
  obtain ⟨d', hd', hread⟩ := s.retrieve_ok hkey
  rw [hd] at hd'
  cases hd'
  exact ⟨d, hread, hexact⟩

theorem chunkIndexName_own_ne (howner : a.owner = key) (hchunk : a.kind.isChunk = true) :
    chunkIndexName key a.key ≠ some a.indexName := by
  intro hname
  rw [Artefact.key_of_owner howner, append_assoc, append_assoc] at hname
  obtain ⟨x, y, hcut, hbefore, hne⟩ := chunkIndexName_eq_some_iff.mp hname
  have hx : x = [] := (before_eq_nil_iff hcut).mpr (prefix_append _ _)
  subst hx
  have hsplit : indexMarker ++ (a.indexName ++ a.kind.ending) = [] ++ indexMarker ++ y :=
    cut_eq_some hcut
  have hy : a.indexName ++ a.kind.ending = y := append_cancel_left hsplit
  have hsep : ∃ t, a.kind.ending = 58 :: 99 :: t := by
    unfold beforeChunkSeparator at hbefore
    cases hfullText : cut fullTextSeparator y with
    | some p =>
      have hsplit := cut_eq_some hfullText
      rw [hfullText] at hbefore
      rw [← hy, show p.1 = a.indexName from hbefore, append_assoc] at hsplit
      exact ⟨_, append_cancel_left hsplit⟩
    | none =>
      rw [hfullText] at hbefore
      cases hsmall : cut chunkSeparator y with
      | some p =>
        have hsplit := cut_eq_some hsmall
        rw [hsmall] at hbefore
        rw [← hy, show p.1 = a.indexName from hbefore, append_assoc] at hsplit
        exact ⟨_, append_cancel_left hsplit⟩
      | none =>
        rw [hsmall] at hbefore
        exact absurd hbefore.symm hne
  obtain ⟨t, ht⟩ := hsep
  obtain ⟨owner, n, kind⟩ := a
  cases kind with
  | embedding => cases hchunk
  | summary => cases hchunk
  | chunk kind i =>
    -- The separator is followed by the number of the chunk, and that is a digit.
    have hdecimal : decimal i.toNat ++ kind.suffix = 99 :: t := (List.cons.inj ht).2
    cases hdigits : decimal i.toNat with
    | nil => exact decimal_ne_nil _ hdigits
    | cons d ds =>
      rw [hdigits] at hdecimal
      obtain rfl : d = 99 := (List.cons.inj hdecimal).1
      have hdigit := digit_of_mem_decimal (hdigits ▸ mem_cons_self : 99 ∈ decimal i.toNat)
      exact absurd hdigit.2 (by decide)

theorem ReadBackExact.noChunks (h : ReadBackExact c unmarshalChunk L)
    (hvalues : ValuesExist c unmarshalChunk) (hkey : key ∈ L.ids) (ha : a ∈ L.artefacts)
    (howner : a.owner = key) :
    a.kind.isChunk = false := by
  by_contra hchunk
  rw [Bool.not_eq_false] at hchunk
  obtain ⟨v, hv⟩ := hvalues.exists_proper a
  obtain ⟨s, hw, -, hsolo⟩ := hvalues.exists_solo ha hv
  obtain ⟨d, hread, hexact⟩ := h.read s hkey
  have hdud := ne_dud_of_proper hv
  obtain ⟨-, -, hdecode⟩ := (s.value_cases hw).resolve_left hdud
  obtain ⟨chunk, hvalue⟩ := Option.isSome_iff_exists.mp (hdecode hchunk)
  have hmem : chunk ∈ s.chunksOf key a.indexName := by
    apply mem_filterMap.mpr
    exact ⟨(a, v), hw, (if_pos ⟨howner, rfl, hchunk, hdud⟩).trans hvalue⟩
  rw [← (hexact.chunks a.indexName).mem_iff, hread.chunks] at hmem
  obtain ⟨x, u, hget, hscanned, hentry⟩ := hmem
  obtain ⟨w, rfl⟩ := hscanned.eq_append
  obtain ⟨hname, b, rfl, hdud', -⟩ := entryChunk_eq_some_iff.mp hentry
  generalize hx : key ++ 58 :: w = x at hget hname
  cases s.stores_of_get? hget with
  | artefact hw' =>
    obtain ⟨rfl, -⟩ := hsolo _ _ hw' hdud'
    exact chunkIndexName_own_ne howner hchunk hname

theorem startsAfterMarker_of_read (howner : a.owner = key)
    (hkind : a.kind = .embedding ∨ a.kind = .summary)
    (h : enrichmentIndexName key a.key = some a.indexName) :
    StartsAfterMarker a.indexName := by
  obtain ⟨b, hending, -⟩ := ArtefactKind.ending_pair hkind
  rw [Artefact.key_of_owner howner, hending, enrichmentIndexName_append] at h
  exact (afterLastIndexMarker_append_iff (x := [])).mp h

theorem ReadBackExact.own (h : ReadBackExact c unmarshalChunk L)
    (hvalues : ValuesExist c unmarshalChunk) (hkey : key ∈ L.ids) (ha : a ∈ L.artefacts)
    (howner : a.owner = key) (hkind : a.kind = .embedding ∨ a.kind = .summary) :
    StartsAfterMarker a.indexName := by
  apply startsAfterMarker_of_read howner hkind
  obtain ⟨v, hv⟩ := hvalues.exists_proper a
  obtain ⟨s, hw, -, hsolo⟩ := hvalues.exists_solo ha hv
  obtain ⟨d, hread, hexact⟩ := h.read s hkey
  have hdud := ne_dud_of_proper hv
  have hread : ∃ x b, s.pdb.get? x = some (.raw b) ∧ b ≠ dudEnrichmentValue ∧
      enrichmentIndexName key x = some a.indexName := by
    obtain ⟨owner, n, kind⟩ := a
    obtain rfl : owner = key := howner
    rcases hkind with hkind | hkind
    · obtain rfl : kind = .embedding := hkind
      obtain ⟨e, he⟩ := Option.isSome_iff_exists.mp hv.2
      have hget := (hexact.embeddings n e).mpr ⟨v, ⟨hw, hdud⟩, he⟩
      obtain ⟨x, u, hstored, -, hentry⟩ := hread.embeddings_mem n e hget
      obtain ⟨-, hname, b, rfl, hdud', -⟩ := entryEmbedding_eq_some_iff.mp hentry
      exact ⟨x, b, hstored, hdud', hname⟩
    · obtain rfl : kind = .summary := hkind
      have hget := (hexact.summaries n (.str (v.drop 8))).mpr ⟨v, ⟨hw, hdud⟩, rfl⟩
      obtain ⟨x, u, hstored, -, hentry⟩ := hread.summaries_mem n _ hget
      obtain ⟨-, hname, b, rfl, hdud', -⟩ := entrySummary_eq_some_iff.mp hentry
      exact ⟨x, b, hstored, hdud', hname⟩
  obtain ⟨x, b, hstored, hdud', hname⟩ := hread
  cases s.stores_of_get? hstored with
  | artefact hw' =>
    obtain ⟨rfl, -⟩ := hsolo _ _ hw' hdud'
    exact hname

theorem ReadBackExact.others (h : ReadBackExact c unmarshalChunk L)
    (hvalues : ValuesExist c unmarshalChunk) (hkey : key ∈ L.ids) (ha : a ∈ L.artefacts)
    (howner : a.owner ≠ key) (hkind : a.kind = .embedding ∨ a.kind = .summary)
    (hform : a.key = key ++ 58 :: w ++ a.kind.ending) :
    ¬ indexMarker <:+: 58 :: w := by
  intro hin
  obtain ⟨v, hv⟩ := hvalues.exists_proper a
  obtain ⟨s, hw, hstored, hsolo⟩ := hvalues.exists_solo ha hv
  obtain ⟨d, hread, hexact⟩ := h.read s hkey
  have hdud := ne_dud_of_proper hv
  have hscanned : Scanned key a.key :=
    Artefact.scanned (hform.trans (append_assoc key (58 :: w) _))
  obtain ⟨b, hending, -⟩ := ArtefactKind.ending_pair hkind
  have hname : ∃ name, enrichmentIndexName key a.key = some name := by
    rw [hform, hending, enrichmentIndexName_append]
    apply Option.ne_none_iff_exists'.mp
    rw [Ne, afterLastIndexMarker_eq_none_iff]
    exact not_not.mpr hin
  obtain ⟨name, hname⟩ := hname
  have hsuffix := (Artefact.hasSuffix_ending_iff hkind).mpr rfl
  have hhas : ∃ v', s.Has key name a.kind v' := by
    rcases hkind with hkind | hkind
    · obtain ⟨-, hdecode, -⟩ := (s.value_cases hw).resolve_left hdud
      obtain ⟨e, he⟩ := Option.isSome_iff_exists.mp (hdecode hkind)
      rw [hkind] at hsuffix ⊢
      obtain ⟨e', he'⟩ := hread.embeddings_found name e _ _ hstored hscanned
        (entryEmbedding_eq_some_iff.mpr ⟨hsuffix, hname, v, rfl, hdud, he⟩)
      obtain ⟨v', hhas, -⟩ := (hexact.embeddings name e').mp he'
      exact ⟨v', hhas⟩
    · rw [hkind] at hsuffix ⊢
      obtain ⟨e', he'⟩ := hread.summaries_found name _ _ _ hstored hscanned
        (entrySummary_eq_some_iff.mpr ⟨hsuffix, hname, v, rfl, hdud, hv.1, rfl⟩)
      obtain ⟨v', hhas, -⟩ := (hexact.summaries name e').mp he'
      exact ⟨v', hhas⟩
  obtain ⟨v', hw', hdud'⟩ := hhas
  obtain ⟨heq, -⟩ := hsolo _ _ hw' hdud'
  exact howner (congrArg Artefact.owner heq).symm

theorem ReadBackExact.chunkFormat (h : ReadBackExact c unmarshalChunk L)
    (hvalues : ValuesExist c unmarshalChunk) (hkey : key ∈ L.ids) (ha : a ∈ L.artefacts)
    (hform : a.key = key ++ 58 :: w) (hformat : ChunkFormat (58 :: w))
    (hv : a.Proper c unmarshalChunk v) :
    unmarshalChunk (v.drop 8) = none := by
  by_contra hvalue
  obtain ⟨chunk, hchunk⟩ := Option.ne_none_iff_exists'.mp hvalue
  obtain ⟨s, hw, hstored, hsolo⟩ := hvalues.exists_solo ha hv
  obtain ⟨d, hread, hexact⟩ := h.read s hkey
  have hscanned := Artefact.scanned hform
  rw [hform] at hstored hscanned
  obtain ⟨name, hname⟩ := chunkFormat_iff.mp hformat
  have hentry := entryChunk_eq_some_iff.mpr
    ⟨hname, v, rfl, ne_dud_of_proper hv, hv.1, hchunk⟩
  have hmem := (hread.chunks name chunk).mpr ⟨_, _, hstored, hscanned, hentry⟩
  rw [(hexact.chunks name).mem_iff] at hmem
  obtain ⟨⟨a', v'⟩, hw', hof⟩ := mem_filterMap.mp hmem
  split at hof
  · rename_i hown
    obtain ⟨howner, -, hischunk, hdud⟩ := hown
    obtain ⟨rfl, -⟩ := hsolo _ _ hw' hdud
    have hnone := h.noChunks hvalues hkey ha howner
    rw [hischunk] at hnone
    cases hnone
  · cases hof

/-- Artefacts are read back exactly, whatever their values, just when the condition holds for every
document. -/
theorem readBackExact_iff (hvalues : ValuesExist c unmarshalChunk) :
    ReadBackExact c unmarshalChunk L ↔
      ∀ key ∈ L.ids, ReadBackCondition c unmarshalChunk L key := by
  constructor
  · intro h key hkey
    constructor
    · intro a ha howner hkind
      exact h.own hvalues hkey ha howner hkind
    · intro a ha howner hkind w hform
      exact h.others hvalues hkey ha howner hkind hform
    · intro a ha howner
      exact h.noChunks hvalues hkey ha howner
    · intro a ha w hform hformat v hv
      exact h.chunkFormat hvalues hkey ha hform hformat hv
  · intro h s key hkey
    obtain ⟨d, hd, hread⟩ := s.retrieve_ok hkey
    exact ⟨d, hd, (h key hkey).exact hread⟩

end Values

/-- A codec whose only embedding is the empty vector under hash zero. -/
def Codec.emptyVector : Codec :=
  { Codec.emptyObject with
    decodeEmbedding := fun v => if v = List.replicate 12 0 then some (.arr []) else none }

/-- Chunks whose only JSON text is the empty object. -/
def emptyChunk (v : Bytes) : Option Bytes := if v = ascii ['\x7b', '\x7d'] then some [] else none

theorem emptyVector_valuesExist : ValuesExist Codec.emptyVector emptyChunk where
  body := ⟨ascii ['\x7b', '\x7d'], rfl⟩
  embedding := ⟨List.replicate 12 0, by decide, rfl⟩
  chunk := ⟨List.replicate 8 0 ++ ascii ['\x7b', '\x7d'], by decide, rfl⟩

/-- Documents `a` and `a0` with an embedding each. -/
def separateLayout : ArtefactLayout where
  ids := [ascii ['a'], ascii ['a', '0']]
  artefacts := [⟨ascii ['a'], ascii ['x'], .embedding⟩, ⟨ascii ['a', '0'], ascii ['x'], .embedding⟩]
  accepted := by decide
  nodup := by decide
  owned := by
    intro a ha
    left
    revert a
    decide
  named := by decide

theorem separate_readBackExact : ReadBackExact Codec.emptyVector emptyChunk separateLayout := by
  apply (readBackExact_iff emptyVector_valuesExist).mpr
  intro key hkey
  have hkinds : ∀ a ∈ separateLayout.artefacts,
      a.kind = .embedding ∧ a.indexName = ascii ['x'] := by decide
  have hapart : ∀ key ∈ separateLayout.ids, ∀ a ∈ separateLayout.artefacts, a.owner ≠ key →
      a.key[key.length]? ≠ some 58 := by decide
  constructor
  · intro a ha howner hkind
    rw [(hkinds a ha).2]
    decide
  · intro a ha howner hkind w hform
    have hbyte : a.key[key.length]? = some 58 := by
      rw [hform, List.append_assoc, List.getElem?_append_right (Nat.le_refl _), Nat.sub_self]
      rfl
    exact absurd hbyte (hapart key hkey a ha howner)
  · intro a ha howner
    rw [(hkinds a ha).1]
    rfl
  · intro a ha w hform hformat v hv
    have hvector : (Codec.emptyVector.decodeEmbedding v).isSome = true := by
      have hproper := hv.2
      rw [(hkinds a ha).1] at hproper
      exact hproper
    have hzero : v = List.replicate 12 0 := by
      by_contra hne
      rw [show Codec.emptyVector.decodeEmbedding v = none from if_neg hne] at hvector
      cases hvector
    rw [hzero]
    decide

/-- Documents `a` and `a:b`, and an embedding of `a:b`. -/
def extendedLayout : ArtefactLayout where
  ids := [ascii ['a'], ascii ['a', ':', 'b']]
  artefacts := [⟨ascii ['a', ':', 'b'], ascii ['x'], .embedding⟩]
  accepted := by decide
  nodup := by decide
  owned := by
    intro a ha
    left
    revert a
    decide
  named := by decide

/-- The embedding of `a:b` is read back as one of `a`. -/
theorem readBack_not_exact : ¬ ReadBackExact Codec.emptyVector emptyChunk extendedLayout := by
  intro h
  let a : Artefact := ⟨ascii ['a', ':', 'b'], ascii ['x'], .embedding⟩
  have hdoc : ascii ['a'] ∈ extendedLayout.ids := by decide
  have ha : a ∈ extendedLayout.artefacts := by decide
  have hform : a.key = ascii ['a'] ++ 58 :: ascii ['b', ':', 'i', ':', 'x'] ++ a.kind.ending := by
    decide
  have hnone := h.others emptyVector_valuesExist hdoc ha (by decide) (Or.inl rfl) hform
  exact hnone ⟨ascii [':', 'b'], ascii ['x'], by decide⟩

end Antfly
