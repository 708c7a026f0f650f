import Antfly.Store.DataFrame
import Antfly.Store.DeclarativeFields

/-!
An edge, its timestamp, an embedding or a summary of a document lies under the name of its index,
so a document touches the keys of an index only if it names it.  A listed edge is set and kept; its
timestamp is set too, but deleted again if one was stored before.
-/

namespace Antfly

open Fallible List Option OrdMap

def indexedKey (key indexName rest : Bytes) : Bytes :=
  key ++ indexMarker ++ (indexName ++ 58 :: rest)

def edgeRest (target type : Bytes) : Bytes :=
  ascii ['o', 'u', 't', ':'] ++ type ++ ascii [':'] ++ target ++ edgeOutSuffix

section Keys

variable {key indexName name rest rest' : Bytes}

theorem makeEmbeddingKey_eq (key name : Bytes) :
    makeEmbeddingKey key name = indexedKey key name [101] := by
  simp [makeEmbeddingKey, indexedKey, embeddingSuffix, ascii]

theorem makeSparseKey_eq (key name : Bytes) :
    makeSparseKey key name = indexedKey key name [115, 112] := by
  simp [makeSparseKey, indexedKey, sparseSuffix, ascii]

theorem makeSummaryKey_eq (key name : Bytes) :
    makeSummaryKey key name = indexedKey key name [115] := by
  simp [makeSummaryKey, indexedKey, summarySuffix, ascii]

theorem makeEdgeKey_eq (key target name type : Bytes) :
    makeEdgeKey key target name type = indexedKey key name (edgeRest target type) := by
  simp [makeEdgeKey, indexedKey, edgeRest, outMarker, ascii]

theorem timestampKey_indexedKey :
    timestampKey (indexedKey key name rest) = indexedKey key name (rest ++ [58, 116]) := by
  simp [timestampKey, indexedKey, transactionSuffix, ascii]

theorem eq_of_first_colon {n m r r' : Bytes} (hn : (58 : UInt8) ∉ n) (hm : (58 : UInt8) ∉ m) :
    n ++ 58 :: r = m ++ 58 :: r' ↔ n = m ∧ r = r' := by
  refine ⟨fun h => ?_, fun ⟨hnm, hr⟩ => by rw [hnm, hr]⟩
  have htake := congrArg (List.takeWhile (· ≠ (58 : UInt8))) h
  have hdrop := congrArg (List.dropWhile (· ≠ (58 : UInt8))) h
  have hall {l : Bytes} (hl : (58 : UInt8) ∉ l) : ∀ b ∈ l, decide (b ≠ 58) = true :=
    fun b hb => decide_eq_true fun heq => hl (heq ▸ hb)
  rw [takeWhile_append_of_pos (hall hn), takeWhile_append_of_pos (hall hm)] at htake
  rw [dropWhile_append_of_pos (hall hn), dropWhile_append_of_pos (hall hm)] at hdrop
  exact ⟨by simpa using htake, by simpa using hdrop⟩

theorem indexedKey_inj (hname : (58 : UInt8) ∉ name) (hindex : (58 : UInt8) ∉ indexName) :
    indexedKey key name rest = indexedKey key indexName rest' ↔
      name = indexName ∧ rest = rest' := by
  unfold indexedKey
  rw [append_cancel_left_eq, eq_of_first_colon hname hindex]

theorem edgeIteratorPrefix_indexedKey (hname : (58 : UInt8) ∉ name)
    (hindex : (58 : UInt8) ∉ indexName) :
    edgeIteratorPrefix key name [] <+: indexedKey key indexName rest ↔
      name = indexName ∧ ascii ['o', 'u', 't', ':'] <+: rest := by
  have heq : edgeIteratorPrefix key name [] =
      key ++ indexMarker ++ (name ++ 58 :: ascii ['o', 'u', 't', ':']) := by
    simp [edgeIteratorPrefix, outMarker, ascii]
  unfold indexedKey
  rw [heq, prefix_append_right_inj]
  constructor
  · rintro ⟨t, ht⟩
    rw [append_assoc, cons_append, eq_of_first_colon hname hindex] at ht
    exact ⟨ht.1, t, ht.2⟩
  · rintro ⟨rfl, t, rfl⟩
    exact ⟨t, by simp⟩

theorem edgeRest_begins (target type : Bytes) :
    ascii ['o', 'u', 't', ':'] <+: edgeRest target type :=
  ⟨type ++ ascii [':'] ++ target ++ edgeOutSuffix, by simp [edgeRest]⟩

theorem getLast?_edgeRest (target type : Bytes) : (edgeRest target type).getLast? = some 111 := by
  unfold edgeRest edgeOutSuffix
  rw [getLast?_append_of_ne_nil _ (by decide)]
  rfl

end Keys

section Parts

variable {x : Bytes}

variable {ws : List Write}

theorem lastEffect_sets_none (h : ∀ w ∈ ws, w.1 ≠ x) :
    OrdMap.lastEffect (ws.map rawSet) x = none := by
  rw [lastEffect_eq_none_iff]
  intro e he
  obtain ⟨w, hw, rfl⟩ := mem_map.mp he
  exact if_neg (h w hw).symm

theorem lastEffect_sets_some (h : ∃ w ∈ ws, w.1 = x) :
    ∃ w ∈ ws, w.1 = x ∧ OrdMap.lastEffect (ws.map rawSet) x = some (some (.raw w.2)) := by
  cases heffect : OrdMap.lastEffect (ws.map rawSet) x with
  | none =>
    obtain ⟨w, hw, rfl⟩ := h
    have hnone := lastEffect_eq_none_iff.mp heffect _ (mem_map_of_mem hw)
    exact absurd hnone (by simp [rawSet, OrdMap.Edit.effect])
  | some o =>
    obtain ⟨e, he, hex⟩ := exists_effect_of_lastEffect heffect
    obtain ⟨w, hw, rfl⟩ := mem_map.mp he
    rw [rawSet, OrdMap.Edit.effect] at hex
    split at hex
    · next heq => exact ⟨w, hw, heq.symm, congrArg some (Option.some.inj hex).symm⟩
    · cases hex

theorem lastEffect_deletes (ds : List Bytes) :
    OrdMap.lastEffect (ds.map (OrdMap.Edit.delete : Bytes → PebbleOp)) x =
      if x ∈ ds then some none else none := by
  by_cases hx : x ∈ ds
  · rw [if_pos hx]
    refine lastEffect_eq_absent ⟨_, mem_map_of_mem hx, if_pos rfl⟩ ?_
    intro e he
    obtain ⟨d, -, rfl⟩ := mem_map.mp he
    rw [OrdMap.Edit.effect]
    split
    · exact .inr rfl
    · exact .inl rfl
  · rw [if_neg hx, lastEffect_eq_none_iff]
    intro e he
    obtain ⟨d, hd, rfl⟩ := mem_map.mp he
    refine if_neg ?_
    rintro rfl
    exact hx hd

end Parts

/-- A document that spells the names of its special fields out, and whose entries are those of maps
and name no index with a colon. -/
structure Spelled (c : Codec) (json : Bytes) : Prop where
  mentioned : ¬ NoSpecialFields c json → mentionsSpecialFields json = true
  plain : ∀ field indexName, Names c field json indexName → (58 : UInt8) ∉ indexName
  distinct : ∀ field, ((specialEntries c json field).map Prod.fst).Nodup

/-- Such a document whose special fields can be extracted. -/
structure Accepted (c : Codec) (db : DBImpl) (key json : Bytes) : Prop extends Spelled c json where
  extracted : ∃ r, extractAndWriteSpecialFields c db json key = .ok r

/-- The operations of the special fields of a document. -/
def fieldOps (c : Codec) (db : DBImpl) (key : Bytes) (ts : Nat) (json : Bytes) : List PebbleOp :=
  match extractAndWriteSpecialFields c db json key with
  | .ok (some sf) => sf.ops ts
  | _ => []

section Document

variable {c : Codec} {db : DBImpl} {key json : Bytes} {ts : Nat}

variable {field indexName : Bytes}

theorem specialEntries_of_noSpecialFields (h : NoSpecialFields c json)
    (hfield : isSpecialField field = true) :
    specialEntries c json field = [] := by
  unfold specialEntries
  cases hdoc : c.unmarshalObj json with
  | none => rfl
  | some doc =>
    rw [bind_some]
    cases hget : doc.get? field with
    | none => rfl
    | some v =>
      obtain ⟨l, l', rfl, -⟩ := lookup_eq_some_iff.mp hget
      have hnot := h _ hdoc (field, v) (mem_append_right l mem_cons_self)
      rw [hfield] at hnot
      cases hnot

theorem NoSpecialFields.not_names (h : NoSpecialFields c json)
    (hfield : isSpecialField field = true) :
    ¬ Names c field json indexName := by
  unfold Names
  rw [specialEntries_of_noSpecialFields h hfield]
  exact not_mem_nil

/-- Nothing is extracted of a document without special fields; of another one, its entries are. -/
theorem Accepted.cases (h : Accepted c db key json) (ts : Nat) :
    (NoSpecialFields c json ∧ fieldOps c db key ts json = [] ∧
      committedBody c db key json = json ∧ mentionsSpecialFields json = false ∧
      extractAndWriteSpecialFields c db json key = .ok none) ∨
    ∃ sf, Extracted c db key json sf ∧ fieldOps c db key ts json = sf.ops ts ∧
      committedBody c db key json = sf.cleanedJSON ∧ mentionsSpecialFields json = true ∧
      extractAndWriteSpecialFields c db json key = .ok (some sf) := by
  obtain ⟨r, hr⟩ := h.extracted
  cases r with
  | none =>
    have hmentions : mentionsSpecialFields json = false := by
      unfold extractAndWriteSpecialFields at hr
      split at hr
      · next hnot => simpa using hnot
      · rw [bind_eq_ok] at hr
        obtain ⟨sf, -, hsf⟩ := hr
        cases hsf
    refine .inl ⟨?_, by unfold fieldOps; rw [hr], by unfold committedBody; rw [hr], hmentions,
      hr⟩
    by_contra hspecial
    rw [h.mentioned hspecial] at hmentions
    cases hmentions
  | some sf =>
    have hextract : mentionsSpecialFields json = true ∧
        extractSpecialFields c db json key = .ok sf := by
      unfold extractAndWriteSpecialFields at hr
      split at hr
      · cases hr
      · next hmentions =>
          rw [bind_eq_ok] at hr
          obtain ⟨sf', hsf', heq⟩ := hr
          cases heq
          exact ⟨by simpa using hmentions, hsf'⟩
    exact .inr ⟨sf, extractSpecialFields_extracted hextract.2, by unfold fieldOps; rw [hr],
      by unfold committedBody; rw [hr], hextract.1, hr⟩

theorem names_of_mem_declaredEdges {w : Write} (hw : w ∈ declaredEdges c db key json indexName) :
    Names c edgesField json indexName ∧
      ∃ target type, w.1 = makeEdgeKey key target indexName type := by
  obtain ⟨g, hg, hwg⟩ := mem_flatMap.mp hw
  obtain ⟨hmem, hname⟩ := mem_filter.mp hg
  obtain rfl := of_decide_eq_true hname
  refine ⟨mem_map_of_mem hmem, ?_⟩
  cases hok : extractIndexEdges c db key g.1 g.2 with
  | error e =>
    rw [hok] at hwg
    exact absurd hwg not_mem_nil
  | ok ws =>
    rw [hok, getD_ok] at hwg
    exact extractIndexEdges_key hok hwg

section Extraction

variable {sf : SpecialFields} {indexName rest : Bytes}

/-- The names of the indexes have no colon. -/
def PlainNames (c : Codec) (json : Bytes) : Prop :=
  ∀ field name, Names c field json name → (58 : UInt8) ∉ name

theorem lastEffect_ops (x : Bytes) : OrdMap.lastEffect (sf.ops ts) x =
    (if x ∈ sf.indexDeletes then some none else none).or
      ((OrdMap.lastEffect (sf.edgeWrites.flatMap fun w => rawSet w :: timestampOps w.1 ts) x).or
        ((OrdMap.lastEffect (sf.summaryWrites.map rawSet) x).or
          (OrdMap.lastEffect (sf.embeddingWrites.map rawSet) x))) := by
  unfold SpecialFields.ops
  rw [lastEffect_append, lastEffect_append, lastEffect_append,
    lastEffect_deletes]

variable {w : Write}

theorem Extracted.embeddingKey (h : Extracted c db key json sf) (hw : w ∈ sf.embeddingWrites) :
    ∃ e ∈ specialEntries c json embeddingsField,
      extractEmbedding c db key e.1 e.2 = .ok (.inl w) ∧
        (w.1 = indexedKey key e.1 [101] ∨ w.1 = indexedKey key e.1 [115, 112]) := by
  obtain ⟨e, he, hok⟩ := (h.mem_embeddingWrites w).mp hw
  have hkey := extractEmbedding_key hok
  rw [makeEmbeddingKey_eq, makeSparseKey_eq] at hkey
  exact ⟨e, he, hok, hkey⟩

theorem Extracted.summaryKey (h : Extracted c db key json sf) (hw : w ∈ sf.summaryWrites) :
    ∃ s ∈ specialEntries c json summariesField,
      extractSummary c db key s.1 s.2 = .ok (some w) ∧ w.1 = indexedKey key s.1 [115] := by
  obtain ⟨s, hs, hok⟩ := (h.mem_summaryWrites w).mp hw
  exact ⟨s, hs, hok, (extractSummary_key hok).trans (makeSummaryKey_eq key s.1)⟩

theorem Extracted.edgeKey (h : Extracted c db key json sf) (hw : w ∈ sf.edgeWrites) :
    ∃ name target type, w ∈ declaredEdges c db key json name ∧ Names c edgesField json name ∧
      w.1 = indexedKey key name (edgeRest target type) := by
  obtain ⟨name, hlisted⟩ := (h.mem_edgeWrites w).mp hw
  obtain ⟨hname, target, type, hedge⟩ := names_of_mem_declaredEdges hlisted
  exact ⟨name, target, type, hlisted, hname, hedge.trans (makeEdgeKey_eq key target name type)⟩

theorem Extracted.mem_edgeKeys (h : Extracted c db key json sf) (hplain : PlainNames c json)
    (hindex : (58 : UInt8) ∉ indexName) (hkey : w.1 = indexedKey key indexName rest) :
    w ∈ sf.edgeWrites ↔ w ∈ declaredEdges c db key json indexName := by
  constructor
  · intro hw
    obtain ⟨name, target, type, hlisted, hname, hedge⟩ := h.edgeKey hw
    obtain ⟨rfl, -⟩ := (indexedKey_inj (hplain edgesField name hname) hindex).mp
      (hedge.symm.trans hkey)
    exact hlisted
  · exact fun hw => (h.mem_edgeWrites w).mpr ⟨indexName, hw⟩

/-- Under the edges of an index a document deletes what is stored and not listed, if it names the
index. -/
theorem Extracted.mem_deletes_iff (h : Extracted c db key json sf) (hplain : PlainNames c json)
    (hindex : (58 : UInt8) ∉ indexName) (hrest : ascii ['o', 'u', 't', ':'] <+: rest) :
    indexedKey key indexName rest ∈ sf.indexDeletes ↔
      Names c edgesField json indexName ∧ (db.get? (indexedKey key indexName rest)).isSome ∧
        indexedKey key indexName rest ∉ sf.edgeWrites.map Prod.fst := by
  have hembedding : ¬ ∃ e ∈ specialEntries c json embeddingsField,
      extractEmbedding c db key e.1 e.2 = .ok (.inr (indexedKey key indexName rest)) := by
    rintro ⟨e, he, hok⟩
    have hname : (58 : UInt8) ∉ e.1 := hplain embeddingsField e.1 (mem_map_of_mem he)
    have hkey := extractEmbedding_key hok
    rw [makeEmbeddingKey_eq, makeSparseKey_eq] at hkey
    rcases hkey with hkey | hkey
    · obtain ⟨-, rfl⟩ := (indexedKey_inj hindex hname).mp hkey
      revert hrest
      decide
    · obtain ⟨-, rfl⟩ := (indexedKey_inj hindex hname).mp hkey
      revert hrest
      decide
  rw [h.mem_indexDeletes, or_iff_right hembedding, mem_reconcileEdges]
  refine and_congr_left fun _ => ?_
  constructor
  · rintro ⟨name, hname, hpre⟩
    obtain ⟨rfl, -⟩ := (edgeIteratorPrefix_indexedKey (hplain edgesField name hname) hindex).mp hpre
    exact hname
  · intro hname
    exact ⟨indexName, hname, (edgeIteratorPrefix_indexedKey hindex hindex).mpr ⟨rfl, hrest⟩⟩

theorem lastEffect_embeddings_none (h : Extracted c db key json sf) (hplain : PlainNames c json)
    (hindex : (58 : UInt8) ∉ indexName)
    (hno : Names c embeddingsField json indexName → rest ≠ [101] ∧ rest ≠ [115, 112]) :
    OrdMap.lastEffect (sf.embeddingWrites.map rawSet) (indexedKey key indexName rest) = none := by
  refine lastEffect_sets_none fun w hw heq => ?_
  obtain ⟨e, he, -, hkey⟩ := h.embeddingKey hw
  have hname : Names c embeddingsField json e.1 := mem_map_of_mem he
  rw [heq] at hkey
  rcases hkey with hkey | hkey
  · obtain ⟨rfl, hr⟩ := (indexedKey_inj hindex (hplain _ _ hname)).mp hkey
    exact (hno hname).1 hr
  · obtain ⟨rfl, hr⟩ := (indexedKey_inj hindex (hplain _ _ hname)).mp hkey
    exact (hno hname).2 hr

theorem lastEffect_summaries_none (h : Extracted c db key json sf) (hplain : PlainNames c json)
    (hindex : (58 : UInt8) ∉ indexName)
    (hno : Names c summariesField json indexName → rest ≠ [115]) :
    OrdMap.lastEffect (sf.summaryWrites.map rawSet) (indexedKey key indexName rest) = none := by
  refine lastEffect_sets_none fun w hw heq => ?_
  obtain ⟨s, hs, -, hkey⟩ := h.summaryKey hw
  have hname : Names c summariesField json s.1 := mem_map_of_mem hs
  rw [heq] at hkey
  obtain ⟨rfl, hr⟩ := (indexedKey_inj hindex (hplain _ _ hname)).mp hkey
  exact hno hname hr

theorem effect_edgeOps {x : Bytes} {o : Option Stored}
    {e : PebbleOp} (he : e ∈ sf.edgeWrites.flatMap fun w => rawSet w :: timestampOps w.1 ts)
    (heffect : e.effect x = some o) : ∃ w ∈ sf.edgeWrites,
      (x = w.1 ∧ o = some (.raw w.2)) ∨ (x = timestampKey w.1 ∧ o = some (.uint64 ts)) := by
  obtain ⟨w, hw, he⟩ := mem_flatMap.mp he
  refine ⟨w, hw, ?_⟩
  rcases mem_cons.mp he with rfl | hts
  · rw [rawSet, OrdMap.Edit.effect] at heffect
    split at heffect
    · next heq => exact .inl ⟨heq, (Option.some.inj heffect).symm⟩
    · cases heffect
  · unfold timestampOps at hts
    split at hts
    · rw [mem_singleton.mp hts, OrdMap.Edit.effect] at heffect
      split at heffect
      · next heq => exact .inr ⟨heq, (Option.some.inj heffect).symm⟩
      · cases heffect
    · exact absurd hts not_mem_nil

theorem lastEffect_edges_none
    (hno : ∀ w ∈ sf.edgeWrites, indexedKey key indexName rest ≠ w.1 ∧
      indexedKey key indexName rest ≠ timestampKey w.1) :
    OrdMap.lastEffect (sf.edgeWrites.flatMap fun w => rawSet w :: timestampOps w.1 ts)
      (indexedKey key indexName rest) = none := by
  cases heffect : OrdMap.lastEffect (sf.edgeWrites.flatMap fun w =>
      rawSet w :: timestampOps w.1 ts) (indexedKey key indexName rest) with
  | none => rfl
  | some o =>
    obtain ⟨e, he, hex⟩ := exists_effect_of_lastEffect heffect
    obtain ⟨w, hw, hcases⟩ := effect_edgeOps he hex
    rcases hcases with ⟨hx, -⟩ | ⟨hx, -⟩
    · exact absurd hx (hno w hw).1
    · exact absurd hx (hno w hw).2

theorem lastEffect_under_edges (h : Extracted c db key json sf) (hplain : PlainNames c json)
    (hindex : (58 : UInt8) ∉ indexName) (hrest : ascii ['o', 'u', 't', ':'] <+: rest) :
    OrdMap.lastEffect (sf.ops ts) (indexedKey key indexName rest) =
      (if indexedKey key indexName rest ∈ sf.indexDeletes then some none else none).or
        (OrdMap.lastEffect (sf.edgeWrites.flatMap fun w => rawSet w :: timestampOps w.1 ts)
          (indexedKey key indexName rest)) := by
  have hne : ∀ short : Bytes, ¬ ascii ['o', 'u', 't', ':'] <+: short → rest ≠ short := by
    rintro short hshort rfl
    exact hshort hrest
  rw [lastEffect_ops,
    lastEffect_embeddings_none h hplain hindex fun _ => ⟨hne _ (by decide), hne _ (by decide)⟩,
    lastEffect_summaries_none h hplain hindex fun _ => hne _ (by decide), or_none,
    or_none]

end Extraction

def EdgeOrStamp (x z : Bytes) : Prop := z = x ∨ z = timestampKey x

/-- The keys that the special fields of a document may set or delete. -/
def TouchesFields (c : Codec) (key json x : Bytes) : Prop :=
  ∃ indexName,
    (Names c embeddingsField json indexName ∧
      (x = makeEmbeddingKey key indexName ∨ x = makeSparseKey key indexName)) ∨
    (Names c summariesField json indexName ∧ x = makeSummaryKey key indexName) ∨
    Names c edgesField json indexName ∧ edgeIteratorPrefix key indexName [] <+: x

/-- The keys that the documents written under a key declare something of: the body, and under the
indexes they name the embeddings, the summaries, and the edges with their timestamps. -/
inductive DeclaredKey (c : Codec) (key : Bytes) (docs : List Bytes) : Bytes → Prop
  | body : DeclaredKey c key docs (keyRangeStart key)
  | embedding {json name rest : Bytes} : json ∈ docs → Names c embeddingsField json name →
      rest = [101] ∨ rest = [115, 112] → DeclaredKey c key docs (indexedKey key name rest)
  | summary {json name : Bytes} : json ∈ docs → Names c summariesField json name →
      DeclaredKey c key docs (makeSummaryKey key name)
  | edge {json name target type x : Bytes} : json ∈ docs → Names c edgesField json name →
      EdgeOrStamp (makeEdgeKey key target name type) x → DeclaredKey c key docs x

section Edge

variable {indexName target type z : Bytes}

variable {target' type' name : Bytes} {w : Write}

theorem edge_ne_stamp {name' : Bytes} :
    indexedKey key name (edgeRest target type) ≠
      timestampKey (indexedKey key name' (edgeRest target' type')) := by
  intro heq
  rw [timestampKey_indexedKey] at heq
  have hlast := congrArg List.getLast? heq
  unfold indexedKey at hlast
  simp [getLast?_append, getLast?_cons, getLast?_edgeRest] at hlast

theorem EdgeOrStamp.under (hz : EdgeOrStamp (makeEdgeKey key target indexName type) z) :
    ∃ rest, z = indexedKey key indexName rest ∧ ascii ['o', 'u', 't', ':'] <+: rest := by
  rw [makeEdgeKey_eq] at hz
  rcases hz with rfl | rfl
  · exact ⟨_, rfl, edgeRest_begins target type⟩
  · exact ⟨_, timestampKey_indexedKey, (edgeRest_begins target type).trans (prefix_append _ _)⟩

/-- An edge written under `w` has `z` as its key or timestamp only if it is the same edge. -/
theorem EdgeOrStamp.eq (hz : EdgeOrStamp (makeEdgeKey key target indexName type) z)
    (hz' : EdgeOrStamp (makeEdgeKey key target' name type') z) :
    makeEdgeKey key target indexName type = makeEdgeKey key target' name type' := by
  rw [makeEdgeKey_eq] at hz hz' ⊢
  rw [makeEdgeKey_eq]
  rcases hz with rfl | rfl
  · rcases hz' with heq | heq
    · exact heq
    · exact absurd heq edge_ne_stamp
  · rcases hz' with heq | heq
    · exact absurd heq.symm edge_ne_stamp
    · exact timestampKey_inj heq

theorem Extracted.untouched {sf : SpecialFields} {x : Bytes} (h : Extracted c db key json sf)
    (hx : ¬ TouchesFields c key json x) (ts : Nat) :
    ∀ o ∈ sf.ops ts, o.effect x = none := by
  have hiterator (name rest : Bytes) : ascii ['o', 'u', 't', ':'] <+: rest →
      edgeIteratorPrefix key name [] <+: indexedKey key name rest := by
    rintro ⟨t, rfl⟩
    exact ⟨t, by simp [edgeIteratorPrefix, indexedKey, outMarker, ascii]⟩
  rw [← lastEffect_eq_none_iff, lastEffect_ops, if_neg, none_or, lastEffect_sets_none,
    lastEffect_sets_none, or_none, or_none, lastEffect_eq_none_iff]
  · intro o ho
    cases heffect : o.effect x with
    | none => rfl
    | some v =>
      obtain ⟨w, hw, hcases⟩ := effect_edgeOps ho heffect
      obtain ⟨name, target', type', -, hname, hkey⟩ := h.edgeKey hw
      have hedge := edgeRest_begins target' type'
      refine absurd ⟨name, .inr (.inr ⟨hname, ?_⟩)⟩ hx
      rcases hcases with ⟨rfl, -⟩ | ⟨rfl, -⟩
      · rw [hkey]
        exact hiterator _ _ hedge
      · rw [hkey, timestampKey_indexedKey]
        exact hiterator _ _ (hedge.trans (prefix_append _ _))
  · rintro w hw rfl
    obtain ⟨e, he, hok⟩ := (h.mem_embeddingWrites w).mp hw
    exact hx ⟨e.1, .inl ⟨mem_map_of_mem he, extractEmbedding_key hok⟩⟩
  · rintro w hw rfl
    obtain ⟨e, he, hok⟩ := (h.mem_summaryWrites w).mp hw
    exact hx ⟨e.1, .inr (.inl ⟨mem_map_of_mem he, extractSummary_key hok⟩)⟩
  · intro hdelete
    rcases (h.mem_indexDeletes x).mp hdelete with ⟨e, he, hok⟩ | hreconcile
    · exact hx ⟨e.1, .inl ⟨mem_map_of_mem he, extractEmbedding_key hok⟩⟩
    · obtain ⟨⟨name, hname, hpre⟩, -⟩ := mem_reconcileEdges.mp hreconcile
      exact hx ⟨name, .inr (.inr ⟨hname, hpre⟩)⟩

theorem exists_edge_of_mem (hw : w ∈ declaredEdges c db key json indexName) :
    ∃ target type, w.1 = makeEdgeKey key target indexName type :=
  (names_of_mem_declaredEdges hw).2

theorem Accepted.edge_unnamed (h : Accepted c db key json) (hindex : (58 : UInt8) ∉ indexName)
    (hname : ¬ Names c edgesField json indexName)
    (hz : EdgeOrStamp (makeEdgeKey key target indexName type) z) :
    OrdMap.lastEffect (fieldOps c db key ts json) z = none := by
  rcases h.cases ts with ⟨-, hops, -⟩ | ⟨sf, hsf, hops, -⟩
  · rw [hops]
    rfl
  · obtain ⟨rest, rfl, hrest⟩ := hz.under
    rw [hops, lastEffect_under_edges hsf h.plain hindex hrest, if_neg, none_or]
    · refine lastEffect_edges_none fun w hw => ?_
      obtain ⟨name, target', type', -, hmem, hkey⟩ := hsf.edgeKey hw
      have hplain := h.plain edgesField name hmem
      constructor
      · intro heq
        rw [hkey, indexedKey_inj hindex hplain] at heq
        exact hname (heq.1 ▸ hmem)
      · intro heq
        rw [hkey, timestampKey_indexedKey, indexedKey_inj hindex hplain] at heq
        exact hname (heq.1 ▸ hmem)
    · exact fun hdelete =>
        hname ((hsf.mem_deletes_iff h.plain hindex hrest).mp hdelete).1

/-- An edge that a document leaves out is deleted if it is stored, and so is its timestamp. -/
theorem Accepted.edge_unlisted (h : Accepted c db key json)
    (hname : Names c edgesField json indexName)
    (hlisted : makeEdgeKey key target indexName type ∉
      (declaredEdges c db key json indexName).map Prod.fst)
    (hz : EdgeOrStamp (makeEdgeKey key target indexName type) z) :
    OrdMap.lastEffect (fieldOps c db key ts json) z =
      if (db.get? z).isSome then some none else none := by
  have hindex := h.plain edgesField indexName hname
  rcases h.cases ts with ⟨hno, -⟩ | ⟨sf, hsf, hops, -⟩
  · exact absurd hname (hno.not_names rfl)
  · have hwritten : ∀ w ∈ sf.edgeWrites, z ≠ w.1 ∧ z ≠ timestampKey w.1 := by
      intro w hw
      obtain ⟨name, target', type', hmem, -, hkey⟩ := hsf.edgeKey hw
      rw [← makeEdgeKey_eq] at hkey
      have hne : ¬ EdgeOrStamp w.1 z := by
        intro hpair
        rw [hkey] at hpair
        have heq := (hz.eq hpair).trans hkey.symm
        refine hlisted (mem_map.mpr ⟨w, ?_, heq.symm⟩)
        exact (hsf.mem_edgeKeys h.plain hindex
          (heq.symm.trans (makeEdgeKey_eq key target indexName type))).mp hw
      exact ⟨fun heq => hne (.inl heq), fun heq => hne (.inr heq)⟩
    obtain ⟨rest, rfl, hrest⟩ := hz.under
    have hkeys : indexedKey key indexName rest ∉ sf.edgeWrites.map Prod.fst := by
      intro hmem
      obtain ⟨w, hw, heq⟩ := mem_map.mp hmem
      exact (hwritten w hw).1 heq.symm
    rw [hops, lastEffect_under_edges hsf h.plain hindex hrest, lastEffect_edges_none hwritten,
      or_none]
    refine if_congr ?_ rfl rfl
    rw [hsf.mem_deletes_iff h.plain hindex hrest, and_iff_right hname, and_iff_left hkeys]

theorem Accepted.edge_listed (h : Accepted c db key json) (ts : Nat)
    (hw : w ∈ declaredEdges c db key json indexName) :
    ∃ w' ∈ declaredEdges c db key json indexName, w'.1 = w.1 ∧
      OrdMap.lastEffect (fieldOps c db key ts json) w.1 = some (some (.raw w'.2)) := by
  obtain ⟨hname, target, type, hkey⟩ := names_of_mem_declaredEdges hw
  have hindex := h.plain edgesField indexName hname
  rcases h.cases ts with ⟨hno, -⟩ | ⟨sf, hsf, hops, -⟩
  · exact absurd hname (hno.not_names rfl)
  · rw [makeEdgeKey_eq] at hkey
    have hmem := (hsf.mem_edgeKeys h.plain hindex hkey).mpr hw
    have hdelete : w.1 ∉ sf.indexDeletes := by
      intro hdelete
      rw [hkey] at hdelete
      refine ((hsf.mem_deletes_iff h.plain hindex (edgeRest_begins target type)).mp hdelete).2.2 ?_
      exact mem_map.mpr ⟨w, hmem, hkey⟩
    have heffect := @lastEffect_under_edges c db key json ts sf indexName _ hsf h.plain hindex
      (edgeRest_begins target type)
    rw [← hkey, if_neg hdelete, none_or] at heffect
    rw [hops, heffect]
    cases hedges : OrdMap.lastEffect (sf.edgeWrites.flatMap fun w =>
        rawSet w :: timestampOps w.1 ts) w.1 with
    | none =>
      have hset : rawSet w ∈ sf.edgeWrites.flatMap fun w => rawSet w :: timestampOps w.1 ts :=
        mem_flatMap.mpr ⟨w, hmem, mem_cons_self⟩
      have hnone := lastEffect_eq_none_iff.mp hedges _ hset
      exact absurd hnone (by simp [rawSet, OrdMap.Edit.effect])
    | some o =>
      obtain ⟨e, he, hex⟩ := exists_effect_of_lastEffect hedges
      obtain ⟨w', hw', hcases⟩ := effect_edgeOps he hex
      obtain ⟨name, target', type', hlisted, -, hkey'⟩ := hsf.edgeKey hw'
      rcases hcases with ⟨heq, rfl⟩ | ⟨heq, -⟩
      · exact ⟨w', (hsf.mem_edgeKeys h.plain hindex (heq.symm.trans hkey)).mp hw', heq.symm, rfl⟩
      · rw [hkey, hkey'] at heq
        exact absurd heq edge_ne_stamp

theorem shouldWriteTimestamp_edge (hown : ¬ OwnRecord (keyRangeStart key)) {x : Bytes}
    (hx : x = makeEdgeKey key target indexName type) : shouldWriteTimestamp x = true := by
  have hpair : x = (key ++ indexMarker ++ indexName ++ outMarker ++ type ++ ascii [':'] ++
      target) ++ [58, 111] := hx
  rw [hpair]
  refine shouldWriteTimestamp_of_pair (.inr rfl) fun hrecord => hown ?_
  have hcolon : key ++ indexMarker ++ indexName ++ outMarker ++ type ++ ascii [':'] ++ target ++
      [58, 111] = key ++ 58 :: (ascii ['i', ':'] ++ indexName ++ outMarker ++ type ++
        ascii [':'] ++ target ++ [58, 111]) := by
    simp [indexMarker, ascii]
  rw [hcolon] at hrecord
  exact ownRecord_append_colon hrecord

theorem Accepted.stamp_listed (h : Accepted c db key json)
    (hown : ¬ OwnRecord (keyRangeStart key)) (hts : 0 < ts)
    (hw : w ∈ declaredEdges c db key json indexName) :
    OrdMap.lastEffect (fieldOps c db key ts json) (timestampKey w.1) =
      if (db.get? (timestampKey w.1)).isSome then some none else some (some (.uint64 ts)) := by
  obtain ⟨hname, target, type, hkey⟩ := names_of_mem_declaredEdges hw
  have hindex := h.plain edgesField indexName hname
  rcases h.cases ts with ⟨hno, -⟩ | ⟨sf, hsf, hops, -⟩
  · exact absurd hname (hno.not_names rfl)
  · rw [makeEdgeKey_eq] at hkey
    have hmem := (hsf.mem_edgeKeys h.plain hindex hkey).mpr hw
    have hrest : ascii ['o', 'u', 't', ':'] <+: edgeRest target type ++ [58, 116] :=
      (edgeRest_begins target type).trans (prefix_append _ _)
    have hstamp : timestampKey w.1 =
        indexedKey key indexName (edgeRest target type ++ [58, 116]) := by
      rw [hkey, timestampKey_indexedKey]
    have hkeys : timestampKey w.1 ∉ sf.edgeWrites.map Prod.fst := by
      intro hin
      obtain ⟨w', hw', heq⟩ := mem_map.mp hin
      obtain ⟨name, target', type', -, -, hkey'⟩ := hsf.edgeKey hw'
      rw [hkey, hkey'] at heq
      exact edge_ne_stamp heq
    have hdeletes : timestampKey w.1 ∈ sf.indexDeletes ↔ (db.get? (timestampKey w.1)).isSome := by
      rw [hstamp, hsf.mem_deletes_iff h.plain hindex hrest, ← hstamp, and_iff_right hname,
        and_iff_left hkeys]
    have htakes := shouldWriteTimestamp_edge hown (hkey.trans (makeEdgeKey_eq ..).symm)
    have hedges : OrdMap.lastEffect (sf.edgeWrites.flatMap fun w =>
        rawSet w :: timestampOps w.1 ts) (timestampKey w.1) = some (some (.uint64 ts)) := by
      cases hlast : OrdMap.lastEffect (sf.edgeWrites.flatMap fun w =>
          rawSet w :: timestampOps w.1 ts) (timestampKey w.1) with
      | none =>
        have hset : OrdMap.Edit.set (timestampKey w.1) (.uint64 ts) ∈
            sf.edgeWrites.flatMap fun w => rawSet w :: timestampOps w.1 ts := by
          refine mem_flatMap.mpr ⟨w, hmem, mem_cons_of_mem _ ?_⟩
          unfold timestampOps
          rw [htakes, decide_eq_true hts]
          exact mem_singleton_self _
        have hnone := lastEffect_eq_none_iff.mp hlast _ hset
        exact absurd hnone (by simp [OrdMap.Edit.effect])
      | some o =>
        obtain ⟨e, he, hex⟩ := exists_effect_of_lastEffect hlast
        obtain ⟨w', hw', hcases⟩ := effect_edgeOps he hex
        obtain ⟨name, target', type', -, -, hkey'⟩ := hsf.edgeKey hw'
        rcases hcases with ⟨heq, -⟩ | ⟨-, rfl⟩
        · rw [hkey, hkey'] at heq
          exact absurd heq.symm edge_ne_stamp
        · rfl
    have heffect := @lastEffect_under_edges c db key json ts sf indexName _ hsf h.plain hindex hrest
    rw [← hstamp, hedges] at heffect
    rw [hops, heffect]
    by_cases hstored : (db.get? (timestampKey w.1)).isSome
    · rw [if_pos hstored, if_pos (hdeletes.mpr hstored)]
      rfl
    · rw [if_neg hstored, if_neg fun hin => hstored (hdeletes.mp hin)]
      rfl

end Edge

section Aside

variable {indexName rest : Bytes}

theorem lastEffect_aside {sf : SpecialFields} (h : Extracted c db key json sf)
    (hplain : PlainNames c json) (hindex : (58 : UInt8) ∉ indexName)
    (hrest : ¬ ascii ['o', 'u', 't', ':'] <+: rest)
    (hkept : ∀ e ∈ specialEntries c json embeddingsField,
      extractEmbedding c db key e.1 e.2 ≠ .ok (.inr (indexedKey key indexName rest))) :
    OrdMap.lastEffect (sf.ops ts) (indexedKey key indexName rest) =
      (OrdMap.lastEffect (sf.summaryWrites.map rawSet) (indexedKey key indexName rest)).or
        (OrdMap.lastEffect (sf.embeddingWrites.map rawSet) (indexedKey key indexName rest)) := by
  have hdelete : indexedKey key indexName rest ∉ sf.indexDeletes := by
    intro hdelete
    rcases (h.mem_indexDeletes _).mp hdelete with ⟨e, he, hok⟩ | hreconcile
    · exact hkept e he hok
    · obtain ⟨⟨name, hname, hpre⟩, -⟩ := mem_reconcileEdges.mp hreconcile
      exact hrest ((edgeIteratorPrefix_indexedKey (hplain edgesField name hname) hindex).mp hpre).2
  have hedges : ∀ w ∈ sf.edgeWrites, indexedKey key indexName rest ≠ w.1 ∧
      indexedKey key indexName rest ≠ timestampKey w.1 := by
    intro w hw
    obtain ⟨name, target, type, -, hname, hkey⟩ := h.edgeKey hw
    have hedge := edgeRest_begins target type
    constructor
    · intro heq
      rw [hkey, indexedKey_inj hindex (hplain edgesField name hname)] at heq
      exact hrest (heq.2 ▸ hedge)
    · intro heq
      rw [hkey, timestampKey_indexedKey,
        indexedKey_inj hindex (hplain edgesField name hname)] at heq
      exact hrest (heq.2 ▸ hedge.trans (prefix_append _ _))
  rw [lastEffect_ops, if_neg hdelete, lastEffect_edges_none hedges, none_or, none_or]

variable {e : Bytes × Json}

theorem extractEmbedding_indexedKey {r : Write ⊕ Bytes}
    (hok : extractEmbedding c db key e.1 e.2 = .ok r) :
    ∃ rest, (rest = [101] ∨ rest = [115, 112]) ∧ r.elim Prod.fst id = indexedKey key e.1 rest := by
  have hkey := extractEmbedding_key hok
  rw [makeEmbeddingKey_eq, makeSparseKey_eq] at hkey
  rcases hkey with hkey | hkey
  · exact ⟨_, .inl rfl, hkey⟩
  · exact ⟨_, .inr rfl, hkey⟩

theorem Accepted.embedding_unnamed (h : Accepted c db key json) (hindex : (58 : UInt8) ∉ indexName)
    (hname : ¬ Names c embeddingsField json indexName) (hrest : rest = [101] ∨ rest = [115, 112]) :
    OrdMap.lastEffect (fieldOps c db key ts json) (indexedKey key indexName rest) = none := by
  rcases h.cases ts with ⟨-, hops, -⟩ | ⟨sf, hsf, hops, -⟩
  · rw [hops]
    rfl
  · have hout : ¬ ascii ['o', 'u', 't', ':'] <+: rest := by
      rcases hrest with rfl | rfl <;> decide
    have hsummary : rest ≠ [115] := by
      rcases hrest with rfl | rfl <;> decide
    rw [hops, lastEffect_aside hsf h.plain hindex hout, lastEffect_summaries_none hsf h.plain hindex
      fun _ => hsummary, lastEffect_embeddings_none hsf h.plain hindex fun hin => absurd hin hname,
      none_or]
    intro e he hok
    obtain ⟨rest', -, hkey⟩ := extractEmbedding_indexedKey hok
    have hin : Names c embeddingsField json e.1 := mem_map_of_mem he
    exact hname (((indexedKey_inj hindex (h.plain _ _ hin)).mp hkey).1 ▸ hin)

theorem Accepted.embedding_listed (h : Accepted c db key json) (ts : Nat)
    (he : e ∈ specialEntries c json embeddingsField) {w : Write}
    (hok : extractEmbedding c db key e.1 e.2 = .ok (.inl w)) :
    OrdMap.lastEffect (fieldOps c db key ts json) w.1 = some (some (.raw w.2)) := by
  have hname : Names c embeddingsField json e.1 := mem_map_of_mem he
  have hindex := h.plain _ _ hname
  rcases h.cases ts with ⟨hno, -⟩ | ⟨sf, hsf, hops, -⟩
  · exact absurd hname (hno.not_names rfl)
  · obtain ⟨rest, hrest, hkey⟩ := extractEmbedding_indexedKey hok
    -- The names of the entries are distinct, so no other entry has this key.
    have hentry : ∀ e' ∈ specialEntries c json embeddingsField, ∀ r,
        extractEmbedding c db key e'.1 e'.2 = .ok r → r.elim Prod.fst id = w.1 →
          r = .inl w := by
      intro e' he' r hok' hr
      obtain ⟨rest', -, hkey'⟩ := extractEmbedding_indexedKey hok'
      have hin : Names c embeddingsField json e'.1 := mem_map_of_mem he'
      have heq := (indexedKey_inj (h.plain _ _ hin) hindex).mp
        (hkey'.symm.trans (hr.trans hkey))
      obtain rfl := inj_on_of_nodup_map (h.distinct embeddingsField) he' he heq.1
      exact Except.ok.inj (hok'.symm.trans hok)
    have hout : ¬ ascii ['o', 'u', 't', ':'] <+: rest := by
      rcases hrest with rfl | rfl <;> decide
    have hsummary : rest ≠ [115] := by
      rcases hrest with rfl | rfl <;> decide
    have hwkey : w.1 = indexedKey key e.1 rest := hkey
    obtain ⟨w', hw', hkey', heffect⟩ := @lastEffect_sets_some w.1 sf.embeddingWrites
      ⟨w, (hsf.mem_embeddingWrites w).mpr ⟨e, he, hok⟩, rfl⟩
    obtain ⟨e', he', hok'⟩ := (hsf.mem_embeddingWrites w').mp hw'
    obtain rfl := Sum.inl.inj (hentry e' he' (.inl w') hok' hkey')
    rw [hwkey] at heffect ⊢
    rw [hops, lastEffect_aside hsf h.plain hindex hout, lastEffect_summaries_none hsf h.plain hindex
      fun _ => hsummary, heffect, none_or]
    intro e'' he'' hdelete
    have hsame := hentry e'' he'' _ hdelete hwkey.symm
    cases hsame

theorem Accepted.summary_unnamed (h : Accepted c db key json) (hindex : (58 : UInt8) ∉ indexName)
    (hno : Names c summariesField json indexName → db.indexes.lookup indexName = none) :
    OrdMap.lastEffect (fieldOps c db key ts json) (makeSummaryKey key indexName) = none := by
  rcases h.cases ts with ⟨-, hops, -⟩ | ⟨sf, hsf, hops, -⟩
  · rw [hops]
    rfl
  · rw [makeSummaryKey_eq, hops, lastEffect_aside hsf h.plain hindex (by decide),
      lastEffect_embeddings_none hsf h.plain hindex fun _ => ⟨by decide, by decide⟩, or_none]
    · refine lastEffect_sets_none fun w hw heq => ?_
      obtain ⟨s, hs, hok, hkey⟩ := hsf.summaryKey hw
      have hin : Names c summariesField json s.1 := mem_map_of_mem hs
      obtain ⟨hname, -⟩ := (indexedKey_inj (h.plain _ _ hin) hindex).mp (hkey.symm.trans heq)
      unfold extractSummary at hok
      rw [hname, hno (hname ▸ hin)] at hok
      cases hok
    · intro e he hok
      obtain ⟨rest', hrest', hkey⟩ := extractEmbedding_indexedKey hok
      have hin : Names c embeddingsField json e.1 := mem_map_of_mem he
      have heq := ((indexedKey_inj hindex (h.plain _ _ hin)).mp hkey).2
      rcases hrest' with rfl | rfl <;> cases heq

theorem Accepted.summary_listed (h : Accepted c db key json) {s : Bytes × Json}
    (hs : s ∈ specialEntries c json summariesField) (hindexed : db.indexes.lookup s.1 ≠ none)
    {text : Bytes} (htext : s.2 = .str text) :
    OrdMap.lastEffect (fieldOps c db key ts json) (makeSummaryKey key s.1) =
      some (some (.raw (summaryValue c text))) := by
  have hname : Names c summariesField json s.1 := mem_map_of_mem hs
  have hindex := h.plain _ _ hname
  have hok : extractSummary c db key s.1 s.2 =
      .ok (some (makeSummaryKey key s.1, summaryValue c text)) := by
    obtain ⟨config, hconfig⟩ := ne_none_iff_exists'.mp hindexed
    unfold extractSummary
    rw [hconfig, htext]
    rfl
  rcases h.cases ts with ⟨hno, -⟩ | ⟨sf, hsf, hops, -⟩
  · exact absurd hname (hno.not_names rfl)
  · obtain ⟨w, hw, hkey, heffect⟩ := @lastEffect_sets_some (makeSummaryKey key s.1) sf.summaryWrites
      ⟨_, (hsf.mem_summaryWrites _).mpr ⟨s, hs, hok⟩, rfl⟩
    obtain ⟨s', hs', hok', hkey'⟩ := hsf.summaryKey hw
    have hin : Names c summariesField json s'.1 := mem_map_of_mem hs'
    have heq := (indexedKey_inj (h.plain _ _ hin) hindex).mp
      (hkey'.symm.trans (hkey.trans (makeSummaryKey_eq key s.1)))
    obtain rfl := inj_on_of_nodup_map (h.distinct summariesField) hs' hs heq.1
    obtain rfl := Option.some.inj (Except.ok.inj (hok'.symm.trans hok))
    rw [makeSummaryKey_eq] at heffect ⊢
    rw [hops, lastEffect_aside hsf h.plain hindex (by decide), heffect,
      lastEffect_embeddings_none hsf h.plain hindex fun _ => ⟨by decide, by decide⟩, or_none]
    intro e he hdelete
    obtain ⟨rest', hrest', hkey⟩ := extractEmbedding_indexedKey hdelete
    have hin' : Names c embeddingsField json e.1 := mem_map_of_mem he
    have hrest := ((indexedKey_inj hindex (h.plain _ _ hin')).mp hkey).2
    rcases hrest' with rfl | rfl <;> cases hrest

end Aside

end Document

end Antfly
