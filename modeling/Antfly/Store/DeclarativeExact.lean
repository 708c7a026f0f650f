import Antfly.Store.DeclarativeEffects
import Antfly.Store.TTLSafety

/-!
A batch, or the resolution of a transaction, leaves under the keys of a document what the writes of
the document do, one after the other, all decided on the store as it was before.  The special
fields are then followed if and only if no listed edge has a stored timestamp, edges dropped again
in the same batch were stored before, and the fields of the last body are not all void.
-/

namespace Antfly

open Fallible List Option OrdMap

section KeysWritten

variable (c : Codec) (db : DBImpl) (key : Bytes) (ts : Nat)

/-- The operation that stores the body of a document. -/
def bodyOps (storesBody : Bytes → Bool) (json : Bytes) : List PebbleOp :=
  if storesBody json then [.set (keyRangeStart key) (.zstd (committedBody c db key json))] else []

/-- The keys of a document are what the writes of the documents under it make of them. -/
structure KeysWritten (storesBody : Bytes → Bool) (docs : List Bytes)
    (get : Bytes → Option Stored) : Prop where
  fields : ∀ x, DeclaredKey c key docs x → key ++ indexMarker <+: x →
    get x = (OrdMap.lastEffect (docs.flatMap (fieldOps c db key ts)) x).getD (db.get? x)
  body : get (keyRangeStart key) = (OrdMap.lastEffect (docs.flatMap (bodyOps c db key storesBody))
    (keyRangeStart key)).getD (db.get? (keyRangeStart key))

end KeysWritten

section LastWith

variable {p : Bytes → Prop} {docs before : List Bytes} {json : Bytes}

theorem LastWith.mem (h : LastWith p docs before json) : json ∈ docs := by
  obtain ⟨after, rfl, -⟩ := h.last
  exact mem_append_right before mem_cons_self

theorem LastWith.mem_before (h : LastWith p docs before json) {earlier : Bytes}
    (hearlier : earlier ∈ before) : earlier ∈ docs := by
  obtain ⟨after, rfl, -⟩ := h.last
  exact mem_append_left _ hearlier

/-- The documents after the last one with a property do not matter to what only such ones do. -/
theorem LastWith.lastEffect {f : Bytes → List PebbleOp} {x : Bytes}
    (h : LastWith p docs before json)
    (hnone : ∀ later ∈ docs, ¬ p later → OrdMap.lastEffect (f later) x = none) :
    OrdMap.lastEffect (docs.flatMap f) x =
      (OrdMap.lastEffect (f json) x).or (OrdMap.lastEffect (before.flatMap f) x) := by
  obtain ⟨after, rfl, hafter⟩ := h.last
  have hlater : OrdMap.lastEffect (after.flatMap f) x = none :=
    lastEffect_flatMap_eq_none_iff.mpr fun later hmem =>
      hnone later (mem_append_right before (mem_cons_of_mem json hmem))
        (hafter later hmem)
  rw [flatMap_append, flatMap_cons, lastEffect_append, lastEffect_append,
    hlater, none_or]

theorem exists_lastWith (h : ∃ json ∈ docs, p json) :
    ∃ before json, LastWith p docs before json := by
  classical
  induction docs using List.reverseRecOn with
  | nil =>
    obtain ⟨json, hmem, -⟩ := h
    exact absurd hmem not_mem_nil
  | append_singleton docs last ih =>
    by_cases hlast : p last
    · exact ⟨docs, last, hlast, [], rfl, fun later hmem => absurd hmem not_mem_nil⟩
    · obtain ⟨json, hmem, hjson⟩ := h
      have hin : json ∈ docs := (mem_append.mp hmem).resolve_right fun heq =>
        hlast (mem_singleton.mp heq ▸ hjson)
      obtain ⟨before, json', hjson', after, rfl, hafter⟩ := ih ⟨json, hin, hjson⟩
      refine ⟨before, json', hjson', after ++ [last], by simp, ?_⟩
      intro later hlater
      rcases mem_append.mp hlater with hold | hnew
      · exact hafter later hold
      · exact mem_singleton.mp hnew ▸ hlast

end LastWith

section Declaration

variable {c : Codec} {db : DBImpl} {key : Bytes} {ts : Nat} {docs before : List Bytes}
  {json indexName : Bytes} {get : Bytes → Option Stored} {storesBody : Bytes → Bool}

section Edges

variable {target type z : Bytes}

theorem key_prefix_edge (hz : EdgeOrStamp (makeEdgeKey key target indexName type) z) :
    key ++ indexMarker <+: z := by
  obtain ⟨rest, rfl, -⟩ := hz.under
  exact prefix_append _ _

/-- What is left of an edge of an index is decided by the last document that names it. -/
theorem KeysWritten.edge (hw : KeysWritten c db key ts storesBody docs get)
    (hdocs : ∀ json ∈ docs, Accepted c db key json)
    (hlast : LastWith (Names c edgesField · indexName) docs before json)
    (hz : EdgeOrStamp (makeEdgeKey key target indexName type) z) :
    get z = ((OrdMap.lastEffect (fieldOps c db key ts json) z).or
      (OrdMap.lastEffect (before.flatMap (fieldOps c db key ts)) z)).getD (db.get? z) := by
  have hindex := (hdocs json hlast.mem).plain edgesField indexName hlast.holds
  rw [hw.fields z (.edge hlast.mem hlast.holds hz) (key_prefix_edge hz),
    hlast.lastEffect fun later hmem hname =>
      (hdocs later hmem).edge_unnamed hindex hname hz]

theorem Accepted.sets_of_listed (h : Accepted c db key json)
    (hown : ¬ OwnRecord (keyRangeStart key)) (hts : 0 < ts) {w : Write}
    (hlisted : w ∈ declaredEdges c db key json indexName) (hz : EdgeOrStamp w.1 z)
    (hstored : db.get? z = none) :
    ∃ v, OrdMap.lastEffect (fieldOps c db key ts json) z = some (some v) := by
  rcases hz with rfl | rfl
  · obtain ⟨w', -, -, heffect⟩ := h.edge_listed ts hlisted
    exact ⟨_, heffect⟩
  · refine ⟨.uint64 ts, (h.stamp_listed hown hts hlisted).trans ?_⟩
    rw [hstored]
    rfl

theorem lastEffect_ne_gone (hdocs : ∀ json ∈ docs, Accepted c db key json)
    (hown : ¬ OwnRecord (keyRangeStart key)) (hts : 0 < ts) (hindex : (58 : UInt8) ∉ indexName)
    (hz : EdgeOrStamp (makeEdgeKey key target indexName type) z) (hstored : db.get? z = none) :
    OrdMap.lastEffect (docs.flatMap (fieldOps c db key ts)) z ≠ some none := by
  induction docs with
  | nil => exact nofun
  | cons json docs ih =>
    have hjson := hdocs json mem_cons_self
    rw [flatMap_cons, lastEffect_append, Ne, or_eq_some_iff]
    rintro (hgone | ⟨-, hgone⟩)
    · exact ih (fun later hmem => hdocs later (mem_cons_of_mem json hmem)) hgone
    · by_cases hname : Names c edgesField json indexName
      · by_cases hlisted : makeEdgeKey key target indexName type ∈
            (declaredEdges c db key json indexName).map Prod.fst
        · obtain ⟨w, hw, hkey⟩ := mem_map.mp hlisted
          obtain ⟨v, hv⟩ := hjson.sets_of_listed hown hts hw (hkey ▸ hz) hstored
          rw [hv] at hgone
          cases hgone
        · rw [hjson.edge_unlisted hname hlisted hz, hstored] at hgone
          cases hgone
      · rw [hjson.edge_unnamed hindex hname hz] at hgone
        cases hgone

/-- An edge, or a timestamp, that the last document leaves out is gone if and only if it was stored
before or no earlier document listed it. -/
theorem KeysWritten.removed_iff (hw : KeysWritten c db key ts storesBody docs get)
    (hdocs : ∀ json ∈ docs, Accepted c db key json)
    (hown : ¬ OwnRecord (keyRangeStart key)) (hts : 0 < ts)
    (hlast : LastWith (Names c edgesField · indexName) docs before json)
    (hlisted : makeEdgeKey key target indexName type ∉
      (declaredEdges c db key json indexName).map Prod.fst)
    (hz : EdgeOrStamp (makeEdgeKey key target indexName type) z) :
    get z = none ↔ db.get? z ≠ none ∨ ∀ earlier ∈ before,
      makeEdgeKey key target indexName type ∉
        (declaredEdges c db key earlier indexName).map Prod.fst := by
  have hjson := hdocs json hlast.mem
  have hindex := hjson.plain edgesField indexName hlast.holds
  have hbefore : ∀ earlier ∈ before, Accepted c db key earlier :=
    fun earlier hmem => hdocs earlier (hlast.mem_before hmem)
  rw [hw.edge hdocs hlast hz, hjson.edge_unlisted hlast.holds hlisted hz]
  cases hstored : db.get? z with
  | some v => exact iff_of_true rfl (.inl nofun)
  | none =>
    rw [or_iff_right (not_not.mpr rfl)]
    change (OrdMap.lastEffect (before.flatMap (fieldOps c db key ts)) z).getD none = none ↔ _
    constructor
    · intro hgone earlier hmem hin
      obtain ⟨w, hwl, hkey⟩ := mem_map.mp hin
      obtain ⟨v, hv⟩ := (hbefore earlier hmem).sets_of_listed hown hts hwl (hkey ▸ hz) hstored
      cases heffect : OrdMap.lastEffect (before.flatMap (fieldOps c db key ts)) z with
      | none =>
        have hnone := lastEffect_flatMap_eq_none_iff.mp heffect earlier hmem
        rw [hv] at hnone
        cases hnone
      | some o =>
        rw [heffect] at hgone
        exact lastEffect_ne_gone hbefore hown hts hindex hz hstored
          (heffect.trans (congrArg some hgone))
    · intro hno
      have hnone : OrdMap.lastEffect (before.flatMap (fieldOps c db key ts)) z = none := by
        refine lastEffect_flatMap_eq_none_iff.mpr fun earlier hmem => ?_
        by_cases hname : Names c edgesField earlier indexName
        · rw [(hbefore earlier hmem).edge_unlisted hname (hno earlier hmem) hz, hstored]
          rfl
        · exact (hbefore earlier hmem).edge_unnamed hindex hname hz
      rw [hnone]
      rfl

end Edges

/-- The stored edges of an index are the listed ones of the last document that names it if and only
if their timestamps are not stored, they have one value each, and the edges that only earlier
documents list are stored with their timestamps. -/
theorem KeysWritten.edgesAre_iff (hw : KeysWritten c db key ts storesBody docs get)
    (hdocs : ∀ json ∈ docs, Accepted c db key json)
    (hown : ¬ OwnRecord (keyRangeStart key)) (hts : 0 < ts)
    (hlast : LastWith (Names c edgesField · indexName) docs before json) :
    EdgesAre get key indexName ts (declaredEdges c db key json indexName) ↔
      (∀ w ∈ declaredEdges c db key json indexName, db.get? (timestampKey w.1) = none) ∧
      (∀ w ∈ declaredEdges c db key json indexName, ∀ w' ∈ declaredEdges c db key json indexName,
        w.1 = w'.1 → w.2 = w'.2) ∧
      ∀ earlier ∈ before, ∀ w ∈ declaredEdges c db key earlier indexName,
        w.1 ∉ (declaredEdges c db key json indexName).map Prod.fst →
          db.get? w.1 ≠ none ∧ db.get? (timestampKey w.1) ≠ none := by
  have hjson := hdocs json hlast.mem
  have hedge {w : Write} (hwl : w ∈ declaredEdges c db key json indexName) :
      ∃ w' ∈ declaredEdges c db key json indexName, w'.1 = w.1 ∧ get w.1 = some (.raw w'.2) := by
    obtain ⟨target, type, hkey⟩ := exists_edge_of_mem hwl
    obtain ⟨w', hw', heq, heffect⟩ := hjson.edge_listed ts hwl
    refine ⟨w', hw', heq, ?_⟩
    rw [hkey] at heffect ⊢
    rw [hw.edge hdocs hlast (.inl rfl), heffect]
    rfl
  have hstamp {w : Write} (hwl : w ∈ declaredEdges c db key json indexName) :
      get (timestampKey w.1) = if (db.get? (timestampKey w.1)).isSome then none
        else some (.uint64 ts) := by
    obtain ⟨target, type, hkey⟩ := exists_edge_of_mem hwl
    have heffect := hjson.stamp_listed hown hts hwl
    rw [hkey] at heffect ⊢
    rw [hw.edge hdocs hlast (.inr rfl), heffect]
    split <;> rfl
  constructor
  · intro hedges
    refine ⟨fun w hwl => ?_, fun w hwl w' hwl' heq => ?_, fun earlier hmem w hwl hno => ?_⟩
    · have hstored := (hedges.stored w hwl).2
      rw [hstamp hwl] at hstored
      split at hstored
      · cases hstored
      · next hnone => exact not_isSome_iff_eq_none.mp hnone
    · have hvalue := (hedges.stored w hwl).1.symm.trans
        ((congrArg get heq).trans (hedges.stored w' hwl').1)
      exact Stored.raw.inj (Option.some.inj hvalue)
    · obtain ⟨target, type, hkey⟩ := exists_edge_of_mem hwl
      have hearlier : ¬ ∀ earlier ∈ before, makeEdgeKey key target indexName type ∉
          (declaredEdges c db key earlier indexName).map Prod.fst :=
        fun hall => hall earlier hmem (mem_map.mpr ⟨w, hwl, hkey⟩)
      rw [hkey] at hno ⊢
      obtain ⟨hgone, hgoneStamp⟩ := hedges.removed target type hno
      exact ⟨((hw.removed_iff hdocs hown hts hlast hno (.inl rfl)).mp hgone).resolve_right hearlier,
        ((hw.removed_iff hdocs hown hts hlast hno (.inr rfl)).mp hgoneStamp).resolve_right hearlier⟩
  · rintro ⟨hfresh, hconsistent, hreplaced⟩
    refine ⟨fun w hwl => ⟨?_, ?_⟩, fun target type hno => ?_⟩
    · obtain ⟨w', hw', heq, hget⟩ := hedge hwl
      rw [hget, hconsistent w' hw' w hwl heq]
    · rw [hstamp hwl, hfresh w hwl]
      rfl
    · have hcases : (db.get? (makeEdgeKey key target indexName type) ≠ none ∧
          db.get? (timestampKey (makeEdgeKey key target indexName type)) ≠ none) ∨
          ∀ earlier ∈ before, makeEdgeKey key target indexName type ∉
            (declaredEdges c db key earlier indexName).map Prod.fst := by
        by_cases hearlier : ∃ earlier ∈ before, makeEdgeKey key target indexName type ∈
            (declaredEdges c db key earlier indexName).map Prod.fst
        · obtain ⟨earlier, hmem, hin⟩ := hearlier
          obtain ⟨w, hwl, hkey⟩ := mem_map.mp hin
          exact .inl (hkey ▸ hreplaced earlier hmem w hwl (hkey ▸ hno))
        · exact .inr fun earlier hmem hin => hearlier ⟨earlier, hmem, hin⟩
      exact ⟨(hw.removed_iff hdocs hown hts hlast hno (.inl rfl)).mpr (hcases.imp_left And.left),
        (hw.removed_iff hdocs hown hts hlast hno (.inr rfl)).mpr (hcases.imp_left And.right)⟩

theorem KeysWritten.embedding (hw : KeysWritten c db key ts storesBody docs get)
    (hdocs : ∀ json ∈ docs, Accepted c db key json) {e : Bytes × Json}
    (he : e ∈ specialEntries c json embeddingsField)
    (hlast : LastWith (Names c embeddingsField · e.1) docs before json) {w : Write}
    (hok : extractEmbedding c db key e.1 e.2 = .ok (.inl w)) : get w.1 = some (.raw w.2) := by
  have hjson := hdocs json hlast.mem
  have heffect := hjson.embedding_listed ts he hok
  obtain ⟨rest, hrest, hkey⟩ := extractEmbedding_indexedKey hok
  have hwkey : w.1 = indexedKey key e.1 rest := hkey
  rw [hwkey] at heffect ⊢
  have hpre : key ++ indexMarker <+: indexedKey key e.1 rest := prefix_append _ _
  rw [hw.fields _ (.embedding hlast.mem hlast.holds hrest) hpre, hlast.lastEffect, heffect]
  · rfl
  · exact fun later hmem hname => (hdocs later hmem).embedding_unnamed
      (hjson.plain _ _ hlast.holds) hname hrest

theorem KeysWritten.summary_iff (hw : KeysWritten c db key ts storesBody docs get)
    (hdocs : ∀ json ∈ docs, Accepted c db key json) {s : Bytes × Json}
    (hs : s ∈ specialEntries c json summariesField)
    (hlast : LastWith (Names c summariesField · s.1) docs before json) {text : Bytes}
    (htext : s.2 = .str text) :
    get (makeSummaryKey key s.1) = some (.raw (summaryValue c text)) ↔
      db.indexes.lookup s.1 ≠ none ∨
        db.get? (makeSummaryKey key s.1) = some (.raw (summaryValue c text)) := by
  have hjson := hdocs json hlast.mem
  have hindex := hjson.plain _ _ hlast.holds
  have hpre : key ++ indexMarker <+: makeSummaryKey key s.1 :=
    makeSummaryKey_eq key s.1 ▸ prefix_append _ _
  by_cases hindexed : db.indexes.lookup s.1 = none
  · have hnone : OrdMap.lastEffect (docs.flatMap (fieldOps c db key ts))
        (makeSummaryKey key s.1) = none :=
      lastEffect_flatMap_eq_none_iff.mpr fun later hmem =>
        (hdocs later hmem).summary_unnamed hindex fun _ => hindexed
    rw [hw.fields _ (.summary hlast.mem hlast.holds) hpre, hnone,
      or_iff_right (not_not.mpr hindexed)]
    rfl
  · refine iff_of_true ?_ (.inl hindexed)
    rw [hw.fields _ (.summary hlast.mem hlast.holds) hpre, hlast.lastEffect,
      hjson.summary_listed hs hindexed htext]
    · rfl
    · exact fun later hmem hname => (hdocs later hmem).summary_unnamed hindex fun hin =>
        absurd hin hname

theorem Extracted.void_iff {sf : SpecialFields} (h : Extracted c db key json sf) :
    (sf.embeddingWrites = [] ∧ sf.summaryWrites = [] ∧ sf.edgeWrites = [] ∧ sf.indexDeletes = []) ↔
      ¬ Extracts c db key json := by
  constructor
  · rintro ⟨hemb, hsum, hedge, hdel⟩ hextracts
    rcases hextracts with
      hentries | ⟨s, hs, hindexed⟩ | ⟨name, hlisted⟩ | ⟨name, hname, x, hx, hget⟩
    · obtain ⟨e, he⟩ := exists_mem_of_ne_nil _ hentries
      obtain ⟨r, hr⟩ := h.embeddings e he
      cases r with
      | inl w => exact ne_nil_of_mem ((h.mem_embeddingWrites w).mpr ⟨e, he, hr⟩) hemb
      | inr d => exact ne_nil_of_mem ((h.mem_indexDeletes d).mpr (.inl ⟨e, he, hr⟩)) hdel
    · obtain ⟨r, hr⟩ := h.summaries s hs
      cases r with
      | some w => exact ne_nil_of_mem ((h.mem_summaryWrites w).mpr ⟨s, hs, hr⟩) hsum
      | none =>
        obtain ⟨config, hconfig⟩ := ne_none_iff_exists'.mp hindexed
        unfold extractSummary at hr
        rw [hconfig] at hr
        dsimp only at hr
        split at hr <;> cases hr
    · obtain ⟨w, hwl⟩ := exists_mem_of_ne_nil _ hlisted
      exact ne_nil_of_mem ((h.mem_edgeWrites w).mpr ⟨name, hwl⟩) hedge
    · refine ne_nil_of_mem ((h.mem_indexDeletes x).mpr (.inr ?_)) hdel
      refine mem_reconcileEdges.mpr ⟨⟨name, hname, hx⟩, isSome_iff_ne_none.mpr hget, ?_⟩
      rw [hedge]
      exact not_mem_nil
  · intro hvoid
    refine ⟨?_, ?_, ?_, ?_⟩ <;> refine eq_nil_iff_forall_not_mem.mpr fun w hw => hvoid ?_
    · obtain ⟨e, he, -⟩ := (h.mem_embeddingWrites w).mp hw
      exact .inl (ne_nil_of_mem he)
    · obtain ⟨s, hs, hok⟩ := (h.mem_summaryWrites w).mp hw
      refine .inr (.inl ⟨s, hs, fun hnone => ?_⟩)
      unfold extractSummary at hok
      rw [hnone] at hok
      cases hok
    · obtain ⟨name, hlisted⟩ := (h.mem_edgeWrites w).mp hw
      exact .inr (.inr (.inl ⟨name, ne_nil_of_mem hlisted⟩))
    · rcases (h.mem_indexDeletes w).mp hw with ⟨e, he, -⟩ | hreconcile
      · exact .inl (ne_nil_of_mem he)
      · obtain ⟨⟨name, hname, hpre⟩, hstored, -⟩ := mem_reconcileEdges.mp hreconcile
        exact .inr (.inr (.inr ⟨name, hname, w, hpre, isSome_iff_ne_none.mp hstored⟩))

/-- Decoding an object that was encoded gives no field that the object did not have. -/
def KeepsNames (c : Codec) : Prop :=
  ∀ o b, c.marshalObj o = some b → ∀ o', c.unmarshalObj b = some o' →
    ∀ f ∈ o', ∃ f' ∈ o, f'.1 = f.1

/-- The body that a document is stored as has none of the special fields if and only if the document
has none or they are not void. -/
theorem Accepted.cleanBody_iff (h : Accepted c db key json) (hround : KeepsNames c) :
    CleanBody c (some (.zstd (committedBody c db key json))) ↔
      NoSpecialFields c json ∨ Extracts c db key json := by
  have hclean : ∀ b, CleanBody c (some (.zstd b)) ↔ NoSpecialFields c b := fun b =>
    ⟨fun hb => hb b rfl, fun hb json hjson => Stored.zstd.inj (Option.some.inj hjson) ▸ hb⟩
  rcases h.cases 0 with ⟨hno, -, hbody, -⟩ | ⟨sf, hsf, -, hbody, -⟩
  · rw [hbody, hclean]
    exact iff_of_true hno (.inl hno)
  · obtain ⟨doc, hdoc, -, hcleaned⟩ := hsf.body
    rw [hbody, hclean]
    by_cases hvoid : Extracts c db key json
    · rw [if_neg fun hempty => hsf.void_iff.mp hempty hvoid] at hcleaned
      refine iff_of_true ?_ (.inr hvoid)
      intro o ho f hf
      obtain ⟨f', hf', heq⟩ := hround _ _ hcleaned o ho f hf
      have hkept := (mem_filter.mp hf').2
      rw [← heq]
      simpa using hkept
    · rw [if_pos (hsf.void_iff.mpr hvoid)] at hcleaned
      rw [hcleaned, or_iff_left hvoid]

theorem KeysWritten.body_last (hw : KeysWritten c db key ts storesBody docs get)
    (hlast : LastWith (storesBody · = true) docs before json) :
    get (keyRangeStart key) = some (.zstd (committedBody c db key json)) := by
  rw [hw.body, hlast.lastEffect fun later _ hno => by rw [bodyOps, if_neg hno]; rfl, bodyOps,
    if_pos hlast.holds]
  simp [lastEffect_cons, OrdMap.Edit.effect]

/-- The stored body has none of the special fields if and only if the last document that is stored
has none or they are not void, or, without one, the old body has none. -/
theorem KeysWritten.cleanBody_iff (hw : KeysWritten c db key ts storesBody docs get)
    (hdocs : ∀ json ∈ docs, Accepted c db key json) (hround : KeepsNames c) :
    CleanBody c (get (keyRangeStart key)) ↔
      (∀ before json, LastWith (storesBody · = true) docs before json →
        NoSpecialFields c json ∨ Extracts c db key json) ∧
      ((∀ json ∈ docs, storesBody json = false) → CleanBody c (db.get? (keyRangeStart key))) := by
  by_cases hstores : ∃ json ∈ docs, storesBody json = true
  · have hsome : ¬ ∀ json ∈ docs, storesBody json = false := by
      intro hall
      obtain ⟨json, hmem, hjson⟩ := hstores
      rw [hall json hmem] at hjson
      cases hjson
    rw [and_iff_left fun hall => absurd hall hsome]
    constructor
    · intro hclean before json hlast
      rw [hw.body_last hlast] at hclean
      exact ((hdocs json hlast.mem).cleanBody_iff hround).mp hclean
    · intro hall
      obtain ⟨before, json, hlast⟩ := exists_lastWith hstores
      rw [hw.body_last hlast]
      exact ((hdocs json hlast.mem).cleanBody_iff hround).mpr (hall before json hlast)
  · have hnone : ∀ json ∈ docs, storesBody json = false := fun json hmem =>
      Bool.eq_false_iff.mpr fun htrue => hstores ⟨json, hmem, htrue⟩
    have hold : get (keyRangeStart key) = db.get? (keyRangeStart key) := by
      rw [hw.body, lastEffect_flatMap_eq_none_iff.mpr]
      · rfl
      · intro json hmem
        rw [bodyOps, if_neg (by rw [hnone json hmem]; exact Bool.false_ne_true)]
        rfl
    rw [hold]
    refine ⟨fun hclean => ⟨fun before json hlast => ?_, fun _ => hclean⟩, fun h => h.2 hnone⟩
    exact absurd ⟨json, hlast.mem, hlast.holds⟩ hstores

/-- The special fields of the documents written under a key are followed if and only if the
declaration is one that the store can follow. -/
theorem KeysWritten.declarative_iff (hw : KeysWritten c db key ts storesBody docs get)
    (hdocs : ∀ json ∈ docs, Accepted c db key json)
    (hown : ¬ OwnRecord (keyRangeStart key)) (hts : 0 < ts) (hround : KeepsNames c) :
    Declarative c db key ts get docs ↔ DeclarativeWhen c db key storesBody docs := by
  have hbody := hw.cleanBody_iff hdocs hround
  constructor
  · intro h
    have hedges : ∀ before json indexName, _ := fun before json indexName hlast =>
      (hw.edgesAre_iff hdocs hown hts hlast).mp (h.edges before json indexName hlast)
    exact {
      fresh := fun before json indexName hlast => (hedges before json indexName hlast).1
      consistent := fun before json indexName hlast => (hedges before json indexName hlast).2.1
      replaced := fun before json indexName hlast => (hedges before json indexName hlast).2.2
      registered := fun before json s hs hlast text htext =>
        (hw.summary_iff hdocs hs hlast htext).mp (h.summaries before json s hs hlast text htext)
      cleaned := (hbody.mp h.body).1
      kept := (hbody.mp h.body).2 }
  · intro h
    exact {
      edges := fun before json indexName hlast => (hw.edgesAre_iff hdocs hown hts hlast).mpr
        ⟨h.fresh before json indexName hlast, h.consistent before json indexName hlast,
          h.replaced before json indexName hlast⟩
      embeddings := fun before json e he hlast w hok => hw.embedding hdocs he hlast hok
      summaries := fun before json s hs hlast text htext =>
        (hw.summary_iff hdocs hs hlast htext).mpr (h.registered before json s hs hlast text htext)
      body := hbody.mpr ⟨h.cleaned, h.kept⟩ }

end Declaration

/-- The documents that a batch writes under a key, in order. -/
def documentsOf (key : Bytes) (writes : List Write) : List Bytes :=
  (writes.filter fun w => w.1 = key && hasPrefix w.2 (ascii ['\x7b'])).map Prod.snd

/-- A batch stores the body of a document unless it has special fields only. -/
def batchStoresBody (c : Codec) (json : Bytes) : Bool :=
  !mentionsSpecialFields json ||
    ((c.unmarshalObj json).getD []).any fun f => !isSpecialField f.1

/-- No other write of a batch touches what the documents written under a key declare, and no delete
of it covers that. -/
structure Apart (c : Codec) (key : Bytes) (writes : List Write) (deletes : List Bytes) : Prop where
  written : ∀ w ∈ writes, w.1 ≠ key → ∀ x, DeclaredKey c key (documentsOf key writes) x →
    if writeKind w.1 = .document then ¬ TouchesFields c w.1 w.2 x else x ≠ w.1
  deleted : ∀ d ∈ deletes, ∀ x, DeclaredKey c key (documentsOf key writes) x → ¬ Sweeps d x

section Batch

variable {c : Codec} {db db' : DBImpl} {key : Bytes} {ts : Nat}

variable {u x : Bytes} {w : Write} {ops : List PebbleOp} {docs : List Bytes}

theorem DeclaredKey.under (hx : DeclaredKey c key docs x) : ∃ rest, x = key ++ 58 :: rest := by
  have hindexed (name rest : Bytes) : ∃ rest', indexedKey key name rest = key ++ 58 :: rest' :=
    ⟨_, by simp [indexedKey, indexMarker, ascii]; rfl⟩
  cases hx with
  | body => exact ⟨[0], keyRangeStart_eq key⟩
  | embedding _ _ _ => exact hindexed _ _
  | summary _ _ => exact makeSummaryKey_eq key _ ▸ hindexed _ _
  | edge _ _ hz =>
    obtain ⟨rest, rfl, -⟩ := hz.under
    exact hindexed _ _

/-- The body of another document, and its timestamp, are none of these keys. -/
theorem DeclaredKey.not_documentKey (hx : DeclaredKey c key docs x) (hne : u ≠ key) :
    ¬ IsDocumentKey u x := by
  intro hdocument
  cases hx with
  | body =>
    rcases hdocument with heq | heq
    · exact hne (keyRangeStart_inj.mp heq).symm
    · exact keyRangeStart_ne_timestampKey key u heq
  | @embedding _ name _ _ _ hrest =>
    refine documentKey_ne_of_embedding (u := key) hdocument ⟨name, ?_⟩
    rw [makeEmbeddingKey_eq, makeSparseKey_eq]
    rcases hrest with rfl | rfl
    · exact .inl rfl
    · exact .inr rfl
  | summary _ _ => exact documentKey_ne_of_summary hdocument rfl
  | edge _ _ hz =>
    rcases hz with heq | heq
    · exact documentKey_ne_of_edge hdocument heq
    · exact documentKey_ne_of_edgeTimestamp hdocument heq

theorem documentOps_untouched {body : Bytes} (hx : ¬ IsDocumentKey u x) :
    ∀ o ∈ documentOps u body ts, o.effect x = none := by
  intro o ho
  cases heffect : o.effect x with
  | none => rfl
  | some v =>
    refine absurd ?_ hx
    rcases effect_documentOps ho heffect with ⟨rfl, -⟩ | ⟨rfl, -⟩
    · exact .inl rfl
    · exact .inr rfl

theorem fieldOps_untouched {json : Bytes} {sf : SpecialFields}
    (h : extractAndWriteSpecialFields c db json u = .ok (some sf))
    (hx : ¬ TouchesFields c u json x) :
    ∀ o ∈ sf.ops ts, o.effect x = none := by
  unfold extractAndWriteSpecialFields at h
  split at h
  · cases h
  · rw [bind_eq_ok] at h
    obtain ⟨sf', hsf', heq⟩ := h
    cases heq
    exact (extractSpecialFields_extracted hsf').untouched hx ts

theorem writeOps_untouched {internalMergeCopy : Bool}
    (h : writeOps c db internalMergeCopy ts w = .ok ops) (hdocument : ¬ IsDocumentKey w.1 x)
    (hx : if writeKind w.1 = .document then ¬ TouchesFields c w.1 w.2 x else x ≠ w.1) :
    ∀ o ∈ ops, o.effect x = none := by
  have hnothing : ∀ o ∈ ([] : List PebbleOp), o.effect x = none := fun o ho =>
    absurd ho not_mem_nil
  unfold writeOps at h
  split at h
  · unfold storeWriteOps at h
    split at h
    · next hkind =>
        rw [hkind, if_neg (by decide)] at hx
        obtain rfl := Except.ok.inj h
        split
        · exact hnothing
        · exact fun o ho => mem_singleton.mp ho ▸ if_neg hx
    · next hkind =>
        rw [hkind, if_neg (by decide)] at hx
        obtain rfl := Except.ok.inj h
        split
        · exact hnothing
        · exact fun o ho => mem_singleton.mp ho ▸ if_neg hx
    · next hkind =>
        rw [hkind, if_pos rfl] at hx
        unfold documentWriteOps at h
        split at h
        · exact Except.ok.inj h ▸ hnothing
        · rw [bind_eq_ok] at h
          obtain ⟨r, hr, h⟩ := h
          cases r with
          | none => exact Except.ok.inj h ▸ documentOps_untouched hdocument
          | some sf =>
            obtain rfl := Except.ok.inj h
            intro o ho
            rcases mem_append.mp ho with hfield | hbody
            · exact fieldOps_untouched hr hx o hfield
            · split at hbody
              · exact documentOps_untouched hdocument o hbody
              · exact absurd hbody not_mem_nil
  · exact Except.ok.inj h ▸ hnothing

theorem lastEffect_documentOps_body (key body : Bytes) (ts : Nat) :
    OrdMap.lastEffect (documentOps key body ts) (keyRangeStart key) = some (some (.zstd body)) := by
  have hstamp : OrdMap.lastEffect (timestampOps (keyRangeStart key) ts) (keyRangeStart key) =
      none := by
    rw [lastEffect_eq_none_iff]
    intro o ho
    unfold timestampOps at ho
    split at ho
    · rw [mem_singleton.mp ho]
      exact if_neg (keyRangeStart_ne_timestampKey key key)
    · exact absurd ho not_mem_nil
  rw [documentOps, lastEffect_cons, hstamp]
  simp [OrdMap.Edit.effect]

theorem not_marker_documentKey (hx : IsDocumentKey key x) : ¬ key ++ indexMarker <+: x := by
  rcases hx with rfl | rfl
  · rw [keyRangeStart_eq, prefix_append_right_inj]
    decide
  · rw [documentTimestampKey_eq, prefix_append_right_inj]
    decide

theorem lastEffect_documentOps_marker (hx : key ++ indexMarker <+: x) (body : Bytes) :
    OrdMap.lastEffect (documentOps key body ts) x = none := by
  cases heffect : OrdMap.lastEffect (documentOps key body ts) x with
  | none => rfl
  | some v =>
    obtain ⟨o, ho, hox⟩ := exists_effect_of_lastEffect heffect
    rcases effect_documentOps ho hox with ⟨rfl, -⟩ | ⟨rfl, -⟩
    · exact absurd hx (not_marker_documentKey (.inl rfl))
    · exact absurd hx (not_marker_documentKey (.inr rfl))

theorem lastEffect_ops_body {sf : SpecialFields} (h : sf.KeysOf key) :
    OrdMap.lastEffect (sf.ops ts) (keyRangeStart key) = none :=
  lastEffect_eq_none_iff.mpr (h.untouched (not_marker_documentKey (.inl rfl)) ts)

theorem lastEffect_bodyOps (key json : Bytes) (storesBody : Bytes → Bool) :
    OrdMap.lastEffect (bodyOps c db key storesBody json) (keyRangeStart key) =
      if storesBody json then some (some (.zstd (committedBody c db key json))) else none := by
  unfold bodyOps
  split
  · simp [lastEffect_cons, OrdMap.Edit.effect]
  · rfl

/-- What a write of an accepted document does is what its special fields and its body do. -/
theorem Accepted.documentWrite {json : Bytes} (h : Accepted c db key json)
    (hobj : hasPrefix json (ascii ['\x7b']) = true)
    (hops : documentWriteOps c db ts (key, json) = .ok ops) :
    (∀ x, key ++ indexMarker <+: x →
      OrdMap.lastEffect ops x = OrdMap.lastEffect (fieldOps c db key ts json) x) ∧
    OrdMap.lastEffect ops (keyRangeStart key) =
      OrdMap.lastEffect (bodyOps c db key (batchStoresBody c) json) (keyRangeStart key) := by
  unfold documentWriteOps at hops
  rw [hobj] at hops
  rw [lastEffect_bodyOps]
  rcases h.cases ts with ⟨-, hfields, hbody, hmentions, hr⟩ |
    ⟨sf, hsf, hfields, hbody, hmentions, hr⟩
  · have hstores : batchStoresBody c json = true := by
      unfold batchStoresBody
      rw [hmentions]
      rfl
    rw [hr] at hops
    obtain rfl := Except.ok.inj hops
    rw [hfields, hbody, hstores, if_pos rfl]
    exact ⟨fun x hx => lastEffect_documentOps_marker hx json,
      lastEffect_documentOps_body key json ts⟩
  · obtain ⟨doc, hdoc, hnon, -⟩ := hsf.body
    have hstores : batchStoresBody c json = sf.hasNonSpecialFields := by
      unfold batchStoresBody
      rw [hmentions, hdoc, Bool.eq_iff_iff, hnon]
      simp
    rw [hr] at hops
    obtain rfl := Except.ok.inj hops
    rw [hfields, hbody, hstores]
    refine ⟨fun x hx => ?_, ?_⟩
    · rw [lastEffect_append]
      split
      · rw [lastEffect_documentOps_marker hx, none_or]
      · rfl
    · rw [lastEffect_append, lastEffect_ops_body (extractAndWrite_keysOf hr), or_none]
      split
      · exact lastEffect_documentOps_body key sf.cleanedJSON ts
      · rfl

theorem lastEffect_writes {writes : List Write} {internalMergeCopy : Bool}
    {ws : List (List PebbleOp)}
    (hws : writes.mapM (writeOps c db internalMergeCopy ts) = .ok ws)
    (hkind : writeKind key = .document) (happlies : appliesKey db internalMergeCopy key = true)
    {deletes : List Bytes} (hapart : Apart c key writes deletes)
    {f : Bytes → List PebbleOp} {x : Bytes} (hx : DeclaredKey c key (documentsOf key writes) x)
    (hf : ∀ json ∈ documentsOf key writes, ∀ ops, documentWriteOps c db ts (key, json) = .ok ops →
      OrdMap.lastEffect ops x = OrdMap.lastEffect (f json) x) :
    OrdMap.lastEffect ws.flatten x = OrdMap.lastEffect ((documentsOf key writes).flatMap f) x := by
  have hwrite {w : Write} (hw : w ∈ writes) :
      ∃ ops, writeOps c db internalMergeCopy ts w = .ok ops := (exists_mem_of_mapM hws hw).imp
    fun ops hops => hops.2
  have hown {w : Write} (hkey : w.1 = key) :
      writeOps c db internalMergeCopy ts w = documentWriteOps c db ts w := by
    unfold writeOps storeWriteOps
    rw [hkey, happlies, hkind]
    rfl
  have hnone : ∀ w ∈ writes, (decide (w.1 = key) && hasPrefix w.2 (ascii ['\x7b'])) = false →
      OrdMap.lastEffect (getD (writeOps c db internalMergeCopy ts w) []) x = none := by
    intro w hw hnot
    obtain ⟨ops, hops⟩ := hwrite hw
    rw [hops, getD_ok]
    by_cases hkey : w.1 = key
    · -- The value is no object, and is skipped.
      rw [decide_eq_true hkey, Bool.true_and] at hnot
      rw [hown hkey, documentWriteOps, hnot] at hops
      obtain rfl := Except.ok.inj hops
      rfl
    · exact lastEffect_eq_none_iff.mpr
        (writeOps_untouched hops (hx.not_documentKey hkey) (hapart.written w hw hkey x hx))
  rw [flatten_of_mapM hws, ← lastEffect_flatMap_filter hnone, documentsOf, flatMap_map]
  refine lastEffect_flatMap_congr fun w hw => ?_
  obtain ⟨hmem, hcond⟩ := mem_filter.mp hw
  obtain ⟨hkey, hobj⟩ := Bool.and_eq_true_iff.mp hcond
  have hkey' := of_decide_eq_true hkey
  obtain ⟨ops, hops⟩ := hwrite hmem
  rw [hops, getD_ok]
  refine hf w.2 (mem_map_of_mem hw) ops ?_
  rw [← hkey', ← hown hkey']
  exact hops

/-- A batch that touches a key apart from others leaves under it what the documents it writes there
do. -/
theorem written_batch {writes : List Write} {deletes : List Bytes} {syncLevel : SyncLevel}
    (h : batch c db writes deletes syncLevel ts = .ok db') (hown : ¬ OwnRecord (keyRangeStart key))
    (hkind : writeKind key = .document)
    (happlies : appliesKey db (syncLevel = .internalMergeCopy) key = true)
    (hapart : Apart c key writes deletes)
    (hspelled : ∀ json ∈ documentsOf key writes, Spelled c json) :
    (∀ json ∈ documentsOf key writes, Accepted c db key json) ∧
      KeysWritten c db key ts (batchStoresBody c) (documentsOf key writes) db'.get? := by
  simp only [batch, bind_eq_ok, pure_eq_ok] at h
  obtain ⟨ops, hcontent, rfl⟩ := h
  unfold contentOps at hcontent
  simp only [bind_eq_ok, pure_eq_ok] at hcontent
  obtain ⟨ws, hws, rfl⟩ := hcontent
  have haccepted : ∀ json ∈ documentsOf key writes, Accepted c db key json := by
    intro json hjson
    obtain ⟨w, hw, rfl⟩ := mem_map.mp hjson
    obtain ⟨hmem, hcond⟩ := mem_filter.mp hw
    obtain ⟨hkey, hobj⟩ := Bool.and_eq_true_iff.mp hcond
    obtain ⟨ops, -, hops⟩ := exists_mem_of_mapM hws hmem
    refine ⟨hspelled _ hjson, ?_⟩
    unfold writeOps storeWriteOps documentWriteOps at hops
    rw [of_decide_eq_true hkey, happlies, hkind, hobj] at hops
    obtain ⟨r, hr, -⟩ := bind_eq_ok.mp hops
    exact ⟨r, hr⟩
  have hget : ∀ x, DeclaredKey c key (documentsOf key writes) x → ∀ f : Bytes → List PebbleOp,
      (∀ json ∈ documentsOf key writes, ∀ ops, documentWriteOps c db ts (key, json) = .ok ops →
        OrdMap.lastEffect ops x = OrdMap.lastEffect (f json) x) →
      (appendMergeDelta (appendSplitDelta (db.applyOps (ws.flatten ++
          deletes.flatMap (deleteOps db (syncLevel = .internalMergeCopy))))
          (captured db (capturesSplit db) (syncLevel = .internalMergeCopy) writes deletes) ts)
          (captured db (capturesMerge db) (syncLevel = .internalMergeCopy) writes deletes)
            ts).get? x =
        (OrdMap.lastEffect ((documentsOf key writes).flatMap f) x).getD (db.get? x) := by
    intro x hx f hf
    have hlog : ¬ DeltaLogKey x := by
      obtain ⟨rest, rfl⟩ := hx.under
      exact fun hlog => hown (ownRecord_append_colon (.inl hlog.metadata))
    have hdeletes : OrdMap.lastEffect
        (deletes.flatMap (deleteOps db (syncLevel = .internalMergeCopy))) x = none := by
      refine lastEffect_flatMap_eq_none_iff.mpr fun d hd => ?_
      unfold deleteOps
      split
      · exact lastEffect_eq_none_iff.mpr fun o ho =>
          mem_singleton.mp ho ▸ if_neg (hapart.deleted d hd x hx)
      · rfl
    rw [(SameContent.of_appendMergeDelta _ _ ts).content _ hlog,
      (SameContent.of_appendSplitDelta _ _ ts).content _ hlog, DBImpl.get?_applyOps,
      lastEffect_append, hdeletes, none_or,
      lastEffect_writes hws hkind happlies hapart hx hf]
  have hobj : ∀ json ∈ documentsOf key writes, hasPrefix json (ascii ['\x7b']) = true := by
    intro json hjson
    obtain ⟨w, hw, rfl⟩ := mem_map.mp hjson
    exact (Bool.and_eq_true_iff.mp (mem_filter.mp hw).2).2
  refine ⟨haccepted, fun x hx hpre => ?_, ?_⟩
  · exact hget x hx _ fun json hjson ops hops =>
      ((haccepted json hjson).documentWrite (hobj json hjson) hops).1 x hpre
  · exact hget _ .body _ fun json hjson ops hops =>
      ((haccepted json hjson).documentWrite (hobj json hjson) hops).2

end Batch

section Resolve

variable {c : Codec} {db : DBImpl} {key : Bytes}

/-- A committed resolution stores the value `i` of a transaction under `key`, apart from its other
intents. -/
structure ResolvesDocument (c : Codec) (db : DBImpl) (op : ResolveIntentsOp) (key : Bytes)
    (i : TxnIntent) : Prop where
  uuid : op.txnID.length = uuidLen
  committed : op.status = .committed
  intent : IntentOn db op.txnID key i
  isWrite : i.isDelete = false
  nonempty : i.value ≠ []
  newer : shouldWriteValue c db (keyRangeStart key) op.commitVersion = true
  accepted : Accepted c db key i.value
  writes : ∀ u i', IntentOn db op.txnID u i' → i'.isDelete = false → u ≠ key →
    ∀ x, DeclaredKey c key [i.value] x → ¬ TouchesFields c u i'.value x
  deletes : ∀ u i', IntentOn db op.txnID u i' → i'.isDelete = true →
    ∀ x, DeclaredKey c key [i.value] x → ¬ Sweeps u x

theorem committedValueOps_apart {u value x : Bytes} {v : Nat} (hdocument : ¬ IsDocumentKey u x)
    (hx : ¬ TouchesFields c u value x) :
    ∀ o ∈ committedValueOps c db u value v, o.effect x = none := by
  have hset {y : Bytes} {s : Stored} (hy : IsDocumentKey u y) :
      (OrdMap.Edit.set y s : PebbleOp).effect x = none := by
    refine if_neg ?_
    rintro rfl
    exact hdocument hy
  have hpre : ∃ pre, committedValueOps c db u value v =
      pre ++ [.set (keyRangeStart u) (.zstd (committedBody c db u value)),
        .set (documentTimestampKey u) (.uint64 v)] ∧ ∀ o ∈ pre, o.effect x = none := by
    unfold committedValueOps committedBody documentTimestampKey
    cases hext : extractAndWriteSpecialFields c db value u with
    | error e => exact ⟨[], rfl, fun o ho => absurd ho not_mem_nil⟩
    | ok r =>
      cases r with
      | none => exact ⟨[], rfl, fun o ho => absurd ho not_mem_nil⟩
      | some sf => exact ⟨sf.ops v, by simp, fieldOps_untouched hext hx⟩
  obtain ⟨pre, heq, hnone⟩ := hpre
  rw [heq]
  intro o ho
  rcases mem_append.mp ho with hin | hin
  · exact hnone o hin
  · simp only [mem_cons, not_mem_nil, or_false] at hin
    rcases hin with rfl | rfl
    · exact hset (.inl rfl)
    · exact hset (.inr rfl)

variable {op : ResolveIntentsOp} {i : TxnIntent}

/-- Under the key of a document a resolution does what the committed value of the document does. -/
theorem ResolvesDocument.lastEffect (h : ResolvesDocument c db op key i)
    (hown : ¬ OwnRecord (keyRangeStart key)) {x : Bytes} (hx : DeclaredKey c key [i.value] x) :
    OrdMap.lastEffect ((transactionIntents db op.txnID).flatMap (resolveIntentOps c db op)) x =
      OrdMap.lastEffect (committedValueOps c db key i.value op.commitVersion) x := by
  have hdelete : ∀ u, (OrdMap.Edit.delete (makeIntentKey op.txnID u) : PebbleOp).effect x =
      none := by
    intro u
    obtain ⟨rest, hrest⟩ := hx.under
    refine if_neg fun heq => hown (ownRecord_append_colon (k := key) (t := rest) ?_)
    rw [← hrest, heq]
    exact .inr (.inr ((prefix_append _ _).trans (prefix_makeIntentKey op.txnID u)))
  have hmem : (makeIntentKey op.txnID key, Stored.txnIntent i) ∈ transactionIntents db op.txnID :=
    (mem_transactionIntents (prefix_makeIntentKey op.txnID key)).mpr h.intent
  rw [lastEffect_flatMap_of_unique hmem]
  · unfold resolveIntentOps
    rw [parseIntentKey_makeIntentKey h.uuid]
    dsimp only
    rw [if_pos h.committed, lastEffect_append, lastEffect_cons, hdelete]
    unfold committedIntentOps
    rw [h.isWrite, isEmpty_eq_false_iff.mpr h.nonempty, h.newer]
    rfl
  · intro e he hne o ho
    obtain ⟨u, i', hon, rfl, hcases⟩ := mem_resolveIntentOps h.uuid he ho
    rcases hcases with hvalue | rfl
    · unfold committedIntentOps at hvalue
      split at hvalue
      · next hdel =>
          rw [mem_singleton.mp hvalue]
          exact if_neg (h.deletes u i' hon hdel x hx)
      · next hdel =>
          have huk : u ≠ key := by
            rintro rfl
            exact hne (by rw [hon.unique h.intent])
          split at hvalue
          · exact committedValueOps_apart (hx.not_documentKey huk)
              (h.writes u i' hon (by simpa using hdel) huk x hx) o hvalue
          · exact absurd hvalue not_mem_nil
    · exact hdelete u

/-- A resolution leaves under the key of a document what its value does; the body is always
stored. -/
theorem written_resolve (h : ResolvesDocument c db op key i)
    (hown : ¬ OwnRecord (keyRangeStart key)) :
    KeysWritten c db key op.commitVersion (fun _ => true) [i.value]
      (resolveIntents c db op).get? := by
  have hget : ∀ x, DeclaredKey c key [i.value] x → (resolveIntents c db op).get? x =
      (OrdMap.lastEffect (committedValueOps c db key i.value op.commitVersion) x).getD
        (db.get? x) := by
    intro x hx
    rw [resolveIntents, DBImpl.get?_applyOps, h.lastEffect hown hx]
  refine ⟨fun x hx hpre => ?_, ?_⟩
  · have hset {y : Bytes} (hy : IsDocumentKey key y) (v : Stored) :
        (OrdMap.Edit.set y v : PebbleOp).effect x = none := by
      refine if_neg ?_
      rintro rfl
      exact not_marker_documentKey hy hpre
    have hbody := hset (y := keyRangeStart key) (.inl rfl)
    have hstamp := hset (y := documentTimestampKey key) (.inr rfl)
    have hvalue : OrdMap.lastEffect (committedValueOps c db key i.value op.commitVersion) x =
        OrdMap.lastEffect (fieldOps c db key op.commitVersion i.value) x := by
      unfold committedValueOps
      rw [lastEffect_append, lastEffect_cons]
      change ((OrdMap.lastEffect [] x).or _).or _ = _
      rw [lastEffect_nil, none_or, ← documentTimestampKey, hstamp, none_or]
      rcases h.accepted.cases op.commitVersion with
        ⟨-, hfields, -, -, hr⟩ | ⟨sf, -, hfields, -, -, hr⟩
      · rw [hr, hfields]
        dsimp only
        rw [lastEffect_cons, lastEffect_nil, none_or, hbody]
      · rw [hr, hfields]
        dsimp only
        rw [lastEffect_append, lastEffect_cons, lastEffect_nil,
          none_or, hbody, none_or]
    rw [hget x hx, hvalue,
      flatMap_singleton]
  · rw [hget _ .body, flatMap_singleton,
      lastEffect_bodyOps, (committedValueOps_lastEffect c db key i.value op.commitVersion).1]
    rfl

end Resolve

/-- A batch that succeeds and writes documents under `key`, apart from its other writes and
deletes. -/
structure BatchesDocuments (c : Codec) (db : DBImpl) (key : Bytes) (ts : Nat) (writes : List Write)
    (deletes : List Bytes) (syncLevel : SyncLevel) (db' : DBImpl) : Prop where
  result : batch c db writes deletes syncLevel ts = .ok db'
  kind : writeKind key = .document
  applies : appliesKey db (syncLevel = .internalMergeCopy) key = true
  apart : Apart c key writes deletes
  spelled : ∀ json ∈ documentsOf key writes, Spelled c json

/-- A batch and a resolution follow the special fields of the documents they write under a key if
and only if the declaration is one that the store can follow. -/
theorem special_fields_declarative_iff {c : Codec} {db : DBImpl} {key : Bytes} {ts : Nat}
    (hown : ¬ OwnRecord (keyRangeStart key)) (hts : 0 < ts) (hround : KeepsNames c) :
    (∀ writes deletes syncLevel db',
      BatchesDocuments c db key ts writes deletes syncLevel db' →
        (Declarative c db key ts db'.get? (documentsOf key writes) ↔
          DeclarativeWhen c db key (batchStoresBody c) (documentsOf key writes))) ∧
    ∀ txnID i, ResolvesDocument c db ⟨txnID, .committed, ts⟩ key i →
      (Declarative c db key ts (resolveIntents c db ⟨txnID, .committed, ts⟩).get? [i.value] ↔
        DeclarativeWhen c db key (fun _ => true) [i.value]) := by
  constructor
  · intro writes deletes syncLevel db' h
    obtain ⟨haccepted, hwritten⟩ :=
      written_batch h.result hown h.kind h.applies h.apart h.spelled
    exact hwritten.declarative_iff haccepted hown hts hround
  · intro txnID i h
    refine (written_resolve h hown).declarative_iff ?_ hown hts hround
    intro json hjson
    exact List.mem_singleton.mp hjson ▸ h.accepted

/-- The document that is stored of `edgeDocument`. -/
def plainDocument : Bytes :=
  ascii ['\x7b', '"', 'a', '"', ':', '1', '\x7d']

/-- A field, and one edge of type `t` to `y` in the graph index `g`. -/
def edgeDocument : Bytes :=
  ascii ['\x7b', '"', 'a', '"', ':', '1', ',', '"', '_', 'e', 'd', 'g', 'e', 's', '"', ':',
    '\x7b', '"', 'g', '"', ':', '\x7b', '"', 't', '"', ':', '[', '\x7b',
    '"', 't', 'a', 'r', 'g', 'e', 't', '"', ':', '"', 'y', '"', '\x7d', ']', '\x7d', '\x7d', '\x7d']

def plainObject : Obj := [(ascii ['a'], .num 1)]

def edgeEntries : Obj :=
  [(ascii ['g'], .obj [(ascii ['t'],
    .arr [.obj [(ascii ['t', 'a', 'r', 'g', 'e', 't'], .str (ascii ['y']))]])])]

/-- A codec for the two documents. -/
def edgeCodec : Codec :=
  { Codec.emptyObject with
    unmarshalObj := fun b =>
      if b = plainDocument then some plainObject
      else if b = edgeDocument then some (plainObject ++ [(edgesField, .obj edgeEntries)])
      else none
    marshalObj := fun o => if o.map Prod.fst = [ascii ['a']] then some plainDocument else none
    encodeEdgeValue := fun e => some e.target }

def graphShard : DBImpl := { DBImpl.empty with indexes := [(ascii ['g'], .graph)] }

def sourceKey : Bytes := ascii ['x']

def edgeWrite : List Write := [(sourceKey, edgeDocument)]

/-- The shard after the document is written at the time 1. -/
def linkedShard : DBImpl :=
  getD (batch edgeCodec graphShard edgeWrite [] .write 1) graphShard

/-- The shard after the same document is written again. -/
def relinkedShard : DBImpl :=
  getD (batch edgeCodec linkedShard edgeWrite [] .write 2) linkedShard

def edgeStamp : Bytes :=
  timestampKey (makeEdgeKey sourceKey (ascii ['y']) (ascii ['g']) (ascii ['t']))

example : linkedShard.get? edgeStamp = some (.uint64 1) := by decide +kernel

theorem sourceKey_notOwn : ¬ OwnRecord (keyRangeStart sourceKey) := by
  unfold OwnRecord
  decide

theorem edgeCodec_keepsNames : KeepsNames edgeCodec := by
  intro o b hmarshal o' hunmarshal f hf
  change (if o.map Prod.fst = [ascii ['a']] then some plainDocument else none) = some b at hmarshal
  split at hmarshal
  · next hnames =>
      obtain rfl := Option.some.inj hmarshal
      obtain rfl := Option.some.inj hunmarshal
      obtain rfl := mem_singleton.mp hf
      have hmem : ascii ['a'] ∈ o.map Prod.fst := hnames ▸ mem_singleton_self _
      exact mem_map.mp hmem
  · cases hmarshal

theorem specialEntries_edgeDocument (field : Bytes) :
    specialEntries edgeCodec edgeDocument field =
      if field = edgesField then edgeEntries else [] := by
  have hdoc : edgeCodec.unmarshalObj edgeDocument =
      some (plainObject ++ [(edgesField, .obj edgeEntries)]) := by
    change (if edgeDocument = plainDocument then some plainObject
      else if edgeDocument = edgeDocument then
        some (plainObject ++ [(edgesField, .obj edgeEntries)])
      else none) = _
    rw [if_neg (by decide), if_pos rfl]
  have hget : Obj.get? (plainObject ++ [(edgesField, .obj edgeEntries)]) field =
      if field = ascii ['a'] then some (.num 1)
      else if field = edgesField then some (.obj edgeEntries) else none := by
    change List.lookup field [(ascii ['a'], Json.num 1), (edgesField, .obj edgeEntries)] = _
    rw [lookup_cons, lookup_cons, lookup_nil]
    by_cases ha : field = ascii ['a']
    · rw [if_pos ha, show (field == ascii ['a']) = true from beq_iff_eq.mpr ha]
    · rw [if_neg ha, show (field == ascii ['a']) = false from beq_eq_false_iff_ne.mpr ha]
      by_cases hedges : field = edgesField
      · rw [if_pos hedges, show (field == edgesField) = true from beq_iff_eq.mpr hedges]
      · rw [if_neg hedges, show (field == edgesField) = false from beq_eq_false_iff_ne.mpr hedges]
  unfold specialEntries
  rw [hdoc, bind_some, hget]
  by_cases ha : field = ascii ['a']
  · rw [ha]
    rfl
  · rw [if_neg ha]
    by_cases hedges : field = edgesField
    · rw [hedges]
      rfl
    · rw [if_neg hedges, if_neg hedges]

theorem spelled_edgeDocument : Spelled edgeCodec edgeDocument where
  mentioned _ := by decide
  plain field indexName hname := by
    unfold Names at hname
    rw [specialEntries_edgeDocument] at hname
    split at hname
    · rw [mem_singleton.mp hname]
      decide
    · exact absurd hname not_mem_nil
  distinct field := by
    rw [specialEntries_edgeDocument]
    split
    · exact nodup_singleton _
    · exact nodup_nil

theorem ok_getD {ε α : Type} {x : Except ε α} (d : α) (h : x.toOption.isSome = true) :
    x = .ok (getD x d) := by
  cases x with
  | error e => cases h
  | ok a => rfl

theorem edgeWrite_batches {db : DBImpl} {ts : Nat}
    (hok : (batch edgeCodec db edgeWrite [] .write ts).toOption.isSome = true)
    (happlies : appliesKey db false sourceKey = true) :
    BatchesDocuments edgeCodec db sourceKey ts edgeWrite [] .write
      (getD (batch edgeCodec db edgeWrite [] .write ts) db) where
  result := ok_getD db hok
  kind := by decide
  applies := happlies
  apart := ⟨fun w hw hne => absurd (congrArg Prod.fst (mem_singleton.mp hw)) hne,
    fun d hd => absurd hd not_mem_nil⟩
  spelled json hjson := by
    have hdocs : documentsOf sourceKey edgeWrite = [edgeDocument] := by decide
    rw [hdocs] at hjson
    exact mem_singleton.mp hjson ▸ spelled_edgeDocument

/-- Writing a document again deletes the timestamp of the edge that it keeps. -/
theorem rewritten_edge_loses_timestamp :
    BatchesDocuments edgeCodec graphShard sourceKey 1 edgeWrite [] .write linkedShard ∧
      BatchesDocuments edgeCodec linkedShard sourceKey 2 edgeWrite [] .write relinkedShard ∧
      ¬ Declarative edgeCodec linkedShard sourceKey 2 relinkedShard.get?
        (documentsOf sourceKey edgeWrite) := by
  refine ⟨edgeWrite_batches (by decide +kernel) (by decide +kernel),
    edgeWrite_batches (by decide +kernel) (by decide +kernel), fun h => ?_⟩
  have hdocs : documentsOf sourceKey edgeWrite = [edgeDocument] := by decide
  rw [hdocs] at h
  have hname : Names edgeCodec edgesField edgeDocument (ascii ['g']) := by
    unfold Names
    rw [specialEntries_edgeDocument, if_pos rfl]
    exact List.mem_singleton_self _
  have hlast : LastWith (Names edgeCodec edgesField · (ascii ['g'])) [edgeDocument] []
      edgeDocument := ⟨hname, [], rfl, fun later hlater => absurd hlater List.not_mem_nil⟩
  have hlisted : (makeEdgeKey sourceKey (ascii ['y']) (ascii ['g']) (ascii ['t']), ascii ['y']) ∈
      declaredEdges edgeCodec linkedShard sourceKey edgeDocument (ascii ['g']) := by decide +kernel
  have hstamp := ((h.edges [] edgeDocument (ascii ['g']) hlast).stored _ hlisted).2
  have hgone : relinkedShard.get? edgeStamp = none := by decide +kernel
  exact absurd (hgone.symm.trans hstamp) nofun

def edgeTxnID : Bytes := List.replicate 16 7

def edgeIntent : TxnIntent := ⟨edgeTxnID, edgeDocument, 1, [], .pending, false⟩

def edgeIntentShard : DBImpl :=
  graphShard.applyOps [.set (makeIntentKey edgeTxnID sourceKey) (.txnIntent edgeIntent)]

theorem intentOn_edgeIntentShard {u : Bytes} {i : TxnIntent}
    (h : IntentOn edgeIntentShard edgeTxnID u i) :
    u = sourceKey ∧ i = edgeIntent := by
  unfold IntentOn edgeIntentShard at h
  rw [DBImpl.get?_applyOps, lastEffect_cons, lastEffect_nil, none_or,
    OrdMap.Edit.effect] at h
  split at h
  · next heq =>
      exact ⟨(makeIntentKey_inj rfl rfl heq).2, (Stored.txnIntent.inj (Option.some.inj h)).symm⟩
  · cases h

theorem edgeIntent_resolves :
    ResolvesDocument edgeCodec edgeIntentShard ⟨edgeTxnID, .committed, 1⟩ sourceKey edgeIntent where
  uuid := rfl
  committed := rfl
  intent := by
    unfold IntentOn
    decide +kernel
  isWrite := rfl
  nonempty := by decide
  newer := by decide +kernel
  accepted := ⟨spelled_edgeDocument, _, ok_getD none (by decide +kernel)⟩
  writes u i hon _ hne := absurd (intentOn_edgeIntentShard hon).1 hne
  deletes u i hon hdelete := by
    rw [(intentOn_edgeIntentShard hon).2] at hdelete
    cases hdelete

theorem special_fields_declarative_iff_edgeDocument :
    (Declarative edgeCodec graphShard sourceKey 1 linkedShard.get?
        (documentsOf sourceKey edgeWrite) ↔
      DeclarativeWhen edgeCodec graphShard sourceKey (batchStoresBody edgeCodec)
        (documentsOf sourceKey edgeWrite)) ∧
    (Declarative edgeCodec edgeIntentShard sourceKey 1
        (resolveIntents edgeCodec edgeIntentShard ⟨edgeTxnID, .committed, 1⟩).get? [edgeDocument] ↔
      DeclarativeWhen edgeCodec edgeIntentShard sourceKey (fun _ => true) [edgeDocument]) := by
  constructor
  · exact (special_fields_declarative_iff sourceKey_notOwn Nat.one_pos edgeCodec_keepsNames).1
      edgeWrite [] .write linkedShard (edgeWrite_batches (by decide +kernel) (by decide +kernel))
  · exact (special_fields_declarative_iff sourceKey_notOwn Nat.one_pos edgeCodec_keepsNames).2
      edgeTxnID edgeIntent edgeIntent_resolves

end Antfly
