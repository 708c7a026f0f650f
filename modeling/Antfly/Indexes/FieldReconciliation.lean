import Antfly.Indexes.EdgeKeys
import Antfly.Indexes.FieldEdges
import Antfly.Lib.Runs
import Mathlib.Data.List.Nodup

/-!
After a version of the document was reconciled, its edges of each configured type should be those to
the targets that the field of the type names.  What the store holds of a type is followed from the
batches that were persisted for it: the targets its marker was written for, and the targets whose
edges are left.
-/

namespace Antfly

open List Option OrdMap

namespace Indexes

variable {docKey name t : Bytes}

theorem makeFieldHashKey_inj {t' : Bytes}
    (h : makeFieldHashKey docKey name t = makeFieldHashKey docKey name t') :
    t = t' := by
  unfold makeFieldHashKey at h
  exact append_cancel_left (append_cancel_right h)

theorem hasSuffix_makeFieldHashKey (docKey name t : Bytes) :
    hasSuffix (makeFieldHashKey docKey name t) edgeOutSuffix = false := by
  rw [Bool.eq_false_iff]
  intro hsuffix
  obtain ⟨before, hbefore⟩ := hasSuffix_iff.mp hsuffix
  have hmarker : makeFieldHashKey docKey name t =
      (docKey ++ indexMarker ++ name ++ ascii [':'] ++ t ++ ascii [':']) ++ [102, 104] := by
    simp only [makeFieldHashKey, fieldHashSuffix, ascii, append_assoc]
    rfl
  rw [hmarker] at hbefore
  have htail := (append_inj' hbefore rfl).2
  exact absurd htail (by decide)

theorem colon_of_edgeIteratorPrefix {key : Bytes} (h : edgeIteratorPrefix docKey name t <+: key) :
    ∃ tail, key = docKey ++ 58 :: tail := by
  obtain ⟨rest, rfl⟩ := h
  refine ⟨ascii ['i', ':'] ++ (name ++ outMarker ++
    (if t.isEmpty then [] else t ++ ascii [':']) ++ rest), ?_⟩
  simp only [edgeIteratorPrefix, indexMarker, append_assoc]
  rfl

theorem colon_of_marker (docKey name t : Bytes) :
    ∃ tail, makeFieldHashKey docKey name t = docKey ++ 58 :: tail := by
  refine ⟨ascii ['i', ':'] ++ (name ++ ascii [':'] ++ t ++ fieldHashSuffix), ?_⟩
  simp only [makeFieldHashKey, indexMarker, append_assoc]
  rfl

namespace GraphEnricher

variable (g : GraphEnricher) (docKey : Bytes)

def OfType (et : FieldEdgeType) (key : Bytes) : Prop :=
  edgeIteratorPrefix docKey g.name et.name <+: key

def marker (et : FieldEdgeType) : Bytes := makeFieldHashKey docKey g.name et.name

/-- No two configured types share a name, no key stands for an edge of two of them, and no marker
for an edge. -/
structure Separate : Prop where
  nodup : (g.fieldEdgeTypes.map fun et => et.name).Nodup
  edges : ∀ et ∈ g.fieldEdgeTypes, ∀ et' ∈ g.fieldEdgeTypes, et.name ≠ et'.name →
    ¬ edgeIteratorPrefix docKey g.name et.name <+: edgeIteratorPrefix docKey g.name et'.name
  markers : ∀ et ∈ g.fieldEdgeTypes, ∀ et' ∈ g.fieldEdgeTypes,
    ¬ g.OfType docKey et (g.marker docKey et')

theorem Separate.not_ofType {g : GraphEnricher} {docKey : Bytes} (h : g.Separate docKey)
    {et et' : FieldEdgeType} (het : et ∈ g.fieldEdgeTypes) (het' : et' ∈ g.fieldEdgeTypes)
    (hne : et.name ≠ et'.name) {key : Bytes} (hkey : g.OfType docKey et key) :
    ¬ g.OfType docKey et' key := by
  intro hkey'
  rcases prefix_or_prefix_of_prefix hkey hkey' with hle | hle
  · exact h.edges et het et' het' hne hle
  · exact h.edges et' het' et het hne.symm hle

end GraphEnricher

/-- The targets the marker of a type was written for, and those whose edges are left. -/
structure EdgeTrace where
  marked : Option (List Bytes)
  stored : List Bytes

def EdgeTrace.add (edgeType : Bytes) (t : EdgeTrace) (entry : EdgeBatch × Persisted) : EdgeTrace :=
  if entry.2 = .refused then t
  else
    match entry.1 with
    | .deletes edgeType' _ => if edgeType' = edgeType then { t with stored := [] } else t
    | .writes edgeType' targets =>
      if edgeType' = edgeType then ⟨some targets, targets⟩ else t

def edgeTrace (edgeType : Bytes) (persisted : List (EdgeBatch × Persisted)) : EdgeTrace :=
  persisted.foldl (EdgeTrace.add edgeType) ⟨none, []⟩

def EdgeBatch.edgeType : EdgeBatch → Bytes
  | .deletes edgeType _ => edgeType
  | .writes edgeType _ => edgeType

theorem edgeTrace_concat (edgeType : Bytes) (persisted : List (EdgeBatch × Persisted))
    (entry : EdgeBatch × Persisted) : edgeTrace edgeType (persisted ++ [entry]) =
      (edgeTrace edgeType persisted).add edgeType entry := by
  simp only [edgeTrace, foldl_append, foldl_cons, foldl_nil]

theorem EdgeTrace.add_of_ne {edgeType : Bytes} {t : EdgeTrace} {batch : EdgeBatch}
    {outcome : Persisted} (h : batch.edgeType ≠ edgeType) :
    t.add edgeType (batch, outcome) = t := by
  cases batch <;> simp_all [EdgeTrace.add, EdgeBatch.edgeType]

namespace GraphEnricher

variable (g : GraphEnricher) (docKey : Bytes)

/-- The store holds of the type what the batches left. -/
structure Tracks (et : FieldEdgeType) (db : OrdMap Bytes Bytes)
    (persisted : List (EdgeBatch × Persisted)) : Prop where
  marker : (db.get? (g.marker docKey et)).bind decodeUint64Ascending =
    (edgeTrace et.name persisted).marked.map fun targets => (g.fieldHash targets).toNat
  edges : ∀ key, g.OfType docKey et key → ((db.get? key).isSome ↔
    ∃ target ∈ (edgeTrace et.name persisted).stored, target ≠ [] ∧
      key = makeEdgeKey docKey target g.name et.name)

variable {g docKey} {edgeValue : Bytes} {et et' : FieldEdgeType}

variable {db : OrdMap Bytes Bytes} {key : Bytes} {batch : EdgeBatch}
variable {persisted : List (EdgeBatch × Persisted)} {outcome : Persisted} {targets : List Bytes}
variable {doc : Obj} {s s' : EnricherState} {ets : List FieldEdgeType}

theorem mem_edgeKeys :
    key ∈ g.edgeKeys docKey db et.name ↔ g.OfType docKey et key ∧ (db.get? key).isSome := by
  simp only [edgeKeys, List.mem_map, Prod.exists, mem_scan_edges, isSome_iff_exists, OfType]
  constructor
  · rintro ⟨k, v, ⟨hpre, hget⟩, rfl⟩
    exact ⟨hpre, v, hget⟩
  · rintro ⟨hpre, v, hget⟩
    exact ⟨key, v, ⟨hpre, hget⟩, rfl⟩

theorem ofType_of_tombstone {k key : Bytes} (hk : g.OfType docKey et k)
    (h : (OrdMap.Edit.deleteRange k (prefixSuccessor (keyRangeEnd k)) :
      OrdMap.Edit Bytes Bytes).effect key ≠ none) : g.OfType docKey et key := by
  simp only [OrdMap.Edit.effect, ne_eq, ite_eq_right_iff, reduceCtorEq, imp_false, not_not] at h
  obtain ⟨tail, rfl, -⟩ := mem_deleteRange_iff.mp h
  exact hk.trans (prefix_append _ _)

theorem effect_edits (hbatch : batch.edgeType = et.name)
    (hkeys : ∀ edgeType keys, batch = .deletes edgeType keys → ∀ k ∈ keys, g.OfType docKey et k)
    (hkey : ¬ g.OfType docKey et key) (hmarker : key ≠ g.marker docKey et) :
    ∀ e ∈ g.edits docKey edgeValue batch, e.effect key = none := by
  intro e he
  by_contra hne
  cases batch with
  | deletes edgeType keys =>
    obtain ⟨k, hk, rfl⟩ := mem_map.mp he
    exact hkey (ofType_of_tombstone (hkeys edgeType keys rfl k hk) hne)
  | writes edgeType targets =>
    cases hbatch
    rcases mem_append.mp he with hedge | hhash
    · obtain ⟨target, -, rfl⟩ := mem_map.mp hedge
      simp only [OrdMap.Edit.effect, ite_eq_right_iff, reduceCtorEq, imp_false, not_not] at hne
      exact hkey (hne ▸ prefix_makeEdgeKey docKey target g.name et.name)
    · cases mem_singleton.mp hhash
      simp only [OrdMap.Edit.effect, ite_eq_right_iff, reduceCtorEq, imp_false, not_not] at hne
      exact hmarker hne

theorem Tracks.of_untouched {db db' : OrdMap Bytes Bytes}
    {persisted persisted' : List (EdgeBatch × Persisted)} (h : g.Tracks docKey et db persisted)
    (htrace : edgeTrace et.name persisted' = edgeTrace et.name persisted)
    (hsame : ∀ key, g.OfType docKey et key ∨ key = g.marker docKey et →
      db'.get? key = db.get? key) : g.Tracks docKey et db' persisted' where
  marker := by
    rw [htrace, hsame _ (Or.inr rfl)]
    exact h.marker
  edges := by
    intro key hkey
    rw [htrace, hsame key (Or.inl hkey)]
    exact h.edges key hkey

theorem Tracks.deletes (h : g.Tracks docKey et db persisted)
    (hmarker : ¬ g.OfType docKey et (g.marker docKey et)) (happlied : outcome ≠ .refused) :
    g.Tracks docKey et
      (db.applyAll (g.edits docKey edgeValue (.deletes et.name (g.edgeKeys docKey db et.name))))
      (persisted ++ [(.deletes et.name (g.edgeKeys docKey db et.name), outcome)]) where
  marker := by
    have hsame : ∀ e ∈ g.edits docKey edgeValue (.deletes et.name (g.edgeKeys docKey db et.name)),
        e.effect (g.marker docKey et) = none := by
      intro e he
      by_contra hne
      obtain ⟨k, hk, rfl⟩ := mem_map.mp he
      exact hmarker (ofType_of_tombstone (mem_edgeKeys.mp hk).1 hne)
    rw [get?_applyAll_of_untouched db hsame, edgeTrace_concat, EdgeTrace.add,
      if_neg happlied]
    simp only [if_true]
    exact h.marker
  edges := by
    intro key hkey
    rw [edgeTrace_concat, EdgeTrace.add, if_neg happlied, get?_applyAll]
    simp only [if_true, not_mem_nil, false_and, exists_false, iff_false,
      not_isSome_iff_eq_none]
    cases hlast : OrdMap.lastEffect
        (g.edits docKey edgeValue (.deletes et.name (g.edgeKeys docKey db et.name))) key with
    | none =>
      rw [getD_none]
      by_contra hne
      have hk : key ∈ g.edgeKeys docKey db et.name :=
        mem_edgeKeys.mpr ⟨hkey, isSome_iff_ne_none.mpr hne⟩
      have heffect := lastEffect_eq_none_iff.mp hlast _ (mem_map_of_mem hk)
      have hcovers : key ≤ key ∧ key < prefixSuccessor (keyRangeEnd key) :=
        mem_deleteRange_iff.mpr ⟨[], (append_nil key).symm, List.Lex.nil⟩
      rw [OrdMap.Edit.effect, if_pos hcovers] at heffect
      cases heffect
    | some o =>
      obtain ⟨e, he, heffect⟩ := exists_effect_of_lastEffect hlast
      obtain ⟨k, -, rfl⟩ := mem_map.mp he
      simp only [OrdMap.Edit.effect] at heffect
      split at heffect
      · cases heffect
        rfl
      · cases heffect

theorem Tracks.writes (hnone : ∀ key, g.OfType docKey et key → db.get? key = none)
    (hmarker : ¬ g.OfType docKey et (g.marker docKey et)) (happlied : outcome ≠ .refused) :
    g.Tracks docKey et (db.applyAll (g.edits docKey edgeValue (.writes et.name targets)))
      (persisted ++ [(.writes et.name targets, outcome)]) where
  marker := by
    rw [edgeTrace_concat, EdgeTrace.add, if_neg happlied, get?_applyAll, edits,
      lastEffect_append]
    have hset : OrdMap.lastEffect [(OrdMap.Edit.set (makeFieldHashKey docKey g.name et.name)
        (encodeUint64Ascending (g.fieldHash targets).toNat) : OrdMap.Edit Bytes Bytes)]
          (g.marker docKey et) =
            some (some (encodeUint64Ascending (g.fieldHash targets).toNat)) := by
      rw [lastEffect_cons, lastEffect_nil, none_or]
      exact if_pos rfl
    rw [hset]
    simp only [some_or, getD_some, bind_some, if_true, map_some]
    exact decodeUint64Ascending_encodeUint64Ascending (UInt64.toNat_lt _)
  edges := by
    intro key hkey
    rw [edgeTrace_concat, EdgeTrace.add, if_neg happlied, get?_applyAll]
    simp only [if_true]
    cases hlast : OrdMap.lastEffect (g.edits docKey edgeValue (.writes et.name targets)) key with
    | none =>
      rw [getD_none, hnone key hkey]
      constructor
      · intro h
        cases h
      · rintro ⟨target, hmem, hne, rfl⟩
        have heffect := lastEffect_eq_none_iff.mp hlast
          (.set (makeEdgeKey docKey target g.name et.name) edgeValue)
          (mem_append_left _ (mem_map_of_mem
            (mem_filter.mpr ⟨hmem, decide_eq_true hne⟩)))
        rw [OrdMap.Edit.effect, if_pos rfl] at heffect
        cases heffect
    | some o =>
      obtain ⟨e, he, heffect⟩ := exists_effect_of_lastEffect hlast
      rcases mem_append.mp he with hedge | hhash
      · obtain ⟨target, hmem, rfl⟩ := mem_map.mp hedge
        obtain ⟨hmem, hne⟩ := mem_filter.mp hmem
        simp only [OrdMap.Edit.effect] at heffect
        split at heffect
        · rename_i heq
          cases heffect
          exact ⟨fun _ => ⟨target, hmem, of_decide_eq_true hne, heq⟩, fun _ => rfl⟩
        · cases heffect
      · cases mem_singleton.mp hhash
        simp only [OrdMap.Edit.effect] at heffect
        split at heffect
        · rename_i heq
          subst heq
          exact absurd hkey hmarker
        · cases heffect

def named (doc : Obj) (et : FieldEdgeType) : List Bytes :=
  match doc.get? et.field with
  | none => []
  | some fieldValue => toStringSlice fieldValue

/-- A version does not lack a field that named a target before, and if its targets have the hash in
the marker then edges to them and no others are left. -/
def Fits (g : GraphEnricher) (doc : Obj) (et : FieldEdgeType) (t : EdgeTrace) : Prop :=
  match doc.get? et.field with
  | none => ∀ target ∈ t.stored, target = []
  | some fieldValue => ∀ targets, t.marked = some targets →
      g.fieldHash (toStringSlice fieldValue) = g.fieldHash targets →
        ∀ target, target ≠ [] → (target ∈ toStringSlice fieldValue ↔ target ∈ t.stored)

/-- The edges that are left are those the version names, and the marker has their hash. -/
structure Settled (g : GraphEnricher) (doc : Obj) (et : FieldEdgeType) (t : EdgeTrace) :
    Prop where
  stored : ∀ target, target ≠ [] → (target ∈ named doc et ↔ target ∈ t.stored)
  marked : ∀ fieldValue, doc.get? et.field = some fieldValue → ∃ targets, t.marked = some targets ∧
    g.fieldHash (toStringSlice fieldValue) = g.fieldHash targets

theorem Tracks.unchanged_iff (h : g.Tracks docKey et db persisted) :
    g.unchanged docKey db et.name targets = true ↔
      ∃ targets', (edgeTrace et.name persisted).marked = some targets' ∧
        g.fieldHash targets = g.fieldHash targets' := by
  have hmarker := h.marker
  unfold GraphEnricher.marker at hmarker
  rw [unchanged, hmarker, decide_eq_true_eq, map_eq_some_iff]
  constructor
  · rintro ⟨targets', hmarked, heq⟩
    exact ⟨targets', hmarked, (UInt64.toNat_inj.mp heq).symm⟩
  · rintro ⟨targets', hmarked, heq⟩
    exact ⟨targets', hmarked, congrArg _ heq.symm⟩

theorem Tracks.exact (h : g.Tracks docKey et db persisted)
    (hsettled : Settled g doc et (edgeTrace et.name persisted)) (hkey : g.OfType docKey et key) :
    (db.get? key).isSome ↔
      ∃ target ∈ named doc et, target ≠ [] ∧ key = makeEdgeKey docKey target g.name et.name := by
  rw [h.edges key hkey]
  constructor
  · rintro ⟨target, hmem, hne, heq⟩
    exact ⟨target, (hsettled.stored target hne).mpr hmem, hne, heq⟩
  · rintro ⟨target, hmem, hne, heq⟩
    exact ⟨target, (hsettled.stored target hne).mp hmem, hne, heq⟩

theorem reconcileFieldEdge_settled (h : g.Tracks docKey et s.db s.persisted)
    (hsettled : Settled g doc et (edgeTrace et.name s.persisted)) :
    g.reconcileFieldEdge docKey edgeValue s doc et = (s, true) := by
  unfold reconcileFieldEdge
  cases hfield : doc.get? et.field with
  | none => rfl
  | some fieldValue => exact if_pos (h.unchanged_iff.mpr (hsettled.marked fieldValue hfield))

/-- What a batch for the type does to the state, whatever becomes of it. -/
structure Changes (g : GraphEnricher) (docKey : Bytes) (et : FieldEdgeType)
    (s s' : EnricherState) : Prop where
  tracks : g.Tracks docKey et s'.db s'.persisted
  frame : ∀ key, ¬ g.OfType docKey et key → key ≠ g.marker docKey et →
    s'.db.get? key = s.db.get? key
  trace : ∀ edgeType, edgeType ≠ et.name →
    edgeTrace edgeType s'.persisted = edgeTrace edgeType s.persisted

theorem Changes.refl (h : g.Tracks docKey et s.db s.persisted) : Changes g docKey et s s :=
  ⟨h, fun _ _ _ => rfl, fun _ _ => rfl⟩

theorem Changes.trans {s'' : EnricherState} (h : Changes g docKey et s s')
    (h' : Changes g docKey et s' s'') :
    Changes g docKey et s s'' where
  tracks := h'.tracks
  frame := fun key hkey hmarker => (h'.frame key hkey hmarker).trans (h.frame key hkey hmarker)
  trace := fun edgeType hne => (h'.trace edgeType hne).trans (h.trace edgeType hne)

theorem changes_persistFunc (edgeValue : Bytes) {s : EnricherState} (batch : EdgeBatch)
    (h : g.Tracks docKey et s.db s.persisted) (hbatch : batch.edgeType = et.name)
    (hkeys : ∀ edgeType keys, batch = .deletes edgeType keys → ∀ k ∈ keys, g.OfType docKey et k)
    (happlied : ∀ outcome, outcome ≠ .refused → g.Tracks docKey et
      (s.db.applyAll (g.edits docKey edgeValue batch)) (s.persisted ++ [(batch, outcome)])) :
    Changes g docKey et s (g.persistFunc docKey edgeValue s batch).1 := by
  constructor
  · unfold persistFunc
    by_cases hrefused : s.outcomes.headD .done = .refused
    · simp only [hrefused, if_true]
      apply h.of_untouched _ fun _ _ => rfl
      rw [edgeTrace_concat, EdgeTrace.add, if_pos rfl]
    · simp only [hrefused, if_false]
      exact happlied _ hrefused
  · intro key hkey hmarker
    unfold persistFunc
    dsimp only
    split
    · rfl
    · exact get?_applyAll_of_untouched s.db (effect_edits hbatch hkeys hkey hmarker)
  · intro edgeType hne
    unfold persistFunc
    dsimp only
    rw [edgeTrace_concat]
    apply EdgeTrace.add_of_ne
    rw [hbatch]
    exact hne.symm

theorem persistFunc_ok (h : (g.persistFunc docKey edgeValue s batch).2 = true) :
    (g.persistFunc docKey edgeValue s batch).1.persisted = s.persisted ++ [(batch, .done)] := by
  unfold persistFunc at h ⊢
  have hdone : s.outcomes.headD .done = .done := of_decide_eq_true h
  rw [hdone]

/-- The deletion of the stored edges of the type; nothing is persisted when there are none. -/
theorem changes_clear {s : EnricherState} (h : g.Tracks docKey et s.db s.persisted)
    (hmarker : ¬ g.OfType docKey et (g.marker docKey et)) {r : EnricherState × Bool}
    (hr : r = if g.edgeKeys docKey s.db et.name = [] then (s, true)
      else g.persistFunc docKey edgeValue s (.deletes et.name (g.edgeKeys docKey s.db et.name))) :
    Changes g docKey et s r.1 ∧
      (r.2 = true → ∀ key, g.OfType docKey et key → r.1.db.get? key = none) := by
  by_cases hempty : g.edgeKeys docKey s.db et.name = []
  · rw [if_pos hempty] at hr
    subst hr
    refine ⟨.refl h, fun _ key hkey => ?_⟩
    by_contra hne
    have hmem : key ∈ g.edgeKeys docKey s.db et.name :=
      mem_edgeKeys.mpr ⟨hkey, isSome_iff_ne_none.mpr hne⟩
    rw [hempty] at hmem
    cases hmem
  · rw [if_neg hempty] at hr
    subst hr
    have hchanges := changes_persistFunc edgeValue
      (.deletes et.name (g.edgeKeys docKey s.db et.name)) h rfl
      (fun _ _ heq k hk => by
        cases heq
        exact (mem_edgeKeys.mp hk).1)
      (fun _ happlied => h.deletes hmarker happlied)
    refine ⟨hchanges, fun hok key hkey => ?_⟩
    have hedges := hchanges.tracks.edges key hkey
    rw [persistFunc_ok hok, edgeTrace_concat] at hedges
    have hnot : ¬ ((g.persistFunc docKey edgeValue s (.deletes et.name
        (g.edgeKeys docKey s.db et.name))).1.db.get? key).isSome = true := by
      rw [hedges]
      rintro ⟨target, hmem, -⟩
      simp [EdgeTrace.add] at hmem
    exact not_isSome_iff_eq_none.mp hnot

/-- One edge type: what is stored of it is what the batches left, other keys are as they were, and
after a success the type is settled. -/
theorem changes_reconcileFieldEdge (edgeValue : Bytes) (h : g.Tracks docKey et s.db s.persisted)
    (hmarker : ¬ g.OfType docKey et (g.marker docKey et))
    (hfits : Fits g doc et (edgeTrace et.name s.persisted)) :
    Changes g docKey et s (g.reconcileFieldEdge docKey edgeValue s doc et).1 ∧
      ((g.reconcileFieldEdge docKey edgeValue s doc et).2 = true → Settled g doc et
        (edgeTrace et.name (g.reconcileFieldEdge docKey edgeValue s doc et).1.persisted)) := by
  unfold Fits at hfits
  unfold reconcileFieldEdge
  cases hfield : doc.get? et.field with
  | none =>
    rw [hfield] at hfits
    refine ⟨.refl h, fun _ => ⟨?_, ?_⟩⟩
    · intro target hne
      simp only [named, hfield, not_mem_nil, false_iff]
      exact fun hmem => hne (hfits target hmem)
    · intro fieldValue hsome
      rw [hfield] at hsome
      cases hsome
  | some fieldValue =>
    rw [hfield] at hfits
    dsimp only
    by_cases hunchanged : g.unchanged docKey s.db et.name (toStringSlice fieldValue) = true
    · rw [if_pos hunchanged]
      obtain ⟨targets, hmarked, hhash⟩ := h.unchanged_iff.mp hunchanged
      refine ⟨.refl h, fun _ => ⟨?_, ?_⟩⟩
      · intro target hne
        simp only [named, hfield]
        exact hfits targets hmarked hhash target hne
      · intro fieldValue' hsome
        rw [hfield] at hsome
        cases hsome
        exact ⟨targets, hmarked, hhash⟩
    · rw [if_neg hunchanged]
      generalize g.removeFromEdgeIndex s.indexDB (g.edgeKeys docKey s.db et.name) = indexDB
      have hmoved : Changes g docKey et s ⟨s.db, indexDB, s.persisted, s.outcomes⟩ :=
        ⟨h, fun _ _ _ => rfl, fun _ _ => rfl⟩
      generalize hr : (if g.edgeKeys docKey s.db et.name = [] then
        (EnricherState.mk s.db indexDB s.persisted s.outcomes, true)
        else g.persistFunc docKey edgeValue ⟨s.db, indexDB, s.persisted, s.outcomes⟩
          (.deletes et.name (g.edgeKeys docKey s.db et.name))) = r
      obtain ⟨hcleared, hnone⟩ := changes_clear hmoved.tracks hmarker hr.symm
      obtain ⟨s', ok⟩ := r
      cases ok with
      | false => exact ⟨hmoved.trans hcleared, fun hok => Bool.noConfusion hok⟩
      | true =>
        have hwritten := changes_persistFunc edgeValue
          (.writes et.name (toStringSlice fieldValue)) hcleared.tracks rfl
          (fun _ _ heq => EdgeBatch.noConfusion heq)
          (fun _ happlied => .writes (hnone rfl) hmarker happlied)
        refine ⟨(hmoved.trans hcleared).trans hwritten, fun hok => ?_⟩
        rw [if_pos rfl] at hok ⊢
        rw [persistFunc_ok hok, edgeTrace_concat]
        simp only [EdgeTrace.add, reduceCtorEq, if_false, if_true]
        refine ⟨fun target _ => by simp only [named, hfield], fun fieldValue' hsome => ?_⟩
        rw [hfield] at hsome
        cases hsome
        exact ⟨_, rfl, rfl⟩

theorem Separate.tracks (hsep : g.Separate docKey) (het : et ∈ g.fieldEdgeTypes)
    (het' : et' ∈ g.fieldEdgeTypes) (hne : et.name ≠ et'.name)
    (hchanges : Changes g docKey et s s') (h : g.Tracks docKey et' s.db s.persisted) :
    g.Tracks docKey et' s'.db s'.persisted := by
  apply h.of_untouched (hchanges.trace et'.name hne.symm)
  rintro key (hkey | rfl)
  · apply hchanges.frame key
    · exact hsep.not_ofType het' het hne.symm hkey
    · rintro rfl
      exact hsep.markers et' het' et het hkey
  · apply hchanges.frame
    · exact hsep.markers et het et' het'
    · intro heq
      exact hne (makeFieldHashKey_inj heq).symm

/-- What the edge types of a list do to the state, one after the other. -/
structure AllChange (g : GraphEnricher) (docKey : Bytes) (ets : List FieldEdgeType)
    (s s' : EnricherState) : Prop where
  tracks : ∀ et ∈ g.fieldEdgeTypes, g.Tracks docKey et s'.db s'.persisted
  frame : ∀ key, (∀ et ∈ ets, ¬ g.OfType docKey et key ∧ key ≠ g.marker docKey et) →
    s'.db.get? key = s.db.get? key
  trace : ∀ edgeType, edgeType ∉ ets.map (fun et => et.name) →
    edgeTrace edgeType s'.persisted = edgeTrace edgeType s.persisted

theorem changes_reconcileEdgeTypes (edgeValue : Bytes) (hsep : g.Separate docKey)
    (hets : ∀ et ∈ ets, et ∈ g.fieldEdgeTypes) (hnodup : (ets.map fun et => et.name).Nodup)
    (h : ∀ et ∈ g.fieldEdgeTypes, g.Tracks docKey et s.db s.persisted)
    (hfits : ∀ et ∈ ets, Fits g doc et (edgeTrace et.name s.persisted)) :
    AllChange g docKey ets s (g.reconcileEdgeTypes docKey edgeValue doc ets s).1 ∧
      ((g.reconcileEdgeTypes docKey edgeValue doc ets s).2 = true → ∀ et ∈ ets,
        Settled g doc et (edgeTrace et.name
          (g.reconcileEdgeTypes docKey edgeValue doc ets s).1.persisted)) := by
  induction ets generalizing s with
  | nil => exact ⟨⟨h, fun _ _ => rfl, fun _ _ => rfl⟩, fun _ et het => nomatch het⟩
  | cons et ets ih =>
    obtain ⟨hnot, hrest⟩ := nodup_cons.mp hnodup
    have het := hets et mem_cons_self
    obtain ⟨hchanges, hsettled⟩ := changes_reconcileFieldEdge edgeValue (h et het)
      (hsep.markers et het et het) (hfits et mem_cons_self)
    unfold reconcileEdgeTypes
    dsimp only
    generalize g.reconcileFieldEdge docKey edgeValue s doc et = r at hchanges hsettled ⊢
    obtain ⟨s', ok⟩ := r
    have htracks : ∀ et' ∈ g.fieldEdgeTypes, g.Tracks docKey et' s'.db s'.persisted := by
      intro et' het'
      by_cases hname : et.name = et'.name
      · have heq : et = et' := inj_on_of_nodup_map hsep.nodup het het' hname
        subst heq
        exact hchanges.tracks
      · exact hsep.tracks het het' hname hchanges (h et' het')
    cases ok with
    | false =>
      refine ⟨⟨htracks, fun key hkey => ?_, fun edgeType hedgeType => ?_⟩,
        fun hok => Bool.noConfusion hok⟩
      · obtain ⟨hkey, hmarker⟩ := hkey et mem_cons_self
        exact hchanges.frame key hkey hmarker
      · exact hchanges.trace edgeType fun heq => hedgeType (heq ▸ mem_cons_self)
    | true =>
      have hfits' : ∀ et' ∈ ets, Fits g doc et' (edgeTrace et'.name s'.persisted) := by
        intro et' het'
        have hne : et'.name ≠ et.name := fun heq =>
          hnot (mem_map.mpr ⟨et', het', heq⟩)
        rw [hchanges.trace et'.name hne]
        exact hfits et' (mem_cons_of_mem _ het')
      obtain ⟨hall, hdone⟩ := ih (fun et' het' => hets et' (mem_cons_of_mem _ het')) hrest
        htracks hfits'
      refine ⟨⟨hall.tracks, fun key hkey => ?_, fun edgeType hedgeType => ?_⟩,
        fun hok et' het' => ?_⟩
      · obtain ⟨hhead, hmarker⟩ := hkey et mem_cons_self
        exact (hall.frame key fun et' het' => hkey et' (mem_cons_of_mem _ het')).trans
          (hchanges.frame key hhead hmarker)
      · rw [map_cons, mem_cons, not_or] at hedgeType
        exact (hall.trace edgeType hedgeType.2).trans (hchanges.trace edgeType hedgeType.1)
      · rcases mem_cons.mp het' with rfl | hmem
        · rw [if_pos rfl, hall.trace _ hnot]
          exact hsettled rfl
        · exact hdone hok et' hmem

theorem reconcileEdgeTypes_settled (h : ∀ et ∈ ets, g.Tracks docKey et s.db s.persisted)
    (hsettled : ∀ et ∈ ets, Settled g doc et (edgeTrace et.name s.persisted)) :
    g.reconcileEdgeTypes docKey edgeValue doc ets s = (s, true) := by
  induction ets with
  | nil => rfl
  | cons et ets ih =>
    unfold reconcileEdgeTypes
    rw [reconcileFieldEdge_settled (h et mem_cons_self) (hsettled et mem_cons_self)]
    exact ih (fun et' het' => h et' (mem_cons_of_mem _ het'))
      fun et' het' => hsettled et' (mem_cons_of_mem _ het')

end GraphEnricher

namespace FieldState

open GraphEnricher

variable {g : GraphEnricher} {docKey : Bytes} {s : FieldState}

/-- After a reconciliation that succeeded the edges of each configured type are those its field
names, and running it again passes no batch on; no reconciliation changes an edge of another
type. -/
structure Reconciled (g : GraphEnricher) (docKey : Bytes) (s : FieldState) : Prop where
  exact : ∀ doc, s.latest = some doc → ∀ et ∈ g.fieldEdgeTypes, ∀ key, g.OfType docKey et key →
    ((s.db.get? key).isSome ↔
      ∃ target ∈ named doc et, target ≠ [] ∧ key = makeEdgeKey docKey target g.name et.name)
  others : ∀ key, hasSuffix key edgeOutSuffix = true →
    (∀ et ∈ g.fieldEdgeTypes, ¬ g.OfType docKey et key) → s.db.get? key = s.before.get? key
  again : ∀ doc, s.latest = some doc → ∀ edgeValue outcomes,
    g.reconcileFieldEdges docKey edgeValue ⟨s.db, s.indexDB, s.persisted, outcomes⟩ doc =
      (⟨s.db, s.indexDB, s.persisted, outcomes⟩, true)

/-- The configured types are separate, a version fits what is left of each of them, and nothing else
writes or deletes their edges or markers. -/
def Meets (g : GraphEnricher) (docKey : Bytes) (s : FieldState) : FieldEvent → Prop
  | .reconcile doc _ _ => g.Separate docKey ∧
      ∀ et ∈ g.fieldEdgeTypes, Fits g doc et (edgeTrace et.name s.persisted)
  | .delete => True
  | .edit edits => ∀ e ∈ edits, ∀ et ∈ g.fieldEdgeTypes, ∀ key,
      g.OfType docKey et key ∨ key = g.marker docKey et → e.effect key = none

/-- Besides, the store holds what the batches left. -/
structure Followed (g : GraphEnricher) (docKey : Bytes) (s : FieldState) : Prop
    extends Reconciled g docKey s where
  tracks : ∀ et ∈ g.fieldEdgeTypes, g.Tracks docKey et s.db s.persisted
  settled : ∀ doc, s.latest = some doc → ∀ et ∈ g.fieldEdgeTypes,
    Settled g doc et (edgeTrace et.name s.persisted)

theorem followed_of_settled
    (htracks : ∀ et ∈ g.fieldEdgeTypes, g.Tracks docKey et s.db s.persisted)
    (hsettled : ∀ doc, s.latest = some doc → ∀ et ∈ g.fieldEdgeTypes,
      Settled g doc et (edgeTrace et.name s.persisted))
    (hothers : ∀ key, hasSuffix key edgeOutSuffix = true →
      (∀ et ∈ g.fieldEdgeTypes, ¬ g.OfType docKey et key) → s.db.get? key = s.before.get? key) :
    Followed g docKey s where
  exact := fun doc hdoc et het _ hkey => (htracks et het).exact (hsettled doc hdoc et het) hkey
  others := hothers
  again := fun doc hdoc _ _ => reconcileEdgeTypes_settled htracks (hsettled doc hdoc)
  tracks := htracks
  settled := hsettled

theorem followed_start : Followed g docKey start := by
  apply followed_of_settled
  · intro et _
    refine ⟨rfl, fun key _ => ⟨fun h => Bool.noConfusion h, ?_⟩⟩
    rintro ⟨target, hmem, -⟩
    cases hmem
  · intro doc hdoc
    cases hdoc
  · intro key _ _
    rfl

theorem tracks_delete (db : OrdMap Bytes Bytes) (et : FieldEdgeType) : g.Tracks docKey et
    (db.applyAll [.deleteRange docKey (prefixSuccessor (keyRangeEnd docKey))]) [] := by
  have hgone : ∀ tail, (db.applyAll [.deleteRange docKey
      (prefixSuccessor (keyRangeEnd docKey))]).get? (docKey ++ 58 :: tail) = none := by
    intro tail
    rw [get?_applyAll, lastEffect_cons, lastEffect_nil, none_or,
      OrdMap.Edit.effect, if_pos (mem_deleteRange_colon docKey tail), getD_some]
  constructor
  · obtain ⟨tail, htail⟩ := colon_of_marker docKey g.name et.name
    rw [GraphEnricher.marker, htail, hgone]
    rfl
  · intro key hkey
    obtain ⟨tail, rfl⟩ := colon_of_edgeIteratorPrefix hkey
    rw [hgone]
    refine ⟨fun h => Bool.noConfusion h, ?_⟩
    rintro ⟨target, hmem, -⟩
    cases hmem

theorem Followed.step {e : FieldEvent} {s' : FieldState} (h : Followed g docKey s)
    (hok : Meets g docKey s e) (hstep : s.step g docKey e = some s') : Followed g docKey s' := by
  cases e with
  | reconcile doc edgeValue outcomes =>
    obtain ⟨hsep, hfits⟩ := hok
    obtain ⟨hall, hdone⟩ := changes_reconcileEdgeTypes edgeValue hsep
      (fun _ het => het) hsep.nodup (s := ⟨s.db, s.indexDB, s.persisted, outcomes⟩) h.tracks hfits
    cases hstep
    apply followed_of_settled hall.tracks
    · intro doc' hdoc
      dsimp only at hdoc
      split at hdoc
      · rename_i hdone'
        cases hdoc
        exact hdone hdone'
      · cases hdoc
    · intro key hsuffix hkey
      apply hall.frame key
      intro et het
      refine ⟨hkey et het, ?_⟩
      rintro rfl
      rw [GraphEnricher.marker, hasSuffix_makeFieldHashKey] at hsuffix
      cases hsuffix
  | delete =>
    cases hstep
    apply followed_of_settled
    · intro et _
      exact tracks_delete s.db et
    · intro doc hdoc
      cases hdoc
    · intro key _ _
      rfl
  | edit edits =>
    cases hstep
    apply followed_of_settled
    · intro et het
      apply (h.tracks et het).of_untouched rfl
      intro key hkey
      exact get?_applyAll_of_untouched s.db fun e he => hok e he et het key hkey
    · exact h.settled
    · intro key _ _
      rfl

/-- In every run whose steps meet the condition, the field edges are reconciled. -/
theorem field_edges_reconciled (g : GraphEnricher) (docKey : Bytes) (events : List FieldEvent)
    (s : FieldState) (h : Run (step g docKey) (Meets g docKey) start events s) :
    Reconciled g docKey s :=
  (h.invariant (fun _ _ _ hok hstep hs => hs.step hok hstep) followed_start).toReconciled

/-- A graph index with one edge type, whose field is `refs`. -/
def citations : GraphEnricher where
  hash b :=
    if b = ascii ['[', 'a', ' ', 'b', ']'] then 10433271361943088531
    else if b = ascii ['[', 'b', ']'] then 12933568603412511163
    else 14601563067862597030
  name := ascii ['g']
  edgeTypes := [⟨⟨ascii ['c', 'i', 't', 'e', 's'], false⟩, ascii ['r', 'e', 'f', 's']⟩]

theorem separate_citations (docKey : Bytes) : citations.Separate docKey where
  nodup := by decide
  edges := by
    intro et het et' het' hne
    cases mem_singleton.mp het
    cases mem_singleton.mp het'
    exact absurd rfl hne
  markers := by
    intro et het et' het' hkey
    cases mem_singleton.mp het
    cases mem_singleton.mp het'
    unfold OfType GraphEnricher.marker makeFieldHashKey edgeIteratorPrefix at hkey
    simp only [append_assoc, prefix_append_right_inj] at hkey
    exact absurd hkey (by decide)

/-- A document cites two others; the edges of its next version are deleted but not written at the
first attempt, and written at the second. -/
theorem field_edges_sample : ∃ s : FieldState,
    (s.db.get? (makeEdgeKey [100] [98] citations.name (ascii ['c', 'i', 't', 'e', 's']))).isSome ∧
    (s.db.get? (makeEdgeKey [100] [97] citations.name (ascii ['c', 'i', 't', 'e', 's']))).isNone ∧
    Reconciled citations [100] s := by
  have hmeets : ∀ (s : FieldState) (value : Json) (outcomes : List Persisted),
      (∀ targets, (edgeTrace (ascii ['c', 'i', 't', 'e', 's']) s.persisted).marked = some targets →
        citations.fieldHash (toStringSlice value) ≠ citations.fieldHash targets) →
      Meets citations [100] s (.reconcile [(ascii ['r', 'e', 'f', 's'], value)] [7] outcomes) := by
    intro s value outcomes hfresh
    refine ⟨separate_citations _, fun et het => ?_⟩
    cases List.mem_singleton.mp het
    intro targets hmarked hhash
    exact absurd hhash (hfresh targets hmarked)
  refine ⟨_, ?_, ?_, field_edges_reconciled citations [100]
    [.reconcile [(ascii ['r', 'e', 'f', 's'], .arr [.str [97], .str [98]])] [7] [],
      .reconcile [(ascii ['r', 'e', 'f', 's'], .str [98])] [7] [.done, .refused],
      .reconcile [(ascii ['r', 'e', 'f', 's'], .str [98])] [7] []] _
    (.cons (hmeets _ _ _ ?_) rfl (.cons (hmeets _ _ _ ?_) rfl (.cons (hmeets _ _ _ ?_) rfl
      (.nil _))))⟩
  · decide +kernel
  · decide +kernel
  · intro targets hmarked
    cases hmarked
  · intro targets hmarked
    cases hmarked
    decide +kernel
  · intro targets hmarked
    cases hmarked
    decide +kernel

/-- The edges of a field stay when the next version of the document does not have the field. -/
theorem absent_field_keeps_edges : ∃ s : FieldState,
    Run (step citations [100]) (fun _ _ => True) start
      [.reconcile [(ascii ['r', 'e', 'f', 's'], .arr [.str [97]])] [7] [],
        .reconcile [] [7] []] s ∧
    ¬ Reconciled citations [100] s := by
  refine ⟨_, .cons trivial rfl (.cons trivial rfl (.nil _)), ?_⟩
  intro h
  have hstored := (h.exact [] rfl _ (List.mem_singleton_self _)
    (makeEdgeKey [100] [97] citations.name (ascii ['c', 'i', 't', 'e', 's']))
    (prefix_makeEdgeKey ..)).mp (by decide +kernel)
  obtain ⟨target, hmem, -⟩ := hstored
  cases hmem

end FieldState

end Indexes

end Antfly
