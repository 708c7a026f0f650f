import Antfly.Store.RetrieveDocument
import Antfly.Store.TransformPaths

/-!
A transform of a stored document is resolved to a write of the transformed document, which joins the
writes of its flush.  It makes the flush neither fail nor succeed, and changes the keys of its own
document only.

`Get` puts stored embeddings and summaries into the document it returns, and a transform would then
write them back as fields.  What follows is about documents into which nothing is put.
-/

namespace Antfly

open List Option OrdMap

/-- The document is stored and not expired, and reading it puts nothing into it. -/
structure StoredPlainly (c : Codec) (db : DBImpl) (key : Bytes) (doc : Obj) : Prop where
  body : ∃ b, db.get? (keyRangeStart key) = some (.zstd b) ∧ c.unmarshalObj b = some doc
  embeddings : ∀ e ∈ documentEntries db key, entryEmbedding c key e = .ok none
  summaries : ∀ e ∈ documentEntries db key, entrySummary key e = .ok none
  unexpired : isDocumentExpired c db key = .ok false

/-- What the transforms rely on in the JSON library: an object is printed in braces, the empty one
as the braces alone, and printing keeps the fields. -/
structure LawfulJson (c : Codec) : Prop where
  brace : ∀ o b, c.marshalObj o = some b → hasPrefix b (ascii ['\x7b']) = true
  empty : ∀ b, c.marshalObj [] = some b → b = ascii ['\x7b', '\x7d']
  fields : ∀ o b, c.marshalObj o = some b → ∃ o', c.unmarshalObj b = some o' ∧
    ∀ name, o'.get? name = none ↔ o.get? name = none

variable {c : Codec} {db : DBImpl} {key json : Bytes} {doc : Obj}

theorem reduceOption_of_mapM {α : Type} {f : Bytes × Stored → Except GetError (Option α)}
    {es : List (Bytes × Stored)} (h : ∀ e ∈ es, f e = .ok none) :
    ∃ os, es.mapM f = .ok os ∧ os.reduceOption = [] := by
  refine ⟨es.map fun _ => none, ?_, ?_⟩
  · rw [Fallible.mapM_eq_ok_iff, forall₂_map_right_iff, forall₂_same]
    exact h
  · induction es with
    | nil => rfl
    | cons e es ih => exact ih fun e' he' => h e' (mem_cons_of_mem e he')

theorem StoredPlainly.getDocument (h : StoredPlainly c db key doc) :
    getDocument c db key = .ok doc := by
  obtain ⟨b, hget, hdecode⟩ := h.body
  have hlt : keyRangeStart key < prefixSuccessor (keyRangeEnd key) :=
    (mem_deleteRange_colon key [0]).2
  obtain ⟨rest, hscan⟩ := scan_eq_cons hlt hget
  have hentries : documentEntries db key = (keyRangeStart key, .zstd b) :: rest := hscan
  have hrest : ∀ e ∈ rest, e ∈ documentEntries db key := by
    intro e he
    rw [hentries]
    exact mem_cons_of_mem _ he
  obtain ⟨es, hes, hnoes⟩ := reduceOption_of_mapM fun e he => h.embeddings e (hrest e he)
  obtain ⟨ss, hss, hnoss⟩ := reduceOption_of_mapM fun e he => h.summaries e (hrest e he)
  unfold Antfly.getDocument
  rw [hentries]
  dsimp only
  rw [if_neg (not_not.mpr rfl), hdecode]
  dsimp only
  rw [hes, hss, h.unexpired]
  change Except.ok (injectField (injectField doc embeddingsField es.reduceOption) summariesField
    ss.reduceOption) = _
  rw [hnoes, hnoss]
  rfl

theorem StoredPlainly.resolveTransform {t : Transform} (h : StoredPlainly c db t.key doc)
    (hjson : (applyTransformOps c ⟨doc, []⟩ t.operations).marshal c = some json) :
    resolveTransform c db t = .ok (some (t.key, json)) := by
  unfold Antfly.resolveTransform
  rw [h.getDocument]
  dsimp only
  rw [hjson]

/-- The body that is stored for a document text: the text itself, or what is left of it without its
special fields if anything is left. -/
def bodyText (json : Bytes) : Option SpecialFields → Option Bytes
  | none => some json
  | some sf => if sf.hasNonSpecialFields then some sf.cleanedJSON else none

/-- The edits that store a document text. -/
def textOps (key json : Bytes) (ts : Nat) (extracted : Option SpecialFields) : List PebbleOp :=
  (extracted.map (SpecialFields.ops · ts)).getD [] ++
    ((bodyText json extracted).map (documentOps key · ts)).getD []

variable {ts : Nat} {extracted : Option SpecialFields}

theorem storeWriteOps_text (hkind : writeKind key = .document)
    (hbrace : hasPrefix json (ascii ['\x7b']) = true)
    (hextract : extractAndWriteSpecialFields c db json key = .ok extracted) :
    storeWriteOps c db ts (key, json) = .ok (textOps key json ts extracted) := by
  unfold storeWriteOps
  rw [hkind]
  dsimp only
  unfold documentWriteOps
  rw [hbrace, Bool.not_true, if_neg Bool.false_ne_true, hextract]
  cases extracted with
  | none => rfl
  | some sf =>
    change Except.ok _ = Except.ok _
    unfold textOps bodyText
    dsimp only [map_some, getD_some]
    split <;> rfl

theorem keysOf_extracted {sf : SpecialFields}
    (hextract : extractAndWriteSpecialFields c db json key = .ok (some sf)) : sf.KeysOf key := by
  unfold extractAndWriteSpecialFields at hextract
  split at hextract
  · cases hextract
  · simp only [Fallible.bind_eq_ok, Fallible.pure_eq_ok] at hextract
    obtain ⟨sf', hsf, heq⟩ := hextract
    cases heq
    exact extractSpecialFields_keysOf hsf

theorem textOps_untouched (hextract : extractAndWriteSpecialFields c db json key = .ok extracted)
    {x : Bytes} (hx : ¬ key ++ [58] <+: x) :
    ∀ e ∈ textOps key json ts extracted, e.effect x = none := by
  have hdocument : ∀ body, ∀ e ∈ documentOps key body ts, e.effect x = none := by
    intro body e he
    cases heffect : e.effect x with
    | none => rfl
    | some o =>
      exfalso
      apply hx
      rcases effect_documentOps he heffect with ⟨rfl, -⟩ | ⟨rfl, -⟩
      · exact ⟨[0], by rw [keyRangeStart_eq, append_assoc]; rfl⟩
      · exact ⟨[0, 58, 116], by rw [documentTimestampKey_eq, append_assoc]; rfl⟩
  intro e he
  rcases mem_append.mp he with hspecial | hbody
  · cases extracted with
    | none => exact absurd hspecial not_mem_nil
    | some sf =>
      apply (keysOf_extracted hextract).untouched _ ts e hspecial
      intro hmarker
      apply hx
      exact List.IsPrefix.trans ⟨ascii ['i', ':'], by rw [append_assoc]; rfl⟩ hmarker
  · cases hbodyText : bodyText json extracted with
    | none =>
      rw [hbodyText] at hbody
      exact absurd hbody not_mem_nil
    | some body =>
      rw [hbodyText] at hbody
      exact hdocument body e hbody

theorem lastEffect_textOps (hextract : extractAndWriteSpecialFields c db json key = .ok extracted) :
    OrdMap.lastEffect (textOps key json ts extracted) (keyRangeStart key) =
      (bodyText json extracted).map fun b => some (.zstd b) := by
  have hspecial : OrdMap.lastEffect ((extracted.map (SpecialFields.ops · ts)).getD [])
      (keyRangeStart key) = none := by
    cases extracted with
    | none => rfl
    | some sf =>
      apply lastEffect_eq_none_iff.mpr
      apply (keysOf_extracted hextract).untouched
      rw [keyRangeStart_eq, prefix_append_right_inj]
      decide
  unfold textOps
  rw [lastEffect_append, hspecial, or_none]
  cases bodyText json extracted with
  | none => rfl
  | some body =>
    change OrdMap.lastEffect (documentOps key body ts) _ = _
    unfold documentOps
    have hstamp : OrdMap.lastEffect (timestampOps (keyRangeStart key) ts) (keyRangeStart key) =
        none := by
      apply lastEffect_eq_none_iff.mpr
      intro e he
      unfold timestampOps at he
      split at he
      · rw [mem_singleton.mp he, OrdMap.Edit.effect, if_neg]
        exact fun h => keyRangeStart_ne_timestampKey key key h
      · exact absurd he not_mem_nil
    rw [lastEffect_cons, hstamp, none_or, OrdMap.Edit.effect, if_pos rfl]
    rfl

theorem LawfulJson.exists_extracted (hlaw : LawfulJson c)
    (hjson : c.marshalObj doc = some json) (hspecial : ∀ name, isSpecialField name = true →
      doc.get? name = none) (db : DBImpl) (key : Bytes) :
    ∃ extracted, extractAndWriteSpecialFields c db json key = .ok extracted ∧
      bodyText json extracted = some json := by
  unfold extractAndWriteSpecialFields
  split
  · exact ⟨none, rfl, rfl⟩
  · rename_i hmentions
    obtain ⟨o', hunmarshal, hfields⟩ := hlaw.fields doc json hjson
    have hnone : ∀ name, isSpecialField name = true → o'.get? name = none :=
      fun name hname => (hfields name).mpr (hspecial name hname)
    have hentries : ∀ name notMap, isSpecialField name = true →
        fieldEntries o' name notMap = .ok [] := by
      intro name notMap hname
      unfold fieldEntries
      rw [hnone name hname]
    have hextract : extractSpecialFields c db json key = .ok
        { embeddingWrites := [], summaryWrites := [], edgeWrites := [], indexDeletes := [],
          cleanedJSON := json, hasNonSpecialFields := o'.any fun f => !isSpecialField f.1 } := by
      unfold extractSpecialFields
      rw [hunmarshal]
      change (fieldEntries o' embeddingsField _ >>= _) = _
      rw [hentries embeddingsField _ (by decide)]
      change (fieldEntries o' summariesField _ >>= _) = _
      rw [hentries summariesField _ (by decide)]
      change (fieldEntries o' edgesField _ >>= _) = _
      rw [hentries edgesField _ (by decide)]
      rfl
    rw [hextract]
    refine ⟨_, rfl, if_pos ?_⟩
    -- A text that mentions a field is not that of the empty object.
    cases o' with
    | cons f o' =>
      have hfirst : isSpecialField f.1 = false := by
        by_contra hname
        rw [Bool.not_eq_false] at hname
        have hget := hnone f.1 hname
        unfold Obj.get? at hget
        rw [lookup_cons, beq_self_eq_true] at hget
        cases hget
      dsimp only
      rw [any_cons, hfirst]
      rfl
    | nil =>
      exfalso
      have hdoc : doc = [] := by
        cases doc with
        | nil => rfl
        | cons f doc =>
          have hget := (hfields f.1).mp rfl
          unfold Obj.get? at hget
          rw [lookup_cons, beq_self_eq_true] at hget
          cases hget
      rw [hdoc] at hjson
      rw [hlaw.empty json hjson] at hmentions
      exact hmentions (by decide)

section Flush

variable {bypass : Bool} {ts : Nat} {w : Write} {wops : List PebbleOp} {A B : List Write}
  {deletes : List Bytes}

/-- A write that can be stored adds its edits, and makes the content neither fail nor succeed. -/
theorem contentOps_insert (hw : writeOps c db bypass ts w = .ok wops) :
    (∃ e, contentOps c db bypass ts (A ++ w :: B) deletes = .error e ∧
      contentOps c db bypass ts (A ++ B) deletes = .error e) ∨
    ∃ o₁ o₂, contentOps c db bypass ts (A ++ w :: B) deletes = .ok (o₁ ++ wops ++ o₂) ∧
      contentOps c db bypass ts (A ++ B) deletes = .ok (o₁ ++ o₂) := by
  unfold contentOps
  rw [mapM_append, mapM_append, mapM_cons, hw]
  cases A.mapM (writeOps c db bypass ts) with
  | error e => exact .inl ⟨e, rfl, rfl⟩
  | ok as =>
    cases B.mapM (writeOps c db bypass ts) with
    | error e => exact .inl ⟨e, rfl, rfl⟩
    | ok bs =>
      refine .inr ⟨as.flatten, bs.flatten ++ deletes.flatMap (deleteOps db bypass), ?_, ?_⟩
      · change Except.ok ((as ++ wops :: bs).flatten ++ _) = _
        simp only [flatten_append, flatten_cons, append_assoc]
      · change Except.ok ((as ++ bs).flatten ++ _) = _
        simp only [flatten_append, append_assoc]

variable {t : Transform} {writes : List Write} {ts₁ ts₂ : List Transform}

/-- A transform that is resolved adds one write to a flush, unless another one drops them all. -/
theorem flushWrites_insert (ht : resolveTransform c db t = .ok (some w)) :
    (flushWrites c db writes (ts₁ ++ t :: ts₂) = writes ∧
      flushWrites c db writes (ts₁ ++ ts₂) = writes ∧
      ∃ e, resolveTransforms c db (ts₁ ++ ts₂) = .error e) ∨
    ∃ r₁ r₂, flushWrites c db writes (ts₁ ++ t :: ts₂) = (writes ++ r₁) ++ w :: r₂ ∧
      flushWrites c db writes (ts₁ ++ ts₂) = (writes ++ r₁) ++ r₂ := by
  unfold flushWrites resolveTransforms
  rw [mapM_append, mapM_append, mapM_cons, ht]
  cases ts₁.mapM (resolveTransform c db) with
  | error e => exact .inl ⟨rfl, rfl, e, rfl⟩
  | ok os₁ =>
    cases ts₂.mapM (resolveTransform c db) with
    | error e => exact .inl ⟨rfl, rfl, e, rfl⟩
    | ok os₂ =>
      refine .inr ⟨os₁.reduceOption, os₂.reduceOption, ?_, ?_⟩
      · change writes ++ (os₁ ++ some w :: os₂).reduceOption = _
        rw [reduceOption_append, reduceOption_cons_of_some, append_assoc]
      · change writes ++ (os₁ ++ os₂).reduceOption = _
        rw [reduceOption_append, append_assoc]

theorem error_flushBatch {transforms : List Transform} {syncLevel : SyncLevel}
    {e : SpecialFieldError} :
    (flushBatch c db writes deletes transforms syncLevel ts).2 = some e ↔
      contentOps c db (decide (syncLevel = .internalMergeCopy)) ts
        (flushWrites c db writes transforms) deletes = .error e := by
  unfold flushBatch applyOpBatch
  by_cases hempty : (flushWrites c db writes transforms).isEmpty && deletes.isEmpty
  · obtain ⟨hw, hd⟩ := Bool.and_eq_true_iff.mp hempty
    rw [if_pos hempty, isEmpty_iff.mp hw, isEmpty_iff.mp hd]
    constructor
    · intro h
      cases h
    · intro h
      cases h
  · rw [if_neg hempty]
    simp only [batch]
    cases contentOps c db (decide (syncLevel = .internalMergeCopy)) ts
        (flushWrites c db writes transforms) deletes with
    | error e' =>
      constructor
      · intro h
        cases h
        rfl
      · intro h
        cases h
        rfl
    | ok ops =>
      constructor
      · intro h
        cases h
      · intro h
        cases h

end Flush

section Joins

variable (c : Codec) (db : DBImpl) (writes : List Write) (deletes : List Bytes)
  (ts₁ ts₂ : List Transform) (syncLevel : SyncLevel) (ts : Nat)

/-- What a transform that stores `body`, if anything, makes of a flush.  The flush fails as without
it, with the same error, and keys outside the transform's document hold what they hold without it.
The body is stored when the flush goes through, none of its other transforms has them all dropped,
the shard applies the key, and nothing else in the flush writes it. -/
structure JoinsFlush (t : Transform) (body : Option Bytes) : Prop where
  error : (flushBatch c db writes deletes (ts₁ ++ t :: ts₂) syncLevel ts).2 =
    (flushBatch c db writes deletes (ts₁ ++ ts₂) syncLevel ts).2
  others : ∀ x, ¬ DeltaLogKey x → ¬ t.key ++ [58] <+: x →
    (flushBatch c db writes deletes (ts₁ ++ t :: ts₂) syncLevel ts).1.get? x =
      (flushBatch c db writes deletes (ts₁ ++ ts₂) syncLevel ts).1.get? x
  stored : (∃ ws, resolveTransforms c db (ts₁ ++ ts₂) = .ok ws) →
    (flushBatch c db writes deletes (ts₁ ++ ts₂) syncLevel ts).2 = none →
    appliesKey db (decide (syncLevel = .internalMergeCopy)) t.key = true →
    OrdMap.lastEffect (dataEdits c db (.batch writes deletes (ts₁ ++ ts₂) syncLevel ts))
      (keyRangeStart t.key) = none →
    (flushBatch c db writes deletes (ts₁ ++ t :: ts₂) syncLevel ts).1.get? (keyRangeStart t.key) =
      (body.map Stored.zstd).or (db.get? (keyRangeStart t.key))

variable {c db writes deletes ts₁ ts₂ syncLevel ts} {t : Transform}
  {extracted : Option SpecialFields}

/-- The edits of a flush with a resolved transform: as without it, when all transforms are dropped
or the content fails, or those of the write among the others. -/
theorem dataEdits_insert {w : Write} {wops : List PebbleOp}
    (ht : resolveTransform c db t = .ok (some w))
    (hw : writeOps c db (decide (syncLevel = .internalMergeCopy)) ts w = .ok wops) :
    (flushBatch c db writes deletes (ts₁ ++ t :: ts₂) syncLevel ts).2 =
        (flushBatch c db writes deletes (ts₁ ++ ts₂) syncLevel ts).2 ∧
      ((dataEdits c db (.batch writes deletes (ts₁ ++ t :: ts₂) syncLevel ts) =
          dataEdits c db (.batch writes deletes (ts₁ ++ ts₂) syncLevel ts) ∧
        ((∃ e, resolveTransforms c db (ts₁ ++ ts₂) = .error e) ∨
          (flushBatch c db writes deletes (ts₁ ++ ts₂) syncLevel ts).2 ≠ none)) ∨
      ∃ o₁ o₂, dataEdits c db (.batch writes deletes (ts₁ ++ t :: ts₂) syncLevel ts) =
          o₁ ++ wops ++ o₂ ∧
        dataEdits c db (.batch writes deletes (ts₁ ++ ts₂) syncLevel ts) = o₁ ++ o₂) := by
  rcases @flushWrites_insert c db w t writes ts₁ ts₂ ht with
    ⟨hwith, hwithout, hdropped⟩ | ⟨r₁, r₂, hwith, hwithout⟩
  · constructor
    · refine Option.ext fun e => ?_
      rw [error_flushBatch, error_flushBatch, hwith, hwithout]
    · refine .inl ⟨?_, .inl hdropped⟩
      unfold dataEdits
      dsimp only
      rw [hwith, hwithout]
  · rcases @contentOps_insert c db (decide (syncLevel = .internalMergeCopy)) ts w wops
      (writes ++ r₁) r₂ deletes hw with ⟨e, hfails, hfails'⟩ | ⟨o₁, o₂, hops, hops'⟩
    · rw [← hwith] at hfails
      rw [← hwithout] at hfails'
      have herror := error_flushBatch.mpr hfails
      have herror' := error_flushBatch.mpr hfails'
      refine ⟨herror.trans herror'.symm, .inl ⟨?_, .inr ?_⟩⟩
      · unfold dataEdits
        dsimp only
        rw [hfails, hfails']
      · rw [herror']
        exact some_ne_none e
    · rw [← hwith] at hops
      rw [← hwithout] at hops'
      constructor
      · refine Option.ext fun e => ?_
        rw [error_flushBatch, error_flushBatch, hops, hops']
        constructor
        · intro h
          cases h
        · intro h
          cases h
      · refine .inr ⟨o₁, o₂, ?_, ?_⟩
        · unfold dataEdits
          dsimp only
          rw [hops]
          rfl
        · unfold dataEdits
          dsimp only
          rw [hops']
          rfl

theorem not_deltaLogKey_body {id : Bytes} (hid : validateDocumentMutationKey id = none) :
    ¬ DeltaLogKey (keyRangeStart id) :=
  fun h => (StoredUnder.written .document).not_metadata hid h.metadata

theorem joinsFlush {json : Bytes} (hkey : validateDocumentMutationKey t.key = none)
    (ht : resolveTransform c db t = .ok (some (t.key, json)))
    (hbrace : hasPrefix json (ascii ['\x7b']) = true)
    (hextract : extractAndWriteSpecialFields c db json t.key = .ok extracted) :
    JoinsFlush c db writes deletes ts₁ ts₂ syncLevel ts t (bodyText json extracted) := by
  obtain ⟨wops, hw, huntouched, happlied⟩ : ∃ wops,
      writeOps c db (decide (syncLevel = .internalMergeCopy)) ts (t.key, json) = .ok wops ∧
      (∀ x, ¬ t.key ++ [58] <+: x → OrdMap.lastEffect wops x = none) ∧
      (appliesKey db (decide (syncLevel = .internalMergeCopy)) t.key = true →
        wops = textOps t.key json ts extracted) := by
    unfold writeOps
    by_cases happlies : appliesKey db (decide (syncLevel = .internalMergeCopy)) t.key = true
    · rw [if_pos happlies]
      refine ⟨_, storeWriteOps_text (writeKind_of_accepted hkey) hbrace hextract, ?_, fun _ => rfl⟩
      intro x hx
      exact lastEffect_eq_none_iff.mpr (textOps_untouched hextract hx)
    · rw [if_neg happlies]
      exact ⟨[], rfl, fun _ _ => rfl, fun h => absurd h happlies⟩
  obtain ⟨herror, hedits⟩ := @dataEdits_insert c db writes deletes ts₁ ts₂ syncLevel ts t _ _ ht hw
  constructor
  · exact herror
  · intro x hdelta hx
    rw [get?_flushBatch_of_not_deltaLog c db hdelta, get?_flushBatch_of_not_deltaLog c db hdelta]
    rcases hedits with ⟨heq, -⟩ | ⟨o₁, o₂, hwith, hwithout⟩
    · rw [heq]
    · rw [hwith, hwithout]
      simp only [lastEffect_append, huntouched x hx, none_or]
  · rintro ⟨ws, hresolved⟩ hnone happlies hfree
    rw [get?_flushBatch_of_not_deltaLog c db (not_deltaLogKey_body hkey)]
    rcases hedits with ⟨-, ⟨e, hdropped⟩ | hfails⟩ | ⟨o₁, o₂, hwith, hwithout⟩
    · rw [hresolved] at hdropped
      cases hdropped
    · exact absurd hnone hfails
    · rw [hwithout, lastEffect_append, or_eq_none_iff] at hfree
      rw [hwith, happlied happlies]
      simp only [lastEffect_append, hfree.1, hfree.2, lastEffect_textOps hextract,
        or_none, none_or]
      cases bodyText json extracted with
      | none => rfl
      | some body => rfl

end Joins

/-- A transform of a document into which reading puts nothing, none of whose operations renames the
whole document, is resolved to a write of the document with the operations applied in order.  Fields
apart from the paths they name are unchanged, and an operation that fails is skipped.  The write
joins the flush once its special fields are taken out; without special fields the transformed
document is stored as it is. -/
theorem transform_touches_named {t : Transform} (hlaw : LawfulJson c)
    (hkey : validateDocumentMutationKey t.key = none) (hdoc : StoredPlainly c db t.key doc)
    (hrename : ∀ op ∈ t.operations, ¬ RenamesDocument c op)
    (hjson : c.marshalObj (applyTransformOps c ⟨doc, []⟩ t.operations).fields = some json) :
    resolveTransform c db t = .ok (some (t.key, json)) ∧
      (∀ p, (∀ op ∈ t.operations, ∀ q ∈ targetPaths c op, Incomparable p q) →
        getNestedValue (applyTransformOps c ⟨doc, []⟩ t.operations).fields p =
          getNestedValue doc p) ∧
      (∀ before op after, t.operations = before ++ op :: after →
        applyTransformOp c (applyTransformOps c ⟨doc, []⟩ before) op = none →
        applyTransformOps c ⟨doc, []⟩ t.operations =
          applyTransformOps c ⟨doc, []⟩ (before ++ after)) ∧
      (∀ extracted, extractAndWriteSpecialFields c db json t.key = .ok extracted →
        ∀ writes deletes ts₁ ts₂ syncLevel ts,
          JoinsFlush c db writes deletes ts₁ ts₂ syncLevel ts t (bodyText json extracted)) ∧
      ((∀ name, isSpecialField name = true →
          (applyTransformOps c ⟨doc, []⟩ t.operations).fields.get? name = none) →
        ∀ writes deletes ts₁ ts₂ syncLevel ts,
          JoinsFlush c db writes deletes ts₁ ts₂ syncLevel ts t (some json)) := by
  obtain ⟨hlinks, hframe⟩ := @applyTransformOps_frame c ⟨doc, []⟩ t.operations hrename rfl
  have hmarshal : (applyTransformOps c ⟨doc, []⟩ t.operations).marshal c = some json := by
    rw [LinkedObj.marshal, if_pos hlinks, hjson]
  have hresolved := hdoc.resolveTransform hmarshal
  have hbrace := hlaw.brace _ _ hjson
  refine ⟨hresolved, hframe, ?_, ?_, ?_⟩
  · intro before op after hops hfails
    rw [hops]
    exact applyTransformOps_skip hfails
  · intro extracted hextract writes deletes ts₁ ts₂ syncLevel ts
    exact joinsFlush hkey hresolved hbrace hextract
  · intro hspecial writes deletes ts₁ ts₂ syncLevel ts
    obtain ⟨extracted, hextract, hbody⟩ := hlaw.exists_extracted hjson hspecial db t.key
    rw [← hbody]
    exact joinsFlush hkey hresolved hbrace hextract

def emptyText : Bytes := ascii ['\x7b', '\x7d']

/-- The text of the object whose field `a` is null. -/
def nullText : Bytes := ascii ['\x7b', '\x22', 'a', '\x22', ':', 'n', 'u', 'l', 'l', '\x7d']

/-- A codec for stores with these two texts. -/
def Codec.nullObject : Codec :=
  { Codec.emptyObject with
    unmarshalObj := fun b =>
      if b = emptyText then some [] else if b = nullText then some [([97], .null)] else none
    marshalObj := fun o =>
      match o with
      | [] => some emptyText
      | [([97], .null)] => some nullText
      | _ => none }

theorem Codec.lawful_nullObject : LawfulJson .nullObject where
  brace o b h := by
    change Codec.nullObject.marshalObj o = some b at h
    unfold Codec.nullObject at h
    dsimp only at h
    split at h
    · cases h
      decide
    · cases h
      decide
    · cases h
  empty b h := (Option.some.inj h).symm
  fields o b h := by
    change Codec.nullObject.marshalObj o = some b at h
    unfold Codec.nullObject at h
    dsimp only at h
    split at h
    · cases h
      exact ⟨[], rfl, fun _ => Iff.rfl⟩
    · cases h
      exact ⟨[([97], .null)], rfl, fun _ => Iff.rfl⟩
    · cases h

/-- A shard with the one document `a`, whose field `a` is null. -/
def shardWithNull : DBImpl :=
  { DBImpl.empty with pdb := .ofList [(keyRangeStart [97], .zstd nullText)] }

theorem storedPlainly_null : StoredPlainly .nullObject shardWithNull [97] [([97], .null)] where
  body := ⟨nullText, rfl, rfl⟩
  embeddings e he := by
    obtain rfl := mem_singleton.mp he
    rfl
  summaries e he := by
    obtain rfl := mem_singleton.mp he
    rfl
  unexpired := rfl

/-- Removes the field `a`, and then something whose path is invalid. -/
def halfInvalid : Transform where
  key := [97]
  operations := [⟨[97], .unset, []⟩, ⟨ascii ['$', 'x'], .unset, []⟩]
  upsert := false

/-- The invalid operation does not keep the other from being stored. -/
theorem invalid_operation_skipped :
    (∃ op ∈ halfInvalid.operations, ∀ doc, applyTransformOp .nullObject doc op = none) ∧
      shardWithNull.get? (keyRangeStart [97]) = some (.zstd nullText) ∧
      (flushBatch .nullObject shardWithNull [] [] [halfInvalid] .write 0).1.get?
        (keyRangeStart [97]) = some (.zstd emptyText) := by
  refine ⟨⟨_, List.mem_cons_of_mem _ List.mem_cons_self, fun _ => rfl⟩, rfl, ?_⟩
  rfl

/-- What the transform with the invalid operation does. -/
theorem halfInvalid_touches_named :
    resolveTransform .nullObject shardWithNull halfInvalid = .ok (some ([97], emptyText)) ∧
      ∀ writes deletes ts₁ ts₂ syncLevel ts,
        JoinsFlush .nullObject shardWithNull writes deletes ts₁ ts₂ syncLevel ts halfInvalid
          (some emptyText) := by
  obtain ⟨hresolved, -, -, -, hjoins⟩ :=
    @transform_touches_named .nullObject shardWithNull emptyText [([97], .null)] halfInvalid
      Codec.lawful_nullObject (by decide) storedPlainly_null (by
        rintro op hop ⟨hrenames, -⟩
        revert op
        decide) rfl
  exact ⟨hresolved, hjoins fun _ _ => rfl⟩

end Antfly
