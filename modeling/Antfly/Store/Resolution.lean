import Antfly.Store.DocumentKeys
import Antfly.Store.Intents
import Mathlib.Data.List.Nodup
import Mathlib.Order.WithBot

/-!
`ResolveIntents` walks over the intents of a transaction in key order and decides everything on
the store as it was before.  A delete intent drops a range of keys whatever their timestamps; a
write intent stores its value only over an older timestamp.  For one document this leaves three
outcomes: it is left alone, it is gone, or it is the committed value under the commit version.
-/

namespace Antfly

open List OrdMap

/-- The shard holds the intent `i` of transaction `t` on the user key `u`. -/
def IntentOn (db : DBImpl) (t u : Bytes) (i : TxnIntent) : Prop :=
  db.get? (makeIntentKey t u) = some (.txnIntent i)

variable {db : DBImpl} {t u x : Bytes} {i : TxnIntent}

theorem IntentOn.unique {i' : TxnIntent} (h : IntentOn db t u i) (h' : IntentOn db t u i') :
    i = i' := by
  have heq := h.symm.trans h'
  simpa using heq

theorem parseIntentKey_eq_some (h : parseIntentKey x = some (t, u)) :
    t.length = uuidLen ∧ x = makeIntentKey t u := by
  unfold parseIntentKey at h
  split at h
  · cases h
  · rename_i hprefix
    have hpre : txnIntentsPrefix <+: x := by
      rw [← hasPrefix_iff]
      simpa using hprefix
    obtain ⟨rest, rfl⟩ := hpre
    simp only [drop_left'] at h
    split at h
    · cases h
    · rename_i hlen
      split at h
      · cases h
      · rename_i hcolon
        have hcolon' : rest[16]? = some 58 := not_not.mp hcolon
        cases h
        refine ⟨by simp only [length_take, uuidLen]; omega, ?_⟩
        have hsplit : rest.drop 16 = 58 :: rest.drop 17 := by
          obtain ⟨hlt, hget⟩ := List.getElem?_eq_some_iff.mp hcolon'
          rw [drop_eq_getElem_cons hlt, hget]
        have hrest := take_append_drop 16 rest
        rw [hsplit] at hrest
        simp only [makeIntentKey, ascii, append_assoc]
        rw [append_right_inj]
        exact hrest.symm

theorem exists_ne_ff_intentPrefix (t : Bytes) : ∃ c ∈ txnIntentsPrefix ++ t, c ≠ 0xFF :=
  ⟨0, mem_append_left _ (by decide), by decide⟩

/-- What the iterator of a transaction shows lies under the prefix of the transaction. -/
theorem prefix_of_mem_transactionIntents {e : Bytes × Stored} (h : e ∈ transactionIntents db t) :
    txnIntentsPrefix ++ t <+: e.1 ∧ db.get? e.1 = some e.2 := by
  obtain ⟨x, v⟩ := e
  obtain ⟨hrange, hget⟩ := (mem_scan_iff _ _ _ _ _).mp h
  exact ⟨(mem_Ico_prefixSuccessor_iff (exists_ne_ff_intentPrefix t)).mp hrange, hget⟩

theorem intentOn_of_mem_transactionIntents {t' : Bytes} (ht : t.length = uuidLen)
    (h : (x, .txnIntent i) ∈ transactionIntents db t) (hparse : parseIntentKey x = some (t', u)) :
    x = makeIntentKey t u ∧ IntentOn db t u i := by
  obtain ⟨hpre, hget⟩ := prefix_of_mem_transactionIntents h
  obtain ⟨ht', rfl⟩ := parseIntentKey_eq_some hparse
  obtain rfl : t = t' := by
    simp only [makeIntentKey, append_assoc, prefix_append_right_inj] at hpre
    exact (prefix_of_prefix_length_le hpre (prefix_append t' _)
      (by omega)).eq_of_length (by omega)
  exact ⟨rfl, hget⟩

def pendingIntent (op : WriteIntentOp) (value : Bytes) (isDelete : Bool) : TxnIntent where
  txnID := op.txnID
  value
  timestamp := op.timestamp
  coordinatorShard := op.coordinatorShard
  status := .pending
  isDelete

theorem writeIntent_eq_ok {db' : DBImpl} {op : WriteIntentOp} {b : BatchOp}
    (hb : op.batch = some b) (h : writeIntent db op = .ok db') :
    db' = db.applyOps (intentOps op b) := by
  unfold writeIntent at h
  rw [hb] at h
  simp only [Fallible.bind_eq_ok, Fallible.pure_eq_ok] at h
  obtain ⟨-, -, rfl⟩ := h
  rfl

theorem get?_intentOps_of_ne (db : DBImpl) (op : WriteIntentOp) (b : BatchOp)
    (hx : ∀ u, x ≠ makeIntentKey op.txnID u) :
    (db.applyOps (intentOps op b)).get? x = db.get? x := by
  refine get?_applyAll_of_untouched db.pdb fun o ho => ?_
  rcases mem_append.mp ho with ho | ho
  · obtain ⟨w, -, rfl⟩ := mem_map.mp ho
    simp [writeIntentOp, OrdMap.Edit.effect, hx w.1]
  · obtain ⟨k, -, rfl⟩ := mem_map.mp ho
    simp [deleteIntentOp, OrdMap.Edit.effect, hx k]

section WriteIntent

variable {db : DBImpl} {op : WriteIntentOp} {b : BatchOp} {u : Bytes}

private theorem effect_writeIntentOp (ht : op.txnID.length = uuidLen) (w : Write) :
    (writeIntentOp op w).effect (makeIntentKey op.txnID u) =
      if w.1 = u then some (some (.txnIntent (pendingIntent op w.2 false))) else none := by
  have hkey : makeIntentKey op.txnID u = makeIntentKey op.txnID w.1 ↔ w.1 = u :=
    ⟨fun h => (makeIntentKey_inj ht ht h).2.symm, fun h => by rw [h]⟩
  simp only [writeIntentOp, OrdMap.Edit.effect, hkey]
  rfl

private theorem effect_deleteIntentOp (ht : op.txnID.length = uuidLen) (k : Bytes) :
    (deleteIntentOp op k).effect (makeIntentKey op.txnID u) =
      if k = u then some (some (.txnIntent (pendingIntent op [] true))) else none := by
  have hkey : makeIntentKey op.txnID u = makeIntentKey op.txnID k ↔ k = u :=
    ⟨fun h => (makeIntentKey_inj ht ht h).2.symm, fun h => by rw [h]⟩
  simp only [deleteIntentOp, OrdMap.Edit.effect, hkey]
  rfl

theorem intentOn_of_mem_deletes (ht : op.txnID.length = uuidLen) (hu : u ∈ b.deletes) :
    IntentOn (db.applyOps (intentOps op b)) op.txnID u (pendingIntent op [] true) := by
  have hlast : OrdMap.lastEffect (b.deletes.map (deleteIntentOp op)) (makeIntentKey op.txnID u) =
      some (some (.txnIntent (pendingIntent op [] true))) := by
    rw [← flatMap_pure_eq_map]
    rw [lastEffect_flatMap_of_unique hu]
    · simp [lastEffect_cons, effect_deleteIntentOp ht]
    · intro k _ hne o ho
      obtain rfl := mem_singleton.mp ho
      rw [effect_deleteIntentOp ht, if_neg hne]
  rw [IntentOn, DBImpl.get?_applyOps, intentOps, lastEffect_append, hlast]
  rfl

theorem intentOn_of_mem_writes (ht : op.txnID.length = uuidLen)
    (hnodup : (b.writes.map Prod.fst).Nodup) {w : Write} (hw : w ∈ b.writes)
    (hu : w.1 ∉ b.deletes) :
    IntentOn (db.applyOps (intentOps op b)) op.txnID w.1 (pendingIntent op w.2 false) := by
  have hdeletes : OrdMap.lastEffect (b.deletes.map (deleteIntentOp op))
      (makeIntentKey op.txnID w.1) = none := by
    rw [lastEffect_eq_none_iff]
    intro o ho
    obtain ⟨k, hk, rfl⟩ := mem_map.mp ho
    rw [effect_deleteIntentOp ht, if_neg]
    rintro rfl
    exact hu hk
  have hwrites : OrdMap.lastEffect (b.writes.map (writeIntentOp op))
      (makeIntentKey op.txnID w.1) = some (some (.txnIntent (pendingIntent op w.2 false))) := by
    rw [← flatMap_pure_eq_map, lastEffect_flatMap_of_unique hw]
    · simp [lastEffect_cons, effect_writeIntentOp ht]
    · intro w' hw' hne o ho
      obtain rfl := mem_singleton.mp ho
      rw [effect_writeIntentOp ht, if_neg]
      exact fun h => hne (inj_on_of_nodup_map hnodup hw' hw h)
  rw [IntentOn, DBImpl.get?_applyOps, intentOps, lastEffect_append, hdeletes, hwrites]
  rfl

theorem intentOn_intentOps (ht : op.txnID.length = uuidLen) {i : TxnIntent}
    (h : IntentOn (db.applyOps (intentOps op b)) op.txnID u i) :
    (u ∈ b.deletes ∧ i = pendingIntent op [] true) ∨
      (u ∉ b.deletes ∧ ∃ w ∈ b.writes, w.1 = u ∧ i = pendingIntent op w.2 false) ∨
      IntentOn db op.txnID u i := by
  by_cases hu : u ∈ b.deletes
  · exact .inl ⟨hu, h.unique (intentOn_of_mem_deletes ht hu)⟩
  · right
    rcases get?_applyOps_cases h with hmem | hold
    · left
      refine ⟨hu, ?_⟩
      rcases mem_append.mp hmem with hmem | hmem
      · obtain ⟨w, hw, heq⟩ := mem_map.mp hmem
        obtain ⟨hkey, hval⟩ := OrdMap.Edit.set.inj heq
        exact ⟨w, hw, (makeIntentKey_inj ht ht hkey).2, (Stored.txnIntent.inj hval).symm⟩
      · obtain ⟨k, hk, heq⟩ := mem_map.mp hmem
        obtain ⟨hkey, -⟩ := OrdMap.Edit.set.inj heq
        exact absurd ((makeIntentKey_inj ht ht hkey).2 ▸ hk) hu
    · exact .inr hold

end WriteIntent

/-- What the store holds under the two keys of a document. -/
structure DocState where
  body : Option Stored
  timestamp : Option Stored
  deriving DecidableEq

namespace DocState

/-- A document that is not stored. -/
def absent : DocState := ⟨none, none⟩

/-- The `_timestamp` field of a body, for documents stored without a timestamp key. -/
def legacyVersion (c : Codec) (body : Option Stored) : WithBot ℕ :=
  let decoded := match body with
    | some (.zstd b) => some b
    | some (.raw b) => some b
    | _ => none
  match decoded.bind c.unmarshalObj with
  | none => ⊥
  | some doc =>
    match doc.get? (ascii ['_', 't', 'i', 'm', 'e', 's', 't', 'a', 'm', 'p']) with
    | some (.num f) => WithBot.some (c.floatToUint64 f)
    | _ => ⊥

/-- The version a committed value has to exceed to replace the document. -/
def version (c : Codec) (s : DocState) : WithBot ℕ :=
  match s.timestamp with
  | none => legacyVersion c s.body
  | some (.uint64 n) => WithBot.some n
  | some (.raw b) =>
    match decodeUint64Ascending b with
    | some n => WithBot.some n
    | none => ⊥
  | some _ => ⊥

end DocState

def docState (db : DBImpl) (k : Bytes) : DocState :=
  ⟨db.get? (keyRangeStart k), db.get? (documentTimestampKey k)⟩

private theorem shouldWriteValueLegacy_iff {c : Codec} {db : DBImpl} {k : Bytes} {v : ℕ} :
    shouldWriteValueLegacy c db k v = true ↔ DocState.legacyVersion c (db.get? k) < WithBot.some v := by
  unfold shouldWriteValueLegacy DocState.legacyVersion
  cases db.get? k with
  | none => simp
  | some s =>
    cases s with
    | raw b | zstd b =>
      dsimp only [Option.bind_some]
      cases c.unmarshalObj b with
      | none => simp
      | some doc =>
        dsimp only
        cases doc.get? (ascii ['_', 't', 'i', 'm', 'e', 's', 't', 'a', 'm', 'p']) with
        | none => simp
        | some j => cases j <;> simp
    | _ => simp

theorem shouldWriteValue_iff {c : Codec} {db : DBImpl} {k : Bytes} {v : ℕ} :
    shouldWriteValue c db (keyRangeStart k) v = true ↔ (docState db k).version c < WithBot.some v := by
  unfold shouldWriteValue DocState.version docState documentTimestampKey
  cases hts : db.get? (timestampKey (keyRangeStart k)) with
  | none =>
    exact shouldWriteValueLegacy_iff
  | some s =>
    cases s with
    | raw b =>
      simp only
      cases decodeUint64Ascending b <;> simp
    | uint64 n => simp
    | _ => simp

/-- The tombstone of `u` covers the document `k`. -/
def Covers (u k : Bytes) : Prop :=
  u ≤ keyRangeStart k ∧ keyRangeStart k < prefixSuccessor (keyRangeEnd u)

instance (u k : Bytes) : Decidable (Covers u k) :=
  inferInstanceAs (Decidable (_ ∧ _))

theorem covers_self (k : Bytes) : Covers k k := mem_deleteRange_colon k [0]

variable {u k : Bytes}

theorem covers_iff_timestampKey (hu : UserKey u) :
    (u ≤ documentTimestampKey k ∧ documentTimestampKey k < prefixSuccessor (keyRangeEnd u)) ↔
      Covers u k := by
  have hne : ∀ a, u ≠ (k ++ [58, 0]) ++ a := by
    rintro a rfl
    exact hu.not_contains_dbRangeStart ⟨k, a, by simp⟩
  unfold Covers
  rw [mem_deleteRange_iff, mem_deleteRange_iff, documentTimestampKey_eq, keyRangeStart_eq]
  constructor
  · rintro ⟨s, hs, hlt⟩
    rw [show k ++ [58, 0, 58, 116] = (k ++ [58, 0]) ++ [58, 116] by simp,
      append_eq_append_iff] at hs
    rcases hs with ⟨a, hua, -⟩ | ⟨s', hks, rfl⟩
    · exact absurd hua (hne a)
    · refine ⟨s', hks, ?_⟩
      exact lt_of_le_of_lt (Lex.le_append s' _) hlt
  · rintro ⟨s, hs, hlt⟩
    refine ⟨s ++ [58, 116], by rw [← append_assoc, ← hs]; simp, ?_⟩
    rcases Lex.lt_singleton_iff.mp hlt with rfl | ⟨a, s', rfl, ha⟩
    · exact absurd (by rw [hs]; simp) (hne [])
    · exact List.Lex.rel ha

theorem effect_deleteTombstone {x : Bytes} (hu : UserKey u) (hx : IsDocumentKey k x) :
    (deleteTombstone u).effect x = if Covers u k then some none else none := by
  have hcover : (u ≤ x ∧ x < prefixSuccessor (keyRangeEnd u)) ↔ Covers u k := by
    rcases hx with rfl | rfl
    · exact Iff.rfl
    · exact covers_iff_timestampKey hu
  simp only [deleteTombstone, OrdMap.Edit.effect, hcover]

section Effects

variable {c : Codec} {db : DBImpl}

variable {value u k x t : Bytes} {v : ℕ} {o : PebbleOp} {i : TxnIntent}

theorem extractAndWrite_keysOf {sf : SpecialFields}
    (h : extractAndWriteSpecialFields c db value u = .ok (some sf)) :
    sf.KeysOf u := by
  unfold extractAndWriteSpecialFields at h
  split at h
  · cases h
  · simp only [Fallible.bind_eq_ok, Fallible.pure_eq_ok] at h
    obtain ⟨sf', hsf', heq⟩ := h
    cases heq
    exact extractSpecialFields_keysOf hsf'

def committedBody (c : Codec) (db : DBImpl) (u value : Bytes) : Bytes :=
  match extractAndWriteSpecialFields c db value u with
  | .ok (some sf) => sf.cleanedJSON
  | _ => value

variable (c db) in
theorem committedValueOps_eq (u value : Bytes) (v : ℕ) :
    ∃ pre, committedValueOps c db u value v =
        pre ++ [.set (keyRangeStart u) (.zstd (committedBody c db u value)),
          .set (documentTimestampKey u) (.uint64 v)] ∧
      (pre = [] ∨ ∃ sf : SpecialFields, sf.KeysOf u ∧ pre = sf.ops v) := by
  unfold committedValueOps committedBody documentTimestampKey
  cases hext : extractAndWriteSpecialFields c db value u with
  | error e => exact ⟨[], rfl, .inl rfl⟩
  | ok o =>
    cases o with
    | none => exact ⟨[], rfl, .inl rfl⟩
    | some sf =>
      exact ⟨sf.ops v, by simp, .inr ⟨sf, extractAndWrite_keysOf hext, rfl⟩⟩

theorem committedValueOps_untouched (hk : UserKey k) (hx : IsDocumentKey k x) (huk : u ≠ k) :
    ∀ o ∈ committedValueOps c db u value v, o.effect x = none := by
  obtain ⟨pre, heq, hpre⟩ := committedValueOps_eq c db u value v
  rw [heq]
  intro o ho
  rcases mem_append.mp ho with ho | ho
  · rcases hpre with rfl | ⟨sf, hsf, rfl⟩
    · cases ho
    · exact hk.specialFields_untouched hx hsf v o ho
  · have hbody : x ≠ keyRangeStart u := by
      rcases hx with rfl | rfl
      · exact fun h => huk (keyRangeStart_inj.mp h).symm
      · exact (keyRangeStart_ne_timestampKey u k).symm
    have hts : x ≠ documentTimestampKey u := by
      rcases hx with rfl | rfl
      · exact keyRangeStart_ne_timestampKey k u
      · exact fun h => huk (documentTimestampKey_inj.mp h).symm
    simp only [mem_cons, not_mem_nil, or_false] at ho
    rcases ho with rfl | rfl
    · simp [OrdMap.Edit.effect, hbody]
    · simp [OrdMap.Edit.effect, hts]

variable (c db) in
theorem committedValueOps_lastEffect (k value : Bytes) (v : ℕ) :
    OrdMap.lastEffect (committedValueOps c db k value v) (keyRangeStart k) =
        some (some (.zstd (committedBody c db k value))) ∧
      OrdMap.lastEffect (committedValueOps c db k value v) (documentTimestampKey k) =
        some (some (.uint64 v)) := by
  obtain ⟨pre, heq, -⟩ := committedValueOps_eq c db k value v
  rw [heq, lastEffect_append, lastEffect_append]
  constructor
  · simp [lastEffect_cons, OrdMap.Edit.effect, keyRangeStart_ne_timestampKey]
  · simp [lastEffect_cons, OrdMap.Edit.effect]

variable {op : ResolveIntentsOp}

theorem makeIntentKey_head (t u : Bytes) : (makeIntentKey t u).head? = some 0 := rfl

theorem UserKey.ne_intentKey (hk : UserKey k) (hx : k <+: x) (t u : Bytes) :
    x ≠ makeIntentKey t u := by
  rintro rfl
  obtain ⟨r, hr⟩ := hx
  have hhead := hk.head_append r
  rw [hr] at hhead
  exact hhead (makeIntentKey_head t u)

theorem IsDocumentKey.prefix (hx : IsDocumentKey k x) : k <+: x := by
  rcases hx with rfl | rfl
  · exact prefix_append _ _
  · rw [documentTimestampKey_eq]
    exact prefix_append _ _

/-- Every operation of the loop belongs to an intent of the transaction: it is part of what the
committed intent does, or it removes the intent. -/
theorem mem_resolveIntentOps {e : Bytes × Stored} (ht : op.txnID.length = uuidLen)
    (he : e ∈ transactionIntents db op.txnID) (ho : o ∈ resolveIntentOps c db op e) :
    ∃ u i, IntentOn db op.txnID u i ∧ e = (makeIntentKey op.txnID u, .txnIntent i) ∧
      (o ∈ committedIntentOps c db u i op.commitVersion ∨
        o = .delete (makeIntentKey op.txnID u)) := by
  obtain ⟨y, v⟩ := e
  unfold resolveIntentOps at ho
  split at ho
  · rename_i intent t' u hv hparse
    simp only at hv hparse
    subst hv
    obtain ⟨rfl, hon⟩ := intentOn_of_mem_transactionIntents ht he hparse
    refine ⟨u, intent, hon, rfl, ?_⟩
    rcases mem_append.mp ho with ho | ho
    · split at ho
      · exact .inl ho
      · cases ho
    · exact .inr (mem_singleton.mp ho)
  · cases ho

theorem resolveIntentOps_of_intentOn (ht : op.txnID.length = uuidLen)
    (hc : op.status = .committed) :
    resolveIntentOps c db op (makeIntentKey op.txnID u, .txnIntent i) =
      committedIntentOps c db u i op.commitVersion ++ [.delete (makeIntentKey op.txnID u)] := by
  simp [resolveIntentOps, parseIntentKey_makeIntentKey ht, hc]

/-- A key outside the intents that no intent of the transaction touches is left alone. -/
theorem get?_resolveIntents_untouched {x : Bytes} (ht : op.txnID.length = uuidLen)
    (hx : ∀ u, x ≠ makeIntentKey op.txnID u)
    (h : ∀ u i, IntentOn db op.txnID u i →
      ∀ o ∈ committedIntentOps c db u i op.commitVersion, o.effect x = none) :
    (resolveIntents c db op).get? x = db.get? x := by
  refine get?_applyAll_of_untouched db.pdb fun o ho => ?_
  obtain ⟨e, he, ho⟩ := mem_flatMap.mp ho
  obtain ⟨u, i, hon, -, ho | rfl⟩ := mem_resolveIntentOps ht he ho
  · exact h u i hon o ho
  · simp [OrdMap.Edit.effect, hx u]

theorem transactionIntents_split (hon : IntentOn db op.txnID u i) :
    ∃ before after, transactionIntents db op.txnID =
        before ++ (makeIntentKey op.txnID u, .txnIntent i) :: after ∧
      ∀ e ∈ after, e ∈ transactionIntents db op.txnID ∧ makeIntentKey op.txnID u < e.1 := by
  have hmem := (mem_transactionIntents (prefix_makeIntentKey op.txnID u)).mpr hon
  obtain ⟨before, after, hsplit⟩ := append_of_mem hmem
  have hsorted : (transactionIntents db op.txnID).Pairwise fun a b => a.1 < b.1 :=
    db.pdb.sorted.filter _
  rw [hsplit, pairwise_append, pairwise_cons] at hsorted
  refine ⟨before, after, hsplit, fun e he => ⟨?_, hsorted.2.1.1 e he⟩⟩
  rw [hsplit]
  exact mem_append_right _ (mem_cons_of_mem _ he)

theorem makeIntentKey_lt_iff {u' : Bytes} : makeIntentKey t u < makeIntentKey t u' ↔ u < u' := by
  rw [makeIntentKey, makeIntentKey, Lex.append_lt_append_left]

private theorem get?_resolveIntents_split {u x : Bytes} {i : TxnIntent} {w : Option Stored}
    (ht : op.txnID.length = uuidLen) (hc : op.status = .committed)
    (hx : ∀ u, x ≠ makeIntentKey op.txnID u) (hon : IntentOn db op.txnID u i)
    (hlast : OrdMap.lastEffect (committedIntentOps c db u i op.commitVersion) x = some w)
    (hafter : ∀ u' i', IntentOn db op.txnID u' i' → u < u' →
      ∀ o ∈ committedIntentOps c db u' i' op.commitVersion,
        o.effect x = none ∨ (w = none ∧ o.effect x = some none)) :
    (resolveIntents c db op).get? x = w := by
  obtain ⟨before, after, hsplit, hlater⟩ := transactionIntents_split hon
  have hentry : OrdMap.lastEffect (resolveIntentOps c db op
      (makeIntentKey op.txnID u, .txnIntent i)) x = some w := by
    rw [resolveIntentOps_of_intentOn ht hc, lastEffect_append, hlast]
    simp [lastEffect_cons, OrdMap.Edit.effect, hx u]
  have hrest : ∀ o ∈ after.flatMap (resolveIntentOps c db op),
      o.effect x = none ∨ (w = none ∧ o.effect x = some none) := by
    intro o ho
    obtain ⟨e, he, ho⟩ := mem_flatMap.mp ho
    obtain ⟨hmem, hlt⟩ := hlater e he
    obtain ⟨u', i', hon', rfl, ho | rfl⟩ := mem_resolveIntentOps ht hmem ho
    · exact hafter u' i' hon' (makeIntentKey_lt_iff.mp hlt) o ho
    · left
      simp [OrdMap.Edit.effect, hx u']
  rw [resolveIntents, DBImpl.get?_applyOps, hsplit, flatMap_append, flatMap_cons,
    lastEffect_append, lastEffect_append, hentry]
  cases hlastAfter : OrdMap.lastEffect (after.flatMap (resolveIntentOps c db op)) x with
  | none => rfl
  | some w' =>
    obtain ⟨o, ho, hox⟩ := exists_effect_of_lastEffect hlastAfter
    rcases hrest o ho with h | ⟨rfl, h⟩
    · rw [h] at hox
      cases hox
    · rw [h] at hox
      cases hox
      rfl

/-- A key an intent sets or deletes is left so by the intents after it that do not touch it. -/
theorem get?_resolveIntents_decided {u x : Bytes} {i : TxnIntent} {w : Option Stored}
    (ht : op.txnID.length = uuidLen) (hc : op.status = .committed)
    (hx : ∀ u, x ≠ makeIntentKey op.txnID u) (hon : IntentOn db op.txnID u i)
    (hlast : OrdMap.lastEffect (committedIntentOps c db u i op.commitVersion) x = some w)
    (hafter : ∀ u' i', IntentOn db op.txnID u' i' → u < u' →
      ∀ o ∈ committedIntentOps c db u' i' op.commitVersion, o.effect x = none) :
    (resolveIntents c db op).get? x = w :=
  get?_resolveIntents_split ht hc hx hon hlast
    fun u' i' hon' hlt o ho => .inl (hafter u' i' hon' hlt o ho)

theorem committedIntentOps_of_delete (h : i.isDelete = true) :
    committedIntentOps c db u i v = [deleteTombstone u] := if_pos h

theorem get?_resolveIntents_deleted {u x : Bytes} {i : TxnIntent}
    (ht : op.txnID.length = uuidLen) (hc : op.status = .committed)
    (hx : ∀ u, x ≠ makeIntentKey op.txnID u) (hon : IntentOn db op.txnID u i)
    (hdel : i.isDelete = true) (hcov : u ≤ x ∧ x < prefixSuccessor (keyRangeEnd u))
    (hafter : ∀ u' i', IntentOn db op.txnID u' i' → i'.isDelete = false → u < u' →
      ∀ o ∈ committedIntentOps c db u' i' op.commitVersion, o.effect x = none) :
    (resolveIntents c db op).get? x = none := by
  have heffect : (deleteTombstone u).effect x = some none := if_pos hcov
  refine get?_resolveIntents_split ht hc hx hon ?_ ?_
  · rw [committedIntentOps_of_delete hdel]
    simp [lastEffect_cons, heffect]
  · intro u' i' hon' hlt o ho
    cases hdel' : i'.isDelete with
    | false => exact .inl (hafter u' i' hon' hdel' hlt o ho)
    | true =>
      rw [committedIntentOps_of_delete hdel'] at ho
      obtain rfl := mem_singleton.mp ho
      simp only [deleteTombstone, OrdMap.Edit.effect]
      split
      · exact .inr ⟨trivial, rfl⟩
      · exact .inl rfl

/-- The intents of transaction `t` are on ids of ordinary documents. -/
def OrdinaryIntents (db : DBImpl) (t : Bytes) : Prop :=
  ∀ u i, IntentOn db t u i → UserKey u

/-- What a committed intent does to a document key is the tombstone of a covering delete, or the
value of a newer write of that document. -/
theorem committedIntentOps_effect (hu : UserKey u) (hk : UserKey k) (hx : IsDocumentKey k x)
    (ho : o ∈ committedIntentOps c db u i v) :
    o.effect x = none ∨ (i.isDelete = true ∧ Covers u k) ∨
      (i.isDelete = false ∧ u = k ∧ (docState db k).version c < WithBot.some v) := by
  cases hdel : i.isDelete with
  | true =>
    rw [committedIntentOps_of_delete hdel] at ho
    obtain rfl := mem_singleton.mp ho
    rw [effect_deleteTombstone hu hx]
    by_cases hcov : Covers u k
    · exact .inr (.inl ⟨rfl, hcov⟩)
    · exact .inl (if_neg hcov)
  | false =>
    by_cases huk : u = k
    · subst huk
      unfold committedIntentOps at ho
      rw [hdel, if_neg Bool.false_ne_true] at ho
      split at ho
      · rename_i hwrite
        rw [Bool.and_eq_true, shouldWriteValue_iff] at hwrite
        exact .inr (.inr ⟨rfl, rfl, hwrite.2⟩)
      · cases ho
    · left
      unfold committedIntentOps at ho
      rw [hdel, if_neg Bool.false_ne_true] at ho
      split at ho
      · exact committedValueOps_untouched hk hx huk o ho
      · cases ho

theorem committedIntentOps_of_write (hwrite : i.isDelete = false) (hval : i.value ≠ [])
    (hlt : (docState db k).version c < WithBot.some v) :
    committedIntentOps c db k i v = committedValueOps c db k i.value v := by
  have hne : i.value.isEmpty = false := by
    rw [← Bool.not_eq_true, List.isEmpty_iff]
    exact hval
  simp [committedIntentOps, hwrite, hne, shouldWriteValue_iff, hlt]

theorem docState_eq {db db' : DBImpl} (h : ∀ x, IsDocumentKey k x → db.get? x = db'.get? x) :
    docState db k = docState db' k := by
  simp only [docState, h _ (.inl rfl), h _ (.inr rfl)]

/-- A document that no delete of the transaction covers and that it does not write, or not over an
older version, is left alone. -/
theorem docState_resolve_untouched {k : Bytes} (ht : op.txnID.length = uuidLen)
    (hord : OrdinaryIntents db op.txnID) (hk : UserKey k)
    (hno : ∀ u i, IntentOn db op.txnID u i → i.isDelete = true → ¬ Covers u k)
    (hold : ∀ i, IntentOn db op.txnID k i → i.isDelete = false →
      ¬ (docState db k).version c < WithBot.some op.commitVersion) :
    docState (resolveIntents c db op) k = docState db k := by
  refine docState_eq fun x hx => ?_
  refine get?_resolveIntents_untouched ht (hk.ne_intentKey hx.prefix op.txnID) ?_
  intro u i hon o ho
  rcases committedIntentOps_effect (hord u i hon) hk hx ho with h | ⟨hdel, hcov⟩ | h
  · exact h
  · exact absurd hcov (hno u i hon hdel)
  · obtain ⟨hwrite, rfl, hlt⟩ := h
    exact absurd hlt (hold i hon hwrite)

/-- A document that a delete of the transaction covers and that it does not write is gone. -/
theorem docState_resolve_deleted (ht : op.txnID.length = uuidLen) (hc : op.status = .committed)
    (hord : OrdinaryIntents db op.txnID) (hk : UserKey k)
    (hno : ∀ i, IntentOn db op.txnID k i → i.isDelete = true) (hon : IntentOn db op.txnID u i)
    (hdel : i.isDelete = true) (hcov : Covers u k) :
    docState (resolveIntents c db op) k = .absent := by
  have hgone : ∀ x, IsDocumentKey k x → (resolveIntents c db op).get? x = none := by
    intro x hx
    have hcovx : u ≤ x ∧ x < prefixSuccessor (keyRangeEnd u) := by
      rcases hx with rfl | rfl
      · exact hcov
      · exact (covers_iff_timestampKey (hord u i hon)).mpr hcov
    refine get?_resolveIntents_deleted ht hc (hk.ne_intentKey hx.prefix op.txnID) hon hdel hcovx ?_
    intro u' i' hon' hwrite _ o ho
    rcases committedIntentOps_effect (hord u' i' hon') hk hx ho with h | ⟨hdel', -⟩ | h
    · exact h
    · rw [hwrite] at hdel'
      cases hdel'
    · obtain ⟨-, rfl, -⟩ := h
      rw [hno i' hon'] at hwrite
      cases hwrite
  simp only [docState, hgone _ (.inl rfl), hgone _ (.inr rfl), DocState.absent]

/-- A document that the transaction writes over an older version holds the committed value,
provided the deletes of the transaction that cover it come before the write in key order. -/
theorem docState_resolve_written (ht : op.txnID.length = uuidLen) (hc : op.status = .committed)
    (hord : OrdinaryIntents db op.txnID) (hk : UserKey k) (hon : IntentOn db op.txnID k i)
    (hwrite : i.isDelete = false) (hval : i.value ≠ [])
    (hlt : (docState db k).version c < WithBot.some op.commitVersion)
    (hcov : ∀ u i, IntentOn db op.txnID u i → i.isDelete = true → Covers u k → u < k) :
    docState (resolveIntents c db op) k =
      ⟨some (.zstd (committedBody c db k i.value)), some (.uint64 op.commitVersion)⟩ := by
  have hdecided : ∀ x w, IsDocumentKey k x →
      OrdMap.lastEffect (committedValueOps c db k i.value op.commitVersion) x = some w →
      (resolveIntents c db op).get? x = w := by
    intro x w hx hlast
    rw [← committedIntentOps_of_write hwrite hval hlt] at hlast
    refine get?_resolveIntents_decided ht hc (hk.ne_intentKey hx.prefix op.txnID) hon hlast ?_
    -- What follows the write in key order does not touch the document.
    intro u' i' hon' hlater o ho
    rcases committedIntentOps_effect (hord u' i' hon') hk hx ho with h | ⟨hdel, hcov'⟩ | h
    · exact h
    · exact absurd (hcov u' i' hon' hdel hcov') hlater.not_gt
    · obtain ⟨-, rfl, -⟩ := h
      exact absurd hlater (lt_irrefl _)
  obtain ⟨hbody, hts⟩ := committedValueOps_lastEffect c db k i.value op.commitVersion
  simp only [docState, hdecided _ _ (.inl rfl) hbody, hdecided _ _ (.inr rfl) hts]

theorem committedIntentOps_untouched {y : Bytes} (hy : ¬ u <+: y) :
    ∀ o ∈ committedIntentOps c db u i v, o.effect y = none := by
  have hset : ∀ (r : Bytes) (w : Stored), (OrdMap.Edit.set (u ++ r) w : PebbleOp).effect y = none := by
    intro r w
    have hne : y ≠ u ++ r := by
      rintro rfl
      exact hy (prefix_append u r)
    simp [OrdMap.Edit.effect, hne]
  intro o ho
  unfold committedIntentOps at ho
  split at ho
  · obtain rfl := mem_singleton.mp ho
    refine if_neg fun hcov => hy ?_
    obtain ⟨t, rfl, -⟩ := mem_deleteRange_iff.mp hcov
    exact prefix_append u t
  · split at ho
    · obtain ⟨pre, heq, hpre⟩ := committedValueOps_eq c db u i.value v
      rw [heq] at ho
      rcases mem_append.mp ho with ho | ho
      · rcases hpre with rfl | ⟨sf, hsf, rfl⟩
        · cases ho
        · exact hsf.untouched (fun h => hy ((prefix_append u _).trans h)) v o ho
      · simp only [mem_cons, not_mem_nil, or_false] at ho
        rcases ho with rfl | rfl
        · exact hset dbRangeStart _
        · rw [documentTimestampKey_eq]
          exact hset _ _
    · cases ho

theorem intentOn_resolve_of_ne (ht : op.txnID.length = uuidLen) (ht' : t.length = uuidLen)
    (hne : t ≠ op.txnID) (hord : OrdinaryIntents db op.txnID) :
    IntentOn (resolveIntents c db op) t u i ↔ IntentOn db t u i := by
  unfold IntentOn
  rw [get?_resolveIntents_untouched ht]
  · exact fun u' h => hne (makeIntentKey_inj ht' ht h).1
  · intro u' i' hon'
    exact committedIntentOps_untouched fun hpre =>
      (hord u' i' hon').ne_intentKey hpre t u rfl

theorem get?_resolveIntents_intentKey (ht : op.txnID.length = uuidLen)
    (hord : OrdinaryIntents db op.txnID)
    (h : db.get? (makeIntentKey op.txnID u) = none ∨ ∃ i, IntentOn db op.txnID u i) :
    (resolveIntents c db op).get? (makeIntentKey op.txnID u) = none := by
  have heffects : ∀ o ∈ (transactionIntents db op.txnID).flatMap (resolveIntentOps c db op),
      o.effect (makeIntentKey op.txnID u) = none ∨
        o.effect (makeIntentKey op.txnID u) = some none := by
    intro o ho
    obtain ⟨e, he, ho⟩ := mem_flatMap.mp ho
    obtain ⟨u', i, hon, -, ho | rfl⟩ := mem_resolveIntentOps ht he ho
    · left
      refine committedIntentOps_untouched (fun hpre => ?_) o ho
      exact (hord u' i hon).ne_intentKey hpre op.txnID u rfl
    · simp only [OrdMap.Edit.effect]
      split
      · exact .inr rfl
      · exact .inl rfl
  rw [resolveIntents, DBImpl.get?_applyOps]
  rcases h with hnone | ⟨i, hon⟩
  · cases hlast : OrdMap.lastEffect ((transactionIntents db op.txnID).flatMap
        (resolveIntentOps c db op)) (makeIntentKey op.txnID u) with
    | none => exact hnone
    | some w =>
      obtain ⟨o, ho, hox⟩ := exists_effect_of_lastEffect hlast
      rcases heffects o ho with heq | heq
      · rw [heq] at hox
        cases hox
      · rw [heq] at hox
        cases hox
        rfl
  · have hmem := (mem_transactionIntents (prefix_makeIntentKey op.txnID u)).mpr hon
    have hdelete : .delete (makeIntentKey op.txnID u) ∈
        (transactionIntents db op.txnID).flatMap (resolveIntentOps c db op) := by
      refine mem_flatMap.mpr ⟨_, hmem, ?_⟩
      simp [resolveIntentOps, parseIntentKey_makeIntentKey ht]
    rw [lastEffect_eq_absent ⟨_, hdelete, by simp [OrdMap.Edit.effect]⟩ heffects]
    rfl

theorem not_intentOn_resolve (ht : op.txnID.length = uuidLen) :
    ¬ IntentOn (resolveIntents c db op) op.txnID u i :=
  fun h => resolveIntents_clears ht ⟨u, i, h⟩

end Effects

def TouchedBy (k x : Bytes) : Prop := IsDocumentKey k x ∨ k ++ indexMarker <+: x

variable {k x : Bytes}

theorem TouchedBy.eq_append (h : TouchedBy k x) : ∃ r, x = k ++ 58 :: r := by
  rcases h with (rfl | rfl) | ⟨r, rfl⟩
  · exact ⟨[0], rfl⟩
  · exact ⟨[0, 58, 116], documentTimestampKey_eq k⟩
  · exact ⟨[105, 58] ++ r, by simp [indexMarker, ascii]⟩

theorem TouchedBy.prefix (h : TouchedBy k x) : k <+: x := by
  obtain ⟨r, rfl⟩ := h.eq_append
  exact prefix_append k _

section Write

variable {c : Codec} {db : DBImpl}

variable {u x : Bytes} {v : ℕ}

theorem committedValueOps_not_touched {value : Bytes} (hx : ¬ TouchedBy u x) :
    ∀ o ∈ committedValueOps c db u value v, o.effect x = none := by
  have hbody : x ≠ keyRangeStart u := fun h => hx (.inl (.inl h))
  have hts : x ≠ documentTimestampKey u := fun h => hx (.inl (.inr h))
  obtain ⟨pre, heq, hpre⟩ := committedValueOps_eq c db u value v
  rw [heq]
  intro o ho
  rcases mem_append.mp ho with ho | ho
  · rcases hpre with rfl | ⟨sf, hsf, rfl⟩
    · cases ho
    · exact hsf.untouched (fun h => hx (.inr h)) v o ho
  · simp only [mem_cons, not_mem_nil, or_false] at ho
    rcases ho with rfl | rfl
    · simp [OrdMap.Edit.effect, hbody]
    · simp [OrdMap.Edit.effect, hts]

theorem documentOps_not_touched {body : Bytes} (hx : ¬ TouchedBy u x) :
    ∀ o ∈ documentOps u body v, o.effect x = none := by
  have hbody : x ≠ keyRangeStart u := fun h => hx (.inl (.inl h))
  have hts : x ≠ timestampKey (keyRangeStart u) := fun h => hx (.inl (.inr h))
  intro o ho
  unfold documentOps timestampOps at ho
  rcases mem_cons.mp ho with rfl | ho
  · simp [OrdMap.Edit.effect, hbody]
  · split at ho
    · obtain rfl := mem_singleton.mp ho
      simp [OrdMap.Edit.effect, hts]
    · cases ho

theorem documentWriteOps_not_touched {w : Write} {ops : List PebbleOp} (hx : ¬ TouchedBy w.1 x)
    (h : documentWriteOps c db v w = .ok ops) :
    ∀ o ∈ ops, o.effect x = none := by
  unfold documentWriteOps at h
  split at h
  · cases h
    simp
  · rw [Fallible.bind_eq_ok] at h
    obtain ⟨r, hr, h⟩ := h
    cases r with
    | none =>
      cases h
      exact documentOps_not_touched hx
    | some sf =>
      cases h
      intro o ho
      rcases mem_append.mp ho with ho | ho
      · exact (extractAndWrite_keysOf hr).untouched (fun h => hx (.inr h)) v o ho
      · split at ho
        · exact documentOps_not_touched hx o ho
        · cases ho

end Write

end Antfly
