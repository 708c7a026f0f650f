import Antfly.Store.TxnFrame

/-!
Transaction ids are 16-byte UUIDs, so an intent key determines its transaction and its user key.
Resolving a transaction removes every intent of it, whatever the decision was.
-/

namespace Antfly

/-- The length of a transaction id. -/
def uuidLen : Nat := 16

theorem parseIntentKey_makeIntentKey {t : Bytes} (ht : t.length = uuidLen) (userKey : Bytes) :
    parseIntentKey (makeIntentKey t userKey) = some (t, userKey) := by
  have hprefix : hasPrefix (makeIntentKey t userKey) txnIntentsPrefix = true := by
    rw [hasPrefix_iff]
    exact ⟨t ++ ascii [':'] ++ userKey, by simp [makeIntentKey]⟩
  have hdrop : (makeIntentKey t userKey).drop txnIntentsPrefix.length =
      t ++ 58 :: userKey := by
    simp [makeIntentKey, ascii]
  have ht' : t.length = 16 := ht
  have hrest : (t ++ 58 :: userKey).drop 17 = userKey := by
    rw [← List.singleton_append, ← List.append_assoc]
    exact List.drop_left' (by simp [ht'])
  simp only [parseIntentKey, hprefix, hdrop, hrest]
  simp [ht']
  omega

theorem makeIntentKey_inj {t t' u u' : Bytes} (ht : t.length = uuidLen) (ht' : t'.length = uuidLen)
    (h : makeIntentKey t u = makeIntentKey t' u') : t = t' ∧ u = u' := by
  have hparse := parseIntentKey_makeIntentKey ht u
  rw [h, parseIntentKey_makeIntentKey ht' u'] at hparse
  simpa using hparse.symm

/-- The iterator of a transaction shows exactly its stored intents, and what else is stored under
its prefix. -/
theorem mem_transactionIntents {db : DBImpl} {t x : Bytes} {v : Stored}
    (hx : txnIntentsPrefix ++ t <+: x) :
    (x, v) ∈ transactionIntents db t ↔ db.get? x = some v := by
  unfold transactionIntents
  rw [OrdMap.mem_scan_iff]
  refine ⟨And.right, fun h => ⟨⟨Lex.le_of_prefix hx, lt_prefixSuccessor ?_ hx⟩, h⟩⟩
  exact ⟨0, List.mem_append_left _ (by decide), by decide⟩

theorem prefix_makeIntentKey (t u : Bytes) : txnIntentsPrefix ++ t <+: makeIntentKey t u :=
  ⟨ascii [':'] ++ u, by simp [makeIntentKey]⟩

/-- The shard holds an intent of the transaction. -/
def HoldsIntent (db : DBImpl) (t : Bytes) : Prop :=
  ∃ u i, db.get? (makeIntentKey t u) = some (.txnIntent i)

section Resolve

variable {c : Codec} {db : DBImpl}

theorem resolveIntents_clears {op : ResolveIntentsOp} (ht : op.txnID.length = uuidLen) :
    ¬ HoldsIntent (resolveIntents c db op) op.txnID := by
  rintro ⟨u, i, h⟩
  have hold := resolveIntents_noNewTxn op _ (.txnIntent i) rfl h
  have hmem := (mem_transactionIntents (prefix_makeIntentKey op.txnID u)).mpr hold
  -- The key is deleted by its own iteration of the loop, and no iteration writes an intent.
  have htouched : OrdMap.lastEffect ((transactionIntents db op.txnID).flatMap
      (resolveIntentOps c db op)) (makeIntentKey op.txnID u) ≠ none := by
    rw [Ne, OrdMap.lastEffect_eq_none_iff]
    intro hnone
    have hdelete : OrdMap.Edit.delete (makeIntentKey op.txnID u) ∈
        (transactionIntents db op.txnID).flatMap (resolveIntentOps c db op) := by
      refine List.mem_flatMap.mpr ⟨_, hmem, ?_⟩
      simp [resolveIntentOps, parseIntentKey_makeIntentKey ht]
    have heffect := hnone _ hdelete
    simp [OrdMap.Edit.effect] at heffect
  obtain ⟨o, ho⟩ := Option.ne_none_iff_exists'.mp htouched
  rw [resolveIntents, DBImpl.get?_applyOps, ho] at h
  change o = some (.txnIntent i) at h
  subst h
  obtain ⟨e, he, hex⟩ := OrdMap.exists_effect_of_lastEffect ho
  rw [eq_set_of_effect hex] at he
  exact resolveIntentsOps_noTxn op _ _ he rfl

end Resolve

/-- An operation that is not a `WriteIntent` brings no intents; a `WriteIntent` brings those of its
own transaction. -/
theorem holdsIntent_applyOp {c : Codec} {s : StoreDB} {op : RaftOp} {t : Bytes}
    (h : HoldsIntent (s.applyOp c op).1.coreDB t) :
    HoldsIntent s.coreDB t ∨
      ∃ o u u', op = .writeIntent o ∧ makeIntentKey o.txnID u' = makeIntentKey t u := by
  obtain ⟨u, i, hget⟩ := h
  have horigin := s.applyOp_txnOrigin c op hget rfl
  generalize hv : Stored.txnIntent i = v at horigin
  generalize hx : makeIntentKey t u = x at horigin
  cases horigin with
  | old hold => exact Or.inl ⟨u, i, by rw [hx, hold, hv]⟩
  | intent o u' i' => exact Or.inr ⟨o, u, u', rfl, hx.symm⟩
  | init => cases hv
  | commit => cases hv
  | abort => cases hv

end Antfly
