import Antfly.Store.TTL
import Antfly.Store.Coalescing

/-!
Of all operations of a shard, only a batch and the resolution of intents write keys outside the
store's own records.  The edits they make keep a timestamp next to the key it is for: a timestamp
key is only ever set together with its key, and a document or an edge that a timestamped operation
sets gets one.
-/

namespace Antfly

open List

/-- Metadata, transaction records and intents. -/
def OwnRecord (x : Bytes) : Prop :=
  metadataPrefix <+: x ∨ txnRecordsPrefix <+: x ∨ txnIntentsPrefix <+: x

/-- A stored document body or a stored edge. -/
def Reapable (x : Bytes) : Prop :=
  ¬ OwnRecord x ∧ (hasSuffix x dbRangeStart = true ∨ hasSuffix x edgeOutSuffix = true)

theorem not_reapable_timestampKey (k : Bytes) : ¬ Reapable (timestampKey k) := by
  rintro ⟨-, h | h⟩
  · exact absurd ((hasSuffix_append_pair k 58 116 58 0).symm.trans h) (by decide)
  · exact absurd ((hasSuffix_append_pair k 58 116 58 111).symm.trans h) (by decide)

/-- The prefixes of the store's own records have no colon before their last byte, so what follows
the first colon of a key does not matter. -/
theorem ownRecord_append_colon {k t t' : Bytes} (h : OwnRecord (k ++ 58 :: t)) :
    OwnRecord (k ++ 58 :: t') := by
  have hkey : ∀ p : Bytes, (58 : UInt8) ∉ p.dropLast → p <+: k ++ 58 :: t → p <+: k ++ 58 :: t' := by
    intro p hp hpre
    have hshort : p <+: k ++ [58] := by
      by_cases hlen : p.length ≤ (k ++ [58]).length
      · refine prefix_of_prefix_length_le hpre ⟨t, ?_⟩ hlen
        simp
      · have hlong : k ++ [58] <+: p :=
          prefix_of_prefix_length_le ⟨t, by simp⟩ hpre (by omega)
        obtain ⟨u, rfl⟩ := hlong
        cases u using List.reverseRecOn with
        | nil => simp at hlen
        | append_singleton u d =>
          rw [← append_assoc, dropLast_concat] at hp
          simp at hp
    exact hshort.trans ⟨t', by simp⟩
  rcases h with h | h | h
  · exact .inl (hkey _ (by decide) h)
  · exact .inr (.inl (hkey _ (by decide) h))
  · exact .inr (.inr (hkey _ (by decide) h))

theorem not_ownRecord_timestampKey {x : Bytes} (hx : Reapable x) :
    ¬ OwnRecord (timestampKey x) := by
  obtain ⟨hown, hshape⟩ := hx
  obtain ⟨y, b, rfl⟩ : ∃ y b, x = y ++ 58 :: [b] := by
    rcases hshape with h | h
    · obtain ⟨y, rfl⟩ := hasSuffix_iff.mp h
      exact ⟨y, 0, rfl⟩
    · obtain ⟨y, rfl⟩ := hasSuffix_iff.mp h
      exact ⟨y, 111, rfl⟩
  rw [timestampKey, append_assoc, cons_append]
  exact fun h => hown (ownRecord_append_colon h)

def IsData (x : Bytes) (_ : Stored) : Prop := ¬ OwnRecord x

theorem not_isData {x : Bytes} {v : Stored} (h : OwnRecord x) : ¬ IsData x v := not_not.mpr h

section OwnState

variable (db : DBImpl)

theorem finalizeTransaction_noNewData {txnID : Bytes} {status : TxnStatus} {ctxTimestamp : Nat}
    {now : Int} {r : DBImpl × Nat}
    (h : finalizeTransaction db txnID status ctxTimestamp now = .ok r) : NoNew IsData db r.1 := by
  obtain ⟨record, -, hr⟩ := finalizeTransaction_cases h
  rw [hr]
  exact .of_ops _ rfl (.cons_set (not_isData (.inr (.inl (prefix_append _ _)))) .nil)

theorem writeIntent_noNewData {db' : DBImpl} {op : WriteIntentOp}
    (h : writeIntent db op = .ok db') : NoNew IsData db db' := by
  unfold writeIntent at h
  split at h
  · cases h
  · rename_i b hb
    simp only [Fallible.bind_eq_ok, Fallible.pure_eq_ok] at h
    obtain ⟨-, -, rfl⟩ := h
    refine .of_ops _ rfl fun k v hmem => ?_
    obtain ⟨userKey, i, rfl, -⟩ := mem_intentOps hmem
    refine not_isData (.inr (.inr ⟨op.txnID ++ ascii [':'] ++ userKey, ?_⟩))
    simp [makeIntentKey]

end OwnState

/-- The edits an operation makes to documents and derived keys: those of a batch, and those of a
resolution. -/
def dataEdits (c : Codec) (db : DBImpl) : RaftOp → List PebbleOp
  | .batch writes deletes transforms syncLevel timestamp =>
    Fallible.getD (contentOps c db (decide (syncLevel = .internalMergeCopy)) timestamp
      (flushWrites c db writes transforms) deletes) []
  | .resolveIntents op => (transactionIntents db op.txnID).flatMap (resolveIntentOps c db op)
  | _ => []

variable {x : Bytes}

theorem get?_flushBatch_of_not_deltaLog (c : Codec) (db : DBImpl) (hdelta : ¬ DeltaLogKey x)
    (writes : List Write) (deletes : List Bytes) (transforms : List Transform)
    (syncLevel : SyncLevel) (timestamp : Nat) :
    (flushBatch c db writes deletes transforms syncLevel timestamp).1.get? x =
      (OrdMap.lastEffect (dataEdits c db (.batch writes deletes transforms syncLevel timestamp))
        x).getD (db.get? x) := by
  unfold flushBatch applyOpBatch
  by_cases hempty : (flushWrites c db writes transforms).isEmpty && deletes.isEmpty
  · rw [if_pos hempty]
    obtain ⟨hw, hd⟩ := Bool.and_eq_true_iff.mp hempty
    simp only [dataEdits, isEmpty_iff.mp hw, isEmpty_iff.mp hd]
    rfl
  · rw [if_neg hempty]
    simp only [dataEdits, batch]
    cases hops : contentOps c db (decide (syncLevel = .internalMergeCopy)) timestamp
        (flushWrites c db writes transforms) deletes with
    | error e => rfl
    | ok ops =>
      have hsame := ((SameContent.of_appendMergeDelta
        (appendSplitDelta (db.applyOps ops)
          (captured db (capturesSplit db) (decide (syncLevel = .internalMergeCopy))
            (flushWrites c db writes transforms) deletes) timestamp)
          (captured db (capturesMerge db) (decide (syncLevel = .internalMergeCopy))
            (flushWrites c db writes transforms) deletes) timestamp).trans
        (SameContent.of_appendSplitDelta (db.applyOps ops) _ timestamp)).content x hdelta
      rw [DBImpl.get?_applyOps] at hsame
      exact hsame

theorem get?_flushBatch (c : Codec) (db : DBImpl) (hx : ¬ OwnRecord x) (writes : List Write)
    (deletes : List Bytes) (transforms : List Transform) (syncLevel : SyncLevel) (timestamp : Nat) :
    (flushBatch c db writes deletes transforms syncLevel timestamp).1.get? x =
      (OrdMap.lastEffect (dataEdits c db (.batch writes deletes transforms syncLevel timestamp))
        x).getD (db.get? x) := by
  have hdelta : ¬ DeltaLogKey x := fun h => hx (.inl h.metadata)
  exact get?_flushBatch_of_not_deltaLog c db hdelta writes deletes transforms syncLevel timestamp

/-- What an operation leaves at a key outside the store's own records: what its edits say, or
nothing. -/
theorem get?_applyOp (c : Codec) (s : StoreDB) (op : RaftOp) (hx : ¬ OwnRecord x) :
    (s.applyOp c op).1.coreDB.get? x =
        (OrdMap.lastEffect (dataEdits c s.coreDB op) x).getD (s.coreDB.get? x) ∨
      dataEdits c s.coreDB op = [] ∧ (s.applyOp c op).1.coreDB.get? x = none := by
  have hframe : dataEdits c s.coreDB op = [] → NoNew IsData s.coreDB (s.applyOp c op).1.coreDB →
      (s.applyOp c op).1.coreDB.get? x =
          (OrdMap.lastEffect (dataEdits c s.coreDB op) x).getD (s.coreDB.get? x) ∨
        dataEdits c s.coreDB op = [] ∧ (s.applyOp c op).1.coreDB.get? x = none := by
    intro hedits h
    cases hv : (s.applyOp c op).1.coreDB.get? x with
    | none => exact .inr ⟨hedits, rfl⟩
    | some v =>
      left
      rw [hedits, h x v hx hv]
      rfl
  cases op with
  | batch writes deletes transforms syncLevel timestamp =>
    exact .inl (get?_flushBatch c s.coreDB hx writes deletes transforms syncLevel timestamp)
  | setRange | split | finalizeSplit | setSplitState | setMergeState | finalizeMerge =>
    exact hframe rfl ((applyOp_keepsData c s rfl).mono fun x v hv hmeta => hv (.inl hmeta.1))
  | initTransaction op now =>
    exact hframe rfl
      (.of_ops _ rfl (.cons_set (not_isData (.inr (.inl (prefix_append _ _)))) .nil))
  | commitTransaction txnID now =>
    apply hframe rfl
    simp only [StoreDB.applyOp]
    split
    · rename_i hcommit
      exact finalizeTransaction_noNewData _ hcommit
    · exact .refl _
  | abortTransaction txnID now =>
    apply hframe rfl
    simp only [StoreDB.applyOp]
    split
    · rename_i habort
      simp only [Antfly.abortTransaction, Fallible.bind_eq_ok] at habort
      obtain ⟨r, hfin, hr⟩ := habort
      cases hr
      exact finalizeTransaction_noNewData _ hfin
    · exact .refl _
  | writeIntent op =>
    apply hframe rfl
    simp only [StoreDB.applyOp]
    split
    · rename_i hwrite
      exact writeIntent_noNewData _ hwrite
    · exact .refl _
  | resolveIntents op => exact .inl (DBImpl.get?_applyOps _ _ _)

/-- The edits set a timestamp key only together with its key, to the timestamp `ts`, and to zero
only if `zero` allows it; when `ts` is not zero they set one for every document and edge they set,
those of `raw` excepted. -/
structure Stamped (ts : Nat) (zero : Prop) (raw : Bytes → Prop) (ops : List PebbleOp) : Prop where
  key_of_stamp : ∀ x v, OrdMap.Edit.set (timestampKey x) v ∈ ops →
    v = .uint64 ts ∧ (ts ≠ 0 ∨ zero) ∧ ∃ w, OrdMap.Edit.set x w ∈ ops
  stamp_of_key : ∀ x w, Reapable x → ¬ raw x → ts ≠ 0 → OrdMap.Edit.set x w ∈ ops →
    OrdMap.Edit.set (timestampKey x) (.uint64 ts) ∈ ops

namespace Stamped

variable {ts : Nat} {zero : Prop} {raw : Bytes → Prop}

theorem nil : Stamped ts zero raw [] where
  key_of_stamp x v h := absurd h (by simp)
  stamp_of_key x w _ _ _ h := absurd h (by simp)

variable {ops : List PebbleOp} {k : Bytes} {v : Stored}

theorem append {ops' : List PebbleOp} (h : Stamped ts zero raw ops)
    (h' : Stamped ts zero raw ops') :
    Stamped ts zero raw (ops ++ ops') := by
  constructor
  · intro x v hmem
    rcases mem_append.mp hmem with hmem | hmem
    · obtain ⟨hv, hts, w, hw⟩ := h.key_of_stamp x v hmem
      exact ⟨hv, hts, w, mem_append_left _ hw⟩
    · obtain ⟨hv, hts, w, hw⟩ := h'.key_of_stamp x v hmem
      exact ⟨hv, hts, w, mem_append_right _ hw⟩
  · intro x w hx hraw hts hmem
    rcases mem_append.mp hmem with hmem | hmem
    · exact mem_append_left _ (h.stamp_of_key x w hx hraw hts hmem)
    · exact mem_append_right _ (h'.stamp_of_key x w hx hraw hts hmem)

theorem flatten {opss : List (List PebbleOp)} (h : ∀ ops ∈ opss, Stamped ts zero raw ops) :
    Stamped ts zero raw opss.flatten := by
  induction opss with
  | nil => exact nil
  | cons ops opss ih =>
    rw [flatten_cons]
    exact (h ops mem_cons_self).append (ih fun o ho => h o (mem_cons_of_mem ops ho))

theorem flatMap {α : Type*} {xs : List α} {f : α → List PebbleOp}
    (h : ∀ x ∈ xs, Stamped ts zero raw (f x)) : Stamped ts zero raw (xs.flatMap f) := by
  rw [flatMap_def]
  refine flatten fun ops hops => ?_
  obtain ⟨x, hx, rfl⟩ := mem_map.mp hops
  exact h x hx

theorem of_no_set (h : ∀ k v, OrdMap.Edit.set k v ∉ ops) :
    Stamped ts zero raw ops where
  key_of_stamp _ v hmem := absurd hmem (h _ v)
  stamp_of_key x w _ _ _ hmem := absurd hmem (h x w)

theorem set_other (hstamp : hasSuffix k transactionSuffix = false)
    (hkey : ¬ (hasSuffix k dbRangeStart = true ∨ hasSuffix k edgeOutSuffix = true) ∨ raw k) :
    Stamped ts zero raw [.set k v] where
  key_of_stamp _ w hmem := by
    cases mem_singleton.mp hmem
    rw [hasSuffix_timestampKey] at hstamp
    cases hstamp
  stamp_of_key x w hx hraw hts hmem := by
    cases mem_singleton.mp hmem
    rcases hkey with hkey | hkey
    · exact absurd hx.2 hkey
    · exact absurd hkey hraw

theorem set_stamped (hstamp : hasSuffix k transactionSuffix = false)
    (htakes : ¬ OwnRecord k → shouldWriteTimestamp k = true) :
    Stamped ts zero raw (.set k v :: timestampOps k ts) where
  key_of_stamp x w hmem := by
    rcases mem_cons.mp hmem with heq | hmem
    · cases heq
      rw [hasSuffix_timestampKey] at hstamp
      cases hstamp
    · unfold timestampOps at hmem
      split at hmem
      · rename_i hpos
        simp only [mem_singleton, OrdMap.Edit.set.injEq] at hmem
        obtain ⟨hkey, rfl⟩ := hmem
        rw [timestampKey_inj hkey]
        have hts : 0 < ts := of_decide_eq_true (Bool.and_eq_true_iff.mp hpos).1
        exact ⟨rfl, .inl (Nat.ne_of_gt hts), v, mem_cons_self⟩
      · cases hmem
  stamp_of_key x w hx hraw hts hmem := by
    rcases mem_cons.mp hmem with heq | hmem
    · cases heq
      have hops : timestampOps k ts = [.set (timestampKey k) (.uint64 ts)] := by
        rw [timestampOps, htakes hx.1, if_pos (by simpa using Nat.pos_of_ne_zero hts)]
      rw [hops]
      exact mem_cons_of_mem _ (mem_singleton.mpr rfl)
    · unfold timestampOps at hmem
      split at hmem
      · cases mem_singleton.mp hmem
        exact absurd hx (not_reapable_timestampKey k)
      · cases hmem

theorem map {xs : List Write} {f : Write → PebbleOp} (h : ∀ w ∈ xs, Stamped ts zero raw [f w]) :
    Stamped ts zero raw (xs.map f) := by
  rw [map_eq_flatMap]
  exact flatMap h

end Stamped

theorem shouldWriteTimestamp_of_pair {k : Bytes} {b : UInt8} (hb : b = 0 ∨ b = 111)
    (hk : ¬ OwnRecord (k ++ [58, b])) : shouldWriteTimestamp (k ++ [58, b]) = true := by
  have hmeta : hasPrefix (k ++ [58, b]) metadataPrefix = false := by
    rw [Bool.eq_false_iff]
    exact fun h => hk (.inl (hasPrefix_iff.mp h))
  have he : hasSuffix (k ++ [58, b]) embeddingSuffix = false := by
    rcases hb with rfl | rfl
    · exact hasSuffix_append_pair k 58 0 58 101
    · exact hasSuffix_append_pair k 58 111 58 101
  have hs : hasSuffix (k ++ [58, b]) summarySuffix = false := by
    rcases hb with rfl | rfl
    · exact hasSuffix_append_pair k 58 0 58 115
    · exact hasSuffix_append_pair k 58 111 58 115
  have hsp : hasSuffix (k ++ [58, b]) sparseSuffix = false := by
    rcases hb with rfl | rfl
    · simp [hasSuffix, List.isSuffixOf, List.isPrefixOf, sparseSuffix, ascii]
    · simp [hasSuffix, List.isSuffixOf, List.isPrefixOf, sparseSuffix, ascii]
  simp [shouldWriteTimestamp, hmeta, he, hs, hsp]

section Ops

open Fallible

variable {c : Codec} {db : DBImpl} {ts : Nat} {zero : Prop} {raw : Bytes → Prop}

/-- A key that ends in an enrichment suffix is neither a timestamp key, a body nor an edge. -/
private theorem set_enrichment (k : Bytes) {a b : UInt8} (v : Stored)
    (hb : b ≠ 116 ∧ b ≠ 0 ∧ b ≠ 111) : Stamped ts zero raw [.set (k ++ [a, b]) v] := by
  obtain ⟨ht, h0, ho⟩ := hb
  refine .set_other ?_ (.inl ?_)
  · refine (hasSuffix_append_pair k a b 58 116).trans ?_
    simp [Ne.symm ht]
  · rintro (h | h)
    · have h' := (hasSuffix_append_pair k a b 58 0).symm.trans h
      simp [Ne.symm h0] at h'
    · have h' := (hasSuffix_append_pair k a b 58 111).symm.trans h
      simp [Ne.symm ho] at h'

variable {sf : SpecialFields} {key : Bytes} {ops : List PebbleOp}

theorem SpecialFields.ops_stamped (h : sf.KeysOf key) : Stamped ts zero raw (sf.ops ts) := by
  refine (((Stamped.map fun w hw => ?_).append (.map fun w hw => ?_)).append
    (.flatMap fun w hw => ?_)).append (.of_no_set fun k v hmem => ?_)
  · obtain ⟨indexName, hdense | hsparse⟩ := h.embeddings w hw
    · rw [rawSet, hdense]
      exact set_enrichment (key ++ indexMarker ++ indexName) (a := 58) (b := 101) _ (by decide)
    · rw [rawSet, hsparse]
      have hshape : makeSparseKey key indexName =
          (key ++ indexMarker ++ indexName ++ [58]) ++ [115, 112] := by
        simp [makeSparseKey, sparseSuffix, ascii]
      rw [hshape]
      exact set_enrichment _ _ (by decide)
  · obtain ⟨indexName, hsummary⟩ := h.summaries w hw
    rw [rawSet, hsummary]
    exact set_enrichment (key ++ indexMarker ++ indexName) (a := 58) (b := 115) _ (by decide)
  · obtain ⟨target, indexName, edgeType, hedge⟩ := h.edges w hw
    rw [rawSet, hedge]
    have hsuffix := hasSuffix_append_pair
      (key ++ indexMarker ++ indexName ++ outMarker ++ edgeType ++ ascii [':'] ++ target) 58 111
    exact .set_stamped (hsuffix 58 116) (shouldWriteTimestamp_of_pair (.inr rfl))
  · obtain ⟨d, -, hd⟩ := mem_map.mp hmem
    cases hd

theorem extractAndWriteSpecialFields_stamped {value : Bytes}
    (h : extractAndWriteSpecialFields c db value key = .ok (some sf)) :
    Stamped ts zero raw (sf.ops ts) := by
  unfold extractAndWriteSpecialFields at h
  split at h
  · cases h
  · simp only [bind_eq_ok, pure_eq_ok] at h
    obtain ⟨sf', hsf, heq⟩ := h
    cases heq
    exact SpecialFields.ops_stamped (extractSpecialFields_keysOf hsf)

theorem documentOps_stamped (key body : Bytes) (ts : Nat) :
    Stamped ts zero raw (documentOps key body ts) :=
  .set_stamped (hasSuffix_append_pair key 58 0 58 116)
    (shouldWriteTimestamp_of_pair (.inl rfl))

theorem storeWriteOps_stamped {kv : Write}
    (hraw : writeKind kv.1 ≠ .document → raw kv.1 ∧ hasSuffix kv.1 transactionSuffix = false)
    (h : storeWriteOps c db ts kv = .ok ops) :
    Stamped ts zero raw ops := by
  unfold storeWriteOps at h
  split at h
  · rename_i hkind
    obtain ⟨hmem, hstamp⟩ := hraw (by rw [hkind]; decide)
    cases h
    split
    · exact .nil
    · exact .set_other hstamp (.inr hmem)
  · rename_i hkind
    obtain ⟨hmem, hstamp⟩ := hraw (by rw [hkind]; decide)
    cases h
    split
    · exact .nil
    · exact .set_other hstamp (.inr hmem)
  · unfold documentWriteOps at h
    split at h
    · cases h
      exact .nil
    · rw [bind_eq_ok] at h
      obtain ⟨extracted, hextracted, h⟩ := h
      split at h
      · cases h
        exact documentOps_stamped _ _ _
      · cases h
        refine (extractAndWriteSpecialFields_stamped hextracted).append ?_
        split
        · exact documentOps_stamped _ _ _
        · exact .nil

theorem contentOps_stamped {bypass : Bool} {writes : List Write} {deletes : List Bytes}
    {ops : List PebbleOp}
    (hraw : ∀ w ∈ writes, writeKind w.1 ≠ .document →
      raw w.1 ∧ hasSuffix w.1 transactionSuffix = false)
    (h : contentOps c db bypass ts writes deletes = .ok ops) : Stamped ts zero raw ops := by
  simp only [contentOps, bind_eq_ok, pure_eq_ok] at h
  obtain ⟨ws, hws, rfl⟩ := h
  refine (Stamped.flatten fun ops hops => ?_).append (.flatMap fun k _ => .of_no_set ?_)
  · obtain ⟨kv, hkv, hops⟩ := exists_of_mem_mapM hws hops
    unfold writeOps at hops
    split at hops
    · exact storeWriteOps_stamped (hraw kv hkv) hops
    · cases hops
      exact .nil
  · intro k' v hmem
    unfold deleteOps at hmem
    split at hmem
    · cases mem_singleton.mp hmem
    · cases hmem

theorem committedIntentOps_stamped (userKey : Bytes) (intent : TxnIntent) (commitVersion : Nat) :
    Stamped commitVersion True raw (committedIntentOps c db userKey intent commitVersion) := by
  unfold committedIntentOps
  split
  · exact .of_no_set fun k v hmem => by cases mem_singleton.mp hmem
  · split
    · have hbody : ∀ body, Stamped commitVersion True raw
          [.set (keyRangeStart userKey) (.zstd body),
          .set (timestampKey (keyRangeStart userKey)) (.uint64 commitVersion)] := by
        intro body
        constructor
        · intro x v hmem
          simp only [mem_cons, not_mem_nil, or_false, OrdMap.Edit.set.injEq] at hmem
          rcases hmem with ⟨hkey, -⟩ | ⟨hkey, rfl⟩
          · have hsuffix := hasSuffix_timestampKey x
            rw [hkey] at hsuffix
            exact absurd ((hasSuffix_append_pair userKey 58 0 58 116).symm.trans hsuffix)
              (by decide)
          · rw [timestampKey_inj hkey]
            exact ⟨rfl, .inr trivial, .zstd body, mem_cons_self⟩
        · intro x w hx _ _ hmem
          simp only [mem_cons, not_mem_nil, or_false, OrdMap.Edit.set.injEq] at hmem
          rcases hmem with ⟨rfl, -⟩ | ⟨rfl, -⟩
          · exact mem_cons_of_mem _ (mem_singleton.mpr rfl)
          · exact absurd hx (not_reapable_timestampKey _)
      unfold committedValueOps
      dsimp only
      split
      · exact hbody _
      · exact hbody _
      · rename_i sf hsf
        rw [append_assoc]
        exact (extractAndWriteSpecialFields_stamped hsf).append (hbody _)
    · exact .nil

theorem resolveIntents_stamped (op : ResolveIntentsOp) :
    Stamped op.commitVersion True raw
      ((transactionIntents db op.txnID).flatMap (resolveIntentOps c db op)) := by
  refine .flatMap fun e _ => ?_
  unfold resolveIntentOps
  split
  · refine Stamped.append ?_ (.of_no_set fun k v hmem => by cases mem_singleton.mp hmem)
    split
    · exact committedIntentOps_stamped _ _ _
    · exact .nil
  · exact .nil

end Ops

end Antfly
