import Antfly.Store.Resolution

/-!
A set of writes and deletes reaches a shard either as one `DBImpl.Batch` or as the intents of a
transaction that are resolved later.  The two paths store bodies, timestamps and special fields
with code of their own.  They differ in what they check: a batch tests the ownership of every key,
captures the mutations of a running split or merge, rejects special fields it cannot extract,
skips values that are not JSON objects and stores no body for a document of special fields only;
a resolution does none of this.
-/

namespace Antfly

open List OrdMap Fallible

def BatchOp.ids (b : BatchOp) : List Bytes := b.writes.map Prod.fst ++ b.deletes

variable {b : BatchOp} {w : Write} {u k x : Bytes}

theorem BatchOp.mem_ids_of_write (hw : w ∈ b.writes) : w.1 ∈ b.ids :=
  mem_append_left _ (mem_map_of_mem hw)

theorem BatchOp.mem_ids_of_delete (hu : u ∈ b.deletes) : u ∈ b.ids :=
  mem_append_right _ hu

/-- Writes and deletes as clients send them: ordinary ids, each written once, and no written id
that continues another one in a way its derived keys do. -/
structure OrdinaryBatch (b : BatchOp) : Prop where
  ids : ∀ k ∈ b.ids, UserKey k
  nodup : (b.writes.map Prod.fst).Nodup
  derived : ∀ w ∈ b.writes, ∀ w' ∈ b.writes, w.1 ≠ w'.1 →
    ¬ w.1 ++ indexMarker <+: w'.1 ++ indexMarker
  separator : ∀ w ∈ b.writes, w.1 ++ ascii [':'] ∉ b.deletes

/-- A document key of `k` that continues `k'` by the index marker makes `k` itself do so. -/
private theorem derived_of_documentKey {k' : Bytes} (hx : IsDocumentKey k x)
    (hpre : k' ++ indexMarker <+: x) :
    k' ++ indexMarker <+: k ++ indexMarker := by
  obtain ⟨r, hr, rfl⟩ : ∃ r, (r = [58, 0] ∨ r = [58, 0, 58, 116]) ∧ x = k ++ r := by
    rcases hx with rfl | rfl
    · exact ⟨_, .inl rfl, rfl⟩
    · exact ⟨_, .inr rfl, documentTimestampKey_eq k⟩
  rcases le_or_gt (k' ++ indexMarker).length k.length with hlen | hlen
  · exact (prefix_of_prefix_length_le hpre (prefix_append k r) hlen).trans
      (prefix_append k indexMarker)
  · -- The marker ends inside the suffix of the document key, right after its first byte.
    obtain ⟨s, hs⟩ := prefix_of_prefix_length_le (prefix_append k r) hpre (le_of_lt hlen)
    have hsr : s <+: r := by
      rw [← hs, prefix_append_right_inj] at hpre
      exact hpre
    have hmarker : k' ++ [58, 105] ++ [58] = k ++ s := by
      rw [hs]
      simp [indexMarker, ascii]
    have hs' : s = [58] := by
      have hcases : s ∈ [58, 0, 58, 116].inits := by
        rw [mem_inits]
        rcases hr with rfl | rfl
        · exact hsr.trans ⟨[58, 116], rfl⟩
        · exact hsr
      simp only [List.inits, map_cons, map_nil, mem_cons, not_mem_nil,
        or_false] at hcases
      rcases hcases with rfl | rfl | rfl | rfl | rfl
      · simp only [append_nil] at hs
        rw [hs] at hlen
        exact absurd hlen (lt_irrefl _)
      · rfl
      · have hlast := congrArg List.getLast? hmarker
        simp at hlast
      · have hlast := congrArg (fun l => l.dropLast.getLast?) hmarker
        simp at hlast
      · have hlast := congrArg List.getLast? hmarker
        simp at hlast
    rw [hs'] at hmarker
    have hk : k' ++ [58, 105] = k := append_cancel_right hmarker
    rw [← hk]
    exact ⟨[105, 58], by simp [indexMarker, ascii]⟩

theorem TouchedBy.unique (hb : OrdinaryBatch b) {w' : Write} (hw : w ∈ b.writes)
    (hw' : w' ∈ b.writes) (h : TouchedBy w.1 x) (h' : TouchedBy w'.1 x) :
    w = w' := by
  by_contra hne
  have hids : w.1 ≠ w'.1 := fun heq => hne (inj_on_of_nodup_map hb.nodup hw hw' heq)
  rcases h with h | h
  · rcases h' with h' | h'
    · rcases h with rfl | rfl
      · rcases h' with h' | h'
        · exact hids (keyRangeStart_inj.mp h')
        · exact keyRangeStart_ne_timestampKey _ _ h'
      · rcases h' with h' | h'
        · exact keyRangeStart_ne_timestampKey _ _ h'.symm
        · exact hids (documentTimestampKey_inj.mp h')
    · exact hb.derived w' hw' w hw hids.symm (derived_of_documentKey h h')
  · rcases h' with h' | h'
    · exact hb.derived w hw w' hw' hids (derived_of_documentKey h' h)
    · rcases le_total (w.1 ++ indexMarker).length (w'.1 ++ indexMarker).length with hlen | hlen
      · exact hb.derived w hw w' hw' hids (prefix_of_prefix_length_le h h' hlen)
      · exact hb.derived w' hw' w hw hids.symm (prefix_of_prefix_length_le h' h hlen)

theorem covers_of_covers_touched (h : TouchedBy k x) (hlt : u < k)
    (hcov : u ≤ x ∧ x < prefixSuccessor (keyRangeEnd u)) :
    Covers u k := by
  obtain ⟨r, rfl⟩ := h.eq_append
  obtain ⟨s, hs, hs'⟩ := mem_deleteRange_iff.mp hcov
  have hpre : u <+: k := by
    have hu : u <+: k ++ 58 :: r := ⟨s, hs.symm⟩
    rcases le_total u.length k.length with hlen | hlen
    · exact prefix_of_prefix_length_le hu (prefix_append k _) hlen
    · have hk : k <+: u := prefix_of_prefix_length_le (prefix_append k _) hu hlen
      exact absurd hlt (not_lt.mpr (Lex.le_of_prefix hk))
  obtain ⟨t, rfl⟩ := hpre
  rw [append_assoc, append_right_inj] at hs
  subst hs
  refine mem_deleteRange_iff.mpr ⟨t ++ dbRangeStart, by simp [keyRangeStart], ?_⟩
  cases t with
  | nil => exact absurd hlt (by simp)
  | cons a t =>
    rcases Lex.lt_singleton_iff.mp hs' with h | ⟨a', t', heq, ha⟩
    · cases h
    · cases heq
      exact List.Lex.rel ha

section Write

variable {c : Codec} {db db' : DBImpl}

/-- A value a batch stores as a document: a JSON object whose special fields can be extracted and
that has other fields too. -/
def Storable (c : Codec) (db : DBImpl) (w : Write) : Prop :=
  hasPrefix w.2 (ascii ['\x7b']) = true ∧
    ∃ r, extractAndWriteSpecialFields c db w.2 w.1 = .ok r ∧
      ∀ sf, r = some sf → sf.hasNonSpecialFields = true

variable {v : ℕ} {w : Write}

theorem timestampOps_document {k : Bytes} (hk : UserKey k) (hv : 0 < v) :
    timestampOps (keyRangeStart k) v = [.set (documentTimestampKey k) (.uint64 v)] := by
  have hmeta : hasPrefix (keyRangeStart k) metadataPrefix = false := by
    rw [← Bool.not_eq_true, hasPrefix_iff]
    rintro ⟨r, hr⟩
    exact hk.head_append dbRangeStart (by
      rw [← keyRangeStart, ← hr]
      rfl)
  have hsuffix : ∀ s : Bytes, s.getLast? ≠ some 0 → s ≠ [] →
      hasSuffix (keyRangeStart k) s = false := by
    intro s hlast hne
    rw [← Bool.not_eq_true, hasSuffix_iff]
    rintro ⟨r, hr⟩
    have heq := congrArg List.getLast? hr
    rw [getLast?_append_of_ne_nil r hne, keyRangeStart_eq] at heq
    exact hlast (by simpa using heq)
  unfold timestampOps shouldWriteTimestamp
  rw [hmeta, hsuffix embeddingSuffix (by decide) (by decide),
    hsuffix summarySuffix (by decide) (by decide), hsuffix sparseSuffix (by decide) (by decide)]
  simp [hv, documentTimestampKey]

theorem documentWriteOps_of_storable (hk : UserKey w.1) (hv : 0 < v) (h : Storable c db w) :
    documentWriteOps c db v w = .ok (committedValueOps c db w.1 w.2 v) := by
  obtain ⟨hobj, r, hr, hfields⟩ := h
  unfold documentWriteOps committedValueOps documentOps
  rw [hobj, hr, timestampOps_document hk hv]
  cases r with
  | none => rfl
  | some sf =>
    have hbody : sf.hasNonSpecialFields = true := hfields sf rfl
    simp [bind, Except.bind, pure, Except.pure, hbody, documentTimestampKey]

theorem storable_of_timestamp {ops : List PebbleOp} (hk : UserKey w.1)
    (h : documentWriteOps c db v w = .ok ops)
    (hts : OrdMap.lastEffect ops (documentTimestampKey w.1) ≠ none) :
    Storable c db w := by
  unfold documentWriteOps at h
  split at h
  · cases h
    exact absurd rfl hts
  · rename_i hobj
    rw [bind_eq_ok] at h
    obtain ⟨r, hr, h⟩ := h
    refine ⟨by simpa using hobj, r, hr, ?_⟩
    rintro sf rfl
    by_contra hno
    cases h
    refine hts (lastEffect_eq_none_iff.mpr fun o ho => ?_)
    rw [if_neg hno, append_nil] at ho
    exact hk.specialFields_untouched (.inr rfl) (extractAndWrite_keysOf hr) v o ho

end Write

/-- Whether the batch carries the sync level that bypasses ownership checks. -/
def BatchOp.bypasses (b : BatchOp) : Bool := b.syncLevel = .internalMergeCopy

/-- Two stores with the same content, ranges and delta counters. -/
structure SameShard (db db' : DBImpl) : Prop where
  content : ∀ x, db.get? x = db'.get? x
  config : db.config = db'.config
  splitDeltaSeq : db.splitDeltaSeq = db'.splitDeltaSeq
  mergeDeltaSeq : db.mergeDeltaSeq = db'.mergeDeltaSeq

/-- Resolving the intents of `b` as committed, which applies every one of them, is what a batch
with the same writes and deletes does: the batch applies every key too, succeeds, and leaves the
same shard. -/
def CommitEqualsBatch (c : Codec) (db db₁ : DBImpl) (t : Bytes) (b : BatchOp) (v : ℕ) : Prop :=
  (∀ k ∈ b.ids, appliesKey db b.bypasses k = true) ∧
    ∃ db₂, batch c db b.writes b.deletes b.syncLevel v = .ok db₂ ∧
      SameShard (resolveIntents c db₁ ⟨t, .committed, v⟩) db₂

/-- What a batch checks and a resolution does not. -/
structure PassesBatchChecks (c : Codec) (db : DBImpl) (b : BatchOp) : Prop where
  owned : ∀ k ∈ b.ids, appliesKey db b.bypasses k = true
  uncaptured : ∀ k ∈ b.ids, capturesSplit db k = false ∧ capturesMerge db k = false
  extracted : ∀ w ∈ b.writes, hasPrefix w.2 (ascii ['\x7b']) = true →
    ∃ r, extractAndWriteSpecialFields c db w.2 w.1 = .ok r
  stored : ∀ w ∈ b.writes, w.1 ∉ b.deletes → w.2 ≠ [] →
    Storable c db w ∧ ∀ u ∈ b.deletes, ¬ Covers u w.1

section Paths

variable {c : Codec} {db : DBImpl} {b : BatchOp} {v : ℕ}

theorem exists_documentWriteOps_iff (w : Write) :
    (∃ ops, documentWriteOps c db v w = .ok ops) ↔
      (hasPrefix w.2 (ascii ['\x7b']) = true →
        ∃ r, extractAndWriteSpecialFields c db w.2 w.1 = .ok r) := by
  unfold documentWriteOps
  cases hobj : hasPrefix w.2 (ascii ['\x7b']) with
  | false => simp
  | true =>
    cases hr : extractAndWriteSpecialFields c db w.2 w.1 with
    | error e => simp [bind, Except.bind]
    | ok r => cases r <;> simp [bind, Except.bind, pure, Except.pure]

theorem contentOps_of_owned (hb : OrdinaryBatch b)
    (hown : ∀ k ∈ b.ids, appliesKey db b.bypasses k = true) :
    contentOps c db b.bypasses v b.writes b.deletes = (do
      let ws ← b.writes.mapM (documentWriteOps c db v)
      return ws.flatten ++ b.deletes.map deleteTombstone) := by
  have hwrites : b.writes.mapM (writeOps c db b.bypasses v) =
      b.writes.mapM (documentWriteOps c db v) := by
    refine mapM_congr fun w hw => ?_
    have hid := BatchOp.mem_ids_of_write hw
    simp [writeOps, hown w.1 hid, storeWriteOps, writeKind_of_accepted (hb.ids w.1 hid).accepted]
  have hdeletes : b.deletes.flatMap (deleteOps db b.bypasses) =
      b.deletes.map deleteTombstone := by
    rw [← flatMap_pure_eq_map]
    refine flatMap_congr fun u hu => ?_
    rw [deleteOps, if_pos (hown u (BatchOp.mem_ids_of_delete hu))]
    rfl
  rw [contentOps, hwrites, hdeletes]

def batchWriteOps (c : Codec) (db : DBImpl) (b : BatchOp) (v : ℕ) : List PebbleOp :=
  b.writes.flatMap fun w => Fallible.getD (documentWriteOps c db v w) []

theorem batch_of_owned (hb : OrdinaryBatch b)
    (hown : ∀ k ∈ b.ids, appliesKey db b.bypasses k = true) {db₂ : DBImpl}
    (h : batch c db b.writes b.deletes b.syncLevel v = .ok db₂) :
    (∀ w ∈ b.writes, ∃ ops, documentWriteOps c db v w = .ok ops) ∧
      db₂ = appendMergeDelta (appendSplitDelta
        (db.applyOps (batchWriteOps c db b v ++ b.deletes.map deleteTombstone))
        (captured db (capturesSplit db) b.bypasses b.writes b.deletes) v)
        (captured db (capturesMerge db) b.bypasses b.writes b.deletes) v := by
  simp only [batch, bind_eq_ok, pure_eq_ok] at h
  obtain ⟨ops, hops, rfl⟩ := h
  change contentOps c db b.bypasses v b.writes b.deletes = .ok ops at hops
  rw [contentOps_of_owned hb hown] at hops
  simp only [bind_eq_ok, pure_eq_ok] at hops
  obtain ⟨ws, hws, rfl⟩ := hops
  refine ⟨exists_mapM_ok_iff.mp ⟨ws, hws⟩, ?_⟩
  rw [flatten_of_mapM hws]
  rfl

theorem captured_eq_nil_iff (capture : Bytes → Bool)
    (hown : ∀ k ∈ b.ids, appliesKey db b.bypasses k = true) :
    ((captured db capture b.bypasses b.writes b.deletes).1.isEmpty &&
      (captured db capture b.bypasses b.writes b.deletes).2.isEmpty) = true ↔
      ∀ k ∈ b.ids, capture k = false := by
  simp only [captured, Bool.and_eq_true, List.isEmpty_iff, List.filter_eq_nil_iff, BatchOp.ids,
    mem_append, mem_map]
  constructor
  · rintro ⟨hwrites, hdeletes⟩ k (⟨w, hw, rfl⟩ | hk)
    · simpa [hown w.1 (BatchOp.mem_ids_of_write hw)] using hwrites w hw
    · simpa [hown k (BatchOp.mem_ids_of_delete hk)] using hdeletes k hk
  · intro h
    refine ⟨fun w hw => ?_, fun k hk => ?_⟩
    · simp [h w.1 (.inl ⟨w, hw, rfl⟩)]
    · simp [h k (.inr hk)]

variable {entry : List Write × List Bytes} {x k : Bytes} {w : Write}

theorem appendSplitDelta_seq_iff :
    (appendSplitDelta db entry v).splitDeltaSeq = db.splitDeltaSeq ↔
      (entry.1.isEmpty && entry.2.isEmpty) = true := by
  unfold appendSplitDelta
  split
  · simp [*]
  · simp [*]

theorem appendMergeDelta_seq_iff :
    (appendMergeDelta db entry v).mergeDeltaSeq = db.mergeDeltaSeq ↔
      (entry.1.isEmpty && entry.2.isEmpty) = true := by
  unfold appendMergeDelta
  split
  · simp [*]
  · simp [*]

theorem splitDeltaSeq_appendMergeDelta (entry : List Write × List Bytes) :
    (appendMergeDelta db entry v).splitDeltaSeq = db.splitDeltaSeq := by
  unfold appendMergeDelta
  split <;> rfl

theorem mergeDeltaSeq_appendSplitDelta (entry : List Write × List Bytes) :
    (appendSplitDelta db entry v).mergeDeltaSeq = db.mergeDeltaSeq := by
  unfold appendSplitDelta
  split <;> rfl

/-- The tombstones of the batch cover `x`. -/
def BatchOp.Deletes (b : BatchOp) (x : Bytes) : Prop :=
  ∃ u ∈ b.deletes, u ≤ x ∧ x < prefixSuccessor (keyRangeEnd u)

theorem get?_batchOps_deleted (h : b.Deletes x) :
    (db.applyOps (batchWriteOps c db b v ++ b.deletes.map deleteTombstone)).get? x = none := by
  obtain ⟨u, hu, hcov⟩ := h
  have hlast : OrdMap.lastEffect (b.deletes.map deleteTombstone) x = some none := by
    refine lastEffect_eq_absent ⟨_, mem_map_of_mem hu, if_pos hcov⟩ fun o ho => ?_
    obtain ⟨u', -, rfl⟩ := mem_map.mp ho
    simp only [deleteTombstone, OrdMap.Edit.effect]
    split
    · exact .inr rfl
    · exact .inl rfl
  rw [DBImpl.get?_applyOps, lastEffect_append, hlast]
  rfl

private theorem lastEffect_tombstones_of_not_deleted (h : ¬ b.Deletes x) :
    OrdMap.lastEffect (b.deletes.map deleteTombstone) x = none := by
  rw [lastEffect_eq_none_iff]
  intro o ho
  obtain ⟨u, hu, rfl⟩ := mem_map.mp ho
  exact if_neg fun hcov => h ⟨u, hu, hcov⟩

theorem get?_batchOps_written (hb : OrdinaryBatch b) (h : ¬ b.Deletes x) (hw : w ∈ b.writes)
    (hx : TouchedBy w.1 x) {ops : List PebbleOp} (hops : documentWriteOps c db v w = .ok ops) :
    (db.applyOps (batchWriteOps c db b v ++ b.deletes.map deleteTombstone)).get? x =
      (OrdMap.lastEffect ops x).getD (db.get? x) := by
  rw [DBImpl.get?_applyOps, lastEffect_append, lastEffect_tombstones_of_not_deleted h,
    Option.none_or, batchWriteOps, lastEffect_flatMap_of_unique hw, hops, getD_ok]
  intro w' hw' hne o ho
  cases hops' : documentWriteOps c db v w' with
  | error e =>
    rw [hops'] at ho
    cases ho
  | ok ops' =>
    rw [hops', getD_ok] at ho
    exact documentWriteOps_not_touched (fun hx' => hne (TouchedBy.unique hb hw' hw hx' hx)) hops'
      o ho

theorem get?_batchOps_untouched (h : ¬ b.Deletes x) (hno : ∀ w ∈ b.writes, ¬ TouchedBy w.1 x) :
    (db.applyOps (batchWriteOps c db b v ++ b.deletes.map deleteTombstone)).get? x =
      db.get? x := by
  have hwrites : OrdMap.lastEffect (batchWriteOps c db b v) x = none := by
    rw [lastEffect_eq_none_iff]
    intro o ho
    obtain ⟨w, hw, ho⟩ := mem_flatMap.mp ho
    cases hops : documentWriteOps c db v w with
    | error e =>
      rw [hops] at ho
      cases ho
    | ok ops =>
      rw [hops, getD_ok] at ho
      exact documentWriteOps_not_touched (hno w hw) hops o ho
  rw [DBImpl.get?_applyOps, lastEffect_append, lastEffect_tombstones_of_not_deleted h,
    hwrites]
  rfl

/-- The transaction's intent keys are free. -/
def NoIntentKeys (db : DBImpl) (t : Bytes) : Prop := ∀ u, db.get? (makeIntentKey t u) = none

variable {op : WriteIntentOp}

theorem docState_intentOps (hk : UserKey k) :
    docState (db.applyOps (intentOps op b)) k = docState db k :=
  docState_eq fun _ hx => get?_intentOps_of_ne db op b (hk.ne_intentKey hx.prefix op.txnID)

theorem committedValueOps_intentOps {k value : Bytes} (hk : UserKey k) :
    committedValueOps c (db.applyOps (intentOps op b)) k value v =
      committedValueOps c db k value v := by
  have hext : extractAndWriteSpecialFields c (db.applyOps (intentOps op b)) value k =
      extractAndWriteSpecialFields c db value k :=
    extractAndWriteSpecialFields_congr rfl fun x hx =>
      have hpre : k <+: x := (prefix_append k indexMarker).trans hx
      get?_intentOps_of_ne db op b (hk.ne_intentKey hpre op.txnID)
  unfold committedValueOps
  rw [hext]

theorem intentOn_fresh (ht : op.txnID.length = uuidLen) (hfresh : NoIntentKeys db op.txnID)
    {u : Bytes} {i : TxnIntent} (h : IntentOn (db.applyOps (intentOps op b)) op.txnID u i) :
    (u ∈ b.deletes ∧ i = pendingIntent op [] true) ∨
      (u ∉ b.deletes ∧ ∃ w ∈ b.writes, w.1 = u ∧ i = pendingIntent op w.2 false) := by
  rcases intentOn_intentOps ht h with h | h | h
  · exact .inl h
  · exact .inr h
  · rw [IntentOn, hfresh u] at h
    cases h

theorem ordinaryIntents_fresh (hb : OrdinaryBatch b) (ht : op.txnID.length = uuidLen)
    (hfresh : NoIntentKeys db op.txnID) :
    OrdinaryIntents (db.applyOps (intentOps op b)) op.txnID := by
  intro u i h
  rcases intentOn_fresh ht hfresh h with ⟨hu, -⟩ | ⟨-, w, hw, rfl, -⟩
  · exact hb.ids u (BatchOp.mem_ids_of_delete hu)
  · exact hb.ids w.1 (BatchOp.mem_ids_of_write hw)

theorem committedIntentOps_fresh (hb : OrdinaryBatch b) (hw : w ∈ b.writes)
    (hnewer : (docState db w.1).version c < WithBot.some v) :
    committedIntentOps c (db.applyOps (intentOps op b)) w.1 (pendingIntent op w.2 false) v =
      if w.2 = [] then [] else committedValueOps c db w.1 w.2 v := by
  have hk := hb.ids w.1 (BatchOp.mem_ids_of_write hw)
  by_cases hval : w.2 = []
  · rw [if_pos hval]
    simp [committedIntentOps, pendingIntent, hval]
  · rw [if_neg hval, committedIntentOps_of_write rfl hval]
    · exact committedValueOps_intentOps hk
    · rw [docState_intentOps hk]
      exact hnewer

/-- The store after the intents of `b` were written and resolved as committed. -/
def committedStore (c : Codec) (db : DBImpl) (op : WriteIntentOp) (b : BatchOp) (v : ℕ) : DBImpl :=
  resolveIntents c (db.applyOps (intentOps op b)) ⟨op.txnID, .committed, v⟩

section Committed

variable (hb : OrdinaryBatch b) (ht : op.txnID.length = uuidLen) (hfresh : NoIntentKeys db op.txnID)
  (hnewer : ∀ w ∈ b.writes, (docState db w.1).version c < WithBot.some v)

include hb ht hfresh hnewer

variable {x : Bytes}

theorem get?_committedStore_deleted (hx : ∀ u, x ≠ makeIntentKey op.txnID u) (h : b.Deletes x)
    (hno : ∀ w ∈ b.writes, w.1 ∉ b.deletes → w.2 ≠ [] → ∀ u ∈ b.deletes, ¬ Covers u w.1) :
    (committedStore c db op b v).get? x = none := by
  obtain ⟨u, hu, hcov⟩ := h
  refine get?_resolveIntents_deleted ht rfl hx (intentOn_of_mem_deletes ht hu) rfl hcov ?_
  intro u' i' hon hwrite hlt o ho
  rcases intentOn_fresh ht hfresh hon with ⟨-, rfl⟩ | ⟨hu', w, hw, rfl, rfl⟩
  · cases hwrite
  · rw [committedIntentOps_fresh hb hw (hnewer w hw)] at ho
    split at ho
    · cases ho
    · rename_i hval
      refine committedValueOps_not_touched (fun htouch => ?_) o ho
      exact hno w hw hu' hval u hu (covers_of_covers_touched htouch hlt hcov)

theorem get?_committedStore_written (hx : ∀ u, x ≠ makeIntentKey op.txnID u) (h : ¬ b.Deletes x)
    {w : Write} (hw : w ∈ b.writes) (hu : w.1 ∉ b.deletes) (htouch : TouchedBy w.1 x) :
    (committedStore c db op b v).get? x =
      (OrdMap.lastEffect (if w.2 = [] then [] else committedValueOps c db w.1 w.2 v) x).getD
        (db.get? x) := by
  have hothers : ∀ u' i', IntentOn (db.applyOps (intentOps op b)) op.txnID u' i' → u' ≠ w.1 →
      ∀ o ∈ committedIntentOps c (db.applyOps (intentOps op b)) u' i' v, o.effect x = none := by
    intro u' i' hon hne o ho
    rcases intentOn_fresh ht hfresh hon with ⟨hu', rfl⟩ | ⟨-, w', hw', rfl, rfl⟩
    · rw [committedIntentOps_of_delete rfl] at ho
      obtain rfl := mem_singleton.mp ho
      exact if_neg fun hcov => h ⟨u', hu', hcov⟩
    · rw [committedIntentOps_fresh hb hw' (hnewer w' hw')] at ho
      split at ho
      · cases ho
      · refine committedValueOps_not_touched (fun htouch' => ?_) o ho
        exact hne (by rw [TouchedBy.unique hb hw' hw htouch' htouch])
  have hon : IntentOn (db.applyOps (intentOps op b)) op.txnID w.1 (pendingIntent op w.2 false) :=
    intentOn_of_mem_writes ht hb.nodup hw hu
  have hops : committedIntentOps c (db.applyOps (intentOps op b)) w.1 (pendingIntent op w.2 false) v =
      if w.2 = [] then [] else committedValueOps c db w.1 w.2 v :=
    committedIntentOps_fresh hb hw (hnewer w hw)
  rw [← hops]
  cases hlast : OrdMap.lastEffect (committedIntentOps c (db.applyOps (intentOps op b)) w.1
      (pendingIntent op w.2 false) v) x with
  | some o =>
    refine get?_resolveIntents_decided ht rfl hx hon hlast fun u' i' hon' hlt => ?_
    exact hothers u' i' hon' hlt.ne'
  | none =>
    rw [lastEffect_eq_none_iff] at hlast
    refine (get?_resolveIntents_untouched ht hx fun u' i' hon' => ?_).trans
      (get?_intentOps_of_ne db op b hx)
    by_cases heq : u' = w.1
    · subst heq
      rw [hon'.unique hon]
      exact hlast
    · exact hothers u' i' hon' heq

theorem get?_committedStore_untouched (hx : ∀ u, x ≠ makeIntentKey op.txnID u) (h : ¬ b.Deletes x)
    (hno : ∀ w ∈ b.writes, ¬ TouchedBy w.1 x) :
    (committedStore c db op b v).get? x = db.get? x := by
  refine (get?_resolveIntents_untouched ht hx fun u i hon o ho => ?_).trans
    (get?_intentOps_of_ne db op b hx)
  rcases intentOn_fresh ht hfresh hon with ⟨hu, rfl⟩ | ⟨-, w, hw, rfl, rfl⟩
  · rw [committedIntentOps_of_delete rfl] at ho
    obtain rfl := mem_singleton.mp ho
    exact if_neg fun hcov => h ⟨u, hu, hcov⟩
  · rw [committedIntentOps_fresh hb hw (hnewer w hw)] at ho
    split at ho
    · cases ho
    · exact committedValueOps_not_touched (hno w hw) o ho

end Committed

theorem deletes_of_touched {k x : Bytes} (hk : k ∈ b.deletes) (h : TouchedBy k x) : b.Deletes x := by
  obtain ⟨r, rfl⟩ := h.eq_append
  exact ⟨k, hk, mem_deleteRange_colon k r⟩

theorem eq_append_colon_of_covers {u k : Bytes} (hu : UserKey u) (hlt : k < u) (h : Covers u k) :
    u = k ++ ascii [':'] := by
  obtain ⟨s, hs, -⟩ := mem_deleteRange_iff.mp h
  have hpre : u <+: k ++ [58, 0] := ⟨s, hs.symm⟩
  have hku : k <+: u := by
    rcases le_total k.length u.length with hlen | hlen
    · exact prefix_of_prefix_length_le (prefix_append k _) hpre hlen
    · have huk : u <+: k := prefix_of_prefix_length_le hpre (prefix_append k _) hlen
      exact absurd hlt (not_lt.mpr (Lex.le_of_prefix huk))
  obtain ⟨r, rfl⟩ := hku
  rw [prefix_append_right_inj] at hpre
  have hcases : r ∈ [58, 0].inits := (mem_inits _ _).mpr hpre
  simp only [List.inits, map_cons, map_nil, mem_cons, not_mem_nil,
    or_false] at hcases
  rcases hcases with rfl | rfl | rfl
  · simp at hlt
  · rfl
  · exact absurd ⟨k, [], by simp⟩ hu.not_contains_dbRangeStart

theorem content_committedStore (hb : OrdinaryBatch b) (ht : op.txnID.length = uuidLen)
    (hfresh : NoIntentKeys db op.txnID)
    (hnewer : ∀ w ∈ b.writes, (docState db w.1).version c < WithBot.some v) (hv : 0 < v)
    (hchecks : PassesBatchChecks c db b) (x : Bytes) :
    (committedStore c db op b v).get? x =
      (db.applyOps (batchWriteOps c db b v ++ b.deletes.map deleteTombstone)).get? x := by
  have hords := ordinaryIntents_fresh hb ht hfresh
  by_cases hx : ∃ u, x = makeIntentKey op.txnID u
  · -- Intent keys: the resolution has removed them, and the batch never touches them.
    obtain ⟨u, rfl⟩ := hx
    have hdeletes : ¬ b.Deletes (makeIntentKey op.txnID u) := by
      rintro ⟨u', hu', hcov⟩
      obtain ⟨s, hs, -⟩ := mem_deleteRange_iff.mp hcov
      exact (hb.ids u' (BatchOp.mem_ids_of_delete hu')).ne_intentKey ⟨s, hs.symm⟩ op.txnID u rfl
    have hwrites : ∀ w ∈ b.writes, ¬ TouchedBy w.1 (makeIntentKey op.txnID u) := fun w hw htouch =>
      (hb.ids w.1 (BatchOp.mem_ids_of_write hw)).ne_intentKey htouch.prefix op.txnID u rfl
    rw [get?_batchOps_untouched hdeletes hwrites, hfresh u]
    refine get?_resolveIntents_intentKey ht hords ?_
    rcases hget : (db.applyOps (intentOps op b)).get? (makeIntentKey op.txnID u) with _ | s
    · exact .inl rfl
    · right
      rcases get?_applyOps_cases hget with hmem | hold
      · obtain ⟨-, i, -, rfl⟩ := mem_intentOps hmem
        exact ⟨i, hget⟩
      · rw [hfresh u] at hold
        cases hold
  · rw [not_exists] at hx
    by_cases hdel : b.Deletes x
    · rw [get?_batchOps_deleted hdel]
      exact get?_committedStore_deleted hb ht hfresh hnewer hx hdel
        fun w hw hu hval => (hchecks.stored w hw hu hval).2
    · by_cases htouch : ∃ w ∈ b.writes, TouchedBy w.1 x
      · obtain ⟨w, hw, htouch⟩ := htouch
        have hu : w.1 ∉ b.deletes := fun hu => hdel (deletes_of_touched hu htouch)
        obtain ⟨ops, hops⟩ := (exists_documentWriteOps_iff (v := v) w).mpr (hchecks.extracted w hw)
        rw [get?_batchOps_written hb hdel hw htouch hops,
          get?_committedStore_written hb ht hfresh hnewer hx hdel hw hu htouch]
        split
        · rename_i hval
          have hnone : ops = [] := by
            rw [documentWriteOps, hval] at hops
            exact (Except.ok.inj hops).symm
          rw [hnone]
        · rename_i hval
          have hstore := (hchecks.stored w hw hu hval).1
          rw [documentWriteOps_of_storable (hb.ids w.1 (BatchOp.mem_ids_of_write hw)) hv hstore]
            at hops
          rw [Except.ok.inj hops]
      · rw [not_exists] at htouch
        have hno : ∀ w ∈ b.writes, ¬ TouchedBy w.1 x := fun w hw h => htouch w ⟨hw, h⟩
        rw [get?_batchOps_untouched hdel hno,
          get?_committedStore_untouched hb ht hfresh hnewer hx hdel hno]

theorem uncaptured_iff (hown : ∀ k ∈ b.ids, appliesKey db b.bypasses k = true) (d : DBImpl) :
    ((appendMergeDelta (appendSplitDelta d
          (captured db (capturesSplit db) b.bypasses b.writes b.deletes) v)
          (captured db (capturesMerge db) b.bypasses b.writes b.deletes) v).splitDeltaSeq =
        d.splitDeltaSeq ∧
      (appendMergeDelta (appendSplitDelta d
          (captured db (capturesSplit db) b.bypasses b.writes b.deletes) v)
          (captured db (capturesMerge db) b.bypasses b.writes b.deletes) v).mergeDeltaSeq =
        d.mergeDeltaSeq) ↔
      ∀ k ∈ b.ids, capturesSplit db k = false ∧ capturesMerge db k = false := by
  rw [splitDeltaSeq_appendMergeDelta, appendSplitDelta_seq_iff, captured_eq_nil_iff _ hown]
  have hseq : (appendSplitDelta d (captured db (capturesSplit db) b.bypasses b.writes b.deletes)
      v).mergeDeltaSeq = d.mergeDeltaSeq := mergeDeltaSeq_appendSplitDelta _
  rw [← hseq]
  rw [appendMergeDelta_seq_iff, captured_eq_nil_iff _ hown]
  exact ⟨fun h k hk => ⟨h.1 k hk, h.2 k hk⟩, fun h => ⟨fun k hk => (h k hk).1, fun k hk => (h k hk).2⟩⟩

/-- A committed value the batch would not have stored shows in the timestamp of its document. -/
theorem stored_of_sameContent (hb : OrdinaryBatch b) (ht : op.txnID.length = uuidLen)
    (hfresh : NoIntentKeys db op.txnID)
    (hnewer : ∀ w ∈ b.writes, (docState db w.1).version c < WithBot.some v)
    (hok : ∀ w ∈ b.writes, ∃ ops, documentWriteOps c db v w = .ok ops)
    (hsame : ∀ k, docState (committedStore c db op b v) k =
      docState (db.applyOps (batchWriteOps c db b v ++ b.deletes.map deleteTombstone)) k)
    {w : Write} (hw : w ∈ b.writes) (hu : w.1 ∉ b.deletes) (hval : w.2 ≠ []) :
    Storable c db w ∧ ∀ u ∈ b.deletes, ¬ Covers u w.1 := by
  have hk := hb.ids w.1 (BatchOp.mem_ids_of_write hw)
  have hcommitted : (docState (committedStore c db op b v) w.1).timestamp = some (.uint64 v) := by
    have hon : IntentOn (db.applyOps (intentOps op b)) op.txnID w.1 (pendingIntent op w.2 false) :=
      intentOn_of_mem_writes ht hb.nodup hw hu
    have hlt : (docState (db.applyOps (intentOps op b)) w.1).version c < WithBot.some v := by
      rw [docState_intentOps hk]
      exact hnewer w hw
    have hcov : ∀ u i, IntentOn (db.applyOps (intentOps op b)) op.txnID u i →
        i.isDelete = true → Covers u w.1 → u < w.1 := by
      intro u i hon' hdel hcov
      rcases intentOn_fresh ht hfresh hon' with ⟨hud, -⟩ | ⟨-, w', -, -, rfl⟩
      · have hne : u ≠ w.1 := fun heq => hu (heq ▸ hud)
        rcases lt_or_gt_of_ne hne with hlt | hgt
        · exact hlt
        · have hcolon := eq_append_colon_of_covers (hb.ids u (BatchOp.mem_ids_of_delete hud)) hgt
            hcov
          exact absurd (hcolon ▸ hud) (hb.separator w hw)
      · cases hdel
    have hwritten : docState (committedStore c db op b v) w.1 =
        ⟨some (.zstd (committedBody c (db.applyOps (intentOps op b)) w.1
          (pendingIntent op w.2 false).value)), some (.uint64 v)⟩ :=
      docState_resolve_written (i := pendingIntent op w.2 false) ht rfl
        (ordinaryIntents_fresh hb ht hfresh) hk hon rfl hval hlt hcov
    rw [hwritten]
  rw [hsame w.1] at hcommitted
  change (db.applyOps (batchWriteOps c db b v ++ b.deletes.map deleteTombstone)).get?
    (documentTimestampKey w.1) = some (.uint64 v) at hcommitted
  have hdel : ¬ b.Deletes (documentTimestampKey w.1) := by
    intro hdel
    rw [get?_batchOps_deleted hdel] at hcommitted
    cases hcommitted
  refine ⟨?_, fun u hud hcov => hdel ⟨u, hud, ?_⟩⟩
  · obtain ⟨ops, hops⟩ := hok w hw
    refine storable_of_timestamp hk hops fun hnone => ?_
    rw [get?_batchOps_written hb hdel hw (.inl (.inr rfl)) hops, hnone] at hcommitted
    have hold := hnewer w hw
    have hversion : (docState db w.1).version c = WithBot.some v := by
      change db.get? (documentTimestampKey w.1) = some (.uint64 v) at hcommitted
      simp only [DocState.version, docState, hcommitted]
    rw [hversion] at hold
    exact absurd hold (lt_irrefl _)
  · exact (covers_iff_timestampKey (hb.ids u (BatchOp.mem_ids_of_delete hud))).mpr hcov

/-- Committing the writes and deletes of a client through intents is what applying them as a batch
is, exactly when they pass the checks the batch makes and the resolution omits. -/
theorem commit_equals_batch_iff {db₁ : DBImpl} (hop : op.batch = some b) (hb : OrdinaryBatch b)
    (ht : op.txnID.length = uuidLen) (hfresh : NoIntentKeys db op.txnID)
    (hwrite : writeIntent db op = .ok db₁) (hv : 0 < v)
    (hnewer : ∀ w ∈ b.writes, (docState db w.1).version c < WithBot.some v) :
    CommitEqualsBatch c db db₁ op.txnID b v ↔ PassesBatchChecks c db b := by
  obtain rfl := writeIntent_eq_ok hop hwrite
  constructor
  · rintro ⟨hown, db₂, hbatch, hsame⟩
    obtain ⟨hok, rfl⟩ := batch_of_owned hb hown hbatch
    have huncaptured := (uncaptured_iff hown _).mp
      ⟨hsame.splitDeltaSeq.symm, hsame.mergeDeltaSeq.symm⟩
    refine ⟨hown, huncaptured, fun w hw => (exists_documentWriteOps_iff w).mp (hok w hw), ?_⟩
    intro w hw hu hval
    refine stored_of_sameContent hb ht hfresh hnewer hok (fun k => ?_) hw hu hval
    have hplain : ∀ x, (committedStore c db op b v).get? x =
        (db.applyOps (batchWriteOps c db b v ++ b.deletes.map deleteTombstone)).get? x := by
      intro x
      have hcontent := hsame.content x
      rw [appendMergeDelta, if_pos ((captured_eq_nil_iff _ hown).mpr fun k hk =>
        (huncaptured k hk).2), appendSplitDelta, if_pos ((captured_eq_nil_iff _ hown).mpr fun k hk =>
        (huncaptured k hk).1)] at hcontent
      exact hcontent
    exact docState_eq fun x _ => hplain x
  · intro hchecks
    obtain ⟨ws, hws⟩ : ∃ ws, b.writes.mapM (documentWriteOps c db v) = .ok ws :=
      Fallible.exists_mapM_ok_iff.mpr fun w hw =>
        (exists_documentWriteOps_iff w).mpr (hchecks.extracted w hw)
    have hcontent : contentOps c db b.bypasses v b.writes b.deletes =
        .ok (batchWriteOps c db b v ++ b.deletes.map deleteTombstone) := by
      rw [contentOps_of_owned hb hchecks.owned, hws, batchWriteOps, ← Fallible.flatten_of_mapM hws]
      rfl
    have hsplit := (captured_eq_nil_iff (capturesSplit db) hchecks.owned).mpr
      fun k hk => (hchecks.uncaptured k hk).1
    have hmerge := (captured_eq_nil_iff (capturesMerge db) hchecks.owned).mpr
      fun k hk => (hchecks.uncaptured k hk).2
    have hbatch : batch c db b.writes b.deletes b.syncLevel v =
        .ok (db.applyOps (batchWriteOps c db b v ++ b.deletes.map deleteTombstone)) := by
      change (contentOps c db b.bypasses v b.writes b.deletes >>= fun ops => pure
        (appendMergeDelta (appendSplitDelta (db.applyOps ops)
          (captured db (capturesSplit db) b.bypasses b.writes b.deletes) v)
          (captured db (capturesMerge db) b.bypasses b.writes b.deletes) v)) = _
      rw [hcontent]
      simp only [bind, Except.bind, pure, Except.pure, appendSplitDelta, appendMergeDelta, hsplit,
        hmerge, if_true]
    refine ⟨hchecks.owned, _, hbatch, ?_, rfl, rfl, rfl⟩
    exact content_committedStore hb ht hfresh hnewer hv hchecks

end Paths

/-- A shard with or without a split of the keys from `m` on in preparation. -/
def sampleShard (splitting : Bool) : DBImpl :=
  ((StoreDB.create ⟨[], []⟩).applyLog Codec.emptyObject
    (if splitting then [.setSplitState (some ⟨.prepare, ascii ['m'], 2, 0, []⟩)] else [])).coreDB

/-- One write in the split-off range and one delete. -/
def sampleBatch : BatchOp where
  writes := [(ascii ['x'], ascii ['\x7b', '\x7d'])]
  deletes := [ascii ['a']]
  transforms := []
  syncLevel := .write
  timestamp := 0

def sampleIntents : WriteIntentOp := ⟨List.replicate 16 7, 3, [], some sampleBatch, []⟩

theorem sampleBatch_ordinary : OrdinaryBatch sampleBatch where
  ids := by
    have h : ∀ k, k = ascii ['x'] ∨ k = ascii ['a'] → UserKey k := by
      rintro k (rfl | rfl)
      · exact ⟨by decide, by decide, by decide⟩
      · exact ⟨by decide, by decide, by decide⟩
    intro k hk
    exact h k (by simpa [BatchOp.ids, sampleBatch] using hk)
  nodup := by decide
  derived := by decide
  separator := by decide

theorem noIntentKeys_of_entries {db : DBImpl} {t : Bytes}
    (h : ∀ e ∈ db.pdb.entries, hasPrefix e.1 txnIntentsPrefix = false) : NoIntentKeys db t := by
  intro u
  cases hget : db.get? (makeIntentKey t u) with
  | none => rfl
  | some v =>
    have hno := h _ ((mem_entries_iff _ _ _).mpr hget)
    rw [← Bool.not_eq_true, hasPrefix_iff] at hno
    exact absurd ⟨t ++ ascii [':'] ++ u, by simp [makeIntentKey]⟩ hno

theorem sampleShard_newer (splitting : Bool) : ∀ w ∈ sampleBatch.writes,
    (docState (sampleShard splitting) w.1).version Codec.emptyObject < WithBot.some 9 := by
  have habsent : docState (sampleShard splitting) (ascii ['x']) = .absent := by
    cases splitting <;> decide +kernel
  intro w hw
  obtain rfl := mem_singleton.mp hw
  rw [habsent]
  exact WithBot.bot_lt_coe _

/-- During a split, a batch captures the write of a split-off document for the child, and the
commit of the same write does not. -/
theorem committed_write_not_captured :
    OrdinaryBatch sampleBatch ∧ NoIntentKeys (sampleShard true) sampleIntents.txnID ∧
      (∀ w ∈ sampleBatch.writes,
        (docState (sampleShard true) w.1).version Codec.emptyObject < WithBot.some 9) ∧
      ∃ db₁, writeIntent (sampleShard true) sampleIntents = .ok db₁ ∧
        ¬ CommitEqualsBatch Codec.emptyObject (sampleShard true) db₁ sampleIntents.txnID
          sampleBatch 9 := by
  have hfresh : NoIntentKeys (sampleShard true) sampleIntents.txnID :=
    noIntentKeys_of_entries (by decide +kernel)
  refine ⟨sampleBatch_ordinary, hfresh, sampleShard_newer true, _, rfl, ?_⟩
  rintro ⟨-, db₂, hbatch, hsame⟩
  have hseq : (batch Codec.emptyObject (sampleShard true) sampleBatch.writes sampleBatch.deletes
      sampleBatch.syncLevel 9).toOption.map DBImpl.splitDeltaSeq = some 1 := by decide +kernel
  rw [hbatch] at hseq
  have hone : db₂.splitDeltaSeq = 1 := by simpa [Except.toOption] using hseq
  have hzero := hsame.splitDeltaSeq
  rw [hone] at hzero
  cases hzero

/-- Without a split the two paths agree on the same batch. -/
theorem commit_equals_batch_sample :
    ∃ db₁, writeIntent (sampleShard false) sampleIntents = .ok db₁ ∧
      (CommitEqualsBatch Codec.emptyObject (sampleShard false) db₁ sampleIntents.txnID
          sampleBatch 9 ↔ PassesBatchChecks Codec.emptyObject (sampleShard false) sampleBatch) ∧
      PassesBatchChecks Codec.emptyObject (sampleShard false) sampleBatch := by
  have hfresh : NoIntentKeys (sampleShard false) sampleIntents.txnID :=
    noIntentKeys_of_entries (by decide +kernel)
  refine ⟨_, rfl, commit_equals_batch_iff rfl sampleBatch_ordinary rfl hfresh rfl (by decide)
    (sampleShard_newer false), ?_⟩
  refine ⟨by decide +kernel, by decide +kernel, ?_, ?_⟩
  · intro w hw _
    obtain rfl := List.mem_singleton.mp hw
    exact ⟨none, rfl⟩
  · intro w hw _ _
    obtain rfl := List.mem_singleton.mp hw
    exact ⟨⟨rfl, none, rfl, fun sf h => by cases h⟩, by decide⟩

end Antfly
