import Antfly.Store.TTLSafety

/-!
The delete of `k` is one tombstone from `k` up to `k;`, where `;` is the byte after the separator
`:`.  It covers every stored key of `k`, and with them every key that continues `k` by a byte below
`;`: also the keys of the documents `k0`, `k-`, `k.` and `k/`.  An id may contain the separator
itself, and then the tombstone lies among the keys of a shorter id.
-/

namespace Antfly

open List

/-- The key of a chunk; the three kinds of chunks differ in their suffix. -/
def chunkKeyFormat (suffix docKey indexName : Bytes) (chunkID : UInt32) : Bytes :=
  docKey ++ indexMarker ++ indexName ++ ascii [':'] ++ ascii (Nat.toDigits 10 chunkID.toNat) ++
    suffix

def makeChunkKey : Bytes → Bytes → UInt32 → Bytes := chunkKeyFormat (ascii [':', 'c'])

def makeChunkFullTextKey : Bytes → Bytes → UInt32 → Bytes :=
  chunkKeyFormat (ascii [':', 'c', 'f', 't'])

def makeMediaChunkKey : Bytes → Bytes → UInt32 → Bytes := chunkKeyFormat (ascii [':', 'c', 'm'])

def makeFieldHashKey (docKey graphName edgeType : Bytes) : Bytes :=
  docKey ++ indexMarker ++ graphName ++ ascii [':'] ++ edgeType ++ fieldHashSuffix

/-- The artefacts of a document that enrichers derive further artefacts from. -/
inductive EnrichedKey (id : Bytes) : Bytes → Prop where
  | summary (indexName : Bytes) : EnrichedKey id (makeSummaryKey id indexName)
  | chunk (indexName : Bytes) (chunkID : UInt32) :
      EnrichedKey id (makeChunkKey id indexName chunkID)
  | chunkFullText (indexName : Bytes) (chunkID : UInt32) :
      EnrichedKey id (makeChunkFullTextKey id indexName chunkID)
  | mediaChunk (indexName : Bytes) (chunkID : UInt32) :
      EnrichedKey id (makeMediaChunkKey id indexName chunkID)

/-- The keys stored for a document: what its writes set, its chunks and field hashes, and what is
derived from its chunks and summaries. -/
inductive StoredUnder (id : Bytes) : Bytes → Prop where
  | written {x : Bytes} (h : StorageKey id x) : StoredUnder id x
  | enriched {x : Bytes} (h : EnrichedKey id x) : StoredUnder id x
  | embedding {x : Bytes} (h : EnrichedKey id x) (indexName : Bytes) :
      StoredUnder id (makeEmbeddingKey x indexName)
  | sparse {x : Bytes} (h : EnrichedKey id x) (indexName : Bytes) :
      StoredUnder id (makeSparseKey x indexName)
  | derivedSummary {x : Bytes} (h : EnrichedKey id x) (indexName : Bytes) :
      StoredUnder id (makeSummaryKey x indexName)
  | fieldHash (graphName edgeType : Bytes) :
      StoredUnder id (makeFieldHashKey id graphName edgeType)

variable {id x k : Bytes}

theorem EnrichedKey.eq_append (h : EnrichedKey id x) : ∃ r, x = id ++ 58 :: r := by
  have hmarker : ∀ t : Bytes, ∃ r, id ++ indexMarker ++ t = id ++ 58 :: r :=
    fun t => ⟨ascii ['i', ':'] ++ t, by simp [indexMarker, ascii]⟩
  cases h <;>
    simpa [makeSummaryKey, makeChunkKey, makeChunkFullTextKey, makeMediaChunkKey, chunkKeyFormat]
      using hmarker _

theorem StoredUnder.eq_append (h : StoredUnder id x) : ∃ r, x = id ++ 58 :: r := by
  have hderived : ∀ {y : Bytes} (t : Bytes), EnrichedKey id y → ∃ r, y ++ t = id ++ 58 :: r := by
    intro y t hy
    obtain ⟨r, rfl⟩ := hy.eq_append
    exact ⟨r ++ t, by simp⟩
  cases h with
  | written h =>
    obtain ⟨c, t, rfl, -⟩ := h.eq_append
    exact ⟨c :: t, rfl⟩
  | enriched h => exact h.eq_append
  | embedding h n =>
    obtain ⟨r, hr⟩ := hderived (indexMarker ++ n ++ embeddingSuffix) h
    exact ⟨r, by rw [← hr]; simp [makeEmbeddingKey]⟩
  | sparse h n =>
    obtain ⟨r, hr⟩ := hderived (indexMarker ++ n ++ sparseSuffix) h
    exact ⟨r, by rw [← hr]; simp [makeSparseKey]⟩
  | derivedSummary h n =>
    obtain ⟨r, hr⟩ := hderived (indexMarker ++ n ++ summarySuffix) h
    exact ⟨r, by rw [← hr]; simp [makeSummaryKey]⟩
  | fieldHash g ty =>
    exact ⟨ascii ['i', ':'] ++ (g ++ ascii [':'] ++ ty ++ fieldHashSuffix),
      by simp [makeFieldHashKey, indexMarker, ascii]⟩

theorem StoredUnder.not_metadata (hid : validateDocumentMutationKey id = none)
    (h : StoredUnder id x) :
    ¬ metadataPrefix <+: x := by
  obtain ⟨r, rfl⟩ := h.eq_append
  rintro ⟨t, ht⟩
  have hshape : ¬ metadataPrefix <+: id := by
    rw [← hasPrefix_iff]
    unfold validateDocumentMutationKey validateReservedDocumentKeyShape at hid
    grind
  rcases append_eq_append_iff.mp ht with ⟨a, ha, -⟩ | ⟨a, ha, hr⟩
  · exact hshape ⟨a, ha.symm⟩
  · cases a with
    | nil => exact hshape (by rw [ha, append_nil])
    | cons b a =>
      -- The prefix would contain the separator.
      obtain ⟨rfl, -⟩ := List.cons.inj hr
      have hcolon : (58 : UInt8) ∈ metadataPrefix := by
        rw [ha]
        exact mem_append_right _ mem_cons_self
      exact absurd hcolon (by decide)

/-- Every stored key of `k` is gone, and the stored keys of every other accepted id are as they
were. -/
structure DeletesOnly (db db' : DBImpl) (k : Bytes) : Prop where
  gone : ∀ x, StoredUnder k x → ¬ db'.Holds x
  kept : ∀ id x, validateDocumentMutationKey id = none → id ≠ k → StoredUnder id x →
    db'.get? x = db.get? x

/-- Nothing is stored for an id that continues `k` by a byte below `;`, and where `k` is itself an
id continued by the separator, no stored key of that id is in the tombstone. -/
structure StandsClear (db : DBImpl) (k : Bytes) : Prop where
  extensions : ∀ c u x, c < 59 → validateDocumentMutationKey (k ++ c :: u) = none →
    StoredUnder (k ++ c :: u) x → ¬ db.Holds x
  enclosing : ∀ id s x, k = id ++ 58 :: s → validateDocumentMutationKey id = none →
    StoredUnder id x → Sweeps k x → ¬ db.Holds x

theorem StoredUnder.sweeps (h : StoredUnder k x) : Sweeps k x := by
  obtain ⟨r, rfl⟩ := h.eq_append
  exact mem_deleteRange_colon k r

/-- A byte below the end of the tombstone after `k` puts every stored key of the longer id into
it. -/
theorem StoredUnder.sweeps_of_extension {u : Bytes} {c : UInt8} (hc : c < 59)
    (h : StoredUnder (k ++ c :: u) x) :
    Sweeps k x := by
  obtain ⟨r, rfl⟩ := h.eq_append
  refine mem_deleteRange_iff.mpr ⟨c :: u ++ 58 :: r, by simp, ?_⟩
  exact List.Lex.rel hc

/-- The tombstone of `k` reaches a stored key of another id only if that id continues `k` by a byte
below `;`, or `k` continues it by the separator. -/
theorem StoredUnder.sweeps_cases (h : StoredUnder id x) (hne : id ≠ k) (hsweeps : Sweeps k x) :
    (∃ c u, id = k ++ c :: u ∧ c < 59) ∨ ∃ s, k = id ++ 58 :: s := by
  obtain ⟨r, rfl⟩ := h.eq_append
  obtain ⟨t, ht, hlt⟩ := mem_deleteRange_iff.mp hsweeps
  rcases append_eq_append_iff.mp ht with ⟨a, ha, hr⟩ | ⟨a, ha, hr⟩
  · cases a with
    | nil => exact absurd (by rw [ha, append_nil]) hne
    | cons b s =>
      obtain ⟨rfl, -⟩ := List.cons.inj hr
      exact .inr ⟨s, ha⟩
  · cases a with
    | nil => exact absurd (by rw [ha, append_nil]) hne
    | cons c u =>
      rw [hr] at hlt
      rcases Lex.lt_singleton_iff.mp hlt with hnil | ⟨c', t', hcons, hc⟩
      · cases hnil
      · obtain ⟨rfl, -⟩ := List.cons.inj hcons
        exact .inl ⟨c, u, ha, hc⟩

/-- A delete that removes exactly the tombstone of `k` from the stored keys of accepted ids touches
only the document `k` when no other stored key is in it. -/
theorem deletesOnly_iff {db db' : DBImpl} {k : Bytes}
    (hk : validateDocumentMutationKey k = none)
    (hswept : ∀ id x, validateDocumentMutationKey id = none → StoredUnder id x → Sweeps k x →
      db'.get? x = none)
    (hkept : ∀ id x, validateDocumentMutationKey id = none → StoredUnder id x → ¬ Sweeps k x →
      db'.get? x = db.get? x) :
    DeletesOnly db db' k ↔ StandsClear db k := by
  constructor
  · intro h
    have hclear : ∀ id x, validateDocumentMutationKey id = none → id ≠ k → StoredUnder id x →
        Sweeps k x → ¬ db.Holds x := by
      intro id x hid hne hx hsweeps hholds
      exact hholds ((h.kept id x hid hne hx).symm.trans (hswept id x hid hx hsweeps))
    constructor
    · intro c u x hc hid hx
      exact hclear _ x hid (by simp) hx (hx.sweeps_of_extension hc)
    · intro id s x hks hid hx hsweeps
      refine hclear id x hid ?_ hx hsweeps
      intro heq
      rw [heq] at hks
      simp at hks
  · intro h
    refine ⟨fun x hx => not_not.mpr (hswept k x hk hx hx.sweeps), ?_⟩
    intro id x hid hne hx
    by_cases hsweeps : Sweeps k x
    · have habsent : ¬ db.Holds x := by
        rcases hx.sweeps_cases hne hsweeps with ⟨c, u, rfl, hc⟩ | ⟨s, hs⟩
        · exact h.extensions c u x hc hid hx
        · exact h.enclosing id s x hs hid hx hsweeps
      rw [hswept id x hid hx hsweeps, not_not.mp habsent]
    · exact hkept id x hid hx hsweeps

/-- The store without one record. -/
def DBImpl.without (db : DBImpl) (x : Bytes) : DBImpl := db.applyOps [.delete x]

section Deletes

variable {c : Codec} {db : DBImpl} {k : Bytes}

theorem get?_applyOps_tombstone (db : DBImpl) (k x : Bytes) :
    (Sweeps k x → (db.applyOps [deleteTombstone k]).get? x = none) ∧
      (¬ Sweeps k x → (db.applyOps [deleteTombstone k]).get? x = db.get? x) := by
  rw [DBImpl.get?_applyOps, OrdMap.lastEffect_cons, OrdMap.lastEffect_nil, deleteTombstone,
    OrdMap.Edit.effect]
  constructor
  · intro h
    have hin : k ≤ x ∧ x < prefixSuccessor (keyRangeEnd k) := h
    rw [if_pos hin]
    rfl
  · intro h
    have hout : ¬ (k ≤ x ∧ x < prefixSuccessor (keyRangeEnd k)) := h
    rw [if_neg hout]
    rfl

/-- A batch of one delete changes the stored keys of accepted ids by its tombstone, or not at all
where the shard skips the key. -/
theorem batch_delete (c : Codec) (db : DBImpl) (k : Bytes) (syncLevel : SyncLevel)
    (timestamp : Nat) :
    ∃ db', batch c db [] [k] syncLevel timestamp = .ok db' ∧
      ∀ id x, validateDocumentMutationKey id = none → StoredUnder id x →
        db'.get? x = (db.applyOps
          (deleteOps db (decide (syncLevel = .internalMergeCopy)) k)).get? x := by
  refine ⟨_, rfl, ?_⟩
  intro id x hid hx
  have hdelta : ¬ DeltaLogKey x := fun h => hx.not_metadata hid h.metadata
  have hlogs : ∀ (d : DBImpl) (e e' : List Write × List Bytes),
      (appendMergeDelta (appendSplitDelta d e timestamp) e' timestamp).get? x = d.get? x := by
    intro d e e'
    rw [(SameContent.of_appendMergeDelta _ e' timestamp).content x hdelta]
    exact (SameContent.of_appendSplitDelta d e timestamp).content x hdelta
  rw [hlogs]
  simp

theorem batch_deletesOnly_iff (hk : validateDocumentMutationKey k = none) (syncLevel : SyncLevel)
    (timestamp : Nat) :
    ∃ db', batch c db [] [k] syncLevel timestamp = .ok db' ∧
      (DeletesOnly db db' k ↔
        if appliesKey db (decide (syncLevel = .internalMergeCopy)) k then StandsClear db k
        else ∀ x, StoredUnder k x → ¬ db.Holds x) := by
  obtain ⟨db', hbatch, hget⟩ := batch_delete c db k syncLevel timestamp
  refine ⟨db', hbatch, ?_⟩
  cases happlies : appliesKey db (decide (syncLevel = .internalMergeCopy)) k with
  | true =>
    simp only [deleteOps, happlies, if_true] at hget ⊢
    apply deletesOnly_iff hk
    · intro id x hid hx hsweeps
      rw [hget id x hid hx]
      exact (get?_applyOps_tombstone db k x).1 hsweeps
    · intro id x hid hx hsweeps
      rw [hget id x hid hx]
      exact (get?_applyOps_tombstone db k x).2 hsweeps
  | false =>
    simp only [deleteOps, happlies, Bool.false_eq_true, if_false] at hget ⊢
    have hsame : ∀ id x, validateDocumentMutationKey id = none → StoredUnder id x →
        db'.get? x = db.get? x := hget
    constructor
    · intro h x hx hholds
      refine h.gone x hx ?_
      rwa [DBImpl.Holds, hsame k x hk hx]
    · intro h
      refine ⟨fun x hx hholds => ?_, fun id x hid _ hx => hsame id x hid hx⟩
      refine h x hx ?_
      rwa [DBImpl.Holds, ← hsame k x hk hx]

/-- The resolution of a committed delete intent of `k` removes the record of the intent and
otherwise what the tombstone covers; it asks nobody whether the shard owns `k`. -/
theorem resolveIntents_deletesOnly_iff (hk : validateDocumentMutationKey k = none)
    {op : ResolveIntentsOp} {intent : TxnIntent} (ht : op.txnID.length = uuidLen)
    (hstatus : op.status = .committed) (hdelete : intent.isDelete = true)
    (hintents : transactionIntents db op.txnID =
      [(makeIntentKey op.txnID k, .txnIntent intent)]) :
    DeletesOnly (db.without (makeIntentKey op.txnID k)) (resolveIntents c db op) k ↔
      StandsClear (db.without (makeIntentKey op.txnID k)) k := by
  have hget : ∀ x, (resolveIntents c db op).get? x =
      ((db.without (makeIntentKey op.txnID k)).applyOps [deleteTombstone k]).get? x := by
    intro x
    rw [resolveIntents, hintents]
    simp only [flatMap_cons, flatMap_nil, append_nil, resolveIntentOps,
      parseIntentKey_makeIntentKey ht, hstatus, if_true, committedIntentOps, hdelete,
      DBImpl.without, DBImpl.get?_applyOps, singleton_append, OrdMap.lastEffect_cons,
      OrdMap.lastEffect_nil, deleteTombstone, OrdMap.Edit.effect]
    by_cases hx : x = makeIntentKey op.txnID k
    · rw [if_pos hx]
      split <;> rfl
    · rw [if_neg hx]
      split <;> rfl
  apply deletesOnly_iff hk
  · intro id x _ _ hsweeps
    rw [hget x]
    exact (get?_applyOps_tombstone _ k x).1 hsweeps
  · intro id x _ _ hsweeps
    rw [hget x]
    exact (get?_applyOps_tombstone _ k x).2 hsweeps

end Deletes

/-- A delete by a batch the shard applies, or by a committed intent, touches only the document
exactly when the documents around it stand clear of its tombstone; a batch that skips the key
satisfies this only when nothing is stored for it. -/
theorem delete_touches_only_iff (c : Codec) (db : DBImpl) {k : Bytes}
    (hk : validateDocumentMutationKey k = none) :
    (∀ syncLevel timestamp, ∃ db', batch c db [] [k] syncLevel timestamp = .ok db' ∧
      (DeletesOnly db db' k ↔
        if appliesKey db (decide (syncLevel = .internalMergeCopy)) k then StandsClear db k
        else ∀ x, StoredUnder k x → ¬ db.Holds x)) ∧
    ∀ (op : ResolveIntentsOp) (intent : TxnIntent), op.txnID.length = uuidLen →
      op.status = .committed → intent.isDelete = true →
      transactionIntents db op.txnID = [(makeIntentKey op.txnID k, .txnIntent intent)] →
      (DeletesOnly (db.without (makeIntentKey op.txnID k)) (resolveIntents c db op) k ↔
        StandsClear (db.without (makeIntentKey op.txnID k)) k) := by
  constructor
  · intro syncLevel timestamp
    exact batch_deletesOnly_iff hk syncLevel timestamp
  · intro op intent ht hstatus hdelete hintents
    exact resolveIntents_deletesOnly_iff hk ht hstatus hdelete hintents

/-- A shard that stores the documents `a` and `id`. -/
private def pairShard (id : Bytes) : DBImpl :=
  DBImpl.empty.applyOps
    [.set (keyRangeStart (ascii ['a'])) (.zstd (ascii ['1'])),
      .set (documentTimestampKey (ascii ['a'])) (.uint64 1),
      .set (keyRangeStart id) (.zstd (ascii ['2'])), .set (documentTimestampKey id) (.uint64 1)]

variable {id x : Bytes}

private theorem pairShard_holds (h : (pairShard id).Holds x) :
    ∃ id' ∈ [ascii ['a'], id], IsDocumentKey id' x := by
  obtain ⟨v, hv⟩ := Option.ne_none_iff_exists'.mp h
  rcases get?_applyOps_cases hv with hset | hold
  · simp only [mem_cons, not_mem_nil, or_false, OrdMap.Edit.set.injEq] at hset
    rcases hset with ⟨rfl, -⟩ | ⟨rfl, -⟩ | ⟨rfl, -⟩ | ⟨rfl, -⟩
    · exact ⟨_, mem_cons_self, .inl rfl⟩
    · exact ⟨_, mem_cons_self, .inr rfl⟩
    · exact ⟨_, mem_cons_of_mem _ mem_cons_self, .inl rfl⟩
    · exact ⟨_, mem_cons_of_mem _ mem_cons_self, .inr rfl⟩
  · cases hold

private theorem StoredUnder.of_isDocumentKey (h : IsDocumentKey id x) : StoredUnder id x := by
  rcases h with rfl | rfl
  · exact .written .document
  · exact .written .documentTimestamp

/-- The delete of `a` takes the document `a0` with it. -/
theorem delete_takes_extension : ∃ db db',
    (∀ x, DBImpl.Holds db x → ∃ id, validateDocumentMutationKey id = none ∧ StoredUnder id x) ∧
    validateDocumentMutationKey (ascii ['a']) = none ∧
    validateDocumentMutationKey (ascii ['a', '0']) = none ∧
    batch .emptyObject db [] [ascii ['a']] .write 2 = .ok db' ∧
    db.get? (keyRangeStart (ascii ['a', '0'])) = some (.zstd (ascii ['2'])) ∧
    db'.get? (keyRangeStart (ascii ['a', '0'])) = none := by
  refine ⟨pairShard (ascii ['a', '0']), _, fun x hx => ?_, by decide, by decide, rfl, rfl, rfl⟩
  obtain ⟨id, hid, hx⟩ := pairShard_holds hx
  refine ⟨id, ?_, .of_isDocumentKey hx⟩
  simp only [List.mem_cons, List.not_mem_nil, or_false] at hid
  rcases hid with rfl | rfl <;> decide

/-- A shard with nothing but the documents `a` and `b` stands clear of the tombstone of `a`. -/
private theorem standsClear_pair {db : DBImpl}
    (h : ∀ x, db.Holds x → ∃ id ∈ [ascii ['a'], ascii ['b']], IsDocumentKey id x) :
    StandsClear db (ascii ['a']) := by
  constructor
  · intro c u x hc hid hx hholds
    obtain ⟨r, rfl⟩ := hx.eq_append
    obtain ⟨id, hmem, hdoc⟩ := h _ hholds
    simp only [mem_cons, not_mem_nil, or_false] at hmem
    rcases hmem with rfl | rfl
    · -- The longer id would end in the separator and the zero byte, which no accepted id does.
      have hu : c :: (u ++ 58 :: r) = [58, 0] ∨ c :: (u ++ 58 :: r) = [58, 0, 58, 116] := by
        rcases hdoc with hdoc | hdoc
        · exact .inl (by simpa [ascii, keyRangeStart_eq] using hdoc)
        · exact .inr (by simpa [ascii, documentTimestampKey_eq] using hdoc)
      rcases u with _ | ⟨u₀, _ | ⟨u₁, u⟩⟩
      · simp at hu
      · simp only [cons_append, nil_append, List.cons.injEq, reduceCtorEq, and_false,
          false_or] at hu
        obtain ⟨rfl, rfl, -⟩ := hu
        exact absurd hid (by decide)
      · -- The colon after the longer id would be the last byte but one.
        have hlen : (c :: (u₀ :: u₁ :: u ++ 58 :: r)).length ≤ 4 := by
          rcases hu with hu | hu <;> rw [hu] <;> decide
        cases u with
        | nil => simp at hu
        | cons b u =>
          simp only [length_cons, length_append] at hlen
          omega
    · rcases hdoc with hdoc | hdoc
      · simp [ascii, keyRangeStart] at hdoc
      · simp [ascii, documentTimestampKey, timestampKey, keyRangeStart] at hdoc
  · intro id s x hs
    have hlen := congrArg List.length hs
    cases id with
    | nil => simp [ascii] at hs
    | cons b id => simp [ascii] at hlen

private def deleteOfA : ResolveIntentsOp := ⟨List.replicate 16 7, .committed, 3⟩

private def deleteIntentOfA : TxnIntent := ⟨deleteOfA.txnID, [], 2, [], .pending, true⟩

private def intentShard : DBImpl :=
  (pairShard (ascii ['b'])).applyOps
    [.set (makeIntentKey deleteOfA.txnID (ascii ['a'])) (.txnIntent deleteIntentOfA)]

/-- The delete of `a` spares the document `b`, by a batch and by an intent. -/
theorem delete_spares_neighbour :
    (∃ db', batch .emptyObject (pairShard (ascii ['b'])) [] [ascii ['a']] .write 2 = .ok db' ∧
      DeletesOnly (pairShard (ascii ['b'])) db' (ascii ['a'])) ∧
    DeletesOnly (intentShard.without (makeIntentKey deleteOfA.txnID (ascii ['a'])))
      (resolveIntents .emptyObject intentShard deleteOfA) (ascii ['a']) := by
  have haccepted : validateDocumentMutationKey (ascii ['a']) = none := by decide
  constructor
  · obtain ⟨db', hbatch, hiff⟩ :=
      (delete_touches_only_iff .emptyObject (pairShard (ascii ['b'])) haccepted).1 .write 2
    refine ⟨db', hbatch, hiff.mpr ?_⟩
    have happlies : appliesKey (pairShard (ascii ['b'])) (decide (SyncLevel.write =
        .internalMergeCopy)) (ascii ['a']) = true := rfl
    rw [if_pos happlies]
    exact standsClear_pair fun x hx => pairShard_holds hx
  · refine ((delete_touches_only_iff .emptyObject intentShard haccepted).2 deleteOfA
      deleteIntentOfA rfl rfl rfl rfl).mpr (standsClear_pair fun x hx => ?_)
    have hsame : intentShard.without (makeIntentKey deleteOfA.txnID (ascii ['a'])) =
        pairShard (ascii ['b']) := rfl
    rw [hsame] at hx
    exact pairShard_holds hx

end Antfly
