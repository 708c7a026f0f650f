import Antfly.Store.CoalescedDeltas

/-!
Two replicas read the same log, each with its own clock, its own order of map keys, its own
callbacks and its own cut of the log into commits.  They end in the same store when no batch reads
the clock or the order of a map, what is coalesced anywhere coalesces harmlessly, and the operations
that do read a replica's surroundings find the same there.
-/

namespace Antfly

open List Fallible

/-- The edges the `_edges` field of a document lists; each is stamped with the time. -/
def listedEdges (doc : Obj) : List Json :=
  match doc.get? edgesField with
  | some (.obj graphs) => graphs.flatMap fun g =>
    match g.2 with
    | .obj types => types.flatMap fun et =>
      match et.2 with
      | .arr edges => edges
      | _ => []
    | _ => []
  | _ => []

/-- The terms of the embeddings a document gives for sparse indexes; they are stored in the order the
map is ranged over. -/
def sparseEmbeddings (db : DBImpl) (doc : Obj) : List Obj :=
  match doc.get? embeddingsField with
  | some (.obj entries) => entries.filterMap fun e =>
    match db.indexes.lookup e.1, e.2 with
    | some (.embeddings true true _), .obj terms => some terms
    | _, _ => none
  | _ => []

/-- The special fields of the document are the same at any time and in any order. -/
structure ExtractsAlike (c : Codec) (db : DBImpl) (value : Bytes) : Prop where
  edges : ∀ doc, c.unmarshalObj value = some doc → listedEdges doc = []
  terms : ∀ doc, c.unmarshalObj value = some doc → ∀ terms ∈ sparseEmbeddings db doc,
    terms.length ≤ 1

/-- Nothing the batches do depends on the time or on the order of a map. -/
structure Pending.ReadsNoClock (c : Codec) (db : DBImpl) (p : Pending) : Prop where
  extracted : ∀ w ∈ p.writes, ExtractsAlike c db w.2
  /-- No `$currentDate`. -/
  dates : ∀ t ∈ p.transforms, ∀ op ∈ t.operations, op.op ≠ .currentDate
  /-- The documents that are read cannot have expired. -/
  expiry : ∀ t ∈ p.transforms,
    db.cachedTTLDuration = 0 ∨ db.get? (timestampKey t.key) = none
  resolved : ∀ t ∈ p.transforms, ∀ w, resolveTransform c db t = .ok (some w) →
    ExtractsAlike c db w.2

section Clock

variable {c : Codec} {db : DBImpl} (t t' : Clock)

private theorem extractIndexEdges_at {key indexName : Bytes} {edgeTypesAny : Json}
    (h : ∀ types, edgeTypesAny = .obj types → ∀ et ∈ types, ∀ es, et.2 = .arr es → es = []) :
    extractIndexEdges (c.at t) db key indexName edgeTypesAny =
      extractIndexEdges (c.at t') db key indexName edgeTypesAny := by
  unfold extractIndexEdges
  split
  · rfl
  · split
    · rename_i types
      have hmap : types.mapM (fun et => extractEdgeType (c.at t) key indexName et.1 et.2) =
          types.mapM fun et => extractEdgeType (c.at t') key indexName et.1 et.2 := by
        refine mapM_congr fun et het => ?_
        unfold extractEdgeType
        split
        · rename_i es hes
          rw [h types rfl et het es hes]
          rfl
        · rfl
      rw [hmap]
    · rfl
  · rfl

private theorem extractEmbedding_at {key indexName : Bytes} {value : Json}
    (h : ∀ dimension terms, db.indexes.lookup indexName = some (.embeddings true true dimension) →
      value = .obj terms → terms.length ≤ 1) :
    extractEmbedding (c.at t) db key indexName value =
      extractEmbedding (c.at t') db key indexName value := by
  have horder : ∀ (t : Clock) (terms : Obj), terms.length ≤ 1 →
      (t.termOrder key indexName terms).1 = terms := by
    intro t terms hlength
    have hperm := (t.termOrder key indexName terms).2
    match terms, hlength with
    | [], _ => exact hperm.eq_nil
    | [term], _ => exact hperm.eq_singleton
  unfold extractEmbedding
  cases hlookup : db.indexes.lookup indexName with
  | none => rfl
  | some config =>
    cases config with
    | embeddings sparse external dimension =>
      cases value with
      | obj terms =>
        cases sparse with
        | true =>
          cases external with
          | true =>
            have hlength := h dimension terms hlookup rfl
            simp only [Codec.at, horder _ terms hlength]
            rfl
          | false => rfl
        | false => rfl
      | _ => rfl
    | _ => rfl

theorem extractAndWriteSpecialFields_at {value key : Bytes} (h : ExtractsAlike c db value) :
    extractAndWriteSpecialFields (c.at t) db value key =
      extractAndWriteSpecialFields (c.at t') db value key := by
  have hedges : ∀ doc, c.unmarshalObj value = some doc → ∀ graphs,
      fieldEntries doc edgesField .edgesNotMap = .ok graphs →
      graphs.mapM (fun g => extractIndexEdges (c.at t) db key g.1 g.2) =
        graphs.mapM fun g => extractIndexEdges (c.at t') db key g.1 g.2 := by
    intro doc hdoc graphs hgraphs
    refine mapM_congr fun g hg => extractIndexEdges_at t t' fun types htypes et het es hes => ?_
    unfold fieldEntries at hgraphs
    have hnone := h.edges doc hdoc
    unfold listedEdges at hnone
    split at hgraphs
    · cases hgraphs
      cases hg
    · rename_i entries hentries
      cases hgraphs
      rw [hentries] at hnone
      simp only [flatMap_eq_nil_iff] at hnone
      have hg' := hnone g hg
      rw [htypes] at hg'
      simp only [flatMap_eq_nil_iff] at hg'
      have het' := hg' et het
      rw [hes] at het'
      exact het'
    · cases hgraphs
  have hembeddings : ∀ doc, c.unmarshalObj value = some doc → ∀ entries,
      fieldEntries doc embeddingsField .embeddingsNotMap = .ok entries →
      entries.mapM (fun e => extractEmbedding (c.at t) db key e.1 e.2) =
        entries.mapM fun e => extractEmbedding (c.at t') db key e.1 e.2 := by
    intro doc hdoc entries hentries
    refine mapM_congr fun e he => extractEmbedding_at t t' fun dimension terms hlookup hobj => ?_
    refine h.terms doc hdoc terms ?_
    unfold fieldEntries at hentries
    unfold sparseEmbeddings
    split at hentries
    · cases hentries
      cases he
    · rename_i es hes
      cases hentries
      rw [hes]
      exact mem_filterMap.mpr ⟨e, he, by rw [hlookup, hobj]⟩
    · cases hentries
  have hsummary : extractSummary (c.at t) db key = extractSummary (c.at t') db key := rfl
  have hextract : extractSpecialFields (c.at t) db value key =
      extractSpecialFields (c.at t') db value key := by
    unfold extractSpecialFields
    rw [hsummary]
    refine bind_congr_ok fun doc hdoc => ?_
    refine bind_congr_ok fun entries hentries => ?_
    rw [hembeddings doc (elim_eq_ok.mp hdoc) entries hentries]
    refine bind_congr_ok fun _ _ => ?_
    refine bind_congr_ok fun _ _ => ?_
    refine bind_congr_ok fun _ _ => ?_
    refine bind_congr_ok fun graphs hgraphs => ?_
    rw [hedges doc (elim_eq_ok.mp hdoc) graphs hgraphs]
    rfl
  unfold extractAndWriteSpecialFields
  rw [hextract]

theorem writeOps_at {w : Write} (h : ExtractsAlike c db w.2) (bypass : Bool) (ts : ℕ) :
    writeOps (c.at t) db bypass ts w = writeOps (c.at t') db bypass ts w := by
  simp only [writeOps, storeWriteOps, documentWriteOps, extractAndWriteSpecialFields_at t t' h]

mutual

private theorem deepEqual_at (x y : Json) :
    Json.deepEqual (c.at t) x y = Json.deepEqual (c.at t') x y := by
  cases x <;> cases y <;> simp only [Json.deepEqual]
  case num.num => rfl
  case arr.arr xs ys => exact deepEqualList_at xs ys
  case obj.obj fs gs => rw [deepEqualFields_at fs gs]
  case foreign.foreign x y => exact deepEqual_at x y

private theorem deepEqualList_at (xs ys : List Json) :
    Json.deepEqualList (c.at t) xs ys = Json.deepEqualList (c.at t') xs ys := by
  match xs, ys with
  | [], [] => rfl
  | [], _ :: _ => rfl
  | _ :: _, [] => rfl
  | x :: xs, y :: ys =>
    simp only [Json.deepEqualList]
    rw [deepEqual_at x y, deepEqualList_at xs ys]

private theorem deepEqualFields_at (fs gs : List (Bytes × Json)) :
    Json.deepEqualFields (c.at t) fs gs = Json.deepEqualFields (c.at t') fs gs := by
  match fs with
  | [] => rfl
  | (k, v) :: fs =>
    simp only [Json.deepEqualFields]
    rw [deepEqualFields_at fs gs]
    cases gs.lookup k with
    | none => rfl
    | some w =>
      dsimp only
      rw [deepEqual_at v w]

end

theorem applyTransformOps_at {ops : List TransformOp} (h : ∀ op ∈ ops, op.op ≠ .currentDate)
    (doc : LinkedObj) : applyTransformOps (c.at t) doc ops = applyTransformOps (c.at t') doc ops := by
  induction ops generalizing doc with
  | nil => rfl
  | cons op ops ih =>
    have hop : applyTransformOp (c.at t) doc op = applyTransformOp (c.at t') doc op := by
      have hdate := h op mem_cons_self
      rcases op with ⟨path, type, value⟩
      cases type with
      | currentDate => exact absurd rfl hdate
      | pull =>
        simp only [applyTransformOp, pullOp, deepEqual_at t t']
        rfl
      | addToSet =>
        simp only [applyTransformOp, addToSetOp, deepEqual_at t t']
        rfl
      | _ => rfl
    change applyTransformOps (c.at t) ((applyTransformOp (c.at t) doc op).getD doc) ops =
      applyTransformOps (c.at t') ((applyTransformOp (c.at t') doc op).getD doc) ops
    rw [hop]
    exact ih (fun op' hop' => h op' (mem_cons_of_mem op hop')) _

theorem resolveTransform_at {s : Transform} (hdates : ∀ op ∈ s.operations, op.op ≠ .currentDate)
    (hexpiry : db.cachedTTLDuration = 0 ∨ db.get? (timestampKey s.key) = none) :
    resolveTransform (c.at t) db s = resolveTransform (c.at t') db s := by
  have hget : getDocument (c.at t) db s.key = getDocument (c.at t') db s.key := by
    have hexpired : isDocumentExpired (c.at t) db s.key = isDocumentExpired (c.at t') db s.key := by
      unfold isDocumentExpired
      rcases hexpiry with hexpiry | hexpiry
      · rw [if_pos hexpiry, if_pos hexpiry]
      · rw [hexpiry]
    have hembedding : entryEmbedding (c.at t) s.key = entryEmbedding (c.at t') s.key := rfl
    unfold getDocument
    rw [hexpired, hembedding]
    rfl
  unfold resolveTransform
  rw [hget]
  simp only [applyTransformOps_at t t' hdates]
  rfl

theorem flushed_at {p : Pending} (h : p.ReadsNoClock c db) {level level' : SyncLevel}
    (happ : ∀ k ∈ p.keys, appliesKey db level.bypasses k = appliesKey db level'.bypasses k)
    (ts : ℕ) : flushed (c.at t) db p level ts = flushed (c.at t') db p level' ts := by
  have hresolve : ∀ s ∈ p.transforms, ∀ t t' : Clock,
      resolveTransform (c.at t) db s = resolveTransform (c.at t') db s := fun s hs t t' =>
    resolveTransform_at t t' (h.dates s hs) (h.expiry s hs)
  have hwrites : flushWrites (c.at t) db p.writes p.transforms =
      flushWrites (c.at t') db p.writes p.transforms := by
    unfold flushWrites resolveTransforms
    rw [mapM_congr fun s hs => hresolve s hs t t']
  have hstored : ∀ w ∈ flushWrites (c.at t') db p.writes p.transforms,
      w.1 ∈ p.keys ∧ ExtractsAlike c db w.2 := by
    intro w hw
    rcases exists_of_mem_flushWrites hw with hw | ⟨s, hs, hw⟩
    · exact ⟨p.write_key hw, h.extracted w hw⟩
    · refine ⟨?_, h.resolved s hs w ?_⟩
      · rw [key_of_resolveTransform hw]
        exact p.transform_key hs
      · -- `c` itself is the codec at its own clock.
        rw [hresolve s hs t' ⟨c.now, c.nowRFC3339, c.termOrder⟩] at hw
        exact hw
  have hdeletes : p.deletes.flatMap (deleteOps db level.bypasses) =
      p.deletes.flatMap (deleteOps db level'.bypasses) := by
    refine flatMap_congr fun d hd => ?_
    rw [deleteOps, deleteOps, happ d (p.delete_key hd)]
  have hcontent : contentOps (c.at t) db level.bypasses ts
      (flushWrites (c.at t') db p.writes p.transforms) p.deletes =
        contentOps (c.at t') db level'.bypasses ts
          (flushWrites (c.at t') db p.writes p.transforms) p.deletes := by
    unfold contentOps
    rw [hdeletes, mapM_congr fun w hw => ?_]
    rw [writeOps_at t t' (hstored w hw).2, writeOps, writeOps, happ w.1 (hstored w hw).1]
  have hcaptured : ∀ capture, captured db capture level.bypasses
      (flushWrites (c.at t') db p.writes p.transforms) p.deletes =
        captured db capture level'.bypasses (flushWrites (c.at t') db p.writes p.transforms)
          p.deletes := by
    intro capture
    refine Prod.ext (filter_congr fun w hw => ?_) (filter_congr fun d hd => ?_)
    · rw [happ w.1 (hstored w hw).1]
    · rw [happ d (p.delete_key hd)]
  have hbatch : batch (c.at t) db (flushWrites (c.at t') db p.writes p.transforms) p.deletes level
      ts = batch (c.at t') db (flushWrites (c.at t') db p.writes p.transforms) p.deletes level'
        ts := by
    cases hops : contentOps (c.at t') db level'.bypasses ts
        (flushWrites (c.at t') db p.writes p.transforms) p.deletes with
    | error e => rw [batch_of_error hops, batch_of_error (hcontent.trans hops)]
    | ok ops =>
      rw [batch_of_ok hops, batch_of_ok (hcontent.trans hops), hcaptured, hcaptured]
  unfold flushed flushBatch applyOpBatch
  rw [hwrites, hbatch]

theorem committedIntentOps_at {intent : TxnIntent}
    (h : intent.isDelete = false → ExtractsAlike c db intent.value) (userKey : Bytes) (v : ℕ) :
    committedIntentOps (c.at t) db userKey intent v =
      committedIntentOps (c.at t') db userKey intent v := by
  have hshould : shouldWriteValue (c.at t) db (keyRangeStart userKey) v =
      shouldWriteValue (c.at t') db (keyRangeStart userKey) v := rfl
  unfold committedIntentOps
  split
  · rfl
  · rename_i hdelete
    have hvalue : ExtractsAlike c db intent.value := h (Bool.eq_false_iff.mpr hdelete)
    rw [hshould]
    unfold committedValueOps
    rw [extractAndWriteSpecialFields_at t t' hvalue]

end Clock

namespace StoreDB

/-- Where an operation reads the surroundings of a replica, two replicas find the same. -/
def SameReadings (c : Codec) (s : StoreDB) (l l' : Surroundings) : CommittedOp → Prop
  | .initTransaction _ => l.clock.unix = l'.clock.unix
  | .commitTransaction txnID => (∃ r, loadTxnRecord s.coreDB txnID = .ok r) →
      l.clock.unix = l'.clock.unix
  | .abortTransaction txnID => (∃ r, loadTxnRecord s.coreDB txnID = .ok r) →
      l.clock.unix = l'.clock.unix
  | .finalizeSplit newRangeEnd => newRangeEnd ≠ [] → s.splitState ≠ none →
      (fixSplitDeltaFinalSeq s.coreDB).splitDeltaFinalSeq ≠ 0 → l.childReplayed = l'.childReplayed
  | .resolveIntents op => op.status = .committed →
      ∀ e ∈ transactionIntents s.coreDB op.txnID, ∀ intent, e.2 = .txnIntent intent →
        intent.isDelete = false → ExtractsAlike c s.coreDB intent.value
  | _ => True

theorem finalizeTransaction_congr {db : DBImpl} {txnID : Bytes} {status : TxnStatus} {v : ℕ}
    {now now' : ℤ} (h : (∃ r, loadTxnRecord db txnID = .ok r) → now = now') :
    finalizeTransaction db txnID status v now = finalizeTransaction db txnID status v now' := by
  unfold finalizeTransaction
  refine bind_congr_ok fun record hrecord => ?_
  rw [h ⟨record, hrecord⟩]

theorem applyCommitted_congr {c : Codec} {s : StoreDB} {l l' : Surroundings} {op : CommittedOp}
    (h : s.SameReadings c l l' op) :
    (s.applyCommitted c l op).1 = (s.applyCommitted c l' op).1 := by
  cases op with
  | initTransaction op =>
    have hunix : l.clock.unix = l'.clock.unix := h
    simp only [applyCommitted, hunix]
    rfl
  | commitTransaction txnID =>
    have hfinalize : finalizeTransaction s.coreDB txnID .committed 0 l.clock.unix =
        finalizeTransaction s.coreDB txnID .committed 0 l'.clock.unix :=
      finalizeTransaction_congr h
    simp only [applyCommitted, applyOp, commitTransaction, hfinalize]
  | abortTransaction txnID =>
    have hfinalize : finalizeTransaction s.coreDB txnID .aborted 0 l.clock.unix =
        finalizeTransaction s.coreDB txnID .aborted 0 l'.clock.unix :=
      finalizeTransaction_congr h
    simp only [applyCommitted, applyOp, abortTransaction, hfinalize]
  | finalizeSplit newRangeEnd =>
    have hread : newRangeEnd ≠ [] → s.splitState ≠ none →
        (fixSplitDeltaFinalSeq s.coreDB).splitDeltaFinalSeq ≠ 0 →
          l.childReplayed = l'.childReplayed := h
    simp only [applyCommitted, applyOp, applyOpFinalizeSplit]
    split
    · rfl
    · rename_i hend
      rw [List.isEmpty_iff] at hend
      split
      · rfl
      · rename_i st hst
        by_cases hseq : (fixSplitDeltaFinalSeq s.coreDB).splitDeltaFinalSeq = 0
        · simp [withCore, hseq]
        · rw [hread hend (by simp [hst]) hseq]
  | resolveIntents op =>
    have hread : op.status = .committed →
        ∀ e ∈ transactionIntents s.coreDB op.txnID, ∀ intent, e.2 = .txnIntent intent →
          intent.isDelete = false → ExtractsAlike c s.coreDB intent.value := h
    have hops : (transactionIntents s.coreDB op.txnID).flatMap
        (resolveIntentOps (c.at l.clock) s.coreDB op) =
          (transactionIntents s.coreDB op.txnID).flatMap
            (resolveIntentOps (c.at l'.clock) s.coreDB op) := by
      refine flatMap_congr fun e he => ?_
      unfold resolveIntentOps
      split
      · rename_i intent _ _ hintent _
        split
        · rename_i hstatus
          rw [committedIntentOps_at l.clock l'.clock (hread hstatus e he intent hintent)]
        · rfl
      · rfl
    simp only [applyCommitted, applyOp, Antfly.resolveIntents, hops]
  | _ => rfl

end StoreDB

/-- The entries a replica has read. -/
def entries (events : List CommitEvent) : List Entry :=
  events.filterMap fun
    | .entry e _ => some e
    | .commitEnd _ => none

/-- The entries with the surroundings they were read in. -/
def readings (events : List CommitEvent) : List (Entry × Surroundings) :=
  events.filterMap fun
    | .entry e l => some (e, l)
    | .commitEnd _ => none

theorem readings_append (events events' : List CommitEvent) :
    readings (events ++ events') = readings events ++ readings events' :=
  filterMap_append

theorem exists_of_readings {events : List CommitEvent} {done rest : List (Entry × Surroundings)}
    {e : Entry} {l : Surroundings} (h : readings events = done ++ (e, l) :: rest) :
    ∃ pre post, events = pre ++ .entry e l :: post ∧ readings pre = done := by
  obtain ⟨pre, tail, rfl, hpre, htail⟩ := filterMap_eq_append_iff.mp h
  obtain ⟨skipped, ev, post, rfl, hskipped, hev, -⟩ := filterMap_eq_cons_iff.mp htail
  refine ⟨pre ++ skipped, post, ?_, ?_⟩
  · cases ev with
    | entry e' l' =>
      cases hev
      simp
    | commitEnd l' => cases hev
  · have hnil : readings skipped = [] := filterMap_eq_nil_iff.mpr hskipped
    rw [readings_append, hnil, append_nil]
    exact hpre

theorem entries_eq (events : List CommitEvent) :
    entries events = (readings events).map Prod.fst := by
  rw [entries, readings, map_filterMap]
  refine filterMap_congr fun ev _ => ?_
  cases ev <;> rfl

namespace ReadCommits

variable (c : Codec)

/-- One entry by itself. -/
def applyEntry (s : StoreDB) : Entry × Surroundings → StoreDB
  | (.batch id b, l) => applyAlone c l s (id, b)
  | (.op _ op, l) => (s.applyCommitted c l op).1
  | (.unsupported _, _) => s
  | (.unreadable, _) => s

def oneByOne (s : StoreDB) (log : List (Entry × Surroundings)) : StoreDB :=
  log.foldl (applyEntry c) s

/-- What a batch has to meet for every replica to apply it alike. -/
structure AppliedAlike (s : ReadCommits) (id : Bytes) (b : BatchOp) : Prop where
  /-- An empty batch before it has not left its timestamp or a copy's sync level. -/
  fresh : s.pending.isEmpty = true →
    (s.pending.batchTimestamp = 0 ∨ s.pending.batchTimestamp = b.timestamp) ∧
      ∀ u ∈ s.pending.uuids, u.2 ≠ .internalMergeCopy
  readsNoClock : ∀ l, (Pending.alone id b).ReadsNoClock c (s.applied c l)
  /-- A merge copy needs no bypass, which only replicas with a callback give it. -/
  copies : b.syncLevel = .internalMergeCopy → ∀ l, ∀ k ∈ (Pending.alone id b).keys,
    ownsKey (s.applied c l) k = true
  joins : s.pending.isEmpty = false → s.JoinsAlways c id b
  /-- Each delta log gets the mutations of the waiting batches or of this one. -/
  capturedApart : s.pending.isEmpty = false → ∀ l : Surroundings,
    CapturedApart (c.at l.clock) s.store.coreDB (s.applied c l)
        ((s.pending.add id b).effectiveSyncLevel l.hasCallback).bypasses b.timestamp
        (capturesSplit s.store.coreDB) s.pending (.alone id b) ∧
      CapturedApart (c.at l.clock) s.store.coreDB (s.applied c l)
        ((s.pending.add id b).effectiveSyncLevel l.hasCallback).bypasses b.timestamp
        (capturesMerge s.store.coreDB) s.pending (.alone id b)

/-- Whatever flush comes next leaves the store of the entries one at a time. -/
structure Follows (s : ReadCommits) (q : StoreDB) : Prop where
  nodup : (s.pending.transforms.map Transform.key).Nodup
  store : ∀ l, (s.flush c l).store = q

theorem flush_store (l : Surroundings) (s : ReadCommits) : (s.flush c l).store =
    s.store.withCore (flushed (c.at l.clock) s.store.coreDB s.pending
      (s.pending.effectiveSyncLevel l.hasCallback) s.pending.batchTimestamp) := by
  rw [← flush_coreDB]
  unfold flush
  split <;> rfl

theorem applyAlone_store (l : Surroundings) (s : StoreDB) (id : Bytes) (b : BatchOp) :
    applyAlone c l s (id, b) = s.withCore (flushed (c.at l.clock) s.coreDB (.alone id b)
      ((Pending.alone id b).effectiveSyncLevel l.hasCallback) b.timestamp) := by
  have hts : (Pending.alone id b).batchTimestamp = b.timestamp := rfl
  rw [applyAlone, flush_store, ← hts]
  rfl

variable {c}

variable {s : ReadCommits} {q : StoreDB} {id : Bytes} {b : BatchOp}

theorem Follows.flush (h : Follows c s q) (l : Surroundings) : Follows c (s.flush c l) q := by
  refine ⟨?_, fun l' => ?_⟩
  · obtain ⟨-, -, ht⟩ := (Pending.isEmpty_iff _).mp (flush_isEmpty c l s)
    simp [ht]
  · rw [flush_of_isEmpty c l' (flush_isEmpty c l s)]
    exact h.store l

theorem flushed_alone {db : DBImpl} {id : Bytes} {b : BatchOp}
    (hclock : (Pending.alone id b).ReadsNoClock c db)
    (hcopies : b.syncLevel = .internalMergeCopy → ∀ k ∈ (Pending.alone id b).keys,
      ownsKey db k = true) (l l' : Surroundings) :
    flushed (c.at l.clock) db (.alone id b)
        ((Pending.alone id b).effectiveSyncLevel l.hasCallback) b.timestamp =
      flushed (c.at l'.clock) db (.alone id b)
        ((Pending.alone id b).effectiveSyncLevel l'.hasCallback) b.timestamp := by
  refine flushed_at _ _ hclock (fun k hk => ?_) _
  by_cases hcopy : b.syncLevel = .internalMergeCopy
  · rw [appliesKey, appliesKey, hcopies hcopy k hk, Bool.or_true, Bool.or_true]
  · rw [Pending.bypasses_alone hcopy, Pending.bypasses_alone hcopy]

private theorem Follows.addBatch_of_isEmpty (h : Follows c s q) (hb : s.AppliedAlike c id b)
    (hempty : s.pending.isEmpty = true) (l' : Surroundings) :
    Follows c (s.addBatch id b) (applyAlone c l' q (id, b)) := by
  refine ⟨Pending.nodup_add h.nodup id b, fun l => ?_⟩
  have hstore : s.store = q := by rw [← h.store l, flush_of_isEmpty c l hempty]
  have happlied : s.applied c l = q.coreDB := by rw [applied, h.store l]
  obtain ⟨htime, hcopies⟩ := hb.fresh hempty
  have hown : ∀ hcopy : b.syncLevel = .internalMergeCopy, ∀ k ∈ (Pending.alone id b).keys,
      ownsKey q.coreDB k = true := fun hcopy k hk => happlied ▸ hb.copies hcopy l k hk
  have hclock : (Pending.alone id b).ReadsNoClock c q.coreDB := happlied ▸ hb.readsNoClock l
  rw [flush_store, applyAlone_store, ← flushed_alone hclock hown l l', ← hstore]
  exact congrArg s.store.withCore
    (flushed_add_of_isEmpty hempty htime fun u hu _ => hcopies u hu)

private theorem Follows.addBatch_joined (h : Follows c s q) (hb : s.AppliedAlike c id b)
    (hempty : s.pending.isEmpty = false) (hts : b.timestamp = s.pending.batchTimestamp)
    (l' : Surroundings) :
    Follows c (s.addBatch id b) (applyAlone c l' q (id, b)) := by
  refine ⟨Pending.nodup_add h.nodup id b, fun l => ?_⟩
  have happlied : s.applied c l = q.coreDB := by rw [applied, h.store l]
  have htime := Pending.batchTimestamp_add hts id
  have hdb₁ : flushed (c.at l.clock) s.store.coreDB s.pending
      (s.pending.effectiveSyncLevel l.hasCallback) b.timestamp = s.applied c l := by
    rw [applied, flush_coreDB, hts]
  obtain ⟨hown₁, hown₂⟩ := (hb.joins hempty).ownership l
  obtain ⟨hsplit, hmerge⟩ := hb.capturedApart hempty l
  have hjoined := flushed_add_eq h.nodup hdb₁ ((hb.joins hempty).coalesces l) hown₁ hown₂ hsplit
    hmerge
  have hown : ∀ hcopy : b.syncLevel = .internalMergeCopy, ∀ k ∈ (Pending.alone id b).keys,
      ownsKey q.coreDB k = true := fun hcopy k hk => happlied ▸ hb.copies hcopy l k hk
  have hclock : (Pending.alone id b).ReadsNoClock c q.coreDB := happlied ▸ hb.readsNoClock l
  rw [happlied] at hjoined
  rw [flush_store, applyAlone_store, ← flushed_alone hclock hown l l', ← hjoined, ← h.store l]
  change s.store.withCore (flushed _ s.store.coreDB (s.pending.add id b) _
    (s.pending.add id b).batchTimestamp) = _
  rw [htime, flush_store]
  rfl

theorem Follows.entry (h : Follows c s q) {e : Entry} {l : Surroundings} (l' : Surroundings)
    (hbatch : ∀ id b, e = .batch id b → (s.flushOther c l b).AppliedAlike c id b)
    (hop : ∀ id op, e = .op id op → (q.applyCommitted c l' op).1 = (q.applyCommitted c l op).1) :
    Follows c (s.entry c l e) (applyEntry c q (e, l')) := by
  cases e with
  | batch id b =>
    have hb := hbatch id b rfl
    have hflushed : Follows c (s.flushOther c l b) q := by
      unfold flushOther
      split
      · exact h.flush l
      · exact h
    change Follows c ((s.flushOther c l b).addBatch id b) _
    cases hempty : (s.flushOther c l b).pending.isEmpty with
    | true => exact hflushed.addBatch_of_isEmpty hb hempty l'
    | false => exact hflushed.addBatch_joined hb hempty (flushOther_batchTimestamp c l hempty) l'
  | op id op =>
    refine ⟨(h.flush l).nodup, fun l'' => ?_⟩
    have hstore : ((s.entry c l (.op id op)).flush c l'').store =
        ((s.flush c l).store.applyCommitted c l op).1 := by
      have hnone : (s.entry c l (.op id op)).pending.isEmpty = true := flush_isEmpty c l s
      rw [flush_of_isEmpty c l'' hnone]
      rfl
    rw [hstore, h.store l]
    exact (hop id op rfl).symm
  | unsupported id =>
    refine ⟨h.nodup, fun l'' => ?_⟩
    rw [flush_store]
    exact (flush_store c l'' s).symm.trans (h.store l'')
  | unreadable => exact h

theorem follows_log {s₀ : StoreDB} {events : List CommitEvent}
    {log : List (Entry × Surroundings)} (hlog : entries events = log.map Prod.fst)
    (hbatch : ∀ pre id b l post, events = pre ++ .entry (.batch id b) l :: post →
      (((start s₀).run c pre).flushOther c l b).AppliedAlike c id b)
    (hop : ∀ pre id op l post done l' rest, events = pre ++ .entry (.op id op) l :: post →
      log = done ++ (.op id op, l') :: rest → entries pre = done.map Prod.fst →
        ((oneByOne c s₀ done).applyCommitted c l' op).1 =
          ((oneByOne c s₀ done).applyCommitted c l op).1) :
    Follows c ((start s₀).run c events) (oneByOne c s₀ log) := by
  induction events using List.reverseRecOn generalizing log with
  | nil =>
    obtain rfl : log = [] := map_eq_nil_iff.mp hlog.symm
    exact ⟨by simp [start, run, Pending.empty], fun l => rfl⟩
  | append_singleton events ev ih =>
    rw [run_append]
    cases ev with
    | commitEnd l =>
      have hentries : entries (events ++ [.commitEnd l]) = entries events := by
        simp [entries]
      rw [hentries] at hlog
      refine (ih hlog (fun pre id b l₁ post hevents => ?_) ?_).flush l
      · exact hbatch pre id b l₁ (post ++ [.commitEnd l]) (by simp [hevents])
      · intro pre id op l₁ post done l' rest hevents
        exact hop pre id op l₁ (post ++ [.commitEnd l]) done l' rest (by simp [hevents])
    | entry e l =>
      have hentries : entries (events ++ [.entry e l]) = entries events ++ [e] := by
        simp [entries]
      rw [hentries] at hlog
      obtain ⟨done, last, rfl, hdone, hlast⟩ := map_eq_append_iff.mp hlog.symm
      obtain ⟨⟨e', l'⟩, rfl, rfl⟩ : ∃ x, last = [x] ∧ x.1 = e := by
        simpa [map_eq_singleton_iff] using hlast
      have hfollows := ih hdone.symm (fun pre id b l₁ post hevents =>
          hbatch pre id b l₁ (post ++ [.entry e' l]) (by simp [hevents]))
        fun pre id op l₁ post done' l₂ rest hevents hdone' =>
          hop pre id op l₁ (post ++ [.entry e' l]) done' l₂ (rest ++ [(e', l')])
            (by simp [hevents]) (by simp [hdone'])
      have hnext : oneByOne c s₀ (done ++ [(e', l')]) =
          applyEntry c (oneByOne c s₀ done) (e', l') := by
        simp [oneByOne]
      rw [hnext]
      refine hfollows.entry l' (fun id b he => ?_) fun id op he => ?_
      · subst he
        exact hbatch events id b l [] rfl
      · subst he
        exact hop events id op l [] done l' [] rfl rfl hdone.symm

/-- Two replicas that read the same log end in the same store. -/
theorem replicas_agree {s₀ : StoreDB} {events events' : List CommitEvent}
    (hlog : entries events = entries events')
    (h : ∀ pre id b l post, events = pre ++ .entry (.batch id b) l :: post →
      (((start s₀).run c pre).flushOther c l b).AppliedAlike c id b)
    (h' : ∀ pre id b l post, events' = pre ++ .entry (.batch id b) l :: post →
      (((start s₀).run c pre).flushOther c l b).AppliedAlike c id b)
    (hread : ∀ pre id op l post pre' l' post', events = pre ++ .entry (.op id op) l :: post →
      events' = pre' ++ .entry (.op id op) l' :: post' → entries pre = entries pre' →
        (((start s₀).run c pre).flush c l).store.SameReadings c l l' op) (l l' : Surroundings) :
    ((start s₀).run c (events ++ [.commitEnd l])).store =
      ((start s₀).run c (events' ++ [.commitEnd l'])).store := by
  have hfollows : ∀ pre post, events = pre ++ post →
      Follows c ((start s₀).run c pre) (oneByOne c s₀ (readings pre)) := by
    intro pre post hevents
    refine follows_log (entries_eq pre) (fun pre₁ id b l₁ post₁ hpre => ?_) ?_
    · exact h pre₁ id b l₁ (post₁ ++ post) (by simp [hevents, hpre])
    · intro pre₁ id op l₁ post₁ done l₂ rest hpre hreadings hdone
      -- Both are the reading at one position of the log.
      have hlength : (readings pre₁).length = done.length := by
        rw [entries_eq] at hdone
        simpa using congrArg List.length hdone
      rw [hpre, readings_append] at hreadings
      obtain ⟨-, hsame⟩ := List.append_inj hreadings hlength
      obtain ⟨⟨-, rfl⟩, -⟩ : (Entry.op id op = Entry.op id op ∧ l₁ = l₂) ∧ _ := by
        simpa [readings] using hsame
      rfl
  have hfollows' : Follows c ((start s₀).run c events') (oneByOne c s₀ (readings events)) := by
    refine follows_log (by rw [← hlog, entries_eq]) h' ?_
    intro pre' id op l₂ post' done l₁ rest hevents' hreadings hdone
    obtain ⟨pre, post, hevents, rfl⟩ := exists_of_readings hreadings
    have hread' := hread pre id op l₁ post pre' l₂ post' hevents hevents'
      (by rw [hdone, entries_eq])
    rw [(hfollows pre _ hevents).store l₁] at hread'
    exact StoreDB.applyCommitted_congr hread'
  rw [run_append, run_append]
  exact ((hfollows events [] (by simp)).store l).trans (hfollows'.store l').symm

def clockAt (second : ℕ) : Surroundings := { quiet with clock := .inOrder (second * 1000000000) }

/-- Replicas that apply the start of a transaction at different seconds store different records. -/
theorem replicas_disagree_on_record :
    ¬∀ (c : Codec) (s₀ : StoreDB) (events events' : List CommitEvent),
      entries events = entries events' → ∀ l l' : Surroundings,
        ((start s₀).run c (events ++ [.commitEnd l])).store.coreDB.pdb =
          ((start s₀).run c (events' ++ [.commitEnd l'])).store.coreDB.pdb := by
  intro hclaim
  let op : CommittedOp := .initTransaction ⟨List.replicate 16 1, 5, []⟩
  have hsame := hclaim .emptyObject (.create ⟨[], []⟩) [.entry (.op [] op) (clockAt 0)]
    [.entry (.op [] op) (clockAt 1)] rfl quiet quiet
  have hrecord := congrArg (fun m => OrdMap.get? m (makeTxnKey (List.replicate 16 1))) hsame
  revert hrecord
  decide

/-- A write of document `a`. -/
def writeOfA : BatchOp := ⟨[(ascii ['a'], ascii ['\x7b', '\x7d'])], [], [], .write, 0⟩

private theorem writeOfA_appliedAlike (l : Surroundings) :
    ((start (.create ⟨[], []⟩)).flushOther .emptyObject l writeOfA).AppliedAlike .emptyObject [1]
      writeOfA := by
  change (start _).AppliedAlike _ _ _
  refine ⟨by decide, fun _ => ⟨fun w hw => ?_, fun t ht => absurd ht not_mem_nil,
    fun t ht => absurd ht not_mem_nil, fun t ht => absurd ht not_mem_nil⟩,
    fun hcopy => absurd hcopy (by decide), fun hne => absurd hne (by decide),
    fun hne => absurd hne (by decide)⟩
  obtain rfl : w = (ascii ['a'], ascii ['\x7b', '\x7d']) := mem_singleton.mp hw
  refine ⟨fun doc hdoc => ?_, fun doc hdoc terms hterms => ?_⟩
  · obtain rfl : [] = doc := Option.some.inj hdoc
    rfl
  · obtain rfl : [] = doc := Option.some.inj hdoc
    cases hterms

/-- The start of a transaction, read at the second `2`. -/
def initAtTwo : CommitEvent :=
  .entry (.op [] (.initTransaction ⟨List.replicate 16 1, 5, []⟩)) (clockAt 2)

/-- A log in one commit. -/
def inOneCommit : List CommitEvent := [.entry (.batch [1] writeOfA) (clockAt 0), initAtTwo]

/-- The same log in two commits. -/
def inTwoCommits : List CommitEvent :=
  [.entry (.batch [1] writeOfA) (clockAt 1), .commitEnd (clockAt 1), initAtTwo]

theorem replicas_agree_sample :
    ((start (.create ⟨[], []⟩)).run .emptyObject (inOneCommit ++ [.commitEnd (clockAt 2)])).store =
      ((start (.create ⟨[], []⟩)).run .emptyObject
        (inTwoCommits ++ [.commitEnd (clockAt 3)])).store := by
  have hlog : entries inOneCommit = entries inTwoCommits := rfl
  refine replicas_agree hlog (fun pre id b l post hevents => ?_) (fun pre id b l post hevents => ?_)
    (fun pre id op l post pre' l' post' hevents hevents' _ => ?_) _ _
  · rw [inOneCommit, initAtTwo] at hevents
    rcases pre with _ | ⟨ev₁, _ | ⟨ev₂, pre⟩⟩
    · obtain ⟨⟨⟨rfl, rfl⟩, -⟩, -⟩ : (([1] = id ∧ writeOfA = b) ∧ clockAt 0 = l) ∧ _ = post := by
        simpa using hevents
      exact writeOfA_appliedAlike l
    · simp at hevents
    · simp at hevents
  · rw [inTwoCommits, initAtTwo] at hevents
    rcases pre with _ | ⟨ev₁, _ | ⟨ev₂, _ | ⟨ev₃, pre⟩⟩⟩
    · obtain ⟨⟨⟨rfl, rfl⟩, -⟩, -⟩ : (([1] = id ∧ writeOfA = b) ∧ clockAt 1 = l) ∧ _ = post := by
        simpa using hevents
      exact writeOfA_appliedAlike l
    · simp at hevents
    · simp at hevents
    · simp at hevents
  · have hmem : CommitEvent.entry (.op id op) l ∈ inOneCommit := by
      rw [hevents]
      simp
    have hmem' : CommitEvent.entry (.op id op) l' ∈ inTwoCommits := by
      rw [hevents']
      simp
    rw [inOneCommit, initAtTwo] at hmem
    rw [inTwoCommits, initAtTwo] at hmem'
    obtain ⟨⟨-, rfl⟩, rfl⟩ : (id = [] ∧ op = .initTransaction ⟨List.replicate 16 1, 5, []⟩) ∧
        l = clockAt 2 := by simpa using hmem
    obtain ⟨-, rfl⟩ : id = [] ∧ l' = clockAt 2 := by simpa using hmem'
    exact rfl

end ReadCommits

end Antfly
