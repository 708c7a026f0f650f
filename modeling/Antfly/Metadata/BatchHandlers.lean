import Antfly.Metadata.BatchInFull

/-!
A success of `BatchWrite` comes from the route of one insert or from a plan.  The first sends the
insert and nothing else; the second sends the plan.  `MultiBatchWrite` always sends a plan.  What
the plan carries is compared with the request the body describes by itself, since the request from
the pool may bring transforms of a former one.
-/

namespace Antfly.Metadata

open Grouped List Fallible

variable {m : Marshaller} {table : BatchTable} {statuses : OrdMap ℕ ShardStatus} {timestamp : Bytes}
  {e : Cluster}

theorem decode_clear_deletes (pooled : BatchRequest) (body : BatchBody) :
    (pooled.clear.decode body).deletes = (BatchRequest.fresh.decode body).deletes := rfl

theorem decode_clear_insertKeys (pooled : BatchRequest) (body : BatchBody) :
    (pooled.clear.decode body).insertKeys = (BatchRequest.fresh.decode body).insertKeys := rfl

theorem map_key_decodeElems (stale : List ApiTransform) (bodies : List TransformBody)
    (h : ∀ t ∈ Slice.decodeElems ApiTransform.decode .zero [] bodies, t.key ≠ []) :
    ((Slice.decodeElems ApiTransform.decode .zero stale bodies).take bodies.length).map
        ApiTransform.key =
      (Slice.decodeElems ApiTransform.decode .zero [] bodies).map ApiTransform.key := by
  induction bodies generalizing stale with
  | nil => simp [Slice.decodeElems]
  | cons b bodies ih =>
    have hb : (ApiTransform.decode .zero b).key ≠ [] := h _ mem_cons_self
    obtain ⟨key, hkey⟩ : ∃ key, b.key = some key := by
      cases hk : b.key with
      | none => simp [ApiTransform.decode, ApiTransform.zero, hk] at hb
      | some key => exact ⟨key, rfl⟩
    have hrest : ∀ t ∈ Slice.decodeElems ApiTransform.decode .zero [] bodies, t.key ≠ [] :=
      fun t ht => h t (mem_cons_of_mem _ ht)
    cases stale with
    | nil =>
      simp only [Slice.decodeElems, length_cons, take_succ_cons, map_cons]
      rw [ih [] hrest]
    | cons a stale =>
      simp only [Slice.decodeElems, length_cons, take_succ_cons, map_cons]
      rw [ih stale hrest]
      simp [ApiTransform.decode, hkey]

theorem length_decodeElems (bodies : List TransformBody) :
    (Slice.decodeElems ApiTransform.decode .zero [] bodies).length = bodies.length := by
  induction bodies with
  | nil => rfl
  | cons b bodies ih => simp [Slice.decodeElems, ih]

theorem map_key_decode (pooled : BatchRequest) (body : BatchBody)
    (hne : (BatchRequest.fresh.decode body).transforms.elems ≠ [])
    (h : ∀ t ∈ (BatchRequest.fresh.decode body).transforms.elems, t.key ≠ []) :
    (pooled.decode body).transforms.elems.map ApiTransform.key =
      (BatchRequest.fresh.decode body).transforms.elems.map ApiTransform.key := by
  cases hts : body.transforms with
  | none => simp [BatchRequest.decode, BatchRequest.fresh, hts, Slice.elems, Slice.nil] at hne
  | some bodies =>
    cases bodies with
    | nil => simp [BatchRequest.decode, hts, Slice.decode]
    | cons b bodies =>
      have hall : ∀ t ∈ Slice.decodeElems ApiTransform.decode .zero [] (b :: bodies),
          t.key ≠ [] := by
        intro t ht
        apply h t
        have hlen := length_decodeElems (b :: bodies)
        simp only [BatchRequest.decode, BatchRequest.fresh, hts, Option.elim_some, Slice.decode,
          isEmpty_cons, Bool.false_eq_true, if_false, Slice.elems, Slice.nil]
        rw [← hlen, take_length]
        exact ht
      have hkeys := map_key_decodeElems pooled.transforms.backing (b :: bodies) hall
      have hfresh := map_key_decodeElems [] (b :: bodies) hall
      simp only [BatchRequest.decode, BatchRequest.fresh, hts, Option.elim_some, Slice.decode,
        isEmpty_cons, Bool.false_eq_true, if_false, Slice.elems, Slice.nil]
      rw [hkeys, hfresh]

variable {ts : List Transform} {key : Bytes} {sends : List Send} {s : Send} {kvs req : BatchRequest}
variable {p : Plan} {inserts : OrdMap Bytes Obj}

theorem transformMap_lastTransforms {t : Transform}
    (h : transformMap (lastTransforms ts) key = some t) :
    transformMap ts key = some t := by
  have hkey := key_of_transformMap h
  have hmem : t ∈ lastTransforms ts := mem_reverse.mp (mem_of_find?_eq_some h)
  obtain ⟨u, -, hu⟩ := mem_filterMap.mp hmem
  have hu' := key_of_transformMap hu
  rw [← hkey, hu', hu]

theorem lastTransforms_idem (ts : List Transform) :
    lastTransforms (lastTransforms ts) = lastTransforms ts := by
  have hself : ∀ t ∈ lastTransforms ts, transformMap (lastTransforms ts) t.key = some t := by
    intro t ht
    obtain ⟨u, hu⟩ := transformMap_isSome ht
    obtain ⟨v, -, hv⟩ := mem_filterMap.mp ht
    have hlast := transformMap_lastTransforms hu
    rw [← key_of_transformMap hv] at hv
    rw [hlast] at hv
    rw [hu, hv]
  unfold lastTransforms at hself ⊢
  conv_rhs => rw [← filterMap_some (l := List.filterMap _ ts)]
  apply filterMap_congr
  exact hself

theorem filter_shardID_of_nodup (hnd : (sends.map Send.shardID).Nodup) (hs : s ∈ sends) :
    sends.filter (fun s' => s'.shardID = s.shardID) = [s] := by
  induction sends with
  | nil => exact absurd hs not_mem_nil
  | cons a sends ih =>
    rw [map_cons, nodup_cons] at hnd
    have hother : ∀ s' ∈ sends, s'.shardID ≠ a.shardID := by
      intro s' hs' heq
      apply hnd.1
      rw [← heq]
      exact mem_map_of_mem hs'
    rcases mem_cons.mp hs with rfl | hs
    · rw [filter_cons_of_pos (by simp)]
      congr 1
      apply filter_eq_nil_iff.mpr
      intro s' hs'
      simpa using hother s' hs'
    · have hne : ¬ decide (a.shardID = s.shardID) = true := by
        simpa using (hother s hs).symm
      rw [filter_cons, if_neg hne]
      exact ih hnd.2 hs

theorem joinSends_of_nodup (hnd : (sends.map Send.shardID).Nodup) : joinSends sends = sends := by
  unfold joinSends
  rw [hnd.dedup, map_map]
  conv_rhs => rw [← map_id sends]
  apply map_congr_left
  intro s hs
  simp [filter_shardID_of_nodup hnd hs]

theorem planFor_withTimestamps :
    PlanFor m table statuses (kvs.withTimestamps timestamp) ts p ↔
      PlanFor m table statuses kvs ts p := by
  constructor
  · rintro ⟨hencoded, hplanned, hfound⟩
    simp only [insertKeys_withTimestamps, deletes_withTimestamps,
      transforms_withTimestamps] at hplanned hfound
    exact ⟨hencoded, hplanned, hfound⟩
  · rintro ⟨hencoded, hplanned, hfound⟩
    refine ⟨hencoded, ?_, ?_⟩
    · simpa only [insertKeys_withTimestamps, deletes_withTimestamps] using hplanned
    · simpa only [insertKeys_withTimestamps, deletes_withTimestamps,
        transforms_withTimestamps] using hfound

theorem uninterrupted_withTimestamps :
    Uninterrupted table statuses e (kvs.withTimestamps timestamp) ↔
      Uninterrupted table statuses e kvs := by
  have hempty : (kvs.withTimestamps timestamp).inserts.entries.isEmpty =
      kvs.inserts.entries.isEmpty := by
    simp [BatchRequest.withTimestamps]
  unfold Uninterrupted BatchRequest.shards
  rw [hempty, insertKeys_withTimestamps, deletes_withTimestamps, transforms_withTimestamps]

theorem partitionBatchRequest_eq_ok (hdata : req.isEmpty = false)
    (h : partitionBatchRequest m table statuses timestamp req = .ok sends) :
    ∃ ts p, PlanFor m table statuses req ts p ∧
      p.shards.mapM (p.send m (req.withTimestamps timestamp).inserts) = .ok sends := by
  simp only [partitionBatchRequest, hdata, Bool.false_eq_true, if_false,
    bind_eq_ok] at h
  obtain ⟨-, -, -, -, writes, hwrites, deletes, hdeletes, ts, hts, keys, hkeys, h⟩ := h
  have hencoded : (req.withTimestamps timestamp).encodeTransforms m = .ok ts := by
    unfold BatchRequest.encodeTransforms
    rw [mapM_eq_ok_iff] at hts ⊢
    apply hts.imp
    intro t t' ht
    obtain ⟨-, -, ht⟩ := bind_eq_ok.mp ht
    exact ht
  exact ⟨ts, _, planFor_withTimestamps.mp (planFor_of_partitions hwrites hdeletes hencoded hkeys),
    h⟩

theorem multiBatchWrite_eq_ok {topLevel : Bytes} {reply : Reply} (hdata : req.isEmpty = false)
    (h : multiBatchWrite m statuses timestamp e topLevel [(table, req)] = .ok reply) :
    ∃ ts p sends, PlanFor m table statuses req ts p ∧
      p.shards.mapM (p.send m (req.withTimestamps timestamp).inserts) = .ok sends ∧
      (e.splitCheck = .cancelled ∧ reply.sends = [] ∨
        e.splitCheck = .passed ∧ reply.sends = sends) := by
  simp only [multiBatchWrite, mapM_cons, mapM_nil, bind_eq_ok,
    pure_eq_ok] at h
  obtain ⟨level, -, parts, ⟨sends, hsends, -, rfl, rfl⟩, -, -, h⟩ := h
  obtain ⟨ts, p, hplan, hall⟩ := partitionBatchRequest_eq_ok hdata hsends
  have hnd : (sends.map Send.shardID).Nodup := by
    rw [hplan.planned.shardIDs_sends hall]
    exact hplan.planned.nodup_shards
  have hjoin : joinSends [sends].flatten = sends := by
    simpa using joinSends_of_nodup hnd
  rw [hjoin] at h
  refine ⟨ts, p, sends, hplan, hall, ?_⟩
  cases hcheck : e.splitCheck with
  | splitting =>
    rw [hcheck] at h
    cases h
  | cancelled =>
    rw [hcheck] at h
    cases h
    exact .inl ⟨rfl, rfl⟩
  | passed =>
    rw [hcheck] at h
    right
    refine ⟨rfl, ?_⟩
    simp only at h
    split at h
    · split at h
      · cases h
        rfl
      · cases h
    · split at h
      · rename_i htxn
        cases h
        exact (executeTransaction_eq_ok htxn).1
      · cases h

/-- Where the check for splitting shards is cancelled a request with a plan is a success. -/
theorem multiBatchWrite_of_cancelled
    (h : partitionBatchRequest m table statuses timestamp req = .ok sends) (hne : sends ≠ [])
    (hcheck : e.splitCheck = .cancelled) :
    ∃ reply, multiBatchWrite m statuses timestamp e [] [(table, req)] = .ok reply ∧
      reply.sends = [] := by
  have hjoin : joinSends [sends].flatten ≠ [] := by
    intro hnil
    unfold joinSends at hnil
    rw [map_eq_nil_iff, dedup_eq_nil, map_eq_nil_iff] at hnil
    exact hne (by simpa using hnil)
  have hsome : (joinSends [sends].flatten).isEmpty = false := by
    simpa using hjoin
  obtain ⟨level, hlevel⟩ : ∃ level, resolveSyncLevel [] [req] = .ok level := ⟨_, rfl⟩
  refine ⟨⟨200, [], [], level⟩, ?_, rfl⟩
  simp only [multiBatchWrite, map_cons, map_nil, mapM_cons, mapM_nil, hlevel, h,
    hcheck, bind, Except.bind, pure, Except.pure, hsome, Bool.false_eq_true, if_false]
  rfl

/-- A success of `BatchWrite`: one insert, or a plan that is executed unless the check for
splitting shards is cancelled. -/
theorem batchWrite_eq_ok {pooled : BatchRequest} {body : BatchBody} {reply : Reply}
    (h : batchWrite m table statuses timestamp e pooled body = .ok reply) :
    checkRequest table ((pooled.decode body).withTimestamps timestamp) = .ok () ∧
      ((∃ key s, (pooled.decode body).insertKeys = [key] ∧
          forwardInsertToShard m table statuses e
            ((pooled.decode body).withTimestamps timestamp).inserts key = .ok s ∧
          reply.sends = [s]) ∨
        ((pooled.decode body).insertKeys.length ≠ 1 ∧
          ∃ p, planRequest m table statuses ((pooled.decode body).withTimestamps timestamp) = .ok p ∧
            (e.splitCheck = .cancelled ∧ reply.sends = [] ∨
              e.splitCheck = .passed ∧ ∃ level, executePlan m e level
                ((pooled.decode body).withTimestamps timestamp) p = .ok reply))) := by
  simp only [batchWrite, bind_eq_ok] at h
  obtain ⟨-, -, level, -, u, hcheck, h⟩ := h
  refine ⟨hcheck, ?_⟩
  rw [← insertKeys_withTimestamps timestamp]
  split at h
  · rename_i key hkey
    simp only [bind_eq_ok, pure_eq_ok] at h
    obtain ⟨s, hs, rfl⟩ := h
    exact .inl ⟨key, s, hkey, hs, rfl⟩
  · rename_i hmany
    right
    constructor
    · intro hone
      obtain ⟨key, hkey⟩ := length_eq_one_iff.mp hone
      exact hmany key hkey
    · simp only [bind_eq_ok] at h
      obtain ⟨p, hp, h⟩ := h
      refine ⟨p, hp, ?_⟩
      cases hsplit : e.splitCheck with
      | splitting =>
        rw [hsplit] at h
        cases h
      | cancelled =>
        rw [hsplit] at h
        cases h
        exact .inl ⟨rfl, rfl⟩
      | passed =>
        rw [hsplit] at h
        exact .inr ⟨rfl, level, h⟩

theorem forwardInsertToShard_eq_ok
    (h : forwardInsertToShard m table statuses e inserts key = .ok s) :
    (∃ w, encodeWrite m inserts key = .ok w ∧ s.writes = [w] ∧ s.deletes = [] ∧
      s.transforms = []) ∧ OwnsKey table statuses key s.shardID ∧
      ∃ id, writeShard table statuses key = some (.ok id) := by
  unfold forwardInsertToShard at h
  simp only [bind_eq_ok] at h
  obtain ⟨w, hw, h⟩ := h
  cases hfound : findShardForKey table.ranges key with
  | none =>
    rw [hfound] at h
    cases h
  | some found =>
    rw [hfound] at h
    simp only at h
    cases hrouted : resolveWriteShardID statuses found with
    | error err =>
      rw [hrouted] at h
      cases h
    | ok routed =>
      rw [hrouted] at h
      have hshard : writeShard table statuses key = some (.ok routed) := by
        simp [writeShard, hfound, hrouted]
      simp only at h
      split at h
      · cases h
      · cases h
        exact ⟨⟨w, hw, rfl, rfl, rfl⟩, .inr hshard, routed, hshard⟩
      · cases h
        exact ⟨⟨w, hw, rfl, rfl, rfl⟩, .inl hfound, routed, hshard⟩

theorem carried_insert (h : forwardInsertToShard m table statuses e inserts key = .ok s) :
    carried [s] = ⟨[marshalled m inserts key], [], []⟩ ∧ s.keys = [key] := by
  obtain ⟨⟨w, hw, hwrites, hdeletes, htransforms⟩, -⟩ := forwardInsertToShard_eq_ok h
  obtain ⟨hkey, hmarshalled⟩ := encodeWrite_eq_ok hw
  constructor
  · simp [carried, hwrites, hdeletes, htransforms, ← hmarshalled]
  · simp [Send.keys, hwrites, hdeletes, htransforms, hkey]

theorem oneInsert_iff {req : BatchRequest} {key : Bytes} {s : Send}
    (hkey : req.insertKeys = [key])
    (hs : forwardInsertToShard m table statuses e (req.withTimestamps timestamp).inserts key =
      .ok s) :
    SentInFull m table statuses timestamp req [s] ↔
      req.deletes = [] ∧ req.transforms.elems = [] := by
  obtain ⟨hcarried, hkeys⟩ := carried_insert hs
  constructor
  · rintro ⟨⟨ts, hts, hsame⟩, -, -⟩
    rw [hcarried, operations_eq, hkey] at hsame
    have hnil : ts = [] := by
      apply eq_nil_iff_forall_not_mem.mpr
      intro t ht
      exact not_mem_nil (hsame.mem_transforms ht)
    refine ⟨perm_nil.mp hsame.deletes.symm, ?_⟩
    have hmap := (map_key_encodeTransforms hts).1
    simpa [hnil] using hmap.symm
  · rintro ⟨hdeletes, htransforms⟩
    obtain ⟨⟨w, -, hwrites, hnone, -⟩, howns, -⟩ := forwardInsertToShard_eq_ok hs
    constructor
    · refine ⟨[], ?_, ?_⟩
      · simp [BatchRequest.encodeTransforms, htransforms, pure, Except.pure]
      · rw [hcarried, operations_eq, hkey, hdeletes]
        exact ⟨List.Perm.refl _, List.Perm.refl _, fun _ => rfl⟩
    · intro s' hs' key' hkey'
      obtain rfl := mem_singleton.mp hs'
      rw [hkeys] at hkey'
      obtain rfl := mem_singleton.mp hkey'
      exact howns
    · intro s' hs'
      obtain rfl := mem_singleton.mp hs'
      rw [deletesFirst_effects_iff, hnone]
      intro key' hkey'
      exact absurd hkey' not_mem_nil

/-- `MultiBatchWrite` has a plan for a request of one insert that `BatchWrite` has sent. -/
theorem exists_partition_oneInsert {req : BatchRequest} {key : Bytes} {s : Send}
    (hcheck : ∃ us, (req.withTimestamps timestamp).inserts.entries.mapM (checkInsert table) =
      .ok us) (hkey : req.insertKeys = [key])
    (hs : forwardInsertToShard m table statuses e (req.withTimestamps timestamp).inserts key =
      .ok s) (hdeletes : req.deletes = []) (htransforms : req.transforms.elems = []) :
    ∃ sends, partitionBatchRequest m table statuses timestamp req = .ok sends ∧ sends ≠ [] := by
  obtain ⟨⟨w, hw, -⟩, -, id, hid⟩ := forwardInsertToShard_eq_ok hs
  have hdata : req.isEmpty = false := by
    cases hempty : req.isEmpty with
    | false => rfl
    | true =>
      simp only [BatchRequest.isEmpty, Bool.and_eq_true, List.isEmpty_iff] at hempty
      simp [BatchRequest.insertKeys, hempty.1.2] at hkey
  obtain ⟨us, hinserts⟩ := hcheck
  have hwrites : partitionWriteKeysByShard table statuses [key] =
      .ok (groups (shardOf table statuses) [key]) := by
    apply partitionWriteKeysByShard_of_found
    intro key' hkey'
    obtain rfl := mem_singleton.mp hkey'
    exact ⟨id, hid⟩
  have hnone : partitionWriteKeysByShard table statuses [] = .ok [] := rfl
  refine ⟨[⟨shardOf table statuses key, [w], [], []⟩], ?_, cons_ne_nil _ _⟩
  simp only [partitionBatchRequest, hdata, Bool.false_eq_true, if_false, hinserts,
    insertKeys_withTimestamps, hkey, deletes_withTimestamps, hdeletes, transforms_withTimestamps,
    htransforms, hwrites, hnone, mapM_nil, map_nil, bind, Except.bind, pure, Except.pure]
  simp [Plan.shards, groups, labels, group, partitionTransforms, Plan.send, shardEntry, hw,
    bind, Except.bind, pure, Except.pure]

theorem not_sentInFull_nil (hdata : req.isEmpty = false) :
    ¬ SentInFull m table statuses timestamp req [] := by
  rintro ⟨⟨ts, hts, hsame⟩, -, -⟩
  have hwrites := perm_nil.mp hsame.writes.symm
  have hdeletes := perm_nil.mp hsame.deletes.symm
  have hnil : ts = [] := by
    apply eq_nil_iff_forall_not_mem.mpr
    intro t ht
    exact not_mem_nil (hsame.mem_transforms ht)
  have hkeys := (map_key_encodeTransforms hts).1
  rw [hnil, map_nil] at hkeys
  have htransforms : req.transforms.elems = [] := by simpa using hkeys.symm
  have hinserts : req.inserts.entries = [] := by
    simpa [BatchRequest.operations, BatchRequest.withTimestamps] using hwrites
  have hdel : req.deletes = [] := hdeletes
  simp [BatchRequest.isEmpty, hinserts, hdel, htransforms] at hdata

/-- A plan over the request of the pool sends the request of the body only if it takes the same
transforms. -/
theorem lastTransforms_of_sentInFull {kvs req : BatchRequest} {ts : List Transform} {p : Plan}
    {inserts : OrdMap Bytes Obj} {sends : List Send}
    (hplan : PlanFor m table statuses kvs ts p)
    (hs : p.shards.mapM (p.send m inserts) = .ok sends)
    (hkeys : (∀ t ∈ req.transforms.elems, t.key ≠ []) → req.transforms.elems ≠ [] →
      kvs.transforms.elems.map ApiTransform.key = req.transforms.elems.map ApiTransform.key)
    (hfull : SentInFull m table statuses timestamp req sends) :
    (kvs.encodeTransforms m).map lastTransforms = req.encodeTransforms m := by
  obtain ⟨ts', hts', hsame⟩ := hfull.operations
  have hcarried := hplan.planned.carried_sends hs
  have hfilter := (hcarried.symm.trans hsame).transforms
  rw [hplan.encoded, hts']
  change Except.ok (lastTransforms ts) = Except.ok ts'
  congr 1
  obtain ⟨hkeys', hne⟩ := map_key_encodeTransforms hts'
  by_cases hnil : req.transforms.elems = []
  · have hts'nil : ts' = [] := by simpa [hnil] using hkeys'
    rw [hts'nil]
    apply eq_nil_iff_forall_not_mem.mpr
    intro t ht
    have hmem : t ∈ (lastTransforms ts).filter fun u => u.key = t.key := by simpa using ht
    have hnone := hfilter t.key
    simp only at hnone
    rw [hnone, hts'nil] at hmem
    exact not_mem_nil hmem
  · apply eq_of_groups (f := Transform.key)
    · rw [map_key_lastTransforms, (map_key_encodeTransforms hplan.encoded).1, hkeys', hkeys hne hnil]
    · exact hfilter

theorem disjoint_of_sentInFull (hplan : PlanFor m table statuses kvs ts p)
    (hs : p.shards.mapM (p.send m inserts) = .ok sends)
    (hinserts : kvs.insertKeys = req.insertKeys) (hdeletes : kvs.deletes = req.deletes)
    (hfull : SentInFull m table statuses timestamp req sends) :
    ∀ key ∈ req.deletes, key ∉ req.insertKeys := by
  intro key hdelete hinsert
  rw [← hdeletes] at hdelete
  rw [← hinserts] at hinsert
  have hid : shardOf table statuses key ∈ p.shards :=
    hplan.planned.mem_shards.mpr (.inl (mem_labels.mpr ⟨key, hinsert, rfl⟩))
  obtain ⟨ss, hmem, hss⟩ := exists_mem_of_mapM hs hid
  have hof := hplan.planned.send_eq_ok hss
  have hfirst := (deletesFirst_effects_iff ss).mp (hfull.deletesFirst ss hmem)
  apply hfirst key
  · rw [hof.deletes]
    exact mem_group.mpr ⟨hdelete, rfl⟩
  · rw [hof.writeKeys]
    exact mem_group.mpr ⟨hinsert, rfl⟩

/-- `BatchWrite` and `MultiBatchWrite` send a request in full exactly when it is one of those whose
operations all have a place in the route it takes. -/
theorem batch_sent_in_full_iff {pooled : BatchRequest} {body : BatchBody} {reply : Reply}
    (hdata : (BatchRequest.fresh.decode body).isEmpty = false)
    (h : batchWrite m table statuses timestamp e pooled.clear body = .ok reply) :
    SentInFull m table statuses timestamp (BatchRequest.fresh.decode body) reply.sends ∧
        (∀ topLevel multi, multiBatchWrite m statuses timestamp e topLevel
            [(table, BatchRequest.fresh.decode body)] = .ok multi →
          (carried multi.sends).Same (carried reply.sends)) ↔
      SendsEverything m table statuses e (pooled.clear.decode body)
        (BatchRequest.fresh.decode body) := by
  have hinserts := decode_clear_insertKeys pooled body
  have hdeletes := decode_clear_deletes pooled body
  have hkeys := map_key_decode pooled.clear body
  have hmap : ((pooled.clear.decode body).withTimestamps timestamp).inserts =
      ((BatchRequest.fresh.decode body).withTimestamps timestamp).inserts := rfl
  obtain ⟨hcheck, hroute⟩ := batchWrite_eq_ok h
  generalize pooled.clear.decode body = kvs at *
  generalize BatchRequest.fresh.decode body = req at *
  have hlen : req.inserts.entries.length = req.insertKeys.length := by
    simp [BatchRequest.insertKeys]
  unfold SendsEverything
  rw [hlen]
  rcases hroute with ⟨key, s, hkey, hs, hsends⟩ | ⟨hmany, p, hp, hroute⟩
  · -- one insert
    rw [hinserts] at hkey
    rw [hmap] at hs
    have hone := oneInsert_iff hkey hs
    rw [hkey, if_pos (show [key].length = 1 from rfl), hsends, hone]
    constructor
    · rintro ⟨hempty, hmulti⟩
      refine ⟨?_, hempty⟩
      intro hcancelled
      simp only [checkRequest, Fallible.bind_eq_ok, hmap] at hcheck
      obtain ⟨us, hus, -⟩ := hcheck
      obtain ⟨sends, hsends, hne⟩ :=
        exists_partition_oneInsert ⟨us, hus⟩ hkey hs hempty.1 hempty.2
      obtain ⟨multi, hok, hnil⟩ := multiBatchWrite_of_cancelled hsends hne hcancelled
      have hsame := hmulti [] multi hok
      rw [hnil, (carried_insert hs).1] at hsame
      exact List.cons_ne_nil _ _ (List.perm_nil.mp hsame.writes.symm)
    · rintro ⟨hrun, hempty⟩
      refine ⟨hempty, ?_⟩
      intro topLevel multi hmulti
      obtain ⟨ts, p, sends, hplan, hall, hcases⟩ := multiBatchWrite_eq_ok hdata hmulti
      rcases hcases with ⟨hcancelled, -⟩ | ⟨-, hsent⟩
      · exact absurd hcancelled hrun
      · obtain ⟨ts', hts', hsame⟩ := (hone.mpr hempty).operations
        have hts : ts = [] := hplan.ts_eq_nil_iff.mpr hempty.2
        have hcarried := hplan.planned.carried_sends hall
        rw [hsent]
        rw [hts'.symm.trans hplan.encoded |> Except.ok.inj, operations_eq, hts] at hsame
        rw [hts] at hcarried
        exact hcarried.trans hsame.symm
  · -- a plan
    obtain ⟨ts, hplan⟩ := planRequest_eq_ok hp
    rw [planFor_withTimestamps] at hplan
    rw [hinserts] at hmany
    rw [if_neg hmany]
    constructor
    · rintro ⟨hfull, -⟩
      rcases hroute with ⟨-, hnil⟩ | ⟨hpassed, level, hexec⟩
      · rw [hnil] at hfull
        exact absurd hfull (not_sentInFull_nil hdata)
      · refine ⟨by simp [hpassed], ?_⟩
        rcases (planFor_withTimestamps.mpr hplan).executePlan_eq_ok hexec with
          ⟨hrun, hsent⟩ | ⟨hrun, hnil | ⟨key, hkey, hmissing⟩⟩
        · exact ⟨lastTransforms_of_sentInFull hplan hsent (fun h h' => hkeys h' h) hfull,
            disjoint_of_sentInFull hplan hsent hinserts hdeletes hfull,
            uninterrupted_withTimestamps.mp hrun⟩
        · rw [hnil] at hfull
          exact absurd hfull (not_sentInFull_nil hdata)
        · obtain ⟨ts', -, hsame⟩ := hfull.operations
          have hmem : key ∈ (carried reply.sends).deletes := by
            apply hsame.deletes.mem_iff.mpr
            rw [deletes_withTimestamps, hdeletes] at hkey
            exact hkey
          obtain ⟨s, hs, hdelete⟩ := List.mem_flatMap.mp hmem
          exact absurd hdelete (hmissing s hs)
    · rintro ⟨hrun, hlast, hdisjoint, huninterrupted⟩
      rcases hroute with ⟨hcancelled, -⟩ | ⟨hpassed, level, hexec⟩
      · exact absurd hcancelled hrun
      rcases (planFor_withTimestamps.mpr hplan).executePlan_eq_ok hexec with
        ⟨-, hsent⟩ | ⟨hinterrupted, -⟩
      · rw [hplan.encoded] at hlast
        have hfull := hplan.sentInFull hsent hmap hinserts hdeletes hlast.symm hdisjoint
        refine ⟨hfull, ?_⟩
        intro topLevel multi hmulti
        obtain ⟨ts', p', sends, hplan', hall, hcases⟩ := multiBatchWrite_eq_ok hdata hmulti
        rcases hcases with ⟨hcancelled, -⟩ | ⟨-, hsent'⟩
        · exact absurd hcancelled hrun
        · have hts' : ts' = lastTransforms ts := by
            have hboth := hplan'.encoded.symm.trans hlast.symm
            exact Except.ok.inj hboth
          have hcarried := hplan'.planned.carried_sends hall
          have hcarried' := hplan.planned.carried_sends hsent
          rw [hts', lastTransforms_idem] at hcarried
          rw [hsent']
          apply hcarried.trans
          rw [hinserts, hdeletes, hmap] at hcarried'
          exact hcarried'.symm
      · exact absurd (uninterrupted_withTimestamps.mpr huninterrupted) hinterrupted

/-- A table of one shard that accepts every document. -/
def soloTable : BatchTable where
  shards := .ofList [(1, ⟨⟨[], []⟩, [], [], []⟩)]
  hasGraphIndexes := false
  validateDoc := fun _ => true

def soloStatuses : OrdMap ℕ ShardStatus :=
  .ofList [(1, { ShardInfo.new with id := 1, table := [], state := .default })]

/-- A cluster that accepts everything at once. -/
def accepting : Cluster where
  batchAnswers := fun _ => [.accepted]
  insertAnswers := [.routed .accepted]
  initTransaction := .done
  writeIntent := fun _ => .done
  commitTransaction := .done
  splitCheck := .passed
  cancelled := fun _ => false

/-- Every document is written as `{}` and every value as `0`. -/
def plainMarshaller : Marshaller where
  doc := fun _ => some (ascii ['\x7b', '\x7d'])
  value := fun _ => some (ascii ['0'])

/-- Two inserts and a delete. -/
def twoInserts : BatchBody where
  inserts := some [(ascii ['a'], []), (ascii ['b'], [])]
  deletes := some [ascii ['c']]
  transforms := none
  syncLevel := none

def insertAndDelete : BatchBody where
  inserts := some [(ascii ['a'], [])]
  deletes := some [ascii ['b']]
  transforms := none
  syncLevel := none

theorem batch_sent_in_full_sample : ∃ reply,
    batchWrite plainMarshaller soloTable soloStatuses [] accepting BatchRequest.fresh.clear
      twoInserts = .ok reply ∧
    SentInFull plainMarshaller soloTable soloStatuses [] (BatchRequest.fresh.decode twoInserts)
      reply.sends := by
  have h : batchWrite plainMarshaller soloTable soloStatuses [] accepting BatchRequest.fresh.clear
      twoInserts = .ok ⟨201, [⟨2, 1, 0⟩], [⟨1, [(ascii ['a'], ascii ['\x7b', '\x7d']),
        (ascii ['b'], ascii ['\x7b', '\x7d'])], [ascii ['c']], []⟩], .propose⟩ := rfl
  have hcondition : SendsEverything plainMarshaller soloTable soloStatuses accepting
      (BatchRequest.fresh.clear.decode twoInserts) (BatchRequest.fresh.decode twoInserts) := by
    refine ⟨by decide, ?_⟩
    rw [if_neg (by decide)]
    refine ⟨rfl, by decide, ?_⟩
    rw [Uninterrupted, if_neg (by decide), if_pos (by decide)]
    exact fun _ _ => rfl
  exact ⟨_, h, ((batch_sent_in_full_iff (by decide) h).mpr hcondition).1⟩

/-- The delete that comes with one insert is not sent, and the answer is a success. -/
theorem delete_dropped_with_one_insert : ∃ reply,
    batchWrite plainMarshaller soloTable soloStatuses [] accepting BatchRequest.fresh
      insertAndDelete = .ok reply ∧
    reply.status = 201 ∧
    ¬ SentInFull plainMarshaller soloTable soloStatuses []
      (BatchRequest.fresh.decode insertAndDelete) reply.sends := by
  have h : batchWrite plainMarshaller soloTable soloStatuses [] accepting BatchRequest.fresh
      insertAndDelete = .ok ⟨201, [], [⟨1, [(ascii ['a'], ascii ['\x7b', '\x7d'])], [], []⟩],
        .propose⟩ := rfl
  refine ⟨_, h, rfl, ?_⟩
  rintro ⟨⟨ts, -, hsame⟩, -, -⟩
  exact absurd hsame.deletes.length_eq Nat.zero_ne_one

end Antfly.Metadata
