import Antfly.Metadata.BatchPlans

/-!
A request is sent in full when the shards take every insert, every delete and every transform of it
once, each at a shard that owns its key, the transforms of one key in the order of the request, and
no delete takes effect after an insert of its key.  The handlers do so for a request whose inserts
are not exactly one, unless there is nothing else in it, whose transforms of one key are all the
same, and which inserts no key it deletes.
-/

namespace Antfly.Metadata

open Grouped List Fallible

inductive Effect where
  | insert (key : Bytes)
  | delete (key : Bytes)
  deriving DecidableEq

/-- A shard runs the writes of a call and then its deletes, in `DBImpl.Batch` and, as intents, in
`WriteIntent`. -/
def Send.effects (s : Send) : List Effect :=
  s.writes.map (fun w => .insert w.1) ++ s.deletes.map .delete

/-- No delete takes effect after an insert of its key. -/
def DeletesFirst (effects : List Effect) : Prop :=
  ∀ key, ¬ [Effect.insert key, .delete key].Sublist effects

theorem deletesFirst_effects_iff (s : Send) :
    DeletesFirst s.effects ↔ ∀ key ∈ s.deletes, key ∉ s.writes.map Prod.fst := by
  constructor
  · intro h key hdelete hwrite
    obtain ⟨w, hw, rfl⟩ := mem_map.mp hwrite
    apply h w.1
    have hinsert : [Effect.insert w.1].Sublist (s.writes.map fun w => Effect.insert w.1) :=
      singleton_sublist.mpr (mem_map_of_mem hw)
    have htail : [Effect.delete w.1].Sublist (s.deletes.map Effect.delete) :=
      singleton_sublist.mpr (mem_map_of_mem hdelete)
    exact hinsert.append htail
  · intro h key hsub
    have hinsert : Effect.insert key ∈ s.effects := hsub.subset (by simp)
    have hdelete : Effect.delete key ∈ s.effects := hsub.subset (by simp)
    unfold Send.effects at hinsert hdelete
    simp only [mem_append, mem_map, Effect.insert.injEq, Effect.delete.injEq,
      reduceCtorEq, and_false, exists_false, or_false, false_or, exists_eq_right] at hinsert hdelete
    obtain ⟨w, hw, rfl⟩ := hinsert
    exact h w.1 hdelete (mem_map_of_mem hw)

section InFull

variable (m : Marshaller) (table : BatchTable) (statuses : OrdMap ℕ ShardStatus) (timestamp : Bytes)

/-- The shard whose range holds the key, or the one that takes its writes during a transition. -/
def OwnsKey (key : Bytes) (id : ℕ) : Prop :=
  findShardForKey table.ranges key = some id ∨ writeShard table statuses key = some (.ok id)

def BatchRequest.operations (req : BatchRequest) (ts : List Transform) : Operations where
  writes := (req.withTimestamps timestamp).inserts.entries.map fun e => (e.1, m.doc e.2)
  deletes := req.deletes
  transforms := ts

def BatchRequest.encodeTransforms (req : BatchRequest) : Except BatchError (List Transform) :=
  req.transforms.elems.mapM (transformFromAPI m)

structure SentInFull (req : BatchRequest) (sends : List Send) : Prop where
  operations : ∃ ts, req.encodeTransforms m = .ok ts ∧
    (carried sends).Same (req.operations m timestamp ts)
  owner : ∀ s ∈ sends, ∀ key ∈ s.keys, OwnsKey table statuses key s.shardID
  deletesFirst : ∀ s ∈ sends, DeletesFirst s.effects

def BatchRequest.shards (kvs : BatchRequest) : List ℕ :=
  labels (shardOf table statuses)
    (kvs.insertKeys ++ kvs.deletes ++ kvs.transforms.elems.map ApiTransform.key)

/-- The client does not cancel the request while its operations are sent. -/
def Uninterrupted (e : Cluster) (kvs : BatchRequest) : Prop :=
  if kvs.inserts.entries.isEmpty ∧ kvs.deletes.isEmpty ∧ kvs.transforms.elems.length = 1 then True
  else if kvs.inserts.entries.isEmpty ∧ kvs.transforms.elems.isEmpty ∨
      (kvs.shards table statuses).length ≤ 1 then
    ∀ id ∈ kvs.shards table statuses, e.cancelled id = false
  else e.initTransaction ≠ .cancelled ∧
    (∀ id ∈ kvs.shards table statuses, e.writeIntent id ≠ .cancelled) ∧
    e.commitTransaction ≠ .cancelled

/-- The requests that are sent in full: `kvs` is the body decoded over the request of the pool,
`req` the body by itself. -/
def SendsEverything (e : Cluster) (kvs req : BatchRequest) : Prop :=
  e.splitCheck ≠ .cancelled ∧
    if req.inserts.entries.length = 1 then req.deletes = [] ∧ req.transforms.elems = []
    else (kvs.encodeTransforms m).map lastTransforms = req.encodeTransforms m ∧
      (∀ key ∈ req.deletes, key ∉ req.insertKeys) ∧ Uninterrupted table statuses e kvs

end InFull

section Requests

variable {m : Marshaller} {table : BatchTable} {statuses : OrdMap ℕ ShardStatus} {timestamp : Bytes}

@[simp] theorem insertKeys_withTimestamps (timestamp : Bytes) (kvs : BatchRequest) :
    (kvs.withTimestamps timestamp).insertKeys = kvs.insertKeys := by
  simp [BatchRequest.insertKeys, BatchRequest.withTimestamps, Function.comp_def]

@[simp] theorem deletes_withTimestamps (kvs : BatchRequest) :
    (kvs.withTimestamps timestamp).deletes = kvs.deletes := rfl

@[simp] theorem transforms_withTimestamps (kvs : BatchRequest) :
    (kvs.withTimestamps timestamp).transforms = kvs.transforms := rfl

theorem operations_eq (req : BatchRequest) (ts : List Transform) :
    req.operations m timestamp ts =
      ⟨req.insertKeys.map (marshalled m (req.withTimestamps timestamp).inserts), req.deletes, ts⟩ := by
  have hkeys := insertKeys_withTimestamps timestamp req
  unfold BatchRequest.insertKeys at hkeys
  unfold BatchRequest.operations BatchRequest.insertKeys
  rw [← hkeys, map_marshalled]

theorem key_transformFromAPI {t : ApiTransform} {t' : Transform}
    (h : transformFromAPI m t = .ok t') : t.key ≠ [] ∧ t'.key = t.key := by
  unfold transformFromAPI at h
  split at h
  · cases h
  · rename_i hkey
    simp only [bind_eq_ok, pure_eq_ok] at h
    obtain ⟨ops, -, rfl⟩ := h
    exact ⟨by simpa using hkey, rfl⟩

variable {ts : List Transform} {kvs : BatchRequest}

theorem map_key_encodeTransforms {req : BatchRequest} (h : req.encodeTransforms m = .ok ts) :
    ts.map Transform.key = req.transforms.elems.map ApiTransform.key ∧
      ∀ t ∈ req.transforms.elems, t.key ≠ [] := by
  unfold BatchRequest.encodeTransforms at h
  rw [mapM_eq_ok_iff] at h
  generalize req.transforms.elems = us at h ⊢
  induction h with
  | nil => simp
  | cons ht _ ih =>
    obtain ⟨hne, hkey⟩ := key_transformFromAPI ht
    refine ⟨by simp [hkey, ih.1], ?_⟩
    intro t hmem
    rcases mem_cons.mp hmem with rfl | hmem
    · exact hne
    · exact ih.2 t hmem

structure PlanFor (m : Marshaller) (table : BatchTable) (statuses : OrdMap ℕ ShardStatus)
    (kvs : BatchRequest) (ts : List Transform) (p : Plan) : Prop where
  encoded : kvs.encodeTransforms m = .ok ts
  planned : Planned (shardOf table statuses) kvs.insertKeys kvs.deletes ts p
  found : ∀ key ∈ kvs.insertKeys ++ kvs.deletes ++ kvs.transforms.elems.map ApiTransform.key,
    writeShard table statuses key = some (.ok (shardOf table statuses key))

theorem planFor_of_partitions {kvs : BatchRequest} {ts : List Transform}
    {writes deletes keys : Partitions}
    (hwrites : partitionWriteKeysByShard table statuses kvs.insertKeys = .ok writes)
    (hdeletes : partitionWriteKeysByShard table statuses kvs.deletes = .ok deletes)
    (hencoded : kvs.encodeTransforms m = .ok ts)
    (hkeys : partitionWriteKeysByShard table statuses
      (kvs.transforms.elems.map ApiTransform.key) = .ok keys) :
    PlanFor m table statuses kvs ts ⟨writes, deletes, partitionTransforms ts keys⟩ := by
  obtain ⟨rfl, hfw⟩ := partitionWriteKeysByShard_eq_ok hwrites
  obtain ⟨rfl, hfd⟩ := partitionWriteKeysByShard_eq_ok hdeletes
  obtain ⟨rfl, hft⟩ := partitionWriteKeysByShard_eq_ok hkeys
  refine ⟨hencoded, ⟨rfl, rfl, ?_⟩, ?_⟩
  · rw [(map_key_encodeTransforms hencoded).1]
  · intro key hkey
    rw [mem_append, mem_append] at hkey
    rcases hkey with (hkey | hkey) | hkey
    · exact hfw key hkey
    · exact hfd key hkey
    · exact hft key hkey

theorem planRequest_eq_ok {p : Plan} (h : planRequest m table statuses kvs = .ok p) :
    ∃ ts, PlanFor m table statuses kvs ts p := by
  simp only [planRequest, bind_eq_ok, pure_eq_ok] at h
  obtain ⟨writes, hwrites, deletes, hdeletes, ts, hts, keys, hkeys, rfl⟩ := h
  exact ⟨ts, planFor_of_partitions hwrites hdeletes hts hkeys⟩

namespace PlanFor

variable {kvs : BatchRequest} {ts : List Transform} {p : Plan}
  (h : PlanFor m table statuses kvs ts p)
include h

theorem mem_shards {id : ℕ} : id ∈ p.shards ↔ id ∈ kvs.shards table statuses := by
  rw [h.planned.mem_shards, (map_key_encodeTransforms h.encoded).1]
  simp only [BatchRequest.shards, mem_labels, mem_append]
  constructor
  · rintro (⟨key, hkey, hid⟩ | ⟨key, hkey, hid⟩ | ⟨key, hkey, hid⟩)
    · exact ⟨key, .inl (.inl hkey), hid⟩
    · exact ⟨key, .inl (.inr hkey), hid⟩
    · exact ⟨key, .inr hkey, hid⟩
  · rintro ⟨key, (hkey | hkey) | hkey, hid⟩
    · exact .inl ⟨key, hkey, hid⟩
    · exact .inr (.inl ⟨key, hkey, hid⟩)
    · exact .inr (.inr ⟨key, hkey, hid⟩)

theorem length_shards : p.shards.length = (kvs.shards table statuses).length := by
  apply List.Perm.length_eq
  apply (perm_ext_iff_of_nodup h.planned.nodup_shards (nodup_labels _)).mpr
  intro id
  exact h.mem_shards

theorem sentInFull {inserts : OrdMap Bytes Obj} {sends : List Send} {req : BatchRequest}
    (hs : p.shards.mapM (p.send m inserts) = .ok sends)
    (hinserts : inserts = (req.withTimestamps timestamp).inserts)
    (hkeys : kvs.insertKeys = req.insertKeys) (hdeletes : kvs.deletes = req.deletes)
    (hlast : req.encodeTransforms m = .ok (lastTransforms ts))
    (hdisjoint : ∀ key ∈ req.deletes, key ∉ req.insertKeys) :
    SentInFull m table statuses timestamp req sends := by
  constructor
  · refine ⟨_, hlast, ?_⟩
    rw [operations_eq, ← hinserts, ← hkeys, ← hdeletes]
    exact h.planned.carried_sends hs
  · intro s hmem key hkey
    obtain ⟨id, -, hsend⟩ := exists_of_mem_mapM hs hmem
    have hof := h.planned.send_eq_ok hsend
    obtain ⟨hid, hkeys⟩ := hof.shard_of_key hkey
    right
    rw [hof.shardID, ← hid]
    apply h.found
    rw [(map_key_encodeTransforms h.encoded).1] at hkeys
    rw [mem_append, mem_append, or_assoc]
    exact hkeys
  · intro s hmem
    obtain ⟨id, -, hsend⟩ := exists_of_mem_mapM hs hmem
    have hof := h.planned.send_eq_ok hsend
    rw [deletesFirst_effects_iff, hof.writeKeys, hof.deletes]
    intro key hdelete hwrite
    apply hdisjoint key
    · rw [← hdeletes]
      exact (mem_group.mp hdelete).1
    · rw [← hkeys]
      exact (mem_group.mp hwrite).1

end PlanFor

end Requests

variable {e : Cluster} {tasks : List (ℕ × Except BatchError Send)} {sends : List Send}

theorem exists_task_of_runGroup (h : runGroup e tasks = .ok sends) {s : Send} (hs : s ∈ sends) :
    ∃ t ∈ tasks, t.2 = .ok s ∧ e.cancelled t.1 = false := by
  simp only [runGroup, bind_eq_ok, pure_eq_ok] at h
  obtain ⟨sent, hsent, rfl⟩ := h
  obtain ⟨ss, hss, hmem⟩ := mem_flatten.mp hs
  obtain ⟨t, ht, hrun⟩ := exists_of_mem_mapM hsent hss
  unfold runTask at hrun
  split at hrun
  · rw [Except.ok.injEq] at hrun
    subst hrun
    exact absurd hmem not_mem_nil
  · rename_i hcancelled
    simp only [bind_eq_ok] at hrun
    obtain ⟨s', hs', hrun⟩ := hrun
    split at hrun
    · rw [pure_eq_ok] at hrun
      subst hrun
      obtain rfl := mem_singleton.mp hmem
      exact ⟨t, ht, hs', by simpa using hcancelled⟩
    · cases hrun

theorem mapM_of_runGroup (h : runGroup e tasks = .ok sends)
    (hrun : ∀ t ∈ tasks, e.cancelled t.1 = false) :
    tasks.mapM Prod.snd = .ok sends := by
  simp only [runGroup, bind_eq_ok, pure_eq_ok] at h
  obtain ⟨sent, hsent, rfl⟩ := h
  rw [mapM_eq_ok_iff] at hsent ⊢
  induction hsent with
  | nil => exact .nil
  | @cons t ss ts sss ht _ ih =>
    have htask := hrun t mem_cons_self
    simp only [runTask, htask, Bool.false_eq_true, if_false, bind_eq_ok] at ht
    obtain ⟨s, hs, ht⟩ := ht
    split at ht
    · rw [pure_eq_ok] at ht
      subst ht
      exact .cons hs (ih fun t' ht' => hrun t' (mem_cons_of_mem t ht'))
    · cases ht

theorem executeTransaction_eq_ok {sent : List Send} (h : executeTransaction e sends = .ok sent) :
    sent = sends ∧ e.initTransaction = .done ∧
      (∀ s ∈ sends, e.writeIntent s.shardID = .done) ∧ e.commitTransaction = .done := by
  simp only [executeTransaction, bind_eq_ok, pure_eq_ok] at h
  obtain ⟨_, hinit, us, hintents, _, hcommit, rfl⟩ := h
  have hdone : ∀ {a : TxnAnswer} {u : Unit}, a.toExcept = .ok u → a = .done := by
    intro a u ha
    cases a <;> first | rfl | cases ha
  refine ⟨rfl, hdone hinit, ?_, hdone hcommit⟩
  intro s hs
  obtain ⟨u, hu⟩ := exists_mapM_ok_iff.mp ⟨us, hintents⟩ s hs
  exact hdone hu

theorem executeTransaction_cancelled (h : executeTransaction e sends = .error .cancelled) :
    e.initTransaction = .cancelled ∨ (∃ s ∈ sends, e.writeIntent s.shardID = .cancelled) ∨
      e.commitTransaction = .cancelled := by
  have hcancelled : ∀ {a : TxnAnswer}, a.toExcept = .error .cancelled → a = .cancelled := by
    intro a ha
    cases a <;> first | rfl | cases ha
  unfold executeTransaction at h
  cases hinit : e.initTransaction.toExcept with
  | error f =>
    rw [hinit] at h
    cases h
    exact .inl (hcancelled hinit)
  | ok =>
    rw [hinit] at h
    cases hintents : sends.mapM fun s => (e.writeIntent s.shardID).toExcept with
    | error f =>
      rw [hintents] at h
      cases h
      obtain ⟨s, hs, hintent⟩ := exists_of_mapM_error hintents
      exact .inr (.inl ⟨s, hs, hcancelled hintent⟩)
    | ok us =>
      rw [hintents] at h
      cases hcommit : e.commitTransaction.toExcept with
      | error f =>
        rw [hcommit] at h
        cases h
        exact .inr (.inr (hcancelled hcommit))
      | ok =>
        rw [hcommit] at h
        cases h

section Routes

variable {m : Marshaller} {table : BatchTable} {statuses : OrdMap ℕ ShardStatus}
  {e : Cluster} {kvs : BatchRequest} {ts : List Transform} {p : Plan} {sends : List Send}

variable {inserts : OrdMap Bytes Obj}

theorem mapM_send_of_group (h : executeBatchNonTransactional m e p inserts = .ok sends)
    (hrun : ∀ id ∈ p.shards, e.cancelled id = false) :
    p.shards.mapM (p.send m inserts) = .ok sends := by
  have hmap := mapM_of_runGroup h (by
    intro t ht
    obtain ⟨id, hid, rfl⟩ := mem_map.mp ht
    exact hrun id hid)
  rw [mapM_map] at hmap
  exact hmap

theorem not_cancelled_of_group (h : executeBatchNonTransactional m e p inserts = .ok sends)
    {s : Send} (hs : s ∈ sends) :
    ∃ id ∈ p.shards, p.send m inserts id = .ok s ∧ e.cancelled id = false := by
  obtain ⟨t, ht, hsend, hrun⟩ := exists_task_of_runGroup h hs
  obtain ⟨id, hid, rfl⟩ := mem_map.mp ht
  exact ⟨id, hid, hsend, hrun⟩

namespace PlanFor

variable (h : PlanFor m table statuses kvs ts p)
include h

theorem ts_eq_nil_iff : ts = [] ↔ kvs.transforms.elems = [] := by
  have hkeys := (map_key_encodeTransforms h.encoded).1
  constructor
  · rintro rfl
    simpa using hkeys.symm
  · intro hnil
    simpa [hnil] using hkeys

theorem writes_isEmpty : p.writes.isEmpty ↔ kvs.inserts.entries.isEmpty := by
  simp [h.planned.writes, groups, labels_eq_nil, BatchRequest.insertKeys]

theorem transforms_isEmpty : p.transforms.isEmpty ↔ kvs.transforms.elems.isEmpty := by
  simp [h.planned.transforms, partitionTransforms, groups, labels_eq_nil, h.ts_eq_nil_iff]

theorem forwardDeletes_eq (hwrites : kvs.inserts.entries.isEmpty)
    (htransforms : kvs.transforms.elems.isEmpty) (inserts : OrdMap Bytes Obj) :
    forwardDeletes e p = executeBatchNonTransactional m e p inserts := by
  have hw : p.writes = [] := isEmpty_iff.mp (h.writes_isEmpty.mpr hwrites)
  have ht : p.transforms = [] := isEmpty_iff.mp (h.transforms_isEmpty.mpr htransforms)
  have hshards : p.shards = labels (shardOf table statuses) kvs.deletes := by
    simp [Plan.shards, hw, ht, h.planned.deletes, groups, Function.comp_def]
  unfold forwardDeletes executeBatchNonTransactional
  rw [hshards]
  nth_rewrite 1 [h.planned.deletes]
  unfold groups
  rw [map_map]
  congr 1
  apply map_congr_left
  intro id _
  have hentry := shardEntry_groups (shardOf table statuses) kvs.deletes id
  rw [← h.planned.deletes] at hentry
  unfold shardEntry at hentry
  simp [Plan.send, hw, ht, hentry, shardEntry, bind, Except.bind, pure, Except.pure]

theorem single_transform (inserts : OrdMap Bytes Obj) (hwrites : kvs.inserts.entries.isEmpty)
    (hdeletes : kvs.deletes.isEmpty) (hone : kvs.transforms.elems.length = 1) :
    ∃ id t, p.transforms = [(id, [t])] ∧
      p.shards.mapM (p.send m inserts) = .ok [⟨id, [], [], [t]⟩] := by
  have hkeys := (map_key_encodeTransforms h.encoded).1
  have hlen : ts.length = 1 := by
    rw [← hone, ← length_map (f := Transform.key), hkeys, length_map]
  obtain ⟨t, rfl⟩ := length_eq_one_iff.mp hlen
  have hw : p.writes = [] := isEmpty_iff.mp (h.writes_isEmpty.mpr hwrites)
  have hd : p.deletes = [] := by
    rw [h.planned.deletes, isEmpty_iff.mp hdeletes]
    rfl
  have ht : p.transforms = [(shardOf table statuses t.key, [t])] := by
    rw [h.planned.transforms]
    simp [partitionTransforms, groups, labels, group, transformMap]
  refine ⟨_, t, ht, ?_⟩
  have hshards : p.shards = [shardOf table statuses t.key] := by
    simp [Plan.shards, hw, hd, ht]
  rw [hshards]
  simp [Plan.send, hw, hd, ht, shardEntry, bind, Except.bind, pure, Except.pure]

theorem sends_of_not_cancelled (hsends : executeBatchNonTransactional m e p inserts = .ok sends)
    (hrun : ∀ id ∈ kvs.shards table statuses, e.cancelled id = false) :
    p.shards.mapM (p.send m inserts) = .ok sends := by
  apply mapM_send_of_group hsends
  intro id hid
  exact hrun id (h.mem_shards.mp hid)

theorem delete_not_sent (hdeletes : kvs.inserts.entries.isEmpty ∧ kvs.transforms.elems.isEmpty)
    (hsends : executeBatchNonTransactional m e p inserts = .ok sends)
    (hrun : ¬ ∀ id ∈ kvs.shards table statuses, e.cancelled id = false) :
    ∃ key ∈ kvs.deletes, ∀ s ∈ sends, key ∉ s.deletes := by
  push Not at hrun
  obtain ⟨id, hid, hcancelled⟩ := hrun
  obtain ⟨key, hkey, rfl⟩ := mem_labels.mp hid
  have hkeys : kvs.insertKeys = [] ∧ kvs.transforms.elems = [] := by
    refine ⟨?_, isEmpty_iff.mp hdeletes.2⟩
    simp [BatchRequest.insertKeys, isEmpty_iff.mp hdeletes.1]
  rw [hkeys.1, hkeys.2] at hkey
  have hdelete : key ∈ kvs.deletes := by simpa using hkey
  refine ⟨key, hdelete, ?_⟩
  intro s hs hmem
  obtain ⟨id, -, hsend, hnot⟩ := not_cancelled_of_group hsends hs
  have hof := h.planned.send_eq_ok hsend
  rw [hof.deletes] at hmem
  rw [← (mem_group.mp hmem).2] at hnot
  exact hcancelled hnot

theorem nothing_sent (hone : (kvs.shards table statuses).length ≤ 1)
    (hsends : executeBatchNonTransactional m e p inserts = .ok sends)
    (hrun : ¬ ∀ id ∈ kvs.shards table statuses, e.cancelled id = false) : sends = [] := by
  push Not at hrun
  obtain ⟨id, hid, hcancelled⟩ := hrun
  apply eq_nil_iff_forall_not_mem.mpr
  intro s hs
  obtain ⟨id', hid', -, hnot⟩ := not_cancelled_of_group hsends hs
  have hsame : id' = id := by
    have hmem := h.mem_shards.mp hid'
    obtain ⟨only, honly⟩ := length_eq_one_iff.mp (le_antisymm hone (length_pos_of_mem hid))
    rw [honly] at hmem hid
    rw [mem_singleton.mp hmem, mem_singleton.mp hid]
  rw [hsame] at hnot
  exact hcancelled hnot

/-- A transaction is sent as a whole or not at all. -/
theorem transaction_sends (hsends : executeBatchWithTransaction m e p inserts = .ok sends) :
    (e.initTransaction ≠ .cancelled ∧
        (∀ id ∈ kvs.shards table statuses, e.writeIntent id ≠ .cancelled) ∧
        e.commitTransaction ≠ .cancelled) ∧ p.shards.mapM (p.send m inserts) = .ok sends ∨
      ¬ (e.initTransaction ≠ .cancelled ∧
        (∀ id ∈ kvs.shards table statuses, e.writeIntent id ≠ .cancelled) ∧
        e.commitTransaction ≠ .cancelled) ∧ sends = [] := by
  simp only [executeBatchWithTransaction, bind_eq_ok] at hsends
  obtain ⟨all, hall, hsends⟩ := hsends
  have hids := h.planned.shardIDs_sends hall
  cases htxn : executeTransaction e all with
  | ok sent =>
    rw [htxn] at hsends
    simp only [pure_eq_ok] at hsends
    obtain ⟨rfl, hinit, hintents, hcommit⟩ := executeTransaction_eq_ok htxn
    subst hsends
    left
    refine ⟨⟨by simp [hinit], ?_, by simp [hcommit]⟩, hall⟩
    intro id hid
    rw [← h.mem_shards, ← hids] at hid
    obtain ⟨s, hs, rfl⟩ := mem_map.mp hid
    simp [hintents s hs]
  | error f =>
    rw [htxn] at hsends
    cases f with
    | failed => cases hsends
    | cancelled =>
      simp only [pure_eq_ok] at hsends
      subst hsends
      right
      refine ⟨?_, rfl⟩
      rintro ⟨hinit, hintents, hcommit⟩
      rcases executeTransaction_cancelled htxn with hc | ⟨s, hs, hc⟩ | hc
      · exact hinit hc
      · apply hintents s.shardID ?_ hc
        rw [← h.mem_shards, ← hids]
        exact mem_map_of_mem hs
      · exact hcommit hc

/-- A plan that is executed is sent as a whole, unless the client cancels the request; then nothing
is sent, or the deletes of a shard are not. -/
theorem executePlan_eq_ok {level : SyncLevel} {reply : Reply}
    (hreply : executePlan m e level kvs p = .ok reply) :
    Uninterrupted table statuses e kvs ∧ p.shards.mapM (p.send m kvs.inserts) = .ok reply.sends ∨
      ¬ Uninterrupted table statuses e kvs ∧
        (reply.sends = [] ∨ ∃ key ∈ kvs.deletes, ∀ s ∈ reply.sends, key ∉ s.deletes) := by
  unfold executePlan at hreply
  unfold Uninterrupted
  split at hreply
  · -- one transform
    rename_i hone
    obtain ⟨id, t, ht, hsends⟩ := h.single_transform kvs.inserts hone.1 hone.2.1
      hone.2.2
    rw [ht] at hreply
    simp only at hreply
    split at hreply
    · rw [Except.ok.injEq] at hreply
      subst hreply
      rw [if_pos hone]
      exact .inl ⟨trivial, hsends⟩
    · cases hreply
  · rename_i hone
    rw [if_neg hone]
    simp only [bind_eq_ok, pure_eq_ok] at hreply
    obtain ⟨sends, hsends, rfl⟩ := hreply
    unfold sendPlan at hsends
    by_cases hdeletes : kvs.inserts.entries.isEmpty ∧ kvs.transforms.elems.isEmpty
    · -- deletes only
      have hroute : p.writes.isEmpty ∧ p.transforms.isEmpty :=
        ⟨h.writes_isEmpty.mpr hdeletes.1, h.transforms_isEmpty.mpr hdeletes.2⟩
      rw [if_pos hroute, h.forwardDeletes_eq hdeletes.1 hdeletes.2 kvs.inserts] at hsends
      rw [if_pos (.inl hdeletes)]
      by_cases hrun : ∀ id ∈ kvs.shards table statuses, e.cancelled id = false
      · exact .inl ⟨hrun, h.sends_of_not_cancelled hsends hrun⟩
      · exact .inr ⟨hrun, .inr (h.delete_not_sent hdeletes hsends hrun)⟩
    · have hroute : ¬ (p.writes.isEmpty ∧ p.transforms.isEmpty) := by
        rw [h.writes_isEmpty, h.transforms_isEmpty]
        exact hdeletes
      rw [if_neg hroute, h.length_shards] at hsends
      by_cases hmany : 1 < (kvs.shards table statuses).length
      · -- a transaction
        rw [if_pos hmany] at hsends
        rw [if_neg (by
          rintro (hd | hle)
          · exact hdeletes hd
          · omega)]
        rcases h.transaction_sends hsends with hsent | ⟨hnot, hnone⟩
        · exact .inl hsent
        · exact .inr ⟨hnot, .inl hnone⟩
      · -- one shard
        rw [if_neg hmany] at hsends
        rw [if_pos (.inr (by omega))]
        by_cases hrun : ∀ id ∈ kvs.shards table statuses, e.cancelled id = false
        · exact .inl ⟨hrun, h.sends_of_not_cancelled hsends hrun⟩
        · exact .inr ⟨hrun, .inl (h.nothing_sent (by omega) hsends hrun)⟩

end PlanFor

end Routes

end Antfly.Metadata
