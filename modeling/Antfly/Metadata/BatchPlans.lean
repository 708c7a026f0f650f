import Antfly.Metadata.BatchWrite

/-!
The partitions of a request hold its inserts and deletes once each, under the shard of their key.
Transforms are looked up by key, so that a plan carries the last transform of a key as often as the
request names the key.
-/

namespace Antfly.Metadata

open Grouped List

/-- The documents as they are marshalled, the deletes and the transforms. -/
structure Operations where
  writes : List (Bytes × Option Bytes)
  deletes : List Bytes
  transforms : List Transform

/-- The operations that calls of shards carry. -/
def carried (sends : List Send) : Operations where
  writes := (sends.flatMap Send.writes).map fun w => (w.1, some w.2)
  deletes := sends.flatMap Send.deletes
  transforms := sends.flatMap Send.transforms

/-- The same operations, each as often, and the transforms of one key in the same order. -/
structure Operations.Same (a b : Operations) : Prop where
  writes : a.writes.Perm b.writes
  deletes : a.deletes.Perm b.deletes
  transforms : ∀ key, a.transforms.filter (fun t => t.key = key) =
    b.transforms.filter fun t => t.key = key

namespace Operations.Same

variable {a b : Operations}

theorem symm (h : a.Same b) : b.Same a :=
  ⟨h.writes.symm, h.deletes.symm, fun key => (h.transforms key).symm⟩

theorem trans {c : Operations} (h : a.Same b) (h' : b.Same c) : a.Same c :=
  ⟨h.writes.trans h'.writes, h.deletes.trans h'.deletes,
    fun key => (h.transforms key).trans (h'.transforms key)⟩

theorem mem_transforms (h : a.Same b) {t : Transform} (ht : t ∈ b.transforms) :
    t ∈ a.transforms := by
  have hmem : t ∈ b.transforms.filter fun t' => t'.key = t.key := by simpa using ht
  rw [← h.transforms t.key] at hmem
  exact (mem_filter.mp hmem).1

end Operations.Same

/-- The document under a key as it is marshalled. -/
def marshalled (m : Marshaller) (inserts : OrdMap Bytes Obj) (key : Bytes) :
    Bytes × Option Bytes :=
  (key, m.doc ((inserts.get? key).getD []))

theorem map_marshalled (m : Marshaller) (inserts : OrdMap Bytes Obj) :
    (inserts.entries.map Prod.fst).map (marshalled m inserts) =
      inserts.entries.map fun e => (e.1, m.doc e.2) := by
  rw [map_map]
  apply map_congr_left
  intro e he
  have hget : inserts.get? e.1 = some e.2 := (inserts.mem_entries_iff e.1 e.2).mp he
  simp [marshalled, hget]

variable {m : Marshaller} {inserts : OrdMap Bytes Obj}

theorem encodeWrite_eq_ok {key : Bytes} {w : Write} (h : encodeWrite m inserts key = .ok w) :
    w.1 = key ∧ (w.1, some w.2) = marshalled m inserts key := by
  unfold encodeWrite at h
  rw [Fallible.elim_eq_ok, Option.map_eq_some_iff] at h
  obtain ⟨json, hjson, rfl⟩ := h
  simp [marshalled, hjson]

theorem map_of_mapM_encodeWrite {m : Marshaller} {inserts : OrdMap Bytes Obj} {keys : List Bytes}
    {ws : List Write} (h : keys.mapM (encodeWrite m inserts) = .ok ws) :
    ws.map Prod.fst = keys ∧ ws.map (fun w => (w.1, some w.2)) = keys.map (marshalled m inserts) := by
  rw [Fallible.mapM_eq_ok_iff] at h
  induction h with
  | nil => exact ⟨rfl, rfl⟩
  | cons hw _ ih =>
    have hhead := encodeWrite_eq_ok hw
    constructor
    · rw [map_cons, ih.1, hhead.1]
    · rw [map_cons, map_cons, ih.2, hhead.2]

section Partition

variable {table : BatchTable} {statuses : OrdMap ℕ ShardStatus}

theorem shardOf_eq {key : Bytes} {id : ℕ} (h : writeShard table statuses key = some (.ok id)) :
    shardOf table statuses key = id := by
  simp [shardOf, h]

variable {keys : List Bytes}

theorem partitionWriteKeysByShard_eq_ok {p : Partitions}
    (h : partitionWriteKeysByShard table statuses keys = .ok p) :
    p = groups (shardOf table statuses) keys ∧
      ∀ key ∈ keys, writeShard table statuses key = some (.ok (shardOf table statuses key)) := by
  unfold partitionWriteKeysByShard at h
  split at h
  · cases h
  · rename_i hnone
    split at h
    · rename_i hfound
      rw [Except.ok.injEq] at h
      refine ⟨h.symm, ?_⟩
      intro key hkey
      have herr := findSome?_eq_none_iff.mp hnone key hkey
      have hsome : ¬ (writeShard table statuses key).isNone = true := by
        rw [List.isEmpty_iff] at hfound
        exact filter_eq_nil_iff.mp hfound key hkey
      unfold routingError at herr
      match hw : writeShard table statuses key with
      | none => simp [hw] at hsome
      | some (.error _) => simp [hw] at herr
      | some (.ok id) => rw [shardOf_eq hw]
    · cases h

theorem partitionWriteKeysByShard_of_found
    (h : ∀ key ∈ keys, ∃ id, writeShard table statuses key = some (.ok id)) :
    partitionWriteKeysByShard table statuses keys = .ok (groups (shardOf table statuses) keys) := by
  unfold partitionWriteKeysByShard
  have hnone : keys.findSome? (routingError table statuses) = none := by
    apply findSome?_eq_none_iff.mpr
    intro key hkey
    obtain ⟨id, hid⟩ := h key hkey
    simp [routingError, hid]
  have hfound : unfoundKeys table statuses keys = [] := by
    apply filter_eq_nil_iff.mpr
    intro key hkey
    obtain ⟨id, hid⟩ := h key hkey
    simp [hid]
  simp only [hnone, hfound, isEmpty_nil, if_true]

end Partition

theorem lookup_map_self {α : Type} (ids : List ℕ) (g : ℕ → List α) (id : ℕ) :
    (ids.map fun i => (i, g i)).lookup id = if id ∈ ids then some (g id) else none := by
  induction ids with
  | nil => rfl
  | cons i ids ih =>
    rw [map_cons, lookup_cons, ih]
    by_cases h : id = i
    · subst h
      simp
    · have hbeq : (id == i) = false := by simpa using h
      simp [hbeq, h]

theorem shardEntry_groups (f : Bytes → ℕ) (keys : List Bytes) (id : ℕ) :
    shardEntry (groups f keys) id = group f keys id := by
  unfold shardEntry groups
  rw [lookup_map_self]
  split
  · rfl
  · rename_i h
    exact (group_eq_nil.mpr h).symm

variable {ts : List Transform} {t : Transform}

theorem key_of_transformMap {key : Bytes} (h : transformMap ts key = some t) : t.key = key := by
  simpa using find?_some h

theorem transformMap_isSome (h : t ∈ ts) : ∃ t', transformMap ts t.key = some t' := by
  apply Option.isSome_iff_exists.mp
  unfold transformMap
  rw [find?_isSome]
  exact ⟨t, mem_reverse.mpr h, by simp⟩

/-- What the lookup by key makes of a list of transforms. -/
def lastTransforms (ts : List Transform) : List Transform :=
  ts.filterMap fun t => transformMap ts t.key

theorem map_key_lastTransforms (ts : List Transform) :
    (lastTransforms ts).map Transform.key = ts.map Transform.key := by
  have hsub : ∀ us : List Transform, (∀ u ∈ us, u ∈ ts) →
      (us.filterMap fun t => transformMap ts t.key).map Transform.key =
        us.map Transform.key := by
    intro us hus
    induction us with
    | nil => rfl
    | cons u us ih =>
      obtain ⟨t, ht⟩ := transformMap_isSome (hus u mem_cons_self)
      rw [filterMap_cons, ht]
      simp only [map_cons]
      rw [key_of_transformMap ht, ih fun v hv => hus v (mem_cons_of_mem u hv)]
  exact hsub ts fun u hu => hu

theorem filterMap_group_of_key {f : Bytes → ℕ} {g : Bytes → Option Transform}
    (hg : ∀ key t, g key = some t → t.key = key) (us : List Transform) (id : ℕ) :
    (group f (us.map Transform.key) id).filterMap g =
      group (fun t => f t.key) (us.filterMap fun t => g t.key) id := by
  unfold group
  induction us with
  | nil => rfl
  | cons u us ih =>
    rw [map_cons, filter_cons, filterMap_cons]
    cases hu : g u.key with
    | none =>
      by_cases hid : f u.key = id
      · simp [hid, hu, ih]
      · simp [hid, ih]
    | some t =>
      have hkey : t.key = u.key := hg u.key t hu
      by_cases hid : f u.key = id
      · simp [hid, hu, ih, hkey]
      · simp [hid, ih, hkey]

theorem filterMap_group (f : Bytes → ℕ) (ts : List Transform) (id : ℕ) :
    (group f (ts.map Transform.key) id).filterMap (transformMap ts) =
      group (fun t => f t.key) (lastTransforms ts) id :=
  filterMap_group_of_key (fun _ _ h => key_of_transformMap h) ts id

theorem shardEntry_partitionTransforms (f : Bytes → ℕ) (ts : List Transform) (id : ℕ) :
    shardEntry (partitionTransforms ts (groups f (ts.map Transform.key))) id =
      group (fun t => f t.key) (lastTransforms ts) id := by
  rw [← filterMap_group]
  unfold shardEntry partitionTransforms groups
  rw [map_map]
  have hlookup := lookup_map_self (labels f (ts.map Transform.key))
    (fun id => (group f (ts.map Transform.key) id).filterMap (transformMap ts)) id
  rw [show ((fun e : ℕ × List Bytes => (e.1, e.2.filterMap (transformMap ts))) ∘
    fun id => (id, group f (ts.map Transform.key) id)) =
      fun id => (id, (group f (ts.map Transform.key) id).filterMap (transformMap ts)) from rfl,
    hlookup]
  split
  · rfl
  · rename_i h
    rw [group_eq_nil.mpr h]
    rfl

/-- A plan for some inserts, deletes and transforms, with the shards of `f`. -/
structure Planned (f : Bytes → ℕ) (keys deletes : List Bytes) (ts : List Transform) (p : Plan) :
    Prop where
  writes : p.writes = groups f keys
  deletes : p.deletes = groups f deletes
  transforms : p.transforms = partitionTransforms ts (groups f (ts.map Transform.key))

namespace Planned

variable {f : Bytes → ℕ} {keys deletes : List Bytes} {ts : List Transform} {p : Plan}
  (h : Planned f keys deletes ts p)
include h

theorem mem_shards {id : ℕ} : id ∈ p.shards ↔
    id ∈ labels f keys ∨ id ∈ labels f deletes ∨ id ∈ labels f (ts.map Transform.key) := by
  simp only [Plan.shards, h.writes, h.deletes, h.transforms, groups, partitionTransforms,
    map_map, mem_append, mem_filter, mem_map, Function.comp_apply,
    exists_eq_right, decide_eq_true_eq]
  tauto

theorem nodup_shards : p.shards.Nodup := by
  have hw : (p.writes.map Prod.fst).Nodup := by
    simpa [h.writes, groups, Function.comp_def] using nodup_labels keys
  have hd : (p.deletes.map Prod.fst).Nodup := by
    simpa [h.deletes, groups, Function.comp_def] using nodup_labels deletes
  have ht : (p.transforms.map Prod.fst).Nodup := by
    simpa [h.transforms, partitionTransforms, groups, Function.comp_def] using
      nodup_labels (ts.map Transform.key)
  unfold Plan.shards
  apply List.Nodup.append
  · apply List.Nodup.append hw (hd.filter _)
    intro id hid hid'
    have hnot := (mem_filter.mp hid').2
    exact absurd hid (by simpa using hnot)
  · exact ht.filter _
  · intro id hid hid'
    have hnot := (mem_filter.mp hid').2
    simp only [decide_eq_true_eq] at hnot
    rcases mem_append.mp hid with hid | hid
    · exact hnot.1 hid
    · exact hnot.2 hid

/-- What a plan has for one shard. -/
structure SendOf (f : Bytes → ℕ) (keys deletes : List Bytes) (ts : List Transform)
    (m : Marshaller) (inserts : OrdMap Bytes Obj) (id : ℕ) (s : Send) : Prop where
  shardID : s.shardID = id
  writeKeys : s.writes.map Prod.fst = group f keys id
  writes : s.writes.map (fun w => (w.1, some w.2)) = (group f keys id).map (marshalled m inserts)
  deletes : s.deletes = group f deletes id
  transforms : s.transforms = group (fun t => f t.key) (lastTransforms ts) id

theorem send_eq_ok {m : Marshaller} {inserts : OrdMap Bytes Obj} {id : ℕ} {s : Send}
    (hs : p.send m inserts id = .ok s) : SendOf f keys deletes ts m inserts id s := by
  unfold Plan.send at hs
  rw [h.writes, h.deletes, h.transforms, shardEntry_groups, shardEntry_groups,
    shardEntry_partitionTransforms] at hs
  simp only [Fallible.bind_eq_ok, Fallible.pure_eq_ok] at hs
  obtain ⟨ws, hws, rfl⟩ := hs
  obtain ⟨hkeys, hwrites⟩ := map_of_mapM_encodeWrite hws
  exact ⟨rfl, hkeys, hwrites, rfl, rfl⟩

end Planned

theorem carried_of_forall₂ {f : Bytes → ℕ} {keys deletes : List Bytes} {ts : List Transform}
    {m : Marshaller} {inserts : OrdMap Bytes Obj} {ids : List ℕ} {sends : List Send}
    (h : List.Forall₂ (Planned.SendOf f keys deletes ts m inserts) ids sends) :
    sends.map Send.shardID = ids ∧
      carried sends = ⟨(ids.flatMap (group f keys)).map (marshalled m inserts),
        ids.flatMap (group f deletes),
        ids.flatMap (group (fun t => f t.key) (lastTransforms ts))⟩ := by
  induction h with
  | nil => exact ⟨rfl, rfl⟩
  | cons hs _ ih =>
    obtain ⟨hids, hcarried⟩ := ih
    simp only [carried, Operations.mk.injEq] at hcarried ⊢
    obtain ⟨hwrites, hdeletes, htransforms⟩ := hcarried
    refine ⟨?_, ?_, ?_, ?_⟩
    · rw [map_cons, hids, hs.shardID]
    · rw [flatMap_cons, map_append, hwrites, hs.writes, flatMap_cons,
        map_append]
    · rw [flatMap_cons, hdeletes, hs.deletes, flatMap_cons]
    · rw [flatMap_cons, htransforms, hs.transforms, flatMap_cons]

namespace Planned

variable {f : Bytes → ℕ} {keys deletes : List Bytes} {ts : List Transform} {p : Plan}
  (h : Planned f keys deletes ts p)
include h

variable {m : Marshaller} {inserts : OrdMap Bytes Obj} {sends : List Send}

theorem forall₂_sends (hs : p.shards.mapM (p.send m inserts) = .ok sends) :
    List.Forall₂ (SendOf f keys deletes ts m inserts) p.shards sends := by
  rw [Fallible.mapM_eq_ok_iff] at hs
  apply hs.imp
  intro id s hsend
  exact h.send_eq_ok hsend

/-- The sends of a plan carry its inserts and deletes once each, and for every transform the last
one of its key. -/
theorem carried_sends (hs : p.shards.mapM (p.send m inserts) = .ok sends) :
    (carried sends).Same
      ⟨keys.map (marshalled m inserts), deletes, lastTransforms ts⟩ := by
  have hcover : ∀ t ∈ lastTransforms ts, f t.key ∈ p.shards := by
    intro t ht
    have hkey : t.key ∈ ts.map Transform.key := by
      rw [← map_key_lastTransforms]
      exact mem_map_of_mem ht
    exact h.mem_shards.mpr (.inr (.inr (mem_labels.mpr ⟨t.key, hkey, rfl⟩)))
  rw [(carried_of_forall₂ (h.forall₂_sends hs)).2]
  constructor
  · apply List.Perm.map
    apply perm_flatMap_group h.nodup_shards
    intro key hkey
    exact h.mem_shards.mpr (.inl (mem_labels.mpr ⟨key, hkey, rfl⟩))
  · apply perm_flatMap_group h.nodup_shards
    intro key hkey
    exact h.mem_shards.mpr (.inr (.inl (mem_labels.mpr ⟨key, hkey, rfl⟩)))
  · intro key
    apply filter_flatMap_group (b := f key) h.nodup_shards hcover
    intro t _ hkey
    simp only [decide_eq_true_eq] at hkey
    rw [hkey]

theorem shardIDs_sends (hs : p.shards.mapM (p.send m inserts) = .ok sends) :
    sends.map Send.shardID = p.shards :=
  (carried_of_forall₂ (h.forall₂_sends hs)).1

end Planned

/-- The document ids a send names. -/
def Send.keys (s : Send) : List Bytes :=
  s.writes.map Prod.fst ++ s.deletes ++ s.transforms.map Transform.key

theorem Planned.SendOf.shard_of_key {f : Bytes → ℕ} {keys deletes : List Bytes}
    {ts : List Transform} {m : Marshaller} {inserts : OrdMap Bytes Obj} {id : ℕ} {s : Send}
    (hs : SendOf f keys deletes ts m inserts id s) {key : Bytes} (hkey : key ∈ s.keys) :
    f key = id ∧ (key ∈ keys ∨ key ∈ deletes ∨ key ∈ ts.map Transform.key) := by
  unfold Send.keys at hkey
  rw [hs.writeKeys, hs.deletes, hs.transforms, append_assoc, mem_append,
    mem_append] at hkey
  rcases hkey with hkey | hkey | hkey
  · obtain ⟨hmem, hid⟩ := mem_group.mp hkey
    exact ⟨hid, .inl hmem⟩
  · obtain ⟨hmem, hid⟩ := mem_group.mp hkey
    exact ⟨hid, .inr (.inl hmem)⟩
  · obtain ⟨t, ht, rfl⟩ := mem_map.mp hkey
    obtain ⟨hmem, hid⟩ := mem_group.mp ht
    refine ⟨hid, .inr (.inr ?_)⟩
    rw [← map_key_lastTransforms]
    exact mem_map_of_mem hmem

end Antfly.Metadata
