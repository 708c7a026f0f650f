import Antfly.Store.RangeTrim

/-!
`DBImpl.Snapshot` archives a Pebble checkpoint restricted to the byte range of the shard, and a
replica restores it by replacing its Pebble directory and opening the store again over the fields
it has in memory.  The opening saves the version, the schema, the range and the indexes; every other
record of the shard's own is restored only where it lies inside the span, which it does only for a
range without a lower bound.
-/

namespace Antfly

/-- The span of the checkpoint `Snapshot` takes. -/
def DBImpl.snapshotSpan (db : DBImpl) : Bytes × Bytes :=
  (db.byteRange.start, db.byteRange.endForPebble)

def InSpan (span : Bytes × Bytes) (x : Bytes) : Prop := span.1 ≤ x ∧ x < span.2

instance decidableInSpan (span : Bytes × Bytes) (x : Bytes) : Decidable (InSpan span x) :=
  inferInstanceAs (Decidable (_ ∧ _))

/-- An archive of `Snapshot`: a store that contains the keys of the span.  Nothing is said about
the keys outside it. -/
def IsSnapshotOf (archive : PebbleDB) (db : DBImpl) : Prop :=
  ∀ x v, InSpan db.snapshotSpan x → db.get? x = some v → archive.get? x = some v

/-- `loadAndRecoverFromPersistentSnapshot`: the archive replaces the Pebble directory, and the
store is opened over it with the schema and the range `StoreDB` holds. -/
def StoreDB.loadSnapshot (s : StoreDB) (archive : PebbleDB) (schema : Option Bytes) : StoreDB :=
  s.withCore (DBImpl.openInternal { s.coreDB with pdb := archive } schema s.byteRange)

/-- The restored store holds every document key of the range and every record of the shard's own:
its metadata, its transaction records and its intents. -/
structure HoldsSnapshot (source restored : DBImpl) : Prop where
  documents : ∀ id x v, source.byteRange.contains (keyRangeStart id) = true → StoredFor id x →
    ¬ IsSystemKey x → source.get? x = some v → restored.get? x = some v
  system : ∀ x v, IsSystemKey x → source.get? x = some v → restored.get? x = some v

/-- What a restore saves under a key whatever the archive holds.  When it loads the metadata, this is
the version alone. -/
def StoreDB.restoreSaves (s : StoreDB) (schema : Option Bytes) (x : Bytes) : Option Stored :=
  if x = versionKey then some (.version DBImpl.currentStorageVersion)
  else if DBImpl.loadsMetadata schema s.byteRange then none
  else DBImpl.metadataRecord { s.coreDB with
    byteRange := if DBImpl.rangeGiven s.byteRange then s.byteRange else s.coreDB.byteRange
    schema := schema.or s.coreDB.schema } x

/-- What a restore that loads the metadata of a store saves under a key. -/
def StoreDB.restoreReloads (s : StoreDB) (pdb : PebbleDB) (x : Bytes) : Option Stored :=
  DBImpl.metadataRecord (DBImpl.loadMetadata { s.coreDB with pdb := pdb }) x

/-- Where the stored keys must lie for a snapshot to be complete: no document of the range has a
key past its end, the shard keeps outside the span only records that the restore saves by itself,
and what the restore saves, by itself or after loading it, is what the shard has stored. -/
structure SnapshotSafe (source : DBImpl) (s : StoreDB) (schema : Option Bytes) : Prop where
  documents : ∀ id x, source.Holds x → ¬ IsSystemKey x → StoredFor id x →
    source.byteRange.contains (keyRangeStart id) = true → x < source.byteRange.endForPebble
  system : ∀ x, source.Holds x → IsSystemKey x → s.restoreSaves schema x = none →
    InSpan source.snapshotSpan x
  saved : ∀ x v w, source.get? x = some v → s.restoreSaves schema x = some w → v = w
  loaded : DBImpl.loadsMetadata schema s.byteRange = true → ∀ x v w, source.get? x = some v →
    x ≠ versionKey → s.restoreReloads source.pdb x = some w → v = w

section Restore

variable {s : StoreDB} {archive : PebbleDB} {schema : Option Bytes} {x : Bytes} {v : Stored}

theorem StoreDB.loadSnapshot_get? :
    (s.loadSnapshot archive schema).coreDB.get? x =
      ((s.loadSnapshot archive schema).coreDB.metadataRecord x).or (archive.get? x) :=
  DBImpl.openInternal_get? { s.coreDB with pdb := archive } schema s.byteRange x

theorem StoreDB.metadataRecord_of_saves (hloads : DBImpl.loadsMetadata schema s.byteRange = false) :
    (s.loadSnapshot archive schema).coreDB.metadataRecord x = s.restoreSaves schema x := by
  have hschema := DBImpl.openInternal_schema { s.coreDB with pdb := archive } schema s.byteRange
  have hrange := DBImpl.openInternal_byteRange { s.coreDB with pdb := archive } schema s.byteRange
  have hindexes := DBImpl.openInternal_indexes { s.coreDB with pdb := archive } schema s.byteRange
  rw [hloads, if_neg Bool.false_ne_true] at hschema hindexes
  have hbounds : (s.loadSnapshot archive schema).coreDB.byteRange =
      if DBImpl.rangeGiven s.byteRange then s.byteRange else s.coreDB.byteRange := by
    refine hrange.trans ?_
    cases hgiven : DBImpl.rangeGiven s.byteRange with
    | true => rfl
    | false =>
      rw [DBImpl.loadsMetadata, hgiven] at hloads
      cases schema with
      | none => cases hloads
      | some json => rfl
  unfold StoreDB.restoreSaves DBImpl.metadataRecord
  rw [hloads, hbounds, show (s.loadSnapshot archive schema).coreDB.schema = _ from hschema,
    show (s.loadSnapshot archive schema).coreDB.indexes = _ from hindexes]
  by_cases hversion : x = versionKey
  · rw [if_pos hversion, if_pos hversion]
  · rw [if_neg hversion, if_neg hversion, if_neg Bool.false_ne_true]

theorem StoreDB.metadataRecord_of_loads (hloads : DBImpl.loadsMetadata schema s.byteRange = true) :
    (s.loadSnapshot archive schema).coreDB.metadataRecord x = s.restoreReloads archive x := by
  have hschema := DBImpl.openInternal_schema { s.coreDB with pdb := archive } schema s.byteRange
  have hrange := DBImpl.openInternal_byteRange { s.coreDB with pdb := archive } schema s.byteRange
  have hindexes := DBImpl.openInternal_indexes { s.coreDB with pdb := archive } schema s.byteRange
  rw [hloads, if_pos rfl] at hschema hindexes
  obtain ⟨hnone, hgiven⟩ := Bool.and_eq_true_iff.mp hloads
  rw [Option.isNone_iff_eq_none] at hnone
  subst hnone
  rw [Bool.not_eq_true'] at hgiven
  rw [hgiven, if_neg Bool.false_ne_true] at hrange
  unfold StoreDB.restoreReloads DBImpl.metadataRecord
  rw [show (s.loadSnapshot archive none).coreDB.byteRange = _ from hrange,
    show (s.loadSnapshot archive none).coreDB.schema = _ from hschema,
    show (s.loadSnapshot archive none).coreDB.indexes = _ from hindexes]
  rfl

/-- Each record is loaded from its own key alone. -/
theorem StoreDB.restoreReloads_congr {pdb : PebbleDB} (h : archive.get? x = pdb.get? x) :
    s.restoreReloads archive x = s.restoreReloads pdb x := by
  unfold StoreDB.restoreReloads DBImpl.metadataRecord DBImpl.loadMetadata DBImpl.storedSchema
    DBImpl.storedByteRange DBImpl.storedIndexes DBImpl.get?
  dsimp only
  by_cases hversion : x = versionKey
  · rw [if_pos hversion, if_pos hversion]
  rw [if_neg hversion, if_neg hversion]
  by_cases hschema : x = schemaKey
  · rw [if_pos hschema, if_pos hschema, ← hschema, h]
  rw [if_neg hschema, if_neg hschema]
  by_cases hrange : x = byteRangeKey
  · rw [if_pos hrange, if_pos hrange, ← hrange, h]
  rw [if_neg hrange, if_neg hrange]
  by_cases hindexes : x = indexesKey
  · rw [if_pos hindexes, if_pos hindexes, ← hindexes, h]
  · rw [if_neg hindexes, if_neg hindexes]

theorem DBImpl.metadataRecord_of_not_saved {db : DBImpl} (hx : ¬ DBImpl.IsSavedKey x) :
    db.metadataRecord x = none := by
  simp only [DBImpl.IsSavedKey, List.mem_cons, List.not_mem_nil, or_false, not_or] at hx
  rw [DBImpl.metadataRecord, if_neg hx.1, if_neg hx.2.1, if_neg hx.2.2.1, if_neg hx.2.2.2]

theorem StoreDB.restores_of_saves {w : Stored} (h : s.restoreSaves schema x = some w) :
    (s.loadSnapshot archive schema).coreDB.get? x = some w := by
  rw [StoreDB.loadSnapshot_get?]
  cases hloads : DBImpl.loadsMetadata schema s.byteRange with
  | false => rw [StoreDB.metadataRecord_of_saves hloads, h, Option.some_or]
  | true =>
    unfold StoreDB.restoreSaves at h
    by_cases hversion : x = versionKey
    · rw [if_pos hversion] at h
      rw [DBImpl.metadataRecord, if_pos hversion, h, Option.some_or]
    · rw [if_neg hversion, hloads] at h
      cases h

end Restore

/-- The keys of the span and nothing else, which is all that is known of a checkpoint. -/
def spanOnly (source : DBImpl) : PebbleDB :=
  source.pdb.filter fun x => InSpan source.snapshotSpan x

theorem spanOnly_get? (source : DBImpl) (x : Bytes) :
    (spanOnly source).get? x =
      if InSpan source.snapshotSpan x then source.get? x else none := by
  rw [spanOnly, OrdMap.get?_filter]
  simp [DBImpl.get?]

theorem isSnapshotOf_spanOnly (source : DBImpl) : IsSnapshotOf (spanOnly source) source := by
  intro x v hx hv
  rw [spanOnly_get?, if_pos hx, hv]

section Span

variable {source : DBImpl} {s : StoreDB} {schema : Option Bytes} {x : Bytes} {v : Stored}

/-- Outside the span an archive may hold anything. -/
theorem isSnapshotOf_insert (hout : ¬ InSpan source.snapshotSpan x) (w : Stored) :
    IsSnapshotOf ((spanOnly source).insert x w) source := by
  intro y u hy hu
  have hne : y ≠ x := by
    rintro rfl
    exact hout hy
  rw [OrdMap.get?_insert, if_neg hne]
  exact isSnapshotOf_spanOnly source y u hy hu

/-- A record that the restore does not save is restored from the keys of the span only if it is one
of them. -/
theorem inSpan_of_restored
    (hsaves : (s.loadSnapshot (spanOnly source) schema).coreDB.metadataRecord x = none)
    (h : (s.loadSnapshot (spanOnly source) schema).coreDB.get? x = some v) :
    InSpan source.snapshotSpan x := by
  rw [StoreDB.loadSnapshot_get?, hsaves, Option.none_or, spanOnly_get?] at h
  by_contra hout
  rw [if_neg hout] at h
  cases h

/-- A record that is loaded and saved again is one and the same for every archive only when it does
not come from outside the span. -/
theorem inSpan_of_loaded (hloads : DBImpl.loadsMetadata schema s.byteRange = true)
    (hx : DBImpl.IsSavedKey x) (hversion : x ≠ versionKey)
    (h : ∀ archive, IsSnapshotOf archive source →
      (s.loadSnapshot archive schema).coreDB.get? x = some v) :
    InSpan source.snapshotSpan x := by
  by_contra hout
  have hforged : ∀ w : Stored, (∀ archive : PebbleDB, archive.get? x = some w →
      s.restoreReloads archive x = some w) → v = w := by
    intro w hw
    have hget : ((spanOnly source).insert x w).get? x = some w := by
      rw [OrdMap.get?_insert, if_pos rfl]
    have hrestored := h _ (isSnapshotOf_insert hout w)
    rw [StoreDB.loadSnapshot_get?, StoreDB.metadataRecord_of_loads hloads, hw _ hget,
      Option.some_or] at hrestored
    exact (Option.some.inj hrestored).symm
  simp only [DBImpl.IsSavedKey, List.mem_cons, List.not_mem_nil, or_false] at hx
  rcases hx with rfl | rfl | rfl | rfl
  · exact hversion rfl
  · have hload (json : Bytes) : v = .schema json := hforged _ fun archive hget => by
      simp [StoreDB.restoreReloads, DBImpl.metadataRecord, DBImpl.loadMetadata,
        DBImpl.storedSchema, DBImpl.get?, hget, show schemaKey ≠ versionKey by decide]
    cases (hload []).symm.trans (hload [0])
  · have hload (r : Range) : v = .byteRange r := hforged _ fun archive hget => by
      simp [StoreDB.restoreReloads, DBImpl.metadataRecord, DBImpl.loadMetadata,
        DBImpl.storedByteRange, DBImpl.get?, hget, show byteRangeKey ≠ versionKey by decide,
        show byteRangeKey ≠ schemaKey by decide]
    cases (hload ⟨[], []⟩).symm.trans (hload ⟨[0], []⟩)
  · have hload (name : Bytes) : v = .indexes [(name, .graph)] := hforged _ fun archive hget => by
      simp [StoreDB.restoreReloads, DBImpl.metadataRecord, DBImpl.loadMetadata,
        DBImpl.storedIndexes, DBImpl.get?, hget, show indexesKey ≠ versionKey by decide,
        show indexesKey ≠ schemaKey by decide, show indexesKey ≠ byteRangeKey by decide]
    cases (hload []).symm.trans (hload [0])

theorem inSpan_of_complete
    (h : ∀ archive, IsSnapshotOf archive source →
      (s.loadSnapshot archive schema).coreDB.get? x = some v)
    (hnone : s.restoreSaves schema x = none) :
    InSpan source.snapshotSpan x := by
  have hspan := h _ (isSnapshotOf_spanOnly source)
  cases hloads : DBImpl.loadsMetadata schema s.byteRange with
  | false => exact inSpan_of_restored ((StoreDB.metadataRecord_of_saves hloads).trans hnone) hspan
  | true =>
    by_cases hx : DBImpl.IsSavedKey x
    · refine inSpan_of_loaded hloads hx ?_ h
      rintro rfl
      cases hnone
    · exact inSpan_of_restored (DBImpl.metadataRecord_of_not_saved hx) hspan

/-- Every snapshot is complete exactly when the stored keys lie inside the span or are saved as they
are. -/
theorem snapshot_complete_iff (source : DBImpl) (s : StoreDB) (schema : Option Bytes) :
    (∀ archive, IsSnapshotOf archive source →
      HoldsSnapshot source (s.loadSnapshot archive schema).coreDB) ↔
    SnapshotSafe source s schema := by
  constructor
  · intro h
    have hspan := h _ (isSnapshotOf_spanOnly source)
    have hsystem : ∀ x v, IsSystemKey x → source.get? x = some v →
        s.restoreSaves schema x = none → InSpan source.snapshotSpan x := fun x v hsys hv hnone =>
      inSpan_of_complete (fun archive harchive => (h archive harchive).system x v hsys hv) hnone
    have hsaved : ∀ x w, s.restoreSaves schema x = some w → IsSystemKey x := by
      intro x w hw
      by_contra hsys
      have hx : ¬ DBImpl.IsSavedKey x := fun hx => hsys (.inl hx.metadata)
      unfold StoreDB.restoreSaves at hw
      split at hw
      · rename_i hversion
        exact hx (by simp [DBImpl.IsSavedKey, hversion])
      · split at hw
        · cases hw
        · rw [DBImpl.metadataRecord_of_not_saved hx] at hw
          cases hw
    refine ⟨fun id x hx hsys hfor hin => ?_, fun x hx hsys hnone => ?_, fun x v w hv hw => ?_,
      fun hloads x v w hv hne hw => ?_⟩
    · obtain ⟨v, hv⟩ := Option.ne_none_iff_exists'.mp hx
      have hsaves : ¬ DBImpl.IsSavedKey x := fun hx => hsys (.inl hx.metadata)
      exact (inSpan_of_restored (DBImpl.metadataRecord_of_not_saved hsaves)
        (hspan.documents id x v hin hfor hsys hv)).2
    · obtain ⟨v, hv⟩ := Option.ne_none_iff_exists'.mp hx
      exact hsystem x v hsys hv hnone
    · have hrestored := hspan.system x v (hsaved x w hw) hv
      rw [StoreDB.restores_of_saves hw] at hrestored
      exact (Option.some.inj hrestored).symm
    · have hsys : IsSystemKey x := by
        by_contra hsys
        have hx : ¬ DBImpl.IsSavedKey x := fun hx => hsys (.inl hx.metadata)
        rw [StoreDB.restoreReloads, DBImpl.metadataRecord_of_not_saved hx] at hw
        cases hw
      have hnone : s.restoreSaves schema x = none := by
        rw [StoreDB.restoreSaves, if_neg hne, if_pos hloads]
      have hget : (spanOnly source).get? x = source.pdb.get? x := by
        rw [spanOnly_get?, if_pos (hsystem x v hsys hv hnone), DBImpl.get?]
      have hrestored := hspan.system x v hsys hv
      rw [StoreDB.loadSnapshot_get?, StoreDB.metadataRecord_of_loads hloads,
        StoreDB.restoreReloads_congr hget, hw, Option.some_or] at hrestored
      exact (Option.some.inj hrestored).symm
  · intro h archive harchive
    refine ⟨fun id x v hin hfor hsys hv => ?_, fun x v hsys hv => ?_⟩
    · have hholds : source.Holds x := by simp [DBImpl.Holds, hv]
      have hsaves : ¬ DBImpl.IsSavedKey x := fun hx => hsys (.inl hx.metadata)
      rw [StoreDB.loadSnapshot_get?, DBImpl.metadataRecord_of_not_saved hsaves, Option.none_or]
      refine harchive x v ⟨?_, h.documents id x hholds hsys hfor hin⟩ hv
      exact (Range.start_le_of_contains hin).trans hfor.le
    · have hholds : source.Holds x := by simp [DBImpl.Holds, hv]
      cases hsaves : s.restoreSaves schema x with
      | some w =>
        rw [StoreDB.restores_of_saves hsaves, h.saved x v w hv hsaves]
      | none =>
        have hget := harchive x v (h.system x hholds hsys hsaves) hv
        rw [StoreDB.loadSnapshot_get?, hget]
        cases hloads : DBImpl.loadsMetadata schema s.byteRange with
        | false => rw [StoreDB.metadataRecord_of_saves hloads, hsaves, Option.none_or]
        | true =>
          have hne : x ≠ versionKey := by
            rintro rfl
            cases hsaves
          have hsame : archive.get? x = source.pdb.get? x := hget.trans hv.symm
          rw [StoreDB.metadataRecord_of_loads hloads, StoreDB.restoreReloads_congr hsame]
          cases hw : s.restoreReloads source.pdb x with
          | none => exact Option.none_or
          | some w => rw [Option.some_or, h.loaded hloads x v w hv hne hw]

end Span

/-- A follower of the shard `["b", "z")` restored from a snapshot of its leader lacks the record of
the transaction the leader coordinates. -/
theorem snapshot_lacks_transaction_record :
    ∃ archive, IsSnapshotOf archive coordinatorStore.coreDB ∧
      ¬ HoldsSnapshot coordinatorStore.coreDB
        ((StoreDB.create ⟨ascii ['b'], ascii ['z']⟩).loadSnapshot archive none).coreDB := by
  refine ⟨_, isSnapshotOf_spanOnly _, fun h => ?_⟩
  have hspan := inSpan_of_restored (DBImpl.metadataRecord_of_not_saved (by decide))
    (h.system (makeTxnKey (ascii ['t']))
      (.txnRecord ⟨ascii ['t'], 7, 0, .pending, [], [], 0, 0⟩)
      (Or.inr (Or.inl (List.prefix_append _ _))) (by decide +kernel))
  revert hspan
  decide

end Antfly
