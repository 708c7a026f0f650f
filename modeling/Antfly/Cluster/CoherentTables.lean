import Antfly.Cluster.TableCoherence

/-!
An operation writes one table: its record, its shards and the statuses of these.  The records stay
coherent when everything it writes carries the index set and the schema it leaves, and what it does
not write belongs to other tables.
-/

namespace Antfly

open List OrdMap Fallible

variable {enc : ConfigEncoding}

/-- The table `name` is written with what it holds now and its shards and their statuses. -/
structure Written (enc : ConfigEncoding) (c c' : Catalog) (name : Bytes) (m : TableMeta)
    (shards : OrdMap ℕ ShardConfig) : Prop where
  table : c'.manager.tables.get? name = some ⟨shards⟩
  tableMeta : c'.metas.get? name = some m
  otherTables : ∀ n, n ≠ name → c'.manager.tables.get? n = c.manager.tables.get? n
  otherMetas : ∀ n, n ≠ name → c'.metas.get? n = c.metas.get? n
  carried : ∀ id conf, shards.get? id = some conf → Carries enc m conf ∧
    ∃ status, c'.manager.shardStatuses.get? id = some status ∧ status.table = name ∧
      Carries enc m status.toShardConfig
  others : ∀ id status, shards.get? id = none → (c'.manager.shardStatuses.get? id = some status ↔
    c.manager.shardStatuses.get? id = some status ∧ status.table ≠ name)
  own : ∀ id status, shards.get? id ≠ none → c.manager.shardStatuses.get? id = some status →
    status.table = name

theorem Coherent.written {s : Tables} {c : Catalog} {requested : OrdMap Bytes Requested}
    {name : Bytes} {m : TableMeta} {shards : OrdMap ℕ ShardConfig} {r : Requested}
    (h : Coherent enc s) (hwritten : Written enc s.catalog c name m shards)
    (hrequested : requested.get? name = some r)
    (hothers : ∀ n, n ≠ name → requested.get? n = s.requested.get? n) (hr : IndexSet m r) :
    Coherent enc ⟨c, requested⟩ := by
  constructor
  · intro name' table m' htable hm' id conf hconf
    change c.manager.tables.get? name' = some table at htable
    change c.metas.get? name' = some m' at hm'
    by_cases hname : name' = name
    · rw [hname, hwritten.table, Option.some_inj] at htable
      rw [hname, hwritten.tableMeta, Option.some_inj] at hm'
      subst hname htable hm'
      exact hwritten.carried id conf hconf
    · rw [hwritten.otherTables name' hname] at htable
      rw [hwritten.otherMetas name' hname] at hm'
      obtain ⟨hcarries, status, hstatus, htableName, hstatusCarries⟩ :=
        h.copies name' table m' htable hm' id conf hconf
      refine ⟨hcarries, status, ?_, htableName, hstatusCarries⟩
      have hfree : shards.get? id = none := by
        by_contra hne
        exact hname (htableName.symm.trans (hwritten.own id status hne hstatus))
      rw [← htableName] at hname
      exact (hwritten.others id status hfree).mpr ⟨hstatus, hname⟩
  · intro id status hstatus
    change c.manager.shardStatuses.get? id = some status at hstatus
    change ∃ table conf, c.manager.tables.get? status.table = some table ∧ _
    cases hshard : shards.get? id with
    | some conf =>
      obtain ⟨-, status', hstatus', htableName, -⟩ := hwritten.carried id conf hshard
      rw [hstatus, Option.some_inj] at hstatus'
      subst hstatus'
      exact ⟨⟨shards⟩, conf, htableName ▸ hwritten.table, hshard⟩
    | none =>
      obtain ⟨hbefore, hother⟩ := (hwritten.others id status hshard).mp hstatus
      obtain ⟨table, conf, htable, hconf⟩ := h.statuses id status hbefore
      exact ⟨table, conf, (hwritten.otherTables _ hother).trans htable, hconf⟩
  · intro name'
    change (c.manager.tables.get? name').isSome = (c.metas.get? name').isSome
    by_cases hname : name' = name
    · rw [hname, hwritten.table, hwritten.tableMeta]
      rfl
    · rw [hwritten.otherTables _ hname, hwritten.otherMetas _ hname, h.records]
  · intro name'
    change (requested.get? name').isSome = (c.metas.get? name').isSome
    by_cases hname : name' = name
    · rw [hname, hrequested, hwritten.tableMeta]
      rfl
    · rw [hothers _ hname, hwritten.otherMetas _ hname, h.requests]
  · intro name' m' r' hm' hr'
    change c.metas.get? name' = some m' at hm'
    change requested.get? name' = some r' at hr'
    by_cases hname : name' = name
    · rw [hname, hwritten.tableMeta, Option.some_inj] at hm'
      rw [hname, hrequested, Option.some_inj] at hr'
      rwa [← hm', ← hr']
    · rw [hwritten.otherMetas _ hname] at hm'
      rw [hothers _ hname] at hr'
      exact h.indexSets name' m' r' hm' hr'

theorem written_save {c : Catalog} {name : Bytes} {m : TableMeta}
    {shards : OrdMap ℕ ShardConfig} {statuses : List (ℕ × ShardStatus)}
    (hshards : ∀ id conf, shards.get? id = some conf → Carries enc m conf)
    (hids : ∀ id, id ∈ statuses.map Prod.fst ↔ shards.get? id ≠ none)
    (hstatuses : ∀ e ∈ statuses, e.2.table = name ∧ Carries enc m e.2.toShardConfig)
    (hown : ∀ id status, c.manager.shardStatuses.get? id = some status →
      (shards.get? id ≠ none ↔ status.table = name)) :
    Written enc c (c.save name m shards statuses) name m shards := by
  constructor
  · rw [Catalog.save, TableManager.saveTableAndShardStatus, get?_insert, if_pos rfl]
  · rw [Catalog.save, get?_insert, if_pos rfl]
  · intro n hn
    rw [Catalog.save, TableManager.saveTableAndShardStatus, get?_insert, if_neg hn]
  · intro n hn
    rw [Catalog.save, get?_insert, if_neg hn]
  · intro id conf hconf
    have hid := (hids id).mpr (by rw [hconf]; simp)
    obtain ⟨status, hstatus, hget⟩ :=
      exists_get?_foldl_insert (m := c.manager.shardStatuses) hid
    exact ⟨hshards id conf hconf, status, hget, hstatuses _ hstatus⟩
  · intro id status hfree
    have hid : id ∉ statuses.map Prod.fst := fun hmem => (hids id).mp hmem hfree
    have hget : (c.save name m shards statuses).manager.shardStatuses.get? id =
        c.manager.shardStatuses.get? id := get?_foldl_insert_of_notMem hid
    rw [hget]
    refine ⟨fun hstatus => ⟨hstatus, fun hname => ?_⟩, fun hstatus => hstatus.1⟩
    exact (hown id status hstatus).mpr hname hfree
  · intro id status hne hstatus
    exact (hown id status hstatus).mp hne

section Existing

variable {s : Tables} {name : Bytes} {table : TableDef} {m : TableMeta}

variable {c c' : Catalog} {m' : TableMeta} {schema : TableSchema} {order : List Bytes}

theorem getTable_eq_ok {p : TableDef × TableMeta} :
    c.getTable name = .ok p ↔
      c.manager.tables.get? name = some p.1 ∧ c.metas.get? name = some p.2 := by
  obtain ⟨table, m⟩ := p
  unfold Catalog.getTable
  cases c.manager.tables.get? name with
  | none => simp
  | some table' =>
    cases c.metas.get? name with
    | none => simp
    | some m' => simp [Prod.ext_iff]

theorem Coherent.own_iff (h : Coherent enc s)
    (htable : s.catalog.manager.tables.get? name = some table)
    (hm : s.catalog.metas.get? name = some m) {id : ℕ} {status : ShardStatus}
    (hstatus : s.catalog.manager.shardStatuses.get? id = some status) :
    table.shards.get? id ≠ none ↔ status.table = name := by
  constructor
  · intro hne
    obtain ⟨conf, hconf⟩ := Option.ne_none_iff_exists'.mp hne
    obtain ⟨-, status', hstatus', hname, -⟩ := h.copies name table m htable hm id conf hconf
    rw [hstatus, Option.some_inj] at hstatus'
    rw [hstatus', hname]
  · rintro rfl
    obtain ⟨table', conf, htable', hconf⟩ := h.statuses id status hstatus
    rw [htable, Option.some_inj] at htable'
    rw [htable', hconf]
    simp

theorem Coherent.written_same (h : Coherent enc s)
    (htable : s.catalog.manager.tables.get? name = some table)
    (hm : s.catalog.metas.get? name = some m) {shards : OrdMap ℕ ShardConfig}
    {statuses : List (ℕ × ShardStatus)}
    (hsame : ∀ id, shards.get? id = none ↔ table.shards.get? id = none)
    (hshards : ∀ id conf, shards.get? id = some conf → Carries enc m' conf)
    (hids : ∀ id, id ∈ statuses.map Prod.fst ↔ shards.get? id ≠ none)
    (hstatuses : ∀ e ∈ statuses, e.2.table = name ∧ Carries enc m' e.2.toShardConfig) :
    Written enc s.catalog (s.catalog.save name m' shards statuses) name m' shards := by
  apply written_save hshards hids hstatuses
  intro id status hstatus
  rw [← h.own_iff htable hm hstatus]
  exact not_congr (hsame id)

theorem Coherent.createIndex (h : Coherent enc s) {indexName : Bytes} {config : TableIndex}
    (hc : s.catalog.createIndex enc name indexName config = .ok c)
    (hfree : ∀ m, s.catalog.metas.get? name = some m → m.isVersionIndex indexName = false) :
    Coherent enc ⟨c, (CatalogOp.createIndex name indexName config).record s.requested⟩ := by
  unfold Catalog.createIndex at hc
  simp only [bind_eq_ok, Prod.exists, getTable_eq_ok] at hc
  obtain ⟨table, m, ⟨htable, hm⟩, hc⟩ := hc
  split at hc
  · cases hc
  · simp only [bind_eq_ok, pure_eq_ok] at hc
    obtain ⟨statuses, hstatuses, rfl⟩ := hc
    obtain ⟨r, hr⟩ := Option.isSome_iff_exists.mp ((h.requests name).trans (by rw [hm]; rfl))
    have hcopies := h.copies name table m htable hm
    have hrecord : (CatalogOp.createIndex name indexName config).record s.requested =
        s.requested.insert name { r with
          indexes := r.indexes.insert indexName { config with name := indexName } } := by
      simp only [CatalogOp.record, hr]
    rw [hrecord]
    refine h.written (h.written_same htable hm ?_ ?_ ?_ ?_) ?_ ?_
      ((h.indexSets name m r hm hr).create (hfree m hm) _)
    · intro id
      rw [get?_map, Option.map_eq_none_iff]
    · intro id conf hconf
      rw [get?_map, Option.map_eq_some_iff] at hconf
      obtain ⟨conf', hconf', rfl⟩ := hconf
      exact ⟨rfl, (hcopies id conf' hconf').1.2⟩
    · intro id
      rw [get?_map, ne_eq, Option.map_eq_none_iff]
      constructor
      · intro hid
        obtain ⟨e, he, rfl⟩ := mem_map.mp hid
        obtain ⟨⟨id, conf⟩, hconf, heq⟩ := exists_of_mem_mapM hstatuses he
        rw [mem_entries_iff] at hconf
        split at heq
        · cases heq
        · cases heq
          rw [hconf]
          simp
      · intro hne
        obtain ⟨conf, hconf⟩ := Option.ne_none_iff_exists'.mp hne
        obtain ⟨e, he, heq⟩ :=
          exists_mem_of_mapM hstatuses ((mem_entries_iff _ _ _).mpr hconf)
        split at heq
        · cases heq
        · cases heq
          exact mem_map_of_mem he
    · intro e he
      obtain ⟨⟨id, conf⟩, hconf, heq⟩ := exists_of_mem_mapM hstatuses he
      rw [mem_entries_iff] at hconf
      obtain ⟨-, status, hstatus, hname, hcarries⟩ := hcopies id conf hconf
      simp only [hstatus] at heq
      cases heq
      exact ⟨hname, rfl, hcarries.2⟩
    · exact (get?_insert _ _ _ _).trans (if_pos rfl)
    · intro n hn
      exact (get?_insert _ _ _ _).trans (if_neg hn)

theorem Coherent.rewriteConfigs (h : Coherent enc s)
    (htable : s.catalog.manager.tables.get? name = some table)
    (hm : s.catalog.metas.get? name = some m)
    (hset : ∀ r, IndexSet m r → s.requested.get? name = some r → IndexSet m' r) :
    Coherent enc ⟨s.catalog.rewriteConfigs enc name table m', s.requested⟩ := by
  obtain ⟨r, hr⟩ := Option.isSome_iff_exists.mp ((h.requests name).trans (by rw [hm]; rfl))
  have hcopies := h.copies name table m htable hm
  refine h.written (h.written_same htable hm ?_ ?_ ?_ ?_) hr (fun _ _ => rfl)
    (hset r (h.indexSets name m r hm hr) hr)
  · intro id
    rw [get?_map, Option.map_eq_none_iff]
  · intro id conf hconf
    rw [get?_map, Option.map_eq_some_iff] at hconf
    obtain ⟨conf', -, rfl⟩ := hconf
    exact ⟨rfl, rfl⟩
  · intro id
    rw [get?_map, ne_eq, Option.map_eq_none_iff]
    constructor
    · intro hid
      obtain ⟨e, he, rfl⟩ := mem_map.mp hid
      obtain ⟨⟨id, conf⟩, hconf, heq⟩ := mem_filterMap.mp he
      rw [mem_entries_iff] at hconf
      obtain ⟨status, -, rfl⟩ := Option.map_eq_some_iff.mp heq
      rw [hconf]
      simp
    · intro hne
      obtain ⟨conf, hconf⟩ := Option.ne_none_iff_exists'.mp hne
      obtain ⟨-, status, hstatus, -, -⟩ := hcopies id conf hconf
      refine mem_map.mpr ⟨(id, { status with toShardConfig := Catalog.carry enc m' conf }),
        mem_filterMap.mpr ⟨(id, conf), (mem_entries_iff _ _ _).mpr hconf, ?_⟩, rfl⟩
      rw [hstatus]
      rfl
  · intro e he
    obtain ⟨⟨id, conf⟩, hconf, heq⟩ := mem_filterMap.mp he
    rw [mem_entries_iff] at hconf
    obtain ⟨-, status, hstatus, hname, -⟩ := hcopies id conf hconf
    rw [hstatus] at heq
    cases heq
    exact ⟨hname, rfl, rfl⟩

theorem dropReadSchema_eq_ok (hc : c.dropReadSchema enc name = .ok c') :
    ∃ table m read, c.manager.tables.get? name = some table ∧ c.metas.get? name = some m ∧
      m.readSchema = some read ∧ c' = c.rewriteConfigs enc name table
        ⟨m.indexes.filter fun n => !Catalog.dropsWithReadSchema m.indexes read.version n,
          m.schema, none⟩ := by
  unfold Catalog.dropReadSchema at hc
  simp only [bind_eq_ok, Prod.exists, getTable_eq_ok] at hc
  obtain ⟨table, m, ⟨htable, hm⟩, hc⟩ := hc
  cases hread : m.readSchema with
  | none =>
    rw [hread] at hc
    cases hc
  | some read =>
    rw [hread] at hc
    cases hc
    exact ⟨table, m, read, htable, hm, hread, rfl⟩

theorem updateSchema_eq_ok (hc : c.updateSchema enc name schema order = .ok c') :
    ∃ table m m', c.manager.tables.get? name = some table ∧ c.metas.get? name = some m ∧
      (if Catalog.documentSchemasChanged m.schema (some schema) then
        Catalog.migrate m schema order = .ok m'
      else m' = { m with
        schema := some { schema with version := schemaVersion m.schema }.persisted }) ∧
      c' = c.rewriteConfigs enc name table m' := by
  unfold Catalog.updateSchema at hc
  simp only [bind_eq_ok, Prod.exists, getTable_eq_ok] at hc
  obtain ⟨table, m, ⟨htable, hm⟩, hc⟩ := hc
  split at hc
  · rename_i hchanged
    simp only [bind_eq_ok, pure_eq_ok] at hc
    obtain ⟨m', hm', rfl⟩ := hc
    exact ⟨table, m, m', htable, hm, by rw [if_pos hchanged]; exact hm', rfl⟩
  · rename_i hsame
    cases hc
    exact ⟨table, m, _, htable, hm, by rw [if_neg hsame], rfl⟩

theorem Coherent.dropReadSchema (h : Coherent enc s) {c : Catalog}
    (hc : s.catalog.dropReadSchema enc name = .ok c)
    (hsafe : ∀ m r read, s.catalog.metas.get? name = some m → s.requested.get? name = some r →
      m.readSchema = some read → (∀ n idx, r.indexes.get? n = some idx →
        idx.type.isFullText = true → hasSuffix n (versionSuffix read.version) = false) ∧
      (r.fullText = true → read.version ≠ schemaVersion m.schema)) :
    Coherent enc ⟨c, s.requested⟩ := by
  obtain ⟨table, m, read, htable, hm, hread, rfl⟩ := dropReadSchema_eq_ok hc
  apply h.rewriteConfigs htable hm
  intro r hset hr
  obtain ⟨hspared, hkept⟩ := hsafe m r read hm hr hread
  exact hset.dropRead hread hspared hkept

theorem Coherent.updateSchema (h : Coherent enc s) {schema : TableSchema} {order : List Bytes}
    {c : Catalog} (hc : s.catalog.updateSchema enc name schema order = .ok c)
    (hsafe : ∀ m r, s.catalog.metas.get? name = some m → s.requested.get? name = some r →
      Catalog.documentSchemasChanged m.schema (some schema) = true → SafeMigration m r order) :
    Coherent enc ⟨c, s.requested⟩ := by
  obtain ⟨table, m, m', htable, hm, hm', rfl⟩ := updateSchema_eq_ok hc
  apply h.rewriteConfigs htable hm
  intro r hset hr
  split at hm'
  · rename_i hchanged
    exact hset.migrate (hsafe m r hm hr hchanged) hm'
  · subst hm'
    exact hset.congr rfl rfl

/-- `DropIndex` leaves the shard configurations as they are, which is right when the index does not
exist or the table has no shard. -/
theorem Coherent.dropIndex (h : Coherent enc s) {indexName : Bytes} {c : Catalog}
    (hc : s.catalog.dropIndex enc name indexName = .ok c)
    (hsafe : ∀ table m, s.catalog.manager.tables.get? name = some table →
      s.catalog.metas.get? name = some m → m.indexes.get? indexName = none ∨
        (∀ id, table.shards.get? id = none) ∧ m.isVersionIndex indexName = false) :
    Coherent enc ⟨c, (CatalogOp.dropIndex name indexName).record s.requested⟩ := by
  unfold Catalog.dropIndex at hc
  simp only [bind_eq_ok, pure_eq_ok, Prod.exists, getTable_eq_ok] at hc
  obtain ⟨table, m, ⟨htable, hm⟩, rfl⟩ := hc
  obtain ⟨r, hr⟩ := Option.isSome_iff_exists.mp ((h.requests name).trans (by rw [hm]; rfl))
  have hcopies := h.copies name table m htable hm
  have hrecord : (CatalogOp.dropIndex name indexName).record s.requested =
      s.requested.insert name { r with indexes := r.indexes.erase indexName } := by
    simp only [CatalogOp.record, hr]
  have hkept : ∀ id conf, table.shards.get? id = some conf →
      m.indexes.erase indexName = m.indexes := by
    intro id conf hconf
    rcases hsafe table m htable hm with habsent | ⟨hempty, -⟩
    · apply ext_get?
      intro n
      rw [get?_erase]
      split
      · rename_i heq
        rw [heq, habsent]
      · rfl
    · rw [hempty id] at hconf
      cases hconf
  rw [hrecord]
  refine h.written (h.written_same htable hm (fun _ => Iff.rfl) ?_ ?_ ?_) ?_ ?_
    ((h.indexSets name m r hm hr).drop ((hsafe table m htable hm).imp_right And.right))
  · intro id conf hconf
    obtain ⟨hindexes, hschema⟩ := (hcopies id conf hconf).1
    exact ⟨by rw [hkept id conf hconf, hindexes], hschema⟩
  · intro id
    rw [map_map]
    exact table.shards.mem_keys_iff id
  · intro e he
    obtain ⟨⟨id, conf⟩, hconf, rfl⟩ := mem_map.mp he
    rw [mem_entries_iff] at hconf
    obtain ⟨-, status, hstatus, hname, hcarries⟩ := hcopies id conf hconf
    simp only [hstatus]
    exact ⟨hname, rfl, hcarries.2⟩
  · exact (get?_insert _ _ _ _).trans (if_pos rfl)
  · intro n hn
    exact (get?_insert _ _ _ _).trans (if_neg hn)

end Existing

section New

variable {s : Tables} {name : Bytes} {c : Catalog}

theorem Coherent.written_new (h : Coherent enc s)
    (hnew : s.catalog.manager.tables.get? name = none) (m : TableMeta)
    (shards : OrdMap ℕ ShardConfig)
    (hfresh : ∀ id conf, shards.get? id = some conf →
      s.catalog.manager.shardStatuses.get? id = none)
    (hshards : ∀ id conf, shards.get? id = some conf → Carries enc m conf) :
    Written enc s.catalog (s.catalog.save name m shards (shards.entries.map fun e => (e.1,
      { ShardInfo.ofConfig e.2 ∅ with id := e.1, table := name, state := ShardState.default })))
      name m shards := by
  apply written_save hshards
  · intro id
    rw [map_map]
    exact shards.mem_keys_iff id
  · intro e he
    obtain ⟨⟨id, conf⟩, hconf, rfl⟩ := mem_map.mp he
    rw [mem_entries_iff] at hconf
    exact ⟨rfl, hshards id conf hconf⟩
  · intro id status hstatus
    constructor
    · intro hne
      obtain ⟨conf, hconf⟩ := Option.ne_none_iff_exists'.mp hne
      rw [hfresh id conf hconf] at hstatus
      cases hstatus
    · rintro rfl
      obtain ⟨table, -, htable, -⟩ := h.statuses id status hstatus
      rw [hnew] at htable
      cases htable

theorem Coherent.createTable (h : Coherent enc s) {tc : CatalogTableConfig}
    (hc : s.catalog.createTable enc name tc = .ok c)
    (hsound : StartsSound ⟨tc.indexes, tc.schema, none⟩)
    (hfresh : ∀ i < tc.numShards, s.catalog.manager.shardStatuses.get? (tc.startID + i) = none) :
    Coherent enc ⟨c, (CatalogOp.createTable name tc).record s.requested⟩ := by
  unfold Catalog.createTable TableManager.createTable at hc
  cases hnew : s.catalog.manager.tables.get? name with
  | some table =>
    rw [hnew] at hc
    cases hc
  | none =>
    rw [hnew] at hc
    cases hc
    refine h.written (h.written_new hnew ⟨tc.indexes, tc.schema.map TableSchema.persisted, none⟩
        (createShardConfig ⟨tc.numShards, tc.startID,
          enc.schema (tc.schema.map TableSchema.persisted), enc.indexes tc.indexes⟩) ?_ ?_)
      ((get?_insert _ _ _ _).trans (if_pos rfl))
      (fun n hn => (get?_insert _ _ _ _).trans (if_neg hn))
      (IndexSet.initial hsound rfl ?_)
    · intro id conf hconf
      obtain ⟨i, hi, rfl, -⟩ := (createShardConfig_get? _ _ _).mp hconf
      exact hfresh i hi
    · intro id conf hconf
      obtain ⟨i, -, -, rfl⟩ := (createShardConfig_get? _ _ _).mp hconf
      exact ⟨rfl, rfl⟩
    · exact versions_persisted ⟨tc.indexes, tc.schema, none⟩

theorem Coherent.restoreTable (h : Coherent enc s) {table : TableDef} {m : TableMeta}
    {restoreConfig : Bytes} (hc : s.catalog.restoreTable enc name table m restoreConfig = .ok c)
    (hsound : StartsSound m)
    (hfresh : ∀ id conf, table.shards.get? id = some conf →
      s.catalog.manager.shardStatuses.get? id = none) :
    Coherent enc ⟨c, (CatalogOp.restoreTable name table m restoreConfig).record s.requested⟩ := by
  unfold Catalog.restoreTable at hc
  split at hc
  · cases hc
  · rename_i hnew
    rw [Bool.not_eq_true, Option.isSome_eq_false_iff, Option.isNone_iff_eq_none] at hnew
    cases hc
    refine h.written (h.written_new hnew _ _ ?_ ?_)
      ((get?_insert _ _ _ _).trans (if_pos rfl))
      (fun n hn => (get?_insert _ _ _ _).trans (if_neg hn))
      (IndexSet.initial hsound rfl (versions_persisted m))
    · intro id conf hconf
      rw [get?_map, Option.map_eq_some_iff] at hconf
      obtain ⟨conf', hconf', -⟩ := hconf
      exact hfresh id conf' hconf'
    · intro id conf hconf
      rw [get?_map, Option.map_eq_some_iff] at hconf
      obtain ⟨conf', -, rfl⟩ := hconf
      exact ⟨rfl, rfl⟩

theorem Coherent.removeTable (h : Coherent enc s) (hc : s.catalog.removeTable name = .ok c) :
    Coherent enc ⟨c, (CatalogOp.removeTable name).record s.requested⟩ := by
  unfold Catalog.removeTable at hc
  simp only [bind_eq_ok, pure_eq_ok, Prod.exists, getTable_eq_ok] at hc
  obtain ⟨table, m, ⟨htable, hm⟩, rfl⟩ := hc
  have herase : ∀ {β : Type} (map : OrdMap Bytes β) (n : Bytes) (v : β),
      (map.erase name).get? n = some v → n ≠ name ∧ map.get? n = some v := by
    intro β map n v hv
    rw [get?_erase] at hv
    split at hv
    · cases hv
    · rename_i hn
      exact ⟨hn, hv⟩
  constructor
  · intro n table' m' htable' hm' id conf hconf
    obtain ⟨hn, htable'⟩ := herase _ _ _ htable'
    obtain ⟨-, hm'⟩ := herase _ _ _ hm'
    obtain ⟨hcarries, status, hstatus, hname, hstatusCarries⟩ :=
      h.copies n table' m' htable' hm' id conf hconf
    refine ⟨hcarries, status, ?_, hname, hstatusCarries⟩
    change ((table.shards.entries.map Prod.fst).foldl OrdMap.erase
      s.catalog.manager.shardStatuses).get? id = some status
    rw [get?_foldl_erase, if_neg, hstatus]
    intro hid
    have hother := (h.own_iff htable hm hstatus).mp ((table.shards.mem_keys_iff id).mp hid)
    exact hn (hname.symm.trans hother)
  · intro id status hstatus
    change ((table.shards.entries.map Prod.fst).foldl OrdMap.erase
      s.catalog.manager.shardStatuses).get? id = some status at hstatus
    rw [get?_foldl_erase] at hstatus
    split at hstatus
    · cases hstatus
    · rename_i hid
      obtain ⟨table', conf, htable', hconf⟩ := h.statuses id status hstatus
      refine ⟨table', conf, ?_, hconf⟩
      change (s.catalog.manager.tables.erase name).get? status.table = some table'
      rw [get?_erase, if_neg, htable']
      intro hname
      exact hid ((table.shards.mem_keys_iff id).mpr ((h.own_iff htable hm hstatus).mpr hname))
  · intro n
    change ((s.catalog.manager.tables.erase name).get? n).isSome =
      ((s.catalog.metas.erase name).get? n).isSome
    rw [get?_erase, get?_erase]
    split
    · rfl
    · exact h.records n
  · intro n
    change ((s.requested.erase name).get? n).isSome = ((s.catalog.metas.erase name).get? n).isSome
    rw [get?_erase, get?_erase]
    split
    · rfl
    · exact h.requests n
  · intro n m' r' hm' hr'
    obtain ⟨-, hm'⟩ := herase _ _ _ hm'
    obtain ⟨-, hr'⟩ := herase _ _ _ hr'
    exact h.indexSets n m' r' hm' hr'

end New

section Reassign

variable {s : Tables} {name : Bytes} {table : TableDef} {m : TableMeta}

/-- What a split or merge leaves of shard `id` of the table `name`, which it may write. -/
inductive Reassigned (enc : ConfigEncoding) (name : Bytes) (m : TableMeta) :
    Option ShardConfig → Option ShardStatus → Prop where
  | gone : Reassigned enc name m none none
  | kept (conf : ShardConfig) (status : ShardStatus) : Carries enc m conf → status.table = name →
      Carries enc m status.toShardConfig → Reassigned enc name m (some conf) (some status)

/-- Every shard is left as it was, or belongs to no other table and is written for this one. -/
theorem Coherent.reassigned (h : Coherent enc s)
    (htable : s.catalog.manager.tables.get? name = some table)
    (hm : s.catalog.metas.get? name = some m) {manager : TableManager}
    {shards : OrdMap ℕ ShardConfig}
    (htables : manager.tables = s.catalog.manager.tables.insert name ⟨shards⟩)
    (hids : ∀ id, (shards.get? id = table.shards.get? id ∧
        manager.shardStatuses.get? id = s.catalog.manager.shardStatuses.get? id) ∨
      Reassigned enc name m (shards.get? id) (manager.shardStatuses.get? id) ∧
        ∀ status, s.catalog.manager.shardStatuses.get? id = some status → status.table = name) :
    Coherent enc ⟨{ s.catalog with manager := manager }, s.requested⟩ := by
  obtain ⟨r, hr⟩ := Option.isSome_iff_exists.mp ((h.requests name).trans (by rw [hm]; rfl))
  suffices hwritten : Written enc s.catalog { s.catalog with manager := manager } name m shards from
    h.written hwritten hr (fun _ _ => rfl) (h.indexSets name m r hm hr)
  constructor
  · change manager.tables.get? name = _
    rw [htables, get?_insert, if_pos rfl]
  · exact hm
  · intro n hn
    change manager.tables.get? n = _
    rw [htables, get?_insert, if_neg hn]
  · exact fun _ _ => rfl
  · intro id conf hconf
    change Carries enc m conf ∧ ∃ status, manager.shardStatuses.get? id = some status ∧ _
    rcases hids id with ⟨hshard, hstatus⟩ | ⟨hwritten, -⟩
    · rw [hstatus]
      rw [hshard] at hconf
      exact h.copies name table m htable hm id conf hconf
    · rw [hconf] at hwritten
      generalize manager.shardStatuses.get? id = status at hwritten ⊢
      cases hwritten with
      | kept _ status hcarries hname hstatus => exact ⟨hcarries, status, rfl, hname, hstatus⟩
  · intro id status hfree
    change manager.shardStatuses.get? id = some status ↔ _
    rcases hids id with ⟨hshard, hstatus⟩ | ⟨hwritten, hown⟩
    · rw [hstatus]
      refine ⟨fun hget => ⟨hget, fun hname => ?_⟩, And.left⟩
      have hne := (h.own_iff htable hm hget).mpr hname
      rw [← hshard] at hne
      exact hne hfree
    · rw [hfree] at hwritten
      generalize manager.shardStatuses.get? id = status' at hwritten ⊢
      cases hwritten with
      | gone =>
        constructor
        · intro hnone
          cases hnone
        · rintro ⟨hget, hname⟩
          exact absurd (hown status hget) hname
  · intro id status hne hget
    rcases hids id with ⟨hshard, -⟩ | ⟨-, hown⟩
    · rw [hshard] at hne
      exact (h.own_iff htable hm hget).mp hne
    · exact hown status hget

theorem Coherent.merged (h : Coherent enc s)
    (htable : s.catalog.manager.tables.get? name = some table) {id id' : ℕ}
    {conf conf' : ShardConfig} (merged : ShardConfig) {status status' : ShardStatus}
    (hconf : table.shards.get? id = some conf) (hconf' : table.shards.get? id' = some conf')
    (hstatus : s.catalog.manager.shardStatuses.get? id = some status)
    (hindexes : merged.indexes = conf.indexes) (hschema : merged.schema = conf.schema)
    (hmerged : status'.toShardConfig = merged) (hname : status'.table = status.table) :
    Coherent enc ⟨⟨s.catalog.manager.saveTableAndShardStatus name
      ⟨(table.shards.insert id merged).erase id'⟩ [(id, status')] [id'], s.catalog.metas⟩,
        s.requested⟩ := by
  obtain ⟨m, hm⟩ : ∃ m, s.catalog.metas.get? name = some m :=
    Option.isSome_iff_exists.mp ((h.records name).symm.trans (by rw [htable]; rfl))
  have hown : ∀ id conf, table.shards.get? id = some conf → ∀ status,
      s.catalog.manager.shardStatuses.get? id = some status → status.table = name := by
    intro id conf hconf status hstatus
    exact (h.own_iff htable hm hstatus).mp (by rw [hconf]; simp)
  have hcarries : Carries enc m merged := by
    obtain ⟨⟨hsame, hsame'⟩, -⟩ := h.copies name table m htable hm id conf hconf
    exact ⟨hindexes.trans hsame, hschema.trans hsame'⟩
  refine h.reassigned htable hm rfl fun x => ?_
  simp only [TableManager.saveTableAndShardStatus, foldl_cons, foldl_nil,
    get?_insert, get?_erase]
  by_cases hx' : x = id'
  · rw [if_pos hx', if_pos hx', hx']
    exact .inr ⟨.gone, hown id' conf' hconf'⟩
  · rw [if_neg hx', if_neg hx']
    by_cases hx : x = id
    · rw [if_pos hx, if_pos hx, hx]
      have htableName := hname.trans (hown id conf hconf status hstatus)
      exact .inr ⟨.kept _ _ hcarries htableName (hmerged ▸ hcarries), hown id conf hconf⟩
    · rw [if_neg hx, if_neg hx]
      exact .inl ⟨rfl, rfl⟩

theorem Coherent.restated (h : Coherent enc s)
    (htable : s.catalog.manager.tables.get? name = some table)
    {statuses : List (ℕ × ShardStatus)}
    (hstatuses : ∀ e ∈ statuses, table.shards.get? e.1 ≠ none ∧ ∃ status,
      s.catalog.manager.shardStatuses.get? e.1 = some status ∧
        e.2.toShardConfig = status.toShardConfig ∧ e.2.table = status.table) :
    Coherent enc ⟨⟨s.catalog.manager.saveTableAndShardStatus name table statuses [],
      s.catalog.metas⟩, s.requested⟩ := by
  obtain ⟨m, hm⟩ : ∃ m, s.catalog.metas.get? name = some m :=
    Option.isSome_iff_exists.mp ((h.records name).symm.trans (by rw [htable]; rfl))
  refine h.reassigned htable hm rfl fun x => ?_
  by_cases hx : x ∈ statuses.map Prod.fst
  · obtain ⟨status', hmem, hget⟩ :=
      exists_get?_foldl_insert (m := s.catalog.manager.shardStatuses) hx
    obtain ⟨hne, status, hstatus, hsame, hname⟩ := hstatuses _ hmem
    obtain ⟨conf, hconf⟩ := Option.ne_none_iff_exists'.mp hne
    obtain ⟨hcarries, status₁, hstatus₁, hname₁, hcarries₁⟩ :=
      h.copies name table m htable hm x conf hconf
    rw [hstatus, Option.some_inj] at hstatus₁
    subst hstatus₁
    have hkept : Reassigned enc name m (some conf) (some status') :=
      .kept _ _ hcarries (hname.trans hname₁) (hsame ▸ hcarries₁)
    rw [← hget, ← hconf] at hkept
    refine .inr ⟨hkept, fun status₂ hstatus₂ => ?_⟩
    rw [hstatus, Option.some_inj] at hstatus₂
    exact hstatus₂ ▸ hname₁
  · exact .inl ⟨rfl, get?_foldl_insert_of_notMem hx⟩

theorem Coherent.reassign (h : Coherent enc s) {op : TableOp} {c : Catalog}
    (hc : s.catalog.reassign op = .ok c)
    (hfresh : ∀ t, op = .split t → ∀ status,
      s.catalog.manager.shardStatuses.get? t.splitShardID = some status →
        status.table = t.tableName) : Coherent enc ⟨c, s.requested⟩ := by
  unfold Catalog.reassign at hc
  cases happly : s.catalog.manager.apply op with
  | error e =>
    rw [happly] at hc
    cases hc
  | ok manager =>
    rw [happly] at hc
    cases hc
    cases TableManager.applied happly with
    | split t _ htable hconf hstatus parent child hparent hchild =>
      obtain ⟨m, hm⟩ := Option.isSome_iff_exists.mp
        ((h.records t.tableName).symm.trans (by rw [htable]; rfl))
      obtain ⟨hcarries, status', hstatus', hname, -⟩ := h.copies _ _ m htable hm _ _ hconf
      rw [hstatus, Option.some_inj] at hstatus'
      subst hstatus'
      refine h.reassigned htable hm rfl fun id => ?_
      simp only [TableManager.saveTableAndShardStatus, foldl_cons, foldl_nil, get?_insert]
      by_cases hchild' : id = t.splitShardID
      · rw [if_pos hchild', if_pos hchild', hchild', hchild]
        exact .inr ⟨.kept _ _ hcarries rfl hcarries, hfresh t rfl⟩
      · rw [if_neg hchild', if_neg hchild']
        by_cases hid : id = t.shardID
        · rw [if_pos hid, if_pos hid, hid, hstatus, hparent]
          refine .inr ⟨.kept _ _ hcarries hname hcarries, ?_⟩
          rintro _ ⟨⟩
          exact hname
        · rw [if_neg hid, if_neg hid]
          exact .inl ⟨rfl, rfl⟩
    | @merge _ t _ conf _ r _ _ _ _ htable hconf hconf' _ hstatus =>
      exact h.merged htable (TableManager.mergedConfig conf r) hconf hconf' hstatus rfl rfl rfl rfl
    | prepareMerge t htable hconf hstatus =>
      apply h.restated htable
      intro e he
      rw [mem_singleton] at he
      subst he
      exact ⟨by rw [hconf]; simp, _, hstatus, rfl, rfl⟩
    | rollbackMerge t htable hconf hconf' hreceiver hdonor =>
      apply h.restated htable
      intro e he
      rcases mem_cons.mp he with rfl | he
      · exact ⟨by rw [hconf]; simp, _, hreceiver, rfl, rfl⟩
      · rw [mem_singleton] at he
        subst he
        exact ⟨by rw [hconf']; simp, _, hdonor, rfl, rfl⟩

end Reassign

theorem Coherent.empty : Coherent enc .empty := by
  constructor
  · intro name table m htable
    cases htable
  · intro id status hstatus
    cases hstatus
  · exact fun _ => rfl
  · exact fun _ => rfl
  · intro name m r hm
    cases hm

theorem Coherent.step {s s' : Tables} {op : CatalogOp} (h : Coherent enc s)
    (hok : op.Meets enc s) (hstep : s.step enc op = some s') : Coherent enc s' := by
  unfold Tables.step at hstep
  cases happly : s.catalog.apply enc op with
  | error e =>
    rw [happly] at hstep
    cases hstep
    exact h
  | ok c =>
    rw [happly] at hstep
    cases hstep
    have hmeets := hok c happly
    cases op with
    | createTable name tc => exact h.createTable happly hmeets.1 hmeets.2
    | restoreTable name table m restoreConfig =>
      exact h.restoreTable happly hmeets.1 hmeets.2
    | createIndex name indexName config => exact h.createIndex happly hmeets
    | dropIndex name indexName => exact h.dropIndex happly hmeets
    | updateSchema name schema order => exact h.updateSchema happly hmeets
    | dropReadSchema name => exact h.dropReadSchema happly hmeets
    | reassign op =>
      apply h.reassign happly
      rintro t rfl
      exact hmeets
    | removeTable name => exact h.removeTable happly

/-- In every run whose operations meet the condition the records are coherent after each of them.
The configurations may hold the index set and the schema in any encoding. -/
theorem table_metadata_coherent (enc : ConfigEncoding) (ops : List CatalogOp) (s : Tables)
    (h : Run (Tables.step enc) (CatalogOp.Meets enc) .empty ops s) : Coherent enc s :=
  h.invariant (fun _ _ _ hok hstep hinv => hinv.step hok hstep) Coherent.empty

/-- Shard configurations that hold the names of the indexes and the version of the schema. -/
def namesEncoding : ConfigEncoding :=
  ⟨fun indexes => (indexes.entries.map Prod.fst).flatten, fun s => decimal (schemaVersion s)⟩

def emptyTable : CatalogTableConfig := ⟨1, 7, none, .empty⟩

/-- The configuration of the shard keeps an index that was dropped. -/
theorem dropped_index_stays : ∃ s, Run (Tables.step namesEncoding) (fun _ _ => True) .empty
    [.createTable [1] emptyTable, .createIndex [1] [2] ⟨[], .embeddings, []⟩, .dropIndex [1] [2]]
    s ∧ ¬ Coherent namesEncoding s := by
  refine ⟨_, .cons trivial rfl (.cons trivial rfl (.cons trivial rfl (.nil _))), fun h => ?_⟩
  obtain ⟨⟨hindexes, -⟩, -⟩ := h.copies [1] _ _ rfl rfl 7 _ rfl
  cases hindexes

def searchIndexes : OrdMap Bytes TableIndex :=
  OrdMap.empty.insert (versionedIndexName 0) ⟨versionedIndexName 0, .fullTextV0, []⟩

def searchTable : CatalogTableConfig := ⟨1, 7, none, searchIndexes⟩

private theorem get?_searchIndexes {n : Bytes} {idx : TableIndex}
    (h : searchIndexes.get? n = some idx) :
    n = versionedIndexName 0 ∧ idx = ⟨versionedIndexName 0, .fullTextV0, []⟩ := by
  unfold searchIndexes at h
  rw [get?_insert] at h
  split at h
  · rename_i hn
    exact ⟨hn, (Option.some.inj h).symm⟩
  · cases h

private theorem startsSound_searchTable : StartsSound ⟨searchIndexes, none, none⟩ := by
  constructor
  · intro n idx _ hidx
    obtain ⟨-, rfl⟩ := get?_searchIndexes hidx
    rfl
  · intro n _ _ v hv
    refine ⟨versionedIndexName 0, ?_, ?_⟩
    · obtain rfl := mem_singleton.mp hv
      exact namesVersion_versionedIndexName 0
    · rw [searchIndexes, get?_insert, if_pos rfl]
      simp

/-- A table with a full-text index takes a new schema, and the old one is dropped. -/
theorem migration_renews_index : ∃ s, Run (Tables.step namesEncoding)
    (CatalogOp.Meets namesEncoding) .empty
    [.createTable [1] searchTable, .updateSchema [1] (.ofVersion 0) [versionedIndexName 0],
      .dropReadSchema [1]] s ∧ Coherent namesEncoding s ∧
    (s.catalog.metas.get? [1]).map (fun m => m.indexes.entries.map Prod.fst) =
      some [versionedIndexName 1] := by
  have hrun : ∃ s, Run (Tables.step namesEncoding)
      (CatalogOp.Meets namesEncoding) .empty
      [.createTable [1] searchTable, .updateSchema [1] (.ofVersion 0) [versionedIndexName 0],
        .dropReadSchema [1]] s ∧
      (s.catalog.metas.get? [1]).map (fun m => m.indexes.entries.map Prod.fst) =
        some [versionedIndexName 1] := by
    refine ⟨_, .cons ?_ rfl (.cons ?_ rfl (.cons ?_ rfl (.nil _))), rfl⟩
    · intro c _
      exact ⟨startsSound_searchTable, fun i _ => rfl⟩
    · intro c _ m r hm hr _
      cases hm
      cases hr
      constructor
      · intro n _
        rfl
      · intro hread
        cases hread
      · intro read hread
        cases hread
      · intro hread
        cases hread
      · intro n idx hidx _
        obtain ⟨-, rfl⟩ := get?_searchIndexes hidx
        exact ⟨rfl, rfl⟩
      · intro _
        exact ⟨versionedIndexName 0, List.mem_singleton.mpr rfl, _, rfl, rfl⟩
    · intro c _ m r read hm hr hread
      cases hm
      cases hr
      cases hread
      constructor
      · intro n idx hidx
        cases hidx
      · intro _ hversion
        cases hversion
  obtain ⟨s, hrun, hindexes⟩ := hrun
  exact ⟨s, hrun, table_metadata_coherent _ _ _ hrun, hindexes⟩

end Antfly
