import Antfly.Cluster.TableMetadata
import Antfly.Lib.Runs

/-!
The index set and the schema of a table stand in three places: in the record of the table, in each
of its shard configurations and in the configuration of each shard's status.  The records are
coherent when the copies agree, every shard has a status and every status a shard, and the index
set is what its users asked for together with the full-text indexes of the schemas in use.

What the users asked for is kept beside the records: the indexes created and not dropped, and
whether the table was made with a full-text index at all.
-/

namespace Antfly

open List OrdMap

/-- The indexes of a table that its users created and did not drop, and whether the table has
full-text indexes. -/
structure Requested where
  indexes : OrdMap Bytes TableIndex
  fullText : Bool

/-- `n` names the full-text index of version `v`. -/
def namesVersion (v : ℕ) (n : Bytes) : Bool :=
  decide (n = versionedIndexName v) || (decide (v = 0) && decide (n = fullTextIndexName))

namespace TableMeta

/-- The versions of the schemas in use. -/
def versions (m : TableMeta) : List ℕ :=
  schemaVersion m.schema :: m.readSchema.toList.map TableSchema.version

/-- `n` names a full-text index of a schema in use. -/
def isVersionIndex (m : TableMeta) (n : Bytes) : Bool := m.versions.any fun v => namesVersion v n

end TableMeta

/-- A new table: what is not a full-text index of its schemas is the users'. -/
def Requested.initial (m : TableMeta) : Requested where
  indexes := m.indexes.filter fun n => !m.isVersionIndex n
  fullText := m.indexes.entries.any fun e => m.isVersionIndex e.1

/-- The index set is the users' indexes and the full-text indexes of the schemas in use. -/
structure IndexSet (m : TableMeta) (r : Requested) : Prop where
  users : ∀ n, m.isVersionIndex n = false → m.indexes.get? n = r.indexes.get? n
  apart : ∀ n, m.isVersionIndex n = true → r.indexes.get? n = none
  fullTextType : ∀ n idx, m.isVersionIndex n = true → m.indexes.get? n = some idx →
    idx.type.isFullText = true
  present : r.fullText = true → ∀ v ∈ m.versions, ∃ n, namesVersion v n = true ∧
    m.indexes.get? n ≠ none
  absent : r.fullText = false → ∀ n, m.isVersionIndex n = true → m.indexes.get? n = none

/-- The configuration carries the index set and the schema of the table. -/
def Carries (enc : ConfigEncoding) (m : TableMeta) (conf : ShardConfig) : Prop :=
  conf.indexes = enc.indexes m.indexes ∧ conf.schema = enc.schema m.schema

/-- The records of the tables and what was asked for. -/
structure Tables where
  catalog : Catalog
  requested : OrdMap Bytes Requested

def Tables.empty : Tables := ⟨.empty, .empty⟩

structure Coherent (enc : ConfigEncoding) (s : Tables) : Prop where
  copies : ∀ name table m, s.catalog.manager.tables.get? name = some table →
    s.catalog.metas.get? name = some m → ∀ id conf, table.shards.get? id = some conf →
      Carries enc m conf ∧ ∃ status, s.catalog.manager.shardStatuses.get? id = some status ∧
        status.table = name ∧ Carries enc m status.toShardConfig
  statuses : ∀ id status, s.catalog.manager.shardStatuses.get? id = some status →
    ∃ table conf, s.catalog.manager.tables.get? status.table = some table ∧
      table.shards.get? id = some conf
  records : ∀ name, (s.catalog.manager.tables.get? name).isSome = (s.catalog.metas.get? name).isSome
  requests : ∀ name, (s.requested.get? name).isSome = (s.catalog.metas.get? name).isSome
  indexSets : ∀ name m r, s.catalog.metas.get? name = some m → s.requested.get? name = some r →
    IndexSet m r

/-- What was asked for after a successful operation. -/
def CatalogOp.record (requested : OrdMap Bytes Requested) : CatalogOp → OrdMap Bytes Requested
  | .createTable name tc => requested.insert name (.initial ⟨tc.indexes, tc.schema, none⟩)
  | .restoreTable name _ m _ => requested.insert name (.initial m)
  | .createIndex tableName indexName config =>
    match requested.get? tableName with
    | none => requested
    | some r => requested.insert tableName
        { r with indexes := r.indexes.insert indexName { config with name := indexName } }
  | .dropIndex tableName indexName =>
    match requested.get? tableName with
    | none => requested
    | some r => requested.insert tableName { r with indexes := r.indexes.erase indexName }
  | .removeTable name => requested.erase name
  | .updateSchema .. | .dropReadSchema .. | .reassign .. => requested

/-- A refused operation changes nothing. -/
def Tables.step (enc : ConfigEncoding) (s : Tables) (op : CatalogOp) : Option Tables :=
  match s.catalog.apply enc op with
  | .error _ => some s
  | .ok c => some ⟨c, op.record s.requested⟩

/-- The indexes with the names of the full-text indexes are full-text indexes, and all schemas in
use have one or none has. -/
structure StartsSound (m : TableMeta) : Prop where
  fullTextType : ∀ n idx, m.isVersionIndex n = true → m.indexes.get? n = some idx →
    idx.type.isFullText = true
  complete : ∀ n, m.isVersionIndex n = true → m.indexes.get? n ≠ none →
    ∀ v ∈ m.versions, ∃ n', namesVersion v n' = true ∧ m.indexes.get? n' ≠ none

/-- The indexes a change of the document schemas keeps. -/
def TableMeta.keptByMigration (m : TableMeta) : OrdMap Bytes TableIndex :=
  if m.readSchema.isSome then
    m.indexes.filter fun n => !hasSuffix n (versionSuffix (schemaVersion m.schema))
  else m.indexes

/-- A change of the document schemas takes a full-text index as the pattern of the next one, if
the table has any, does not meet an index of a user under the name of the next one and, when it
replaces the target of a migration, drops the index of that target and nothing else. -/
structure SafeMigration (m : TableMeta) (r : Requested) (order : List Bytes) : Prop where
  newName : ∀ n, namesVersion ((schemaVersion m.schema + 1) % 4294967296) n = true →
    r.indexes.get? n = none
  spared : m.readSchema.isSome = true → ∀ n, r.indexes.get? n ≠ none →
    hasSuffix n (versionSuffix (schemaVersion m.schema)) = false
  readKept : ∀ read, m.readSchema = some read → r.fullText = true →
    read.version ≠ schemaVersion m.schema
  oldName : m.readSchema.isSome = true → schemaVersion m.schema = 0 →
    m.indexes.get? fullTextIndexName = none
  pattern : ∀ n idx, m.keptByMigration.get? n = some idx →
    hasPrefix idx.name fullTextIndexName = true → idx.type.isFullText = true ∧ r.fullText = true
  found : r.fullText = true → ∃ n ∈ order, ∃ idx, m.keptByMigration.get? n = some idx ∧
    hasPrefix idx.name fullTextIndexName = true

/-- The condition on a successful operation.  New tables and shards take ids no other table has.
An index that exists is dropped only from a table without shards.  The schema operations are safe
for the indexes of users. -/
def CatalogOp.Meets (enc : ConfigEncoding) (s : Tables) (op : CatalogOp) : Prop :=
  ∀ c, s.catalog.apply enc op = .ok c →
    match op with
    | .createTable _ tc => StartsSound ⟨tc.indexes, tc.schema, none⟩ ∧
        ∀ i < tc.numShards, s.catalog.manager.shardStatuses.get? (tc.startID + i) = none
    | .restoreTable _ table m _ => StartsSound m ∧
        ∀ id conf, table.shards.get? id = some conf →
          s.catalog.manager.shardStatuses.get? id = none
    | .createIndex tableName indexName _ => ∀ m, s.catalog.metas.get? tableName = some m →
        m.isVersionIndex indexName = false
    | .dropIndex tableName indexName => ∀ table m,
        s.catalog.manager.tables.get? tableName = some table →
        s.catalog.metas.get? tableName = some m →
          m.indexes.get? indexName = none ∨
            (∀ id, table.shards.get? id = none) ∧ m.isVersionIndex indexName = false
    | .updateSchema tableName schema order => ∀ m r, s.catalog.metas.get? tableName = some m →
        s.requested.get? tableName = some r →
        Catalog.documentSchemasChanged m.schema (some schema) = true → SafeMigration m r order
    | .dropReadSchema tableName => ∀ m r read, s.catalog.metas.get? tableName = some m →
        s.requested.get? tableName = some r → m.readSchema = some read →
          (∀ n idx, r.indexes.get? n = some idx → idx.type.isFullText = true →
            hasSuffix n (versionSuffix read.version) = false) ∧
          (r.fullText = true → read.version ≠ schemaVersion m.schema)
    | .reassign (.split t) => ∀ status,
        s.catalog.manager.shardStatuses.get? t.splitShardID = some status →
          status.table = t.tableName
    | .reassign _ | .removeTable _ => True

theorem namesVersion_iff {v : ℕ} {n : Bytes} :
    namesVersion v n = true ↔ n = versionedIndexName v ∨ v = 0 ∧ n = fullTextIndexName := by
  simp [namesVersion]

theorem namesVersion_versionedIndexName (v : ℕ) : namesVersion v (versionedIndexName v) = true :=
  namesVersion_iff.mpr (.inl rfl)

namespace TableMeta

variable {m : TableMeta} {n : Bytes}

theorem isVersionIndex_iff :
    m.isVersionIndex n = true ↔ ∃ v ∈ m.versions, namesVersion v n = true :=
  any_eq_true

theorem mem_versions {v : ℕ} :
    v ∈ m.versions ↔ v = schemaVersion m.schema ∨ ∃ read, m.readSchema = some read ∧
      read.version = v := by
  rw [versions, mem_cons, mem_map]
  simp only [Option.mem_toList]

theorem isVersionIndex_congr {m' : TableMeta} (h : m.versions = m'.versions) (n : Bytes) :
    m.isVersionIndex n = m'.isVersionIndex n := by
  rw [isVersionIndex, isVersionIndex, h]

end TableMeta

theorem schemaVersion_persisted (s : Option TableSchema) :
    schemaVersion (s.map TableSchema.persisted) = schemaVersion s := by
  cases s <;> rfl

theorem versions_persisted (m : TableMeta) : m.persisted.versions = m.versions := by
  have hread : (m.readSchema.map TableSchema.persisted).toList.map TableSchema.version =
      m.readSchema.toList.map TableSchema.version := by
    cases m.readSchema <;> rfl
  rw [TableMeta.versions, TableMeta.versions, TableMeta.persisted, schemaVersion_persisted, hread]

variable {m m' : TableMeta} {r : Requested} {n : Bytes}

theorem IndexSet.initial (h : StartsSound m) (hindexes : m'.indexes = m.indexes)
    (hversions : m'.versions = m.versions) :
    IndexSet m' (.initial m) := by
  have hnames := TableMeta.isVersionIndex_congr hversions
  have hsome : (Requested.initial m).fullText = true ↔
      ∃ n, m.isVersionIndex n = true ∧ m.indexes.get? n ≠ none := by
    rw [Requested.initial, any_eq_true]
    constructor
    · rintro ⟨⟨n, idx⟩, he, hn⟩
      exact ⟨n, hn, by rw [(m.indexes.mem_entries_iff n idx).mp he]; simp⟩
    · rintro ⟨n, hn, hne⟩
      obtain ⟨idx, hidx⟩ := Option.ne_none_iff_exists'.mp hne
      exact ⟨(n, idx), (m.indexes.mem_entries_iff n idx).mpr hidx, hn⟩
  constructor
  · intro n hn
    rw [hnames] at hn
    rw [hindexes, Requested.initial, get?_filter, hn]
    rfl
  · intro n hn
    rw [hnames] at hn
    rw [Requested.initial, get?_filter, hn]
    rfl
  · intro n idx hn hidx
    rw [hnames] at hn
    rw [hindexes] at hidx
    exact h.fullTextType n idx hn hidx
  · intro hfull v hv
    obtain ⟨n, hn, hne⟩ := hsome.mp hfull
    rw [hindexes]
    rw [hversions] at hv
    exact h.complete n hn hne v hv
  · intro hnot n hn
    rw [hnames] at hn
    rw [hindexes]
    by_contra hne
    rw [hsome.mpr ⟨n, hn, hne⟩] at hnot
    cases hnot

/-- A change of the indexes that are not full-text indexes of the table, recorded for its users. -/
theorem IndexSet.edit (h : IndexSet m r) {indexes requested : OrdMap Bytes TableIndex}
    (hkept : ∀ n, m.isVersionIndex n = true → indexes.get? n = m.indexes.get? n)
    (hapart : ∀ n, m.isVersionIndex n = true → requested.get? n = r.indexes.get? n)
    (hsame : ∀ n, m.isVersionIndex n = false → indexes.get? n = requested.get? n) :
    IndexSet { m with indexes := indexes } { r with indexes := requested } := by
  constructor
  · exact hsame
  · intro n hn
    exact (hapart n hn).trans (h.apart n hn)
  · intro n idx hn hidx
    exact h.fullTextType n idx hn ((hkept n hn).symm.trans hidx)
  · intro hfull v hv
    obtain ⟨n, hname, hne⟩ := h.present hfull v hv
    refine ⟨n, hname, ?_⟩
    change indexes.get? n ≠ none
    rwa [hkept n (TableMeta.isVersionIndex_iff.mpr ⟨v, hv, hname⟩)]
  · intro hnot n hn
    exact (hkept n hn).trans (h.absent hnot n hn)

theorem IndexSet.create (h : IndexSet m r) (hn : m.isVersionIndex n = false) (idx : TableIndex) :
    IndexSet { m with indexes := m.indexes.insert n idx }
      { r with indexes := r.indexes.insert n idx } := by
  have hother : ∀ n', m.isVersionIndex n' = true → n' ≠ n := by
    rintro n' hn' rfl
    rw [hn] at hn'
    cases hn'
  apply h.edit
  · intro n' hn'
    rw [get?_insert, if_neg (hother n' hn')]
  · intro n' hn'
    rw [get?_insert, if_neg (hother n' hn')]
  · intro n' hn'
    rw [get?_insert, get?_insert, h.users n' hn']

theorem IndexSet.drop (h : IndexSet m r)
    (hn : m.indexes.get? n = none ∨ m.isVersionIndex n = false) :
    IndexSet { m with indexes := m.indexes.erase n } { r with indexes := r.indexes.erase n } := by
  apply h.edit
  · intro n' hn'
    rw [get?_erase]
    split
    · rename_i heq
      subst heq
      rcases hn with habsent | hother
      · exact habsent.symm
      · rw [hother] at hn'
        cases hn'
    · rfl
  · intro n' hn'
    rw [get?_erase]
    split
    · exact (h.apart n' hn').symm
    · rfl
  · intro n' hn'
    rw [get?_erase, get?_erase, h.users n' hn']

theorem IndexSet.congr (h : IndexSet m r) (hindexes : m'.indexes = m.indexes)
    (hversions : m'.versions = m.versions) :
    IndexSet m' r := by
  have hnames := TableMeta.isVersionIndex_congr hversions
  constructor
  · intro n hn
    rw [hindexes]
    exact h.users n ((hnames n).symm.trans hn)
  · intro n hn
    exact h.apart n ((hnames n).symm.trans hn)
  · intro n idx hn hidx
    rw [hindexes] at hidx
    exact h.fullTextType n idx ((hnames n).symm.trans hn) hidx
  · intro hfull v hv
    rw [hindexes]
    exact h.present hfull v (hversions ▸ hv)
  · intro hnot n hn
    rw [hindexes]
    exact h.absent hnot n ((hnames n).symm.trans hn)

theorem hasSuffix_of_namesVersion {v w : ℕ} (hn : namesVersion v n = true) (hne : v ≠ w) :
    hasSuffix n (versionSuffix w) = false := by
  rcases namesVersion_iff.mp hn with rfl | ⟨-, rfl⟩
  · by_contra h
    rw [Bool.not_eq_false, hasSuffix_versionedIndexName] at h
    exact hne h.symm
  · exact hasSuffix_fullTextIndexName w

namespace TableMeta

variable {m : TableMeta} {r : Requested} {order : List Bytes}

def readAfter (m : TableMeta) : ℕ := m.readSchema.elim (schemaVersion m.schema) TableSchema.version

theorem readAfter_mem_versions : m.readAfter ∈ m.versions := by
  rw [mem_versions]
  cases hread : m.readSchema with
  | none => exact .inl (by rw [readAfter, hread]; rfl)
  | some read => exact .inr ⟨read, rfl, by rw [readAfter, hread]; rfl⟩

variable {n : Bytes}

theorem get?_of_keptByMigration {idx : TableIndex} (h : m.keptByMigration.get? n = some idx) :
    m.indexes.get? n = some idx := by
  unfold keptByMigration at h
  split at h
  · rw [get?_filter] at h
    split at h
    · exact h
    · cases h
  · exact h

theorem keptByMigration_eq_none (h : m.indexes.get? n = none) :
    m.keptByMigration.get? n = none := by
  cases hkept : m.keptByMigration.get? n with
  | none => rfl
  | some idx =>
    rw [get?_of_keptByMigration hkept] at h
    cases h

theorem get?_keptByMigration {n : Bytes} (h : m.readSchema.isSome = true →
      hasSuffix n (versionSuffix (schemaVersion m.schema)) = false) :
    m.keptByMigration.get? n = m.indexes.get? n := by
  unfold keptByMigration
  split
  · rename_i hread
    rw [get?_filter, h hread]
    rfl
  · rfl

end TableMeta

theorem migrate_spec {m m' : TableMeta} {schema : TableSchema} {order : List Bytes}
    (h : Catalog.migrate m schema order = .ok m') :
    m'.versions = [(schemaVersion m.schema + 1) % 4294967296, m.readAfter] ∧
      m'.indexes = match Catalog.pickFullText m.keptByMigration order with
        | none => m.keptByMigration
        | some idx =>
          let name := versionedIndexName ((schemaVersion m.schema + 1) % 4294967296)
          m.keptByMigration.insert name { idx with name := name } := by
  unfold Catalog.migrate at h
  unfold TableMeta.keptByMigration TableMeta.readAfter
  cases hread : m.readSchema with
  | none =>
    simp only [hread, Fallible.bind_eq_ok, Fallible.pure_eq_ok] at h
    obtain ⟨p, hp, rfl⟩ := h
    cases hp
    refine ⟨?_, rfl⟩
    cases hschema : m.schema with
    | none => rfl
    | some old => rfl
  | some read =>
    cases hschema : m.schema with
    | none =>
      simp only [hread, hschema, Fallible.bind_eq_ok] at h
      obtain ⟨p, hp, -⟩ := h
      cases hp
    | some old =>
      simp only [hread, hschema, Fallible.bind_eq_ok, Fallible.pure_eq_ok] at h
      obtain ⟨p, hp, rfl⟩ := h
      cases hp
      exact ⟨rfl, rfl⟩

variable {indexes : OrdMap Bytes TableIndex} {order : List Bytes} {r : Requested}

theorem pickFullText_some {idx : TableIndex} (h : Catalog.pickFullText indexes order = some idx) :
    ∃ n, indexes.get? n = some idx ∧ hasPrefix idx.name fullTextIndexName = true := by
  obtain ⟨n, -, hn⟩ := mem_filterMap.mp (mem_of_find?_eq_some h)
  have hprefix := find?_some h
  exact ⟨n, hn, hprefix⟩

theorem pickFullText_ne_none {indexes : OrdMap Bytes TableIndex} {order : List Bytes}
    (h : ∃ n ∈ order, ∃ idx, indexes.get? n = some idx ∧
      hasPrefix idx.name fullTextIndexName = true) :
    Catalog.pickFullText indexes order ≠ none := by
  obtain ⟨n, hn, idx, hidx, hprefix⟩ := h
  intro hnone
  have hnot := find?_eq_none.mp hnone idx (mem_filterMap.mpr ⟨n, hn, hidx⟩)
  exact hnot hprefix

section Migration

variable {m m' : TableMeta} {schema : TableSchema} {n : Bytes}

theorem mem_versions_migrate (hm' : Catalog.migrate m schema order = .ok m') {v : ℕ} :
    v ∈ m'.versions ↔ v = (schemaVersion m.schema + 1) % 4294967296 ∨ v = m.readAfter := by
  rw [(migrate_spec hm').1, mem_cons, mem_singleton]

/-- What the pattern adds stands under the name of the new version only. -/
theorem get?_migrate_of_ne (hm' : Catalog.migrate m schema order = .ok m')
    (hn : n ≠ versionedIndexName ((schemaVersion m.schema + 1) % 4294967296)) :
    m'.indexes.get? n = m.keptByMigration.get? n := by
  rw [(migrate_spec hm').2]
  split
  · rfl
  · rw [get?_insert, if_neg hn]

theorem get?_migrate_ne_none (hm' : Catalog.migrate m schema order = .ok m')
    (hn : m.keptByMigration.get? n ≠ none) : m'.indexes.get? n ≠ none := by
  rw [(migrate_spec hm').2]
  split
  · exact hn
  · rw [get?_insert]
    split
    · simp
    · exact hn

theorem eq_target_of_ne_readAfter {v : ℕ} (hv : v ∈ m.versions) (hne : v ≠ m.readAfter) :
    v = schemaVersion m.schema ∧ m.readSchema.isSome = true := by
  unfold TableMeta.readAfter at hne
  rcases TableMeta.mem_versions.mp hv with rfl | ⟨read, hread, rfl⟩
  · cases hread : m.readSchema with
    | none =>
      rw [hread] at hne
      exact absurd rfl hne
    | some read => exact ⟨rfl, rfl⟩
  · rw [hread] at hne
    exact absurd rfl hne

theorem IndexSet.apart_migrate (h : IndexSet m r) (hsafe : SafeMigration m r order)
    (hm' : Catalog.migrate m schema order = .ok m') (hn : m'.isVersionIndex n = true) :
    r.indexes.get? n = none := by
  obtain ⟨v, hv, hname⟩ := TableMeta.isVersionIndex_iff.mp hn
  rcases (mem_versions_migrate hm').mp hv with rfl | rfl
  · exact hsafe.newName n hname
  · exact h.apart n (TableMeta.isVersionIndex_iff.mpr
      ⟨_, TableMeta.readAfter_mem_versions, hname⟩)

theorem IndexSet.keptByMigration_users (h : IndexSet m r) (hsafe : SafeMigration m r order)
    (hm' : Catalog.migrate m schema order = .ok m') (hn : m'.isVersionIndex n = false) :
    m.keptByMigration.get? n = r.indexes.get? n := by
  cases hold : m.isVersionIndex n with
  | false =>
    have husers := h.users n hold
    cases hr : r.indexes.get? n with
    | none => exact TableMeta.keptByMigration_eq_none (husers.trans hr)
    | some idx =>
      rw [← hr, ← husers]
      apply TableMeta.get?_keptByMigration
      intro hread
      exact hsafe.spared hread n (by rw [hr]; simp)
  | true =>
    rw [h.apart n hold]
    obtain ⟨v, hv, hname⟩ := TableMeta.isVersionIndex_iff.mp hold
    have hnotAfter : v ≠ m.readAfter := by
      rintro rfl
      rw [TableMeta.isVersionIndex_iff.mpr
        ⟨_, (mem_versions_migrate hm').mpr (.inr rfl), hname⟩] at hn
      cases hn
    obtain ⟨rfl, hread⟩ := eq_target_of_ne_readAfter hv hnotAfter
    rcases namesVersion_iff.mp hname with rfl | ⟨hzero, rfl⟩
    · rw [TableMeta.keptByMigration, if_pos hread, get?_filter,
        hasSuffix_versionedIndexName.mpr rfl]
      rfl
    · exact TableMeta.keptByMigration_eq_none (hsafe.oldName hread hzero)

theorem IndexSet.fullTextType_migrate (h : IndexSet m r) (hsafe : SafeMigration m r order)
    (hm' : Catalog.migrate m schema order = .ok m') {idx : TableIndex}
    (hn : m'.isVersionIndex n = true) (hidx : m'.indexes.get? n = some idx) :
    idx.type.isFullText = true := by
  have hindexes := (migrate_spec hm').2
  by_cases hnew : n = versionedIndexName ((schemaVersion m.schema + 1) % 4294967296) ∧
      Catalog.pickFullText m.keptByMigration order ≠ none
  · obtain ⟨rfl, hpick⟩ := hnew
    obtain ⟨pattern, hpattern⟩ := Option.ne_none_iff_exists'.mp hpick
    obtain ⟨n', hn', hprefix⟩ := pickFullText_some hpattern
    simp only [hindexes, hpattern] at hidx
    rw [get?_insert, if_pos rfl, Option.some_inj] at hidx
    have htype := (hsafe.pattern n' pattern hn' hprefix).1
    rw [← hidx]
    exact htype
  · have hkeptIdx : m.keptByMigration.get? n = some idx := by
      by_cases hname : n = versionedIndexName ((schemaVersion m.schema + 1) % 4294967296)
      · have hpick : Catalog.pickFullText m.keptByMigration order = none := by
          by_contra hne
          exact hnew ⟨hname, hne⟩
        simp only [hindexes, hpick] at hidx
        exact hidx
      · rw [← get?_migrate_of_ne hm' hname]
        exact hidx
    have hbefore := TableMeta.get?_of_keptByMigration hkeptIdx
    cases hversion : m.isVersionIndex n with
    | true => exact h.fullTextType n idx hversion hbefore
    | false =>
      rw [h.users n hversion, h.apart_migrate hsafe hm' hn] at hbefore
      cases hbefore

theorem IndexSet.present_migrate (h : IndexSet m r) (hsafe : SafeMigration m r order)
    (hm' : Catalog.migrate m schema order = .ok m') (hfull : r.fullText = true) {v : ℕ}
    (hv : v ∈ m'.versions) : ∃ n, namesVersion v n = true ∧ m'.indexes.get? n ≠ none := by
  rcases (mem_versions_migrate hm').mp hv with rfl | rfl
  · refine ⟨_, namesVersion_versionedIndexName _, ?_⟩
    obtain ⟨pattern, hpattern⟩ :=
      Option.ne_none_iff_exists'.mp (pickFullText_ne_none (hsafe.found hfull))
    simp [(migrate_spec hm').2, hpattern, get?_insert]
  · obtain ⟨n, hname, hne⟩ := h.present hfull _ TableMeta.readAfter_mem_versions
    refine ⟨n, hname, get?_migrate_ne_none hm' ?_⟩
    have hstays : m.keptByMigration.get? n = m.indexes.get? n := by
      apply TableMeta.get?_keptByMigration
      intro hread
      obtain ⟨read, hread⟩ := Option.isSome_iff_exists.mp hread
      apply hasSuffix_of_namesVersion hname
      have hversion := hsafe.readKept read hread hfull
      rw [TableMeta.readAfter, hread]
      exact hversion
    rw [hstays]
    exact hne

/-- A safe change of the document schemas: the old index that is read stays, the one of a replaced
target goes, and the next one takes a name that is free. -/
theorem IndexSet.migrate (h : IndexSet m r) (hsafe : SafeMigration m r order)
    (hm' : Catalog.migrate m schema order = .ok m') : IndexSet m' r := by
  constructor
  · intro n hn
    rw [← h.keptByMigration_users hsafe hm' hn]
    apply get?_migrate_of_ne hm'
    rintro rfl
    rw [TableMeta.isVersionIndex_iff.mpr
      ⟨_, (mem_versions_migrate hm').mpr (.inl rfl), namesVersion_versionedIndexName _⟩] at hn
    cases hn
  · intro n hn
    exact h.apart_migrate hsafe hm' hn
  · intro n idx hn hidx
    exact h.fullTextType_migrate hsafe hm' hn hidx
  · intro hfull v hv
    exact h.present_migrate hsafe hm' hfull hv
  · intro hnot n hn
    have hpick : Catalog.pickFullText m.keptByMigration order = none := by
      cases hpick : Catalog.pickFullText m.keptByMigration order with
      | none => rfl
      | some pattern =>
        obtain ⟨n', hn', hprefix⟩ := pickFullText_some hpick
        have hfull := (hsafe.pattern n' pattern hn' hprefix).2
        rw [hnot] at hfull
        cases hfull
    simp only [(migrate_spec hm').2, hpick]
    apply TableMeta.keptByMigration_eq_none
    cases hversion : m.isVersionIndex n with
    | true => exact h.absent hnot n hversion
    | false => exact (h.users n hversion).trans (h.apart_migrate hsafe hm' hn)

end Migration

theorem dropsWithReadSchema_iff {version : ℕ} {n : Bytes} :
    Catalog.dropsWithReadSchema indexes version n = true ↔
      ∃ idx, indexes.get? n = some idx ∧ idx.type.isFullText = true ∧
        (hasSuffix n (versionSuffix version) = true ∨ version = 0 ∧ n = fullTextIndexName) := by
  unfold Catalog.dropsWithReadSchema
  cases indexes.get? n with
  | none => simp
  | some idx => simp

/-- The end of a migration: the full-text indexes of the old schema go, and nothing else. -/
theorem IndexSet.dropRead {m : TableMeta} {r : Requested} {read : TableSchema} (h : IndexSet m r)
    (hread : m.readSchema = some read)
    (hspared : ∀ n idx, r.indexes.get? n = some idx → idx.type.isFullText = true →
      hasSuffix n (versionSuffix read.version) = false)
    (hkept : r.fullText = true → read.version ≠ schemaVersion m.schema) :
    IndexSet ⟨m.indexes.filter fun n => !Catalog.dropsWithReadSchema m.indexes read.version n,
      m.schema, none⟩ r := by
  set m' : TableMeta := ⟨m.indexes.filter fun n =>
    !Catalog.dropsWithReadSchema m.indexes read.version n, m.schema, none⟩ with hm'
  have hversions : m'.versions = [schemaVersion m.schema] := rfl
  have hnames : ∀ n, m'.isVersionIndex n = namesVersion (schemaVersion m.schema) n := by
    intro n
    rw [TableMeta.isVersionIndex, hversions, any_cons, any_nil, Bool.or_false]
  have hget : ∀ n, m'.indexes.get? n =
      if Catalog.dropsWithReadSchema m.indexes read.version n = true then none
      else m.indexes.get? n := by
    intro n
    rw [hm', get?_filter]
    cases Catalog.dropsWithReadSchema m.indexes read.version n <;> rfl
  have hsub : ∀ n idx, m'.indexes.get? n = some idx → m.indexes.get? n = some idx := by
    intro n idx hidx
    rw [hget] at hidx
    split at hidx
    · cases hidx
    · exact hidx
  have hstill : ∀ n, m'.isVersionIndex n = true → m.isVersionIndex n = true := by
    intro n hn
    rw [hnames] at hn
    exact TableMeta.isVersionIndex_iff.mpr ⟨_, TableMeta.mem_versions.mpr (.inl rfl), hn⟩
  have hreadNames : ∀ n, namesVersion read.version n = true → m.isVersionIndex n = true := by
    intro n hn
    exact TableMeta.isVersionIndex_iff.mpr
      ⟨_, TableMeta.mem_versions.mpr (.inr ⟨read, hread, rfl⟩), hn⟩
  constructor
  · intro n hn
    rw [hget]
    cases hbefore : m.isVersionIndex n with
    | false =>
      rw [if_neg, h.users n hbefore]
      intro hdrops
      obtain ⟨idx, hidx, htype, hsuffix | ⟨hzero, hname⟩⟩ := dropsWithReadSchema_iff.mp hdrops
      · rw [h.users n hbefore] at hidx
        rw [hspared n idx hidx htype] at hsuffix
        cases hsuffix
      · rw [hreadNames n (namesVersion_iff.mpr (.inr ⟨hzero, hname⟩))] at hbefore
        cases hbefore
    | true =>
      rw [h.apart n hbefore]
      split
      · rfl
      · rename_i hdrops
        cases hidx : m.indexes.get? n with
        | none => rfl
        | some idx =>
          obtain ⟨v, hv, hname⟩ := TableMeta.isVersionIndex_iff.mp hbefore
          have hv : v = read.version := by
            rcases TableMeta.mem_versions.mp hv with rfl | ⟨read', hread', rfl⟩
            · rw [hnames, hname] at hn
              cases hn
            · rw [hread, Option.some_inj] at hread'
              rw [hread']
          subst hv
          refine absurd (dropsWithReadSchema_iff.mpr ⟨idx, hidx,
            h.fullTextType n idx hbefore hidx, ?_⟩) hdrops
          rcases namesVersion_iff.mp hname with rfl | hold
          · exact .inl (hasSuffix_versionedIndexName.mpr rfl)
          · exact .inr hold
  · intro n hn
    exact h.apart n (hstill n hn)
  · intro n idx hn hidx
    exact h.fullTextType n idx (hstill n hn) (hsub n idx hidx)
  · intro hfull v hv
    rw [hversions, mem_singleton] at hv
    subst hv
    obtain ⟨n, hname, hne⟩ := h.present hfull _ (TableMeta.mem_versions.mpr (.inl rfl))
    refine ⟨n, hname, ?_⟩
    rw [hget, if_neg]
    · exact hne
    · intro hdrops
      obtain ⟨idx, -, -, hsuffix | ⟨hzero, rfl⟩⟩ := dropsWithReadSchema_iff.mp hdrops
      · rw [hasSuffix_of_namesVersion hname (hkept hfull).symm] at hsuffix
        cases hsuffix
      · rcases namesVersion_iff.mp hname with hversioned | ⟨hzero', -⟩
        · have hsuffix := hasSuffix_fullTextIndexName (schemaVersion m.schema)
          rw [hversioned, hasSuffix_versionedIndexName.mpr rfl] at hsuffix
          cases hsuffix
        · exact hkept hfull (hzero.trans hzero'.symm)
  · intro hnot n hn
    have hnone := h.absent hnot n (hstill n hn)
    rw [hget, hnone, ite_self]

end Antfly
