import Antfly.Cluster.TablePartition

/-!
A table records its index set, its schema and, while a schema migration runs, the schema that is
still read.  Every shard configuration of the table and the configuration in every shard's status
hold a copy of the index set and the schema, which the operations on the table rewrite one by one.

The full-text index of schema version `v` is called `full_text_index_v` followed by `v`, and
`full_text_index` is an old name for version 0.  Operations find these indexes among all others by
their names.
-/

namespace Antfly

open List

inductive IndexType where
  | embeddings | fullText | graph | aknnV0 | fullTextV0 | graphV0
  deriving DecidableEq

/-- `IsFullTextType`. -/
def IndexType.isFullText : IndexType → Bool
  | .fullText | .fullTextV0 => true
  | _ => false

/-- `indexes.IndexConfig`; the operations on tables copy what else is in it. -/
structure TableIndex where
  name : Bytes
  type : IndexType
  config : Bytes
  deriving DecidableEq

/-- `schema.TableSchema`.  The document schemas are in the order of their type names, and `none` is
the nil map. -/
structure TableSchema where
  defaultType : Bytes
  documentSchemas : Option (List (Bytes × Bytes))
  dynamicTemplates : Bytes
  enforceTypes : Bool
  ttlDuration : Bytes
  ttlField : Bytes
  version : ℕ
  deriving DecidableEq

def TableSchema.ofVersion (version : ℕ) : TableSchema := ⟨[], none, [], false, [], [], version⟩

/-- The schema as it is read back: an empty map is omitted when the table is saved. -/
def TableSchema.persisted (s : TableSchema) : TableSchema :=
  { s with documentSchemas := s.documentSchemas.filter fun ds => !ds.isEmpty }

/-- The version of a schema, zero for a missing one. -/
def schemaVersion (s : Option TableSchema) : ℕ := s.elim 0 TableSchema.version

/-- What the record of a table holds beside its shards. -/
structure TableMeta where
  indexes : OrdMap Bytes TableIndex
  schema : Option TableSchema
  readSchema : Option TableSchema

def TableMeta.persisted (m : TableMeta) : TableMeta where
  indexes := m.indexes
  schema := m.schema.map TableSchema.persisted
  readSchema := m.readSchema.map TableSchema.persisted

/-- How a shard configuration holds the index set and the schema. -/
structure ConfigEncoding where
  indexes : OrdMap Bytes TableIndex → Bytes
  schema : Option TableSchema → Bytes

/-- The records of all tables: their shards and the statuses of these, and what else they hold. -/
structure Catalog where
  manager : TableManager
  metas : OrdMap Bytes TableMeta

def Catalog.empty : Catalog := ⟨⟨.empty, .empty⟩, .empty⟩

/-- `TableConfig`. -/
structure CatalogTableConfig where
  numShards : ℕ
  startID : ℕ
  schema : Option TableSchema
  indexes : OrdMap Bytes TableIndex

inductive CatalogError where
  | table (e : TableError)
  | indexExists
  | noReadSchema
  /-- Not an error of the source: it dereferences a nil schema. -/
  | nilSchema
  deriving DecidableEq

def decimal (n : ℕ) : Bytes := ascii (Nat.toDigits 10 n)

/-- `full_text_index`. -/
def fullTextIndexName : Bytes :=
  ascii ['f', 'u', 'l', 'l', '_', 't', 'e', 'x', 't', '_', 'i', 'n', 'd', 'e', 'x']

/-- `_v%d`. -/
def versionSuffix (version : ℕ) : Bytes := ascii ['_', 'v'] ++ decimal version

/-- `full_text_index_v%d`. -/
def versionedIndexName (version : ℕ) : Bytes := fullTextIndexName ++ versionSuffix version

namespace Catalog

variable (enc : ConfigEncoding) (c : Catalog)

/-- A shard configuration with the index set and the schema of the table. -/
def carry (m : TableMeta) (conf : ShardConfig) : ShardConfig :=
  { conf with indexes := enc.indexes m.indexes, schema := enc.schema m.schema }

/-- `saveTableAndShardStatus`. -/
def save (name : Bytes) (m : TableMeta) (shards : OrdMap ℕ ShardConfig)
    (statuses : List (ℕ × ShardStatus)) : Catalog where
  manager := c.manager.saveTableAndShardStatus name ⟨shards⟩ statuses []
  metas := c.metas.insert name m

def getTable (name : Bytes) : Except CatalogError (TableDef × TableMeta) :=
  match c.manager.tables.get? name, c.metas.get? name with
  | some table, some m => .ok (table, m)
  | _, _ => .error (.table .notFound)

def createTable (name : Bytes) (tc : CatalogTableConfig) : Except CatalogError Catalog :=
  let m : TableMeta := ⟨tc.indexes, tc.schema.map TableSchema.persisted, none⟩
  match c.manager.createTable name
      ⟨tc.numShards, tc.startID, enc.schema m.schema, enc.indexes m.indexes⟩ with
  | .error e => .error (.table e)
  | .ok manager => .ok ⟨manager, c.metas.insert name m⟩

/-- `RestoreTable`: the table comes from a backup, with its shards and its schemas. -/
def restoreTable (name : Bytes) (table : TableDef) (m : TableMeta) (restoreConfig : Bytes) :
    Except CatalogError Catalog :=
  if (c.manager.tables.get? name).isSome then .error (.table .tableExists)
  else
    let shards := table.shards.map fun _ conf =>
      { carry enc m.persisted conf with restoreConfig := restoreConfig }
    let statuses := shards.entries.map fun e => (e.1,
      { ShardInfo.ofConfig e.2 ∅ with id := e.1, table := name, state := ShardState.default })
    .ok (c.save name m.persisted shards statuses)

def createIndex (tableName indexName : Bytes) (config : TableIndex) :
    Except CatalogError Catalog := do
  let (table, m) ← c.getTable tableName
  if (m.indexes.get? indexName).isSome then .error .indexExists
  else
    let m' := { m with indexes := m.indexes.insert indexName { config with name := indexName } }
    let statuses ← table.shards.entries.mapM fun e =>
      match c.manager.shardStatuses.get? e.1 with
      | none => .error (.table (.statusNotFound e.1))
      | some status => .ok (e.1, { status with indexes := enc.indexes m'.indexes })
    let shards := table.shards.map fun _ conf => { conf with indexes := enc.indexes m'.indexes }
    return c.save tableName m' shards statuses

/-- What is read from a saved nil status. -/
def zeroStatus : ShardStatus :=
  { ShardInfo.ofConfig ⟨⟨[], []⟩, [], [], []⟩ ∅ with
    id := 0, table := [], state := .default }

/-- `DropIndex` rewrites the statuses only; a shard without one gets a nil status. -/
def dropIndex (tableName indexName : Bytes) : Except CatalogError Catalog := do
  let (table, m) ← c.getTable tableName
  let m' := { m with indexes := m.indexes.erase indexName }
  let statuses := table.shards.entries.map fun e => (e.1,
    match c.manager.shardStatuses.get? e.1 with
    | none => zeroStatus
    | some status => { status with indexes := enc.indexes m'.indexes })
  return c.save tableName m' table.shards statuses

/-- The last part of `DropReadSchema` and `UpdateSchema`: every shard configuration takes the index
set and the schema of the table, and every status the whole configuration of its shard. -/
def rewriteConfigs (tableName : Bytes) (table : TableDef) (m : TableMeta) : Catalog :=
  c.save tableName m (table.shards.map fun _ conf => carry enc m conf)
    (table.shards.entries.filterMap fun e => (c.manager.shardStatuses.get? e.1).map fun status =>
      (e.1, { status with toShardConfig := carry enc m e.2 }))

def dropsWithReadSchema (indexes : OrdMap Bytes TableIndex) (version : ℕ) (indexName : Bytes) :
    Bool :=
  match indexes.get? indexName with
  | none => false
  | some idx => idx.type.isFullText &&
      (hasSuffix indexName (versionSuffix version) ||
        (decide (version = 0) && decide (indexName = fullTextIndexName)))

def dropReadSchema (tableName : Bytes) : Except CatalogError Catalog := do
  let (table, m) ← c.getTable tableName
  match m.readSchema with
  | none => .error .noReadSchema
  | some read =>
    let indexes := m.indexes.filter fun n => !dropsWithReadSchema m.indexes read.version n
    return c.rewriteConfigs enc tableName table ⟨indexes, m.schema, none⟩

def documentSchemasChanged : Option TableSchema → Option TableSchema → Bool
  | none, none => false
  | none, some _ | some _, none => true
  | some old, some new =>
    decide (old.documentSchemas ≠ new.documentSchemas) ||
    decide (old.defaultType ≠ new.defaultType) ||
    decide (old.enforceTypes ≠ new.enforceTypes) ||
    decide (old.ttlField ≠ new.ttlField) || decide (old.ttlDuration ≠ new.ttlDuration)

/-- The index whose configuration the next full-text index takes: the first whose configuration is
named like one, in the order in which Go iterates the map. -/
def pickFullText (indexes : OrdMap Bytes TableIndex) (order : List Bytes) : Option TableIndex :=
  (order.filterMap indexes.get?).find? fun idx => hasPrefix idx.name fullTextIndexName

/-- The index set and the schemas after a change of the document schemas. -/
def migrate (m : TableMeta) (s : TableSchema) (order : List Bytes) :
    Except CatalogError TableMeta := do
  let prevVersion := schemaVersion m.schema
  let version := (prevVersion + 1) % 4294967296
  let (kept, read) ← match m.readSchema, m.schema with
    | some _, none => .error .nilSchema
    | some read, some old =>
      -- A migration is running: the indexes of its target go.
      .ok (m.indexes.filter fun n => !hasSuffix n (versionSuffix old.version), read)
    | none, schema => .ok (m.indexes, schema.getD (.ofVersion 0))
  let indexes := match pickFullText kept order with
    | none => kept
    | some idx => kept.insert (versionedIndexName version)
        { idx with name := versionedIndexName version }
  return ⟨indexes, some { s with version := version }.persisted, some read⟩

def updateSchema (tableName : Bytes) (s : TableSchema) (order : List Bytes) :
    Except CatalogError Catalog := do
  let (table, m) ← c.getTable tableName
  let m' ← if documentSchemasChanged m.schema (some s) then migrate m s order
    else .ok { m with schema := some { s with version := schemaVersion m.schema }.persisted }
  return c.rewriteConfigs enc tableName table m'

/-- The splits and merges do not touch the index set and the schemas of the table. -/
def reassign (op : TableOp) : Except CatalogError Catalog :=
  match c.manager.apply op with
  | .error e => .error (.table e)
  | .ok manager => .ok { c with manager := manager }

def removeTable (name : Bytes) : Except CatalogError Catalog := do
  let (table, _) ← c.getTable name
  return {
    manager := {
      tables := c.manager.tables.erase name
      shardStatuses := (table.shards.entries.map Prod.fst).foldl OrdMap.erase
        c.manager.shardStatuses }
    metas := c.metas.erase name }

end Catalog

inductive CatalogOp where
  | createTable (name : Bytes) (tc : CatalogTableConfig)
  | restoreTable (name : Bytes) (table : TableDef) (m : TableMeta) (restoreConfig : Bytes)
  | createIndex (tableName indexName : Bytes) (config : TableIndex)
  | dropIndex (tableName indexName : Bytes)
  | updateSchema (tableName : Bytes) (s : TableSchema) (order : List Bytes)
  | dropReadSchema (tableName : Bytes)
  | reassign (op : TableOp)
  | removeTable (name : Bytes)

def Catalog.apply (enc : ConfigEncoding) (c : Catalog) : CatalogOp → Except CatalogError Catalog
  | .createTable name tc => c.createTable enc name tc
  | .restoreTable name table m restoreConfig => c.restoreTable enc name table m restoreConfig
  | .createIndex tableName indexName config => c.createIndex enc tableName indexName config
  | .dropIndex tableName indexName => c.dropIndex enc tableName indexName
  | .updateSchema tableName s order => c.updateSchema enc tableName s order
  | .dropReadSchema tableName => c.dropReadSchema enc tableName
  | .reassign op => c.reassign op
  | .removeTable name => c.removeTable name

private theorem digit_toNat {n : ℕ} {c : Char} (h : c ∈ Nat.toDigits 10 n) :
    48 ≤ c.toNat ∧ c.toNat ≤ 57 := by
  have hdigit := Nat.isDigit_of_mem_toDigits (by decide) (by decide) h
  simp only [Char.isDigit, Bool.and_eq_true, decide_eq_true_eq] at hdigit
  obtain ⟨hlow, hhigh⟩ := hdigit
  exact ⟨UInt32.le_iff_toNat_le.mp hlow, UInt32.le_iff_toNat_le.mp hhigh⟩

private theorem toDigits_of_decimal (n : ℕ) :
    (decimal n).map (fun b => Char.ofNat b.toNat) = Nat.toDigits 10 n := by
  rw [decimal, ascii, map_map]
  calc
    (Nat.toDigits 10 n).map _ = (Nat.toDigits 10 n).map id := by
      apply map_congr_left
      intro c hc
      obtain ⟨-, hhigh⟩ := digit_toNat hc
      rw [Function.comp_apply, UInt8.toNat_ofNat', Nat.mod_eq_of_lt (by omega), Char.ofNat_toNat,
        id]
    _ = Nat.toDigits 10 n := map_id _

theorem decimal_inj {n k : ℕ} : decimal n = decimal k ↔ n = k := by
  constructor
  · intro h
    have hdigits : Nat.toDigits 10 n = Nat.toDigits 10 k := by
      rw [← toDigits_of_decimal, ← toDigits_of_decimal, h]
    calc
      n = Nat.ofDigitChars 10 (Nat.toDigits 10 n) 0 := Nat.ofDigitChars_ten_toDigits.symm
      _ = Nat.ofDigitChars 10 (Nat.toDigits 10 k) 0 := by rw [hdigits]
      _ = k := Nat.ofDigitChars_ten_toDigits
  · intro h
    rw [h]

theorem digit_of_mem_decimal {n : ℕ} {b : UInt8} (h : b ∈ decimal n) :
    48 ≤ b.toNat ∧ b.toNat ≤ 57 := by
  obtain ⟨c, hc, rfl⟩ := mem_map.mp h
  obtain ⟨hlow, hhigh⟩ := digit_toNat hc
  rw [UInt8.toNat_ofNat', Nat.mod_eq_of_lt (by omega)]
  exact ⟨hlow, hhigh⟩

theorem decimal_ne_nil (n : ℕ) : decimal n ≠ [] := by
  unfold decimal ascii
  rw [Ne, map_eq_nil_iff]
  exact Nat.toDigits_ne_nil

theorem underscore_not_mem_decimal (n : ℕ) : (95 : UInt8) ∉ decimal n := by
  intro h
  exact absurd (digit_of_mem_decimal h).2 (by decide)

theorem colon_not_mem_decimal (n : ℕ) : (58 : UInt8) ∉ decimal n := by
  intro h
  exact absurd (digit_of_mem_decimal h).2 (by decide)

private theorem takeWhile_underscore {x y : Bytes} (h : (95 : UInt8) ∉ y) :
    (x ++ 95 :: y).reverse.takeWhile (· ≠ 95) = y.reverse := by
  have hsplit : (x ++ 95 :: y).reverse = y.reverse ++ 95 :: x.reverse := by simp
  rw [hsplit, takeWhile_append_of_pos]
  · simp
  · intro b hb
    have hy := mem_reverse.mp hb
    exact decide_eq_true fun heq => h (heq ▸ hy)

private theorem takeWhile_versionSuffix (x : Bytes) (v : ℕ) :
    (x ++ versionSuffix v).reverse.takeWhile (· ≠ 95) = (118 :: decimal v).reverse := by
  apply takeWhile_underscore (y := 118 :: decimal v)
  intro h
  rcases mem_cons.mp h with heq | hmem
  · exact absurd heq (by decide)
  · exact underscore_not_mem_decimal v hmem

theorem hasSuffix_versionedIndexName {v w : ℕ} :
    hasSuffix (versionedIndexName v) (versionSuffix w) = true ↔ w = v := by
  constructor
  · intro h
    obtain ⟨t, ht⟩ := hasSuffix_iff.mp h
    have hlast := congrArg (fun b => b.reverse.takeWhile (· ≠ 95)) ht
    simp only [versionedIndexName, takeWhile_versionSuffix, reverse_inj, List.cons.injEq,
      true_and] at hlast
    exact decimal_inj.mp hlast
  · rintro rfl
    exact hasSuffix_iff.mpr (suffix_append _ _)

theorem hasSuffix_fullTextIndexName (v : ℕ) :
    hasSuffix fullTextIndexName (versionSuffix v) = false := by
  by_contra h
  rw [Bool.not_eq_false] at h
  obtain ⟨t, ht⟩ := hasSuffix_iff.mp h
  have hlast := congrArg (fun b => b.reverse.takeWhile (· ≠ 95)) ht
  simp only [takeWhile_versionSuffix] at hlast
  have hfirst := congrArg List.getLast? hlast
  simp only [getLast?_reverse, head?_cons] at hfirst
  exact absurd hfirst (by decide)

end Antfly
