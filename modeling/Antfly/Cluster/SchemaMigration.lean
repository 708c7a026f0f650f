import Antfly.Cluster.CoherentTables

/-!
While a table migrates to a new schema, queries read the full-text index of the old one.  The
reconciler looks at the statistics that the shards report for the index of the new schema.  When
every shard has built it, a plan says that the table's rebuild is complete, and the execution of the
plan drops the read schema, from when on queries read the new index.

A completion names the table and the index, but only the table is looked at when the plan is
executed.  A schema that is updated in between is then the one that queries read, whether or not any
shard has built its index.
-/

namespace Antfly

open List Option OrdMap

namespace TableMeta

variable (m : TableMeta)

/-- The schema whose full-text index queries read. -/
def querySchema : Option TableSchema :=
  match m.readSchema with
  | some read => some read
  | none => m.schema

def hasIndex (n : Bytes) : Bool := (m.indexes.get? n).isSome

/-- The name that a store resolves the version of a query to. -/
def queryIndex : Bytes :=
  if m.hasIndex (versionedIndexName (schemaVersion m.querySchema)) then
    versionedIndexName (schemaVersion m.querySchema)
  else if m.hasIndex (versionedIndexName 0) then versionedIndexName 0
  else fullTextIndexName

end TableMeta

/-- The statistics of an index.  `asFullText` is the rebuilding flag where they can be read as those
of a full-text index. -/
structure IndexStats where
  asFullText : Option Bool

def IndexStats.rebuilding (stats : IndexStats) : Bool :=
  match stats.asFullText with
  | some rebuilding => rebuilding
  | none => false

/-- `none` is the nil map. -/
structure ShardStats where
  indexes : Option (OrdMap Bytes IndexStats)

abbrev CurrentShards := OrdMap ℕ (Option ShardStats)

structure IndexRebuildCompletion where
  tableName : Bytes
  indexName : Bytes
  deriving DecidableEq

def indexRebuilt (current : CurrentShards) (indexName : Bytes) (shardID : ℕ) : Bool :=
  match current.get? shardID with
  | some (some ⟨some indexes⟩) =>
    match indexes.get? indexName with
    | some stats => !stats.rebuilding
    | none => false
  | _ => false

def computeIndexRebuildCompletions (c : Catalog) (current : CurrentShards) :
    List IndexRebuildCompletion :=
  c.manager.tables.entries.filterMap fun e =>
    match c.metas.get? e.1 with
    | none => none
    | some m =>
      if m.readSchema.isNone then none
      else
        let newIndexName := versionedIndexName (schemaVersion m.schema)
        if e.2.shards.entries.all fun shard => indexRebuilt current newIndexName shard.1 then
          some ⟨e.1, newIndexName⟩
        else none

/-- A failed drop is passed over. -/
def executeIndexRebuildCompletions (enc : ConfigEncoding) (c : Catalog)
    (completions : List IndexRebuildCompletion) : Catalog :=
  completions.foldl (fun c completion =>
    match c.dropReadSchema enc completion.tableName with
    | .error _ => c
    | .ok c' => c') c

/-- The records of the tables beside what the shards of one table have built: `finished` holds the
indexes that a shard has now, `everFinished` those it has had at some time.  `splitOff` are the
shards that came from splits. -/
structure Migration where
  catalog : Catalog
  finished : List (ℕ × Bytes)
  everFinished : List (ℕ × Bytes)
  current : CurrentShards
  plans : List (List IndexRebuildCompletion)
  splitOff : List ℕ

inductive MigrationEvent where
  | updateSchema (schema : TableSchema) (order : List Bytes)
  | split (t : SplitTransition)
  /-- A shard finishes the backfill of an index. -/
  | backfilled (shardID : ℕ) (indexName : Bytes)
  | heartbeat (shardID : ℕ) (stats : Option ShardStats)
  | computePlan
  | executePlan (plan : ℕ)

/-- The statistics are those of some moment: what a shard does not rebuild it has built before. -/
def ShardStats.reportable (everFinished : List (ℕ × Bytes)) (shardID : ℕ) (stats : ShardStats) :
    Bool :=
  match stats.indexes with
  | none => true
  | some indexes => indexes.entries.all fun e =>
    e.2.rebuilding || decide ((shardID, e.1) ∈ everFinished)

/-- The index of a new target schema is built from nothing. -/
def startsOver (m : TableMeta) (schema : TableSchema) (finished : List (ℕ × Bytes)) :
    List (ℕ × Bytes) :=
  if Catalog.documentSchemasChanged m.schema (some schema) then
    finished.filter fun e =>
      !decide (e.2 = versionedIndexName ((schemaVersion m.schema + 1) % 4294967296))
  else finished

/-- Updates and splits are those of the table `tableName`. -/
def Migration.step (enc : ConfigEncoding) (tableName : Bytes) (s : Migration) :
    MigrationEvent → Option Migration
  | .updateSchema schema order =>
    match s.catalog.updateSchema enc tableName schema order, s.catalog.metas.get? tableName with
    | .ok c, some m => some { s with
        catalog := c
        finished := startsOver m schema s.finished }
    | _, _ => some s
  | .split t =>
    match s.catalog.reassign (.split { t with tableName := tableName }) with
    | .error _ => some s
    | .ok c => some { s with
        catalog := c
        finished := s.finished.filter fun e => !decide (e.1 = t.splitShardID)
        splitOff := t.splitShardID :: s.splitOff }
  | .backfilled shardID indexName => some { s with
      finished := (shardID, indexName) :: s.finished
      everFinished := (shardID, indexName) :: s.everFinished }
  | .heartbeat shardID stats =>
    if stats.all (ShardStats.reportable s.everFinished shardID) then
      some { s with current := s.current.insert shardID stats }
    else none
  | .computePlan => some { s with
      plans := s.plans ++ [computeIndexRebuildCompletions s.catalog s.current] }
  | .executePlan plan =>
    s.plans[plan]?.map fun completions => { s with
      catalog := executeIndexRebuildCompletions enc s.catalog completions
      plans := s.plans.eraseIdx plan }

/-- The version that queries read names a full-text index of the table, and every shard of the
table has finished its backfill. -/
structure ReadsFinished (tableName : Bytes) (s : Migration) : Prop where
  indexed : ∀ m, s.catalog.metas.get? tableName = some m →
    namesVersion (schemaVersion m.querySchema) m.queryIndex = true ∧
      ∃ idx, m.indexes.get? m.queryIndex = some idx ∧ idx.type.isFullText = true
  finished : ∀ table m, s.catalog.manager.tables.get? tableName = some table →
    s.catalog.metas.get? tableName = some m → ∀ id, table.shards.get? id ≠ none →
      (id, m.queryIndex) ∈ s.finished

/-- A table at rest, whose index is built. -/
structure AtRest (tableName : Bytes) (s : Migration) : Prop where
  reads : ReadsFinished tableName s
  noMigration : ∀ m, s.catalog.metas.get? tableName = some m → m.readSchema = none
  finished : s.everFinished = s.finished
  current : s.current = .empty
  plans : s.plans = []
  splitOff : s.splitOff = []

/-- A change of the document schemas takes a full-text index as the pattern of the next one, and no
shard has built an index under the name of the next version.  A plan that ends the migration of the
table is about the index of the schema the table migrates to. -/
def MigrationEvent.Meets (tableName : Bytes) (s : Migration) : MigrationEvent → Prop
  | .updateSchema schema order => ∀ m, s.catalog.metas.get? tableName = some m →
      Catalog.documentSchemasChanged m.schema (some schema) = true →
        schemaVersion m.schema + 1 < 4294967296 ∧
        (∃ idx, Catalog.pickFullText m.keptByMigration order = some idx ∧
          idx.type.isFullText = true) ∧
        ∀ id, (id, versionedIndexName (schemaVersion m.schema + 1)) ∉ s.everFinished
  | .executePlan plan => ∀ m completions, s.catalog.metas.get? tableName = some m →
      m.readSchema ≠ none → s.plans[plan]? = some completions →
        ∀ completion ∈ completions, completion.tableName = tableName →
          completion.indexName = versionedIndexName (schemaVersion m.schema)
  | _ => True

theorem versionedIndexName_inj {v w : ℕ} : versionedIndexName v = versionedIndexName w ↔ v = w := by
  constructor
  · intro h
    have hsuffix := hasSuffix_versionedIndexName.mpr (rfl : v = v)
    rw [h, hasSuffix_versionedIndexName] at hsuffix
    exact hsuffix
  · intro h
    rw [h]

theorem versionedIndexName_ne_fullTextIndexName (v : ℕ) :
    versionedIndexName v ≠ fullTextIndexName := by
  intro h
  have hsuffix := hasSuffix_versionedIndexName.mpr (rfl : v = v)
  rw [h, hasSuffix_fullTextIndexName] at hsuffix
  cases hsuffix

theorem ne_versionedIndexName {v w : ℕ} {n : Bytes} (hn : namesVersion v n = true) (hne : v ≠ w) :
    n ≠ versionedIndexName w := by
  rintro rfl
  have hsuffix := hasSuffix_of_namesVersion hn hne
  rw [hasSuffix_versionedIndexName.mpr rfl] at hsuffix
  cases hsuffix

namespace TableMeta

variable {m m' : TableMeta}

theorem schemaVersion_querySchema (m : TableMeta) : schemaVersion m.querySchema = m.readAfter := by
  unfold querySchema readAfter
  cases m.readSchema <;> rfl

theorem queryIndex_of_hasIndex
    (h : m.hasIndex (versionedIndexName (schemaVersion m.querySchema)) = true) :
    m.queryIndex = versionedIndexName (schemaVersion m.querySchema) := by
  rw [queryIndex, if_pos h]

theorem queryIndex_congr (hversion : schemaVersion m'.querySchema = schemaVersion m.querySchema)
    (hname : namesVersion (schemaVersion m.querySchema) m.queryIndex = true)
    (hget : ∀ n, namesVersion (schemaVersion m.querySchema) n = true →
      m'.indexes.get? n = m.indexes.get? n) : m'.queryIndex = m.queryIndex := by
  have hsame : m'.hasIndex (versionedIndexName (schemaVersion m.querySchema)) =
      m.hasIndex (versionedIndexName (schemaVersion m.querySchema)) := by
    rw [hasIndex, hget _ (namesVersion_versionedIndexName _)]
    rfl
  unfold queryIndex at hname ⊢
  rw [hversion, hsame]
  split
  · rfl
  · rename_i hnot
    rw [if_neg hnot] at hname
    have hzero : schemaVersion m.querySchema = 0 := by
      split at hname
      · rcases namesVersion_iff.mp hname with heq | ⟨hzero, -⟩
        · exact (versionedIndexName_inj.mp heq).symm
        · exact hzero
      · rcases namesVersion_iff.mp hname with heq | ⟨hzero, -⟩
        · exact absurd heq.symm (versionedIndexName_ne_fullTextIndexName _)
        · exact hzero
    rw [hzero] at hsame hnot
    rw [hsame, if_neg hnot]

end TableMeta

/-- The record of the table is `m` afterwards, and it has the shards it had. -/
structure Rewrites (tableName : Bytes) (c c' : Catalog) (m : TableMeta) : Prop where
  record : c'.metas.get? tableName = some m
  shards : ∀ table', c'.manager.tables.get? tableName = some table' →
    ∃ table, c.manager.tables.get? tableName = some table ∧
      ∀ id, table'.shards.get? id = none ↔ table.shards.get? id = none

variable {enc : ConfigEncoding} {tableName : Bytes} {c c' : Catalog}

theorem rewrites_rewriteConfigs {table : TableDef} {m : TableMeta}
    (htable : c.manager.tables.get? tableName = some table) :
    Rewrites tableName c (c.rewriteConfigs enc tableName table m) m := by
  constructor
  · exact (get?_insert _ _ _ _).trans (if_pos rfl)
  · intro table' htable'
    have hwritten : (c.rewriteConfigs enc tableName table m).manager.tables.get? tableName =
        some ⟨table.shards.map fun _ conf => Catalog.carry enc m conf⟩ :=
      (get?_insert _ _ _ _).trans (if_pos rfl)
    rw [hwritten, some_inj] at htable'
    subst htable'
    refine ⟨table, htable, fun id => ?_⟩
    rw [get?_map, map_eq_none_iff]

theorem dropReadSchema_cases {name : Bytes} (h : c.dropReadSchema enc name = .ok c') :
    (∃ m read, c.metas.get? name = some m ∧ m.readSchema = some read ∧
      Rewrites name c c' ⟨m.indexes.filter fun n =>
        !Catalog.dropsWithReadSchema m.indexes read.version n, m.schema, none⟩) ∧
    ∀ n, n ≠ name → c'.metas.get? n = c.metas.get? n ∧
      c'.manager.tables.get? n = c.manager.tables.get? n := by
  obtain ⟨table, m, read, htable, hm, hread, rfl⟩ := dropReadSchema_eq_ok h
  refine ⟨⟨m, read, hm, hread, rewrites_rewriteConfigs htable⟩, fun n hn => ⟨?_, ?_⟩⟩
  · exact (get?_insert _ _ _ _).trans (if_neg hn)
  · exact (get?_insert _ _ _ _).trans (if_neg hn)

theorem updateSchema_cases {schema : TableSchema} {order : List Bytes}
    (h : c.updateSchema enc tableName schema order = .ok c') :
    ∃ m m', c.metas.get? tableName = some m ∧ Rewrites tableName c c' m' ∧
      if Catalog.documentSchemasChanged m.schema (some schema) then
        Catalog.migrate m schema order = .ok m'
      else m' = { m with
        schema := some { schema with version := schemaVersion m.schema }.persisted } := by
  obtain ⟨table, m, m', htable, hm, hm', rfl⟩ := updateSchema_eq_ok h
  exact ⟨m, m', hm, rewrites_rewriteConfigs htable, hm'⟩

def Catalog.hasShard (c : Catalog) (tableName : Bytes) (id : ℕ) : Prop :=
  ∃ table, c.manager.tables.get? tableName = some table ∧ table.shards.get? id ≠ none

theorem Rewrites.hasShard {m : TableMeta} {id : ℕ} (h : Rewrites tableName c c' m)
    (hid : c'.hasShard tableName id) : c.hasShard tableName id := by
  obtain ⟨table', htable', hne⟩ := hid
  obtain ⟨table, htable, hsame⟩ := h.shards table' htable'
  exact ⟨table, htable, fun hnone => hne ((hsame id).mpr hnone)⟩

/-- The index that queries read stands in the index set, and so does that of a schema the table
migrates to.  A shard that no split has made has built the index that queries read and whatever a
report or a plan says it has. -/
structure MigrationSound (tableName : Bytes) (s : Migration) : Prop where
  indexed : ∀ m, s.catalog.metas.get? tableName = some m →
    namesVersion (schemaVersion m.querySchema) m.queryIndex = true ∧
      ∃ idx, m.indexes.get? m.queryIndex = some idx ∧ idx.type.isFullText = true
  target : ∀ m read, s.catalog.metas.get? tableName = some m → m.readSchema = some read →
    read.version < schemaVersion m.schema ∧
      ∃ idx, m.indexes.get? (versionedIndexName (schemaVersion m.schema)) = some idx ∧
        idx.type.isFullText = true
  finished : ∀ m id, s.catalog.metas.get? tableName = some m → s.catalog.hasShard tableName id →
    id ∉ s.splitOff → (id, m.queryIndex) ∈ s.finished
  was : ∀ e ∈ s.finished, e ∈ s.everFinished
  kept : ∀ id n, (id, n) ∈ s.everFinished → id ∉ s.splitOff → (id, n) ∈ s.finished
  current : ∀ id n, indexRebuilt s.current n id = true → (id, n) ∈ s.everFinished
  plans : ∀ plan ∈ s.plans, ∀ completion ∈ plan, completion.tableName = tableName →
    ∀ id, s.catalog.hasShard tableName id → id ∉ s.splitOff →
      (id, completion.indexName) ∈ s.finished

variable {s s' : Migration}

theorem AtRest.sound (h : AtRest tableName s) : MigrationSound tableName s := by
  constructor
  · exact h.reads.indexed
  · intro m read hm hread
    rw [h.noMigration m hm] at hread
    cases hread
  · intro m id hm hid _
    obtain ⟨table, htable, hne⟩ := hid
    exact h.reads.finished table m htable hm id hne
  · intro e he
    rw [h.finished]
    exact he
  · intro id n hmem _
    rw [← h.finished]
    exact hmem
  · intro id n hbuilt
    rw [h.current] at hbuilt
    cases hbuilt
  · intro plan hplan
    rw [h.plans] at hplan
    cases hplan

namespace MigrationSound

theorem reads_iff (h : MigrationSound tableName s) : ReadsFinished tableName s ↔
    ∀ table m, s.catalog.manager.tables.get? tableName = some table →
      s.catalog.metas.get? tableName = some m →
        ∀ id ∈ s.splitOff, table.shards.get? id ≠ none → (id, m.queryIndex) ∈ s.finished := by
  constructor
  · intro hreads table m htable hm id _ hne
    exact hreads.finished table m htable hm id hne
  · intro hsplit
    refine ⟨h.indexed, fun table m htable hm id hne => ?_⟩
    by_cases hid : id ∈ s.splitOff
    · exact hsplit table m htable hm id hid hne
    · exact h.finished m id hm ⟨table, htable, hne⟩ hid

theorem others (h : MigrationSound tableName s)
    (hmetas : c.metas.get? tableName = s.catalog.metas.get? tableName)
    (htables : c.manager.tables.get? tableName = s.catalog.manager.tables.get? tableName) :
    MigrationSound tableName { s with catalog := c } := by
  have hshard : ∀ id, c.hasShard tableName id → s.catalog.hasShard tableName id := by
    rintro id ⟨table, htable, hne⟩
    exact ⟨table, htables ▸ htable, hne⟩
  constructor
  · intro m hm
    exact h.indexed m (hmetas ▸ hm)
  · intro m read hm
    exact h.target m read (hmetas ▸ hm)
  · intro m id hm hid
    exact h.finished m id (hmetas ▸ hm) (hshard id hid)
  · exact h.was
  · exact h.kept
  · exact h.current
  · intro plan hplan completion hmem hname id hid
    exact h.plans plan hplan completion hmem hname id (hshard id hid)

theorem dropReadSchema (h : MigrationSound tableName s)
    (hc : s.catalog.dropReadSchema enc tableName = .ok c)
    (hbuilt : ∀ m id, s.catalog.metas.get? tableName = some m →
      s.catalog.hasShard tableName id → id ∉ s.splitOff →
        (id, versionedIndexName (schemaVersion m.schema)) ∈ s.finished) :
    MigrationSound tableName { s with catalog := c } ∧
      ∀ m, c.metas.get? tableName = some m → m.readSchema = none := by
  obtain ⟨⟨m, read, hm, hread, hwrites⟩, -⟩ := dropReadSchema_cases hc
  obtain ⟨hlt, idx, hidx, htype⟩ := h.target m read hm hread
  set m' : TableMeta := ⟨m.indexes.filter fun n =>
    !Catalog.dropsWithReadSchema m.indexes read.version n, m.schema, none⟩ with hm'
  have hspared : Catalog.dropsWithReadSchema m.indexes read.version
      (versionedIndexName (schemaVersion m.schema)) = false := by
    by_contra hdrops
    rw [Bool.not_eq_false, dropsWithReadSchema_iff] at hdrops
    obtain ⟨-, -, -, hsuffix | ⟨-, hname⟩⟩ := hdrops
    · have heq := hasSuffix_versionedIndexName.mp hsuffix
      omega
    · exact versionedIndexName_ne_fullTextIndexName _ hname
  have hget : m'.indexes.get? (versionedIndexName (schemaVersion m.schema)) = some idx := by
    rw [hm', get?_filter, hspared]
    exact hidx
  have hquery : m'.queryIndex = versionedIndexName (schemaVersion m.schema) := by
    apply TableMeta.queryIndex_of_hasIndex
    change (m'.indexes.get? (versionedIndexName (schemaVersion m.schema))).isSome = true
    rw [hget]
    rfl
  refine ⟨?_, ?_⟩
  · constructor
    · intro m₁ hm₁
      rw [hwrites.record, some_inj] at hm₁
      subst hm₁
      rw [hquery]
      exact ⟨namesVersion_versionedIndexName _, idx, hget, htype⟩
    · intro m₁ read₁ hm₁ hread₁
      rw [hwrites.record, some_inj] at hm₁
      subst hm₁
      cases hread₁
    · intro m₁ id hm₁ hid hnot
      rw [hwrites.record, some_inj] at hm₁
      subst hm₁
      rw [hquery]
      exact hbuilt m id hm (hwrites.hasShard hid) hnot
    · exact h.was
    · exact h.kept
    · exact h.current
    · intro plan hplan completion hmem hname id hid
      exact h.plans plan hplan completion hmem hname id (hwrites.hasShard hid)
  · intro m₁ hm₁
    rw [hwrites.record, some_inj] at hm₁
    subst hm₁
    rfl

theorem executePlan {completions : List IndexRebuildCompletion} (h : MigrationSound tableName s)
    (hcurrent : ∀ m, s.catalog.metas.get? tableName = some m → m.readSchema ≠ none →
      ∀ completion ∈ completions, completion.tableName = tableName →
        completion.indexName = versionedIndexName (schemaVersion m.schema))
    (hbuilt : ∀ completion ∈ completions, completion.tableName = tableName →
      ∀ id, s.catalog.hasShard tableName id → id ∉ s.splitOff →
        (id, completion.indexName) ∈ s.finished) :
    MigrationSound tableName
      { s with catalog := executeIndexRebuildCompletions enc s.catalog completions } := by
  induction completions generalizing s with
  | nil => exact h
  | cons completion completions ih =>
    have hcurrent' : ∀ m, s.catalog.metas.get? tableName = some m → m.readSchema ≠ none →
        ∀ e ∈ completions, e.tableName = tableName →
          e.indexName = versionedIndexName (schemaVersion m.schema) := by
      intro m hm hread e he
      exact hcurrent m hm hread e (mem_cons_of_mem _ he)
    have hbuilt' : ∀ e ∈ completions, e.tableName = tableName →
        ∀ id, s.catalog.hasShard tableName id → id ∉ s.splitOff →
          (id, e.indexName) ∈ s.finished := by
      intro e he
      exact hbuilt e (mem_cons_of_mem _ he)
    rw [executeIndexRebuildCompletions, foldl_cons]
    cases hdrop : s.catalog.dropReadSchema enc completion.tableName with
    | error e => exact ih h hcurrent' hbuilt'
    | ok c =>
      obtain ⟨⟨m, read, hm, hread, hwrites⟩, hothers⟩ := dropReadSchema_cases hdrop
      by_cases hname : completion.tableName = tableName
      · rw [hname] at hdrop hm hwrites
        have hindex := hcurrent m hm (by rw [hread]; simp) completion
          (mem_cons_self ..) hname
        obtain ⟨hsound, hnone⟩ := h.dropReadSchema hdrop (by
          intro m₁ id hm₁ hid hnot
          rw [hm, some_inj] at hm₁
          rw [← hm₁, ← hindex]
          exact hbuilt completion (mem_cons_self ..) hname id hid hnot)
        apply ih hsound
        · intro m₁ hm₁ hread₁
          exact absurd (hnone m₁ hm₁) hread₁
        · intro e he hename id hid
          exact hbuilt' e he hename id (hwrites.hasShard hid)
      · obtain ⟨hmetas, htables⟩ := hothers tableName (Ne.symm hname)
        apply ih (h.others hmetas htables)
        · intro m₁ hm₁
          exact hcurrent' m₁ (hmetas ▸ hm₁)
        · intro e he hename id hid
          obtain ⟨table, htable, hne⟩ := hid
          exact hbuilt' e he hename id ⟨table, htables ▸ htable, hne⟩

/-- A change of the document schemas: what is read stays, and the next index is built from nothing
under a name no shard knows. -/
theorem migrate {m m' : TableMeta} {schema : TableSchema} {order : List Bytes}
    (h : MigrationSound tableName s) (hm : s.catalog.metas.get? tableName = some m)
    (hm' : Catalog.migrate m schema order = .ok m') (hwrites : Rewrites tableName s.catalog c m')
    (hbound : schemaVersion m.schema + 1 < 4294967296)
    (hpattern : ∃ idx, Catalog.pickFullText m.keptByMigration order = some idx ∧
      idx.type.isFullText = true)
    (hnew : ∀ id, (id, versionedIndexName (schemaVersion m.schema + 1)) ∉ s.everFinished) :
    MigrationSound tableName { s with
      catalog := c
      finished := s.finished.filter fun e =>
        !decide (e.2 = versionedIndexName ((schemaVersion m.schema + 1) % 4294967296)) } := by
  obtain ⟨pattern, hpick, htype⟩ := hpattern
  obtain ⟨hversions, hindexes⟩ := migrate_spec hm'
  rw [hpick] at hindexes
  rw [Nat.mod_eq_of_lt hbound] at hversions hindexes ⊢
  obtain ⟨hversion, hreads⟩ := cons_eq_cons.mp hversions
  obtain ⟨read, hread, hreadVersion⟩ : ∃ read, m'.readSchema = some read ∧
      read.version = m.readAfter := by
    cases hread : m'.readSchema with
    | none =>
      rw [hread] at hreads
      cases hreads
    | some read =>
      rw [hread] at hreads
      exact ⟨read, rfl, (cons_eq_cons.mp hreads).1⟩
  have hafter : m.readAfter ≤ schemaVersion m.schema := by
    rw [TableMeta.readAfter]
    cases hold : m.readSchema with
    | none => exact Nat.le_refl _
    | some old => exact Nat.le_of_lt (h.target m old hm hold).1
  have hquery : schemaVersion m'.querySchema = schemaVersion m.querySchema := by
    rw [TableMeta.schemaVersion_querySchema, TableMeta.schemaVersion_querySchema,
      TableMeta.readAfter, hread]
    exact hreadVersion
  -- The indexes of the version that is read.
  have hget : ∀ n, namesVersion (schemaVersion m.querySchema) n = true →
      m'.indexes.get? n = m.indexes.get? n := by
    intro n hn
    rw [TableMeta.schemaVersion_querySchema] at hn
    have hne := ne_versionedIndexName hn (by omega : m.readAfter ≠ schemaVersion m.schema + 1)
    rw [hindexes, get?_insert, if_neg hne]
    apply TableMeta.get?_keptByMigration
    intro hmigrates
    obtain ⟨old, hold⟩ := isSome_iff_exists.mp hmigrates
    apply hasSuffix_of_namesVersion hn
    rw [TableMeta.readAfter, hold]
    exact Nat.ne_of_lt (h.target m old hm hold).1
  obtain ⟨hname, idx, hidx, hfull⟩ := h.indexed m hm
  have hsame := TableMeta.queryIndex_congr hquery hname hget
  have hstays : ∀ id n, (id, n) ∈ s.finished →
      n ≠ versionedIndexName (schemaVersion m.schema + 1) →
        (id, n) ∈ s.finished.filter fun e =>
          !decide (e.2 = versionedIndexName (schemaVersion m.schema + 1)) := by
    intro id n hmem hne
    rw [mem_filter, decide_eq_false hne]
    exact ⟨hmem, rfl⟩
  constructor
  · intro m₁ hm₁
    rw [hwrites.record, some_inj] at hm₁
    subst hm₁
    rw [hsame, hquery, hget _ hname]
    exact ⟨hname, idx, hidx, hfull⟩
  · intro m₁ read₁ hm₁ hread₁
    rw [hwrites.record, some_inj] at hm₁
    subst hm₁
    rw [hread, some_inj] at hread₁
    subst hread₁
    rw [hversion]
    refine ⟨by omega, { pattern with name := versionedIndexName (schemaVersion m.schema + 1) },
      ?_, htype⟩
    rw [hindexes, get?_insert, if_pos rfl]
  · intro m₁ id hm₁ hid hnot
    rw [hwrites.record, some_inj] at hm₁
    subst hm₁
    rw [hsame]
    apply hstays id _ (h.finished m id hm (hwrites.hasShard hid) hnot)
    rw [TableMeta.schemaVersion_querySchema] at hname
    exact ne_versionedIndexName hname (by omega)
  · intro e he
    exact h.was e (mem_filter.mp he).1
  · intro id n hmem hnot
    apply hstays id n (h.kept id n hmem hnot)
    rintro rfl
    exact hnew id hmem
  · exact h.current
  · intro plan hplan completion hmem hcompletion id hid hnot
    have hbuilt := h.plans plan hplan completion hmem hcompletion id (hwrites.hasShard hid) hnot
    apply hstays id _ hbuilt
    intro heq
    rw [heq] at hbuilt
    exact hnew id (h.was _ hbuilt)

theorem updateSchema {schema : TableSchema} {order : List Bytes} {m : TableMeta}
    (h : MigrationSound tableName s) (hm : s.catalog.metas.get? tableName = some m)
    (hc : s.catalog.updateSchema enc tableName schema order = .ok c)
    (hok : (MigrationEvent.updateSchema schema order).Meets tableName s) :
    MigrationSound tableName
      { s with catalog := c, finished := startsOver m schema s.finished } := by
  obtain ⟨m₀, m', hm₀, hwrites, hcases⟩ := updateSchema_cases hc
  rw [hm, some_inj] at hm₀
  subst hm₀
  unfold startsOver
  split
  · rename_i hchanged
    rw [if_pos hchanged] at hcases
    obtain ⟨hbound, hpattern, hnew⟩ := hok m hm hchanged
    exact h.migrate hm hcases hwrites hbound hpattern hnew
  · rename_i hsame
    rw [if_neg hsame] at hcases
    have hindexes : m'.indexes = m.indexes := by rw [hcases]
    have hversion : schemaVersion m'.schema = schemaVersion m.schema := by rw [hcases]; rfl
    have hread : m'.readSchema = m.readSchema := by rw [hcases]
    have hquery : schemaVersion m'.querySchema = schemaVersion m.querySchema := by
      rw [TableMeta.schemaVersion_querySchema, TableMeta.schemaVersion_querySchema,
        TableMeta.readAfter, TableMeta.readAfter, hread, hversion]
    obtain ⟨hname, hidx⟩ := h.indexed m hm
    have hindex := TableMeta.queryIndex_congr hquery hname fun n _ => by rw [hindexes]
    constructor
    · intro m₁ hm₁
      rw [hwrites.record, some_inj] at hm₁
      subst hm₁
      rw [hindex, hquery, hindexes]
      exact ⟨hname, hidx⟩
    · intro m₁ read hm₁ hread₁
      rw [hwrites.record, some_inj] at hm₁
      subst hm₁
      rw [hversion, hindexes]
      exact h.target m read hm (hread ▸ hread₁)
    · intro m₁ id hm₁ hid hnot
      rw [hwrites.record, some_inj] at hm₁
      subst hm₁
      rw [hindex]
      exact h.finished m id hm (hwrites.hasShard hid) hnot
    · exact h.was
    · exact h.kept
    · exact h.current
    · intro plan hplan completion hmem hcompletion id hid
      exact h.plans plan hplan completion hmem hcompletion id (hwrites.hasShard hid)

theorem split {t : SplitTransition} (h : MigrationSound tableName s)
    (hc : s.catalog.reassign (.split { t with tableName := tableName }) = .ok c) :
    MigrationSound tableName { s with
      catalog := c
      finished := s.finished.filter fun e => !decide (e.1 = t.splitShardID)
      splitOff := t.splitShardID :: s.splitOff } := by
  unfold Catalog.reassign at hc
  split at hc
  · cases hc
  · rename_i manager happly
    cases hc
    obtain ⟨table, shards, htable, htables, hsplit⟩ := apply_cases happly
    have hshard : ∀ id, Catalog.hasShard { s.catalog with manager := manager } tableName id →
        id ≠ t.splitShardID → s.catalog.hasShard tableName id := by
      rintro id ⟨table', htable', hne⟩ hid
      change manager.tables.get? tableName = some table' at htable'
      rw [htables] at htable'
      have hwritten : table' = ⟨shards⟩ := by
        have hself := get?_insert s.catalog.manager.tables tableName tableName ⟨shards⟩
        rw [if_pos rfl] at hself
        exact some_inj.mp (htable'.symm.trans hself)
      subst hwritten
      refine ⟨table, htable, ?_⟩
      cases hsplit with
      | split _ conf parent child _ hconf _ _ hget =>
        rw [hget, if_neg hid] at hne
        split at hne
        · rename_i heq
          rw [heq, hconf]
          simp
        · exact hne
      | merge _ _ _ _ _ hop =>
        rcases hop with hop | hop <;> cases hop
      | same _ hop =>
        exact absurd rfl (hop _)
    have hstays : ∀ id n, (id, n) ∈ s.finished → id ≠ t.splitShardID →
        (id, n) ∈ s.finished.filter fun e => !decide (e.1 = t.splitShardID) := by
      intro id n hmem hne
      rw [mem_filter, decide_eq_false hne]
      exact ⟨hmem, rfl⟩
    constructor
    · exact h.indexed
    · exact h.target
    · intro m id hm hid hnot
      rw [mem_cons, not_or] at hnot
      exact hstays id _ (h.finished m id hm (hshard id hid hnot.1) hnot.2) hnot.1
    · intro e he
      exact h.was e (mem_filter.mp he).1
    · intro id n hmem hnot
      rw [mem_cons, not_or] at hnot
      exact hstays id n (h.kept id n hmem hnot.2) hnot.1
    · exact h.current
    · intro plan hplan completion hmem hname id hid hnot
      rw [mem_cons, not_or] at hnot
      exact hstays id _ (h.plans plan hplan completion hmem hname id (hshard id hid hnot.1)
        hnot.2) hnot.1

theorem backfilled (h : MigrationSound tableName s) (id : ℕ) (n : Bytes) :
    MigrationSound tableName { s with
      finished := (id, n) :: s.finished, everFinished := (id, n) :: s.everFinished } := by
  constructor
  · exact h.indexed
  · exact h.target
  · intro m id' hm hid hnot
    exact mem_cons_of_mem _ (h.finished m id' hm hid hnot)
  · intro e he
    rcases mem_cons.mp he with rfl | he
    · exact mem_cons_self ..
    · exact mem_cons_of_mem _ (h.was e he)
  · intro id' n' hmem hnot
    rcases mem_cons.mp hmem with heq | hmem
    · rw [heq]
      exact mem_cons_self ..
    · exact mem_cons_of_mem _ (h.kept id' n' hmem hnot)
  · intro id' n' hbuilt
    exact mem_cons_of_mem _ (h.current id' n' hbuilt)
  · intro plan hplan completion hmem hname id' hid hnot
    exact mem_cons_of_mem _ (h.plans plan hplan completion hmem hname id' hid hnot)

theorem heartbeat {shardID : ℕ} {stats : Option ShardStats} (h : MigrationSound tableName s)
    (hok : stats.all (ShardStats.reportable s.everFinished shardID) = true) :
    MigrationSound tableName { s with current := s.current.insert shardID stats } := by
  refine { h with current := ?_ }
  intro id n hbuilt
  unfold indexRebuilt at hbuilt
  rw [get?_insert] at hbuilt
  by_cases hid : id = shardID
  · subst hid
    rw [if_pos rfl] at hbuilt
    match stats, hok, hbuilt with
    | some ⟨some indexes⟩, hok, hbuilt =>
      cases hget : indexes.get? n with
      | none =>
        simp only [hget] at hbuilt
        cases hbuilt
      | some st =>
        simp only [hget] at hbuilt
        have hall := all_eq_true.mp hok (n, st) ((indexes.mem_entries_iff n st).mpr hget)
        simp only [Bool.not_eq_true'] at hbuilt
        simp only [hbuilt, Bool.false_or, decide_eq_true_eq] at hall
        exact hall
  · rw [if_neg hid] at hbuilt
    exact h.current id n hbuilt

theorem mem_computeIndexRebuildCompletions {current : CurrentShards}
    {completion : IndexRebuildCompletion} {id : ℕ}
    (h : completion ∈ computeIndexRebuildCompletions c current)
    (hid : c.hasShard completion.tableName id) :
    indexRebuilt current completion.indexName id = true := by
  obtain ⟨⟨name, table⟩, he, hsome⟩ := mem_filterMap.mp h
  rw [mem_entries_iff] at he
  dsimp only at hsome
  split at hsome
  · cases hsome
  · split at hsome
    · cases hsome
    · split at hsome
      · rename_i hall
        cases hsome
        obtain ⟨table', htable', hne⟩ := hid
        rw [he, some_inj] at htable'
        subst htable'
        obtain ⟨conf, hconf⟩ := ne_none_iff_exists'.mp hne
        exact all_eq_true.mp hall (id, conf) ((table.shards.mem_entries_iff id conf).mpr hconf)
      · cases hsome

theorem computePlan (h : MigrationSound tableName s) : MigrationSound tableName { s with
    plans := s.plans ++ [computeIndexRebuildCompletions s.catalog s.current] } := by
  refine { h with plans := ?_ }
  intro plan hplan completion hmem hname id hid hnot
  rcases mem_append.mp hplan with hold | hnew
  · exact h.plans plan hold completion hmem hname id hid hnot
  · rw [mem_singleton] at hnew
    subst hnew
    have hbuilt := mem_computeIndexRebuildCompletions hmem (hname.symm ▸ hid)
    exact h.kept id _ (h.current id _ hbuilt) hnot

theorem step {e : MigrationEvent} (h : MigrationSound tableName s) (hok : e.Meets tableName s)
    (hstep : s.step enc tableName e = some s') : MigrationSound tableName s' := by
  cases e with
  | updateSchema schema order =>
    simp only [Migration.step] at hstep
    split at hstep
    · rename_i c m hc hm
      cases hstep
      exact h.updateSchema hm hc hok
    · cases hstep
      exact h
  | split t =>
    simp only [Migration.step] at hstep
    split at hstep
    · cases hstep
      exact h
    · rename_i c hc
      cases hstep
      exact h.split hc
  | backfilled id n =>
    cases hstep
    exact h.backfilled id n
  | heartbeat shardID stats =>
    simp only [Migration.step] at hstep
    split at hstep
    · rename_i hreport
      cases hstep
      exact h.heartbeat hreport
    · cases hstep
  | computePlan =>
    cases hstep
    exact h.computePlan
  | executePlan plan =>
    obtain ⟨completions, hplan, rfl⟩ := map_eq_some_iff.mp hstep
    have hdone : MigrationSound tableName
        { s with catalog := executeIndexRebuildCompletions enc s.catalog completions } := by
      apply h.executePlan
      · intro m hm hread
        exact hok m completions hm hread hplan
      · exact h.plans completions (mem_of_getElem? hplan)
    refine { hdone with plans := ?_ }
    intro p hp
    exact hdone.plans p (mem_of_mem_eraseIdx hp)

end MigrationSound

/-- From a table at rest, in every run whose steps meet the condition, queries read an index that
every shard has finished, up to shards that splits have made: these count once they have finished
it themselves. -/
theorem queries_read_finished_index (enc : ConfigEncoding) (tableName : Bytes)
    (s s' : Migration) (events : List MigrationEvent) (hrest : AtRest tableName s)
    (h : Run (Migration.step enc tableName) (fun s e => e.Meets tableName s) s events s') :
    ReadsFinished tableName s' ↔
      ∀ table m, s'.catalog.manager.tables.get? tableName = some table →
        s'.catalog.metas.get? tableName = some m →
          ∀ id ∈ s'.splitOff, table.shards.get? id ≠ none → (id, m.queryIndex) ∈ s'.finished := by
  have hsound := h.invariant (fun _ _ _ hok hstep hinv => MigrationSound.step hinv hok hstep)
    hrest.sound
  exact hsound.reads_iff

/-- A table of one shard, which has built the index of version 0. -/
def searchMigration : Migration where
  catalog := ⟨⟨OrdMap.empty.insert [1] ⟨createShardConfig ⟨1, 7, [], []⟩⟩, .empty⟩,
    OrdMap.empty.insert [1] ⟨searchIndexes, none, none⟩⟩
  finished := [(7, versionedIndexName 0)]
  everFinished := [(7, versionedIndexName 0)]
  current := .empty
  plans := []
  splitOff := []

theorem atRest_searchMigration : AtRest [1] searchMigration := by
  refine ⟨⟨?_, ?_⟩, ?_, rfl, rfl, rfl, rfl⟩
  · intro m hm
    cases hm
    exact ⟨rfl, _, rfl, rfl⟩
  · intro table m htable hm id hne
    cases htable
    cases hm
    obtain ⟨conf, hconf⟩ := ne_none_iff_exists'.mp hne
    obtain ⟨i, hi, rfl, -⟩ := (createShardConfig_get? _ _ _).mp hconf
    change i < 1 at hi
    obtain rfl : i = 0 := by omega
    exact mem_singleton.mpr rfl
  · intro m hm
    cases hm
    rfl

/-- The shard has built the index of version 1. -/
def builtStats : ShardStats :=
  ⟨some (OrdMap.empty.insert (versionedIndexName 1) ⟨some false⟩)⟩

theorem migration_read_in_time : ∃ s,
    Run (Migration.step namesEncoding [1]) (fun s e => e.Meets [1] s) searchMigration
      [.updateSchema (.ofVersion 0) [versionedIndexName 0], .backfilled 7 (versionedIndexName 1),
        .heartbeat 7 (some builtStats), .computePlan, .executePlan 0] s ∧
    (s.catalog.metas.get? [1]).map TableMeta.queryIndex = some (versionedIndexName 1) ∧
    ReadsFinished [1] s := by
  have hrun : ∃ s,
      Run (Migration.step namesEncoding [1]) (fun s e => e.Meets [1] s) searchMigration
        [.updateSchema (.ofVersion 0) [versionedIndexName 0], .backfilled 7 (versionedIndexName 1),
          .heartbeat 7 (some builtStats), .computePlan, .executePlan 0] s ∧
      (s.catalog.metas.get? [1]).map TableMeta.queryIndex = some (versionedIndexName 1) ∧
      s.splitOff = [] := by
    refine ⟨_, .cons ?_ rfl (.cons trivial rfl (.cons trivial rfl (.cons trivial rfl
      (.cons ?_ rfl (.nil _))))), rfl, rfl⟩
    · intro m hm _
      cases hm
      refine ⟨by decide, ⟨_, rfl, rfl⟩, fun id hmem => ?_⟩
      have hname := congrArg Prod.snd (List.mem_singleton.mp hmem)
      exact absurd (versionedIndexName_inj.mp hname) (by decide)
    · intro m completions hm _ hplan completion hmem _
      cases hm
      cases hplan
      rw [List.mem_singleton.mp hmem]
  obtain ⟨s, hrun, hquery, hsplit⟩ := hrun
  have hreads := queries_read_finished_index _ _ _ _ _ atRest_searchMigration hrun
  refine ⟨s, hrun, hquery, hreads.mpr ?_⟩
  intro table m _ _ id hid
  rw [hsplit] at hid
  cases hid

/-- The schema is updated once more before the plan is carried out.  The migration to version 2 ends
although no shard has built its index. -/
theorem completion_ends_later_migration : AtRest [1] searchMigration ∧ ∃ s,
    Run (Migration.step namesEncoding [1]) (fun _ _ => True) searchMigration
      [.updateSchema (.ofVersion 0) [versionedIndexName 0], .backfilled 7 (versionedIndexName 1),
        .heartbeat 7 (some builtStats), .computePlan,
        .updateSchema { TableSchema.ofVersion 0 with enforceTypes := true } [versionedIndexName 0],
        .executePlan 0] s ∧
    (s.catalog.metas.get? [1]).map TableMeta.queryIndex = some (versionedIndexName 2) ∧
    ¬ ReadsFinished [1] s := by
  refine ⟨atRest_searchMigration, _, .cons trivial rfl (.cons trivial rfl (.cons trivial rfl
    (.cons trivial rfl (.cons trivial rfl (.cons trivial rfl (.nil _)))))), rfl, fun h => ?_⟩
  have hbuilt := h.finished _ _ rfl rfl 7 (by decide)
  revert hbuilt
  decide

end Antfly
