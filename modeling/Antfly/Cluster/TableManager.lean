import Antfly.Cluster.ShardInfo
import Antfly.Lib.IntervalPartition
import Antfly.Store.Routing

/-!
The metadata service keeps, for every table, its shards with their configurations, and a status
for every shard.  A new table divides the keys below the byte `0xFF` evenly; splits and merges
then cut and join ranges.  Tables and statuses are decoded from the store on every call and saved
only at its end, so that an operation that fails leaves both as they were.
-/

namespace Antfly

open Fallible

inductive ShardState where
  | default | splittingOff | splitOffPreSnap | preSplit | preMerge | initializing | splitting
  deriving DecidableEq

structure ShardStatus extends ShardInfo where
  id : ℕ
  table : Bytes
  state : ShardState
  deriving DecidableEq

/-- The stored definition of a table, as far as its shards go.  It is stored under its name. -/
structure TableDef where
  shards : OrdMap ℕ ShardConfig

structure TableManager where
  tables : OrdMap Bytes TableDef
  shardStatuses : OrdMap ℕ ShardStatus

structure TableConfig where
  numShards : ℕ
  startID : ℕ
  schema : Bytes
  indexes : Bytes
  deriving DecidableEq

structure SplitTransition where
  shardID : ℕ
  splitShardID : ℕ
  splitKey : Bytes
  tableName : Bytes
  deriving DecidableEq

/-- `mergeShardID` is merged into `shardID`. -/
structure MergeTransition where
  shardID : ℕ
  mergeShardID : ℕ
  tableName : Bytes
  deriving DecidableEq

inductive TableError where
  | tableExists
  | notFound
  | sameShard
  | shardDoesNotExist (id : ℕ)
  | statusNotFound (id : ℕ)
  | cannotBeMerged (shardRange mergeRange : Range)
  deriving DecidableEq

/-- A position in a 16-bit space as a key: one byte where the low byte is zero, else two. -/
def boundaryKey (pos : ℕ) : Bytes :=
  let hi := UInt8.ofNat (pos / 256)
  let lo := UInt8.ofNat (pos % 256)
  if lo = 0 then [hi] else [hi, lo]

/-- The boundary `i` of `n` shards; the position is computed in 32 bits. -/
def shardBoundary (i n : ℕ) : Bytes :=
  boundaryKey (i % 2 ^ 32 * 65536 % 2 ^ 32 / (n % 2 ^ 32))

def shardRange (i n : ℕ) : Range where
  start := if i = 0 then [] else shardBoundary i n
  stop := if i = n - 1 then [0xFF] else shardBoundary (i + 1) n

def createShardConfig (tc : TableConfig) : OrdMap ℕ ShardConfig :=
  .ofList ((List.range tc.numShards).map fun i => (tc.startID + i,
    { byteRange := shardRange i tc.numShards
      schema := tc.schema
      indexes := tc.indexes
      restoreConfig := [] }))

namespace ShardInfo

def ofConfig (conf : ShardConfig) (peers : PeerSet) : ShardInfo where
  toShardConfig := conf
  shardStats := none
  peers := peers
  raftStatus := none
  reportedBy := ∅
  hasSnapshot := false
  initializing := false
  splitting := false
  splitState := none
  mergeState := none
  splitReplayRequired := false
  splitReplayCaughtUp := false
  splitCutoverReady := false
  splitReplaySeq := 0
  splitParentShardID := 0
  mergeDeltaSeq := 0
  mergeDeltaFinalSeq := 0

end ShardInfo

namespace TableManager

def getTable (tm : TableManager) (name : Bytes) : Except TableError TableDef :=
  (tm.tables.get? name).elim (.error .notFound) .ok

def getShardStatus (tm : TableManager) (id : ℕ) : Except TableError ShardStatus :=
  (tm.shardStatuses.get? id).elim (.error (.statusNotFound id)) .ok

def saveTableAndShardStatus (tm : TableManager) (name : Bytes) (table : TableDef)
    (statuses : List (ℕ × ShardStatus)) (deletes : List ℕ) : TableManager where
  tables := tm.tables.insert name table
  shardStatuses := deletes.foldl OrdMap.erase
    (statuses.foldl (fun m s => m.insert s.1 s.2) tm.shardStatuses)

/-- `CreateTable`; the start id is given or generated. -/
def createTable (tm : TableManager) (name : Bytes) (tc : TableConfig) :
    Except TableError TableManager :=
  if (tm.tables.get? name).isSome then .error .tableExists
  else
    let shards := createShardConfig tc
    let statuses := shards.entries.map fun e => (e.1,
      { ShardInfo.ofConfig e.2 ∅ with id := e.1, table := name, state := .default })
    .ok (tm.saveTableAndShardStatus name ⟨shards⟩ statuses [])

end TableManager

namespace TableDef

def shard (t : TableDef) (id : ℕ) : Except TableError ShardConfig :=
  (t.shards.get? id).elim (.error (.shardDoesNotExist id)) .ok

end TableDef

/-- The range of two shards of which one ends where the other starts; the comparison is one of the
raw ends. -/
def mergedRange (shardRange mergeRange : Range) : Except TableError Range :=
  if shardRange.stop ≠ mergeRange.start ∧ mergeRange.stop ≠ shardRange.start then
    .error (.cannotBeMerged shardRange mergeRange)
  else if mergeRange.stop = shardRange.start then .ok ⟨mergeRange.start, shardRange.stop⟩
  else .ok ⟨shardRange.start, mergeRange.stop⟩

namespace TableManager

variable (tm : TableManager)

def reassignShardsForSplit (split : SplitTransition) :
    Except TableError (TableManager × PeerSet × ShardConfig) :=
  if split.shardID = split.splitShardID then .error .sameShard
  else do
    let table ← tm.getTable split.tableName
    let conf ← table.shard split.shardID
    let parent : ShardConfig := { conf with byteRange := ⟨conf.byteRange.start, split.splitKey⟩ }
    let child : ShardConfig :=
      { conf with byteRange := ⟨split.splitKey, conf.byteRange.stop⟩, restoreConfig := [] }
    let status ← tm.getShardStatus split.shardID
    let parentStatus : ShardStatus := { status with toShardConfig := parent, state := .preSplit }
    let childStatus : ShardStatus :=
      { ShardInfo.ofConfig child status.peers with
        id := split.splitShardID, table := split.tableName, state := .splittingOff }
    let shards := (table.shards.insert split.shardID parent).insert split.splitShardID child
    return (tm.saveTableAndShardStatus split.tableName ⟨shards⟩
      [(split.shardID, parentStatus), (split.splitShardID, childStatus)] [], status.peers, child)

def mergedConfig (conf : ShardConfig) (r : Range) : ShardConfig :=
  { conf with byteRange := r, restoreConfig := [] }

def reassignShardsForMerge (merge : MergeTransition) :
    Except TableError (TableManager × ShardConfig) := do
  let table ← tm.getTable merge.tableName
  let conf ← table.shard merge.shardID
  let mergeConf ← table.shard merge.mergeShardID
  let newRange ← mergedRange conf.byteRange mergeConf.byteRange
  let newConfig := mergedConfig conf newRange
  let status ← tm.getShardStatus merge.shardID
  let newStatus : ShardStatus := { status with toShardConfig := newConfig, state := .default }
  let shards := (table.shards.insert merge.shardID newConfig).erase merge.mergeShardID
  return (tm.saveTableAndShardStatus merge.tableName ⟨shards⟩ [(merge.shardID, newStatus)]
    [merge.mergeShardID], newConfig)

def prepareShardsForMerge (merge : MergeTransition) :
    Except TableError (TableManager × ShardConfig) := do
  let table ← tm.getTable merge.tableName
  let conf ← table.shard merge.shardID
  let _ ← table.shard merge.mergeShardID
  let status ← tm.getShardStatus merge.shardID
  let newStatus : ShardStatus := { status with state := .preMerge }
  return (tm.saveTableAndShardStatus merge.tableName table [(merge.shardID, newStatus)] [], conf)

def finalizeShardsForMerge (merge : MergeTransition) :
    Except TableError (TableManager × ShardConfig) := do
  let table ← tm.getTable merge.tableName
  let receiverConf ← table.shard merge.shardID
  let donorConf ← table.shard merge.mergeShardID
  let newRange ← mergedRange receiverConf.byteRange donorConf.byteRange
  let newConfig := mergedConfig receiverConf newRange
  let shards := (table.shards.insert merge.shardID newConfig).erase merge.mergeShardID
  let status ← tm.getShardStatus merge.shardID
  let newStatus : ShardStatus :=
    { status with toShardConfig := newConfig, state := .default, mergeState := none }
  return (tm.saveTableAndShardStatus merge.tableName ⟨shards⟩ [(merge.shardID, newStatus)]
    [merge.mergeShardID], newConfig)

def rollbackShardsForMerge (merge : MergeTransition) :
    Except TableError (TableManager × ShardConfig) := do
  let table ← tm.getTable merge.tableName
  let receiverConf ← table.shard merge.shardID
  let _ ← table.shard merge.mergeShardID
  let receiverStatus ← tm.getShardStatus merge.shardID
  let donorStatus ← tm.getShardStatus merge.mergeShardID
  return (tm.saveTableAndShardStatus merge.tableName table
    [(merge.shardID, { receiverStatus with state := .default, mergeState := none }),
      (merge.mergeShardID, { donorStatus with mergeState := none })] [], receiverConf)

end TableManager

inductive TableOp where
  | split (t : SplitTransition)
  | merge (t : MergeTransition)
  | prepareMerge (t : MergeTransition)
  | finalizeMerge (t : MergeTransition)
  | rollbackMerge (t : MergeTransition)

def TableOp.tableName : TableOp → Bytes
  | .split t => t.tableName
  | .merge t | .prepareMerge t | .finalizeMerge t | .rollbackMerge t => t.tableName

namespace TableManager

/-- What an accepted operation leaves. -/
def apply (tm : TableManager) : TableOp → Except TableError TableManager
  | .split t => (tm.reassignShardsForSplit t).map Prod.fst
  | .merge t => (tm.reassignShardsForMerge t).map Prod.fst
  | .prepareMerge t => (tm.prepareShardsForMerge t).map Prod.fst
  | .finalizeMerge t => (tm.finalizeShardsForMerge t).map Prod.fst
  | .rollbackMerge t => (tm.rollbackShardsForMerge t).map Prod.fst

/-- What an accepted operation has found, and what it leaves. -/
inductive Applied (tm : TableManager) : TableOp → TableManager → Prop where
  | split (t : SplitTransition) {table : TableDef} {conf : ShardConfig} {status : ShardStatus} :
      t.shardID ≠ t.splitShardID → tm.tables.get? t.tableName = some table →
      table.shards.get? t.shardID = some conf → tm.shardStatuses.get? t.shardID = some status →
      ∀ parent child, parent = { conf with byteRange := ⟨conf.byteRange.start, t.splitKey⟩ } →
      child = { conf with byteRange := ⟨t.splitKey, conf.byteRange.stop⟩, restoreConfig := [] } →
      Applied tm (.split t) (tm.saveTableAndShardStatus t.tableName
        ⟨(table.shards.insert t.shardID parent).insert t.splitShardID child⟩
        [(t.shardID, { status with toShardConfig := parent, state := .preSplit }),
          (t.splitShardID, { ShardInfo.ofConfig child status.peers with
            id := t.splitShardID, table := t.tableName, state := .splittingOff })] [])
  | merge (op : TableOp) (t : MergeTransition) {table : TableDef} {conf conf' : ShardConfig}
      {r : Range} {status : ShardStatus} (m : Option MergeState) :
      op = .merge t ∨ op = .finalizeMerge t → m = status.mergeState ∨ m = none →
      tm.tables.get? t.tableName = some table → table.shards.get? t.shardID = some conf →
      table.shards.get? t.mergeShardID = some conf' →
      mergedRange conf.byteRange conf'.byteRange = .ok r →
      tm.shardStatuses.get? t.shardID = some status →
      Applied tm op (tm.saveTableAndShardStatus t.tableName
        ⟨(table.shards.insert t.shardID (mergedConfig conf r)).erase t.mergeShardID⟩
        [(t.shardID, { status with
          toShardConfig := mergedConfig conf r, state := .default, mergeState := m })]
        [t.mergeShardID])
  | prepareMerge (t : MergeTransition) {table : TableDef} {conf : ShardConfig}
      {status : ShardStatus} :
      tm.tables.get? t.tableName = some table → table.shards.get? t.shardID = some conf →
      tm.shardStatuses.get? t.shardID = some status →
      Applied tm (.prepareMerge t) (tm.saveTableAndShardStatus t.tableName table
        [(t.shardID, { status with state := .preMerge })] [])
  | rollbackMerge (t : MergeTransition) {table : TableDef} {conf conf' : ShardConfig}
      {receiver donor : ShardStatus} :
      tm.tables.get? t.tableName = some table → table.shards.get? t.shardID = some conf →
      table.shards.get? t.mergeShardID = some conf' →
      tm.shardStatuses.get? t.shardID = some receiver →
      tm.shardStatuses.get? t.mergeShardID = some donor →
      Applied tm (.rollbackMerge t) (tm.saveTableAndShardStatus t.tableName table
        [(t.shardID, { receiver with state := .default, mergeState := none }),
          (t.mergeShardID, { donor with mergeState := none })] [])

private theorem elim_eq_ok' {β : Type} {o : Option β} {e : TableError} {b : β} :
    o.elim (Except.error e) Except.ok = .ok b ↔ o = some b := Fallible.elim_eq_ok

private theorem exists_of_map_fst {β : Type} {x : Except TableError (TableManager × β)}
    {tm' : TableManager} (h : x.map Prod.fst = .ok tm') : ∃ b, x = .ok (tm', b) := by
  cases x with
  | error e => cases h
  | ok r =>
    cases h
    exact ⟨r.2, rfl⟩

theorem applied {tm tm' : TableManager} {op : TableOp} (h : tm.apply op = .ok tm') :
    Applied tm op tm' := by
  cases op with
  | split t =>
    obtain ⟨b, hb⟩ := exists_of_map_fst h
    unfold reassignShardsForSplit at hb
    split at hb
    · cases hb
    · next hne =>
      simp only [bind_eq_ok, pure_eq_ok, getTable, TableDef.shard, getShardStatus,
        elim_eq_ok'] at hb
      obtain ⟨table, htable, conf, hconf, status, hstatus, heq⟩ := hb
      cases heq
      exact .split t hne htable hconf hstatus _ _ rfl rfl
  | merge t =>
    obtain ⟨b, hb⟩ := exists_of_map_fst h
    simp only [reassignShardsForMerge, bind_eq_ok, pure_eq_ok, getTable, TableDef.shard,
      getShardStatus, elim_eq_ok'] at hb
    obtain ⟨table, htable, conf, hconf, conf', hconf', r, hr, status, hstatus, heq⟩ := hb
    cases heq
    exact .merge _ t _ (.inl rfl) (.inl rfl) htable hconf hconf' hr hstatus
  | prepareMerge t =>
    obtain ⟨b, hb⟩ := exists_of_map_fst h
    simp only [prepareShardsForMerge, bind_eq_ok, pure_eq_ok, getTable, TableDef.shard,
      getShardStatus, elim_eq_ok'] at hb
    obtain ⟨table, htable, conf, hconf, -, -, status, hstatus, heq⟩ := hb
    cases heq
    exact .prepareMerge t htable hconf hstatus
  | finalizeMerge t =>
    obtain ⟨b, hb⟩ := exists_of_map_fst h
    simp only [finalizeShardsForMerge, bind_eq_ok, pure_eq_ok, getTable, TableDef.shard,
      getShardStatus, elim_eq_ok'] at hb
    obtain ⟨table, htable, conf, hconf, conf', hconf', r, hr, status, hstatus, heq⟩ := hb
    cases heq
    exact .merge _ t _ (.inr rfl) (.inr rfl) htable hconf hconf' hr hstatus
  | rollbackMerge t =>
    obtain ⟨b, hb⟩ := exists_of_map_fst h
    simp only [rollbackShardsForMerge, bind_eq_ok, pure_eq_ok, getTable, TableDef.shard,
      getShardStatus, elim_eq_ok'] at hb
    obtain ⟨table, htable, conf, hconf, conf', hconf', receiver, hreceiver, donor, hdonor,
      heq⟩ := hb
    cases heq
    exact .rollbackMerge t htable hconf hconf' hreceiver hdonor

/-- A refused operation changes nothing. -/
def step (tm : TableManager) (op : TableOp) : TableManager :=
  match tm.apply op with
  | .ok tm' => tm'
  | .error _ => tm

def run (tm : TableManager) (ops : List TableOp) : TableManager :=
  ops.foldl step tm

end TableManager

end Antfly
