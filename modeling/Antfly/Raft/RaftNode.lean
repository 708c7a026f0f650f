import Antfly.Raft.PebbleStorage

/-!
The node takes what raft has ready: it saves the state, publishes a snapshot that came with it,
hands the committed entries over to the state machine and may then take a snapshot.  Its callers
switch asynchronous storage writes off, so these steps follow one another in one loop; only the
state machine works beside it, on one commit at a time.  The process may end between any two steps.

The database of the shard is the list of the data entries that were applied to it, on top of the
archive the shard was started from, if any.
-/

namespace Antfly.Raft

structure RaftNodeConfig where
  shardID : ℕ
  id : ℕ
  timestamp : Bytes
  /-- The archive a new shard starts from; empty for none. -/
  initWithStorageSnapshot : Bytes

def DefaultSnapshotCount : ℕ := 10000

def SnapshotCatchUpEntriesN : ℕ := 10000

inductive Commit where
  | data (entries : List Bytes)
  /-- A nil commit: the newest snapshot is to be loaded. -/
  | loadSnapshot
  deriving DecidableEq

structure RaftNode where
  raftLogStorage : PebbleStorage
  snapStore : SnapshotID → Option (List Bytes)
  /-- The data entries the database has applied. -/
  db : List Bytes
  /-- The commit the state machine is working on. -/
  commitC : Option Commit
  confState : ConfState
  snapshotIndex : ℕ
  appliedIndex : ℕ
  /-- A snapshot that is saved and still to be published. -/
  toPublish : Option Snapshot
  /-- Whether the last `publishEntries` returned a channel to wait for. -/
  applyDoneC : Bool
  stopped : Bool
  /-- The archive the shard was started from; a shard that is started again has none. -/
  initWithStorageSnapshot : Bytes
  /-- History only, nothing reads it: the applied index at the last save of the conf state. -/
  confStateSavedAt : ℕ

variable (cfg : RaftNodeConfig)

/-- `ApplyConfChange` of raft; a change of node zero is none. -/
def applyConfChange (voters : ConfState) (cc : ConfChange) : ConfState :=
  if cc.nodeID = 0 then voters
  else
    match cc.type with
    | .addNode => insert cc.nodeID voters
    | .removeNode => voters.erase cc.nodeID
    | .updateNode | .addLearnerNode => voters

/-- A removal of this node that is older than the node itself. -/
def staleRemoval (cc : ConfChange) : Bool :=
  decide (cc.nodeID = cfg.id) &&
    match cc.context with
    | .ok ccc => decide (ccc.timestamp < cfg.timestamp)
    | .empty | .malformed => false

def removesSelf (cc : ConfChange) : Bool :=
  decide (cc.type = .removeNode) && decide (cc.nodeID = cfg.id) && !staleRemoval cfg cc

def publishConfChange (confState : ConfState) (cc : ConfChange) : ConfState :=
  match cc.type with
  | .addNode =>
    match cc.context with
    | .ok _ => applyConfChange confState cc
    | .empty | .malformed => confState
  | .removeNode => if staleRemoval cfg cc then confState else applyConfChange confState cc
  | .updateNode | .addLearnerNode => confState

/-- What the loop of `publishEntries` leaves: the conf state, the data, and whether it met the
removal of this node. -/
structure PublishLoop where
  confState : ConfState
  data : List Bytes
  removed : Bool

def publishLoop (confState : ConfState) (data : List Bytes) : List Entry → PublishLoop
  | [] => ⟨confState, data, false⟩
  | e :: ents =>
    match e.data with
    | .normal d => publishLoop confState (if d = [] then data else data ++ [d]) ents
    | .confChange (some cc) =>
      let confState' := publishConfChange cfg confState cc
      if removesSelf cfg cc then ⟨confState', data, true⟩
      else publishLoop confState' data ents
    | .confChange none | .confChangeV2 => publishLoop confState data ents

namespace RaftNode

/-- The start of `serveChannels` on what is on disk. -/
def start (raftLogStorage : PebbleStorage) (snapStore : SnapshotID → Option (List Bytes))
    (db : List Bytes) (archive : Bytes) (confStateSavedAt : ℕ) : RaftNode where
  raftLogStorage := raftLogStorage
  snapStore := snapStore
  db := db
  commitC := none
  confState := raftLogStorage.initialState.2
  snapshotIndex := raftLogStorage.snapIndex
  appliedIndex := max raftLogStorage.snapIndex raftLogStorage.initialState.1.commit
  toPublish := none
  applyDoneC := false
  stopped := false
  initWithStorageSnapshot := archive
  confStateSavedAt := confStateSavedAt

/-- A node on an empty directory; one that joins a group saves the peers it is given first. -/
def new (peers : Option ConfState) : RaftNode :=
  start (PebbleStorage.load { Disk.empty with confState := peers })
    (fun id => if id = .archive cfg.initWithStorageSnapshot then some [] else none) []
    cfg.initWithStorageSnapshot 0

variable (rc : RaftNode)

def save (snap : Option Snapshot) (hs : HardState) (entries : List Entry) (committed : Bool) :
    RaftNode :=
  match rc.raftLogStorage.saveRaftState snap rc.confState hs entries committed with
  | (_, some _) => { rc with stopped := true }
  | (ps, none) =>
    { rc with
      raftLogStorage := ps
      toPublish := snap.filter (·.index ≠ 0)
      confStateSavedAt := rc.appliedIndex }

/-- `maybeFetchStorageSnapshot`: a storage snapshot is fetched from another node unless it is there;
`fetched` is what the other nodes have. -/
def fetch (id : SnapshotID) (fetched : Option (List Bytes)) : Option RaftNode :=
  match rc.snapStore id with
  | some _ => some rc
  | none => fetched.map fun c => { rc with snapStore := Function.update rc.snapStore id (some c) }

/-- The commit channel has no buffer: the step waits while the state machine is working. -/
def publishSnapshot (snap : Snapshot) (fetched : Option (List Bytes)) : Option RaftNode :=
  if snap.index ≤ rc.appliedIndex then some { rc with stopped := true }
  else
    match rc.fetch snap.data fetched with
    | none => some { rc with stopped := true }
    | some rc =>
      if rc.commitC.isSome then none
      else some { rc with
        commitC := some .loadSnapshot
        confState := snap.confState
        snapshotIndex := snap.index
        appliedIndex := snap.index
        toPublish := none }

/-- The entries above the applied index; a gap below the first one is fatal. -/
def entriesToApply (ents : List Entry) : Option (List Entry) :=
  match ents with
  | [] => some []
  | e :: _ =>
    if rc.appliedIndex + 1 < e.index then none
    else some (ents.drop (rc.appliedIndex + 1 - e.index))

def publishEntries (ents : List Entry) : Option RaftNode :=
  match ents.getLast? with
  | none => some { rc with applyDoneC := false }
  | some last =>
    let loop := publishLoop cfg rc.confState [] ents
    if loop.removed then some { rc with confState := loop.confState, stopped := true }
    else if loop.data.isEmpty then
      some { rc with
        confState := loop.confState
        appliedIndex := last.index
        applyDoneC := false }
    else if rc.commitC.isSome then none
    else some { rc with
      confState := loop.confState
      commitC := some (.data loop.data)
      appliedIndex := last.index
      applyDoneC := true }

/-- The committed entries of a Ready. -/
def publish (ents : List Entry) : Option RaftNode :=
  match rc.entriesToApply ents with
  | none => some { rc with stopped := true }
  | some ents => rc.publishEntries cfg ents

/-- What `readCommits` loads on a nil commit. -/
def snapshotToLoad : Option SnapshotID :=
  match rc.raftLogStorage.snapshot with
  | some snap => some snap.data
  | none =>
    if rc.initWithStorageSnapshot = [] then none else some (.archive rc.initWithStorageSnapshot)

/-- The state machine finishes its commit. -/
def readCommit (fetched : Option (List Bytes)) : Option RaftNode :=
  match rc.commitC with
  | none => none
  | some (.data ds) => some { rc with db := rc.db ++ ds, commitC := none }
  | some .loadSnapshot =>
    match rc.snapshotToLoad with
    | none => some { rc with commitC := none }
    | some id =>
      match rc.fetch id fetched with
      | none => some { rc with stopped := true }
      | some rc => some { rc with db := (rc.snapStore id).getD rc.db, commitC := none }

/-- Whether the first lines of `maybeTriggerSnapshot` let it go on; the difference is an unsigned
one. -/
def snapshotDue : Bool :=
  (rc.initWithStorageSnapshot ≠ [] ∧ rc.snapshotIndex = 0 ∧ rc.appliedIndex ≠ 0) ∨
    DefaultSnapshotCount < (rc.appliedIndex + 2 ^ 64 - rc.snapshotIndex) % 2 ^ 64

/-- The first snapshot of a shard that was started from an archive is that archive. -/
def reusesArchive : Bool :=
  rc.snapshotIndex = 0 ∧ rc.initWithStorageSnapshot ≠ []

/-- The id of the storage snapshot to record. -/
def nextSnapshotID : SnapshotID :=
  if rc.reusesArchive then .archive rc.initWithStorageSnapshot
  else .taken cfg.shardID cfg.id rc.appliedIndex

/-- The snapshot store once the storage snapshot is there. -/
def withStorageSnapshot : SnapshotID → Option (List Bytes) :=
  if rc.reusesArchive then rc.snapStore
  else Function.update rc.snapStore (rc.nextSnapshotID cfg) (some rc.db)

/-- The log is compacted behind a new snapshot. -/
def compacted (ps : PebbleStorage) (committed : Bool) : PebbleStorage :=
  if 1 < rc.appliedIndex - SnapshotCatchUpEntriesN then
    (ps.compact (rc.appliedIndex - SnapshotCatchUpEntriesN) committed).1
  else ps

/-- The storage snapshot that the new one replaces is deleted. -/
def withoutOld (store : SnapshotID → Option (List Bytes)) : SnapshotID → Option (List Bytes) :=
  match rc.raftLogStorage.snapshot with
  | some old => if old.data = rc.nextSnapshotID cfg then store else Function.update store old.data none
  | none => store

/-- `maybeTriggerSnapshot`.  It waits for the batch that was just handed over, if that had data;
`created`, `recorded` and `compacted` tell what succeeds. -/
def maybeTriggerSnapshot (created recorded compacted : Bool) : Option RaftNode :=
  if ¬ rc.snapshotDue then some rc
  else if rc.applyDoneC ∧ rc.commitC.isSome then none
  else if ¬ rc.reusesArchive ∧ ¬ created then some rc
  else
    match rc.raftLogStorage.createSnapshot rc.appliedIndex rc.confState (rc.nextSnapshotID cfg)
        recorded with
    | (_, some _) => some { rc with stopped := true }
    | (ps, none) =>
      some { rc with
        raftLogStorage := rc.compacted ps compacted
        snapStore := rc.withoutOld cfg (rc.withStorageSnapshot cfg)
        snapshotIndex := rc.appliedIndex }

/-- The process ends and starts again.  The database keeps the data entries up to some point; an
existing directory is opened as it is, and the newest snapshot is not loaded. -/
def restart (kept : ℕ) : RaftNode :=
  start (PebbleStorage.load rc.raftLogStorage.db) rc.snapStore (rc.db.take kept) []
    rc.confStateSavedAt

end RaftNode

inductive NodeEvent where
  | save (snap : Option Snapshot) (hs : HardState) (entries : List Entry) (committed : Bool)
  | publishSnapshot (fetched : Option (List Bytes))
  | publish (ents : List Entry)
  | readCommit (fetched : Option (List Bytes))
  | maybeTriggerSnapshot (created recorded compacted : Bool)
  | restart (kept : ℕ)

namespace RaftNode

/-- A saved snapshot is published before the loop goes on. -/
def step (rc : RaftNode) : NodeEvent → Option RaftNode
  | .restart kept => some (rc.restart kept)
  | .readCommit fetched => if rc.stopped then none else rc.readCommit fetched
  | .publishSnapshot fetched =>
    if rc.stopped then none
    else
      match rc.toPublish with
      | none => none
      | some snap => rc.publishSnapshot snap fetched
  | .save snap hs entries committed =>
    if rc.stopped ∨ rc.toPublish.isSome then none else some (rc.save snap hs entries committed)
  | .publish ents =>
    if rc.stopped ∨ rc.toPublish.isSome then none else rc.publish cfg ents
  | .maybeTriggerSnapshot created recorded compacted =>
    if rc.stopped ∨ rc.toPublish.isSome then none
    else rc.maybeTriggerSnapshot cfg created recorded compacted

variable {cfg : RaftNodeConfig} {rc rc' : RaftNode}

theorem save_cases (rc : RaftNode) (snap : Option Snapshot) (hs : HardState) (entries : List Entry)
    (committed : Bool) :
    rc.save snap hs entries committed = { rc with stopped := true } ∨
      rc.save snap hs entries committed = { rc with
        raftLogStorage := (rc.raftLogStorage.saveRaftState snap rc.confState hs entries committed).1
        toPublish := snap.filter (·.index ≠ 0)
        confStateSavedAt := rc.appliedIndex } ∧
      (rc.raftLogStorage.saveRaftState snap rc.confState hs entries committed).2 = none := by
  unfold save
  rcases rc.raftLogStorage.saveRaftState snap rc.confState hs entries committed with ⟨ps, - | e⟩
  · exact .inr ⟨rfl, rfl⟩
  · exact .inl rfl

variable {fetched : Option (List Bytes)}

theorem fetch_cases {id : SnapshotID} (h : rc.fetch id fetched = some rc') :
    ∃ c, (rc.snapStore id).or fetched = some c ∧
      rc' = { rc with snapStore := Function.update rc.snapStore id (some c) } := by
  unfold fetch at h
  cases hstored : rc.snapStore id with
  | some c =>
    rw [hstored] at h
    cases h
    refine ⟨c, rfl, ?_⟩
    rw [← hstored, Function.update_eq_self]
  | none =>
    rw [hstored] at h
    obtain ⟨c, hc, rfl⟩ := Option.map_eq_some_iff.mp h
    exact ⟨c, hc, rfl⟩

theorem publishSnapshot_cases {snap : Snapshot} (h : rc.publishSnapshot snap fetched = some rc') :
    rc' = { rc with stopped := true } ∨ ∃ c, (rc.snapStore snap.data).or fetched = some c ∧
      rc' = { rc with
        snapStore := Function.update rc.snapStore snap.data (some c)
        commitC := some .loadSnapshot
        confState := snap.confState
        snapshotIndex := snap.index
        appliedIndex := snap.index
        toPublish := none } := by
  unfold publishSnapshot at h
  by_cases hold : snap.index ≤ rc.appliedIndex
  · rw [if_pos hold] at h
    exact .inl (Option.some.inj h).symm
  rw [if_neg hold] at h
  cases hfetch : rc.fetch snap.data fetched with
  | none =>
    rw [hfetch] at h
    exact .inl (Option.some.inj h).symm
  | some rc₁ =>
    obtain ⟨c, hc, rfl⟩ := fetch_cases hfetch
    rw [hfetch] at h
    dsimp only at h
    by_cases hbusy : rc.commitC.isSome = true
    · rw [if_pos hbusy] at h
      cases h
    · rw [if_neg hbusy] at h
      exact .inr ⟨c, hc, (Option.some.inj h).symm⟩

theorem readCommit_cases (h : rc.readCommit fetched = some rc') :
    rc' = { rc with stopped := true } ∨
      (∃ ds, rc.commitC = some (.data ds) ∧ rc' = { rc with db := rc.db ++ ds, commitC := none }) ∨
      rc.commitC = some .loadSnapshot ∧
        (rc.snapshotToLoad = none ∧ rc' = { rc with commitC := none } ∨
          ∃ id c, rc.snapshotToLoad = some id ∧ (rc.snapStore id).or fetched = some c ∧
            rc' = { rc with
              snapStore := Function.update rc.snapStore id (some c)
              db := c
              commitC := none }) := by
  unfold readCommit at h
  rcases hcommit : rc.commitC with - | (ds | -)
  · rw [hcommit] at h
    cases h
  · rw [hcommit] at h
    exact .inr (.inl ⟨ds, rfl, (Option.some.inj h).symm⟩)
  · rw [hcommit] at h
    dsimp only at h
    cases hload : rc.snapshotToLoad with
    | none =>
      rw [hload] at h
      exact .inr (.inr ⟨rfl, .inl ⟨rfl, (Option.some.inj h).symm⟩⟩)
    | some id =>
      rw [hload] at h
      dsimp only at h
      cases hfetch : rc.fetch id fetched with
      | none =>
        rw [hfetch] at h
        exact .inl (Option.some.inj h).symm
      | some rc₁ =>
        obtain ⟨c, hc, rfl⟩ := fetch_cases hfetch
        rw [hfetch] at h
        refine .inr (.inr ⟨rfl, .inr ⟨id, c, rfl, hc, ?_⟩⟩)
        simp only [Function.update_self, Option.getD_some, Option.some.injEq] at h
        exact h.symm

theorem maybeTriggerSnapshot_cases {created recorded compacted : Bool}
    (h : rc.maybeTriggerSnapshot cfg created recorded compacted = some rc') :
    rc' = { rc with stopped := true } ∨ rc' = rc ∨
      (rc.snapshotDue = true ∧ (rc.applyDoneC = true → rc.commitC = none) ∧
        (rc.raftLogStorage.createSnapshot rc.appliedIndex rc.confState (rc.nextSnapshotID cfg)
          recorded).2 = none ∧
        rc' = { rc with
          raftLogStorage := rc.compacted (rc.raftLogStorage.createSnapshot rc.appliedIndex
            rc.confState (rc.nextSnapshotID cfg) recorded).1 compacted
          snapStore := rc.withoutOld cfg (rc.withStorageSnapshot cfg)
          snapshotIndex := rc.appliedIndex }) := by
  unfold maybeTriggerSnapshot at h
  by_cases hdue : rc.snapshotDue = true
  swap
  · rw [if_pos hdue] at h
    exact .inr (.inl (Option.some.inj h).symm)
  rw [if_neg (not_not.mpr hdue)] at h
  by_cases hwait : rc.applyDoneC = true ∧ rc.commitC.isSome = true
  · rw [if_pos hwait] at h
    cases h
  rw [if_neg hwait] at h
  by_cases hfailed : ¬ rc.reusesArchive = true ∧ ¬ created = true
  · rw [if_pos hfailed] at h
    exact .inr (.inl (Option.some.inj h).symm)
  rw [if_neg hfailed] at h
  rcases hcreate : rc.raftLogStorage.createSnapshot rc.appliedIndex rc.confState
    (rc.nextSnapshotID cfg) recorded with ⟨ps, - | e⟩
  all_goals rw [hcreate] at h
  · refine .inr (.inr ⟨hdue, fun hdone => ?_, rfl, (Option.some.inj h).symm⟩)
    exact Option.not_isSome_iff_eq_none.mp fun hbusy => hwait ⟨hdone, hbusy⟩
  · exact .inl (Option.some.inj h).symm

end RaftNode

end Antfly.Raft
