import Antfly.Bytes
import Antfly.Lib.OrdMap
import Mathlib.Data.Finset.Basic

/-!
The storage keeps the log entries, the hard state, the conf state, the newest snapshot's metadata
and the two log indices in Pebble, and the indices and the snapshot in memory as well.  An entry
key ends in the big-endian index, so the entries are taken as an ordered map over the indices.  A
batch is committed as a whole or not at all; `committed` tells which.  The peer list is left out.
-/

namespace Antfly.Raft

structure ConfChangeContext where
  url : Bytes
  timestamp : Bytes
  uuid : Bytes
  deriving DecidableEq

inductive ConfChangeType where
  | addNode | removeNode | updateNode | addLearnerNode
  deriving DecidableEq

/-- The context of a change is empty, does not unmarshal, or is a `ConfChangeContext`. -/
inductive ChangeContext where
  | empty
  | malformed
  | ok (ccc : ConfChangeContext)
  deriving DecidableEq

structure ConfChange where
  type : ConfChangeType
  nodeID : ℕ
  context : ChangeContext
  deriving DecidableEq

/-- The type of an entry with its data; the data of a `ConfChange` may not unmarshal. -/
inductive EntryData where
  | normal (data : Bytes)
  | confChange (cc : Option ConfChange)
  | confChangeV2
  deriving DecidableEq

structure Entry where
  term : ℕ
  index : ℕ
  data : EntryData
  deriving DecidableEq

/-- The voters; no other field of a conf state is used. -/
abbrev ConfState := Finset ℕ

/-- The id of a storage snapshot: the archive the shard was started from, or
`snapshot-<shard>-<node>-<applied index>`. -/
inductive SnapshotID where
  | archive (name : Bytes)
  | taken (shardID nodeID appliedIndex : ℕ)
  deriving DecidableEq

/-- A raft snapshot: its metadata, and the storage snapshot its data names. -/
structure Snapshot where
  index : ℕ
  term : ℕ
  confState : ConfState
  data : SnapshotID
  deriving DecidableEq

structure HardState where
  term : ℕ
  vote : ℕ
  commit : ℕ
  deriving DecidableEq

def HardState.empty : HardState := ⟨0, 0, 0⟩

inductive StorageError where
  | compacted
  | unavailable
  | snapOutOfDate
  | snapshotOlder
  | indexUnavailable
  /-- Pebble did not commit. -/
  | pebble
  deriving DecidableEq

/-- What is on disk. -/
structure Disk where
  entries : OrdMap ℕ Entry
  hardState : Option HardState
  confState : Option ConfState
  snapshotMeta : Option Snapshot
  firstIndex : Option ℕ
  lastIndex : Option ℕ

def Disk.empty : Disk := ⟨.empty, none, none, none, none, none⟩

@[ext] structure PebbleStorage where
  db : Disk
  firstIndex : ℕ
  lastIndex : ℕ
  snapshot : Option Snapshot

namespace PebbleStorage

/-- `initialize`: the indices and the snapshot are loaded from disk. -/
def load (db : Disk) : PebbleStorage where
  db := db
  firstIndex := db.firstIndex.getD 1
  lastIndex := db.lastIndex.getD 0
  snapshot := db.snapshotMeta

variable (ps : PebbleStorage)

/-- The index of the newest snapshot, zero when there is none. -/
def snapIndex : ℕ := ps.snapshot.elim 0 Snapshot.index

/-- The conf state of the snapshot comes before the one that was saved with the log. -/
def initialState : HardState × ConfState :=
  (ps.db.hardState.getD .empty,
    match ps.snapshot with
    | some snap => snap.confState
    | none => ps.db.confState.getD ∅)

/-- The loop of `Entries`: the entries up to the size limit, the first one in any case. -/
def takeSize (size : Entry → ℕ) (maxSize : ℕ) : ℕ → Bool → List Entry → List Entry
  | _, _, [] => []
  | total, started, e :: es =>
    if maxSize < total + size e ∧ started then []
    else e :: takeSize size maxSize (total + size e) true es

def entries (size : Entry → ℕ) (lo hi maxSize : ℕ) : Except StorageError (List Entry) :=
  if lo < ps.firstIndex then .error .compacted
  else if ps.lastIndex + 1 < hi then .error .unavailable
  else if hi ≤ lo then .ok []
  else .ok (takeSize size maxSize 0 false ((ps.db.entries.scan lo hi).map Prod.snd))

def term (i : ℕ) : Except StorageError ℕ :=
  if i = 0 then .ok 0
  else
    match ps.snapshot.filter (·.index = i) with
    | some snap => .ok snap.term
    | none =>
      if i + 1 < ps.firstIndex then .error .compacted
      else if ps.lastIndex < i then .error .unavailable
      else
        match ps.db.entries.get? i with
        | some e => .ok e.term
        -- The sentinel may be missing below the first index.
        | none => .error (if i + 1 = ps.firstIndex then .compacted else .unavailable)

def createSnapshot (index : ℕ) (cs : ConfState) (data : SnapshotID) (committed : Bool) :
    PebbleStorage × Option StorageError :=
  if index ≤ ps.snapIndex then (ps, some .snapshotOlder)
  else if ps.lastIndex < index then (ps, some .indexUnavailable)
  else
    match ps.term index with
    | .error e => (ps, some e)
    | .ok term =>
      if committed then
        let snapshot : Snapshot := ⟨index, term, cs, data⟩
        ({ ps with db := { ps.db with snapshotMeta := some snapshot }, snapshot := some snapshot },
          none)
      else (ps, some .pebble)

/-- Everything below `compactIndex` goes; the entry there stays for its term. -/
def compact (compactIndex : ℕ) (committed : Bool) : PebbleStorage × Option StorageError :=
  if compactIndex < ps.firstIndex then (ps, some .compacted)
  else if ps.lastIndex < compactIndex then (ps, some .unavailable)
  else if committed then
    ({ ps with
        db := { ps.db with
          entries := ps.db.entries.eraseRange 0 compactIndex
          firstIndex := some (compactIndex + 1) }
        firstIndex := compactIndex + 1 }, none)
  else (ps, some .pebble)

/-- One iteration of the entry loop of `SaveRaftState`, on the stored entries and the last index.
Conflicting entries are removed before the new one is written. -/
def saveEntry (firstIndex : ℕ) (log : OrdMap ℕ Entry × ℕ) (e : Entry) : OrdMap ℕ Entry × ℕ :=
  if e.index < firstIndex then log
  else
    let kept := if e.index ≤ log.2 then log.1.eraseRange e.index (log.2 + 1) else log.1
    (kept.insert e.index e, e.index)

/-- The snapshot part of `SaveRaftState`. -/
def installed (cs : ConfState) : Option Snapshot → PebbleStorage
  | none => { ps with db := { ps.db with confState := some cs } }
  | some snap =>
    { db := { ps.db with
        entries := ps.db.entries.eraseRange 0 (snap.index + 1)
        snapshotMeta := some snap
        firstIndex := some (snap.index + 1)
        lastIndex := some snap.index
        confState := some snap.confState }
      firstIndex := snap.index + 1
      lastIndex := snap.index
      snapshot := some snap }

def appended (hs : HardState) (entries : List Entry) : PebbleStorage :=
  let log := entries.foldl (saveEntry ps.firstIndex) (ps.db.entries, ps.lastIndex)
  { ps with
    db := { ps.db with
      entries := log.1
      hardState := if hs = .empty then ps.db.hardState else some hs
      lastIndex := if entries.isEmpty then ps.db.lastIndex else some log.2 }
    lastIndex := log.2 }

/-- A snapshot of index zero is no snapshot. -/
def saveRaftState (snap : Option Snapshot) (cs : ConfState) (hs : HardState)
    (entries : List Entry) (committed : Bool) : PebbleStorage × Option StorageError :=
  let snap := snap.filter (·.index ≠ 0)
  if snap.any (·.index ≤ ps.snapIndex) then (ps, some .snapOutOfDate)
  else if committed then ((ps.installed cs snap).appended hs entries, none)
  else (ps, some .pebble)

end PebbleStorage

inductive StorageOp where
  | save (snap : Option Snapshot) (cs : ConfState) (hs : HardState) (entries : List Entry)
      (committed : Bool)
  | createSnapshot (index : ℕ) (cs : ConfState) (data : SnapshotID) (committed : Bool)
  | compact (compactIndex : ℕ) (committed : Bool)
  /-- The process ends, or is killed, and starts again. -/
  | reopen

namespace PebbleStorage

def apply (ps : PebbleStorage) : StorageOp → PebbleStorage × Option StorageError
  | .save snap cs hs entries committed => ps.saveRaftState snap cs hs entries committed
  | .createSnapshot index cs data committed => ps.createSnapshot index cs data committed
  | .compact compactIndex committed => ps.compact compactIndex committed
  | .reopen => (load ps.db, none)

variable {ps : PebbleStorage}

theorem load_installed (h : load ps.db = ps) (cs : ConfState) (snap : Option Snapshot) :
    load (ps.installed cs snap).db = ps.installed cs snap := by
  cases snap with
  | none =>
    simp only [load, installed, PebbleStorage.ext_iff] at h ⊢
    exact ⟨trivial, h.2⟩
  | some snap => rfl

theorem load_appended (h : load ps.db = ps) (hs : HardState) (entries : List Entry) :
    load (ps.appended hs entries).db = ps.appended hs entries := by
  simp only [load, appended, PebbleStorage.ext_iff, true_and] at h ⊢
  obtain ⟨hfirst, hlast, hsnap⟩ := h
  refine ⟨hfirst, ?_, hsnap⟩
  cases entries with
  | nil => exact hlast
  | cons e es => rfl

theorem load_createSnapshot (h : load ps.db = ps) (index : ℕ) (cs : ConfState) (data : SnapshotID)
    (committed : Bool) : load (ps.createSnapshot index cs data committed).1.db =
      (ps.createSnapshot index cs data committed).1 := by
  unfold createSnapshot
  by_cases holder : index ≤ ps.snapIndex
  · rw [if_pos holder]
    exact h
  rw [if_neg holder]
  by_cases hbeyond : ps.lastIndex < index
  · rw [if_pos hbeyond]
    exact h
  rw [if_neg hbeyond]
  cases ps.term index with
  | error e => exact h
  | ok term =>
    cases committed with
    | false => exact h
    | true =>
      simp only [load, PebbleStorage.ext_iff, true_and] at h ⊢
      exact ⟨h.1, h.2.1, rfl⟩

theorem load_compact (h : load ps.db = ps) (compactIndex : ℕ) (committed : Bool) :
    load (ps.compact compactIndex committed).1.db = (ps.compact compactIndex committed).1 := by
  unfold compact
  by_cases hbelow : compactIndex < ps.firstIndex
  · rw [if_pos hbelow]
    exact h
  rw [if_neg hbelow]
  by_cases hbeyond : ps.lastIndex < compactIndex
  · rw [if_pos hbeyond]
    exact h
  rw [if_neg hbeyond]
  cases committed with
  | false => exact h
  | true =>
    simp only [load, PebbleStorage.ext_iff, true_and] at h ⊢
    exact ⟨rfl, h.2⟩

theorem load_saveRaftState (h : load ps.db = ps) (snap : Option Snapshot) (cs : ConfState)
    (hs : HardState) (entries : List Entry) (committed : Bool) :
    load (ps.saveRaftState snap cs hs entries committed).1.db =
      (ps.saveRaftState snap cs hs entries committed).1 := by
  unfold saveRaftState
  dsimp only
  split
  · exact h
  · cases committed with
    | false => exact h
    | true => exact load_appended (load_installed h cs _) hs entries

theorem saveRaftState_spec {snap : Option Snapshot} {cs : ConfState} {hs : HardState}
    {entries : List Entry} {committed : Bool}
    (h : (ps.saveRaftState snap cs hs entries committed).2 = none) :
    (ps.saveRaftState snap cs hs entries committed).1.snapshot =
        (snap.filter (·.index ≠ 0)).or ps.snapshot ∧
      (ps.saveRaftState snap cs hs entries committed).1.db.confState =
        some ((snap.filter (·.index ≠ 0)).elim cs Snapshot.confState) := by
  unfold saveRaftState at h ⊢
  dsimp only at h ⊢
  split at h
  · cases h
  · rw [if_neg ‹_›]
    cases committed with
    | false => cases h
    | true =>
      rw [if_pos rfl]
      cases snap.filter (·.index ≠ 0) with
      | none => exact ⟨rfl, rfl⟩
      | some s => exact ⟨rfl, rfl⟩

theorem createSnapshot_spec {index : ℕ} {cs : ConfState} {data : SnapshotID} {committed : Bool}
    (h : (ps.createSnapshot index cs data committed).2 = none) :
    ps.snapIndex < index ∧ ∃ term,
      (ps.createSnapshot index cs data committed).1.snapshot = some ⟨index, term, cs, data⟩ := by
  unfold createSnapshot at h ⊢
  by_cases holder : index ≤ ps.snapIndex
  · rw [if_pos holder] at h
    cases h
  rw [if_neg holder] at h ⊢
  refine ⟨Nat.not_le.mp holder, ?_⟩
  by_cases hbeyond : ps.lastIndex < index
  · rw [if_pos hbeyond] at h
    cases h
  rw [if_neg hbeyond] at h ⊢
  cases hterm : ps.term index with
  | error e =>
    rw [hterm] at h
    cases h
  | ok term =>
    rw [hterm] at h
    cases committed with
    | false => cases h
    | true => exact ⟨term, rfl⟩

@[simp] theorem snapshot_compact (compactIndex : ℕ) (committed : Bool) :
    (ps.compact compactIndex committed).1.snapshot = ps.snapshot := by
  unfold compact
  split
  · rfl
  split
  · rfl
  split <;> rfl

/-- The storage after a run of operations that starts with an empty directory. -/
def run (ops : List StorageOp) : PebbleStorage :=
  ops.foldl (fun ps op => (ps.apply op).1) (load Disk.empty)

end PebbleStorage

end Antfly.Raft
