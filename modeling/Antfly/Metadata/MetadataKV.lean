import Antfly.Bytes
import Antfly.Lib.Gathered

/-!
`metadataKV` keeps the metadata of the cluster.  `ReadCommits` hands it the operations of a commit
one by one, which it gathers, and flushes it at the end of the commit: the flush applies all writes
and then all deletes as one batch, and notifies the proposers of the operations.  A flush with
nothing to apply returns at once.  A flush that fails stops the process.
-/

namespace Antfly.Metadata

open OrdMap

inductive KVError where
  /-- `unsupported operation: Op(n)`. -/
  | unsupported (op : ℕ)
  /-- `could not apply batch: ...`. -/
  | apply (reason : Bytes)
  deriving DecidableEq

/-- The only operation there is. -/
def opBatch : ℕ := 0

structure LeaderOp where
  op : ℕ
  batch : KeyOp Bytes Bytes
  uuid : Bytes
  deriving DecidableEq

/-- A notification, with the number of the commit in which it was sent. -/
structure Notification where
  uuid : Bytes
  commit : ℕ
  outcome : Option KVError
  deriving DecidableEq

/-- The callbacks of the proposers that wait, and what has been sent to them. -/
structure Proposer where
  waiting : List Bytes
  notified : List Notification
  deriving DecidableEq

/-- `NotifyCommit`: the callback is loaded and deleted. -/
def Proposer.notifyCommit (p : Proposer) (commit : ℕ) (err : Option KVError) (id : Bytes) :
    Proposer :=
  if id ∈ p.waiting then
    { waiting := p.waiting.filter fun x => x ≠ id
      notified := p.notified ++ [⟨id, commit, err⟩] }
  else p

def Proposer.notifyAll (p : Proposer) (commit : ℕ) (err : Option KVError) (ids : List Bytes) :
    Proposer :=
  ids.foldl (fun p id => p.notifyCommit commit err id) p

structure MetadataKV where
  pdb : OrdMap Bytes Bytes
  proposer : Proposer
  pendingWrites : List (Bytes × Bytes)
  pendingDeletes : List Bytes
  pendingUUIDs : List Bytes

namespace MetadataKV

/-- `Apply`; data that does not decode is skipped. -/
def apply (commit : ℕ) (s : MetadataKV) : Option LeaderOp → MetadataKV
  | none => s
  | some op =>
    if op.op = opBatch then
      { s with
        pendingWrites := s.pendingWrites ++ op.batch.writes
        pendingDeletes := s.pendingDeletes ++ op.batch.deletes
        pendingUUIDs := s.pendingUUIDs ++ [op.uuid] }
    else
      { s with
        proposer := s.proposer.notifyCommit commit (some (.unsupported op.op)) op.uuid }

/-- `applyBatch`, when the database does not fail. -/
def applyBatch (pdb : OrdMap Bytes Bytes) (writes : List (Bytes × Bytes)) (deletes : List Bytes) :
    OrdMap Bytes Bytes :=
  pdb.applyAll (KeyOp.edits ⟨writes, deletes⟩)

/-- `Flush`; `failure` is what the database answers. -/
def flush (commit : ℕ) (failure : Option KVError) (s : MetadataKV) :
    MetadataKV × Option KVError :=
  if s.pendingWrites.isEmpty && s.pendingDeletes.isEmpty then (s, none)
  else
    ({ pdb :=
        match failure with
        | none => applyBatch s.pdb s.pendingWrites s.pendingDeletes
        | some _ => s.pdb
       proposer := s.proposer.notifyAll commit failure s.pendingUUIDs
       pendingWrites := []
       pendingDeletes := []
       pendingUUIDs := [] }, failure)

end MetadataKV

/-- The data of a commit, decoded. -/
abbrev Commit := List (Option LeaderOp)

/-- `ReadCommits`; `failures` says what the database answers in each commit. -/
def readCommits (failures : ℕ → Option KVError) : ℕ → MetadataKV → List Commit → MetadataKV
  | _, s, [] => s
  | n, s, c :: cs =>
    match (c.foldl (MetadataKV.apply n) s).flush n (failures n) with
    | (s', none) => readCommits failures (n + 1) s' cs
    -- The process panics.
    | (s', some _) => s'

def batchOps (c : Commit) : List LeaderOp := (c.filterMap id).filter fun op => op.op = opBatch

def unsupportedOps (c : Commit) : List LeaderOp :=
  (c.filterMap id).filter fun op => op.op ≠ opBatch

/-- Nothing in the commit writes or deletes. -/
def idle (c : Commit) : Bool :=
  (batchOps c).all fun op => op.batch.writes.isEmpty && op.batch.deletes.isEmpty

/-- What the flush of a commit returns. -/
def outcomeOf (failures : ℕ → Option KVError) (n : ℕ) (c : Commit) : Option KVError :=
  if idle c then none else failures n

/-- What is to come of a log: every operation applied alone, and the proposers of a commit told the
outcome of its flush. -/
structure LogState where
  store : OrdMap Bytes Bytes
  proposer : Proposer

def Proposer.notifyUnsupported (p : Proposer) (n : ℕ) (ops : List LeaderOp) : Proposer :=
  ops.foldl (fun p op => p.notifyCommit n (some (.unsupported op.op)) op.uuid) p

def applyCommit (n : ℕ) (outcome : Option KVError) (t : LogState) (c : Commit) : LogState where
  store :=
    match outcome with
    | none => (batchOps c).foldl (fun m op => m.applyAll op.batch.edits) t.store
    | some _ => t.store
  proposer :=
    (t.proposer.notifyUnsupported n (unsupportedOps c)).notifyAll n outcome
      ((batchOps c).map LeaderOp.uuid)

def applyLog (failures : ℕ → Option KVError) : ℕ → LogState → List Commit → LogState
  | _, t, [] => t
  | n, t, c :: cs =>
    match outcomeOf failures n c with
    | none => applyLog failures (n + 1) (applyCommit n none t c) cs
    | some err => applyCommit n (some err) t c

/-- The commits before the first flush that fails. -/
def flushed (failures : ℕ → Option KVError) : ℕ → List Commit → List Commit
  | _, [] => []
  | n, c :: cs =>
    match outcomeOf failures n c with
    | none => c :: flushed failures (n + 1) cs
    | some _ => []

/-- No key is written after it was deleted in the last commit that touches it. -/
def NoneRewritten (commits : List Commit) : Prop :=
  ∀ k, ¬LastRewrites (commits.map fun c => (batchOps c).map LeaderOp.batch) k

/-- No proposer waits for an operation of a commit in which nothing is written or deleted. -/
def NoneSkipped : List Bytes → List Commit → Prop
  | _, [] => True
  | waiting, c :: cs =>
    (idle c = true → ∀ op ∈ batchOps c, op.uuid ∈ waiting →
      op.uuid ∈ (unsupportedOps c).map LeaderOp.uuid) ∧
    NoneSkipped (waiting.filter fun x => x ∉ (c.filterMap id).map LeaderOp.uuid) cs

end Antfly.Metadata
