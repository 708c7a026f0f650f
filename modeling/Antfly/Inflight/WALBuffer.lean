import Antfly.Lib.OffsetLog
import Antfly.Sparse.MergeOperand
import Mathlib.Algebra.BigOperators.Group.List.Basic
import Mathlib.Algebra.GroupWithZero.Nat
import Mathlib.Algebra.Ring.Int.Defs

/-!
Entries are appended to a log on disk, each with the number of its items as a header.  A dequeue
hands the payloads of the first entries to a merger, executes what was merged and truncates the log
behind them.  How often an entry was part of a failed execution is counted in memory, and an entry
that failed too often is discarded.

The log itself is a library.
-/

namespace Antfly.Inflight

open Sparse (putUint32 getUint32)

/-- What the buffer uses of the log library. -/
structure Wal where
  Log : Type
  new : Log
  reopen : Log → Log
  firstIndex : Log → ℕ
  lastIndex : Log → ℕ
  readMany : Log → ℕ → ℕ → List Bytes
  readManyHeaders : Log → ℕ → ℕ → ℕ → List Bytes
  writeBatch : Log → List (ℕ × Bytes) → Log
  truncateFront : Log → ℕ → Log

/-- A log of the library is a log with a compacted front, numbered from one; a log that never had an
entry has zero as its first and last index. -/
structure LawfulWal extends Wal where
  view : Log → OffsetLog Bytes
  view_new : view new = ⟨0, []⟩
  view_reopen : ∀ log, view (reopen log) = view log
  firstIndex_eq : ∀ log, firstIndex log = if (view log).last = 0 then 0 else (view log).offset + 1
  lastIndex_eq : ∀ log, lastIndex log = (view log).last
  readMany_eq : ∀ log n, readMany log ((view log).offset + 1) n = (view log).entries.take n
  readManyHeaders_eq : ∀ log n size, readManyHeaders log ((view log).offset + 1) n size =
    ((view log).entries.take n).map (List.take size)
  view_writeBatch : ∀ log data,
    view (writeBatch log ((data.zipIdx ((view log).last + 1)).map Prod.swap)) =
      { view log with entries := (view log).entries ++ data }
  view_truncateFront : ∀ log i, (view log).offset < i → i ≤ (view log).last + 1 →
    view (truncateFront log i) = (view log).compact (i - 1)

def itemCountHeaderSize : ℕ := 4

def prependItemCount (count : UInt32) (data : Bytes) : Bytes := putUint32 count ++ data

def stripItemCount (data : Bytes) : Bytes :=
  if data.length ≤ itemCountHeaderSize then data else data.drop itemCountHeaderSize

def readItemCount (header : Bytes) : UInt32 :=
  if header.length < itemCountHeaderSize then 0 else getUint32 header

def emptyFile : Bytes := [0]

structure WALBuffer (W : Wal) where
  log : W.Log
  closed : Bool
  itemCount : ℤ
  attempts : ℕ → ℕ
  maxRetries : ℕ

/-- The merger of one dequeue: whether it takes a payload after those it took before, and whether it
can execute what it took. -/
structure Merger where
  merge : List Bytes → Bytes → Bool
  execute : List Bytes → Bool

/-- What one dequeue did: the indices it read, the payloads it passed to the merger with their
indices, the result of the execution if there was one, and whether it truncated the log. -/
structure Attempt where
  read : List ℕ
  merged : List (ℕ × Bytes)
  executed : Option Bool
  truncated : Bool
  deriving DecidableEq

/-- The state of the loop over the entries that were read. -/
structure MergeLoop where
  attempts : ℕ → ℕ
  merged : List (ℕ × Bytes)
  discarded : List ℕ
  itemsToDeduct : ℤ
  failed : Bool

/-- The payloads of a batch with their item counts; a missing count is zero. -/
def batchEntries (data : List Bytes) (counts : List UInt32) : List (Bytes × UInt32) :=
  data.zipIdx.map fun e => (e.1, counts.getD e.2 0)

def shouldDiscard (maxRetries : ℕ) (attempts : ℕ → ℕ) (index : ℕ) : Bool :=
  if maxRetries = 0 then false else maxRetries ≤ attempts index

def incrementAttempts (attempts : ℕ → ℕ) (index : ℕ) : ℕ → ℕ :=
  Function.update attempts index (attempts index + 1)

def clearAttempts (attempts : ℕ → ℕ) (index : ℕ) : ℕ → ℕ := Function.update attempts index 0

/-- One entry in the loop; after a merge that failed the loop is left. -/
def mergeItem (maxRetries : ℕ) (m : Merger) (l : MergeLoop) (entry : Bytes × ℕ) : MergeLoop :=
  if l.failed then l
  else
    let deduct := l.itemsToDeduct + (readItemCount entry.1).toNat
    let item := stripItemCount entry.1
    if item = emptyFile then { l with itemsToDeduct := deduct }
    else if shouldDiscard maxRetries l.attempts entry.2 then
      { l with
        attempts := clearAttempts l.attempts entry.2
        discarded := l.discarded ++ [entry.2]
        itemsToDeduct := deduct }
    else if m.merge (l.merged.map Prod.snd) item then
      { l with merged := l.merged ++ [(entry.2, item)], itemsToDeduct := deduct }
    else { l with merged := l.merged ++ [(entry.2, item)], failed := true }

namespace WALBuffer

variable {W : Wal}

def len (b : WALBuffer W) : ℕ := b.itemCount.toNat

def recoverItemCount (W : Wal) (log : W.Log) : ℤ :=
  let fi := W.firstIndex log
  let li := W.lastIndex log
  if fi = 0 ∧ li = 0 then 0
  else if li < fi then 0
  else ((W.readManyHeaders log fi (li - fi + 1) itemCountHeaderSize).map
    fun header => ((readItemCount header).toNat : ℤ)).sum

def newWALBuffer (W : Wal) (log : W.Log) (maxRetries : ℕ) : WALBuffer W :=
  { log := log, closed := false, itemCount := recoverItemCount W log, attempts := fun _ => 0
    maxRetries := maxRetries }

/-- The buffer is left as it is when it is closed. -/
def enqueueBatch (b : WALBuffer W) (data : List Bytes) (counts : List UInt32) : WALBuffer W :=
  if b.closed then b
  else
    let entries := batchEntries data counts
    let batch := (entries.map fun e => prependItemCount e.2 e.1).zipIdx (W.lastIndex b.log + 1)
    { b with
      log := W.writeBatch b.log (batch.map Prod.swap)
      itemCount := b.itemCount + (entries.map fun e => (e.2.toNat : ℤ)).sum }

def truncate (b : WALBuffer W) (index : ℕ) (itemsToDeduct : ℤ) : WALBuffer W :=
  { b with log := W.truncateFront b.log index, itemCount := b.itemCount - itemsToDeduct }

/-- Nothing is attempted when the buffer is closed or empty. -/
def dequeue (b : WALBuffer W) (m : Merger) (max : ℕ) : WALBuffer W × Option Attempt :=
  let fi := W.firstIndex b.log
  if b.closed ∨ fi = 0 ∨ W.lastIndex b.log < fi then (b, none)
  else
    let items := (W.readMany b.log fi max).zipIdx fi
    let l := items.foldl (mergeItem b.maxRetries m) ⟨b.attempts, [], [], 0, false⟩
    let b := { b with attempts := l.attempts }
    let read := items.map Prod.snd
    if l.failed then (b, some ⟨read, l.merged, none, false⟩)
    else if l.merged = [] then
      if l.discarded = [] then (b, some ⟨read, [], none, false⟩)
      else (b.truncate (fi + items.length) l.itemsToDeduct, some ⟨read, [], none, true⟩)
    else if m.execute (l.merged.map Prod.snd) then
      let b := { b with attempts := (l.merged.map Prod.fst).foldl clearAttempts b.attempts }
      (b.truncate (fi + items.length) l.itemsToDeduct, some ⟨read, l.merged, some true, true⟩)
    else
      ({ b with attempts := (l.merged.map Prod.fst).foldl incrementAttempts b.attempts },
        some ⟨read, l.merged, some false, false⟩)

end WALBuffer

/-- The buffer with everything that was enqueued and what every dequeue did. -/
structure WalSystem (W : Wal) where
  buffer : WALBuffer W
  enqueued : List (Bytes × UInt32)
  history : List Attempt

inductive WalEvent where
  | enqueueBatch (data : List Bytes) (counts : List UInt32)
  | dequeue (m : Merger) (max : ℕ)
  | close
  | reopen

namespace WalSystem

variable {W : Wal}

def start (W : Wal) (maxRetries : ℕ) : WalSystem W := ⟨.newWALBuffer W W.new maxRetries, [], []⟩

def step (s : WalSystem W) : WalEvent → Option (WalSystem W)
  | .enqueueBatch data counts => some { s with
      buffer := s.buffer.enqueueBatch data counts
      enqueued := if s.buffer.closed then s.enqueued
        else s.enqueued ++ batchEntries data counts }
  | .dequeue m max =>
    let (buffer, attempt) := s.buffer.dequeue m max
    some { s with buffer := buffer, history := s.history ++ attempt.toList }
  | .close => some { s with buffer := { s.buffer with closed := true } }
  | .reopen =>
    if s.buffer.closed then
      some { s with buffer := .newWALBuffer W (W.reopen s.buffer.log) s.buffer.maxRetries }
    else none

end WalSystem

end Antfly.Inflight
