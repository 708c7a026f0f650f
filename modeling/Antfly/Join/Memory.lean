import Antfly.Join.Values
import Mathlib.Algebra.Order.Ring.Int

/-!
Join operations ask a memory manager for memory and write rows to one file for each partition when
the usage is above a threshold.  A hash table and a row buffer spill their rows so.  The manager
takes every row for 200 bytes.

`reread` is what encoding a row as JSON and decoding it again gives; it is `none` for a row that
cannot be encoded.
-/

namespace Antfly.Join

structure MemoryManager where
  maxMemory : ℤ
  spillThreshold : ℤ
  currentUsage : ℤ
  /-- The rows in the file of each partition. -/
  files : Bytes → List Row
  /-- The partitions whose spill is recorded. -/
  spilledPartitions : Bytes → Bool

inductive SpillError where
  | encodingRow
  | partitionNotFound (partitionID : Bytes)
  | insufficientMemory
  deriving DecidableEq

def estimatedSize (rows : List Row) : ℤ := rows.length * 200

namespace MemoryManager

def allocate (m : MemoryManager) (bytes : ℤ) : Option MemoryManager :=
  if m.currentUsage + bytes > m.maxMemory then none
  else some { m with currentUsage := m.currentUsage + bytes }

def release (m : MemoryManager) (bytes : ℤ) : MemoryManager :=
  { m with currentUsage := m.currentUsage - bytes }

def shouldSpill (m : MemoryManager) : Bool := decide (m.currentUsage > m.spillThreshold)

end MemoryManager

section Spill

variable (reread : Row → Option Row)

/-- What is written of the rows, and whether all of them are. -/
def encodeRows : List Row → List Row × Bool
  | [] => ([], true)
  | row :: rows =>
    match reread row with
    | none => ([], false)
    | some written => (written :: (encodeRows rows).1, (encodeRows rows).2)

/-- The file is made anew; the spill is recorded and the memory released if all rows are written. -/
def MemoryManager.spillRows (m : MemoryManager) (partitionID : Bytes) (rows : List Row) :
    Option SpillError × MemoryManager :=
  let m := { m with files := Function.update m.files partitionID (encodeRows reread rows).1 }
  if (encodeRows reread rows).2 then
    (none, MemoryManager.release
      { m with spilledPartitions := Function.update m.spilledPartitions partitionID true }
      (estimatedSize rows))
  else (some .encodingRow, m)

def MemoryManager.readSpilledRows (m : MemoryManager) (partitionID : Bytes) :
    Except SpillError (List Row × MemoryManager) :=
  if !m.spilledPartitions partitionID then .error (.partitionNotFound partitionID)
  else
    match m.allocate (estimatedSize (m.files partitionID)) with
    | none => .error .insufficientMemory
    | some m' => .ok (m.files partitionID, m')

structure SpillableHashTable where
  data : List (HashKey × List Row)
  partitionID : Bytes
  spilled : Bool

def newSpillableHashTable (partitionID : Bytes) : SpillableHashTable where
  data := []
  partitionID := partitionID
  spilled := false

def lookupRows (data : List (HashKey × List Row)) (key : HashKey) : List Row :=
  ((data.find? fun entry => entry.1 = key).map Prod.snd).getD []

/-- `data[key] = append(data[key], row)`. -/
def appendRow : List (HashKey × List Row) → HashKey → Row → List (HashKey × List Row)
  | [], key, row => [(key, [row])]
  | entry :: data, key, row =>
    if entry.1 = key then (key, entry.2 ++ [row]) :: data
    else entry :: appendRow data key row

/-- All rows of the table; Go takes the keys in any order. -/
def allRows (data : List (HashKey × List Row)) : List Row := data.flatMap Prod.snd

namespace SpillableHashTable

def spillToDisk (h : SpillableHashTable) (m : MemoryManager) :
    Option SpillError × SpillableHashTable × MemoryManager :=
  match m.spillRows reread h.partitionID (allRows h.data) with
  | (some err, m) => (some err, h, m)
  | (none, m) => (none, { h with data := [], spilled := true }, m)

def insert (h : SpillableHashTable) (m : MemoryManager) (key : HashKey) (row : Row) :
    Option SpillError × SpillableHashTable × MemoryManager :=
  let (err, h, m) := if m.shouldSpill && !h.spilled then h.spillToDisk reread m else (none, h, m)
  match err with
  | some err => (some err, h, m)
  | none => (none, { h with data := appendRow h.data key row, spilled := false }, m)

/-- Rows that are read back are found under their ids. -/
def lookup (h : SpillableHashTable) (m : MemoryManager) (key : HashKey) :
    Except SpillError (List Row) × SpillableHashTable × MemoryManager :=
  if h.spilled then
    match m.readSpilledRows h.partitionID with
    | .error err => (.error err, h, m)
    | .ok (rows, m) =>
      let data := rows.foldl (fun data row => appendRow data (.str row.id) row) []
      (.ok (lookupRows data key), { h with data := data, spilled := false }, m)
  else (.ok (lookupRows h.data key), h, m)

end SpillableHashTable

structure RowBuffer where
  rows : List Row
  partitionID : Bytes
  spilled : Bool
  maxRows : ℕ

def newRowBuffer (partitionID : Bytes) (maxRows : ℕ) : RowBuffer where
  rows := []
  partitionID := partitionID
  spilled := false
  maxRows := maxRows

namespace RowBuffer

def spillToDisk (b : RowBuffer) (m : MemoryManager) :
    Option SpillError × RowBuffer × MemoryManager :=
  if b.rows.isEmpty then (none, b, m)
  else
    match m.spillRows reread b.partitionID b.rows with
    | (some err, m) => (some err, b, m)
    | (none, m) => (none, { b with rows := [], spilled := true }, m)

def append (b : RowBuffer) (m : MemoryManager) (row : Row) :
    Option SpillError × RowBuffer × MemoryManager :=
  let b := { b with rows := b.rows ++ [row] }
  if decide (b.maxRows ≤ b.rows.length) && m.shouldSpill then b.spillToDisk reread m
  else (none, b, m)

def getRows (b : RowBuffer) (m : MemoryManager) : Except SpillError (List Row) × MemoryManager :=
  if !b.spilled then (.ok b.rows, m)
  else
    match m.readSpilledRows b.partitionID with
    | .error err => (.error err, m)
    | .ok (spilledRows, m) => (.ok (spilledRows ++ b.rows), m)

end RowBuffer

end Spill

end Antfly.Join
