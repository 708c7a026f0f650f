import Antfly.Join.BufferSpilling
import Antfly.Join.TableSpilling

/-!
Both structures of a join that spill share the memory manager's defects: nothing is allocated for a
row that is kept, and a partition has one file that the last spill wrote.
-/

namespace Antfly.Join

/-- Lookups are exact in every state of a run if and only if every insert that comes under pressure
finds an empty table or fails, the rows of a buffer if and only if it spills at most once, rows that
are read back as they were, and can be read again; and the usage is right only as long as no row is
inserted or appended. -/
theorem spilling_exact_iff (reread : Row → Option Row) (partitionID : Bytes) (maxRows : ℕ)
    (m : MemoryManager) (tableOps : List TableOp) (bufferOps : List BufferOp) :
    ((∀ first, first <+: tableOps →
          ((TableRun.start partitionID m).run reread first).LookupsExact) ↔
        ∀ first key row, first ++ [.insert key row] <+: tableOps →
          ((TableRun.start partitionID m).run reread first).InsertKeeps reread) ∧
      ((∀ first, first <+: bufferOps →
          ((BufferRun.start partitionID maxRows m).run reread first).RowsExact) ↔
        (∀ first, first <+: bufferOps →
            ((BufferRun.start partitionID maxRows m).run reread first).MemoryLeft) ∧
          ∀ first row, first ++ [.append row] <+: bufferOps →
            ((BufferRun.start partitionID maxRows m).run reread first).AppendKeeps reread row) ∧
      ((∀ first, first <+: tableOps →
          ((TableRun.start partitionID m).run reread first).Accounted) ↔
        ∀ key row, .insert key row ∉ tableOps) ∧
      ((∀ first, first <+: bufferOps →
          ((BufferRun.start partitionID maxRows m).run reread first).Accounted) ↔
        ∀ row, .append row ∉ bufferOps) :=
  ⟨TableRun.lookupsExact_run_iff partitionID m tableOps,
    BufferRun.rowsExact_run_iff partitionID maxRows m bufferOps,
    TableRun.accounted_run_iff partitionID m tableOps,
    BufferRun.accounted_run_iff partitionID maxRows m bufferOps⟩

/-- A manager of which nothing is used yet. -/
def freshManager : MemoryManager where
  maxMemory := 10000
  spillThreshold := 500
  currentUsage := 0
  files := fun _ => []
  spilledPartitions := fun _ => false

def firstRow : Row where
  id := [97]
  fields := []
  score := 0

def secondRow : Row where
  id := [98]
  fields := []
  score := 0

/-- A row, pressure, and another row. -/
def pressedInserts : List TableOp :=
  [.insert (.str [97]) firstRow, .allocate 1000, .insert (.str [98]) secondRow, .release 1000]

def pressedAppends : List BufferOp := [.allocate 1000, .append firstRow, .append secondRow]

/-- The first row is lost to lookups and to the buffer, and when the others have released their
memory the usage is negative. -/
theorem spilling_loses_rows :
    ¬ ((TableRun.start [] freshManager).run some pressedInserts).LookupsExact ∧
      ¬ ((BufferRun.start [] 1 freshManager).run some pressedAppends).RowsExact ∧
      ((TableRun.start [] freshManager).run some pressedInserts).others = 0 ∧
      ((TableRun.start [] freshManager).run some pressedInserts).manager.currentUsage = -200 := by
  refine ⟨fun h => ?_, fun h => ?_, rfl, rfl⟩
  · have hlookup : Except.ok (ε := SpillError) [] = .ok [firstRow] := h (.str [97])
    exact absurd (congrArg List.length (Except.ok.inj hlookup)) (by decide)
  · have hrows : Except.ok (ε := SpillError) [secondRow] = .ok [firstRow, secondRow] := h
    exact absurd (congrArg List.length (Except.ok.inj hrows)) (by decide)

end Antfly.Join
