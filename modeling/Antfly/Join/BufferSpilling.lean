import Antfly.Join.Memory

/-!
A buffer keeps one file, which every spill writes anew, and reads it back at every call for its
rows.  So the rows stay exact if and only if the buffer spills once, rows that are read back as they
were, and the manager has the memory to read them every time.
-/

namespace Antfly.Join

open List

/-- A call of the buffer, or one that others make to the memory manager. -/
inductive BufferOp where
  | append (row : Row)
  | getRows
  | allocate (bytes : ℤ)
  | release (bytes : ℤ)

/-- A buffer and its manager, the rows of all appends, and what others use. -/
structure BufferRun where
  buffer : RowBuffer
  manager : MemoryManager
  appended : List Row
  others : ℤ

def BufferRun.start (partitionID : Bytes) (maxRows : ℕ) (m : MemoryManager) : BufferRun where
  buffer := newRowBuffer partitionID maxRows
  manager := m
  appended := []
  others := m.currentUsage

def BufferRun.file (r : BufferRun) : List Row := r.manager.files r.buffer.partitionID

section Run

variable (reread : Row → Option Row)

/-- An append puts its row in the buffer, also when the spill fails. -/
def BufferRun.step (r : BufferRun) : BufferOp → BufferRun
  | .append row =>
    { r with
      buffer := (r.buffer.append reread r.manager row).2.1
      manager := (r.buffer.append reread r.manager row).2.2
      appended := r.appended ++ [row] }
  | .getRows => { r with manager := (r.buffer.getRows r.manager).2 }
  | .allocate bytes =>
    match r.manager.allocate bytes with
    | some manager => { r with manager := manager, others := r.others + bytes }
    | none => r
  | .release bytes =>
    { r with manager := r.manager.release bytes, others := r.others - bytes }

def BufferRun.run (ops : List BufferOp) (r : BufferRun) : BufferRun := ops.foldl (step reread) r

/-- The buffer gives the appended rows, in order. -/
def BufferRun.RowsExact (r : BufferRun) : Prop :=
  (r.buffer.getRows r.manager).1 = .ok r.appended

/-- What was spilled can be read. -/
def BufferRun.MemoryLeft (r : BufferRun) : Prop :=
  r.buffer.spilled = true →
    r.manager.currentUsage + estimatedSize r.file ≤ r.manager.maxMemory

/-- An append that spills is the first one to do so and its rows are read back as they were, or it
fails and leaves in the file what it held. -/
def BufferRun.AppendKeeps (r : BufferRun) (row : Row) : Prop :=
  r.buffer.maxRows ≤ r.buffer.rows.length + 1 → r.manager.shouldSpill = true →
    ((encodeRows reread (r.buffer.rows ++ [row])).2 = true →
        r.buffer.spilled = false ∧
          (encodeRows reread (r.buffer.rows ++ [row])).1 = r.buffer.rows ++ [row]) ∧
      ((encodeRows reread (r.buffer.rows ++ [row])).2 = false → r.buffer.spilled = true →
        (encodeRows reread (r.buffer.rows ++ [row])).1 = r.file)

/-- The usage is what others use and the rows in the buffer, and not negative unless theirs is. -/
def BufferRun.Accounted (r : BufferRun) : Prop :=
  r.manager.currentUsage = r.others + estimatedSize r.buffer.rows ∧
    (0 ≤ r.others → 0 ≤ r.manager.currentUsage)

end Run

section Step

variable {reread : Row → Option Row} {r : BufferRun}

/-- What was spilled is recorded. -/
def BufferRun.Recorded (r : BufferRun) : Prop :=
  r.buffer.spilled = true → r.manager.spilledPartitions r.buffer.partitionID = true

/-- The rows of the file, if it is in use, and those in memory. -/
def BufferRun.contents (r : BufferRun) : List Row :=
  (if r.buffer.spilled then r.file else []) ++ r.buffer.rows

theorem readSpilledRows_eq {m : MemoryManager} {partitionID : Bytes}
    (h : m.spilledPartitions partitionID = true) :
    m.readSpilledRows partitionID =
      if m.currentUsage + estimatedSize (m.files partitionID) ≤ m.maxMemory then
        .ok (m.files partitionID, { m with
          currentUsage := m.currentUsage + estimatedSize (m.files partitionID) })
      else .error .insufficientMemory := by
  unfold MemoryManager.readSpilledRows MemoryManager.allocate
  rw [h, Bool.not_true, if_neg Bool.false_ne_true]
  by_cases hmemory : m.currentUsage + estimatedSize (m.files partitionID) ≤ m.maxMemory
  · rw [if_neg (not_lt.mpr hmemory), if_pos hmemory]
  · rw [if_pos (not_le.mp hmemory), if_neg hmemory]

theorem getRows_manager (b : RowBuffer) (m : MemoryManager) :
    (b.getRows m).2.files = m.files ∧
      (b.getRows m).2.spilledPartitions = m.spilledPartitions := by
  unfold RowBuffer.getRows
  cases b.spilled with
  | false => exact ⟨rfl, rfl⟩
  | true =>
    cases hrecorded : m.spilledPartitions b.partitionID with
    | false =>
      unfold MemoryManager.readSpilledRows
      rw [hrecorded]
      exact ⟨rfl, rfl⟩
    | true =>
      rw [readSpilledRows_eq hrecorded]
      by_cases hmemory :
          m.currentUsage + estimatedSize (m.files b.partitionID) ≤ m.maxMemory
      · rw [if_pos hmemory]
        exact ⟨rfl, rfl⟩
      · rw [if_neg hmemory]
        exact ⟨rfl, rfl⟩

theorem BufferRun.rowsExact_iff (h : r.Recorded) :
    r.RowsExact ↔ r.MemoryLeft ∧ r.contents = r.appended := by
  unfold RowsExact MemoryLeft contents RowBuffer.getRows
  cases hspilled : r.buffer.spilled with
  | false => simp
  | true =>
    rw [readSpilledRows_eq (h hspilled)]
    by_cases hmemory : r.manager.currentUsage + estimatedSize r.file ≤ r.manager.maxMemory
    · have hread := hmemory
      unfold file at hread
      simp [hread, file]
    · have hread := hmemory
      unfold file at hread
      simp [hread, hmemory]

variable (reread) in
theorem BufferRun.append_cases (r : BufferRun) (row : Row) :
    let r' := r.step reread (.append row)
    let rows := r.buffer.rows ++ [row]
    r'.appended = r.appended ++ [row] ∧ r'.others = r.others ∧
      r'.buffer.partitionID = r.buffer.partitionID ∧
      ((¬ (r.buffer.maxRows ≤ r.buffer.rows.length + 1 ∧ r.manager.shouldSpill = true) ∧
          r'.buffer.rows = rows ∧ r'.buffer.spilled = r.buffer.spilled ∧
          r'.manager = r.manager) ∨
        ((r.buffer.maxRows ≤ r.buffer.rows.length + 1 ∧ r.manager.shouldSpill = true) ∧
          (encodeRows reread rows).2 = true ∧ r'.buffer.rows = [] ∧ r'.buffer.spilled = true ∧
          r'.file = (encodeRows reread rows).1 ∧
          r'.manager.spilledPartitions r.buffer.partitionID = true ∧
          r'.manager.currentUsage = r.manager.currentUsage - estimatedSize rows) ∨
        ((r.buffer.maxRows ≤ r.buffer.rows.length + 1 ∧ r.manager.shouldSpill = true) ∧
          (encodeRows reread rows).2 = false ∧ r'.buffer.rows = rows ∧
          r'.buffer.spilled = r.buffer.spilled ∧ r'.file = (encodeRows reread rows).1 ∧
          r'.manager.spilledPartitions = r.manager.spilledPartitions ∧
          r'.manager.currentUsage = r.manager.currentUsage)) := by
  dsimp only
  by_cases hspill : r.buffer.maxRows ≤ r.buffer.rows.length + 1 ∧ r.manager.shouldSpill = true
  · cases hencode : (encodeRows reread (r.buffer.rows ++ [row])).2 <;>
      simp [step, RowBuffer.append, RowBuffer.spillToDisk, MemoryManager.spillRows, hspill,
        hencode, file, MemoryManager.release]
  · have hcond : (decide (r.buffer.maxRows ≤ (r.buffer.rows ++ [row]).length) &&
        r.manager.shouldSpill) = false := by
      rw [length_append, length_singleton]
      simpa using hspill
    unfold step RowBuffer.append
    simp only [hcond]
    simp [hspill]

variable (reread) in
theorem BufferRun.other_cases (r : BufferRun) {op : BufferOp} (hop : ∀ row, op ≠ .append row) :
    let r' := r.step reread op
    r'.buffer = r.buffer ∧ r'.appended = r.appended ∧ r'.manager.files = r.manager.files ∧
      r'.manager.spilledPartitions = r.manager.spilledPartitions ∧
      (r.buffer.spilled = false → r'.manager.currentUsage - r'.others =
        r.manager.currentUsage - r.others) := by
  cases op with
  | append row => exact absurd rfl (hop row)
  | getRows =>
    obtain ⟨hfiles, hrecorded⟩ := getRows_manager r.buffer r.manager
    refine ⟨rfl, rfl, hfiles, hrecorded, fun hspilled => ?_⟩
    dsimp only [step]
    unfold RowBuffer.getRows
    rw [hspilled]
    rfl
  | allocate bytes =>
    dsimp only [step]
    unfold MemoryManager.allocate
    split
    · next manager hmanager =>
        split at hmanager
        · cases hmanager
        · obtain rfl := Option.some.inj hmanager
          refine ⟨rfl, rfl, rfl, rfl, fun _ => ?_⟩
          dsimp only
          omega
    · exact ⟨rfl, rfl, rfl, rfl, fun _ => rfl⟩
  | release bytes =>
    refine ⟨rfl, rfl, rfl, rfl, fun _ => ?_⟩
    dsimp only [step, MemoryManager.release]
    omega

theorem BufferRun.Recorded.step (h : r.Recorded) (op : BufferOp) :
    (r.step reread op).Recorded := by
  by_cases hop : ∃ row, op = .append row
  · obtain ⟨row, rfl⟩ := hop
    obtain ⟨-, -, hid, hcases⟩ := r.append_cases reread row
    unfold Recorded
    rw [hid]
    rcases hcases with ⟨-, -, hspilled, hmanager⟩ | ⟨-, -, -, -, -, hrecorded, -⟩ |
      ⟨-, -, -, hspilled, -, hrecorded, -⟩
    · rw [hspilled, hmanager]
      exact h
    · exact fun _ => hrecorded
    · rw [hspilled, hrecorded]
      exact h
  · obtain ⟨hbuffer, -, -, hrecorded, -⟩ :=
      r.other_cases reread fun row heq => hop ⟨row, heq⟩
    unfold Recorded
    rw [hbuffer, hrecorded]
    exact h

/-- The buffer holds the appended rows, and a file in use is not empty. -/
structure BufferRun.Kept (r : BufferRun) : Prop where
  contents : r.contents = r.appended
  file : r.buffer.spilled = true → r.file ≠ []

theorem encodeRows_length (rows : List Row) (h : (encodeRows reread rows).2 = true) :
    (encodeRows reread rows).1.length = rows.length := by
  induction rows with
  | nil => rfl
  | cons row rows ih =>
    unfold encodeRows at h ⊢
    split at h
    · cases h
    · exact congrArg (· + 1) (ih h)

theorem BufferRun.Kept.append_iff (h : r.Kept) (row : Row) :
    (r.step reread (.append row)).contents = (r.step reread (.append row)).appended ↔
      r.AppendKeeps reread row := by
  obtain ⟨happended, -, hid, hcases⟩ := r.append_cases reread row
  have hcontents := h.contents
  unfold BufferRun.contents at hcontents
  unfold BufferRun.contents AppendKeeps
  rw [happended, ← hcontents]
  rcases hcases with ⟨hnot, hrows, hspilled, hmanager⟩ |
    ⟨⟨hlen, hpressure⟩, hencode, hrows, hspilled, hfile, -, -⟩ |
    ⟨⟨hlen, hpressure⟩, hencode, hrows, hspilled, hfile, -, -⟩
  · refine iff_of_true ?_ fun hlen hpressure => absurd ⟨hlen, hpressure⟩ hnot
    have hsame : (r.step reread (.append row)).file = r.file := by
      unfold BufferRun.file
      rw [hid, hmanager]
    rw [hrows, hspilled, hsame, append_assoc]
  · rw [hrows, hspilled, if_pos rfl, hfile, append_nil]
    have hlength := encodeRows_length _ hencode
    constructor
    · intro heq _ _
      refine ⟨fun _ => ?_, fun hfailed => absurd (hencode.symm.trans hfailed) (by decide)⟩
      cases hbefore : r.buffer.spilled with
      | false =>
        rw [hbefore, if_neg Bool.false_ne_true, nil_append] at heq
        exact ⟨rfl, heq⟩
      | true =>
        -- The rows of the file are lost.
        have hpos := length_pos_of_ne_nil (h.file hbefore)
        rw [hbefore, if_pos rfl] at heq
        rw [heq] at hlength
        simp only [length_append, length_singleton] at hlength
        omega
    · intro hkeeps
      obtain ⟨hbefore, hsame⟩ := (hkeeps hlen hpressure).1 hencode
      rw [hsame, hbefore, if_neg Bool.false_ne_true, nil_append]
  · rw [hrows, hspilled, hfile, ← append_assoc, append_cancel_right_eq]
    cases hbefore : r.buffer.spilled with
    | false =>
      refine iff_of_true rfl fun _ _ => ⟨fun hdone => ?_, fun _ hspilled => by cases hspilled⟩
      exact absurd (hencode.symm.trans hdone) (by decide)
    | true =>
      rw [if_pos rfl, if_pos rfl, append_cancel_right_eq]
      constructor
      · intro heq _ _
        exact ⟨fun hdone => absurd (hencode.symm.trans hdone) (by decide), fun _ _ => heq⟩
      · intro hkeeps
        exact (hkeeps hlen hpressure).2 hencode rfl

theorem BufferRun.Kept.append (h : r.Kept) {row : Row} (hkeeps : r.AppendKeeps reread row) :
    (r.step reread (.append row)).Kept := by
  refine ⟨(h.append_iff row).mpr hkeeps, ?_⟩
  obtain ⟨-, -, hid, hcases⟩ := r.append_cases reread row
  rcases hcases with ⟨-, -, hspilled, hmanager⟩ |
    ⟨⟨hlen, hpressure⟩, hencode, -, -, hfile, -, -⟩ |
    ⟨⟨hlen, hpressure⟩, hencode, -, hspilled, hfile, -, -⟩
  · have hsame : (r.step reread (.append row)).file = r.file := by
      unfold BufferRun.file
      rw [hid, hmanager]
    rw [hspilled, hsame]
    exact h.file
  · intro _
    rw [hfile, ((hkeeps hlen hpressure).1 hencode).2]
    exact append_ne_nil_of_right_ne_nil _ (cons_ne_nil _ _)
  · rw [hspilled, hfile]
    intro hbefore
    rw [(hkeeps hlen hpressure).2 hencode hbefore]
    exact h.file hbefore

theorem BufferRun.Kept.other (h : r.Kept) {op : BufferOp} (hop : ∀ row, op ≠ .append row) :
    (r.step reread op).Kept := by
  obtain ⟨hbuffer, happended, hfiles, -, -⟩ := r.other_cases reread hop
  have hsame : (r.step reread op).file = r.file := by
    unfold BufferRun.file
    rw [hbuffer, hfiles]
  refine ⟨?_, ?_⟩
  · have hcontents := h.contents
    unfold BufferRun.contents at hcontents ⊢
    rw [hbuffer, hsame, happended]
    exact hcontents
  · rw [hbuffer, hsame]
    exact h.file

end Step

section Runs

variable {reread : Row → Option Row}

theorem BufferRun.run_append_singleton (ops : List BufferOp) (op : BufferOp) (r : BufferRun) :
    r.run reread (ops ++ [op]) = (r.run reread ops).step reread op := by
  unfold run
  rw [foldl_append]
  rfl

theorem BufferRun.recorded_run (partitionID : Bytes) (maxRows : ℕ) (m : MemoryManager)
    (ops : List BufferOp) : ((start partitionID maxRows m).run reread ops).Recorded := by
  induction ops using List.reverseRecOn with
  | nil => exact fun h => by cases h
  | append_singleton ops op ih =>
    rw [run_append_singleton]
    exact ih.step op

/-- The rows are exact in every state of a run if and only if every append keeps them and there is
always the memory to read what was spilled. -/
theorem BufferRun.rowsExact_run_iff (partitionID : Bytes) (maxRows : ℕ) (m : MemoryManager)
    (ops : List BufferOp) :
    (∀ first, first <+: ops → ((start partitionID maxRows m).run reread first).RowsExact) ↔
      (∀ first, first <+: ops → ((start partitionID maxRows m).run reread first).MemoryLeft) ∧
        ∀ first row, first ++ [.append row] <+: ops →
          ((start partitionID maxRows m).run reread first).AppendKeeps reread row := by
  have hexact := fun first =>
    rowsExact_iff (@recorded_run reread partitionID maxRows m first)
  have hstart : (start partitionID maxRows m).Kept := ⟨rfl, fun h => by cases h⟩
  constructor
  · intro h
    have hkept : ∀ first, first <+: ops →
        ((start partitionID maxRows m).run reread first).Kept := by
      intro first
      induction first using List.reverseRecOn with
      | nil => exact fun _ => hstart
      | append_singleton first op ih =>
        intro hfirst
        have hbefore := ih ((prefix_append first [op]).trans hfirst)
        have hafter := ((hexact _).mp (h _ hfirst)).2
        rw [run_append_singleton] at hafter ⊢
        by_cases hop : ∃ row, op = .append row
        · obtain ⟨row, rfl⟩ := hop
          exact hbefore.append ((hbefore.append_iff row).mp hafter)
        · exact hbefore.other fun row heq => hop ⟨row, heq⟩
    refine ⟨fun first hfirst => ((hexact first).mp (h first hfirst)).1, fun first row hfirst => ?_⟩
    have hafter := ((hexact _).mp (h _ hfirst)).2
    rw [run_append_singleton] at hafter
    exact ((hkept first ((prefix_append first _).trans hfirst)).append_iff row).mp hafter
  · rintro ⟨hmemory, hkeeps⟩ first hfirst
    refine (hexact first).mpr ⟨hmemory first hfirst, ?_⟩
    suffices hkept : ((start partitionID maxRows m).run reread first).Kept from hkept.contents
    induction first using List.reverseRecOn with
    | nil => exact hstart
    | append_singleton first op ih =>
      have hbefore := ih ((prefix_append first [op]).trans hfirst)
      rw [run_append_singleton]
      by_cases hop : ∃ row, op = .append row
      · obtain ⟨row, rfl⟩ := hop
        exact hbefore.append (hkeeps first row hfirst)
      · exact hbefore.other fun row heq => hop ⟨row, heq⟩

/-- The usage is right in every state of a run if and only if nothing is ever appended. -/
theorem BufferRun.accounted_run_iff (partitionID : Bytes) (maxRows : ℕ) (m : MemoryManager)
    (ops : List BufferOp) :
    (∀ first, first <+: ops → ((start partitionID maxRows m).run reread first).Accounted) ↔
      ∀ row, .append row ∉ ops := by
  -- As long as nothing is appended, others have all the usage.
  have hnone : ∀ first, (∀ row, .append row ∉ first) →
      ((start partitionID maxRows m).run reread first).buffer =
          newRowBuffer partitionID maxRows ∧
        ((start partitionID maxRows m).run reread first).manager.currentUsage =
          ((start partitionID maxRows m).run reread first).others := by
    intro first
    induction first using List.reverseRecOn with
    | nil => exact fun _ => ⟨rfl, rfl⟩
    | append_singleton first op ih =>
      intro hfree
      obtain ⟨hbuffer, husage⟩ := ih fun row hmem => hfree row (mem_append_left _ hmem)
      rw [run_append_singleton]
      have hop : ∀ row, op ≠ .append row := fun row heq =>
        hfree row (heq ▸ mem_append_right _ (mem_singleton_self op))
      obtain ⟨hbuffer', -, -, -, husage'⟩ := other_cases reread _ hop
      refine ⟨hbuffer'.trans hbuffer, ?_⟩
      have hspilled :
          ((start partitionID maxRows m).run reread first).buffer.spilled = false := by
        rw [hbuffer]
        rfl
      have := husage' hspilled
      omega
  constructor
  · intro h
    have hfree : ∀ first, first <+: ops → ∀ row, .append row ∉ first := by
      intro first
      induction first using List.reverseRecOn with
      | nil => exact fun _ _ => not_mem_nil
      | append_singleton first op ih =>
        intro hfirst row hmem
        have hbefore := (prefix_append first [op]).trans hfirst
        have hfree := ih hbefore
        rcases mem_append.mp hmem with hmem | hmem
        · exact hfree row hmem
        · obtain rfl := mem_singleton.mp hmem
          obtain ⟨hbuffer, husage⟩ := hnone first hfree
          have hafter := (h _ hfirst).1
          rw [run_append_singleton] at hafter
          obtain ⟨-, hothers, -, hcases⟩ :=
            ((start partitionID maxRows m).run reread first).append_cases reread row
          rw [hothers] at hafter
          have hrows : ((start partitionID maxRows m).run reread first).buffer.rows = [] := by
            rw [hbuffer]
            rfl
          unfold estimatedSize at hafter
          rcases hcases with ⟨-, hrows', -, hmanager⟩ | ⟨-, -, hrows', -, -, -, husage'⟩ |
            ⟨-, -, hrows', -, -, -, husage'⟩
          · rw [hrows', hmanager, hrows] at hafter
            simp at hafter
            omega
          · rw [hrows', husage', hrows] at hafter
            unfold estimatedSize at hafter
            simp at hafter
            omega
          · rw [hrows', husage', hrows] at hafter
            simp at hafter
            omega
    exact hfree ops (prefix_refl ops)
  · intro hfree first hfirst
    obtain ⟨hbuffer, husage⟩ := hnone first fun row hmem => hfree row (hfirst.subset hmem)
    refine ⟨?_, fun hpos => husage ▸ hpos⟩
    rw [hbuffer, husage]
    exact (Int.add_zero _).symm

end Runs

end Antfly.Join
