import Antfly.Inflight.WALBuffer
import Antfly.Lib.Runs

/-!
Each entry of the log should reach the merger with the bytes that were enqueued, in order, and leave
the log only when an execution with it succeeded or when it was part of as many failed executions as
are allowed.  The entries are numbered from one in the order in which they were enqueued.
-/

namespace Antfly.Inflight

open List

theorem length_prependItemCount (count : UInt32) (data : Bytes) :
    (prependItemCount count data).length = 4 + data.length := by
  rw [prependItemCount, length_append, Sparse.length_putUint32]

theorem readItemCount_prependItemCount (count : UInt32) (data : Bytes) :
    readItemCount (prependItemCount count data) = count := by
  have hlength : ¬ (prependItemCount count data).length < itemCountHeaderSize := by
    rw [length_prependItemCount, itemCountHeaderSize]
    omega
  rw [readItemCount, if_neg hlength, prependItemCount, Sparse.getUint32_putUint32]

theorem readItemCount_take (count : UInt32) (data : Bytes) :
    readItemCount ((prependItemCount count data).take itemCountHeaderSize) = count := by
  have htake : (prependItemCount count data).take itemCountHeaderSize =
      prependItemCount count [] := by
    rw [prependItemCount, prependItemCount, append_nil]
    exact take_left' (Sparse.length_putUint32 count)
  rw [htake, readItemCount_prependItemCount]

theorem stripItemCount_prependItemCount {data : Bytes} (count : UInt32) (h : data ≠ []) :
    stripItemCount (prependItemCount count data) = data := by
  have hpos := length_pos_iff.mpr h
  have hlength : ¬ (prependItemCount count data).length ≤ itemCountHeaderSize := by
    rw [length_prependItemCount, itemCountHeaderSize]
    omega
  rw [stripItemCount, if_neg hlength, prependItemCount]
  exact drop_left' (Sparse.length_putUint32 count)

def frame (e : Bytes × UInt32) : Bytes := prependItemCount e.2 e.1

/-- The payloads from index `fi` on that have not failed too often, with their indices. -/
def kept (maxRetries : ℕ) (attempts : ℕ → ℕ) (fi : ℕ) (payloads : List Bytes) :
    List (ℕ × Bytes) :=
  ((payloads.zipIdx fi).map Prod.swap).filter fun e => !shouldDiscard maxRetries attempts e.1

/-- The indices from `fi` on that have failed too often. -/
def dropped (maxRetries : ℕ) (attempts : ℕ → ℕ) (fi n : ℕ) : List ℕ :=
  (List.range' fi n).filter fun i => shouldDiscard maxRetries attempts i

/-- The merger takes all the payloads after those it took before. -/
def Merger.Accepts (m : Merger) : List Bytes → List Bytes → Prop
  | _, [] => True
  | prior, payload :: payloads =>
    m.merge prior payload = true ∧ m.Accepts (prior ++ [payload]) payloads

variable {maxRetries fi : ℕ} {a a' : ℕ → ℕ}

theorem shouldDiscard_congr {i : ℕ} (h : a i = a' i) :
    shouldDiscard maxRetries a i = shouldDiscard maxRetries a' i := by
  unfold shouldDiscard
  rw [h]

theorem kept_congr {payloads : List Bytes} (h : ∀ i, fi ≤ i → a i = a' i) :
    kept maxRetries a fi payloads =
      kept maxRetries a' fi payloads := by
  apply filter_congr
  intro e he
  obtain ⟨⟨payload, i⟩, hmem, rfl⟩ := mem_map.mp he
  have hle := le_snd_of_mem_zipIdx hmem
  exact congrArg _ (shouldDiscard_congr (h i hle))

theorem dropped_congr {n : ℕ} (h : ∀ i, fi ≤ i → a i = a' i) :
    dropped maxRetries a fi n = dropped maxRetries a' fi n := by
  apply filter_congr
  intro i hi
  exact shouldDiscard_congr (h i (mem_range'_1.mp hi).1)

theorem foldl_mergeItem {maxRetries : ℕ} {m : Merger} {es : List (Bytes × UInt32)} {fi : ℕ}
    {l : MergeLoop} (hl : l.failed = false) (hproper : ∀ e ∈ es, e.1 ≠ [] ∧ e.1 ≠ emptyFile)
    (haccepts : m.Accepts (l.merged.map Prod.snd)
      ((kept maxRetries l.attempts fi (es.map Prod.fst)).map Prod.snd)) :
    ((es.map frame).zipIdx fi).foldl (mergeItem maxRetries m) l =
      { attempts := (dropped maxRetries l.attempts fi es.length).foldl clearAttempts l.attempts
        merged := l.merged ++ kept maxRetries l.attempts fi (es.map Prod.fst)
        discarded := l.discarded ++ dropped maxRetries l.attempts fi es.length
        itemsToDeduct := l.itemsToDeduct + (es.map fun e => (e.2.toNat : ℤ)).sum
        failed := false } := by
  induction es generalizing fi l with
  | nil =>
    obtain ⟨attempts, merged, discarded, deduct, failed⟩ := l
    cases hl
    simp [kept, dropped]
  | cons e es ih =>
    obtain ⟨payload, count⟩ := e
    obtain ⟨hpayload, hmarker⟩ := hproper (payload, count) (mem_cons_self ..)
    have hrest : ∀ e ∈ es, e.1 ≠ [] ∧ e.1 ≠ emptyFile :=
      fun e he => hproper e (mem_cons_of_mem _ he)
    have hstrip : stripItemCount (frame (payload, count)) = payload :=
      stripItemCount_prependItemCount count hpayload
    have hcount : readItemCount (frame (payload, count)) = count :=
      readItemCount_prependItemCount count payload
    simp only [map_cons, zipIdx_cons, foldl_cons, sum_cons,
      length_cons]
    by_cases hdiscard : shouldDiscard maxRetries l.attempts fi = true
    · have hitem : mergeItem maxRetries m l (frame (payload, count), fi) =
          { l with
            attempts := clearAttempts l.attempts fi
            discarded := l.discarded ++ [fi]
            itemsToDeduct := l.itemsToDeduct + count.toNat } := by
        simp only [mergeItem, hl, hstrip, hcount, if_neg hmarker, hdiscard, Bool.false_eq_true,
          if_false, if_true]
      have hsame : ∀ i, fi + 1 ≤ i → clearAttempts l.attempts fi i = l.attempts i :=
        fun i hi => Function.update_of_ne (by omega) _ _
      have hkept : kept maxRetries l.attempts fi (payload :: es.map Prod.fst) =
          kept maxRetries l.attempts (fi + 1) (es.map Prod.fst) := by
        simp [kept, hdiscard]
      have hdropped : dropped maxRetries l.attempts fi (es.length + 1) =
          fi :: dropped maxRetries l.attempts (fi + 1) es.length := by
        simp [dropped, range'_succ, hdiscard]
      rw [map_cons, hkept] at haccepts
      have hloop := @ih (fi + 1)
        { l with
          attempts := clearAttempts l.attempts fi
          discarded := l.discarded ++ [fi]
          itemsToDeduct := l.itemsToDeduct + count.toNat } hl hrest
        (by rw [kept_congr hsame]; exact haccepts)
      rw [hitem, hloop, kept_congr hsame, dropped_congr hsame, hkept, hdropped]
      simp [add_assoc]
    · rw [Bool.not_eq_true] at hdiscard
      have hkept : kept maxRetries l.attempts fi (payload :: es.map Prod.fst) =
          (fi, payload) :: kept maxRetries l.attempts (fi + 1) (es.map Prod.fst) := by
        simp [kept, hdiscard]
      have hdropped : dropped maxRetries l.attempts fi (es.length + 1) =
          dropped maxRetries l.attempts (fi + 1) es.length := by
        simp [dropped, range'_succ, hdiscard]
      rw [map_cons, hkept] at haccepts
      obtain ⟨hmerge, haccepts⟩ := haccepts
      have hitem : mergeItem maxRetries m l (frame (payload, count), fi) =
          { l with
            merged := l.merged ++ [(fi, payload)]
            itemsToDeduct := l.itemsToDeduct + count.toNat } := by
        simp only [mergeItem, hl, hstrip, hcount, if_neg hmarker, hdiscard, Bool.false_eq_true,
          if_false, hmerge, if_true]
      have hloop := @ih (fi + 1)
        { l with
          merged := l.merged ++ [(fi, payload)]
          itemsToDeduct := l.itemsToDeduct + count.toNat } hl hrest (by simpa using haccepts)
      rw [hitem, hloop, hkept, hdropped]
      simp [add_assoc]

theorem foldl_clearAttempts (is : List ℕ) (a : ℕ → ℕ) (i : ℕ) :
    is.foldl clearAttempts a i = if i ∈ is then 0 else a i := by
  induction is generalizing a with
  | nil => rfl
  | cons j is ih =>
    rw [foldl_cons, ih]
    by_cases hi : i = j
    · subst hi
      simp [clearAttempts]
    · simp [clearAttempts, hi]

theorem foldl_incrementAttempts {is : List ℕ} (h : is.Nodup) (a : ℕ → ℕ) (i : ℕ) :
    is.foldl incrementAttempts a i = if i ∈ is then a i + 1 else a i := by
  induction is generalizing a with
  | nil => rfl
  | cons j is ih =>
    obtain ⟨hnot, hrest⟩ := nodup_cons.mp h
    rw [foldl_cons, ih hrest]
    by_cases hi : i = j
    · subst hi
      simp [incrementAttempts, hnot]
    · simp [incrementAttempts, hi]

/-- The dequeues that read the entry and left it in the log. -/
def stuck (history : List Attempt) (i : ℕ) : ℕ :=
  history.countP fun a => i ∈ a.read ∧ a.truncated = false

/-- The failed executions that the entry was part of. -/
def failures (history : List Attempt) (i : ℕ) : ℕ :=
  history.countP fun a => i ∈ a.merged.map Prod.fst ∧ a.executed = some false

theorem stuck_concat (history : List Attempt) (a : Attempt) (i : ℕ) :
    stuck (history ++ [a]) i =
      stuck history i + if i ∈ a.read ∧ a.truncated = false then 1 else 0 := by
  simp [stuck, countP_append, countP_singleton]

theorem failures_concat (history : List Attempt) (a : Attempt) (i : ℕ) :
    failures (history ++ [a]) i =
      failures history i +
        if i ∈ a.merged.map Prod.fst ∧ a.executed = some false then 1 else 0 := by
  simp only [failures, countP_append, countP_singleton, decide_eq_true_eq]

namespace WalSystem

variable {W : LawfulWal}

/-- How many entries have left the log. -/
def removed (s : WalSystem W.toWal) : ℕ := (W.view s.buffer.log).offset

def remaining (s : WalSystem W.toWal) : List (Bytes × UInt32) := s.enqueued.drop s.removed

/-- The merger got the bytes of each entry, one after the other and none before those in front of
it, and none again after an execution with it succeeded; what left the log was executed or failed as
often as is allowed, the length counts what is left, and no entry is left in the log by more
dequeues than retries are allowed. -/
structure Accounts (s : WalSystem W.toWal) : Prop where
  logged : (W.view s.buffer.log).entries = s.remaining.map frame
  unchanged : ∀ a ∈ s.history, ∀ e ∈ a.merged,
    0 < e.1 ∧ s.enqueued[e.1 - 1]?.map Prod.fst = some e.2
  ordered : ∀ a ∈ s.history, a.merged.Pairwise fun e e' => e.1 < e'.1
  passed : ∀ before a after, s.history = before ++ a :: after → ∀ e ∈ a.merged, ∀ i, 0 < i →
    i < e.1 → ∃ a' ∈ before ++ [a], i ∈ a'.merged.map Prod.fst
  once : ∀ before a after, s.history = before ++ a :: after → a.executed = some true →
    ∀ i ∈ a.merged.map Prod.fst, ∀ a' ∈ after, i ∉ a'.merged.map Prod.fst
  gone : ∀ i, 0 < i → i ≤ s.removed →
    (∃ a ∈ s.history, a.executed = some true ∧ i ∈ a.merged.map Prod.fst) ∨
      0 < s.buffer.maxRetries ∧ s.buffer.maxRetries ≤ failures s.history i
  len : s.buffer.len = (s.remaining.map fun e => e.2.toNat).sum
  unblocked : ∀ i, stuck s.history i ≤ s.buffer.maxRetries

/-- No payload is empty or a single zero byte.  The merger takes every payload it is handed, and
when the execution fails, retries are allowed and no entry was discarded by the same dequeue.  The
buffer is not opened again while an entry has failed. -/
def Meets (s : WalSystem W.toWal) : WalEvent → Prop
  | .enqueueBatch data _ => ∀ payload ∈ data, payload ≠ [] ∧ payload ≠ emptyFile
  | .dequeue m max =>
    let payloads := (s.remaining.take max).map Prod.fst
    let handed := kept s.buffer.maxRetries s.buffer.attempts (s.removed + 1) payloads
    m.Accepts [] (handed.map Prod.snd) ∧ (m.execute (handed.map Prod.snd) = false →
      handed ≠ [] → 0 < s.buffer.maxRetries ∧ handed.length = payloads.length)
  | .close => True
  | .reopen => ∀ i, s.removed < i → i ≤ s.enqueued.length → s.buffer.attempts i = 0

/-- The payloads a dequeue owes the merger: those of the first `max` entries left that have not
failed as often as is allowed, with their numbers. -/
def due (s : WalSystem W.toWal) (max : ℕ) : List (ℕ × Bytes) :=
  ((((s.remaining.take max).map Prod.fst).zipIdx (s.removed + 1)).map Prod.swap).filter fun e =>
    s.buffer.maxRetries = 0 ∨ failures s.history e.1 < s.buffer.maxRetries

/-- A dequeue of an open buffer passes what is due to the merger and executes it.  What it read
leaves the log unless the execution fails. -/
def HandsOver (s : WalSystem W.toWal) (m : Merger) (max : ℕ) : Prop :=
  s.buffer.closed = false → s.remaining ≠ [] → 0 < max → ∃ b executed truncated,
    s.buffer.dequeue m max = (b, some ⟨List.range' (s.removed + 1) (s.remaining.take max).length,
      s.due max, executed, truncated⟩) ∧
    (executed = if s.due max = [] then none else some (m.execute ((s.due max).map Prod.snd))) ∧
    (truncated = true ↔ executed ≠ some false) ∧
    (W.view b.log).offset = s.removed + if truncated then (s.remaining.take max).length else 0

/-- All that was enqueued so far is accounted for, and the next dequeue hands over what is due. -/
structure Delivers (s : WalSystem W.toWal) : Prop extends Accounts s where
  handsOver : ∀ m max, Meets s (.dequeue m max) → HandsOver s m max

/-- Besides, the counts in memory are what the history says. -/
structure Sound (s : WalSystem W.toWal) : Prop extends Accounts s where
  le : s.removed ≤ s.enqueued.length
  proper : ∀ e ∈ s.enqueued, e.1 ≠ [] ∧ e.1 ≠ emptyFile
  count : s.buffer.itemCount = (s.remaining.map fun e => (e.2.toNat : ℤ)).sum
  attempts : ∀ i, s.removed < i → s.buffer.attempts i = stuck s.history i
  failed : ∀ i, s.removed < i → failures s.history i = stuck s.history i
  known : ∀ a ∈ s.history, ∀ i ∈ a.read, i ≤ s.enqueued.length
  behind : ∀ a ∈ s.history, a.executed = some true → ∀ i ∈ a.merged.map Prod.fst, i ≤ s.removed

variable {es : List (Bytes × UInt32)} {data : List Bytes} {counts : List UInt32} {i max : ℕ}
variable {e : ℕ × Bytes} {m : Merger}

theorem len_of_itemCount {b : WALBuffer W.toWal}
    (h : b.itemCount = (es.map fun e => (e.2.toNat : ℤ)).sum) :
    b.len = (es.map fun e => e.2.toNat).sum := by
  have hcast : (es.map fun e => (e.2.toNat : ℤ)).sum = ((es.map fun e => e.2.toNat).sum : ℕ) := by
    clear h
    induction es with
    | nil => rfl
    | cons e es ih => simp [ih]
  rw [WALBuffer.len, h, hcast, Int.toNat_natCast]

theorem recoverItemCount_eq {log : W.Log} (h : (W.view log).entries = es.map frame) :
    WALBuffer.recoverItemCount W.toWal log = (es.map fun e => (e.2.toNat : ℤ)).sum := by
  have hnil : (W.view log).last < (W.view log).offset + 1 → es = [] := by
    intro hlt
    unfold OffsetLog.last at hlt
    have hlength : (W.view log).entries.length = 0 := by omega
    rw [h, length_map] at hlength
    exact length_eq_zero_iff.mp hlength
  unfold WALBuffer.recoverItemCount
  simp only [W.firstIndex_eq, W.lastIndex_eq]
  by_cases hzero : (W.view log).last = 0
  · rw [if_pos ⟨if_pos hzero, hzero⟩, hnil (by omega)]
    rfl
  · rw [if_neg fun h => hzero h.2, if_neg hzero]
    split
    · rename_i hlt
      rw [hnil hlt]
      rfl
    · rename_i hle
      have hall : (W.view log).entries.length ≤
          (W.view log).last - ((W.view log).offset + 1) + 1 := by
        unfold OffsetLog.last at hle ⊢
        omega
      rw [W.readManyHeaders_eq, take_of_length_le hall, h, map_map, map_map]
      congr 1
      apply map_congr_left
      intro e _
      change ((readItemCount ((frame e).take itemCountHeaderSize)).toNat : ℤ) = _
      rw [frame, readItemCount_take]

theorem sound_start (W : LawfulWal) (maxRetries : ℕ) :
    Sound (W := W) (start W.toWal maxRetries) := by
  have hview : W.view (start W.toWal maxRetries).buffer.log = ⟨0, []⟩ := W.view_new
  have hremoved : removed (W := W) (start W.toWal maxRetries) = 0 := by
    rw [removed, hview]
  have hempty : (W.view W.new).entries = ([] : List (Bytes × UInt32)).map frame := by
    rw [W.view_new]
    rfl
  have hremaining : remaining (W := W) (start W.toWal maxRetries) = [] := drop_nil
  have hcount : (start W.toWal maxRetries).buffer.itemCount =
      ((remaining (W := W) (start W.toWal maxRetries)).map fun e => (e.2.toNat : ℤ)).sum := by
    rw [hremaining]
    exact recoverItemCount_eq hempty
  refine ⟨⟨?_, ?_, ?_, ?_, ?_, ?_, ?_, ?_⟩, ?_, ?_, ?_, ?_, ?_, ?_, ?_⟩
  · rw [hview, hremaining]
    rfl
  · intro a ha
    cases ha
  · intro a ha
    cases ha
  · intro before a after hsplit
    have hlength := congrArg List.length hsplit
    simp [start] at hlength
  · intro before a after hsplit
    have hlength := congrArg List.length hsplit
    simp [start] at hlength
  · intro i hpos hle
    rw [hremoved] at hle
    omega
  · exact len_of_itemCount hcount
  · intro i
    exact Nat.zero_le _
  · rw [hremoved]
    exact Nat.zero_le _
  · intro e he
    cases he
  · exact hcount
  · intro i _
    rfl
  · intro i _
    rfl
  · intro a ha
    cases ha
  · intro a ha
    cases ha

variable {s : WalSystem W.toWal}

theorem Sound.last_eq (h : Sound s) : (W.view s.buffer.log).last = s.enqueued.length := by
  have hle := h.le
  rw [OffsetLog.last, h.logged, length_map, remaining, length_drop]
  unfold removed at hle ⊢
  omega

theorem fst_of_mem_batchEntries {e : Bytes × UInt32} (h : e ∈ batchEntries data counts) :
    e.1 ∈ data := by
  obtain ⟨⟨payload, i⟩, hmem, rfl⟩ := mem_map.mp h
  exact fst_mem_of_mem_zipIdx hmem

theorem Sound.enqueueBatch (h : Sound s)
    (hok : ∀ payload ∈ data, payload ≠ [] ∧ payload ≠ emptyFile) (hopen : s.buffer.closed = false) :
    Sound (W := W) { s with
      buffer := s.buffer.enqueueBatch data counts
      enqueued := s.enqueued ++ batchEntries data counts } := by
  have hview : W.view (s.buffer.enqueueBatch data counts).log =
      { W.view s.buffer.log with
        entries := (W.view s.buffer.log).entries ++ (batchEntries data counts).map frame } := by
    unfold WALBuffer.enqueueBatch
    rw [if_neg (by simp [hopen])]
    dsimp only
    rw [W.lastIndex_eq]
    exact W.view_writeBatch _ _
  have hbuffer : (s.buffer.enqueueBatch data counts).attempts = s.buffer.attempts ∧
      (s.buffer.enqueueBatch data counts).maxRetries = s.buffer.maxRetries ∧
      (s.buffer.enqueueBatch data counts).itemCount = s.buffer.itemCount +
        ((batchEntries data counts).map fun e => (e.2.toNat : ℤ)).sum := by
    unfold WALBuffer.enqueueBatch
    rw [if_neg (by simp [hopen])]
    exact ⟨rfl, rfl, rfl⟩
  obtain ⟨hattempts, hmax, hitems⟩ := hbuffer
  have hremoved : removed (W := W) { s with
      buffer := s.buffer.enqueueBatch data counts
      enqueued := s.enqueued ++ batchEntries data counts } = s.removed := by
    rw [removed, hview]
    rfl
  have hremaining : remaining (W := W) { s with
      buffer := s.buffer.enqueueBatch data counts
      enqueued := s.enqueued ++ batchEntries data counts } =
        s.remaining ++ batchEntries data counts := by
    rw [remaining, hremoved]
    exact drop_append_of_le_length h.le
  have hcount : (s.buffer.enqueueBatch data counts).itemCount =
      ((s.remaining ++ batchEntries data counts).map fun e => (e.2.toNat : ℤ)).sum := by
    rw [hitems, h.count, map_append, sum_append]
  refine ⟨⟨?_, ?_, h.ordered, h.passed, h.once, ?_, ?_, ?_⟩, ?_, ?_, ?_, ?_, ?_, ?_, ?_⟩
  · rw [hview, hremaining, map_append, ← h.logged]
  · intro a ha e he
    obtain ⟨hpos, hget⟩ := h.unchanged a ha e he
    obtain ⟨e', he', heq⟩ := Option.map_eq_some_iff.mp hget
    obtain ⟨hlt, -⟩ := List.getElem?_eq_some_iff.mp he'
    refine ⟨hpos, ?_⟩
    change ((s.enqueued ++ batchEntries data counts)[e.1 - 1]?).map Prod.fst = some e.2
    rw [getElem?_append_left hlt]
    exact hget
  · intro i hpos hle
    rw [hremoved] at hle
    rw [hmax]
    exact h.gone i hpos hle
  · rw [hremaining]
    exact len_of_itemCount hcount
  · intro i
    rw [hmax]
    exact h.unblocked i
  · rw [hremoved]
    exact h.le.trans (by simp)
  · intro e he
    rcases mem_append.mp he with hold | hnew
    · exact h.proper e hold
    · exact hok e.1 (fst_of_mem_batchEntries hnew)
  · rw [hremaining]
    exact hcount
  · intro i hi
    rw [hremoved] at hi
    rw [hattempts]
    exact h.attempts i hi
  · intro i hi
    rw [hremoved] at hi
    exact h.failed i hi
  · intro a ha i hi
    exact (h.known a ha i hi).trans (by simp)
  · rw [hremoved]
    exact h.behind

theorem Sound.close (h : Sound s) :
    Sound (W := W) { s with buffer := { s.buffer with closed := true } } :=
  ⟨⟨h.logged, h.unchanged, h.ordered, h.passed, h.once, h.gone, h.len, h.unblocked⟩, h.le,
    h.proper, h.count, h.attempts, h.failed, h.known, h.behind⟩

theorem Sound.stuck_eq_zero (h : Sound s) (hi : s.enqueued.length < i) : stuck s.history i = 0 := by
  apply countP_eq_zero.mpr
  intro a ha hstuck
  have hle := h.known a ha i (of_decide_eq_true hstuck).1
  omega

theorem Sound.reopen (h : Sound s)
    (hok : ∀ i, s.removed < i → i ≤ s.enqueued.length → s.buffer.attempts i = 0) :
    Sound (W := W) { s with
      buffer := .newWALBuffer W.toWal (W.reopen s.buffer.log) s.buffer.maxRetries } := by
  have hview : W.view (W.reopen s.buffer.log) = W.view s.buffer.log := W.view_reopen _
  have hremoved : removed (W := W) { s with
      buffer := .newWALBuffer W.toWal (W.reopen s.buffer.log) s.buffer.maxRetries } =
        s.removed := by
    rw [removed]
    exact congrArg _ hview
  have hremaining : remaining (W := W) { s with
      buffer := .newWALBuffer W.toWal (W.reopen s.buffer.log) s.buffer.maxRetries } =
        s.remaining := by
    rw [remaining, hremoved]
    rfl
  have hcount : (WALBuffer.newWALBuffer W.toWal (W.reopen s.buffer.log)
      s.buffer.maxRetries).itemCount = (s.remaining.map fun e => (e.2.toNat : ℤ)).sum := by
    apply recoverItemCount_eq
    rw [hview, h.logged]
  refine ⟨⟨?_, h.unchanged, h.ordered, h.passed, h.once, ?_, ?_, h.unblocked⟩, ?_, h.proper, ?_,
    ?_, ?_, h.known, ?_⟩
  · rw [hremaining]
    exact (congrArg _ hview).trans h.logged
  · intro i hpos hle
    rw [hremoved] at hle
    exact h.gone i hpos hle
  · rw [hremaining]
    exact len_of_itemCount hcount
  · rw [hremoved]
    exact h.le
  · rw [hremaining]
    exact hcount
  · intro i hi
    rw [hremoved] at hi
    change 0 = stuck s.history i
    by_cases hle : i ≤ s.enqueued.length
    · rw [← h.attempts i hi, hok i hi hle]
    · exact (h.stuck_eq_zero (by omega)).symm
  · intro i hi
    rw [hremoved] at hi
    exact h.failed i hi
  · rw [hremoved]
    exact h.behind

theorem map_fst_kept (maxRetries : ℕ) (attempts : ℕ → ℕ) (fi : ℕ) (payloads : List Bytes) :
    (kept maxRetries attempts fi payloads).map Prod.fst =
      (List.range' fi payloads.length).filter fun i => !shouldDiscard maxRetries attempts i := by
  have hswap : ((payloads.zipIdx fi).map Prod.swap).map Prod.fst =
      List.range' fi payloads.length := by
    rw [map_map]
    exact zipIdx_map_snd ..
  rw [← hswap, filter_map]
  rfl

theorem exists_of_failures_pos {history : List Attempt} (h : 0 < failures history i) :
    ∃ a ∈ history, i ∈ a.merged.map Prod.fst := by
  obtain ⟨a, ha, hfailed⟩ := countP_pos_iff.mp h
  exact ⟨a, ha, (of_decide_eq_true hfailed).1⟩

theorem Sound.failures_of_discard (h : Sound s) (hi : s.removed < i)
    (hdiscard : shouldDiscard s.buffer.maxRetries s.buffer.attempts i = true) :
    0 < s.buffer.maxRetries ∧ s.buffer.maxRetries ≤ failures s.history i := by
  unfold shouldDiscard at hdiscard
  split at hdiscard
  · cases hdiscard
  · rename_i hne
    have hle := of_decide_eq_true hdiscard
    rw [h.attempts i hi, ← h.failed i hi] at hle
    exact ⟨Nat.pos_of_ne_zero hne, hle⟩

/-- What a dequeue that reads `n` entries passes to the merger. -/
def handed (s : WalSystem W.toWal) (n : ℕ) : List (ℕ × Bytes) :=
  kept s.buffer.maxRetries s.buffer.attempts (s.removed + 1) ((s.remaining.take n).map Prod.fst)

theorem mem_handed {n : ℕ} (he : e ∈ s.handed n) :
    s.removed < e.1 ∧
    e.1 ≤ s.removed + (s.remaining.take n).length ∧
    s.enqueued[e.1 - 1]?.map Prod.fst = some e.2 := by
  obtain ⟨hmem, -⟩ := mem_filter.mp he
  obtain ⟨⟨payload, i⟩, hzip, rfl⟩ := mem_map.mp hmem
  obtain ⟨hle, hget⟩ := mk_mem_zipIdx_iff_le_and_getElem?_sub.mp hzip
  rw [getElem?_map] at hget
  obtain ⟨e, hentry, rfl⟩ := Option.map_eq_some_iff.mp hget
  obtain ⟨hlt, -⟩ := List.getElem?_eq_some_iff.mp hentry
  change s.removed + 1 ≤ i at hle
  refine ⟨hle, ?_, ?_⟩
  · change i ≤ _
    omega
  · have hdrop : s.enqueued[i - 1]? = some e := by
      have hindex : s.removed + (i - (s.removed + 1)) = i - 1 := by omega
      rw [length_take] at hlt
      rw [getElem?_take_of_lt (Nat.lt_min.mp hlt).1, remaining, getElem?_drop,
        hindex] at hentry
      exact hentry
    change s.enqueued[i - 1]?.map Prod.fst = some e.1
    rw [hdrop]
    rfl

theorem Sound.remaining_eq_nil (h : Sound s) (hnone : W.firstIndex s.buffer.log = 0 ∨
    W.lastIndex s.buffer.log < W.firstIndex s.buffer.log) : s.remaining = [] := by
  have hlength : (W.view s.buffer.log).entries.length = 0 := by
    rw [W.firstIndex_eq, W.lastIndex_eq] at hnone
    unfold OffsetLog.last at hnone
    split at hnone <;> omega
  rw [h.logged, length_map] at hlength
  exact length_eq_zero_iff.mp hlength

theorem foldl_clearAttempts_of_le {is : List ℕ} {n : ℕ} (his : ∀ j ∈ is, j ≤ n)
    (attempts : ℕ → ℕ) (hi : n < i) : is.foldl clearAttempts attempts i = attempts i := by
  rw [foldl_clearAttempts, if_neg]
  intro hmem
  exact absurd (his i hmem) (by omega)

theorem le_of_mem_dropped {attempts : ℕ → ℕ} {fi n j : ℕ}
    (hj : j ∈ dropped maxRetries attempts (fi + 1) n) : j ≤ fi + n := by
  have hrange := mem_range'_1.mp (mem_filter.mp hj).1
  omega

/-- What is read is handed over or discarded. -/
theorem length_dropped_add_handed (s : WalSystem W.toWal) (max : ℕ) :
    (dropped s.buffer.maxRetries s.buffer.attempts (s.removed + 1)
      (s.remaining.take max).length).length + (s.handed max).length =
        (s.remaining.take max).length := by
  have hfst := congrArg List.length (map_fst_kept s.buffer.maxRetries s.buffer.attempts
    (s.removed + 1) ((s.remaining.take max).map Prod.fst))
  rw [length_map, length_map] at hfst
  have hall := length_eq_length_filter_add
    (l := List.range' (s.removed + 1) (s.remaining.take max).length)
    fun i => shouldDiscard s.buffer.maxRetries s.buffer.attempts i
  rw [length_range'] at hall
  rw [handed, hfst]
  exact hall.symm

/-- A dequeue reads nothing, or truncates the log behind what it read and executed or discarded, or
leaves what it read and failed to execute. -/
theorem Sound.dequeue_cases (h : Sound s) (hok : Meets s (.dequeue m max)) :
    ((s.buffer.closed = true ∨ s.remaining = []) ∧ s.buffer.dequeue m max = (s.buffer, none)) ∨
    (s.remaining.take max = [] ∧
      s.buffer.dequeue m max = (s.buffer, some ⟨[], [], none, false⟩)) ∨
    (∃ executed attempts, s.buffer.dequeue m max =
        ({ s.buffer with
            log := W.truncateFront s.buffer.log (s.removed + 1 + (s.remaining.take max).length)
            itemCount := s.buffer.itemCount -
              ((s.remaining.take max).map fun e => (e.2.toNat : ℤ)).sum
            attempts := attempts },
          some ⟨List.range' (s.removed + 1) (s.remaining.take max).length, s.handed max, executed,
            true⟩) ∧
      (s.handed max ≠ [] ∧ executed = some true ∧
          m.execute ((s.handed max).map Prod.snd) = true ∨
        s.handed max = [] ∧ executed = none) ∧
      ∀ i, s.removed + (s.remaining.take max).length < i → attempts i = s.buffer.attempts i) ∨
    (0 < s.buffer.maxRetries ∧ (s.handed max).length = (s.remaining.take max).length ∧
      s.handed max ≠ [] ∧ m.execute ((s.handed max).map Prod.snd) = false ∧
      s.buffer.dequeue m max =
        ({ s.buffer with attempts :=
            ((s.handed max).map Prod.fst).foldl incrementAttempts s.buffer.attempts },
          some ⟨List.range' (s.removed + 1) (s.remaining.take max).length, s.handed max,
            some false, false⟩)) := by
  obtain ⟨haccepts, hexecute⟩ := hok
  by_cases hskip : s.buffer.closed = true ∨ W.firstIndex s.buffer.log = 0 ∨
      W.lastIndex s.buffer.log < W.firstIndex s.buffer.log
  · left
    constructor
    · exact hskip.imp_right h.remaining_eq_nil
    · unfold WALBuffer.dequeue
      exact if_pos hskip
  · right
    have hfirst : W.firstIndex s.buffer.log = s.removed + 1 := by
      rw [W.firstIndex_eq] at hskip ⊢
      split
      · rename_i hzero
        rw [if_pos hzero] at hskip
        simp at hskip
      · rfl
    have hitems : W.readMany s.buffer.log (s.removed + 1) max =
        (s.remaining.take max).map frame := by
      rw [removed, W.readMany_eq, h.logged, map_take]
    have hread : (((s.remaining.take max).map frame).zipIdx (s.removed + 1)).map Prod.snd =
        List.range' (s.removed + 1) (s.remaining.take max).length := by
      rw [zipIdx_map_snd, length_map]
    have hproper : ∀ e ∈ s.remaining.take max, e.1 ≠ [] ∧ e.1 ≠ emptyFile :=
      fun e he => h.proper e (mem_of_mem_drop (mem_of_mem_take he))
    have hloop := @foldl_mergeItem s.buffer.maxRetries m (s.remaining.take max) (s.removed + 1)
      ⟨s.buffer.attempts, [], [], 0, false⟩ rfl hproper haccepts
    simp only [nil_append, zero_add] at hloop
    have hhanded : ∀ j ∈ (s.handed max).map Prod.fst,
        j ≤ s.removed + (s.remaining.take max).length := by
      intro j hj
      obtain ⟨e, he, rfl⟩ := mem_map.mp hj
      exact (mem_handed he).2.1
    have hdropped : ∀ j ∈ dropped s.buffer.maxRetries s.buffer.attempts (s.removed + 1)
        (s.remaining.take max).length, j ≤ s.removed + (s.remaining.take max).length :=
      fun j hj => le_of_mem_dropped hj
    have hsplit := length_dropped_add_handed s max
    have hkept : kept s.buffer.maxRetries s.buffer.attempts (s.removed + 1)
        ((s.remaining.take max).map Prod.fst) = s.handed max := rfl
    rw [hkept] at hloop
    unfold WALBuffer.dequeue
    rw [if_neg hskip]
    simp only [hfirst, hitems, hloop, hread, Bool.false_eq_true, if_false, length_zipIdx,
      length_map]
    by_cases hnone : s.handed max = []
    · simp only [if_pos hnone]
      by_cases hkeep : dropped s.buffer.maxRetries s.buffer.attempts (s.removed + 1)
          (s.remaining.take max).length = []
      · rw [hnone, hkeep] at hsplit
        left
        refine ⟨length_eq_zero_iff.mp hsplit.symm, ?_⟩
        simp only [← hsplit]
        rfl
      · simp only [if_neg hkeep]
        refine .inr (.inl ⟨none, _, ?_, .inr ⟨hnone, rfl⟩, fun i hi =>
          foldl_clearAttempts_of_le hdropped s.buffer.attempts hi⟩)
        rw [hnone]
        rfl
    · simp only [if_neg hnone]
      cases hresult : m.execute ((s.handed max).map Prod.snd) with
      | true =>
        refine .inr (.inl ⟨some true, _, rfl, .inl ⟨hnone, rfl, rfl⟩, fun i hi => ?_⟩)
        exact (foldl_clearAttempts_of_le hhanded _ hi).trans
          (foldl_clearAttempts_of_le hdropped _ hi)
      | false =>
        obtain ⟨hpos, hall⟩ := hexecute hresult hnone
        rw [length_map] at hall
        have hlength : (s.handed max).length = (s.remaining.take max).length := hall
        have hempty : dropped s.buffer.maxRetries s.buffer.attempts (s.removed + 1)
            (s.remaining.take max).length = [] :=
          length_eq_zero_iff.mp (by omega)
        refine .inr (.inr ⟨hpos, hlength, hnone, rfl, ?_⟩)
        simp only [hempty, foldl_nil, Bool.false_eq_true, if_false]

/-- Whatever stands before a payload that is handed over was passed to the merger before, or is
handed over by the same dequeue. -/
theorem Sound.passed_handed (h : Sound s) {a : Attempt} (ha : a.merged = s.handed max)
    (he : e ∈ s.handed max) (hpos : 0 < i) (hlt : i < e.1) :
    ∃ a' ∈ s.history ++ [a], i ∈ a'.merged.map Prod.fst := by
  have hearlier : 0 < failures s.history i → ∃ a' ∈ s.history ++ [a],
      i ∈ a'.merged.map Prod.fst := by
    intro hfailures
    obtain ⟨a', ha', hmem⟩ := exists_of_failures_pos hfailures
    exact ⟨a', mem_append_left _ ha', hmem⟩
  by_cases hle : i ≤ s.removed
  · rcases h.gone i hpos hle with ⟨a', ha', -, hmem⟩ | ⟨hmax, hfailures⟩
    · exact ⟨a', mem_append_left _ ha', hmem⟩
    · exact hearlier (hmax.trans_le hfailures)
  · by_cases hdiscard : shouldDiscard s.buffer.maxRetries s.buffer.attempts i = true
    · obtain ⟨hmax, hfailures⟩ := h.failures_of_discard (by omega) hdiscard
      exact hearlier (hmax.trans_le hfailures)
    · refine ⟨a, mem_append_right _ (mem_singleton_self a), ?_⟩
      obtain ⟨-, hread, -⟩ := mem_handed he
      rw [ha, handed, map_fst_kept, mem_filter, mem_range'_1, length_map]
      exact ⟨by omega, by simpa using hdiscard⟩

theorem ordered_handed (s : WalSystem W.toWal) (max : ℕ) :
    (s.handed max).Pairwise fun e e' => e.1 < e'.1 := by
  have hfst : ((s.handed max).map Prod.fst).Pairwise (· < ·) := by
    rw [handed, map_fst_kept]
    exact (pairwise_lt_range' _).filter _
  exact pairwise_map.mp hfst

/-- The history after one more dequeue, whatever became of the buffer. -/
structure Follows (s : WalSystem W.toWal) (history : List Attempt) : Prop where
  unchanged : ∀ a ∈ history, ∀ e ∈ a.merged,
    0 < e.1 ∧ s.enqueued[e.1 - 1]?.map Prod.fst = some e.2
  ordered : ∀ a ∈ history, a.merged.Pairwise fun e e' => e.1 < e'.1
  passed : ∀ before a after, history = before ++ a :: after → ∀ e ∈ a.merged, ∀ i, 0 < i →
    i < e.1 → ∃ a' ∈ before ++ [a], i ∈ a'.merged.map Prod.fst
  once : ∀ before a after, history = before ++ a :: after → a.executed = some true →
    ∀ i ∈ a.merged.map Prod.fst, ∀ a' ∈ after, i ∉ a'.merged.map Prod.fst
  known : ∀ a ∈ history, ∀ i ∈ a.read, i ≤ s.enqueued.length

theorem Sound.follows (h : Sound s) {a : Attempt}
    (hunchanged : ∀ e ∈ a.merged, s.removed < e.1 ∧ s.enqueued[e.1 - 1]?.map Prod.fst = some e.2)
    (hordered : a.merged.Pairwise fun e e' => e.1 < e'.1)
    (hpassed : ∀ e ∈ a.merged, ∀ i, 0 < i → i < e.1 →
      ∃ a' ∈ s.history ++ [a], i ∈ a'.merged.map Prod.fst)
    (hknown : ∀ i ∈ a.read, i ≤ s.enqueued.length) : Follows s (s.history ++ [a]) := by
  constructor
  · intro a' ha'
    rcases mem_append.mp ha' with hold | hnew
    · exact h.unchanged a' hold
    · rw [mem_singleton.mp hnew]
      exact fun e he => ⟨(Nat.zero_le _).trans_lt (hunchanged e he).1, (hunchanged e he).2⟩
  · intro a' ha'
    rcases mem_append.mp ha' with hold | hnew
    · exact h.ordered a' hold
    · rw [mem_singleton.mp hnew]
      exact hordered
  · intro before a' after hsplit
    rcases eq_nil_or_concat after with rfl | ⟨rest, last, rfl⟩
    · obtain ⟨hbefore, hlast⟩ := append_inj' hsplit rfl
      cases hlast
      exact hbefore ▸ hpassed
    · rw [concat_eq_append, ← cons_append, ← append_assoc] at hsplit
      exact h.passed before a' rest (append_inj' hsplit rfl).1
  · intro before a' after hsplit hexecuted i hi a'' ha''
    rcases eq_nil_or_concat after with rfl | ⟨rest, last, rfl⟩
    · cases ha''
    · rw [concat_eq_append, ← cons_append, ← append_assoc] at hsplit
      obtain ⟨hold, hlast⟩ := append_inj' hsplit rfl
      rw [concat_eq_append, mem_append, mem_singleton] at ha''
      rcases ha'' with ha'' | rfl
      · exact h.once before a' rest hold hexecuted i hi a'' ha''
      · -- What the new dequeue reads is behind all that was executed.
        cases hlast
        have hle := h.behind a' (hold ▸ mem_append_right _ mem_cons_self) hexecuted i hi
        intro hmem
        obtain ⟨e, he, rfl⟩ := mem_map.mp hmem
        exact absurd (hunchanged e he).1 (not_lt_of_ge hle)
  · intro a' ha'
    rcases mem_append.mp ha' with hold | hnew
    · exact h.known a' hold
    · rw [mem_singleton.mp hnew]
      exact hknown

theorem Sound.follows_handed (h : Sound s) (max : ℕ) (executed : Option Bool) (truncated : Bool) :
    Follows s (s.history ++ [⟨List.range' (s.removed + 1) (s.remaining.take max).length,
      s.handed max, executed, truncated⟩]) := by
  apply h.follows
  · intro e he
    obtain ⟨hlt, -, hget⟩ := mem_handed he
    exact ⟨hlt, hget⟩
  · exact ordered_handed s max
  · intro e he i hpos hlt
    exact h.passed_handed rfl he hpos hlt
  · intro i hi
    have hrange := mem_range'_1.mp hi
    have hle := h.le
    rw [remaining, length_take, length_drop] at hrange
    omega

theorem Sound.truncated (h : Sound s) {max : ℕ} {executed : Option Bool}
    {s' : WalSystem W.toWal}
    (hexecuted : executed = some true ∨ executed = none ∧ s.handed max = [])
    (hlog : s'.buffer.log =
      W.truncateFront s.buffer.log (s.removed + 1 + (s.remaining.take max).length))
    (hitems : s'.buffer.itemCount = s.buffer.itemCount -
      ((s.remaining.take max).map fun e => (e.2.toNat : ℤ)).sum)
    (hattempts : ∀ i, s.removed + (s.remaining.take max).length < i →
      s'.buffer.attempts i = s.buffer.attempts i)
    (hmax : s'.buffer.maxRetries = s.buffer.maxRetries) (henqueued : s'.enqueued = s.enqueued)
    (hhistory : s'.history = s.history ++ [⟨List.range' (s.removed + 1)
      (s.remaining.take max).length, s.handed max, executed, true⟩]) : Sound s' := by
  have hfollows := h.follows_handed max executed true
  rw [← hhistory] at hfollows
  have hle : s.removed + (s.remaining.take max).length ≤ s.enqueued.length := by
    have hle := h.le
    rw [remaining, length_take, length_drop]
    omega
  have hview : W.view s'.buffer.log =
      (W.view s.buffer.log).compact (s.removed + (s.remaining.take max).length) := by
    have hlast := h.last_eq
    rw [hlog, W.view_truncateFront]
    · congr 1
      omega
    · change s.removed < _
      omega
    · omega
  have hremoved : s'.removed = s.removed + (s.remaining.take max).length := by
    rw [removed, hview]
    rfl
  have hsplit : s.remaining.take max ++ s'.remaining = s.remaining := by
    have hdrop : s'.remaining = s.remaining.drop (s.remaining.take max).length := by
      rw [remaining, remaining, hremoved, henqueued, drop_drop]
      rfl
    rw [hdrop]
    exact prefix_iff_eq_append.mp ( take_prefix ..)
  have hstuck : ∀ i, stuck s'.history i = stuck s.history i := by
    intro i
    rw [hhistory, stuck_concat, if_neg fun h => Bool.noConfusion h.2, Nat.add_zero]
  have hfailures : ∀ i, failures s'.history i = failures s.history i := by
    intro i
    have hnot : executed ≠ some false := by
      rcases hexecuted with rfl | ⟨rfl, -⟩
      · simp
      · simp
    rw [hhistory, failures_concat, if_neg fun h => hnot h.2, Nat.add_zero]
  have hcount : s'.buffer.itemCount = (s'.remaining.map fun e => (e.2.toNat : ℤ)).sum := by
    have hsum := h.count
    rw [← hsplit, map_append, sum_append] at hsum
    rw [hitems, hsum]
    omega
  refine ⟨⟨?_, ?_, hfollows.ordered, hfollows.passed, hfollows.once, ?_, ?_, ?_⟩, ?_, ?_, ?_, ?_,
    ?_, ?_, ?_⟩
  · have hentries := h.logged
    rw [← hsplit, map_append] at hentries
    rw [hview, OffsetLog.compact, hentries]
    apply drop_left'
    rw [length_map]
    exact (Nat.add_sub_cancel_left ..).symm
  · rw [henqueued]
    exact hfollows.unchanged
  · intro i hpos hi
    rw [hremoved] at hi
    rw [hfailures, hmax, hhistory]
    by_cases hold : i ≤ s.removed
    · rcases h.gone i hpos hold with ⟨a, ha, hgone⟩ | hfailed
      · exact .inl ⟨a, mem_append_left _ ha, hgone⟩
      · exact .inr hfailed
    · by_cases hdiscard : shouldDiscard s.buffer.maxRetries s.buffer.attempts i = true
      · exact .inr (h.failures_of_discard (by omega) hdiscard)
      · have hmem : i ∈ (s.handed max).map Prod.fst := by
          rw [handed, map_fst_kept, mem_filter, mem_range'_1, length_map]
          exact ⟨by omega, by simpa using hdiscard⟩
        rcases hexecuted with rfl | ⟨-, hnone⟩
        · exact .inl ⟨_, mem_append_right _ (mem_singleton_self _), rfl, hmem⟩
        · rw [hnone] at hmem
          cases hmem
  · exact len_of_itemCount hcount
  · intro i
    rw [hstuck, hmax]
    exact h.unblocked i
  · rw [hremoved, henqueued]
    exact hle
  · rw [henqueued]
    exact h.proper
  · exact hcount
  · intro i hi
    rw [hremoved] at hi
    rw [hstuck, hattempts i hi]
    exact h.attempts i (by omega)
  · intro i hi
    rw [hremoved] at hi
    rw [hstuck, hfailures]
    exact h.failed i (by omega)
  · rw [henqueued]
    exact hfollows.known
  · intro a ha hdone i hi
    rw [hremoved]
    rw [hhistory] at ha
    rcases mem_append.mp ha with hold | hnew
    · exact (h.behind a hold hdone i hi).trans (Nat.le_add_right _ _)
    · rw [mem_singleton.mp hnew] at hi
      obtain ⟨e, he, rfl⟩ := mem_map.mp hi
      exact (mem_handed he).2.1

theorem Sound.behind_concat (h : Sound s) {a : Attempt} (ha : a.executed ≠ some true) :
    ∀ a' ∈ s.history ++ [a], a'.executed = some true → ∀ i ∈ a'.merged.map Prod.fst,
      i ≤ s.removed := by
  intro a' ha' hdone
  rcases mem_append.mp ha' with hold | hnew
  · exact h.behind a' hold hdone
  · exact absurd (mem_singleton.mp hnew ▸ hdone) ha

theorem Sound.skipped (h : Sound s) :
    Sound (W := W) { s with history := s.history ++ [⟨[], [], none, false⟩] } := by
  have hfollows : Follows s (s.history ++ [⟨[], [], none, false⟩]) := by
    apply h.follows
    · intro e he
      cases he
    · exact List.Pairwise.nil
    · intro e he
      cases he
    · intro i hi
      cases hi
  have hstuck : ∀ i, stuck (s.history ++ [⟨[], [], none, false⟩]) i = stuck s.history i := by
    intro i
    rw [stuck_concat, if_neg fun h => not_mem_nil h.1, Nat.add_zero]
  have hfailures : ∀ i, failures (s.history ++ [⟨[], [], none, false⟩]) i =
      failures s.history i := by
    intro i
    rw [failures_concat, if_neg fun h => not_mem_nil h.1, Nat.add_zero]
  refine ⟨⟨h.logged, hfollows.unchanged, hfollows.ordered, hfollows.passed, hfollows.once, ?_, h.len,
    ?_⟩, h.le, h.proper, h.count, ?_, ?_, hfollows.known, h.behind_concat (by simp)⟩
  · intro i hpos hi
    dsimp only
    rw [hfailures]
    rcases h.gone i hpos hi with ⟨a, ha, hgone⟩ | hfailed
    · exact .inl ⟨a, mem_append_left _ ha, hgone⟩
    · exact .inr hfailed
  · intro i
    dsimp only
    rw [hstuck]
    exact h.unblocked i
  · intro i hi
    dsimp only
    rw [hstuck]
    exact h.attempts i hi
  · intro i hi
    dsimp only
    rw [hstuck, hfailures]
    exact h.failed i hi

/-- What was read is left in the log after an execution that failed, and none of it had failed too
often before. -/
theorem Sound.retried (h : Sound s) (hpos : 0 < s.buffer.maxRetries)
    (hall : (s.handed max).length = (s.remaining.take max).length) :
    Sound (W := W) { s with
      buffer := { s.buffer with
        attempts := ((s.handed max).map Prod.fst).foldl incrementAttempts s.buffer.attempts }
      history := s.history ++ [⟨List.range' (s.removed + 1) (s.remaining.take max).length,
        s.handed max, some false, false⟩] } := by
  have hfollows := h.follows_handed max (some false) false
  have hsub : ((s.handed max).map Prod.fst).Sublist
      (List.range' (s.removed + 1) (s.remaining.take max).length) := by
    rw [handed, map_fst_kept, length_map]
    exact filter_sublist
  have hfst : (s.handed max).map Prod.fst =
      List.range' (s.removed + 1) (s.remaining.take max).length := by
    apply hsub.eq_of_length
    rw [length_map, hall, length_range']
  have hread : ∀ i, i ∈ List.range' (s.removed + 1) (s.remaining.take max).length →
      s.removed < i ∧ shouldDiscard s.buffer.maxRetries s.buffer.attempts i = false := by
    intro i hi
    have hlt := (mem_range'_1.mp hi).1
    rw [← hfst, handed, map_fst_kept, mem_filter, Bool.not_eq_true'] at hi
    exact ⟨by omega, hi.2⟩
  have hstuck : ∀ i, stuck (s.history ++ [⟨List.range' (s.removed + 1)
      (s.remaining.take max).length, s.handed max, some false, false⟩]) i = stuck s.history i +
        if i ∈ List.range' (s.removed + 1) (s.remaining.take max).length then 1 else 0 := by
    intro i
    rw [stuck_concat]
    simp only [and_true]
  have hfailures : ∀ i, failures (s.history ++ [⟨List.range' (s.removed + 1)
      (s.remaining.take max).length, s.handed max, some false, false⟩]) i =
        failures s.history i +
          if i ∈ List.range' (s.removed + 1) (s.remaining.take max).length then 1 else 0 := by
    intro i
    rw [failures_concat]
    simp only [and_true, hfst]
  refine ⟨⟨h.logged, hfollows.unchanged, hfollows.ordered, hfollows.passed, hfollows.once, ?_, h.len,
    ?_⟩, h.le, h.proper, h.count, ?_, ?_, hfollows.known, h.behind_concat (by simp)⟩
  · intro i hpos' hi
    rcases h.gone i hpos' hi with ⟨a, ha, hgone⟩ | ⟨hmax, hfailed⟩
    · exact .inl ⟨a, mem_append_left _ ha, hgone⟩
    · refine .inr ⟨hmax, hfailed.trans ?_⟩
      dsimp only
      rw [hfailures]
      exact Nat.le_add_right _ _
  · intro i
    dsimp only
    rw [hstuck]
    split
    · rename_i hi
      obtain ⟨hlt, hkeep⟩ := hread i hi
      have hattempts := h.attempts i hlt
      simp only [shouldDiscard, if_neg (Nat.pos_iff_ne_zero.mp hpos), decide_eq_false_iff_not]
        at hkeep
      omega
    · exact h.unblocked i
  · intro i hi
    dsimp only
    rw [hstuck, hfst, foldl_incrementAttempts nodup_range', h.attempts i hi]
    split
    · rfl
    · rfl
  · intro i hi
    dsimp only
    rw [hstuck, hfailures, h.failed i hi]

theorem Sound.dequeue (h : Sound s) (hok : Meets s (.dequeue m max)) :
    Sound (W := W) { s with
      buffer := (s.buffer.dequeue m max).1
      history := s.history ++ (s.buffer.dequeue m max).2.toList } := by
  rcases h.dequeue_cases hok with ⟨-, heq⟩ | ⟨-, heq⟩ |
    ⟨executed, attempts, heq, hexecuted, hattempts⟩ | ⟨hpos, hall, -, -, heq⟩
  · rw [heq]
    change Sound { s with history := s.history ++ [] }
    rw [append_nil]
    exact h
  · rw [heq]
    exact h.skipped
  · rw [heq]
    exact h.truncated (hexecuted.imp (fun h => h.2.1) And.symm) rfl rfl hattempts rfl rfl rfl
  · rw [heq]
    exact h.retried hpos hall

theorem Sound.step {e : WalEvent} {s' : WalSystem W.toWal} (h : Sound s) (hok : Meets s e)
    (hstep : s.step e = some s') : Sound s' := by
  cases e with
  | enqueueBatch data counts =>
    cases hstep
    cases hclosed : s.buffer.closed with
    | true =>
      have hsame : s.buffer.enqueueBatch data counts = s.buffer := by
        unfold WALBuffer.enqueueBatch
        exact if_pos hclosed
      rw [hsame]
      exact h
    | false => exact h.enqueueBatch hok hclosed
  | dequeue m max =>
    cases hstep
    exact h.dequeue hok
  | close =>
    cases hstep
    exact h.close
  | reopen =>
    simp only [WalSystem.step] at hstep
    split at hstep
    · cases hstep
      exact h.reopen hok
    · cases hstep

theorem Sound.due_eq (h : Sound s) (max : ℕ) : s.due max = s.handed max := by
  refine filter_congr fun e he => ?_
  obtain ⟨⟨payload, i⟩, hzip, rfl⟩ := mem_map.mp he
  have hlt : s.removed < i := le_snd_of_mem_zipIdx hzip
  change decide (s.buffer.maxRetries = 0 ∨ failures s.history i < s.buffer.maxRetries) =
    !shouldDiscard s.buffer.maxRetries s.buffer.attempts i
  rw [h.failed i hlt, ← h.attempts i hlt, shouldDiscard]
  split
  · rename_i hzero
    rw [hzero]
    rfl
  · rename_i hne
    rw [← decide_not, decide_eq_decide]
    omega

theorem view_truncateFront_offset (h : Sound s) (max : ℕ) :
    (W.view (W.truncateFront s.buffer.log
      (s.removed + 1 + (s.remaining.take max).length))).offset =
        s.removed + (s.remaining.take max).length := by
  have hlast := h.last_eq
  have hle := h.le
  have hlength : (s.remaining.take max).length ≤ s.enqueued.length - s.removed := by
    rw [remaining, length_take, length_drop]
    exact min_le_right _ _
  rw [W.view_truncateFront]
  · change s.removed + 1 + _ - 1 = _
    omega
  · change s.removed < _
    omega
  · omega

theorem Sound.handsOver (h : Sound s) (hok : Meets s (.dequeue m max)) : HandsOver s m max := by
  intro hopen hleft hmax
  rw [h.due_eq]
  rcases h.dequeue_cases hok with ⟨hskip, -⟩ | ⟨hnone, -⟩ |
    ⟨executed, attempts, heq, hexecuted, -⟩ | ⟨-, -, hsome, hfails, heq⟩
  · rcases hskip with hclosed | hempty
    · rw [hopen] at hclosed
      cases hclosed
    · exact absurd hempty hleft
  · rcases take_eq_nil_iff.mp hnone with hzero | hempty
    · omega
    · exact absurd hempty hleft
  · refine ⟨_, executed, true, heq, ?_, ?_, view_truncateFront_offset h max⟩
    · rcases hexecuted with ⟨hsome, rfl, hdone⟩ | ⟨hnone, rfl⟩
      · rw [if_neg hsome, hdone]
      · rw [if_pos hnone]
    · rcases hexecuted with ⟨-, rfl, -⟩ | ⟨-, rfl⟩ <;> simp
  · refine ⟨_, some false, false, heq, ?_, by simp, rfl⟩
    rw [if_neg hsome, hfails]

/-- In every run whose steps meet the condition the buffer delivers. -/
theorem wal_buffer_delivers (W : LawfulWal) (maxRetries : ℕ) (events : List WalEvent)
    (s : WalSystem W.toWal)
    (h : Run step (Meets (W := W)) (start W.toWal maxRetries) events s) : Delivers s :=
  have hsound := h.invariant (fun _ _ _ hok hstep hs => hs.step hok hstep)
    (sound_start W maxRetries)
  ⟨hsound.toAccounts, fun _ _ => hsound.handsOver⟩

/-- A log that is kept as a list. -/
def listWal : LawfulWal where
  Log := OffsetLog Bytes
  new := ⟨0, []⟩
  reopen := id
  firstIndex log := if log.last = 0 then 0 else log.offset + 1
  lastIndex log := log.last
  readMany log fi n := (log.entries.drop (fi - log.offset - 1)).take n
  readManyHeaders log fi n size :=
    ((log.entries.drop (fi - log.offset - 1)).take n).map (List.take size)
  writeBatch log batch := { log with entries := log.entries ++ batch.map Prod.snd }
  truncateFront log i := log.compact (i - 1)
  view := id
  view_new := rfl
  view_reopen _ := rfl
  firstIndex_eq _ := rfl
  lastIndex_eq _ := rfl
  readMany_eq log n := by simp
  readManyHeaders_eq log n size := by simp
  view_writeBatch log data := by
    have hdata : ((data.zipIdx (log.last + 1)).map Prod.swap).map Prod.snd = data := by
      rw [List.map_map]
      exact List.zipIdx_map_fst ..
    simp only [id, hdata]
  view_truncateFront _ _ _ _ := rfl

/-- A merger that takes everything and executes when it is told so. -/
def merging (execute : Bool) : Merger := ⟨fun _ _ => true, fun _ => execute⟩

theorem accepts_merging (execute : Bool) (prior payloads : List Bytes) :
    (merging execute).Accepts prior payloads := by
  induction payloads generalizing prior with
  | nil => trivial
  | cons payload payloads ih => exact ⟨rfl, ih _⟩

/-- Two payloads are handed over, their execution fails, and it succeeds when it is tried again. -/
theorem wal_buffer_sample : ∃ s : WalSystem listWal.toWal,
    s.history = [⟨[1, 2], [(1, [7]), (2, [8, 9])], some false, false⟩,
      ⟨[1, 2], [(1, [7]), (2, [8, 9])], some true, true⟩] ∧ Delivers (W := listWal) s := by
  have hproper : ∀ payload ∈ ([[7], [8, 9]] : List Bytes),
      payload ≠ [] ∧ payload ≠ emptyFile := by decide
  have hfails : ∀ s : WalSystem listWal.toWal, 0 < s.buffer.maxRetries →
      (s.handed 5).length = ((s.remaining (W := listWal).take 5).map Prod.fst).length →
        Meets (W := listWal) s (.dequeue (merging false) 5) :=
    fun _ hpos hall => ⟨accepts_merging _ _ _, fun _ _ => ⟨hpos, hall⟩⟩
  have hexecutes : ∀ s : WalSystem listWal.toWal,
      Meets (W := listWal) s (.dequeue (merging true) 5) :=
    fun _ => ⟨accepts_merging _ _ _, fun h => Bool.noConfusion h⟩
  refine ⟨_, ?_, wal_buffer_delivers listWal 2
    [.enqueueBatch [[7], [8, 9]] [1, 2], .dequeue (merging false) 5, .dequeue (merging true) 5] _
    (.cons hproper rfl (.cons (hfails _ ?_ ?_) rfl (.cons (hexecutes _) rfl (.nil _))))⟩
  · decide +kernel
  · decide
  · decide +kernel

/-- A payload without bytes reaches the merger as the four bytes of its header. -/
theorem empty_payload_gets_header : ∃ s : WalSystem listWal.toWal,
    Run step (fun _ _ => True) (start listWal.toWal 1)
      [.enqueueBatch [[]] [1], .dequeue (merging true) 5] s ∧
    ¬ Delivers (W := listWal) s := by
  refine ⟨_, .cons trivial rfl (.cons trivial rfl (.nil _)), ?_⟩
  intro h
  have hmerged : (⟨[1], [(1, [1, 0, 0, 0])], some true, true⟩ : Attempt) ∈
      [(⟨[1], [(1, [1, 0, 0, 0])], some true, true⟩ : Attempt)] := List.mem_singleton_self _
  obtain ⟨-, hbytes⟩ := h.unchanged _ hmerged (1, [1, 0, 0, 0]) (List.mem_singleton_self _)
  exact absurd hbytes (by decide)

end WalSystem

end Antfly.Inflight
