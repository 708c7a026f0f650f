import Antfly.Lib.OffsetLog
import Antfly.Lib.Runs
import Antfly.Raft.PebbleStorage
import Mathlib.Algebra.GroupWithZero.Nat

/-!
`MemoryLog` says what the storage is for: a list of entries with a compacted front, the term of the
last compacted entry, and the newest snapshot.  The storage refines it under every sequence of
operations, crashes included.  One value it can lose is the term just below the first index, which
an installed snapshot keeps only as long as it is the newest one.
-/

namespace Antfly.Raft

open List Option OrdMap

structure MemoryLog where
  log : OffsetLog Entry
  /-- The term of the entry at the offset. -/
  offsetTerm : ℕ
  snapshot : Option Snapshot

namespace MemoryLog

variable (m : MemoryLog)

def empty : MemoryLog := ⟨⟨0, []⟩, 0, none⟩

def snapIndex : ℕ := m.snapshot.elim 0 Snapshot.index

def term (i : ℕ) : ℕ :=
  if i = m.log.offset then m.offsetTerm else (m.log.get? i).elim 0 Entry.term

/-- The entries above the offset replace what was there from the first of them on. -/
def append (entries : List Entry) : MemoryLog :=
  match entries.dropWhile (·.index ≤ m.log.offset) with
  | [] => m
  | e :: es => { m with log := m.log.splice e.index (e :: es) }

def install : Option Snapshot → MemoryLog
  | none => m
  | some snap => ⟨⟨snap.index, []⟩, snap.term, some snap⟩

def apply : StorageOp → MemoryLog
  | .save snap _ _ entries committed =>
    let snap := snap.filter (·.index ≠ 0)
    if snap.any (·.index ≤ m.snapIndex) ∨ committed = false then m
    else (m.install snap).append entries
  | .createSnapshot index cs data committed =>
    if index ≤ m.snapIndex ∨ index < m.log.offset ∨ m.log.last < index ∨ committed = false then m
    else { m with snapshot := some ⟨index, m.term index, cs, data⟩ }
  | .compact compactIndex committed =>
    if compactIndex ≤ m.log.offset ∨ m.log.last < compactIndex ∨ committed = false then m
    else { m with log := m.log.compact compactIndex, offsetTerm := m.term compactIndex }
  | .reopen => m

def run (ops : List StorageOp) : MemoryLog := ops.foldl apply empty

end MemoryLog

/-- `p` is the front of `es` that fits into the size limit, and the first entry in any case. -/
structure CutBySize (size : Entry → ℕ) (maxSize : ℕ) (es p : List Entry) : Prop where
  front : p <+: es
  first : es ≠ [] → p ≠ []
  fits : 2 ≤ p.length → (p.map size).sum ≤ maxSize
  most : p.length < es.length → maxSize < ((es.take (p.length + 1)).map size).sum

/-- The contract of a raft storage, with a log in memory as the reference. -/
structure BehavesAsLog (size : Entry → ℕ) (ps : PebbleStorage) (m : MemoryLog) : Prop where
  first_le : ps.firstIndex ≤ ps.lastIndex + 1
  firstIndex : ps.firstIndex = m.log.offset + 1
  lastIndex : ps.lastIndex = m.log.last
  compacted : ∀ lo hi maxSize, lo < ps.firstIndex →
    ps.entries size lo hi maxSize = .error .compacted
  entries : ∀ lo hi maxSize, ps.firstIndex ≤ lo → hi ≤ ps.lastIndex + 1 →
    ∃ p, ps.entries size lo hi maxSize = .ok p ∧ CutBySize size maxSize (m.log.slice lo hi) p
  term : ∀ i, ps.firstIndex ≤ i + 1 → i ≤ ps.lastIndex → ps.term i = .ok (m.term i)
  snapshot : ps.snapshot = m.snapshot
  snapshot_ge : ps.firstIndex ≤ ps.snapIndex + 1
  snapshot_mono : ∀ op, ps.snapIndex ≤ (ps.apply op).1.snapIndex
  errors : ∀ op, (ps.apply op).2 ≠ none → (ps.apply op).1 = ps

/-- Entries as raft hands them over: numbered without a gap, adjoining the log, reaching at least
to the snapshot, and unchanged where the snapshot covers them. -/
structure Suffix (ps : PebbleStorage) (entries : List Entry) : Prop where
  numbered : entries.IsChain fun e e' => e'.index = e.index + 1
  adjoins : ∀ e ∈ entries.head?, e.index ≤ ps.lastIndex + 1
  reaches : ∀ e ∈ entries.getLast?, ps.snapIndex ≤ e.index
  keeps : ∀ e ∈ entries, ps.firstIndex ≤ e.index → e.index ≤ ps.snapIndex →
    ps.db.entries.get? e.index = some e

def EmittedByRaft (ps : PebbleStorage) : StorageOp → Prop
  | .save snap cs _ entries _ => Suffix (ps.installed cs (snap.filter (·.index ≠ 0))) entries
  | _ => True

/-- Nothing was compacted, or the newest snapshot ends just below the first index, or the entry
there is still stored. -/
def BoundaryKept (ps : PebbleStorage) : Prop :=
  ps.firstIndex = 1 ∨ ps.snapIndex + 1 = ps.firstIndex ∨
    ps.db.entries.get? (ps.firstIndex - 1) ≠ none

/-- A snapshot is created only while the term below the first index does not depend on the newest
one, and the log is compacted only up to the newest snapshot.  A call that fails does neither. -/
def KeepsBoundary (ps : PebbleStorage) : StorageOp → Prop
  | .createSnapshot index _ _ committed =>
    ps.firstIndex = 1 ∨ ps.db.entries.get? (ps.firstIndex - 1) ≠ none ∨
      index ≤ ps.snapIndex ∨ ps.lastIndex < index ∨ committed = false
  | .compact compactIndex committed =>
    compactIndex ≤ ps.snapIndex ∨ compactIndex < ps.firstIndex ∨ ps.lastIndex < compactIndex ∨
      committed = false
  | _ => True

instance (ps : PebbleStorage) : (op : StorageOp) → Decidable (KeepsBoundary ps op)
  | .save .. => inferInstanceAs (Decidable True)
  | .createSnapshot .. => inferInstanceAs (Decidable (_ ∨ _ ∨ _ ∨ _ ∨ _))
  | .compact .. => inferInstanceAs (Decidable (_ ∨ _ ∨ _ ∨ _))
  | .reopen => inferInstanceAs (Decidable True)

/-- How disk, memory and the log in memory belong together. -/
structure Refines (ps : PebbleStorage) (m : MemoryLog) : Prop where
  first : ps.firstIndex = m.log.offset + 1
  last : ps.lastIndex = m.log.last
  snapshot : ps.snapshot = m.snapshot
  loaded : PebbleStorage.load ps.db = ps
  holds : ps.db.entries.Holds m.log
  indexed : ∀ i e, m.log.get? i = some e → e.index = i
  /-- A stored entry at the offset has the right term. -/
  sentinel : 0 < m.log.offset → ∀ e, ps.db.entries.get? m.log.offset = some e →
    e.term = m.offsetTerm
  start : m.log.offset = 0 → m.offsetTerm = 0
  bounded : m.log.offset ≤ m.snapIndex ∨ ps.db.entries.get? m.log.offset ≠ none
  covered : ∀ s, m.snapshot = some s → 0 < s.index ∧
    (m.log.offset ≤ s.index → s.index ≤ m.log.last ∧ m.term s.index = s.term)

namespace Refines

variable {ps : PebbleStorage} {m : MemoryLog}

theorem snapIndex_eq (h : Refines ps m) : ps.snapIndex = m.snapIndex := by
  rw [PebbleStorage.snapIndex, MemoryLog.snapIndex, h.snapshot]

theorem empty : Refines (PebbleStorage.load Disk.empty) MemoryLog.empty where
  first := rfl
  last := rfl
  snapshot := rfl
  loaded := rfl
  holds i hlo hhi := absurd hhi (Nat.not_le.mpr hlo)
  indexed i e he := by
    obtain ⟨hlo, hhi⟩ := OffsetLog.lt_of_get? _ he
    exact absurd hhi (Nat.not_le.mpr hlo)
  sentinel hpos := absurd hpos (Nat.lt_irrefl 0)
  start _ := rfl
  bounded := .inl (Nat.le_refl 0)
  covered s hs := by cases hs

end Refines

private theorem takeSize_started (size : Entry → ℕ) (maxSize : ℕ) (es : List Entry) (total : ℕ) :
    ∃ n, PebbleStorage.takeSize size maxSize total true es = es.take n ∧ n ≤ es.length ∧
      (0 < n → total + ((es.take n).map size).sum ≤ maxSize) ∧
      (n < es.length → maxSize < total + ((es.take (n + 1)).map size).sum) := by
  induction es generalizing total with
  | nil => exact ⟨0, rfl, Nat.le_refl 0, fun h => absurd h (Nat.lt_irrefl 0), fun h => by cases h⟩
  | cons e es ih =>
    simp only [PebbleStorage.takeSize]
    by_cases hover : maxSize < total + size e
    · refine ⟨0, by simp [hover], Nat.zero_le _, fun h => absurd h (Nat.lt_irrefl 0), fun _ => ?_⟩
      simpa using hover
    · obtain ⟨n, htake, hlen, hfits, hmost⟩ := ih (total + size e)
      refine ⟨n + 1, by simp [hover, htake], Nat.succ_le_succ hlen, fun _ => ?_, fun hlt => ?_⟩
      · rcases Nat.eq_zero_or_pos n with rfl | hpos
        · simp only [take_succ_cons, take_zero, map_cons, map_nil,
            sum_cons, sum_nil]
          omega
        · have hsum := hfits hpos
          simp only [take_succ_cons, map_cons, sum_cons]
          omega
      · have hsum := hmost (Nat.lt_of_succ_lt_succ hlt)
        rw [take_succ_cons, map_cons, sum_cons]
        omega

theorem takeSize_cut (size : Entry → ℕ) (maxSize : ℕ) (es : List Entry) :
    CutBySize size maxSize es (PebbleStorage.takeSize size maxSize 0 false es) := by
  cases es with
  | nil =>
    exact ⟨prefix_rfl, fun h => absurd rfl h, fun h => (by cases h), fun h => (by cases h)⟩
  | cons e es =>
    obtain ⟨n, htake, hlen, hfits, hmost⟩ := takeSize_started size maxSize es (0 + size e)
    have hresult : PebbleStorage.takeSize size maxSize 0 false (e :: es) = e :: es.take n := by
      simp [PebbleStorage.takeSize, ← htake]
    have hlength : (e :: es.take n).length = n + 1 := by
      rw [length_cons, length_take]
      omega
    rw [hresult]
    refine ⟨?_, fun _ => cons_ne_nil _ _, fun h => ?_, fun h => ?_⟩
    · rw [← take_succ_cons]
      exact take_prefix _ _
    · rw [hlength] at h
      have hsum := hfits (by omega)
      rw [map_cons, sum_cons]
      omega
    · rw [hlength] at h ⊢
      rw [length_cons] at h
      have hsum := hmost (by omega)
      rw [take_succ_cons, map_cons, sum_cons]
      omega

namespace Refines

variable {ps : PebbleStorage} {m : MemoryLog} {size : Entry → ℕ}

theorem entries_cut (h : Refines ps m) {lo hi : ℕ} (maxSize : ℕ) (hlo : ps.firstIndex ≤ lo)
    (hhi : hi ≤ ps.lastIndex + 1) :
    ∃ p, ps.entries size lo hi maxSize = .ok p ∧ CutBySize size maxSize (m.log.slice lo hi) p := by
  have hlo' : m.log.offset < lo := by
    rw [h.first] at hlo
    exact hlo
  have hhi' : hi ≤ m.log.last + 1 := h.last ▸ hhi
  unfold PebbleStorage.entries
  rw [if_neg (Nat.not_lt.mpr hlo), if_neg (Nat.not_lt.mpr hhi)]
  by_cases hempty : hi ≤ lo
  · rw [if_pos hempty]
    have hslice : m.log.slice lo hi = [] := by
      rw [OffsetLog.slice, Nat.sub_eq_zero_of_le hempty, take_zero]
    rw [hslice]
    exact ⟨[], rfl, takeSize_cut size maxSize []⟩
  · rw [if_neg hempty, h.holds.scan_eq hlo' hhi']
    exact ⟨_, rfl, takeSize_cut size maxSize _⟩

theorem term_stored (h : Refines ps m) {i : ℕ} (hlo : m.log.offset < i) (hhi : i ≤ m.log.last) :
    ps.term i = .ok (m.term i) := by
  obtain ⟨e, he⟩ := m.log.get?_isSome hlo hhi
  have hterm : m.term i = e.term := by
    rw [MemoryLog.term, if_neg (Nat.ne_of_gt hlo), he, elim_some]
  have hfirst := h.first
  have hlast := h.last
  unfold PebbleStorage.term
  rw [if_neg (by omega), h.snapshot]
  cases hs : m.snapshot.filter (·.index = i) with
  | some s =>
    obtain ⟨hsnap, heq⟩ := filter_eq_some_iff.mp hs
    have heq : s.index = i := of_decide_eq_true heq
    subst heq
    have hcovered := (h.covered s hsnap).2 (Nat.le_of_lt hlo)
    rw [hcovered.2]
  | none =>
    dsimp only
    rw [if_neg (by omega), if_neg (by omega), h.holds i hlo hhi, he, hterm]

theorem term_offset_iff (h : Refines ps m) :
    ps.term m.log.offset = .ok (m.term m.log.offset) ↔ BoundaryKept ps := by
  have hfirst := h.first
  have hlast := h.last
  have hle := m.log.offset_le_last
  have hterm : m.term m.log.offset = m.offsetTerm := if_pos rfl
  have hpred : ps.firstIndex - 1 = m.log.offset := by omega
  unfold BoundaryKept
  rw [hterm, hpred]
  unfold PebbleStorage.term
  rcases Nat.eq_zero_or_pos m.log.offset with hzero | hpos
  · rw [if_pos hzero, h.start hzero]
    exact iff_of_true rfl (.inl (by omega))
  · rw [if_neg (by omega)]
    cases hs : ps.snapshot.filter (·.index = m.log.offset) with
    | some s =>
      obtain ⟨hs, heq⟩ := filter_eq_some_iff.mp hs
      have heq : s.index = m.log.offset := of_decide_eq_true heq
      have hcovered := (h.covered s (h.snapshot ▸ hs)).2 (Nat.le_of_eq heq.symm)
      rw [heq, hterm] at hcovered
      have hindex : ps.snapIndex = m.log.offset := by
        rw [PebbleStorage.snapIndex, hs, elim_some, heq]
      exact iff_of_true (congrArg Except.ok hcovered.2.symm) (.inr (.inl (by omega)))
    | none =>
      have hindex : ps.snapIndex ≠ m.log.offset := by
        intro heq
        rcases hsnap : ps.snapshot with _ | s
        · rw [PebbleStorage.snapIndex, hsnap, elim_none] at heq
          omega
        · rw [PebbleStorage.snapIndex, hsnap, elim_some] at heq
          rw [hsnap, filter_some, if_pos (by simp [heq])] at hs
          cases hs
      dsimp only
      rw [if_neg (by omega), if_neg (by omega)]
      cases he : ps.db.entries.get? m.log.offset with
      | some e =>
        have hright := h.sentinel hpos e he
        exact iff_of_true (congrArg Except.ok hright) (.inr (.inr (by simp)))
      | none =>
        refine iff_of_false (fun herr => by cases herr) ?_
        rintro (hone | hsnap | hstored)
        · omega
        · omega
        · exact hstored rfl

theorem install (h : Refines ps m) {cs : ConfState} {snap : Option Snapshot}
    (hsnap : ∀ s, snap = some s → 0 < s.index) :
    Refines (ps.installed cs snap) (m.install snap) := by
  cases snap with
  | none =>
    exact ⟨h.first, h.last, h.snapshot, PebbleStorage.load_installed h.loaded cs none, h.holds,
      h.indexed, h.sentinel, h.start, h.bounded, h.covered⟩
  | some s =>
    have hpos := hsnap s rfl
    refine ⟨rfl, rfl, rfl, rfl, ?_, ?_, ?_, ?_, .inl (Nat.le_refl _), ?_⟩
    · intro i hlo hhi
      exact absurd hhi (Nat.not_le.mpr hlo)
    · intro i e he
      obtain ⟨hlo, hhi⟩ := OffsetLog.lt_of_get? _ he
      exact absurd hhi (Nat.not_le.mpr hlo)
    · intro _ e he
      have hgone : (ps.db.entries.eraseRange 0 (s.index + 1)).get? s.index = none := by
        rw [get?_eraseRange, if_pos ⟨Nat.zero_le _, Nat.lt_succ_self _⟩]
      change (ps.db.entries.eraseRange 0 (s.index + 1)).get? s.index = some e at he
      rw [hgone] at he
      cases he
    · intro hzero
      exact absurd hzero (Nat.ne_of_gt hpos)
    · intro s' hs'
      cases hs'
      exact ⟨hpos, fun _ => ⟨Nat.le_refl _, if_pos rfl⟩⟩

end Refines

section Append

variable {l : OffsetLog Entry} {om : OrdMap ℕ Entry} {es : List Entry}

variable {e : Entry}

theorem index_of_numbered {e' : Entry} {k : ℕ}
    (h : (e :: es).IsChain fun e e' => e'.index = e.index + 1) (hk : (e :: es)[k]? = some e') :
    e'.index = e.index + k := by
  induction es generalizing e k with
  | nil =>
    cases k with
    | zero =>
      cases hk
      rfl
    | succ k => cases hk
  | cons e₁ es ih =>
    rw [isChain_cons_cons] at h
    cases k with
    | zero =>
      cases hk
      rfl
    | succ k =>
      rw [getElem?_cons_succ] at hk
      have hindex := ih h.2 hk
      omega

theorem foldl_saveEntry_dropWhile (first : ℕ) (log : OrdMap ℕ Entry × ℕ) :
    es.foldl (PebbleStorage.saveEntry first) log =
      (es.dropWhile (·.index < first)).foldl (PebbleStorage.saveEntry first) log := by
  induction es with
  | nil => rfl
  | cons e es ih =>
    by_cases hskip : e.index < first
    · rw [dropWhile_cons_of_pos (by simpa using hskip), foldl_cons,
        PebbleStorage.saveEntry, if_pos hskip, ih]
    · rw [dropWhile_cons_of_neg (by simpa using hskip)]

theorem saveEntry_holds (h : om.Holds l) (hlo : l.offset < e.index) (hhi : e.index ≤ l.last + 1) :
    (PebbleStorage.saveEntry (l.offset + 1) (om, l.last) e).1.Holds (l.splice e.index [e]) ∧
      (PebbleStorage.saveEntry (l.offset + 1) (om, l.last) e).2 = (l.splice e.index [e]).last ∧
      ∀ j ≤ l.offset, (PebbleStorage.saveEntry (l.offset + 1) (om, l.last) e).1.get? j =
        om.get? j := by
  have hlast := l.last_splice [e] hlo hhi
  rw [length_singleton] at hlast
  unfold PebbleStorage.saveEntry
  rw [if_neg (by omega)]
  have hkept : ∀ j, j < e.index →
      (if e.index ≤ l.last then om.eraseRange e.index (l.last + 1) else om).get? j = om.get? j := by
    intro j hj
    split
    · rw [get?_eraseRange, if_neg (by omega)]
    · rfl
  refine ⟨h.put hlo hhi hkept, by dsimp only; omega, fun j hj => ?_⟩
  dsimp only
  rw [get?_insert, if_neg (by omega), hkept j (by omega)]

theorem foldl_saveEntry_holds (h : om.Holds l)
    (hes : (e :: es).IsChain fun e e' => e'.index = e.index + 1) (hlo : l.offset < e.index)
    (hhi : e.index ≤ l.last + 1) :
    let log := (e :: es).foldl (PebbleStorage.saveEntry (l.offset + 1)) (om, l.last)
    log.1.Holds (l.splice e.index (e :: es)) ∧ log.2 = (l.splice e.index (e :: es)).last ∧
      ∀ j ≤ l.offset, log.1.get? j = om.get? j := by
  induction es generalizing e om l with
  | nil => exact saveEntry_holds h hlo hhi
  | cons e₁ es ih =>
    rw [isChain_cons_cons] at hes
    obtain ⟨hnext, hes⟩ := hes
    obtain ⟨hholds, hlast, hbelow⟩ := saveEntry_holds h hlo hhi
    have hreach := l.last_splice [e] hlo hhi
    rw [length_singleton] at hreach
    have hrest := ih (l := l.splice e.index [e]) hholds hes
      (by rw [OffsetLog.offset_splice]; omega) (by omega)
    rw [OffsetLog.offset_splice, hnext, l.splice_splice hlo hhi, ← hlast] at hrest
    refine ⟨hrest.1, hrest.2.1, fun j hj => ?_⟩
    exact (hrest.2.2 j hj).trans (hbelow j hj)

theorem adjoins_of_dropWhile {entries : List Entry} {offset last : ℕ}
    (hnum : entries.IsChain fun e e' => e'.index = e.index + 1)
    (hhead : ∀ e ∈ entries.head?, e.index ≤ last + 1) (hle : offset ≤ last)
    (hdrop : entries.dropWhile (·.index ≤ offset) = e :: es) :
    offset < e.index ∧ e.index ≤ last + 1 := by
  induction entries with
  | nil => cases hdrop
  | cons e₀ entries ih =>
    by_cases hskip : e₀.index ≤ offset
    · rw [dropWhile_cons_of_pos (by simpa using hskip)] at hdrop
      refine ih hnum.tail (fun e₁ he₁ => ?_) hdrop
      cases entries with
      | nil => cases he₁
      | cons e₂ entries =>
        obtain rfl : e₂ = e₁ := Option.some.inj he₁
        have hnext := (isChain_cons_cons.mp hnum).1
        omega
    · rw [dropWhile_cons_of_neg (by simpa using hskip)] at hdrop
      cases hdrop
      exact ⟨Nat.not_le.mp hskip, hhead e rfl⟩

end Append

namespace Refines

variable {ps : PebbleStorage} {m : MemoryLog}

variable {hs : HardState} {entries : List Entry}

theorem append (h : Refines ps m) (hsuf : Suffix ps entries) :
    Refines (ps.appended hs entries) (m.append entries) := by
  have hfirst := h.first
  have hlast := h.last
  have hload := PebbleStorage.load_appended h.loaded hs entries
  have hskip : (fun e : Entry => decide (e.index < m.log.offset + 1)) =
      fun e => decide (e.index ≤ m.log.offset) :=
    funext fun e => decide_eq_decide.mpr Nat.lt_succ_iff
  have hfold : entries.foldl (PebbleStorage.saveEntry ps.firstIndex) (ps.db.entries, ps.lastIndex) =
      (entries.dropWhile (·.index ≤ m.log.offset)).foldl
        (PebbleStorage.saveEntry (m.log.offset + 1)) (ps.db.entries, m.log.last) := by
    rw [hfirst, hlast, foldl_saveEntry_dropWhile, hskip]
  unfold MemoryLog.append
  cases hdrop : entries.dropWhile (·.index ≤ m.log.offset) with
  | nil =>
    rw [hdrop, foldl_nil] at hfold
    have hentries : (ps.appended hs entries).db.entries = ps.db.entries :=
      congrArg Prod.fst hfold
    refine ⟨hfirst, ?_, h.snapshot, hload, ?_, h.indexed, ?_, h.start, ?_, h.covered⟩
    · exact congrArg Prod.snd hfold
    · rw [hentries]
      exact h.holds
    · rw [hentries]
      exact h.sentinel
    · rw [hentries]
      exact h.bounded
  | cons e es =>
    rw [hdrop] at hfold
    have hsuffix : e :: es <:+ entries := hdrop ▸ dropWhile_suffix _
    have hnum : (e :: es).IsChain fun e e' => e'.index = e.index + 1 :=
      hsuf.numbered.suffix hsuffix
    obtain ⟨hlo, hhi⟩ := adjoins_of_dropWhile hsuf.numbered
      (fun e he => hlast ▸ hsuf.adjoins e he) m.log.offset_le_last hdrop
    obtain ⟨hholds, hlast', hbelow⟩ := foldl_saveEntry_holds h.holds hnum hlo hhi
    rw [← hfold] at hholds hlast' hbelow
    have hreach := m.log.last_splice (e :: es) hlo hhi
    have hsame : (ps.appended hs entries).db.entries.get? m.log.offset =
        ps.db.entries.get? m.log.offset := hbelow _ (Nat.le_refl _)
    refine ⟨hfirst, hlast', h.snapshot, hload, hholds, ?_, ?_, h.start, ?_, ?_⟩
    · intro i e' he'
      change (m.log.splice e.index (e :: es)).get? i = some e' at he'
      rcases Nat.lt_or_ge i e.index with hi | hi
      · rw [m.log.get?_splice_of_lt hhi hi] at he'
        exact h.indexed i e' he'
      · rw [m.log.get?_splice_of_ge hlo hhi hi] at he'
        have hindex := index_of_numbered hnum he'
        omega
    · intro hpos e' he'
      exact h.sentinel hpos e' (hsame ▸ he')
    · exact h.bounded.imp_right fun hne => hsame ▸ hne
    · intro s hs'
      obtain ⟨hpos, hcov⟩ := h.covered s hs'
      refine ⟨hpos, fun hoff => ?_⟩
      obtain ⟨hle, hterm⟩ := hcov hoff
      have hsnap : ps.snapIndex = s.index := by
        rw [PebbleStorage.snapIndex, h.snapshot, hs', elim_some]
      -- The last entry of the suffix reaches the snapshot.
      have hend : s.index < e.index + (e :: es).length := by
        obtain ⟨z, hz⟩ : ∃ z, (e :: es).getLast? = some z := ⟨_, getLast?_cons⟩
        have hmem : z ∈ entries.getLast? := by
          obtain ⟨front, rfl⟩ := hsuffix
          rw [mem_def, getLast?_append, hz, some_or]
        have hreaches := hsuf.reaches z hmem
        rw [getLast?_eq_getElem?] at hz
        have hindex := index_of_numbered hnum hz
        rw [length_cons] at hindex ⊢
        omega
      refine ⟨by change s.index ≤ (m.log.splice e.index (e :: es)).last; omega, ?_⟩
      rw [← hterm]
      unfold MemoryLog.term
      change (if s.index = m.log.offset then m.offsetTerm else
        ((m.log.splice e.index (e :: es)).get? s.index).elim 0 Entry.term) = _
      by_cases hoffset : s.index = m.log.offset
      · rw [if_pos hoffset, if_pos hoffset]
      · rw [if_neg hoffset, if_neg hoffset]
        congr 1
        rcases Nat.lt_or_ge s.index e.index with hi | hi
        · exact m.log.get?_splice_of_lt hhi hi
        · -- Where the snapshot covers the suffix, it repeats what is stored.
          rw [m.log.get?_splice_of_ge hlo hhi hi]
          have hlt : s.index - e.index < (e :: es).length := by omega
          have hget := getElem?_eq_getElem hlt
          have hindex := index_of_numbered hnum hget
          have hmem : (e :: es)[s.index - e.index] ∈ entries :=
            hsuffix.subset (getElem_mem hlt)
          have hstored := hsuf.keeps _ hmem (by omega) (by omega)
          rw [hget, ← hstored]
          have heq : ((e :: es)[s.index - e.index]).index = s.index := by omega
          rw [heq]
          exact h.holds s.index (by omega) hle

theorem createSnapshot (h : Refines ps m) (index : ℕ) (cs : ConfState) (data : SnapshotID)
    (committed : Bool) : Refines (ps.createSnapshot index cs data committed).1
      (m.apply (.createSnapshot index cs data committed)) := by
  have hfirst := h.first
  have hlast := h.last
  have hsnap := h.snapIndex_eq
  dsimp only [MemoryLog.apply]
  unfold PebbleStorage.createSnapshot
  rw [hsnap]
  by_cases holder : index ≤ m.snapIndex
  · rw [if_pos holder, if_pos (.inl holder)]
    exact h
  rw [if_neg holder]
  by_cases hbeyond : m.log.last < index
  · rw [if_pos (by omega), if_pos (.inr (.inr (.inl hbeyond)))]
    exact h
  rw [if_neg (by omega)]
  have hother : ps.snapshot.filter (·.index = index) = none := by
    rw [filter_eq_none_iff]
    intro s hs heq
    have heq : s.index = index := of_decide_eq_true heq
    rw [MemoryLog.snapIndex, ← h.snapshot, hs, elim_some] at holder
    omega
  by_cases hbelow : index < m.log.offset
  · have hterm : ps.term index = .error .compacted := by
      unfold PebbleStorage.term
      rw [if_neg (by omega), hother]
      dsimp only
      rw [if_pos (by omega)]
    rw [hterm, if_pos (.inr (.inl hbelow))]
    exact h
  have hterm : ps.term index = .ok (m.term index) := by
    rcases Nat.lt_or_ge m.log.offset index with hlo | hge
    · exact h.term_stored hlo (Nat.not_lt.mp hbeyond)
    · have heq : index = m.log.offset := by omega
      subst heq
      refine h.term_offset_iff.mpr (.inr (.inr ?_))
      have hpred : ps.firstIndex - 1 = m.log.offset := by omega
      rw [hpred]
      exact h.bounded.resolve_left holder
  rw [hterm]
  dsimp only
  cases committed with
  | false =>
    rw [if_neg Bool.false_ne_true, if_pos (.inr (.inr (.inr rfl)))]
    exact h
  | true =>
    have hcond : ¬ (index ≤ m.snapIndex ∨ index < m.log.offset ∨ m.log.last < index ∨
        true = false) := by simp [holder, hbelow, hbeyond]
    rw [if_pos rfl, if_neg hcond]
    have hload := h.loaded
    simp only [PebbleStorage.load, PebbleStorage.ext_iff, true_and] at hload
    obtain ⟨hlf, hll, -⟩ := hload
    refine ⟨hfirst, hlast, rfl, ?_, h.holds, h.indexed, h.sentinel, h.start, .inl ?_, ?_⟩
    · simp only [PebbleStorage.load, hlf, hll]
    · exact Nat.not_lt.mp hbelow
    · intro s hs
      cases hs
      exact ⟨by dsimp only; omega, fun _ => ⟨Nat.not_lt.mp hbeyond, rfl⟩⟩

theorem compact (h : Refines ps m) (compactIndex : ℕ) (committed : Bool) :
    Refines (ps.compact compactIndex committed).1 (m.apply (.compact compactIndex committed)) := by
  have hfirst := h.first
  have hlast := h.last
  dsimp only [MemoryLog.apply]
  unfold PebbleStorage.compact
  by_cases hbelow : compactIndex ≤ m.log.offset
  · rw [if_pos (by omega), if_pos (.inl hbelow)]
    exact h
  by_cases hbeyond : m.log.last < compactIndex
  · rw [if_neg (by omega), if_pos (by omega), if_pos (.inr (.inl hbeyond))]
    exact h
  rw [if_neg (by omega), if_neg (by omega)]
  cases committed with
  | false =>
    rw [if_neg Bool.false_ne_true, if_pos (.inr (.inr rfl))]
    exact h
  | true =>
    have hcond : ¬ (compactIndex ≤ m.log.offset ∨ m.log.last < compactIndex ∨ true = false) := by
      simp [hbelow, hbeyond]
    rw [if_pos rfl, if_neg hcond]
    rw [Nat.not_le] at hbelow
    rw [Nat.not_lt] at hbeyond
    have hlo := Nat.le_of_lt hbelow
    have hkept : ∀ j, compactIndex ≤ j →
        (ps.db.entries.eraseRange 0 compactIndex).get? j = ps.db.entries.get? j := by
      intro j hj
      rw [get?_eraseRange, if_neg (by omega)]
    obtain ⟨e, he⟩ := m.log.get?_isSome hbelow hbeyond
    have hstored : (ps.db.entries.eraseRange 0 compactIndex).get? compactIndex = some e := by
      rw [hkept _ (Nat.le_refl _), h.holds _ hbelow hbeyond, he]
    have hterm : m.term compactIndex = e.term := by
      rw [MemoryLog.term, if_neg (Nat.ne_of_gt hbelow), he, elim_some]
    have hloaded := h.loaded
    simp only [PebbleStorage.load, PebbleStorage.ext_iff] at hloaded
    obtain ⟨-, -, hll, hls⟩ := hloaded
    refine ⟨rfl, ?_, h.snapshot, ?_, h.holds.compact hlo hbeyond hkept, ?_, ?_, ?_, .inr ?_, ?_⟩
    · exact hlast.trans (m.log.last_compact hlo hbeyond).symm
    · simp only [PebbleStorage.load, hll, hls, getD_some, hlast]
    · intro i e' he'
      obtain ⟨hi, -⟩ := OffsetLog.lt_of_get? _ he'
      rw [m.log.get?_compact hlo hi] at he'
      exact h.indexed i e' he'
    · intro _ e' he'
      have heq : e = e' := Option.some.inj (hstored.symm.trans he')
      rw [← heq]
      exact hterm.symm
    · intro hzero
      have hzero : compactIndex = 0 := hzero
      omega
    · change (ps.db.entries.eraseRange 0 compactIndex).get? compactIndex ≠ none
      rw [hstored]
      exact some_ne_none e
    · intro s hs
      obtain ⟨hpos, hcov⟩ := h.covered s hs
      refine ⟨hpos, fun hle => ?_⟩
      have hle : compactIndex ≤ s.index := hle
      obtain ⟨hreach, hsterm⟩ := hcov (by omega)
      refine ⟨(m.log.last_compact hlo hbeyond).symm ▸ hreach, ?_⟩
      unfold MemoryLog.term
      change (if s.index = compactIndex then m.term compactIndex else
        ((m.log.compact compactIndex).get? s.index).elim 0 Entry.term) = _
      by_cases heq : s.index = compactIndex
      · rw [if_pos heq, ← heq, hsterm]
      · rw [if_neg heq, m.log.get?_compact hlo (by omega), ← hsterm, MemoryLog.term,
          if_neg (by omega)]

theorem save (h : Refines ps m) {snap : Option Snapshot} {cs : ConfState} {committed : Bool}
    (hsuf : EmittedByRaft ps (.save snap cs hs entries committed)) :
    Refines (ps.saveRaftState snap cs hs entries committed).1
      (m.apply (.save snap cs hs entries committed)) := by
  simp only [PebbleStorage.saveRaftState, MemoryLog.apply, h.snapIndex_eq]
  by_cases hold : (snap.filter (·.index ≠ 0)).any (·.index ≤ m.snapIndex) = true
  · rw [if_pos hold, if_pos (.inl hold)]
    exact h
  rw [if_neg hold]
  cases committed with
  | false =>
    rw [if_neg Bool.false_ne_true, if_pos (.inr rfl)]
    exact h
  | true =>
    have hcond : ¬ ((snap.filter (·.index ≠ 0)).any (·.index ≤ m.snapIndex) = true ∨
        true = false) := fun hor => hor.elim hold (fun heq => by cases heq)
    rw [if_pos rfl, if_neg hcond]
    refine (h.install fun s hs => ?_).append hsuf
    have hne := (filter_eq_some_iff.mp hs).2
    exact Nat.pos_of_ne_zero (of_decide_eq_true hne)

theorem apply (h : Refines ps m) {op : StorageOp} (hop : EmittedByRaft ps op) :
    Refines (ps.apply op).1 (m.apply op) := by
  cases op with
  | save snap cs hs entries committed => exact h.save hop
  | createSnapshot index cs data committed => exact h.createSnapshot index cs data committed
  | compact compactIndex committed => exact h.compact compactIndex committed
  | reopen =>
    change Refines (PebbleStorage.load ps.db) m
    rw [h.loaded]
    exact h

theorem snapshot_mono (h : Refines ps m) (op : StorageOp) :
    ps.snapIndex ≤ (ps.apply op).1.snapIndex := by
  cases op with
  | save snap cs hs entries committed =>
    simp only [PebbleStorage.apply, PebbleStorage.saveRaftState]
    by_cases hold : (snap.filter (·.index ≠ 0)).any (·.index ≤ ps.snapIndex) = true
    · rw [if_pos hold]
    rw [if_neg hold]
    cases committed with
    | false => exact Nat.le_refl _
    | true =>
      rw [if_pos rfl]
      cases hs : snap.filter (·.index ≠ 0) with
      | none => exact Nat.le_refl _
      | some s =>
        rw [hs, any_some, decide_eq_true_eq] at hold
        exact Nat.le_of_not_le hold
  | createSnapshot index cs data committed =>
    simp only [PebbleStorage.apply, PebbleStorage.createSnapshot]
    by_cases holder : index ≤ ps.snapIndex
    · rw [if_pos holder]
    rw [if_neg holder]
    by_cases hbeyond : ps.lastIndex < index
    · rw [if_pos hbeyond]
    rw [if_neg hbeyond]
    cases ps.term index with
    | error e => exact Nat.le_refl _
    | ok term =>
      cases committed with
      | false => exact Nat.le_refl _
      | true => exact Nat.le_of_not_le holder
  | compact compactIndex committed =>
    simp only [PebbleStorage.apply, PebbleStorage.compact]
    split
    · exact Nat.le_refl _
    split
    · exact Nat.le_refl _
    split <;> exact Nat.le_refl _
  | reopen =>
    change _ ≤ (PebbleStorage.load ps.db).snapIndex
    rw [h.loaded]

end Refines

theorem apply_of_error {ps : PebbleStorage} {op : StorageOp} (herr : (ps.apply op).2 ≠ none) :
    (ps.apply op).1 = ps := by
  cases op with
  | save snap cs hs entries committed =>
    simp only [PebbleStorage.apply, PebbleStorage.saveRaftState] at herr ⊢
    split at herr
    · rw [if_pos ‹_›]
    · rw [if_neg ‹_›]
      cases committed with
      | false => rfl
      | true => exact absurd rfl herr
  | createSnapshot index cs data committed =>
    simp only [PebbleStorage.apply, PebbleStorage.createSnapshot] at herr ⊢
    by_cases holder : index ≤ ps.snapIndex
    · rw [if_pos holder]
    rw [if_neg holder] at herr ⊢
    by_cases hbeyond : ps.lastIndex < index
    · rw [if_pos hbeyond]
    rw [if_neg hbeyond] at herr ⊢
    cases hterm : ps.term index with
    | error e => rfl
    | ok term =>
      rw [hterm] at herr
      cases committed with
      | false => rfl
      | true => exact absurd rfl herr
  | compact compactIndex committed =>
    simp only [PebbleStorage.apply, PebbleStorage.compact] at herr ⊢
    by_cases hbelow : compactIndex < ps.firstIndex
    · rw [if_pos hbelow]
    rw [if_neg hbelow] at herr ⊢
    by_cases hbeyond : ps.lastIndex < compactIndex
    · rw [if_pos hbeyond]
    rw [if_neg hbeyond] at herr ⊢
    cases committed with
    | false => rfl
    | true => exact absurd rfl herr
  | reopen => exact absurd rfl herr

namespace Refines

variable {ps : PebbleStorage} {m : MemoryLog}

/-- A state that refines the log meets the contract when the boundary is kept and the newest
snapshot reaches it. -/
theorem behavesAsLog_iff (h : Refines ps m) (size : Entry → ℕ) :
    BehavesAsLog size ps m ↔ BoundaryKept ps ∧ ps.firstIndex ≤ ps.snapIndex + 1 := by
  have hfirst := h.first
  have hlast := h.last
  have hle := m.log.offset_le_last
  constructor
  · intro hb
    exact ⟨h.term_offset_iff.mp (hb.term _ (by omega) (by omega)), hb.snapshot_ge⟩
  · rintro ⟨hkept, hsnap⟩
    refine {
      first_le := by omega
      firstIndex := hfirst
      lastIndex := hlast
      compacted := fun lo hi maxSize hlo => if_pos hlo
      entries := fun lo hi maxSize hlo hhi => h.entries_cut maxSize hlo hhi
      term := fun i hlo hhi => ?_
      snapshot := h.snapshot
      snapshot_ge := hsnap
      snapshot_mono := h.snapshot_mono
      errors := fun op => apply_of_error }
    rcases Nat.lt_or_ge m.log.offset i with hi | hi
    · exact h.term_stored hi (by omega)
    · have heq : i = m.log.offset := by omega
      rw [heq]
      exact h.term_offset_iff.mpr hkept

end Refines

private theorem foldl_saveEntry_below {first j : ℕ} (hj : j < first) (es : List Entry)
    (log : OrdMap ℕ Entry × ℕ) :
    (es.foldl (PebbleStorage.saveEntry first) log).1.get? j = log.1.get? j := by
  induction es generalizing log with
  | nil => rfl
  | cons e es ih =>
    rw [foldl_cons, ih]
    unfold PebbleStorage.saveEntry
    by_cases hskip : e.index < first
    · rw [if_pos hskip]
    · rw [if_neg hskip]
      dsimp only
      rw [get?_insert, if_neg (by omega)]
      split
      · rw [get?_eraseRange, if_neg (by omega)]
      · rfl

theorem boundaryKept_save {ps : PebbleStorage} (hkept : BoundaryKept ps)
    (hsnap : ps.firstIndex ≤ ps.snapIndex + 1) (hpos : 0 < ps.firstIndex) (snap : Option Snapshot)
    (cs : ConfState) (hs : HardState) (entries : List Entry) (committed : Bool) :
    let ps' := (ps.saveRaftState snap cs hs entries committed).1
    BoundaryKept ps' ∧ ps'.firstIndex ≤ ps'.snapIndex + 1 := by
  simp only [PebbleStorage.saveRaftState]
  by_cases hold : (snap.filter (·.index ≠ 0)).any (·.index ≤ ps.snapIndex) = true
  · rw [if_pos hold]
    exact ⟨hkept, hsnap⟩
  rw [if_neg hold]
  cases committed with
  | false => exact ⟨hkept, hsnap⟩
  | true =>
    rw [if_pos rfl]
    cases snap.filter (·.index ≠ 0) with
    | none =>
      have hsame : ((ps.installed cs none).appended hs entries).db.entries.get?
          (ps.firstIndex - 1) = ps.db.entries.get? (ps.firstIndex - 1) :=
        foldl_saveEntry_below (Nat.pred_lt (Nat.ne_of_gt hpos)) entries _
      refine ⟨?_, hsnap⟩
      unfold BoundaryKept
      change ps.firstIndex = 1 ∨ ps.snapIndex + 1 = ps.firstIndex ∨
        ((ps.installed cs none).appended hs entries).db.entries.get? (ps.firstIndex - 1) ≠ none
      rw [hsame]
      exact hkept
    | some s => exact ⟨.inr (.inl rfl), Nat.le_refl _⟩

namespace Refines

variable {ps : PebbleStorage} {m : MemoryLog}

theorem boundary_iff (h : Refines ps m) (hkept : BoundaryKept ps)
    (hsnap : ps.firstIndex ≤ ps.snapIndex + 1) (op : StorageOp) :
    (BoundaryKept (ps.apply op).1 ∧ (ps.apply op).1.firstIndex ≤ (ps.apply op).1.snapIndex + 1) ↔
      KeepsBoundary ps op := by
  have hfirst := h.first
  have hlast := h.last
  have hbefore : BoundaryKept ps ∧ ps.firstIndex ≤ ps.snapIndex + 1 := ⟨hkept, hsnap⟩
  cases op with
  | save snap cs hs entries committed =>
    exact iff_of_true (boundaryKept_save hkept hsnap (by omega) snap cs hs entries committed)
      trivial
  | createSnapshot index cs data committed =>
    simp only [PebbleStorage.apply, PebbleStorage.createSnapshot, KeepsBoundary]
    by_cases holder : index ≤ ps.snapIndex
    · rw [if_pos holder]
      exact iff_of_true hbefore (.inr (.inr (.inl holder)))
    rw [if_neg holder]
    by_cases hbeyond : ps.lastIndex < index
    · rw [if_pos hbeyond]
      exact iff_of_true hbefore (.inr (.inr (.inr (.inl hbeyond))))
    rw [if_neg hbeyond, h.term_stored (by omega) (by omega)]
    cases committed with
    | false => exact iff_of_true hbefore (.inr (.inr (.inr (.inr rfl))))
    | true =>
      dsimp only
      rw [if_pos rfl]
      constructor
      · rintro ⟨hone | hnew | hstored, -⟩
        · exact .inl hone
        · have hnew : index + 1 = ps.firstIndex := hnew
          omega
        · exact .inr (.inl hstored)
      · rintro (hone | hstored | hle | hgt | hfalse)
        · exact ⟨.inl hone, Nat.le_succ_of_le (by change ps.firstIndex ≤ index; omega)⟩
        · exact ⟨.inr (.inr hstored),
            Nat.le_succ_of_le (by change ps.firstIndex ≤ index; omega)⟩
        · exact absurd hle holder
        · exact absurd hgt hbeyond
        · cases hfalse
  | compact compactIndex committed =>
    simp only [PebbleStorage.apply, PebbleStorage.compact, KeepsBoundary]
    by_cases hbelow : compactIndex < ps.firstIndex
    · rw [if_pos hbelow]
      exact iff_of_true hbefore (.inr (.inl hbelow))
    rw [if_neg hbelow]
    by_cases hbeyond : ps.lastIndex < compactIndex
    · rw [if_pos hbeyond]
      exact iff_of_true hbefore (.inr (.inr (.inl hbeyond)))
    rw [if_neg hbeyond]
    cases committed with
    | false => exact iff_of_true hbefore (.inr (.inr (.inr rfl)))
    | true =>
      rw [if_pos rfl]
      constructor
      · rintro ⟨-, hle⟩
        have hle : compactIndex + 1 ≤ ps.snapIndex + 1 := hle
        exact .inl (by omega)
      · rintro (hle | hlt | hgt | hfalse)
        · -- The entry at the new offset stays as the sentinel.
          obtain ⟨e, he⟩ := m.log.get?_isSome (i := compactIndex) (by omega) (by omega)
          refine ⟨.inr (.inr ?_), Nat.succ_le_succ hle⟩
          change (ps.db.entries.eraseRange 0 compactIndex).get? compactIndex ≠ none
          rw [get?_eraseRange, if_neg (by omega), h.holds _ (by omega) (by omega), he]
          exact some_ne_none e
        · exact absurd hlt hbelow
        · exact absurd hgt hbeyond
        · cases hfalse
  | reopen =>
    change (BoundaryKept (PebbleStorage.load ps.db) ∧
      (PebbleStorage.load ps.db).firstIndex ≤ (PebbleStorage.load ps.db).snapIndex + 1) ↔ True
    rw [h.loaded]
    exact iff_of_true hbefore trivial

end Refines

theorem run_concat (ops : List StorageOp) (op : StorageOp) :
    PebbleStorage.run (ops ++ [op]) = ((PebbleStorage.run ops).apply op).1 ∧
      MemoryLog.run (ops ++ [op]) = (MemoryLog.run ops).apply op := by
  simp only [PebbleStorage.run, MemoryLog.run, foldl_append, foldl_cons, foldl_nil,
    and_self]

variable {P : List StorageOp → StorageOp → Prop}

theorem steps_concat_iff (ops : List StorageOp) (op : StorageOp) :
    (∀ pre op', pre ++ [op'] <+: ops ++ [op] → P pre op') ↔
      (∀ pre op', pre ++ [op'] <+: ops → P pre op') ∧ P ops op := by
  constructor
  · intro h
    exact ⟨fun pre op' hpre => h pre op' (hpre.trans (prefix_append ops [op])),
      h ops op prefix_rfl⟩
  · rintro ⟨hfront, hlast⟩ pre op' hpre
    rcases prefix_concat_iff.mp hpre with heq | hpre
    · obtain ⟨rfl, hop⟩ := append_inj' heq rfl
      cases hop
      exact hlast
    · exact hfront pre op' hpre

theorem steps_nil : ∀ pre op', pre ++ [op'] <+: [] → P pre op' := by
  intro pre op' hpre
  exact absurd (prefix_nil.mp hpre) (append_ne_nil_of_right_ne_nil _ (by simp))

theorem run_refines {ops : List StorageOp}
    (hraft : ∀ pre op, pre ++ [op] <+: ops → EmittedByRaft (PebbleStorage.run pre) op) :
    Refines (PebbleStorage.run ops) (MemoryLog.run ops) := by
  induction ops using List.reverseRecOn with
  | nil => exact Refines.empty
  | append_singleton ops op ih =>
    obtain ⟨hfront, hop⟩ := (steps_concat_iff ops op).mp hraft
    rw [(run_concat ops op).1, (run_concat ops op).2]
    exact (ih hfront).apply hop

/-- In a run of operations that raft emits, the storage behaves as the log in memory in every state
exactly when every operation keeps the boundary. -/
theorem run_behaves_as_log_iff (size : Entry → ℕ) (ops : List StorageOp)
    (hraft : ∀ pre op, pre ++ [op] <+: ops → EmittedByRaft (PebbleStorage.run pre) op) :
    (∀ pre, pre <+: ops → BehavesAsLog size (PebbleStorage.run pre) (MemoryLog.run pre)) ↔
      ∀ pre op, pre ++ [op] <+: ops → KeepsBoundary (PebbleStorage.run pre) op := by
  induction ops using List.reverseRecOn with
  | nil =>
    refine iff_of_true (fun pre hpre => ?_) steps_nil
    rw [List.prefix_nil.mp hpre]
    exact (Refines.empty.behavesAsLog_iff size).mpr ⟨Or.inl rfl, Nat.le_refl 1⟩
  | append_singleton ops op ih =>
    have hnext := run_refines hraft
    obtain ⟨hfront, -⟩ := (steps_concat_iff ops op).mp hraft
    have hrefines := run_refines hfront
    have hstep := fun hkept hsnap => hrefines.boundary_iff hkept hsnap op
    rw [← (run_concat ops op).1] at hstep
    rw [steps_concat_iff, ← ih hfront]
    constructor
    · intro hall
      obtain ⟨hkept, hsnap⟩ := (hrefines.behavesAsLog_iff size).mp
        (hall ops (List.prefix_append ops [op]))
      refine ⟨fun pre hpre => hall pre (hpre.trans (List.prefix_append ops [op])), ?_⟩
      exact (hstep hkept hsnap).mp ((hnext.behavesAsLog_iff size).mp (hall _ List.prefix_rfl))
    · rintro ⟨hall, hkeeps⟩ pre hpre
      rcases List.prefix_concat_iff.mp hpre with rfl | hpre
      · obtain ⟨hkept, hsnap⟩ := (hrefines.behavesAsLog_iff size).mp
          (hall ops List.prefix_rfl)
        exact (hnext.behavesAsLog_iff size).mpr ((hstep hkept hsnap).mpr hkeeps)
      · exact hall pre hpre

/-- A snapshot of index 5 is installed with one entry after it, and a snapshot is created there. -/
def snapshotAfterInstall : List StorageOp :=
  [.save (some ⟨5, 1, {1}, .archive []⟩) {1} ⟨1, 1, 6⟩ [⟨1, 6, .normal [7]⟩] true,
    .createSnapshot 6 {1} (.taken 3 1 6) true]

/-- The first index stays 6, but the term of the entry before it is gone. -/
theorem created_snapshot_hides_boundary_term :
    (∀ pre op, pre ++ [op] <+: snapshotAfterInstall →
      EmittedByRaft (PebbleStorage.run pre) op) ∧
    (PebbleStorage.run snapshotAfterInstall).firstIndex = 6 ∧
    (PebbleStorage.run snapshotAfterInstall).term 5 = .error .compacted ∧
    ¬ BehavesAsLog (fun _ => 1) (PebbleStorage.run snapshotAfterInstall)
      (MemoryLog.run snapshotAfterInstall) := by
  have hterm : (PebbleStorage.run snapshotAfterInstall).term 5 = .error .compacted := rfl
  refine ⟨?_, rfl, hterm, fun hb => ?_⟩
  · refine (steps_concat_iff [_] _).mpr ⟨?_, trivial⟩
    refine (steps_concat_iff [] _).mpr ⟨steps_nil, ?_⟩
    refine ⟨List.isChain_singleton _, ?_, ?_, ?_⟩
    · intro e he
      cases he
      exact Nat.le_refl 6
    · intro e he
      cases he
      exact Nat.le_succ 5
    · intro e he _ hcovered
      rw [List.mem_singleton.mp he] at hcovered
      exact absurd hcovered (by decide)
  · have hright := hb.term 5 (Nat.le_refl 6) (Nat.le_succ 5)
    rw [hterm] at hright
    cases hright

/-- Three entries, a snapshot of the second and a compaction up to the first. -/
def snapshotThenCompact : List StorageOp :=
  [.save none {1} ⟨1, 1, 2⟩ [⟨1, 1, .normal [7]⟩, ⟨1, 2, .normal [8]⟩, ⟨2, 3, .normal [9]⟩] true,
    .createSnapshot 2 {1} (.taken 3 1 2) true, .compact 1 true]

theorem run_behaves_as_log_sample :
    BehavesAsLog (fun _ => 1) (PebbleStorage.run snapshotThenCompact)
      (MemoryLog.run snapshotThenCompact) := by
  refine (run_behaves_as_log_iff _ snapshotThenCompact ?_).mpr ?_ _ List.prefix_rfl
  · refine (steps_concat_iff [_, _] _).mpr ⟨?_, trivial⟩
    refine (steps_concat_iff [_] _).mpr ⟨?_, trivial⟩
    refine (steps_concat_iff [] _).mpr ⟨steps_nil, ?_⟩
    refine ⟨by decide, ?_, ?_, ?_⟩
    · intro e he
      cases he
      exact Nat.le_refl 1
    · intro e _
      exact Nat.zero_le _
    · intro e he hlo hcovered
      exact absurd (hlo.trans hcovered) (by decide)
  · refine (steps_concat_iff [_, _] _).mpr ⟨?_, by decide⟩
    refine (steps_concat_iff [_] _).mpr ⟨?_, by decide⟩
    exact (steps_concat_iff [] _).mpr ⟨steps_nil, trivial⟩

end Antfly.Raft
