import Antfly.Indexes.FullTextIndex

/-!
Whatever the directory of a full-text index holds when it is opened, the index has to end up with
the documents of the store.  At every moment each document is as the store has it, or an operation
of the queue is about it, or the backfill will still read it; what `rebuild.state` keeps across a
crash is how far the backfill has come.
-/

namespace Antfly.FullText

open List OrdMap

/-- Without the Bleve index a backfill does not resume behind a document that is not queued, and
without the log the Bleve index has no document that the store lacks.  A crash in the middle of a
backfill that leaves log and index leaves `rebuild.state` as it was at that time or earlier.  What
is written is not empty and is stored inside the byte range.  A document that was deleted and
written again is not merged into one batch. -/
def Event.Meets (range : Range) (s : Shard) : Event → Prop
  | .openIndex false =>
    (∀ wal key, s.dir.indexWAL = some wal → s.dir.rebuildState = some key →
      (∀ docs, s.dir.bleve ≠ .index docs) → ∀ id, stored range s.store id ≠ none →
        key ≤ keyRangeStart id ∨ ∃ op ∈ wal, id ∈ op.writes) ∧
    (∀ docs, s.dir.indexWAL = none → s.dir.bleve = .index docs →
      ∀ id, docs.get? id ≠ none → stored range s.store id ≠ none)
  | .crash walLost bleve rebuildState => ∀ key, s.dir.rebuildState = some key →
      walLost = false → bleve = .kept → ∃ key', rebuildState = some key' ∧ key' ≤ key
  | .update writes _ => ∀ e ∈ writes, e.2 ≠ [] ∧ scans range [] (keyRangeStart e.1) = true
  | .dequeue true => ∀ wal, s.dir.indexWAL = some wal → ∀ op ∈ wal.take fullTextMaxBatches,
      ∀ id ∈ op.deletes, stored range s.store id ≠ none →
        ∃ later ∈ wal.drop fullTextMaxBatches, id ∈ later.writes
  | _ => True

variable {x id : Bytes} {writes deletes : List Bytes} {store : DocumentStore} {docs : BleveIndex}
variable {doc : Document} {present : Bytes → Prop} {wal ops : List FullTextIndexOp}

theorem mem_partitions {l : List Bytes} : (∃ p ∈ partitions l, x ∈ p) ↔ x ∈ l := by
  constructor
  · rintro ⟨p, hp, hx⟩
    obtain ⟨i, -, rfl⟩ := mem_map.mp hp
    exact mem_of_mem_drop (mem_of_mem_take hx)
  · intro hx
    obtain ⟨j, hj, rfl⟩ := mem_iff_getElem.mp hx
    have hsize : fullTextPartitionSize = 100 := rfl
    have hi : j / 100 < (l.length + (100 - 1)) / 100 := by omega
    refine ⟨_, mem_map.mpr ⟨j / 100, ?_, rfl⟩, ?_⟩
    · rw [mem_range, hsize]
      exact hi
    · rw [hsize]
      apply mem_iff_getElem.mpr
      refine ⟨j % 100, ?_, ?_⟩
      · rw [length_take, length_drop]
        omega
      · rw [getElem_take, getElem_drop]
        congr 1
        omega

theorem mem_partitionOps_writes :
    (∃ op ∈ partitionOps writes deletes, x ∈ op.writes) ↔ x ∈ writes := by
  rw [← mem_partitions]
  unfold partitionOps
  cases partitions writes with
  | nil => simp
  | cons first rest =>
    constructor
    · rintro ⟨op, hop, hx⟩
      rcases mem_append.mp hop with hop | hop
      · rcases mem_cons.mp hop with rfl | hop
        · exact ⟨first, mem_cons_self .., hx⟩
        · obtain ⟨w, hw, rfl⟩ := mem_map.mp hop
          exact ⟨w, mem_cons_of_mem _ hw, hx⟩
      · obtain ⟨d, -, rfl⟩ := mem_map.mp hop
        cases hx
    · rintro ⟨p, hp, hx⟩
      rcases mem_cons.mp hp with rfl | hp
      · exact ⟨_, mem_append_left _ (mem_cons_self ..), hx⟩
      · exact ⟨_, mem_append_left _ (mem_cons_of_mem _ (mem_map_of_mem hp)), hx⟩

theorem mem_partitionOps_deletes :
    (∃ op ∈ partitionOps writes deletes, x ∈ op.deletes) ↔ x ∈ deletes := by
  have hpartitions : ∀ l : List Bytes,
      (∃ op ∈ (partitions l).map fun d => (⟨[], d⟩ : FullTextIndexOp), x ∈ op.deletes) ↔
        x ∈ l := by
    intro l
    rw [← mem_partitions]
    simp
  unfold partitionOps
  cases partitions writes with
  | nil => exact hpartitions deletes
  | cons first rest =>
    constructor
    · rintro ⟨op, hop, hx⟩
      rcases mem_append.mp hop with hop | hop
      · rcases mem_cons.mp hop with rfl | hop
        · exact mem_of_mem_take hx
        · obtain ⟨w, -, rfl⟩ := mem_map.mp hop
          cases hx
      · exact mem_of_mem_drop ((hpartitions _).mp ⟨op, hop, hx⟩)
    · intro hx
      rw [← take_append_drop fullTextPartitionSize deletes, mem_append] at hx
      rcases hx with hx | hx
      · exact ⟨_, mem_append_left _ (mem_cons_self ..), hx⟩
      · obtain ⟨op, hop, hx⟩ := (hpartitions _).mpr hx
        exact ⟨op, mem_append_right _ hop, hx⟩

theorem get?_indexWrite_of_ne {key : Bytes} (h : id ≠ key) :
    (indexWrite store docs key).get? id = docs.get? id := by
  unfold indexWrite
  split
  · rfl
  · split
    · rfl
    · rw [get?_insert, if_neg h]

/-- A document that is not written, or that the store does not have, is left as it is. -/
theorem get?_foldl_indexWrite_of_skipped (h : id ∉ writes ∨ store.get? (keyRangeStart id) = none) :
    (writes.foldl (indexWrite store) docs).get? id = docs.get? id := by
  induction writes generalizing docs with
  | nil => rfl
  | cons key writes ih =>
    have hrest : id ∉ writes ∨ store.get? (keyRangeStart id) = none := by
      rcases h with h | h
      · exact .inl fun hmem => h (mem_cons_of_mem _ hmem)
      · exact .inr h
    rw [foldl_cons, ih hrest]
    by_cases hid : id = key
    · subst hid
      rcases h with h | h
      · exact absurd (mem_cons_self ..) h
      · rw [indexWrite, h]
    · exact get?_indexWrite_of_ne hid

theorem get?_foldl_indexWrite_of_written (hmem : id ∈ writes)
    (hget : store.get? (keyRangeStart id) = some doc) (hdoc : doc ≠ []) :
    (writes.foldl (indexWrite store) docs).get? id = some (withoutVectors doc) := by
  induction writes generalizing docs with
  | nil => cases hmem
  | cons key writes ih =>
    rw [foldl_cons]
    by_cases hlater : id ∈ writes
    · exact ih hlater
    · have hkey : id = key := by
        rcases mem_cons.mp hmem with heq | hrest
        · exact heq
        · exact absurd hrest hlater
      rw [get?_foldl_indexWrite_of_skipped (.inl hlater), ← hkey, indexWrite, hget]
      have hempty : doc.isEmpty = false := by
        cases doc with
        | nil => exact absurd rfl hdoc
        | cons f doc => rfl
      simp only [hempty, Bool.false_eq_true, if_false]
      rw [get?_insert, if_pos rfl]

variable {op : FullTextIndexOp} {store : DocumentStore} {docs : BleveIndex} {id : Bytes}

theorem get?_execute_of_deleted (h : id ∈ op.deletes) : (op.execute store docs).get? id = none := by
  rw [FullTextIndexOp.execute, get?_foldl_erase, if_pos h]

theorem get?_execute_of_skipped (hdel : id ∉ op.deletes)
    (h : id ∉ op.writes ∨ store.get? (keyRangeStart id) = none) :
    (op.execute store docs).get? id = docs.get? id := by
  rw [FullTextIndexOp.execute, get?_foldl_erase, if_neg hdel,
    get?_foldl_indexWrite_of_skipped h]

theorem get?_execute_of_written (hdel : id ∉ op.deletes) (h : id ∈ op.writes)
    (hget : store.get? (keyRangeStart id) = some doc) (hdoc : doc ≠ []) :
    (op.execute store docs).get? id = some (withoutVectors doc) := by
  rw [FullTextIndexOp.execute, get?_foldl_erase, if_neg hdel,
    get?_foldl_indexWrite_of_written h hget hdoc]

theorem keyRangeStart_inj {a b : Bytes} : keyRangeStart a = keyRangeStart b ↔ a = b := by
  constructor
  · intro h
    exact append_cancel_right h
  · intro h
    rw [h]

theorem get?_applyUpdate_of_deleted {writes : List (Bytes × Document)} (h : id ∈ deletes) :
    (applyUpdate store writes deletes).get? (keyRangeStart id) = none := by
  have hmem : keyRangeStart id ∈ deletes.map keyRangeStart := mem_map_of_mem h
  rw [applyUpdate, ← foldl_map, get?_foldl_erase, if_pos hmem]

theorem get?_applyUpdate_of_kept {writes : List (Bytes × Document)} (h : id ∉ deletes) :
    (applyUpdate store writes deletes).get? (keyRangeStart id) =
      (writes.foldl (fun store e => store.insert (keyRangeStart e.1) e.2) store).get?
        (keyRangeStart id) := by
  have hmem : keyRangeStart id ∉ deletes.map keyRangeStart := by
    intro hmem
    obtain ⟨key, hkey, heq⟩ := mem_map.mp hmem
    rw [keyRangeStart_inj.mp heq] at hkey
    exact h hkey
  rw [applyUpdate, ← foldl_map, get?_foldl_erase, if_neg hmem]

theorem get?_foldl_insert_cases (writes : List (Bytes × Document)) (store : DocumentStore)
    (id : Bytes) :
    (id ∉ writes.map Prod.fst ∧
      (writes.foldl (fun store e => store.insert (keyRangeStart e.1) e.2) store).get?
        (keyRangeStart id) = store.get? (keyRangeStart id)) ∨
    ∃ doc, (id, doc) ∈ writes ∧
      (writes.foldl (fun store e => store.insert (keyRangeStart e.1) e.2) store).get?
        (keyRangeStart id) = some doc := by
  induction writes generalizing store with
  | nil => exact .inl ⟨by simp, rfl⟩
  | cons e writes ih =>
    rw [foldl_cons]
    rcases ih (store.insert (keyRangeStart e.1) e.2) with ⟨hnot, hget⟩ | ⟨doc, hmem, hget⟩
    · rw [hget, get?_insert]
      by_cases hid : id = e.1
      · right
        refine ⟨e.2, ?_, by rw [if_pos (keyRangeStart_inj.mpr hid)]⟩
        rw [hid]
        exact mem_cons_self ..
      · left
        refine ⟨?_, if_neg fun h => hid (keyRangeStart_inj.mp h)⟩
        rw [map_cons, mem_cons, not_or]
        exact ⟨hid, hnot⟩
    · exact .inr ⟨doc, mem_cons_of_mem _ hmem, hget⟩

def Settled (range : Range) (store : DocumentStore) (docs : BleveIndex) (id : Bytes) : Prop :=
  (docs.get? id).map withoutVectors = (stored range store id).map withoutVectors

/-- The queue writes the document, or deletes it if the store does not have it. -/
structure Queued (range : Range) (store : DocumentStore) (wal : List FullTextIndexOp)
    (id : Bytes) : Prop where
  write : stored range store id ≠ none → ∃ op ∈ wal, id ∈ op.writes
  delete : stored range store id = none → ∃ op ∈ wal, id ∈ op.deletes

/-- After every queued delete of a document that the store has, the queue writes it. -/
def Rewritten (present : Bytes → Prop) : List FullTextIndexOp → Prop
  | [] => True
  | op :: wal => (∀ id ∈ op.deletes, present id → ∃ later ∈ wal, id ∈ later.writes) ∧
      Rewritten present wal

theorem Rewritten.write (h : Rewritten present wal) {op : FullTextIndexOp} (hop : op ∈ wal)
    (hid : id ∈ op.deletes) (hpresent : present id) :
    ∃ later ∈ wal, id ∈ later.writes := by
  induction wal with
  | nil => cases hop
  | cons first wal ih =>
    rcases mem_cons.mp hop with rfl | hop
    · obtain ⟨later, hlater, hmem⟩ := h.1 id hid hpresent
      exact ⟨later, mem_cons_of_mem _ hlater, hmem⟩
    · obtain ⟨later, hlater, hmem⟩ := ih h.2 hop
      exact ⟨later, mem_cons_of_mem _ hlater, hmem⟩

theorem Rewritten.drop (h : Rewritten present wal) (n : ℕ) : Rewritten present (wal.drop n) := by
  induction wal generalizing n with
  | nil =>
    rw [drop_nil]
    trivial
  | cons op wal ih =>
    cases n with
    | zero => exact h
    | succ n => exact ih h.2 n

theorem Rewritten.of_absent (h : ∀ op ∈ ops, ∀ id ∈ op.deletes, ¬ present id) :
    Rewritten present ops := by
  induction ops with
  | nil => trivial
  | cons op ops ih =>
    refine ⟨fun id hid hpresent => ?_, ih fun o ho => h o (mem_cons_of_mem _ ho)⟩
    exact absurd hpresent (h op (mem_cons_self ..) id hid)

theorem Rewritten.append {present' : Bytes → Prop} (h : Rewritten present wal)
    (hnew : ∀ id, present' id → present id ∨ ∃ op ∈ ops, id ∈ op.writes)
    (hdeleted : ∀ op ∈ ops, ∀ id ∈ op.deletes, ¬ present' id) :
    Rewritten present' (wal ++ ops) := by
  induction wal with
  | nil => exact Rewritten.of_absent hdeleted
  | cons op wal ih =>
    refine ⟨fun id hid hpresent => ?_, ih h.2⟩
    rcases hnew id hpresent with hold | ⟨later, hlater, hmem⟩
    · obtain ⟨later, hlater, hmem⟩ := h.1 id hid hold
      exact ⟨later, mem_append_left _ hlater, hmem⟩
    · exact ⟨later, mem_append_right _ hlater, hmem⟩

/-- Each document is settled or queued, or a backfill that starts at the recorded key reads it.  A
scan has all that is neither settled nor queued still before it. -/
structure Rebuildable (range : Range) (s : Shard) : Prop where
  written : ∀ wal, s.dir.indexWAL = some wal → ∀ op ∈ wal, ∀ id ∈ op.writes, ∀ doc,
    s.store.get? (keyRangeStart id) = some doc →
      doc ≠ [] ∧ scans range [] (keyRangeStart id) = true
  rewritten : ∀ wal, s.dir.indexWAL = some wal →
    Rewritten (fun id => stored range s.store id ≠ none) wal
  behind : ∀ wal docs, s.dir.indexWAL = some wal → s.dir.bleve = .index docs → ∀ id,
    Settled range s.store docs id ∨ Queued range s.store wal id ∨
      ∃ key, s.dir.rebuildState = some key ∧ stored range s.store id ≠ none ∧
        key ≤ keyRangeStart id
  opened : s.process ≠ none → s.dir.indexWAL ≠ none ∧ ∃ docs, s.dir.bleve = .index docs
  finished : s.process = some none → s.dir.rebuildState = none
  scheduled : ∀ key, s.process = some (some (.scheduled key)) → s.dir.rebuildState = some key
  scanning : ∀ todo wal docs, s.process = some (some (.scanning todo)) →
    s.dir.indexWAL = some wal → s.dir.bleve = .index docs →
      (∃ key, s.dir.rebuildState = some key ∧ ∀ e ∈ todo, key ≤ keyRangeStart e.1) ∧
      todo.Pairwise (fun e e' => keyRangeStart e.1 < keyRangeStart e'.1) ∧
      (∀ e ∈ todo, stored range s.store e.1 = some e.2 ∨ Queued range s.store wal e.1) ∧
      ∀ id, Settled range s.store docs id ∨ Queued range s.store wal id ∨
        ∃ e ∈ todo, e.1 = id

theorem Rebuildable.complete {range : Range} {s : Shard} (h : Rebuildable range s) :
    Complete range s := by
  intro hprocess hwal
  obtain ⟨-, docs, hdocs⟩ := h.opened (by rw [hprocess]; simp)
  refine ⟨docs, hdocs, fun id => ?_⟩
  rcases h.behind [] docs hwal hdocs id with hsettled | hqueued | ⟨key, hkey, -, -⟩
  · exact hsettled
  · by_cases hstored : stored range s.store id = none
    · obtain ⟨op, hop, -⟩ := hqueued.delete hstored
      cases hop
    · obtain ⟨op, hop, -⟩ := hqueued.write hstored
      cases hop
  · rw [h.finished hprocess] at hkey
    cases hkey

namespace Rebuildable

variable {range : Range} {s s' : Shard}

theorem openIndex_cases (dir : IndexDir) (rebuild : Bool) :
    dir.openIndex rebuild = (⟨some [], .index .empty, some []⟩, some []) ∨
    (rebuild = false ∧ dir.indexWAL = none ∧ ∃ docs, dir.bleve = .index docs ∧
      dir.openIndex rebuild = (⟨some [], .index docs, some []⟩, some [])) ∨
    (rebuild = false ∧ ∃ wal, dir.indexWAL = some wal ∧ (∀ docs, dir.bleve ≠ .index docs) ∧
      dir.openIndex rebuild = (⟨some wal, .index .empty, some (dir.rebuildState.getD [])⟩,
        some (dir.rebuildState.getD []))) ∨
    (rebuild = false ∧ ∃ wal docs, dir.indexWAL = some wal ∧ dir.bleve = .index docs ∧
      dir.openIndex rebuild = (⟨some wal, .index docs, dir.rebuildState⟩, dir.rebuildState)) := by
  obtain ⟨wal, bleve, state⟩ := dir
  cases rebuild with
  | true => exact .inl rfl
  | false =>
    cases wal with
    | none =>
      cases bleve with
      | missing => exact .inl rfl
      | unopenable => exact .inl rfl
      | index docs => exact .inr (.inl ⟨rfl, rfl, docs, rfl, rfl⟩)
    | some wal =>
      cases bleve with
      | missing => exact .inr (.inr (.inl ⟨rfl, wal, rfl, by simp, rfl⟩))
      | unopenable => exact .inr (.inr (.inl ⟨rfl, wal, rfl, by simp, rfl⟩))
      | index docs =>
        cases state with
        | none => exact .inr (.inr (.inr ⟨rfl, wal, docs, rfl, rfl, rfl⟩))
        | some key => exact .inr (.inr (.inr ⟨rfl, wal, docs, rfl, rfl, rfl⟩))

/-- An opened index is in order when a backfill, if there is one, starts in front of everything
that is behind. -/
theorem reopened {wal : List FullTextIndexOp} {docs : BleveIndex} {key : Option Bytes}
    (recorded : List Bytes)
    (hwritten : ∀ op ∈ wal, ∀ id ∈ op.writes, ∀ doc, s.store.get? (keyRangeStart id) = some doc →
      doc ≠ [] ∧ scans range [] (keyRangeStart id) = true)
    (hrewritten : Rewritten (fun id => stored range s.store id ≠ none) wal)
    (hbehind : ∀ id, Settled range s.store docs id ∨ Queued range s.store wal id ∨
      ∃ k, key = some k ∧ stored range s.store id ≠ none ∧ k ≤ keyRangeStart id) :
    Rebuildable range { s with
      dir := ⟨some wal, .index docs, key⟩
      process := some (key.map Backfill.scheduled)
      recorded := recorded } := by
  constructor
  · intro wal' hwal
    cases hwal
    exact hwritten
  · intro wal' hwal
    cases hwal
    exact hrewritten
  · intro wal' docs' hwal hdocs
    cases hwal
    cases hdocs
    exact hbehind
  · intro _
    exact ⟨by simp, docs, rfl⟩
  · intro hprocess
    cases key with
    | none => rfl
    | some k => cases hprocess
  · intro k hprocess
    cases key with
    | none => cases hprocess
    | some k' =>
      cases hprocess
      rfl
  · intro todo wal' docs' hprocess
    cases key with
    | none => cases hprocess
    | some k => cases hprocess

theorem behind_empty {wal : List FullTextIndexOp} {key : Bytes}
    (hkey : ∀ id, stored range s.store id ≠ none →
      key ≤ keyRangeStart id ∨ ∃ op ∈ wal, id ∈ op.writes) (id : Bytes) :
    Settled range s.store .empty id ∨ Queued range s.store wal id ∨
      ∃ k, some key = some k ∧ stored range s.store id ≠ none ∧ k ≤ keyRangeStart id := by
  by_cases hstored : stored range s.store id = none
  · left
    rw [Settled, hstored, get?_empty]
  · rcases hkey id hstored with hle | hqueued
    · exact .inr (.inr ⟨key, rfl, hstored, hle⟩)
    · exact .inr (.inl ⟨fun _ => hqueued, fun hnone => absurd hnone hstored⟩)

theorem openIndex {rebuild : Bool} (h : Rebuildable range s)
    (hok : (Event.openIndex rebuild).Meets range s)
    (hstep : s.step range (.openIndex rebuild) = some s') : Rebuildable range s' := by
  simp only [Shard.step] at hstep
  split at hstep
  · cases hstep
  · cases hstep
    have hnil : ∀ id, stored range s.store id ≠ none → ([] : Bytes) ≤ keyRangeStart id ∨
        ∃ op ∈ ([] : List FullTextIndexOp), id ∈ op.writes :=
      fun id _ => .inl (Lex.nil_le _)
    rcases openIndex_cases s.dir rebuild with heq | ⟨rfl, hwal, docs, hbleve, heq⟩ |
      ⟨rfl, wal, hwal, hbleve, heq⟩ | ⟨rfl, wal, docs, hwal, hbleve, heq⟩
    · rw [heq]
      exact reopened _ (fun op hop => by cases hop) trivial (behind_empty hnil)
    · rw [heq]
      obtain ⟨-, hstale⟩ := hok
      refine reopened _ (fun op hop => by cases hop) trivial fun id => ?_
      by_cases hstored : stored range s.store id = none
      · left
        have hnone : docs.get? id = none := by
          by_contra hne
          exact hstale docs hwal hbleve id hne hstored
        rw [Settled, hnone, hstored]
      · exact .inr (.inr ⟨[], rfl, hstored, Lex.nil_le _⟩)
    · rw [heq]
      obtain ⟨hresume, -⟩ := hok
      apply reopened _ (h.written wal hwal) (h.rewritten wal hwal)
      apply behind_empty
      intro id hstored
      cases hstate : s.dir.rebuildState with
      | none => exact .inl (Lex.nil_le _)
      | some key => exact hresume wal key hwal hstate hbleve id hstored
    · rw [heq]
      exact reopened _ (h.written wal hwal) (h.rewritten wal hwal) (h.behind wal docs hwal hbleve)

theorem of_closed (hclosed : s.process = none)
    (hwritten : ∀ wal, s.dir.indexWAL = some wal → ∀ op ∈ wal, ∀ id ∈ op.writes, ∀ doc,
      s.store.get? (keyRangeStart id) = some doc →
        doc ≠ [] ∧ scans range [] (keyRangeStart id) = true)
    (hrewritten : ∀ wal, s.dir.indexWAL = some wal →
      Rewritten (fun id => stored range s.store id ≠ none) wal)
    (hbehind : ∀ wal docs, s.dir.indexWAL = some wal → s.dir.bleve = .index docs → ∀ id,
      Settled range s.store docs id ∨ Queued range s.store wal id ∨
        ∃ key, s.dir.rebuildState = some key ∧ stored range s.store id ≠ none ∧
          key ≤ keyRangeStart id) : Rebuildable range s := by
  constructor
  · exact hwritten
  · exact hrewritten
  · exact hbehind
  · intro hopen
    exact absurd hclosed hopen
  · intro hprocess
    rw [hclosed] at hprocess
    cases hprocess
  · intro key hprocess
    rw [hclosed] at hprocess
    cases hprocess
  · intro todo wal docs hprocess
    rw [hclosed] at hprocess
    cases hprocess

theorem crash {walLost : Bool} {bleve : BleveLoss} {rebuildState : Option Bytes}
    (h : Rebuildable range s) (hok : (Event.crash walLost bleve rebuildState).Meets range s) :
    Rebuildable range { s with
      dir := {
        indexWAL := if walLost then none else s.dir.indexWAL
        bleve := s.dir.bleve.lose bleve
        rebuildState := rebuildState }
      process := none } := by
  have hwal : ∀ wal, (if walLost then none else s.dir.indexWAL) = some wal →
      walLost = false ∧ s.dir.indexWAL = some wal := by
    intro wal hwal
    cases walLost with
    | false => exact ⟨rfl, hwal⟩
    | true => cases hwal
  have hbleve : ∀ docs, s.dir.bleve.lose bleve = .index docs →
      bleve = .kept ∧ s.dir.bleve = .index docs := by
    intro docs hdocs
    cases bleve with
    | kept => exact ⟨rfl, hdocs⟩
    | missing => cases hdocs
    | unopenable => cases hdocs
  apply of_closed rfl
  · intro wal hw
    exact h.written wal (hwal wal hw).2
  · intro wal hw
    exact h.rewritten wal (hwal wal hw).2
  · intro wal docs hw hd id
    obtain ⟨hkept, hw⟩ := hwal wal hw
    obtain ⟨hkeptDocs, hd⟩ := hbleve docs hd
    rcases h.behind wal docs hw hd id with hsettled | hqueued | ⟨key, hkey, hstored, hle⟩
    · exact .inl hsettled
    · exact .inr (.inl hqueued)
    · obtain ⟨key', hkey', hle'⟩ := hok key hkey hkept hkeptDocs
      exact .inr (.inr ⟨key', hkey', hstored, hle'.trans hle⟩)

variable {from' id key : Bytes} {doc : Document} {store : DocumentStore}
variable {todo writes : List (Bytes × Document)} {docs : BleveIndex} {deletes : List Bytes}
variable {wal ops : List FullTextIndexOp}

theorem mem_scanForBackfill :
    (id, doc) ∈ scanForBackfill range from' store ↔
      scans range from' (keyRangeStart id) = true ∧ store.get? (keyRangeStart id) = some doc := by
  constructor
  · intro hmem
    obtain ⟨⟨key, doc'⟩, he, heq⟩ := mem_map.mp hmem
    obtain ⟨he, hscans⟩ := mem_filter.mp he
    rw [mem_entries_iff] at he
    have hsuffix : hasSuffix key dbRangeStart = true := by
      simp only [scans, Bool.and_eq_true] at hscans
      exact hscans.2
    obtain ⟨id', rfl⟩ := hasSuffix_iff.mp hsuffix
    have htake : (id' ++ dbRangeStart).take ((id' ++ dbRangeStart).length - dbRangeStart.length) =
        id' := by simp
    rw [htake] at heq
    cases heq
    exact ⟨hscans, he⟩
  · rintro ⟨hscans, hget⟩
    refine mem_map.mpr ⟨(keyRangeStart id, doc), mem_filter.mpr
      ⟨(store.mem_entries_iff _ _).mpr hget, hscans⟩, ?_⟩
    simp [keyRangeStart]

theorem scans_iff : scans range from' key = true ↔ scans range [] key = true ∧ from' ≤ key := by
  have hnil := Lex.nil_le key
  simp only [scans, Bool.and_eq_true, decide_eq_true_eq]
  constructor
  · rintro ⟨⟨⟨⟨hstart, hfrom⟩, hstop⟩, hmeta⟩, hsuffix⟩
    exact ⟨⟨⟨⟨⟨hstart, hnil⟩, hstop⟩, hmeta⟩, hsuffix⟩, hfrom⟩
  · rintro ⟨⟨⟨⟨⟨hstart, -⟩, hstop⟩, hmeta⟩, hsuffix⟩, hfrom⟩
    exact ⟨⟨⟨⟨hstart, hfrom⟩, hstop⟩, hmeta⟩, hsuffix⟩

theorem mem_scanForBackfill_iff_stored :
    (id, doc) ∈ scanForBackfill range from' store ↔
      stored range store id = some doc ∧ from' ≤ keyRangeStart id := by
  rw [mem_scanForBackfill, scans_iff, stored]
  constructor
  · rintro ⟨⟨hscans, hfrom⟩, hget⟩
    rw [if_pos hscans]
    exact ⟨hget, hfrom⟩
  · rintro ⟨hstored, hfrom⟩
    split at hstored
    · rename_i hscans
      exact ⟨⟨hscans, hfrom⟩, hstored⟩
    · cases hstored

theorem pairwise_scanForBackfill :
    (scanForBackfill range from' store).Pairwise
      fun e e' => keyRangeStart e.1 < keyRangeStart e'.1 := by
  have hkey : ∀ e : Bytes × Document, scans range from' e.1 = true →
      keyRangeStart (e.1.take (e.1.length - dbRangeStart.length)) = e.1 := by
    rintro ⟨key, doc⟩ hscans
    simp only [scans, Bool.and_eq_true] at hscans
    obtain ⟨id, rfl⟩ := hasSuffix_iff.mp hscans.2
    simp [keyRangeStart]
  rw [scanForBackfill, pairwise_map]
  apply (store.sorted.filter _).imp_of_mem
  intro e e' he he' hlt
  rw [hkey e (mem_filter.mp he).2, hkey e' (mem_filter.mp he').2]
  exact hlt

theorem startScan (h : Rebuildable range s)
    (hprocess : s.process = some (some (.scheduled from'))) :
    Rebuildable range { s with
      process := some (some (.scanning (scanForBackfill range from' s.store))) } := by
  constructor
  · exact h.written
  · exact h.rewritten
  · exact h.behind
  · intro _
    exact h.opened (by rw [hprocess]; simp)
  · intro hdone
    cases hdone
  · intro key hscheduled
    cases hscheduled
  · intro todo wal docs htodo hwal hdocs
    cases htodo
    have hstate := h.scheduled from' hprocess
    refine ⟨⟨from', hstate, ?_⟩, pairwise_scanForBackfill, ?_, ?_⟩
    · intro e he
      exact (mem_scanForBackfill_iff_stored.mp he).2
    · intro e he
      exact .inl (mem_scanForBackfill_iff_stored.mp he).1
    · intro id
      rcases h.behind wal docs hwal hdocs id with hsettled | hqueued | ⟨key, hkey, hstored, hle⟩
      · exact .inl hsettled
      · exact .inr (.inl hqueued)
      · rw [hstate, Option.some_inj] at hkey
        subst hkey
        obtain ⟨doc, hdoc⟩ := Option.ne_none_iff_exists'.mp hstored
        exact .inr (.inr ⟨(id, doc), mem_scanForBackfill_iff_stored.mpr ⟨hdoc, hle⟩, rfl⟩)

theorem backfillFails {b : Backfill} (h : Rebuildable range s)
    (hprocess : s.process = some (some b)) :
    Rebuildable range { s with process := some (some .failed) } := by
  constructor
  · exact h.written
  · exact h.rewritten
  · exact h.behind
  · intro _
    exact h.opened (by rw [hprocess]; simp)
  · intro hdone
    cases hdone
  · intro key hscheduled
    cases hscheduled
  · intro todo wal docs htodo
    cases htodo

theorem indexBatch_settles {store : DocumentStore} {wal : List FullTextIndexOp}
    {docs : BleveIndex} {batch rest : List (Bytes × Document)}
    (hcontent : ∀ e ∈ batch, stored range store e.1 = some e.2 ∨ Queued range store wal e.1)
    (hbehind : ∀ id, Settled range store docs id ∨ Queued range store wal id ∨
      ∃ e ∈ batch ++ rest, e.1 = id) (id : Bytes) :
    Settled range store (indexBatch docs batch) id ∨ Queued range store wal id ∨
      ∃ e ∈ rest, e.1 = id := by
  by_cases hid : id ∈ batch.map Prod.fst
  · obtain ⟨doc, hmem, hget⟩ := exists_get?_foldl_insert (m := docs) hid
    rcases hcontent (id, doc) hmem with hstored | hqueued
    · left
      change ((indexBatch docs batch).get? id).map withoutVectors = _
      rw [hstored]
      exact congrArg _ hget
    · exact .inr (.inl hqueued)
  · have hget : (indexBatch docs batch).get? id = docs.get? id :=
      get?_foldl_insert_of_notMem hid
    rcases hbehind id with hsettled | hqueued | ⟨e, he, rfl⟩
    · left
      rw [Settled, hget]
      exact hsettled
    · exact .inr (.inl hqueued)
    · rcases mem_append.mp he with he | he
      · exact absurd (mem_map_of_mem he) hid
      · exact .inr (.inr ⟨e, he, rfl⟩)

theorem backfillDone (h : Rebuildable range s)
    (hprocess : s.process = some (some (.scanning todo))) (hdocs : s.dir.bleve = .index docs) :
    Rebuildable range { s with
      dir := { s.dir with bleve := .index (indexBatch docs todo), rebuildState := none }
      process := some none } := by
  constructor
  · exact h.written
  · exact h.rewritten
  · intro wal docs' hwal hd id
    cases hd
    obtain ⟨-, -, hcontent, hbehind⟩ := h.scanning todo wal docs hprocess hwal hdocs
    rw [← append_nil todo] at hbehind
    rcases indexBatch_settles hcontent hbehind id with hsettled | hqueued | ⟨e, he, -⟩
    · exact .inl hsettled
    · exact .inr (.inl hqueued)
    · cases he
  · intro _
    exact ⟨(h.opened (by rw [hprocess]; simp)).1, _, rfl⟩
  · intro _
    rfl
  · intro key hscheduled
    cases hscheduled
  · intro todo' wal docs' htodo
    cases htodo

theorem backfillNext {last : Bytes × Document} (recorded : List Bytes) (h : Rebuildable range s)
    (hprocess : s.process = some (some (.scanning todo))) (hdocs : s.dir.bleve = .index docs)
    (hlast : (todo.take fullTextBackfillBatchSize).getLast? = some last) :
    Rebuildable range { s with
      dir := { s.dir with
        bleve := .index (indexBatch docs (todo.take fullTextBackfillBatchSize))
        rebuildState := some last.1 }
      process := some (some (.scanning (todo.drop fullTextBackfillBatchSize)))
      recorded := recorded } := by
  have hsplit : todo.take fullTextBackfillBatchSize ++ todo.drop fullTextBackfillBatchSize =
      todo := take_append_drop _ todo
  have hscan : ∀ wal, s.dir.indexWAL = some wal →
      (∀ e ∈ todo.drop fullTextBackfillBatchSize, last.1 ≤ keyRangeStart e.1) ∧
      (todo.drop fullTextBackfillBatchSize).Pairwise
        (fun e e' => keyRangeStart e.1 < keyRangeStart e'.1) ∧
      (∀ e ∈ todo.drop fullTextBackfillBatchSize,
        stored range s.store e.1 = some e.2 ∨ Queued range s.store wal e.1) ∧
      ∀ id, Settled range s.store
          (indexBatch docs (todo.take fullTextBackfillBatchSize)) id ∨
        Queued range s.store wal id ∨
          ∃ e ∈ todo.drop fullTextBackfillBatchSize, e.1 = id := by
    intro wal hwal
    obtain ⟨-, hsorted, hcontent, hbehind⟩ := h.scanning todo wal docs hprocess hwal hdocs
    rw [← hsplit] at hsorted hcontent hbehind
    obtain ⟨-, hrest, hlt⟩ := pairwise_append.mp hsorted
    refine ⟨fun e he => ?_, hrest, fun e he => hcontent e (mem_append_right _ he),
      indexBatch_settles (fun e he => hcontent e (mem_append_left _ he)) hbehind⟩
    have hless := hlt last (mem_of_getLast? hlast) e he
    exact (Lex.le_append last.1 dbRangeStart).trans hless.le
  constructor
  · exact h.written
  · exact h.rewritten
  · intro wal docs' hwal hd id
    cases hd
    obtain ⟨hkey, -, hcontent, hbehind⟩ := hscan wal hwal
    rcases hbehind id with hsettled | hqueued | ⟨e, he, rfl⟩
    · exact .inl hsettled
    · exact .inr (.inl hqueued)
    · rcases hcontent e he with hstored | hqueued
      · exact .inr (.inr ⟨last.1, rfl, by rw [hstored]; simp, hkey e he⟩)
      · exact .inr (.inl hqueued)
  · intro _
    exact ⟨(h.opened (by rw [hprocess]; simp)).1, _, rfl⟩
  · intro hdone
    cases hdone
  · intro key hscheduled
    cases hscheduled
  · intro todo' wal docs' htodo hwal hd
    cases htodo
    cases hd
    obtain ⟨hkey, hrest⟩ := hscan wal hwal
    exact ⟨⟨last.1, rfl, hkey⟩, hrest⟩

theorem backfillBatch (h : Rebuildable range s)
    (hprocess : s.process = some (some (.scanning todo))) (hdocs : s.dir.bleve = .index docs) :
    Rebuildable range (s.backfillBatch docs todo) := by
  unfold Shard.backfillBatch
  dsimp only
  split
  · rename_i last hlast
    split
    · exact h.backfillNext _ hprocess hdocs hlast
    · exact h.backfillDone hprocess hdocs
  · rename_i hlast
    have hempty : todo = [] := by
      rw [getLast?_eq_none_iff, take_eq_nil_iff] at hlast
      rcases hlast with hzero | hnil
      · cases hzero
      · exact hnil
    have hdone := h.backfillDone hprocess hdocs
    rw [hempty, indexBatch, foldl_nil, ← hdocs] at hdone
    exact hdone

theorem stored_applyUpdate_of_untouched (hwrite : id ∉ writes.map Prod.fst)
    (hdelete : id ∉ deletes) :
    stored range (applyUpdate store writes deletes) id = stored range store id := by
  rw [stored, stored, get?_applyUpdate_of_kept hdelete]
  rcases get?_foldl_insert_cases writes store id with
    ⟨-, hget⟩ | ⟨doc, hmem, -⟩
  · rw [hget]
  · exact absurd (mem_map_of_mem hmem) hwrite

theorem stored_applyUpdate_of_deleted (h : id ∈ deletes) :
    stored range (applyUpdate store writes deletes) id = none := by
  rw [stored, get?_applyUpdate_of_deleted h, ite_self]

theorem queued_of_touched
    (hok : ∀ e ∈ writes, e.2 ≠ [] ∧ scans range [] (keyRangeStart e.1) = true)
    (h : id ∈ writes.map Prod.fst ∨ id ∈ deletes) :
    Queued range (applyUpdate store writes deletes)
      (wal ++ partitionOps (writes.map Prod.fst) deletes) id := by
  have hops : ∀ {p : FullTextIndexOp → Prop},
      (∃ op ∈ partitionOps (writes.map Prod.fst) deletes, p op) →
        ∃ op ∈ wal ++ partitionOps (writes.map Prod.fst) deletes, p op := by
    rintro p ⟨op, hop, hp⟩
    exact ⟨op, mem_append_right _ hop, hp⟩
  constructor
  · intro hstored
    rcases h with hwrite | hdelete
    · exact hops (mem_partitionOps_writes.mpr hwrite)
    · exact absurd (stored_applyUpdate_of_deleted hdelete) hstored
  · intro hnone
    apply hops
    apply mem_partitionOps_deletes.mpr
    by_contra hkept
    rcases h with hwrite | hdelete
    · rw [stored, get?_applyUpdate_of_kept hkept] at hnone
      rcases get?_foldl_insert_cases writes store id with
        ⟨hnot, -⟩ | ⟨doc, hmem, hget⟩
      · exact hnot hwrite
      · rw [if_pos (hok _ hmem).2, hget] at hnone
        cases hnone
    · exact hkept hdelete

theorem update (h : Rebuildable range s) (hopen : s.process ≠ none)
    (hwal : s.dir.indexWAL = some wal)
    (hok : ∀ e ∈ writes, e.2 ≠ [] ∧ scans range [] (keyRangeStart e.1) = true) :
    Rebuildable range { s with
      store := applyUpdate s.store writes deletes
      dir := { s.dir with
        indexWAL := some (wal ++ partitionOps (writes.map Prod.fst) deletes) } } := by
  have hqueued : ∀ id, Queued range s.store wal id → Queued range
      (applyUpdate s.store writes deletes)
      (wal ++ partitionOps (writes.map Prod.fst) deletes) id := by
    intro id hq
    by_cases htouched : id ∈ writes.map Prod.fst ∨ id ∈ deletes
    · exact queued_of_touched hok htouched
    · rw [not_or] at htouched
      have hsame : stored range (applyUpdate s.store writes deletes) id =
          stored range s.store id := stored_applyUpdate_of_untouched htouched.1 htouched.2
      constructor
      · intro hstored
        obtain ⟨op, hop, hmem⟩ := hq.write (hsame ▸ hstored)
        exact ⟨op, mem_append_left _ hop, hmem⟩
      · intro hnone
        obtain ⟨op, hop, hmem⟩ := hq.delete (hsame ▸ hnone)
        exact ⟨op, mem_append_left _ hop, hmem⟩
  -- What an update touches is queued by it.
  have hcases : ∀ id, Queued range (applyUpdate s.store writes deletes)
      (wal ++ partitionOps (writes.map Prod.fst) deletes) id ∨
      stored range (applyUpdate s.store writes deletes) id = stored range s.store id := by
    intro id
    by_cases htouched : id ∈ writes.map Prod.fst ∨ id ∈ deletes
    · exact .inl (queued_of_touched hok htouched)
    · rw [not_or] at htouched
      exact .inr (stored_applyUpdate_of_untouched htouched.1 htouched.2)
  constructor
  · intro wal' hw op hop id hid doc hget
    cases hw
    change (applyUpdate s.store writes deletes).get? (keyRangeStart id) = some doc at hget
    have hkept : id ∉ deletes := by
      intro hdelete
      rw [get?_applyUpdate_of_deleted hdelete] at hget
      cases hget
    rw [get?_applyUpdate_of_kept hkept] at hget
    rcases get?_foldl_insert_cases writes s.store id with
      ⟨hnot, hold⟩ | ⟨doc', hmem, hnew⟩
    · rw [hold] at hget
      rcases mem_append.mp hop with hop | hop
      · exact h.written wal hwal op hop id hid doc hget
      · exact absurd (mem_partitionOps_writes.mp ⟨op, hop, hid⟩) hnot
    · rw [hnew, Option.some_inj] at hget
      subst hget
      exact hok _ hmem
  · intro wal' hw
    cases hw
    apply (h.rewritten wal hwal).append
    · intro id hstored
      by_cases hwrite : id ∈ writes.map Prod.fst
      · exact .inr (mem_partitionOps_writes.mpr hwrite)
      · left
        rcases hcases id with hq | hsame
        · by_cases hdelete : id ∈ deletes
          · exact absurd (stored_applyUpdate_of_deleted hdelete) hstored
          · rw [← stored_applyUpdate_of_untouched hwrite hdelete]
            exact hstored
        · rw [← hsame]
          exact hstored
    · intro op hop id hid hstored
      have hdelete := mem_partitionOps_deletes.mp ⟨op, hop, hid⟩
      exact hstored (stored_applyUpdate_of_deleted hdelete)
  · intro wal' docs hw hdocs id
    cases hw
    rcases h.behind wal docs hwal hdocs id with hsettled | hq | ⟨key, hkey, hstored, hle⟩
    · rcases hcases id with hq | hsame
      · exact .inr (.inl hq)
      · left
        change (docs.get? id).map withoutVectors = _
        rw [hsame]
        exact hsettled
    · exact .inr (.inl (hqueued id hq))
    · rcases hcases id with hq | hsame
      · exact .inr (.inl hq)
      · exact .inr (.inr ⟨key, hkey, hsame ▸ hstored, hle⟩)
  · intro _
    exact ⟨by simp, (h.opened hopen).2⟩
  · exact h.finished
  · exact h.scheduled
  · intro todo wal' docs hprocess hw hdocs
    cases hw
    obtain ⟨hkey, hsorted, hcontent, hbehind⟩ := h.scanning todo wal docs hprocess hwal hdocs
    refine ⟨hkey, hsorted, ?_, ?_⟩
    · intro e he
      rcases hcases e.1 with hq | hsame
      · exact .inr hq
      · rcases hcontent e he with hstored | hq
        · exact .inl (hsame.trans hstored)
        · exact .inr (hqueued e.1 hq)
    · intro id
      rcases hbehind id with hsettled | hq | hlater
      · rcases hcases id with hq | hsame
        · exact .inr (.inl hq)
        · left
          change (docs.get? id).map withoutVectors = _
          rw [hsame]
          exact hsettled
      · exact .inr (.inl (hqueued id hq))
      · exact .inr (.inr hlater)

theorem mem_merge_writes : id ∈ (merge ops).writes ↔ ∃ op ∈ ops, id ∈ op.writes :=
  mem_flatMap

theorem mem_merge_deletes : id ∈ (merge ops).deletes ↔ ∃ op ∈ ops, id ∈ op.deletes :=
  mem_flatMap

theorem withoutVectors_withoutVectors (doc : Document) :
    withoutVectors (withoutVectors doc) = withoutVectors doc := by
  rw [withoutVectors, withoutVectors, filter_filter]
  simp only [Bool.and_self]

theorem execute_settles {wal wal' : List FullTextIndexOp} {docs : BleveIndex}
    (h : Rebuildable range s) (hwal : s.dir.indexWAL = some wal)
    (hdocs : s.dir.bleve = .index docs) (hrest : ∀ op ∈ wal.drop fullTextMaxBatches, op ∈ wal')
    (hagain : ∀ op ∈ wal.take fullTextMaxBatches, ∀ id ∈ op.deletes,
      stored range s.store id ≠ none → ∃ later ∈ wal', id ∈ later.writes) (id : Bytes) :
    Settled range s.store ((merge (wal.take fullTextMaxBatches)).execute s.store docs) id ∨
      Queued range s.store wal' id ∨
        ∃ key, s.dir.rebuildState = some key ∧ stored range s.store id ≠ none ∧
          key ≤ keyRangeStart id := by
  have hsplit : ∀ op ∈ wal, op ∈ wal.take fullTextMaxBatches ∨ op ∈ wal' := by
    intro op hop
    rw [← take_append_drop fullTextMaxBatches wal, mem_append] at hop
    exact hop.imp_right (hrest op)
  by_cases hdelete : id ∈ (merge (wal.take fullTextMaxBatches)).deletes
  · by_cases hstored : stored range s.store id = none
    · left
      rw [Settled, get?_execute_of_deleted hdelete, hstored]
    · obtain ⟨op, hop, hid⟩ := mem_merge_deletes.mp hdelete
      exact .inr (.inl ⟨fun _ => hagain op hop id hid hstored,
        fun hnone => absurd hnone hstored⟩)
  · by_cases hskip : id ∉ (merge (wal.take fullTextMaxBatches)).writes ∨
        s.store.get? (keyRangeStart id) = none
    · have hsame := @get?_execute_of_skipped _ _ docs _ hdelete hskip
      rcases h.behind wal docs hwal hdocs id with hsettled | hqueued | hlater
      · left
        rw [Settled, hsame]
        exact hsettled
      · right
        left
        constructor
        · intro hstored
          obtain ⟨op, hop, hid⟩ := hqueued.write hstored
          rcases hsplit op hop with hmerged | hkept
          · rcases hskip with hnot | hnone
            · exact absurd (mem_merge_writes.mpr ⟨op, hmerged, hid⟩) hnot
            · rw [stored, hnone, ite_self] at hstored
              exact absurd rfl hstored
          · exact ⟨op, hkept, hid⟩
        · intro hnone
          obtain ⟨op, hop, hid⟩ := hqueued.delete hnone
          rcases hsplit op hop with hmerged | hkept
          · exact absurd (mem_merge_deletes.mpr ⟨op, hmerged, hid⟩) hdelete
          · exact ⟨op, hkept, hid⟩
      · exact .inr (.inr hlater)
    · rw [not_or, not_not] at hskip
      obtain ⟨hwrite, hne⟩ := hskip
      obtain ⟨doc, hget⟩ := Option.ne_none_iff_exists'.mp hne
      obtain ⟨op, hop, hid⟩ := mem_merge_writes.mp hwrite
      obtain ⟨hdoc, hscans⟩ := h.written wal hwal op (mem_of_mem_take hop) id hid doc hget
      left
      rw [Settled, get?_execute_of_written hdelete hwrite hget hdoc, stored, if_pos hscans, hget,
        Option.map_some, Option.map_some, withoutVectors_withoutVectors]

theorem dequeue {truncated : Bool} (h : Rebuildable range s) (hwal : s.dir.indexWAL = some wal)
    (hdocs : s.dir.bleve = .index docs)
    (hprocess : s.process = some none ∨ s.process = some (some .failed))
    (hok : (Event.dequeue truncated).Meets range s) :
    Rebuildable range { s with
      dir := { s.dir with
        bleve := .index ((merge (wal.take fullTextMaxBatches)).execute s.store docs)
        indexWAL := some (if truncated then wal.drop fullTextMaxBatches else wal) } } := by
  have hsub : ∀ op ∈ if truncated then wal.drop fullTextMaxBatches else wal, op ∈ wal := by
    intro op hop
    cases truncated with
    | true => exact mem_of_mem_drop hop
    | false => exact hop
  constructor
  · intro wal' hw op hop
    cases hw
    exact h.written wal hwal op (hsub op hop)
  · intro wal' hw
    cases hw
    cases truncated with
    | true => exact (h.rewritten wal hwal).drop _
    | false => exact h.rewritten wal hwal
  · intro wal' docs' hw hd
    cases hw
    cases hd
    apply h.execute_settles hwal hdocs
    · intro op hop
      cases truncated with
      | true => exact hop
      | false => exact mem_of_mem_drop hop
    · intro op hop id hid hstored
      cases truncated with
      | true => exact hok wal hwal op hop id hid hstored
      | false => exact (h.rewritten wal hwal).write (mem_of_mem_take hop) hid hstored
  · intro _
    exact ⟨by simp, _, rfl⟩
  · exact h.finished
  · exact h.scheduled
  · intro todo wal' docs' htodo
    change s.process = _ at htodo
    rcases hprocess with hnone | hfailed
    · rw [hnone] at htodo
      cases htodo
    · rw [hfailed] at htodo
      cases htodo

theorem step {e : Event} (h : Rebuildable range s) (hok : e.Meets range s)
    (hstep : s.step range e = some s') : Rebuildable range s' := by
  cases e with
  | openIndex rebuild => exact h.openIndex hok hstep
  | closeIndex =>
    obtain ⟨_, -, rfl⟩ := Option.map_eq_some_iff.mp hstep
    exact of_closed rfl h.written h.rewritten h.behind
  | crash walLost bleve rebuildState =>
    simp only [Shard.step] at hstep
    split at hstep
    · cases hstep
      exact h.crash hok
    · cases hstep
  | startScan =>
    simp only [Shard.step] at hstep
    split at hstep
    · rename_i from' hprocess
      cases hstep
      exact h.startScan hprocess
    · cases hstep
  | backfillBatch =>
    simp only [Shard.step] at hstep
    split at hstep
    · rename_i todo docs hprocess hdocs
      cases hstep
      exact h.backfillBatch hprocess hdocs
    · cases hstep
  | backfillFails =>
    simp only [Shard.step] at hstep
    split at hstep
    · rename_i b hprocess
      cases hstep
      exact h.backfillFails hprocess
    · cases hstep
  | update writes deletes =>
    simp only [Shard.step] at hstep
    split at hstep
    · rename_i b wal hprocess hwal
      cases hstep
      exact h.update (by rw [hprocess]; simp) hwal hok
    · cases hstep
  | dequeue truncated =>
    simp only [Shard.step] at hstep
    split at hstep
    · rename_i wal docs hwal hdocs
      split at hstep
      · rename_i hprocess
        cases hstep
        exact h.dequeue hwal hdocs hprocess hok
      · cases hstep
    · cases hstep

end Rebuildable

/-- Before the first `Open` there is no directory. -/
def Shard.initial (store : DocumentStore) : Shard := ⟨store, .empty, none, []⟩

theorem rebuildable_initial (range : Range) (store : DocumentStore) :
    Rebuildable range (.initial store) := by
  apply Rebuildable.of_closed rfl
  · intro wal hwal
    cases hwal
  · intro wal hwal
    cases hwal
  · intro wal docs hwal
    cases hwal

/-- For every content of the store, in every run whose steps meet the condition the index is
complete whenever no backfill is left and the log is drained. -/
theorem rebuild_survives_crashes (range : Range) (store : DocumentStore) (events : List Event)
    (s : Shard)
    (h : Run (Shard.step range) (fun s e => e.Meets range s) (.initial store) events s) :
    Complete range s := by
  have hsound := h.invariant (fun _ _ _ hok hstep hinv => Rebuildable.step hinv hok hstep)
    (rebuildable_initial range store)
  exact hsound.complete

def sampleRange : Range := ⟨[], [0xFF]⟩

def sampleText : Document := [⟨[116], [120], false⟩]

def sampleStore : DocumentStore := OrdMap.empty.insert (keyRangeStart [97]) sampleText

/-- A crash in the middle of a backfill, an update while the next one runs, and the queue after
it. -/
theorem rebuilt_after_crash : ∃ s,
    Run (Shard.step sampleRange) (fun s e => e.Meets sampleRange s) (.initial sampleStore)
      [.openIndex false, .startScan, .crash false .kept (some []), .openIndex false, .startScan,
        .update [([98], sampleText)] [[97]], .backfillBatch, .dequeue true] s ∧
    s.process = some none ∧ s.dir.indexWAL = some [] ∧ Complete sampleRange s := by
  have hrun : ∃ s,
      Run (Shard.step sampleRange) (fun s e => e.Meets sampleRange s) (.initial sampleStore)
        [.openIndex false, .startScan, .crash false .kept (some []), .openIndex false, .startScan,
          .update [([98], sampleText)] [[97]], .backfillBatch, .dequeue true] s ∧
      s.process = some none ∧ s.dir.indexWAL = some [] := by
    refine ⟨_, .cons ?_ rfl (.cons trivial rfl (.cons ?_ rfl (.cons ?_ rfl (.cons trivial rfl
      (.cons ?_ rfl (.cons trivial rfl (.cons ?_ rfl (.nil _)))))))), rfl, rfl⟩
    · refine ⟨?_, ?_⟩
      · intro wal key hwal
        cases hwal
      · intro docs _ hdocs
        cases hdocs
    · intro key hkey _ _
      cases hkey
      exact ⟨[], rfl, le_refl _⟩
    · refine ⟨?_, ?_⟩
      · intro wal key _ _ hbleve
        exact absurd rfl (hbleve _)
      · intro docs hwal
        cases hwal
    · intro e he
      rw [List.mem_singleton.mp he]
      exact ⟨by decide, rfl⟩
    · intro wal hwal op hop id hid hstored
      cases hwal
      obtain rfl := List.mem_singleton.mp hop
      obtain rfl := List.mem_singleton.mp hid
      exact absurd rfl hstored
  obtain ⟨s, hrun, hprocess, hwal⟩ := hrun
  exact ⟨s, hrun, hprocess, hwal, rebuild_survives_crashes _ _ _ _ hrun⟩

/-- A queued delete is lost with the log.  The index is rebuilt over what it had and keeps the
document that the store deleted. -/
theorem deleted_document_stays : ∃ s,
    Run (Shard.step sampleRange) (fun _ _ => True) (.initial sampleStore)
      [.openIndex false, .startScan, .backfillBatch, .update [] [[97]], .crash true .kept none,
        .openIndex false, .startScan, .backfillBatch] s ∧
    ¬ Complete sampleRange s := by
  refine ⟨_, .cons trivial rfl (.cons trivial rfl (.cons trivial rfl (.cons trivial rfl
    (.cons trivial rfl (.cons trivial rfl (.cons trivial rfl (.cons trivial rfl (.nil _)))))))),
    fun h => ?_⟩
  obtain ⟨docs, hdocs, hsame⟩ := h rfl rfl
  cases hdocs
  cases hsame [97]

end Antfly.FullText
