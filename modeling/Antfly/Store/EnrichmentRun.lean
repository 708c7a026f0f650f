import Antfly.Store.EnrichmentSpec

/-!
The scan for items without an enrichment is a pass over items and marks: its entries are the events
of a sorted stream, and its batches hold what the pass reports.
-/

namespace Antfly.Enrichment

open MarkedStream List

section Pass

variable {ε : Type} {decompress : Bytes → Option Bytes} {decodeJSON : Bytes → Option Obj}
  {opts : EnrichmentScanOptions ε}

/-- What an entry is to the pass. -/
def eventOf (decompress : Bytes → Option Bytes) (decodeJSON : Bytes → Option Obj)
    (opts : EnrichmentScanOptions ε) (entry : Bytes × Bytes) : Event DocumentScanState Bytes :=
  if hasSuffix entry.1 (itemSuffix opts) then
    match readItem decompress decodeJSON opts entry.1 entry.2 with
    | .ok (some doc) => .item doc
    | _ => .blank
  else if hasSuffix entry.1 opts.enrichmentSuffix then
    if isDudEnrichment entry.2 then .other else .mark (matchKey opts entry.1)
  else .other

/-- The scan and the pass have the same current item and have reported the same. -/
structure Follows (opts : EnrichmentScanOptions ε) (s : EnrichmentScan)
    (p : Pass DocumentScanState Bytes) : Prop where
  reported : s.processed.flatten ++ s.batch = p.out
  marked : s.hasEnrichment = p.marked
  unmarked : s.hasEnrichment = false → s.currentDoc = p.current
  currentKey : s.currentDoc.map DocumentScanState.currentDocKey =
    p.current.map DocumentScanState.currentDocKey
  seen : s.seenEnrichments = p.seen
  batch : s.batch.length < max 1 opts.batchSize
  processed : ∀ batch ∈ s.processed, batch ≠ [] ∧ batch.length ≤ max 1 opts.batchSize

variable {s : EnrichmentScan} {p : Pass DocumentScanState Bytes}

theorem flushBatch_spec (hprocess : ∀ batch, opts.processBatch batch = .ok ()) (s : EnrichmentScan)
    (hsize : s.batch.length ≤ max 1 opts.batchSize)
    (hprocessed : ∀ batch ∈ s.processed, batch ≠ [] ∧ batch.length ≤ max 1 opts.batchSize) :
    ∃ s', flushBatch opts s = .ok s' ∧ s'.processed.flatten = s.processed.flatten ++ s.batch ∧
      s'.batch = [] ∧ s'.currentDoc = s.currentDoc ∧ s'.hasEnrichment = s.hasEnrichment ∧
      s'.seenEnrichments = s.seenEnrichments ∧
      ∀ batch ∈ s'.processed, batch ≠ [] ∧ batch.length ≤ max 1 opts.batchSize := by
  unfold flushBatch
  by_cases hempty : s.batch = []
  · exact ⟨s, if_pos hempty, by rw [hempty, append_nil], hempty, rfl, rfl, rfl, hprocessed⟩
  · refine ⟨{ s with batch := [], processed := s.processed ++ [s.batch] }, ?_, ?_, rfl, rfl, rfl,
      rfl, ?_⟩
    · rw [if_neg hempty, hprocess]
    · rw [flatten_append, flatten_singleton]
    · intro batch hbatch
      rcases mem_append.mp hbatch with hold | hnew
      · exact hprocessed batch hold
      · rw [mem_singleton.mp hnew]
        exact ⟨hempty, hsize⟩

theorem Follows.reportCurrent (h : Follows opts s p)
    (hprocess : ∀ batch, opts.processBatch batch = .ok ()) :
    ∃ s', reportCurrent opts s = .ok s' ∧ Follows opts s' { p with out := p.out ++ p.pending } := by
  unfold Enrichment.reportCurrent
  cases hcurrent : s.currentDoc with
  | none =>
    have hnone : p.current = none := by
      have hkey := h.currentKey
      rw [hcurrent] at hkey
      exact Option.map_eq_none_iff.mp hkey.symm
    refine ⟨s, rfl, { h with reported := ?_ }⟩
    rw [h.reported, Pass.pending, hnone, Option.toList_none, ite_self, append_nil]
  | some doc =>
    dsimp only
    by_cases hmarked : s.hasEnrichment = true
    · refine ⟨s, if_pos hmarked, { h with reported := ?_ }⟩
      rw [h.reported, Pass.pending, ← h.marked, if_pos hmarked, append_nil]
    · rw [if_neg hmarked, ← hcurrent]
      have hsame : p.current = some doc :=
        (h.unmarked (Bool.eq_false_iff.mpr hmarked)).symm.trans hcurrent
      have hpending : p.pending = [doc] := by
        rw [Pass.pending, ← h.marked, if_neg hmarked, hsame]
        rfl
      have hbatch : (s.batch ++ [doc]).length ≤ max 1 opts.batchSize := by
        rw [length_append]
        exact h.batch
      have hreported : s.processed.flatten ++ (s.batch ++ [doc]) = p.out ++ p.pending := by
        rw [← append_assoc, h.reported, hpending]
      by_cases hfull : opts.batchSize ≤ (s.batch ++ [doc]).length
      · obtain ⟨s', hs', hflatten, hnil, hdoc, hhas, hseen, hprocessed⟩ :=
          flushBatch_spec hprocess { s with batch := s.batch ++ [doc] } hbatch h.processed
        refine ⟨s', (if_pos hfull).trans hs', ?_, ?_, ?_, ?_, ?_, ?_, hprocessed⟩
        · rw [hflatten, hnil, append_nil]
          exact hreported
        · exact hhas.trans h.marked
        · intro hfalse
          rw [hdoc]
          exact h.unmarked (hhas.symm.trans hfalse)
        · rw [hdoc]
          exact h.currentKey
        · exact hseen.trans h.seen
        · rw [hnil]
          exact lt_of_lt_of_le Nat.zero_lt_one (le_max_left _ _)
      · refine ⟨_, if_neg hfull, { h with reported := hreported, batch := ?_ }⟩
        exact lt_of_lt_of_le (not_le.mp hfull) (le_max_right _ _)

theorem Follows.startItem (h : Follows opts s p) (doc : DocumentScanState) :
    Follows opts (startItem s doc) {
      current := some doc
      marked := p.seen doc.currentDocKey
      seen := Function.update p.seen doc.currentDocKey false
      out := p.out } := by
  unfold Enrichment.startItem
  dsimp only
  by_cases hseen : s.seenEnrichments doc.currentDocKey = true
  · rw [if_pos hseen]
    refine ⟨h.reported, ?_, nofun, rfl, congrArg (Function.update · _ _) h.seen, h.batch,
      h.processed⟩
    rw [← h.seen]
    exact hseen.symm
  · rw [if_neg hseen]
    have hfalse := Bool.eq_false_iff.mpr hseen
    refine ⟨h.reported, ?_, fun _ => rfl, rfl, ?_, h.batch, h.processed⟩
    · rw [← h.seen]
      exact hfalse.symm
    · rw [← h.seen, ← hfalse, Function.update_eq_self]

theorem Follows.visitEnrichment (h : Follows opts s p) (key value : Bytes)
    (hdud : isDudEnrichment value = false) :
    Follows opts (visitEnrichment opts s key value)
      (p.step DocumentScanState.currentDocKey (.mark (matchKey opts key))) := by
  unfold Enrichment.visitEnrichment
  rw [hdud]
  dsimp only
  rw [if_neg Bool.false_ne_true]
  have hremember (hne : ¬ p.current.map DocumentScanState.currentDocKey =
      some (matchKey opts key)) (hashID : ℕ) :
      Follows opts (rememberEnrichment s (matchKey opts key) hashID)
        (p.step DocumentScanState.currentDocKey (.mark (matchKey opts key))) := by
    rw [Pass.step, if_neg hne]
    exact ⟨h.reported, h.marked, h.unmarked, h.currentKey,
      congrArg (Function.update · _ _) h.seen, h.batch, h.processed⟩
  cases hcurrent : s.currentDoc with
  | none =>
    refine hremember ?_ _
    rw [← h.currentKey, hcurrent]
    exact nofun
  | some doc =>
    dsimp only
    by_cases hown : matchKey opts key = doc.currentDocKey
    · have hkey : p.current.map DocumentScanState.currentDocKey = some (matchKey opts key) := by
        rw [← h.currentKey, hcurrent, hown]
        rfl
      rw [if_pos hown, Pass.step, if_pos hkey]
      refine ⟨h.reported, rfl, nofun, ?_, h.seen, h.batch, h.processed⟩
      rw [hkey, hown]
      rfl
    · rw [if_neg hown]
      refine hremember (fun hkey => hown ?_) _
      rw [← h.currentKey, hcurrent] at hkey
      exact (Option.some.inj hkey).symm

theorem Follows.visitEntry (h : Follows opts s p)
    (hprocess : ∀ batch, opts.processBatch batch = .ok ()) (entry : Bytes × Bytes)
    (hdecodes : hasSuffix entry.1 (itemSuffix opts) = true →
      ∃ doc, readItem decompress decodeJSON opts entry.1 entry.2 = .ok doc) :
    ∃ s', visitEntry decompress decodeJSON opts s entry = .ok s' ∧
      Follows opts s' (p.step DocumentScanState.currentDocKey
        (eventOf decompress decodeJSON opts entry)) := by
  unfold Enrichment.visitEntry eventOf
  by_cases hprimary : hasSuffix entry.1 (itemSuffix opts) = true
  · rw [if_pos hprimary, if_pos hprimary]
    obtain ⟨doc, hdoc⟩ := hdecodes hprimary
    obtain ⟨s', hs', hfollows⟩ := h.reportCurrent hprocess
    rw [hs', hdoc]
    cases doc with
    | none => exact ⟨s', rfl, hfollows⟩
    | some doc => exact ⟨_, rfl, hfollows.startItem doc⟩
  · rw [if_neg hprimary, if_neg hprimary]
    by_cases henrichment : hasSuffix entry.1 opts.enrichmentSuffix = true
    · rw [if_pos henrichment, if_pos henrichment]
      refine ⟨_, rfl, ?_⟩
      by_cases hdud : isDudEnrichment entry.2 = true
      · rw [if_pos hdud]
        unfold Enrichment.visitEnrichment
        dsimp only
        rw [if_pos hdud]
        exact h
      · rw [if_neg hdud]
        exact h.visitEnrichment entry.1 entry.2 (Bool.eq_false_iff.mpr hdud)
    · rw [if_neg henrichment, if_neg henrichment]
      exact ⟨s, rfl, h⟩

theorem Follows.run (hprocess : ∀ batch, opts.processBatch batch = .ok ())
    {entries : List (Bytes × Bytes)}
    (hdecodes : ∀ entry ∈ entries, hasSuffix entry.1 (itemSuffix opts) = true →
      ∃ doc, readItem decompress decodeJSON opts entry.1 entry.2 = .ok doc)
    {s : EnrichmentScan} {p : Pass DocumentScanState Bytes} (h : Follows opts s p) :
    ∃ s', entries.foldlM (Enrichment.visitEntry decompress decodeJSON opts) s = .ok s' ∧
      Follows opts s' ((entries.map (eventOf decompress decodeJSON opts)).foldl
        (Pass.step DocumentScanState.currentDocKey) p) := by
  induction entries generalizing s p with
  | nil => exact ⟨s, rfl, h⟩
  | cons entry entries ih =>
    obtain ⟨s', hs', hfollows⟩ :=
      h.visitEntry hprocess entry (hdecodes entry mem_cons_self)
    obtain ⟨s'', hs'', hlast⟩ := ih (fun e he => hdecodes e (mem_cons_of_mem _ he)) hfollows
    refine ⟨s'', ?_, hlast⟩
    rw [foldlM_cons, hs']
    exact hs''

theorem follows_start (opts : EnrichmentScanOptions ε) : Follows opts startScan Pass.start where
  reported := rfl
  marked := rfl
  unmarked _ := rfl
  currentKey := rfl
  seen := rfl
  batch := lt_of_lt_of_le Nat.zero_lt_one (le_max_left _ _)
  processed _ hbatch := absurd hbatch not_mem_nil

theorem Follows.finishScan (h : Follows opts s p)
    (hprocess : ∀ batch, opts.processBatch batch = .ok ()) :
    ∃ s', finishScan opts s = .ok s' ∧ s'.processed.flatten = p.finish ∧
      ∀ batch ∈ s'.processed, batch ≠ [] ∧ batch.length ≤ max 1 opts.batchSize := by
  unfold Enrichment.finishScan
  by_cases hmarked : s.hasEnrichment = true
  · obtain ⟨s', hs', hflatten, -, -, -, -, hprocessed⟩ :=
      flushBatch_spec hprocess s h.batch.le h.processed
    refine ⟨s', by rwa [if_pos hmarked], ?_, hprocessed⟩
    rw [hflatten, h.reported, Pass.finish, Pass.pending, ← h.marked, if_pos hmarked,
      append_nil]
  · have hsize : (s.batch ++ s.currentDoc.toList).length ≤ max 1 opts.batchSize := by
      have hone : s.currentDoc.toList.length ≤ 1 := Option.length_toList_le
      have hbatch := h.batch
      rw [length_append]
      omega
    obtain ⟨s', hs', hflatten, -, -, -, -, hprocessed⟩ := flushBatch_spec hprocess
      { s with batch := s.batch ++ s.currentDoc.toList } hsize h.processed
    refine ⟨s', by rwa [if_neg hmarked], ?_, hprocessed⟩
    rw [hflatten, Pass.finish, Pass.pending, ← h.marked, if_neg hmarked,
      ← h.unmarked (Bool.eq_false_iff.mpr hmarked), ← h.reported, append_assoc]

variable {db : OrdMap Bytes Bytes} {key value item : Bytes} {doc : DocumentScanState}

theorem mem_scannedEntries_iff :
    (key, value) ∈ scannedEntries opts db ↔
      db.get? key = some value ∧ inByteRange opts key = true ∧
        hasPrefix key metadataPrefix = false ∧
        (hasSuffix key (itemSuffix opts) = true ∨ hasSuffix key opts.enrichmentSuffix = true) := by
  unfold scannedEntries skipPoint
  rw [mem_filter, OrdMap.mem_entries_iff]
  refine and_congr_right fun _ => ?_
  rw [Bool.and_eq_true, Bool.not_eq_true', Bool.or_eq_false_iff, Bool.and_eq_false_iff]
  simp only [Bool.not_eq_false']

variable (decompress decodeJSON opts) in
def stream (db : OrdMap Bytes Bytes) : List (Bytes × Event DocumentScanState Bytes) :=
  (scannedEntries opts db).map fun entry => (entry.1, eventOf decompress decodeJSON opts entry)

theorem mem_stream_iff {e : Event DocumentScanState Bytes} :
    (key, e) ∈ stream decompress decodeJSON opts db ↔
      ∃ value, (key, value) ∈ scannedEntries opts db ∧
        eventOf decompress decodeJSON opts (key, value) = e := by
  constructor
  · intro hmem
    obtain ⟨⟨key', value⟩, hentry, heq⟩ := mem_map.mp hmem
    obtain ⟨rfl, rfl⟩ := Prod.mk.inj heq
    exact ⟨value, hentry, rfl⟩
  · rintro ⟨value, hentry, rfl⟩
    exact mem_map.mpr ⟨(key, value), hentry, rfl⟩

theorem sorted_stream (db : OrdMap Bytes Bytes) :
    (stream decompress decodeJSON opts db).Pairwise fun a b => a.1 < b.1 :=
  pairwise_map.mpr (db.sorted.filter _)

theorem currentDocKey_readItem
    (h : readItem decompress decodeJSON opts key value = .ok (some doc)) :
    doc.currentDocKey = trimSuffix key (itemSuffix opts) := by
  unfold readItem at h
  dsimp only at h
  split at h
  · split at h
    · cases h
    · split at h
      · cases h
      · obtain rfl := Option.some.inj (Except.ok.inj h)
        rfl
  · split at h
    · cases h
    · obtain rfl := Option.some.inj (Except.ok.inj h)
      rfl

theorem item_mem_stream_iff :
    (key, .item doc) ∈ stream decompress decodeJSON opts db ↔
      IsItem decompress decodeJSON opts db key doc := by
  rw [mem_stream_iff]
  constructor
  · rintro ⟨value, hentry, hevent⟩
    obtain ⟨hget, hrange, hmeta, -⟩ := mem_scannedEntries_iff.mp hentry
    unfold eventOf at hevent
    split at hevent
    · next hprimary =>
        split at hevent
        · next hread =>
            obtain rfl := Event.item.inj hevent
            exact ⟨⟨⟨value, hget⟩, hrange, hmeta, hprimary⟩, value, hget, hread⟩
        · cases hevent
    · split at hevent
      · split at hevent <;> cases hevent
      · cases hevent
  · rintro ⟨⟨-, hrange, hmeta, hprimary⟩, value, hget, hread⟩
    refine ⟨value, mem_scannedEntries_iff.mpr ⟨hget, hrange, hmeta, .inl hprimary⟩, ?_⟩
    unfold eventOf
    rw [if_pos hprimary, hread]

theorem mark_mem_stream_iff :
    (key, .mark item) ∈ stream decompress decodeJSON opts db ↔ CountsFor opts db key item := by
  rw [mem_stream_iff]
  constructor
  · rintro ⟨value, hentry, hevent⟩
    obtain ⟨hget, hrange, hmeta, -⟩ := mem_scannedEntries_iff.mp hentry
    unfold eventOf at hevent
    split at hevent
    · split at hevent <;> cases hevent
    · next hprimary =>
        split at hevent
        · next henrichment =>
            split at hevent
            · cases hevent
            · next hdud =>
                obtain rfl := Event.mark.inj hevent
                exact ⟨⟨value, hget, Bool.eq_false_iff.mpr hdud⟩, hrange, hmeta,
                  Bool.eq_false_iff.mpr hprimary, henrichment, rfl⟩
        · cases hevent
  · rintro ⟨⟨value, hget, hdud⟩, hrange, hmeta, hprimary, henrichment, rfl⟩
    refine ⟨value, mem_scannedEntries_iff.mpr ⟨hget, hrange, hmeta, .inr henrichment⟩, ?_⟩
    unfold eventOf
    rw [if_neg (Bool.eq_false_iff.mp hprimary), if_pos henrichment,
      if_neg (Bool.eq_false_iff.mp hdud)]

theorem ends_mem_stream_iff :
    (∃ e, (key, e) ∈ stream decompress decodeJSON opts db ∧ e.ends = true) ↔
      IsPrimaryKey opts db key := by
  constructor
  · rintro ⟨e, hmem, hends⟩
    obtain ⟨value, hentry, rfl⟩ := mem_stream_iff.mp hmem
    obtain ⟨hget, hrange, hmeta, -⟩ := mem_scannedEntries_iff.mp hentry
    unfold eventOf at hends
    split at hends
    · next hprimary => exact ⟨⟨value, hget⟩, hrange, hmeta, hprimary⟩
    · split at hends
      · split at hends <;> cases hends
      · cases hends
  · rintro ⟨⟨value, hget⟩, hrange, hmeta, hprimary⟩
    refine ⟨_, mem_stream_iff.mpr ⟨value, ?_, rfl⟩, ?_⟩
    · exact mem_scannedEntries_iff.mpr ⟨hget, hrange, hmeta, .inl hprimary⟩
    · unfold eventOf
      rw [if_pos hprimary]
      split <;> rfl

theorem blank_mem_stream_iff :
    (key, .blank) ∈ stream decompress decodeJSON opts db ↔
      IsMalformed decompress decodeJSON opts db key := by
  constructor
  · intro hmem
    refine ⟨ends_mem_stream_iff.mp ⟨_, hmem, rfl⟩, fun doc hitem => ?_⟩
    obtain ⟨value, hentry, hblank⟩ := mem_stream_iff.mp hmem
    obtain ⟨value', hentry', hdoc⟩ := mem_stream_iff.mp (item_mem_stream_iff.mpr hitem)
    have hsame := (mem_scannedEntries_iff.mp hentry).1.symm.trans
      (mem_scannedEntries_iff.mp hentry').1
    rw [Option.some.inj hsame, hdoc] at hblank
    cases hblank
  · rintro ⟨hprimary, hnone⟩
    obtain ⟨e, hmem, hends⟩ := ends_mem_stream_iff.mpr hprimary
    cases e with
    | item doc => exact absurd (item_mem_stream_iff.mp hmem) (hnone doc)
    | blank => exact hmem
    | mark k => cases hends
    | other => cases hends

theorem inTime_iff_countsBeforeNext :
    InTime (stream decompress decodeJSON opts db) key item ↔ CountsBeforeNext opts db key item := by
  constructor
  · rintro ⟨mark, hmark, hbefore⟩
    refine ⟨mark, mark_mem_stream_iff.mp hmark, fun next hnext hlt => ?_⟩
    obtain ⟨e, hmem, hends⟩ := ends_mem_stream_iff.mpr hnext
    exact hbefore next e hmem hends hlt
  · rintro ⟨mark, hmark, hbefore⟩
    refine ⟨mark, mark_mem_stream_iff.mpr hmark, fun next e hmem hends hlt => ?_⟩
    exact hbefore next (ends_mem_stream_iff.mp ⟨e, hmem, hends⟩) hlt

theorem nodup_items (db : OrdMap Bytes Bytes) :
    ((items ((stream decompress decodeJSON opts db).map Prod.snd)).map
      DocumentScanState.currentDocKey).Nodup := by
  have hsorted := @sorted_stream ε decompress decodeJSON opts db
  have hitem : ∀ key doc, (key, .item doc) ∈ stream decompress decodeJSON opts db →
      key = doc.currentDocKey ++ itemSuffix opts := by
    intro key doc hmem
    obtain ⟨⟨-, -, -, hprimary⟩, value, -, hread⟩ := item_mem_stream_iff.mp hmem
    obtain ⟨id, rfl⟩ := hasSuffix_iff.mp hprimary
    rw [currentDocKey_readItem hread, trimSuffix_append]
  generalize stream decompress decodeJSON opts db = events at hsorted hitem
  induction events with
  | nil => exact nodup_nil
  | cons f events ih =>
    obtain ⟨key, e⟩ := f
    obtain ⟨hfirst, hrest⟩ := pairwise_cons.mp hsorted
    have htail := ih hrest fun key doc hmem => hitem key doc (mem_cons_of_mem _ hmem)
    cases e with
    | item doc =>
      refine nodup_cons.mpr ⟨fun hmem => ?_, htail⟩
      obtain ⟨other, hother, hsame⟩ := mem_map.mp hmem
      obtain ⟨⟨key', e⟩, hin, rfl⟩ := mem_map.mp (mem_items_iff.mp hother)
      have hkey := hitem key doc mem_cons_self
      have hkey' := hitem key' other (mem_cons_of_mem _ hin)
      rw [hsame, ← hkey] at hkey'
      exact absurd (hfirst _ hin) (by rw [hkey']; exact lt_irrefl key)
    | blank => exact htail
    | mark k => exact htail
    | other => exact htail

end Pass

end Antfly.Enrichment
