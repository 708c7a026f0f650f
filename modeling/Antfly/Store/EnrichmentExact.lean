import Antfly.Lib.SuffixOrder
import Antfly.Store.EnrichmentRun

/-!
The scan reports an item once, or not at all, as it should, if and only if it takes no key of
another item for an enrichment of it and sees one of its own before the next key of an item.
-/

namespace Antfly.Enrichment

open MarkedStream

section Exact

variable {ε : Type} {decompress : Bytes → Option Bytes} {decodeJSON : Bytes → Option Obj}
  {opts : EnrichmentScanOptions ε}

theorem scanForEnrichment_spec (hprocess : ∀ batch, opts.processBatch batch = .ok ())
    {db : OrdMap Bytes Bytes}
    (hdecodes : ∀ key value, IsPrimaryKey opts db key → db.get? key = some value →
      ∃ doc, readItem decompress decodeJSON opts key value = .ok doc) :
    ∃ batches, scanForEnrichment decompress decodeJSON opts db = .ok batches ∧
      batches.flatten = reports DocumentScanState.currentDocKey []
        ((stream decompress decodeJSON opts db).map Prod.snd) ∧
      ∀ batch ∈ batches, batch ≠ [] ∧ batch.length ≤ max 1 opts.batchSize := by
  have hread : ∀ entry ∈ scannedEntries opts db, hasSuffix entry.1 (itemSuffix opts) = true →
      ∃ doc, readItem decompress decodeJSON opts entry.1 entry.2 = .ok doc := by
    rintro ⟨key, value⟩ hentry hprimary
    obtain ⟨hget, hrange, hmeta, -⟩ := mem_scannedEntries_iff.mp hentry
    exact hdecodes key value ⟨⟨value, hget⟩, hrange, hmeta, hprimary⟩ hget
  obtain ⟨s, hs, hfollows⟩ := (follows_start opts).run hprocess hread
  obtain ⟨s', hs', hflatten, hsizes⟩ := hfollows.finishScan hprocess
  have hevents : (stream decompress decodeJSON opts db).map Prod.snd =
      (scannedEntries opts db).map (eventOf decompress decodeJSON opts) := by
    rw [stream, List.map_map]
    rfl
  refine ⟨s'.processed, ?_, ?_, hsizes⟩
  · unfold scanForEnrichment
    rw [hs]
    dsimp only
    rw [hs']
    rfl
  · rw [hflatten, ← hevents]
    exact finish_start _ (nodup_items db)

variable {db : OrdMap Bytes Bytes} {key : Bytes} {doc : DocumentScanState}

theorem decodes_of_ok {batches : List (List DocumentScanState)}
    (h : scanForEnrichment decompress decodeJSON opts db = .ok batches) {value : Bytes}
    (hprimary : IsPrimaryKey opts db key) (hget : db.get? key = some value) :
    ∃ doc, readItem decompress decodeJSON opts key value = .ok doc := by
  have hrun : ∀ (entries : List (Bytes × Bytes)) (s s' : EnrichmentScan),
      entries.foldlM (visitEntry decompress decodeJSON opts) s = .ok s' →
        ∀ entry ∈ entries, hasSuffix entry.1 (itemSuffix opts) = true →
          ∃ doc, readItem decompress decodeJSON opts entry.1 entry.2 = .ok doc := by
    intro entries
    induction entries with
    | nil => exact fun _ _ _ entry hentry => absurd hentry List.not_mem_nil
    | cons first entries ih =>
      intro s s' hfold
      rw [List.foldlM_cons] at hfold
      cases hvisit : visitEntry decompress decodeJSON opts s first with
      | error err =>
        rw [hvisit] at hfold
        cases hfold
      | ok next =>
        rw [hvisit] at hfold
        intro entry hentry hsuffix
        rcases List.mem_cons.mp hentry with rfl | hrest
        · unfold visitEntry at hvisit
          rw [if_pos hsuffix] at hvisit
          split at hvisit
          · cases hvisit
          · split at hvisit
            · cases hvisit
            · next hread => exact ⟨none, hread⟩
            · next doc hread => exact ⟨some doc, hread⟩
        · exact ih next s' hfold entry hrest hsuffix
  unfold scanForEnrichment at h
  split at h
  · cases h
  · next s hfold =>
      obtain ⟨-, hrange, hmeta, hsuffix⟩ := hprimary
      exact hrun _ _ s hfold (key, value)
        (mem_scannedEntries_iff.mpr ⟨hget, hrange, hmeta, .inl hsuffix⟩) hsuffix

theorem count_stream_eq_zero_iff (hitem : IsItem decompress decodeJSON opts db key doc) :
    (reports DocumentScanState.currentDocKey []
      ((stream decompress decodeJSON opts db).map Prod.snd)).countP
        (fun d => d.currentDocKey = doc.currentDocKey) = 0 ↔
      CountsBeforeNext opts db key doc.currentDocKey :=
  (count_eq_zero_iff DocumentScanState.currentDocKey (sorted_stream db) (nodup_items db)
    (item_mem_stream_iff.mpr hitem)).trans inTime_iff_countsBeforeNext

theorem count_stream_eq_one_iff (hitem : IsItem decompress decodeJSON opts db key doc) :
    (reports DocumentScanState.currentDocKey []
      ((stream decompress decodeJSON opts db).map Prod.snd)).countP
        (fun d => d.currentDocKey = doc.currentDocKey) = 1 ↔
      ¬ CountsBeforeNext opts db key doc.currentDocKey ∧
        ∀ next, IsMalformed decompress decodeJSON opts db next → key < next →
          (∀ other, IsPrimaryKey opts db other → key < other → next ≤ other) →
          CountsBeforeNext opts db next doc.currentDocKey := by
  have hone := count_eq_one_iff DocumentScanState.currentDocKey (sorted_stream db)
    (nodup_items db) (item_mem_stream_iff.mpr hitem)
  rw [hone, inTime_iff_countsBeforeNext]
  refine and_congr_right fun _ => ⟨fun h next hnext hlt hleast => ?_,
    fun h next hnext hlt hleast => ?_⟩
  · refine inTime_iff_countsBeforeNext.mp (h next (blank_mem_stream_iff.mpr hnext) hlt ?_)
    exact fun other e hmem hends => hleast other (ends_mem_stream_iff.mp ⟨e, hmem, hends⟩)
  · refine inTime_iff_countsBeforeNext.mpr (h next (blank_mem_stream_iff.mp hnext) hlt ?_)
    intro other hother hafter
    obtain ⟨e, hmem, hends⟩ := ends_mem_stream_iff.mpr hother
    exact hleast other e hmem hends hafter

/-- The scan ends without an error and has reported every item without an enrichment once, and no
other, if and only if the store meets the condition. -/
theorem scanForEnrichment_exact_iff {ε : Type} (decompress : Bytes → Option Bytes)
    (decodeJSON : Bytes → Option Obj) (opts : EnrichmentScanOptions ε)
    (hprocess : ∀ batch, opts.processBatch batch = .ok ())
    (store : EnrichedStore opts.enrichmentSuffix) :
    (∃ batches, scanForEnrichment decompress decodeJSON opts store.db = .ok batches ∧
        ExactBatches decompress decodeJSON opts store batches) ↔
      ScansInTime decompress decodeJSON opts store := by
  constructor
  · rintro ⟨batches, hscan, hexact⟩
    have hdecodes : ∀ key value, IsPrimaryKey opts store.db key →
        store.db.get? key = some value →
        ∃ doc, readItem decompress decodeJSON opts key value = .ok doc :=
      fun _ _ hprimary hget => decodes_of_ok hscan hprimary hget
    obtain ⟨batches', hscan', hflatten, hsizes⟩ := scanForEnrichment_spec hprocess hdecodes
    obtain rfl := Except.ok.inj (hscan.symm.trans hscan')
    refine ⟨hdecodes, fun hbatch key doc hitem => ?_, fun key doc hitem => ⟨fun henriched => ?_,
      fun hcounts => ?_⟩, fun key doc hitem hnot => ?_⟩
    · by_contra hnot
      -- A batch holds the item, and is too long.
      have hcount := hexact.once key doc hitem hnot
      obtain ⟨found, hfound, -⟩ := List.countP_pos_iff.mp (hcount ▸ Nat.one_pos)
      obtain ⟨batch, hbatches, -⟩ := List.mem_flatten.mp hfound
      have hsize := hexact.size batch hbatches
      rw [hbatch, Nat.le_zero, List.length_eq_zero_iff] at hsize
      exact (hsizes batch hbatches).1 hsize
    · refine (count_stream_eq_zero_iff hitem).mp ?_
      rw [← hflatten, List.countP_eq_zero]
      exact fun d hd hkey => hexact.never key doc hitem henriched d hd (of_decide_eq_true hkey)
    · by_contra hnot
      have hcount := hexact.once key doc hitem hnot
      rw [hflatten, (count_stream_eq_zero_iff hitem).mpr hcounts] at hcount
      exact Nat.zero_ne_one hcount
    · have hcount := hexact.once key doc hitem hnot
      rw [hflatten] at hcount
      exact ((count_stream_eq_one_iff hitem).mp hcount).2
  · intro h
    obtain ⟨batches, hscan, hflatten, hsizes⟩ := scanForEnrichment_spec hprocess h.decodes
    have hstored : ∀ doc ∈ batches.flatten,
        ∃ key, IsItem decompress decodeJSON opts store.db key doc := by
      intro doc hdoc
      rw [hflatten] at hdoc
      obtain ⟨⟨key, e⟩, hmem, rfl⟩ := List.mem_map.mp
        (mem_items_iff.mp (mem_items_of_reports DocumentScanState.currentDocKey hdoc))
      exact ⟨key, item_mem_stream_iff.mp hmem⟩
    have hnever : ∀ key doc, IsItem decompress decodeJSON opts store.db key doc →
        Enriched store doc.currentDocKey →
        ∀ d ∈ batches.flatten, d.currentDocKey ≠ doc.currentDocKey := by
      intro key doc hitem henriched d hd hkey
      have hcount :=
        (count_stream_eq_zero_iff hitem).mpr ((h.counts key doc hitem).mp henriched)
      rw [← hflatten] at hcount
      exact List.countP_eq_zero.mp hcount d hd (decide_eq_true hkey)
    refine ⟨batches, hscan, fun batch hbatch => ?_, hstored, fun key doc hitem hnot => ?_, hnever⟩
    · obtain ⟨hne, hsize⟩ := hsizes batch hbatch
      by_cases hzero : opts.batchSize = 0
      · -- Nothing is reported.
        obtain ⟨doc, hdoc⟩ := List.exists_mem_of_ne_nil batch hne
        have hreported := List.mem_flatten.mpr ⟨batch, hbatch, hdoc⟩
        obtain ⟨key, hitem⟩ := hstored doc hreported
        exact absurd rfl
          (hnever key doc hitem (h.batchSize hzero key doc hitem) doc hreported)
      · rwa [max_eq_right (Nat.one_le_iff_ne_zero.mpr hzero)] at hsize
    · rw [hflatten]
      exact (count_stream_eq_one_iff hitem).mpr
        ⟨fun hcounts => hnot ((h.counts key doc hitem).mpr hcounts), h.malformed key doc hitem hnot⟩

end Exact

def userID : Bytes := ascii ['u', 's', 'e', 'r']
def orderID : Bytes := ascii ['u', 's', 'e', 'r', ':', '1']

def embeddingOptions : EnrichmentScanOptions Empty where
  byteRange := (none, none)
  primarySuffix := none
  enrichmentSuffix := ascii [':', 'i', ':', 'v', ':', 'e']
  batchSize := 10
  processBatch := fun _ => .ok ()

/-- Two documents, of which the first has an embedding. -/
def embeddedUser : EnrichedStore embeddingOptions.enrichmentSuffix where
  db := {
    entries := [(keyRangeStart userID, []), (keyRangeStart orderID, []),
      (userID ++ embeddingOptions.enrichmentSuffix, List.replicate 12 1)]
    sorted := by decide }
  artefactAt key :=
    if key = userID ++ embeddingOptions.enrichmentSuffix then some (.own userID) else none
  artefact_key key a h := by
    split at h
    · next hkey =>
        obtain rfl := Option.some.inj h
        exact hkey.symm
    · cases h

theorem scanForEnrichment_reports_enriched :
    validateDocumentMutationKey userID = none ∧ validateDocumentMutationKey orderID = none ∧
      Enriched embeddedUser userID ∧
      ¬ ∃ batches,
        scanForEnrichment some (fun _ => some []) embeddingOptions embeddedUser.db = .ok batches ∧
          ExactBatches some (fun _ => some []) embeddingOptions embeddedUser batches := by
  have hartefact : embeddedUser.artefactAt (userID ++ embeddingOptions.enrichmentSuffix) =
      some (.own userID) := by
    dsimp only [embeddedUser]
    rw [if_pos rfl]
  have henriched : Enriched embeddedUser userID :=
    ⟨_, List.replicate 12 1, .own userID, rfl, hartefact, rfl, rfl⟩
  refine ⟨rfl, rfl, henriched, ?_⟩
  rintro ⟨batches, hscan, hexact⟩
  have hresult : scanForEnrichment some (fun _ => some []) embeddingOptions embeddedUser.db =
      .ok [[{ currentDocKey := userID, document := some [], enrichment := none,
              enrichmentHashID := 0 },
            { currentDocKey := orderID, document := some [], enrichment := none,
              enrichmentHashID := 0 }]] := rfl
  obtain rfl := Except.ok.inj (hscan.symm.trans hresult)
  have hitem : IsItem some (fun _ => some []) embeddingOptions embeddedUser.db
      (keyRangeStart userID)
      { currentDocKey := userID, document := some [], enrichment := none, enrichmentHashID := 0 } :=
    ⟨⟨⟨[], rfl⟩, rfl, rfl, rfl⟩, [], rfl, rfl⟩
  exact hexact.never _ _ hitem henriched _ List.mem_cons_self rfl

/-- The embedding comes before the other document. -/
def enrichedInTime : EnrichedStore embeddingOptions.enrichmentSuffix where
  db := {
    entries := [(keyRangeStart userID, []),
      (userID ++ embeddingOptions.enrichmentSuffix, List.replicate 12 1),
      (keyRangeStart [122], [])]
    sorted := by decide }
  artefactAt := embeddedUser.artefactAt
  artefact_key := embeddedUser.artefact_key

/-- Only the other document is reported. -/
theorem scanForEnrichment_exact_iff_enrichedInTime :
    ScansInTime some (fun _ => some []) embeddingOptions enrichedInTime := by
  have henriched : Enriched enrichedInTime userID :=
    ⟨_, List.replicate 12 1, .own userID, rfl, if_pos rfl, rfl, rfl⟩
  have hnot : ¬ Enriched enrichedInTime [122] := by
    rintro ⟨key, value, a, -, hartefact, hitem, -⟩
    change (if _ then some (Artefact.own userID) else none) = some a at hartefact
    split at hartefact
    · obtain rfl := Option.some.inj hartefact
      cases hitem
    · cases hartefact
  have hitems : ∀ key doc, IsItem some (fun _ => some []) embeddingOptions enrichedInTime.db key
      doc → doc.currentDocKey = userID ∨ doc.currentDocKey = [122] := by
    rintro key doc ⟨⟨-, -, -, hsuffix⟩, value, hget, hread⟩
    have hkeys : ∀ e ∈ enrichedInTime.db.entries,
        hasSuffix e.1 (itemSuffix embeddingOptions) = true →
        trimSuffix e.1 (itemSuffix embeddingOptions) = userID ∨
          trimSuffix e.1 (itemSuffix embeddingOptions) = [122] := by decide
    have hkey := hkeys (key, value) ((OrdMap.mem_entries_iff _ _ _).mpr hget) hsuffix
    cases hread
    exact hkey
  refine (scanForEnrichment_exact_iff some (fun _ => some []) embeddingOptions (fun _ => rfl)
    enrichedInTime).mp ⟨[[⟨[122], some [], none, 0⟩]], rfl, by decide, ?_, ?_, ?_⟩
  · intro doc hdoc
    obtain rfl := List.mem_singleton.mp hdoc
    exact ⟨keyRangeStart [122], ⟨⟨[], rfl⟩, rfl, rfl, rfl⟩, [], rfl, rfl⟩
  · intro key doc hitem hno
    rcases hitems key doc hitem with hdoc | hdoc
    · exact absurd (hdoc ▸ henriched) hno
    · rw [hdoc]
      rfl
  · intro key doc hitem hen d hd
    obtain rfl := List.mem_singleton.mp hd
    rcases hitems key doc hitem with hdoc | hdoc
    · rw [hdoc]
      decide
    · exact absurd (hdoc ▸ hen) hnot

end Antfly.Enrichment
