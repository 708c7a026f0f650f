import Antfly.Lib.PagedScan
import Antfly.Store.RangeScan

/-!
`ExportRangeChunk` returns the first documents from a key on, with a cursor for the next call.  Like
a scan it iterates over storage keys: from the start of the range, or behind all keys of the
cursor's document, up to the body key of the end of the range.  An empty end is treated like any
other, so a range without an end is cut off at `:\x00`.

A document belongs to the range when its body key lies in it, which is how documents are routed.
-/

namespace Antfly

open List

inductive ExportError where
  | decode (userKey : Bytes)
  | marshal (userKey : Bytes)
  deriving DecidableEq

section Export

variable (c : Codec) (records : Stored → Option Obj) (db : DBImpl)

/-- A body is decoded and printed again. -/
def exportDocument (e : Bytes × Stored) : Except ExportError Write :=
  match decodeDocumentJSON c records e.2 with
  | none => .error (.decode e.1)
  | some doc =>
    match c.marshalObj doc with
    | none => .error (.marshal e.1)
    | some docBytes => .ok (e.1, docBytes)

def chunkLimit (limit : Int) : ℕ := if limit ≤ 0 then 256 else limit.toNat

def exportLowerBound (startKey afterKey : Bytes) : Bytes :=
  if afterKey.isEmpty then keyRangeStart startKey else keyRangeEnd afterKey

/-- `ExportRangeChunk`: the writes, the cursor, and whether the range is done. -/
def exportRangeChunk (startKey endKey afterKey : Bytes) (limit : Int) :
    Except ExportError (List Write × Bytes × Bool) := do
  let entries := bodyEntries db (exportLowerBound startKey afterKey) (keyRangeStart endKey)
  let writes ← (entries.take (chunkLimit limit)).mapM (exportDocument c records)
  return (writes, (writes.getLast?.map Prod.fst).getD [], writes.length ≠ chunkLimit limit)

/-- Calls `ExportRangeChunk` until it reports completion; `none` when the fuel does not suffice. -/
def exportRange (startKey endKey : Bytes) (limit : Int) :
    ℕ → Bytes → Option (Except ExportError (List Write))
  | 0, _ => none
  | fuel + 1, afterKey =>
    match exportRangeChunk c records db startKey endKey afterKey limit with
    | .error e => some (.error e)
    | .ok (writes, nextKey, done) =>
      if done then some (.ok writes)
      else (exportRange startKey endKey limit fuel nextKey).map fun r =>
        r.map fun later => writes ++ later

end Export

/-- A body of the range with its JSON text. -/
def rangeDocument (range : Range) (e : Bytes × Stored) : Option Write :=
  match e.2 with
  | .zstd json => if range.contains (keyRangeStart e.1) then some (e.1, json) else none
  | _ => none

/-- The documents of the range as they are stored, in the order of their storage keys. -/
def rangeDocuments (db : DBImpl) (range : Range) : List Write :=
  (storedBodies db).filterMap (rangeDocument range)

/-- The calls come to an end, and yield every document of the range once, as it is stored. -/
def ExportsExactly (c : Codec) (records : Stored → Option Obj) (db : DBImpl) (range : Range)
    (limit : Int) : Prop :=
  ∃ fuel writes, exportRange c records db range.start range.stop limit fuel [] = some (.ok writes) ∧
    writes.Perm (rangeDocuments db range)

/-- The document a full chunk ends with, when the chunks hold the documents of the range. -/
def EndsChunk (db : DBImpl) (range : Range) (limit : Int) (k : Bytes) : Prop :=
  PagedScan.LastOfPage (chunkLimit limit) ((rangeDocuments db range).map Prod.fst) k

/-- The condition under which an export is exact. -/
structure ExportCondition (c : Codec) (db : DBImpl) (range : Range) (limit : Int) : Prop where
  inside : ∀ d ∈ rangeDocuments db range, keyRangeStart range.start ≤ keyRangeStart d.1 ∧
    keyRangeStart d.1 < keyRangeStart range.stop ∧ ¬ metadataPrefix <+: keyRangeStart d.1
  chunks : ∀ k, EndsChunk db range limit k →
    k ≠ [] ∧ ∀ d ∈ rangeDocuments db range, ¬ ContinuesBySeparator k d.1
  others : ∀ k v, db.get? (keyRangeStart k) = some v → keyRangeStart range.start ≤ keyRangeStart k →
    keyRangeStart k < keyRangeStart range.stop → ¬ metadataPrefix <+: keyRangeStart k →
    k ∉ (rangeDocuments db range).map Prod.fst →
    ∃ last, EndsChunk db range limit last ∧ ContinuesBySeparator last k
  printed : ∀ d ∈ rangeDocuments db range, (c.unmarshalObj d.2).bind c.marshalObj = some d.2

section Exact

variable {c : Codec} {records : Stored → Option Obj} {db : DBImpl} {range : Range} {limit : Int}

variable {e : Bytes × Stored} {k json x afterKey : Bytes} {w : Write} {writes : List Write}

theorem rangeDocument_eq_some :
    rangeDocument range e = some (k, json) ↔
      e = (k, .zstd json) ∧ range.contains (keyRangeStart k) = true := by
  obtain ⟨k', v⟩ := e
  unfold rangeDocument
  constructor
  · intro h
    cases v with
    | zstd json' =>
      dsimp only at h
      split at h
      · cases h
        exact ⟨rfl, by assumption⟩
      · cases h
    | _ => cases h
  · rintro ⟨heq, hrange⟩
    obtain ⟨rfl, rfl⟩ := Prod.mk.inj heq
    exact if_pos hrange

theorem mem_rangeDocuments :
    (k, json) ∈ rangeDocuments db range ↔
      db.get? (keyRangeStart k) = some (.zstd json) ∧
        range.contains (keyRangeStart k) = true := by
  unfold rangeDocuments
  rw [mem_filterMap]
  constructor
  · rintro ⟨e, hmem, h⟩
    obtain ⟨rfl, hrange⟩ := rangeDocument_eq_some.mp h
    exact ⟨(mem_storedBodies.mp hmem).1, hrange⟩
  · rintro ⟨hget, hrange⟩
    exact ⟨_, mem_storedBodies.mpr ⟨hget, json, rfl⟩, rangeDocument_eq_some.mpr ⟨rfl, hrange⟩⟩

theorem rangeDocuments_sorted (db : DBImpl) (range : Range) :
    (rangeDocuments db range).Pairwise fun a b => keyRangeStart a.1 < keyRangeStart b.1 := by
  unfold rangeDocuments
  rw [pairwise_filterMap]
  refine (storedBodies_sorted db).imp ?_
  rintro e e' hlt b hb b' hb'
  obtain ⟨rfl, -⟩ := rangeDocument_eq_some.mp hb
  obtain ⟨rfl, -⟩ := rangeDocument_eq_some.mp hb'
  exact hlt

def bodyKeys (db : DBImpl) (range : Range) : List Bytes :=
  (bodyEntries db [] (keyRangeStart range.stop)).map fun e => keyRangeStart e.1

/-- The lower bound after a chunk that ends with a body key. -/
def boundAfter (range : Range) (key : Bytes) : Bytes :=
  exportLowerBound range.start (trimSuffix key dbRangeStart)

theorem boundAfter_keyRangeStart (k : Bytes) :
    boundAfter range (keyRangeStart k) = exportLowerBound range.start k := by
  unfold boundAfter keyRangeStart
  rw [trimSuffix_append]

theorem keyRangeStart_trimSuffix (h : isBodyKey x = true) :
    keyRangeStart (trimSuffix x dbRangeStart) = x := by
  simp only [isBodyKey, Bool.and_eq_true] at h
  obtain ⟨id, rfl⟩ := hasSuffix_iff.mp h.2
  rw [trimSuffix_append]
  rfl

theorem bodyEntries_filter (lo hi : Bytes) :
    bodyEntries db lo hi =
      (bodyEntries db [] hi).filter fun e => decide (lo ≤ keyRangeStart e.1) := by
  unfold bodyEntries OrdMap.scan
  rw [filter_map, filter_filter, filter_filter, filter_filter]
  congr 1
  refine filter_congr fun e _ => ?_
  cases hbody : isBodyKey e.1 with
  | false => simp
  | true =>
    have hkey := keyRangeStart_trimSuffix hbody
    simp [hkey, Lex.nil_le]

theorem bodyKeys_sorted : (bodyKeys db range).Pairwise (· < ·) := by
  unfold bodyKeys
  rw [pairwise_map]
  exact bodyEntries_sorted _ _ _

theorem map_take_bodyEntries (n : ℕ) (lo : Bytes) :
    ((bodyEntries db lo (keyRangeStart range.stop)).take n).map (fun e => keyRangeStart e.1) =
      PagedScan.page (bodyKeys db range) n lo := by
  unfold PagedScan.page bodyKeys
  rw [bodyEntries_filter, map_take, filter_map]
  rfl

theorem exportDocument_fst (h : exportDocument c records e = .ok w) : w.1 = e.1 := by
  unfold exportDocument at h
  split at h
  · cases h
  · split at h
    · cases h
    · cases h
      rfl

theorem map_fst_of_mapM {entries : List (Bytes × Stored)}
    (h : entries.mapM (exportDocument c records) = .ok writes) :
    (writes.map fun w => keyRangeStart w.1) = entries.map fun e => keyRangeStart e.1 := by
  rw [Fallible.mapM_eq_ok_iff] at h
  induction h with
  | nil => rfl
  | cons hw _ ih => rw [map_cons, map_cons, ih, exportDocument_fst hw]

/-- The writes of a chunk are the entries of its page, decoded and printed. -/
structure ChunkOf (c : Codec) (records : Stored → Option Obj) (db : DBImpl) (range : Range)
    (limit : Int) (afterKey : Bytes) (writes : List Write) : Prop where
  keys : writes.map (fun w => keyRangeStart w.1) =
    PagedScan.page (bodyKeys db range) (chunkLimit limit) (exportLowerBound range.start afterKey)
  exported : ∀ w ∈ writes, ∃ v, db.get? (keyRangeStart w.1) = some v ∧
    exportDocument c records (w.1, v) = .ok w

theorem exportRangeChunk_eq_ok {afterKey nextKey : Bytes} {writes : List Write} {done : Bool}
    (h : exportRangeChunk c records db range.start range.stop afterKey limit =
      .ok (writes, nextKey, done)) :
    ChunkOf c records db range limit afterKey writes ∧
      nextKey = (writes.getLast?.map Prod.fst).getD [] ∧
        done = decide (writes.length ≠ chunkLimit limit) := by
  unfold exportRangeChunk at h
  rw [Fallible.bind_eq_ok] at h
  obtain ⟨ws, hws, h⟩ := h
  rw [Fallible.pure_eq_ok] at h
  cases h
  refine ⟨⟨?_, ?_⟩, rfl, rfl⟩
  · rw [← map_take_bodyEntries]
    exact map_fst_of_mapM hws
  · intro w hw
    obtain ⟨⟨k, v⟩, he, hexport⟩ := Fallible.exists_of_mem_mapM hws hw
    have hid := exportDocument_fst hexport
    obtain ⟨-, -, -, hget⟩ := mem_bodyEntries.mp (mem_of_mem_take he)
    refine ⟨v, ?_, ?_⟩
    · rw [hid]
      exact hget
    · rw [hid]
      exact hexport

theorem exists_exportRangeChunk (afterKey : Bytes)
    (h : ∀ x ∈ PagedScan.page (bodyKeys db range) (chunkLimit limit)
        (exportLowerBound range.start afterKey), ∀ k v, x = keyRangeStart k →
      db.get? x = some v → ∃ w, exportDocument c records (k, v) = .ok w) :
    ∃ writes, exportRangeChunk c records db range.start range.stop afterKey limit =
      .ok (writes, (writes.getLast?.map Prod.fst).getD [],
        decide (writes.length ≠ chunkLimit limit)) := by
  have hall : ∀ e ∈ (bodyEntries db (exportLowerBound range.start afterKey)
      (keyRangeStart range.stop)).take (chunkLimit limit),
      ∃ w, exportDocument c records e = .ok w := by
    intro e he
    refine h (keyRangeStart e.1) ?_ e.1 e.2 rfl ?_
    · rw [← map_take_bodyEntries]
      exact mem_map_of_mem he
    · exact (mem_bodyEntries.mp (mem_of_mem_take he)).2.2.2
  obtain ⟨writes, hwrites⟩ := Fallible.exists_mapM_ok_iff.mpr hall
  refine ⟨writes, ?_⟩
  unfold exportRangeChunk
  dsimp only
  rw [hwrites]
  rfl

theorem chunkLimit_pos (limit : Int) : 0 < chunkLimit limit := by
  unfold chunkLimit
  split <;> omega

theorem length_page_le (h : ChunkOf c records db range limit afterKey writes) :
    writes.length ≤ chunkLimit limit := by
  have hlength := congrArg List.length h.keys
  rw [length_map] at hlength
  rw [hlength]
  exact length_take_le _ _

theorem ChunkOf.full (h : ChunkOf c records db range limit afterKey writes)
    (hfull : writes.length = chunkLimit limit) :
    ∃ p k, (writes.getLast?.map Prod.fst).getD [] = k ∧
      writes.map (fun w => keyRangeStart w.1) = p ++ [keyRangeStart k] ∧
        (p ++ [keyRangeStart k]).length = chunkLimit limit := by
  have hne : writes ≠ [] := by
    rintro rfl
    exact absurd hfull (chunkLimit_pos limit).ne
  obtain ⟨init, w, rfl⟩ : ∃ init w, writes = init ++ [w] :=
    ⟨_, _, (dropLast_append_getLast hne).symm⟩
  refine ⟨init.map fun w => keyRangeStart w.1, w.1, by simp, by simp, ?_⟩
  rw [← hfull]
  simp

theorem reads_of_exportRange {fuel : ℕ}
    (h : exportRange c records db range.start range.stop limit fuel afterKey = some (.ok writes)) :
    PagedScan.Reads (bodyKeys db range) (boundAfter range) (chunkLimit limit)
        (exportLowerBound range.start afterKey) (writes.map fun w => keyRangeStart w.1) ∧
      ∀ w ∈ writes, ∃ v, db.get? (keyRangeStart w.1) = some v ∧
        exportDocument c records (w.1, v) = .ok w := by
  induction fuel generalizing afterKey writes with
  | zero => cases h
  | succ fuel ih =>
    unfold exportRange at h
    split at h
    · cases h
    · rename_i chunk nextKey done hchunk
      obtain ⟨hof, rfl, rfl⟩ := exportRangeChunk_eq_ok hchunk
      split at h
      · rename_i hdone
        cases h
        refine ⟨?_, hof.exported⟩
        have hlt : writes.length < chunkLimit limit :=
          lt_of_le_of_ne (length_page_le hof) (of_decide_eq_true hdone)
        rw [hof.keys]
        refine PagedScan.Reads.last ?_
        rwa [← hof.keys, length_map]
      · rename_i hdone
        obtain ⟨r, hrest, hr⟩ := Option.map_eq_some_iff.mp h
        cases r with
        | error e => cases hr
        | ok later =>
          cases hr
          obtain ⟨hreads, hexported⟩ := ih hrest
          have hfull : chunk.length = chunkLimit limit := by
            by_contra hne
            exact hdone (decide_eq_true hne)
          obtain ⟨p, k, hk, hkeys, hlength⟩ := hof.full hfull
          refine ⟨?_, fun w hw => ?_⟩
          · rw [map_append, hkeys]
            refine PagedScan.Reads.more (hof.keys.symm.trans hkeys) hlength ?_
            rw [boundAfter_keyRangeStart, ← hk]
            exact hreads
          · exact (mem_append.mp hw).elim (hof.exported w) (hexported w)

theorem exportRange_of_reads {lo : Bytes} {X : List Bytes}
    (h : PagedScan.Reads (bodyKeys db range) (boundAfter range) (chunkLimit limit) lo X)
    (hexport : ∀ x ∈ X, ∀ k v, x = keyRangeStart k → db.get? x = some v →
      ∃ w, exportDocument c records (k, v) = .ok w)
    {afterKey : Bytes} (hlo : lo = exportLowerBound range.start afterKey) :
    ∃ fuel writes, exportRange c records db range.start range.stop limit fuel afterKey =
      some (.ok writes) ∧ (writes.map fun w => keyRangeStart w.1) = X := by
  induction h generalizing afterKey with
  | @last lo hlt =>
    subst hlo
    obtain ⟨writes, hwrites⟩ := exists_exportRangeChunk afterKey hexport
    obtain ⟨hof, -⟩ := exportRangeChunk_eq_ok hwrites
    refine ⟨1, writes, ?_, hof.keys⟩
    have hdone : decide (writes.length ≠ chunkLimit limit) = true := by
      rw [← hof.keys, length_map] at hlt
      exact decide_eq_true hlt.ne
    unfold exportRange
    rw [hwrites, hdone]
    rfl
  | @more lo x p out hpage hfull hrest ih =>
    subst hlo
    obtain ⟨writes, hwrites⟩ := exists_exportRangeChunk afterKey (by
      rw [hpage]
      exact fun y hy => hexport y (mem_append_left _ hy))
    obtain ⟨hof, -⟩ := exportRangeChunk_eq_ok hwrites
    have hlength : writes.length = chunkLimit limit := by
      rw [← hfull, ← hpage, ← hof.keys, length_map]
    obtain ⟨p', k, hk, hkeys, -⟩ := hof.full hlength
    have hlast : x = keyRangeStart k := by
      have heq := (hpage.symm.trans hof.keys.symm).trans hkeys
      exact (List.cons.inj (append_inj' heq rfl).2).1
    have hbound : boundAfter range x = exportLowerBound range.start k := by
      rw [hlast, boundAfter_keyRangeStart]
    obtain ⟨fuel, later, hlater, hkeys'⟩ :=
      ih (fun y hy => hexport y (mem_append_right _ hy)) hbound
    refine ⟨fuel + 1, writes ++ later, ?_, ?_⟩
    · have hdone : decide (writes.length ≠ chunkLimit limit) = false :=
        decide_eq_false fun hne => hne hlength
      unfold exportRange
      rw [hwrites, hdone, hk]
      dsimp only
      rw [hlater]
      rfl
    · rw [map_append, hkeys', hof.keys, hpage]

theorem keyRangeStart_mem_bodyKeys :
    keyRangeStart k ∈ bodyKeys db range ↔
      keyRangeStart k < keyRangeStart range.stop ∧ ¬ metadataPrefix <+: keyRangeStart k ∧
        ∃ v, db.get? (keyRangeStart k) = some v := by
  unfold bodyKeys
  rw [mem_map]
  constructor
  · rintro ⟨⟨k', v⟩, hmem, hkey⟩
    obtain rfl := keyRangeStart_inj.mp hkey
    obtain ⟨-, hhi, hmeta, hget⟩ := mem_bodyEntries.mp hmem
    exact ⟨hhi, hmeta, v, hget⟩
  · rintro ⟨hhi, hmeta, v, hget⟩
    exact ⟨(k, v), mem_bodyEntries.mpr ⟨Lex.nil_le _, hhi, hmeta, hget⟩, rfl⟩

theorem exists_of_mem_bodyKeys (h : x ∈ bodyKeys db range) : ∃ k, x = keyRangeStart k := by
  obtain ⟨e, -, rfl⟩ := mem_map.mp h
  exact ⟨e.1, rfl⟩

/-- The body keys of the documents of the range. -/
def rangeKeys (db : DBImpl) (range : Range) : List Bytes :=
  (rangeDocuments db range).map fun d => keyRangeStart d.1

theorem lastOfPage_rangeKeys :
    PagedScan.LastOfPage (chunkLimit limit) (rangeKeys db range) x ↔
      ∃ k, x = keyRangeStart k ∧ EndsChunk db range limit k := by
  unfold PagedScan.LastOfPage EndsChunk PagedScan.LastOfPage rangeKeys
  simp only [getElem?_map, Option.map_eq_some_iff]
  constructor
  · rintro ⟨i, d, hd, rfl⟩
    exact ⟨d.1, rfl, i, d, hd, rfl⟩
  · rintro ⟨k, rfl, i, d, hd, rfl⟩
    exact ⟨i, d, hd, rfl⟩

theorem boundAfter_of_ne_nil (h : k ≠ []) : boundAfter range (keyRangeStart k) = keyRangeEnd k := by
  rw [boundAfter_keyRangeStart]
  unfold exportLowerBound
  rw [isEmpty_eq_false_iff.mpr h]
  rfl

theorem boundAfter_nil : boundAfter range (keyRangeStart []) = keyRangeStart range.start := by
  rw [boundAfter_keyRangeStart]
  rfl

theorem keyRangeStart_lt_keyRangeEnd (k : Bytes) : keyRangeStart k < keyRangeEnd k := by
  have hend : keyRangeEnd k = k ++ [58, 0xFF] := rfl
  rw [keyRangeStart_eq, hend, Lex.append_lt_append_left]
  decide

theorem boundAfter_forward : ∀ x ∈ bodyKeys db range,
    x < boundAfter range x ∨ boundAfter range x = exportLowerBound range.start [] := by
  intro x hx
  obtain ⟨k, rfl⟩ := exists_of_mem_bodyKeys hx
  by_cases hk : k = []
  · subst hk
    exact Or.inr boundAfter_nil
  · rw [boundAfter_of_ne_nil hk]
    exact Or.inl (keyRangeStart_lt_keyRangeEnd k)

/-- The documents of the range are what a reader ends with. -/
def ReadsRange (db : DBImpl) (range : Range) (limit : Int) : Prop :=
  PagedScan.Exactly (bodyKeys db range) (boundAfter range) (chunkLimit limit)
    (keyRangeStart range.start) (rangeKeys db range)

theorem inside_of_readsRange (h : ReadsRange db range limit) (d : Write)
    (hd : d ∈ rangeDocuments db range) : keyRangeStart range.start ≤ keyRangeStart d.1 ∧
      keyRangeStart d.1 < keyRangeStart range.stop ∧ ¬ metadataPrefix <+: keyRangeStart d.1 := by
  obtain ⟨hmem, hlo⟩ := h.stored _ (mem_map_of_mem hd)
  obtain ⟨hhi, hmeta, -⟩ := keyRangeStart_mem_bodyKeys.mp hmem
  exact ⟨hlo, hhi, hmeta⟩

theorem keyRangeStart_mem_rangeKeys :
    keyRangeStart k ∈ rangeKeys db range ↔ k ∈ (rangeDocuments db range).map Prod.fst := by
  unfold rangeKeys
  simp only [mem_map, keyRangeStart_inj]

/-- A full chunk is followed by the next document of the range exactly when no document of the
range continues its last id by a separator. -/
theorem forward_iff (hlo : keyRangeStart range.start ≤ keyRangeStart k) :
    (keyRangeStart k < boundAfter range (keyRangeStart k) ∧
        ∀ x ∈ rangeKeys db range, keyRangeStart k < x → boundAfter range (keyRangeStart k) ≤ x) ↔
      k ≠ [] ∧ ∀ d ∈ rangeDocuments db range, ¬ ContinuesBySeparator k d.1 := by
  by_cases hk : k = []
  · subst hk
    rw [boundAfter_nil]
    exact iff_of_false (fun h => absurd h.1 (not_lt.mpr hlo)) fun h => h.1 rfl
  · rw [boundAfter_of_ne_nil hk]
    refine and_congr (iff_of_true (keyRangeStart_lt_keyRangeEnd k) hk) ?_
    unfold rangeKeys
    rw [forall_mem_map]
    refine forall₂_congr fun d _ => ?_
    rw [continuesBySeparator_iff, not_and, not_lt]

theorem passed_iff {last : Bytes} (hlo : keyRangeStart range.start ≤ keyRangeStart last) :
    keyRangeStart last < keyRangeStart k ∧
        keyRangeStart k < boundAfter range (keyRangeStart last) ↔
      last ≠ [] ∧ ContinuesBySeparator last k := by
  by_cases hlast : last = []
  · subst hlast
    rw [boundAfter_nil]
    exact iff_of_false (fun h => lt_irrefl _ (h.1.trans (h.2.trans_le hlo))) fun h => h.1 rfl
  · rw [boundAfter_of_ne_nil hlast, ← continuesBySeparator_iff]
    exact (and_iff_right hlast).symm

theorem EndsChunk.mem (h : EndsChunk db range limit k) :
    ∃ json, (k, json) ∈ rangeDocuments db range := by
  obtain ⟨d, hd, rfl⟩ := mem_map.mp (PagedScan.mem_of_lastOfPage h)
  exact ⟨d.2, hd⟩

theorem readsRange_iff :
    ReadsRange db range limit ↔
      (∀ d ∈ rangeDocuments db range, keyRangeStart range.start ≤ keyRangeStart d.1 ∧
        keyRangeStart d.1 < keyRangeStart range.stop ∧ ¬ metadataPrefix <+: keyRangeStart d.1) ∧
      (∀ k, EndsChunk db range limit k →
        k ≠ [] ∧ ∀ d ∈ rangeDocuments db range, ¬ ContinuesBySeparator k d.1) ∧
      ∀ k v, db.get? (keyRangeStart k) = some v →
        keyRangeStart range.start ≤ keyRangeStart k →
        keyRangeStart k < keyRangeStart range.stop → ¬ metadataPrefix <+: keyRangeStart k →
        k ∉ (rangeDocuments db range).map Prod.fst →
        ∃ last, EndsChunk db range limit last ∧ ContinuesBySeparator last k := by
  constructor
  · intro h
    have hinside := inside_of_readsRange h
    have hends : ∀ {k}, EndsChunk db range limit k →
        keyRangeStart range.start ≤ keyRangeStart k := by
      intro k hk
      obtain ⟨json, hmem⟩ := hk.mem
      exact (hinside _ hmem).1
    refine ⟨hinside, ?_, ?_⟩
    · intro k hk
      exact (forward_iff (hends hk)).mp (h.forward _ (lastOfPage_rangeKeys.mpr ⟨k, rfl, hk⟩))
    · intro k v hget hlo hhi hmeta hnot
      obtain ⟨x, hx, hpassed⟩ := h.others _ (keyRangeStart_mem_bodyKeys.mpr ⟨hhi, hmeta, v, hget⟩)
        hlo (fun hmem => hnot (keyRangeStart_mem_rangeKeys.mp hmem))
      obtain ⟨last, rfl, hlast⟩ := lastOfPage_rangeKeys.mp hx
      exact ⟨last, hlast, ((passed_iff (hends hlast)).mp hpassed).2⟩
  · rintro ⟨hinside, hchunks, hothers⟩
    have hends : ∀ {k}, EndsChunk db range limit k →
        keyRangeStart range.start ≤ keyRangeStart k := by
      intro k hk
      obtain ⟨json, hmem⟩ := hk.mem
      exact (hinside _ hmem).1
    constructor
    · intro x hx
      obtain ⟨d, hd, rfl⟩ := mem_map.mp hx
      obtain ⟨hlo, hhi, hmeta⟩ := hinside d hd
      have hget := (mem_rangeDocuments.mp hd).1
      exact ⟨keyRangeStart_mem_bodyKeys.mpr ⟨hhi, hmeta, _, hget⟩, hlo⟩
    · intro x hx
      obtain ⟨k, rfl, hk⟩ := lastOfPage_rangeKeys.mp hx
      exact (forward_iff (hends hk)).mpr (hchunks k hk)
    · intro x hx hlo hnot
      obtain ⟨k, rfl⟩ := exists_of_mem_bodyKeys hx
      obtain ⟨hhi, hmeta, v, hget⟩ := keyRangeStart_mem_bodyKeys.mp hx
      obtain ⟨last, hlast, hcontinues⟩ := hothers k v hget hlo hhi hmeta
        fun hmem => hnot (keyRangeStart_mem_rangeKeys.mpr hmem)
      refine ⟨keyRangeStart last, lastOfPage_rangeKeys.mpr ⟨last, rfl, hlast⟩, ?_⟩
      exact (passed_iff (hends hlast)).mpr ⟨(hchunks last hlast).1, hcontinues⟩

theorem exportDocument_zstd :
    exportDocument c records (k, .zstd json) = .ok w ↔
      ∃ docBytes, (c.unmarshalObj json).bind c.marshalObj = some docBytes ∧ w = (k, docBytes) := by
  have hdecode : decodeDocumentJSON c records (.zstd json) = c.unmarshalObj json := rfl
  unfold exportDocument
  dsimp only
  rw [hdecode]
  cases hdoc : c.unmarshalObj json with
  | none => simp
  | some doc =>
    cases hbytes : c.marshalObj doc with
    | none => simp [hbytes]
    | some docBytes => simp [hbytes, eq_comm]

theorem reads_iff_readsRange {X : List Bytes} :
    PagedScan.Reads (bodyKeys db range) (boundAfter range) (chunkLimit limit)
        (keyRangeStart range.start) X ↔
      X.Pairwise (· < ·) ∧ PagedScan.Exactly (bodyKeys db range) (boundAfter range)
        (chunkLimit limit) (keyRangeStart range.start) X :=
  PagedScan.reads_iff (chunkLimit_pos limit) bodyKeys_sorted boundAfter_forward

theorem rangeKeys_sorted : (rangeKeys db range).Pairwise (· < ·) := by
  unfold rangeKeys
  rw [pairwise_map]
  exact rangeDocuments_sorted db range

theorem ExportsExactly.condition :
    ExportsExactly c records db range limit → ExportCondition c db range limit := by
  rintro ⟨fuel, writes, hrun, hperm⟩
  obtain ⟨hreads, hexported⟩ := reads_of_exportRange hrun
  obtain ⟨hsorted, hexact⟩ := reads_iff_readsRange.mp hreads
  have hkeys : (writes.map fun w => keyRangeStart w.1) = rangeKeys db range :=
    PagedScan.eq_of_sorted hsorted rangeKeys_sorted fun x => (hperm.map _).mem_iff
  rw [hkeys] at hexact
  obtain ⟨hinside, hchunks, hothers⟩ := readsRange_iff.mp hexact
  refine ⟨hinside, hchunks, hothers, ?_⟩
  rintro ⟨k, json⟩ hd
  obtain ⟨v, hget, hexport⟩ := hexported (k, json) (hperm.mem_iff.mpr hd)
  obtain rfl := Option.some.inj ((mem_rangeDocuments.mp hd).1.symm.trans hget)
  obtain ⟨docBytes, hbytes, heq⟩ := exportDocument_zstd.mp hexport
  obtain rfl : json = docBytes := (Prod.mk.inj heq).2
  exact hbytes

theorem ExportCondition.exports :
    ExportCondition c db range limit → ExportsExactly c records db range limit := by
  intro h
  have hreads := reads_iff_readsRange.mpr ⟨rangeKeys_sorted,
    readsRange_iff.mpr ⟨h.inside, h.chunks, h.others⟩⟩
  have hdocument : ∀ {k v}, keyRangeStart k ∈ rangeKeys db range →
      db.get? (keyRangeStart k) = some v → ∃ json, v = .zstd json ∧
        (k, json) ∈ rangeDocuments db range := by
    intro k v hmem hget
    obtain ⟨d, hd, rfl⟩ := mem_map.mp (keyRangeStart_mem_rangeKeys.mp hmem)
    exact ⟨d.2, Option.some.inj (hget.symm.trans (mem_rangeDocuments.mp hd).1), hd⟩
  have hprints : ∀ x ∈ rangeKeys db range, ∀ k v, x = keyRangeStart k → db.get? x = some v →
      ∃ w, exportDocument c records (k, v) = .ok w := by
    rintro x hx k v rfl hget
    obtain ⟨json, rfl, hd⟩ := hdocument hx hget
    exact ⟨_, exportDocument_zstd.mpr ⟨json, h.printed _ hd, rfl⟩⟩
  have hstart : keyRangeStart range.start = exportLowerBound range.start [] := rfl
  obtain ⟨fuel, writes, hrun, hkeys⟩ := exportRange_of_reads hreads hprints hstart
  refine ⟨fuel, writes, hrun, ?_⟩
  have hsound : ∀ w ∈ writes, w ∈ rangeDocuments db range := by
    rintro ⟨k, b⟩ hw
    obtain ⟨v, hget, hexport⟩ := (reads_of_exportRange hrun).2 _ hw
    have hmem : keyRangeStart k ∈ rangeKeys db range := hkeys ▸ mem_map_of_mem hw
    obtain ⟨json, rfl, hd⟩ := hdocument hmem hget
    obtain ⟨docBytes, hbytes, heq⟩ := exportDocument_zstd.mp hexport
    obtain rfl : b = docBytes := (Prod.mk.inj heq).2
    obtain rfl : b = json := Option.some.inj (hbytes.symm.trans (h.printed _ hd))
    exact hd
  have hnodup : ∀ {l : List Write},
      (l.map fun w => keyRangeStart w.1) = rangeKeys db range → l.Nodup := by
    intro l hl
    refine List.Nodup.of_map (fun w => keyRangeStart w.1) ?_
    rw [hl]
    exact rangeKeys_sorted.imp fun hlt => hlt.ne
  refine (perm_ext_iff_of_nodup (hnodup hkeys) (hnodup rfl)).mpr fun d => ⟨hsound d, ?_⟩
  intro hd
  have hmem : keyRangeStart d.1 ∈ writes.map fun w => keyRangeStart w.1 :=
    hkeys ▸ mem_map_of_mem hd
  obtain ⟨w, hw, hkey⟩ := mem_map.mp hmem
  have hid : w.1 = d.1 := keyRangeStart_inj.mp hkey
  have hstored := (mem_rangeDocuments.mp (hsound w hw)).1
  rw [hid, (mem_rangeDocuments.mp hd).1, Option.some.injEq, Stored.zstd.injEq] at hstored
  rwa [Prod.ext hid.symm hstored]

/-- An export is exact exactly under the condition. -/
theorem exportsExactly_iff :
    ExportsExactly c records db range limit ↔ ExportCondition c db range limit :=
  ⟨ExportsExactly.condition, ExportCondition.exports⟩

end Exact

def shardWithDocument : DBImpl :=
  { DBImpl.empty with
    pdb := .ofList [(keyRangeStart (ascii ['a']), .zstd (ascii ['\x7b', '\x7d']))] }

theorem range_not_exported :
    validateDocumentMutationKey (ascii ['a']) = none ∧
      ¬ ExportsExactly Codec.emptyObject (fun _ => none) shardWithDocument ⟨[], []⟩ 1 ∧
      ¬ ExportsExactly Codec.emptyObject (fun _ => none) shardWithDocument
        ⟨keyRangeStart (ascii ['a']), keyRangeStart (ascii ['b'])⟩ 1 := by
  refine ⟨by decide, ?_, ?_⟩
  · intro h
    have hdocument : (ascii ['a'], ascii ['\x7b', '\x7d']) ∈
        rangeDocuments shardWithDocument ⟨[], []⟩ := by decide +kernel
    have hhi := (h.condition.inside _ hdocument).2.1
    exact absurd hhi (by decide)
  · intro h
    have hdocument : (ascii ['a'], ascii ['\x7b', '\x7d']) ∈
        rangeDocuments shardWithDocument
          ⟨keyRangeStart (ascii ['a']), keyRangeStart (ascii ['b'])⟩ := by decide +kernel
    have hlo := (h.condition.inside _ hdocument).1
    exact absurd hlo (by decide)

end Antfly
