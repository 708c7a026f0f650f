import Antfly.Indexes.Keys
import Antfly.Lib.SuffixOrder
import Antfly.Store.DocumentKeys
import Antfly.Store.Document

/-!
`DBImpl.Scan` lists the documents between two ids with the hashes of their bodies.  It iterates over
storage keys between the two ids with `:\x00` or `:\xFF` appended, passes over the keys that are not
bodies, and stops at the limit.

A body is the zstd value under `<id>:\x00`.  The store's own records are plain JSON, so a record
whose key ends in the same two bytes is decoded like a body; `records` says what to.
-/

namespace Antfly

open List

/-- The keys a scan does not pass over. -/
def isBodyKey (key : Bytes) : Bool := !hasPrefix key metadataPrefix && hasSuffix key dbRangeStart

/-- `DecodeDocumentJSON`: compressed or plain JSON. -/
def decodeDocumentJSON (c : Codec) (records : Stored → Option Obj) : Stored → Option Obj
  | .zstd json => c.unmarshalObj json
  | .raw b => c.unmarshalObj b
  | v => records v

def timestampField : Bytes := ascii ['_', 't', 'i', 'm', 'e', 's', 't', 'a', 'm', 'p']

/-- `ComputeDocumentHash`, which leaves the timestamp field out. -/
def computeDocumentHash (c : Codec) (doc : Obj) : Option Nat :=
  (c.marshalObj (doc.filter fun f => f.1 ≠ timestampField)).map c.xxhash

/-- The ids an iteration from `lo` up to `hi` shows, with the values under their body keys. -/
def bodyEntries (db : DBImpl) (lo hi : Bytes) : List (Bytes × Stored) :=
  ((db.pdb.scan lo hi).filter fun e => isBodyKey e.1).map fun e =>
    (trimSuffix e.1 dbRangeStart, e.2)

/-- The document a stored entry is the body of. -/
def storedBody (e : Bytes × Stored) : Option (Bytes × Stored) :=
  match e.2 with
  | .zstd json =>
    if hasSuffix e.1 dbRangeStart then some (trimSuffix e.1 dbRangeStart, .zstd json) else none
  | _ => none

/-- The bodies a shard stores with their ids, in the order of the storage keys. -/
def storedBodies (db : DBImpl) : List (Bytes × Stored) := db.pdb.entries.filterMap storedBody

structure ScanOptions where
  inclusiveFrom : Bool
  exclusiveTo : Bool
  includeDocuments : Bool
  limit : Int

structure ScanResult where
  hashes : OrdMap Bytes Nat
  documents : OrdMap Bytes Obj

def scanLowerBound (opts : ScanOptions) (fromKey : Bytes) : Bytes :=
  if opts.inclusiveFrom then keyRangeStart fromKey else keyRangeEnd fromKey

def scanUpperBound (opts : ScanOptions) (toKey : Bytes) : Bytes :=
  if opts.exclusiveTo then keyRangeStart toKey else keyRangeEnd toKey

section Scan

variable (c : Codec) (records : Stored → Option Obj) (db : DBImpl) (opts : ScanOptions)

/-- The callback of the scan with what it has collected: the result and the count for the limit. -/
def scanCallback (s : ScanResult × ℕ) (entry : Bytes × Stored) : ScanResult × ℕ :=
  match isDocumentExpired c db entry.1 with
  | .error _ => s
  | .ok true => s
  | .ok false =>
    match decodeDocumentJSON c records entry.2 with
    | none => ({ s.1 with hashes := s.1.hashes.insert entry.1 0 }, s.2)
    | some doc =>
      -- A document that cannot be hashed counts as changed.
      ({ hashes := s.1.hashes.insert entry.1 ((computeDocumentHash c doc).getD 0)
         documents :=
           if opts.includeDocuments then s.1.documents.insert entry.1 doc else s.1.documents },
        s.2 + 1)

def scanLoop (s : ScanResult × ℕ) : List (Bytes × Stored) → ScanResult
  | [] => s.1
  | entry :: rest =>
    if 0 < opts.limit ∧ opts.limit ≤ s.2 then s.1
    else scanLoop (scanCallback c records db opts s entry) rest

/-- `DBImpl.Scan` without a filter. -/
def DBImpl.scan (fromKey toKey : Bytes) : ScanResult :=
  scanLoop c records db opts (⟨.empty, .empty⟩, 0)
    (bodyEntries db (scanLowerBound opts fromKey) (scanUpperBound opts toKey))

end Scan

variable {db : DBImpl} {k b t : Bytes} {v : Stored} {d : UInt8}

theorem mem_bodyEntries {lo hi : Bytes} :
    (k, v) ∈ bodyEntries db lo hi ↔
      lo ≤ keyRangeStart k ∧ keyRangeStart k < hi ∧ ¬ metadataPrefix <+: keyRangeStart k ∧
        db.get? (keyRangeStart k) = some v := by
  unfold bodyEntries
  simp only [mem_map, mem_filter, isBodyKey, Bool.and_eq_true, Bool.not_eq_true',
    ← Bool.not_eq_true, hasPrefix_iff, hasSuffix_iff, Prod.mk.injEq]
  constructor
  · rintro ⟨⟨x, v'⟩, ⟨hscan, hmeta, id, rfl⟩, hid, rfl⟩
    rw [trimSuffix_append] at hid
    subst hid
    obtain ⟨⟨hlo, hhi⟩, hget⟩ := (OrdMap.mem_scan_iff _ _ _ _ _).mp hscan
    exact ⟨hlo, hhi, hmeta, hget⟩
  · rintro ⟨hlo, hhi, hmeta, hget⟩
    refine ⟨(keyRangeStart k, v), ⟨?_, hmeta, suffix_append _ _⟩, trimSuffix_append _ _, rfl⟩
    exact (OrdMap.mem_scan_iff _ _ _ _ _).mpr ⟨⟨hlo, hhi⟩, hget⟩

theorem bodyEntries_sorted (db : DBImpl) (lo hi : Bytes) :
    (bodyEntries db lo hi).Pairwise fun a b => keyRangeStart a.1 < keyRangeStart b.1 := by
  unfold bodyEntries
  rw [pairwise_map]
  have hsorted : ((db.pdb.scan lo hi).filter fun e => isBodyKey e.1).Pairwise
      fun a b => a.1 < b.1 := (db.pdb.sorted.filter _).filter _
  refine hsorted.imp_of_mem ?_
  intro a b ha hb hlt
  have hkey : ∀ e ∈ (db.pdb.scan lo hi).filter fun e => isBodyKey e.1,
      keyRangeStart (trimSuffix e.1 dbRangeStart) = e.1 := by
    intro e he
    have hbody := (mem_filter.mp he).2
    simp only [isBodyKey, Bool.and_eq_true] at hbody
    obtain ⟨id, hid⟩ := hasSuffix_iff.mp hbody.2
    rw [← hid, trimSuffix_append]
    rfl
  rw [hkey a ha, hkey b hb]
  exact hlt

theorem storedBody_eq_some {e : Bytes × Stored} :
    storedBody e = some (k, v) ↔ e = (keyRangeStart k, v) ∧ ∃ json, v = .zstd json := by
  obtain ⟨x, w⟩ := e
  unfold storedBody
  constructor
  · intro h
    cases w with
    | zstd json =>
      dsimp only at h
      split at h
      · rename_i hsuf
        obtain ⟨id, rfl⟩ := hasSuffix_iff.mp hsuf
        rw [trimSuffix_append] at h
        cases h
        exact ⟨rfl, json, rfl⟩
      · cases h
    | _ => cases h
  · rintro ⟨heq, json, rfl⟩
    obtain ⟨rfl, rfl⟩ := Prod.mk.inj heq
    have hsuf : hasSuffix (keyRangeStart k) dbRangeStart = true :=
      hasSuffix_iff.mpr (suffix_append _ _)
    dsimp only
    rw [if_pos hsuf]
    exact congrArg (fun id => some (id, Stored.zstd json)) (trimSuffix_append _ _)

theorem mem_storedBodies :
    (k, v) ∈ storedBodies db ↔
      db.get? (keyRangeStart k) = some v ∧ ∃ json, v = .zstd json := by
  unfold storedBodies DBImpl.get?
  rw [mem_filterMap, ← OrdMap.mem_entries_iff]
  constructor
  · rintro ⟨e, hentry, h⟩
    obtain ⟨rfl, hbody⟩ := storedBody_eq_some.mp h
    exact ⟨hentry, hbody⟩
  · rintro ⟨hentry, hbody⟩
    exact ⟨_, hentry, storedBody_eq_some.mpr ⟨rfl, hbody⟩⟩

theorem storedBodies_sorted (db : DBImpl) :
    (storedBodies db).Pairwise fun a b => keyRangeStart a.1 < keyRangeStart b.1 := by
  unfold storedBodies
  rw [pairwise_filterMap]
  refine db.pdb.sorted.imp ?_
  rintro e e' hlt b hb b' hb'
  obtain ⟨rfl, -⟩ := storedBody_eq_some.mp hb
  obtain ⟨rfl, -⟩ := storedBody_eq_some.mp hb'
  exact hlt

/-- One of the ids continues the other by a byte below the separator. -/
def ContinuesBelow (b k : Bytes) : Prop :=
  ∃ d t, d < 58 ∧ (k = b ++ d :: t ∨ b = k ++ d :: t)

/-- `k` continues `b` by the separator, so its keys lie among those of `b`. -/
def ContinuesBySeparator (b k : Bytes) : Prop := ∃ t, k = b ++ 58 :: t ∧ t.head? ≠ some 0xFF

private theorem zero_lt_append (t : Bytes) (c : UInt8) : [0] < t ++ [58, c] := by
  cases t with
  | nil => exact List.Lex.rel (by decide)
  | cons x t =>
    have hzero : (0 : UInt8) ≤ x := by
      rw [UInt8.le_iff_toNat_le]
      exact Nat.zero_le _
    rw [cons_append, cons_lt_cons_iff]
    rcases hzero.lt_or_eq with h | h
    · exact .inl h
    · refine .inr ⟨h, ?_⟩
      cases t <;> exact nil_lt_cons _ _

theorem keyRangeStart_lt_append_iff (k t : Bytes) (d c : UInt8) :
    keyRangeStart k < (k ++ d :: t) ++ [58, c] ↔ ¬ d < 58 := by
  have hshape : (k ++ d :: t) ++ [58, c] = k ++ d :: (t ++ [58, c]) := by simp
  rw [keyRangeStart_eq, hshape, Lex.append_lt_append_left, cons_lt_cons_iff, not_lt,
    le_iff_lt_or_eq]
  exact or_congr_right (and_iff_left (zero_lt_append t c))

theorem append_lt_keyRangeStart_iff (b t : Bytes) (d : UInt8) :
    keyRangeStart (b ++ d :: t) < keyRangeStart b ↔ d < 58 := by
  have hshape : keyRangeStart (b ++ d :: t) = b ++ d :: (t ++ [58, 0]) := by
    simp [keyRangeStart_eq]
  rw [hshape, keyRangeStart_eq, Lex.append_lt_append_left, cons_lt_cons_iff]
  exact or_iff_left fun h => lt_asymm h.2 (zero_lt_append t 0)

theorem append_lt_keyRangeEnd_iff (b t : Bytes) (d : UInt8) :
    keyRangeStart (b ++ d :: t) < keyRangeEnd b ↔ d < 58 ∨ d = 58 ∧ t.head? ≠ some 0xFF := by
  have hshape : keyRangeStart (b ++ d :: t) = b ++ d :: (t ++ [58, 0]) := by
    simp [keyRangeStart_eq]
  have hend : keyRangeEnd b = b ++ [58, 0xFF] := rfl
  rw [hshape, hend, Lex.append_lt_append_left, cons_lt_cons_iff]
  refine or_congr_right (and_congr_right fun _ => ?_)
  have hff : ∀ x : UInt8, x < 0xFF ↔ x ≠ 0xFF := fun x => by
    rw [lt_iff_le_and_ne]
    refine and_iff_right ?_
    rw [UInt8.le_iff_toNat_le]
    exact Nat.lt_succ_iff.mp x.toNat_lt
  cases t with
  | nil => simp [cons_lt_cons_iff]
  | cons x t => simp [cons_lt_cons_iff, hff]

private theorem id_cases (b k : Bytes) :
    k = b ∨ (∃ d t, k = b ++ d :: t) ∨ (∃ d t, b = k ++ d :: t) ∨ Lex.Apart k b := by
  rcases Lex.prefix_or_apart k b with ⟨t, rfl⟩ | ⟨t, rfl⟩ | h
  · cases t with
    | nil => exact .inl (append_nil k).symm
    | cons d t => exact .inr (.inr (.inl ⟨d, t, rfl⟩))
  · cases t with
    | nil => exact .inl (append_nil b)
    | cons d t => exact .inr (.inl ⟨d, t, rfl⟩)
  · exact .inr (.inr (.inr h))

theorem continuesBelow_append : ContinuesBelow b (b ++ d :: t) ↔ d < 58 := by
  constructor
  · rintro ⟨d', t', hd, h | h⟩
    · obtain ⟨rfl, -⟩ := List.cons.inj (append_cancel_left h)
      exact hd
    · have hlength := congrArg List.length h
      simp at hlength
  · exact fun hd => ⟨d, t, hd, .inl rfl⟩

theorem continuesBelow_append' : ContinuesBelow (k ++ d :: t) k ↔ d < 58 := by
  constructor
  · rintro ⟨d', t', hd, h | h⟩
    · have hlength := congrArg List.length h
      simp at hlength
    · obtain ⟨rfl, -⟩ := List.cons.inj (append_cancel_left h)
      exact hd
  · exact fun hd => ⟨d, t, hd, .inr rfl⟩

theorem not_continuesBelow_self (b : Bytes) : ¬ ContinuesBelow b b := by
  rintro ⟨d, t, -, h | h⟩ <;> simpa using congrArg List.length h

theorem not_continuesBelow_of_apart (h : Lex.Apart k b) : ¬ ContinuesBelow b k := by
  rintro ⟨d, t, -, rfl | rfl⟩
  · exact h.symm.not_prefix (prefix_append _ _)
  · exact h.not_prefix (prefix_append _ _)

theorem continuesBySeparator_append :
    ContinuesBySeparator b (b ++ d :: t) ↔ d = 58 ∧ t.head? ≠ some 0xFF := by
  constructor
  · rintro ⟨t', h, hhead⟩
    obtain ⟨rfl, rfl⟩ := List.cons.inj (append_cancel_left h)
    exact ⟨rfl, hhead⟩
  · rintro ⟨rfl, hhead⟩
    exact ⟨t, rfl, hhead⟩

theorem not_continuesBySeparator_of_not_begins (h : ¬ b <+: k) : ¬ ContinuesBySeparator b k := by
  rintro ⟨t, rfl, -⟩
  exact h (prefix_append _ _)

private theorem lt_append_cons (k t : Bytes) (d : UInt8) : k < k ++ d :: t :=
  Lex.lt_append_of_ne_nil k (cons_ne_nil d t)

/-- Ids and body keys order an id and a bound differently exactly when one continues the other by
a byte below the separator. -/
theorem keyRangeStart_lt_iff (b k : Bytes) :
    (keyRangeStart k < keyRangeStart b ↔ k < b) ↔ ¬ ContinuesBelow b k := by
  rcases id_cases b k with rfl | ⟨d, t, rfl⟩ | ⟨d, t, rfl⟩ | h
  · exact iff_of_true (iff_of_false (lt_irrefl _) (lt_irrefl _)) (not_continuesBelow_self k)
  · have hid : ¬ b ++ d :: t < b := (lt_append_cons b t d).not_gt
    rw [append_lt_keyRangeStart_iff, continuesBelow_append, iff_false_right hid]
  · have hid : k < k ++ d :: t := lt_append_cons k t d
    have hkey := keyRangeStart_lt_append_iff k t d 0
    rw [← keyRangeStart_eq (k ++ d :: t)] at hkey
    rw [hkey, continuesBelow_append', iff_true_right hid]
  · exact iff_of_true (h.lt_iff _ _) (not_continuesBelow_of_apart h)

/-- The bound that keeps the id itself also keeps the ids that continue it by a separator. -/
theorem keyRangeStart_lt_end_iff (b k : Bytes) :
    (keyRangeStart k < keyRangeEnd b ↔ k ≤ b) ↔
      ¬ ContinuesBelow b k ∧ ¬ ContinuesBySeparator b k := by
  rcases id_cases b k with rfl | ⟨d, t, rfl⟩ | ⟨d, t, rfl⟩ | h
  · have hkey : keyRangeStart k < keyRangeEnd k := by
      have hend : keyRangeEnd k = k ++ [58, 0xFF] := rfl
      rw [keyRangeStart_eq, hend, Lex.append_lt_append_left]
      decide
    refine iff_of_true (iff_of_true hkey le_rfl) ⟨not_continuesBelow_self k, ?_⟩
    rintro ⟨t, h, -⟩
    simpa using congrArg List.length h
  · have hid : ¬ b ++ d :: t ≤ b := (lt_append_cons b t d).not_ge
    rw [append_lt_keyRangeEnd_iff, continuesBelow_append, continuesBySeparator_append,
      iff_false_right hid, not_or]
  · have hid : k ≤ k ++ d :: t := (lt_append_cons k t d).le
    have hkey : keyRangeStart k < keyRangeEnd (k ++ d :: t) ↔ ¬ d < 58 :=
      keyRangeStart_lt_append_iff k t d 0xFF
    have hsep : ¬ ContinuesBySeparator (k ++ d :: t) k := by
      rintro ⟨t', h, -⟩
      have hlength := congrArg List.length h
      simp at hlength
    rw [hkey, continuesBelow_append', iff_true_right hid, and_iff_left hsep]
  · refine iff_of_true ?_ ⟨not_continuesBelow_of_apart h,
      not_continuesBySeparator_of_not_begins h.symm.not_prefix⟩
    have hlt : keyRangeStart k < keyRangeEnd b ↔ k < b := h.lt_iff _ _
    rw [hlt, le_iff_lt_or_eq, or_iff_left h.ne]

/-- The ids that continue `k` by a separator are those with their body among the keys of `k`. -/
theorem continuesBySeparator_iff (k d : Bytes) :
    ContinuesBySeparator k d ↔
      keyRangeStart k < keyRangeStart d ∧ keyRangeStart d < keyRangeEnd k := by
  rcases id_cases k d with rfl | ⟨c, t, rfl⟩ | ⟨c, t, rfl⟩ | h
  · refine iff_of_false ?_ fun h => lt_irrefl _ h.1
    rintro ⟨t, h, -⟩
    simpa using congrArg List.length h
  · have hne : keyRangeStart (k ++ c :: t) ≠ keyRangeStart k := by
      rw [Ne, keyRangeStart_inj]
      exact (lt_append_cons k t c).ne'
    have hlt : keyRangeStart k < keyRangeStart (k ++ c :: t) ↔ ¬ c < 58 := by
      rw [← append_lt_keyRangeStart_iff k t c, not_lt, le_iff_lt_or_eq, or_iff_left hne.symm]
    rw [continuesBySeparator_append, append_lt_keyRangeEnd_iff, hlt]
    constructor
    · rintro ⟨rfl, hhead⟩
      exact ⟨lt_irrefl _, .inr ⟨rfl, hhead⟩⟩
    · rintro ⟨hnot, hor⟩
      exact hor.resolve_left hnot
  · have hend : keyRangeStart d < keyRangeEnd (d ++ c :: t) ↔ ¬ c < 58 :=
      keyRangeStart_lt_append_iff d t c 0xFF
    rw [append_lt_keyRangeStart_iff, hend, and_not_self_iff, iff_false]
    rintro ⟨t', h, -⟩
    have hlength := congrArg List.length h
    simp at hlength
  · have hlt : keyRangeStart k < keyRangeStart d ↔ k < d := h.gt_iff _ _
    have hend : keyRangeStart d < keyRangeEnd k ↔ d < k := h.lt_iff _ _
    rw [hlt, hend]
    exact iff_of_false (not_continuesBySeparator_of_not_begins h.symm.not_prefix)
      fun hand => lt_asymm hand.1 hand.2

end Antfly
