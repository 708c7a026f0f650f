import Antfly.Lib.CountedPrefix
import Antfly.Store.RangeScan
import Mathlib.Data.List.Nodup

/-!
The documents of a shard are the bodies it stores, and a scan ought to list those between two ids in
the order of the ids, as many as the limit allows.  What it visits is a beginning of the body keys
between two storage keys.  The two agree when no document that ought to be listed changes sides at a
bound, and the others come later in the order of storage keys.
-/

namespace Antfly

open CountedPrefix List

/-- The documents of a shard, in the order of their ids. -/
def documents (db : DBImpl) : OrdMap Bytes Stored := .ofList (storedBodies db)

def isExpired (c : Codec) (db : DBImpl) (k : Bytes) : Bool :=
  match isDocumentExpired c db k with
  | .ok true => true
  | _ => false

/-- The timestamp of the document is readable, and the document has not expired. -/
def isLive (c : Codec) (db : DBImpl) (k : Bytes) : Bool :=
  match isDocumentExpired c db k with
  | .ok false => true
  | _ => false

def isAfterFrom (opts : ScanOptions) (fromKey k : Bytes) : Bool :=
  if opts.inclusiveFrom then fromKey ≤ k else fromKey < k

def isUpTo (opts : ScanOptions) (toKey k : Bytes) : Bool :=
  if opts.exclusiveTo then k < toKey else k ≤ toKey

/-- The unexpired documents between the two ids, in the order of their ids. -/
def documentsBetween (c : Codec) (db : DBImpl) (opts : ScanOptions) (fromKey toKey : Bytes) :
    List (Bytes × Stored) :=
  (documents db).entries.filter fun e =>
    isAfterFrom opts fromKey e.1 && isUpTo opts toKey e.1 && !isExpired c db e.1

/-- The documents a scan ought to list: all between the ids, or the first ones up to the limit. -/
def wantedDocuments (c : Codec) (db : DBImpl) (opts : ScanOptions) (fromKey toKey : Bytes) :
    List (Bytes × Stored) :=
  let between := documentsBetween c db opts fromKey toKey
  if 0 < opts.limit then between.take opts.limit.toNat else between

/-- The hash of a stored body; zero stands for one that cannot be decoded or hashed. -/
def bodyHash (c : Codec) (records : Stored → Option Obj) (v : Stored) : Nat :=
  ((decodeDocumentJSON c records v).bind (computeDocumentHash c)).getD 0

/-- A result with the given documents: their hashes, and their contents when they are asked for. -/
def ScanResult.listing (c : Codec) (records : Stored → Option Obj) (opts : ScanOptions)
    (l : List (Bytes × Stored)) : ScanResult where
  hashes := .ofList (l.map fun e => (e.1, bodyHash c records e.2))
  documents :=
    if opts.includeDocuments then
      .ofList (l.filterMap fun e => (decodeDocumentJSON c records e.2).map fun doc => (e.1, doc))
    else .empty

/-- The scan lists the documents it ought to list, with the hashes of their bodies. -/
def ScanExact (c : Codec) (records : Stored → Option Obj) (db : DBImpl) (opts : ScanOptions)
    (fromKey toKey : Bytes) : Prop :=
  db.scan c records opts fromKey toKey =
    .listing c records opts (wantedDocuments c db opts fromKey toKey)

/-- The bound of the scan puts `k` on the wrong side. -/
def MisplacedFrom (opts : ScanOptions) (fromKey k : Bytes) : Prop :=
  ContinuesBelow fromKey k ∨ opts.inclusiveFrom = false ∧ ContinuesBySeparator fromKey k

def MisplacedTo (opts : ScanOptions) (toKey k : Bytes) : Prop :=
  ContinuesBelow toKey k ∨ opts.exclusiveTo = false ∧ ContinuesBySeparator toKey k

/-- A key that ends like a body is stored between the bounds of the scan: of a document or of a
record of the store's own. -/
structure Listed (c : Codec) (db : DBImpl) (opts : ScanOptions) (fromKey toKey k : Bytes)
    (v : Stored) : Prop where
  stored : db.get? (keyRangeStart k) = some v
  lower : scanLowerBound opts fromKey ≤ keyRangeStart k
  upper : keyRangeStart k < scanUpperBound opts toKey
  notMetadata : ¬ metadataPrefix <+: keyRangeStart k
  live : isLive c db k = true

/-- The condition under which a scan lists what it ought to, in terms of the wanted documents. -/
structure ScanCondition (c : Codec) (records : Stored → Option Obj) (db : DBImpl)
    (opts : ScanOptions) (fromKey toKey : Bytes) : Prop where
  placed : ∀ e ∈ wantedDocuments c db opts fromKey toKey,
    ¬ MisplacedFrom opts fromKey e.1 ∧ ¬ MisplacedTo opts toKey e.1
  readable : ∀ e ∈ wantedDocuments c db opts fromKey toKey,
    ¬ metadataPrefix <+: keyRangeStart e.1 ∧ isLive c db e.1 = true
  others_later : ∀ k v, Listed c db opts fromKey toKey k v →
    (k, v) ∉ wantedDocuments c db opts fromKey toKey →
    ∀ e ∈ wantedDocuments c db opts fromKey toKey, keyRangeStart e.1 < keyRangeStart k
  cut : (∀ k v, Listed c db opts fromKey toKey k v →
      (k, v) ∈ wantedDocuments c db opts fromKey toKey) ∨
    0 < opts.limit ∧ ((wantedDocuments c db opts fromKey toKey).countP fun e =>
      (decodeDocumentJSON c records e.2).isSome) = opts.limit.toNat

section Exact

variable {c : Codec} {records : Stored → Option Obj} {db : DBImpl} {opts : ScanOptions}
  {fromKey toKey : Bytes}

variable {l l' : List (Bytes × Stored)} {k : Bytes} {v : Stored} {e : Bytes × Stored} {n : ℕ}

theorem nodup_of_sorted (h : l.Pairwise fun a b => keyRangeStart a.1 < keyRangeStart b.1) :
    (l.map Prod.fst).Nodup := by
  rw [List.Nodup, pairwise_map]
  refine h.imp ?_
  intro a b hlt heq
  rw [heq] at hlt
  exact lt_irrefl _ hlt

theorem get?_documents :
    (documents db).get? k = some v ↔
      db.get? (keyRangeStart k) = some v ∧ ∃ json, v = .zstd json := by
  unfold documents
  rw [OrdMap.get?_ofList (nodup_of_sorted (storedBodies_sorted db))]
  exact mem_storedBodies

/-- The unexpired entries of the iteration. -/
def liveEntries (c : Codec) (db : DBImpl) (opts : ScanOptions) (fromKey toKey : Bytes) :
    List (Bytes × Stored) :=
  (bodyEntries db (scanLowerBound opts fromKey) (scanUpperBound opts toKey)).filter fun e =>
    isLive c db e.1

theorem mem_liveEntries :
    (k, v) ∈ liveEntries c db opts fromKey toKey ↔ Listed c db opts fromKey toKey k v := by
  unfold liveEntries
  rw [mem_filter, mem_bodyEntries]
  constructor
  · rintro ⟨⟨hlo, hhi, hmeta, hget⟩, hlive⟩
    exact ⟨hget, hlo, hhi, hmeta, hlive⟩
  · intro h
    exact ⟨⟨h.lower, h.upper, h.notMetadata, h.stored⟩, h.live⟩

theorem liveEntries_sorted :
    (liveEntries c db opts fromKey toKey).Pairwise fun a b =>
      keyRangeStart a.1 < keyRangeStart b.1 :=
  (bodyEntries_sorted _ _ _).filter _

/-- The entries visited until the limit is reached. -/
def visitedEntries (c : Codec) (records : Stored → Option Obj) (opts : ScanOptions) (n : ℕ)
    (l : List (Bytes × Stored)) : List (Bytes × Stored) :=
  if 0 < opts.limit then
    takeCounted (fun e => (decodeDocumentJSON c records e.2).isSome) (opts.limit.toNat - n) l
  else l

/-- The result after the entries of `l` were added. -/
def ScanResult.add (c : Codec) (records : Stored → Option Obj) (opts : ScanOptions)
    (r : ScanResult) (l : List (Bytes × Stored)) : ScanResult where
  hashes := (l.map fun e => (e.1, bodyHash c records e.2)).foldl
    (fun m e => m.insert e.1 e.2) r.hashes
  documents :=
    if opts.includeDocuments then
      (l.filterMap fun e => (decodeDocumentJSON c records e.2).map fun doc => (e.1, doc)).foldl
        (fun m e => m.insert e.1 e.2) r.documents
    else r.documents

theorem scanCallback_of_live (s : ScanResult × ℕ) (he : isLive c db e.1 = true) :
    scanCallback c records db opts s e =
      (s.1.add c records opts [e],
        if (decodeDocumentJSON c records e.2).isSome then s.2 + 1 else s.2) := by
  have hexpired : isDocumentExpired c db e.1 = .ok false := by
    unfold isLive at he
    split at he
    · assumption
    · cases he
  unfold scanCallback ScanResult.add bodyHash
  rw [hexpired]
  cases hdoc : decodeDocumentJSON c records e.2 <;>
    simp [hdoc]

theorem scanCallback_of_not_live (s : ScanResult × ℕ) (he : isLive c db e.1 = false) :
    scanCallback c records db opts s e = s := by
  unfold isLive at he
  unfold scanCallback
  cases hexpired : isDocumentExpired c db e.1 with
  | error err => rfl
  | ok b =>
    cases b with
    | true => rfl
    | false => rw [hexpired] at he; cases he

theorem ScanResult.add_cons (r : ScanResult) (e : Bytes × Stored) (l : List (Bytes × Stored)) :
    r.add c records opts (e :: l) = (r.add c records opts [e]).add c records opts l := by
  unfold ScanResult.add
  cases hdoc : decodeDocumentJSON c records e.2 <;> cases opts.includeDocuments <;> simp [hdoc]

theorem ScanResult.add_nil (r : ScanResult) : r.add c records opts [] = r := by
  unfold ScanResult.add
  cases opts.includeDocuments <;> rfl

theorem visitedEntries_of_reached (h : 0 < opts.limit ∧ opts.limit ≤ n)
    (l : List (Bytes × Stored)) :
    visitedEntries c records opts n l = [] := by
  have hzero : opts.limit.toNat - n = 0 := by omega
  unfold visitedEntries
  rw [if_pos h.1, hzero, takeCounted]

theorem visitedEntries_cons (h : ¬ (0 < opts.limit ∧ opts.limit ≤ n)) (e : Bytes × Stored)
    (l : List (Bytes × Stored)) :
    visitedEntries c records opts n (e :: l) =
      e :: visitedEntries c records opts
        (if (decodeDocumentJSON c records e.2).isSome then n + 1 else n) l := by
  unfold visitedEntries
  by_cases hlimit : 0 < opts.limit
  · have hlt : ¬ opts.limit ≤ n := fun hle => h ⟨hlimit, hle⟩
    obtain ⟨m, hm⟩ : ∃ m, opts.limit.toNat - n = m + 1 := ⟨opts.limit.toNat - n - 1, by omega⟩
    rw [if_pos hlimit, if_pos hlimit, hm, takeCounted]
    congr 2
    split <;> omega
  · rw [if_neg hlimit, if_neg hlimit]

theorem scanLoop_eq (s : ScanResult × ℕ) (l : List (Bytes × Stored)) :
    scanLoop c records db opts s l =
      s.1.add c records opts
        (visitedEntries c records opts s.2 (l.filter fun e => isLive c db e.1)) := by
  induction l generalizing s with
  | nil =>
    have hnil : visitedEntries c records opts s.2 [] = [] := by
      unfold visitedEntries
      split
      · exact prefix_nil.mp (takeCounted_begins _ _)
      · rfl
    rw [scanLoop, filter_nil, hnil, ScanResult.add_nil]
  | cons e l ih =>
    rw [scanLoop]
    split
    · rename_i hreached
      rw [visitedEntries_of_reached hreached, ScanResult.add_nil]
    · rename_i hreached
      rw [ih]
      cases he : isLive c db e.1 with
      | false =>
        rw [scanCallback_of_not_live s he, filter_cons_of_neg (by rw [he]; decide)]
      | true =>
        rw [scanCallback_of_live s he, filter_cons, if_pos he,
          visitedEntries_cons hreached]
        exact (ScanResult.add_cons _ _ _).symm

theorem scan_eq :
    db.scan c records opts fromKey toKey =
      .listing c records opts
        (visitedEntries c records opts 0 (liveEntries c db opts fromKey toKey)) := by
  unfold DBImpl.scan
  rw [scanLoop_eq]
  unfold ScanResult.add ScanResult.listing OrdMap.ofList liveEntries
  cases opts.includeDocuments <;> rfl

variable (c records) in
theorem nodup_decoded (hl : (l.map Prod.fst).Nodup) :
    ((l.filterMap fun e => (decodeDocumentJSON c records e.2).map fun doc =>
      (e.1, doc)).map Prod.fst).Nodup := by
  rw [List.Nodup, pairwise_map] at hl ⊢
  rw [pairwise_filterMap]
  refine hl.imp ?_
  rintro ⟨k, v⟩ ⟨k', v'⟩ hne e he e' he'
  obtain ⟨doc, -, rfl⟩ := Option.map_eq_some_iff.mp he
  obtain ⟨doc', -, rfl⟩ := Option.map_eq_some_iff.mp he'
  exact hne

theorem listing_congr (hl : (l.map Prod.fst).Nodup) (hl' : (l'.map Prod.fst).Nodup)
    (h : ∀ e, e ∈ l ↔ e ∈ l') :
    ScanResult.listing c records opts l = .listing c records opts l' := by
  have hids : ∀ l : List (Bytes × Stored),
      (l.map fun e => (e.1, bodyHash c records e.2)).map Prod.fst = l.map Prod.fst := by
    intro l
    rw [map_map]
    rfl
  have hhashes : OrdMap.ofList (l.map fun e => (e.1, bodyHash c records e.2)) =
      OrdMap.ofList (l'.map fun e => (e.1, bodyHash c records e.2)) := by
    apply OrdMap.ofList_congr
    · rwa [hids]
    · rwa [hids]
    · intro e
      simp only [mem_map, h]
  unfold ScanResult.listing
  rw [hhashes,
    OrdMap.ofList_congr (nodup_decoded c records hl) (nodup_decoded c records hl')
      (fun e => by simp only [mem_filterMap, h])]

theorem mem_of_listing_eq (hl : (l.map Prod.fst).Nodup) (hl' : (l'.map Prod.fst).Nodup)
    (h : ScanResult.listing c records opts l = .listing c records opts l')
    (hk : k ∈ l.map Prod.fst) :
    k ∈ l'.map Prod.fst := by
  have hids : ∀ l : List (Bytes × Stored),
      (l.map fun e => (e.1, bodyHash c records e.2)).map Prod.fst = l.map Prod.fst := by
    intro l
    rw [map_map]
    rfl
  have hhashes : OrdMap.ofList (l.map fun e => (e.1, bodyHash c records e.2)) =
      OrdMap.ofList (l'.map fun e => (e.1, bodyHash c records e.2)) :=
    congrArg ScanResult.hashes h
  obtain ⟨⟨k, v⟩, he, rfl⟩ := mem_map.mp hk
  have hget : (OrdMap.ofList (l.map fun e => (e.1, bodyHash c records e.2))).get? k =
      some (bodyHash c records v) :=
    (OrdMap.get?_ofList (by rwa [hids]) _ _).mpr (mem_map_of_mem he)
  rw [hhashes, OrdMap.get?_ofList (by rwa [hids])] at hget
  obtain ⟨e', he', heq⟩ := mem_map.mp hget
  exact mem_map.mpr ⟨e', he', (Prod.mk.inj heq).1⟩

variable (opts fromKey) in
theorem not_misplacedFrom_iff (k : Bytes) :
    (scanLowerBound opts fromKey ≤ keyRangeStart k ↔ isAfterFrom opts fromKey k = true) ↔
      ¬ MisplacedFrom opts fromKey k := by
  rw [← not_iff_not (a := scanLowerBound opts fromKey ≤ keyRangeStart k), not_le]
  unfold scanLowerBound isAfterFrom MisplacedFrom
  cases opts.inclusiveFrom with
  | true => simpa using keyRangeStart_lt_iff fromKey k
  | false => simpa using keyRangeStart_lt_end_iff fromKey k

variable (opts toKey) in
theorem not_misplacedTo_iff (k : Bytes) :
    (keyRangeStart k < scanUpperBound opts toKey ↔ isUpTo opts toKey k = true) ↔
      ¬ MisplacedTo opts toKey k := by
  unfold scanUpperBound isUpTo MisplacedTo
  cases opts.exclusiveTo with
  | true => simpa using keyRangeStart_lt_iff toKey k
  | false => simpa using keyRangeStart_lt_end_iff toKey k

theorem mem_documentsBetween :
    (k, v) ∈ documentsBetween c db opts fromKey toKey ↔
      (db.get? (keyRangeStart k) = some v ∧ ∃ json, v = .zstd json) ∧
        isAfterFrom opts fromKey k = true ∧ isUpTo opts toKey k = true ∧
          isExpired c db k = false := by
  unfold documentsBetween
  rw [mem_filter, OrdMap.mem_entries_iff, get?_documents]
  simp only [Bool.and_eq_true, Bool.not_eq_true', and_assoc]

theorem wantedDocuments_sublist :
    List.Sublist (wantedDocuments c db opts fromKey toKey)
      (documentsBetween c db opts fromKey toKey) := by
  unfold wantedDocuments
  dsimp only
  split
  · exact take_sublist _ _
  · exact List.Sublist.refl _

theorem nodup_documentsBetween :
    ((documentsBetween c db opts fromKey toKey).map Prod.fst).Nodup := by
  unfold documentsBetween
  rw [List.Nodup, pairwise_map]
  refine ((documents db).sorted.filter _).imp ?_
  intro a b hlt heq
  rw [heq] at hlt
  exact lt_irrefl _ hlt

theorem nodup_wantedDocuments :
    ((wantedDocuments c db opts fromKey toKey).map Prod.fst).Nodup :=
  nodup_documentsBetween.sublist (wantedDocuments_sublist.map _)

theorem length_wantedDocuments_le (h : 0 < opts.limit) :
    (wantedDocuments c db opts fromKey toKey).length ≤ opts.limit.toNat := by
  unfold wantedDocuments
  dsimp only
  rw [if_pos h]
  exact length_take_le _ _

variable (c records opts) in
theorem visitedEntries_prefix (n : ℕ) (l : List (Bytes × Stored)) :
    visitedEntries c records opts n l <+: l := by
  unfold visitedEntries
  split
  · exact takeCounted_begins _ _
  · exact prefix_rfl

theorem mem_visited_iff_of_ids {visited : List (Bytes × Stored)}
    (hpre : visited <+: liveEntries c db opts fromKey toKey)
    (hids : ∀ k, k ∈ visited.map Prod.fst ↔
      k ∈ (wantedDocuments c db opts fromKey toKey).map Prod.fst) (e : Bytes × Stored) :
    e ∈ visited ↔ e ∈ wantedDocuments c db opts fromKey toKey := by
  have hlisted : ∀ e ∈ visited, db.get? (keyRangeStart e.1) = some e.2 := fun e he =>
    (mem_liveEntries.mp (hpre.subset he)).stored
  have hwanted : ∀ e ∈ wantedDocuments c db opts fromKey toKey,
      db.get? (keyRangeStart e.1) = some e.2 := fun e he =>
    (mem_documentsBetween.mp (wantedDocuments_sublist.subset he)).1.1
  constructor
  · intro he
    obtain ⟨e', he', heq⟩ := mem_map.mp ((hids e.1).mp (mem_map_of_mem he))
    have hvalue := (hlisted e he).symm.trans (heq ▸ hwanted e' he')
    have hsame : e = e' := Prod.ext heq.symm (Option.some.inj hvalue)
    rwa [hsame]
  · intro he
    obtain ⟨e', he', heq⟩ := mem_map.mp ((hids e.1).mpr (mem_map_of_mem he))
    have hvalue := (hwanted e he).symm.trans (heq ▸ hlisted e' he')
    have hsame : e = e' := Prod.ext heq.symm (Option.some.inj hvalue)
    rwa [hsame]

theorem scanExact_iff_visited :
    ScanExact c records db opts fromKey toKey ↔
      ∀ e, e ∈ visitedEntries c records opts 0 (liveEntries c db opts fromKey toKey) ↔
        e ∈ wantedDocuments c db opts fromKey toKey := by
  have hpre := visitedEntries_prefix c records opts 0 (liveEntries c db opts fromKey toKey)
  have hnodup : ((visitedEntries c records opts 0
      (liveEntries c db opts fromKey toKey)).map Prod.fst).Nodup :=
    (nodup_of_sorted liveEntries_sorted).sublist (hpre.sublist.map _)
  unfold ScanExact
  rw [scan_eq]
  constructor
  · intro h
    refine mem_visited_iff_of_ids hpre fun k => ?_
    exact ⟨mem_of_listing_eq hnodup nodup_wantedDocuments h,
      mem_of_listing_eq nodup_wantedDocuments hnodup h.symm⟩
  · exact listing_congr hnodup nodup_wantedDocuments

/-- A wanted document is visited at all when the bounds of the scan place it right and its records
can be read. -/
theorem listed_of_wanted (he : e ∈ wantedDocuments c db opts fromKey toKey) :
    e ∈ liveEntries c db opts fromKey toKey ↔
      (¬ MisplacedFrom opts fromKey e.1 ∧ ¬ MisplacedTo opts toKey e.1) ∧
        ¬ metadataPrefix <+: keyRangeStart e.1 ∧ isLive c db e.1 = true := by
  obtain ⟨⟨hget, -⟩, hfrom, hto, -⟩ :=
    mem_documentsBetween.mp (wantedDocuments_sublist.subset he)
  have hlower := not_misplacedFrom_iff opts fromKey e.1
  have hupper := not_misplacedTo_iff opts toKey e.1
  rw [iff_true_right hfrom] at hlower
  rw [iff_true_right hto] at hupper
  rw [mem_liveEntries, ← hlower, ← hupper]
  constructor
  · intro h
    exact ⟨⟨h.lower, h.upper⟩, h.notMetadata, h.live⟩
  · rintro ⟨⟨hlo, hhi⟩, hmeta, hlive⟩
    exact ⟨hget, hlo, hhi, hmeta, hlive⟩

theorem eq_filter_append {q : Bytes × Stored → Bool}
    (hsorted : l.Pairwise fun a b => keyRangeStart a.1 < keyRangeStart b.1)
    (hlater : ∀ a ∈ l, ∀ b ∈ l, q a = true → q b = false → keyRangeStart a.1 < keyRangeStart b.1) :
    l = l.filter q ++ l.filter fun e => !q e := by
  let below := fun a b : Bytes × Stored => keyRangeStart a.1 < keyRangeStart b.1
  have hasymm : ∀ a b, a ∈ l → b ∈ l.filter q ++ l.filter (fun e => !q e) →
      below a b → below b a → a = b := by
    intro a b _ _ hab hba
    exact absurd hab hba.not_gt
  apply List.Perm.eq_of_pairwise hasymm hsorted _ (filter_append_perm q l).symm
  · refine pairwise_append.mpr ⟨hsorted.filter _, hsorted.filter _, ?_⟩
    intro a ha b hb
    obtain ⟨ha, hqa⟩ := mem_filter.mp ha
    obtain ⟨hb, hqb⟩ := mem_filter.mp hb
    exact hlater a ha b hb hqa (by simpa using hqb)

theorem scanCondition_of_visited
    (h : ∀ e, e ∈ visitedEntries c records opts 0 (liveEntries c db opts fromKey toKey) ↔
      e ∈ wantedDocuments c db opts fromKey toKey) :
    ScanCondition c records db opts fromKey toKey := by
  have hpre := visitedEntries_prefix c records opts 0 (liveEntries c db opts fromKey toKey)
  have hlisted : ∀ e ∈ wantedDocuments c db opts fromKey toKey,
      e ∈ liveEntries c db opts fromKey toKey := fun e he => hpre.subset ((h e).mpr he)
  constructor
  · intro e he
    exact ((listed_of_wanted he).mp (hlisted e he)).1
  · intro e he
    exact ((listed_of_wanted he).mp (hlisted e he)).2
  · intro k v hk hnot e he
    obtain ⟨rest, hrest⟩ := hpre
    have hmem : (k, v) ∈ liveEntries c db opts fromKey toKey := mem_liveEntries.mpr hk
    have hsorted : (liveEntries c db opts fromKey toKey).Pairwise fun a b =>
        keyRangeStart a.1 < keyRangeStart b.1 := liveEntries_sorted
    rw [← hrest] at hmem hsorted
    have hlast := (mem_append.mp hmem).resolve_left fun hv => hnot ((h _).mp hv)
    exact (pairwise_append.mp hsorted).2.2 e ((h e).mpr he) _ hlast
  · have hperm : (visitedEntries c records opts 0 (liveEntries c db opts fromKey toKey)).Perm
        (wantedDocuments c db opts fromKey toKey) := by
      refine (perm_ext_iff_of_nodup ?_
        (List.Nodup.of_map Prod.fst nodup_wantedDocuments)).mpr h
      exact (List.Nodup.of_map Prod.fst (nodup_of_sorted liveEntries_sorted)).sublist hpre.sublist
    have hall : visitedEntries c records opts 0 (liveEntries c db opts fromKey toKey) =
        liveEntries c db opts fromKey toKey →
        ∀ k v, Listed c db opts fromKey toKey k v →
          (k, v) ∈ wantedDocuments c db opts fromKey toKey := by
      intro hvisited k v hk
      rw [← h, hvisited]
      exact mem_liveEntries.mpr hk
    by_cases hlimit : 0 < opts.limit
    · rw [← hperm.countP_eq]
      unfold visitedEntries at hall ⊢
      rw [if_pos hlimit] at hall ⊢
      exact (takeCounted_eq_or _ _).imp hall fun hcount => ⟨hlimit, hcount⟩
    · refine .inl (hall ?_)
      unfold visitedEntries
      rw [if_neg hlimit]

theorem visited_of_scanCondition (h : ScanCondition c records db opts fromKey toKey)
    (e : Bytes × Stored) :
    e ∈ visitedEntries c records opts 0 (liveEntries c db opts fromKey toKey) ↔
      e ∈ wantedDocuments c db opts fromKey toKey := by
  set wanted := wantedDocuments c db opts fromKey toKey with hwanted
  set live := liveEntries c db opts fromKey toKey with hlive
  have hlisted : ∀ e ∈ wanted, e ∈ live := fun e he =>
    (listed_of_wanted he).mpr ⟨h.placed e he, h.readable e he⟩
  have hmem : ∀ e, e ∈ live.filter (fun e => decide (e ∈ wanted)) ↔ e ∈ wanted := by
    intro e
    rw [mem_filter, decide_eq_true_eq]
    exact ⟨fun he => he.2, fun he => ⟨hlisted e he, he⟩⟩
  have hperm : (live.filter fun e => decide (e ∈ wanted)).Perm wanted := by
    refine (perm_ext_iff_of_nodup ?_
      (List.Nodup.of_map Prod.fst nodup_wantedDocuments)).mpr hmem
    exact (List.Nodup.of_map Prod.fst (nodup_of_sorted liveEntries_sorted)).filter _
  have hsplit := eq_filter_append (l := live) (q := fun e => decide (e ∈ wanted))
    liveEntries_sorted
    (by
      intro a ha b hb hqa hqb
      exact h.others_later b.1 b.2 (mem_liveEntries.mp hb) (of_decide_eq_false hqb) a
        (of_decide_eq_true hqa))
  rw [← hmem e]
  rcases h.cut with hall | ⟨hlimit, hcount⟩
  · -- Everything listed is wanted, and that is no more than the limit.
    have hlive' : live.filter (fun e => decide (e ∈ wanted)) = live :=
      filter_eq_self.mpr fun e he => decide_eq_true (hall e.1 e.2 (mem_liveEntries.mp he))
    rw [hlive'] at hperm ⊢
    unfold visitedEntries
    split
    · rename_i hlimit
      rw [takeCounted_of_length_le]
      rw [hperm.length_eq]
      exact length_wantedDocuments_le hlimit
    · rfl
  · -- The wanted documents are decodable and fill the limit, and they come first.
    have hlength : wanted.length = opts.limit.toNat :=
      le_antisymm (length_wantedDocuments_le hlimit) (hcount ▸ countP_le_length)
    have hdecodable : ∀ e ∈ live.filter (fun e => decide (e ∈ wanted)),
        (decodeDocumentJSON c records e.2).isSome = true := by
      intro e he
      exact countP_eq_length.mp (hcount.trans hlength.symm) e ((hmem e).mp he)
    have htake := @takeCounted_append _ _ _ (live.filter fun e => !decide (e ∈ wanted)) hdecodable
    rw [← hsplit, hperm.length_eq, hlength] at htake
    unfold visitedEntries
    rw [if_pos hlimit, Nat.sub_zero, htake]

/-- A scan is exact exactly under the condition. -/
theorem scanExact_iff :
    ScanExact c records db opts fromKey toKey ↔ ScanCondition c records db opts fromKey toKey :=
  scanExact_iff_visited.trans ⟨scanCondition_of_visited, visited_of_scanCondition⟩

end Exact

/-- A shard with the one document `a-1`. -/
def shardWithContinuation : DBImpl :=
  { DBImpl.empty with
    pdb := .ofList [(keyRangeStart (ascii ['a', '-', '1']), .zstd (ascii ['\x7b', '\x7d']))] }

def defaultScan : ScanOptions where
  inclusiveFrom := false
  exclusiveTo := false
  includeDocuments := false
  limit := 0

/-- The document `a-1` comes after `a`, but its body key comes before the end of the keys of `a`. -/
theorem scan_skips_continuation :
    validateDocumentMutationKey (ascii ['a', '-', '1']) = none ∧
      ¬ ScanExact Codec.emptyObject (fun _ => none) shardWithContinuation defaultScan
        (ascii ['a']) (ascii ['b']) := by
  refine ⟨by decide, ?_⟩
  intro h
  have hwanted : (ascii ['a', '-', '1'], Stored.zstd (ascii ['\x7b', '\x7d'])) ∈
      wantedDocuments Codec.emptyObject shardWithContinuation defaultScan (ascii ['a'])
        (ascii ['b']) := by decide +kernel
  have hcondition := scanCondition_of_visited (scanExact_iff_visited.mp h)
  exact (hcondition.placed _ hwanted).1 (Or.inl ⟨45, ascii ['1'], by decide, Or.inl rfl⟩)

end Antfly
