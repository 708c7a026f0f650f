import Antfly.Store.ScanExact
import Mathlib.Data.List.Sort

/-!
`ScanKeys` asks the shards of a table one after the other, in the order of their ranges, for the
documents between two ids, and streams the keys each of them returns until the limit is reached.
The bounds of the request are replaced by those of the shard where they are omitted and cut to them
where they lie outside; the flags for the inclusion of the bounds are passed on as they are.
-/

namespace Antfly.TableScan

open CountedPrefix List OrdMap

/-- `ScanKeysRequest` without a filter; an omitted bound is empty. -/
structure ScanKeysRequest where
  reqFrom : Bytes
  reqTo : Bytes
  inclusiveFrom : Bool
  exclusiveTo : Bool
  limit : Int
  fields : List Bytes

namespace ScanKeysRequest

variable (req : ScanKeysRequest)

/-- The bounds of the scan of a shard. -/
def fromKey (r : Range) : Bytes :=
  let fromKey := if req.reqFrom = [] then r.start else req.reqFrom
  if fromKey < r.start then r.start else fromKey

def toKey (r : Range) : Bytes :=
  let toKey := if req.reqTo = [] then r.stop else req.reqTo
  if r.stop < toKey then r.stop else toKey

/-- The shard is taken to have nothing between the bounds. -/
def skips (r : Range) : Bool :=
  (req.reqTo ≠ [] && req.reqTo ≤ r.start) || (req.reqFrom ≠ [] && r.stop ≤ req.reqFrom)

/-- The options of the scan of a shard; `count` results have been streamed before. -/
def options (count : ℕ) : ScanOptions where
  inclusiveFrom := req.inclusiveFrom
  exclusiveTo := req.exclusiveTo
  includeDocuments := req.fields ≠ []
  limit := if 0 < req.limit then req.limit - count else 0

/-- What is left of the limit. -/
def remaining (count : ℕ) : Option ℕ :=
  if 0 < req.limit then some (req.limit - count).toNat else none

/-- The limit has been reached. -/
def done (count : ℕ) : Prop := 0 < req.limit ∧ req.limit ≤ count

instance (count : ℕ) : Decidable (req.done count) := inferInstanceAs (Decidable (_ ∧ _))

end ScanKeysRequest

/-- A shard with its id, its range and what it stores. -/
structure Shard where
  id : ℕ
  range : Range
  db : DBImpl

section

variable (c : Codec) (records : Stored → Option Obj) (req : ScanKeysRequest)

/-- The sorted keys of the result of a shard. -/
def shardKeys (s : Shard) (count : ℕ) : List Bytes :=
  let scanResult :=
    s.db.scan c records (req.options count) (req.fromKey s.range) (req.toKey s.range)
  scanResult.hashes.entries.map Prod.fst

def streamShard (s : Shard) (count : ℕ) : List Bytes :=
  if req.skips s.range then [] else upTo (req.remaining count) (shardKeys c records req s count)

/-- The loop of `ScanKeys` over the shards, in the order of their ranges. -/
def scanKeys (count : ℕ) : List Shard → List Bytes
  | [] => []
  | s :: rest =>
    if req.done count then []
    else streamShard c records req s count ++
      scanKeys (count + (streamShard c records req s count).length) rest

end

/-- The id lies between the bounds that the request gives. -/
def ScanKeysRequest.wants (req : ScanKeysRequest) (k : Bytes) : Bool :=
  (req.reqFrom = [] || isAfterFrom (req.options 0) req.reqFrom k) &&
    (req.reqTo = [] || isUpTo (req.options 0) req.reqTo k)

/-- The ids of the unexpired documents of a shard that the request asks for, in their order. -/
def wantedIn (c : Codec) (req : ScanKeysRequest) (db : DBImpl) : List Bytes :=
  ((documents db).entries.filter fun e => req.wants e.1 && !isExpired c db e.1).map Prod.fst

/-- The keys streamed are the ids of all documents that the request asks for, each once and in
their order, or the first of them up to the limit. -/
def TableScanExact (c : Codec) (records : Stored → Option Obj) (req : ScanKeysRequest)
    (shards : List Shard) : Prop :=
  ∀ l : List Bytes, l.Pairwise (· < ·) →
    (∀ k, k ∈ l ↔ ∃ s ∈ shards, k ∈ wantedIn c req s.db) →
      scanKeys c records req 0 shards = upTo (req.remaining 0) l

def Shard.holds (s : Shard) (k : Bytes) : Bool := s.range.contains (keyRangeStart k)

/-- The documents that are to be streamed. -/
def expected (c : Codec) (req : ScanKeysRequest) (shards : List Shard) : List Bytes :=
  upTo (req.remaining 0) ((shards.flatMap fun s => wantedIn c req s.db).insertionSort (· ≤ ·))

/-- Those of them that a shard holds. -/
def expectedOf (c : Codec) (req : ScanKeysRequest) (shards : List Shard) (s : Shard) :
    List Bytes :=
  (expected c req shards).filter s.holds

/-- The bounds of the scan of a shard place an id of the shard right that the request asks for: its
body key does not change sides at a bound of the request, and lies between the keys that bounds of
the shard turn into where they take the place of the request's. -/
structure Placed (req : ScanKeysRequest) (r : Range) (k : Bytes) : Prop where
  lower : req.fromKey r = req.reqFrom → req.reqFrom ≠ [] →
    ¬ MisplacedFrom (req.options 0) req.reqFrom k
  start : (req.fromKey r ≠ req.reqFrom ∨ req.reqFrom = []) →
    scanLowerBound (req.options 0) r.start ≤ keyRangeStart k
  upper : req.toKey r = req.reqTo → req.reqTo ≠ [] → ¬ MisplacedTo (req.options 0) req.reqTo k
  stop : (req.toKey r ≠ req.reqTo ∨ req.reqTo = []) →
    keyRangeStart k < scanUpperBound (req.options 0) r.stop

/-- How many of the readable documents between the bounds have their body key before that of an
id. -/
def countBefore (c : Codec) (records : Stored → Option Obj) (req : ScanKeysRequest) (s : Shard)
    (n : ℕ) (k : Bytes) : ℕ :=
  ((liveEntries c s.db (req.options n) (req.fromKey s.range) (req.toKey s.range)).filter fun e =>
    keyRangeStart e.1 < keyRangeStart k).countP fun e => (decodeDocumentJSON c records e.2).isSome

/-- The condition under which a shard adds the documents `wanted` of it, after `n` documents of the
shards before it. -/
structure ShardCondition (c : Codec) (records : Stored → Option Obj) (req : ScanKeysRequest)
    (s : Shard) (n : ℕ) (wanted : List Bytes) : Prop where
  visited : wanted ≠ [] → req.skips s.range = false
  placed : ∀ k ∈ wanted, Placed req s.range k
  readable : ∀ k ∈ wanted, ¬ metadataPrefix <+: keyRangeStart k ∧ isLive c s.db k = true
  early : ∀ k ∈ wanted, ∀ m, req.remaining n = some m → countBefore c records req s n k < m
  others_later : req.skips s.range = false → ∀ k v,
    Listed c s.db (req.options n) (req.fromKey s.range) (req.toKey s.range) k v →
    (∀ m, req.remaining n = some m → countBefore c records req s n k < m) → k ∉ wanted →
      req.remaining n = some wanted.length ∧ ∀ y ∈ wanted, y < k

section Shard

variable {c : Codec} {records : Stored → Option Obj} {req : ScanKeysRequest} {s : Shard} {n : ℕ}

theorem wantedIn_sorted (db : DBImpl) : (wantedIn c req db).Pairwise (· < ·) := by
  rw [wantedIn, pairwise_map]
  exact (documents db).sorted.filter _

variable {k : Bytes} {r : Range}

theorem mem_wantedIn {db : DBImpl} :
    k ∈ wantedIn c req db ↔ (∃ v, db.get? (keyRangeStart k) = some v ∧ ∃ json, v = .zstd json) ∧
      req.wants k = true ∧ isExpired c db k = false := by
  rw [wantedIn, mem_map]
  constructor
  · rintro ⟨⟨k', v⟩, he, rfl⟩
    obtain ⟨hmem, hwants⟩ := mem_filter.mp he
    rw [Bool.and_eq_true, Bool.not_eq_true'] at hwants
    exact ⟨⟨v, get?_documents.mp ((mem_entries_iff _ _ _).mp hmem)⟩, hwants⟩
  · rintro ⟨⟨v, hv⟩, hwants⟩
    refine ⟨(k, v), mem_filter.mpr ⟨?_, by simp [hwants]⟩, rfl⟩
    exact (mem_entries_iff _ _ _).mpr (get?_documents.mpr hv)

theorem shardKeys_sorted : (shardKeys c records req s n).Pairwise (· < ·) := by
  rw [shardKeys, pairwise_map]
  exact OrdMap.sorted _

theorem options_limit (h : ¬ req.done n) :
    0 < (req.options n).limit ↔ 0 < req.limit := by
  unfold ScanKeysRequest.done at h
  simp only [ScanKeysRequest.options]
  split <;> omega

theorem mem_shardKeys (h : ¬ req.done n) :
    k ∈ shardKeys c records req s n ↔
      (∃ v, Listed c s.db (req.options n) (req.fromKey s.range) (req.toKey s.range) k v) ∧
        ∀ m, req.remaining n = some m → countBefore c records req s n k < m := by
  set live := liveEntries c s.db (req.options n) (req.fromKey s.range) (req.toKey s.range)
    with hlive
  have hsorted : live.Pairwise fun a b => keyRangeStart a.1 < keyRangeStart b.1 :=
    liveEntries_sorted
  have hvisited : ∀ v, (k, v) ∈ visitedEntries c records (req.options n) 0 live ↔
      (k, v) ∈ live ∧ ∀ m, req.remaining n = some m → countBefore c records req s n k < m := by
    intro v
    unfold visitedEntries
    by_cases hlimit : 0 < req.limit
    · rw [if_pos ((options_limit h).mpr hlimit), mem_takeCounted_iff hsorted]
      refine and_congr_right fun _ => ?_
      have hremaining : req.remaining n = some ((req.options n).limit.toNat - 0) := by
        simp only [ScanKeysRequest.remaining, ScanKeysRequest.options, if_pos hlimit, Nat.sub_zero]
      rw [hremaining]
      simp only [Option.some.injEq, forall_eq', countBefore, ← hlive]
      exact iff_of_eq (by congr!)
    · rw [if_neg (mt (options_limit h).mp hlimit)]
      have hremaining : req.remaining n = none := if_neg hlimit
      simp [hremaining]
  have hnodup : (((visitedEntries c records (req.options n) 0 live).map fun e =>
      (e.1, bodyHash c records e.2)).map Prod.fst).Nodup := by
    rw [map_map]
    have hinitial := visitedEntries_prefix c records (req.options n) 0 live
    exact (nodup_of_sorted hsorted).sublist (hinitial.sublist.map _)
  have hkeys : k ∈ shardKeys c records req s n ↔
      ∃ v, (k, v) ∈ visitedEntries c records (req.options n) 0 live := by
    rw [shardKeys, scan_eq, mem_keys_iff, Option.ne_none_iff_exists']
    simp only [ScanResult.listing, ← hlive]
    constructor
    · rintro ⟨hash, hget⟩
      obtain ⟨⟨k', v⟩, he, heq⟩ := mem_map.mp ((get?_ofList hnodup k hash).mp hget)
      obtain ⟨rfl, -⟩ := Prod.mk.inj heq
      exact ⟨v, he⟩
    · rintro ⟨v, hv⟩
      exact ⟨_, (get?_ofList hnodup k _).mpr (mem_map_of_mem hv)⟩
  rw [hkeys]
  simp only [hvisited, exists_and_right]
  rw [hlive]
  simp only [mem_liveEntries]

theorem fromKey_cases (req : ScanKeysRequest) (r : Range) :
    req.fromKey r = req.reqFrom ∧ req.reqFrom ≠ [] ∨
    req.fromKey r = r.start ∧ (req.fromKey r ≠ req.reqFrom ∨ req.reqFrom = []) := by
  unfold ScanKeysRequest.fromKey
  by_cases hreq : req.reqFrom = []
  · simp [hreq]
  · by_cases hlt : req.reqFrom < r.start
    · simp [hreq, hlt, hlt.ne']
    · simp [hreq, hlt]

theorem toKey_cases (req : ScanKeysRequest) (r : Range) :
    req.toKey r = req.reqTo ∧ req.reqTo ≠ [] ∨
    req.toKey r = r.stop ∧ (req.toKey r ≠ req.reqTo ∨ req.reqTo = []) := by
  unfold ScanKeysRequest.toKey
  by_cases hreq : req.reqTo = []
  · simp [hreq]
  · by_cases hlt : r.stop < req.reqTo
    · simp [hreq, hlt, hlt.ne]
    · simp [hreq, hlt]

/-- The bounds of the scan of a shard place an id that the request asks for right, exactly under the
conditions on the id. -/
theorem placed_iff (hwants : req.wants k = true) :
    Placed req r k ↔ scanLowerBound (req.options n) (req.fromKey r) ≤ keyRangeStart k ∧
      keyRangeStart k < scanUpperBound (req.options n) (req.toKey r) := by
  rw [ScanKeysRequest.wants, Bool.and_eq_true, Bool.or_eq_true, Bool.or_eq_true,
    decide_eq_true_iff, decide_eq_true_iff] at hwants
  obtain ⟨hfrom, hto⟩ := hwants
  change _ ↔ scanLowerBound (req.options 0) (req.fromKey r) ≤ keyRangeStart k ∧
    keyRangeStart k < scanUpperBound (req.options 0) (req.toKey r)
  have hlower : scanLowerBound (req.options 0) (req.fromKey r) ≤ keyRangeStart k ↔
      (req.fromKey r = req.reqFrom → req.reqFrom ≠ [] →
        ¬ MisplacedFrom (req.options 0) req.reqFrom k) ∧
      ((req.fromKey r ≠ req.reqFrom ∨ req.reqFrom = []) →
        scanLowerBound (req.options 0) r.start ≤ keyRangeStart k) := by
    rcases fromKey_cases req r with ⟨heq, hne⟩ | ⟨heq, hshard⟩
    · have hplaced := not_misplacedFrom_iff (req.options 0) req.reqFrom k
      rw [iff_true_right (hfrom.resolve_left hne)] at hplaced
      rw [heq, hplaced]
      simp [hne]
    · rw [← heq]
      exact ⟨fun h => ⟨fun hreq hne => absurd hshard (by simp [hreq, hne]), fun _ => h⟩,
        fun h => h.2 hshard⟩
  have hupper : keyRangeStart k < scanUpperBound (req.options 0) (req.toKey r) ↔
      (req.toKey r = req.reqTo → req.reqTo ≠ [] →
        ¬ MisplacedTo (req.options 0) req.reqTo k) ∧
      ((req.toKey r ≠ req.reqTo ∨ req.reqTo = []) →
        keyRangeStart k < scanUpperBound (req.options 0) r.stop) := by
    rcases toKey_cases req r with ⟨heq, hne⟩ | ⟨heq, hshard⟩
    · have hplaced := not_misplacedTo_iff (req.options 0) req.reqTo k
      rw [iff_true_right (hto.resolve_left hne)] at hplaced
      rw [heq, hplaced]
      simp [hne]
    · rw [← heq]
      exact ⟨fun h => ⟨fun hreq hne => absurd hshard (by simp [hreq, hne]), fun _ => h⟩,
        fun h => h.2 hshard⟩
  rw [hlower, hupper]
  exact ⟨fun h => ⟨⟨h.lower, h.start⟩, h.upper, h.stop⟩,
    fun h => ⟨h.1.1, h.1.2, h.2.1, h.2.2⟩⟩

/-- A shard adds some of its documents that the request asks for exactly under the condition. -/
theorem streamShard_iff {wanted : List Bytes} (h : ¬ req.done n)
    (hsorted : wanted.Pairwise (· < ·)) (hmem : ∀ k ∈ wanted, k ∈ wantedIn c req s.db)
    (hfits : upTo (req.remaining n) wanted = wanted) :
    streamShard c records req s n = wanted ↔ ShardCondition c records req s n wanted := by
  unfold streamShard
  by_cases hskips : req.skips s.range = true
  · rw [if_pos hskips]
    constructor
    · rintro rfl
      refine ⟨fun hne => absurd rfl hne, fun k hk => absurd hk not_mem_nil,
        fun k hk => absurd hk not_mem_nil, fun k hk => absurd hk not_mem_nil, fun hfalse => ?_⟩
      rw [hskips] at hfalse
      cases hfalse
    · intro hcondition
      by_contra hne
      have hfalse := hcondition.visited fun hnil => hne hnil.symm
      rw [hskips] at hfalse
      cases hfalse
  · have hskips' : req.skips s.range = false := Bool.eq_false_iff.mpr hskips
    have hlisted : ∀ k ∈ wanted,
        ((∃ v, Listed c s.db (req.options n) (req.fromKey s.range) (req.toKey s.range) k v) ↔
          Placed req s.range k ∧ ¬ metadataPrefix <+: keyRangeStart k ∧
            isLive c s.db k = true) := by
      intro k hk
      obtain ⟨⟨v, hv⟩, hwants, -⟩ := mem_wantedIn.mp (hmem k hk)
      rw [placed_iff hwants]
      exact ⟨fun ⟨_, hl⟩ => ⟨⟨hl.lower, hl.upper⟩, hl.notMetadata, hl.live⟩,
        fun hp => ⟨v, hv.1, hp.1.1, hp.1.2, hp.2.1, hp.2.2⟩⟩
    have hkeys : (shardKeys c records req s n).Pairwise (· < ·) := shardKeys_sorted
    have hprefix := upTo_eq_upTo_iff (n := req.remaining n) hkeys hsorted
    rw [hfits] at hprefix
    rw [if_neg hskips, hprefix]
    constructor
    · rintro ⟨hsub, hothers⟩
      have hkeys : ∀ k ∈ wanted, _ := fun k hk => (mem_shardKeys h).mp (hsub k hk)
      refine ⟨fun _ => hskips', fun k hk => ((hlisted k hk).mp (hkeys k hk).1).1,
        fun k hk => ((hlisted k hk).mp (hkeys k hk).1).2, fun k hk => (hkeys k hk).2, ?_⟩
      intro _ k v hl hcount hnot
      exact hothers k ((mem_shardKeys h).mpr ⟨⟨v, hl⟩, hcount⟩) hnot
    · intro hcondition
      refine ⟨fun k hk => (mem_shardKeys h).mpr ⟨(hlisted k hk).mpr
        ⟨hcondition.placed k hk, hcondition.readable k hk⟩, hcondition.early k hk⟩, ?_⟩
      intro k hk hnot
      obtain ⟨⟨v, hl⟩, hcount⟩ := (mem_shardKeys h).mp hk
      exact hcondition.others_later hskips' k v hl hcount hnot

end Shard

section Shards

variable {c : Codec} {records : Stored → Option Obj} {req : ScanKeysRequest}

variable {n m : ℕ} {s : Shard} {k : Bytes} {shards : List Shard}

theorem done_add (h : req.done n) : req.done (n + m) :=
  ⟨h.1, h.2.trans (by omega)⟩

theorem remaining_of_done (h : req.done n) : req.remaining n = some 0 := by
  obtain ⟨hlimit, hreached⟩ := h
  rw [ScanKeysRequest.remaining, if_pos hlimit]
  congr 1
  omega

theorem upTo_eq_self {n : Option ℕ} {l : List Bytes} (h : ∀ m, n = some m → l.length ≤ m) :
    upTo n l = l := by
  cases n with
  | none => rfl
  | some m => exact take_of_length_le (h m rfl)

/-- Two lists that go on behind the keys that a predicate covers are equal when they are equal
there and behind. -/
theorem append_eq_append_iff_of_filter {p : Bytes → Bool} {a b a' b' : List Bytes}
    (ha : ∀ k ∈ a, p k = true) (ha' : ∀ k ∈ a', p k = true)
    (hb : ∀ k ∈ b, p k = false) (hb' : ∀ k ∈ b', p k = false) :
    a ++ b = a' ++ b' ↔ a = a' ∧ b = b' := by
  constructor
  · intro h
    have hfilter := congrArg (List.filter p) h
    rw [filter_append, filter_append, filter_eq_self.mpr ha,
      filter_eq_self.mpr ha', filter_eq_nil_iff.mpr fun k hk => by simp [hb k hk],
      filter_eq_nil_iff.mpr fun k hk => by simp [hb' k hk], append_nil,
      append_nil] at hfilter
    exact ⟨hfilter, append_cancel_left (hfilter ▸ h)⟩
  · rintro ⟨rfl, rfl⟩
    rfl

/-- What a shard stores lies in its range. -/
structure Within (s : Shard) : Prop where
  documents : ∀ e ∈ (documents s.db).entries, s.holds e.1 = true
  listed : ∀ k v, s.db.get? (keyRangeStart k) = some v →
    ¬ metadataPrefix <+: keyRangeStart k → s.holds k = true

theorem Within.wanted (h : Within s) (hk : k ∈ wantedIn c req s.db) : s.holds k = true := by
  obtain ⟨⟨v, hv⟩, -⟩ := mem_wantedIn.mp hk
  exact h.documents (k, v) ((mem_entries_iff _ _ _).mpr (get?_documents.mpr hv))

theorem Within.streamed (h : Within s) (hn : ¬ req.done n)
    (hk : k ∈ streamShard c records req s n) :
    s.holds k = true := by
  unfold streamShard at hk
  split at hk
  · cases hk
  · have hmem : k ∈ shardKeys c records req s n := by
      unfold upTo at hk
      split at hk
      · exact mem_of_mem_take hk
      · exact hk
    obtain ⟨⟨v, hl⟩, -⟩ := (mem_shardKeys hn).mp hmem
    exact h.listed k v hl.stored hl.notMetadata

theorem exists_of_mem_scanKeys :
    ∀ {n : ℕ} {k : Bytes},
    (∀ s ∈ shards, Within s) → k ∈ scanKeys c records req n shards →
      ∃ s ∈ shards, s.holds k = true := by
  induction shards with
  | nil => intro n k _ hk; cases hk
  | cons s rest ih =>
    intro n k hwithin hk
    rw [scanKeys] at hk
    split at hk
    · cases hk
    · rename_i hn
      rcases mem_append.mp hk with hk | hk
      · exact ⟨s, mem_cons_self, (hwithin s mem_cons_self).streamed hn hk⟩
      · obtain ⟨s', hs', hholds⟩ :=
          ih (fun s' hs' => hwithin s' (mem_cons_of_mem _ hs')) hk
        exact ⟨s', mem_cons_of_mem _ hs', hholds⟩

/-- No document is held by two shards. -/
def Disjoint (shards : List Shard) : Prop :=
  shards.Pairwise fun s s' => ∀ k, s.holds k = true → s'.holds k = false

theorem not_holds_of_rest {rest : List Shard} (hdisjoint : Disjoint (s :: rest))
    (h : ∃ s' ∈ rest, s'.holds k = true) : s.holds k = false := by
  obtain ⟨s', hs', hk⟩ := h
  by_contra hholds
  rw [(pairwise_cons.mp hdisjoint).1 s' hs' k (Bool.eq_true_of_not_eq_false hholds)] at hk
  cases hk

variable (c records req) in
/-- What is streamed is streamed for one shard after the other. -/
theorem scanKeys_eq_flatMap :
    ∀ {n : ℕ}, (∀ s ∈ shards, Within s) → Disjoint shards →
      scanKeys c records req n shards =
        shards.flatMap fun s => (scanKeys c records req n shards).filter s.holds := by
  induction shards with
  | nil => intro n _ _; rfl
  | cons s rest ih =>
    intro n hwithin hdisjoint
    have hrest : ∀ s' ∈ rest, Within s' := fun s' hs' => hwithin s' (mem_cons_of_mem _ hs')
    rw [scanKeys]
    by_cases hn : req.done n
    · rw [if_pos hn]
      simp
    · rw [if_neg hn, flatMap_cons]
      have hhead : ∀ k ∈ streamShard c records req s n, s.holds k = true := fun k hk =>
        (hwithin s mem_cons_self).streamed hn hk
      have htail : ∀ k ∈ scanKeys c records req (n + (streamShard c records req s n).length) rest,
          ¬ s.holds k = true := fun k hk => by
        simp [not_holds_of_rest hdisjoint (exists_of_mem_scanKeys hrest hk)]
      rw [filter_append, filter_eq_self.mpr hhead, filter_eq_nil_iff.mpr htail, append_nil]
      congr 1
      refine (ih hrest (pairwise_cons.mp hdisjoint).2).trans ?_
      refine flatMap_congr fun s' hs' => ?_
      have hnone : (streamShard c records req s n).filter s'.holds = [] :=
        filter_eq_nil_iff.mpr fun k hk => by
          simp [(pairwise_cons.mp hdisjoint).1 s' hs' k (hhead k hk)]
      rw [filter_append, hnone, nil_append]

variable (c records req) in
/-- Each shard is to add some of its documents: a scan does so exactly when every shard that it
comes to adds its own. -/
theorem scanKeys_iff (wanted : Shard → List Bytes)
    (hwanted : ∀ s, ∀ k ∈ wanted s, s.holds k = true) :
    ∀ {n : ℕ}, (∀ s ∈ shards, Within s) → Disjoint shards →
    (∀ m, req.remaining n = some m → (shards.flatMap wanted).length ≤ m) →
    (scanKeys c records req n shards = shards.flatMap wanted ↔
      ∀ before s behind, shards = before ++ s :: behind →
        ¬ req.done (n + (before.flatMap wanted).length) →
          streamShard c records req s (n + (before.flatMap wanted).length) = wanted s) := by
  induction shards with
  | nil =>
    intro n _ _ _
    exact iff_of_true rfl fun before s behind h => by simp at h
  | cons s rest ih =>
    intro n hwithin hdisjoint hfits
    have hrest : ∀ s' ∈ rest, Within s' := fun s' hs' => hwithin s' (mem_cons_of_mem _ hs')
    rw [scanKeys]
    by_cases hn : req.done n
    · have hnone := length_eq_zero_iff.mp (Nat.le_zero.mp (hfits 0 (remaining_of_done hn)))
      rw [if_pos hn, hnone]
      exact iff_of_true rfl fun before s' behind _ hnot => absurd (done_add hn) hnot
    · have hbehind : ∀ k ∈ rest.flatMap wanted, s.holds k = false := by
        intro k hk
        obtain ⟨s', hs', hk'⟩ := mem_flatMap.mp hk
        exact not_holds_of_rest hdisjoint ⟨s', hs', hwanted s' k hk'⟩
      have hfits' : ∀ m, req.remaining (n + (wanted s).length) = some m →
          (rest.flatMap wanted).length ≤ m := by
        unfold ScanKeysRequest.remaining at hfits ⊢
        intro m hm
        split at hm
        · next hlimit =>
            have hle := hfits _ (if_pos hlimit)
            rw [flatMap_cons, length_append] at hle
            cases hm
            omega
        · cases hm
      rw [if_neg hn, flatMap_cons, append_eq_append_iff_of_filter
        (fun k hk => (hwithin s mem_cons_self).streamed hn hk) (hwanted s)
        (fun k hk => not_holds_of_rest hdisjoint (exists_of_mem_scanKeys hrest hk)) hbehind]
      have htail := ih hrest (pairwise_cons.mp hdisjoint).2 hfits'
      constructor
      · rintro ⟨hstream, heq⟩ before s' behind hsplit hnot
        cases before with
        | nil =>
          obtain ⟨rfl, -⟩ := List.cons.inj hsplit
          exact hstream
        | cons s₀ before =>
          obtain ⟨rfl, hrestSplit⟩ := List.cons.inj hsplit
          rw [hstream] at heq
          rw [flatMap_cons, length_append, ← Nat.add_assoc] at hnot ⊢
          exact htail.mp heq before s' behind hrestSplit hnot
      · intro hall
        have hstream : streamShard c records req s n = wanted s := hall [] s rest rfl hn
        refine ⟨hstream, ?_⟩
        rw [hstream]
        refine htail.mpr fun before s' behind hsplit hnot => ?_
        have hthere := hall (s :: before) s' behind (by rw [hsplit]; rfl)
        rw [flatMap_cons, length_append, ← Nat.add_assoc] at hthere
        exact hthere hnot

end Shards

/-- The shards of a table partition the key space, each stores only what lies in its range, and
they are taken in the order of their ranges. -/
structure Partitioned (shards : List Shard) (spaceEnd : Bytes) : Prop where
  partitions : Table.PartitionsKeySpace ⟨shards.map fun s => (s.id, s.range)⟩ spaceEnd
  sorted : shards.Pairwise fun s s' => s.range.start ≤ s'.range.start
  within : ∀ s ∈ shards, Within s

/-- The documents to be streamed of a shard come before those of the shards behind it. -/
def InOrder (c : Codec) (req : ScanKeysRequest) (shards : List Shard) : Prop :=
  shards.Pairwise fun s s' =>
    ∀ k ∈ expectedOf c req shards s, ∀ k' ∈ expectedOf c req shards s', k < k'

/-- The condition under which a scan of a table streams what it should. -/
structure ScanCondition (c : Codec) (records : Stored → Option Obj) (req : ScanKeysRequest)
    (shards : List Shard) : Prop where
  inOrder : InOrder c req shards
  reached : ∀ before s behind, shards = before ++ s :: behind →
    ¬ req.done (before.flatMap (expectedOf c req shards)).length →
      ShardCondition c records req s (before.flatMap (expectedOf c req shards)).length
        (expectedOf c req shards s)

section Tables

variable {c : Codec} {records : Stored → Option Obj} {req : ScanKeysRequest} {shards : List Shard}
  {spaceEnd : Bytes} {s : Shard} {k : Bytes}

theorem Partitioned.disjoint (h : Partitioned shards spaceEnd) : Disjoint shards := by
  have hids : shards.Pairwise fun s s' => s.id ≠ s'.id := by
    have hnodup := h.partitions.ids_nodup
    rwa [map_map, List.Nodup, pairwise_map] at hnodup
  refine hids.imp_of_mem fun {s s'} hs hs' hne k hk => ?_
  by_contra hk'
  have heq := h.partitions.disjoint (keyRangeStart k) (s.id, s.range) (mem_map.mpr ⟨s, hs, rfl⟩)
    (s'.id, s'.range) (mem_map.mpr ⟨s', hs', rfl⟩) hk (Bool.eq_true_of_not_eq_false hk')
  exact hne (Prod.mk.inj heq).1

/-- The wanted documents of the shards in the order of their ids, without repetition. -/
theorem Partitioned.wanted_sorted (h : Partitioned shards spaceEnd) :
    ((shards.flatMap fun s => wantedIn c req s.db).insertionSort (· ≤ ·)).Pairwise (· < ·) := by
  have hnodup : (shards.flatMap fun s => wantedIn c req s.db).Nodup := by
    rw [nodup_flatMap]
    refine ⟨fun s _ => (wantedIn_sorted s.db).imp fun hlt => hlt.ne, ?_⟩
    refine h.disjoint.imp_of_mem fun {s s'} hs hs' hdisjoint k hk hk' => ?_
    have hheld := (h.within s' hs').wanted hk'
    rw [hdisjoint k ((h.within s hs).wanted hk)] at hheld
    cases hheld
  have hperm := (perm_insertionSort (· ≤ ·) (shards.flatMap fun s => wantedIn c req s.db)).nodup_iff
  exact ((pairwise_insertionSort (· ≤ ·) _).and (hperm.mpr hnodup)).imp fun hle =>
    lt_of_le_of_ne hle.1 hle.2

theorem mem_wanted_of_expected (hk : k ∈ expected c req shards) :
    ∃ s ∈ shards, k ∈ wantedIn c req s.db := by
  unfold expected upTo at hk
  rw [← mem_flatMap, ← mem_insertionSort (· ≤ ·)]
  split at hk
  · exact mem_of_mem_take hk
  · exact hk

theorem Partitioned.expected_sorted (h : Partitioned shards spaceEnd) :
    (expected c req shards).Pairwise (· < ·) := by
  unfold expected upTo
  split
  · exact h.wanted_sorted.sublist (take_sublist _ _)
  · exact h.wanted_sorted

theorem Partitioned.mem_expectedOf (h : Partitioned shards spaceEnd) (hs : s ∈ shards)
    (hk : k ∈ expectedOf c req shards s) : k ∈ wantedIn c req s.db := by
  obtain ⟨hmem, hheld⟩ := mem_filter.mp hk
  obtain ⟨s', hs', hwanted⟩ := mem_wanted_of_expected hmem
  have heq := h.partitions.disjoint (keyRangeStart k) (s.id, s.range) (mem_map.mpr ⟨s, hs, rfl⟩)
    (s'.id, s'.range) (mem_map.mpr ⟨s', hs', rfl⟩) hheld ((h.within s' hs').wanted hwanted)
  have hids : (shards.map Shard.id).Nodup := by
    have hnodup := h.partitions.ids_nodup
    rwa [map_map] at hnodup
  exact inj_on_of_nodup_map hids hs hs' (Prod.mk.inj heq).1 ▸ hwanted

/-- The documents to be streamed, shard by shard. -/
theorem Partitioned.flatMap_expectedOf (h : Partitioned shards spaceEnd)
    (horder : InOrder c req shards) :
    shards.flatMap (expectedOf c req shards) = expected c req shards := by
  have hsorted : (shards.flatMap (expectedOf c req shards)).Pairwise (· < ·) := by
    rw [pairwise_flatMap]
    exact ⟨fun s _ => h.expected_sorted.filter _, horder⟩
  refine List.Perm.eq_of_pairwise (fun a b _ _ hab hba => absurd hba hab.not_gt) hsorted
    h.expected_sorted ?_
  refine (List.perm_ext_iff_of_nodup (hsorted.imp fun hlt => hlt.ne)
    (h.expected_sorted.imp fun hlt => hlt.ne)).mpr fun k => ?_
  rw [mem_flatMap]
  constructor
  · rintro ⟨s, -, hk⟩
    exact (mem_filter.mp hk).1
  · intro hk
    obtain ⟨s, hs, hwanted⟩ := mem_wanted_of_expected hk
    exact ⟨s, hs, mem_filter.mpr ⟨hk, (h.within s hs).wanted hwanted⟩⟩

/-- A scan of a table streams what it should exactly when the documents of the shards are in order
and every shard it comes to before the limit meets its condition. -/
theorem table_scan_exact_iff (h : Partitioned shards spaceEnd) :
    TableScanExact c records req shards ↔ ScanCondition c records req shards := by
  have hexpected : TableScanExact c records req shards ↔
      scanKeys c records req 0 shards = expected c req shards := by
    constructor
    · intro hexact
      refine hexact _ h.wanted_sorted fun k => ?_
      rw [List.mem_insertionSort, List.mem_flatMap]
    · intro heq l hl hmem
      rw [heq, expected]
      congr 1
      refine List.Perm.eq_of_pairwise (fun a b _ _ hab hba => absurd hba hab.not_gt)
        h.wanted_sorted hl ?_
      refine (List.perm_ext_iff_of_nodup (h.wanted_sorted.imp fun h => h.ne)
        (hl.imp fun h => h.ne)).mpr fun k => ?_
      rw [hmem, List.mem_insertionSort, List.mem_flatMap]
  have hgrouped : scanKeys c records req 0 shards = expected c req shards ↔
      InOrder c req shards ∧
        scanKeys c records req 0 shards = shards.flatMap (expectedOf c req shards) := by
    constructor
    · intro heq
      have hflat : expected c req shards = shards.flatMap (expectedOf c req shards) := by
        have hgroups := scanKeys_eq_flatMap c records req (n := 0) h.within h.disjoint
        rwa [heq] at hgroups
      have hsorted : (expected c req shards).Pairwise (· < ·) := h.expected_sorted
      rw [hflat, List.pairwise_flatMap] at hsorted
      exact ⟨hsorted.2, heq.trans hflat⟩
    · rintro ⟨horder, heq⟩
      exact heq.trans (h.flatMap_expectedOf horder)
  have hfields : ScanCondition c records req shards ↔ InOrder c req shards ∧
      ∀ before s behind, shards = before ++ s :: behind → _ :=
    ⟨fun h => ⟨h.inOrder, h.reached⟩, fun h => ⟨h.1, h.2⟩⟩
  rw [hexpected, hgrouped, hfields]
  refine and_congr_right fun horder => ?_
  have hfits : ∀ m, req.remaining 0 = some m →
      (shards.flatMap (expectedOf c req shards)).length ≤ m := by
    intro m hm
    rw [h.flatMap_expectedOf horder, expected, hm]
    exact List.length_take_le _ _
  have hscan := scanKeys_iff c records req (expectedOf c req shards) (n := 0)
    (fun s k hk => (List.mem_filter.mp hk).2) h.within h.disjoint hfits
  simp only [Nat.zero_add] at hscan
  rw [hscan]
  refine forall_congr' fun before => forall_congr' fun s => forall_congr' fun behind =>
    forall_congr' fun hsplit => forall_congr' fun hnot => ?_
  have hs : s ∈ shards := hsplit ▸ List.mem_append_right before List.mem_cons_self
  refine streamShard_iff hnot (h.expected_sorted.filter _) (fun k hk => h.mem_expectedOf hs hk) ?_
  refine upTo_eq_self fun m hm => ?_
  -- What is left of the limit holds the documents of this shard, since all of them fit.
  have hall : (before.flatMap (expectedOf c req shards)).length +
      (expectedOf c req shards s).length ≤ (shards.flatMap (expectedOf c req shards)).length := by
    have hpieces := congrArg (fun l => (l.flatMap (expectedOf c req shards)).length) hsplit
    simp only [List.flatMap_append, List.flatMap_cons, List.length_append] at hpieces
    omega
  unfold ScanKeysRequest.remaining at hm hfits
  split at hm
  · next hlimit =>
      have hle := hfits _ (if_pos hlimit)
      cases hm
      omega
  · cases hm

end Tables

def emptyDocument : Stored := .zstd (ascii ['\x7b', '\x7d'])

/-- A table of two shards, the first with the document `a`, the other one with `m`. -/
def splitTable (border : Bytes) : List Shard :=
  [⟨1, ⟨[], border⟩,
      { DBImpl.empty with pdb := .ofList [(keyRangeStart (ascii ['a']), emptyDocument)] }⟩,
    ⟨2, ⟨border, [0xFF]⟩,
      { DBImpl.empty with pdb := .ofList [(keyRangeStart (ascii ['m']), emptyDocument)] }⟩]

/-- A request for the whole table that includes the start of a shard. -/
def fromStart : ScanKeysRequest where
  reqFrom := []
  reqTo := []
  inclusiveFrom := true
  exclusiveTo := false
  limit := 0
  fields := []

theorem within_of_one {id : Bytes} {r : Range} {n : ℕ}
    (h : r.contains (keyRangeStart id) = true) :
    Within ⟨n, r, { DBImpl.empty with pdb := .ofList [(keyRangeStart id, emptyDocument)] }⟩ := by
  have hlisted : ∀ k v, OrdMap.get? (.ofList [(keyRangeStart id, emptyDocument)])
      (keyRangeStart k) = some v → k = id := by
    intro k v hget
    have hmem := (mem_entries_iff _ _ _).mpr hget
    exact keyRangeStart_inj.mp (Prod.mk.inj (mem_singleton.mp hmem)).1
  refine ⟨fun e he => ?_, fun k v hget _ => ?_⟩
  · have hget := get?_documents.mp ((mem_entries_iff _ e.1 e.2).mp he)
    rw [hlisted e.1 e.2 hget.1]
    exact h
  · rw [hlisted k v hget]
    exact h

theorem splitTable_partitioned {border : Bytes} (hend : border < [0xFF])
    (ha : keyRangeStart (ascii ['a']) < border) (hm : border ≤ keyRangeStart (ascii ['m'])) :
    Partitioned (splitTable border) [0xFF] where
  partitions :=
    { spaceEnd_eq := .inr rfl
      ids_nodup := by simp [splitTable]
      nonempty := by
        intro s hs
        simp only [splitTable, map_cons, map_nil, mem_cons, not_mem_nil, or_false] at hs
        rcases hs with rfl | rfl
        · exact .inr ((Lex.nil_le _).trans_lt ha)
        · exact .inr hend
      covers := by
        intro k hk
        have hk' : k < [0xFF] := hk.resolve_left (by decide)
        by_cases hlt : k < border
        · exact ⟨(1, ⟨[], border⟩), by simp [splitTable],
            Range.contains_iff.mpr ⟨Lex.nil_le k, .inr hlt⟩⟩
        · exact ⟨(2, ⟨border, [0xFF]⟩), by simp [splitTable],
            Range.contains_iff.mpr ⟨not_lt.mp hlt, .inr hk'⟩⟩
      disjoint := by
        have hapart {k : Bytes} (h : (⟨[], border⟩ : Range).contains k = true)
            (h' : (⟨border, [0xFF]⟩ : Range).contains k = true) : False := by
          have hlt := (Range.contains_iff.mp h).2.resolve_left ((Lex.nil_le _).trans_lt ha).ne'
          exact absurd hlt (not_lt.mpr (Range.contains_iff.mp h').1)
        intro k s hs s' hs' hk hk'
        simp only [splitTable, map_cons, map_nil, mem_cons, not_mem_nil, or_false] at hs hs'
        rcases hs with rfl | rfl <;> rcases hs' with rfl | rfl
        · rfl
        · exact absurd hk' fun h => hapart hk h
        · exact absurd hk fun h => hapart hk' h
        · rfl }
  sorted := by
    refine pairwise_cons.mpr ⟨fun s hs => ?_, pairwise_singleton _ _⟩
    rw [mem_singleton.mp hs]
    exact Lex.nil_le _
  within := by
    intro s hs
    rcases mem_cons.mp hs with rfl | hs
    · exact within_of_one (Range.contains_iff.mpr ⟨Lex.nil_le _, .inr ha⟩)
    · rw [mem_singleton.mp hs]
      have hlt : keyRangeStart (ascii ['m']) < [0xFF] := by decide
      exact within_of_one (Range.contains_iff.mpr ⟨hm, .inr hlt⟩)

/-- The two documents are streamed when the table is split at the id `m`; split at the body key of
`m`, the scan of the second shard starts behind it. -/
theorem table_scan_exact_iff_splitTable :
    ScanCondition Codec.emptyObject (fun _ => none) fromStart (splitTable (ascii ['m'])) ∧
      ¬ ScanCondition Codec.emptyObject (fun _ => none) fromStart
        (splitTable (keyRangeStart (ascii ['m']))) := by
  have hwanted (border k : Bytes) : k ∈ [ascii ['a'], ascii ['m']] ↔
      ∃ s ∈ splitTable border, k ∈ wantedIn Codec.emptyObject fromStart s.db := by
    have hfirst : wantedIn Codec.emptyObject fromStart
        { DBImpl.empty with pdb := .ofList [(keyRangeStart (ascii ['a']), emptyDocument)] } =
          [ascii ['a']] := by decide +kernel
    have hsecond : wantedIn Codec.emptyObject fromStart
        { DBImpl.empty with pdb := .ofList [(keyRangeStart (ascii ['m']), emptyDocument)] } =
          [ascii ['m']] := by decide +kernel
    simp [splitTable, hfirst, hsecond]
  constructor
  · refine (table_scan_exact_iff (splitTable_partitioned (by decide) (by decide)
      (by decide))).mp fun l hl hmem => ?_
    have hall : l = [ascii ['a'], ascii ['m']] :=
      List.Perm.eq_of_pairwise (fun a b _ _ hab hba => absurd hba hab.not_gt) hl (by decide)
        ((List.perm_ext_iff_of_nodup (hl.imp fun h => h.ne) (by decide)).mpr fun k =>
          (hmem k).trans (hwanted _ k).symm)
    rw [hall]
    decide +kernel
  · rw [← table_scan_exact_iff (splitTable_partitioned (by decide) (by decide) le_rfl)]
    intro hexact
    have hstream := hexact [ascii ['a'], ascii ['m']] (by decide) (hwanted _)
    revert hstream
    decide +kernel

/-- The one shard of a new table, with the one document `1`. -/
def digitShard : Shard where
  id := 1
  range := ⟨[], [0xFF]⟩
  db := { DBImpl.empty with pdb := .ofList [(keyRangeStart (ascii ['1']), emptyDocument)] }

/-- A request without bounds. -/
def wholeTable : ScanKeysRequest where
  reqFrom := []
  reqTo := []
  inclusiveFrom := false
  exclusiveTo := false
  limit := 0
  fields := []

theorem digitShard_partitioned : Partitioned [digitShard] [0xFF] where
  partitions :=
    { spaceEnd_eq := .inr rfl
      ids_nodup := by decide
      nonempty := by decide
      covers := fun k hk => ⟨_, mem_cons_self,
        Range.contains_iff.mpr ⟨Lex.nil_le k, .inr (hk.resolve_left (by decide))⟩⟩
      disjoint := by
        intro k s hs s' hs' _ _
        rw [mem_singleton.mp hs, mem_singleton.mp hs'] }
  sorted := pairwise_singleton _ _
  within := by
    intro s hs
    rw [mem_singleton.mp hs]
    exact within_of_one (by decide)

/-- The body key of the document comes before the keys of the empty id, the start of the shard. -/
theorem table_scan_skips_digit :
    Partitioned [digitShard] [0xFF] ∧ validateDocumentMutationKey (ascii ['1']) = none ∧
      wantedIn Codec.emptyObject wholeTable digitShard.db = [ascii ['1']] ∧
      scanKeys Codec.emptyObject (fun _ => none) wholeTable 0 [digitShard] = [] ∧
      ¬ TableScanExact Codec.emptyObject (fun _ => none) wholeTable [digitShard] := by
  have hwanted : wantedIn Codec.emptyObject wholeTable digitShard.db = [ascii ['1']] := by
    decide +kernel
  have hscan : scanKeys Codec.emptyObject (fun _ => none) wholeTable 0 [digitShard] = [] := by
    decide +kernel
  refine ⟨digitShard_partitioned, by decide, hwanted, hscan, fun hexact => ?_⟩
  have hall := hexact [ascii ['1']] (List.pairwise_singleton _ _) fun k => by
    rw [← hwanted]
    simp
  rw [hscan] at hall
  exact absurd hall (by decide +kernel)

end Antfly.TableScan
