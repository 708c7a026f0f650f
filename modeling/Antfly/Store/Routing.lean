import Antfly.Store.Batch

/-!
The metadata layer picks a shard by the id with `:\x00` appended, the shard checks the raw id
against its byte range, and the document is stored under several keys that continue the id.  All
three are comparisons with the same shard bounds, so they agree exactly when no bound falls
between the id and the last of its storage keys.

A table is its list of shards.  Go iterates the shard map in an arbitrary order, afresh for every
loop, so the routing functions take the iteration order as an argument.
-/

namespace Antfly

open List

inductive KeyShapeError where
  | empty | dbRangeStart | dbRangeEnd | metadataPrefix | embeddingSuffix | summarySuffix
  | chunkSuffix | sparseSuffix | fieldHashSuffix | edgeMarkers
  deriving DecidableEq

def validateReservedDocumentKeyShape (key : Bytes) : Option KeyShapeError :=
  if contains key dbRangeStart then some .dbRangeStart
  else if contains key dbRangeEnd then some .dbRangeEnd
  else if hasPrefix key metadataPrefix then some .metadataPrefix
  else if hasSuffix key embeddingSuffix then some .embeddingSuffix
  else if hasSuffix key summarySuffix then some .summarySuffix
  else if isChunkKey key then some .chunkSuffix
  else if contains key indexMarker && hasSuffix key sparseSuffix then some .sparseSuffix
  else if contains key indexMarker && hasSuffix key fieldHashSuffix then some .fieldHashSuffix
  else if isEdgeKey key then some .edgeMarkers
  else none

def validateDocumentMutationKey (key : Bytes) : Option KeyShapeError :=
  if key.isEmpty then some .empty else validateReservedDocumentKeyShape key

variable {key id x : Bytes}

theorem writeKind_of_accepted (h : validateDocumentMutationKey key = none) :
    writeKind key = .document := by
  unfold validateDocumentMutationKey validateReservedDocumentKeyShape at h
  unfold writeKind
  grind

theorem ne_nil_of_accepted (h : validateDocumentMutationKey key = none) : key ≠ [] := by
  rintro rfl
  simp [validateDocumentMutationKey] at h

/-- Rewrites a stored key to a document boundary: everything from the last `:` on is replaced by
`:\x00`. -/
def normalizeSplitKey (key : Bytes) : Bytes :=
  if hasSuffix key dbRangeStart then key
  else
    match key.reverse.dropWhile (· ≠ 58) with
    | [] => key ++ dbRangeStart
    | _ :: rest => rest.reverse ++ dbRangeStart

/-- `FindMedianKey`, from the key that the size-based search found. -/
def findMedianKey (byteRange : Range) (found : Bytes) : Option Bytes :=
  let key := normalizeSplitKey found
  if key ≤ byteRange.start then none
  else if !byteRange.stop.isEmpty && decide (byteRange.stop ≤ key) then none
  else some key

/-- A key `FindMedianKey` returns for some shard and some stored key. -/
def IsSplitKey (b : Bytes) : Prop := ∃ byteRange found, findMedianKey byteRange found = some b

theorem isSplitKey_iff (b : Bytes) : IsSplitKey b ↔ dbRangeStart <:+ b := by
  constructor
  · rintro ⟨r, found, h⟩
    have hb : b = normalizeSplitKey found := by
      unfold findMedianKey at h
      grind
    subst hb
    unfold normalizeSplitKey
    split
    · exact hasSuffix_iff.mp ‹_›
    · split <;> exact suffix_append _ _
  · intro h
    have hsuf : hasSuffix b dbRangeStart = true := hasSuffix_iff.mpr h
    have hpos : ¬ b ≤ [] := by
      obtain ⟨t, rfl⟩ := h
      simp only [dbRangeStart, ascii, not_le]
      cases t <;> exact List.Lex.nil
    exact ⟨⟨[], []⟩, b, by simp [findMedianKey, normalizeSplitKey, hsuf, hpos]⟩

/-- The shards of a table with their byte ranges, `map[types.ID]*ShardStatus`. -/
structure Table where
  shards : List (Nat × Range)

/-- The first shard of the iteration whose range contains the storage form of the key. -/
def findShardForKey (order : List (Nat × Range)) (key : Bytes) : Option Nat :=
  (order.find? fun s => s.2.contains (keyRangeStart key)).map Prod.fst

/-- `PartitionKeysByShard`: the keys of each shard, and the keys without a shard.  `order key` is
the iteration order of the loop that places `key`; a table with one shard takes every key. -/
def partitionKeysByShard (t : Table) (order : Bytes → List (Nat × Range)) (keys : List Bytes) :
    (Nat → List Bytes) × List Bytes :=
  match t.shards with
  | [s] => (fun id => if id = s.1 then keys else [], [])
  | _ =>
    (fun id => keys.filter fun k => findShardForKey (order k) k = some id,
      keys.filter fun k => findShardForKey (order k) k = none)

def validateKey (key : Bytes) (byteRange : Range) (splitState : Option SplitState)
    (mergeState : Option MergeState) : Bool :=
  isKeyOwnedDuringSplit key byteRange splitState && isKeyOwnedDuringMerge key byteRange mergeState

/-- The check a shard makes before it proposes a batch. -/
def validateBatchKeys (b : BatchOp) (byteRange : Range) (splitState : Option SplitState)
    (mergeState : Option MergeState) : Bool :=
  (b.writes.all fun w => validateKey w.1 byteRange splitState mergeState) &&
    (b.deletes.all fun d => validateKey d byteRange splitState mergeState) &&
    b.transforms.all fun tr => validateKey tr.key byteRange splitState mergeState

/-- The keys a partition has to cover: all keys, or those below the single byte `0xFF` that closes
the last shard of a fresh table. -/
def inKeySpace (spaceEnd : Bytes) (k : Bytes) : Prop := spaceEnd = [] ∨ k < spaceEnd

/-- Distinct shard ids, nonempty ranges, and every key in exactly one range. -/
structure Table.PartitionsKeySpace (t : Table) (spaceEnd : Bytes) : Prop where
  spaceEnd_eq : spaceEnd = [] ∨ spaceEnd = [0xFF]
  ids_nodup : (t.shards.map Prod.fst).Nodup
  nonempty : ∀ s ∈ t.shards, s.2.stop = [] ∨ s.2.start < s.2.stop
  covers : ∀ k, inKeySpace spaceEnd k → ∃ s ∈ t.shards, s.2.contains k = true
  disjoint : ∀ k, ∀ s ∈ t.shards, ∀ s' ∈ t.shards, s.2.contains k = true →
    s'.2.contains k = true → s = s'

/-- The keys a document write may set: the body, its timestamp, and the enrichments and edges of
any index with the timestamps of the edges. -/
inductive StorageKey (id : Bytes) : Bytes → Prop where
  | document : StorageKey id (keyRangeStart id)
  | documentTimestamp : StorageKey id (timestampKey (keyRangeStart id))
  | embedding (indexName : Bytes) : StorageKey id (makeEmbeddingKey id indexName)
  | sparse (indexName : Bytes) : StorageKey id (makeSparseKey id indexName)
  | summary (indexName : Bytes) : StorageKey id (makeSummaryKey id indexName)
  | edge (target indexName edgeType : Bytes) :
      StorageKey id (makeEdgeKey id target indexName edgeType)
  | edgeTimestamp (target indexName edgeType : Bytes) :
      StorageKey id (timestampKey (makeEdgeKey id target indexName edgeType))

/-- The end of the span that holds every storage key of a document. -/
def documentSpanEnd (id : Bytes) : Bytes := id ++ ascii [':', 'i', ';']

theorem StorageKey.eq_append (h : StorageKey id x) :
    ∃ c t, x = id ++ 58 :: c :: t ∧ (c = 0 ∨ c = 105 ∧ ∃ u, t = 58 :: u) := by
  cases h with
  | document => exact ⟨0, [], rfl, .inl rfl⟩
  | documentTimestamp =>
    exact ⟨0, transactionSuffix, by simp [timestampKey, keyRangeStart, dbRangeStart, ascii],
      .inl rfl⟩
  | embedding n =>
    exact ⟨105, _, by simp [makeEmbeddingKey, indexMarker, ascii]; rfl, .inr ⟨rfl, _, rfl⟩⟩
  | sparse n =>
    exact ⟨105, _, by simp [makeSparseKey, indexMarker, ascii]; rfl, .inr ⟨rfl, _, rfl⟩⟩
  | summary n =>
    exact ⟨105, _, by simp [makeSummaryKey, indexMarker, ascii]; rfl, .inr ⟨rfl, _, rfl⟩⟩
  | edge target n ty =>
    exact ⟨105, _, by simp [makeEdgeKey, indexMarker, ascii]; rfl, .inr ⟨rfl, _, rfl⟩⟩
  | edgeTimestamp target n ty =>
    exact ⟨105, _, by simp [timestampKey, makeEdgeKey, indexMarker, ascii]; rfl,
      .inr ⟨rfl, _, rfl⟩⟩

theorem StorageKey.lt_spanEnd (h : StorageKey id x) : x < documentSpanEnd id := by
  obtain ⟨c, t, rfl, hc⟩ := h.eq_append
  simp only [documentSpanEnd, Lex.append_lt_append_left, ascii, map_cons]
  refine List.Lex.cons ?_
  rcases hc with rfl | ⟨rfl, u, rfl⟩
  · exact List.Lex.rel (by decide)
  · exact List.Lex.cons (List.Lex.rel (by decide))

theorem StorageKey.keyRangeStart_le (h : StorageKey id x) : keyRangeStart id ≤ x := by
  obtain ⟨c, t, rfl, hc⟩ := h.eq_append
  simp only [keyRangeStart, dbRangeStart, ascii, Lex.append_le_append_left, map_cons,
    map_nil]
  rw [← not_lt, cons_lt_cons_iff, cons_lt_cons_iff]
  rintro (hlt | ⟨-, hlt | ⟨-, hlt⟩⟩)
  · exact absurd hlt (lt_irrefl _)
  · exact absurd hlt (not_lt.mpr (by
      rw [UInt8.le_iff_toNat_le]
      exact Nat.zero_le _))
  · exact not_lt_nil _ hlt

theorem lt_keyRangeStart (id : Bytes) : id < keyRangeStart id :=
  Lex.lt_append_of_ne_nil id (by decide)

private theorem le_ff (a : UInt8) : a ≤ 0xFF := by
  rw [UInt8.le_iff_toNat_le]
  exact Nat.lt_succ_iff.mp a.toNat_lt

theorem exists_storageKey_ge {b : Bytes} (hb : b < documentSpanEnd id) :
    ∃ x, StorageKey id x ∧ b ≤ x := by
  let name : Bytes := List.replicate b.length 0xFF
  have hkey : makeEmbeddingKey id name = (id ++ [58, 105]) ++ 58 :: (name ++ [58, 101]) := by
    simp [makeEmbeddingKey, indexMarker, embeddingSuffix, ascii]
  have hend : documentSpanEnd id = (id ++ [58, 105]) ++ [59] := by
    simp [documentSpanEnd, ascii]
  refine ⟨_, .embedding name, ?_⟩
  by_contra hlt
  rw [not_le, hkey] at hlt
  rw [hend] at hb
  have hlow : id ++ [58, 105] ≤ b := (Lex.le_append _ _).trans hlt.le
  obtain ⟨t, hbt, ht⟩ := Lex.mem_Ico_append_singleton.mp ⟨hlow, hb⟩
  rw [hbt, Lex.append_lt_append_left] at hlt
  rcases Lex.lt_singleton_iff.mp ht with rfl | ⟨c, u, rfl, hc⟩
  · exact not_lt_nil _ hlt
  · rcases cons_lt_cons_iff.mp hlt with h58 | ⟨-, hu⟩
    · rw [UInt8.lt_iff_toNat_lt] at h58 hc
      have e58 : (58 : UInt8).toNat = 58 := rfl
      have e59 : (59 : UInt8).toNat = 59 := rfl
      omega
    · -- The name outlasts what is left of `b`, so the embedding key is not below it.
      have hle : u ≤ name ++ [58, 101] :=
        Lex.le_replicate_append le_ff (by rw [hbt]; simp; omega) _
      exact absurd hu (not_lt.mpr hle)

/-- One shard is chosen for `id` whatever the iteration orders, its checks accept the id, and it
holds every storage key of the id. -/
def RoutingAgrees (t : Table) (id : Bytes) : Prop :=
  ∃ s ∈ t.shards,
    (∀ order : List (Nat × Range), order.Perm t.shards → findShardForKey order id = some s.1) ∧
    (∀ order : Bytes → List (Nat × Range), (∀ k, (order k).Perm t.shards) →
      (partitionKeysByShard t order [id]).1 s.1 = [id] ∧
        (∀ n ≠ s.1, (partitionKeysByShard t order [id]).1 n = []) ∧
        (partitionKeysByShard t order [id]).2 = []) ∧
    (∀ b : BatchOp, (∀ w ∈ b.writes, w.1 = id) → (∀ d ∈ b.deletes, d = id) →
      (∀ tr ∈ b.transforms, tr.key = id) → validateBatchKeys b s.2 none none = true) ∧
    (∀ db : DBImpl, db.byteRange = s.2 → db.splitState = none → db.mergeState = none →
      ownsKey db id = true) ∧
    ∀ x, StorageKey id x → s.2.contains x = true

/-- No shard starts strictly between the id and the end of its span. -/
def NoBoundInSpan (t : Table) (id : Bytes) : Prop :=
  ∀ s ∈ t.shards, ¬ (id < s.2.start ∧ s.2.start < documentSpanEnd id)

section Agreement

variable {t : Table} {spaceEnd : Bytes}

variable {x id : Bytes} {s : Nat × Range}

theorem same_shard_iff (ht : t.PartitionsKeySpace spaceEnd) {y : Bytes} (hxy : x ≤ y)
    (hy : inKeySpace spaceEnd y) (hs : s ∈ t.shards) (hsx : s.2.contains x = true) :
    s.2.contains y = true ↔ ∀ s' ∈ t.shards, ¬ (x < s'.2.start ∧ s'.2.start ≤ y) := by
  obtain ⟨hlo, hhi⟩ := Range.contains_iff.mp hsx
  constructor
  · rintro hsy s' hs' ⟨hxb, hby⟩
    have hb : s'.2.contains s'.2.start = true :=
      Range.contains_iff.mpr ⟨le_rfl, ht.nonempty s' hs'⟩
    have hsb : s.2.contains s'.2.start = true := by
      refine Range.contains_iff.mpr ⟨hlo.trans hxb.le, ?_⟩
      exact (Range.contains_iff.mp hsy).2.imp id fun h => hby.trans_lt h
    obtain rfl := ht.disjoint _ s hs s' hs' hsb hb
    exact absurd hlo (not_le.mpr hxb)
  · intro hno
    obtain ⟨s', hs', hsy'⟩ := ht.covers y hy
    obtain ⟨hlo', hhi'⟩ := Range.contains_iff.mp hsy'
    have hx' : s'.2.start ≤ x := not_lt.mp fun h => hno s' hs' ⟨h, hlo'⟩
    have hs'x : s'.2.contains x = true :=
      Range.contains_iff.mpr ⟨hx', hhi'.imp id fun h => hxy.trans_lt h⟩
    obtain rfl := ht.disjoint x s hs s' hs' hsx hs'x
    exact hsy'

theorem inKeySpace_append (ht : t.PartitionsKeySpace spaceEnd) (hid : id ≠ [])
    (h : inKeySpace spaceEnd id) (w : Bytes) :
    inKeySpace spaceEnd (id ++ w) := by
  rcases ht.spaceEnd_eq with hnil | hff
  · exact .inl hnil
  · subst hff
    obtain ⟨c, u, rfl⟩ := exists_cons_of_ne_nil hid
    rcases h with h | h
    · cases h
    · refine .inr ?_
      rw [cons_append, cons_lt_cons_iff]
      rw [cons_lt_cons_iff] at h
      rcases h with h | ⟨-, h⟩
      · exact .inl h
      · exact absurd h (not_lt_nil u)

theorem StorageKey.inKeySpace (ht : t.PartitionsKeySpace spaceEnd) (hid : id ≠ [])
    (h : inKeySpace spaceEnd id) (hx : StorageKey id x) :
    Antfly.inKeySpace spaceEnd x := by
  obtain ⟨c, w, rfl, -⟩ := hx.eq_append
  exact inKeySpace_append ht hid h _

theorem findShardForKey_eq (ht : t.PartitionsKeySpace spaceEnd) {order : List (Nat × Range)}
    (ho : order.Perm t.shards) (hs : s ∈ t.shards) (hsid : s.2.contains (keyRangeStart id) = true) :
    findShardForKey order id = some s.1 := by
  unfold findShardForKey
  cases hf : order.find? fun s => s.2.contains (keyRangeStart id) with
  | none =>
    rw [find?_eq_none] at hf
    exact absurd hsid (hf s (ho.mem_iff.mpr hs))
  | some s' =>
    have hmem : s' ∈ t.shards := ho.mem_iff.mp (mem_of_find?_eq_some hf)
    have hc : s'.2.contains (keyRangeStart id) = true := by
      simpa using find?_some hf
    obtain rfl := ht.disjoint _ s hs s' hmem hsid hc
    rfl

theorem partitionKeysByShard_eq (ht : t.PartitionsKeySpace spaceEnd)
    {order : Bytes → List (Nat × Range)} (ho : ∀ k, (order k).Perm t.shards) (hs : s ∈ t.shards)
    (hsid : s.2.contains (keyRangeStart id) = true) :
    (partitionKeysByShard t order [id]).1 s.1 = [id] ∧
      (∀ n ≠ s.1, (partitionKeysByShard t order [id]).1 n = []) ∧
      (partitionKeysByShard t order [id]).2 = [] := by
  have hfind := findShardForKey_eq ht (ho id) hs hsid
  unfold partitionKeysByShard
  split
  · rename_i s' heq
    rw [heq, mem_singleton] at hs
    subst hs
    exact ⟨by simp, fun n hn => by simp [hn], rfl⟩
  · refine ⟨by simp [hfind], fun n hn => ?_, by simp [hfind]⟩
    simp [hfind, Ne.symm hn]

theorem validateKey_eq_contains (key : Bytes) (r : Range) :
    validateKey key r none none = r.contains key := by
  simp [validateKey, isKeyOwnedDuringSplit, isKeyOwnedDuringMerge, isKeyInSplitOffRangeForState,
    isKeyInMergeDonorRangeForState, shouldRejectDonorWriteDuringFinalize, isActiveSplitPhase,
    isActiveMergePhase]

theorem ownsKey_eq_contains {db : DBImpl} (hsplit : db.splitState = none)
    (hmerge : db.mergeState = none) (key : Bytes) :
    ownsKey db key = db.byteRange.contains key := by
  simp [ownsKey, hsplit, hmerge, isKeyOwnedDuringSplit, isKeyOwnedDuringMerge,
    isKeyInSplitOffRangeForState, isKeyInMergeDonorRangeForState,
    shouldRejectDonorWriteDuringFinalize, isActiveSplitPhase, isActiveMergePhase]

theorem noBoundInSpan_of_routingAgrees (ht : t.PartitionsKeySpace spaceEnd)
    (hid : validateDocumentMutationKey id = none) (hspace : inKeySpace spaceEnd id)
    (h : RoutingAgrees t id) :
    NoBoundInSpan t id := by
  obtain ⟨s, hs, -, -, -, hown, hkeys⟩ := h
  rintro s' hs' ⟨hlo, hhi⟩
  have hsid : s.2.contains id = true := by
    have howns := hown ⟨.empty, s.2, none, none, 0, 0, 0, 0, [], none, 0⟩ rfl rfl rfl
    rwa [ownsKey_eq_contains rfl rfl] at howns
  obtain ⟨x, hx, hbx⟩ := exists_storageKey_ge hhi
  have hle : id ≤ x := (lt_keyRangeStart id).le.trans hx.keyRangeStart_le
  have hxspace := hx.inKeySpace ht (ne_nil_of_accepted hid) hspace
  exact (same_shard_iff ht hle hxspace hs hsid).mp (hkeys x hx) s' hs' ⟨hlo, hbx⟩

theorem routingAgrees_of_noBoundInSpan (ht : t.PartitionsKeySpace spaceEnd)
    (hid : validateDocumentMutationKey id = none) (hspace : inKeySpace spaceEnd id)
    (hno : NoBoundInSpan t id) :
    RoutingAgrees t id := by
  obtain ⟨s, hs, hsid⟩ := ht.covers id hspace
  have hkeys : ∀ x, StorageKey id x → s.2.contains x = true := by
    intro x hx
    have hle : id ≤ x := (lt_keyRangeStart id).le.trans hx.keyRangeStart_le
    have hxspace := hx.inKeySpace ht (ne_nil_of_accepted hid) hspace
    refine (same_shard_iff ht hle hxspace hs hsid).mpr ?_
    rintro s' hs' ⟨hlo, hhi⟩
    exact hno s' hs' ⟨hlo, hhi.trans_lt hx.lt_spanEnd⟩
  have hstart := hkeys _ .document
  refine ⟨s, hs, fun order ho => findShardForKey_eq ht ho hs hstart,
    fun order ho => partitionKeysByShard_eq ht ho hs hstart, ?_, ?_, hkeys⟩
  · intro b hw hd htr
    simp only [validateBatchKeys, Bool.and_eq_true, all_eq_true, validateKey_eq_contains]
    refine ⟨⟨fun w hmem => ?_, fun d hmem => ?_⟩, fun tr hmem => ?_⟩
    · rw [hw w hmem, hsid]
    · rw [hd d hmem, hsid]
    · rw [htr tr hmem, hsid]
  · intro db hrange hsplit hmerge
    rw [ownsKey_eq_contains hsplit hmerge, hrange, hsid]

/-- Routing, ownership and storage agree on an accepted id exactly when no shard starts inside
the span of the id. -/
theorem routing_agrees_iff (ht : t.PartitionsKeySpace spaceEnd) {id : Bytes}
    (hid : validateDocumentMutationKey id = none) (hspace : inKeySpace spaceEnd id) :
    RoutingAgrees t id ↔ NoBoundInSpan t id :=
  ⟨noBoundInSpan_of_routingAgrees ht hid hspace, routingAgrees_of_noBoundInSpan ht hid hspace⟩

end Agreement

/-- Two shards split at the stored key of the document `a`. -/
def splitTable : Table where
  shards := [(1, ⟨[], ascii ['a', ':', '\x00']⟩), (2, ⟨ascii ['a', ':', '\x00'], []⟩)]

theorem splitTable_partitions : splitTable.PartitionsKeySpace [] where
  spaceEnd_eq := .inl rfl
  ids_nodup := by decide
  nonempty := by decide
  covers k _ := by
    rcases lt_or_ge k (ascii ['a', ':', '\x00']) with h | h
    · exact ⟨_, mem_cons_self, Range.contains_iff.mpr ⟨Lex.nil_le k, .inr h⟩⟩
    · exact ⟨_, mem_cons_of_mem _ mem_cons_self,
        Range.contains_iff.mpr ⟨h, .inl rfl⟩⟩
  disjoint k s hs s' hs' hk hk' := by
    simp only [splitTable, mem_cons, not_mem_nil, or_false] at hs hs'
    obtain ⟨hlo, hhi⟩ := Range.contains_iff.mp hk
    obtain ⟨hlo', hhi'⟩ := Range.contains_iff.mp hk'
    rcases hs with rfl | rfl <;> rcases hs' with rfl | rfl
    · rfl
    · exact absurd hlo' (not_le.mpr (hhi.resolve_left (by decide)))
    · exact absurd hlo (not_le.mpr (hhi'.resolve_left (by decide)))
    · rfl

/-- The document whose stored key became the split key: it is routed to the right shard by its
storage form, and the right shard rejects its raw id. -/
theorem split_document_not_routed :
    splitTable.PartitionsKeySpace [] ∧ IsSplitKey (ascii ['a', ':', '\x00']) ∧
      validateDocumentMutationKey (ascii ['a']) = none ∧
      ¬ RoutingAgrees splitTable (ascii ['a']) := by
  refine ⟨splitTable_partitions, (isSplitKey_iff _).mpr ⟨ascii ['a'], rfl⟩, by decide, ?_⟩
  intro h
  have hno := noBoundInSpan_of_routingAgrees splitTable_partitions (by decide) (Or.inl rfl) h
  exact hno (2, ⟨ascii ['a', ':', '\x00'], []⟩) (by decide) (by decide)

theorem routing_agrees_iff_at_b :
    RoutingAgrees splitTable (ascii ['b']) ↔ NoBoundInSpan splitTable (ascii ['b']) :=
  routing_agrees_iff splitTable_partitions (by decide) (Or.inl rfl)

end Antfly
