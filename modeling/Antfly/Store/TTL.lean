import Antfly.Store.Routing
import Antfly.Store.StoreDB

/-!
The leader of a shard scans its keys for expired timestamps and deletes what it finds through the
raft log.  A cleaner decides on a snapshot of the store: it collects the base key of every expired
timestamp key, cuts the keys into batches, and proposes each batch as deletes after the ownership
test of the leader's persist function.  The deletes carry no timestamp and are applied by the same
`DBImpl.Batch` as any other delete.
-/

namespace Antfly

open List

/-- `TTLGracePeriod`, in nanoseconds. -/
def ttlGracePeriod : Nat := 5000000000

def ttlBatchSize : Nat := 1000

/-- `uint64(now.Add(-ttlDuration - TTLGracePeriod).UnixNano())`: a threshold before the epoch
wraps around. -/
def expirationThreshold (now ttlDuration : Nat) : Nat :=
  (((now : Int) - ttlDuration - ttlGracePeriod) % 18446744073709551616).toNat

def decodedTimestamp : Stored → Option Nat
  | .raw b => decodeUint64Ascending b
  | .uint64 ts => some ts
  | _ => none

/-- What follows the first `:i:` of a key. -/
def afterIndexMarker : Bytes → Option Bytes
  | [] => none
  | b :: rest =>
    if indexMarker.isPrefixOf (b :: rest) then some ((b :: rest).drop 3)
    else afterIndexMarker rest

/-- The index name of an edge key, empty when there is none. -/
def extractIndexName (edgeKey : Bytes) : Bytes :=
  match afterIndexMarker edgeKey with
  | none => []
  | some remaining =>
    if (58 : UInt8) ∈ remaining then remaining.takeWhile (· ≠ 58) else []

/-- `bytes.TrimSuffix` of the timestamp suffix. -/
def trimTransactionSuffix (key : Bytes) : Bytes :=
  if hasSuffix key transactionSuffix then key.take (key.length - transactionSuffix.length) else key

section Scan

variable (db : DBImpl)

/-- The entries an iterator over the shard's range shows. -/
def rangeEntries : List (Bytes × Stored) :=
  db.pdb.entries.filter fun e => db.byteRange.contains e.1

def expiredBase (now ttlDuration : Nat) (e : Bytes × Stored) : Option Bytes :=
  match decodedTimestamp e.2 with
  | none => none
  | some timestamp =>
    if timestamp < expirationThreshold now ttlDuration then some (trimTransactionSuffix e.1)
    else none

/-- One iteration of the document scan. -/
def expiredDocument (now ttlDuration : Nat) (e : Bytes × Stored) : Option Bytes :=
  if hasPrefix e.1 metadataPrefix then none
  else if !hasSuffix e.1 transactionSuffix then none
  else expiredBase now ttlDuration e

/-- One iteration of the edge scan; every graph index has its own time to live. -/
def expiredEdge (indexConfigs : List (Bytes × Nat)) (now : Nat) (e : Bytes × Stored) :
    Option Bytes :=
  if !hasSuffix e.1 transactionSuffix then none
  else
    let baseEdgeKey := trimTransactionSuffix e.1
    if !isEdgeKey baseEdgeKey then none
    else
      let indexName := extractIndexName baseEdgeKey
      if indexName.isEmpty then none
      else
        match indexConfigs.lookup indexName with
        | none => none
        | some ttlDuration => expiredBase now ttlDuration e

/-- The batches a scan deletes: one whenever `ttlBatchSize` keys have been collected, and the
rest. -/
def deleteBatches (collected : List Bytes) : List Bytes → List (List Bytes)
  | [] => if collected.isEmpty then [] else [collected]
  | key :: keys =>
    let expiredKeys := collected ++ [key]
    if ttlBatchSize ≤ expiredKeys.length then expiredKeys :: deleteBatches [] keys
    else deleteBatches expiredKeys keys

/-- The batches of one pass over the documents. -/
def cleanupExpiredDocuments (now ttlDuration : Nat) : List (List Bytes) :=
  deleteBatches [] ((rangeEntries db).filterMap (expiredDocument now ttlDuration))

/-- The batches of one pass over the edges. -/
def cleanupExpiredEdges (indexConfigs : List (Bytes × Nat)) (now : Nat) : List (List Bytes) :=
  deleteBatches [] ((rangeEntries db).filterMap (expiredEdge indexConfigs now))

end Scan

/-- The ownership test of the leader's persist function: one key it does not own fails the whole
batch, and with it the rest of the pass. -/
def persistAccepts (s : StoreDB) (keys : List Bytes) : Bool :=
  keys.all fun key =>
    isKeyOwnedDuringSplit key s.byteRange s.splitState &&
      isKeyOwnedDuringMerge key s.byteRange s.mergeState

variable {b : List Bytes} {k key : Bytes} {db : DBImpl} {e : Bytes × Stored} {now ttlDuration : Nat}

theorem mem_deleteBatches {collected keys : List Bytes} (hb : b ∈ deleteBatches collected keys)
    (hk : k ∈ b) :
    k ∈ collected ∨ k ∈ keys := by
  induction keys generalizing collected with
  | nil =>
    rw [deleteBatches] at hb
    split at hb
    · cases hb
    · rw [mem_singleton.mp hb] at hk
      exact .inl hk
  | cons key keys ih =>
    rw [deleteBatches] at hb
    have hcollected : k ∈ collected ++ [key] → k ∈ collected ∨ k ∈ key :: keys := by
      intro h
      rcases mem_append.mp h with h | h
      · exact .inl h
      · rw [mem_singleton.mp h]
        exact .inr mem_cons_self
    split at hb
    · rcases mem_cons.mp hb with rfl | hb
      · exact hcollected hk
      · exact .inr (mem_cons_of_mem key ((ih hb).resolve_left (by simp)))
    · rcases ih hb with h | h
      · exact hcollected h
      · exact .inr (mem_cons_of_mem key h)

theorem flatten_deleteBatches (collected keys : List Bytes) :
    (deleteBatches collected keys).flatten = collected ++ keys := by
  induction keys generalizing collected with
  | nil =>
    rw [deleteBatches]
    cases collected <;> simp
  | cons key keys ih =>
    rw [deleteBatches]
    split
    · simp [ih]
    · simp [ih]

theorem hasSuffix_append_pair (k : Bytes) (a b c d : UInt8) :
    hasSuffix (k ++ [a, b]) [c, d] = (d == b && c == a) := by
  simp [hasSuffix, List.isSuffixOf, List.isPrefixOf]

theorem timestampKey_eq_append (key : Bytes) : timestampKey key = key ++ [58, 116] := rfl

@[simp] theorem hasSuffix_timestampKey (key : Bytes) :
    hasSuffix (timestampKey key) transactionSuffix = true :=
  hasSuffix_append_pair key 58 116 58 116

theorem timestampKey_inj {key' : Bytes} (h : timestampKey key = timestampKey key') : key = key' :=
  append_cancel_right h

@[simp] theorem trimTransactionSuffix_timestampKey (key : Bytes) :
    trimTransactionSuffix (timestampKey key) = key := by
  have hsuffix := hasSuffix_timestampKey key
  have hlen : transactionSuffix.length = 2 := rfl
  rw [trimTransactionSuffix, if_pos hsuffix, timestampKey_eq_append, hlen]
  simp

theorem eq_timestampKey_of_hasSuffix (h : hasSuffix key transactionSuffix = true) :
    key = timestampKey (trimTransactionSuffix key) := by
  obtain ⟨base, rfl⟩ := hasSuffix_iff.mp h
  exact (congrArg timestampKey (trimTransactionSuffix_timestampKey base)).symm

/-- The timestamp the shard stores for `base` lies below the threshold. -/
def Overdue (db : DBImpl) (now ttlDuration : Nat) (base : Bytes) : Prop :=
  db.byteRange.contains (timestampKey base) = true ∧
    ∃ v timestamp, db.get? (timestampKey base) = some v ∧ decodedTimestamp v = some timestamp ∧
      timestamp < expirationThreshold now ttlDuration

theorem mem_rangeEntries :
    e ∈ rangeEntries db ↔ db.get? e.1 = some e.2 ∧ db.byteRange.contains e.1 = true := by
  rw [rangeEntries, mem_filter]
  exact and_congr_left' (OrdMap.mem_entries_iff db.pdb e.1 e.2)

theorem overdue_of_expiredBase (he : e ∈ rangeEntries db)
    (hsuffix : hasSuffix e.1 transactionSuffix = true)
    (h : expiredBase now ttlDuration e = some k) :
    Overdue db now ttlDuration k ∧ e.1 = timestampKey k := by
  unfold expiredBase at h
  split at h
  · cases h
  · rename_i timestamp hts
    split at h
    · rename_i hlt
      cases h
      have hbase := eq_timestampKey_of_hasSuffix hsuffix
      obtain ⟨hget, hrange⟩ := mem_rangeEntries.mp he
      rw [hbase] at hget hrange
      exact ⟨⟨hrange, e.2, timestamp, hget, hts, hlt⟩, hbase⟩
    · cases h

theorem overdue_of_cleanupExpiredDocuments (hb : b ∈ cleanupExpiredDocuments db now ttlDuration)
    (hk : k ∈ b) :
    hasPrefix (timestampKey k) metadataPrefix = false ∧ Overdue db now ttlDuration k := by
  have hmem := (mem_deleteBatches hb hk).resolve_left (by simp)
  obtain ⟨e, he, hexpired⟩ := mem_filterMap.mp hmem
  unfold expiredDocument at hexpired
  split at hexpired
  · cases hexpired
  · rename_i hmeta
    split at hexpired
    · cases hexpired
    · rename_i hsuffix
      obtain ⟨hover, hkey⟩ := overdue_of_expiredBase he (by simpa using hsuffix) hexpired
      rw [hkey] at hmeta
      exact ⟨by simpa using hmeta, hover⟩

theorem mem_cleanupExpiredDocuments (hmeta : hasPrefix (timestampKey k) metadataPrefix = false)
    (hover : Overdue db now ttlDuration k) :
    ∃ b ∈ cleanupExpiredDocuments db now ttlDuration, k ∈ b := by
  obtain ⟨hrange, v, timestamp, hget, hts, hlt⟩ := hover
  have hentry : (timestampKey k, v) ∈ rangeEntries db := mem_rangeEntries.mpr ⟨hget, hrange⟩
  have hexpired : expiredDocument now ttlDuration (timestampKey k, v) = some k := by
    simp only [expiredDocument, hmeta, hasSuffix_timestampKey, expiredBase, hts, if_pos hlt,
      trimTransactionSuffix_timestampKey]
    rfl
  have hmem : k ∈ (cleanupExpiredDocuments db now ttlDuration).flatten := by
    rw [cleanupExpiredDocuments, flatten_deleteBatches, nil_append]
    exact mem_filterMap.mpr ⟨_, hentry, hexpired⟩
  exact mem_flatten.mp hmem

theorem overdue_of_cleanupExpiredEdges {db : DBImpl} {indexConfigs : List (Bytes × Nat)}
    {now : Nat} {b : List Bytes} {k : Bytes} (hb : b ∈ cleanupExpiredEdges db indexConfigs now)
    (hk : k ∈ b) :
    isEdgeKey k = true ∧ ∃ ttlDuration,
      indexConfigs.lookup (extractIndexName k) = some ttlDuration ∧ Overdue db now ttlDuration k := by
  have hmem := (mem_deleteBatches hb hk).resolve_left (by simp)
  obtain ⟨e, he, hexpired⟩ := mem_filterMap.mp hmem
  unfold expiredEdge at hexpired
  split at hexpired
  · cases hexpired
  · rename_i hsuffix
    dsimp only at hexpired
    split at hexpired
    · cases hexpired
    · rename_i hedge
      split at hexpired
      · cases hexpired
      · split at hexpired
        · cases hexpired
        · rename_i ttlDuration hlookup
          obtain ⟨hover, hkey⟩ := overdue_of_expiredBase he (by simpa using hsuffix) hexpired
          rw [hkey, trimTransactionSuffix_timestampKey] at hedge hlookup
          exact ⟨by simpa using hedge, ttlDuration, hlookup, hover⟩

theorem expirationThreshold_eq (hnow : ttlDuration + ttlGracePeriod ≤ now)
    (hfits : now < 18446744073709551616) :
    expirationThreshold now ttlDuration = now - ttlDuration - ttlGracePeriod := by
  unfold expirationThreshold
  omega

/-- Unless the threshold lies before the epoch, an overdue timestamp is older than the time to
live and the grace period. -/
theorem lt_of_lt_expirationThreshold {timestamp : Nat} (hnow : ttlDuration + ttlGracePeriod ≤ now)
    (h : timestamp < expirationThreshold now ttlDuration) :
    timestamp + ttlDuration + ttlGracePeriod < now := by
  unfold expirationThreshold at h
  have hcast : ((now : Int) - ttlDuration - ttlGracePeriod) =
      ((now - ttlDuration - ttlGracePeriod : Nat) : Int) := by omega
  rw [hcast] at h
  omega

end Antfly
