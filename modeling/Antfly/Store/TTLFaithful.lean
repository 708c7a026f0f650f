import Antfly.Metadata.HLC
import Antfly.Store.TTLSafety

/-!
The read filter looks for a timestamp under the raw id, where no writer puts one, so a read never
takes a stored document for expired.  The cleaner goes by the stored timestamp, which it reads as
nanoseconds, and deletes under the storage key of the body, so the derived keys of a document and
its index entries outlive it.

Reads and cleanup passes are faithful to the last writes as long as no stored document is read
after its time, the threshold of a pass does not lie between the time of a write and the value of
its timestamp, and expired documents have no derived keys and no index entries.
-/

namespace Antfly

open List Option

/-- When a write was made, in nanoseconds, and the clock that issued its timestamp. -/
structure WriteTime where
  wall : Nat
  issuer : HLC

structure ExpirySystem where
  store : StoreDB
  now : Nat
  /-- The last write of the body of a document, none for one that was deleted; no code reads it, and
  a cleanup leaves it alone. -/
  lastWrite : Bytes → Option WriteTime
  /-- The registered indexes with the ids they hold entries of. -/
  entries : List (Bytes × List Bytes)

inductive ExpiryEvent where
  | tick (elapsed : Nat)
  /-- An operation of the log, when its writes were made, and what the indexes hold when their
  queues are drained. -/
  | apply (op : RaftOp) (clock : Clock) (written : WriteTime) (entries : List (Bytes × List Bytes))
  | read (id : Bytes)
  /-- A pass of the document cleaner whose batches are proposed and applied. -/
  | cleanup

/-- A delete batch of the cleaner, as it is applied. -/
def applyDeletes (c : Codec) (s : StoreDB) (keys : List Bytes) : StoreDB :=
  (s.applyOp c (.batch [] keys [] .propose 0)).1

/-- The batches of a pass that the persist function proposes: the first one it refuses ends the
pass. -/
def persistedBatches (s : StoreDB) (ttlDuration now : Nat) : List (List Bytes) :=
  (cleanupExpiredDocuments s.coreDB now ttlDuration).takeWhile (persistAccepts s)

/-- Every index removes the entries of the keys it is handed. -/
def dropEntries (entries : List (Bytes × List Bytes)) (deletes : List Bytes) :
    List (Bytes × List Bytes) :=
  entries.map fun e => (e.1, e.2.filter fun id => id ∉ deletes)

namespace ExpirySystem

section Step

variable (c : Codec) (ttlDuration : Nat)

def applied (s : ExpirySystem) (op : RaftOp) (clock : Clock) (written : WriteTime)
    (entries : List (Bytes × List Bytes)) : ExpirySystem :=
  let store := (s.store.applyOp (c.at clock) op).1
  { s with
    store := store
    entries := entries
    lastWrite := fun id =>
      match OrdMap.lastEffect (dataEdits (c.at clock) s.store.coreDB op) (keyRangeStart id) with
      | some (some _) => some written
      | some none => none
      | none =>
        -- A document that a change of the range removes is no longer one of this shard.
        if (s.store.coreDB.get? (keyRangeStart id)).isSome &&
            (store.coreDB.get? (keyRangeStart id)).isNone then none
        else s.lastWrite id }

def cleaned (s : ExpirySystem) : ExpirySystem :=
  let batches := persistedBatches s.store ttlDuration s.now
  { s with
    store := batches.foldl (applyDeletes c) s.store
    entries := dropEntries s.entries batches.flatten }

def step (s : ExpirySystem) : ExpiryEvent → Option ExpirySystem
  | .tick elapsed => some { s with now := s.now + elapsed }
  | .apply op clock written entries => some (s.applied c op clock written entries)
  | .read _ => some s
  | .cleanup => some (s.cleaned c ttlDuration)

end Step

/-- A new shard that is given its schema. -/
def start (r : Range) (schema : Bytes) (ttlDuration now : Nat)
    (entries : List (Bytes × List Bytes)) : ExpirySystem where
  store := (StoreDB.create r).updateSchema schema ttlDuration
  now := now
  lastWrite _ := none
  entries := entries

/-- `DBImpl.Get` at the time of the shard's clock. -/
def get (c : Codec) (s : ExpirySystem) (id : Bytes) : Except GetError Obj :=
  getDocument { c with now := s.now } s.store.coreDB id

/-- The same read on a table without a time to live. -/
def getUnfiltered (c : Codec) (s : ExpirySystem) (id : Bytes) : Except GetError Obj :=
  getDocument { c with now := s.now } { s.store.coreDB with cachedTTLDuration := 0 } id

/-- The time to live of the document has not passed since its last write. -/
def Live (s : ExpirySystem) (ttlDuration : Nat) (id : Bytes) : Prop :=
  ∃ w, s.lastWrite id = some w ∧ s.now ≤ w.wall + ttlDuration

/-- Time to live and grace period have passed since the last write. -/
def Spent (s : ExpirySystem) (ttlDuration : Nat) (id : Bytes) : Prop :=
  ∃ w, s.lastWrite id = some w ∧ w.wall + ttlDuration + ttlGracePeriod < s.now

/-- The shard stores a value at the key. -/
def Holds (s : ExpirySystem) (x : Bytes) : Prop := s.store.coreDB.get? x ≠ none

end ExpirySystem

/-- An id whose body is not stored among the shard's own records. -/
def DocumentID (id : Bytes) : Prop := ¬ OwnRecord (keyRangeStart id)

/-- The storage keys of a document: its body, its timestamp, and its embeddings, summaries, chunks
and edges under `<id>:i:`, as far as they are not bodies and timestamps of other documents. -/
def KeyOfDocument (id x : Bytes) : Prop :=
  IsDocumentKey id x ∨ id ++ indexMarker <+: x ∧ ∀ id', ¬ IsDocumentKey id' x

section Faithful

variable (c : Codec) (ttlDuration : Nat)

/-- A read returns a document that is live, and reports one that is not as missing. -/
def ReadsFaithfully (s : ExpirySystem) (id : Bytes) : Prop :=
  (s.Live ttlDuration id → s.get c id = s.getUnfiltered c id ∧ s.get c id ≠ .error .notFound) ∧
    (¬ s.Live ttlDuration id → s.get c id = .error .notFound)

/-- After a pass nothing of a spent document is left, and every other document has the keys it
had. -/
def CleansFaithfully (s s' : ExpirySystem) : Prop :=
  (∀ id, DocumentID id → s.Spent ttlDuration id →
    (∀ x, KeyOfDocument id x → ¬ s'.Holds x) ∧ ∀ e ∈ s'.entries, id ∉ e.2) ∧
  ∀ id, DocumentID id → ¬ s.Spent ttlDuration id →
    ∀ x, KeyOfDocument id x → s'.store.coreDB.get? x = s.store.coreDB.get? x

def Faithful (s : ExpirySystem) : ExpiryEvent → Prop
  | .read id => DocumentID id → ReadsFaithfully c ttlDuration s id
  | .cleanup => CleansFaithfully ttlDuration s (s.cleaned c ttlDuration)
  | _ => True

def SelectsDocument (s : ExpirySystem) (k : Bytes) : Prop :=
  hasPrefix (timestampKey k) metadataPrefix = false ∧ Overdue s.store.coreDB s.now ttlDuration k

/-- The threshold lies between the time of the write and the value of its timestamp, the
milliseconds modulo `2^36` shifted by 28 bits with node id and counter below them, so that the two
compare differently with it. -/
def WriteTime.Separated (w : WriteTime) (threshold : Nat) : Prop :=
  w.wall < threshold ∧ threshold ≤ w.issuer.value ∨
    w.issuer.value < threshold ∧ threshold ≤ w.wall

/-- The state a pass starts from. -/
structure PassSafe (s : ExpirySystem) : Prop where
  /-- The threshold does not wrap around. -/
  clock : ttlDuration + ttlGracePeriod ≤ s.now ∧ s.now < 18446744073709551616
  ticks : ∀ id w, DocumentID id → s.Holds (keyRangeStart id) → s.lastWrite id = some w →
    ¬ w.Separated (s.now - ttlDuration - ttlGracePeriod)
  /-- The timestamps below the threshold are those of stored documents that the shard owns. -/
  bodies : ∀ k, SelectsDocument ttlDuration s k →
    (∃ id, DocumentID id ∧ k = keyRangeStart id ∧ s.Holds k) ∧
      persistAccepts s.store [k] = true ∧ ownsKey s.store.coreDB k = true
  /-- What is left of a spent document has a timestamp that the scan reaches. -/
  reached : ∀ id x, DocumentID id → s.Spent ttlDuration id → IsDocumentKey id x → s.Holds x →
    s.Holds (keyRangeStart id) ∧ s.store.coreDB.byteRange.contains (documentTimestampKey id) ∧
      ∃ v timestamp, s.store.coreDB.get? (documentTimestampKey id) = some v ∧
        decodedTimestamp v = some timestamp
  /-- A spent document stores nothing but its body and its timestamp. -/
  bare : ∀ id x, DocumentID id → s.Spent ttlDuration id → s.Holds x →
    KeyOfDocument id x ∨ Sweeps (keyRangeStart id) x → IsDocumentKey id x
  unindexed : ∀ id, DocumentID id → s.Spent ttlDuration id → ∀ e ∈ s.entries, id ∉ e.2

/-- The condition on an event.  An operation that writes a document carries the timestamp issued for
the write, and writes no raw key that ends like a body or a timestamp.  A document that is read is
not stored beyond its time, and nothing is stored as the timestamp of its raw id. -/
def Timely (s : ExpirySystem) : ExpiryEvent → Prop
  | .apply op clock written _ =>
    (∀ k, op.RawWrite k → hasSuffix k transactionSuffix = false ∧ hasSuffix k dbRangeStart = false) ∧
    ((∃ id, DocumentID id ∧
      leavesValue (dataEdits (c.at clock) s.store.coreDB op) (keyRangeStart id) = true) →
        op.stamp = written.issuer.value ∧ op.stamp ≠ 0)
  | .read id =>
    s.Holds (keyRangeStart id) →
      (∀ w, s.lastWrite id = some w → s.now ≤ w.wall + ttlDuration) ∧
      s.store.coreDB.get? (timestampKey id) = none
  | .cleanup => PassSafe ttlDuration s
  | .tick _ => True

end Faithful

section Reads

variable {c : Codec} {db : DBImpl} {id : Bytes}

theorem keyRangeStart_lt (id : Bytes) : keyRangeStart id < prefixSuccessor (keyRangeEnd id) :=
  (mem_deleteRange_colon id [0]).2

theorem getDocument_of_not_stored (h : db.get? (keyRangeStart id) = none) :
    getDocument c db id = .error .notFound := by
  unfold getDocument
  cases hentries : documentEntries db id with
  | nil => rfl
  | cons e rest =>
    obtain ⟨k, v⟩ := e
    have hk : k ≠ keyRangeStart id := by
      rintro rfl
      have hmem : (keyRangeStart id, v) ∈ documentEntries db id := by
        rw [hentries]
        exact mem_cons_self
      have hget := ((OrdMap.mem_scan_iff _ _ _ _ _).mp hmem).2
      change db.get? (keyRangeStart id) = some v at hget
      rw [h] at hget
      cases hget
    exact if_pos hk

theorem mapM_ne_notFound {α β : Type} {f : α → Except GetError β} {xs : List α}
    (h : ∀ x, f x ≠ .error .notFound) : xs.mapM f ≠ .error .notFound := by
  intro herror
  obtain ⟨x, -, hx⟩ := Fallible.exists_of_mapM_error herror
  exact h x hx

theorem entryEmbedding_ne_notFound (key : Bytes) (e : Bytes × Stored) :
    entryEmbedding c key e ≠ .error .notFound := by
  unfold entryEmbedding
  grind

theorem entrySummary_ne_notFound (key : Bytes) (e : Bytes × Stored) :
    entrySummary key e ≠ .error .notFound := by
  unfold entrySummary
  grind

theorem getDocument_of_stored (h : db.get? (keyRangeStart id) ≠ none)
    (hfilter : isDocumentExpired c db id = .ok false) :
    getDocument c db id ≠ .error .notFound := by
  obtain ⟨v, hv⟩ := ne_none_iff_exists'.mp h
  obtain ⟨rest, hentries⟩ := OrdMap.scan_eq_cons (keyRangeStart_lt id) hv
  change documentEntries db id = _ at hentries
  unfold getDocument
  rw [hentries]
  simp only [ne_eq, not_true_eq_false, if_false, hfilter]
  split
  · split
    · simp
    · intro herror
      cases hembeddings : rest.mapM (entryEmbedding c id) with
      | error e =>
        rw [hembeddings] at herror
        obtain rfl : e = .notFound := by cases herror; rfl
        exact mapM_ne_notFound (entryEmbedding_ne_notFound id) hembeddings
      | ok embeddings =>
        rw [hembeddings] at herror
        cases hsummaries : rest.mapM (entrySummary id) with
        | error e =>
          rw [hsummaries] at herror
          obtain rfl : e = .notFound := by cases herror; rfl
          exact mapM_ne_notFound (entrySummary_ne_notFound id) hsummaries
        | ok summaries =>
          rw [hsummaries] at herror
          cases herror
  · simp

theorem isDocumentExpired_of_none (h : db.get? (timestampKey id) = none) :
    isDocumentExpired c db id = .ok false := by
  unfold isDocumentExpired
  rw [h]
  split <;> rfl

theorem getDocument_unfiltered (h : db.get? (timestampKey id) = none) :
    getDocument c db id = getDocument c { db with cachedTTLDuration := 0 } id := by
  have hfilter : isDocumentExpired c { db with cachedTTLDuration := 0 } id = .ok false := rfl
  have hentries : documentEntries { db with cachedTTLDuration := 0 } id = documentEntries db id :=
    rfl
  simp only [getDocument, isDocumentExpired_of_none h, hfilter, hentries]

end Reads

section Pass

variable {c : Codec} {s : StoreDB} {x : Bytes}

theorem config_applyDeletes (c : Codec) (s : StoreDB) (keys : List Bytes) :
    (applyDeletes c s keys).coreDB.config = s.coreDB.config :=
  config_flushBatch c s.coreDB [] keys [] .propose 0

variable {db : DBImpl} {keys : List Bytes} {k : Bytes} {batches : List (List Bytes)}

theorem ownsKey_congr {db' : DBImpl} (h : db.config = db'.config) : ownsKey db = ownsKey db' := by
  have happlies := appliesKey_congr h
  funext k
  simpa [appliesKey] using congrFun (congrFun happlies false) k

theorem get?_applyDeletes (hx : ¬ OwnRecord x) (keys : List Bytes) :
    (applyDeletes c s keys).coreDB.get? x =
      (OrdMap.lastEffect (keys.flatMap (deleteOps s.coreDB false)) x).getD (s.coreDB.get? x) :=
  get?_flushBatch c s.coreDB hx [] keys [] .propose 0

theorem exists_of_mem_deleteOps (keys : List Bytes) {e : PebbleOp}
    (he : e ∈ keys.flatMap (deleteOps db false)) :
    ∃ k ∈ keys, e = deleteTombstone k := by
  obtain ⟨k, hk, hek⟩ := mem_flatMap.mp he
  unfold deleteOps at hek
  split at hek
  · exact ⟨k, hk, mem_singleton.mp hek⟩
  · cases hek

theorem get?_applyDeletes_of_sweeps (hx : ¬ OwnRecord x)
    (howned : ∀ k ∈ keys, ownsKey s.coreDB k = true) (hk : k ∈ keys) (hsweeps : Sweeps k x) :
    (applyDeletes c s keys).coreDB.get? x = none := by
  have habsent : OrdMap.lastEffect (keys.flatMap (deleteOps s.coreDB false)) x = some none := by
    refine OrdMap.lastEffect_eq_absent ⟨deleteTombstone k, ?_, if_pos hsweeps⟩ ?_
    · refine mem_flatMap.mpr ⟨k, hk, ?_⟩
      rw [deleteOps, appliesKey, howned k hk]
      exact mem_singleton.mpr rfl
    · intro e he
      obtain ⟨k', -, rfl⟩ := exists_of_mem_deleteOps keys he
      exact (deleteTombstone_cases k' x).imp_right And.left
  rw [get?_applyDeletes hx, habsent]
  rfl

theorem get?_applyDeletes_of_not_sweeps (hx : ¬ OwnRecord x) (hnot : ∀ k ∈ keys, ¬ Sweeps k x) :
    (applyDeletes c s keys).coreDB.get? x = s.coreDB.get? x := by
  have hnone : OrdMap.lastEffect (keys.flatMap (deleteOps s.coreDB false)) x = none := by
    refine (lastEffect_tombs (fun e he => exists_of_mem_deleteOps keys he) x).resolve_right ?_
    rintro ⟨-, k, hk, hsweeps⟩
    exact hnot k hk hsweeps
  rw [get?_applyDeletes hx, hnone]
  rfl

theorem get?_pass_of_sweeps (hx : ¬ OwnRecord x)
    (howned : ∀ k ∈ batches.flatten, ownsKey s.coreDB k = true) (hk : k ∈ batches.flatten)
    (hsweeps : Sweeps k x) :
    (batches.foldl (applyDeletes c) s).coreDB.get? x = none := by
  have hgone : ∀ (batches : List (List Bytes)) (s : StoreDB), s.coreDB.get? x = none →
      (batches.foldl (applyDeletes c) s).coreDB.get? x = none := by
    intro batches
    induction batches with
    | nil => exact fun s h => h
    | cons keys batches ih =>
      intro s h
      refine ih _ ?_
      rw [get?_applyDeletes hx, h]
      rcases lastEffect_tombs (fun e he => exists_of_mem_deleteOps keys he) x with
        hnone | ⟨hsome, -⟩
      · rw [hnone, getD_none]
      · rw [hsome, getD_some]
  induction batches generalizing s with
  | nil => cases hk
  | cons keys batches ih =>
    rw [flatten_cons] at hk howned
    rw [foldl_cons]
    rcases mem_append.mp hk with hk | hk
    · exact hgone batches _ (get?_applyDeletes_of_sweeps hx
        (fun k hk => howned k (mem_append_left _ hk)) hk hsweeps)
    · refine ih (fun k hk => ?_) hk
      rw [ownsKey_congr (config_applyDeletes c s keys)]
      exact howned k (mem_append_right _ hk)

theorem get?_pass_of_not_sweeps (hx : ¬ OwnRecord x) (hnot : ∀ k ∈ batches.flatten, ¬ Sweeps k x) :
    (batches.foldl (applyDeletes c) s).coreDB.get? x = s.coreDB.get? x := by
  induction batches generalizing s with
  | nil => rfl
  | cons keys batches ih =>
    rw [flatten_cons] at hnot
    rw [foldl_cons, ih fun k hk => hnot k (mem_append_right _ hk)]
    exact get?_applyDeletes_of_not_sweeps hx fun k hk => hnot k (mem_append_left _ hk)

theorem mem_persistedBatches {ttlDuration now : Nat} {k : Bytes}
    (howned : ∀ k, hasPrefix (timestampKey k) metadataPrefix = false ∧
      Overdue s.coreDB now ttlDuration k → persistAccepts s [k] = true) :
    k ∈ (persistedBatches s ttlDuration now).flatten ↔
      hasPrefix (timestampKey k) metadataPrefix = false ∧ Overdue s.coreDB now ttlDuration k := by
  have hall : persistedBatches s ttlDuration now =
      cleanupExpiredDocuments s.coreDB now ttlDuration := by
    refine takeWhile_eq_self_iff.mpr fun b hb => ?_
    refine all_eq_true.mpr fun k hk => ?_
    have haccepts := howned k (overdue_of_cleanupExpiredDocuments hb hk)
    simpa [persistAccepts] using haccepts
  rw [hall, mem_flatten]
  constructor
  · rintro ⟨b, hb, hk⟩
    exact overdue_of_cleanupExpiredDocuments hb hk
  · rintro ⟨hmeta, hover⟩
    exact mem_cleanupExpiredDocuments hmeta hover

end Pass

/-- A stored body has a last write, whose timestamp is the one that is stored, and a document with a
last write whose body is gone has expired. -/
structure ExpirySystem.Tracked (ttlDuration : Nat) (s : ExpirySystem) : Prop where
  written : ∀ id, DocumentID id → s.Holds (keyRangeStart id) → s.lastWrite id ≠ none
  dated : ∀ id w v timestamp, DocumentID id → s.Holds (keyRangeStart id) →
    s.lastWrite id = some w → s.store.coreDB.get? (documentTimestampKey id) = some v →
    decodedTimestamp v = some timestamp → timestamp = w.issuer.value
  expired : ∀ id w, DocumentID id → ¬ s.Holds (keyRangeStart id) → s.lastWrite id = some w →
    w.wall + ttlDuration < s.now

namespace ExpirySystem

variable {c : Codec} {ttlDuration : Nat} {s s' : ExpirySystem}

variable {id x : Bytes}

theorem not_ownRecord_documentKey (hid : DocumentID id) (hx : IsDocumentKey id x) :
    ¬ OwnRecord x := by
  rcases hx with rfl | rfl
  · exact hid
  · exact not_ownRecord_timestampKey ⟨hid, .inl (hasSuffix_append_pair id 58 0 58 0)⟩

theorem not_ownRecord_keyOfDocument (hid : DocumentID id) (hx : KeyOfDocument id x) :
    ¬ OwnRecord x := by
  rcases hx with hx | ⟨⟨t, rfl⟩, -⟩
  · exact not_ownRecord_documentKey hid hx
  · intro h
    have hcolon : id ++ indexMarker ++ t = id ++ 58 :: (105 :: 58 :: t) := by
      simp [indexMarker, ascii]
    rw [hcolon] at h
    exact hid (ownRecord_append_colon h)

theorem start_tracked (r : Range) (schema : Bytes) (now : Nat)
    (entries : List (Bytes × List Bytes)) :
    (start r schema ttlDuration now entries).Tracked ttlDuration := by
  have hnone : ∀ id, DocumentID id →
      (start r schema ttlDuration now entries).store.coreDB.get? (keyRangeStart id) = none := by
    intro id hid
    have hne : keyRangeStart id ≠ schemaKey := fun h => hid (.inl (h ▸ prefix_append _ _))
    have hopened := DBImpl.reopen_get?_of_ne DBImpl.empty none r
      fun hsaved => hid (.inl hsaved.metadata)
    refine Eq.trans ?_ hopened
    exact (DBImpl.get?_applyOps _ _ _).trans
      (by simp [OrdMap.lastEffect, OrdMap.Edit.effect, hne]; rfl)
  constructor
  · exact fun id hid hholds => absurd (hnone id hid) hholds
  · exact fun id _ _ _ hid hholds => absurd (hnone id hid) hholds
  · intro id w _ _ hlast
    cases hlast

section Apply

variable {op : RaftOp} {clock : Clock} {written : WriteTime} {entries : List (Bytes × List Bytes)}
variable {id x : Bytes} {v : Stored}

/-- A key outside the store's own records that is there afterwards was written or kept. -/
theorem applied_present (hx : ¬ OwnRecord x)
    (h : (s.applied c op clock written entries).store.coreDB.get? x = some v) :
    OrdMap.lastEffect (dataEdits (c.at clock) s.store.coreDB op) x = some (some v) ∨
      OrdMap.lastEffect (dataEdits (c.at clock) s.store.coreDB op) x = none ∧
        s.store.coreDB.get? x = some v := by
  change (s.store.applyOp (c.at clock) op).1.coreDB.get? x = some v at h
  rcases get?_applyOp (c.at clock) s.store op hx with hget | ⟨-, hget⟩
  · rw [hget] at h
    cases hlast : OrdMap.lastEffect (dataEdits (c.at clock) s.store.coreDB op) x with
    | none =>
      rw [hlast] at h
      exact .inr ⟨rfl, h⟩
    | some o =>
      rw [hlast] at h
      exact .inl (congrArg some h)
  · rw [hget] at h
    cases h

theorem lastWrite_applied_of_set
    (h : OrdMap.lastEffect (dataEdits (c.at clock) s.store.coreDB op) (keyRangeStart id) =
      some (some v)) :
    (s.applied c op clock written entries).lastWrite id = some written := by
  simp only [applied, h]

theorem lastWrite_applied_of_kept
    (h : OrdMap.lastEffect (dataEdits (c.at clock) s.store.coreDB op) (keyRangeStart id) = none)
    (hholds : (s.applied c op clock written entries).Holds (keyRangeStart id)) :
    (s.applied c op clock written entries).lastWrite id = s.lastWrite id := by
  obtain ⟨v, hv⟩ := ne_none_iff_exists'.mp hholds
  simp only [applied] at hv
  simp only [applied, h, hv]
  simp

theorem lastWrite_applied_of_gone (hid : DocumentID id)
    (hgone : ¬ (s.applied c op clock written entries).Holds (keyRangeStart id)) :
    (s.applied c op clock written entries).lastWrite id = none ∨
      ¬ s.Holds (keyRangeStart id) ∧
        (s.applied c op clock written entries).lastWrite id = s.lastWrite id := by
  simp only [Holds, not_not, applied] at hgone ⊢
  cases hlast : OrdMap.lastEffect (dataEdits (c.at clock) s.store.coreDB op)
      (keyRangeStart id) with
  | some o =>
    have hget : (s.store.applyOp (c.at clock) op).1.coreDB.get? (keyRangeStart id) = o := by
      rcases get?_applyOp (c.at clock) s.store op hid with hget | ⟨hedits, -⟩
      · rw [hget, hlast, getD_some]
      · rw [hedits] at hlast
        cases hlast
    rw [hget] at hgone
    rw [hgone]
    exact .inl rfl
  | none =>
    rw [hgone]
    cases s.store.coreDB.get? (keyRangeStart id) <;> simp

theorem applied_dated (h : s.Tracked ttlDuration)
    (hmeets : Timely c ttlDuration s (.apply op clock written entries)) {w : WriteTime}
    {timestamp : Nat} (hid : DocumentID id)
    (hholds : (s.applied c op clock written entries).Holds (keyRangeStart id))
    (hw : (s.applied c op clock written entries).lastWrite id = some w)
    (hget : (s.applied c op clock written entries).store.coreDB.get? (documentTimestampKey id) =
      some v)
    (hts : decodedTimestamp v = some timestamp) : timestamp = w.issuer.value := by
  obtain ⟨hraw, hissued⟩ := hmeets
  have hstamped : Stamped op.stamp op.StampsZero op.RawWrite
      (dataEdits (c.at clock) s.store.coreDB op) := edits_stamped fun k hk => (hraw k hk).1
  have hbody : Reapable (keyRangeStart id) := ⟨hid, .inl (hasSuffix_append_pair id 58 0 58 0)⟩
  have hstampCases := applied_present (not_ownRecord_timestampKey hbody) hget
  obtain ⟨b, hb⟩ := ne_none_iff_exists'.mp hholds
  rcases applied_present hid hb with hset | ⟨hnone, hold⟩
  · rw [lastWrite_applied_of_set hset] at hw
    obtain rfl := Option.some.inj hw
    obtain ⟨hstamp, hne⟩ := hissued ⟨id, hid, TTLSystem.leavesValue_of_set hset⟩
    have hnotRaw : ¬ op.RawWrite (keyRangeStart id) := fun hk => by
      have hsuffix := (hasSuffix_append_pair id 58 0 58 0).symm.trans (hraw _ hk).2
      cases hsuffix
    rcases hstampCases with hkey | ⟨huntouched, -⟩
    · obtain ⟨rfl, -⟩ := hstamped.key_of_stamp _ v (set_mem_of_lastEffect hkey)
      cases hts
      exact hstamp
    · -- A write with a timestamp also sets the timestamp key.
      have hsets := hstamped.stamp_of_key _ b hbody hnotRaw hne (set_mem_of_lastEffect hset)
      exact absurd huntouched (lastEffect_ne_none_of_set hsets)
  · rw [lastWrite_applied_of_kept hnone hholds] at hw
    rcases hstampCases with hkey | ⟨-, hkey⟩
    · obtain ⟨-, -, b', hb'⟩ := hstamped.key_of_stamp _ v (set_mem_of_lastEffect hkey)
      exact absurd hnone (lastEffect_ne_none_of_set hb')
    · have hheld : s.Holds (keyRangeStart id) := by
        rw [Holds, hold]
        exact some_ne_none b
      exact h.dated id w v timestamp hid hheld hw hkey hts

theorem applied_tracked (h : s.Tracked ttlDuration)
    (hmeets : Timely c ttlDuration s (.apply op clock written entries)) :
    (s.applied c op clock written entries).Tracked ttlDuration := by
  constructor
  · intro id hid hholds
    obtain ⟨b, hb⟩ := ne_none_iff_exists'.mp hholds
    rcases applied_present hid hb with hset | ⟨hnone, hold⟩
    · rw [lastWrite_applied_of_set hset]
      exact some_ne_none written
    · rw [lastWrite_applied_of_kept hnone hholds]
      refine h.written id hid ?_
      rw [Holds, hold]
      exact some_ne_none b
  · exact fun id w v timestamp hid hholds hw hget hts => applied_dated h hmeets hid hholds hw hget hts
  · intro id w hid hgone hw
    rcases lastWrite_applied_of_gone hid hgone with hlast | ⟨hold, hlast⟩
    · rw [hlast] at hw
      cases hw
    · rw [hlast] at hw
      exact h.expired id w hid hold hw

end Apply

section Cleanup

variable {k x id : Bytes}

theorem mem_pass (hmeets : PassSafe ttlDuration s) :
    k ∈ (persistedBatches s.store ttlDuration s.now).flatten ↔ SelectsDocument ttlDuration s k :=
  mem_persistedBatches fun k hk => (hmeets.bodies k hk).2.1

/-- The scan selects a stored document only after its time: the value of its timestamp and its time
lie on one side of the threshold. -/
theorem spent_of_selects (h : s.Tracked ttlDuration) (hmeets : PassSafe ttlDuration s)
    (hid : DocumentID id) (hselects : SelectsDocument ttlDuration s (keyRangeStart id))
    (hholds : s.Holds (keyRangeStart id)) : s.Spent ttlDuration id := by
  obtain ⟨-, -, v, timestamp, hget, hts, hlt⟩ := hselects
  obtain ⟨w, hw⟩ := ne_none_iff_exists'.mp (h.written id hid hholds)
  have hvalue := h.dated id w v timestamp hid hholds hw hget hts
  have hsame := hmeets.ticks id w hid hholds hw
  have hold := lt_of_lt_expirationThreshold hmeets.clock.1 hlt
  refine ⟨w, hw, ?_⟩
  unfold WriteTime.Separated at hsame
  omega

theorem selects_of_spent (h : s.Tracked ttlDuration) (hmeets : PassSafe ttlDuration s)
    (hid : DocumentID id) (hspent : s.Spent ttlDuration id) (hx : IsDocumentKey id x)
    (hholds : s.Holds x) : SelectsDocument ttlDuration s (keyRangeStart id) := by
  obtain ⟨hbody, hrange, v, timestamp, hget, hts⟩ := hmeets.reached id x hid hspent hx hholds
  obtain ⟨w, hw, hlt⟩ := hspent
  have hvalue := h.dated id w v timestamp hid hbody hw hget hts
  have hsame := hmeets.ticks id w hid hbody hw
  have hmeta : hasPrefix (documentTimestampKey id) metadataPrefix = false := by
    refine Bool.eq_false_iff.mpr fun hpre => ?_
    exact not_ownRecord_documentKey hid (.inr rfl) (.inl (hasPrefix_iff.mp hpre))
  refine ⟨hmeta, hrange, v, timestamp, hget, hts, ?_⟩
  rw [expirationThreshold_eq hmeets.clock.1 hmeets.clock.2]
  unfold WriteTime.Separated at hsame
  omega

theorem documentKey_of_sweeps (h : s.Tracked ttlDuration) (hmeets : PassSafe ttlDuration s)
    (hk : k ∈ (persistedBatches s.store ttlDuration s.now).flatten) (hsweeps : Sweeps k x)
    (hholds : s.Holds x) :
    ∃ id, DocumentID id ∧ s.Spent ttlDuration id ∧ IsDocumentKey id x := by
  have hselects := (mem_pass hmeets).mp hk
  obtain ⟨⟨id, hid, rfl, hbody⟩, -⟩ := hmeets.bodies k hselects
  have hspent := spent_of_selects h hmeets hid hselects hbody
  exact ⟨id, hid, hspent, hmeets.bare id x hid hspent hholds (.inr hsweeps)⟩

theorem eq_of_documentKey {id' : Bytes} (h : IsDocumentKey id x) (h' : IsDocumentKey id' x) :
    id = id' := by
  rcases h with rfl | rfl
  · rcases h' with h' | h'
    · exact keyRangeStart_inj.mp h'
    · exact absurd h' (keyRangeStart_ne_timestampKey id id')
  · rcases h' with h' | h'
    · exact absurd h'.symm (keyRangeStart_ne_timestampKey id' id)
    · exact documentTimestampKey_inj.mp h'

theorem get?_cleaned_of_not_spent (h : s.Tracked ttlDuration) (hmeets : PassSafe ttlDuration s)
    (hid : DocumentID id) (hspent : ¬ s.Spent ttlDuration id) (hx : KeyOfDocument id x) :
    (s.cleaned c ttlDuration).store.coreDB.get? x = s.store.coreDB.get? x := by
  by_cases hholds : s.Holds x
  · refine get?_pass_of_not_sweeps (not_ownRecord_keyOfDocument hid hx) fun k hk hsweeps => ?_
    obtain ⟨id', -, hspent', hx'⟩ := documentKey_of_sweeps h hmeets hk hsweeps hholds
    rcases hx with hx | ⟨-, hother⟩
    · rw [eq_of_documentKey hx hx'] at hspent
      exact hspent hspent'
    · exact hother id' hx'
  · have hnone : s.store.coreDB.get? x = none := not_not.mp hholds
    rw [hnone]
    by_cases hswept : ∃ k ∈ (persistedBatches s.store ttlDuration s.now).flatten, Sweeps k x
    · obtain ⟨k, hk, hsweeps⟩ := hswept
      exact get?_pass_of_sweeps (not_ownRecord_keyOfDocument hid hx)
        (fun k hk => (hmeets.bodies k ((mem_pass hmeets).mp hk)).2.2) hk hsweeps
    · have hsame := get?_pass_of_not_sweeps (c := c) (s := s.store)
        (not_ownRecord_keyOfDocument hid hx) fun k hk hsweeps => hswept ⟨k, hk, hsweeps⟩
      exact hsame.trans hnone

theorem get?_cleaned_of_spent (h : s.Tracked ttlDuration) (hmeets : PassSafe ttlDuration s)
    (hid : DocumentID id) (hspent : s.Spent ttlDuration id) (hx : KeyOfDocument id x) :
    (s.cleaned c ttlDuration).store.coreDB.get? x = none := by
  have howned : ∀ k ∈ (persistedBatches s.store ttlDuration s.now).flatten,
      ownsKey s.store.coreDB k = true :=
    fun k hk => (hmeets.bodies k ((mem_pass hmeets).mp hk)).2.2
  by_cases hholds : s.Holds x
  · have hkey : IsDocumentKey id x := hmeets.bare id x hid hspent hholds (.inl hx)
    have hmem := (mem_pass hmeets).mpr (selects_of_spent h hmeets hid hspent hkey hholds)
    refine get?_pass_of_sweeps (not_ownRecord_documentKey hid hkey) howned hmem ?_
    rcases hkey with rfl | rfl
    · exact mem_deleteRange_iff.mpr ⟨[], (append_nil _).symm, List.Lex.nil⟩
    · exact mem_deleteRange_colon (keyRangeStart id) [116]
  · have hnone : s.store.coreDB.get? x = none := not_not.mp hholds
    by_cases hswept : ∃ k ∈ (persistedBatches s.store ttlDuration s.now).flatten, Sweeps k x
    · obtain ⟨k, hk, hsweeps⟩ := hswept
      exact get?_pass_of_sweeps (not_ownRecord_keyOfDocument hid hx) howned hk hsweeps
    · exact (get?_pass_of_not_sweeps (not_ownRecord_keyOfDocument hid hx)
        fun k hk hsweeps => hswept ⟨k, hk, hsweeps⟩).trans hnone

theorem cleaned_faithful (h : s.Tracked ttlDuration) (hmeets : PassSafe ttlDuration s) :
    CleansFaithfully ttlDuration s (s.cleaned c ttlDuration) := by
  refine ⟨fun id hid hspent => ⟨fun x hx hholds => ?_, fun e he => ?_⟩,
    fun id hid hspent x hx => ?_⟩
  · exact hholds (get?_cleaned_of_spent h hmeets hid hspent hx)
  · obtain ⟨e', he', rfl⟩ := mem_map.mp he
    exact fun hmem => hmeets.unindexed id hid hspent e' he' (mem_of_mem_filter hmem)
  · exact get?_cleaned_of_not_spent h hmeets hid hspent hx

theorem cleaned_tracked (h : s.Tracked ttlDuration) (hmeets : PassSafe ttlDuration s) :
    (s.cleaned c ttlDuration).Tracked ttlDuration := by
  have hbody : ∀ id, KeyOfDocument id (keyRangeStart id) := fun id => .inl (.inl rfl)
  have hstamp : ∀ id, KeyOfDocument id (documentTimestampKey id) := fun id => .inl (.inr rfl)
  have hfresh : ∀ id, DocumentID id → (s.cleaned c ttlDuration).Holds (keyRangeStart id) →
      ¬ s.Spent ttlDuration id := fun id hid hholds hspent =>
    hholds (get?_cleaned_of_spent h hmeets hid hspent (hbody id))
  have hheld : ∀ id, DocumentID id → (s.cleaned c ttlDuration).Holds (keyRangeStart id) →
      s.Holds (keyRangeStart id) := by
    intro id hid hholds
    rwa [Holds, get?_cleaned_of_not_spent h hmeets hid (hfresh id hid hholds) (hbody id)] at hholds
  constructor
  · exact fun id hid hholds => h.written id hid (hheld id hid hholds)
  · intro id w v timestamp hid hholds hw hget
    rw [get?_cleaned_of_not_spent h hmeets hid (hfresh id hid hholds) (hstamp id)] at hget
    exact h.dated id w v timestamp hid (hheld id hid hholds) hw hget
  · intro id w hid hgone hw
    by_cases hspent : s.Spent ttlDuration id
    · obtain ⟨w', hw', hlt⟩ := hspent
      obtain rfl : w' = w := Option.some.inj (hw'.symm.trans hw)
      change w'.wall + ttlDuration < s.now
      omega
    · rw [Holds, get?_cleaned_of_not_spent h hmeets hid hspent (hbody id)] at hgone
      exact h.expired id w hid hgone hw

end Cleanup

theorem step_tracked {ev : ExpiryEvent} (h : s.Tracked ttlDuration)
    (hmeets : Timely c ttlDuration s ev) (hstep : step c ttlDuration s ev = some s') :
    s'.Tracked ttlDuration := by
  cases ev with
  | tick elapsed =>
    cases hstep
    refine ⟨h.written, h.dated, fun id w hid hgone hw => ?_⟩
    have hlt := h.expired id w hid hgone hw
    change w.wall + ttlDuration < s.now + elapsed
    omega
  | apply op clock written entries =>
    cases hstep
    exact applied_tracked h hmeets
  | read id =>
    cases hstep
    exact h
  | cleanup =>
    cases hstep
    exact cleaned_tracked h hmeets

theorem Tracked.reads {id : Bytes} (h : s.Tracked ttlDuration) (hid : DocumentID id)
    (hmeets : Timely c ttlDuration s (.read id)) : ReadsFaithfully c ttlDuration s id := by
  by_cases hholds : s.Holds (keyRangeStart id)
  · obtain ⟨htime, hraw⟩ := hmeets hholds
    obtain ⟨w, hw⟩ := ne_none_iff_exists'.mp (h.written id hid hholds)
    have hlive : s.Live ttlDuration id := ⟨w, hw, htime w hw⟩
    refine ⟨fun _ => ⟨getDocument_unfiltered hraw, ?_⟩, fun hnot => absurd hlive hnot⟩
    exact getDocument_of_stored hholds (isDocumentExpired_of_none hraw)
  · have hnone : s.store.coreDB.get? (keyRangeStart id) = none := not_not.mp hholds
    refine ⟨fun hlive => ?_, fun _ => getDocument_of_not_stored hnone⟩
    obtain ⟨w, hw, hle⟩ := hlive
    have hlt := h.expired id w hid hholds hw
    exact absurd hle (by omega)

end ExpirySystem

/-- Along every run whose events meet the condition, reads return exactly the documents whose time
has not passed since their last write, and cleanup passes remove spent documents with everything
they store and nothing else. -/
theorem expiry_faithful_to_last_write (c : Codec) (ttlDuration : Nat) (r : Range) (schema : Bytes)
    (now : Nat) (entries : List (Bytes × List Bytes)) {es : List ExpiryEvent} {s : ExpirySystem}
    {ev : ExpiryEvent}
    (hrun : Run (ExpirySystem.step c ttlDuration) (Timely c ttlDuration)
      (ExpirySystem.start r schema ttlDuration now entries) es s)
    (hmeets : Timely c ttlDuration s ev) : Faithful c ttlDuration s ev := by
  have htracked : s.Tracked ttlDuration := hrun.invariant
    (fun _ _ _ hmeets hstep h => ExpirySystem.step_tracked h hmeets hstep)
    (ExpirySystem.start_tracked r schema now entries)
  cases ev with
  | read id => exact fun hid => htracked.reads hid hmeets
  | cleanup => exact ExpirySystem.cleaned_faithful htracked hmeets
  | _ => trivial

section Sample

private def emptyObjectText : Bytes := ascii ['\x7b', '\x7d']

/-- A write at the given milliseconds, with the timestamp a metadata node hands out then. -/
private def issuedAt (ms : Nat) : WriteTime := ⟨ms * 1000000, (HLC.new 1).next ms 0⟩

/-- The write of the document `a`. -/
private def writeOfA (written : WriteTime) (entries : List (Bytes × List Bytes)) : ExpiryEvent :=
  .apply (.batch [(ascii ['a'], emptyObjectText)] [] [] .write written.issuer.value)
    (.inOrder written.wall) written entries

/-- A shard of a table with a time to live of one second. -/
private def expiryShard (ms : Nat) (entries : List (Bytes × List Bytes)) : ExpirySystem :=
  .start ⟨[], []⟩ emptyObjectText 1000000000 (ms * 1000000) entries

private def expiryStep : ExpirySystem → ExpiryEvent → Option ExpirySystem :=
  ExpirySystem.step .emptyObject 1000000000

private theorem documentID_a : DocumentID (ascii ['a']) := by
  rintro (h | h | h)
  · exact absurd h (by decide)
  · exact absurd h (by decide)
  · exact absurd h (by decide)

/-- An hour after its time to live has passed, a read still returns the document, and a cleanup
pass leaves it. -/
theorem expired_document_served : ∃ s,
    Run.exec expiryStep (expiryShard 1760000000000 [(ascii ['f'], [])])
      [writeOfA (issuedAt 1760000000000) [(ascii ['f'], [ascii ['a']])], .tick 3601000000000] =
        some s ∧
    s.lastWrite (ascii ['a']) = some (issuedAt 1760000000000) ∧ s.now = 1760003601000000000 ∧
    s.get .emptyObject (ascii ['a']) = .ok [] ∧
    ¬ Faithful .emptyObject 1000000000 s (.read (ascii ['a'])) ∧
    ¬ Faithful .emptyObject 1000000000 s .cleanup := by
  refine ⟨_, rfl, rfl, rfl, rfl, fun h => ?_, fun h => ?_⟩
  · have hmissing := (h documentID_a).2 (by
      rintro ⟨w, hw, hle⟩
      cases hw
      exact absurd hle (by decide))
    cases hmissing
  · have hgone := (h.1 (ascii ['a']) documentID_a ⟨issuedAt 1760000000000, rfl, by decide⟩).1
      (keyRangeStart (ascii ['a'])) (Or.inl (Or.inl rfl))
    refine hgone fun hnone => ?_
    cases hnone

/-- The write of `a` one millisecond after the low 36 bits of the clock have started again. -/
private def earlyWrite : WriteTime := issuedAt 1717986918401

/-- Ten seconds later the document is spent. -/
private def shardOfSpentA : ExpirySystem :=
  (Run.exec expiryStep (expiryShard 1717986918401 []) [writeOfA earlyWrite [],
    .tick 10000000000]).getD (expiryShard 1717986918401 [])

private theorem key_of_holds {x : Bytes} (h : shardOfSpentA.Holds x) :
    DBImpl.IsSavedKey x ∨ IsDocumentKey (ascii ['a']) x := by
  have hkeys : shardOfSpentA.store.coreDB.pdb.entries.map Prod.fst = [byteRangeKey, indexesKey,
      schemaKey, versionKey, keyRangeStart (ascii ['a']), documentTimestampKey (ascii ['a'])] := rfl
  have hx := (shardOfSpentA.store.coreDB.pdb.mem_keys_iff x).mpr h
  rw [hkeys] at hx
  simp only [mem_cons, not_mem_nil, or_false] at hx
  rw [DBImpl.IsSavedKey, IsDocumentKey]
  simp only [mem_cons, not_mem_nil, or_false]
  tauto

/-- The records an opening saves are no timestamps and lie below the document. -/
private theorem savedKey_apart {x : Bytes} (h : DBImpl.IsSavedKey x) :
    ¬ hasSuffix x transactionSuffix = true ∧ ¬ keyRangeStart (ascii ['a']) ≤ x :=
  (by decide : ∀ x ∈ [versionKey, schemaKey, byteRangeKey, indexesKey],
    ¬ hasSuffix x transactionSuffix = true ∧ ¬ keyRangeStart (ascii ['a']) ≤ x) x h

private theorem eq_of_spent {id : Bytes} (h : shardOfSpentA.Spent 1000000000 id) :
    id = ascii ['a'] := by
  obtain ⟨w, hw, -⟩ := h
  by_contra hne
  have hbody : keyRangeStart id ≠ keyRangeStart (ascii ['a']) :=
    fun h => hne (keyRangeStart_inj.mp h)
  have hstamp : keyRangeStart id ≠ documentTimestampKey (ascii ['a']) :=
    keyRangeStart_ne_timestampKey id (ascii ['a'])
  have heffect : OrdMap.lastEffect (dataEdits (Codec.emptyObject.at (.inOrder earlyWrite.wall))
      (expiryShard 1717986918401 []).store.coreDB
      (.batch [(ascii ['a'], emptyObjectText)] [] [] .write earlyWrite.issuer.value))
      (keyRangeStart id) = none := by
    change OrdMap.lastEffect [.set (keyRangeStart (ascii ['a'])) _,
      .set (documentTimestampKey (ascii ['a'])) _] (keyRangeStart id) = none
    simp [OrdMap.lastEffect_cons, OrdMap.Edit.effect, hbody, hstamp]
  have hlast : shardOfSpentA.lastWrite id = none := by
    change ((expiryShard 1717986918401 []).applied .emptyObject (.batch
      [(ascii ['a'], emptyObjectText)] [] [] .write earlyWrite.issuer.value) (.inOrder earlyWrite.wall)
      earlyWrite []).lastWrite id = none
    simp only [ExpirySystem.applied, heffect]
    split <;> rfl
  rw [hlast] at hw
  cases hw

private theorem passSafe_spentA : PassSafe 1000000000 shardOfSpentA where
  clock := by decide
  ticks id w hid hholds hw := by
    have hkey : keyRangeStart id = keyRangeStart (ascii ['a']) := by
      rcases key_of_holds hholds with h | h | h
      · exact absurd (.inl h.metadata) hid
      · exact h
      · exact absurd h (keyRangeStart_ne_timestampKey id (ascii ['a']))
    obtain rfl := keyRangeStart_inj.mp hkey
    cases hw
    rintro (h | h)
    · exact absurd h (by decide)
    · exact absurd h (by decide)
  bodies k hk := by
    obtain ⟨-, -, v, timestamp, hget, -, -⟩ := hk
    have hkey : k = keyRangeStart (ascii ['a']) := by
      have hsuffix := hasSuffix_timestampKey k
      rcases key_of_holds (x := timestampKey k) (fun hnone => by
        rw [hnone] at hget
        cases hget) with h | h | h
      · exact absurd hsuffix (savedKey_apart h).1
      · rw [h] at hsuffix
        exact absurd hsuffix (by decide)
      · exact timestampKey_inj h
    rw [hkey]
    refine ⟨⟨_, documentID_a, rfl, fun hnone => ?_⟩, rfl, rfl⟩
    cases hnone
  reached id x _ hspent _ _ := by
    rw [eq_of_spent hspent]
    refine ⟨fun hnone => ?_, rfl, _, _, rfl, rfl⟩
    cases hnone
  bare id x _ hspent hholds hx := by
    rw [eq_of_spent hspent] at hx ⊢
    rcases key_of_holds hholds with h | h
    · rcases hx with hx | hx
      · exact absurd (.inl h.metadata) (ExpirySystem.not_ownRecord_keyOfDocument documentID_a hx)
      · exact absurd hx.1 (savedKey_apart h).2
    · exact h
  unindexed id _ _ e he := by cases he

private theorem run_spentA : Run (ExpirySystem.step .emptyObject 1000000000)
    (Timely .emptyObject 1000000000) (expiryShard 1717986918401 [])
    [writeOfA earlyWrite [], .tick 10000000000] shardOfSpentA := by
  refine .cons ⟨fun k hk => ?_, fun _ => ⟨rfl, by decide⟩⟩ rfl (.cons trivial rfl (.nil _))
  obtain ⟨hmem, hkind⟩ := hk
  simp only [map_cons, map_nil, mem_singleton, not_mem_nil, or_false] at hmem
  rw [hmem] at hkind
  exact absurd rfl hkind

/-- A cleanup pass over the expired document removes it. -/
theorem expiry_faithful_sample :
    shardOfSpentA.Holds (keyRangeStart (ascii ['a'])) ∧
    Faithful .emptyObject 1000000000 shardOfSpentA .cleanup := by
  constructor
  · intro hnone
    cases hnone
  · exact expiry_faithful_to_last_write .emptyObject 1000000000 ⟨[], []⟩ emptyObjectText
      1717986918401000000 [] run_spentA passSafe_spentA

end Sample

end Antfly
