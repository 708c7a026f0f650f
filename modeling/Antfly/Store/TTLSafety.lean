import Antfly.Lib.Runs
import Antfly.Store.DataFrame

/-!
The two cleaners scan the store, hand their batches to the leader's persist function one by one,
and the proposed batches wait in the proposal queue and in the raft log until they are applied,
possibly together with other mutations.  Writes, transactions and the operations of splits and
merges are applied in between.

A waiting delete is unconditional: it removes whatever its span holds when it is applied.  It
spares what is not expired as long as nothing in the span of a waiting key is written, every write
is dated by a timestamp that is not behind its time, and no span covers a second document or edge.
-/

namespace Antfly

open List Option

inductive Cleaner where
  | documents | edges
  deriving DecidableEq

/-- What is configured: the time to live of the table, and of the edges of every graph index. -/
structure TTLSettings where
  schemaTTL : Option Nat
  indexConfigs : List (Bytes × Nat)

namespace TTLSettings

variable (set : TTLSettings)

/-- The time to live of a stored document or edge. -/
def lifetime (x : Bytes) : Option Nat :=
  if hasSuffix x edgeOutSuffix then set.indexConfigs.lookup (extractIndexName x) else set.schemaTTL

/-- The time to live a cleaner applies to a base key. -/
def applied : Cleaner → Bytes → Option Nat
  | .documents, _ => set.schemaTTL
  | .edges, key =>
    if isEdgeKey key then set.indexConfigs.lookup (extractIndexName key) else none

/-- One pass of a cleaner; it does not run when nothing is configured for it. -/
def scan (db : DBImpl) (now : Nat) : Cleaner → Option (List (List Bytes))
  | .documents => set.schemaTTL.map (cleanupExpiredDocuments db now)
  | .edges =>
    if set.indexConfigs.isEmpty then none else some (cleanupExpiredEdges db set.indexConfigs now)

end TTLSettings

/-- A flush takes the deletes of cleanup batches after its own; every other operation is applied on
its own. -/
def RaftOp.withCleanup (op : RaftOp) (cleanup : List Bytes) : RaftOp :=
  match op with
  | .batch writes deletes transforms syncLevel timestamp =>
    .batch writes (deletes ++ cleanup) transforms syncLevel timestamp
  | op => op

/-- The timestamp an operation writes with. -/
def RaftOp.stamp : RaftOp → Nat
  | .batch _ _ _ _ timestamp => timestamp
  | .resolveIntents op => op.commitVersion
  | _ => 0

/-- The keys a batch writes as they come: an edge or an enrichment given by its storage key. -/
def RaftOp.RawWrite (op : RaftOp) (key : Bytes) : Prop :=
  match op with
  | .batch writes _ transforms _ _ =>
    (key ∈ writes.map Prod.fst ∨ key ∈ transforms.map Transform.key) ∧ writeKind key ≠ .document
  | _ => False

/-- A resolution stores its commit version even when that is zero. -/
def RaftOp.StampsZero : RaftOp → Prop
  | .batch .. => False
  | _ => True

def leavesValue (edits : List PebbleOp) (x : Bytes) : Bool :=
  match OrdMap.lastEffect edits x with
  | some (some _) => true
  | _ => false

/-- A shard, its clock, the two cleaners and the deletes that are on their way. -/
structure TTLSystem where
  store : StoreDB
  now : Nat
  /-- The batches of a scan that have not been proposed. -/
  pass : Cleaner → List (List Bytes)
  /-- The batches that have been proposed and not been applied. -/
  proposed : List (List Bytes)
  /-- The time of the last applied write of a key; no code reads it. -/
  writtenAt : Bytes → Nat

inductive TTLEvent where
  | tick (elapsed : Nat)
  | scan (cleaner : Cleaner)
  | propose (cleaner : Cleaner)
  /-- A proposal that never reaches the log. -/
  | lose (keys : List Bytes)
  /-- An operation of the log whose writes were made at the time `written`.  A flush may also apply
  the cleanup batches `done`, less what its own writes cancel. -/
  | apply (op : RaftOp) (clock : Clock) (written : Nat) (done : List (List Bytes))
      (cleanup : List Bytes)

namespace TTLSystem

/-- A shard as it is opened: what is on disk counts as written at its timestamp, and a key without
one as written now. -/
def start (store : StoreDB) (now : Nat) : TTLSystem where
  store := store
  now := now
  pass _ := []
  proposed := []
  writtenAt x := ((store.coreDB.get? (timestampKey x)).bind decodedTimestamp).getD now

def setPass (s : TTLSystem) (cleaner : Cleaner) (batches : List (List Bytes)) : TTLSystem :=
  { s with pass := fun cl => if cl = cleaner then batches else s.pass cl }

/-- The next batch of a pass is proposed; one that fails the ownership test ends the pass. -/
def propose (s : TTLSystem) (cleaner : Cleaner) : Option TTLSystem :=
  match s.pass cleaner with
  | [] => none
  | keys :: rest =>
    if persistAccepts s.store keys then
      some { s.setPass cleaner rest with proposed := s.proposed ++ [keys] }
    else some (s.setPass cleaner [])

section Step

variable (c : Codec) (set : TTLSettings)

/-- The shard after an operation and the cleanup batches that are flushed with it. -/
def applied (s : TTLSystem) (op : RaftOp) (clock : Clock) (written : Nat)
    (done : List (List Bytes)) (cleanup : List Bytes) : TTLSystem :=
  { s with
    store := (s.store.applyOp (c.at clock) (op.withCleanup cleanup)).1
    proposed := s.proposed.diff done
    writtenAt := fun x =>
      if leavesValue (dataEdits (c.at clock) s.store.coreDB op) x then written else s.writtenAt x }

def step (s : TTLSystem) : TTLEvent → Option TTLSystem
  | .tick elapsed => some { s with now := s.now + elapsed }
  | .scan cleaner => (set.scan s.store.coreDB s.now cleaner).map (s.setPass cleaner)
  | .propose cleaner => s.propose cleaner
  | .lose keys =>
    if keys ∈ s.proposed then some { s with proposed := s.proposed.erase keys } else none
  | .apply op clock written done cleanup =>
    if (∀ keys ∈ done, keys ∈ s.proposed) ∧ ∀ k ∈ cleanup, ∃ keys ∈ done, k ∈ keys then
      some (s.applied c op clock written done cleanup)
    else none

end Step

/-- A delete of `k` is on its way. -/
def Waiting (s : TTLSystem) (k : Bytes) : Prop :=
  (∃ cleaner, ∃ keys ∈ s.pass cleaner, k ∈ keys) ∨ ∃ keys ∈ s.proposed, k ∈ keys

/-- The time to live of the key has passed since its last applied write. -/
def Expired (set : TTLSettings) (s : TTLSystem) (x : Bytes) : Prop :=
  ∃ ttlDuration, set.lifetime x = some ttlDuration ∧ s.writtenAt x + ttlDuration < s.now

end TTLSystem

/-- The delete of `k` covers `x`. -/
def Sweeps (k x : Bytes) : Prop := k ≤ x ∧ x < prefixSuccessor (keyRangeEnd k)

/-- A scan of the cleaner finds `k` overdue by the time to live `ttlDuration`. -/
def Selects (set : TTLSettings) (s : TTLSystem) (cleaner : Cleaner) (k : Bytes)
    (ttlDuration : Nat) : Prop :=
  set.applied cleaner k = some ttlDuration ∧ Overdue s.store.coreDB s.now ttlDuration k

section Safety

variable (c : Codec) (set : TTLSettings)

/-- The cleanup an event applies leaves every document and edge that is not expired with the
content it has without the cleanup. -/
def Spares (s : TTLSystem) : TTLEvent → Prop
  | .apply op clock written done cleanup =>
    ∀ x v, Reapable x → (s.store.applyOp (c.at clock) op).1.coreDB.get? x = some v →
      ¬ (s.applied c op clock written done cleanup).Expired set x →
      (s.applied c op clock written done cleanup).store.coreDB.get? x = some v
  | _ => True

/-- The condition on an event.  A scan runs at a time its threshold does not wrap around, selects
no key whose span covers another stored document or edge, and applies no shorter time to live than
the key has.  An operation writes nothing a waiting delete covers; its timestamp is not behind the
time of the write, unless it has none; and a write without a timestamp, or of a raw edge, finds no
timestamp key. -/
def Meets (s : TTLSystem) : TTLEvent → Prop
  | .scan cleaner =>
    ∀ k ttlDuration, Selects set s cleaner k ttlDuration →
      ttlDuration + ttlGracePeriod ≤ s.now ∧
      (∀ x, Reapable x → s.store.coreDB.get? x ≠ none → Sweeps k x → x = k) ∧
      (Reapable k → ∃ own, set.lifetime k = some own ∧ own ≤ ttlDuration)
  | .apply op clock written _ _ =>
    (op.stamp = 0 ∧ ¬ op.StampsZero ∨ written ≤ op.stamp) ∧
    (∀ k, op.RawWrite k → hasSuffix k transactionSuffix = false) ∧
    ∀ x, Reapable x → leavesValue (dataEdits (c.at clock) s.store.coreDB op) x = true →
      (∀ k, s.Waiting k → ¬ Sweeps k x) ∧
      (written ≤ op.stamp ∧ ¬ op.RawWrite x ∨ s.store.coreDB.get? (timestampKey x) = none)
  | _ => True

end Safety

section Edits

variable {c : Codec} {db : DBImpl} {op : RaftOp}

theorem dataEdits_withCleanup (c : Codec) (db : DBImpl) (op : RaftOp) (cleanup : List Bytes) :
    ∃ tombs, dataEdits c db (op.withCleanup cleanup) = dataEdits c db op ++ tombs ∧
      ∀ e ∈ tombs, ∃ k ∈ cleanup, e = deleteTombstone k := by
  cases op with
  | batch writes deletes transforms syncLevel timestamp =>
    simp only [RaftOp.withCleanup, dataEdits, contentOps]
    cases (flushWrites c db writes transforms).mapM
        (writeOps c db (decide (syncLevel = .internalMergeCopy)) timestamp) with
    | error e => exact ⟨[], rfl, fun e he => absurd he (by simp)⟩
    | ok ws =>
      refine ⟨cleanup.flatMap (deleteOps db (decide (syncLevel = .internalMergeCopy))), ?_, ?_⟩
      · change ws.flatten ++ (deletes ++ cleanup).flatMap _ =
          (ws.flatten ++ deletes.flatMap _) ++ _
        rw [flatMap_append, append_assoc]
      · intro e he
        obtain ⟨k, hk, hek⟩ := mem_flatMap.mp he
        unfold deleteOps at hek
        split at hek
        · exact ⟨k, hk, mem_singleton.mp hek⟩
        · cases hek
  | _ => exact ⟨[], (append_nil _).symm, fun e he => absurd he (by simp)⟩

theorem deleteTombstone_cases (k x : Bytes) :
    (deleteTombstone k).effect x = none ∨
      (deleteTombstone k).effect x = some none ∧ Sweeps k x := by
  simp only [deleteTombstone, OrdMap.Edit.effect]
  split
  · rename_i h
    exact .inr ⟨rfl, h⟩
  · exact .inl rfl

variable {cleanup : List Bytes} {ops : List PebbleOp} {x : Bytes} {v : Stored} {c : Codec}
variable {s : StoreDB} {op : RaftOp}

theorem lastEffect_tombs {tombs : List PebbleOp}
    (htombs : ∀ e ∈ tombs, ∃ k ∈ cleanup, e = deleteTombstone k) (x : Bytes) :
    OrdMap.lastEffect tombs x = none ∨
      OrdMap.lastEffect tombs x = some none ∧ ∃ k ∈ cleanup, Sweeps k x := by
  cases hlast : OrdMap.lastEffect tombs x with
  | none => exact .inl rfl
  | some o =>
    obtain ⟨e, he, hex⟩ := OrdMap.exists_effect_of_lastEffect hlast
    obtain ⟨k, hk, rfl⟩ := htombs e he
    rcases deleteTombstone_cases k x with hnone | ⟨hgone, hcovers⟩
    · rw [hnone] at hex
      cases hex
    · rw [hgone] at hex
      cases hex
      exact .inr ⟨rfl, k, hk, hcovers⟩

theorem edits_stamped (hraw : ∀ k, op.RawWrite k → hasSuffix k transactionSuffix = false) :
    Stamped op.stamp op.StampsZero op.RawWrite (dataEdits c db op) := by
  cases op with
  | batch writes deletes transforms syncLevel timestamp =>
    simp only [dataEdits]
    cases hops : contentOps c db (decide (syncLevel = .internalMergeCopy)) timestamp
        (flushWrites c db writes transforms) deletes with
    | error e => exact .nil
    | ok ops =>
      refine contentOps_stamped (fun w hw hkind => ?_) hops
      have hkey : RaftOp.RawWrite
          (.batch writes deletes transforms syncLevel timestamp) w.1 := by
        refine ⟨?_, hkind⟩
        rcases mem_flushWrites hw with hw | ⟨t, ht, hkey⟩
        · exact .inl (mem_map_of_mem hw)
        · exact .inr (hkey ▸ mem_map_of_mem ht)
      exact ⟨hkey, hraw _ hkey⟩
  | resolveIntents op => exact resolveIntents_stamped op
  | _ => exact .nil

theorem lastEffect_ne_none_of_set (h : OrdMap.Edit.set x v ∈ ops) :
    OrdMap.lastEffect ops x ≠ none := by
  intro hnone
  have heffect := OrdMap.lastEffect_eq_none_iff.mp hnone _ h
  simp [OrdMap.Edit.effect] at heffect

theorem set_mem_of_lastEffect (h : OrdMap.lastEffect ops x = some (some v)) :
    OrdMap.Edit.set x v ∈ ops := by
  obtain ⟨e, he, hex⟩ := OrdMap.exists_effect_of_lastEffect h
  rwa [eq_set_of_effect hex] at he

theorem present_cases (hx : ¬ OwnRecord x)
    (h : (s.applyOp c (op.withCleanup cleanup)).1.coreDB.get? x = some v) :
    OrdMap.lastEffect (dataEdits c s.coreDB op) x = some (some v) ∨
      OrdMap.lastEffect (dataEdits c s.coreDB op) x = none ∧ s.coreDB.get? x = some v := by
  obtain ⟨tombs, hedits, htombs⟩ := dataEdits_withCleanup c s.coreDB op cleanup
  rcases get?_applyOp c s (op.withCleanup cleanup) hx with hget | ⟨-, hget⟩
  · rw [hget, hedits, OrdMap.lastEffect_append] at h
    rcases lastEffect_tombs htombs x with hnone | ⟨hgone, -⟩
    · rw [hnone, none_or] at h
      cases hlast : OrdMap.lastEffect (dataEdits c s.coreDB op) x with
      | none =>
        rw [hlast] at h
        exact .inr ⟨rfl, h⟩
      | some o =>
        rw [hlast] at h
        exact .inl (congrArg some h)
    · rw [hgone] at h
      cases h
  · rw [hget] at h
    cases h

theorem get?_withCleanup (hx : ¬ OwnRecord x) (hcovers : ∀ k ∈ cleanup, ¬ Sweeps k x) :
    (s.applyOp c (op.withCleanup cleanup)).1.coreDB.get? x = (s.applyOp c op).1.coreDB.get? x := by
  cases op with
  | batch writes deletes transforms syncLevel timestamp =>
    obtain ⟨tombs, hedits, htombs⟩ := dataEdits_withCleanup c s.coreDB
      (.batch writes deletes transforms syncLevel timestamp) cleanup
    have hnone : OrdMap.lastEffect tombs x = none := by
      refine (lastEffect_tombs htombs x).resolve_right ?_
      rintro ⟨-, k, hk, h⟩
      exact hcovers k hk h
    refine (get?_flushBatch c s.coreDB hx writes (deletes ++ cleanup) transforms syncLevel
      timestamp).trans ?_
    refine Eq.trans ?_ (get?_flushBatch c s.coreDB hx writes deletes transforms syncLevel
      timestamp).symm
    rw [RaftOp.withCleanup] at hedits
    rw [hedits, OrdMap.lastEffect_append, hnone, none_or]
  | _ => rfl

end Edits

/-- The stored timestamps are not behind the writes they are for, and what a waiting delete would
remove has expired. -/
structure TTLSystem.Sound (set : TTLSettings) (s : TTLSystem) : Prop where
  dated : ∀ x v timestamp, Reapable x → s.store.coreDB.get? x ≠ none →
    s.store.coreDB.get? (timestampKey x) = some v → decodedTimestamp v = some timestamp →
    s.writtenAt x ≤ timestamp
  spent : ∀ k x, s.Waiting k → Reapable x → s.store.coreDB.get? x ≠ none → Sweeps k x →
    s.Expired set x

namespace TTLSystem

variable {c : Codec} {set : TTLSettings} {s s' : TTLSystem}

theorem start_sound (set : TTLSettings) (store : StoreDB) (now : Nat) :
    (start store now).Sound set where
  dated x v timestamp _ _ hget hts := by
    have hvalue : (start store now).writtenAt x = timestamp := by
      change ((store.coreDB.get? (timestampKey x)).bind decodedTimestamp).getD now = timestamp
      change store.coreDB.get? (timestampKey x) = some v at hget
      rw [hget, bind_some, hts, getD_some]
    exact le_of_eq hvalue
  spent k x hwaiting := by
    rcases hwaiting with ⟨cleaner, keys, hkeys, -⟩ | ⟨keys, hkeys, -⟩
    · cases hkeys
    · cases hkeys

/-- A step that applies nothing and lets the clock run keeps the invariant when every key it makes
wait was waiting. -/
theorem Sound.of_waiting (h : s.Sound set) (hstore : s'.store = s.store)
    (hwritten : s'.writtenAt = s.writtenAt) (hnow : s.now ≤ s'.now)
    (hwaiting : ∀ k, s'.Waiting k → s.Waiting k) : s'.Sound set where
  dated := by
    rw [hstore, hwritten]
    exact h.dated
  spent k x hk hx hpresent hsweeps := by
    rw [hstore] at hpresent
    obtain ⟨ttlDuration, hlifetime, hlt⟩ := h.spent k x (hwaiting k hk) hx hpresent hsweeps
    refine ⟨ttlDuration, hlifetime, ?_⟩
    rw [hwritten]
    omega

variable {cleaner : Cleaner} {batches : List (List Bytes)} {k : Bytes}

theorem waiting_setPass (h : (s.setPass cleaner batches).Waiting k) :
    s.Waiting k ∨ ∃ keys ∈ batches, k ∈ keys := by
  rcases h with ⟨cl, keys, hkeys, hk⟩ | h
  · simp only [setPass] at hkeys
    split at hkeys
    · exact .inr ⟨keys, hkeys, hk⟩
    · exact .inl (.inl ⟨cl, keys, hkeys, hk⟩)
  · exact .inl (.inr h)

theorem propose_sound (h : s.Sound set) (hstep : s.propose cleaner = some s') : s'.Sound set := by
  unfold propose at hstep
  split at hstep
  · cases hstep
  · rename_i keys rest hpass
    have hkeys : ∀ k ∈ keys, s.Waiting k := fun k hk =>
      .inl ⟨cleaner, keys, by rw [hpass]; exact mem_cons_self, hk⟩
    split at hstep
    · cases hstep
      refine h.of_waiting rfl rfl le_rfl fun k hk => ?_
      rcases hk with hk | ⟨batch, hbatch, hk⟩
      · rcases waiting_setPass (.inl hk) with hk | ⟨batch, hbatch, hk⟩
        · exact hk
        · refine .inl ⟨cleaner, batch, ?_, hk⟩
          rw [hpass]
          exact mem_cons_of_mem keys hbatch
      · rcases mem_append.mp hbatch with hbatch | hbatch
        · exact .inr ⟨batch, hbatch, hk⟩
        · rw [mem_singleton.mp hbatch] at hk
          exact hkeys k hk
    · cases hstep
      refine h.of_waiting rfl rfl le_rfl fun k hk => ?_
      exact (waiting_setPass hk).resolve_right (by simp)

theorem selects_of_scan {keys : List Bytes}
    (hscan : set.scan s.store.coreDB s.now cleaner = some batches) (hkeys : keys ∈ batches)
    (hk : k ∈ keys) :
    ∃ ttlDuration, Selects set s cleaner k ttlDuration := by
  cases cleaner with
  | documents =>
    obtain ⟨ttlDuration, hset, rfl⟩ := map_eq_some_iff.mp hscan
    exact ⟨ttlDuration, hset, (overdue_of_cleanupExpiredDocuments hkeys hk).2⟩
  | edges =>
    simp only [TTLSettings.scan] at hscan
    split at hscan
    · cases hscan
    · cases hscan
      obtain ⟨hedge, ttlDuration, hlookup, hover⟩ := overdue_of_cleanupExpiredEdges hkeys hk
      refine ⟨ttlDuration, ?_, hover⟩
      rw [TTLSettings.applied, if_pos hedge, hlookup]

theorem expired_of_selects {x : Bytes} {ttlDuration : Nat} (h : s.Sound set)
    (hmeets : Meets c set s (.scan cleaner)) (hselects : Selects set s cleaner k ttlDuration)
    (hx : Reapable x) (hpresent : s.store.coreDB.get? x ≠ none) (hsweeps : Sweeps k x) :
    s.Expired set x := by
  obtain ⟨hnow, honly, hown⟩ := hmeets k ttlDuration hselects
  obtain rfl : x = k := honly x hx hpresent hsweeps
  obtain ⟨own, hlifetime, hle⟩ := hown hx
  obtain ⟨-, -, v, timestamp, hget, hts, hlt⟩ := hselects
  have hdated := h.dated x v timestamp hx hpresent hget hts
  have hold := lt_of_lt_expirationThreshold hnow hlt
  exact ⟨own, hlifetime, by omega⟩

theorem scan_sound (h : s.Sound set) (hmeets : Meets c set s (.scan cleaner))
    (hstep : step c set s (.scan cleaner) = some s') :
    s'.Sound set := by
  obtain ⟨batches, hscan, rfl⟩ := map_eq_some_iff.mp hstep
  refine ⟨h.dated, fun k x hk hx hpresent hsweeps => ?_⟩
  change s.store.coreDB.get? x ≠ none at hpresent
  rcases waiting_setPass hk with hk | ⟨keys, hkeys, hk⟩
  · exact h.spent k x hk hx hpresent hsweeps
  · obtain ⟨ttlDuration, hselects⟩ := selects_of_scan hscan hkeys hk
    have hexpired : s.Expired set x :=
      expired_of_selects h hmeets hselects hx hpresent hsweeps
    exact hexpired

section Apply

variable {op : RaftOp} {clock : Clock} {written : Nat} {done : List (List Bytes)}
  {cleanup : List Bytes}

variable {k x : Bytes} {v : Stored}

theorem waiting_applied (h : (s.applied c op clock written done cleanup).Waiting k) :
    s.Waiting k := by
  rcases h with h | ⟨keys, hkeys, hk⟩
  · exact .inl h
  · exact .inr ⟨keys, diff_subset _ _ hkeys, hk⟩

theorem leavesValue_of_set {ops : List PebbleOp} (h : OrdMap.lastEffect ops x = some (some v)) :
    leavesValue ops x = true := by
  rw [leavesValue, h]

theorem writtenAt_applied_of_none
    (h : OrdMap.lastEffect (dataEdits (c.at clock) s.store.coreDB op) x = none) :
    (s.applied c op clock written done cleanup).writtenAt x = s.writtenAt x := by
  have hleaves : ¬ leavesValue (dataEdits (c.at clock) s.store.coreDB op) x = true := by
    rw [leavesValue, h]
    exact Bool.false_ne_true
  exact if_neg hleaves

theorem applied_dated (h : s.Sound set)
    (hmeets : Meets c set s (.apply op clock written done cleanup)) {timestamp : Nat}
    (hx : Reapable x)
    (hpresent : (s.applied c op clock written done cleanup).store.coreDB.get? x ≠ none)
    (hget : (s.applied c op clock written done cleanup).store.coreDB.get? (timestampKey x) = some v)
    (hts : decodedTimestamp v = some timestamp) :
    (s.applied c op clock written done cleanup).writtenAt x ≤ timestamp := by
  obtain ⟨hstamp, hraw, hwrites⟩ := hmeets
  have hstamped : Stamped op.stamp op.StampsZero op.RawWrite
      (dataEdits (c.at clock) s.store.coreDB op) := edits_stamped hraw
  obtain ⟨w, hw⟩ := ne_none_iff_exists'.mp hpresent
  have hkeyCases := present_cases (not_ownRecord_timestampKey hx) hget
  rcases present_cases hx.1 hw with hset | ⟨hnone, hold⟩
  · have hleaves := leavesValue_of_set hset
    have hwritten : (s.applied c op clock written done cleanup).writtenAt x = written :=
      if_pos hleaves
    rw [hwritten]
    obtain ⟨-, hfound⟩ := hwrites x hx hleaves
    rcases hkeyCases with hkey | ⟨huntouched, hkey⟩
    · obtain ⟨rfl, hzero, -⟩ := hstamped.key_of_stamp x v (set_mem_of_lastEffect hkey)
      cases hts
      rcases hstamp with ⟨hstamp, hnot⟩ | hle
      · rcases hzero with hzero | hzero
        · exact absurd hstamp hzero
        · exact absurd hzero hnot
      · exact hle
    · rcases hfound with ⟨hle, hnotRaw⟩ | habsent
      · -- A timestamped write would have touched the timestamp key.
        have hzero : op.stamp = 0 := by
          by_contra hne
          exact lastEffect_ne_none_of_set
            (hstamped.stamp_of_key x w hx hnotRaw hne (set_mem_of_lastEffect hset)) huntouched
        omega
      · rw [habsent] at hkey
        cases hkey
  · rw [writtenAt_applied_of_none hnone]
    rcases hkeyCases with hkey | ⟨-, hkey⟩
    · obtain ⟨-, -, w', hw'⟩ := hstamped.key_of_stamp x v (set_mem_of_lastEffect hkey)
      exact absurd hnone (lastEffect_ne_none_of_set hw')
    · exact h.dated x v timestamp hx (by rw [hold]; exact some_ne_none w) hkey hts

theorem applied_spent (h : s.Sound set)
    (hmeets : Meets c set s (.apply op clock written done cleanup))
    {k x : Bytes} {v : Stored} (hk : s.Waiting k) (hx : Reapable x) (hsweeps : Sweeps k x)
    (hvalue : OrdMap.lastEffect (dataEdits (c.at clock) s.store.coreDB op) x = some (some v) ∨
      OrdMap.lastEffect (dataEdits (c.at clock) s.store.coreDB op) x = none ∧
        s.store.coreDB.get? x = some v) :
    (s.applied c op clock written done cleanup).Expired set x := by
  obtain ⟨-, -, hwrites⟩ := hmeets
  rcases hvalue with hset | ⟨hnone, hold⟩
  · exact absurd hsweeps ((hwrites x hx (leavesValue_of_set hset)).1 k hk)
  · obtain ⟨ttlDuration, hlifetime, hlt⟩ :=
      h.spent k x hk hx (by rw [hold]; exact some_ne_none v) hsweeps
    refine ⟨ttlDuration, hlifetime, ?_⟩
    rw [writtenAt_applied_of_none hnone]
    exact hlt

theorem applied_sound (h : s.Sound set)
    (hmeets : Meets c set s (.apply op clock written done cleanup)) :
    (s.applied c op clock written done cleanup).Sound set where
  dated _ _ _ hx hpresent hget hts := applied_dated h hmeets hx hpresent hget hts
  spent k x hk hx hpresent hsweeps := by
    obtain ⟨v, hv⟩ := ne_none_iff_exists'.mp hpresent
    exact applied_spent h hmeets (waiting_applied hk) hx hsweeps (present_cases hx.1 hv)

end Apply

theorem step_sound {ev : TTLEvent} (h : s.Sound set) (hmeets : Meets c set s ev)
    (hstep : step c set s ev = some s') : s'.Sound set := by
  cases ev with
  | tick elapsed =>
    cases hstep
    exact h.of_waiting rfl rfl (Nat.le_add_right _ _) fun k hk => hk
  | scan cleaner => exact scan_sound h hmeets hstep
  | propose cleaner => exact propose_sound h hstep
  | lose keys =>
    simp only [step] at hstep
    split at hstep
    · cases hstep
      refine h.of_waiting rfl rfl le_rfl fun k hk => ?_
      rcases hk with hk | ⟨batch, hbatch, hk⟩
      · exact .inl hk
      · exact .inr ⟨batch, mem_of_mem_erase hbatch, hk⟩
    · cases hstep
  | apply op clock written done cleanup =>
    simp only [step] at hstep
    split at hstep
    · cases hstep
      exact applied_sound h hmeets
    · cases hstep

theorem Sound.spares {ev : TTLEvent} (h : s.Sound set) (hmeets : Meets c set s ev)
    (hstep : step c set s ev = some s') : Spares c set s ev := by
  cases ev with
  | apply op clock written done cleanup =>
    intro x v hx hv hfresh
    simp only [step] at hstep
    split at hstep
    · rename_i hguard
      obtain ⟨hdone, hcleanup⟩ := hguard
      have hnot : ∀ k ∈ cleanup, ¬ Sweeps k x := by
        intro k hk hsweeps
        obtain ⟨keys, hkeys, hk⟩ := hcleanup k hk
        have hwaiting : s.Waiting k := .inr ⟨keys, hdone keys hkeys, hk⟩
        have halone : (s.store.applyOp (c.at clock) (op.withCleanup [])).1.coreDB.get? x =
            some v := (get?_withCleanup hx.1 (by simp)).trans hv
        exact hfresh (applied_spent h hmeets hwaiting hx hsweeps (present_cases hx.1 halone))
      exact (get?_withCleanup hx.1 hnot).trans hv
    · cases hstep
  | _ => trivial

end TTLSystem

/-- Cleanup never deletes fresh data: along every run whose events meet the condition, an event
that applies a cleanup leaves every document and edge that has not expired with the content its
last write gave it. -/
theorem cleanup_spares_fresh (c : Codec) (set : TTLSettings) (store : StoreDB) (now : Nat)
    {es : List TTLEvent} {s s' : TTLSystem} {ev : TTLEvent}
    (hrun : Run (TTLSystem.step c set) (Meets c set) (TTLSystem.start store now) es s)
    (hmeets : Meets c set s ev) (hstep : TTLSystem.step c set s ev = some s') :
    Spares c set s ev := by
  have hsound : s.Sound set := hrun.invariant
    (fun _ _ _ hmeets hstep h => TTLSystem.step_sound h hmeets hstep)
    (TTLSystem.start_sound set store now)
  exact hsound.spares hmeets hstep

section Sample

/-- A table whose documents live for one nanosecond. -/
private def oneNanosecond : TTLSettings := ⟨some 1, []⟩

private def emptyDocument : Bytes := ascii ['\x7b', '\x7d']

private def writeDocument (id : Bytes) (now : Nat) : TTLEvent :=
  .apply (.batch [(id, emptyDocument)] [] [] .write now) (.inOrder now) now [] []

/-- The cleanup batch of the document `a` alone. -/
private def cleanupA : TTLEvent :=
  .apply (.batch [] [] [] .propose 0) (.inOrder 10000000000) 0 [[keyRangeStart (ascii ['a'])]]
    [keyRangeStart (ascii ['a'])]

private def emptyShard : TTLSystem := .start (StoreDB.create ⟨[], []⟩) 0

private def stepSample : TTLSystem → TTLEvent → Option TTLSystem :=
  TTLSystem.step .emptyObject oneNanosecond

/-- A document that is expired when the cleaner scans it, and is written again before the delete is
applied, is deleted with its fresh content. -/
theorem rewritten_document_deleted : ∃ s s',
    Run.exec stepSample emptyShard
      [writeDocument (ascii ['a']) 1, .tick 10000000000, .scan .documents, .propose .documents,
        writeDocument (ascii ['a']) 10000000000] = some s ∧
    stepSample s cleanupA = some s' ∧ s.writtenAt (keyRangeStart (ascii ['a'])) = s.now ∧
    s.store.coreDB.get? (keyRangeStart (ascii ['a'])) = some (.zstd emptyDocument) ∧
    s'.store.coreDB.get? (keyRangeStart (ascii ['a'])) = none ∧
    ¬ Spares .emptyObject oneNanosecond s cleanupA := by
  refine ⟨_, _, rfl, rfl, rfl, rfl, rfl, fun h => ?_⟩
  have hreapable : Reapable (keyRangeStart (ascii ['a'])) := by
    refine ⟨?_, Or.inl (by decide)⟩
    rintro (h | h | h)
    · exact absurd h (by decide)
    · exact absurd h (by decide)
    · exact absurd h (by decide)
  have hkept := h _ (.zstd emptyDocument) hreapable rfl (by
    rintro ⟨ttlDuration, hlifetime, hlt⟩
    cases hlifetime
    exact absurd hlt (by decide))
  cases hkept

private theorem meets_writeDocument {id : Bytes} {now : Nat} {s : TTLSystem}
    (hkind : writeKind id = .document)
    (hedits : dataEdits (Codec.emptyObject.at (.inOrder now)) s.store.coreDB
      (.batch [(id, emptyDocument)] [] [] .write now) = documentOps id emptyDocument now)
    (hwaiting : ∀ k, s.Waiting k → ¬ Sweeps k (keyRangeStart id)) :
    Meets .emptyObject oneNanosecond s (writeDocument id now) := by
  have hraw : ∀ k, ¬ RaftOp.RawWrite (.batch [(id, emptyDocument)] [] [] .write now) k := by
    rintro k ⟨hk | hk, hnot⟩
    · rw [mem_singleton.mp hk] at hnot
      exact hnot hkind
    · cases hk
  refine ⟨.inr (le_refl now), fun k hk => absurd hk (hraw k), fun x hx hleaves => ?_⟩
  rw [hedits] at hleaves
  obtain ⟨v, hv⟩ : ∃ v, OrdMap.lastEffect (documentOps id emptyDocument now) x = some (some v) := by
    unfold leavesValue at hleaves
    split at hleaves
    · rename_i v hv
      exact ⟨v, hv⟩
    · cases hleaves
  have hkey : x = keyRangeStart id := by
    rcases mem_cons.mp (set_mem_of_lastEffect hv) with heq | hmem
    · cases heq
      rfl
    · unfold timestampOps at hmem
      split at hmem
      · cases mem_singleton.mp hmem
        exact absurd hx (not_reapable_timestampKey _)
      · cases hmem
  rw [hkey]
  exact ⟨hwaiting, .inl ⟨le_refl now, hraw _⟩⟩

private theorem mem_entries_of_get? {db : DBImpl} {x : Bytes} {v : Stored}
    (h : db.get? x = some v) : x ∈ db.pdb.entries.map Prod.fst :=
  (db.pdb.mem_keys_iff x).mpr (ne_none_iff_exists'.mpr ⟨v, h⟩)

private theorem meets_scan {s : TTLSystem} (hnow : s.now = 10000000000)
    (hkeys : s.store.coreDB.pdb.entries.map Prod.fst = [byteRangeKey, indexesKey, versionKey,
      keyRangeStart (ascii ['a']), timestampKey (keyRangeStart (ascii ['a']))]) :
    Meets .emptyObject oneNanosecond s (.scan .documents) := by
  rintro k ttlDuration ⟨hset, -, v, timestamp, hget, -, -⟩
  obtain rfl : 1 = ttlDuration := Option.some.inj hset
  have hk : k = keyRangeStart (ascii ['a']) := by
    have hmem := mem_entries_of_get? hget
    have hsuffix := hasSuffix_timestampKey k
    rw [hkeys] at hmem
    simp only [mem_cons, not_mem_nil, or_false] at hmem
    rcases hmem with h | h | h | h | h
    · rw [h] at hsuffix
      exact absurd hsuffix (by decide)
    · rw [h] at hsuffix
      exact absurd hsuffix (by decide)
    · rw [h] at hsuffix
      exact absurd hsuffix (by decide)
    · rw [h] at hsuffix
      exact absurd hsuffix (by decide)
    · exact timestampKey_inj h
  subst hk
  refine ⟨by rw [hnow]; decide, fun x hx hpresent _ => ?_, fun _ => ⟨1, by decide, le_refl 1⟩⟩
  obtain ⟨w, hw⟩ := ne_none_iff_exists'.mp hpresent
  have hmem := mem_entries_of_get? hw
  rw [hkeys] at hmem
  simp only [mem_cons, not_mem_nil, or_false] at hmem
  rcases hmem with rfl | rfl | rfl | rfl | rfl
  · exact absurd (.inl (prefix_append _ _)) hx.1
  · exact absurd (.inl (prefix_append _ _)) hx.1
  · exact absurd (.inl (prefix_append _ _)) hx.1
  · rfl
  · exact absurd hx (not_reapable_timestampKey _)

/-- The shard after the write of `a`, the scan that finds it expired, the proposal of its cleanup
and the write of `b`. -/
private def cleanupOnItsWay : TTLSystem :=
  (Run.exec stepSample emptyShard [writeDocument (ascii ['a']) 1, .tick 10000000000,
    .scan .documents, .propose .documents, writeDocument (ascii ['b']) 10000000000]).getD emptyShard

private theorem run_cleanupOnItsWay :
    Run stepSample (Meets .emptyObject oneNanosecond) emptyShard
      [writeDocument (ascii ['a']) 1, .tick 10000000000, .scan .documents, .propose .documents,
        writeDocument (ascii ['b']) 10000000000] cleanupOnItsWay := by
  refine .cons ?_ rfl (.cons trivial rfl (.cons ?_ rfl (.cons trivial rfl (.cons ?_ rfl (.nil _)))))
  · refine meets_writeDocument (by decide) rfl ?_
    rintro k (⟨cleaner, keys, hkeys, -⟩ | ⟨keys, hkeys, -⟩)
    · cases hkeys
    · cases hkeys
  · exact meets_scan rfl rfl
  · refine meets_writeDocument (by decide) rfl ?_
    rintro k (⟨_ | _, keys, hkeys, -⟩ | ⟨keys, hkeys, hk⟩)
    · cases hkeys
    · cases hkeys
    · have hkeys' : keys ∈ [[keyRangeStart (ascii ['a'])]] := hkeys
      rw [mem_singleton.mp hkeys'] at hk
      rw [mem_singleton.mp hk]
      rintro ⟨-, hlt⟩
      exact absurd hlt (by decide)

/-- The cleanup of the expired document `a` leaves the document `b`, which was written after the
scan. -/
theorem cleanup_spares_fresh_document : ∃ s',
    stepSample cleanupOnItsWay cleanupA = some s' ∧
    cleanupOnItsWay.store.coreDB.get? (keyRangeStart (ascii ['a'])) = some (.zstd emptyDocument) ∧
    s'.store.coreDB.get? (keyRangeStart (ascii ['a'])) = none ∧
    s'.store.coreDB.get? (keyRangeStart (ascii ['b'])) = some (.zstd emptyDocument) ∧
    Spares .emptyObject oneNanosecond cleanupOnItsWay cleanupA := by
  refine ⟨_, rfl, rfl, rfl, rfl, ?_⟩
  refine cleanup_spares_fresh .emptyObject oneNanosecond (StoreDB.create ⟨[], []⟩) 0
    run_cleanupOnItsWay ⟨Or.inl ⟨rfl, not_false⟩, fun k hk => ?_, fun x _ hleaves => ?_⟩ rfl
  · rcases hk.1 with h | h
    · cases h
    · cases h
  · cases hleaves

end Sample

end Antfly
