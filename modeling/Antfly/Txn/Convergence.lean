import Antfly.Lib.LastWriter
import Antfly.Store.Resolution

/-!
Several transactions have left intents on a shard and all of them committed.  Their resolutions
reach the shard in some order, each possibly more than once, and the document of every key should
end up as the transaction with the highest commit version left it.

Writes are guarded by the stored version, so write intents alone behave like guarded writes of a
register.  A delete is a range tombstone that ignores versions and removes the stored one.  The
documents converge as long as no tombstone covers a document that another transaction writes.
-/

namespace Antfly

open LastWriter List

structure CommittedSet (T : List ResolveIntentsOp) : Prop where
  committed : ∀ o ∈ T, o.status = .committed
  uuid : ∀ o ∈ T, o.txnID.length = uuidLen
  ids : ∀ o ∈ T, ∀ o' ∈ T, o.txnID = o'.txnID → o = o'
  versions : ∀ o ∈ T, ∀ o' ∈ T, o.commitVersion = o'.commitVersion → o = o'

/-- What an intent on `k` leaves of the document when it commits with version `v`. -/
def outcome (c : Codec) (db : DBImpl) (k : Bytes) (i : TxnIntent) (v : ℕ) : DocState :=
  if i.isDelete then .absent
  else ⟨some (.zstd (committedBody c db k i.value)), some (.uint64 v)⟩

/-- A tombstone of a transaction of `T` covers the document `k`. -/
def CoveredBy (db : DBImpl) (T : List ResolveIntentsOp) (k : Bytes) : Prop :=
  ∃ o ∈ T, ∃ u i, IntentOn db o.txnID u i ∧ i.isDelete = true ∧ Covers u k

open Classical in
/-- The documents of `db'` are what the transactions of `T`, whose intents `db` holds, make of the
documents of `db`: each document with an intent is the outcome of its newest intent. -/
structure LastWriterWins (c : Codec) (db : DBImpl) (T : List ResolveIntentsOp) (db' : DBImpl) :
    Prop where
  newest : ∀ k, ∀ o ∈ T, ∀ i, IntentOn db o.txnID k i →
    (∀ o' ∈ T, ∀ i', IntentOn db o'.txnID k i' → o'.commitVersion ≤ o.commitVersion) →
    docState db' k = outcome c db k i o.commitVersion
  others : ∀ k, UserKey k → (∀ o ∈ T, ∀ i, ¬ IntentOn db o.txnID k i) →
    docState db' k = if CoveredBy db T k then .absent else docState db k

/-- The intents of `T` on `db` converge: they are on ordinary documents, every write has a value, a
stored body does not depend on stored edges, the newest write of a document is newer than the
document, and a transaction whose tombstone covers a document that some transaction writes is itself
the newest writer of it, with the tombstone's id before the document's. -/
structure Convergent (c : Codec) (db : DBImpl) (T : List ResolveIntentsOp) : Prop where
  ordinary : ∀ o ∈ T, OrdinaryIntents db o.txnID
  values : ∀ o ∈ T, ∀ k i, IntentOn db o.txnID k i → i.isDelete = false → i.value ≠ []
  bodies : ∀ o ∈ T, ∀ k i, IntentOn db o.txnID k i → i.isDelete = false → ∀ pdb,
    committedBody c { db with pdb } k i.value = committedBody c db k i.value
  newer : ∀ o ∈ T, ∀ k i, IntentOn db o.txnID k i → i.isDelete = false →
    (∀ o' ∈ T, ∀ i', IntentOn db o'.txnID k i' → o'.commitVersion ≤ o.commitVersion) →
    (docState db k).version c < WithBot.some o.commitVersion
  tombstones : ∀ o ∈ T, ∀ u i, IntentOn db o.txnID u i → i.isDelete = true →
    ∀ o' ∈ T, ∀ k i', IntentOn db o'.txnID k i' → i'.isDelete = false → Covers u k →
    u < k ∧ (∃ j, IntentOn db o.txnID k j ∧ j.isDelete = false) ∧
      o'.commitVersion ≤ o.commitVersion

section Run

variable {c : Codec} {db d : DBImpl} {T done : List ResolveIntentsOp} {o : ResolveIntentsOp}

/-- After the resolutions `done`, the store differs from `db` in its content only, and holds the
intents of the transactions that are not yet resolved. -/
structure ResolvedUpTo (db : DBImpl) (T done : List ResolveIntentsOp) (d : DBImpl) : Prop where
  frame : ∃ pdb, d = { db with pdb }
  intents : ∀ o ∈ T, ∀ u i, IntentOn d o.txnID u i ↔ IntentOn db o.txnID u i ∧ o ∉ done

namespace ResolvedUpTo

theorem start (db : DBImpl) (T : List ResolveIntentsOp) : ResolvedUpTo db T [] db :=
  ⟨⟨db.pdb, rfl⟩, fun o _ u i => by simp⟩

theorem ordinary (h : ResolvedUpTo db T done d) (hconv : Convergent c db T) (ho : o ∈ T) :
    OrdinaryIntents d o.txnID :=
  fun u i hon => hconv.ordinary o ho u i ((h.intents o ho u i).mp hon).1

theorem step (h : ResolvedUpTo db T done d) (hT : CommittedSet T) (hconv : Convergent c db T)
    (ho : o ∈ T) : ResolvedUpTo db T (done ++ [o]) (resolveIntents c d o) := by
  refine ⟨?_, fun o' ho' u i => ?_⟩
  · obtain ⟨pdb, hd⟩ := h.frame
    rw [hd]
    exact ⟨_, rfl⟩
  · rw [mem_append, mem_singleton, not_or]
    by_cases heq : o' = o
    · subst heq
      have hgone : ¬ IntentOn (resolveIntents c d o') o'.txnID u i :=
        not_intentOn_resolve (hT.uuid o' ho')
      simp [hgone]
    · have hne : o'.txnID ≠ o.txnID := fun hid => heq (hT.ids o' ho' o ho hid)
      rw [intentOn_resolve_of_ne (hT.uuid o ho) (hT.uuid o' ho') hne (h.ordinary hconv ho),
        h.intents o' ho']
      simp [heq]

theorem not_intentOn (h : ResolvedUpTo db T done d) (ho : o ∈ T) (hdone : o ∈ done) (u : Bytes)
    (i : TxnIntent) : ¬ IntentOn d o.txnID u i :=
  fun hon => ((h.intents o ho u i).mp hon).2 hdone

theorem committedBody_eq (h : ResolvedUpTo db T done d) (hconv : Convergent c db T) (ho : o ∈ T)
    {k : Bytes} {i : TxnIntent} (hon : IntentOn db o.txnID k i) (hwrite : i.isDelete = false) :
    committedBody c d k i.value = committedBody c db k i.value := by
  obtain ⟨pdb, hd⟩ := h.frame
  rw [hd]
  exact hconv.bodies o ho k i hon hwrite pdb

end ResolvedUpTo

/-- The register write of a transaction on document `k`. -/
def registerWrite (c : Codec) (db : DBImpl) (k : Bytes) (o : ResolveIntentsOp) :
    Option DocState :=
  match db.get? (makeIntentKey o.txnID k) with
  | some (.txnIntent i) =>
    if i.isDelete then none
    else some ⟨some (.zstd (committedBody c db k i.value)), some (.uint64 o.commitVersion)⟩
  | _ => none

def register (c : Codec) (db : DBImpl) (k : Bytes) (done : List ResolveIntentsOp) : DocState :=
  (done.filterMap (registerWrite c db k)).foldl (later (DocState.version c)) (docState db k)

variable {k : Bytes} {w : DocState} {i : TxnIntent}

theorem registerWrite_eq_some :
    registerWrite c db k o = some w ↔ ∃ i, IntentOn db o.txnID k i ∧ i.isDelete = false ∧
      w = ⟨some (.zstd (committedBody c db k i.value)), some (.uint64 o.commitVersion)⟩ := by
  unfold registerWrite IntentOn
  constructor
  · intro h
    split at h
    · rename_i i hi
      split at h
      · cases h
      · rename_i hdel
        cases h
        exact ⟨i, hi, by simpa using hdel, rfl⟩
    · cases h
  · rintro ⟨i, hi, hdel, rfl⟩
    simp [hi, hdel]

theorem version_of_registerWrite (h : registerWrite c db k o = some w) :
    w.version c = WithBot.some o.commitVersion := by
  obtain ⟨i, -, -, rfl⟩ := registerWrite_eq_some.mp h
  rfl

theorem le_version_register (hdone : o ∈ done) (h : registerWrite c db k o = some w) :
    w.version c ≤ (register c db k done).version c :=
  version_le_foldl_later _ (mem_cons_of_mem _ (mem_filterMap.mpr ⟨o, hdone, h⟩))

theorem version_register_lt (hT : CommittedSet T) (hconv : Convergent c db T) (ho : o ∈ T)
    (hon : IntentOn db o.txnID k i) (hwrite : i.isDelete = false)
    (hmax : ∀ o' ∈ T, ∀ i', IntentOn db o'.txnID k i' → o'.commitVersion ≤ o.commitVersion)
    (hsub : ∀ o' ∈ done, o' ∈ T) (hnot : o ∉ done) :
    (register c db k done).version c < WithBot.some o.commitVersion := by
  rcases mem_cons.mp (foldl_later_mem (DocState.version c) (docState db k)
    (done.filterMap (registerWrite c db k))) with h | h
  · rw [register, h]
    exact hconv.newer o ho k i hon hwrite hmax
  · obtain ⟨o', hdone, hw⟩ := mem_filterMap.mp h
    rw [register, version_of_registerWrite hw, WithBot.coe_lt_coe]
    obtain ⟨i', hon', -, -⟩ := registerWrite_eq_some.mp hw
    have hle := hmax o' (hsub o' hdone) i' hon'
    have hne : o'.commitVersion ≠ o.commitVersion := by
      intro heq
      exact hnot (hT.versions o' (hsub o' hdone) o ho heq ▸ hdone)
    omega

theorem Convergent.no_delete (hconv : Convergent c db T) {o o' : ResolveIntentsOp}
    {i' : TxnIntent} (ho : o ∈ T) (hon : IntentOn db o.txnID k i) (hwrite : i.isDelete = false)
    (ho' : o' ∈ T) (hon' : IntentOn db o'.txnID k i') :
    i'.isDelete = false := by
  cases hdel : i'.isDelete with
  | false => rfl
  | true =>
    have h := hconv.tombstones o' ho' k i' hon' hdel o ho k i hon hwrite (covers_self k)
    exact absurd h.1 (lt_irrefl k)

theorem register_append (k : Bytes) (done : List ResolveIntentsOp) (o : ResolveIntentsOp) :
    register c db k (done ++ [o]) = match registerWrite c db k o with
      | some w => later (DocState.version c) (register c db k done) w
      | none => register c db k done := by
  unfold register
  rw [filterMap_append, foldl_append]
  cases h : registerWrite c db k o with
  | none => simp [h]
  | some w => simp [h]

theorem docState_step_register {w : ResolveIntentsOp} {j : TxnIntent} (hT : CommittedSet T)
    (hconv : Convergent c db T) (hw : w ∈ T) (hwon : IntentOn db w.txnID k j)
    (hjw : j.isDelete = false) (hsub : ∀ o' ∈ done, o' ∈ T) (h : ResolvedUpTo db T done d)
    (hreg : docState d k = register c db k done) (ho : o ∈ T) :
    docState (resolveIntents c d o) k = register c db k (done ++ [o]) := by
  have hk : UserKey k := hconv.ordinary w hw k j hwon
  have hord := h.ordinary hconv ho
  rw [register_append]
  by_cases hdone : o ∈ done
  · -- A repeated resolution finds no intents, and a repeated write is not newer.
    have hsame : docState (resolveIntents c d o) k = docState d k :=
      docState_resolve_untouched (hT.uuid o ho) hord hk
        (fun u i hon _ => absurd hon (h.not_intentOn ho hdone u i))
        (fun i hon _ => absurd hon (h.not_intentOn ho hdone k i))
    rw [hsame, hreg]
    cases hwrite : registerWrite c db k o with
    | none => rfl
    | some s => exact (later_of_le (le_version_register hdone hwrite)).symm
  · have hfresh : ∀ u i, IntentOn d o.txnID u i ↔ IntentOn db o.txnID u i := by
      intro u i
      rw [h.intents o ho]
      simp [hdone]
    cases hwrite : registerWrite c db k o with
    | none =>
      have hnowrite : ∀ i, IntentOn db o.txnID k i → i.isDelete ≠ false := by
        intro i hon hdel
        have hsome := registerWrite_eq_some (c := c).mpr ⟨i, hon, hdel, rfl⟩
        rw [hwrite] at hsome
        cases hsome
      rw [← hreg]
      refine docState_resolve_untouched (hT.uuid o ho) hord hk ?_ ?_
      · intro u i hon hdel hcov
        obtain ⟨-, ⟨i', hon', hdel'⟩, -⟩ := hconv.tombstones o ho u i ((hfresh u i).mp hon) hdel
          w hw k j hwon hjw hcov
        exact hnowrite i' hon' hdel'
      · intro i hon hdel
        exact absurd hdel (hnowrite i ((hfresh k i).mp hon))
    | some s =>
      obtain ⟨i, hon, hdel, rfl⟩ := registerWrite_eq_some.mp hwrite
      dsimp only
      by_cases hlt : (docState d k).version c < WithBot.some o.commitVersion
      · rw [later_of_lt (by rw [← hreg]; exact hlt)]
        rw [← h.committedBody_eq hconv ho hon hdel]
        refine docState_resolve_written (hT.uuid o ho) (hT.committed o ho) hord hk
          ((hfresh k i).mpr hon) hdel (hconv.values o ho k i hon hdel) hlt fun u i' hon' hdel' hcov => ?_
        exact (hconv.tombstones o ho u i' ((hfresh u i').mp hon') hdel' o ho k i hon hdel hcov).1
      · rw [later_of_le (by rw [← hreg]; exact not_lt.mp hlt), ← hreg]
        refine docState_resolve_untouched (hT.uuid o ho) hord hk ?_ fun _ _ _ => hlt
        -- A covering transaction is the newest writer, so its write would have been newer.
        intro u i' hon' hdel' hcov
        have hmax : ∀ o' ∈ T, ∀ i'', IntentOn db o'.txnID k i'' →
            o'.commitVersion ≤ o.commitVersion := by
          intro o' ho' i'' hon''
          have hdel'' := hconv.no_delete ho hon hdel ho' hon''
          exact (hconv.tombstones o ho u i' ((hfresh u i').mp hon') hdel' o' ho' k i'' hon''
            hdel'' hcov).2.2
        rw [hreg] at hlt
        exact hlt (version_register_lt hT hconv ho hon hdel hmax hsub hdone)

open Classical in
theorem docState_step_unwritten (hT : CommittedSet T) (hconv : Convergent c db T) (hk : UserKey k)
    (hno : ∀ o ∈ T, ∀ i, IntentOn db o.txnID k i → i.isDelete = true)
    (h : ResolvedUpTo db T done d)
    (hdoc : docState d k = if CoveredBy db done k then .absent else docState db k) (ho : o ∈ T) :
    docState (resolveIntents c d o) k =
      if CoveredBy db (done ++ [o]) k then .absent else docState db k := by
  have hord := h.ordinary hconv ho
  have hno' : ∀ i, IntentOn d o.txnID k i → i.isDelete = true :=
    fun i hon => hno o ho i ((h.intents o ho k i).mp hon).1
  have happend : CoveredBy db (done ++ [o]) k ↔ CoveredBy db done k ∨ CoveredBy db [o] k := by
    simp only [CoveredBy, mem_append, mem_singleton, or_and_right, exists_or]
  by_cases hcov : ∃ u i, IntentOn d o.txnID u i ∧ i.isDelete = true ∧ Covers u k
  · obtain ⟨u, i, hon, hdel, hu⟩ := hcov
    have hnow : CoveredBy db [o] k :=
      ⟨o, mem_singleton_self o, u, i, ((h.intents o ho u i).mp hon).1, hdel, hu⟩
    rw [if_pos (happend.mpr (.inr hnow))]
    exact docState_resolve_deleted (hT.uuid o ho) (hT.committed o ho) hord hk hno' hon hdel hu
  · have hsame : docState (resolveIntents c d o) k = docState d k := by
      refine docState_resolve_untouched (hT.uuid o ho) hord hk ?_ ?_
      · intro u i hon hdel hu
        exact hcov ⟨u, i, hon, hdel, hu⟩
      · intro i hon hwrite
        rw [hno' i hon] at hwrite
        cases hwrite
    have hiff : CoveredBy db (done ++ [o]) k ↔ CoveredBy db done k := by
      rw [happend]
      refine ⟨fun hor => hor.elim id ?_, .inl⟩
      rintro ⟨o', ho', u, i, hon, hdel, hu⟩
      obtain rfl := mem_singleton.mp ho'
      by_contra hnot
      have hdone : o' ∉ done := fun hmem => hnot ⟨o', hmem, u, i, hon, hdel, hu⟩
      exact hcov ⟨u, i, (h.intents o' ho u i).mpr ⟨hon, hdone⟩, hdel, hu⟩
    rw [hsame, hdoc]
    simp only [hiff]

open Classical in
/-- What holds of the store after the resolutions `done`. -/
structure Converging (c : Codec) (db : DBImpl) (T done : List ResolveIntentsOp) (d : DBImpl) :
    Prop where
  subset : ∀ o ∈ done, o ∈ T
  resolved : ResolvedUpTo db T done d
  written : ∀ k, ∀ w ∈ T, ∀ j, IntentOn db w.txnID k j → j.isDelete = false →
    docState d k = register c db k done
  unwritten : ∀ k, UserKey k → (∀ o ∈ T, ∀ i, IntentOn db o.txnID k i → i.isDelete = true) →
    docState d k = if CoveredBy db done k then .absent else docState db k

theorem Converging.start (c : Codec) (db : DBImpl) (T : List ResolveIntentsOp) :
    Converging c db T [] db where
  subset := fun o ho => absurd ho (not_mem_nil)
  resolved := .start db T
  written := fun _ _ _ _ _ _ => rfl
  unwritten := fun k _ _ => by
    rw [if_neg]
    rintro ⟨o, ho, -⟩
    exact absurd ho not_mem_nil

theorem Converging.step (hT : CommittedSet T) (hconv : Convergent c db T) (ho : o ∈ T)
    (h : Converging c db T done d) :
    Converging c db T (done ++ [o]) (resolveIntents c d o) where
  subset := by
    intro o' ho'
    rcases mem_append.mp ho' with ho' | ho'
    · exact h.subset o' ho'
    · obtain rfl := mem_singleton.mp ho'
      exact ho
  resolved := h.resolved.step hT hconv ho
  written := fun k w hw j hon hwrite =>
    docState_step_register hT hconv hw hon hwrite h.subset h.resolved
      (h.written k w hw j hon hwrite) ho
  unwritten := fun k hk hno =>
    docState_step_unwritten hT hconv hk hno h.resolved (h.unwritten k hk hno) ho

theorem Converging.run (hT : CommittedSet T) (hconv : Convergent c db T)
    {es : List ResolveIntentsOp} (hes : ∀ e ∈ es, e ∈ T) (h : Converging c db T done d) :
    Converging c db T (done ++ es) (es.foldl (resolveIntents c) d) := by
  induction es generalizing done d with
  | nil => simpa using h
  | cons e es ih =>
    have hnext := ih (fun e' he' => hes e' (mem_cons_of_mem e he'))
      (h.step hT hconv (hes e mem_cons_self))
    simpa using hnext

theorem Converging.lastWriterWins (hT : CommittedSet T) (hconv : Convergent c db T)
    (h : Converging c db T done d) (hall : ∀ o ∈ T, o ∈ done) : LastWriterWins c db T d where
  newest := by
    intro k o ho i hon hmax
    have hk : UserKey k := hconv.ordinary o ho k i hon
    cases hdel : i.isDelete with
    | true =>
      have hno : ∀ o' ∈ T, ∀ i', IntentOn db o'.txnID k i' → i'.isDelete = true := by
        intro o' ho' i' hon'
        cases hwrite : i'.isDelete with
        | true => rfl
        | false =>
          have hfalse := hconv.no_delete ho' hon' hwrite ho hon
          rw [hdel] at hfalse
          cases hfalse
      rw [h.unwritten k hk hno, outcome, hdel, if_pos rfl,
        if_pos ⟨o, hall o ho, k, i, hon, hdel, covers_self k⟩]
    | false =>
      rw [h.written k o ho i hon hdel, outcome, hdel, if_neg Bool.false_ne_true]
      have hmine := registerWrite_eq_some (c := c).mpr ⟨i, hon, hdel, rfl⟩
      refine foldl_later_eq (mem_filterMap.mpr ⟨o, hall o ho, hmine⟩) ?_ ?_
      · rw [version_of_registerWrite hmine]
        exact hconv.newer o ho k i hon hdel hmax
      · intro w hw
        obtain ⟨o', hdone, hwrite⟩ := mem_filterMap.mp hw
        obtain ⟨i', hon', -, -⟩ := registerWrite_eq_some.mp hwrite
        have ho' := h.subset o' hdone
        rcases (hmax o' ho' i' hon').eq_or_lt with heq | hlt
        · obtain rfl := hT.versions o' ho' o ho heq
          rw [hmine] at hwrite
          cases hwrite
          exact .inl rfl
        · right
          rw [version_of_registerWrite hwrite, version_of_registerWrite hmine,
            WithBot.coe_lt_coe]
          exact hlt
  others := by
    intro k hk hno
    have hiff : CoveredBy db done k ↔ CoveredBy db T k :=
      ⟨fun ⟨o, ho, hcov⟩ => ⟨o, h.subset o ho, hcov⟩, fun ⟨o, ho, hcov⟩ => ⟨o, hall o ho, hcov⟩⟩
    rw [h.unwritten k hk fun o ho i hon => absurd hon (hno o ho i)]
    by_cases hcov : CoveredBy db T k
    · rw [if_pos hcov, if_pos (hiff.mpr hcov)]
    · rw [if_neg hcov, if_neg fun hdone => hcov (hiff.mp hdone)]

end Run

theorem coreDB_applyLog_resolveIntents (c : Codec) (s : StoreDB) (es : List ResolveIntentsOp) :
    (s.applyLog c (es.map .resolveIntents)).coreDB = es.foldl (resolveIntents c) s.coreDB := by
  induction es generalizing s with
  | nil => rfl
  | cons e es ih => exact ih (s.applyOp c (.resolveIntents e)).1

/-- Whatever the order in which the resolutions of convergent transactions reach a shard, and
however often each is repeated, every document ends up as its newest transaction left it. -/
theorem last_writer_wins {c : Codec} {s : StoreDB} {T : List ResolveIntentsOp}
    (hT : CommittedSet T) (hconv : Convergent c s.coreDB T) {es : List ResolveIntentsOp}
    (hes : ∀ e ∈ es, e ∈ T) (hall : ∀ o ∈ T, o ∈ es) :
    LastWriterWins c s.coreDB T (s.applyLog c (es.map .resolveIntents)).coreDB := by
  rw [coreDB_applyLog_resolveIntents]
  have hrun := (Converging.start c s.coreDB T).run hT hconv hes
  exact hrun.lastWriterWins hT hconv hall

def olderTxnID : Bytes := List.replicate 16 1

def newerTxnID : Bytes := List.replicate 16 2

def resolveOlder : ResolveIntentsOp := ⟨olderTxnID, .committed, 5⟩

def resolveNewer : ResolveIntentsOp := ⟨newerTxnID, .committed, 9⟩

/-- A `WriteIntent` of one write or one delete of document `a`. -/
def intentOnA (txnID : Bytes) (isDelete : Bool) : RaftOp :=
  let batch : BatchOp :=
    { writes := if isDelete then [] else [(ascii ['a'], ascii ['\x7b', '\x7d'])]
      deletes := if isDelete then [ascii ['a']] else []
      transforms := []
      syncLevel := .write
      timestamp := 0 }
  .writeIntent ⟨txnID, 1, [], some batch, []⟩

/-- A new shard on which two transactions have left an intent on document `a`. -/
def twoIntents (olderDeletes : Bool) : StoreDB :=
  (StoreDB.create ⟨[], []⟩).applyLog Codec.emptyObject
    [intentOnA olderTxnID olderDeletes, intentOnA newerTxnID false]

theorem committedSet_sample : CommittedSet [resolveOlder, resolveNewer] where
  committed := by decide
  uuid := by decide
  ids := by decide
  versions := by decide

/-- The older transaction deletes the document and the newer one writes it.  When the delete is
resolved last it removes the newer document, although the other order keeps it. -/
theorem older_delete_removes_newer_write :
    CommittedSet [resolveOlder, resolveNewer] ∧
      docState ((twoIntents true).applyLog Codec.emptyObject
        [.resolveIntents resolveOlder, .resolveIntents resolveNewer]).coreDB (ascii ['a']) =
          ⟨some (.zstd (ascii ['\x7b', '\x7d'])), some (.uint64 9)⟩ ∧
      docState ((twoIntents true).applyLog Codec.emptyObject
        [.resolveIntents resolveNewer, .resolveIntents resolveOlder]).coreDB (ascii ['a']) =
          .absent ∧
      ¬ LastWriterWins Codec.emptyObject (twoIntents true).coreDB [resolveOlder, resolveNewer]
        ((twoIntents true).applyLog Codec.emptyObject
          ([resolveNewer, resolveOlder].map .resolveIntents)).coreDB := by
  have hgone : docState ((twoIntents true).applyLog Codec.emptyObject
      [.resolveIntents resolveNewer, .resolveIntents resolveOlder]).coreDB (ascii ['a']) =
        .absent := by decide +kernel
  refine ⟨committedSet_sample, by decide +kernel, hgone, fun h => ?_⟩
  have hon : IntentOn (twoIntents true).coreDB newerTxnID (ascii ['a'])
      ⟨newerTxnID, ascii ['\x7b', '\x7d'], 1, [], .pending, false⟩ := by
    unfold IntentOn
    decide +kernel
  have hmax : ∀ o' ∈ [resolveOlder, resolveNewer],
      o'.commitVersion ≤ resolveNewer.commitVersion := by decide
  have hwin := h.newest (ascii ['a']) resolveNewer (by simp) _ hon fun o' ho' _ _ => hmax o' ho'
  rw [List.map_cons, List.map_cons, List.map_nil, hgone] at hwin
  simp [outcome, DocState.absent] at hwin

/-- Two writes of one document, the newer resolved before and after the older. -/
theorem last_writer_wins_sample :
    LastWriterWins Codec.emptyObject (twoIntents false).coreDB [resolveOlder, resolveNewer]
      ((twoIntents false).applyLog Codec.emptyObject
        ([resolveNewer, resolveOlder, resolveNewer].map .resolveIntents)).coreDB := by
  have hstored : (twoIntents false).coreDB.pdb.entries.filter (fun e => e.2.isTxn) =
      [(makeIntentKey olderTxnID (ascii ['a']),
          .txnIntent ⟨olderTxnID, ascii ['\x7b', '\x7d'], 1, [], .pending, false⟩),
        (makeIntentKey newerTxnID (ascii ['a']),
          .txnIntent ⟨newerTxnID, ascii ['\x7b', '\x7d'], 1, [], .pending, false⟩)] := by
    decide +kernel
  have hintent : ∀ o ∈ [resolveOlder, resolveNewer], ∀ u i,
      IntentOn (twoIntents false).coreDB o.txnID u i →
      u = ascii ['a'] ∧ i.isDelete = false ∧ i.value = ascii ['\x7b', '\x7d'] := by
    intro o ho u i hon
    have hmem : (makeIntentKey o.txnID u, Stored.txnIntent i) ∈
        (twoIntents false).coreDB.pdb.entries.filter fun e => e.2.isTxn :=
      List.mem_filter.mpr ⟨(OrdMap.mem_entries_iff _ _ _).mpr hon, rfl⟩
    rw [hstored] at hmem
    simp only [List.mem_cons, List.not_mem_nil, or_false, Prod.mk.injEq, Stored.txnIntent.injEq]
      at hmem
    have huuid := committedSet_sample.uuid o ho
    rcases hmem with ⟨hkey, rfl⟩ | ⟨hkey, rfl⟩
    · exact ⟨(makeIntentKey_inj huuid rfl hkey).2, rfl, rfl⟩
    · exact ⟨(makeIntentKey_inj huuid rfl hkey).2, rfl, rfl⟩
  have hconv : Convergent Codec.emptyObject (twoIntents false).coreDB
      [resolveOlder, resolveNewer] := by
    refine ⟨?_, ?_, ?_, ?_, ?_⟩
    · intro o ho u i hon
      obtain ⟨rfl, -, -⟩ := hintent o ho u i hon
      exact ⟨by decide, by decide, by decide⟩
    · intro o ho k i hon _
      obtain ⟨-, -, hvalue⟩ := hintent o ho k i hon
      rw [hvalue]
      decide
    · intro o ho k i hon _ pdb
      obtain ⟨-, -, hvalue⟩ := hintent o ho k i hon
      rw [hvalue]
      rfl
    · intro o ho k i hon _ _
      obtain ⟨rfl, -, -⟩ := hintent o ho k i hon
      have habsent : docState (twoIntents false).coreDB (ascii ['a']) = .absent := by decide +kernel
      rw [habsent]
      exact WithBot.bot_lt_coe _
    · intro o ho u i hon hdel
      obtain ⟨-, hwrite, -⟩ := hintent o ho u i hon
      rw [hdel] at hwrite
      cases hwrite
  exact last_writer_wins committedSet_sample hconv (by decide) (by decide)

end Antfly
