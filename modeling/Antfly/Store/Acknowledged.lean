import Antfly.Store.CoalescedLog

/-!
The loop notifies the proposer of every request with the outcome of the flush that applied it.
When does this tell a request what became of itself?  It does when its batch joins waiting ones
harmlessly, asks of the index managers what the other waiting ones ask, nothing of it is skipped,
and it is not empty: `flushBatch` returns before the notification when nothing is waiting, and then
the ids of empty batches stay in the list.
-/

namespace Antfly

open List

section Skipping

variable (c : Codec) (db : DBImpl) (bypass : Bool) (ts : ℕ)

/-- The write is stored: its key is owned and its value is one the store keeps. -/
def Stores (w : Write) : Prop := ∃ ops, writeOps c db bypass ts w = .ok ops ∧ ops ≠ []

/-- Every operation of the transform succeeds on the document it finds. -/
def OperationsApply (t : Transform) : Prop :=
  match getDocument c db t.key with
  | .ok doc => (t.operations.foldlM (applyTransformOp c) ⟨doc, []⟩).isSome
  | .error .notFound => t.upsert = true → (t.operations.foldlM (applyTransformOp c) ⟨[], []⟩).isSome
  | .error .decode => False

/-- Nothing of the batches is skipped.  A transform of a missing document that does not upsert
resolves to no write. -/
structure NothingSkipped (p : Pending) : Prop where
  writes : ∀ w ∈ p.writes, Stores c db bypass ts w
  deletes : ∀ d ∈ p.deletes, appliesKey db bypass d = true
  transforms : ∀ t ∈ p.transforms, OperationsApply c db t ∧
    ∃ o, resolveTransform c db t = .ok o ∧ ∀ w, o = some w → Stores c db bypass ts w

theorem NothingSkipped.applies {p : Pending} (h : NothingSkipped c db bypass ts p) :
    p.Applies c db bypass ts := by
  refine ⟨fun w hw => ?_, fun t ht => ?_⟩
  · obtain ⟨ops, hops, -⟩ := h.writes w hw
    exact ⟨ops, hops⟩
  · obtain ⟨-, o, ho, hstores⟩ := h.transforms t ht
    refine ⟨o, ho, fun w hw => ?_⟩
    obtain ⟨ops, hops, -⟩ := hstores w hw
    exact ⟨ops, hops⟩

end Skipping

variable {id : Bytes} {b : BatchOp}

theorem Pending.isEmpty_add (hb : (alone id b).isEmpty = false) (p : Pending) :
    (p.add id b).isEmpty = false := by
  rw [Bool.eq_false_iff] at hb ⊢
  intro hempty
  obtain ⟨hw, hd, ht⟩ := (isEmpty_iff _).mp hempty
  rw [writes_add, append_eq_nil_iff] at hw
  rw [deletes_add, append_eq_nil_iff] at hd
  have htransforms : b.transforms = [] := by
    rw [eq_nil_iff_forall_not_mem]
    intro t hmem
    have hkey : t.key ∈ (p.add id b).transforms.map Transform.key := by
      rw [transforms_add, mem_joinAll_keys]
      exact Or.inr (mem_map_of_mem hmem)
    rw [ht] at hkey
    cases hkey
  refine hb ((isEmpty_iff _).mpr ⟨?_, ?_, ?_⟩)
  · rw [writes_alone]
    exact hw.2
  · rw [deletes_alone]
    exact hd.2
  · rw [transforms_alone, htransforms]
    rfl

theorem Pending.bypasses_alone (hb : b.syncLevel ≠ .internalMergeCopy)
    (hasCallback : Bytes → Bool) :
    ((alone id b).effectiveSyncLevel hasCallback).bypasses = false := by
  rw [Bool.eq_false_iff]
  intro hbypass
  obtain ⟨u, hu, -, hcopy⟩ := (effectiveSyncLevel_bypasses _ hasCallback).mp hbypass
  obtain rfl : u = (id, b.syncLevel) := mem_singleton.mp hu
  exact hb hcopy

namespace ReadCommits

variable (c : Codec)

/-- What becomes of the waiting batches `p` in the store. -/
def storeOutcome (l : Surroundings) (db : DBImpl) (p : Pending) : Option SpecialFieldError :=
  (flushBatch (c.at l.clock) db p.writes p.deletes p.transforms (p.effectiveSyncLevel l.hasCallback)
    p.batchTimestamp).2

/-- The outcome of the waiting batches `p`. -/
def flushOutcome (l : Surroundings) (db : DBImpl) (p : Pending) : Option CommitError :=
  ((storeOutcome c l db p).map (.op ∘ .specialFields)).or
    ((l.routeToIndexManagers (p.indexDuty (c.at l.clock) l db)).map .indexing)

/-- What the next flush tells the requests that are waiting. -/
def outcome (l : Surroundings) (s : ReadCommits) : Option CommitError :=
  flushOutcome c l s.store.coreDB s.pending

/-- The outcome of a batch by itself on the store `db`. -/
def ownOutcome (l : Surroundings) (db : DBImpl) (id : Bytes) (b : BatchOp) : Option CommitError :=
  flushOutcome c l db (.alone id b)

/-- The request took effect: nothing of it was skipped, and applying what has been read leaves
what its writes, its resolved transforms and its deletes leave. -/
structure TookEffect (l : Surroundings) (s : ReadCommits) (id : Bytes) (b : BatchOp) : Prop where
  nothingSkipped : NothingSkipped (c.at l.clock) (s.applied c l)
    ((Pending.alone id b).effectiveSyncLevel l.hasCallback).bypasses b.timestamp (.alone id b)
  content : SameContent ((s.addBatch id b).applied c l) ((s.applied c l).applyOps
    ((Pending.alone id b).edits (c.at l.clock) (s.applied c l)
      ((Pending.alone id b).effectiveSyncLevel l.hasCallback).bypasses b.timestamp))

/-- The batch asks of the index managers what everybody who waits with it for an answer asks. -/
def AsksAlike (s : ReadCommits) (id : Bytes) (b : BatchOp) (l : Surroundings) : Prop :=
  ((∃ u ∈ s.pending.uuids, l.hasCallback u.1 = true) →
    s.pending.indexDuty (c.at l.clock) l s.store.coreDB =
      (s.pending.add id b).indexDuty (c.at l.clock) l s.store.coreDB) ∧
  (l.hasCallback id = true →
    (s.pending.add id b).indexDuty (c.at l.clock) l s.store.coreDB =
      (Pending.alone id b).indexDuty (c.at l.clock) l (s.applied c l))

/-- What a request has to meet when its batch is added to the waiting ones. -/
structure AnsweredByItself (s : ReadCommits) (id : Bytes) (b : BatchOp) : Prop where
  nonempty : (Pending.alone id b).isEmpty = false
  joins : s.pending.isEmpty = false → s.JoinsAlways c id b
  asksAlike : s.pending.isEmpty = false → ∀ l, s.AsksAlike c id b l
  /-- Unless its special fields cannot be extracted, nothing of it is skipped. -/
  effect : ∀ l : Surroundings,
    NothingSkipped (c.at l.clock) (s.applied c l)
        ((Pending.alone id b).effectiveSyncLevel l.hasCallback).bypasses b.timestamp
        (.alone id b) ∨
      ∃ w ∈ b.writes, ∃ e, writeOps (c.at l.clock) (s.applied c l)
        ((Pending.alone id b).effectiveSyncLevel l.hasCallback).bypasses b.timestamp w = .error e

variable {db : DBImpl} {p : Pending} {level : SyncLevel} {ts : ℕ} {s : ReadCommits}
variable {rs : List Request} {id : Bytes} {b : BatchOp}

theorem outcome_of_applies {c : Codec} (h : p.Applies c db level.bypasses ts) :
    (flushBatch c db p.writes p.deletes p.transforms level ts).2 = none := by
  rw [flushBatch_of_applies h]

theorem outcome_of_error {c : Codec} {w : Write} (hw : w ∈ p.writes) {e : SpecialFieldError}
    (he : writeOps c db level.bypasses ts w = .error e) :
    (flushBatch c db p.writes p.deletes p.transforms level ts).2 ≠ none := by
  have hmem : w ∈ flushWrites c db p.writes p.transforms := by
    unfold flushWrites
    split
    · exact mem_append_left _ hw
    · exact hw
  obtain ⟨e', he'⟩ : ∃ e', contentOps c db level.bypasses ts
      (flushWrites c db p.writes p.transforms) p.deletes = .error e' := by
    cases hcontent : contentOps c db level.bypasses ts (flushWrites c db p.writes p.transforms)
        p.deletes with
    | error e' => exact ⟨e', rfl⟩
    | ok ops =>
      simp only [contentOps, Fallible.bind_eq_ok] at hcontent
      obtain ⟨ws, hws, -⟩ := hcontent
      obtain ⟨ops', hops'⟩ := Fallible.exists_mapM_ok_iff.mp ⟨ws, hws⟩ w hmem
      rw [he] at hops'
      cases hops'
  have hne : ((flushWrites c db p.writes p.transforms).isEmpty && p.deletes.isEmpty) = false := by
    cases hflush : flushWrites c db p.writes p.transforms with
    | nil =>
      rw [hflush] at hmem
      cases hmem
    | cons => rfl
  unfold flushBatch applyOpBatch
  rw [hne, if_neg (by simp), batch_of_error he']
  simp

/-- A request of the log, with what it is applied to. -/
inductive Request where
  | batch (s : ReadCommits) (id : Bytes) (b : BatchOp)
  | op (store : StoreDB) (l : Surroundings) (id : Bytes) (op : CommittedOp)
  | unsupported (id : Bytes)

def request (s : ReadCommits) : CommitEvent → List Request
  | .entry (.batch id b) l => [.batch (s.flushOther c l b) id b]
  | .entry (.op id op) l => [.op (s.flush c l).store l id op]
  | .entry (.unsupported id) _ => [.unsupported id]
  | .entry .unreadable _ => []
  | .commitEnd _ => []

/-- The requests of a run. -/
def requests (s : ReadCommits) : List CommitEvent → List Request
  | [] => []
  | ev :: events => s.request c ev ++ requests (s.step c ev) events

/-- The notification carries the outcome of the request itself, if somebody hears it. -/
def Request.Answered : Request → Bytes × Bool × Option CommitError → Prop
  | .batch s id b, (id', heard, err) => id' = id ∧ ∃ l, l.hasCallback id = heard ∧
      (heard = true → err = ownOutcome c l (s.applied c l) id b) ∧
      (err = none → s.TookEffect c l id b)
  | .op store l id entry, (id', heard, err) => id' = id ∧ l.hasCallback id = heard ∧
      err = (store.applyCommitted c l entry).2.map .op
  | .unsupported id, (id', _, err) => id' = id ∧ err = some .unsupportedOperation

/-- Whatever flush comes next will tell the waiting request its own outcome. -/
def Request.Waits (s : ReadCommits) : Request → Bytes × SyncLevel → Prop
  | .batch s' id b, u => u.1 = id ∧ ∀ l,
      (l.hasCallback id = true → s.outcome c l = ownOutcome c l (s'.applied c l) id b) ∧
      (storeOutcome c l s.store.coreDB s.pending = none → s'.TookEffect c l id b)
  | .op _ _ _ _, _ => False
  | .unsupported _, _ => False

/-- Every request read so far is answered or waits. -/
structure Accounted (s : ReadCommits) (rs : List Request) : Prop where
  nodup : (s.pending.transforms.map Transform.key).Nodup
  fresh : s.pending.isEmpty = true → s.pending = .empty
  split : ∃ answered waiting, rs.Perm (answered ++ waiting) ∧
    List.Forall₂ (Request.Answered c) answered s.notified ∧
    List.Forall₂ (Request.Waits c s) waiting s.pending.uuids

theorem requests_append (s : ReadCommits) (events events' : List CommitEvent) :
    s.requests c (events ++ events') =
      s.requests c events ++ (s.run c events).requests c events' := by
  induction events generalizing s with
  | nil => rfl
  | cons ev events ih => simp [requests, run_cons, ih, append_assoc]

variable {c}

theorem storeOutcome_of_flushOutcome {l : Surroundings} (h : flushOutcome c l db p = none) :
    storeOutcome c l db p = none := by
  rw [flushOutcome, Option.or_eq_none_iff, Option.map_eq_none_iff] at h
  exact h.1

/-- Where the store takes both, the outcomes differ only with what the index managers are asked. -/
theorem flushOutcome_congr {l : Surroundings} {db' : DBImpl} {p' : Pending}
    (h : storeOutcome c l db p = none) (h' : storeOutcome c l db' p' = none)
    (hduty : p.indexDuty (c.at l.clock) l db = p'.indexDuty (c.at l.clock) l db') :
    flushOutcome c l db p = flushOutcome c l db' p' := by
  rw [flushOutcome, flushOutcome, h, h', hduty]

theorem forall₂_imp_of_mem {α β : Type*} {R S : α → β → Prop} {xs : List α} {ys : List β}
    (h : List.Forall₂ R xs ys) (hi : ∀ x, ∀ y ∈ ys, R x y → S x y) : List.Forall₂ S xs ys := by
  induction h with
  | nil => exact .nil
  | cons hxy _ ih =>
    refine .cons (hi _ _ mem_cons_self hxy) (ih fun x y hy => hi x y (mem_cons_of_mem _ hy))

theorem Accounted.flush (h : Accounted c s rs) (l : Surroundings) :
    Accounted c (s.flush c l) rs ∧ (s.flush c l).pending.uuids = [] := by
  cases hempty : s.pending.isEmpty with
  | true =>
    rw [flush_of_isEmpty c l hempty]
    exact ⟨h, by rw [h.fresh hempty]; rfl⟩
  | false =>
    have hpending := flush_pending c l hempty
    obtain ⟨answered, waiting, hperm, hanswered, hwaiting⟩ := h.split
    have hnotified : (s.flush c l).notified =
        s.notified ++ s.pending.uuids.map fun u => (u.1, l.hasCallback u.1, s.outcome c l) := by
      unfold ReadCommits.flush
      rw [if_neg (by simp [hempty])]
      rfl
    have hnow : List.Forall₂ (Request.Answered c) waiting
        (s.pending.uuids.map fun u => (u.1, l.hasCallback u.1, s.outcome c l)) := by
      rw [forall₂_map_right_iff]
      refine hwaiting.imp fun r u hr => ?_
      cases r with
      | batch s' id b =>
        obtain ⟨hid, hwaits⟩ := hr
        refine ⟨hid, l, by rw [hid], fun heard => (hwaits l).1 (hid ▸ heard), fun hnone => ?_⟩
        exact (hwaits l).2 (storeOutcome_of_flushOutcome hnone)
      | op => exact hr.elim
      | unsupported => exact hr.elim
    refine ⟨⟨by simp [hpending, Pending.empty], fun _ => hpending,
      answered ++ waiting, [], by simpa using hperm, ?_, ?_⟩, by rw [hpending]; rfl⟩
    · rw [hnotified]
      exact rel_append hanswered hnow
    · rw [hpending]
      exact List.Forall₂.nil

theorem Accounted.withStore (h : Accounted c s rs) (hnobody : s.pending.uuids = [])
    (store : StoreDB) :
    Accounted c { s with store } rs := by
  obtain ⟨answered, waiting, hperm, hanswered, hwaiting⟩ := h.split
  rw [hnobody, forall₂_nil_right_iff] at hwaiting
  refine ⟨h.nodup, h.fresh, answered, [], hwaiting ▸ hperm, hanswered, ?_⟩
  rw [hnobody]
  exact List.Forall₂.nil

theorem Accounted.notify (h : Accounted c s rs) {r : Request} {l : Surroundings}
    {err : Option CommitError} (hr : r.Answered c (id, l.hasCallback id, err)) :
    Accounted c (s.notify l id err) (rs ++ [r]) := by
  obtain ⟨answered, waiting, hperm, hanswered, hwaiting⟩ := h.split
  refine ⟨h.nodup, h.fresh, answered ++ [r], waiting, ?_, ?_, ?_⟩
  · refine (hperm.append_right [r]).trans ?_
    rw [append_assoc, append_assoc]
    exact perm_append_comm.append_left answered
  · exact rel_append hanswered (List.Forall₂.cons hr List.Forall₂.nil)
  · exact hwaiting.imp fun r u hu => by
      cases r <;> exact hu

/-- A request that will be told its own outcome, while those that wait already still will. -/
theorem Accounted.addBatch {s : ReadCommits} {rs : List Request} (h : Accounted c s rs)
    {id : Bytes} {b : BatchOp}
    (hold : ∀ waiting, List.Forall₂ (Request.Waits c s) waiting s.pending.uuids →
      List.Forall₂ (Request.Waits c (s.addBatch id b)) waiting s.pending.uuids)
    (hnew : Request.Waits c (s.addBatch id b) (.batch s id b) (id, b.syncLevel))
    (hb : (Pending.alone id b).isEmpty = false) :
    Accounted c (s.addBatch id b) (rs ++ [.batch s id b]) := by
  obtain ⟨answered, waiting, hperm, hanswered, hwaiting⟩ := h.split
  refine ⟨Pending.nodup_add h.nodup id b, fun hempty => ?_, answered,
    waiting ++ [.batch s id b], ?_, hanswered, ?_⟩
  · rw [ReadCommits.addBatch, Pending.isEmpty_add hb] at hempty
    cases hempty
  · rw [← append_assoc]
    exact hperm.append_right _
  · exact rel_append (hold waiting hwaiting) (List.Forall₂.cons hnew List.Forall₂.nil)

theorem tookEffect_of_outcome {s : ReadCommits} {l : Surroundings} {id : Bytes} {b : BatchOp}
    (hb : s.AnsweredByItself c id b)
    (hown : storeOutcome c l (s.applied c l) (.alone id b) = none)
    (hcontent : SameContent ((s.addBatch id b).applied c l)
      (flushed (c.at l.clock) (s.applied c l) (.alone id b)
        ((Pending.alone id b).effectiveSyncLevel l.hasCallback) b.timestamp)) :
    s.TookEffect c l id b := by
  rcases hb.effect l with heffect | ⟨w, hw, e, he⟩
  · exact ⟨heffect, hcontent.trans (flushed_of_applies heffect.applies)⟩
  · -- A batch that cannot be extracted has failed.
    exact absurd hown (outcome_of_error (by rwa [Pending.writes_alone]) he)

theorem Accounted.addBatch_of_isEmpty (h : Accounted c s rs) (hb : s.AnsweredByItself c id b)
    (hempty : s.pending.isEmpty = true) :
    Accounted c (s.addBatch id b) (rs ++ [.batch s id b]) := by
  have hpending := h.fresh hempty
  refine h.addBatch (fun waiting hwaiting => ?_) ⟨rfl, fun l => ?_⟩ hb.nonempty
  · rw [hpending] at hwaiting
    rw [hpending]
    cases hwaiting
    exact List.Forall₂.nil
  · have halone : s.pending.add id b = .alone id b := by rw [hpending]
    have happlied : s.applied c l = s.store.coreDB := by
      rw [applied, flush_of_isEmpty c l hempty]
    have hpend : (s.addBatch id b).pending = .alone id b := halone
    have houtcome : (s.addBatch id b).outcome c l = ownOutcome c l (s.applied c l) id b := by
      rw [outcome, ownOutcome, happlied, hpend]
      rfl
    rw [hpend]
    refine ⟨fun _ => houtcome, fun hnone => tookEffect_of_outcome hb (happlied ▸ hnone) ?_⟩
    have hflushed : (s.addBatch id b).applied c l = flushed (c.at l.clock) (s.applied c l)
        (.alone id b) ((Pending.alone id b).effectiveSyncLevel l.hasCallback) b.timestamp := by
      rw [applied, flush_coreDB, happlied]
      change flushed _ s.store.coreDB (s.pending.add id b)
        ((s.pending.add id b).effectiveSyncLevel l.hasCallback)
        (s.pending.add id b).batchTimestamp = _
      rw [halone]
      rfl
    rw [hflushed]
    exact SameContent.refl _

/-- A batch that joins waiting ones and coalesces with them: no flush of them fails in the store, and
the index managers are asked the same. -/
theorem Accounted.addBatch_joined (h : Accounted c s rs) (hb : s.AnsweredByItself c id b)
    (hempty : s.pending.isEmpty = false) (hts : b.timestamp = s.pending.batchTimestamp) :
    Accounted c (s.addBatch id b) (rs ++ [.batch s id b]) := by
  have htime := Pending.batchTimestamp_add hts id
  have hbefore : ∀ l, storeOutcome c l s.store.coreDB s.pending = none := by
    intro l
    have happlies := (hb.joins hempty).coalesces l
    have hown := ((hb.joins hempty).ownership l).1
    have hpending : s.pending.Applies (c.at l.clock) s.store.coreDB
        (s.pending.effectiveSyncLevel l.hasCallback).bypasses b.timestamp :=
      (edits_bypass b.timestamp hown).2.mpr happlies.applies
    rw [storeOutcome, ← hts, outcome_of_applies hpending]
  have hafter : ∀ l, storeOutcome c l s.store.coreDB (s.pending.add id b) = none := by
    intro l
    have happlies := applies_add h.nodup ((hb.joins hempty).coalesces l)
    rw [storeOutcome, htime, outcome_of_applies happlies]
  refine h.addBatch (fun waiting hwaiting => ?_) ⟨rfl, fun l => ?_⟩ hb.nonempty
  · refine forall₂_imp_of_mem hwaiting fun r u hu hr => ?_
    cases r with
    | batch s' id' b' =>
      obtain ⟨hid, hwaits⟩ := hr
      refine ⟨hid, fun l => ⟨fun heard => ?_, fun _ => (hwaits l).2 (hbefore l)⟩⟩
      have hduty := (hb.asksAlike hempty l).1 ⟨u, hu, hid ▸ heard⟩
      exact (flushOutcome_congr (hafter l) (hbefore l) hduty.symm).trans ((hwaits l).1 heard)
    | op => exact hr.elim
    | unsupported => exact hr.elim
  · have hcoalesces := (hb.joins hempty).coalesces l
    obtain ⟨hown₁, hown₂⟩ := (hb.joins hempty).ownership l
    have hdb₁ : flushed (c.at l.clock) s.store.coreDB s.pending
        (s.pending.effectiveSyncLevel l.hasCallback) b.timestamp = s.applied c l := by
      rw [applied, flush_coreDB, hts]
    have happ : appliesKey s.store.coreDB = appliesKey (s.applied c l) := by
      rw [← hdb₁]
      exact appliesKey_congr (config_flushed _ _ _ _ _).symm
    have hown : storeOutcome c l (s.applied c l) (.alone id b) = none := by
      have halone : (Pending.alone id b).Applies (c.at l.clock) (s.applied c l)
          ((Pending.alone id b).effectiveSyncLevel l.hasCallback).bypasses b.timestamp := by
        rw [happ] at hown₂
        exact (edits_bypass b.timestamp hown₂).2.mpr hcoalesces.appliesNext
      exact outcome_of_applies halone
    refine ⟨fun heard => flushOutcome_congr (hafter l) hown ((hb.asksAlike hempty l).2 heard),
      fun _ => tookEffect_of_outcome hb hown ?_⟩
    rw [applied, flush_coreDB]
    change SameContent (flushed _ s.store.coreDB (s.pending.add id b) _
      (s.pending.add id b).batchTimestamp) _
    rw [htime]
    exact flushed_add h.nodup hdb₁ hcoalesces hown₁ hown₂

theorem Accounted.step {s : ReadCommits} {rs : List Request} (h : Accounted c s rs)
    {ev : CommitEvent}
    (hbatch : ∀ id b l, ev = .entry (.batch id b) l →
      (s.flushOther c l b).AnsweredByItself c id b) :
    Accounted c (s.step c ev) (rs ++ s.request c ev) := by
  rcases ev with ⟨entry, l⟩ | l
  · cases entry with
    | batch id b =>
      have hb := hbatch id b l rfl
      change Accounted c ((s.flushOther c l b).addBatch id b) (rs ++ [.batch _ id b])
      have hflushed : Accounted c (s.flushOther c l b) rs := by
        unfold flushOther
        split
        · exact (h.flush l).1
        · exact h
      cases hempty : (s.flushOther c l b).pending.isEmpty with
      | true => exact hflushed.addBatch_of_isEmpty hb hempty
      | false => exact hflushed.addBatch_joined hb hempty (flushOther_batchTimestamp c l hempty)
    | op id entry =>
      obtain ⟨hflushed, hnobody⟩ := h.flush l
      exact (hflushed.withStore hnobody _).notify ⟨rfl, rfl, rfl⟩
    | unsupported id => exact h.notify ⟨rfl, rfl⟩
    | unreadable =>
      rw [request, append_nil]
      exact h
  · rw [request, append_nil]
    exact (h.flush l).1

private def waited : Surroundings := { quiet with hasCallback := fun _ => true }

/-- A write of the document `a` that waits for the full-text indexes. -/
private def indexedWriteOfA : BatchOp :=
  ⟨[(ascii ['a'], ascii ['\x7b', '\x7d'])], [], [], .fullText, 0⟩

private theorem indexedWriteOfA_answered {s : ReadCommits} (hempty : s.pending.isEmpty = true)
    (hown : ∀ l, ownsKey (s.applied .emptyObject l) (ascii ['a']) = true) :
    s.AnsweredByItself .emptyObject [1] indexedWriteOfA := by
  refine ⟨rfl, fun hne => ?_, fun hne => ?_, fun l => .inl ⟨fun w hw => ?_,
    fun d hd => absurd hd List.not_mem_nil, fun t ht => absurd ht List.not_mem_nil⟩⟩
  · rw [hempty] at hne
    cases hne
  · rw [hempty] at hne
    cases hne
  · obtain rfl : w = (ascii ['a'], ascii ['\x7b', '\x7d']) := List.mem_singleton.mp hw
    rw [Pending.bypasses_alone (by decide)]
    refine ⟨documentOps (ascii ['a']) (ascii ['\x7b', '\x7d']) 0, ?_, List.cons_ne_nil _ _⟩
    unfold writeOps appliesKey
    rw [hown l]
    rfl

end ReadCommits

end Antfly
