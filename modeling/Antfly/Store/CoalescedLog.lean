import Antfly.Store.Coalescing

/-!
However a log of batches is cut into commits, the apply loop leaves the content of applying the
batches one at a time, as long as every batch that joins waiting ones coalesces with them and no
empty batch leaves a timestamp or a copy's sync level behind.
-/

namespace Antfly

namespace Pending

theorem effectiveSyncLevel_bypasses (p : Pending) (hasCallback : Bytes → Bool) :
    (p.effectiveSyncLevel hasCallback).bypasses = true ↔
      ∃ u ∈ p.uuids, hasCallback u.1 = true ∧ u.2 = .internalMergeCopy := by
  have hfold : ∀ (us : List (Bytes × SyncLevel)) (level : SyncLevel),
      (us.foldl (fun level u => if hasCallback u.1 && decide (level.toNat < u.2.toNat) then u.2
        else level) level).bypasses = true ↔ level = .internalMergeCopy ∨
          ∃ u ∈ us, hasCallback u.1 = true ∧ u.2 = .internalMergeCopy := by
    intro us
    induction us with
    | nil => intro level; simp [SyncLevel.bypasses]
    | cons u us ih =>
      intro level
      rw [List.foldl_cons, ih]
      rcases u with ⟨i, ulevel⟩
      cases hi : hasCallback i <;> cases ulevel <;> cases level <;>
        simp [SyncLevel.toNat, hi]
  rw [effectiveSyncLevel, hfold]
  simp

theorem isEmpty_iff (p : Pending) :
    p.isEmpty = true ↔ p.writes = [] ∧ p.deletes = [] ∧ p.transforms = [] := by
  simp [isEmpty, and_assoc]

variable {p : Pending}

theorem nodup_add (hp : (p.transforms.map Transform.key).Nodup) (id : Bytes) (b : BatchOp) :
    ((p.add id b).transforms.map Transform.key).Nodup := by
  rw [transforms_add]
  exact nodup_joinAll (hp.sublist (List.filter_sublist.map _)) b.transforms

theorem add_of_isEmpty (hp : p.isEmpty = true) (id : Bytes) (b : BatchOp) :
    (p.add id b).writes = (alone id b).writes ∧ (p.add id b).deletes = (alone id b).deletes ∧
      (p.add id b).transforms = (alone id b).transforms := by
  obtain ⟨hw, hd, ht⟩ := p.isEmpty_iff.mp hp
  refine ⟨?_, ?_, ?_⟩
  · simp [writes_add, hw, empty]
  · simp [deletes_add, hd, empty]
  · simp [transforms_add, ht, empty]

end Pending

variable {c : Codec} {db : DBImpl} {p : Pending} {b : BatchOp}

theorem flushed_level {level level' : SyncLevel} {ts : ℕ} (h : level.bypasses = level'.bypasses) :
    flushed c db p level ts = flushed c db p level' ts := by
  unfold flushed flushBatch applyOpBatch batch
  change decide (level = _) = decide (level' = _) at h
  simp only [h]

/-- A batch that meets no batch, and nothing an empty one left behind, is flushed as if alone. -/
theorem flushed_add_of_isEmpty {id : Bytes} {hasCallback : Bytes → Bool}
    (hempty : p.isEmpty = true) (htime : p.batchTimestamp = 0 ∨ p.batchTimestamp = b.timestamp)
    (hcopies : ∀ u ∈ p.uuids, hasCallback u.1 = true → u.2 ≠ .internalMergeCopy) :
    flushed c db (p.add id b) ((p.add id b).effectiveSyncLevel hasCallback)
        (p.add id b).batchTimestamp =
      flushed c db (.alone id b) ((Pending.alone id b).effectiveSyncLevel hasCallback)
        b.timestamp := by
  obtain ⟨hw, hd, ht⟩ := Pending.add_of_isEmpty hempty id b
  have hts : (p.add id b).batchTimestamp = b.timestamp := by
    change (if p.batchTimestamp = 0 then b.timestamp else p.batchTimestamp) = _
    rcases htime with htime | htime
    · rw [if_pos htime]
    · rw [htime, ite_self]
  have hlevel : ((p.add id b).effectiveSyncLevel hasCallback).bypasses =
      ((Pending.alone id b).effectiveSyncLevel hasCallback).bypasses := by
    rw [Bool.eq_iff_iff, Pending.effectiveSyncLevel_bypasses, Pending.effectiveSyncLevel_bypasses]
    change (∃ u ∈ p.uuids ++ [(id, b.syncLevel)], _) ↔ ∃ u ∈ [(id, b.syncLevel)], _
    constructor
    · rintro ⟨u, hu, hcall, hcopy⟩
      rcases List.mem_append.mp hu with hu | hu
      · exact absurd hcopy (hcopies u hu hcall)
      · exact ⟨u, hu, hcall, hcopy⟩
    · rintro ⟨u, hu, hcall⟩
      exact ⟨u, List.mem_append_right _ hu, hcall⟩
  rw [hts, flushed_level hlevel]
  simp only [flushed, hw, hd, ht]

theorem Pending.batchTimestamp_add (h : b.timestamp = p.batchTimestamp) (id : Bytes) :
    (p.add id b).batchTimestamp = b.timestamp := by
  change (if p.batchTimestamp = 0 then _ else p.batchTimestamp) = _
  rw [← h, ite_self]

namespace ReadCommits

variable (c : Codec) (l : Surroundings)

theorem flush_coreDB (s : ReadCommits) : (s.flush c l).store.coreDB =
    flushed (c.at l.clock) s.store.coreDB s.pending (s.pending.effectiveSyncLevel l.hasCallback)
      s.pending.batchTimestamp := by
  unfold flush
  split
  · rename_i hempty
    obtain ⟨hw, hd, ht⟩ := s.pending.isEmpty_iff.mp hempty
    simp only [flushed, hw, hd, ht]
    rfl
  · rfl

theorem flush_isEmpty (s : ReadCommits) : (s.flush c l).pending.isEmpty = true := by
  unfold flush
  split
  · assumption
  · rfl

variable {s : ReadCommits} {b : BatchOp} {q : StoreDB} {id : Bytes}

theorem flush_of_isEmpty (h : s.pending.isEmpty = true) : s.flush c l = s :=
  if_pos h

theorem flush_flush (s : ReadCommits) : (s.flush c l).flush c l = s.flush c l :=
  flush_of_isEmpty c l (flush_isEmpty c l s)

theorem flush_pending (h : s.pending.isEmpty = false) : (s.flush c l).pending = .empty := by
  unfold flush
  rw [if_neg (by simp [h])]

theorem flushOther_batchTimestamp (h : (s.flushOther c l b).pending.isEmpty = false) :
    b.timestamp = (s.flushOther c l b).pending.batchTimestamp := by
  unfold flushOther at h ⊢
  split at h
  · rw [flush_isEmpty] at h
    cases h
  · rename_i hsame
    rw [if_neg hsame]
    simpa [h] using hsame

def applied (s : ReadCommits) : DBImpl := (s.flush c l).store.coreDB

/-- The batch `b` coalesces with the waiting ones, whenever they are flushed. -/
structure JoinsAlways (s : ReadCommits) (id : Bytes) (b : BatchOp) : Prop where
  coalesces : ∀ l : Surroundings, Coalesces (c.at l.clock) s.store.coreDB (s.applied c l)
    ((s.pending.add id b).effectiveSyncLevel l.hasCallback).bypasses b.timestamp s.pending
    (.alone id b)
  /-- The bypass of a merge copy among them makes no difference to the others. -/
  ownership : ∀ l : Surroundings,
    (∀ k ∈ s.pending.keys,
      appliesKey s.store.coreDB (s.pending.effectiveSyncLevel l.hasCallback).bypasses k =
        appliesKey s.store.coreDB
          ((s.pending.add id b).effectiveSyncLevel l.hasCallback).bypasses k) ∧
      ∀ k ∈ (Pending.alone id b).keys,
        appliesKey s.store.coreDB
            ((Pending.alone id b).effectiveSyncLevel l.hasCallback).bypasses k =
          appliesKey s.store.coreDB
            ((s.pending.add id b).effectiveSyncLevel l.hasCallback).bypasses k

/-- A batch by itself, with its own timestamp. -/
def applyAlone (s : StoreDB) (e : Bytes × BatchOp) : StoreDB :=
  (((start s).entry c l (.batch e.1 e.2)).flush c l).store

theorem applyAlone_coreDB (s : StoreDB) (id : Bytes) (b : BatchOp) :
    (applyAlone c l s (id, b)).coreDB = flushed (c.at l.clock) s.coreDB (.alone id b)
      ((Pending.alone id b).effectiveSyncLevel l.hasCallback) b.timestamp := by
  have hts : (Pending.alone id b).batchTimestamp = b.timestamp := rfl
  rw [applyAlone, flush_coreDB]
  change flushed _ _ (Pending.alone id b) _ (Pending.alone id b).batchTimestamp = _
  rw [hts]
  rfl

def delivery : Option (Bytes × BatchOp) → CommitEvent
  | some e => .entry (.batch e.1 e.2) l
  | none => .commitEnd l

/-- What the batch `b` has to meet when the loop reads it. -/
structure JoinsHarmlessly (s : ReadCommits) (id : Bytes) (b : BatchOp) : Prop where
  /-- The batch is about documents, not about the shard's own records. -/
  clear : ∀ k ∈ (Pending.alone id b).keys, ¬ metadataPrefix <+: k
  /-- An empty batch before it has not left its timestamp or a copy's sync level. -/
  fresh : s.pending.isEmpty = true →
    (s.pending.batchTimestamp = 0 ∨ s.pending.batchTimestamp = b.timestamp) ∧
      ∀ u ∈ s.pending.uuids, l.hasCallback u.1 = true → u.2 ≠ .internalMergeCopy
  /-- Where it joins waiting batches, it coalesces with them. -/
  coalesces : s.pending.isEmpty = false → b.timestamp = s.pending.batchTimestamp →
    Coalesces (c.at l.clock) s.store.coreDB (s.flush c l).store.coreDB
      ((s.pending.add id b).effectiveSyncLevel l.hasCallback).bypasses b.timestamp s.pending
      (.alone id b)
  /-- The bypass of a merge copy among them makes no difference to the others. -/
  ownership : s.pending.isEmpty = false → b.timestamp = s.pending.batchTimestamp →
    (∀ k ∈ s.pending.keys,
      appliesKey s.store.coreDB (s.pending.effectiveSyncLevel l.hasCallback).bypasses k =
        appliesKey s.store.coreDB
          ((s.pending.add id b).effectiveSyncLevel l.hasCallback).bypasses k) ∧
      ∀ k ∈ (Pending.alone id b).keys,
        appliesKey s.store.coreDB
            ((Pending.alone id b).effectiveSyncLevel l.hasCallback).bypasses k =
          appliesKey s.store.coreDB
            ((s.pending.add id b).effectiveSyncLevel l.hasCallback).bypasses k

/-- What holds between the loop's state and the store the batches leave one at a time. -/
structure MatchesOneByOne (s : ReadCommits) (q : StoreDB) : Prop where
  nodup : (s.pending.transforms.map Transform.key).Nodup
  content : SameContent (s.flush c l).store.coreDB q.coreDB

variable {c l}

theorem MatchesOneByOne.flush (h : MatchesOneByOne c l s q) :
    MatchesOneByOne c l (s.flush c l) q := by
  refine ⟨?_, by rw [flush_flush]; exact h.content⟩
  obtain ⟨-, -, ht⟩ := (Pending.isEmpty_iff _).mp (flush_isEmpty c l s)
  simp [ht]

private theorem MatchesOneByOne.addBatch_of_isEmpty (h : MatchesOneByOne c l s q)
    (hb : s.JoinsHarmlessly c l id b) (hempty : s.pending.isEmpty = true) :
    MatchesOneByOne c l (s.addBatch id b) (applyAlone c l q (id, b)) := by
  refine ⟨Pending.nodup_add h.nodup id b, ?_⟩
  obtain ⟨htime, hcopies⟩ := hb.fresh hempty
  have hcore : ((s.addBatch id b).flush c l).store.coreDB =
      flushed (c.at l.clock) s.store.coreDB (.alone id b)
        ((Pending.alone id b).effectiveSyncLevel l.hasCallback) b.timestamp := by
    rw [flush_coreDB]
    exact flushed_add_of_isEmpty hempty htime hcopies
  have hstore : SameContent s.store.coreDB q.coreDB := by
    have hcontent := h.content
    rwa [flush_of_isEmpty c l hempty] at hcontent
  rw [hcore, applyAlone_coreDB]
  exact (hstore.flushed hb.clear _ _).1

theorem MatchesOneByOne.batch (h : MatchesOneByOne c l s q) (hb : s.JoinsHarmlessly c l id b) :
    MatchesOneByOne c l (s.entry c l (.batch id b)) (applyAlone c l q (id, b)) := by
  change MatchesOneByOne c l ((s.flushOther c l b).addBatch id b) _
  unfold flushOther
  cases hempty : s.pending.isEmpty with
  | true => exact h.addBatch_of_isEmpty hb hempty
  | false =>
    by_cases hts : b.timestamp = s.pending.batchTimestamp
    · -- The batch joins the waiting ones.
      rw [if_neg (by simp [hts])]
      refine ⟨Pending.nodup_add h.nodup id b, ?_⟩
      obtain ⟨hown₁, hown₂⟩ := hb.ownership hempty hts
      have htime := Pending.batchTimestamp_add hts id
      have hdb₁ : flushed (c.at l.clock) s.store.coreDB s.pending
          (s.pending.effectiveSyncLevel l.hasCallback) b.timestamp =
            (s.flush c l).store.coreDB := by
        rw [flush_coreDB, hts]
      have hjoined := flushed_add h.nodup hdb₁ (hb.coalesces hempty hts) hown₁ hown₂
      have hnext := (h.content.flushed (c := c.at l.clock) hb.clear
        ((Pending.alone id b).effectiveSyncLevel l.hasCallback) b.timestamp).1
      rw [flush_coreDB, applyAlone_coreDB]
      change SameContent (flushed _ s.store.coreDB (s.pending.add id b) _
        (s.pending.add id b).batchTimestamp) _
      rw [htime]
      exact hjoined.trans hnext
    · -- The waiting batches are flushed first.
      rw [if_pos (by simp [hts])]
      have hpending := flush_pending c l hempty
      refine h.flush.addBatch_of_isEmpty ⟨hb.clear, fun _ => ?_, fun hne => ?_, fun hne => ?_⟩
        (flush_isEmpty c l s)
      · rw [hpending]
        exact ⟨Or.inl rfl, fun u hu => by cases hu⟩
      · rw [flush_isEmpty] at hne
        cases hne
      · rw [flush_isEmpty] at hne
        cases hne

/-- A log of batches, however it is delivered: if every batch joins the waiting ones harmlessly,
the loop has, at the end of every commit, the content of the batches applied one at a time. -/
theorem coalescing_preserves_content {s : StoreDB} {ds : List (Option (Bytes × BatchOp))}
    (h : ∀ pre id b post, ds = pre ++ some (id, b) :: post →
      ((start s).run c (pre.map (delivery l))).JoinsHarmlessly c l id b) :
    ∀ pre post, ds = pre ++ none :: post →
      SameContent ((start s).run c ((pre ++ [none]).map (delivery l))).store.coreDB
        (pre.reduceOption.foldl (applyAlone c l) s).coreDB := by
  have hmatch : ∀ pre post, ds = pre ++ post → MatchesOneByOne c l
      ((start s).run c (pre.map (delivery l))) (pre.reduceOption.foldl (applyAlone c l) s) := by
    intro pre
    induction pre using List.reverseRecOn with
    | nil => exact fun post _ => ⟨by simp [start, run, Pending.empty], SameContent.refl _⟩
    | append_singleton pre d ih =>
      intro post hds
      rw [List.append_assoc, List.singleton_append] at hds
      have hpre := ih _ hds
      rw [List.map_append, run_append]
      cases d with
      | none =>
        rw [List.reduceOption_append]
        simpa [run, delivery, step] using hpre.flush
      | some e =>
        rw [List.reduceOption_append, List.foldl_append]
        exact hpre.batch (h pre e.1 e.2 post hds)
  intro pre post hds
  have hend := (hmatch pre _ hds).content
  rwa [List.map_append, run_append]

/-- Surroundings in which nobody waits for a request. -/
def quiet : Surroundings where
  clock := .inOrder 0
  hasCallback _ := false
  childReplayed := true
  indexManager := true
  shadowIndexManager := false
  indexFailure := none

/-- A write of document `a` cancels the waiting delete of `a` and so keeps its embedding, which the
delete would have removed. -/
theorem cancelled_delete_keeps_embedding :
    ¬∀ (c : Codec) (l : Surroundings) (s : StoreDB) (ds : List (Option (Bytes × BatchOp))),
      ∀ pre post, ds = pre ++ none :: post →
        SameContent ((start s).run c ((pre ++ [none]).map (delivery l))).store.coreDB
          (pre.reduceOption.foldl (applyAlone c l) s).coreDB := by
  intro hclaim
  let embedding : Bytes := ascii ['a', ':', 'i', ':', 'x', ':', 'e']
  have hsame := hclaim Codec.emptyObject quiet (StoreDB.create ⟨[], []⟩)
    [some ([], ⟨[(embedding, [1])], [], [], .write, 0⟩), none,
      some ([], ⟨[], [ascii ['a']], [], .write, 0⟩),
      some ([], ⟨[(ascii ['a'], ascii ['\x7b', '\x7d'])], [], [], .write, 0⟩), none]
    [some ([], ⟨[(embedding, [1])], [], [], .write, 0⟩), none,
      some ([], ⟨[], [ascii ['a']], [], .write, 0⟩),
      some ([], ⟨[(ascii ['a'], ascii ['\x7b', '\x7d'])], [], [], .write, 0⟩)] [] rfl
  have hkey := hsame.content embedding fun hdelta => absurd hdelta.metadata (by decide)
  revert hkey
  decide

/-- A write of document `a` and a delete of document `b`. -/
def writeThenDelete : List (Option (Bytes × BatchOp)) :=
  [some ([], ⟨[(ascii ['a'], ascii ['\x7b', '\x7d'])], [], [], .write, 0⟩),
    some ([], ⟨[], [ascii ['b']], [], .write, 0⟩)]

theorem coalescing_preserves_content_sample :
    SameContent ((start (.create ⟨[], []⟩)).run Codec.emptyObject
        ((writeThenDelete ++ [none]).map (delivery quiet))).store.coreDB
      (writeThenDelete.reduceOption.foldl (applyAlone Codec.emptyObject quiet)
        (.create ⟨[], []⟩)).coreDB := by
  refine coalescing_preserves_content (fun pre id b post hds => ?_) _ [] rfl
  rw [writeThenDelete] at hds
  rcases pre with _ | ⟨d₁, _ | ⟨d₂, _ | ⟨d₃, pre⟩⟩⟩
  · obtain ⟨⟨rfl, rfl⟩, -⟩ : ([] = id ∧ _ = b) ∧ _ = post := by simpa using hds
    exact ⟨by decide, by decide, fun hne => absurd hne (by decide),
      fun hne => absurd hne (by decide)⟩
  · obtain ⟨rfl, ⟨rfl, rfl⟩, -⟩ : _ = d₁ ∧ ([] = id ∧ _ = b) ∧ _ = post := by simpa using hds
    refine ⟨by decide, by decide, fun _ _ => ?_, fun _ _ => ⟨by decide, by decide⟩⟩
    refine Coalesces.of_deletes ⟨fun w hw => ?_, fun t ht => absurd ht List.not_mem_nil⟩ rfl rfl
    obtain rfl : w = (ascii ['a'], ascii ['\x7b', '\x7d']) := List.mem_singleton.mp hw
    exact ⟨_, rfl⟩
  · simp at hds
  · simp at hds

end ReadCommits

end Antfly
