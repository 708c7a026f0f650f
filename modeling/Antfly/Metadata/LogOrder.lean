import Antfly.Metadata.MetadataKV

/-!
The store that commits leave is the store that the operations leave one by one exactly when no key
is written after it was deleted in the last commit that touches it.  The proposers are told the
outcome of the flush of their commit exactly when none waits for a commit in which nothing is
written or deleted.
-/

namespace Antfly.Metadata

open OrdMap List

variable {failures : ℕ → Option KVError} {n : ℕ} {s : MetadataKV} {t : LogState}

theorem foldl_apply (c : Commit) (s : MetadataKV) :
    c.foldl (MetadataKV.apply n) s =
      { pdb := s.pdb
        proposer := s.proposer.notifyUnsupported n (unsupportedOps c)
        pendingWrites := s.pendingWrites ++ (batchOps c).flatMap fun op => op.batch.writes
        pendingDeletes := s.pendingDeletes ++ (batchOps c).flatMap fun op => op.batch.deletes
        pendingUUIDs := s.pendingUUIDs ++ (batchOps c).map LeaderOp.uuid } := by
  induction c generalizing s with
  | nil => simp [batchOps, unsupportedOps, Proposer.notifyUnsupported]
  | cons e c ih =>
    rw [foldl_cons, ih]
    cases e with
    | none => rfl
    | some op =>
      unfold MetadataKV.apply
      dsimp only
      by_cases hop : op.op = opBatch
      · rw [if_pos hop]
        simp [batchOps, unsupportedOps, hop]
      · rw [if_neg hop]
        simp [batchOps, unsupportedOps, hop, Proposer.notifyUnsupported]

theorem idle_iff (c : Commit) :
    idle c = (((batchOps c).flatMap fun op => op.batch.writes).isEmpty &&
      ((batchOps c).flatMap fun op => op.batch.deletes).isEmpty) := by
  rw [Bool.eq_iff_iff]
  unfold idle
  simp only [List.all_eq_true, Bool.and_eq_true, List.isEmpty_iff, List.flatMap_eq_nil_iff]
  exact ⟨fun h => ⟨fun op hop => (h op hop).1, fun op hop => (h op hop).2⟩,
    fun h op hop => ⟨h.1 op hop, h.2 op hop⟩⟩

/-- The operations of a commit that reach the store. -/
def opsOf (c : Commit) : List (KeyOp Bytes Bytes) := (batchOps c).map LeaderOp.batch

theorem gather_opsOf (c : Commit) :
    gather (opsOf c) = ⟨(batchOps c).flatMap fun op => op.batch.writes,
      (batchOps c).flatMap fun op => op.batch.deletes⟩ := by
  unfold gather opsOf
  rw [flatMap_map, flatMap_map]

/-- A commit that is gathered and flushed, from a state in which nothing waits to be written. -/
theorem commit_eq (c : Commit) (hwrites : s.pendingWrites = []) (hdeletes : s.pendingDeletes = []) :
    (c.foldl (MetadataKV.apply n) s).flush n (failures n) =
      if idle c then
        ({ s with
           proposer := s.proposer.notifyUnsupported n (unsupportedOps c)
           pendingUUIDs := s.pendingUUIDs ++ (batchOps c).map LeaderOp.uuid }, none)
      else
        ({ pdb :=
             match failures n with
             | none => s.pdb.applyAll (gather (opsOf c)).edits
             | some _ => s.pdb
           proposer := (s.proposer.notifyUnsupported n (unsupportedOps c)).notifyAll n (failures n)
             (s.pendingUUIDs ++ (batchOps c).map LeaderOp.uuid)
           pendingWrites := []
           pendingDeletes := []
           pendingUUIDs := [] }, failures n) := by
  rw [foldl_apply, hwrites, hdeletes, nil_append, nil_append]
  unfold MetadataKV.flush MetadataKV.applyBatch
  dsimp only
  rw [← idle_iff, gather_opsOf]
  split
  · rename_i hidle
    have hempty := hidle
    rw [idle_iff, Bool.and_eq_true, List.isEmpty_iff, List.isEmpty_iff] at hempty
    rw [hempty.1, hempty.2, ← hwrites, ← hdeletes]
  · rfl

variable {c : Commit} {p : Proposer} {err outcome : Option KVError} {x : Bytes} {ids : List Bytes}
variable {ops : List LeaderOp}

theorem gather_edits_of_idle (h : idle c = true) : (gather (opsOf c)).edits = [] := by
  rw [idle_iff, Bool.and_eq_true, List.isEmpty_iff, List.isEmpty_iff] at h
  rw [gather_opsOf, h.1, h.2]
  rfl

theorem pdb_readCommits (commits : List Commit) (hwrites : s.pendingWrites = [])
    (hdeletes : s.pendingDeletes = []) :
    (readCommits failures n s commits).pdb =
      s.pdb.applyAll ((flushed failures n commits).flatMap fun c => (gather (opsOf c)).edits) := by
  induction commits generalizing n s with
  | nil => rfl
  | cons c cs ih =>
    unfold readCommits flushed outcomeOf
    rw [commit_eq c hwrites hdeletes]
    by_cases hidle : idle c = true
    · rw [if_pos hidle, if_pos hidle]
      dsimp only
      refine Eq.trans (ih ?_ ?_) ?_
      · exact hwrites
      · exact hdeletes
      · rw [flatMap_cons, gather_edits_of_idle hidle, nil_append]
    · rw [if_neg hidle, if_neg hidle]
      cases hfailure : failures n with
      | none =>
        dsimp only
        refine Eq.trans (ih ?_ ?_) ?_
        · rfl
        · rfl
        · rw [flatMap_cons, applyAll_append]
      | some err => rfl

theorem foldl_ops (m : OrdMap Bytes Bytes) (c : Commit) :
    (batchOps c).foldl (fun m op => m.applyAll op.batch.edits) m =
      m.applyAll ((opsOf c).flatMap KeyOp.edits) := by
  unfold opsOf
  induction batchOps c generalizing m with
  | nil => rfl
  | cons op ops ih =>
    rw [foldl_cons, ih, map_cons, flatMap_cons, applyAll_append]

theorem store_applyLog (commits : List Commit) :
    (applyLog failures n t commits).store =
      t.store.applyAll
        ((flushed failures n commits).flatMap fun c => (opsOf c).flatMap KeyOp.edits) := by
  induction commits generalizing n t with
  | nil => rfl
  | cons c cs ih =>
    unfold applyLog flushed
    cases outcomeOf failures n c with
    | none =>
      dsimp only
      rw [ih, flatMap_cons, applyAll_append]
      unfold applyCommit
      rw [foldl_ops]
    | some err => rfl

theorem store_eq_iff (commits : List Commit) (hwrites : s.pendingWrites = [])
    (hdeletes : s.pendingDeletes = []) (hstore : s.pdb = t.store) :
    (readCommits failures n s commits).pdb = (applyLog failures n t commits).store ↔
      NoneRewritten (flushed failures n commits) := by
  have hgroups := applyAll_gather_eq_iff t.store ((flushed failures n commits).map opsOf)
  rw [flatMap_map, flatMap_map] at hgroups
  rw [pdb_readCommits commits hwrites hdeletes, store_applyLog, hstore]
  exact hgroups

theorem mem_waiting_notifyCommit {id : Bytes} :
    x ∈ (p.notifyCommit n err id).waiting ↔ x ∈ p.waiting ∧ x ≠ id := by
  unfold Proposer.notifyCommit
  split
  · rw [mem_filter, decide_eq_true_eq]
  · rename_i hid
    constructor
    · intro hx
      refine ⟨hx, ?_⟩
      rintro rfl
      exact hid hx
    · exact And.left

theorem mem_waiting_notifyAll : x ∈ (p.notifyAll n err ids).waiting ↔ x ∈ p.waiting ∧ x ∉ ids := by
  unfold Proposer.notifyAll
  induction ids generalizing p with
  | nil => simp
  | cons id ids ih =>
    rw [foldl_cons, ih, mem_waiting_notifyCommit, mem_cons, not_or, and_assoc]

theorem mem_waiting_notifyUnsupported :
    x ∈ (p.notifyUnsupported n ops).waiting ↔
      x ∈ p.waiting ∧ x ∉ ops.map LeaderOp.uuid := by
  unfold Proposer.notifyUnsupported
  induction ops generalizing p with
  | nil => simp
  | cons op ops ih =>
    rw [foldl_cons, ih, mem_waiting_notifyCommit, map_cons, mem_cons, not_or,
      and_assoc]

theorem notifyAll_of_none_waits (h : ∀ id ∈ ids, id ∉ p.waiting) : p.notifyAll n err ids = p := by
  unfold Proposer.notifyAll
  induction ids with
  | nil => rfl
  | cons id ids ih =>
    have hid := h id mem_cons_self
    have hstep : p.notifyCommit n err id = p := by
      unfold Proposer.notifyCommit
      rw [if_neg hid]
    rw [foldl_cons, hstep]
    exact ih fun x hx => h x (mem_cons_of_mem _ hx)

theorem notifyAll_append (p : Proposer) (err : Option KVError) (ids ids' : List Bytes) :
    p.notifyAll n err (ids ++ ids') = (p.notifyAll n err ids).notifyAll n err ids' :=
  foldl_append

theorem mem_notifyCommit {id : Bytes} {m : Notification} :
    m ∈ (p.notifyCommit n err id).notified ↔
      m ∈ p.notified ∨ id ∈ p.waiting ∧ m = ⟨id, n, err⟩ := by
  unfold Proposer.notifyCommit
  split
  · rename_i hid
    rw [mem_append, mem_singleton]
    exact or_congr_right ⟨fun hm => ⟨hid, hm⟩, And.right⟩
  · rename_i hid
    constructor
    · exact .inl
    · rintro (hm | ⟨hwaits, -⟩)
      · exact hm
      · exact absurd hwaits hid

theorem notified_notifyAll :
    (∀ m ∈ p.notified, m ∈ (p.notifyAll n err ids).notified) ∧
      ∀ m ∈ (p.notifyAll n err ids).notified, m ∈ p.notified ∨ m.commit = n := by
  unfold Proposer.notifyAll
  induction ids generalizing p with
  | nil => exact ⟨fun _ hm => hm, fun _ hm => .inl hm⟩
  | cons id ids ih =>
    rw [foldl_cons]
    constructor
    · intro m hm
      exact ih.1 m (mem_notifyCommit.mpr (.inl hm))
    · intro m hm
      rcases ih.2 m hm with hm | hm
      · rcases mem_notifyCommit.mp hm with hm | ⟨-, rfl⟩
        · exact .inl hm
        · exact .inr rfl
      · exact .inr hm

theorem told_of_waiting {id : Bytes} (hid : id ∈ ids) (hwaits : id ∈ p.waiting) :
    (⟨id, n, err⟩ : Notification) ∈ (p.notifyAll n err ids).notified := by
  unfold Proposer.notifyAll
  induction ids generalizing p with
  | nil => cases hid
  | cons x ids ih =>
    rw [foldl_cons]
    by_cases hx : id = x
    · apply (notified_notifyAll).1
      rw [← hx]
      exact mem_notifyCommit.mpr (.inr ⟨hwaits, rfl⟩)
    · have hrest := mem_of_ne_of_mem hx hid
      exact ih hrest (mem_waiting_notifyCommit.mpr ⟨hwaits, hx⟩)

theorem notified_notifyUnsupported :
    (∀ m ∈ p.notified, m ∈ (p.notifyUnsupported n ops).notified) ∧
      ∀ m ∈ (p.notifyUnsupported n ops).notified,
        m ∈ p.notified ∨ m.commit = n ∧ m.outcome ≠ none := by
  unfold Proposer.notifyUnsupported
  induction ops generalizing p with
  | nil => exact ⟨fun _ hm => hm, fun _ hm => .inl hm⟩
  | cons op ops ih =>
    rw [foldl_cons]
    constructor
    · intro m hm
      exact ih.1 m (mem_notifyCommit.mpr (.inl hm))
    · intro m hm
      rcases ih.2 m hm with hm | hm
      · rcases mem_notifyCommit.mp hm with hm | ⟨-, rfl⟩
        · exact .inl hm
        · exact .inr ⟨rfl, Option.some_ne_none _⟩
      · exact .inr hm

theorem notified_readCommits (commits : List Commit) :
    ∀ m ∈ (readCommits failures n s commits).proposer.notified,
      m ∈ s.proposer.notified ∨ n ≤ m.commit := by
  induction commits generalizing n s with
  | nil => exact fun _ hm => .inl hm
  | cons c cs ih =>
    intro m hm
    have hflushed : ∀ m ∈ ((c.foldl (MetadataKV.apply n) s).flush n
        (failures n)).1.proposer.notified, m ∈ s.proposer.notified ∨ n ≤ m.commit := by
      intro m hm
      rw [foldl_apply] at hm
      unfold MetadataKV.flush at hm
      dsimp only at hm
      split at hm
      · rcases notified_notifyUnsupported.2 m hm with hm | ⟨hm, -⟩
        · exact .inl hm
        · exact .inr hm.ge
      · rcases notified_notifyAll.2 m hm with hm | hm
        · rcases notified_notifyUnsupported.2 m hm with hm | ⟨hm, -⟩
          · exact .inl hm
          · exact .inr hm.ge
        · exact .inr hm.ge
    unfold readCommits at hm
    split at hm
    · rename_i s' heq
      rw [heq] at hflushed
      rcases ih m hm with hm | hm
      · exact hflushed m hm
      · exact .inr (Nat.le_of_succ_le hm)
    · rename_i s' err heq
      rw [heq] at hflushed
      exact hflushed m hm

theorem notified_applyLog (commits : List Commit) :
    ∀ m ∈ t.proposer.notified, m ∈ (applyLog failures n t commits).proposer.notified := by
  induction commits generalizing n t with
  | nil => exact fun _ hm => hm
  | cons c cs ih =>
    intro m hm
    have hcommit : ∀ outcome, m ∈ (applyCommit n outcome t c).proposer.notified :=
      fun _ => notified_notifyAll.1 m (notified_notifyUnsupported.1 m hm)
    unfold applyLog
    split
    · exact ih m (hcommit none)
    · exact hcommit _

theorem mem_uuids :
    x ∈ (c.filterMap id).map LeaderOp.uuid ↔
      x ∈ (unsupportedOps c).map LeaderOp.uuid ∨ x ∈ (batchOps c).map LeaderOp.uuid := by
  unfold unsupportedOps batchOps
  simp only [mem_map, mem_filter, decide_eq_true_eq]
  constructor
  · rintro ⟨op, hop, rfl⟩
    by_cases hbatch : op.op = opBatch
    · exact .inr ⟨op, ⟨hop, hbatch⟩, rfl⟩
    · exact .inl ⟨op, ⟨hop, hbatch⟩, rfl⟩
  · rintro (⟨op, ⟨hop, -⟩, rfl⟩ | ⟨op, ⟨hop, -⟩, rfl⟩)
    · exact ⟨op, hop, rfl⟩
    · exact ⟨op, hop, rfl⟩

theorem noneSkipped_congr {waiting waiting' : List Bytes}
    (h : ∀ x, x ∈ waiting ↔ x ∈ waiting') (commits : List Commit) :
    NoneSkipped waiting commits ↔ NoneSkipped waiting' commits := by
  induction commits generalizing waiting waiting' with
  | nil => exact Iff.rfl
  | cons c cs ih =>
    unfold NoneSkipped
    apply and_congr
    · simp only [h]
    · apply ih
      intro x
      rw [mem_filter, mem_filter, h]

/-- The two sides have told the same, and no one waits for what is left over. -/
structure Agree (n : ℕ) (s : MetadataKV) (t : LogState) : Prop where
  proposer : s.proposer = t.proposer
  writes : s.pendingWrites = []
  deletes : s.pendingDeletes = []
  left_over : ∀ id ∈ s.pendingUUIDs, id ∉ s.proposer.waiting
  earlier : ∀ m ∈ t.proposer.notified, m.commit < n

theorem earlier_applyCommit (h : ∀ m ∈ t.proposer.notified, m.commit < n) :
    ∀ m ∈ (applyCommit n outcome t c).proposer.notified, m.commit < n + 1 := by
  intro m hm
  rcases notified_notifyAll.2 m hm with hm | hm
  · rcases notified_notifyUnsupported.2 m hm with hm | ⟨hm, -⟩
    · have hlt := h m hm
      omega
    · omega
  · omega

theorem mem_waiting_applyCommit :
    x ∈ (applyCommit n outcome t c).proposer.waiting ↔
      x ∈ t.proposer.waiting.filter fun x => x ∉ (c.filterMap id).map LeaderOp.uuid := by
  unfold applyCommit
  dsimp only
  rw [mem_waiting_notifyAll, mem_waiting_notifyUnsupported, mem_filter, decide_eq_true_eq,
    mem_uuids, not_or, and_assoc]

theorem agree_idle {c : Commit} (h : Agree n s t)
    (hskip : ∀ op ∈ batchOps c, op.uuid ∈ t.proposer.waiting →
      op.uuid ∈ (unsupportedOps c).map LeaderOp.uuid) :
    Agree (n + 1)
      { s with
        proposer := t.proposer.notifyUnsupported n (unsupportedOps c)
        pendingUUIDs := s.pendingUUIDs ++ (batchOps c).map LeaderOp.uuid }
      (applyCommit n none t c) := by
  have hnone : ∀ id ∈ (batchOps c).map LeaderOp.uuid,
      id ∉ (t.proposer.notifyUnsupported n (unsupportedOps c)).waiting := by
    intro id hid hwaits
    obtain ⟨op, hop, rfl⟩ := mem_map.mp hid
    obtain ⟨hwaits, hnot⟩ := mem_waiting_notifyUnsupported.mp hwaits
    exact hnot (hskip op hop hwaits)
  constructor
  · exact (notifyAll_of_none_waits hnone).symm
  · exact h.writes
  · exact h.deletes
  · intro id hid hwaits
    rcases mem_append.mp hid with hid | hid
    · apply h.left_over id hid
      rw [h.proposer]
      exact (mem_waiting_notifyUnsupported.mp hwaits).1
    · exact hnone id hid hwaits
  · exact earlier_applyCommit h.earlier

theorem proposer_flushed (h : Agree n s t) (outcome : Option KVError) :
    (t.proposer.notifyUnsupported n (unsupportedOps c)).notifyAll n outcome
        (s.pendingUUIDs ++ (batchOps c).map LeaderOp.uuid) =
      (applyCommit n outcome t c).proposer := by
  have hleft : ∀ id ∈ s.pendingUUIDs,
      id ∉ (t.proposer.notifyUnsupported n (unsupportedOps c)).waiting := by
    intro id hid hwaits
    apply h.left_over id hid
    rw [h.proposer]
    exact (mem_waiting_notifyUnsupported.mp hwaits).1
  rw [notifyAll_append, notifyAll_of_none_waits hleft]
  rfl

theorem notified_ne_of_skipped {cs : List Commit} {op : LeaderOp} (h : Agree n s t)
    (hop : op ∈ batchOps c) (hwaits : op.uuid ∈ t.proposer.waiting)
    (hnot : op.uuid ∉ (unsupportedOps c).map LeaderOp.uuid) :
    (readCommits failures (n + 1)
        { s with
          proposer := t.proposer.notifyUnsupported n (unsupportedOps c)
          pendingUUIDs := s.pendingUUIDs ++ (batchOps c).map LeaderOp.uuid }
        cs).proposer.notified ≠
      (applyLog failures (n + 1) (applyCommit n none t c) cs).proposer.notified := by
  intro heq
  have htold : (⟨op.uuid, n, none⟩ : Notification) ∈ (applyCommit n none t c).proposer.notified :=
    told_of_waiting (mem_map.mpr ⟨op, hop, rfl⟩)
      (mem_waiting_notifyUnsupported.mpr ⟨hwaits, hnot⟩)
  have hfinal : (⟨op.uuid, n, none⟩ : Notification) ∈
      (applyLog failures (n + 1) (applyCommit n none t c) cs).proposer.notified :=
    notified_applyLog cs _ htold
  rw [← heq] at hfinal
  rcases notified_readCommits cs _ hfinal with hm | hm
  · rcases notified_notifyUnsupported.2 _ hm with hm | ⟨-, hm⟩
    · exact absurd (h.earlier _ hm) (lt_irrefl n)
    · exact hm rfl
  · exact absurd hm (Nat.not_succ_le_self n)

theorem notified_eq_iff (commits : List Commit) (h : Agree n s t) :
    (readCommits failures n s commits).proposer.notified =
        (applyLog failures n t commits).proposer.notified ↔
      NoneSkipped t.proposer.waiting (flushed failures n commits) := by
  induction commits generalizing n s t with
  | nil =>
    unfold readCommits applyLog flushed NoneSkipped
    rw [h.proposer]
    exact iff_of_true rfl trivial
  | cons c cs ih =>
    unfold readCommits applyLog flushed outcomeOf
    rw [commit_eq c h.writes h.deletes, h.proposer]
    have hwaiting : NoneSkipped (applyCommit n none t c).proposer.waiting
        (flushed failures (n + 1) cs) ↔ NoneSkipped (t.proposer.waiting.filter
          fun x => x ∉ (c.filterMap id).map LeaderOp.uuid) (flushed failures (n + 1) cs) :=
      noneSkipped_congr (fun _ => mem_waiting_applyCommit) _
    by_cases hidle : idle c = true
    · rw [if_pos hidle, if_pos hidle]
      dsimp only
      unfold NoneSkipped
      rw [← hwaiting]
      by_cases hskip : ∀ op ∈ batchOps c, op.uuid ∈ t.proposer.waiting →
          op.uuid ∈ (unsupportedOps c).map LeaderOp.uuid
      · rw [ih (agree_idle h hskip)]
        exact (and_iff_right fun _ => hskip).symm
      · have hno : ¬(idle c = true → ∀ op ∈ batchOps c, op.uuid ∈ t.proposer.waiting →
            op.uuid ∈ (unsupportedOps c).map LeaderOp.uuid) := fun hall => hskip (hall hidle)
        push Not at hskip
        obtain ⟨op, hop, hwaits, hnot⟩ := hskip
        exact iff_of_false (notified_ne_of_skipped h hop hwaits hnot) fun hall => hno hall.1
    · rw [if_neg hidle, if_neg hidle]
      cases hfailure : failures n with
      | none =>
        dsimp only
        unfold NoneSkipped
        rw [proposer_flushed h none, ← hwaiting]
        have hagree : Agree (n + 1)
            { pdb := s.pdb.applyAll (gather (opsOf c)).edits
              proposer := (applyCommit n none t c).proposer
              pendingWrites := []
              pendingDeletes := []
              pendingUUIDs := [] }
            (applyCommit n none t c) :=
          ⟨rfl, rfl, rfl, fun _ hid => (not_mem_nil hid).elim,
            earlier_applyCommit h.earlier⟩
        rw [ih hagree]
        exact (and_iff_right fun hall => absurd hall hidle).symm
      | some err =>
        dsimp only
        rw [proposer_flushed h (some err)]
        exact iff_of_true rfl trivial

/-- A store that has just been opened, with proposers that wait. -/
def opened (pdb : OrdMap Bytes Bytes) (waiting : List Bytes) : MetadataKV where
  pdb := pdb
  proposer := ⟨waiting, []⟩
  pendingWrites := []
  pendingDeletes := []
  pendingUUIDs := []

/-- However the log is grouped into commits, the store is that of the operations one by one and the
proposers are told the outcomes of their flushes exactly when, in what was flushed, no key is
rewritten and no proposer skipped. -/
theorem log_applied_in_order_iff (failures : ℕ → Option KVError) (pdb : OrdMap Bytes Bytes)
    (waiting : List Bytes) (commits : List Commit) :
    ((readCommits failures 0 (opened pdb waiting) commits).pdb =
          (applyLog failures 0 ⟨pdb, ⟨waiting, []⟩⟩ commits).store ∧
        (readCommits failures 0 (opened pdb waiting) commits).proposer.notified =
          (applyLog failures 0 ⟨pdb, ⟨waiting, []⟩⟩ commits).proposer.notified) ↔
      NoneRewritten (flushed failures 0 commits) ∧
        NoneSkipped waiting (flushed failures 0 commits) := by
  have hagree : Agree 0 (opened pdb waiting) ⟨pdb, ⟨waiting, []⟩⟩ :=
    ⟨rfl, rfl, rfl, fun _ hid => (List.not_mem_nil hid).elim,
      fun _ hm => (List.not_mem_nil hm).elim⟩
  exact and_congr (store_eq_iff commits rfl rfl rfl) (notified_eq_iff commits hagree)

/-- A key deleted by one operation of a commit and written by the next is gone. -/
theorem rewritten_key_lost :
    ¬∀ (failures : ℕ → Option KVError) (pdb : OrdMap Bytes Bytes) (waiting : List Bytes)
      (commits : List Commit),
      (readCommits failures 0 (opened pdb waiting) commits).pdb =
          (applyLog failures 0 ⟨pdb, ⟨waiting, []⟩⟩ commits).store ∧
        (readCommits failures 0 (opened pdb waiting) commits).proposer.notified =
          (applyLog failures 0 ⟨pdb, ⟨waiting, []⟩⟩ commits).proposer.notified := by
  intro hclaim
  have hlost := (hclaim (fun _ => none) OrdMap.empty []
    [[some ⟨opBatch, ⟨[], [[0x6B]]⟩, [1]⟩, some ⟨opBatch, ⟨[([0x6B], [0x76])], []⟩, [2]⟩]]).1
  have hget := congrArg (fun m => m.get? [0x6B]) hlost
  revert hget
  decide

end Antfly.Metadata
