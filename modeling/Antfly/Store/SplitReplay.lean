import Antfly.Lib.Runs
import Antfly.Store.CoalescedDeltas

/-!
A parent that is being split numbers what it captures for the child.  The child lists the entries
after the last one it has applied and applies them one by one, while the parent goes on.  Nothing is
skipped, repeated or reordered, wherever an entry fails.
-/

namespace Antfly

open List OrdMap Fallible

/-- One entry of the loop of `applySplitDeltaEntries`. -/
def applyDelta (c : Codec) (db : DBImpl) (e : DeltaEntry) : Except SpecialFieldError DBImpl :=
  if e.writes.isEmpty && e.deletes.isEmpty then .ok db
  else batch c db e.writes e.deletes .write e.timestamp

/-- The state of `runSplitReplayLoop`, with both stores. -/
structure SplitReplay where
  parent : DBImpl
  child : DBImpl
  currentSeq : ℕ
  /-- The entries the loop has listed and not come to yet. -/
  entries : List DeltaEntry
  /-- What the parent has captured and what the child has applied, in order. -/
  captured : List DeltaEntry
  applied : List DeltaEntry

inductive ReplayEvent where
  | batch (writes : List Write) (deletes : List Bytes) (syncLevel : SyncLevel) (timestamp : ℕ)
  | fence
  | list
  | apply

/-- What a batch adds to the split delta log. -/
def splitDeltaOf (db : DBImpl) (writes : List Write) (deletes : List Bytes)
    (syncLevel : SyncLevel) (timestamp : ℕ) : List DeltaEntry :=
  let entry := captured db (capturesSplit db) (syncLevel = .internalMergeCopy) writes deletes
  if entry.1.isEmpty && entry.2.isEmpty then []
  else [⟨db.splitDeltaSeq + 1, timestamp, entry.1, entry.2⟩]

namespace SplitReplay

def targetSeq (parent : DBImpl) : ℕ :=
  if 0 < parent.splitDeltaFinalSeq then parent.splitDeltaFinalSeq else parent.splitDeltaSeq

def step (c : Codec) (s : SplitReplay) : ReplayEvent → Option SplitReplay
  | .batch writes deletes syncLevel timestamp =>
    match Antfly.batch c s.parent writes deletes syncLevel timestamp with
    | .ok parent => some { s with
        parent := parent
        captured := s.captured ++ splitDeltaOf s.parent writes deletes syncLevel timestamp }
    | .error _ => some s
  | .fence => some { s with parent := StoreDB.fixSplitDeltaFinalSeq s.parent }
  | .list =>
    if s.entries = [] ∧ s.currentSeq < targetSeq s.parent then
      some { s with entries := s.parent.listSplitDeltaEntriesAfter s.currentSeq }
    else none
  | .apply =>
    match s.entries with
    | [] => none
    | e :: entries =>
      match applyDelta c s.child e with
      | .ok child => some { s with
          child := child
          currentSeq := e.sequence
          entries := entries
          applied := s.applied ++ [e] }
      | .error _ => some { s with entries := [] }

/-- The parent has cleared its log, and the child is to replay what comes after the fence. -/
def start (parent child : DBImpl) (fenceSeq : ℕ) : SplitReplay :=
  ⟨parent.clearSplitDeltaEntries, child, fenceSeq, [], [], []⟩

end SplitReplay

/-- The id neither continues the prefix of the metadata nor is continued by it. -/
def ApartOfMetadata (k : Bytes) : Prop := ¬ metadataPrefix <+: k ∧ ¬ k <+: metadataPrefix

/-- The batch keeps to documents, and the number of the next entry fits. -/
def Replayable (s : SplitReplay) : ReplayEvent → Prop
  | .batch writes deletes _ _ =>
    (∀ w ∈ writes, ApartOfMetadata w.1) ∧ (∀ k ∈ deletes, ApartOfMetadata k) ∧
      s.parent.splitDeltaSeq + 1 < 2 ^ 64
  | _ => True

section Keys

variable {α β : Type*} [LinearOrder α] {m : OrdMap α β} {lo hi : α} {es : List (α × β)}

theorem scan_eq_of_mem_iff (hes : es.Pairwise fun a b => a.1 < b.1)
    (h : ∀ k v, (k, v) ∈ es ↔ (lo ≤ k ∧ k < hi) ∧ m.get? k = some v) : m.scan lo hi = es := by
  have hscan : (m.scan lo hi).Pairwise fun a b => a.1 < b.1 := m.sorted.filter _
  have hnodup : ∀ {l : List (α × β)}, (l.Pairwise fun a b => a.1 < b.1) → l.Nodup := fun hl =>
    hl.imp fun hlt heq => (heq ▸ hlt).false
  have hperm := (perm_ext_iff_of_nodup (hnodup hscan) (hnodup hes)).mpr fun ⟨k, v⟩ =>
    (m.mem_scan_iff lo hi k v).trans (h k v).symm
  exact hperm.eq_of_pairwise (fun a b _ _ hab hba => absurd hab hba.not_gt) hscan hes

theorem byte_lt {v w k : ℕ} {t u : Bytes} (hle : v >>> k ≤ w >>> k)
    (habove : v >>> (k + 8) = w >>> (k + 8)) (hbelow : v >>> k = w >>> k → t < u) :
    UInt8.ofNat (v >>> k) :: t < UInt8.ofNat (w >>> k) :: u := by
  have hv := shiftRight_byte v k
  have hw := shiftRight_byte w k
  rw [cons_lt_cons_iff, UInt8.lt_iff_toNat_lt, ← UInt8.toNat_inj]
  rcases hle.eq_or_lt with heq | hlt
  · exact .inr ⟨by omega, hbelow heq⟩
  · exact .inl (by omega)

theorem encodeUint64Ascending_lt {v w : ℕ} (hlt : v < w) (hw : w < 2 ^ 64) :
    encodeUint64Ascending v < encodeUint64Ascending w := by
  have hle (k : ℕ) : v >>> k ≤ w >>> k := by
    simp only [Nat.shiftRight_eq_div_pow]
    exact Nat.div_le_div_right hlt.le
  have htop : v >>> 64 = w >>> 64 := by
    simp only [Nat.shiftRight_eq_div_pow]
    omega
  exact byte_lt (hle 56) htop fun h => byte_lt (hle 48) h fun h => byte_lt (hle 40) h fun h =>
    byte_lt (hle 32) h fun h => byte_lt (hle 24) h fun h => byte_lt (hle 16) h fun h =>
    byte_lt (hle 8) h fun h => byte_lt (hle 0) h fun heq => absurd heq (by simpa using hlt.ne)

theorem splitDeltaEntryKey_lt {v w : ℕ} (h : v < w) (hw : w < 2 ^ 64) :
    splitDeltaEntryKey v < splitDeltaEntryKey w := by
  unfold splitDeltaEntryKey
  rw [Lex.append_lt_append_left]
  exact encodeUint64Ascending_lt h hw

end Keys

/-- The split delta log holds these entries, in the order of their numbers. -/
structure Records (db : DBImpl) (es : List DeltaEntry) : Prop where
  sorted : es.Pairwise fun a b => a.sequence < b.sequence
  last : ∀ e ∈ es, e.sequence ≤ db.splitDeltaSeq
  fits : db.splitDeltaSeq < 2 ^ 64
  stored : ∀ x v, splitDeltaPrefix <+: x →
    (db.get? x = some v ↔ ∃ e ∈ es, x = splitDeltaEntryKey e.sequence ∧ v = .splitDelta e)

namespace Records

variable {db db' : DBImpl} {es : List DeltaEntry}

theorem listAfter (h : Records db es) {afterSeq : ℕ} (hafter : afterSeq + 1 < 2 ^ 64) :
    db.listSplitDeltaEntriesAfter afterSeq = es.filter fun e => afterSeq < e.sequence := by
  have hscan : db.pdb.scan (splitDeltaEntryKey (afterSeq + 1)) (prefixSuccessor splitDeltaPrefix) =
      (es.filter fun e => afterSeq < e.sequence).map fun e =>
        (splitDeltaEntryKey e.sequence, .splitDelta e) := by
    refine scan_eq_of_mem_iff ?_ fun k v => ?_
    · rw [pairwise_map]
      refine (h.sorted.filter _).imp_of_mem fun {a b} _ hb hab => splitDeltaEntryKey_lt hab ?_
      exact (h.last b (mem_filter.mp hb).1).trans_lt h.fits
    · simp only [mem_map, mem_filter, decide_eq_true_eq, Prod.mk.injEq]
      constructor
      · rintro ⟨e, ⟨he, hlt⟩, rfl, rfl⟩
        have hpre : splitDeltaPrefix <+: splitDeltaEntryKey e.sequence := prefix_append _ _
        refine ⟨⟨?_, lt_prefixSuccessor (by decide) hpre⟩,
          (h.stored _ _ hpre).mpr ⟨e, he, rfl, rfl⟩⟩
        rcases (Nat.succ_le_of_lt hlt).eq_or_lt with heq | hlt
        · exact (congrArg splitDeltaEntryKey heq).le
        · exact (splitDeltaEntryKey_lt hlt ((h.last e he).trans_lt h.fits)).le
      · rintro ⟨⟨hlo, hhi⟩, hget⟩
        have hpre : splitDeltaPrefix <+: k := (mem_Ico_prefixSuccessor_iff (by decide)).mp
          ⟨(Lex.le_of_prefix (prefix_append _ _)).trans hlo, hhi⟩
        obtain ⟨e, he, rfl, rfl⟩ := (h.stored k v hpre).mp hget
        refine ⟨e, ⟨he, Nat.lt_of_not_le fun hle => hlo.not_gt ?_⟩, rfl, rfl⟩
        exact splitDeltaEntryKey_lt (Nat.lt_succ_of_le hle) hafter
  unfold DBImpl.listSplitDeltaEntriesAfter
  rw [hscan, filterMap_map]
  exact filterMap_some

theorem congr (h : Records db es) (hseq : db'.splitDeltaSeq = db.splitDeltaSeq)
    (hget : ∀ x, splitDeltaPrefix <+: x → db'.get? x = db.get? x) : Records db' es :=
  ⟨h.sorted, hseq ▸ h.last, hseq ▸ h.fits, fun x v hx => hget x hx ▸ h.stored x v hx⟩

theorem cleared (db : DBImpl) : Records db.clearSplitDeltaEntries [] := by
  refine ⟨.nil, by simp, Nat.two_pow_pos 64, fun x v hx => ?_⟩
  have hgone : db.clearSplitDeltaEntries.get? x = none := get?_clearLog _ (by decide) (.inl hx)
  simp [hgone]

theorem append (h : Records db es) (hfits : db.splitDeltaSeq + 1 < 2 ^ 64)
    (entry : List Write × List Bytes) (ts : ℕ) :
    Records (appendSplitDelta db entry ts) (es ++
      if entry.1.isEmpty && entry.2.isEmpty then []
      else [⟨db.splitDeltaSeq + 1, ts, entry.1, entry.2⟩]) := by
  unfold appendSplitDelta
  split
  · rwa [append_nil]
  · refine ⟨?_, fun e he => ?_, hfits, fun x v hx => ?_⟩
    · refine pairwise_append.mpr ⟨h.sorted, pairwise_singleton _ _, fun a ha b hb => ?_⟩
      rw [mem_singleton.mp hb]
      exact Nat.lt_succ_of_le (h.last a ha)
    · rcases mem_append.mp he with he | he
      · exact Nat.le_succ_of_le (h.last e he)
      · rw [mem_singleton.mp he]
    · have hseq : x ≠ splitDeltaSeqKey := by
        rintro rfl
        exact absurd hx (by decide)
      have hold : ∀ e ∈ es,
          splitDeltaEntryKey e.sequence ≠ splitDeltaEntryKey (db.splitDeltaSeq + 1) :=
        fun e he => (splitDeltaEntryKey_lt (Nat.lt_succ_of_le (h.last e he)) hfits).ne
      have hstored := h.stored x v hx
      simp only [DBImpl.get?, get?_applyAll, lastEffect_cons, lastEffect_nil, Edit.effect,
        if_neg hseq, Option.none_or, mem_append, mem_singleton] at hstored ⊢
      by_cases hx : x = splitDeltaEntryKey (db.splitDeltaSeq + 1)
      · subst hx
        rw [if_pos rfl, Option.getD_some, Option.some_inj]
        constructor
        · rintro rfl
          exact ⟨_, .inr rfl, rfl, rfl⟩
        · rintro ⟨e, he | rfl, hkey, rfl⟩
          · exact absurd hkey.symm (hold e he)
          · rfl
      · rw [if_neg hx, Option.getD_none, hstored]
        refine exists_congr fun e => and_congr_left fun hkey => ?_
        rw [or_iff_left]
        rintro rfl
        exact hx hkey.1

theorem batch {c : Codec} {writes : List Write} {deletes : List Bytes} {syncLevel : SyncLevel}
    {ts : ℕ} (h : Records db es) (hw : ∀ w ∈ writes, ApartOfMetadata w.1)
    (hd : ∀ k ∈ deletes, ApartOfMetadata k) (hfits : db.splitDeltaSeq + 1 < 2 ^ 64)
    (hbatch : batch c db writes deletes syncLevel ts = .ok db') :
    Records db' (es ++ splitDeltaOf db writes deletes syncLevel ts) := by
  simp only [Antfly.batch, contentOps, bind_eq_ok, pure_eq_ok] at hbatch
  obtain ⟨_, ⟨ws, hws, rfl⟩, rfl⟩ := hbatch
  have hcontent : Records (db.applyOps (ws.flatten ++
      deletes.flatMap (deleteOps db (decide (syncLevel = .internalMergeCopy))))) es := by
    refine h.congr rfl fun x hx => ?_
    have hmeta : metadataPrefix <+: x := List.IsPrefix.trans (by decide) hx
    have hwrites : OrdMap.lastEffect ws.flatten x = none := by
      rw [flatten_of_mapM hws, lastEffect_flatMap_eq_none_iff]
      intro w hmem
      refine not_touches.mp fun htouch => ?_
      obtain ⟨-, rfl | htouched⟩ := touches_writeEdits htouch
      · exact (hw w hmem).1 hmeta
      · exact metadata_not_touchedBy (hw w hmem).1 hmeta htouched
    rw [DBImpl.get?_applyOps, lastEffect_append, hwrites, lastEffect_flatMap_eq_none_iff.mpr]
    · rfl
    intro k hmem
    unfold deleteOps
    split
    · have hout : ¬ (k ≤ x ∧ x < prefixSuccessor (keyRangeEnd k)) := by
        rintro ⟨hlo, hhi⟩
        rw [prefixSuccessor_keyRangeEnd] at hhi
        rcases prefix_or_prefix_of_prefix (Lex.prefix_of_mem_Ico hlo hhi) hmeta with h | h
        · exact (hd k hmem).2 h
        · exact (hd k hmem).1 h
      simp [deleteTombstone, lastEffect_cons, Edit.effect, hout]
    · rfl
  refine (hcontent.append hfits _ ts).congr ?_ fun x hx => ?_
  · unfold appendMergeDelta
    split <;> rfl
  · unfold appendMergeDelta
    split
    · rfl
    · rw [DBImpl.get?, get?_applyAll, lastEffect_sets]
      · rfl
      · rintro rfl
        exact not_prefix_append (by decide) (by decide) _ hx
      · rintro rfl
        exact absurd hx (by decide)

end Records

namespace SplitReplay

variable {c : Codec} {parent child : DBImpl} {fenceSeq : ℕ} {s s' : SplitReplay}

/-- What holds of the parent, the child and the loop between them. -/
structure Replaying (c : Codec) (child : DBImpl) (fenceSeq : ℕ) (s : SplitReplay) : Prop where
  records : Records s.parent s.captured
  final : s.parent.splitDeltaFinalSeq ≤ s.parent.splitDeltaSeq
  current : fenceSeq = s.currentSeq ∨ fenceSeq ≤ s.currentSeq ∧
    s.currentSeq ≤ s.parent.splitDeltaSeq
  entries : s.entries <+: s.captured.filter fun e => s.currentSeq < e.sequence
  applied : (s.applied ++ s.captured.filter fun e => s.currentSeq < e.sequence) =
    s.captured.filter fun e => fenceSeq < e.sequence
  child : s.applied.foldlM (applyDelta c) child = .ok s.child

theorem batch_splitDeltaSeq {db db' : DBImpl} {writes : List Write} {deletes : List Bytes}
    {syncLevel : SyncLevel} {ts : ℕ} (h : batch c db writes deletes syncLevel ts = .ok db') :
    db.splitDeltaSeq ≤ db'.splitDeltaSeq ∧ db'.splitDeltaFinalSeq = db.splitDeltaFinalSeq := by
  simp only [Antfly.batch, bind_eq_ok, pure_eq_ok] at h
  obtain ⟨ops, -, rfl⟩ := h
  unfold appendMergeDelta appendSplitDelta
  split <;> split <;> exact ⟨by simp [DBImpl.applyOps], rfl⟩

theorem replaying_start (c : Codec) (parent child : DBImpl) (fenceSeq : ℕ) :
    Replaying c child fenceSeq (start parent child fenceSeq) :=
  ⟨.cleared parent, le_rfl, .inl rfl, nil_prefix, rfl, rfl⟩

theorem Replaying.step {e : ReplayEvent} (h : Replaying c child fenceSeq s)
    (hok : Replayable s e) (hstep : s.step c e = some s') : Replaying c child fenceSeq s' := by
  cases e with
  | batch writes deletes syncLevel ts =>
    obtain ⟨hw, hd, hfits⟩ := hok
    simp only [SplitReplay.step] at hstep
    split at hstep
    · next parent hbatch =>
      cases hstep
      have hnew : ∀ e ∈ splitDeltaOf s.parent writes deletes syncLevel ts,
          e.sequence = s.parent.splitDeltaSeq + 1 := by
        intro e he
        unfold splitDeltaOf at he
        simp only at he
        split at he
        · cases he
        · rw [mem_singleton.mp he]
      obtain ⟨hseq, hfinal⟩ := batch_splitDeltaSeq hbatch
      refine ⟨h.records.batch hw hd hfits hbatch, ?_, ?_, ?_, ?_, h.child⟩
      · have hle := h.final
        simp only
        omega
      · have hcurrent := h.current
        simp only
        omega
      · simp only [filter_append]
        exact h.entries.trans (prefix_append _ _)
      · have hlater : (splitDeltaOf s.parent writes deletes syncLevel ts).filter
            (fun e => s.currentSeq < e.sequence) =
            (splitDeltaOf s.parent writes deletes syncLevel ts).filter
              fun e => fenceSeq < e.sequence := by
          refine filter_congr fun e he => ?_
          have hcurrent := h.current
          rw [hnew e he, decide_eq_decide]
          omega
        simp only [filter_append]
        rw [← append_assoc, h.applied, hlater]
    · cases hstep
      exact h
  | fence =>
    cases hstep
    unfold StoreDB.fixSplitDeltaFinalSeq
    split
    · refine ⟨h.records.congr rfl fun x hx => ?_, le_rfl, h.current, h.entries, h.applied, h.child⟩
      have hne : x ≠ splitDeltaFinalSeqKey := by
        rintro rfl
        exact absurd hx (by decide)
      change (s.parent.applyOps [.set splitDeltaFinalSeqKey _]).get? x = _
      simp [DBImpl.get?_applyOps, lastEffect_cons, Edit.effect, hne]
    · exact h
  | list =>
    simp only [SplitReplay.step] at hstep
    split at hstep
    · next hlist =>
      cases hstep
      have hfits : s.currentSeq + 1 < 2 ^ 64 := by
        have hseq := h.records.fits
        have hfinal := h.final
        have htarget := hlist.2
        unfold targetSeq at htarget
        split at htarget <;> omega
      refine ⟨h.records, h.final, h.current, ?_, h.applied, h.child⟩
      rw [h.records.listAfter hfits]
    · cases hstep
  | apply =>
    simp only [SplitReplay.step] at hstep
    split at hstep
    · cases hstep
    next e entries hentries =>
    obtain ⟨rest, hrest⟩ := h.entries
    rw [hentries, cons_append] at hrest
    have hmem : e ∈ s.captured.filter fun e => s.currentSeq < e.sequence :=
      hrest ▸ mem_cons_self
    obtain ⟨he, hlt⟩ := mem_filter.mp hmem
    rw [decide_eq_true_eq] at hlt
    -- The numbers grow, so the entry is the only one up to its number that is still to come.
    have hlater : (s.captured.filter fun x => e.sequence < x.sequence) = entries ++ rest := by
      have hsorted := h.records.sorted.filter fun x => decide (s.currentSeq < x.sequence)
      rw [← hrest] at hsorted
      have hafter := (pairwise_cons.mp hsorted).1
      have hfilter : (s.captured.filter fun x => e.sequence < x.sequence) =
          (s.captured.filter fun x => s.currentSeq < x.sequence).filter
            fun x => e.sequence < x.sequence := by
        rw [filter_filter]
        refine filter_congr fun x _ => ?_
        rw [← Bool.decide_and, decide_eq_decide]
        omega
      rw [hfilter, ← hrest, filter_cons_of_neg (by simp), filter_eq_self.mpr]
      exact fun x hx => decide_eq_true (hafter x hx)
    have hlast := h.records.last e he
    split at hstep
    · next child' happly =>
      cases hstep
      refine ⟨h.records, h.final, ?_, ?_, ?_, ?_⟩
      · have hcurrent := h.current
        simp only
        omega
      · simp only [hlater]
        exact prefix_append _ _
      · simp only [hlater]
        rw [← h.applied, ← hrest, append_assoc]
        rfl
      · simp only [foldlM_append]
        exact bind_eq_ok.mpr ⟨_, h.child, bind_eq_ok.mpr ⟨_, happly, rfl⟩⟩
    · cases hstep
      exact ⟨h.records, h.final, h.current, nil_prefix, h.applied, h.child⟩

/-- The child has applied what was captured after the fence, in order and each entry once, up to
the number it stands at. -/
structure Replayed (c : Codec) (child : DBImpl) (fenceSeq : ℕ) (s : SplitReplay) : Prop where
  applied : (s.applied ++ s.captured.filter fun e => s.currentSeq < e.sequence) =
    s.captured.filter fun e => fenceSeq < e.sequence
  child : s.applied.foldlM (applyDelta c) child = .ok s.child
  caughtUp : targetSeq s.parent ≤ s.currentSeq → ∀ e ∈ s.captured, fenceSeq < e.sequence →
    e.sequence ≤ targetSeq s.parent → e ∈ s.applied

/-- Every mutation that the parent captures after the fence reaches the child once and in order. -/
theorem replay_exact {es : List ReplayEvent}
    (hrun : Run (step c) Replayable (start parent child fenceSeq) es s) :
    Replayed c child fenceSeq s := by
  have h : Replaying c child fenceSeq s := hrun.invariant
    (fun _ _ _ hok hstep h => h.step hok hstep) (replaying_start c parent child fenceSeq)
  refine ⟨h.applied, h.child, fun hcaught e he hfence hle => ?_⟩
  have hmem : e ∈ s.captured.filter fun e => fenceSeq < e.sequence := by
    simpa using ⟨he, hfence⟩
  rw [← h.applied, mem_append, mem_filter, decide_eq_true_eq] at hmem
  exact hmem.resolve_right fun hlater => absurd hlater.2 (by omega)

def splittingShard : DBImpl :=
  { DBImpl.empty with splitState := some ⟨.splitting, ascii ['b'], 2, 0, []⟩ }

theorem replay_exact_one_delete :
    ∃ s, Run (step .emptyObject) Replayable (start splittingShard .empty 0)
        [.batch [] [ascii ['c']] .write 1, .fence, .list, .apply] s ∧
      Replayed .emptyObject .empty 0 s := by
  have hrun : ∃ s, Run (step .emptyObject) Replayable (start splittingShard .empty 0)
      [.batch [] [ascii ['c']] .write 1, .fence, .list, .apply] s := by
    refine ⟨_, .cons ⟨by simp, ?_, by decide⟩ rfl (.cons trivial rfl (.cons trivial rfl
      (.cons trivial rfl (.nil _))))⟩
    simp [ApartOfMetadata]
    decide
  obtain ⟨s, hs⟩ := hrun
  exact ⟨s, hs, replay_exact hs⟩

end SplitReplay

end Antfly
