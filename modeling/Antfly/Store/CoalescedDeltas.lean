import Antfly.Store.Acknowledged

/-!
A flush appends one entry to each delta log, however many batches it applies.  Coalesced batches
leave the same store as batches one at a time, delta logs and counters included, when at most one
of the two has captured something, and what comes second does not reach into the logs.
-/

namespace Antfly

open List

section Append

variable {db : DBImpl} {entry entry' : List Write × List Bytes} {ts ts' : ℕ}

theorem appendSplitDelta_empty : appendSplitDelta db ([], []) ts = db := rfl

theorem appendMergeDelta_empty : appendMergeDelta db ([], []) ts = db := rfl

variable {es : List PebbleOp}

theorem applyOps_appendSplitDelta (h : ∀ x, DeltaLogKey x → ¬ Touches es x) :
    (appendSplitDelta db entry ts).applyOps es = appendSplitDelta (db.applyOps es) entry ts := by
  unfold appendSplitDelta
  split
  · rfl
  · simp only [DBImpl.applyOps]
    rw [OrdMap.applyAll_comm]
    intro x
    by_cases hx : DeltaLogKey x
    · exact .inr (not_touches.mp (h x hx))
    · obtain ⟨hentry, hseq⟩ := not_splitDelta hx _
      exact .inl (lastEffect_sets hentry hseq)

theorem applyOps_appendMergeDelta (h : ∀ x, DeltaLogKey x → ¬ Touches es x) :
    (appendMergeDelta db entry ts).applyOps es = appendMergeDelta (db.applyOps es) entry ts := by
  unfold appendMergeDelta
  split
  · rfl
  · simp only [DBImpl.applyOps]
    rw [OrdMap.applyAll_comm]
    intro x
    by_cases hx : DeltaLogKey x
    · exact .inr (not_touches.mp (h x hx))
    · obtain ⟨hentry, hseq⟩ := not_mergeDelta hx _
      exact .inl (lastEffect_sets hentry hseq)

theorem appendSplitDelta_appendMergeDelta :
    appendSplitDelta (appendMergeDelta db entry ts) entry' ts' =
      appendMergeDelta (appendSplitDelta db entry' ts') entry ts := by
  unfold appendSplitDelta appendMergeDelta
  split
  · split <;> rfl
  · split
    · rfl
    · simp only [DBImpl.mk.injEq, and_true]
      rw [OrdMap.applyAll_comm]
      intro x
      by_cases hx : mergeDelta <+: x
      · refine .inr (lastEffect_sets ?_ ?_)
        · rintro rfl
          exact not_prefix_append (by decide) (by decide) _ hx
        · rintro rfl
          revert hx
          decide
      · refine .inl (lastEffect_sets ?_ ?_)
        · rintro rfl
          exact hx ((prefix_append _ _).trans (prefix_append _ _))
        · rintro rfl
          exact hx (prefix_append _ _)

/-- Two flushes append what one flush appends, if at most one of them appends to each log. -/
theorem appends_apart {db₁ : DBImpl} {es : List PebbleOp}
    {split₁ split₂ split merge₁ merge₂ merge : List Write × List Bytes}
    (hdb₁ : appendMergeDelta (appendSplitDelta db split₁ ts) merge₁ ts = db₁)
    (hsplit : split₁ = ([], []) ∧ split = split₂ ∨
      split₂ = ([], []) ∧ split = split₁ ∧ ∀ x, DeltaLogKey x → ¬ Touches es x)
    (hmerge : merge₁ = ([], []) ∧ merge = merge₂ ∨
      merge₂ = ([], []) ∧ merge = merge₁ ∧ ∀ x, DeltaLogKey x → ¬ Touches es x) :
    appendMergeDelta (appendSplitDelta (db.applyOps es) split ts) merge ts =
      appendMergeDelta (appendSplitDelta (db₁.applyOps es) split₂ ts) merge₂ ts := by
  subst hdb₁
  rcases hsplit with ⟨rfl, rfl⟩ | ⟨rfl, rfl, hspares⟩
  · rcases hmerge with ⟨rfl, rfl⟩ | ⟨rfl, rfl, hspares⟩
    · rfl
    · rw [appendSplitDelta_empty, applyOps_appendMergeDelta hspares,
        appendSplitDelta_appendMergeDelta, appendMergeDelta_empty]
  · rcases hmerge with ⟨rfl, rfl⟩ | ⟨rfl, rfl, -⟩
    · rw [appendMergeDelta_empty, applyOps_appendSplitDelta hspares, appendSplitDelta_empty]
    · rw [applyOps_appendMergeDelta hspares, applyOps_appendSplitDelta hspares,
        appendSplitDelta_empty, appendMergeDelta_empty]

end Append

section Captured

variable (c : Codec) (db : DBImpl) (bypass : Bool) (capture : Bytes → Bool)

/-- A mutation of `k` goes to the log that `capture` belongs to. -/
def capturesKey (k : Bytes) : Bool := appliesKey db bypass k && capture k

def resolvedWrite (t : Transform) : Option Write := Fallible.getD (resolveTransform c db t) none

/-- What a flush of the batches appends to the log that `capture` belongs to. -/
def Pending.captured (p : Pending) : List Write × List Bytes :=
  Antfly.captured db capture bypass (flushWrites c db p.writes p.transforms) p.deletes

variable {c db bypass capture}

variable {t : Transform} {p : Pending} {ts : ℕ}

theorem key_of_resolvedWrite {w : Write} (h : resolvedWrite c db t = some w) : w.1 = t.key := by
  unfold resolvedWrite at h
  cases hr : resolveTransform c db t with
  | error e =>
    rw [hr] at h
    cases h
  | ok o =>
    rw [hr] at h
    cases h
    exact key_of_resolveTransform hr

theorem flushWrites_of_applies (h : p.Applies c db bypass ts) :
    flushWrites c db p.writes p.transforms =
      p.writes ++ p.transforms.filterMap (resolvedWrite c db) := by
  obtain ⟨os, hos⟩ : ∃ os, p.transforms.mapM (resolveTransform c db) = .ok os :=
    Fallible.exists_mapM_ok_iff.mpr fun t ht => (h.transforms t ht).imp fun _ ho => ho.1
  have hresolve : resolveTransforms c db p.transforms = .ok os.reduceOption := by
    unfold resolveTransforms
    rw [hos]
    rfl
  have hwrites : os.reduceOption = p.transforms.filterMap (resolvedWrite c db) := by
    rw [Fallible.eq_map_of_mapM hos none, List.reduceOption, filterMap_map]
    rfl
  simp [flushWrites, hresolve, hwrites]

def capturedWrite (c : Codec) (db : DBImpl) (bypass : Bool) (capture : Bytes → Bool)
    (t : Transform) : Option Write :=
  (resolvedWrite c db t).filter fun w => capturesKey db bypass capture w.1

theorem capturedWrite_of_not (h : capturesKey db bypass capture t.key = false) :
    capturedWrite c db bypass capture t = none := by
  unfold capturedWrite
  rw [Option.filter_eq_none_iff]
  intro w hw
  rw [key_of_resolvedWrite hw, h]
  exact Bool.false_ne_true

theorem captured_eq (h : p.Applies c db bypass ts) :
    p.captured c db bypass capture =
      (p.writes.filter (fun w => capturesKey db bypass capture w.1) ++
        p.transforms.filterMap (capturedWrite c db bypass capture),
        p.deletes.filter (capturesKey db bypass capture)) := by
  unfold Pending.captured captured
  rw [flushWrites_of_applies h]
  refine Prod.ext ?_ rfl
  change (p.writes ++ p.transforms.filterMap (resolvedWrite c db)).filter _ = _
  rw [filter_append, filter_filterMap]
  rfl

end Captured

section Apart

variable {c : Codec} {db db₁ : DBImpl} {bypass : Bool} {capture : Bytes → Bool} {ts : ℕ}
  {p : Pending} {id : Bytes} {b : BatchOp}

open Pending

variable {q : Pending}

theorem captured_of_not (h : q.Applies c db bypass ts)
    (hq : ∀ k ∈ q.keys, capturesKey db bypass capture k = false) :
    q.captured c db bypass capture = ([], []) := by
  rw [captured_eq h]
  refine Prod.ext ?_ ?_
  · rw [append_eq_nil_iff, filter_eq_nil_iff, filterMap_eq_nil_iff]
    exact ⟨fun w hw => by simp [hq w.1 (q.write_key hw)],
      fun t ht => capturedWrite_of_not (hq t.key (q.transform_key ht))⟩
  · rw [filter_eq_nil_iff]
    exact fun d hd => by simp [hq d (q.delete_key hd)]

theorem captured_add_left (hcfg : db.config = db₁.config)
    (hp : (p.transforms.map Transform.key).Nodup)
    (h : Coalesces c db db₁ bypass ts p (alone id b))
    (hno : ∀ k ∈ p.keys, capturesKey db bypass capture k = false) :
    (p.add id b).captured c db bypass capture = (alone id b).captured c db₁ bypass capture := by
  have hcaptures : capturesKey db₁ bypass capture = capturesKey db bypass capture := by
    funext k
    simp only [capturesKey, appliesKey_congr hcfg]
  rw [captured_eq (applies_add hp h), captured_eq h.appliesNext, hcaptures, writes_add, deletes_add,
    writes_alone, deletes_alone, transforms_add_eq p id b hp]
  have hwrites : (p.writes.filter fun w => w.1 ∉ b.deletes ∧
      w.1 ∉ b.transforms.map Transform.key).filter (fun w => capturesKey db bypass capture w.1) =
        [] := by
    rw [filter_eq_nil_iff]
    exact fun w hw => by simp [hno w.1 (p.write_key (mem_filter.mp hw).1)]
  have hdeletes : (p.deletes.filter fun d => d ∉ b.writes.map Prod.fst ∧
      d ∉ b.transforms.map Transform.key).filter (capturesKey db bypass capture) = [] := by
    rw [filter_eq_nil_iff]
    exact fun d hd => by simp [hno d (p.delete_key (mem_filter.mp hd).1)]
  have hkept : ∀ s ∈ p.kept (alone id b), capturesKey db bypass capture s.key = false :=
    fun s hs => hno s.key (p.transform_key (mem_filter.mp hs).1)
  have hjoined : ((p.kept (alone id b)).map (joinedWith (alone id b).transforms)).filterMap
      (capturedWrite c db bypass capture) = [] := by
    rw [filterMap_eq_nil_iff]
    intro t ht
    obtain ⟨s, hs, rfl⟩ := mem_map.mp ht
    refine capturedWrite_of_not ?_
    rw [joinedWith_key]
    exact hkept s hs
  have hnew : ((alone id b).transforms.filter fun t =>
      t.key ∉ (p.kept (alone id b)).map Transform.key).filterMap
        (capturedWrite c db bypass capture) =
      (alone id b).transforms.filterMap (capturedWrite c db₁ bypass capture) := by
    rw [filterMap_filter]
    refine filterMap_congr fun t ht => ?_
    split
    · rename_i hmem
      unfold capturedWrite resolvedWrite
      rw [resolveTransform_new h ht (of_decide_eq_true hmem), hcaptures]
    · rename_i hmem
      rw [decide_eq_true_eq, not_not] at hmem
      obtain ⟨s, hs, hkey⟩ := mem_map.mp hmem
      refine (capturedWrite_of_not ?_).symm
      rw [hcaptures, ← hkey]
      exact hkept s hs
  rw [filter_append, filter_append, filterMap_append, hwrites, hdeletes, hjoined,
    hnew]
  rfl

theorem captured_add_right (hp : (p.transforms.map Transform.key).Nodup)
    (h : Coalesces c db db₁ bypass ts p (alone id b))
    (hno : ∀ k ∈ (alone id b).keys, capturesKey db bypass capture k = false) :
    (p.add id b).captured c db bypass capture = p.captured c db bypass capture := by
  rw [captured_eq (applies_add hp h), captured_eq h.applies, writes_add, deletes_add,
    transforms_add_eq p id b hp]
  have hnew : ∀ t ∈ (alone id b).transforms, capturesKey db bypass capture t.key = false :=
    fun t ht => hno t.key ((alone id b).transform_key ht)
  have hcancels : ∀ k, k ∈ b.deletes ∨ k ∈ b.writes.map Prod.fst ∨
      k ∈ b.transforms.map Transform.key → capturesKey db bypass capture k = false := by
    intro k hk
    refine hno k ?_
    rw [Pending.keys, mem_append, mem_append, writes_alone, deletes_alone,
      mem_transforms_alone]
    tauto
  have hwrites : (p.writes.filter fun w => w.1 ∉ b.deletes ∧
      w.1 ∉ b.transforms.map Transform.key).filter (fun w => capturesKey db bypass capture w.1) =
        p.writes.filter fun w => capturesKey db bypass capture w.1 := by
    rw [filter_filter]
    refine filter_congr fun w _ => ?_
    by_cases hw : w.1 ∉ b.deletes ∧ w.1 ∉ b.transforms.map Transform.key
    · simp [hw]
    · rw [not_and_or, not_not, not_not] at hw
      rw [hcancels w.1 (by tauto), Bool.false_and]
  have hdeletes : (p.deletes.filter fun d => d ∉ b.writes.map Prod.fst ∧
      d ∉ b.transforms.map Transform.key).filter (capturesKey db bypass capture) =
        p.deletes.filter (capturesKey db bypass capture) := by
    rw [filter_filter]
    refine filter_congr fun d _ => ?_
    by_cases hd : d ∉ b.writes.map Prod.fst ∧ d ∉ b.transforms.map Transform.key
    · simp [hd]
    · rw [not_and_or, not_not, not_not] at hd
      rw [hcancels d (by tauto), Bool.false_and]
  have hjoined : ((p.kept (alone id b)).map (joinedWith (alone id b).transforms)).filterMap
      (capturedWrite c db bypass capture) =
        p.transforms.filterMap (capturedWrite c db bypass capture) := by
    rw [filterMap_map, kept, filterMap_filter]
    refine filterMap_congr fun t _ => ?_
    by_cases hjoin : t.key ∈ (alone id b).transforms.map Transform.key
    · have hnone : capturesKey db bypass capture t.key = false :=
        hcancels t.key (.inr (.inr ((mem_transforms_alone id b).mp hjoin)))
      rw [capturedWrite_of_not hnone]
      split
      · refine capturedWrite_of_not ?_
        rw [joinedWith_key]
        exact hnone
      · rfl
    · split
      · rw [Function.comp_apply, joinedWith_of_not_mem hjoin]
      · rename_i hcancelled
        refine (capturedWrite_of_not (hcancels t.key ?_)).symm
        rw [decide_eq_true_eq, not_and_or, not_not, not_not, writes_alone, deletes_alone]
          at hcancelled
        tauto
  have hnil : ((alone id b).transforms.filter fun t =>
      t.key ∉ (p.kept (alone id b)).map Transform.key).filterMap
        (capturedWrite c db bypass capture) = [] := by
    rw [filterMap_eq_nil_iff]
    exact fun t ht => capturedWrite_of_not (hnew t (mem_filter.mp ht).1)
  have hbwrites : b.writes.filter (fun w => capturesKey db bypass capture w.1) = [] := by
    rw [filter_eq_nil_iff]
    exact fun w hw => by simp [hcancels w.1 (.inr (.inl (mem_map_of_mem hw)))]
  have hbdeletes : b.deletes.filter (capturesKey db bypass capture) = [] := by
    rw [filter_eq_nil_iff]
    exact fun d hd => by simp [hcancels d (.inl hd)]
  rw [filter_append, filter_append, filterMap_append, hwrites, hdeletes, hjoined,
    hnil, hbwrites, hbdeletes, append_nil, append_nil, append_nil]

/-- At most one of the two captures something for the log that `capture` belongs to; what comes
second does not remove what came first. -/
def CapturedApart (c : Codec) (db db₁ : DBImpl) (bypass : Bool) (ts : ℕ) (capture : Bytes → Bool)
    (p q : Pending) : Prop :=
  (∀ k ∈ p.keys, capturesKey db bypass capture k = false) ∨
    (∀ k ∈ q.keys, capturesKey db bypass capture k = false) ∧
      ∀ x, DeltaLogKey x → ¬ Touches (q.edits c db₁ bypass ts) x

theorem captured_bypass {bypass' : Bool}
    (h : ∀ k ∈ q.keys, appliesKey db bypass k = appliesKey db bypass' k) :
    q.captured c db bypass capture = q.captured c db bypass' capture := by
  unfold Pending.captured captured
  refine Prod.ext (filter_congr fun w hw => ?_) (filter_congr fun d hd => ?_)
  · have hkey : w.1 ∈ q.keys := by
      rcases mem_flushWrites hw with hw | ⟨t, ht, hkey⟩
      · exact q.write_key hw
      · rw [hkey]
        exact q.transform_key ht
    rw [h w.1 hkey]
  · rw [h d (q.delete_key hd)]

theorem CapturedApart.joined (hcfg : db.config = db₁.config)
    (hp : (p.transforms.map Transform.key).Nodup)
    (h : Coalesces c db db₁ bypass ts p (.alone id b))
    (hapart : CapturedApart c db db₁ bypass ts capture p (.alone id b)) :
    p.captured c db bypass capture = ([], []) ∧
        (p.add id b).captured c db bypass capture =
          (Pending.alone id b).captured c db₁ bypass capture ∨
      (Pending.alone id b).captured c db₁ bypass capture = ([], []) ∧
        (p.add id b).captured c db bypass capture = p.captured c db bypass capture ∧
        ∀ x, DeltaLogKey x → ¬ Touches ((Pending.alone id b).edits c db₁ bypass ts) x := by
  rcases hapart with hno | ⟨hno, hspares⟩
  · exact .inl ⟨captured_of_not h.applies hno, captured_add_left hcfg hp h hno⟩
  · refine .inr ⟨captured_of_not h.appliesNext fun k hk => ?_, captured_add_right hp h hno,
      hspares⟩
    rw [capturesKey, ← appliesKey_congr hcfg]
    exact hno k hk

theorem flushed_eq {level : SyncLevel} (h : p.Applies c db level.bypasses ts) :
    flushed c db p level ts =
      appendMergeDelta (appendSplitDelta (db.applyOps (p.edits c db level.bypasses ts))
        (p.captured c db level.bypasses (capturesSplit db)) ts)
        (p.captured c db level.bypasses (capturesMerge db)) ts := by
  unfold flushed
  rw [flushBatch_of_applies h]
  rfl

theorem flushed_add_eq {level level₁ level₂ : SyncLevel}
    (hp : (p.transforms.map Transform.key).Nodup) (hdb₁ : flushed c db p level₁ ts = db₁)
    (h : Coalesces c db db₁ level.bypasses ts p (.alone id b))
    (hlevel₁ : ∀ k ∈ p.keys, appliesKey db level₁.bypasses k = appliesKey db level.bypasses k)
    (hlevel₂ : ∀ k ∈ (Pending.alone id b).keys,
      appliesKey db level₂.bypasses k = appliesKey db level.bypasses k)
    (hsplit : CapturedApart c db db₁ level.bypasses ts (capturesSplit db) p (.alone id b))
    (hmerge : CapturedApart c db db₁ level.bypasses ts (capturesMerge db) p (.alone id b)) :
    flushed c db (p.add id b) level ts = flushed c db₁ (.alone id b) level₂ ts := by
  have hcfg : db.config = db₁.config := by rw [← hdb₁, config_flushed]
  rw [appliesKey_congr hcfg] at hlevel₂
  have hsecond : (Pending.alone id b).Applies c db₁ level₂.bypasses ts :=
    (edits_bypass ts hlevel₂).2.mpr h.appliesNext
  have hfirst : p.Applies c db level₁.bypasses ts := (edits_bypass ts hlevel₁).2.mpr h.applies
  have hcaptures : capturesSplit db₁ = capturesSplit db ∧ capturesMerge db₁ = capturesMerge db := by
    simp only [DBImpl.config, DBConfig.mk.injEq] at hcfg
    obtain ⟨-, hs, hm, -, -⟩ := hcfg
    constructor
    · funext k
      simp only [capturesSplit, hs]
    · funext k
      simp only [capturesMerge, hm]
  set ep := p.edits c db level.bypasses ts
  set eq := (Pending.alone id b).edits c db₁ level.bypasses ts with heq
  have hcontent : db.applyOps ((p.add id b).edits c db level.bypasses ts) =
      (db.applyOps ep).applyOps eq := by
    have hpdb : db.pdb.applyAll ((p.add id b).edits c db level.bypasses ts) =
        (db.pdb.applyAll ep).applyAll eq :=
      OrdMap.ext_get? fun x => get?_edits_add hcfg hp h x
    simp only [DBImpl.applyOps, hpdb]
  rw [flushed_eq (applies_add hp h), flushed_eq hsecond, (edits_bypass ts hlevel₂).1,
    captured_bypass hlevel₂, captured_bypass hlevel₂, hcaptures.1, hcaptures.2, ← heq, hcontent]
  rw [flushed_eq hfirst, (edits_bypass ts hlevel₁).1, captured_bypass hlevel₁,
    captured_bypass hlevel₁] at hdb₁
  exact appends_apart hdb₁ (hsplit.joined hcfg hp h) (hmerge.joined hcfg hp h)

end Apart

end Antfly
