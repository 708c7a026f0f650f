import Antfly.Store.DeltaLog
import Antfly.Store.ReadCommits

/-!
The apply loop joins consecutive batches of a commit into one Pebble batch.  The joined batch reads
the store as it is before all of them, and what one batch cancelled of an earlier one is never
applied.  This leaves the content of applying the batches one at a time as long as a batch reads
nothing the waiting ones change, overwrites what it cancels, and is not overtaken by what it leaves
waiting.
-/

namespace Antfly

open List OrdMap Fallible

namespace Pending

section Transforms

theorem joinTransform_keys (ts : List Transform) (t : Transform) :
    (joinTransform ts t).map Transform.key =
      if t.key ∈ ts.map Transform.key then ts.map Transform.key
      else ts.map Transform.key ++ [t.key] := by
  induction ts with
  | nil => simp [joinTransform]
  | cons s ts ih =>
    unfold joinTransform
    by_cases hst : s.key = t.key
    · simp [hst]
    · rw [if_neg hst, map_cons, ih]
      by_cases hmem : t.key ∈ ts.map Transform.key
      · simp only [map_cons, mem_cons, hmem, or_true, if_true]
      · simp only [map_cons, mem_cons, hmem, or_false, Ne.symm hst, if_false,
          cons_append]

variable {ts news : List Transform} {t m : Transform} {k : Bytes}

theorem mem_joinTransform_keys :
    k ∈ (joinTransform ts t).map Transform.key ↔ k ∈ ts.map Transform.key ∨ k = t.key := by
  rw [joinTransform_keys]
  split
  · rename_i hmem
    constructor
    · exact .inl
    · rintro (hk | rfl)
      · exact hk
      · exact hmem
  · simp

theorem nodup_joinTransform (h : (ts.map Transform.key).Nodup) (t : Transform) :
    ((joinTransform ts t).map Transform.key).Nodup := by
  rw [joinTransform_keys]
  split
  · exact h
  · rename_i hmem
    exact nodup_append.mpr ⟨h, by simp, by
      rintro a ha b hb rfl
      rw [mem_singleton.mp hb] at ha
      exact hmem ha⟩

/-- The transforms of a batch join the waiting ones in order. -/
def joinAll (ts : List Transform) (news : List Transform) : List Transform :=
  news.foldl joinTransform ts

theorem nodup_joinAll (h : (ts.map Transform.key).Nodup) (news : List Transform) :
    ((joinAll ts news).map Transform.key).Nodup := by
  induction news generalizing ts with
  | nil => exact h
  | cons t news ih => exact ih (nodup_joinTransform h t)

theorem mem_joinAll_keys :
    k ∈ (joinAll ts news).map Transform.key ↔
      k ∈ ts.map Transform.key ∨ k ∈ news.map Transform.key := by
  induction news generalizing ts with
  | nil => simp [joinAll]
  | cons t news ih =>
    change k ∈ (joinAll (joinTransform ts t) news).map Transform.key ↔ _
    rw [ih, mem_joinTransform_keys, map_cons, mem_cons, or_assoc]

/-- The transform `t` followed by `t'`. -/
def joined (t t' : Transform) : Transform := { t with operations := t.operations ++ t'.operations }

private theorem joinTransform_comm {u : Transform} (hne : u.key ≠ t.key)
    (hmem : t.key ∈ ts.map Transform.key) :
    joinTransform (joinTransform ts u) t = joinTransform (joinTransform ts t) u := by
  induction ts with
  | nil => cases hmem
  | cons s ts ih =>
    by_cases hst : s.key = t.key
    · have hsu : s.key ≠ u.key := fun h => hne (h.symm.trans hst)
      simp [joinTransform, hst, Ne.symm hne]
    · have hrest : t.key ∈ ts.map Transform.key := by
        rw [map_cons, mem_cons] at hmem
        exact hmem.resolve_left (Ne.symm hst)
      by_cases hsu : s.key = u.key
      · simp [joinTransform, hsu, hne]
      · simp [joinTransform, hst, hsu, ih hrest]

private theorem joinAll_joinTransform_comm (hnew : t.key ∉ news.map Transform.key)
    (hmem : t.key ∈ ts.map Transform.key) :
    joinTransform (joinAll ts news) t = joinAll (joinTransform ts t) news := by
  induction news generalizing ts with
  | nil => rfl
  | cons u news ih =>
    rw [map_cons, mem_cons, not_or] at hnew
    change joinTransform (joinAll (joinTransform ts u) news) t =
      joinAll (joinTransform (joinTransform ts t) u) news
    rw [ih hnew.2 (mem_joinTransform_keys.mpr (.inl hmem)),
      joinTransform_comm (Ne.symm hnew.1) hmem]

private theorem joinTransform_joinTransform (hkey : m.key = t.key) :
    joinTransform (joinTransform ts m) t = joinTransform ts (joined m t) := by
  induction ts with
  | nil => simp [joinTransform, joined, hkey]
  | cons s ts ih =>
    by_cases hsm : s.key = m.key
    · simp [joinTransform, joined, hsm, hkey]
    · have hst : s.key ≠ t.key := fun h => hsm (h.trans hkey.symm)
      have hsj : s.key ≠ (joined m t).key := hsm
      simp only [joinTransform, if_neg hsm, if_neg hst, if_neg hsj, ih]

private theorem joinAll_snoc {ms : List Transform} (hms : (ms.map Transform.key).Nodup)
    (t : Transform) :
    joinAll ts (joinTransform ms t) = joinTransform (joinAll ts ms) t := by
  induction ms generalizing ts with
  | nil => rfl
  | cons m ms ih =>
    rw [map_cons, nodup_cons] at hms
    by_cases hmt : m.key = t.key
    · have hjoin : joinTransform (m :: ms) t = joined m t :: ms := by
        simp [joinTransform, joined, hmt]
      rw [hjoin]
      change joinAll (joinTransform ts (joined m t)) ms =
        joinTransform (joinAll (joinTransform ts m) ms) t
      rw [← joinTransform_joinTransform hmt, joinAll_joinTransform_comm (hmt ▸ hms.1)]
      exact mem_joinTransform_keys.mpr (.inr hmt.symm)
    · have hjoin : joinTransform (m :: ms) t = m :: joinTransform ms t := by
        simp [joinTransform, hmt]
      rw [hjoin]
      exact ih hms.2

theorem joinAll_joinAll_nil (ts news : List Transform) :
    joinAll ts (joinAll [] news) = joinAll ts news := by
  induction news using List.reverseRecOn with
  | nil => rfl
  | append_singleton news t ih =>
    have hsnoc : ∀ us : List Transform, joinAll us (news ++ [t]) =
        joinTransform (joinAll us news) t := fun us => by simp [joinAll]
    rw [hsnoc, hsnoc, joinAll_snoc (nodup_joinAll (by simp) news), ih]

/-- What becomes of a waiting transform when transforms of other keys are joined to it. -/
def joinedWith (news : List Transform) (t : Transform) : Transform :=
  match news.find? fun t' => t'.key = t.key with
  | some t' => joined t t'
  | none => t

theorem joinedWith_key (news : List Transform) (t : Transform) :
    (joinedWith news t).key = t.key := by
  unfold joinedWith
  split <;> rfl

theorem joinedWith_of_not_mem (h : t.key ∉ news.map Transform.key) : joinedWith news t = t := by
  have hfind : (news.find? fun t' => t'.key = t.key) = none := by
    rw [find?_eq_none]
    intro t' ht' hkey
    exact h (mem_map.mpr ⟨t', ht', by simpa using hkey⟩)
  simp [joinedWith, hfind]

theorem joinedWith_of_mem (hnews : (news.map Transform.key).Nodup) {t' : Transform}
    (ht' : t' ∈ news) (hkey : t'.key = t.key) :
    joinedWith news t = joined t t' := by
  have hfind : (news.find? fun u => u.key = t.key) = some t' := by
    induction news with
    | nil => cases ht'
    | cons u news ih =>
      rw [map_cons, nodup_cons] at hnews
      rcases mem_cons.mp ht' with rfl | hmem
      · simp [hkey]
      · have hne : u.key ≠ t.key := by
          intro h
          exact hnews.1 (mem_map.mpr ⟨t', hmem, hkey.trans h.symm⟩)
        simp [hne, ih hnews.2 hmem]
  simp [joinedWith, hfind]

private theorem joinTransform_eq_map (hts : (ts.map Transform.key).Nodup)
    (hm : m.key ∈ ts.map Transform.key) :
    joinTransform ts m = ts.map fun t => if t.key = m.key then joined t m else t := by
  induction ts with
  | nil => cases hm
  | cons s ts ih =>
    rw [map_cons, nodup_cons] at hts
    by_cases hsm : s.key = m.key
    · have hrest : (ts.map fun t => if t.key = m.key then joined t m else t) = ts := by
        refine (map_congr_left fun t ht => ?_).trans (map_id ts)
        have hne : t.key ≠ m.key := fun h =>
          hts.1 (mem_map.mpr ⟨t, ht, h.trans hsm.symm⟩)
        exact if_neg hne
      rw [map_cons, hrest, if_pos hsm]
      simp [joinTransform, hsm, joined]
    · have hmem : m.key ∈ ts.map Transform.key := by
        rw [map_cons, mem_cons] at hm
        exact hm.resolve_left (Ne.symm hsm)
      simp [joinTransform, hsm, ih hts.2 hmem]

theorem joinAll_eq (hts : (ts.map Transform.key).Nodup) (hnews : (news.map Transform.key).Nodup) :
    joinAll ts news = ts.map (joinedWith news) ++
      news.filter fun t' => t'.key ∉ ts.map Transform.key := by
  induction news generalizing ts with
  | nil =>
    have hid : ts.map (joinedWith []) = ts := map_id'' (fun _ => rfl) ts
    simp [joinAll, hid]
  | cons m ms ih =>
    rw [map_cons, nodup_cons] at hnews
    change joinAll (joinTransform ts m) ms = _
    rw [ih (nodup_joinTransform hts m) hnews.2]
    by_cases hm : m.key ∈ ts.map Transform.key
    · have hkeys : (joinTransform ts m).map Transform.key = ts.map Transform.key := by
        rw [joinTransform_keys, if_pos hm]
      have hmap : (joinTransform ts m).map (joinedWith ms) = ts.map (joinedWith (m :: ms)) := by
        rw [joinTransform_eq_map hts hm, map_map]
        refine map_congr_left fun t _ => ?_
        by_cases htm : t.key = m.key
        · have hnot : (joined t m).key ∉ ms.map Transform.key := by
            change t.key ∉ _
            rw [htm]
            exact hnews.1
          rw [Function.comp_apply, if_pos htm, joinedWith_of_not_mem hnot]
          simp [joinedWith, htm]
        · simp [htm, joinedWith, Ne.symm htm]
      rw [hkeys, hmap, filter_cons_of_neg (by simpa using hm)]
    · have hkeys : (joinTransform ts m).map Transform.key = ts.map Transform.key ++ [m.key] := by
        rw [joinTransform_keys, if_neg hm]
      have hsnoc : joinTransform ts m = ts ++ [m] := by
        clear ih hkeys hts
        induction ts with
        | nil => rfl
        | cons s ts ih =>
          rw [map_cons, mem_cons, not_or] at hm
          simp [joinTransform, Ne.symm hm.1, ih hm.2]
      have hmap : ts.map (joinedWith ms) = ts.map (joinedWith (m :: ms)) := by
        refine map_congr_left fun t ht => ?_
        have hne : m.key ≠ t.key := by
          intro h
          exact hm (mem_map.mpr ⟨t, ht, h.symm⟩)
        simp [joinedWith, hne]
      have hfilter : (ms.filter fun t' => t'.key ∉ ts.map Transform.key ++ [m.key]) =
          ms.filter fun t' => t'.key ∉ ts.map Transform.key := by
        refine filter_congr fun t' ht' => ?_
        have hne : t'.key ≠ m.key := by
          intro h
          exact hnews.1 (mem_map.mpr ⟨t', ht', h⟩)
        simp [hne]
      rw [hkeys, hsnoc, hfilter, map_append, map_singleton,
        joinedWith_of_not_mem hnews.1, hmap, filter_cons_of_pos (by simpa using hm),
        append_assoc, singleton_append]

end Transforms

end Pending

/-- Merge copies bypass the ownership test. -/
def SyncLevel.bypasses (level : SyncLevel) : Bool := decide (level = .internalMergeCopy)

section Edits

variable (c : Codec) (db : DBImpl) (bypass : Bool) (ts : ℕ)

def writeEdits (w : Write) : List PebbleOp := Fallible.getD (writeOps c db bypass ts w) []

/-- The edits of the write a transform resolves to. -/
def transformEdits (t : Transform) : List PebbleOp :=
  match resolveTransform c db t with
  | .ok (some w) => writeEdits c db bypass ts w
  | _ => []

namespace Pending

variable (p : Pending)

def writeEdits : List PebbleOp := p.writes.flatMap (Antfly.writeEdits c db bypass ts)

def transformEdits : List PebbleOp := p.transforms.flatMap (Antfly.transformEdits c db bypass ts)

def deleteEdits : List PebbleOp := p.deletes.flatMap (deleteOps db bypass)

/-- The content edits of a flush: all writes, what the transforms resolve to, all deletes. -/
def edits : List PebbleOp :=
  p.writeEdits c db bypass ts ++ p.transformEdits c db bypass ts ++ p.deleteEdits db bypass

/-- Nothing of the flush fails: all transforms can be resolved and all special fields extracted. -/
structure Applies : Prop where
  writes : ∀ w ∈ p.writes, ∃ ops, writeOps c db bypass ts w = .ok ops
  transforms : ∀ t ∈ p.transforms, ∃ o, resolveTransform c db t = .ok o ∧
    ∀ w, o = some w → ∃ ops, writeOps c db bypass ts w = .ok ops

end Pending

end Edits

section Flush

variable {c : Codec} {db : DBImpl} {level : SyncLevel} {ts : ℕ} {p : Pending}

private theorem flatMap_reduceOption {bypass : Bool} {transforms : List Transform}
    {os : List (Option Write)} (h : transforms.mapM (resolveTransform c db) = .ok os) :
    os.reduceOption.flatMap (writeEdits c db bypass ts) =
      transforms.flatMap (transformEdits c db bypass ts) := by
  rw [mapM_eq_ok_iff] at h
  induction h with
  | nil => rfl
  | cons ht _ ih =>
    rename_i t o ts' os' _
    rw [flatMap_cons, ← ih]
    cases o with
    | none => simp [reduceOption_cons_of_none, transformEdits, ht]
    | some w => simp [reduceOption_cons_of_some, transformEdits, ht]

variable {writes : List Write} {deletes : List Bytes}

theorem batch_of_ok {ops : List PebbleOp}
    (h : contentOps c db level.bypasses ts writes deletes = .ok ops) :
    batch c db writes deletes level ts =
      .ok (appendMergeDelta (appendSplitDelta (db.applyOps ops)
          (captured db (capturesSplit db) level.bypasses writes deletes) ts)
        (captured db (capturesMerge db) level.bypasses writes deletes) ts) := by
  unfold batch
  change (do
    let ops ← contentOps c db level.bypasses ts writes deletes
    _ : Except SpecialFieldError DBImpl) = _
  rw [h]
  rfl

theorem batch_of_error {e : SpecialFieldError}
    (h : contentOps c db level.bypasses ts writes deletes = .error e) :
    batch c db writes deletes level ts = .error e := by
  unfold batch
  change (do
    let ops ← contentOps c db level.bypasses ts writes deletes
    _ : Except SpecialFieldError DBImpl) = _
  rw [h]
  rfl

theorem flushBatch_of_applies (h : p.Applies c db level.bypasses ts) :
    flushBatch c db p.writes p.deletes p.transforms level ts =
      (appendMergeDelta (appendSplitDelta (db.applyOps (p.edits c db level.bypasses ts))
          (captured db (capturesSplit db) level.bypasses (flushWrites c db p.writes p.transforms)
            p.deletes) ts)
        (captured db (capturesMerge db) level.bypasses (flushWrites c db p.writes p.transforms)
          p.deletes) ts, none) := by
  obtain ⟨os, hos⟩ : ∃ os, p.transforms.mapM (resolveTransform c db) = .ok os :=
    exists_mapM_ok_iff.mpr fun t ht => (h.transforms t ht).imp fun _ ho => ho.1
  have hflush : flushWrites c db p.writes p.transforms = p.writes ++ os.reduceOption := by
    have hresolve : resolveTransforms c db p.transforms = .ok os.reduceOption := by
      unfold resolveTransforms
      rw [hos]
      rfl
    simp [flushWrites, hresolve]
  have hwrites : ∀ w ∈ p.writes ++ os.reduceOption,
      ∃ ops, writeOps c db level.bypasses ts w = .ok ops := by
    intro w hw
    rcases mem_append.mp hw with hw | hw
    · exact h.writes w hw
    · obtain ⟨t, ht, htw⟩ := exists_of_mem_mapM hos (reduceOption_mem_iff.mp hw)
      obtain ⟨o, ho, hops⟩ := h.transforms t ht
      rw [ho] at htw
      exact hops w (Except.ok.inj htw)
  obtain ⟨ws, hws⟩ := exists_mapM_ok_iff.mpr hwrites
  have hcontent : contentOps c db level.bypasses ts (p.writes ++ os.reduceOption) p.deletes =
      .ok (p.edits c db level.bypasses ts) := by
    have hedits : ws.flatten ++ p.deletes.flatMap (deleteOps db level.bypasses) =
        p.edits c db level.bypasses ts := by
      rw [flatten_of_mapM hws]
      change (p.writes ++ os.reduceOption).flatMap (writeEdits c db level.bypasses ts) ++ _ = _
      rw [flatMap_append, flatMap_reduceOption hos]
      rfl
    unfold contentOps
    rw [hws, ← hedits]
    rfl
  rw [hflush]
  unfold flushBatch applyOpBatch
  rw [hflush]
  by_cases hempty : ((p.writes ++ os.reduceOption).isEmpty && p.deletes.isEmpty) = true
  · rw [if_pos hempty]
    rw [Bool.and_eq_true, List.isEmpty_iff, List.isEmpty_iff] at hempty
    obtain ⟨hw, hd⟩ := hempty
    have hedits : p.edits c db level.bypasses ts = [] := by
      rw [hw, hd] at hcontent
      exact (Except.ok.inj hcontent).symm
    simp [hedits, hw, hd, captured, appendSplitDelta, appendMergeDelta, DBImpl.applyOps,
      OrdMap.applyAll]
  · rw [if_neg hempty, batch_of_ok hcontent]

end Flush

/-- Some edit changes `x`. -/
def Touches (es : List PebbleOp) (x : Bytes) : Prop := OrdMap.lastEffect es x ≠ none

variable {es : List PebbleOp} {x : Bytes}

theorem not_touches : ¬ Touches es x ↔ OrdMap.lastEffect es x = none := not_not

theorem touches_append {fs : List PebbleOp} :
    Touches (es ++ fs) x ↔ Touches es x ∨ Touches fs x := by
  unfold Touches
  rw [lastEffect_append]
  cases OrdMap.lastEffect fs x <;> simp

section Touching

variable {c : Codec} {db : DBImpl} {bypass : Bool} {ts : ℕ} {x : Bytes}

theorem touches_writeEdits {w : Write} (h : Touches (writeEdits c db bypass ts w) x) :
    appliesKey db bypass w.1 = true ∧ (x = w.1 ∨ TouchedBy w.1 x) := by
  unfold writeEdits writeOps at h
  split at h
  · rename_i happ
    refine ⟨happ, ?_⟩
    by_contra hno
    rw [not_or] at hno
    refine h (lastEffect_eq_none_iff.mpr ?_)
    have hraw : ∀ e ∈ [rawSet w], e.effect x = none := by
      intro e he
      rw [mem_singleton.mp he]
      exact if_neg hno.1
    cases hops : storeWriteOps c db ts w with
    | error e => simp [Fallible.getD]
    | ok ops =>
      rw [getD_ok]
      unfold storeWriteOps at hops
      split at hops
      · cases hops
        split
        · simp
        · exact hraw
      · cases hops
        split
        · simp
        · exact hraw
      · exact documentWriteOps_not_touched hno.2 hops
  · exact absurd rfl h

theorem touches_transformEdits {t : Transform} (h : Touches (transformEdits c db bypass ts t) x) :
    appliesKey db bypass t.key = true ∧ (x = t.key ∨ TouchedBy t.key x) := by
  unfold transformEdits at h
  split at h
  · rename_i w hw
    rw [← key_of_resolveTransform hw]
    exact touches_writeEdits h
  · exact absurd rfl h

theorem touches_deleteOps {k : Bytes}
    (h : appliesKey db bypass k = true ∧ (x = k ∨ TouchedBy k x)) :
    OrdMap.lastEffect (deleteOps db bypass k) x = some none := by
  have hcov : k ≤ x ∧ x < prefixSuccessor (keyRangeEnd k) := by
    rw [prefixSuccessor_keyRangeEnd]
    rcases h.2 with rfl | htouch
    · exact ⟨le_rfl, Lex.lt_append_of_ne_nil _ (by decide)⟩
    · obtain ⟨r, rfl⟩ := htouch.eq_append
      refine ⟨Lex.le_of_prefix (prefix_append k _), ?_⟩
      rw [Lex.append_lt_append_left]
      exact List.Lex.rel (by decide)
  simp [deleteOps, h.1, deleteTombstone, lastEffect_cons, OrdMap.Edit.effect, hcov]

theorem lastEffect_deleteEdits (l : List Bytes) :
    OrdMap.lastEffect (l.flatMap (deleteOps db bypass)) x = none ∨
      OrdMap.lastEffect (l.flatMap (deleteOps db bypass)) x = some none := by
  cases h : OrdMap.lastEffect (l.flatMap (deleteOps db bypass)) x with
  | none => exact .inl rfl
  | some o =>
    obtain ⟨e, he, heff⟩ := exists_effect_of_lastEffect h
    obtain ⟨k, -, hk⟩ := mem_flatMap.mp he
    unfold deleteOps at hk
    split at hk
    · rw [mem_singleton.mp hk] at heff
      simp only [deleteTombstone, OrdMap.Edit.effect] at heff
      split at heff
      · rw [← heff]
        exact .inr rfl
      · cases heff
    · cases hk

end Touching

namespace Pending

/-- The waiting transforms the writes and deletes of `q` leave. -/
def kept (p q : Pending) : List Transform :=
  p.transforms.filter fun t => t.key ∉ q.deletes ∧ t.key ∉ q.writes.map Prod.fst

/-- The transform that is applied where `t` joins what is kept of `p`. -/
def continuation (p q : Pending) (t : Transform) : Transform :=
  match (p.kept q).find? fun s => s.key = t.key with
  | some s => joined s t
  | none => t

private theorem foldl_addTransform (l : List Transform) (p : Pending) :
    (l.foldl addTransform p).writes = (p.writes.filter fun w => w.1 ∉ l.map Transform.key) ∧
      (l.foldl addTransform p).deletes = (p.deletes.filter fun d => d ∉ l.map Transform.key) ∧
      (l.foldl addTransform p).transforms = joinAll p.transforms l := by
  induction l generalizing p with
  | nil => simp [joinAll]
  | cons t l ih =>
    obtain ⟨hw, hd, ht⟩ := ih (p.addTransform t)
    rw [foldl_cons, hw, hd, ht]
    refine ⟨?_, ?_, rfl⟩
    · simp only [addTransform, filter_filter, map_cons, mem_cons, not_or]
      exact filter_congr fun w _ => by simp [Bool.and_comm]
    · simp only [addTransform, filter_filter, map_cons, mem_cons, not_or]
      exact filter_congr fun w _ => by simp [Bool.and_comm]

variable (p : Pending) (id : Bytes) (b : BatchOp)

theorem writes_add : (p.add id b).writes =
    (p.writes.filter fun w => w.1 ∉ b.deletes ∧ w.1 ∉ b.transforms.map Transform.key) ++
      b.writes := by
  simp only [add, (foldl_addTransform b.transforms _).1, cancelWritten, cancelDeleted,
    filter_filter]
  congr 1
  exact filter_congr fun w _ => by simp [Bool.and_comm]

theorem deletes_add : (p.add id b).deletes =
    (p.deletes.filter fun d => d ∉ b.writes.map Prod.fst ∧ d ∉ b.transforms.map Transform.key) ++
      b.deletes := by
  simp only [add, (foldl_addTransform b.transforms _).2.1, cancelWritten, cancelDeleted,
    filter_filter]
  congr 1
  exact filter_congr fun w _ => by simp [Bool.and_comm]

theorem transforms_add : (p.add id b).transforms =
    joinAll (p.transforms.filter fun t => t.key ∉ b.deletes ∧ t.key ∉ b.writes.map Prod.fst)
      b.transforms := by
  simp only [add, (foldl_addTransform b.transforms _).2.2, cancelWritten, cancelDeleted,
    filter_filter]
  congr 1
  exact filter_congr fun w _ => by simp [Bool.and_comm]

/-- A batch with nothing waiting. -/
abbrev alone : Pending := Pending.empty.add id b

@[simp] theorem writes_alone : (alone id b).writes = b.writes := by
  simp [writes_add, empty]

@[simp] theorem deletes_alone : (alone id b).deletes = b.deletes := by
  simp [deletes_add, empty]

@[simp] theorem transforms_alone : (alone id b).transforms = joinAll [] b.transforms := by
  simp [transforms_add, empty]

theorem mem_transforms_alone {k : Bytes} :
    k ∈ (alone id b).transforms.map Transform.key ↔ k ∈ b.transforms.map Transform.key := by
  rw [transforms_alone, mem_joinAll_keys]
  simp

/-- The waiting transforms after a batch: those it leaves, joined by its own, then its new ones. -/
theorem transforms_add_eq (hp : (p.transforms.map Transform.key).Nodup) :
    (p.add id b).transforms =
      (p.kept (alone id b)).map (joinedWith (alone id b).transforms) ++
        (alone id b).transforms.filter fun t =>
          t.key ∉ (p.kept (alone id b)).map Transform.key := by
  have hkept : (p.kept (alone id b)) =
      p.transforms.filter fun t => t.key ∉ b.deletes ∧ t.key ∉ b.writes.map Prod.fst := by
    unfold kept
    rw [writes_alone, deletes_alone]
  have hnodup : ((p.kept (alone id b)).map Transform.key).Nodup := by
    rw [hkept]
    exact hp.sublist (filter_sublist.map _)
  rw [transforms_add, ← hkept, ← joinAll_joinAll_nil, ← transforms_alone id b,
    joinAll_eq hnodup]
  rw [transforms_alone]
  exact nodup_joinAll (by simp) b.transforms

end Pending

section Conditions

variable (c : Codec) (db db₁ : DBImpl) (bypass : Bool) (ts : ℕ)

/-- The batch `q` can be joined to the waiting batches `p` on the store `db`, where `db₁` is the
store `p` alone would leave.

Nothing of either fails.  What `q` reads (the edges its writes reconcile, the documents it
transforms) reads the same on both stores; a transform that joins a waiting one computes what it
would compute after it.  What `q` cancels it overwrites, or there is nothing to remove.  And `q` is
not overtaken by a waiting delete or transform it does not cancel. -/
structure Coalesces (p q : Pending) : Prop where
  applies : p.Applies c db bypass ts
  appliesNext : q.Applies c db₁ bypass ts
  readsWrites : ∀ w ∈ q.writes, writeOps c db bypass ts w = writeOps c db₁ bypass ts w
  readsTransforms : ∀ t ∈ q.transforms,
    resolveTransform c db (p.continuation q t) = resolveTransform c db₁ t
  readsResolved : ∀ t ∈ q.transforms, ∀ w, resolveTransform c db₁ t = .ok (some w) →
    writeOps c db bypass ts w = writeOps c db₁ bypass ts w
  overwritesWrites : ∀ w ∈ p.writes, w.1 ∈ q.transforms.map Transform.key → ∀ x,
    Touches (writeEdits c db bypass ts w) x → Touches (q.edits c db₁ bypass ts) x
  overwritesTransforms : ∀ t ∈ p.transforms,
    t.key ∈ q.writes.map Prod.fst ∨ t.key ∈ q.transforms.map Transform.key → ∀ x,
    Touches (transformEdits c db bypass ts t) x → Touches (q.edits c db₁ bypass ts) x
  overwritesDeletes : ∀ d ∈ p.deletes,
    d ∈ q.writes.map Prod.fst ∨ d ∈ q.transforms.map Transform.key → ∀ x,
    Touches (deleteOps db bypass d) x → Touches (q.edits c db₁ bypass ts) x ∨
      db.get? x = none ∧ ¬ Touches (p.writeEdits c db bypass ts ++ p.transformEdits c db bypass ts) x
  deletesFirst : ∀ d ∈ p.deletes,
    d ∉ q.writes.map Prod.fst → d ∉ q.transforms.map Transform.key → ∀ x,
    Touches (deleteOps db bypass d) x →
      ¬ Touches (q.writeEdits c db₁ bypass ts ++ q.transformEdits c db₁ bypass ts) x
  transformsFirst : ∀ t ∈ p.kept q, t.key ∉ q.transforms.map Transform.key → ∀ x,
    Touches (transformEdits c db bypass ts t) x → ¬ Touches (q.writeEdits c db₁ bypass ts) x
  joinedApart : ∀ t ∈ q.transforms, t.key ∈ (p.kept q).map Transform.key → ∀ x,
    Touches (transformEdits c db₁ bypass ts t) x →
      (∀ t' ∈ q.transforms, t'.key ≠ t.key → ¬ Touches (transformEdits c db₁ bypass ts t') x) ∧
      ∀ s ∈ p.kept q, s.key ≠ t.key → ¬ Touches (transformEdits c db bypass ts s) x

variable {c db db₁ bypass ts} in
theorem Coalesces.of_deletes {p q : Pending} (hp : p.Applies c db bypass ts) (hw : q.writes = [])
    (ht : q.transforms = []) : Coalesces c db db₁ bypass ts p q := by
  have hwrites : q.writeEdits c db₁ bypass ts = [] := by simp [Pending.writeEdits, hw]
  have htransforms : q.transformEdits c db₁ bypass ts = [] := by simp [Pending.transformEdits, ht]
  have hnone : ∀ x, ¬ Touches [] x := fun x => not_touches.mpr rfl
  refine
    { applies := hp
      appliesNext := ⟨by simp [hw], by simp [ht]⟩
      readsWrites := by simp [hw]
      readsTransforms := by simp [ht]
      readsResolved := by simp [ht]
      overwritesWrites := by simp [ht]
      overwritesTransforms := by simp [hw, ht]
      overwritesDeletes := by simp [hw, ht]
      deletesFirst := fun d _ _ _ x _ => ?_
      transformsFirst := fun t _ _ x _ => ?_
      joinedApart := by simp [ht] }
  · rw [hwrites, htransforms]
    exact hnone x
  · rw [hwrites]
    exact hnone x

end Conditions

section Step

variable {c : Codec} {db db₁ : DBImpl} {bypass : Bool} {ts : ℕ} {p : Pending} {id : Bytes}
  {b : BatchOp}

open Pending

theorem appliesKey_congr (h : db.config = db₁.config) : appliesKey db = appliesKey db₁ := by
  simp only [DBImpl.config, DBConfig.mk.injEq] at h
  obtain ⟨hr, hs, hm, -, -⟩ := h
  funext bypass k
  simp only [appliesKey, ownsKey, hr, hs, hm]

theorem deleteOps_congr (h : db.config = db₁.config) : deleteOps db bypass = deleteOps db₁ bypass := by
  funext k
  unfold deleteOps
  rw [appliesKey_congr h]

private theorem nodup_kept (hp : (p.transforms.map Transform.key).Nodup) (q : Pending) :
    ((p.kept q).map Transform.key).Nodup :=
  hp.sublist (filter_sublist.map _)

variable {s t : Transform} {x : Bytes}

private theorem eq_of_key_eq {l : List Transform} (hl : (l.map Transform.key).Nodup) (hs : s ∈ l)
    (ht : t ∈ l) (h : s.key = t.key) :
    s = t :=
  inj_on_of_nodup_map hl hs ht h

private theorem nodup_alone : ((alone id b).transforms.map Transform.key).Nodup := by
  rw [transforms_alone]
  exact nodup_joinAll (by simp) b.transforms

theorem resolveTransform_new (h : Coalesces c db db₁ bypass ts p (alone id b))
    (ht : t ∈ (alone id b).transforms) (hnew : t.key ∉ (p.kept (alone id b)).map Transform.key) :
    resolveTransform c db t = resolveTransform c db₁ t := by
  have hfind : ((p.kept (alone id b)).find? fun s => s.key = t.key) = none := by
    rw [find?_eq_none]
    intro s hs hkey
    exact hnew (mem_map.mpr ⟨s, hs, by simpa using hkey⟩)
  have hread := h.readsTransforms t ht
  rwa [continuation, hfind] at hread

private theorem resolveTransform_joined (h : Coalesces c db db₁ bypass ts p (alone id b))
    (hp : (p.transforms.map Transform.key).Nodup) (hs : s ∈ p.kept (alone id b))
    (ht : t ∈ (alone id b).transforms) (hkey : t.key = s.key) :
    resolveTransform c db (joinedWith (alone id b).transforms s) = resolveTransform c db₁ t := by
  have hfind : ((p.kept (alone id b)).find? fun u => u.key = t.key) = some s := by
    cases hf : (p.kept (alone id b)).find? fun u => u.key = t.key with
    | none =>
      have hno := find?_eq_none.mp hf s hs
      simp [hkey] at hno
    | some u =>
      have hu := find?_some hf
      have hmem := mem_of_find?_eq_some hf
      rw [eq_of_key_eq (nodup_kept hp _) hmem hs ((by simpa using hu : u.key = t.key).trans hkey)]
  have hread := h.readsTransforms t ht
  rw [continuation, hfind] at hread
  rw [joinedWith_of_mem nodup_alone ht hkey]
  exact hread

private theorem transformEdits_of_resolve (h : Coalesces c db db₁ bypass ts p (alone id b))
    (ht : t ∈ (alone id b).transforms)
    (hread : resolveTransform c db s = resolveTransform c db₁ t) :
    transformEdits c db bypass ts s = transformEdits c db₁ bypass ts t := by
  unfold transformEdits
  rw [hread]
  split
  · rename_i w hw
    rw [writeEdits, writeEdits, h.readsResolved t ht w hw]
  · rfl

private theorem transformEdits_new (h : Coalesces c db db₁ bypass ts p (alone id b))
    (ht : t ∈ (alone id b).transforms) (hnew : t.key ∉ (p.kept (alone id b)).map Transform.key) :
    transformEdits c db bypass ts t = transformEdits c db₁ bypass ts t :=
  transformEdits_of_resolve h ht (resolveTransform_new h ht hnew)

private theorem transformEdits_joined (h : Coalesces c db db₁ bypass ts p (alone id b))
    (hp : (p.transforms.map Transform.key).Nodup) (hs : s ∈ p.kept (alone id b))
    (ht : t ∈ (alone id b).transforms) (hkey : t.key = s.key) :
    transformEdits c db bypass ts (joinedWith (alone id b).transforms s) =
      transformEdits c db₁ bypass ts t :=
  transformEdits_of_resolve h ht (resolveTransform_joined h hp hs ht hkey)

private theorem lastEffect_transformEdits_of_touches
    (h : Coalesces c db db₁ bypass ts p (alone id b))
    (hp : (p.transforms.map Transform.key).Nodup)
    (hx : Touches ((alone id b).transformEdits c db₁ bypass ts) x) :
    OrdMap.lastEffect ((p.add id b).transformEdits c db bypass ts) x =
      OrdMap.lastEffect ((alone id b).transformEdits c db₁ bypass ts) x := by
  set q := alone id b with hq
  set K := (p.kept q).map Transform.key with hK
  unfold Pending.transformEdits at hx ⊢
  rw [transforms_add_eq p id b hp, ← hq, ← hK, flatMap_append, lastEffect_append]
  have hnew : OrdMap.lastEffect ((q.transforms.filter fun t => t.key ∉ K).flatMap
      (transformEdits c db bypass ts)) x = OrdMap.lastEffect ((q.transforms.filter fun t =>
        t.key ∉ K).flatMap (transformEdits c db₁ bypass ts)) x := by
    refine lastEffect_flatMap_congr fun t ht => ?_
    obtain ⟨ht, htK⟩ := mem_filter.mp ht
    rw [transformEdits_new h ht (of_decide_eq_true htK)]
  rw [hnew]
  by_cases hex : ∃ t ∈ q.transforms, t.key ∈ K ∧ Touches (transformEdits c db₁ bypass ts t) x
  · -- A transform that joins a waiting one is the only one of either batch that touches `x`.
    obtain ⟨t, ht, htK, htx⟩ := hex
    obtain ⟨hapart, hkept⟩ := h.joinedApart t ht htK x htx
    have hnone : OrdMap.lastEffect ((q.transforms.filter fun t => t.key ∉ K).flatMap
        (transformEdits c db₁ bypass ts)) x = none := by
      rw [lastEffect_flatMap_eq_none_iff]
      intro t' ht'
      rw [mem_filter] at ht'
      have hne : t'.key ≠ t.key := fun heq => absurd (heq ▸ htK) (by simpa using ht'.2)
      exact not_touches.mp (hapart t' ht'.1 hne)
    have hright : OrdMap.lastEffect (q.transforms.flatMap (transformEdits c db₁ bypass ts)) x =
        OrdMap.lastEffect (transformEdits c db₁ bypass ts t) x := by
      refine lastEffect_flatMap_of_unique ht fun t' ht' hne => ?_
      have hkey : t'.key ≠ t.key := fun heq => hne (eq_of_key_eq nodup_alone ht' ht heq)
      exact lastEffect_eq_none_iff.mp (not_touches.mp (hapart t' ht' hkey))
    obtain ⟨s, hs, hsk⟩ := mem_map.mp htK
    have hleft : OrdMap.lastEffect (((p.kept q).map (joinedWith q.transforms)).flatMap
        (transformEdits c db bypass ts)) x =
          OrdMap.lastEffect (transformEdits c db bypass ts (joinedWith q.transforms s)) x := by
      refine lastEffect_flatMap_of_unique (mem_map_of_mem hs) fun j hj hne => ?_
      obtain ⟨s', hs', rfl⟩ := mem_map.mp hj
      have hkey : s'.key ≠ t.key := by
        intro heq
        exact hne (by rw [eq_of_key_eq (nodup_kept hp q) hs' hs (heq.trans hsk.symm)])
      refine lastEffect_eq_none_iff.mp (not_touches.mp ?_)
      by_cases hmem : s'.key ∈ q.transforms.map Transform.key
      · obtain ⟨t', ht', hk'⟩ := mem_map.mp hmem
        rw [transformEdits_joined h hp hs' ht' hk']
        exact hapart t' ht' (hk' ▸ hkey)
      · rw [joinedWith_of_not_mem hmem]
        exact hkept s' hs' hkey
    rw [hnone, Option.none_or, hleft, hright, transformEdits_joined h hp hs ht hsk.symm]
  · -- Only new transforms touch `x`, and they come last.
    have hall : OrdMap.lastEffect ((q.transforms.filter fun t => t.key ∉ K).flatMap
        (transformEdits c db₁ bypass ts)) x =
          OrdMap.lastEffect (q.transforms.flatMap (transformEdits c db₁ bypass ts)) x := by
      refine lastEffect_flatMap_filter fun t ht hno => ?_
      refine not_touches.mp fun htx => hex ⟨t, ht, by simpa using hno, htx⟩
    rw [hall]
    obtain ⟨o, ho⟩ := Option.ne_none_iff_exists'.mp hx
    rw [ho, Option.some_or]

private theorem lastEffect_transformEdits_of_not_touches
    (h : Coalesces c db db₁ bypass ts p (alone id b))
    (hp : (p.transforms.map Transform.key).Nodup)
    (hx : ¬ Touches ((alone id b).transformEdits c db₁ bypass ts) x) :
    OrdMap.lastEffect ((p.add id b).transformEdits c db bypass ts) x =
      OrdMap.lastEffect (((p.kept (alone id b)).filter fun s =>
        s.key ∉ (alone id b).transforms.map Transform.key).flatMap
          (transformEdits c db bypass ts)) x := by
  set q := alone id b with hq
  have hnone : ∀ t ∈ q.transforms, OrdMap.lastEffect (transformEdits c db₁ bypass ts t) x = none :=
    lastEffect_flatMap_eq_none_iff.mp (not_touches.mp hx)
  unfold Pending.transformEdits
  rw [transforms_add_eq p id b hp, ← hq, flatMap_append, lastEffect_append]
  have hnew : OrdMap.lastEffect ((q.transforms.filter fun t =>
      t.key ∉ (p.kept q).map Transform.key).flatMap (transformEdits c db bypass ts)) x = none := by
    rw [lastEffect_flatMap_eq_none_iff]
    intro t ht
    rw [mem_filter] at ht
    rw [transformEdits_new h ht.1 (by simpa using ht.2)]
    exact hnone t ht.1
  rw [hnew, Option.none_or, flatMap_map]
  have hfilter := lastEffect_flatMap_filter (l := p.kept q)
    (f := fun s => transformEdits c db bypass ts (joinedWith q.transforms s))
    (p := fun s => s.key ∉ q.transforms.map Transform.key) (x := x) fun s hs hno => by
      obtain ⟨t, ht, hkey⟩ : ∃ t ∈ q.transforms, t.key = s.key := by simpa using hno
      rw [transformEdits_joined h hp hs ht hkey]
      exact hnone t ht
  rw [← hfilter]
  refine lastEffect_flatMap_congr fun s hs => ?_
  rw [joinedWith_of_not_mem (of_decide_eq_true (mem_filter.mp hs).2)]

private theorem lastEffect_edits (q : Pending) (x : Bytes) :
    OrdMap.lastEffect (q.edits c db bypass ts) x =
      (OrdMap.lastEffect (q.deleteEdits db bypass) x).or
        ((OrdMap.lastEffect (q.transformEdits c db bypass ts) x).or
          (OrdMap.lastEffect (q.writeEdits c db bypass ts) x)) := by
  rw [Pending.edits, lastEffect_append, lastEffect_append]

private theorem touches_edits {q : Pending}
    (hd : OrdMap.lastEffect (q.deleteEdits db bypass) x = none) :
    Touches (q.edits c db bypass ts) x ↔
      Touches (q.writeEdits c db bypass ts ++ q.transformEdits c db bypass ts) x := by
  unfold Touches
  rw [lastEffect_edits, hd, Option.none_or, lastEffect_append]

private theorem lastEffect_writeEdits_add (h : Coalesces c db db₁ bypass ts p (alone id b))
    (x : Bytes) :
    OrdMap.lastEffect ((p.add id b).writeEdits c db bypass ts) x =
      (OrdMap.lastEffect ((alone id b).writeEdits c db₁ bypass ts) x).or
        (OrdMap.lastEffect ((p.writes.filter fun w => w.1 ∉ b.deletes ∧
          w.1 ∉ b.transforms.map Transform.key).flatMap (writeEdits c db bypass ts)) x) := by
  have hread : (alone id b).writeEdits c db bypass ts = (alone id b).writeEdits c db₁ bypass ts :=
    flatMap_congr fun w hw => by rw [writeEdits, writeEdits, h.readsWrites w hw]
  rw [← hread]
  unfold Pending.writeEdits
  rw [writes_add, writes_alone, flatMap_append, lastEffect_append]

private theorem lastEffect_deleteEdits_add (x : Bytes) :
    OrdMap.lastEffect ((p.add id b).deleteEdits db bypass) x =
      (OrdMap.lastEffect ((alone id b).deleteEdits db bypass) x).or
        (OrdMap.lastEffect ((p.deletes.filter fun d => d ∉ b.writes.map Prod.fst ∧
          d ∉ b.transforms.map Transform.key).flatMap (deleteOps db bypass)) x) := by
  unfold Pending.deleteEdits
  rw [deletes_add, deletes_alone, flatMap_append, lastEffect_append]

/-- Joining a batch to the waiting ones and applying them together leaves what applying them one
after the other leaves. -/
theorem get?_edits_add (hcfg : db.config = db₁.config)
    (hp : (p.transforms.map Transform.key).Nodup)
    (h : Coalesces c db db₁ bypass ts p (alone id b)) (x : Bytes) :
    (db.applyOps ((p.add id b).edits c db bypass ts)).get? x =
      ((db.applyOps (p.edits c db bypass ts)).applyOps ((alone id b).edits c db₁ bypass ts)).get?
        x := by
  set q := alone id b with hq
  have hqd : q.deleteEdits db bypass = q.deleteEdits db₁ bypass := by
    simp only [Pending.deleteEdits, deleteOps_congr hcfg]
  rw [DBImpl.get?_applyOps, DBImpl.get?_applyOps, DBImpl.get?_applyOps, lastEffect_edits (p.add id b),
    lastEffect_deleteEdits_add, lastEffect_writeEdits_add h, ← hq]
  rcases lastEffect_deleteEdits (x := x) q.deletes with hd | hd
  swap
  · -- A delete of the batch comes last both times.
    have hright : OrdMap.lastEffect (q.edits c db₁ bypass ts) x = some none := by
      rw [lastEffect_edits, ← hqd]
      change (OrdMap.lastEffect (q.deletes.flatMap (deleteOps db bypass)) x).or _ = _
      rw [hd, Option.some_or]
    have hleft : OrdMap.lastEffect (q.deleteEdits db bypass) x = some none := hd
    rw [hright, hleft, Option.some_or, Option.some_or, Option.getD_some, Option.getD_some]
  have hd' : OrdMap.lastEffect (q.deleteEdits db bypass) x = none := hd
  have hd₁ : OrdMap.lastEffect (q.deleteEdits db₁ bypass) x = none := hqd ▸ hd'
  -- What the deletes of the batch cancel does not touch `x`, for they would remove it.
  have hdeleted : ∀ k, k ∈ b.deletes →
      ¬ (appliesKey db bypass k = true ∧ (x = k ∨ TouchedBy k x)) := by
    intro k hk htouch
    have hnone := lastEffect_flatMap_eq_none_iff.mp hd' k (by rw [hq, deletes_alone]; exact hk)
    rw [touches_deleteOps htouch] at hnone
    cases hnone
  rw [hd', Option.none_or]
  by_cases htouch : Touches (q.writeEdits c db₁ bypass ts ++ q.transformEdits c db₁ bypass ts) x
  · have hdeletes : OrdMap.lastEffect ((p.deletes.filter fun d => d ∉ b.writes.map Prod.fst ∧
        d ∉ b.transforms.map Transform.key).flatMap (deleteOps db bypass)) x = none := by
      rw [lastEffect_flatMap_eq_none_iff]
      intro d hd
      obtain ⟨hmem, hno⟩ := mem_filter.mp hd
      have hno' := of_decide_eq_true hno
      refine not_touches.mp fun hdx => h.deletesFirst d hmem ?_ ?_ x hdx htouch
      · rw [hq, writes_alone]
        exact hno'.1
      · rw [hq, mem_transforms_alone]
        exact hno'.2
    rw [hdeletes, Option.none_or, lastEffect_edits, hd₁, Option.none_or]
    by_cases htransform : Touches (q.transformEdits c db₁ bypass ts) x
    · rw [lastEffect_transformEdits_of_touches h hp htransform, ← hq]
      obtain ⟨o, ho⟩ := Option.ne_none_iff_exists'.mp htransform
      simp only [ho, Option.some_or, Option.getD_some]
    · have hwrite : Touches (q.writeEdits c db₁ bypass ts) x :=
        (touches_append.mp htouch).resolve_right htransform
      have hkept : OrdMap.lastEffect (((p.kept q).filter fun s =>
          s.key ∉ q.transforms.map Transform.key).flatMap (transformEdits c db bypass ts)) x =
            none := by
        rw [lastEffect_flatMap_eq_none_iff]
        intro s hs
        obtain ⟨hmem, hno⟩ := mem_filter.mp hs
        exact not_touches.mp fun hsx =>
          h.transformsFirst s hmem (of_decide_eq_true hno) x hsx hwrite
      rw [lastEffect_transformEdits_of_not_touches h hp htransform, ← hq, hkept,
        not_touches.mp htransform, Option.none_or, Option.none_or]
      obtain ⟨o, ho⟩ := Option.ne_none_iff_exists'.mp hwrite
      simp only [ho, Option.some_or, Option.getD_some]
  · have hedits : ¬ Touches (q.edits c db₁ bypass ts) x := fun hx =>
      htouch ((touches_edits hd₁).mp hx)
    obtain ⟨hqw, hqt⟩ := not_or.mp (fun hor => htouch (touches_append.mpr hor))
    have hwrites : OrdMap.lastEffect ((p.writes.filter fun w => w.1 ∉ b.deletes ∧
        w.1 ∉ b.transforms.map Transform.key).flatMap (writeEdits c db bypass ts)) x =
          OrdMap.lastEffect (p.writeEdits c db bypass ts) x := by
      refine lastEffect_flatMap_filter fun w hw hno => not_touches.mp fun hwx => ?_
      have hcancelled : ¬ (w.1 ∉ b.deletes ∧ w.1 ∉ b.transforms.map Transform.key) :=
        of_decide_eq_false hno
      rw [not_and_or, not_not, not_not] at hcancelled
      rcases hcancelled with hdel | htr
      · exact hdeleted w.1 hdel (touches_writeEdits hwx)
      · exact hedits (h.overwritesWrites w hw ((mem_transforms_alone id b).mpr htr) x hwx)
    have htransforms : OrdMap.lastEffect (((p.kept q).filter fun s =>
        s.key ∉ q.transforms.map Transform.key).flatMap (transformEdits c db bypass ts)) x =
          OrdMap.lastEffect (p.transformEdits c db bypass ts) x := by
      unfold kept
      rw [filter_filter]
      refine lastEffect_flatMap_filter fun t ht hno => not_touches.mp fun htx => ?_
      by_cases hdel : t.key ∈ q.deletes
      · rw [hq, deletes_alone] at hdel
        exact hdeleted t.key hdel (touches_transformEdits htx)
      · have hover : t.key ∈ q.writes.map Prod.fst ∨
            t.key ∈ q.transforms.map Transform.key := by
          by_contra hneither
          rw [not_or] at hneither
          simp [hdel, hneither.1, hneither.2] at hno
        exact hedits (h.overwritesTransforms t ht hover x htx)
    rw [lastEffect_transformEdits_of_not_touches h hp hqt, ← hq, htransforms, hwrites,
      not_touches.mp hqw, Option.none_or, not_touches.mp hedits, Option.getD_none,
      lastEffect_edits p]
    by_cases hcancelled : ∃ d ∈ p.deletes, (d ∈ b.writes.map Prod.fst ∨
        d ∈ b.transforms.map Transform.key) ∧ Touches (deleteOps db bypass d) x
    · -- A cancelled delete had nothing to remove at `x`.
      obtain ⟨d, hdmem, hdc, hdx⟩ := hcancelled
      have hdc' : d ∈ q.writes.map Prod.fst ∨ d ∈ q.transforms.map Transform.key := by
        rw [hq, writes_alone, mem_transforms_alone]
        exact hdc
      obtain ⟨habsent, hnone⟩ := (h.overwritesDeletes d hdmem hdc' x hdx).resolve_left hedits
      obtain ⟨hpw, hpt⟩ := not_or.mp (fun hor => hnone (touches_append.mpr hor))
      rw [not_touches.mp hpw, not_touches.mp hpt, habsent, Option.none_or, Option.or_none,
        Option.or_none]
      unfold Pending.deleteEdits
      rcases lastEffect_deleteEdits (x := x) (p.deletes.filter fun d =>
        d ∉ b.writes.map Prod.fst ∧ d ∉ b.transforms.map Transform.key) with hl | hl <;>
        rcases lastEffect_deleteEdits (x := x) p.deletes with hr | hr <;>
        rw [hl, hr] <;> rfl
    · have hdeletes : OrdMap.lastEffect ((p.deletes.filter fun d => d ∉ b.writes.map Prod.fst ∧
          d ∉ b.transforms.map Transform.key).flatMap (deleteOps db bypass)) x =
            OrdMap.lastEffect (p.deleteEdits db bypass) x := by
        refine lastEffect_flatMap_filter fun d hd hno => not_touches.mp fun hdx => ?_
        have hno' : ¬ (d ∉ b.writes.map Prod.fst ∧ d ∉ b.transforms.map Transform.key) :=
          of_decide_eq_false hno
        rw [not_and_or, not_not, not_not] at hno'
        exact hcancelled ⟨d, hd, hno', hdx⟩
      rw [hdeletes]

theorem applies_add (hp : (p.transforms.map Transform.key).Nodup)
    (h : Coalesces c db db₁ bypass ts p (alone id b)) : (p.add id b).Applies c db bypass ts := by
  have hnext : ∀ s t, t ∈ (alone id b).transforms →
      resolveTransform c db s = resolveTransform c db₁ t → ∃ o, resolveTransform c db s = .ok o ∧
        ∀ w, o = some w → ∃ ops, writeOps c db bypass ts w = .ok ops := by
    intro s t ht hread
    obtain ⟨o, ho, hops⟩ := h.appliesNext.transforms t ht
    refine ⟨o, hread.trans ho, fun w hw => ?_⟩
    rw [h.readsResolved t ht w (by rw [ho, hw])]
    exact hops w hw
  refine ⟨fun w hw => ?_, fun t ht => ?_⟩
  · rw [writes_add, mem_append] at hw
    rcases hw with hw | hw
    · exact h.applies.writes w (mem_filter.mp hw).1
    · have hq : w ∈ (alone id b).writes := by rwa [writes_alone]
      rw [h.readsWrites w hq]
      exact h.appliesNext.writes w hq
  · rw [transforms_add_eq p id b hp, mem_append] at ht
    rcases ht with ht | ht
    · obtain ⟨s, hs, rfl⟩ := mem_map.mp ht
      by_cases hmem : s.key ∈ (alone id b).transforms.map Transform.key
      · obtain ⟨t', ht', hkey⟩ := mem_map.mp hmem
        exact hnext _ t' ht' (resolveTransform_joined h hp hs ht' hkey)
      · rw [joinedWith_of_not_mem hmem]
        exact h.applies.transforms s (mem_filter.mp hs).1
    · obtain ⟨ht', hnew⟩ := mem_filter.mp ht
      exact hnext t t ht' (resolveTransform_new h ht' (of_decide_eq_true hnew))

end Step

def DeltaLogKey (x : Bytes) : Prop :=
  splitDeltaPrefix <+: x ∨ x = splitDeltaSeqKey ∨ mergeDeltaPrefix <+: x ∨ x = mergeDeltaSeqKey

theorem DeltaLogKey.metadata {x : Bytes} (h : DeltaLogKey x) : metadataPrefix <+: x := by
  rcases h with h | rfl | h | rfl
  · exact List.IsPrefix.trans (by decide) h
  · decide
  · exact List.IsPrefix.trans (by decide) h
  · decide

theorem not_splitDelta {x : Bytes} (hx : ¬ DeltaLogKey x) (seq : ℕ) :
    x ≠ splitDeltaEntryKey seq ∧ x ≠ splitDeltaSeqKey := by
  refine ⟨?_, fun h => hx (.inr (.inl h))⟩
  rintro rfl
  exact hx (.inl (prefix_append _ _))

theorem not_mergeDelta {x : Bytes} (hx : ¬ DeltaLogKey x) (seq : ℕ) :
    x ≠ mergeDeltaEntryKey seq ∧ x ≠ mergeDeltaSeqKey := by
  refine ⟨?_, fun h => hx (.inr (.inr (.inr h)))⟩
  rintro rfl
  exact hx (.inr (.inr (.inl (prefix_append _ _))))

theorem lastEffect_sets {k k' x : Bytes} {v v' : Stored} (h : x ≠ k) (h' : x ≠ k') :
    OrdMap.lastEffect [.set k v, .set k' v'] x = none := by
  rw [OrdMap.lastEffect_eq_none_iff]
  intro e he
  simp only [mem_cons, not_mem_nil, or_false] at he
  rcases he with rfl | rfl
  · simp [OrdMap.Edit.effect, h]
  · simp [OrdMap.Edit.effect, h']

/-- The same configuration, documents, enrichments and records. -/
structure SameContent (db db' : DBImpl) : Prop where
  config : db.config = db'.config
  content : ∀ x, ¬ DeltaLogKey x → db.get? x = db'.get? x

namespace SameContent

variable {c : Codec} {db db' db'' : DBImpl}

theorem refl (db : DBImpl) : SameContent db db := ⟨rfl, fun _ _ => rfl⟩

theorem symm (h : SameContent db db') : SameContent db' db :=
  ⟨h.config.symm, fun x hx => (h.content x hx).symm⟩

theorem trans (h : SameContent db db') (h' : SameContent db' db'') : SameContent db db'' :=
  ⟨h.config.trans h'.config, fun x hx => (h.content x hx).trans (h'.content x hx)⟩

theorem applyOps (h : SameContent db db') (ops : List PebbleOp) :
    SameContent (db.applyOps ops) (db'.applyOps ops) :=
  ⟨h.config, fun x hx => by rw [DBImpl.get?_applyOps, DBImpl.get?_applyOps, h.content x hx]⟩

theorem of_appendSplitDelta (db : DBImpl) (entry : List Write × List Bytes) (ts : ℕ) :
    SameContent (appendSplitDelta db entry ts) db := by
  refine ⟨config_appendSplitDelta db entry ts, fun x hx => ?_⟩
  unfold appendSplitDelta
  split
  · rfl
  · obtain ⟨hentry, hseq⟩ := not_splitDelta hx _
    change (db.pdb.applyAll _).get? x = db.pdb.get? x
    rw [OrdMap.get?_applyAll, lastEffect_sets hentry hseq]
    rfl

theorem of_appendMergeDelta (db : DBImpl) (entry : List Write × List Bytes) (ts : ℕ) :
    SameContent (appendMergeDelta db entry ts) db := by
  refine ⟨config_appendMergeDelta db entry ts, fun x hx => ?_⟩
  unfold appendMergeDelta
  split
  · rfl
  · obtain ⟨hentry, hseq⟩ := not_mergeDelta hx _
    change (db.pdb.applyAll _).get? x = db.pdb.get? x
    rw [OrdMap.get?_applyAll, lastEffect_sets hentry hseq]
    rfl

theorem appends (h : SameContent db db') (e₁ e₂ e₁' e₂' : List Write × List Bytes) (ts ts' : ℕ) :
    SameContent (appendMergeDelta (appendSplitDelta db e₁ ts) e₂ ts)
      (appendMergeDelta (appendSplitDelta db' e₁' ts') e₂' ts') :=
  ((of_appendMergeDelta _ e₂ ts).trans (of_appendSplitDelta _ e₁ ts)).trans
    (h.trans ((of_appendMergeDelta _ e₂' ts').trans (of_appendSplitDelta _ e₁' ts')).symm)

theorem writeOps (h : SameContent db db') {w : Write} (hw : ¬ metadataPrefix <+: w.1)
    (bypass : Bool) (ts : ℕ) : writeOps c db bypass ts w = writeOps c db' bypass ts w := by
  have hcfg := h.config
  simp only [DBImpl.config, DBConfig.mk.injEq] at hcfg
  have hext : extractAndWriteSpecialFields c db w.2 w.1 =
      extractAndWriteSpecialFields c db' w.2 w.1 :=
    extractAndWriteSpecialFields_congr hcfg.2.2.2.1 fun x hx => h.content x fun hdelta =>
      metadata_not_touchedBy hw hdelta.metadata (.inr hx)
  unfold Antfly.writeOps storeWriteOps documentWriteOps
  rw [appliesKey_congr h.config, hext]

theorem resolveTransform (h : SameContent db db') {t : Transform}
    (ht : ¬ metadataPrefix <+: t.key) :
    resolveTransform c db t = resolveTransform c db' t := by
  have hcfg := h.config
  simp only [DBImpl.config, DBConfig.mk.injEq] at hcfg
  have hkeys : ∀ x, t.key ++ [58] <+: x → db.get? x = db'.get? x := fun x hx =>
    h.content x fun hdelta => metadata_not_continues ht hdelta.metadata hx
  have hget : getDocument c db t.key = getDocument c db' t.key := by
    refine getDocument_congr c hcfg.2.2.2.2.2 (hkeys _ ?_) fun x hl hr => hkeys x ?_
    · exact ⟨[116], by simp [timestampKey, transactionSuffix, ascii]⟩
    · have hlow : t.key ++ [58] ≤ x :=
        (Lex.le_of_prefix ⟨[0], by simp [keyRangeStart, dbRangeStart, ascii]⟩).trans hl
      have hsucc : prefixSuccessor (t.key ++ [58]) = prefixSuccessor (keyRangeEnd t.key) := by
        rw [prefixSuccessor_keyRangeEnd, prefixSuccessor_append_singleton t.key (by decide)]
        rfl
      exact (mem_prefix_range_iff (by decide)).mp ⟨hlow, hsucc ▸ hr⟩
  unfold Antfly.resolveTransform
  rw [hget]

end SameContent

/-- The keys of the documents the waiting batches are about. -/
def Pending.keys (p : Pending) : List Bytes :=
  p.writes.map Prod.fst ++ p.deletes ++ p.transforms.map Transform.key

theorem Pending.write_key (p : Pending) {w : Write} (hw : w ∈ p.writes) : w.1 ∈ p.keys :=
  mem_append_left _ (mem_append_left _ (mem_map_of_mem hw))

theorem Pending.delete_key (p : Pending) {d : Bytes} (hd : d ∈ p.deletes) : d ∈ p.keys :=
  mem_append_left _ (mem_append_right _ hd)

theorem Pending.transform_key (p : Pending) {t : Transform} (ht : t ∈ p.transforms) :
    t.key ∈ p.keys :=
  mem_append_right _ (mem_map_of_mem ht)

/-- The store a flush of `p` leaves. -/
def flushed (c : Codec) (db : DBImpl) (p : Pending) (level : SyncLevel) (ts : ℕ) : DBImpl :=
  (flushBatch c db p.writes p.deletes p.transforms level ts).1

theorem config_flushed (c : Codec) (db : DBImpl) (p : Pending) (level : SyncLevel) (ts : ℕ) :
    (flushed c db p level ts).config = db.config := config_flushBatch c db _ _ _ _ _

section Flushed

variable {c : Codec} {db db' db₁ : DBImpl} {p : Pending}

theorem SameContent.flushed (h : SameContent db db') (hp : ∀ k ∈ p.keys, ¬ metadataPrefix <+: k)
    (level : SyncLevel) (ts : ℕ) :
    SameContent (flushed c db p level ts) (flushed c db' p level ts) ∧
      (flushBatch c db p.writes p.deletes p.transforms level ts).2 =
        (flushBatch c db' p.writes p.deletes p.transforms level ts).2 := by
  have hwkeys : ∀ w ∈ p.writes, ¬ metadataPrefix <+: w.1 := fun w hw => hp w.1 (p.write_key hw)
  have htkeys : ∀ t ∈ p.transforms, ¬ metadataPrefix <+: t.key := fun t ht =>
    hp t.key (p.transform_key ht)
  have hresolve : resolveTransforms c db p.transforms = resolveTransforms c db' p.transforms := by
    unfold resolveTransforms
    rw [mapM_congr fun t ht => h.resolveTransform (htkeys t ht)]
  have hwrites : flushWrites c db p.writes p.transforms = flushWrites c db' p.writes p.transforms := by
    simp only [flushWrites, hresolve]
  have hcontent : contentOps c db level.bypasses ts (flushWrites c db p.writes p.transforms)
      p.deletes = contentOps c db' level.bypasses ts (flushWrites c db' p.writes p.transforms)
        p.deletes := by
    rw [← hwrites]
    unfold contentOps
    rw [mapM_congr fun w hw => h.writeOps (c := c) (w := w) ?_ level.bypasses ts,
      deleteOps_congr h.config]
    rcases mem_flushWrites hw with hw | ⟨t, ht, heq⟩
    · exact hwkeys w hw
    · exact heq ▸ htkeys t ht
  unfold Antfly.flushed flushBatch applyOpBatch
  rw [← hwrites] at hcontent ⊢
  by_cases hempty : ((flushWrites c db p.writes p.transforms).isEmpty && p.deletes.isEmpty) = true
  · rw [if_pos hempty, if_pos hempty]
    exact ⟨h, rfl⟩
  · rw [if_neg hempty, if_neg hempty]
    cases hops : contentOps c db level.bypasses ts (flushWrites c db p.writes p.transforms)
        p.deletes with
    | error e =>
      rw [batch_of_error hops, batch_of_error (hcontent ▸ hops)]
      exact ⟨h, rfl⟩
    | ok ops =>
      rw [batch_of_ok hops, batch_of_ok (hcontent ▸ hops)]
      exact ⟨(h.applyOps ops).appends _ _ _ _ ts ts, rfl⟩

variable {bypass bypass' : Bool}

private theorem writeOps_bypass {w : Write} (ts : ℕ)
    (h : appliesKey db bypass w.1 = appliesKey db bypass' w.1) :
    writeOps c db bypass ts w = writeOps c db bypass' ts w := by
  simp only [writeOps, h]

theorem edits_bypass (ts : ℕ) (h : ∀ k ∈ p.keys, appliesKey db bypass k = appliesKey db bypass' k) :
    p.edits c db bypass ts = p.edits c db bypass' ts ∧
      (p.Applies c db bypass ts ↔ p.Applies c db bypass' ts) := by
  have hwrite : ∀ w ∈ p.writes, writeOps c db bypass ts w = writeOps c db bypass' ts w :=
    fun w hw => writeOps_bypass ts (h w.1 (p.write_key hw))
  have hresolved : ∀ t ∈ p.transforms, ∀ w, resolveTransform c db t = .ok (some w) →
      writeOps c db bypass ts w = writeOps c db bypass' ts w := fun t ht w hw =>
    writeOps_bypass ts (by rw [key_of_resolveTransform hw]; exact h t.key (p.transform_key ht))
  refine ⟨?_, ⟨fun ha => ⟨?_, ?_⟩, fun ha => ⟨?_, ?_⟩⟩⟩
  · have hw : p.writeEdits c db bypass ts = p.writeEdits c db bypass' ts :=
      flatMap_congr fun w hw => by rw [writeEdits, writeEdits, hwrite w hw]
    have ht : p.transformEdits c db bypass ts = p.transformEdits c db bypass' ts := by
      refine flatMap_congr fun t ht => ?_
      unfold transformEdits
      split
      · rename_i w hw
        rw [writeEdits, writeEdits, hresolved t ht w hw]
      · rfl
    have hd : p.deleteEdits db bypass = p.deleteEdits db bypass' :=
      flatMap_congr fun d hd => by simp only [deleteOps, h d (p.delete_key hd)]
    rw [Pending.edits, Pending.edits, hw, ht, hd]
  · exact fun w hw => hwrite w hw ▸ ha.writes w hw
  · intro t ht
    obtain ⟨o, ho, hops⟩ := ha.transforms t ht
    exact ⟨o, ho, fun w hw => hresolved t ht w (hw ▸ ho) ▸ hops w hw⟩
  · exact fun w hw => (hwrite w hw).symm ▸ ha.writes w hw
  · intro t ht
    obtain ⟨o, ho, hops⟩ := ha.transforms t ht
    exact ⟨o, ho, fun w hw => (hresolved t ht w (hw ▸ ho)).symm ▸ hops w hw⟩

theorem flushed_of_applies {level : SyncLevel} {ts : ℕ} (h : p.Applies c db level.bypasses ts) :
    SameContent (flushed c db p level ts) (db.applyOps (p.edits c db level.bypasses ts)) := by
  unfold flushed
  rw [flushBatch_of_applies h]
  exact (SameContent.of_appendMergeDelta _ _ ts).trans (SameContent.of_appendSplitDelta _ _ ts)

theorem flushed_add {id : Bytes} {b : BatchOp} {level level₁ level₂ : SyncLevel} {ts : ℕ}
    (hp : (p.transforms.map Transform.key).Nodup) (hdb₁ : flushed c db p level₁ ts = db₁)
    (h : Coalesces c db db₁ level.bypasses ts p (.alone id b))
    (hlevel₁ : ∀ k ∈ p.keys, appliesKey db level₁.bypasses k = appliesKey db level.bypasses k)
    (hlevel₂ : ∀ k ∈ (Pending.alone id b).keys,
      appliesKey db level₂.bypasses k = appliesKey db level.bypasses k) :
    SameContent (flushed c db (p.add id b) level ts) (flushed c db₁ (.alone id b) level₂ ts) := by
  have hcfg : db.config = db₁.config := by rw [← hdb₁, config_flushed]
  have hlevel₂' : ∀ k ∈ (Pending.alone id b).keys,
      appliesKey db₁ level₂.bypasses k = appliesKey db₁ level.bypasses k := by
    rw [← appliesKey_congr hcfg]
    exact hlevel₂
  obtain ⟨hedits₁, happ₁⟩ := edits_bypass (c := c) ts hlevel₁
  obtain ⟨hedits₂, happ₂⟩ := edits_bypass (c := c) ts hlevel₂'
  have hfirst : SameContent db₁ (db.applyOps (p.edits c db level.bypasses ts)) := by
    rw [← hdb₁, ← hedits₁]
    exact flushed_of_applies (happ₁.mpr h.applies)
  have hleft := flushed_of_applies (applies_add hp h)
  have hright := flushed_of_applies (happ₂.mpr h.appliesNext)
  rw [hedits₂] at hright
  refine hleft.trans (SameContent.trans ⟨?_, fun x hx => ?_⟩ hright.symm)
  · exact hcfg
  · rw [get?_edits_add hcfg hp h]
    exact ((hfirst.applyOps _).content x hx).symm

end Flushed

end Antfly
