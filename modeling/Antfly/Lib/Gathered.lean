import Antfly.Lib.OrdMap
import Mathlib.Data.List.Induction

/-!
An operation writes keys and then deletes keys.  Gathering a group of operations puts all their
writes before all their deletes.  A gathered group leaves a key as the operations one after the
other do, unless the last operation that touches the key writes it and an earlier one of the group
deletes it; and a sequence of gathered groups leaves a map as the operations do exactly when this
happens to no key in the last group that touches it.
-/

namespace OrdMap

open List

variable {α β : Type*} [LinearOrder α]

/-- Writes, then deletes. -/
structure KeyOp (α β : Type*) where
  writes : List (α × β)
  deletes : List α
  deriving DecidableEq

namespace KeyOp

def edits (op : KeyOp α β) : List (Edit α β) :=
  op.writes.map (fun kv => .set kv.1 kv.2) ++ op.deletes.map .delete

def Writes (op : KeyOp α β) (k : α) : Prop := k ∈ op.writes.map Prod.fst

def Touches (op : KeyOp α β) (k : α) : Prop := op.Writes k ∨ k ∈ op.deletes

variable {k : α} {op : KeyOp α β}

theorem effect_deletes {ks : List α} :
    lastEffect (ks.map .delete : List (Edit α β)) k = if k ∈ ks then some none else none := by
  split
  · rename_i hk
    apply lastEffect_eq_absent
    · exact ⟨.delete k, mem_map.mpr ⟨k, hk, rfl⟩, if_pos rfl⟩
    · intro e he
      obtain ⟨x, -, rfl⟩ := mem_map.mp he
      unfold Edit.effect
      dsimp only
      split
      · exact .inr rfl
      · exact .inl rfl
  · rename_i hk
    apply lastEffect_eq_none_iff.mpr
    intro e he
    obtain ⟨x, hx, rfl⟩ := mem_map.mp he
    apply if_neg
    rintro rfl
    exact hk hx

theorem effect_writes {kvs : List (α × β)} :
    (k ∈ kvs.map Prod.fst → ∃ v, lastEffect
      (kvs.map fun kv => (.set kv.1 kv.2 : Edit α β)) k = some (some v)) ∧
      (k ∉ kvs.map Prod.fst → lastEffect
        (kvs.map fun kv => (.set kv.1 kv.2 : Edit α β)) k = none) := by
  constructor
  · intro hk
    cases hlast : lastEffect (kvs.map fun kv => (.set kv.1 kv.2 : Edit α β)) k with
    | none =>
      obtain ⟨kv, hkv, rfl⟩ := mem_map.mp hk
      have hnone := lastEffect_eq_none_iff.mp hlast _ (mem_map.mpr ⟨kv, hkv, rfl⟩)
      unfold Edit.effect at hnone
      dsimp only at hnone
      rw [if_pos rfl] at hnone
      cases hnone
    | some o =>
      obtain ⟨e, he, heffect⟩ := exists_effect_of_lastEffect hlast
      obtain ⟨kv, -, rfl⟩ := mem_map.mp he
      unfold Edit.effect at heffect
      dsimp only at heffect
      split at heffect
      · cases heffect
        exact ⟨_, rfl⟩
      · cases heffect
  · intro hk
    apply lastEffect_eq_none_iff.mpr
    intro e he
    obtain ⟨kv, hkv, rfl⟩ := mem_map.mp he
    apply if_neg
    rintro rfl
    exact hk (mem_map.mpr ⟨kv, hkv, rfl⟩)

theorem lastEffect_edits (op : KeyOp α β) (k : α) :
    lastEffect op.edits k =
      if k ∈ op.deletes then some none
      else lastEffect (op.writes.map fun kv => (.set kv.1 kv.2 : Edit α β)) k := by
  unfold edits
  rw [lastEffect_append, effect_deletes]
  split
  · rfl
  · rfl

theorem lastEffect_edits_of_deleted (h : k ∈ op.deletes) : lastEffect op.edits k = some none := by
  rw [lastEffect_edits, if_pos h]

theorem lastEffect_edits_of_written (hw : op.Writes k) (hd : k ∉ op.deletes) :
    ∃ v, lastEffect op.edits k = some (some v) := by
  rw [lastEffect_edits, if_neg hd]
  exact effect_writes.1 hw

theorem lastEffect_edits_of_untouched (h : ¬op.Touches k) : lastEffect op.edits k = none := by
  rw [lastEffect_edits, if_neg fun hd => h (.inr hd)]
  exact effect_writes.2 fun hw => h (.inl hw)

end KeyOp

open KeyOp

/-- All the writes of a group, then all its deletes. -/
def gather (ops : List (KeyOp α β)) : KeyOp α β where
  writes := ops.flatMap KeyOp.writes
  deletes := ops.flatMap KeyOp.deletes

/-- The last operation of the group that touches the key writes it, and an earlier one deletes it. -/
def Rewrites (ops : List (KeyOp α β)) (k : α) : Prop :=
  ∃ pre op post, ops = pre ++ op :: post ∧ op.Writes k ∧ k ∉ op.deletes ∧
    (∃ o ∈ pre, k ∈ o.deletes) ∧ ∀ o ∈ post, ¬o.Touches k

def Untouched (ops : List (KeyOp α β)) (k : α) : Prop := ∀ op ∈ ops, ¬op.Touches k

variable {ops : List (KeyOp α β)} {k : α}

omit [LinearOrder α] in
theorem gather_touches : (gather ops).Touches k ↔ ∃ op ∈ ops, op.Touches k := by
  unfold gather KeyOp.Touches KeyOp.Writes
  dsimp only
  rw [mem_flatMap, map_flatMap, mem_flatMap]
  constructor
  · rintro (⟨op, hop, hk⟩ | ⟨op, hop, hk⟩)
    · exact ⟨op, hop, .inl hk⟩
    · exact ⟨op, hop, .inr hk⟩
  · rintro ⟨op, hop, hk | hk⟩
    · exact .inl ⟨op, hop, hk⟩
    · exact .inr ⟨op, hop, hk⟩

theorem lastEffect_flatMap_append_singleton (ops : List (KeyOp α β)) (op : KeyOp α β) (k : α) :
    lastEffect ((ops ++ [op]).flatMap KeyOp.edits) k =
      (lastEffect op.edits k).or (lastEffect (ops.flatMap KeyOp.edits) k) := by
  rw [flatMap_append, flatMap_singleton, lastEffect_append]

theorem lastEffect_gather_of_not_deleted (h : ∀ op ∈ ops, k ∉ op.deletes) :
    lastEffect (gather ops).edits k = lastEffect (ops.flatMap KeyOp.edits) k := by
  have hnot : k ∉ (gather ops).deletes := by
    intro hk
    obtain ⟨op, hop, hk⟩ := mem_flatMap.mp hk
    exact h op hop hk
  rw [lastEffect_edits, if_neg hnot]
  unfold gather
  dsimp only
  rw [map_flatMap]
  apply lastEffect_flatMap_congr
  intro op hop
  rw [lastEffect_edits, if_neg (h op hop)]

theorem lastEffect_gather_of_deleted (h : ∃ op ∈ ops, k ∈ op.deletes) :
    lastEffect (gather ops).edits k = some none := by
  obtain ⟨op, hop, hk⟩ := h
  exact lastEffect_edits_of_deleted (mem_flatMap.mpr ⟨op, hop, hk⟩)

theorem lastEffect_untouched (h : Untouched ops k) :
    lastEffect (gather ops).edits k = none ∧
      lastEffect (ops.flatMap KeyOp.edits) k = none := by
  constructor
  · apply lastEffect_edits_of_untouched
    rw [gather_touches]
    rintro ⟨op, hop, hk⟩
    exact h op hop hk
  · rw [lastEffect_flatMap_eq_none_iff]
    exact fun op hop => lastEffect_edits_of_untouched (h op hop)

theorem lastEffect_append_untouched {post : List (KeyOp α β)} (h : Untouched post k) :
    lastEffect ((ops ++ post).flatMap KeyOp.edits) k = lastEffect (ops.flatMap KeyOp.edits) k := by
  rw [flatMap_append, lastEffect_append, (lastEffect_untouched h).2, Option.none_or]

theorem lastEffect_of_rewrites (h : Rewrites ops k) :
    lastEffect (gather ops).edits k = some none ∧
      ∃ v, lastEffect (ops.flatMap KeyOp.edits) k = some (some v) := by
  obtain ⟨pre, op, post, rfl, hw, hd, ⟨o, ho, hk⟩, hpost⟩ := h
  constructor
  · exact lastEffect_gather_of_deleted ⟨o, mem_append_left _ ho, hk⟩
  · obtain ⟨v, hv⟩ := lastEffect_edits_of_written hw hd
    refine ⟨v, ?_⟩
    have hsplit : pre ++ op :: post = (pre ++ [op]) ++ post := by
      rw [append_assoc, singleton_append]
    rw [hsplit, lastEffect_append_untouched hpost, lastEffect_flatMap_append_singleton, hv]
    rfl

theorem gather_append_untouched {op : KeyOp α β} (h : ¬op.Touches k) :
    lastEffect (gather (ops ++ [op])).edits k = lastEffect (gather ops).edits k := by
  have hdeletes : k ∈ (gather (ops ++ [op])).deletes ↔ k ∈ (gather ops).deletes := by
    unfold gather
    dsimp only
    rw [flatMap_append, flatMap_singleton, mem_append]
    exact or_iff_left fun hd => h (.inr hd)
  have hwrites : lastEffect ((gather (ops ++ [op])).writes.map
      fun kv => (.set kv.1 kv.2 : Edit α β)) k =
      lastEffect ((gather ops).writes.map fun kv => (.set kv.1 kv.2 : Edit α β)) k := by
    unfold gather
    dsimp only
    rw [flatMap_append, flatMap_singleton, map_append, lastEffect_append,
      effect_writes.2 fun hw => h (.inl hw), Option.none_or]
  rw [lastEffect_edits, lastEffect_edits, hwrites]
  by_cases hd : k ∈ (gather ops).deletes
  · rw [if_pos hd, if_pos (hdeletes.mpr hd)]
  · rw [if_neg hd, if_neg fun hk => hd (hdeletes.mp hk)]

theorem lastEffect_of_not_rewrites (h : ¬Rewrites ops k) :
    lastEffect (gather ops).edits k = lastEffect (ops.flatMap KeyOp.edits) k := by
  induction ops using List.reverseRecOn with
  | nil => rfl
  | append_singleton ops op ih =>
    by_cases hd : k ∈ op.deletes
    · rw [lastEffect_flatMap_append_singleton, lastEffect_edits_of_deleted hd]
      exact lastEffect_gather_of_deleted
        ⟨op, mem_append_right _ (mem_singleton_self op), hd⟩
    · by_cases hw : op.Writes k
      · apply lastEffect_gather_of_not_deleted
        intro o ho hk
        rcases mem_append.mp ho with ho | ho
        · apply h
          refine ⟨ops, op, [], rfl, hw, hd, ⟨o, ho, hk⟩, ?_⟩
          intro o ho
          cases ho
        · rw [mem_singleton.mp ho] at hk
          exact hd hk
      · have huntouched : ¬op.Touches k := by
          rintro (hk | hk)
          · exact hw hk
          · exact hd hk
        have hops : ¬Rewrites ops k := by
          rintro ⟨pre, o, post, rfl, hwo, hdo, hpre, hpost⟩
          apply h
          refine ⟨pre, o, post ++ [op], ?_, hwo, hdo, hpre, ?_⟩
          · rw [append_assoc, cons_append]
          · intro x hx
            rcases mem_append.mp hx with hx | hx
            · exact hpost x hx
            · rw [mem_singleton.mp hx]
              exact huntouched
        rw [lastEffect_flatMap_append_singleton, lastEffect_edits_of_untouched huntouched,
          Option.none_or, ← ih hops]
        exact gather_append_untouched huntouched

/-- The last group that touches the key writes it after deleting it. -/
def LastRewrites (groups : List (List (KeyOp α β))) (k : α) : Prop :=
  ∃ pre g post, groups = pre ++ g :: post ∧ Rewrites g k ∧ ∀ o ∈ post, Untouched o k

theorem lastEffect_groups (groups : List (List (KeyOp α β))) (k : α) :
    (LastRewrites groups k →
      lastEffect (groups.flatMap fun g => (gather g).edits) k = some none ∧
        ∃ v, lastEffect (groups.flatMap fun g => g.flatMap KeyOp.edits) k = some (some v)) ∧
      (¬LastRewrites groups k →
        lastEffect (groups.flatMap fun g => (gather g).edits) k =
          lastEffect (groups.flatMap fun g => g.flatMap KeyOp.edits) k) := by
  induction groups with
  | nil =>
    constructor
    · rintro ⟨pre, g, post, heq, -, -⟩
      cases pre <;> cases heq
    · exact fun _ => rfl
  | cons g groups ih =>
    rw [flatMap_cons, flatMap_cons, lastEffect_append, lastEffect_append]
    by_cases hlater : LastRewrites groups k
    · have hall : LastRewrites (g :: groups) k := by
        obtain ⟨pre, g', post, heq, hrest⟩ := hlater
        exact ⟨g :: pre, g', post, by rw [heq]; rfl, hrest⟩
      obtain ⟨hgathered, v, hv⟩ := ih.1 hlater
      rw [hgathered, hv]
      exact ⟨fun _ => ⟨rfl, v, rfl⟩, fun hnot => absurd hall hnot⟩
    · rw [ih.2 hlater]
      cases hlast : lastEffect (groups.flatMap fun g => g.flatMap KeyOp.edits) k with
      | some o =>
        constructor
        · rintro ⟨pre, g', post, heq, hrewrites, hpost⟩
          exfalso
          cases pre with
          | cons x pre =>
            cases heq
            exact hlater ⟨pre, g', post, rfl, hrewrites, hpost⟩
          | nil =>
            cases heq
            have hnone : lastEffect (groups.flatMap fun g => g.flatMap KeyOp.edits) k =
                none := by
              rw [lastEffect_flatMap_eq_none_iff]
              exact fun g' hg' => (lastEffect_untouched (hpost g' hg')).2
            rw [hlast] at hnone
            cases hnone
        · exact fun _ => rfl
      | none =>
        have huntouched : ∀ o ∈ groups, Untouched o k := by
          intro o ho op hop htouch
          have hnone := lastEffect_flatMap_eq_none_iff.mp hlast o ho
          have hop' := lastEffect_flatMap_eq_none_iff.mp hnone op hop
          by_cases hd : k ∈ op.deletes
          · rw [lastEffect_edits_of_deleted hd] at hop'
            cases hop'
          · obtain ⟨v, hv⟩ := lastEffect_edits_of_written (htouch.resolve_right hd) hd
            rw [hv] at hop'
            cases hop'
        have hiff : LastRewrites (g :: groups) k ↔ Rewrites g k := by
          constructor
          · rintro ⟨pre, g', post, heq, hrewrites, hpost⟩
            cases pre with
            | cons x pre =>
              cases heq
              exact absurd ⟨pre, g', post, rfl, hrewrites, hpost⟩ hlater
            | nil =>
              cases heq
              exact hrewrites
          · exact fun hg => ⟨[], g, groups, rfl, hg, huntouched⟩
        rw [Option.none_or, Option.none_or, hiff]
        exact ⟨lastEffect_of_rewrites, lastEffect_of_not_rewrites⟩

/-- Gathered groups leave a map as the operations one by one do exactly when no key is rewritten in
the last group that touches it. -/
theorem applyAll_gather_eq_iff (m : OrdMap α β) (groups : List (List (KeyOp α β))) :
    m.applyAll (groups.flatMap fun g => (gather g).edits) =
        m.applyAll (groups.flatMap fun g => g.flatMap KeyOp.edits) ↔
      ∀ k, ¬LastRewrites groups k := by
  constructor
  · intro heq k hk
    obtain ⟨hgathered, v, hv⟩ := (lastEffect_groups groups k).1 hk
    have hget := congrArg (fun m => m.get? k) heq
    rw [get?_applyAll, get?_applyAll, hgathered, hv] at hget
    cases hget
  · intro h
    apply ext_get?
    intro k
    rw [get?_applyAll, get?_applyAll, (lastEffect_groups groups k).2 (h k)]

end OrdMap
