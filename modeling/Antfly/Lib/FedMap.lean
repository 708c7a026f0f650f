import Mathlib.Data.List.Nodup
import Mathlib.Data.List.Perm.Basic

/-!
A view keeps a map that follows a base map.  Changes of the base are announced to it as keys to look
up and keys to remove, which wait in a queue, and what the base held before is copied over from a
snapshot, in chunks and while the queue is being worked off.  The view catches up with the base when
no key appears while its removal is queued, and when no announced key is worked off while the
snapshot still holds something else for it.  The view also keeps a tally of its keys by sort, which
is right when each key it is given is new to it and each key it is to remove is there.
-/

namespace FedMap

open List

variable {κ ν τ : Type*}

/-- Keys to look up and keys to remove. -/
structure Op (κ : Type*) where
  writes : List κ
  deletes : List κ

/-- `rest` is what is left of the snapshot; there is none before the copy begins. -/
structure View (κ ν : Type*) where
  queue : List (Op κ)
  rest : Option (List (κ × ν))
  contents : κ → Option ν

def writesOf (ops : List (Op κ)) (k : κ) : Prop := ∃ op ∈ ops, k ∈ op.writes

def deletesOf (ops : List (Op κ)) (k : κ) : Prop := ∃ op ∈ ops, k ∈ op.deletes

/-- The snapshot still holds `x` for the key. -/
def View.Holds (v : View κ ν) (k : κ) (x : ν) : Prop := ∃ l, v.rest = some l ∧ (k, x) ∈ l

section Feed

variable [DecidableEq κ]

/-- Looks the written keys up in the base and stores what it finds, then removes. -/
def feed (base contents : κ → Option ν) (writes deletes : List κ) (k : κ) : Option ν :=
  if k ∈ deletes then none
  else if k ∈ writes then (base k).or (contents k)
  else contents k

/-- Stores a chunk of the snapshot. -/
def copy (contents : κ → Option ν) : List (κ × ν) → κ → Option ν
  | [], k => contents k
  | e :: chunk, k => copy (fun k => if k = e.1 then some e.2 else contents k) chunk k

theorem copy_cases (contents : κ → Option ν) (chunk : List (κ × ν)) (k : κ) :
    ((∀ x, (k, x) ∉ chunk) ∧ copy contents chunk k = contents k) ∨
      ∃ x, (k, x) ∈ chunk ∧ copy contents chunk k = some x := by
  induction chunk generalizing contents with
  | nil =>
    left
    exact ⟨fun _ => not_mem_nil, rfl⟩
  | cons e chunk ih =>
    rcases ih fun k => if k = e.1 then some e.2 else contents k with ⟨hnot, heq⟩ | ⟨x, hx, heq⟩
    · by_cases hk : k = e.1
      · right
        refine ⟨e.2, ?_, ?_⟩
        · rw [hk]
          exact mem_cons_self
        · rw [copy, heq, if_pos hk]
      · left
        constructor
        · intro x hx
          rcases mem_cons.mp hx with hx | hx
          · apply hk
            rw [← hx]
          · exact hnot x hx
        · rw [copy, heq, if_neg hk]
    · right
      exact ⟨x, mem_cons_of_mem _ hx, heq⟩

theorem copy_isSome {contents : κ → Option ν} {chunk : List (κ × ν)} {k : κ} :
    (copy contents chunk k).isSome ↔ k ∈ chunk.map Prod.fst ∨ (contents k).isSome := by
  have hkeys : k ∈ chunk.map Prod.fst ↔ ∃ x, (k, x) ∈ chunk := by
    rw [mem_map]
    constructor
    · rintro ⟨⟨k', x⟩, hx, rfl⟩
      exact ⟨x, hx⟩
    · rintro ⟨x, hx⟩
      exact ⟨_, hx, rfl⟩
  rw [hkeys]
  rcases copy_cases contents chunk k with ⟨hnot, heq⟩ | ⟨x, hx, heq⟩
  · rw [heq]
    constructor
    · exact .inr
    · rintro (⟨x, hx⟩ | h)
      · exact absurd hx (hnot x)
      · exact h
  · rw [heq]
    exact ⟨fun _ => .inl ⟨x, hx⟩, fun _ => rfl⟩

end Feed

/-- The view differs from the base only where the queue or the snapshot will correct it. -/
structure Lags (base : κ → Option ν) (v : View κ ν) : Prop where
  removed : ∀ k, deletesOf v.queue k → base k = none
  gone : ∀ k, base k = none → ¬deletesOf v.queue k →
    v.contents k = none ∧ ∀ x, ¬v.Holds k x
  there : ∀ k x, base k = some x →
    v.contents k = some x ∨ writesOf v.queue k ∨ v.rest = none ∨ v.Holds k x
  copied : ∀ k x, v.Holds k x → base k = some x ∨ deletesOf v.queue k ∨
    (writesOf v.queue k ∧ base k ≠ none)

/-- The base went from `base` to `base'`, and the keys tell a view all of it. -/
structure Told (base base' : κ → Option ν) (writes deletes : List κ) : Prop where
  gone : ∀ k ∈ deletes, base' k = none
  lost : ∀ k, base' k = none → base k ≠ none → k ∈ deletes
  new : ∀ k, base' k ≠ none → base' k ≠ base k → k ∈ writes

/-- No key is there while its removal is queued. -/
def AppearsFree (base' : κ → Option ν) (queue : List (Op κ)) : Prop :=
  ∀ k, deletesOf queue k → base' k = none

/-- The snapshot holds nothing else for the keys than the base. -/
def Fresh (base : κ → Option ν) (v : View κ ν) (writes deletes : List κ) : Prop :=
  ∀ k x, v.Holds k x → k ∈ writes ∨ k ∈ deletes → base k = some x

/-- The ops hold these keys. -/
structure Announces (ops : List (Op κ)) (writes deletes : List κ) : Prop where
  writes : ∀ k, writesOf ops k ↔ k ∈ writes
  deletes : ∀ k, deletesOf ops k ↔ k ∈ deletes

section Steps

variable {base base' : κ → Option ν} {v : View κ ν} {writes deletes : List κ}

variable {ops ops' : List (Op κ)} {k : κ}

theorem writesOf_append : writesOf (ops ++ ops') k ↔ writesOf ops k ∨ writesOf ops' k := by
  simp only [writesOf, mem_append, or_and_right, exists_or]

theorem deletesOf_append : deletesOf (ops ++ ops') k ↔ deletesOf ops k ∨ deletesOf ops' k := by
  simp only [deletesOf, mem_append, or_and_right, exists_or]

theorem Lags.drained (h : Lags base v) (hqueue : v.queue = []) (hrest : v.rest = some []) :
    v.contents = base := by
  have hdeletes : ∀ k, ¬deletesOf v.queue k := by
    rintro k ⟨op, hop, -⟩
    rw [hqueue] at hop
    cases hop
  have hwrites : ∀ k, ¬writesOf v.queue k := by
    rintro k ⟨op, hop, -⟩
    rw [hqueue] at hop
    cases hop
  funext k
  cases hbase : base k with
  | none => exact (h.gone k hbase (hdeletes k)).1
  | some x =>
    rcases h.there k x hbase with hk | hk | hk | ⟨l, hl, hk⟩
    · exact hk
    · exact absurd hk (hwrites k)
    · rw [hrest] at hk
      cases hk
    · rw [hrest] at hl
      cases hl
      cases hk

theorem lags_of_empty (base : κ → Option ν) :
    Lags base ({ queue := [], rest := none, contents := fun _ => none } : View κ ν) where
  removed k := by
    rintro ⟨op, hop, -⟩
    cases hop
  gone k _ _ := by
    refine ⟨rfl, ?_⟩
    rintro x ⟨l, hl, -⟩
    cases hl
  there k x _ := .inr (.inr (.inl rfl))
  copied k x := by
    rintro ⟨l, hl, -⟩
    cases hl

theorem Lags.queued (h : Lags base v) (htold : Told base base' writes deletes)
    (hfree : AppearsFree base' v.queue) (hops : Announces ops writes deletes) :
    Lags base' { v with queue := v.queue ++ ops } where
  removed k hk := by
    rcases deletesOf_append.mp hk with hk | hk
    · exact hfree k hk
    · exact htold.gone k ((hops.deletes k).mp hk)
  gone k hbase hk := by
    have hold : ¬deletesOf v.queue k := fun hdel => hk (deletesOf_append.mpr (.inl hdel))
    have hnew : k ∉ deletes := fun hdel =>
      hk (deletesOf_append.mpr (.inr ((hops.deletes k).mpr hdel)))
    have hbefore : base k = none := by
      by_contra hne
      exact hnew (htold.lost k hbase hne)
    exact h.gone k hbefore hold
  there k x hbase := by
    by_cases heq : base' k = base k
    · rw [heq] at hbase
      rcases h.there k x hbase with hk | hk | hk | hk
      · exact .inl hk
      · exact .inr (.inl (writesOf_append.mpr (.inl hk)))
      · exact .inr (.inr (.inl hk))
      · exact .inr (.inr (.inr hk))
    · have hne : base' k ≠ none := by
        rw [hbase]
        exact Option.some_ne_none x
      have hk := htold.new k hne heq
      exact .inr (.inl (writesOf_append.mpr (.inr ((hops.writes k).mpr hk))))
  copied k x hx := by
    by_cases hgone : base' k = none
    · rcases h.copied k x hx with hk | hk | ⟨-, hk⟩
      · have hne : base k ≠ none := by
          rw [hk]
          exact Option.some_ne_none x
        have hdel := htold.lost k hgone hne
        exact .inr (.inl (deletesOf_append.mpr (.inr ((hops.deletes k).mpr hdel))))
      · exact .inr (.inl (deletesOf_append.mpr (.inl hk)))
      · have hdel := htold.lost k hgone hk
        exact .inr (.inl (deletesOf_append.mpr (.inr ((hops.deletes k).mpr hdel))))
    · by_cases heq : base' k = base k
      · rcases h.copied k x hx with hk | hk | ⟨hk, -⟩
        · exact .inl (heq.trans hk)
        · exact .inr (.inl (deletesOf_append.mpr (.inl hk)))
        · exact .inr (.inr ⟨writesOf_append.mpr (.inl hk), hgone⟩)
      · have hk := htold.new k hgone heq
        exact .inr (.inr ⟨writesOf_append.mpr (.inr ((hops.writes k).mpr hk)), hgone⟩)

theorem Lags.begin (h : Lags base v) {l : List (κ × ν)}
    (hl : ∀ k x, (k, x) ∈ l ↔ base k = some x) : Lags base { v with rest := some l } where
  removed := h.removed
  gone k hbase hk := by
    refine ⟨(h.gone k hbase hk).1, ?_⟩
    rintro x ⟨l', hl', hx⟩
    cases hl'
    rw [hl, hbase] at hx
    cases hx
  there k x hbase := .inr (.inr (.inr ⟨l, rfl, (hl k x).mpr hbase⟩))
  copied k x := by
    rintro ⟨l', hl', hx⟩
    cases hl'
    exact .inl ((hl k x).mp hx)

section Decidable

variable [DecidableEq κ]

theorem Lags.fed (h : Lags base v) {left mid right : List (Op κ)}
    (hqueue : v.queue = left ++ mid ++ right) (hmid : Announces mid writes deletes)
    (hfresh : Fresh base v writes deletes) :
    Lags base
      { queue := left ++ right, rest := v.rest, contents := feed base v.contents writes deletes } := by
  have hdel : ∀ k, deletesOf v.queue k ↔ deletesOf (left ++ right) k ∨ k ∈ deletes := by
    intro k
    rw [hqueue, deletesOf_append, deletesOf_append, deletesOf_append, hmid.deletes, or_right_comm]
  have hwr : ∀ k, writesOf v.queue k ↔ writesOf (left ++ right) k ∨ k ∈ writes := by
    intro k
    rw [hqueue, writesOf_append, writesOf_append, writesOf_append, hmid.writes, or_right_comm]
  constructor
  · intro k hk
    exact h.removed k ((hdel k).mpr (.inl hk))
  · intro k hbase hk
    dsimp only at hk ⊢
    by_cases hkd : k ∈ deletes
    · constructor
      · exact if_pos hkd
      · intro x hx
        have hsome := hfresh k x hx (.inr hkd)
        rw [hbase] at hsome
        cases hsome
    · have hold : ¬deletesOf v.queue k := by
        rw [hdel]
        rintro (hk' | hk')
        · exact hk hk'
        · exact hkd hk'
      obtain ⟨hnone, hrest⟩ := h.gone k hbase hold
      refine ⟨?_, hrest⟩
      unfold feed
      rw [if_neg hkd, hbase, hnone]
      exact ite_self _
  · intro k x hbase
    dsimp only
    have hkd : k ∉ deletes := by
      intro hk
      have hnone := h.removed k ((hdel k).mpr (.inr hk))
      rw [hbase] at hnone
      cases hnone
    unfold feed
    rw [if_neg hkd]
    by_cases hkw : k ∈ writes
    · left
      rw [if_pos hkw, hbase]
      rfl
    · rw [if_neg hkw]
      rcases h.there k x hbase with hk | hk | hk | hk
      · exact .inl hk
      · exact .inr (.inl (((hwr k).mp hk).resolve_right hkw))
      · exact .inr (.inr (.inl hk))
      · exact .inr (.inr (.inr hk))
  · intro k x hx
    dsimp only
    rcases h.copied k x hx with hk | hk | ⟨hk, hne⟩
    · exact .inl hk
    · rcases (hdel k).mp hk with hk | hk
      · exact .inr (.inl hk)
      · exact .inl (hfresh k x hx (.inr hk))
    · rcases (hwr k).mp hk with hk | hk
      · exact .inr (.inr ⟨hk, hne⟩)
      · exact .inl (hfresh k x hx (.inl hk))

theorem Lags.executed (h : Lags base v) (htold : Told base base' writes deletes)
    (hfree : AppearsFree base' v.queue) (hfresh : Fresh base' v writes deletes) :
    Lags base' { v with contents := feed base' v.contents writes deletes } := by
  have hops : Announces [⟨writes, deletes⟩] writes deletes := by
    constructor <;> intro k
    · exact ⟨fun ⟨_, hop, hk⟩ => by rwa [mem_singleton.mp hop] at hk,
        fun hk => ⟨_, mem_singleton_self _, hk⟩⟩
    · exact ⟨fun ⟨_, hop, hk⟩ => by rwa [mem_singleton.mp hop] at hk,
        fun hk => ⟨_, mem_singleton_self _, hk⟩⟩
  have hqueue : v.queue ++ [⟨writes, deletes⟩] = v.queue ++ [⟨writes, deletes⟩] ++ [] :=
    (append_nil _).symm
  have hfed := (h.queued htold hfree hops).fed hqueue hops hfresh
  rwa [append_nil] at hfed

theorem Lags.chunk (h : Lags base v) {chunk l : List (κ × ν)} (hrest : v.rest = some (chunk ++ l)) :
    Lags base { v with rest := some l, contents := copy v.contents chunk } := by
  have hholds : ∀ k x, v.Holds k x ↔ (k, x) ∈ chunk ∨ (k, x) ∈ l := by
    intro k x
    rw [← mem_append]
    constructor
    · rintro ⟨l', hl', hx⟩
      rw [hrest] at hl'
      cases hl'
      exact hx
    · exact fun hx => ⟨_, hrest, hx⟩
  constructor
  · exact h.removed
  · intro k hbase hk
    obtain ⟨hnone, hnot⟩ := h.gone k hbase hk
    constructor
    · rcases copy_cases v.contents chunk k with ⟨-, heq⟩ | ⟨x, hx, -⟩
      · exact heq.trans hnone
      · exact absurd ((hholds k x).mpr (.inl hx)) (hnot x)
    · rintro x ⟨l', hl', hx⟩
      cases hl'
      exact hnot x ((hholds k x).mpr (.inr hx))
  · intro k x hbase
    dsimp only
    by_cases hkw : writesOf v.queue k
    · exact .inr (.inl hkw)
    · rcases copy_cases v.contents chunk k with ⟨hnot, heq⟩ | ⟨y, hy, heq⟩
      · rw [heq]
        rcases h.there k x hbase with hk | hk | hk | hk
        · exact .inl hk
        · exact absurd hk hkw
        · rw [hrest] at hk
          cases hk
        · rcases (hholds k x).mp hk with hk | hk
          · exact absurd hk (hnot x)
          · exact .inr (.inr (.inr ⟨l, rfl, hk⟩))
      · left
        rw [heq]
        rcases h.copied k y ((hholds k y).mpr (.inl hy)) with hk | hk | ⟨hk, -⟩
        · rw [hbase] at hk
          exact hk.symm
        · rw [h.removed k hk] at hbase
          cases hbase
        · exact absurd hk hkw
  · rintro k x ⟨l', hl', hx⟩
    cases hl'
    exact h.copied k x ((hholds k x).mpr (.inr hx))

end Decidable

end Steps

section Tally

variable [DecidableEq τ] {sort : κ → Option τ} {base contents : κ → Option ν}
  {tally : τ → ℕ}

/-- How many of the keys are of each sort. -/
def tallyOf (sort : κ → Option τ) (keys : List κ) (t : τ) : ℕ :=
  keys.countP fun k => decide (sort k = some t)

/-- The tally counts the keys of the map by sort. -/
def Tallies (sort : κ → Option τ) (contents : κ → Option ν) (tally : τ → ℕ) : Prop :=
  ∃ keys : List κ, keys.Nodup ∧ (∀ k, k ∈ keys ↔ (contents k).isSome) ∧
    ∀ t, tally t = tallyOf sort keys t

theorem tallies_empty (sort : κ → Option τ) :
    Tallies sort (fun _ => none : κ → Option ν) fun _ => 0 := by
  refine ⟨[], nodup_nil, fun k => ?_, fun t => rfl⟩
  constructor
  · intro hk
    cases hk
  · intro hk
    cases hk

variable {keys removed : List κ}

theorem Tallies.eq (h : Tallies sort contents tally) (hnodup : keys.Nodup)
    (hmem : ∀ k, k ∈ keys ↔ (contents k).isSome) (t : τ) :
    tally t = tallyOf sort keys t := by
  obtain ⟨keys', hnodup', hmem', htally⟩ := h
  have hperm : keys'.Perm keys := by
    apply (perm_ext_iff_of_nodup hnodup' hnodup).mpr
    intro k
    exact (hmem' k).trans (hmem k).symm
  rw [htally]
  exact hperm.countP_eq _

variable [DecidableEq κ]

theorem tallyOf_filter (hkeys : keys.Nodup) (hremoved : removed.Nodup)
    (hsub : ∀ k ∈ removed, k ∈ keys) (t : τ) :
    tallyOf sort (keys.filter fun k => k ∉ removed) t =
      tallyOf sort keys t - tallyOf sort removed t := by
  have hin : (keys.filter fun k => k ∈ removed).Perm removed := by
    apply (perm_ext_iff_of_nodup (hkeys.filter _) hremoved).mpr
    intro k
    rw [mem_filter, decide_eq_true_eq]
    exact ⟨And.right, fun hk => ⟨hsub k hk, hk⟩⟩
  have hsplit : (keys.filter (fun k => k ∈ removed) ++
      keys.filter fun k => !decide (k ∈ removed)).Perm keys :=
    filter_append_perm _ _
  have hcount : tallyOf sort removed t +
      tallyOf sort (keys.filter fun k => !decide (k ∈ removed)) t = tallyOf sort keys t := by
    unfold tallyOf
    rw [← hin.countP_eq, ← countP_append, hsplit.countP_eq]
  have hnot : (fun k => decide (k ∉ removed)) = fun k => !decide (k ∈ removed) := by
    funext k
    exact decide_not
  rw [hnot]
  omega

theorem Tallies.fed (h : Tallies sort contents tally) {writes deletes found : List κ}
    (hfound : ∀ k, k ∈ found ↔ k ∈ writes ∧ (base k).isSome) (hnodup : found.Nodup)
    (hnew : ∀ k ∈ found, contents k = none)
    (hremoved : ∀ k ∈ removed, k ∈ deletes ∧ ((contents k).isSome ∨ k ∈ found))
    (hnodup' : removed.Nodup)
    (hother : ∀ k ∈ deletes, k ∉ removed → contents k = none ∧ base k = none) :
    Tallies sort (feed base contents writes deletes)
      fun t => tally t + tallyOf sort found t - tallyOf sort removed t := by
  obtain ⟨keys, hkeys, hmem, htally⟩ := h
  have hall : (keys ++ found).Nodup := by
    apply hkeys.append hnodup
    intro k hk hk'
    have hsome := (hmem k).mp hk
    rw [hnew k hk'] at hsome
    cases hsome
  have hsub : ∀ k ∈ removed, k ∈ keys ++ found := by
    intro k hk
    rw [mem_append]
    rcases (hremoved k hk).2 with hk | hk
    · exact .inl ((hmem k).mpr hk)
    · exact .inr hk
  refine ⟨(keys ++ found).filter fun k => k ∉ removed, hall.filter _, fun k => ?_, fun t => ?_⟩
  · rw [mem_filter, decide_eq_true_eq, mem_append, hmem, hfound]
    unfold feed
    by_cases hdel : k ∈ deletes
    · rw [if_pos hdel]
      constructor
      · rintro ⟨hk, hnot⟩
        obtain ⟨hcontents, hbase⟩ := hother k hdel hnot
        rcases hk with hk | ⟨-, hk⟩
        · rw [hcontents] at hk
          cases hk
        · rw [hbase] at hk
          cases hk
      · intro hk
        cases hk
    · have hnot : k ∉ removed := fun hk => hdel (hremoved k hk).1
      rw [if_neg hdel]
      by_cases hw : k ∈ writes
      · rw [if_pos hw, Option.isSome_or, Bool.or_eq_true]
        constructor
        · rintro ⟨hk | ⟨-, hk⟩, -⟩
          · exact .inr hk
          · exact .inl hk
        · rintro (hk | hk)
          · exact ⟨.inr ⟨hw, hk⟩, hnot⟩
          · exact ⟨.inl hk, hnot⟩
      · rw [if_neg hw]
        constructor
        · rintro ⟨hk | ⟨hk, -⟩, -⟩
          · exact hk
          · exact absurd hk hw
        · exact fun hk => ⟨.inl hk, hnot⟩
  · have happend : tallyOf sort (keys ++ found) t = tallyOf sort keys t + tallyOf sort found t :=
      countP_append
    dsimp only
    rw [tallyOf_filter hall hnodup' hsub, htally, happend]

theorem Tallies.chunk (h : Tallies sort contents tally) {chunk : List (κ × ν)}
    (hnodup : (chunk.map Prod.fst).Nodup) (hnew : ∀ k ∈ chunk.map Prod.fst, contents k = none) :
    Tallies sort (copy contents chunk)
      fun t => tally t + tallyOf sort (chunk.map Prod.fst) t := by
  obtain ⟨keys, hkeys, hmem, htally⟩ := h
  refine ⟨keys ++ chunk.map Prod.fst, ?_, fun k => ?_, fun t => ?_⟩
  · apply hkeys.append hnodup
    intro k hk hk'
    have hsome := (hmem k).mp hk
    rw [hnew k hk'] at hsome
    cases hsome
  · rw [mem_append, hmem, copy_isSome]
    exact Or.comm
  · dsimp only
    rw [htally]
    exact countP_append.symm

end Tally

end FedMap
