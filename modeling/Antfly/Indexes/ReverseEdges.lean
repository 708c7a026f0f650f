import Antfly.Indexes.EdgeKeys
import Antfly.Indexes.Convergence
import Antfly.Lib.FedMap

/-!
The index of reverse edges is a map fed from the stored edges through the queue of the manager and
copied from the snapshot of the backfill.  It catches up in every run in which no edge is written
while its removal is queued and no edge is worked off for which the snapshot still holds something
else.  The counts ask for more: every edge worked off or copied is new to the index, and every edge
removed is there.
-/

namespace Antfly.Indexes

open FedMap List OrdMap

variable {ν : Type}

/-- An edge key that is the key of the edge it is parsed to, and whose index key names the edge. -/
def plainEdge (name key : Bytes) : Option ParsedEdge :=
  (edgeOf name key).filter fun edge =>
    key = makeEdgeKey edge.source edge.target name edge.edgeType &&
      markedOnce (incomingMarker name)
        (makeEdgeIndexKey name edge.target edge.source edge.edgeType) &&
      !edge.edgeType.isEmpty

variable {name key : Bytes} {edge : ParsedEdge}

theorem plainEdge_eq_some :
    plainEdge name key = some edge ↔ edgeOf name key = some edge ∧
      key = makeEdgeKey edge.source edge.target name edge.edgeType ∧ Filed name edge := by
  unfold plainEdge
  rw [Option.filter_eq_some_iff, Bool.and_eq_true, Bool.and_eq_true, decide_eq_true_eq,
    Bool.not_eq_true', isEmpty_eq_false_iff, and_assoc]
  apply and_congr_right
  intro hedge
  apply and_congr_right
  intro hkey
  constructor
  · rintro ⟨honce, htyped⟩
    exact ⟨honce, htyped, edgeType_no_colon (edgeOf_eq_some hedge).2.1⟩
  · intro h
    exact ⟨h.once, h.typed⟩

theorem plainEdge_inj {name key key' : Bytes} {edge edge' : ParsedEdge}
    (h : plainEdge name key = some edge) (h' : plainEdge name key' = some edge')
    (hkey : makeEdgeIndexKey name edge.target edge.source edge.edgeType =
      makeEdgeIndexKey name edge'.target edge'.source edge'.edgeType) : key = key' := by
  obtain ⟨-, hkey₁, hfiled⟩ := plainEdge_eq_some.mp h
  obtain ⟨-, hkey₂, hfiled'⟩ := plainEdge_eq_some.mp h'
  obtain ⟨htarget, hsource, htype⟩ := filed_inj hfiled hfiled' hkey
  rw [hkey₁, hkey₂, htarget, hsource, htype]

/-- Every edge of the index `name` among these keys is plain. -/
def AllPlain (name : Bytes) (keys : List Bytes) : Prop :=
  ∀ key ∈ keys, edgeOf name key = plainEdge name key

/-- The stored edges of an index. -/
def forward (name : Bytes) (store : OrdMap Bytes ν) (key : Bytes) : Option ν :=
  (plainEdge name key).bind fun _ => store.get? key

/-- What the index has for each edge. -/
def reverse (name : Bytes) (indexDB : OrdMap Bytes ν) (key : Bytes) : Option ν :=
  (plainEdge name key).bind fun edge =>
    indexDB.get? (makeEdgeIndexKey name edge.target edge.source edge.edgeType)

variable {name : Bytes} {store store' indexDB : OrdMap Bytes ν}

theorem reverse_insert (h : plainEdge name key = some edge) (value : ν) :
    reverse name (indexDB.insert
      (makeEdgeIndexKey name edge.target edge.source edge.edgeType) value) =
      fun k => if k = key then some value else reverse name indexDB k := by
  funext k
  unfold reverse
  by_cases hk : k = key
  · rw [hk, h, if_pos rfl, Option.bind_some, get?_insert, if_pos rfl]
  · rw [if_neg hk]
    cases hplain : plainEdge name k with
    | none => rfl
    | some edge' =>
      rw [Option.bind_some, Option.bind_some, get?_insert, if_neg]
      exact fun heq => hk (plainEdge_inj hplain h heq)

theorem reverse_erase (h : plainEdge name key = some edge) :
    reverse name (indexDB.erase
      (makeEdgeIndexKey name edge.target edge.source edge.edgeType)) =
      fun k => if k = key then none else reverse name indexDB k := by
  funext k
  unfold reverse
  by_cases hk : k = key
  · rw [hk, h, if_pos rfl, Option.bind_some, get?_erase, if_pos rfl]
  · rw [if_neg hk]
    cases hplain : plainEdge name k with
    | none => rfl
    | some edge' =>
      rw [Option.bind_some, Option.bind_some, get?_erase, if_neg]
      exact fun heq => hk (plainEdge_inj hplain h heq)

/-- The edges among these entries. -/
def edgesOf (name : Bytes) (entries : List (Bytes × ν)) : List (ParsedEdge × ν) :=
  entries.filterMap fun p => (edgeOf name p.1).map fun edge => (edge, p.2)

theorem reverse_sets (entries : List (Bytes × ν))
    (hplain : AllPlain name (entries.map Prod.fst)) :
    reverse name (indexDB.applyAll ((edgesOf name entries).map fun p =>
      .set (makeEdgeIndexKey name p.1.target p.1.source p.1.edgeType) p.2)) =
      copy (reverse name indexDB) (entries.filter fun p => (edgeOf name p.1).isSome) := by
  induction entries generalizing indexDB with
  | nil => rfl
  | cons p entries ih =>
    have hp := hplain p.1 mem_cons_self
    have hrest : AllPlain name (entries.map Prod.fst) :=
      fun key hkey => hplain key (mem_cons_of_mem _ hkey)
    unfold edgesOf at ih ⊢
    cases hedge : edgeOf name p.1 with
    | none =>
      rw [filterMap_cons_none (by rw [hedge]; rfl),
        filter_cons_of_neg (by rw [hedge]; exact Bool.false_ne_true)]
      exact ih hrest
    | some edge =>
      rw [hedge] at hp
      rw [filterMap_cons_some (by rw [hedge]; rfl),
        filter_cons_of_pos (by rw [hedge]; rfl), map_cons]
      have hstep : reverse name (indexDB.insert
          (makeEdgeIndexKey name edge.target edge.source edge.edgeType) p.2) =
          fun k => if k = p.1 then some p.2 else reverse name indexDB k :=
        reverse_insert hp.symm p.2
      funext k
      rw [copy, ← hstep]
      exact congrFun (ih hrest) k

theorem reverse_deletes (keys : List Bytes) (hplain : AllPlain name keys) (k : Bytes) :
    reverse name (indexDB.applyAll ((keys.filterMap (edgeOf name)).map fun edge =>
      .delete (makeEdgeIndexKey name edge.target edge.source edge.edgeType))) k =
      if k ∈ keys then none else reverse name indexDB k := by
  induction keys generalizing indexDB with
  | nil => rfl
  | cons key keys ih =>
    have hkey := hplain key mem_cons_self
    have hrest : AllPlain name keys := fun key hkey => hplain key (mem_cons_of_mem _ hkey)
    cases hedge : edgeOf name key with
    | none =>
      rw [filterMap_cons_none hedge, ih hrest]
      by_cases hk : k = key
      · have hnone : reverse name indexDB k = none := by
          unfold reverse
          rw [hk, ← hkey, hedge]
          rfl
        have hin : k ∈ key :: keys := by
          rw [hk]
          exact mem_cons_self
        rw [if_pos hin, hnone, ite_self]
      · by_cases hmem : k ∈ keys
        · rw [if_pos hmem, if_pos (mem_cons_of_mem _ hmem)]
        · rw [if_neg hmem, if_neg (not_mem_cons_of_ne_of_not_mem hk hmem)]
    | some edge =>
      rw [hedge] at hkey
      have hstep : reverse name (indexDB.erase
          (makeEdgeIndexKey name edge.target edge.source edge.edgeType)) k =
          if k = key then none else reverse name indexDB k :=
        congrFun (reverse_erase hkey.symm) k
      rw [filterMap_cons_some hedge, map_cons]
      refine Eq.trans (ih hrest) ?_
      dsimp only [OrdMap.Edit.apply]
      rw [hstep]
      by_cases hmem : k ∈ keys
      · rw [if_pos hmem, if_pos (mem_cons_of_mem _ hmem)]
      · rw [if_neg hmem]
        by_cases hk : k = key
        · have hin : k ∈ key :: keys := by
            rw [hk]
            exact mem_cons_self
          rw [if_pos hk, if_pos hin]
        · rw [if_neg hk, if_neg (not_mem_cons_of_ne_of_not_mem hk hmem)]

/-- What the store has under these keys. -/
def found (store : OrdMap Bytes ν) (keys : List Bytes) : List (Bytes × ν) :=
  keys.filterMap fun key => (store.get? key).map fun x => (key, x)

theorem feed_eq (writes deletes : List Bytes) (k : Bytes) (contents : Bytes → Option ν)
    (hplain : AllPlain name writes) :
    (if k ∈ deletes then none
      else copy contents ((found store writes).filter fun p => (edgeOf name p.1).isSome) k) =
      feed (forward name store) contents writes deletes k := by
  unfold feed
  by_cases hdel : k ∈ deletes
  · rw [if_pos hdel, if_pos hdel]
  · rw [if_neg hdel, if_neg hdel]
    have hmem : ∀ x, (k, x) ∈ (found store writes).filter (fun p => (edgeOf name p.1).isSome) ↔
        k ∈ writes ∧ forward name store k = some x := by
      intro x
      unfold found
      rw [mem_filter, mem_filterMap]
      unfold forward
      constructor
      · rintro ⟨⟨key, hkey, hget⟩, hedge⟩
        obtain ⟨y, hy, heq⟩ := Option.map_eq_some_iff.mp hget
        cases heq
        dsimp only at hedge
        rw [hplain k hkey] at hedge
        obtain ⟨edge, hedge⟩ := Option.isSome_iff_exists.mp hedge
        rw [hedge]
        exact ⟨hkey, hy⟩
      · rintro ⟨hkey, hforward⟩
        obtain ⟨edge, hedge, hget⟩ := Option.bind_eq_some_iff.mp hforward
        refine ⟨⟨k, hkey, by rw [hget]; rfl⟩, ?_⟩
        dsimp only
        rw [hplain k hkey, hedge]
        rfl
    rcases copy_cases contents
      ((found store writes).filter fun p => (edgeOf name p.1).isSome) k with
      ⟨hnot, heq⟩ | ⟨x, hx, heq⟩
    · rw [heq]
      by_cases hw : k ∈ writes
      · cases hforward : forward name store k with
        | none =>
          rw [if_pos hw]
          rfl
        | some x => exact absurd ((hmem x).mpr ⟨hw, hforward⟩) (hnot x)
      · rw [if_neg hw]
    · obtain ⟨hw, hforward⟩ := (hmem x).mp hx
      rw [heq, if_pos hw, hforward]
      rfl

def typeOf (name key : Bytes) : Option Bytes := (edgeOf name key).map ParsedEdge.edgeType

theorem countType_edges (name : Bytes) (keys : List Bytes) (t : Bytes) :
    GraphIndex.countType (keys.filterMap (edgeOf name)) t = tallyOf (typeOf name) keys t := by
  unfold GraphIndex.countType tallyOf
  rw [countP_filterMap]
  apply countP_congr
  intro key _
  unfold typeOf
  cases edgeOf name key with
  | none => simp
  | some edge => simp

theorem map_edgesOf (name : Bytes) (entries : List (Bytes × ν)) :
    (edgesOf name entries).map Prod.fst = (entries.map Prod.fst).filterMap (edgeOf name) := by
  unfold edgesOf
  rw [map_filterMap, filterMap_map]
  apply filterMap_congr
  intro p _
  rw [Option.map_map]
  exact Option.map_id'

/-- Every file is that of a plain edge. -/
def AllFiled (name : Bytes) (indexDB : OrdMap Bytes ν) : Prop :=
  ∀ r x, indexDB.get? r = some x → ∃ key edge, plainEdge name key = some edge ∧
    r = makeEdgeIndexKey name edge.target edge.source edge.edgeType

theorem AllFiled.applyAll (h : AllFiled name indexDB) {edits : List (OrdMap.Edit Bytes ν)}
    (hedits : ∀ e ∈ edits, ∀ r x, e.effect r = some (some x) → ∃ key edge,
      plainEdge name key = some edge ∧
        r = makeEdgeIndexKey name edge.target edge.source edge.edgeType) :
    AllFiled name (indexDB.applyAll edits) := by
  intro r x hget
  rw [get?_applyAll] at hget
  cases hlast : OrdMap.lastEffect edits r with
  | none =>
    rw [hlast] at hget
    exact h r x hget
  | some o =>
    rw [hlast] at hget
    cases hget
    obtain ⟨e, he, heffect⟩ := exists_effect_of_lastEffect hlast
    exact hedits e he r x heffect

theorem filed_of_sets {entries : List (Bytes × ν)} (hplain : AllPlain name (entries.map Prod.fst)) :
    ∀ e ∈ (edgesOf name entries).map (fun p =>
      (.set (makeEdgeIndexKey name p.1.target p.1.source p.1.edgeType) p.2 :
        OrdMap.Edit Bytes ν)), ∀ r x, e.effect r = some (some x) → ∃ key edge,
      plainEdge name key = some edge ∧
        r = makeEdgeIndexKey name edge.target edge.source edge.edgeType := by
  intro e he r x heffect
  obtain ⟨p, hp, rfl⟩ := mem_map.mp he
  obtain ⟨q, hq, hparsed⟩ := mem_filterMap.mp hp
  obtain ⟨edge, hedge, rfl⟩ := Option.map_eq_some_iff.mp hparsed
  have hkey := hplain q.1 (mem_map.mpr ⟨q, hq, rfl⟩)
  rw [hedge] at hkey
  refine ⟨q.1, edge, hkey.symm, ?_⟩
  unfold OrdMap.Edit.effect at heffect
  dsimp only at heffect
  split at heffect
  · assumption
  · cases heffect

section Index

variable {idx : GraphIndex ν}

def given (idx : GraphIndex ν) (op : IndexOp) : FedMap.Op Bytes where
  writes := (op.clip idx.byteRange).writes
  deletes := deletesForIndex idx.name .graph (groupDeleteKeys (op.clip idx.byteRange).deletes)

/-- The index after a batch of these keys. -/
def fedIndex (idx : GraphIndex ν) (store : OrdMap Bytes ν) (writes deletes : List Bytes) :
    GraphIndex ν :=
  { idx with
    indexDB := idx.indexDB.applyAll
      ((edgesOf idx.name (found store writes)).map (fun p => .set (idx.indexKey p.1) p.2) ++
        (deletes.filterMap (edgeOf idx.name)).map fun edge => .delete (idx.indexKey edge))
    edgeTypeCounts := fun t => idx.edgeTypeCounts t +
      tallyOf (typeOf idx.name) ((found store writes).map Prod.fst) t -
        tallyOf (typeOf idx.name) deletes t }

variable {op : IndexOp} {keys writes deletes : List Bytes} {chunk : List (Bytes × ν)} {key : Bytes}
variable {level : SyncLevel}

theorem execute_eq (hpaused : idx.paused = false)
    (haccepts : ∀ key ∈ (given idx op).writes, idx.accepts store key = true) :
    idx.execute store op = fedIndex idx store (given idx op).writes (given idx op).deletes := by
  have hadds : ((op.clip idx.byteRange).writes.map fun key => (key, none)).filterMap
      (idx.lookUpEdge store) = edgesOf idx.name (found store (op.clip idx.byteRange).writes) := by
    unfold edgesOf found
    rw [filterMap_map, filterMap_filterMap]
    apply filterMap_congr
    intro key _
    unfold GraphIndex.lookUpEdge
    dsimp only [Function.comp_apply]
    cases hedge : edgeOf idx.name key <;> cases store.get? key <;> simp [hedge]
  have hall : ((op.clip idx.byteRange).writes.map fun key => (key, (none : Option ν))).all
      (fun write => idx.accepts store write.1) = true := by
    rw [all_map, all_eq_true]
    exact haccepts
  unfold GraphIndex.execute GraphIndex.batch
  rw [hpaused, if_neg Bool.false_ne_true, if_pos hall, Option.getD_some, hadds, map_edgesOf]
  unfold fedIndex given
  simp only [countType_edges, hpaused]

theorem allPlain_found (h : AllPlain name keys) :
    AllPlain name ((found store keys).map Prod.fst) := by
  intro key hkey
  obtain ⟨p, hp, rfl⟩ := mem_map.mp hkey
  obtain ⟨k, hk, hget⟩ := mem_filterMap.mp hp
  obtain ⟨x, -, rfl⟩ := Option.map_eq_some_iff.mp hget
  exact h k hk

theorem reverse_fedIndex (hwrites : AllPlain idx.name writes)
    (hdeletes : AllPlain idx.name deletes) :
    reverse idx.name (fedIndex idx store writes deletes).indexDB =
      feed (forward idx.name store) (reverse idx.name idx.indexDB) writes deletes := by
  funext k
  unfold fedIndex
  dsimp only
  rw [applyAll_append]
  refine (reverse_deletes deletes hdeletes k).trans ?_
  rw [← feed_eq writes deletes k _ hwrites]
  by_cases hk : k ∈ deletes
  · rw [if_pos hk, if_pos hk]
  · rw [if_neg hk, if_neg hk]
    exact congrFun (reverse_sets (found store writes) (allPlain_found hwrites)) k

theorem allFiled_fedIndex (hwrites : AllPlain idx.name writes) (h : AllFiled idx.name idx.indexDB) :
    AllFiled idx.name (fedIndex idx store writes deletes).indexDB := by
  apply h.applyAll
  intro e he r x heffect
  rcases mem_append.mp he with he | he
  · exact filed_of_sets (allPlain_found hwrites) e he r x heffect
  · obtain ⟨edge, -, rfl⟩ := mem_map.mp he
    unfold OrdMap.Edit.effect at heffect
    dsimp only at heffect
    split at heffect <;> cases heffect

/-- Every edge worked off is new to the index, and every edge removed is there. -/
structure CountsOnce (idx : GraphIndex ν) (store : OrdMap Bytes ν) (op : FedMap.Op Bytes) :
    Prop where
  once : (op.writes.filter fun key => (forward idx.name store key).isSome).Nodup
  new : ∀ key ∈ op.writes, (forward idx.name store key).isSome →
    reverse idx.name idx.indexDB key = none
  there : ∀ key ∈ op.deletes, (edgeOf idx.name key).isSome →
    (reverse idx.name idx.indexDB key).isSome ∨
      key ∈ op.writes ∧ (forward idx.name store key).isSome

theorem tallyOf_found (hplain : AllPlain name keys) (t : Bytes) :
    tallyOf (typeOf name) ((found store keys).map Prod.fst) t =
      tallyOf (typeOf name) (keys.filter fun key => (forward name store key).isSome) t := by
  unfold tallyOf found
  rw [countP_filter, map_filterMap, countP_filterMap]
  apply countP_congr
  intro key hkey
  have hforward : forward name store key = (edgeOf name key).bind fun _ => store.get? key := by
    rw [hplain key hkey]
    rfl
  rw [hforward]
  unfold typeOf
  cases hedge : edgeOf name key <;> cases store.get? key <;> simp [hedge]

theorem tallies_fedIndex {op : FedMap.Op Bytes} (hwrites : AllPlain idx.name op.writes)
    (hdeletes : AllPlain idx.name op.deletes) (hnodup : op.deletes.Nodup)
    (h : Tallies (typeOf idx.name) (reverse idx.name idx.indexDB) idx.edgeTypeCounts)
    (honce : CountsOnce idx store op) :
    Tallies (typeOf idx.name) (reverse idx.name (fedIndex idx store op.writes op.deletes).indexDB)
      (fedIndex idx store op.writes op.deletes).edgeTypeCounts := by
  have hfound : ∀ k, k ∈ op.writes.filter (fun key => (forward idx.name store key).isSome) ↔
      k ∈ op.writes ∧ (forward idx.name store k).isSome := fun k => mem_filter
  have hnew : ∀ k ∈ op.writes.filter (fun key => (forward idx.name store key).isSome),
      reverse idx.name idx.indexDB k = none := by
    intro k hk
    obtain ⟨hw, hsome⟩ := (hfound k).mp hk
    exact honce.new k hw hsome
  have hremoved : ∀ k ∈ op.deletes.filter (fun key => (edgeOf idx.name key).isSome),
      k ∈ op.deletes ∧ ((reverse idx.name idx.indexDB k).isSome ∨
        k ∈ op.writes.filter fun key => (forward idx.name store key).isSome) := by
    intro k hk
    obtain ⟨hdel, hedge⟩ := mem_filter.mp hk
    refine ⟨hdel, ?_⟩
    rw [hfound]
    exact honce.there k hdel hedge
  have hother : ∀ k ∈ op.deletes, k ∉ op.deletes.filter (fun key => (edgeOf idx.name key).isSome) →
      reverse idx.name idx.indexDB k = none ∧ forward idx.name store k = none := by
    intro k hdel hnot
    have hnone : plainEdge idx.name k = none := by
      rw [← hdeletes k hdel, ← Option.not_isSome_iff_eq_none]
      exact fun hsome => hnot (mem_filter.mpr ⟨hdel, hsome⟩)
    unfold reverse forward
    rw [hnone]
    exact ⟨rfl, rfl⟩
  have hcount : ∀ t, tallyOf (typeOf idx.name)
      (op.deletes.filter fun key => (edgeOf idx.name key).isSome) t =
      tallyOf (typeOf idx.name) op.deletes t := by
    intro t
    unfold tallyOf
    rw [countP_filter]
    apply countP_congr
    intro key _
    unfold typeOf
    cases edgeOf idx.name key <;> simp
  have hfed := h.fed hfound honce.once hnew hremoved (hnodup.filter _) hother
  rw [reverse_fedIndex hwrites hdeletes]
  simp only [hcount, ← tallyOf_found hwrites] at hfed
  exact hfed

theorem reverse_commitBackfill (hplain : AllPlain idx.name (chunk.map Prod.fst)) :
    reverse idx.name (idx.commitBackfill chunk).indexDB =
      copy (reverse idx.name idx.indexDB)
        (chunk.filter fun p => (edgeOf idx.name p.1).isSome) :=
  reverse_sets chunk hplain

theorem allFiled_commitBackfill (hplain : AllPlain idx.name (chunk.map Prod.fst))
    (h : AllFiled idx.name idx.indexDB) :
    AllFiled idx.name (idx.commitBackfill chunk).indexDB :=
  h.applyAll (filed_of_sets hplain)

theorem counts_commitBackfill (chunk : List (Bytes × ν)) :
    (idx.commitBackfill chunk).edgeTypeCounts = fun t => idx.edgeTypeCounts t +
      tallyOf (typeOf idx.name) (chunk.map Prod.fst) t := by
  funext t
  have hedges := countType_edges idx.name (chunk.map Prod.fst) t
  rw [← map_edgesOf] at hedges
  rw [← hedges]
  rfl

theorem mem_given_writes :
    key ∈ (given idx op).writes ↔
      key ∈ op.writes ∧ (!key.isEmpty && idx.byteRange.contains key) = true :=
  mem_filter

theorem mem_given_deletes :
    key ∈ (given idx op).deletes ↔
      (key ∈ op.deletes ∧ (!key.isEmpty && idx.byteRange.contains key) = true) ∧ key ≠ [] ∧
        Routed idx.name .graph key := by
  unfold given
  dsimp only
  rw [mem_deletesForIndex]
  unfold IndexOp.clip
  dsimp only
  rw [mem_filter]

theorem announces_given {pieces : List IndexOp} (h : IndexManager.CutsInto op pieces) :
    FedMap.Announces (pieces.map (given idx)) (given idx op).writes (given idx op).deletes := by
  obtain ⟨hwrites, hdeletes⟩ := h
  constructor
  · intro k
    rw [mem_given_writes, ← hwrites, mem_flatMap]
    constructor
    · rintro ⟨op', hop', hk⟩
      obtain ⟨piece, hpiece, rfl⟩ := mem_map.mp hop'
      obtain ⟨hmem, hin⟩ := mem_given_writes.mp hk
      exact ⟨⟨piece, hpiece, hmem⟩, hin⟩
    · rintro ⟨⟨piece, hpiece, hmem⟩, hin⟩
      exact ⟨_, mem_map.mpr ⟨piece, hpiece, rfl⟩, mem_given_writes.mpr ⟨hmem, hin⟩⟩
  · intro k
    rw [mem_given_deletes, ← hdeletes, mem_flatMap]
    constructor
    · rintro ⟨op', hop', hk⟩
      obtain ⟨piece, hpiece, rfl⟩ := mem_map.mp hop'
      obtain ⟨⟨hmem, hin⟩, hrest⟩ := mem_given_deletes.mp hk
      exact ⟨⟨⟨piece, hpiece, hmem⟩, hin⟩, hrest⟩
    · rintro ⟨⟨⟨piece, hpiece, hmem⟩, hin⟩, hrest⟩
      exact ⟨_, mem_map.mpr ⟨piece, hpiece, rfl⟩,
        mem_given_deletes.mpr ⟨⟨hmem, hin⟩, hrest⟩⟩

theorem edgesByName_foldl (groups : DeleteKeyGroups) (keys : List Bytes) :
    (keys.foldl appendDeleteKeyGroup groups).edgesByName name =
      groups.edgesByName name ++ keys.filter fun key =>
        isEdgeKey key && (parseEdgeKey key).any fun edge => name = edge.indexName := by
  induction keys generalizing groups with
  | nil => exact (append_nil _).symm
  | cons key keys ih =>
    rw [foldl_cons, ih, filter_cons]
    unfold appendDeleteKeyGroup
    dsimp only
    cases hedge : isEdgeKey key with
    | true =>
      rw [if_pos rfl]
      cases hparse : parseEdgeKey key with
      | none => simp
      | some edge => by_cases hname : name = edge.indexName <;> simp [hname]
    | false =>
      rw [if_neg Bool.false_ne_true]
      cases hchunk : isChunkKey key with
      | true =>
        rw [if_pos rfl]
        cases parseChunkKey key <;> simp
      | false => simp

theorem nodup_eraseDups (keys : List Bytes) : keys.eraseDups.Nodup := by
  induction hlength : keys.length using Nat.strongRecOn generalizing keys with
  | ind n ih =>
    cases keys with
    | nil => exact nodup_nil
    | cons key keys =>
      rw [eraseDups_cons, nodup_cons]
      constructor
      · intro hmem
        rw [mem_eraseDups, mem_filter] at hmem
        simp at hmem
      · apply ih _ _ _ rfl
        rw [← hlength, length_cons]
        exact Nat.lt_succ_of_le (length_filter_le _ _)

theorem nodup_given_deletes (op : IndexOp) : (given idx op).deletes.Nodup := by
  unfold given deletesForIndex groupDeleteKeys
  dsimp only
  rw [edgesByName_foldl]
  exact (nodup_eraseDups _).filter _

/-- What an operation changes, and no more, is among the keys it passes on. -/
structure Passes (name : Bytes) (store store' : OrdMap Bytes ν) (op : IndexOp) : Prop where
  gone : ∀ key ∈ op.deletes, (edgeOf name key).isSome → store'.get? key = none
  lost : ∀ key, (edgeOf name key).isSome → store'.get? key = none → store.get? key ≠ none →
    key ∈ op.deletes
  new : ∀ key, store'.get? key ≠ none → store'.get? key ≠ store.get? key → key ∈ op.writes

/-- Every edge that a deleted range holds leaves a deleted document, or is deleted itself. -/
def Operation.Covers (store : OrdMap Bytes ν) (name : Bytes) : Operation ν → Prop
  | .addEdge _ _ _ _ _ | .updateEdgeWeight _ _ _ _ _ | .deleteEdge _ _ _ _ => True
  | .batch _ deletes _ => ∀ key, (edgeOf name key).isSome → (store.get? key).isSome →
      (∃ k ∈ deletes, k ≤ key ∧ key < prefixSuccessor (keyRangeEnd k)) →
      key ∈ deletes ∨ ∃ k ∈ deletes, edgeIteratorPrefix k name [] <+: key

theorem mem_collectOutgoingEdgeKeys {k : Bytes} :
    key ∈ collectOutgoingEdgeKeys store name k ↔
      edgeIteratorPrefix k name [] <+: key ∧ (store.get? key).isSome := by
  unfold collectOutgoingEdgeKeys
  dsimp only
  rw [mem_map]
  constructor
  · rintro ⟨⟨key', x⟩, hscan, rfl⟩
    obtain ⟨hleading, hget⟩ := mem_scan_edges.mp hscan
    exact ⟨hleading, Option.isSome_iff_exists.mpr ⟨x, hget⟩⟩
  · rintro ⟨hleading, hsome⟩
    obtain ⟨x, hget⟩ := Option.isSome_iff_exists.mp hsome
    exact ⟨(key, x), mem_scan_edges.mpr ⟨hleading, hget⟩, rfl⟩

theorem covered_of_mem (h : key ∈ deletes ++ deletes.flatMap (collectOutgoingEdgeKeys store name)) :
    ∃ k ∈ deletes, k ≤ key ∧ key < prefixSuccessor (keyRangeEnd k) := by
  rcases mem_append.mp h with h | h
  · exact ⟨key, h, mem_deleteRange_iff.mpr ⟨[], (append_nil key).symm, by decide⟩⟩
  · obtain ⟨k, hk, hkey⟩ := mem_flatMap.mp h
    obtain ⟨⟨t, ht⟩, -⟩ := mem_collectOutgoingEdgeKeys.mp hkey
    have hcolon : key = k ++ 58 :: (ascii ['i', ':'] ++ name ++ outMarker ++ t) := by
      rw [← ht]
      unfold edgeIteratorPrefix indexMarker
      rw [if_pos isEmpty_nil]
      simp [ascii]
    rw [hcolon]
    exact ⟨k, hk, mem_deleteRange_colon k _⟩

theorem passes_of_batch {writes : List (Bytes × ν)}
    (hcovers : (Operation.batch writes deletes level).Covers store name) :
    Passes name store (store.applyAll (writes.map (fun kv => .set kv.1 kv.2) ++
        deletes.map fun k => .deleteRange k (prefixSuccessor (keyRangeEnd k))))
      ⟨writes.map Prod.fst, deletes ++ deletes.flatMap (collectOutgoingEdgeKeys store name)⟩ := by
  constructor
  · intro key hkey _
    obtain ⟨k, hk, hrange⟩ := covered_of_mem hkey
    have hgone : OrdMap.lastEffect (deletes.map fun k =>
        (.deleteRange k (prefixSuccessor (keyRangeEnd k)) : OrdMap.Edit Bytes ν)) key =
        some none := by
      apply lastEffect_eq_absent
      · exact ⟨_, mem_map.mpr ⟨k, hk, rfl⟩, if_pos hrange⟩
      · intro e he
        obtain ⟨k', -, rfl⟩ := mem_map.mp he
        unfold OrdMap.Edit.effect
        dsimp only
        split
        · exact Or.inr rfl
        · exact Or.inl rfl
    rw [get?_applyAll, lastEffect_append, hgone]
    rfl
  · intro key hedge hnone hsome
    rw [get?_applyAll] at hnone
    have hlast : OrdMap.lastEffect (writes.map (fun kv =>
        (.set kv.1 kv.2 : OrdMap.Edit Bytes ν)) ++
        deletes.map fun k => .deleteRange k (prefixSuccessor (keyRangeEnd k))) key = some none := by
      revert hnone
      cases OrdMap.lastEffect (writes.map (fun kv => (.set kv.1 kv.2 : OrdMap.Edit Bytes ν)) ++
        deletes.map fun k => .deleteRange k (prefixSuccessor (keyRangeEnd k))) key with
      | none => exact fun hnone => absurd hnone hsome
      | some o =>
        intro hnone
        rw [Option.getD_some] at hnone
        rw [hnone]
    obtain ⟨e, he, heffect⟩ := exists_effect_of_lastEffect hlast
    rcases mem_append.mp he with he | he
    · obtain ⟨kv, -, rfl⟩ := mem_map.mp he
      unfold OrdMap.Edit.effect at heffect
      dsimp only at heffect
      split at heffect <;> cases heffect
    · obtain ⟨k, hk, rfl⟩ := mem_map.mp he
      unfold OrdMap.Edit.effect at heffect
      dsimp only at heffect
      split at heffect
      · rename_i hrange
        have hstored : (store.get? key).isSome := Option.isSome_iff_ne_none.mpr hsome
        rcases hcovers key hedge hstored ⟨k, hk, hrange⟩ with hkey | ⟨k', hk', hleading⟩
        · exact mem_append_left _ hkey
        · apply mem_append_right
          exact mem_flatMap.mpr
            ⟨k', hk', mem_collectOutgoingEdgeKeys.mpr ⟨hleading, hstored⟩⟩
      · cases heffect
  · intro key hsome hne
    rw [get?_applyAll] at hsome hne
    cases hlast : OrdMap.lastEffect (writes.map (fun kv =>
        (.set kv.1 kv.2 : OrdMap.Edit Bytes ν)) ++
        deletes.map fun k => .deleteRange k (prefixSuccessor (keyRangeEnd k))) key with
    | none =>
      rw [hlast] at hne
      exact absurd rfl hne
    | some o =>
      obtain ⟨e, he, heffect⟩ := exists_effect_of_lastEffect hlast
      rw [hlast, Option.getD_some] at hsome
      rcases mem_append.mp he with he | he
      · obtain ⟨kv, hkv, rfl⟩ := mem_map.mp he
        unfold OrdMap.Edit.effect at heffect
        dsimp only at heffect
        split at heffect
        · rename_i heq
          rw [heq]
          exact mem_map.mpr ⟨kv, hkv, rfl⟩
        · cases heffect
      · obtain ⟨k, -, rfl⟩ := mem_map.mp he
        unfold OrdMap.Edit.effect at heffect
        dsimp only at heffect
        split at heffect
        · cases heffect
          exact absurd rfl hsome
        · cases heffect

theorem passes_of_insert (key : Bytes) (value : ν) :
    Passes name store (store.insert key value) ⟨[key], []⟩ := by
  constructor
  · intro k hk
    cases hk
  · intro k _ hnone hsome
    rw [get?_insert] at hnone
    split at hnone
    · cases hnone
    · exact absurd hnone hsome
  · intro k _ hne
    rw [get?_insert] at hne
    split at hne
    · rename_i heq
      rw [heq]
      exact mem_singleton_self _
    · exact absurd rfl hne

theorem passes_of_erase (key : Bytes) : Passes name store (store.erase key) ⟨[], [key]⟩ := by
  constructor
  · intro k hk _
    rw [mem_singleton.mp hk, get?_erase, if_pos rfl]
  · intro k _ hnone hsome
    rw [get?_erase] at hnone
    split at hnone
    · rename_i heq
      rw [heq]
      exact mem_singleton_self _
    · exact absurd hnone hsome
  · intro k hsome hne
    rw [get?_erase] at hsome hne
    split at hsome
    · exact absurd rfl hsome
    · rename_i hneq
      rw [if_neg hneq] at hne
      exact absurd rfl hne

theorem passes_of_apply {operation : Operation ν}
    (h : operation.apply store name = some (store', op, level))
    (hcovers : operation.Covers store name) :
    Passes name store store' op := by
  cases operation with
  | addEdge indexName source target edgeType value =>
    cases h
    exact passes_of_insert _ _
  | updateEdgeWeight indexName source target edgeType newWeight =>
    obtain ⟨existing, -, hp⟩ := Option.map_eq_some_iff.mp h
    cases hp
    exact passes_of_insert _ _
  | deleteEdge indexName source target edgeType =>
    cases h
    exact passes_of_erase _
  | batch writes deletes level =>
    cases h
    exact passes_of_batch hcovers

end Index

end Antfly.Indexes
