import Mathlib.Data.Finset.Card
import Antfly.Lib.OrdMap
import Antfly.Lib.Runs

/-!
The transport keeps a set of peers for each group, and one connection to a store for all groups
that have it as a peer.  A counter tells how many these are.  The connections and the counters are
made by `AddPeer` and go with `RemovePeer`, `RemoveAllPeers` and `Stop`; `Start` gives a group a
new set.
-/

namespace Antfly.SharedPeers

open Finset Function

/-- `types.ID`, of a group or of a store. -/
abbrev ID := ℕ

structure Transport where
  /-- The maps have been made. -/
  initialized : Bool
  shardPeers : OrdMap ID (Finset ID)
  /-- A missing counter reads as zero. -/
  peerAdds : ID → ℤ
  /-- The stores with a connection. -/
  peers : Finset ID

namespace Transport

def new : Transport := ⟨false, .empty, fun _ => 0, ∅⟩

/-- The peers of a group, none for an unknown one. -/
def members (t : Transport) (shardID : ID) : Finset ID := (t.shardPeers.get? shardID).getD ∅

/-- `Start`: `initErr` is the failure of the initialization, which runs once. -/
def start (t : Transport) (shardID : ID) (initErr : Bool) : Transport :=
  let fails := !t.initialized && initErr
  let t := { t with initialized := true }
  if fails then t else { t with shardPeers := t.shardPeers.insert shardID ∅ }

/-- `AddPeer`, which panics on URLs that do not parse. -/
def addPeer (t : Transport) (shardID id : ID) (validURLs : Bool) : Option Transport :=
  if !t.initialized then some t
  else if id ∈ t.members shardID then some t
  else
    let t :=
      { t with
        shardPeers := t.shardPeers.insert shardID (insert id (t.members shardID))
        peerAdds := Function.update t.peerAdds id (t.peerAdds id + 1) }
    if id ∈ t.peers then some t
    else if validURLs then some { t with peers := insert id t.peers }
    else none

def removePeer (t : Transport) (shardID id : ID) : Transport :=
  if id ∈ t.members shardID then
    let adds := t.peerAdds id - 1
    let t :=
      { t with
        shardPeers := t.shardPeers.insert shardID ((t.members shardID).erase id)
        peerAdds := Function.update t.peerAdds id adds }
    if adds = 0 then { t with peers := t.peers.erase id } else t
  else t

/-- `RemoveAllPeers`, in the order in which the map is ranged over. -/
def removeAllPeers (t : Transport) (shardID : ID) (order : List ID) : Transport :=
  order.foldl (fun t id => t.removePeer shardID id) t

/-- The body of `Stop`'s loop; stopping a missing connection panics. -/
def stopPeer (t : Transport) (id : ID) : Option Transport :=
  let adds := t.peerAdds id - 1
  let t := { t with peerAdds := Function.update t.peerAdds id adds }
  if adds = 0 then
    if id ∈ t.peers then some { t with peers := t.peers.erase id } else none
  else some t

def stop (t : Transport) (shardID : ID) (order : List ID) : Option Transport :=
  (order.foldlM stopPeer t).map fun t => { t with shardPeers := t.shardPeers.erase shardID }

/-- What `Send` does with a message of the group to the store. -/
inductive Sent where
  | dropped
  | shardNotFound
  | toPeer
  | notToPeer
  deriving DecidableEq

def send (t : Transport) (shardID to' : ID) : Sent :=
  if to' = 0 then .dropped
  else if (t.shardPeers.get? shardID).isNone then .shardNotFound
  else if to' ∈ t.peers then .toPeer
  else .notToPeer

end Transport

inductive Event where
  | start (shardID : ID) (initErr : Bool)
  | addPeer (shardID id : ID) (validURLs : Bool)
  | removePeer (shardID id : ID)
  | removeAllPeers (shardID : ID) (order : List ID)
  | stop (shardID : ID) (order : List ID)

def step (t : Transport) : Event → Option Transport
  | .start shardID initErr => some (t.start shardID initErr)
  | .addPeer shardID id validURLs => t.addPeer shardID id validURLs
  | .removePeer shardID id => some (t.removePeer shardID id)
  | .removeAllPeers shardID order => some (t.removeAllPeers shardID order)
  | .stop shardID order => t.stop shardID order

/-- A range over a map takes each key once. -/
structure Ranges (order : List ID) (ids : Finset ID) : Prop where
  nodup : order.Nodup
  mem : ∀ id, id ∈ order ↔ id ∈ ids

def Possible (t : Transport) : Event → Prop
  | .removeAllPeers shardID order | .stop shardID order => Ranges order (t.members shardID)
  | _ => True

/-- No group is started while it has peers. -/
def StartsEmpty (t : Transport) : Event → Prop
  | .start shardID _ => t.members shardID = ∅
  | _ => True

namespace Transport

variable {t t' : Transport} {shardID g id p : ID} {s : Finset ID} {order : List ID}

/-- The groups that have the store as a peer. -/
def groups (t : Transport) (id : ID) : Finset ID :=
  (t.shardPeers.entries.map Prod.fst).toFinset.filter fun g => id ∈ t.members g

@[simp] theorem mem_groups : g ∈ t.groups id ↔ id ∈ t.members g := by
  unfold groups
  rw [mem_filter, and_iff_right_iff_imp]
  intro h
  unfold members at h
  rw [List.mem_toFinset, OrdMap.mem_keys_iff]
  rintro hnone
  rw [hnone] at h
  exact absurd h (notMem_empty id)

theorem members_of_insert (h : t'.shardPeers = t.shardPeers.insert shardID s) (g : ID) :
    t'.members g = if g = shardID then s else t.members g := by
  unfold members
  rw [h, OrdMap.get?_insert]
  split <;> rfl

end Transport

/-- The counters are the numbers of groups and of what has been forgotten, and there is a
connection where one is positive. -/
structure Counts (lost : ID → ℕ) (groups : ID → Finset ID) (peerAdds : ID → ℤ)
    (peers : Finset ID) : Prop where
  card : ∀ id, peerAdds id = (groups id).card + lost id
  mem : ∀ id, id ∈ peers ↔ 0 < peerAdds id

def Transport.Counted (lost : ID → ℕ) (t : Transport) : Prop :=
  Counts lost t.groups t.peerAdds t.peers

section Counts

variable {lost : ID → ℕ} {groups : ID → Finset ID} {peerAdds : ID → ℤ} {peers : Finset ID}
variable {g id : ID}

theorem Counts.acquire (h : Counts lost groups peerAdds peers) (hnew : g ∉ groups id) :
    Counts lost (Function.update groups id (insert g (groups id)))
      (Function.update peerAdds id (peerAdds id + 1)) (insert id peers) := by
  have hcard := h.card id
  refine ⟨fun p => ?_, fun p => ?_⟩
  · rw [update_apply, update_apply]
    split
    · next heq =>
      rw [card_insert_of_notMem hnew, heq]
      omega
    · exact h.card p
  · rw [update_apply, mem_insert]
    split
    · next heq => exact iff_of_true (.inl heq) (by omega)
    · next hne => rw [or_iff_right hne, h.mem p]

theorem Counts.release (h : Counts lost groups peerAdds peers) (hmem : g ∈ groups id) :
    Counts lost (Function.update groups id ((groups id).erase g))
      (Function.update peerAdds id (peerAdds id - 1))
      (if peerAdds id - 1 = 0 then peers.erase id else peers) := by
  have hpositive : 0 < (groups id).card := card_pos.mpr ⟨_, hmem⟩
  have hcard := h.card id
  refine ⟨fun p => ?_, fun p => ?_⟩
  · rw [update_apply, update_apply]
    split
    · next heq =>
      rw [card_erase_of_mem hmem, heq]
      omega
    · exact h.card p
  · rw [update_apply]
    by_cases hp : p = id
    · subst hp
      rw [if_pos rfl]
      split
      · next hzero => simp [hzero]
      · next hzero =>
        rw [h.mem p]
        omega
    · rw [if_neg hp, ← h.mem p]
      split
      · rw [mem_erase, and_iff_right hp]
      · rfl

end Counts

namespace Transport

/-- The store is forgotten by a group that is started while it has the store as a peer. -/
def forgets (t : Transport) (id : ID) : Event → ℕ
  | .start shardID initErr =>
    if (!t.initialized && initErr) = false ∧ id ∈ t.members shardID then 1 else 0
  | _ => 0

variable {t t' : Transport} {shardID g id : ID} {order : List ID} {groups' : ID → Finset ID}
variable {lost : ID → ℕ}

theorem counted_new : Counted (fun _ => 0) new := ⟨fun _ => rfl, fun _ => by simp [new]⟩

theorem Counted.start (h : Counted lost t) (shardID : ID) (initErr : Bool) :
    Counted (fun id => lost id + t.forgets id (.start shardID initErr))
      (t.start shardID initErr) := by
  unfold Transport.start
  cases hfails : !t.initialized && initErr with
  | true =>
    refine ⟨fun id => ?_, h.mem⟩
    have hnone : t.forgets id (.start shardID initErr) = 0 := by simp [forgets, hfails]
    rw [hnone]
    exact h.card id
  | false =>
    have hgroups : ∀ id, groups { t with
        initialized := true, shardPeers := t.shardPeers.insert shardID ∅ } id =
          (t.groups id).erase shardID := by
      intro id
      ext g
      rw [mem_groups, members_of_insert (t := t) (s := ∅) rfl, mem_erase, mem_groups]
      split <;> simp_all
    refine ⟨fun id => ?_, h.mem⟩
    have hcard := h.card id
    simp only [forgets, hfails, true_and, Bool.false_eq_true, if_false, hgroups] at hcard ⊢
    split
    · next hmem =>
      have hpositive := card_pos.mpr ⟨_, mem_groups.mpr hmem⟩
      rw [card_erase_of_mem (mem_groups.mpr hmem)]
      omega
    · next hnot =>
      rw [erase_eq_of_notMem (mem_groups.not.mpr hnot)]
      omega

theorem Counted.addPeer {validURLs : Bool} (h : Counted lost t)
    (hadd : t.addPeer shardID id validURLs = some t') : Counted lost t' := by
  unfold Transport.addPeer at hadd
  split at hadd
  · cases hadd
    exact h
  split at hadd
  · cases hadd
    exact h
  next hnew =>
  have hgroups : ∀ t' : Transport,
      t'.shardPeers = t.shardPeers.insert shardID (insert id (t.members shardID)) →
      t'.groups = Function.update t.groups id (insert shardID (t.groups id)) := by
    intro t' hpeers
    funext p
    ext g
    rw [mem_groups, members_of_insert hpeers, update_apply]
    split <;> split <;> simp_all
  have hcounts := Counts.acquire h (mem_groups.not.mpr hnew)
  simp only at hadd
  unfold Counted
  split at hadd
  · next hconnected =>
    cases hadd
    rw [hgroups _ rfl]
    rwa [insert_eq_of_mem hconnected] at hcounts
  · split at hadd
    · cases hadd
      rwa [hgroups _ rfl]
    · cases hadd

theorem Counted.removePeer (h : Counted lost t) (shardID id : ID) :
    Counted lost (t.removePeer shardID id) := by
  unfold Transport.removePeer
  split
  · next hmem =>
    have hgroups : ∀ t' : Transport,
        t'.shardPeers = t.shardPeers.insert shardID ((t.members shardID).erase id) →
        t'.groups = Function.update t.groups id ((t.groups id).erase shardID) := by
      intro t' hpeers
      funext p
      ext g
      rw [mem_groups, members_of_insert hpeers, update_apply]
      split <;> split <;> simp_all
    have hcounts := Counts.release h (mem_groups.mpr hmem)
    simp only
    unfold Counted
    split
    · next hzero =>
      rw [hgroups _ rfl]
      rwa [if_pos hzero] at hcounts
    · next hzero =>
      rw [hgroups _ rfl]
      rwa [if_neg hzero] at hcounts
  · exact h

theorem Counted.removeAllPeers (h : Counted lost t) (shardID : ID) (order : List ID) :
    Counted lost (t.removeAllPeers shardID order) := by
  unfold Transport.removeAllPeers
  induction order generalizing t with
  | nil => exact h
  | cons id order ih => exact ih (h.removePeer shardID id)

theorem stopPeer_spec (h : Counts lost groups' t.peerAdds t.peers) (hmem : g ∈ groups' id) :
    ∃ t', t.stopPeer id = some t' ∧ t'.shardPeers = t.shardPeers ∧
      Counts lost (Function.update groups' id ((groups' id).erase g)) t'.peerAdds t'.peers := by
  have hcounts := h.release hmem
  have hpositive : 0 < (groups' id).card := card_pos.mpr ⟨_, hmem⟩
  have hconnected : id ∈ t.peers := by
    rw [h.mem, h.card]
    omega
  unfold stopPeer
  simp only
  split
  · next hzero =>
    rw [if_pos hzero] at hcounts
    exact ⟨_, rfl, rfl, hcounts⟩
  · next hzero =>
    rw [if_neg hzero] at hcounts
    exact ⟨_, rfl, rfl, hcounts⟩

theorem stopPeers_spec (hnodup : order.Nodup) (h : Counts lost groups' t.peerAdds t.peers)
    (hmem : ∀ id ∈ order, g ∈ groups' id) :
    ∃ t', order.foldlM stopPeer t = some t' ∧ t'.shardPeers = t.shardPeers ∧
      Counts lost (fun p => if p ∈ order then (groups' p).erase g else groups' p)
        t'.peerAdds t'.peers := by
  induction order generalizing t groups' with
  | nil => exact ⟨t, rfl, rfl, by simpa using h⟩
  | cons id order ih =>
    obtain ⟨hnotMem, hnodup⟩ := List.nodup_cons.mp hnodup
    obtain ⟨t₁, hfirst, hshards, hcounts⟩ := stopPeer_spec h (hmem id List.mem_cons_self)
    have hrest : ∀ p ∈ order, g ∈ Function.update groups' id ((groups' id).erase g) p := by
      intro p hp
      have hne : p ≠ id := by
        rintro rfl
        exact hnotMem hp
      rw [update_of_ne hne]
      exact hmem p (List.mem_cons_of_mem _ hp)
    obtain ⟨t₂, hrun, hshards₂, hcounts₂⟩ := ih hnodup hcounts hrest
    refine ⟨t₂, ?_, hshards₂.trans hshards, ?_⟩
    · rw [List.foldlM_cons, hfirst]
      exact hrun
    · convert hcounts₂ using 2 with p
      rw [update_apply]
      by_cases hp : p = id
      · subst hp
        simp [hnotMem]
      · simp [hp]

theorem Counted.stop (h : Counted lost t) (horder : Ranges order (t.members shardID)) :
    ∃ t', t.stop shardID order = some t' ∧ Counted lost t' := by
  have hmem : ∀ id ∈ order, shardID ∈ t.groups id :=
    fun id hid => mem_groups.mpr ((horder.mem id).mp hid)
  obtain ⟨t', hrun, hshards, hcounts⟩ := stopPeers_spec horder.nodup h hmem
  refine ⟨_, by unfold Transport.stop; rw [hrun]; rfl, ?_⟩
  unfold Counted
  convert hcounts using 1
  funext p
  ext g
  have hmembers : ∀ t'' : Transport, t''.shardPeers = t.shardPeers.erase shardID →
      t''.members g = if g = shardID then ∅ else t.members g := by
    intro t'' ht
    unfold members
    rw [ht, OrdMap.get?_erase]
    split <;> rfl
  rw [mem_groups, hmembers _ (by simp only [hshards])]
  split
  · next hg =>
    subst hg
    split
    · simp
    · next hp => simp [mem_groups, ← horder.mem, hp]
  · next hg =>
    split <;> simp [hg]

/-- What the counters are for. -/
structure Exact (t : Transport) : Prop where
  peerAdds : ∀ id, t.peerAdds id = (t.groups id).card
  peers : ∀ id, id ∈ t.peers ↔ 0 < t.peerAdds id
  reaches : ∀ g, ∀ id ∈ t.members g, id ≠ 0 → t.send g id = .toPeer
  last : ∀ id, (∀ g, id ∉ t.members g) → id ∉ t.peers
  stops : ∀ g order, Ranges order (t.members g) → (t.stop g order).isSome

/-- What holds of the counters when stores have been forgotten as often as `lost` says. -/
structure Accounted (lost : ID → ℕ) (t : Transport) : Prop where
  peerAdds : ∀ id, t.peerAdds id = (t.groups id).card + lost id
  peers : ∀ id, id ∈ t.peers ↔ 0 < t.peerAdds id
  reaches : ∀ g, ∀ id ∈ t.members g, id ≠ 0 → t.send g id = .toPeer
  stops : ∀ g order, Ranges order (t.members g) → (t.stop g order).isSome

theorem Counted.accounted (h : Counted lost t) : t.Accounted lost where
  peerAdds := Counts.card h
  peers := Counts.mem h
  reaches := by
    intro g id hid hne
    have hknown : (t.shardPeers.get? g).isNone = false := by
      unfold members at hid
      cases hget : t.shardPeers.get? g with
      | none =>
        rw [hget] at hid
        exact absurd hid (notMem_empty id)
      | some _ => rfl
    have hconnected : id ∈ t.peers := by
      have hpositive := card_pos.mpr ⟨_, mem_groups.mpr hid⟩
      rw [Counts.mem h, Counts.card h]
      omega
    unfold Transport.send
    rw [if_neg hne, hknown, if_neg Bool.false_ne_true, if_pos hconnected]
  stops := by
    intro g order horder
    obtain ⟨t', hstop, -⟩ := h.stop horder
    rw [hstop]
    rfl

theorem Accounted.exact (h : t.Accounted fun _ => 0) : t.Exact where
  peerAdds := h.peerAdds
  peers := h.peers
  reaches := h.reaches
  last := by
    intro id hnone
    have hgroups : t.groups id = ∅ := by
      ext g
      simp [hnone]
    rw [h.peers, h.peerAdds, hgroups]
    decide
  stops := h.stops

end Transport

open Transport

/-- How often the starts of the events forget the store. -/
def leaks (t : Transport) : List Event → ID → ℕ
  | [], _ => 0
  | e :: es, id => t.forgets id e + ((step t e).map fun t' => leaks t' es id).getD 0

theorem step_counted {t t' : Transport} {lost : ID → ℕ} {e : Event} (he : Possible t e)
    (hstep : step t e = some t') (h : t.Counted lost) :
    t'.Counted fun id => lost id + t.forgets id e := by
  cases e with
  | start shardID initErr =>
    cases hstep
    exact h.start shardID initErr
  | addPeer shardID id validURLs => exact h.addPeer hstep
  | removePeer shardID id =>
    cases hstep
    exact h.removePeer shardID id
  | removeAllPeers shardID order =>
    cases hstep
    exact h.removeAllPeers shardID order
  | stop shardID order =>
    obtain ⟨t'', hstop, hcounted⟩ := h.stop he
    cases hstop.symm.trans hstep
    exact hcounted

/-- As long as no group is started while it has peers, the counters are exact. -/
theorem run_exact {es : List Event} {t : Transport}
    (hrun : Run step (fun t e => Possible t e ∧ StartsEmpty t e) .new es t) : t.Exact := by
  refine (Counted.accounted ?_).exact
  refine hrun.invariant (fun t e t' he hstep h => ?_) counted_new
  have hnone : ∀ id, t.forgets id e = 0 := by
    intro id
    cases e with
    | start shardID initErr =>
      have hempty : t.members shardID = ∅ := he.2
      simp [forgets, hempty]
    | _ => rfl
  simpa [hnone] using step_counted he.1 hstep h

theorem run_counted {t t' : Transport} {lost : ID → ℕ} {es : List Event}
    (hrun : Run step Possible t es t') (h : t.Counted lost) :
    t'.Counted fun id => lost id + leaks t es id := by
  induction hrun generalizing lost with
  | nil => exact h
  | cons he hstep _ ih =>
    simpa [leaks, hstep, Nat.add_assoc] using ih (step_counted he hstep h)

/-- Whatever is started when, a counter is the number of groups and of the starts that forgot the
store: no group is cut off from a peer, and no `Stop` panics. -/
theorem run_accounted {es : List Event} {t : Transport} (hrun : Run step Possible .new es t) :
    t.Accounted (leaks .new es) := by
  simpa using (run_counted hrun counted_new).accounted

theorem ranges_empty : Ranges [] ∅ := ⟨List.nodup_nil, fun id => by simp⟩

theorem run_exact_restart :
    ∃ t, Run step (fun t e => Possible t e ∧ StartsEmpty t e) .new
      [.start 1 false, .addPeer 1 2 true, .removePeer 1 2, .stop 1 [], .start 1 false] t ∧
        t.Exact := by
  have hrun : ∃ t, Run step (fun t e => Possible t e ∧ StartsEmpty t e) .new
      [.start 1 false, .addPeer 1 2 true, .removePeer 1 2, .stop 1 [], .start 1 false] t :=
    ⟨_, .cons ⟨trivial, rfl⟩ rfl (.cons ⟨trivial, trivial⟩ rfl (.cons ⟨trivial, trivial⟩ rfl
      (.cons ⟨ranges_empty, trivial⟩ rfl (.cons ⟨trivial, rfl⟩ rfl (.nil _)))))⟩
  obtain ⟨t, ht⟩ := hrun
  exact ⟨t, ht, run_exact ht⟩

theorem run_accounted_restart :
    ∃ t, Run step Possible .new [.start 1 false, .addPeer 1 2 true, .start 1 false] t ∧
      t.Accounted (leaks .new [.start 1 false, .addPeer 1 2 true, .start 1 false]) := by
  have hrun : ∃ t, Run step Possible .new [.start 1 false, .addPeer 1 2 true, .start 1 false] t :=
    ⟨_, .cons trivial rfl (.cons trivial rfl (.cons trivial rfl (.nil _)))⟩
  obtain ⟨t, ht⟩ := hrun
  exact ⟨t, ht, run_accounted ht⟩

/-- A group that is stopped, gets a peer from a late conf change and is started again forgets the
peer, whose counter and connection stay. -/
theorem start_forgets_peers :
    ¬ ∀ es t, Run step Possible .new es t → t.Exact := by
  intro h
  have hrun : ∃ t, Run step Possible .new
      [.start 1 false, .stop 1 [], .addPeer 1 2 true, .start 1 false] t ∧
        t.peerAdds 2 = 1 ∧ t.groups 2 = ∅ :=
    ⟨_, .cons trivial rfl (.cons ranges_empty rfl (.cons trivial rfl (.cons trivial rfl (.nil _)))),
      rfl, rfl⟩
  obtain ⟨t, ht, hadds, hgroups⟩ := hrun
  have hcount := (h _ t ht).peerAdds 2
  rw [hadds, hgroups] at hcount
  cases hcount

end Antfly.SharedPeers
