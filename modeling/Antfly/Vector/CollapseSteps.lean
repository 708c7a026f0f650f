import Antfly.Lib.NearestPerClass
import Antfly.Vector.HBCTraversal

/-!
The results that are not removed should be the nearest of each collapse key.  A member that arrives
when the heap is full keeps them so, unless the farthest result is popped for it in vain, or there
is room that removed items take.
-/

namespace Antfly.Vector

open BinaryHeap NearestPerClass List

section Defs

variable (idx : HBCIndex) (req : SearchRequest)

/-- The collapse key of a member, or the member itself where it has none. -/
def collapseClass (id : ℕ) : Bytes ⊕ ℕ :=
  match idx.config.collapseKeysFunc with
  | none => .inr id
  | some collapseKeys =>
    if collapseMetadata idx id = [] then .inr id
    else .inl (collapseKeys (collapseMetadata idx id))

def memberDistance (id : ℕ) : ℚ := (passingDistance idx req id).getD 0

/-- The members of the heap that are not removed. -/
def SearchResults.live (s : SearchResults) : Finset ℕ :=
  ((s.heap.filter fun item => item.id ∉ s.removed).map PriorityItem.id).toFinset

/-- The results found so far are the nearest of each collapse key. -/
def FoundNearest (arrived : Finset ℕ) (s : SearchResults) : Prop :=
  Chosen (collapseClass idx) (memberDistance idx req) req.k arrived s.live

/-- When the heap is full, a member nearer than the farthest result has its collapse key, or a key
that no result has while none is removed; and a member that is not nearer has the key of a result,
or none is removed. -/
def Fits (s : SearchResults) (id : ℕ) : Prop :=
  req.k ≤ s.heap.length → ∀ top, s.peek.2 = some top →
    (memberDistance idx req id < top.distance →
        collapseClass idx top.id = collapseClass idx id ∨
          collapseClass idx id ∉ s.live.image (collapseClass idx) ∧
            ∀ item ∈ s.heap, item.id ∉ s.removed) ∧
      (top.distance ≤ memberDistance idx req id →
        collapseClass idx id ∈ s.live.image (collapseClass idx) ∨
          ∀ item ∈ s.heap, item.id ∉ s.removed)

/-- What holds of the results in every search. -/
structure SoundResults (arrived : Finset ℕ) (s : SearchResults) : Prop where
  ordered : Ordered farther s.heap.length s.heap
  nodup : (s.heap.map PriorityItem.id).Nodup
  items : ∀ item ∈ s.heap, item.id ∈ arrived ∧ item.distance = memberDistance idx req item.id
  keys : ∀ key item, s.collapseKeyToItem key = some item → item.id ∈ arrived ∧
    collapseClass idx item.id = .inl key ∧ item.distance = memberDistance idx req item.id
  live : ∀ item ∈ s.heap, item.id ∉ s.removed → ∀ key, collapseClass idx item.id = .inl key →
    s.collapseKeyToItem key = some item
  removed : ∀ id ∈ s.removed, id ∈ arrived
  size : s.heap.length ≤ req.k

end Defs

theorem weakOrder_farther : WeakOrder farther where
  asymm a b hab := by
    unfold farther at *
    rw [decide_eq_true_eq] at hab
    rw [decide_eq_false_iff_not]
    exact lt_asymm hab
  trans a b c hba hcb := by
    unfold farther at *
    rw [decide_eq_false_iff_not, gt_iff_lt, not_lt] at *
    exact hcb.trans hba

section Step

variable {idx : HBCIndex} {req : SearchRequest} {arrived : Finset ℕ} {s : SearchResults} {id : ℕ}

theorem SearchResults.mem_live : id ∈ s.live ↔ ∃ item ∈ s.heap, item.id = id ∧ id ∉ s.removed := by
  unfold live
  simp only [mem_toFinset, mem_map, mem_filter, decide_eq_true_eq]
  constructor
  · rintro ⟨item, ⟨hmem, hremoved⟩, rfl⟩
    exact ⟨item, hmem, rfl, hremoved⟩
  · rintro ⟨item, hmem, rfl, hremoved⟩
    exact ⟨item, ⟨hmem, hremoved⟩, rfl⟩

theorem SoundResults.mono (h : SoundResults idx req arrived s) (id : ℕ) :
    SoundResults idx req (insert id arrived) s where
  ordered := h.ordered
  nodup := h.nodup
  items item hitem := ⟨Finset.mem_insert_of_mem (h.items item hitem).1, (h.items item hitem).2⟩
  keys key item hkey :=
    ⟨Finset.mem_insert_of_mem (h.keys key item hkey).1, (h.keys key item hkey).2⟩
  live := h.live
  removed id hid := Finset.mem_insert_of_mem (h.removed id hid)
  size := h.size

theorem SoundResults.pop (h : SoundResults idx req arrived s) {top : PriorityItem}
    (htop : s.heap.head? = some top) :
    SoundResults idx req arrived s.pop ∧ s.pop.live = s.live.erase top.id ∧
      s.pop.heap.length + 1 = s.heap.length ∧ s.pop.removed = s.removed ∧
      s.pop.collapseKeyToItem = s.collapseKeyToItem ∧
      (∀ item ∈ s.heap, item.distance ≤ top.distance) ∧ ∀ item ∈ s.pop.heap, item ∈ s.heap := by
  have hne : s.heap ≠ [] := by
    intro hnil
    rw [hnil] at htop
    cases htop
  obtain ⟨x, rest, hpop, hperm, hord, hfarthest⟩ := pop_spec weakOrder_farther h.ordered hne
  obtain rfl : x = top := by
    have hroot := pop_root weakOrder_farther hpop
    rw [htop] at hroot
    exact (Option.some.inj hroot).symm
  have heap : s.pop.heap = rest := by
    unfold SearchResults.pop
    rw [hpop]
    rfl
  have hsub : ∀ item ∈ s.pop.heap, item ∈ s.heap := fun item hitem =>
    hperm.mem_iff.mp (mem_cons_of_mem _ (heap ▸ hitem))
  have hnodup : (x.id :: rest.map PriorityItem.id).Nodup :=
    (hperm.map PriorityItem.id).nodup_iff.mpr h.nodup
  have hlength : s.pop.heap.length + 1 = s.heap.length := by
    rw [heap]
    exact hperm.length_eq
  refine ⟨⟨heap ▸ hord, ?_, fun item hitem => h.items item (hsub item hitem), h.keys,
    fun item hitem => h.live item (hsub item hitem), h.removed, ?_⟩, ?_, hlength, rfl, rfl, ?_,
    hsub⟩
  · rw [heap]
    exact (nodup_cons.mp hnodup).2
  · have := h.size
    omega
  · ext id
    rw [Finset.mem_erase, SearchResults.mem_live, SearchResults.mem_live]
    constructor
    · rintro ⟨item, hitem, rfl, hremoved⟩
      refine ⟨fun heq => ?_, item, hsub item hitem, rfl, hremoved⟩
      rw [heap] at hitem
      exact (nodup_cons.mp hnodup).1 (heq ▸ mem_map_of_mem hitem)
    · rintro ⟨hneq, item, hitem, rfl, hremoved⟩
      refine ⟨item, ?_, rfl, hremoved⟩
      rw [heap]
      rcases mem_cons.mp (hperm.mem_iff.mpr hitem) with rfl | hmem
      · exact absurd rfl hneq
      · exact hmem
  · intro item hitem
    have hle := hfarthest item hitem
    unfold farther at hle
    rwa [decide_eq_false_iff_not, gt_iff_lt, not_lt] at hle

theorem SoundResults.cleanTopRemoved (h : SoundResults idx req arrived s) {fuel : ℕ}
    (hfuel : s.heap.length ≤ fuel) :
    let s' := SearchResults.cleanTopRemoved fuel s
    SoundResults idx req arrived s' ∧ s'.live = s.live ∧ s'.removed = s.removed ∧
      s'.collapseKeyToItem = s.collapseKeyToItem ∧ s'.heap.length ≤ s.heap.length ∧
      (∀ item ∈ s'.heap, item ∈ s.heap) ∧
      ∀ top, s'.heap.head? = some top → top.id ∉ s'.removed := by
  induction fuel generalizing s with
  | zero =>
    have hnil : s.heap = [] := length_eq_zero_iff.mp (by omega)
    refine ⟨h, rfl, rfl, rfl, Nat.le_refl _, fun _ hitem => hitem, fun top htop => ?_⟩
    have hhead : s.heap.head? = some top := htop
    rw [hnil] at hhead
    cases hhead
  | succ fuel ih =>
    cases hheap : s.heap with
    | nil =>
      have hself : SearchResults.cleanTopRemoved (fuel + 1) s = s := by
        unfold SearchResults.cleanTopRemoved
        rw [hheap]
      rw [hself]
      refine ⟨h, rfl, rfl, rfl, hheap ▸ Nat.le_refl _, fun _ hitem => hheap ▸ hitem, ?_⟩
      intro top htop
      rw [hheap] at htop
      cases htop
    | cons top rest =>
      have hhead : s.heap.head? = some top := by
        rw [hheap]
        rfl
      by_cases hremoved : top.id ∈ s.removed
      · have hpops : SearchResults.cleanTopRemoved (fuel + 1) s =
            SearchResults.cleanTopRemoved fuel s.pop := by
          rw [SearchResults.cleanTopRemoved, hheap]
          exact if_pos hremoved
        obtain ⟨hsound, hlive, hlength, hsame, hkeys, -, hsub⟩ := h.pop hhead
        obtain ⟨hsound', hlive', hremoved', hkeys', hlength', hsub', htop'⟩ :=
          ih hsound (by omega)
        rw [hpops, ← hheap]
        refine ⟨hsound', ?_, hremoved'.trans hsame, hkeys'.trans hkeys, by omega,
          fun item hitem => hsub item (hsub' item hitem), htop'⟩
        rw [hlive', hlive]
        refine Finset.erase_eq_of_notMem fun hmem => ?_
        obtain ⟨item, -, hid, hnot⟩ := SearchResults.mem_live.mp hmem
        exact hnot hremoved
      · have hself : SearchResults.cleanTopRemoved (fuel + 1) s = s := by
          rw [SearchResults.cleanTopRemoved, hheap]
          exact if_neg hremoved
        rw [hself, ← hheap]
        refine ⟨h, rfl, rfl, rfl, Nat.le_refl _, fun _ hitem => hitem, fun top' htop' => ?_⟩
        rw [hhead] at htop'
        obtain rfl := Option.some.inj htop'
        exact hremoved

theorem heap_push_mem (s : SearchResults) (new item : PriorityItem) :
    item ∈ (s.push new).heap ↔ item = new ∨ item ∈ s.heap :=
  (@push_perm _ farther s.heap new).mem_iff.trans mem_cons

theorem SoundResults.not_mem_heap (h : SoundResults idx req arrived s) (hnew : id ∉ arrived)
    {item : PriorityItem} (hitem : item ∈ s.heap) : item.id ≠ id :=
  fun heq => hnew (heq ▸ (h.items item hitem).1)

theorem SoundResults.push_own (h : SoundResults idx req arrived s) (hroom : s.heap.length < req.k)
    (hnew : id ∉ arrived) (hclass : collapseClass idx id = .inr id) :
    let s' := s.push { id := id, distance := memberDistance idx req id }
    SoundResults idx req (insert id arrived) s' ∧ s'.live = insert id s.live := by
  dsimp only
  have hmem := heap_push_mem s { id := id, distance := memberDistance idx req id }
  have hperm := @push_perm _ farther s.heap { id := id, distance := memberDistance idx req id }
  have hout : id ∉ s.removed := fun hremoved => hnew (h.removed id hremoved)
  refine ⟨⟨push_ordered weakOrder_farther h.ordered _ _, ?_, ?_, ?_, ?_, ?_, ?_⟩, ?_⟩
  · refine (hperm.map PriorityItem.id).nodup_iff.mpr (nodup_cons.mpr ⟨?_, h.nodup⟩)
    rintro hid
    obtain ⟨item, hitem, heq⟩ := mem_map.mp hid
    exact h.not_mem_heap hnew hitem heq
  · intro item hitem
    rcases (hmem item).mp hitem with rfl | hitem
    · exact ⟨Finset.mem_insert_self _ _, rfl⟩
    · exact (h.mono id).items item hitem
  · exact (h.mono id).keys
  · intro item hitem hremoved key hkey
    rcases (hmem item).mp hitem with rfl | hitem
    · rw [hclass] at hkey
      cases hkey
    · exact h.live item hitem hremoved key hkey
  · exact (h.mono id).removed
  · have hlength := hperm.length_eq
    rw [length_cons] at hlength
    exact hlength ▸ hroom
  · ext found
    rw [Finset.mem_insert, SearchResults.mem_live, SearchResults.mem_live]
    constructor
    · rintro ⟨item, hitem, rfl, hremoved⟩
      rcases (hmem item).mp hitem with rfl | hitem
      · exact .inl rfl
      · exact .inr ⟨item, hitem, rfl, hremoved⟩
    · rintro (rfl | ⟨item, hitem, rfl, hremoved⟩)
      · exact ⟨_, (hmem _).mpr (.inl rfl), rfl, hout⟩
      · exact ⟨item, (hmem item).mpr (.inr hitem), rfl, hremoved⟩

theorem SoundResults.push_keyed (h : SoundResults idx req arrived s)
    (hroom : s.heap.length < req.k) (hnew : id ∉ arrived) {key : Bytes}
    (hclass : collapseClass idx id = .inl key) :
    let item := { id := id, distance := memberDistance idx req id }
    let s' := (s.setCollapseKey key item).push item
    SoundResults idx req (insert id arrived) s' ∧
      s'.live = insert id (s.live.filter fun found =>
        ∀ existing, s.collapseKeyToItem key = some existing → found ≠ existing.id) := by
  dsimp only
  have hmem := heap_push_mem
    (s.setCollapseKey key { id := id, distance := memberDistance idx req id })
    { id := id, distance := memberDistance idx req id }
  have hperm := @push_perm _ farther s.heap { id := id, distance := memberDistance idx req id }
  have hremoved : ∀ found, found ∈ (s.setCollapseKey key
      { id := id, distance := memberDistance idx req id }).removed ↔
        (∃ existing, s.collapseKeyToItem key = some existing ∧ existing.id = found) ∨
          found ∈ s.removed := by
    intro found
    unfold SearchResults.setCollapseKey
    simp
  have hout : id ∉ (s.setCollapseKey key
      { id := id, distance := memberDistance idx req id }).removed := by
    rw [hremoved]
    rintro (⟨existing, hexisting, rfl⟩ | hmem)
    · exact hnew (h.keys key existing hexisting).1
    · exact hnew (h.removed id hmem)
  refine ⟨⟨push_ordered weakOrder_farther h.ordered _ _, ?_, ?_, ?_, ?_, ?_, ?_⟩, ?_⟩
  · refine (hperm.map PriorityItem.id).nodup_iff.mpr (nodup_cons.mpr ⟨?_, h.nodup⟩)
    rintro hid
    obtain ⟨item, hitem, heq⟩ := mem_map.mp hid
    exact h.not_mem_heap hnew hitem heq
  · intro item hitem
    rcases (hmem item).mp hitem with rfl | hitem
    · exact ⟨Finset.mem_insert_self _ _, rfl⟩
    · exact (h.mono id).items item hitem
  · intro key' item hitem
    have hmap : Function.update s.collapseKeyToItem key
        (some { id := id, distance := memberDistance idx req id }) key' = some item := hitem
    by_cases hkey : key' = key
    · subst hkey
      rw [Function.update_self] at hmap
      obtain rfl := Option.some.inj hmap
      exact ⟨Finset.mem_insert_self _ _, hclass, rfl⟩
    · rw [Function.update_of_ne hkey] at hmap
      exact (h.mono id).keys key' item hmap
  · intro item hitem hlive key' hkey'
    have hmap : ∀ found, Function.update s.collapseKeyToItem key
        (some { id := id, distance := memberDistance idx req id }) key' = found →
          ((s.setCollapseKey key { id := id, distance := memberDistance idx req id }).push
            { id := id, distance := memberDistance idx req id }).collapseKeyToItem key' = found :=
      fun _ heq => heq
    rcases (hmem item).mp hitem with rfl | hitem
    · obtain rfl := Sum.inl.inj (hclass.symm.trans hkey')
      exact hmap _ (Function.update_self _ _ _)
    · have hnot : item.id ∉ (s.setCollapseKey key
          { id := id, distance := memberDistance idx req id }).removed := hlive
      rw [hremoved, not_or] at hnot
      have hcurrent := h.live item hitem hnot.2 key' hkey'
      have hne : key' ≠ key := by
        rintro rfl
        exact hnot.1 ⟨item, hcurrent, rfl⟩
      exact hmap _ ((Function.update_of_ne hne _ _).trans hcurrent)
  · intro found hfound
    rcases (hremoved found).mp hfound with ⟨existing, hexisting, rfl⟩ | hfound
    · exact Finset.mem_insert_of_mem (h.keys key existing hexisting).1
    · exact Finset.mem_insert_of_mem (h.removed found hfound)
  · have hlength := hperm.length_eq
    rw [length_cons] at hlength
    exact hlength ▸ hroom
  · ext found
    rw [Finset.mem_insert, Finset.mem_filter, SearchResults.mem_live, SearchResults.mem_live]
    constructor
    · rintro ⟨item, hitem, rfl, hlive⟩
      rcases (hmem item).mp hitem with rfl | hitem
      · exact .inl rfl
      · have hnot : item.id ∉ (s.setCollapseKey key
            { id := id, distance := memberDistance idx req id }).removed := hlive
        rw [hremoved, not_or] at hnot
        exact .inr ⟨⟨item, hitem, rfl, hnot.2⟩, fun existing hexisting heq =>
          hnot.1 ⟨existing, hexisting, heq.symm⟩⟩
    · rintro (rfl | ⟨⟨item, hitem, rfl, hlive⟩, hother⟩)
      · exact ⟨_, (hmem _).mpr (.inl rfl), rfl, hout⟩
      · refine ⟨item, (hmem item).mpr (.inr hitem), rfl, ?_⟩
        intro hmem
        rcases (hremoved _).mp hmem with ⟨existing, hexisting, heq⟩ | hmem
        · exact hother existing hexisting heq.symm
        · exact hlive hmem

/-- Inserting where there is room: the item is new to its class, takes the place of the one of its
collapse key, or is behind it. -/
theorem SoundResults.insert_cases (h : SoundResults idx req arrived s)
    (hroom : s.heap.length < req.k) (hnew : id ∉ arrived) :
    let s' := insertResultWithCollapse idx.config.collapseKeysFunc s
      { id := id, distance := memberDistance idx req id } (collapseMetadata idx id)
    SoundResults idx req (insert id arrived) s' ∧
      ((∀ key, collapseClass idx id = .inl key → s.collapseKeyToItem key = none) ∧
          s'.live = insert id s.live ∨
        ∃ key existing, collapseClass idx id = .inl key ∧
          s.collapseKeyToItem key = some existing ∧
          (memberDistance idx req id < existing.distance ∧
              s'.live = insert id (s.live.erase existing.id) ∨
            existing.distance ≤ memberDistance idx req id ∧ s'.live = s.live)) := by
  dsimp only
  cases hfunc : idx.config.collapseKeysFunc with
  | none =>
    have hclass : collapseClass idx id = .inr id := by
      unfold collapseClass
      rw [hfunc]
    obtain ⟨hsound, hlive⟩ := h.push_own hroom hnew hclass
    exact ⟨hsound, .inl ⟨fun _ hkey =>
      absurd (hclass.symm.trans hkey) Sum.inr_ne_inl, hlive⟩⟩
  | some collapseKeys =>
    by_cases hmetadata : collapseMetadata idx id = []
    · have hclass : collapseClass idx id = .inr id := by
        unfold collapseClass
        rw [hfunc]
        exact if_pos hmetadata
      have hpush : insertResultWithCollapse (some collapseKeys) s
          { id := id, distance := memberDistance idx req id } (collapseMetadata idx id) =
            s.push { id := id, distance := memberDistance idx req id } := by
        unfold insertResultWithCollapse
        exact if_pos hmetadata
      obtain ⟨hsound, hlive⟩ := h.push_own hroom hnew hclass
      rw [hpush]
      exact ⟨hsound, .inl ⟨fun _ hkey =>
      absurd (hclass.symm.trans hkey) Sum.inr_ne_inl, hlive⟩⟩
    · have hclass : collapseClass idx id = .inl (collapseKeys (collapseMetadata idx id)) := by
        unfold collapseClass
        rw [hfunc]
        exact if_neg hmetadata
      obtain ⟨hsound, hlive⟩ := h.push_keyed hroom hnew hclass
      unfold insertResultWithCollapse
      dsimp only
      rw [if_neg hmetadata]
      cases hkey : s.collapseKeyToItem (collapseKeys (collapseMetadata idx id)) with
      | none =>
        refine ⟨hsound, .inl ⟨fun key hcls => ?_, ?_⟩⟩
        · obtain rfl := Sum.inl.inj (hclass.symm.trans hcls)
          exact hkey
        · refine hlive.trans (congrArg (insert id) ?_)
          refine Finset.filter_true_of_mem fun found _ existing hexisting => ?_
          rw [hkey] at hexisting
          cases hexisting
      | some existing =>
        dsimp only
        by_cases hlt : memberDistance idx req id < existing.distance
        · rw [if_pos hlt]
          refine ⟨hsound, .inr ⟨_, existing, hclass, hkey, .inl ⟨hlt, ?_⟩⟩⟩
          refine hlive.trans (congrArg (insert id) ?_)
          ext found
          rw [Finset.mem_filter, Finset.mem_erase, and_comm, hkey]
          refine and_congr_left fun _ => ⟨fun hother => hother existing rfl, ?_⟩
          rintro hne _ hsome
          obtain rfl := Option.some.inj hsome
          exact hne
        · rw [if_neg hlt]
          exact ⟨h.mono id, .inr ⟨_, existing, hclass, hkey, .inr ⟨not_lt.mp hlt, rfl⟩⟩⟩

theorem SoundResults.live_subset (h : SoundResults idx req arrived s) : s.live ⊆ arrived := by
  intro found hfound
  obtain ⟨item, hitem, rfl, -⟩ := SearchResults.mem_live.mp hfound
  exact (h.items item hitem).1

theorem SoundResults.card_live (h : SoundResults idx req arrived s) :
    s.live.card = (s.heap.filter fun item => item.id ∉ s.removed).length := by
  unfold SearchResults.live
  rw [toFinset_card_of_nodup (h.nodup.sublist (filter_sublist.map _)), length_map]

theorem SoundResults.card_live_le (h : SoundResults idx req arrived s) :
    s.live.card ≤ s.heap.length := by
  rw [h.card_live]
  exact length_filter_le _ _

theorem SoundResults.card_live_eq_iff (h : SoundResults idx req arrived s) :
    s.live.card = s.heap.length ↔ ∀ item ∈ s.heap, item.id ∉ s.removed := by
  rw [h.card_live, length_filter_eq_length_iff]
  simp only [decide_eq_true_eq]

theorem SoundResults.item_of_class (h : SoundResults idx req arrived s) (hnew : id ∉ arrived)
    {found : ℕ} (hfound : found ∈ s.live)
    (hclass : collapseClass idx found = collapseClass idx id) :
    ∃ key item, collapseClass idx id = .inl key ∧ s.collapseKeyToItem key = some item ∧
      item.id = found ∧ item ∈ s.heap := by
  obtain ⟨item, hitem, rfl, hremoved⟩ := SearchResults.mem_live.mp hfound
  cases hcls : collapseClass idx id with
  | inl key =>
    exact ⟨key, item, rfl, h.live item hitem hremoved key (hclass.trans hcls), rfl, hitem⟩
  | inr own =>
    -- A member without a key is the only one of its class.
    have hown : ∀ member other, collapseClass idx member = .inr other → member = other := by
      intro member other heq
      unfold collapseClass at heq
      split at heq
      · exact Sum.inr.inj heq
      · split at heq
        · exact Sum.inr.inj heq
        · cases heq
    have hid := hown id own hcls
    have hitemId := hown item.id own (hclass.trans hcls)
    exact absurd (h.items item hitem).1 (by rw [hitemId, ← hid]; exact hnew)

theorem FoundNearest.new_class (h : FoundNearest idx req arrived s) (hroom : s.live.card < req.k)
    (hclass : collapseClass idx id ∉ s.live.image (collapseClass idx)) :
    collapseClass idx id ∉ arrived.image (collapseClass idx) := by
  intro hmem
  obtain ⟨member, hmember, heq⟩ := Finset.mem_image.mp hmem
  exact hclass (heq ▸ Chosen.represented h hroom hmember)

theorem FoundNearest.insert_room (h : FoundNearest idx req arrived s)
    (hsound : SoundResults idx req arrived s) (hroom : s.heap.length < req.k)
    (hnew : id ∉ arrived) :
    FoundNearest idx req (insert id arrived)
      (insertResultWithCollapse idx.config.collapseKeysFunc s
        { id := id, distance := memberDistance idx req id } (collapseMetadata idx id)) := by
  have hcard : s.live.card < req.k := hsound.card_live_le.trans_lt hroom
  obtain ⟨-, ⟨hnone, hlive⟩ | ⟨key, existing, hclass, hkey, hcases⟩⟩ :=
    hsound.insert_cases hroom hnew
  · unfold FoundNearest
    rw [hlive]
    refine Chosen.insert_new h hcard (FoundNearest.new_class h hcard fun hmem => ?_)
    obtain ⟨found, hfound, heq⟩ := Finset.mem_image.mp hmem
    obtain ⟨key, item, hkeyed, hitem, -⟩ := hsound.item_of_class hnew hfound heq
    rw [hnone key hkeyed] at hitem
    cases hitem
  · obtain ⟨harrived, hexisting, hdistance⟩ := hsound.keys key existing hkey
    have hsame := hexisting.trans hclass.symm
    -- As there is room, the class has a result, which is the item of the key.
    have hlive : existing.id ∈ s.live := by
      obtain ⟨found, hfound, heq⟩ := Finset.mem_image.mp (Chosen.represented h hcard harrived)
      obtain ⟨key', item, hkeyed, hitem, rfl, -⟩ :=
        hsound.item_of_class hnew hfound (heq.trans hsame)
      obtain rfl := Sum.inl.inj (hclass.symm.trans hkeyed)
      obtain rfl := Option.some.inj (hkey.symm.trans hitem)
      exact hfound
    unfold FoundNearest
    rcases hcases with ⟨hlt, heq⟩ | ⟨hle, heq⟩
    · rw [heq]
      exact Chosen.exchange h hnew hlive (hdistance ▸ hlt) (.inl hsame)
    · rw [heq]
      exact Chosen.insert_behind h hlive hsame (hdistance ▸ hle)

theorem SoundResults.peek (h : SoundResults idx req arrived s) :
    SoundResults idx req arrived s.peek.1 ∧ s.peek.1.live = s.live ∧
      s.peek.1.removed = s.removed ∧ s.peek.1.collapseKeyToItem = s.collapseKeyToItem ∧
      s.peek.1.heap.length ≤ s.heap.length ∧ (∀ item ∈ s.peek.1.heap, item ∈ s.heap) ∧
      ∀ top, s.peek.2 = some top → top.id ∉ s.peek.1.removed :=
  h.cleanTopRemoved (Nat.le_refl s.heap.length)

theorem SoundResults.top_spec (h : SoundResults idx req arrived s) {top : PriorityItem}
    (htop : s.peek.2 = some top) :
    s.peek.1.heap.head? = some top ∧ top.id ∈ s.live ∧
      top.distance = memberDistance idx req top.id ∧
      ∀ found ∈ s.live, memberDistance idx req found ≤ memberDistance idx req top.id := by
  obtain ⟨hsound, hlive, -, -, -, -, hnot⟩ := h.peek
  have hhead : s.peek.1.heap.head? = some top := htop
  have hmem := mem_of_mem_head? (Option.mem_def.mpr hhead)
  have hdistance := (hsound.items top hmem).2
  refine ⟨hhead, ?_, hdistance, ?_⟩
  · rw [← hlive, SearchResults.mem_live]
    exact ⟨top, hmem, rfl, hnot top htop⟩
  · intro found hfound
    rw [← hlive, SearchResults.mem_live] at hfound
    obtain ⟨item, hitem, rfl, -⟩ := hfound
    obtain ⟨-, -, -, -, -, hfarthest, -⟩ := hsound.pop hhead
    rw [← hdistance, ← (hsound.items item hitem).2]
    exact hfarthest item hitem

section Full

variable (h : SoundResults idx req arrived s) (hfound : FoundNearest idx req arrived s)
  (hnew : id ∉ arrived) (hfull : req.k ≤ s.heap.length) {top : PriorityItem}
  (htop : s.peek.2 = some top)

include h hfound hnew hfull htop

omit hnew in
theorem foundNearest_behind_iff (hle : top.distance ≤ memberDistance idx req id) :
    FoundNearest idx req (insert id arrived) s ↔
      (collapseClass idx id ∈ s.live.image (collapseClass idx) ∨
        ∀ item ∈ s.heap, item.id ∉ s.removed) := by
  obtain ⟨-, htopLive, hdistance, hfarthest⟩ := h.top_spec htop
  have hlast : ∀ found ∈ s.live, memberDistance idx req found ≤ memberDistance idx req id :=
    fun found hmem => (hfarthest found hmem).trans (hdistance ▸ hle)
  constructor
  · intro hafter
    by_contra hnot
    rw [not_or, ← h.card_live_eq_iff] at hnot
    have hsize := h.size
    have hcardLe := h.card_live_le
    have hroom : s.live.card < req.k := by omega
    have hclass := FoundNearest.new_class hfound hroom hnot.1
    have := Chosen.card_insert_new hfound hafter hroom hclass
    omega
  · rintro (hclass | hnone)
    · obtain ⟨found, hmem, heq⟩ := Finset.mem_image.mp hclass
      exact Chosen.insert_behind hfound hmem heq (hlast found hmem)
    · have hsize := h.size
      have hcard := h.card_live_eq_iff.mpr hnone
      exact Chosen.insert_last hfound (by omega) hlast

/-- A member that is nearer than the farthest result is inserted when that has been popped. -/
theorem foundNearest_nearer_iff (hlt : memberDistance idx req id < top.distance) :
    FoundNearest idx req (insert id arrived)
        (insertResultWithCollapse idx.config.collapseKeysFunc s.peek.1.pop
          { id := id, distance := memberDistance idx req id } (collapseMetadata idx id)) ↔
      (collapseClass idx top.id = collapseClass idx id ∨
        collapseClass idx id ∉ s.live.image (collapseClass idx) ∧
          ∀ item ∈ s.heap, item.id ∉ s.removed) := by
  obtain ⟨hhead, htopLive, hdistance, hfarthest⟩ := h.top_spec htop
  obtain ⟨hclean, hlive, -, hkeys, hlength, -, -⟩ := h.peek
  obtain ⟨hsound, hpopped, hshorter, -, hkeys', -, -⟩ := hclean.pop hhead
  have hpoppedLive : s.peek.1.pop.live = s.live.erase top.id := hpopped.trans (by rw [hlive])
  have hkeysEq : s.peek.1.pop.collapseKeyToItem = s.collapseKeyToItem := hkeys'.trans hkeys
  have hroom : s.peek.1.pop.heap.length < req.k := by
    have hsize := h.size
    omega
  have hlt' : memberDistance idx req id < memberDistance idx req top.id := hdistance ▸ hlt
  have hcardErase : (s.live.erase top.id).card + 1 = s.live.card :=
    Finset.card_erase_add_one htopLive
  have hout : id ∉ s.live := fun hmem => hnew (h.live_subset hmem)
  obtain ⟨-, hcases⟩ := hsound.insert_cases hroom hnew
  rw [hpoppedLive, hkeysEq] at hcases
  unfold FoundNearest
  constructor
  · intro hafter
    by_contra hnot
    rw [not_or] at hnot
    obtain ⟨htopClass, hnot⟩ := hnot
    by_cases hclass : collapseClass idx id ∈ s.live.image (collapseClass idx)
    · -- The result of the class and the popped one are two.
      obtain ⟨found, hmem, heq⟩ := Finset.mem_image.mp hclass
      obtain ⟨key, item, hkeyed, hitem, rfl, -⟩ := h.item_of_class hnew hmem heq
      have hne : item.id ≠ top.id := fun hsame => htopClass (hsame ▸ heq)
      have harrived : collapseClass idx id ∈ arrived.image (collapseClass idx) :=
        Finset.image_subset_image h.live_subset hclass
      have hcard := Chosen.card_insert hfound hafter (.inl harrived)
      rcases hcases with ⟨hnone, -⟩ | ⟨key', existing, hcls, hexisting, hcases⟩
      · rw [hnone key hkeyed] at hitem
        cases hitem
      · obtain rfl := Sum.inl.inj (hkeyed.symm.trans hcls)
        obtain rfl := Option.some.inj (hitem.symm.trans hexisting)
        rcases hcases with ⟨-, hafterLive⟩ | ⟨-, hafterLive⟩
        · have hmem' : item.id ∈ s.live.erase top.id := Finset.mem_erase.mpr ⟨hne, hmem⟩
          have hcardTwo := Finset.card_erase_add_one hmem'
          have hle := Finset.card_insert_le id ((s.live.erase top.id).erase item.id)
          rw [hafterLive] at hcard
          omega
        · rw [hafterLive] at hcard
          omega
    · have hremoved : ¬ ∀ item ∈ s.heap, item.id ∉ s.removed := fun hnone => hnot ⟨hclass, hnone⟩
      rw [← h.card_live_eq_iff] at hremoved
      have hsize := h.size
      have hcardLe := h.card_live_le
      have hroomLive : s.live.card < req.k := by omega
      have hnewClass := FoundNearest.new_class hfound hroomLive hclass
      have hcard := Chosen.card_insert_new hfound hafter hroomLive hnewClass
      rcases hcases with ⟨-, hafterLive⟩ | ⟨key, existing, hcls, hexisting, -⟩
      · have hle := Finset.card_insert_le id (s.live.erase top.id)
        rw [hafterLive] at hcard
        omega
      · obtain ⟨harrived, hexistingClass, -⟩ := h.keys key existing hexisting
        exact hnewClass
          (Finset.mem_image.mpr ⟨existing.id, harrived, hexistingClass.trans hcls.symm⟩)
  · rintro (htopClass | ⟨hclass, hnone⟩)
    · obtain ⟨key, item, hkeyed, hitem, hid, -⟩ := h.item_of_class hnew htopLive htopClass
      rcases hcases with ⟨hnone, -⟩ | ⟨key', existing, hcls, hexisting, hcases⟩
      · rw [hnone key hkeyed] at hitem
        cases hitem
      · obtain rfl := Sum.inl.inj (hkeyed.symm.trans hcls)
        obtain rfl := Option.some.inj (hitem.symm.trans hexisting)
        rcases hcases with ⟨-, hafterLive⟩ | ⟨hle, -⟩
        · rw [hafterLive, hid, Finset.erase_idem]
          exact Chosen.exchange hfound hnew htopLive hlt' (.inl htopClass)
        · rw [(h.keys key item hitem).2.2, hid] at hle
          exact absurd hlt' (not_lt.mpr hle)
    · have hsize := h.size
      have hcard := h.card_live_eq_iff.mpr hnone
      have hexchange : Chosen (collapseClass idx) (memberDistance idx req) req.k
          (insert id arrived) (insert id (s.live.erase top.id)) :=
        Chosen.exchange hfound hnew htopLive hlt'
          (.inr ⟨by omega, hclass, hfarthest⟩)
      rcases hcases with ⟨-, hafterLive⟩ | ⟨key, existing, hcls, hexisting, hcases⟩
      · rw [hafterLive]
        exact hexchange
      · obtain ⟨harrived, hexistingClass, hexistingDistance⟩ := h.keys key existing hexisting
        have hsame := hexistingClass.trans hcls.symm
        have hexistingOut : existing.id ∉ s.live := fun hmem =>
          hclass (hsame ▸ Finset.mem_image_of_mem _ hmem)
        rcases hcases with ⟨-, hafterLive⟩ | ⟨hle, -⟩
        · rw [hafterLive, Finset.erase_eq_of_notMem fun hmem =>
            hexistingOut (Finset.mem_of_mem_erase hmem)]
          exact hexchange
        · -- The members of classes without a result are not nearer than the farthest one.
          have hfirst := hfound.first existing.id harrived (hsame ▸ hclass) top.id htopLive
          rw [hexistingDistance] at hle
          exact absurd hlt' (not_lt.mpr (hfirst.trans hle))

end Full

theorem searchMember_iff (h : SoundResults idx req arrived s)
    (hfound : FoundNearest idx req arrived s) (hnew : id ∉ arrived) {dist : ℚ}
    (hpasses : passingDistance idx req id = some dist) :
    FoundNearest idx req (insert id arrived) (searchMember idx req s id) ↔ Fits idx req s id := by
  have hdist : dist = memberDistance idx req id := by
    unfold memberDistance
    rw [hpasses]
    rfl
  subst hdist
  unfold searchMember Fits
  rw [hpasses]
  dsimp only
  by_cases hroom : s.heap.length < req.k
  · rw [if_pos hroom]
    exact iff_of_true (FoundNearest.insert_room hfound h hroom hnew) fun hfull =>
      absurd hroom (not_lt.mpr hfull)
  · have hfull := not_lt.mp hroom
    rw [if_neg hroom]
    obtain ⟨-, hlive, -, -, -, -, -⟩ := h.peek
    cases htop : s.peek.2 with
    | none =>
      have hpeek : s.peek = (s.peek.1, none) := Prod.ext rfl htop
      rw [hpeek]
      refine iff_of_true ?_ fun _ top hsome => by cases hsome
      -- A heap of removed items only means that nothing is asked for.
      have hnil : s.peek.1.heap = [] := head?_eq_none_iff.mp htop
      have hempty : s.live = ∅ := by
        rw [← hlive]
        unfold SearchResults.live
        rw [hnil]
        rfl
      have hcard := hfound.card
      rw [hempty, Finset.card_empty] at hcard
      have hzero : req.k = 0 := by
        by_contra hpos
        have hne : s.heap ≠ [] := by
          intro hnil
          rw [hnil, length_nil] at hfull
          omega
        obtain ⟨item, hitem⟩ := exists_mem_of_ne_nil _ hne
        have himage := Finset.card_pos.mpr
          ⟨_, Finset.mem_image_of_mem (collapseClass idx) (h.items item hitem).1⟩
        omega
      unfold FoundNearest
      rw [hlive, hempty]
      refine Chosen.insert_last (hempty ▸ hfound) ?_ fun a ha => absurd ha (Finset.notMem_empty a)
      rw [Finset.card_empty, hzero]
    | some top =>
      have hpeek : s.peek = (s.peek.1, some top) := Prod.ext rfl htop
      rw [hpeek]
      dsimp only
      by_cases hlt : memberDistance idx req id < top.distance
      · rw [if_pos hlt, foundNearest_nearer_iff h hfound hnew hfull htop hlt]
        constructor
        · rintro hcond - top' heq
          obtain rfl := Option.some.inj heq
          exact ⟨fun _ => hcond, fun hle => absurd hlt (not_lt.mpr hle)⟩
        · exact fun hcond => (hcond hfull top rfl).1 hlt
      · have hle := not_lt.mp hlt
        have hsame : FoundNearest idx req (insert id arrived) s.peek.1 ↔
            FoundNearest idx req (insert id arrived) s := by
          unfold FoundNearest
          rw [hlive]
        rw [if_neg hlt, hsame, foundNearest_behind_iff h hfound hfull htop hle]
        constructor
        · rintro hcond - top' heq
          obtain rfl := Option.some.inj heq
          exact ⟨fun hlt' => absurd hlt' hlt, fun _ => hcond⟩
        · exact fun hcond => (hcond hfull top rfl).2 hle

theorem SoundResults.searchMember (h : SoundResults idx req arrived s) (hnew : id ∉ arrived)
    {dist : ℚ} (hpasses : passingDistance idx req id = some dist) :
    SoundResults idx req (insert id arrived) (Vector.searchMember idx req s id) := by
  have hdist : dist = memberDistance idx req id := by
    unfold memberDistance
    rw [hpasses]
    rfl
  subst hdist
  unfold Vector.searchMember
  rw [hpasses]
  dsimp only
  by_cases hroom : s.heap.length < req.k
  · rw [if_pos hroom]
    exact (h.insert_cases hroom hnew).1
  · rw [if_neg hroom]
    obtain ⟨hclean, -, -, -, hlength, -, -⟩ := h.peek
    cases htop : s.peek.2 with
    | none =>
      have hpeek : s.peek = (s.peek.1, none) := Prod.ext rfl htop
      rw [hpeek]
      exact hclean.mono id
    | some top =>
      have hpeek : s.peek = (s.peek.1, some top) := Prod.ext rfl htop
      rw [hpeek]
      dsimp only
      split
      · obtain ⟨hsound, -, hshorter, -, -, -, -⟩ := hclean.pop htop
        have hsize := h.size
        exact (hsound.insert_cases (by omega) hnew).1
      · exact hclean.mono id

end Step

end Antfly.Vector
