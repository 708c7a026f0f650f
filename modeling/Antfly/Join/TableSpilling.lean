import Antfly.Join.Memory

/-!
A table forgets at every spill what it has written: the flag that would make a lookup read the file
is reset by the insert that spilled.  So lookups stay exact if and only if no insert comes under
pressure once the table holds rows.  No insert asks for memory, but a spill releases it.
-/

namespace Antfly.Join

open List

section Rows

variable {data : List (HashKey × List Row)} {key key' : HashKey} {row : Row}

@[simp]
theorem lookupRows_nil (key : HashKey) : lookupRows [] key = [] := rfl

theorem lookupRows_cons (entry : HashKey × List Row) (data : List (HashKey × List Row))
    (key : HashKey) :
    lookupRows (entry :: data) key = if entry.1 = key then entry.2 else lookupRows data key := by
  unfold lookupRows
  by_cases h : entry.1 = key
  · rw [find?_cons_of_pos (by simpa using h), if_pos h]
    rfl
  · rw [find?_cons_of_neg (by simpa using h), if_neg h]

theorem lookupRows_appendRow (data : List (HashKey × List Row)) (key key' : HashKey) (row : Row) :
    lookupRows (appendRow data key row) key' =
      lookupRows data key' ++ if key = key' then [row] else [] := by
  induction data with
  | nil =>
    rw [appendRow, lookupRows_cons, lookupRows_nil]
    rfl
  | cons entry data ih =>
    rw [appendRow]
    by_cases h : entry.1 = key
    · rw [if_pos h, lookupRows_cons, lookupRows_cons]
      subst h
      by_cases hkey : entry.1 = key'
      · rw [if_pos hkey, if_pos hkey, if_pos hkey]
      · rw [if_neg hkey, if_neg hkey, if_neg hkey, append_nil]
    · rw [if_neg h, lookupRows_cons, lookupRows_cons, ih]
      by_cases hkey : entry.1 = key'
      · have hne : key ≠ key' := fun heq => h (hkey.trans heq.symm)
        rw [if_pos hkey, if_pos hkey, if_neg hne, append_nil]
      · rw [if_neg hkey, if_neg hkey]

theorem length_allRows_appendRow (data : List (HashKey × List Row)) (key : HashKey) (row : Row) :
    (allRows (appendRow data key row)).length = (allRows data).length + 1 := by
  induction data with
  | nil => rfl
  | cons entry data ih =>
    unfold allRows at ih ⊢
    rw [appendRow]
    split
    · simp only [flatMap_cons, length_append, length_singleton]
      omega
    · simp only [flatMap_cons, length_append, ih]
      omega

theorem lookupRows_eq_nil (h : allRows data = []) (key : HashKey) : lookupRows data key = [] := by
  induction data with
  | nil => rfl
  | cons entry data ih =>
    unfold allRows at h
    rw [flatMap_cons, append_eq_nil_iff] at h
    rw [lookupRows_cons, h.1, ih h.2, ite_self]

end Rows

/-- A call of the table, or one that others make to the memory manager. -/
inductive TableOp where
  | insert (key : HashKey) (row : Row)
  | lookup (key : HashKey)
  | allocate (bytes : ℤ)
  | release (bytes : ℤ)

/-- A table and its manager, the rows that inserts have taken, and what others use. -/
structure TableRun where
  table : SpillableHashTable
  manager : MemoryManager
  inserted : List (HashKey × Row)
  others : ℤ

def TableRun.start (partitionID : Bytes) (m : MemoryManager) : TableRun where
  table := newSpillableHashTable partitionID
  manager := m
  inserted := []
  others := m.currentUsage

section Run

variable (reread : Row → Option Row)

def TableRun.step (r : TableRun) : TableOp → TableRun
  | .insert key row =>
    match r.table.insert reread r.manager key row with
    | (none, table, manager) =>
      { r with table := table, manager := manager, inserted := r.inserted ++ [(key, row)] }
    | (some _, table, manager) => { r with table := table, manager := manager }
  | .lookup key =>
    { r with
      table := (r.table.lookup r.manager key).2.1
      manager := (r.table.lookup r.manager key).2.2 }
  | .allocate bytes =>
    match r.manager.allocate bytes with
    | some manager => { r with manager := manager, others := r.others + bytes }
    | none => r
  | .release bytes =>
    { r with manager := r.manager.release bytes, others := r.others - bytes }

def TableRun.run (ops : List TableOp) (r : TableRun) : TableRun := ops.foldl (step reread) r

def TableRun.insertedUnder (r : TableRun) (key : HashKey) : List Row :=
  (r.inserted.filter fun entry => entry.1 = key).map Prod.snd

/-- Every lookup gives the rows inserted under its key. -/
def TableRun.LookupsExact (r : TableRun) : Prop :=
  ∀ key, (r.table.lookup r.manager key).1 = .ok (r.insertedUnder key)

/-- An insert under pressure finds no rows in the table, or one that cannot be written. -/
def TableRun.InsertKeeps (r : TableRun) : Prop :=
  r.manager.shouldSpill = true →
    allRows r.table.data = [] ∨ (encodeRows reread (allRows r.table.data)).2 = false

/-- The usage is what others use and the rows of the table, and not negative unless theirs is. -/
def TableRun.Accounted (r : TableRun) : Prop :=
  r.manager.currentUsage = r.others + estimatedSize (allRows r.table.data) ∧
    (0 ≤ r.others → 0 ≤ r.manager.currentUsage)

end Run

section Step

variable {reread : Row → Option Row} {r : TableRun}

/-- Between calls no table is marked as spilled, and it holds no more rows than were inserted. -/
structure TableRun.Sound (r : TableRun) : Prop where
  spilled : r.table.spilled = false
  rows : (allRows r.table.data).length ≤ r.inserted.length

theorem TableRun.Sound.lookupsExact_iff (h : r.Sound) :
    r.LookupsExact ↔ ∀ key, lookupRows r.table.data key = r.insertedUnder key := by
  refine forall_congr' fun key => ?_
  unfold SpillableHashTable.lookup
  rw [h.spilled, if_neg Bool.false_ne_true]
  exact ⟨fun heq => Except.ok.inj heq, fun heq => congrArg Except.ok heq⟩

variable (reread) in
/-- An insert without pressure keeps the rows, one under pressure spills them all, or fails. -/
theorem TableRun.Sound.insert_cases (h : r.Sound) (key : HashKey) (row : Row) :
    let r' := r.step reread (.insert key row)
    (r.manager.shouldSpill = false ∧ r'.table.data = appendRow r.table.data key row ∧
        r'.table.spilled = false ∧ r'.inserted = r.inserted ++ [(key, row)] ∧
        r'.manager.currentUsage = r.manager.currentUsage) ∨
      (r.manager.shouldSpill = true ∧ (encodeRows reread (allRows r.table.data)).2 = true ∧
        r'.table.data = [(key, [row])] ∧ r'.table.spilled = false ∧
        r'.inserted = r.inserted ++ [(key, row)] ∧
        r'.manager.currentUsage =
          r.manager.currentUsage - estimatedSize (allRows r.table.data)) ∨
      (r.manager.shouldSpill = true ∧ (encodeRows reread (allRows r.table.data)).2 = false ∧
        r'.table = r.table ∧ r'.inserted = r.inserted ∧
        r'.manager.currentUsage = r.manager.currentUsage) := by
  cases hspill : r.manager.shouldSpill with
  | false =>
    refine .inl ?_
    unfold TableRun.step SpillableHashTable.insert
    simp [hspill]
  | true =>
    refine .inr ?_
    cases hencode : (encodeRows reread (allRows r.table.data)).2 with
    | true =>
      refine .inl ?_
      unfold TableRun.step SpillableHashTable.insert SpillableHashTable.spillToDisk
        MemoryManager.spillRows
      simp [hspill, h.spilled, hencode, appendRow, MemoryManager.release]
    | false =>
      refine .inr ?_
      unfold TableRun.step SpillableHashTable.insert SpillableHashTable.spillToDisk
        MemoryManager.spillRows
      simp [hspill, h.spilled, hencode]

theorem TableRun.step_insert_others (r : TableRun) (key : HashKey) (row : Row) :
    (r.step reread (.insert key row)).others = r.others := by
  unfold TableRun.step
  dsimp only
  split <;> rfl

variable (reread) in
theorem TableRun.Sound.other_cases (h : r.Sound) {op : TableOp}
    (hop : ∀ key row, op ≠ .insert key row) :
    let r' := r.step reread op
    r'.table = r.table ∧ r'.inserted = r.inserted ∧
      r'.manager.currentUsage - r'.others = r.manager.currentUsage - r.others := by
  cases op with
  | insert key row => exact absurd rfl (hop key row)
  | lookup key =>
    unfold TableRun.step SpillableHashTable.lookup
    rw [h.spilled]
    exact ⟨rfl, rfl, rfl⟩
  | allocate bytes =>
    unfold TableRun.step MemoryManager.allocate
    dsimp only
    split
    · next manager hmanager =>
        split at hmanager
        · cases hmanager
        · obtain rfl := Option.some.inj hmanager
          refine ⟨rfl, rfl, ?_⟩
          dsimp only
          omega
    · exact ⟨rfl, rfl, rfl⟩
  | release bytes =>
    unfold TableRun.step MemoryManager.release
    refine ⟨rfl, rfl, ?_⟩
    dsimp only
    omega

theorem TableRun.sound_start (partitionID : Bytes) (m : MemoryManager) :
    (start partitionID m).Sound := ⟨rfl, Nat.le_refl 0⟩

variable (reread) in
theorem TableRun.Sound.step (h : r.Sound) (op : TableOp) : (r.step reread op).Sound := by
  by_cases hop : ∃ key row, op = .insert key row
  · obtain ⟨key, row, rfl⟩ := hop
    rcases insert_cases reread h key row with ⟨-, hdata, hspilled, hinserted, -⟩ |
      ⟨-, -, hdata, hspilled, hinserted, -⟩ | ⟨-, -, htable, hinserted, -⟩
    · refine ⟨hspilled, ?_⟩
      rw [hdata, hinserted, length_allRows_appendRow, length_append]
      exact Nat.succ_le_succ h.rows
    · refine ⟨hspilled, ?_⟩
      rw [hdata, hinserted, length_append]
      exact Nat.le_add_left _ _
    · refine ⟨htable ▸ h.spilled, ?_⟩
      rw [htable, hinserted]
      exact h.rows
  · obtain ⟨htable, hinserted, -⟩ :=
      other_cases reread h fun key row heq => hop ⟨key, row, heq⟩
    refine ⟨htable ▸ h.spilled, ?_⟩
    rw [htable, hinserted]
    exact h.rows

theorem TableRun.insertedUnder_append {r' : TableRun} {key : HashKey} {row : Row}
    (h : r'.inserted = r.inserted ++ [(key, row)]) (key' : HashKey) :
    r'.insertedUnder key' = r.insertedUnder key' ++ if key = key' then [row] else [] := by
  unfold insertedUnder
  rw [h, filter_append, map_append]
  congr 1
  by_cases hkey : key = key'
  · rw [if_pos hkey, filter_cons_of_pos (by simpa using hkey)]
    rfl
  · rw [if_neg hkey, filter_cons_of_neg (by simpa using hkey)]
    rfl

theorem TableRun.Sound.lookupsExact_insert_iff (h : r.Sound) (hexact : r.LookupsExact)
    (key : HashKey) (row : Row) :
    (r.step reread (.insert key row)).LookupsExact ↔ r.InsertKeeps reread := by
  have h' := step reread h (.insert key row)
  rw [h.lookupsExact_iff] at hexact
  rw [h'.lookupsExact_iff]
  rcases insert_cases reread h key row with ⟨hspill, hdata, -, hinserted, -⟩ |
    ⟨hspill, hencode, hdata, -, hinserted, -⟩ | ⟨hspill, hencode, htable, hinserted, -⟩
  · refine iff_of_true (fun key' => ?_) fun hpressure => ?_
    · rw [hdata, lookupRows_appendRow, insertedUnder_append hinserted, hexact]
    · rw [hspill] at hpressure
      cases hpressure
  · unfold InsertKeeps
    rw [hspill, hencode]
    constructor
    · intro hkeys _
      refine .inl ?_
      by_contra hrows
      have hpos := length_pos_of_ne_nil hrows
      have hle := h.rows
      -- Some row was inserted before, and the table holds the new one only.
      obtain ⟨⟨key₀, row₀⟩, hmem⟩ := exists_mem_of_length_pos (l := r.inserted) (by omega)
      have hold : row₀ ∈ r.insertedUnder key₀ :=
        mem_map.mpr ⟨_, mem_filter.mpr ⟨hmem, by simp⟩, rfl⟩
      have hlength := congrArg List.length (hkeys key₀)
      rw [hdata, insertedUnder_append hinserted, lookupRows_cons, lookupRows_nil,
        length_append] at hlength
      have hlt := length_pos_of_mem hold
      by_cases hkey : key = key₀
      · simp only [hkey, if_true, length_singleton] at hlength
        omega
      · simp only [hkey, if_false, length_nil] at hlength
        omega
    · intro hempty key'
      have hnil := (hempty rfl).resolve_right Bool.noConfusion
      rw [hdata, insertedUnder_append hinserted, ← hexact key', lookupRows_eq_nil hnil,
        lookupRows_cons, lookupRows_nil]
      rfl
  · refine iff_of_true (fun key' => ?_) fun _ => .inr hencode
    have hsame : (r.step reread (.insert key row)).insertedUnder key' = r.insertedUnder key' := by
      unfold insertedUnder
      rw [hinserted]
    rw [htable, hsame]
    exact hexact key'

theorem TableRun.Sound.lookupsExact_other (h : r.Sound) (hexact : r.LookupsExact) {op : TableOp}
    (hop : ∀ key row, op ≠ .insert key row) : (r.step reread op).LookupsExact := by
  obtain ⟨htable, hinserted, -⟩ := other_cases reread h hop
  rw [(step reread h op).lookupsExact_iff]
  rw [h.lookupsExact_iff] at hexact
  intro key
  have hsame : (r.step reread op).insertedUnder key = r.insertedUnder key := by
    unfold insertedUnder
    rw [hinserted]
  rw [htable, hsame]
  exact hexact key

end Step

section Runs

variable {reread : Row → Option Row} {r : TableRun}

theorem TableRun.run_append_singleton (ops : List TableOp) (op : TableOp) (r : TableRun) :
    r.run reread (ops ++ [op]) = (r.run reread ops).step reread op := by
  unfold run
  rw [foldl_append]
  rfl

variable (reread) in
theorem TableRun.Sound.run (h : r.Sound) (ops : List TableOp) : (r.run reread ops).Sound := by
  induction ops using List.reverseRecOn with
  | nil => exact h
  | append_singleton ops op ih =>
    rw [run_append_singleton]
    exact Sound.step reread ih op

theorem TableRun.lookupsExact_start (partitionID : Bytes) (m : MemoryManager) :
    (start partitionID m).LookupsExact := fun _ => rfl

theorem TableRun.lookupsExact_run_iff (partitionID : Bytes) (m : MemoryManager)
    (ops : List TableOp) :
    (∀ first, first <+: ops → ((start partitionID m).run reread first).LookupsExact) ↔
      ∀ first key row, first ++ [.insert key row] <+: ops →
        ((start partitionID m).run reread first).InsertKeeps reread := by
  have hsound := fun first => Sound.run reread (sound_start partitionID m) first
  constructor
  · intro h first key row hfirst
    have hbefore := h first ((prefix_append first _).trans hfirst)
    have hafter := h _ hfirst
    rw [run_append_singleton] at hafter
    exact ((hsound first).lookupsExact_insert_iff hbefore key row).mp hafter
  · intro h first
    induction first using List.reverseRecOn with
    | nil => exact fun _ => lookupsExact_start partitionID m
    | append_singleton first op ih =>
      intro hfirst
      have hbefore := ih ((prefix_append first [op]).trans hfirst)
      rw [run_append_singleton]
      by_cases hop : ∃ key row, op = .insert key row
      · obtain ⟨key, row, rfl⟩ := hop
        exact ((hsound first).lookupsExact_insert_iff hbefore key row).mpr
          (h first key row hfirst)
      · exact (hsound first).lookupsExact_other hbefore fun key row heq => hop ⟨key, row, heq⟩

/-- No insert leaves the usage at the rows that the table holds, unless it fails on rows that were
there. -/
theorem TableRun.Sound.not_accounted_insert (h : r.Sound) (haccounted : r.Accounted)
    (hnone : r.inserted = []) (key : HashKey) (row : Row) :
    ¬ (r.step reread (.insert key row)).Accounted := by
  rintro ⟨husage', -⟩
  have husage := haccounted.1
  rw [step_insert_others] at husage'
  unfold estimatedSize at husage husage'
  rcases insert_cases reread h key row with ⟨-, hdata, -, -, hsame⟩ |
    ⟨-, -, hdata, -, -, hreleased⟩ | ⟨-, hencode, -, -, -⟩
  · rw [hsame, hdata, length_allRows_appendRow] at husage'
    push_cast at husage'
    omega
  · have hone : (allRows [(key, [row])]).length = 1 := rfl
    rw [hreleased, hdata, hone] at husage'
    unfold estimatedSize at husage'
    push_cast at husage'
    omega
  · have hrows := h.rows
    rw [hnone, length_nil, Nat.le_zero, length_eq_zero_iff] at hrows
    rw [hrows] at hencode
    cases hencode

/-- The usage is right in every state of a run if and only if nothing is ever inserted. -/
theorem TableRun.accounted_run_iff (partitionID : Bytes) (m : MemoryManager)
    (ops : List TableOp) :
    (∀ first, first <+: ops → ((start partitionID m).run reread first).Accounted) ↔
      ∀ key row, .insert key row ∉ ops := by
  have hsound := fun first => Sound.run reread (sound_start partitionID m) first
  -- As long as nothing is inserted, others have all the usage.
  have hnone : ∀ first, (∀ key row, .insert key row ∉ first) →
      ((start partitionID m).run reread first).inserted = [] ∧
        ((start partitionID m).run reread first).manager.currentUsage =
          ((start partitionID m).run reread first).others := by
    intro first
    induction first using List.reverseRecOn with
    | nil => exact fun _ => ⟨rfl, rfl⟩
    | append_singleton first op ih =>
      intro hfree
      obtain ⟨hinserted, husage⟩ :=
        ih fun key row hmem => hfree key row (mem_append_left _ hmem)
      rw [run_append_singleton]
      have hop : ∀ key row, op ≠ .insert key row := fun key row heq =>
        hfree key row (heq ▸ mem_append_right _ (mem_singleton_self op))
      obtain ⟨-, hinserted', husage'⟩ := Sound.other_cases reread (hsound first) hop
      exact ⟨hinserted'.trans hinserted, by omega⟩
  constructor
  · intro h
    have hfree : ∀ first, first <+: ops → ∀ key row, .insert key row ∉ first := by
      intro first
      induction first using List.reverseRecOn with
      | nil => exact fun _ _ _ => not_mem_nil
      | append_singleton first op ih =>
        intro hfirst key row hmem
        have hbefore := (prefix_append first [op]).trans hfirst
        have hfree := ih hbefore
        rcases mem_append.mp hmem with hmem | hmem
        · exact hfree key row hmem
        · obtain rfl := mem_singleton.mp hmem
          have hafter := h _ hfirst
          rw [run_append_singleton] at hafter
          exact (hsound first).not_accounted_insert (h first hbefore) (hnone first hfree).1 key
            row hafter
    exact hfree ops (prefix_refl ops)
  · intro hfree first hfirst
    obtain ⟨hinserted, husage⟩ := hnone first fun key row hmem => hfree key row (hfirst.subset hmem)
    have hrows := (hsound first).rows
    rw [hinserted, length_nil, Nat.le_zero, length_eq_zero_iff] at hrows
    refine ⟨?_, fun hpos => husage ▸ hpos⟩
    rw [hrows, husage]
    exact (Int.add_zero _).symm

end Runs

end Antfly.Join
