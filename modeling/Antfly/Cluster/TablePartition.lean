import Antfly.Cluster.TableManager

/-!
A table made by `createShardConfig` divides the keys below the byte `0xFF` without overlaps as long
as it has fewer than 256 shards; with more, the last boundaries are keys that start with `0xFF`
themselves, above the end of the last shard.  Splits at an inner key and all merges keep the
partition, with one exception: a split into a shard id of the table replaces that shard.  Since no
shard of such a partition has an empty end, the comparison of raw ends finds adjacent shards only.
-/

namespace Antfly

open List OrdMap Fallible

/-- No range of the table is empty or inverted, no key lies in two of them, and together they hold
the keys below `0xFF`. -/
structure TableDef.PartitionsKeys (t : TableDef) : Prop where
  nonempty : ∀ id conf, t.shards.get? id = some conf →
    conf.byteRange.stop = [] ∨ conf.byteRange.start < conf.byteRange.stop
  disjoint : ∀ id id' conf conf' k, t.shards.get? id = some conf →
    t.shards.get? id' = some conf' → conf.byteRange.contains k = true →
    conf'.byteRange.contains k = true → id = id'
  union : ∀ k, (∃ id conf, t.shards.get? id = some conf ∧ conf.byteRange.contains k = true) ↔
    k < [0xFF]

/-- One range ends, with a bound, where the other one starts. -/
def ReallyAdjacent (r s : Range) : Prop :=
  (r.stop ≠ [] ∧ r.stop = s.start) ∨ (s.stop ≠ [] ∧ s.stop = r.start)

/-- The shards of the table partition its keys, and a merge of two of them is accepted only when
they are adjacent. -/
structure TableSound (name : Bytes) (tm : TableManager) : Prop where
  partitions : ∃ table, tm.tables.get? name = some table ∧ table.PartitionsKeys
  merges : ∀ t tm', t.tableName = name →
    tm.apply (.merge t) = .ok tm' ∨ tm.apply (.finalizeMerge t) = .ok tm' →
    ∃ table conf conf', tm.tables.get? name = some table ∧
      table.shards.get? t.shardID = some conf ∧ table.shards.get? t.mergeShardID = some conf' ∧
      ReallyAdjacent conf.byteRange conf'.byteRange

/-- A split of the table has its key strictly inside the range of the parent. -/
def SplitInside (name : Bytes) (tm : TableManager) (op : TableOp) : Prop :=
  ∀ t table conf, op = .split t → t.tableName = name → tm.tables.get? name = some table →
    table.shards.get? t.shardID = some conf → conf.byteRange.start < t.splitKey ∧
      (conf.byteRange.stop = [] ∨ t.splitKey < conf.byteRange.stop)

/-- An accepted split of the table makes a shard with an id the table does not have. -/
def SplitFresh (name : Bytes) (tm : TableManager) (op : TableOp) : Prop :=
  ∀ t table tm', op = .split t → t.tableName = name → tm.tables.get? name = some table →
    tm.apply op = .ok tm' → table.shards.get? t.splitShardID = none

/-- The ends of a shard's range. -/
def TableDef.interval (t : TableDef) (id : ℕ) : Option (Bytes × Bytes) :=
  (t.shards.get? id).map fun conf => (conf.byteRange.start, conf.byteRange.stop)

private theorem contains_iff_mem_Ico {r : Range} (hr : r.stop ≠ []) {k : Bytes} :
    r.contains k = true ↔ k ∈ Set.Ico r.start r.stop := by
  rw [Range.contains_iff, Set.mem_Ico]
  simp [hr]

variable {t : TableDef} {id : ℕ}

private theorem interval_eq_some {p : Bytes × Bytes} :
    t.interval id = some p ↔
      ∃ conf, t.shards.get? id = some conf ∧ p = (conf.byteRange.start, conf.byteRange.stop) := by
  simp [TableDef.interval, eq_comm]

theorem TableDef.PartitionsKeys.stop_ne_nil (h : t.PartitionsKeys) {conf : ShardConfig}
    (hconf : t.shards.get? id = some conf) :
    conf.byteRange.stop ≠ [] := by
  intro hstop
  have hin : conf.byteRange.contains (max conf.byteRange.start [0xFF]) = true :=
    Range.contains_iff.mpr ⟨le_max_left _ _, .inl hstop⟩
  have hlt := (h.union _).mp ⟨id, conf, hconf, hin⟩
  exact absurd (le_max_right conf.byteRange.start [0xFF]) (not_le.mpr hlt)

theorem partitionsKeys_iff (t : TableDef) :
    t.PartitionsKeys ↔ IntervalPartition t.interval (Set.Ico [] [0xFF]) := by
  constructor
  · intro h
    refine ⟨fun i p hp => ?_, fun i j p q x hp hq hx hy => ?_, fun x => ⟨?_, fun hx => ?_⟩⟩
    · obtain ⟨conf, hconf, rfl⟩ := interval_eq_some.mp hp
      exact (h.nonempty i conf hconf).resolve_left (h.stop_ne_nil hconf)
    · obtain ⟨conf, hconf, rfl⟩ := interval_eq_some.mp hp
      obtain ⟨conf', hconf', rfl⟩ := interval_eq_some.mp hq
      exact h.disjoint i j conf conf' x hconf hconf'
        ((contains_iff_mem_Ico (h.stop_ne_nil hconf)).mpr hx)
        ((contains_iff_mem_Ico (h.stop_ne_nil hconf')).mpr hy)
    · rintro ⟨i, p, hp, hx⟩
      obtain ⟨conf, hconf, rfl⟩ := interval_eq_some.mp hp
      refine ⟨Lex.nil_le x, (h.union x).mp ⟨i, conf, hconf, ?_⟩⟩
      exact (contains_iff_mem_Ico (h.stop_ne_nil hconf)).mpr hx
    · obtain ⟨i, conf, hconf, hin⟩ := (h.union x).mpr hx.2
      exact ⟨i, _, interval_eq_some.mpr ⟨conf, hconf, rfl⟩,
        (contains_iff_mem_Ico (h.stop_ne_nil hconf)).mp hin⟩
  · intro h
    have hne : ∀ id conf, t.shards.get? id = some conf → conf.byteRange.stop ≠ [] := by
      intro id conf hconf hstop
      have hlt := h.nonempty id _ (interval_eq_some.mpr ⟨conf, hconf, rfl⟩)
      rw [hstop] at hlt
      exact not_lt_nil _ hlt
    refine ⟨fun id conf hconf => ?_, fun id id' conf conf' k hconf hconf' hk hk' => ?_,
      fun k => ⟨?_, fun hk => ?_⟩⟩
    · exact .inr (h.nonempty id _ (interval_eq_some.mpr ⟨conf, hconf, rfl⟩))
    · exact h.disjoint id id' _ _ k (interval_eq_some.mpr ⟨conf, hconf, rfl⟩)
        (interval_eq_some.mpr ⟨conf', hconf', rfl⟩)
        ((contains_iff_mem_Ico (hne id conf hconf)).mp hk)
        ((contains_iff_mem_Ico (hne id' conf' hconf')).mp hk')
    · rintro ⟨id, conf, hconf, hk⟩
      exact ((h.union k).mp ⟨id, _, interval_eq_some.mpr ⟨conf, hconf, rfl⟩,
        (contains_iff_mem_Ico (hne id conf hconf)).mp hk⟩).2
    · obtain ⟨id, p, hp, hx⟩ := (h.union k).mpr ⟨Lex.nil_le k, hk⟩
      obtain ⟨conf, hconf, rfl⟩ := interval_eq_some.mp hp
      exact ⟨id, conf, hconf, (contains_iff_mem_Ico (hne id conf hconf)).mpr hx⟩

/-- The shards after an accepted operation. -/
inductive ShardsStep (shards shards' : OrdMap ℕ ShardConfig) : TableOp → Prop where
  | split (t : SplitTransition) (conf parent child : ShardConfig) :
      t.shardID ≠ t.splitShardID → shards.get? t.shardID = some conf →
      parent.byteRange = ⟨conf.byteRange.start, t.splitKey⟩ →
      child.byteRange = ⟨t.splitKey, conf.byteRange.stop⟩ →
      (∀ x, shards'.get? x = if x = t.splitShardID then some child
        else if x = t.shardID then some parent else shards.get? x) →
      ShardsStep shards shards' (.split t)
  | merge (op : TableOp) (t : MergeTransition) (conf conf' merged : ShardConfig) :
      op = .merge t ∨ op = .finalizeMerge t →
      shards.get? t.shardID = some conf → shards.get? t.mergeShardID = some conf' →
      mergedRange conf.byteRange conf'.byteRange = .ok merged.byteRange →
      (∀ x, shards'.get? x = if x = t.mergeShardID then none
        else if x = t.shardID then some merged else shards.get? x) →
      ShardsStep shards shards' op
  | same (op : TableOp) : (∀ t, op ≠ .split t) → (∀ t, op ≠ .merge t) →
      (∀ t, op ≠ .finalizeMerge t) → shards' = shards → ShardsStep shards shards' op

section Steps

variable {tm tm' : TableManager}

theorem apply_cases {op : TableOp} (h : tm.apply op = .ok tm') :
    ∃ table shards', tm.tables.get? op.tableName = some table ∧
      tm'.tables = tm.tables.insert op.tableName ⟨shards'⟩ ∧
      ShardsStep table.shards shards' op := by
  cases TableManager.applied h with
  | split t hne htable hconf _ parent child hparent hchild =>
    refine ⟨_, _, htable, rfl, .split t _ parent child hne hconf (by rw [hparent])
      (by rw [hchild]) fun x => ?_⟩
    rw [get?_insert, get?_insert]
  | @merge _ t _ conf _ r _ _ hop _ htable hconf hconf' hr =>
    have hname : op.tableName = t.tableName := by rcases hop with rfl | rfl <;> rfl
    rw [hname]
    refine ⟨_, _, htable, rfl, .merge _ t _ _ (TableManager.mergedConfig conf r) hop hconf hconf'
      hr fun x => ?_⟩
    rw [get?_erase, get?_insert]
  | prepareMerge t htable =>
    exact ⟨_, _, htable, rfl, .same _ (by simp) (by simp) (by simp) rfl⟩
  | rollbackMerge t htable =>
    exact ⟨_, _, htable, rfl, .same _ (by simp) (by simp) (by simp) rfl⟩

end Steps

section Partition

variable {shards shards' : OrdMap ℕ ShardConfig} {op : TableOp}

theorem reallyAdjacent_of_mergedRange {r s merged : Range} (hr : r.stop ≠ []) (hs : s.stop ≠ [])
    (h : mergedRange r s = .ok merged) : ReallyAdjacent r s := by
  unfold mergedRange at h
  split at h
  · cases h
  · rename_i hends
    rw [not_and_or, not_not, not_not] at hends
    rcases hends with heq | heq
    · exact .inl ⟨hr, heq⟩
    · exact .inr ⟨hs, heq⟩

private theorem interval_of_get? {id : ℕ} {conf : ShardConfig}
    (h : shards.get? id = some conf) :
    (TableDef.mk shards).interval id = some (conf.byteRange.start, conf.byteRange.stop) := by
  simp [TableDef.interval, h]

private theorem partitions_of_merge {t : MergeTransition} {conf conf' merged : ShardConfig}
    (h : (TableDef.mk shards).PartitionsKeys) (hconf : shards.get? t.shardID = some conf)
    (hconf' : shards.get? t.mergeShardID = some conf')
    (hrange : mergedRange conf.byteRange conf'.byteRange = .ok merged.byteRange)
    (hget : ∀ x, shards'.get? x = if x = t.mergeShardID then none
      else if x = t.shardID then some merged else shards.get? x) :
    (TableDef.mk shards').PartitionsKeys := by
  have hstop := h.stop_ne_nil hconf
  have hstop' := h.stop_ne_nil hconf'
  have hlt := (h.nonempty _ conf hconf).resolve_left hstop
  have hlt' := (h.nonempty _ conf' hconf').resolve_left hstop'
  have hadj := reallyAdjacent_of_mergedRange hstop hstop' hrange
  have hne : t.shardID ≠ t.mergeShardID := by
    intro heq
    rw [heq, hconf'] at hconf
    cases hconf
    rcases hadj with ⟨-, heq⟩ | ⟨-, heq⟩
    · exact absurd heq hlt.ne'
    · exact absurd heq hlt.ne'
  rw [partitionsKeys_iff] at h ⊢
  have hi := interval_of_get? hconf
  have hj := interval_of_get? hconf'
  have hnew : ∀ x, (TableDef.mk shards').interval x = if x = t.mergeShardID then none
      else if x = t.shardID then some (merged.byteRange.start, merged.byteRange.stop)
      else (TableDef.mk shards).interval x := by
    intro x
    simp only [TableDef.interval, hget]
    split
    · rfl
    · split <;> rfl
  by_cases hleft : conf'.byteRange.stop = conf.byteRange.start
  · have hmerged : merged.byteRange = ⟨conf'.byteRange.start, conf.byteRange.stop⟩ := by
      unfold mergedRange at hrange
      rw [if_neg (fun hboth => hboth.2 hleft), if_pos hleft] at hrange
      exact (Except.ok.inj hrange).symm
    rw [hmerged] at hnew
    rw [hleft] at hj
    exact h.merge hne (.inr ⟨hi, hj⟩) hnew
  · have hright : conf.byteRange.stop = conf'.byteRange.start := by
      rcases hadj with ⟨-, heq⟩ | ⟨-, heq⟩
      · exact heq
      · exact absurd heq hleft
    have hmerged : merged.byteRange = ⟨conf.byteRange.start, conf'.byteRange.stop⟩ := by
      unfold mergedRange at hrange
      rw [if_neg (fun hboth => hboth.1 hright), if_neg hleft] at hrange
      exact (Except.ok.inj hrange).symm
    rw [hmerged] at hnew
    rw [hright] at hi
    exact h.merge hne (.inl ⟨hi, hj⟩) hnew

/-- A split at an inner key keeps the partition exactly when the new id is not in use. -/
private theorem partitions_of_split_iff {t : SplitTransition} {conf parent child : ShardConfig}
    (h : (TableDef.mk shards).PartitionsKeys) (hne : t.shardID ≠ t.splitShardID)
    (hconf : shards.get? t.shardID = some conf)
    (hparent : parent.byteRange = ⟨conf.byteRange.start, t.splitKey⟩)
    (hchild : child.byteRange = ⟨t.splitKey, conf.byteRange.stop⟩)
    (hget : ∀ x, shards'.get? x = if x = t.splitShardID then some child
      else if x = t.shardID then some parent else shards.get? x)
    (hlow : conf.byteRange.start < t.splitKey) (hhigh : t.splitKey < conf.byteRange.stop) :
    (TableDef.mk shards').PartitionsKeys ↔ shards.get? t.splitShardID = none := by
  rw [partitionsKeys_iff] at h ⊢
  have hi := interval_of_get? hconf
  have hnew : ∀ x, (TableDef.mk shards').interval x =
      if x = t.splitShardID then some (t.splitKey, conf.byteRange.stop)
      else if x = t.shardID then some (conf.byteRange.start, t.splitKey)
      else (TableDef.mk shards).interval x := by
    intro x
    simp only [TableDef.interval, hget]
    split
    · simp [hchild]
    · split
      · simp [hparent]
      · rfl
  cases hused : shards.get? t.splitShardID with
  | none =>
    have hj : (TableDef.mk shards).interval t.splitShardID = none := by
      simp [TableDef.interval, hused]
    exact ⟨fun _ => rfl, fun _ => h.split hne hi hj hlow hhigh hnew⟩
  | some conf' =>
    have hj := interval_of_get? hused
    exact ⟨fun h' => absurd h' (h.not_split_of_used hne hi hj hlow hhigh hnew),
      fun hnone => by cases hnone⟩

end Partition

section Runs

variable {name : Bytes} {tm : TableManager}

def HasPartition (name : Bytes) (tm : TableManager) : Prop :=
  ∃ table, tm.tables.get? name = some table ∧ table.PartitionsKeys

theorem tableSound_of_hasPartition (h : HasPartition name tm) : TableSound name tm := by
  refine ⟨h, fun t tm' hname haccept => ?_⟩
  obtain ⟨table, htable, hpart⟩ := h
  have hcases : ∃ op : TableOp, (op = .merge t ∨ op = .finalizeMerge t) ∧ op.tableName = name ∧
      tm.apply op = .ok tm' := by
    rcases haccept with haccept | haccept
    · exact ⟨_, .inl rfl, hname, haccept⟩
    · exact ⟨_, .inr rfl, hname, haccept⟩
  obtain ⟨op, hop, hopname, happly⟩ := hcases
  obtain ⟨table', shards', htable', -, hstep⟩ := apply_cases happly
  rw [hopname, htable] at htable'
  cases htable'
  cases hstep with
  | split t' => rcases hop with hop | hop <;> cases hop
  | merge _ t' conf conf' merged hop' hconf hconf' hrange =>
    have heq : t' = t := by
      rcases hop with rfl | rfl <;> rcases hop' with hop' | hop' <;> cases hop' <;> rfl
    subst heq
    exact ⟨table, conf, conf', htable, hconf, hconf', reallyAdjacent_of_mergedRange
      (hpart.stop_ne_nil hconf) (hpart.stop_ne_nil hconf') hrange⟩
  | same _ _ hmerge hfinalize =>
    rcases hop with hop | hop
    · exact absurd hop (hmerge t)
    · exact absurd hop (hfinalize t)

theorem hasPartition_step_iff (h : HasPartition name tm) {op : TableOp}
    (hinside : SplitInside name tm op) :
    HasPartition name (tm.step op) ↔ SplitFresh name tm op := by
  obtain ⟨table, htable, hpart⟩ := h
  unfold TableManager.step
  cases happly : tm.apply op with
  | error e =>
    refine ⟨fun _ t table' tm' _ _ _ hok => ?_, fun _ => ⟨table, htable, hpart⟩⟩
    rw [happly] at hok
    cases hok
  | ok tm' =>
    obtain ⟨table', shards', htable', htables, hstep⟩ := apply_cases happly
    by_cases hname : op.tableName = name
    · rw [hname, htable] at htable'
      cases htable'
      have hget : tm'.tables.get? name = some ⟨shards'⟩ := by
        rw [htables, hname, get?_insert, if_pos rfl]
      have hhas : HasPartition name tm' ↔ (TableDef.mk shards').PartitionsKeys := by
        constructor
        · rintro ⟨table', htable', hpart'⟩
          rw [hget] at htable'
          cases htable'
          exact hpart'
        · exact fun hpart' => ⟨_, hget, hpart'⟩
      change HasPartition name tm' ↔ _
      rw [hhas]
      cases hstep with
      | split t conf parent child hne hconf hparent hchild hshards =>
        obtain ⟨hlow, hhigh⟩ := hinside t table conf rfl hname htable hconf
        rw [partitions_of_split_iff hpart hne hconf hparent hchild hshards hlow
          (hhigh.resolve_left (hpart.stop_ne_nil hconf))]
        constructor
        · intro hfree t' table' tm'' ht' _ hget' _
          cases ht'
          rw [htable] at hget'
          cases hget'
          exact hfree
        · intro hfresh
          exact hfresh t table tm' rfl hname htable happly
      | merge _ t conf conf' merged hop hconf hconf' hrange hshards =>
        refine ⟨fun _ t' table' tm'' ht' => ?_, fun _ =>
          partitions_of_merge hpart hconf hconf' hrange hshards⟩
        rcases hop with rfl | rfl <;> cases ht'
      | same _ hsplit _ _ heq =>
        subst heq
        exact ⟨fun _ t' table' tm'' ht' => absurd ht' (hsplit t'), fun _ => hpart⟩
    · have hget : tm'.tables.get? name = some table := by
        rw [htables, get?_insert, if_neg (Ne.symm hname), htable]
      refine ⟨fun _ t table' tm'' ht' hname' => ?_, fun _ => ⟨table, hget, hpart⟩⟩
      subst ht'
      exact absurd hname' hname

theorem run_append_singleton (tm : TableManager) (ops : List TableOp) (op : TableOp) :
    tm.run (ops ++ [op]) = (tm.run ops).step op := by
  simp [TableManager.run]

/-- Along a sequence of operations whose splits have inner keys, the table keeps its partition
exactly when no split uses an id of the table. -/
theorem hasPartition_run_iff (h : HasPartition name tm) {ops : List TableOp}
    (hinside : ∀ pre op post, ops = pre ++ op :: post → SplitInside name (tm.run pre) op) :
    (∀ pre post, ops = pre ++ post → HasPartition name (tm.run pre)) ↔
      ∀ pre op post, ops = pre ++ op :: post → SplitFresh name (tm.run pre) op := by
  constructor
  · intro hall pre op post hops
    have hbefore := hall pre (op :: post) hops
    have hafter := hall (pre ++ [op]) post (by rw [hops]; simp)
    rw [run_append_singleton] at hafter
    exact (hasPartition_step_iff hbefore (hinside pre op post hops)).mp hafter
  · intro hfresh pre
    induction pre using List.reverseRecOn with
    | nil => exact fun _ _ => h
    | append_singleton pre op ih =>
      intro post hops
      have hsplit : ops = pre ++ op :: post := by rw [hops]; simp
      rw [run_append_singleton]
      exact (hasPartition_step_iff (ih (op :: post) hsplit) (hinside pre op post hsplit)).mpr
        (hfresh pre op post hsplit)

end Runs

section Creation

private theorem ofNat_toNat {m : ℕ} (hm : m < 256) : (UInt8.ofNat m).toNat = m := by
  rw [UInt8.toNat_ofNat']
  exact Nat.mod_eq_of_lt hm

variable {p i n : ℕ}

theorem boundaryKey_lt {q : ℕ} (hpq : p < q) (hq : q < 65536) : boundaryKey p < boundaryKey q := by
  have hcons : ∀ m, ∃ t, boundaryKey m = UInt8.ofNat (m / 256) :: t := by
    intro m
    unfold boundaryKey
    simp only
    split
    · exact ⟨_, rfl⟩
    · exact ⟨_, rfl⟩
  rcases lt_or_eq_of_le (Nat.div_le_div_right (c := 256) hpq.le) with hhi | hhi
  · obtain ⟨t, ht⟩ := hcons p
    obtain ⟨u, hu⟩ := hcons q
    rw [ht, hu]
    refine List.Lex.rel ?_
    rw [UInt8.lt_iff_toNat_lt, ofNat_toNat (by omega), ofNat_toNat (by omega)]
    exact hhi
  · -- The high bytes agree, so the low byte of `q` is the larger one and not zero.
    have hlow : p % 256 < q % 256 := by omega
    have hq0 : UInt8.ofNat (q % 256) ≠ 0 := by
      intro h0
      have hnat := congrArg UInt8.toNat h0
      rw [ofNat_toNat (by omega)] at hnat
      have hzero : (0 : UInt8).toNat = 0 := rfl
      omega
    unfold boundaryKey
    simp only [hhi, if_neg hq0]
    split
    · exact cons_lt_cons_iff.mpr (.inr ⟨rfl, nil_lt_cons _ _⟩)
    · refine cons_lt_cons_iff.mpr (.inr ⟨rfl, List.Lex.rel ?_⟩)
      rw [UInt8.lt_iff_toNat_lt, ofNat_toNat (by omega), ofNat_toNat (by omega)]
      exact hlow

theorem boundaryKey_lt_end_iff (hp : p < 65536) : boundaryKey p < [0xFF] ↔ p < 65280 := by
  have hend : boundaryKey 65280 = [0xFF] := by decide
  rw [← hend]
  constructor
  · intro hlt
    by_contra hge
    rcases eq_or_lt_of_le (not_lt.mp hge) with rfl | hgt
    · exact lt_irrefl _ hlt
    · exact lt_asymm hlt (boundaryKey_lt hgt hp)
  · intro hlt
    exact boundaryKey_lt hlt (by omega)

/-- The position of boundary `i` of `n`; nothing overflows for the shard counts in question. -/
theorem shardBoundary_eq (hi : i ≤ n) (hn : n ≤ 65535) :
    shardBoundary i n = boundaryKey (i * 65536 / n) := by
  have hi32 : i % 2 ^ 32 = i := Nat.mod_eq_of_lt (by omega)
  have hn32 : n % 2 ^ 32 = n := Nat.mod_eq_of_lt (by omega)
  have hpos : i * 65536 % 2 ^ 32 = i * 65536 := Nat.mod_eq_of_lt (by omega)
  rw [shardBoundary, hi32, hn32, hpos]

private theorem position_lt_succ (hpos : 0 < n) (hn : n ≤ 65535) :
    i * 65536 / n < (i + 1) * 65536 / n := by
  have hstep : i * 65536 / n + 1 = (i * 65536 + n) / n := (Nat.add_div_right _ hpos).symm
  have hle : (i * 65536 + n) / n ≤ (i + 1) * 65536 / n := Nat.div_le_div_right (by omega)
  omega

private theorem position_lt (hi : i < n) : i * 65536 / n < 65536 := by
  rw [Nat.div_lt_iff_lt_mul (by omega)]
  omega

/-- The bounds of the shards of a new table in increasing order. -/
def tableBound (n k : ℕ) : Bytes :=
  if k = 0 then [] else if k = n then [0xFF] else shardBoundary k n

private theorem shardRange_eq (hi : i < n) :
    shardRange i n = ⟨tableBound n i, tableBound n (i + 1)⟩ := by
  have hlast : i = n - 1 ↔ i + 1 = n := by omega
  simp only [shardRange, tableBound, hlast, hi.ne, if_false, Nat.add_one_ne_zero]

theorem tableBound_lt_succ {k : ℕ} (hn : n ≤ 255) (hk : k < n) :
    tableBound n k < tableBound n (k + 1) := by
  have hkey : ∀ p, boundaryKey p ≠ [] := by
    intro p
    unfold boundaryKey
    simp only
    split <;> simp
  unfold tableBound
  rw [if_neg (Nat.succ_ne_zero k), if_neg hk.ne]
  rcases Nat.eq_zero_or_pos k with rfl | hpos
  · rw [if_pos rfl]
    split
    · exact nil_lt_cons _ _
    · obtain ⟨a, l, hal⟩ := exists_cons_of_ne_nil
        (hkey (1 % 2 ^ 32 * 65536 % 2 ^ 32 / (n % 2 ^ 32)))
      change [] < boundaryKey _
      rw [Nat.zero_add, hal]
      exact nil_lt_cons _ _
  · rw [if_neg hpos.ne', shardBoundary_eq hk.le (by omega)]
    split
    · rename_i hlast
      rw [boundaryKey_lt_end_iff (position_lt hk), Nat.div_lt_iff_lt_mul (by omega)]
      omega
    · rw [shardBoundary_eq hk (by omega)]
      exact boundaryKey_lt (position_lt_succ (by omega) (by omega)) (position_lt (by omega))

theorem createShardConfig_get? (tc : TableConfig) (id : ℕ) (conf : ShardConfig) :
    (createShardConfig tc).get? id = some conf ↔ ∃ i < tc.numShards, id = tc.startID + i ∧
      conf = ⟨shardRange i tc.numShards, tc.schema, tc.indexes, []⟩ := by
  have hnodup : (((List.range tc.numShards).map fun i => (tc.startID + i,
      (⟨shardRange i tc.numShards, tc.schema, tc.indexes, []⟩ : ShardConfig))).map
        Prod.fst).Nodup := by
    rw [map_map]
    refine List.Nodup.map (fun i j hij => ?_) nodup_range
    exact Nat.add_left_cancel hij
  rw [createShardConfig, get?_ofList hnodup]
  simp only [mem_map, mem_range, Prod.mk.injEq]
  constructor
  · rintro ⟨i, hi, rfl, rfl⟩
    exact ⟨i, hi, rfl, rfl⟩
  · rintro ⟨i, hi, rfl, rfl⟩
    exact ⟨i, hi, rfl, rfl⟩

/-- A new table of up to 65535 shards partitions its keys exactly when it has a shard and fewer
than 256 of them. -/
theorem createShardConfig_partitions_iff {tc : TableConfig} (hn : tc.numShards ≤ 65535) :
    (TableDef.mk (createShardConfig tc)).PartitionsKeys ↔
      1 ≤ tc.numShards ∧ tc.numShards ≤ 255 := by
  constructor
  · intro h
    refine ⟨?_, ?_⟩
    · obtain ⟨id, conf, hconf, -⟩ := (h.union []).mpr (nil_lt_cons _ _)
      obtain ⟨i, hi, -⟩ := (createShardConfig_get? tc id conf).mp hconf
      omega
    · by_contra hmany
      -- The last shard starts at a position from `0xFF00` on and ends at the byte `0xFF`.
      have hi : tc.numShards - 1 < tc.numShards := by omega
      have hconf := (createShardConfig_get? tc _ _).mpr ⟨tc.numShards - 1, hi, rfl, rfl⟩
      have hrange := h.nonempty _ _ hconf
      rw [shardRange_eq hi] at hrange
      have hsucc : tc.numShards - 1 + 1 = tc.numShards := by omega
      have hlt := hrange.resolve_left (by simp [tableBound, hsucc]; omega)
      rw [hsucc] at hlt
      simp only [tableBound, if_neg (show tc.numShards - 1 ≠ 0 by omega),
        if_neg (show tc.numShards - 1 ≠ tc.numShards by omega),
        if_neg (show tc.numShards ≠ 0 by omega), if_true] at hlt
      rw [shardBoundary_eq hi.le hn, boundaryKey_lt_end_iff (position_lt hi),
        Nat.div_lt_iff_lt_mul (by omega)] at hlt
      omega
  · rintro ⟨hpos, hmany⟩
    rw [partitionsKeys_iff]
    have hmono : ∀ k < tc.numShards, tableBound tc.numShards k < tableBound tc.numShards (k + 1) :=
      fun k hk => tableBound_lt_succ hmany hk
    have hinterval : ∀ i, (TableDef.mk (createShardConfig tc)).interval i =
        if tc.startID ≤ i ∧ i < tc.startID + tc.numShards then
          some (tableBound tc.numShards (i - tc.startID),
            tableBound tc.numShards (i - tc.startID + 1))
        else none := by
      intro i
      split
      · rename_i hi
        refine interval_eq_some.mpr ⟨_, (createShardConfig_get? tc i _).mpr
          ⟨i - tc.startID, by omega, by omega, rfl⟩, ?_⟩
        rw [shardRange_eq (by omega)]
      · rename_i hi
        cases hget : (createShardConfig tc).get? i with
        | none => simp [TableDef.interval, hget]
        | some conf =>
          obtain ⟨j, hj, rfl, -⟩ := (createShardConfig_get? tc i conf).mp hget
          exact absurd ⟨Nat.le_add_right _ _, by omega⟩ hi
    have hbounds := IntervalPartition.of_bounds hmono hinterval
    have hfirst : tableBound tc.numShards 0 = [] := rfl
    have hlast : tableBound tc.numShards tc.numShards = [0xFF] := by
      simp [tableBound, show tc.numShards ≠ 0 by omega]
    rwa [hfirst, hlast] at hbounds

end Creation

variable {name : Bytes} {tc : TableConfig}

theorem createTable_tables {tm tm' : TableManager} (h : tm.createTable name tc = .ok tm') :
    tm'.tables.get? name = some ⟨createShardConfig tc⟩ := by
  unfold TableManager.createTable at h
  split at h
  · cases h
  · cases h
    exact (get?_insert _ _ _ _).trans (if_pos rfl)

theorem hasPartition_createTable_iff {tm tm₀ : TableManager}
    (hcreate : tm.createTable name tc = .ok tm₀) (hn : tc.numShards ≤ 65535) :
    HasPartition name tm₀ ↔ 1 ≤ tc.numShards ∧ tc.numShards ≤ 255 := by
  have htable := createTable_tables hcreate
  rw [← createShardConfig_partitions_iff hn]
  constructor
  · rintro ⟨table, hget, hpart⟩
    rw [htable] at hget
    cases hget
    exact hpart
  · exact fun hpart => ⟨_, htable, hpart⟩

/-- From the creation of a table on, along any sequence of operations whose splits have inner keys,
its shards partition its keys and only adjacent ones are merged, exactly when the table is created
with 1 to 255 shards and no split uses the id of one of its shards. -/
theorem table_partition_iff {tm tm₀ : TableManager} {name : Bytes} {tc : TableConfig}
    (hcreate : tm.createTable name tc = .ok tm₀) (hn : tc.numShards ≤ 65535) {ops : List TableOp}
    (hinside : ∀ pre op post, ops = pre ++ op :: post → SplitInside name (tm₀.run pre) op) :
    (∀ pre post, ops = pre ++ post → TableSound name (tm₀.run pre)) ↔
      (1 ≤ tc.numShards ∧ tc.numShards ≤ 255) ∧
        ∀ pre op post, ops = pre ++ op :: post → SplitFresh name (tm₀.run pre) op := by
  have hsound : ∀ tm', TableSound name tm' ↔ HasPartition name tm' := fun tm' =>
    ⟨fun h => h.partitions, tableSound_of_hasPartition⟩
  have hstart := hasPartition_createTable_iff hcreate hn
  simp only [hsound]
  constructor
  · intro h
    have h₀ : HasPartition name tm₀ := h [] ops rfl
    exact ⟨hstart.mp h₀, (hasPartition_run_iff h₀ hinside).mp h⟩
  · rintro ⟨hcount, hfresh⟩
    exact (hasPartition_run_iff (hstart.mpr hcount) hinside).mpr hfresh

/-- With 256 shards the last one has the range from `0xFF` to `0xFF`, so the table is not
partitioned from the start. -/
theorem create_256_shards_no_partition :
    ¬∀ (tm tm₀ : TableManager) (name : Bytes) (tc : TableConfig) (ops : List TableOp),
      tm.createTable name tc = .ok tm₀ → tc.numShards ≤ 65535 →
      (∀ pre op post, ops = pre ++ op :: post → SplitInside name (tm₀.run pre) op) →
      ∀ pre post, ops = pre ++ post → TableSound name (tm₀.run pre) := by
  intro hclaim
  let tc : TableConfig := ⟨256, 1, [], []⟩
  have hnew : ∀ tc, ∃ tm₀, TableManager.createTable ⟨.empty, .empty⟩ [116] tc = .ok tm₀ :=
    fun _ => ⟨_, rfl⟩
  obtain ⟨tm₀, hcreate⟩ := hnew tc
  have hsound := hclaim _ tm₀ [116] tc [] hcreate (by decide)
    (fun pre op post hops => absurd hops (by simp)) [] [] rfl
  have hcount := (hasPartition_createTable_iff hcreate (by decide)).mp hsound.partitions
  exact absurd hcount.2 (by decide)

/-- A table of two shards of which the first is split at the key `a`, with a fresh id. -/
theorem table_partition_sample :
    ∃ tm₀, TableManager.createTable ⟨.empty, .empty⟩ [116] ⟨2, 1, [], []⟩ = .ok tm₀ ∧
      ((∀ pre post, [TableOp.split ⟨1, 9, [97], [116]⟩] = pre ++ post →
          TableSound [116] (tm₀.run pre)) ↔
        (1 ≤ 2 ∧ 2 ≤ 255) ∧ ∀ pre op post, [TableOp.split ⟨1, 9, [97], [116]⟩] = pre ++ op :: post →
          SplitFresh [116] (tm₀.run pre) op) := by
  have hcreate : ∃ tm₀,
      TableManager.createTable ⟨.empty, .empty⟩ [116] ⟨2, 1, [], []⟩ = .ok tm₀ := ⟨_, rfl⟩
  obtain ⟨tm₀, hcreate⟩ := hcreate
  refine ⟨tm₀, hcreate, table_partition_iff hcreate (by decide) fun pre op post hops => ?_⟩
  obtain ⟨rfl, rfl, -⟩ : pre = [] ∧ op = .split ⟨1, 9, [97], [116]⟩ ∧ post = [] := by
    cases pre <;> simp_all
  intro t table conf ht _ hget hconf
  cases ht
  have htable : tm₀.tables.get? [116] = some ⟨createShardConfig ⟨2, 1, [], []⟩⟩ :=
    createTable_tables hcreate
  rw [TableManager.run, List.foldl_nil, htable] at hget
  cases hget
  obtain ⟨i, hi, hid, rfl⟩ := (createShardConfig_get? _ _ _).mp hconf
  obtain rfl : i = 0 := by simpa using hid.symm
  exact ⟨List.nil_lt_cons _ _, Or.inr (by decide)⟩

end Antfly
