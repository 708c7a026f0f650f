import Antfly.Graph.PatternLevels

/-!
Of a match only the keys matter that its aliases are bound to.  A run of the pattern finds such a
binding as often as its start node is listed, times the number of ways in which every step reaches
its node, so that the matches are exact where every binding that the pattern asks for is reached in
one way and no other binding is.
-/

namespace Antfly.Graph

open Trails List OrdMap

/-- The node every alias is bound to. -/
abbrev Binding := OrdMap Bytes Bytes

def MatchState.keys (m : MatchState) : Binding := m.bindings.map fun _ node => node.key

theorem get?_keys (m : MatchState) (a : Bytes) :
    m.keys.get? a = (m.bindings.get? a).map GraphResultNode.key :=
  get?_map _ _ a

def Binds (b : Binding) (aliases : List Bytes) : Prop :=
  ∀ a, (∃ x, b.get? a = some x) ↔ a ∈ aliases

def cut (b : Binding) (aliases : List Bytes) : Binding := b.filter fun a => decide (a ∈ aliases)

theorem get?_cut (b : Binding) (aliases : List Bytes) (a : Bytes) :
    (cut b aliases).get? a = if a ∈ aliases then b.get? a else none := by
  rw [cut, get?_filter]
  simp only [decide_eq_true_eq]

variable {b c : Binding} {aliases : List Bytes} {a v alias_ x : Bytes}

theorem get?_eq_none_of_binds (hb : Binds b aliases) (ha : a ∉ aliases) : b.get? a = none := by
  rw [Option.eq_none_iff_forall_ne_some]
  intro x hx
  exact ha ((hb a).mp ⟨x, hx⟩)

theorem cut_eq_self (hb : Binds b aliases) : cut b aliases = b := by
  apply ext_get?
  intro a
  rw [get?_cut]
  split
  · rfl
  · rename_i ha
    exact (get?_eq_none_of_binds hb ha).symm

/-- A binding that goes on to the node `x`. -/
def extendKeys (alias_ : Bytes) (b : Binding) (x : Bytes) : Option Binding :=
  match b.get? alias_ with
  | some y => if x = y then some b else none
  | none => some (b.insert alias_ x)

theorem cut_cons_of_mem (ha : a ∈ aliases) : cut b (a :: aliases) = cut b aliases := by
  apply ext_get?
  intro x
  rw [get?_cut, get?_cut]
  by_cases hx : x ∈ aliases
  · rw [if_pos hx, if_pos (mem_cons_of_mem a hx)]
  · rw [if_neg hx, if_neg]
    intro hx'
    rcases mem_cons.mp hx' with rfl | hx'
    · exact hx ha
    · exact hx hx'

theorem cut_cons_eq_insert (hv : b.get? a = some v) :
    cut b (a :: aliases) = (cut b aliases).insert a v := by
  apply ext_get?
  intro x
  rw [get?_cut, get?_insert, get?_cut]
  by_cases hx : x = a
  · rw [hx, if_pos mem_cons_self, if_pos rfl, hv]
  · rw [if_neg hx]
    simp only [mem_cons, hx, false_or]

theorem insert_inj {w : Bytes} (hb : b.get? a = none) (hc : c.get? a = none) :
    c.insert a w = b.insert a v ↔ c = b ∧ w = v := by
  constructor
  · intro heq
    have hget : ∀ x, (c.insert a w).get? x = (b.insert a v).get? x := fun x => by rw [heq]
    constructor
    · apply ext_get?
      intro x
      by_cases hx : x = a
      · rw [hx, hb, hc]
      · have hsame := hget x
        rw [get?_insert, get?_insert, if_neg hx, if_neg hx] at hsame
        exact hsame
    · have hsame := hget a
      rw [get?_insert, get?_insert, if_pos rfl, if_pos rfl] at hsame
      exact Option.some.inj hsame
  · rintro ⟨rfl, rfl⟩
    rfl

/-- A binding goes on to a longer one where it is its part and the node is the right one. -/
theorem extendKeys_eq_some {y : Bytes} (hc : Binds c aliases) (hx : b.get? alias_ = some x) :
    extendKeys alias_ c y = some (cut b (alias_ :: aliases)) ↔ c = cut b aliases ∧ y = x := by
  unfold extendKeys
  by_cases hmem : alias_ ∈ aliases
  · obtain ⟨z, hz⟩ := (hc alias_).mpr hmem
    rw [hz, cut_cons_of_mem hmem]
    dsimp only
    have hcut : (cut b aliases).get? alias_ = some x := by rw [get?_cut, if_pos hmem, hx]
    split
    · rename_i hy
      rw [Option.some.injEq]
      constructor
      · intro heq
        rw [heq, hcut] at hz
        exact ⟨heq, hy.trans (Option.some.inj hz).symm⟩
      · exact And.left
    · rename_i hy
      constructor
      · intro heq
        cases heq
      · rintro ⟨rfl, rfl⟩
        rw [hcut] at hz
        exact absurd (Option.some.inj hz) hy
  · have hnone : (cut b aliases).get? alias_ = none := by rw [get?_cut, if_neg hmem]
    rw [get?_eq_none_of_binds hc hmem, cut_cons_eq_insert hx]
    dsimp only
    rw [Option.some.injEq, insert_inj hnone (get?_eq_none_of_binds hc hmem)]

theorem binds_extendKeys (hc : Binds c aliases) (hb : extendKeys alias_ c x = some b) :
    Binds b (alias_ :: aliases) := by
  unfold extendKeys at hb
  cases hget : c.get? alias_ with
  | some y =>
    rw [hget] at hb
    by_cases hx : x = y
    · simp only [if_pos hx, Option.some.injEq] at hb
      subst hb
      intro a
      rw [hc a, mem_cons]
      constructor
      · exact .inr
      · rintro (rfl | ha)
        · exact (hc a).mp ⟨y, hget⟩
        · exact ha
    · simp only [if_neg hx, reduceCtorEq] at hb
  | none =>
    rw [hget] at hb
    cases hb
    intro a
    rw [get?_insert, mem_cons]
    by_cases ha : a = alias_
    · simp [ha]
    · simp [ha, hc a]

theorem count_flatMap_eq_mul {α β : Type*} [DecidableEq α] [BEq β] [LawfulBEq β]
    {l : List α} {f : α → List β} {a : α} {b : β} (hother : ∀ c ∈ l, c ≠ a → b ∉ f c) :
    (l.flatMap f).count b = l.count a * (f a).count b := by
  induction l with
  | nil => simp
  | cons c l ih =>
    have hrest := ih fun c' hc' => hother c' (mem_cons_of_mem c hc')
    rw [flatMap_cons, count_append, hrest]
    by_cases hc : c = a
    · subst hc
      rw [count_cons_self, Nat.succ_mul, Nat.add_comm]
    · rw [count_cons_of_ne hc, count_eq_zero.mpr (hother c mem_cons_self hc),
        Nat.zero_add]

section Reaching

variable (g : EdgeStore)

def reachedKeys (step : PatternStep) (w : Bytes) : List Bytes :=
  resultKeys (findReachableNodes g step.edge step.nodeFilter w)

def stepKeys (prevAlias alias_ : Bytes) (step : PatternStep) (b : Binding) : List Binding :=
  match b.get? prevAlias with
  | none => []
  | some w => (reachedKeys g step w).filterMap (extendKeys alias_ b)

variable {g}

variable {prevAlias alias_ : Bytes} {step : PatternStep} {b : Binding} {aliases : List Bytes}

theorem mem_stepKeys {c : Binding} :
    b ∈ stepKeys g prevAlias alias_ step c ↔
      ∃ w, c.get? prevAlias = some w ∧
        ∃ x ∈ reachedKeys g step w, extendKeys alias_ c x = some b := by
  unfold stepKeys
  cases c.get? prevAlias with
  | none => simp
  | some w => simp [mem_filterMap]

variable (g) in
theorem binds_flatMap_stepKeys (prevAlias alias_ : Bytes) (step : PatternStep) {bs : List Binding}
    (hbinds : ∀ c ∈ bs, Binds c aliases) :
    ∀ c ∈ bs.flatMap (stepKeys g prevAlias alias_ step), Binds c (alias_ :: aliases) := by
  intro c hc
  obtain ⟨c', hc', hmem⟩ := mem_flatMap.mp hc
  obtain ⟨w, -, x, -, hext⟩ := mem_stepKeys.mp hmem
  exact binds_extendKeys (hbinds c' hc') hext

/-- A step multiplies the number of ways to a binding by the number of ways to its node. -/
theorem count_flatMap_stepKeys {w x : Bytes} {current : List Binding}
    (hprev : prevAlias ∈ aliases) (hbinds : ∀ c ∈ current, Binds c aliases)
    (hcut : Binds (cut b aliases) aliases) (hw : b.get? prevAlias = some w)
    (hx : b.get? alias_ = some x) :
    (current.flatMap (stepKeys g prevAlias alias_ step)).count (cut b (alias_ :: aliases)) =
      current.count (cut b aliases) * (reachedKeys g step w).count x := by
  have hcount : (stepKeys g prevAlias alias_ step (cut b aliases)).count
      (cut b (alias_ :: aliases)) = (reachedKeys g step w).count x := by
    have hw' : (cut b aliases).get? prevAlias = some w := by rw [get?_cut, if_pos hprev, hw]
    unfold stepKeys
    rw [hw']
    dsimp only
    rw [count_filterMap, count_eq_countP]
    apply countP_congr
    intro y _
    rw [beq_iff_eq, extendKeys_eq_some hcut hx, beq_iff_eq]
    exact and_iff_right rfl
  rw [← hcount]
  apply count_flatMap_eq_mul
  intro c hc hne hmem
  obtain ⟨w', -, y, -, hext⟩ := mem_stepKeys.mp hmem
  exact hne ((extendKeys_eq_some (hbinds c hc) hx).mp hext).1

end Reaching

section Limits

variable {g : EdgeStore}

variable {limit : ℕ} {acc current : List MatchState} {prevAlias alias_ v x : Bytes}
variable {step : PatternStep} {rest : List (Bytes × PatternStep)} {aliases : List Bytes}
variable {bs : List Binding} {b : Binding} {R : PatternStep → Bytes → Bytes → Prop}
variable {P : PatternStep → Bytes → Prop}

theorem appendUpTo_eq {ms : List MatchState} (hlimit : (appendUpTo limit acc ms).length < limit) :
    appendUpTo limit acc ms = acc ++ ms := by
  induction ms generalizing acc with
  | nil => rw [appendUpTo, append_nil]
  | cons m ms ih =>
    rw [appendUpTo] at hlimit ⊢
    split at hlimit
    · omega
    · rename_i hmore
      rw [if_neg hmore, ih hlimit, append_assoc, singleton_append]

theorem nextMatches_eq
    (hlimit : (nextMatches g limit prevAlias alias_ step acc current).length < limit) :
    nextMatches g limit prevAlias alias_ step acc current =
      acc ++ current.flatMap (matchExtensions g prevAlias alias_ step) := by
  induction current generalizing acc with
  | nil => rw [nextMatches, flatMap_nil, append_nil]
  | cons m current ih =>
    rw [nextMatches] at hlimit ⊢
    split at hlimit
    · omega
    · rename_i hmore
      rw [if_neg hmore, ih hlimit, appendUpTo_eq (not_le.mp hmore), flatMap_cons,
        append_assoc]

/-- No step reaches a limit: neither the nodes that are reached nor the matches. -/
def StepsClear (g : EdgeStore) (limit : ℕ) :
    Bytes → List (Bytes × PatternStep) → List MatchState → Prop
  | _, [], _ => True
  | prevAlias, (alias_, step) :: rest, current =>
    (∀ m ∈ current, ∀ node, m.bindings.get? prevAlias = some node →
      (findReachableNodes g step.edge step.nodeFilter node.key).length < safetyLimit) ∧
    (nextMatches g limit prevAlias alias_ step [] current).length < limit ∧
    StepsClear g limit alias_ rest (nextMatches g limit prevAlias alias_ step [] current)

/-- The nodes in range of a step from `v` are those from which a last edge may be taken. -/
def InRange (g : EdgeStore) (step : PatternEdgeStep) (v w : Bytes) : Prop :=
  ∃ k : ℕ, (k : ℤ) < step.maximum ∧ step.minimum ≤ k + 1 ∧ AtDistance g step v k w

theorem reachedKeys_eq
    (hlimit : (findReachableNodes g step.edge step.nodeFilter v).length < safetyLimit) :
    ∃ ws : List Bytes, ws.Nodup ∧ (∀ w, w ∈ ws ↔ InRange g step.edge v w) ∧
      reachedKeys g step v = ws.flatMap fun w =>
        (otherEnds g step.edge w).filter fun x => nodePassesPrefixFilter x step.nodeFilter := by
  obtain ⟨ws, hnodup, hws, hkeys⟩ :=
    exploreLevels_keys (level_start g step.edge v) (Nat.lt_succ_self _) hlimit
  refine ⟨ws, hnodup, ?_, hkeys⟩
  intro w
  rw [hws]
  constructor
  · rintro ⟨k, -, hk⟩
    exact ⟨k, hk⟩
  · rintro ⟨k, hk⟩
    exact ⟨k, Nat.zero_le k, hk⟩

/-- A last edge leads to `x` from a node in range. -/
def Entered (g : EdgeStore) (step : PatternEdgeStep) (v x : Bytes) : Prop :=
  ∃ w, InRange g step v w ∧ x ∈ otherEnds g step w

/-- Exactly one permitted edge leads to `x` from a node in range. -/
def EnteredOnce (g : EdgeStore) (step : PatternEdgeStep) (v x : Bytes) : Prop :=
  ∃ w, InRange g step v w ∧ (otherEnds g step w).count x = 1 ∧
    ∀ w', InRange g step v w' → x ∈ otherEnds g step w' → w' = w

theorem mem_reachedKeys
    (hlimit : (findReachableNodes g step.edge step.nodeFilter v).length < safetyLimit) :
    x ∈ reachedKeys g step v ↔
      nodePassesPrefixFilter x step.nodeFilter = true ∧ Entered g step.edge v x := by
  obtain ⟨ws, -, hws, hkeys⟩ := reachedKeys_eq hlimit
  rw [hkeys, mem_flatMap]
  constructor
  · rintro ⟨w, hw, hx⟩
    obtain ⟨hx, hpre⟩ := mem_filter.mp hx
    exact ⟨hpre, w, (hws w).mp hw, hx⟩
  · rintro ⟨hpre, w, hw, hx⟩
    exact ⟨w, (hws w).mpr hw, mem_filter.mpr ⟨hx, hpre⟩⟩

theorem count_reachedKeys
    (hlimit : (findReachableNodes g step.edge step.nodeFilter v).length < safetyLimit)
    (hpre : nodePassesPrefixFilter x step.nodeFilter = true) :
    (reachedKeys g step v).count x = 1 ↔ EnteredOnce g step.edge v x := by
  obtain ⟨ws, hnodup, hws, hkeys⟩ := reachedKeys_eq hlimit
  have hmem : ∀ w, x ∈ (otherEnds g step.edge w).filter
      (fun x => nodePassesPrefixFilter x step.nodeFilter) ↔ x ∈ otherEnds g step.edge w := by
    intro w
    rw [mem_filter]
    exact and_iff_left hpre
  rw [hkeys, count_flatMap_eq_one hnodup]
  unfold EnteredOnce
  constructor
  · rintro ⟨w, hw, hcount, huniq⟩
    rw [count_filter (p := fun x => nodePassesPrefixFilter x step.nodeFilter) hpre] at hcount
    exact ⟨w, (hws w).mp hw, hcount,
      fun w' hw' hx => huniq w' ((hws w').mpr hw') ((hmem w').mpr hx)⟩
  · rintro ⟨w, hw, hcount, huniq⟩
    refine ⟨w, (hws w).mpr hw, ?_, fun w' hw' hx => huniq w' ((hws w').mp hw') ((hmem w').mp hx)⟩
    rw [count_filter (p := fun x => nodePassesPrefixFilter x step.nodeFilter) hpre]
    exact hcount

theorem extendMatch_keys {filter : NodeFilter} {m : MatchState} {reached : ReachableNode}
    (hpre : nodePassesPrefixFilter reached.node.key filter = true) :
    (extendMatch alias_ filter m reached).map MatchState.keys =
      extendKeys alias_ m.keys reached.node.key := by
  unfold extendMatch extendKeys
  rw [get?_keys]
  cases m.bindings.get? alias_ with
  | some expected =>
    by_cases hkey : reached.node.key = expected.key
    · rw [hkey] at hpre
      simp only [hkey, hpre, ne_eq, not_true_eq_false, Bool.true_eq_false, or_self, if_false,
        Option.map_some, if_true]
      rfl
    · simp [hkey]
  | none =>
    simp [hpre]
    apply ext_get?
    intro a
    rw [get?_keys, get?_insert, get?_insert, get?_keys]
    split <;> rfl

theorem matchExtensions_keys {prevAlias alias_ : Bytes} {step : PatternStep} {m : MatchState}
    (hlimit : ∀ node, m.bindings.get? prevAlias = some node →
      (findReachableNodes g step.edge step.nodeFilter node.key).length < safetyLimit) :
    (matchExtensions g prevAlias alias_ step m).map MatchState.keys =
      stepKeys g prevAlias alias_ step m.keys := by
  unfold matchExtensions stepKeys
  rw [get?_keys]
  cases hget : m.bindings.get? prevAlias with
  | none => rfl
  | some current =>
    dsimp only [Option.map_some]
    rw [reachedKeys, resultKeys, filterMap_map, map_filterMap]
    apply filterMap_congr
    intro reached hreached
    apply extendMatch_keys
    have hmem : reached.node.key ∈ reachedKeys g step current.key :=
      mem_map_of_mem (f := fun r : ReachableNode => r.node.key) hreached
    exact ((mem_reachedKeys (hlimit current hget)).mp hmem).1

variable (g) in
def stepsKeys : Bytes → List (Bytes × PatternStep) → List Binding → List Binding
  | _, [], bs => bs
  | prevAlias, (alias_, step) :: rest, bs =>
    stepsKeys alias_ rest (bs.flatMap (stepKeys g prevAlias alias_ step))

theorem stepsKeys_nil (prevAlias : Bytes) (rest : List (Bytes × PatternStep)) :
    stepsKeys g prevAlias rest [] = [] := by
  induction rest generalizing prevAlias with
  | nil => rfl
  | cons s rest ih => exact ih s.1

theorem nextMatches_keys {limit : ℕ} {prevAlias alias_ : Bytes} {step : PatternStep}
    {current : List MatchState}
    (hnodes : ∀ m ∈ current, ∀ node, m.bindings.get? prevAlias = some node →
      (findReachableNodes g step.edge step.nodeFilter node.key).length < safetyLimit)
    (hlimit : (nextMatches g limit prevAlias alias_ step [] current).length < limit) :
    (nextMatches g limit prevAlias alias_ step [] current).map MatchState.keys =
      (current.map MatchState.keys).flatMap (stepKeys g prevAlias alias_ step) := by
  rw [nextMatches_eq hlimit, nil_append, map_flatMap, flatMap_map]
  apply flatMap_congr
  intro m hm
  exact matchExtensions_keys (hnodes m hm)

theorem runSteps_keys (hlimit : StepsClear g limit prevAlias rest current) :
    (runSteps g limit prevAlias rest current).map MatchState.keys =
      stepsKeys g prevAlias rest (current.map MatchState.keys) := by
  induction rest generalizing prevAlias current with
  | nil => rfl
  | cons s rest ih =>
    obtain ⟨alias_, step⟩ := s
    obtain ⟨hnodes, hnext, hrest⟩ := hlimit
    rw [runSteps, stepsKeys, ← nextMatches_keys hnodes hnext]
    split
    · rename_i hempty
      rw [hempty, map_nil, stepsKeys_nil]
    · exact ih hrest

theorem binds_stepsKeys (hbinds : ∀ c ∈ bs, Binds c aliases) :
    ∀ b ∈ stepsKeys g prevAlias rest bs, ∀ a,
      (∃ x, b.get? a = some x) ↔ a ∈ aliases ∨ a ∈ rest.map Prod.fst := by
  induction rest generalizing prevAlias aliases bs with
  | nil =>
    intro b hb a
    rw [map_nil, or_iff_left not_mem_nil]
    exact hbinds b hb a
  | cons s rest ih =>
    obtain ⟨alias_, step⟩ := s
    intro b hb a
    have hnext := binds_flatMap_stepKeys g prevAlias alias_ step hbinds
    rw [ih hnext b hb a, mem_cons, map_cons, mem_cons]
    tauto

/-- The number of ways in which the remaining steps reach the nodes of a binding. -/
def ways (g : EdgeStore) (b : Binding) : Bytes → List (Bytes × PatternStep) → ℕ
  | _, [] => 1
  | prevAlias, (alias_, step) :: rest =>
    (match b.get? prevAlias, b.get? alias_ with
      | some w, some x => (reachedKeys g step w).count x
      | _, _ => 0) * ways g b alias_ rest

theorem binds_cut (hb : ∀ a ∈ aliases, ∃ x, b.get? a = some x) : Binds (cut b aliases) aliases := by
  intro a
  rw [get?_cut]
  constructor
  · rintro ⟨x, hx⟩
    by_contra ha
    rw [if_neg ha] at hx
    cases hx
  · intro ha
    rw [if_pos ha]
    exact hb a ha

theorem count_stepsKeys (hprev : prevAlias ∈ aliases) (hbinds : ∀ c ∈ bs, Binds c aliases)
    (hb : ∀ a, (∃ x, b.get? a = some x) ↔ a ∈ aliases ∨ a ∈ rest.map Prod.fst) :
    (stepsKeys g prevAlias rest bs).count b =
      bs.count (cut b aliases) * ways g b prevAlias rest := by
  induction rest generalizing prevAlias aliases bs with
  | nil =>
    have hself : Binds b aliases := fun a => (hb a).trans (or_iff_left not_mem_nil)
    rw [stepsKeys, ways, cut_eq_self hself, Nat.mul_one]
  | cons s rest ih =>
    obtain ⟨alias_, step⟩ := s
    have hnext := binds_flatMap_stepKeys g prevAlias alias_ step hbinds
    have hb' : ∀ a, (∃ x, b.get? a = some x) ↔ a ∈ alias_ :: aliases ∨ a ∈ rest.map Prod.fst := by
      intro a
      rw [hb a, mem_cons, map_cons, mem_cons]
      tauto
    obtain ⟨w, hw⟩ := (hb prevAlias).mpr (.inl hprev)
    obtain ⟨x, hx⟩ := (hb' alias_).mpr (.inl mem_cons_self)
    have hcut : Binds (cut b aliases) aliases := binds_cut fun a ha => (hb a).mpr (.inl ha)
    rw [stepsKeys, ih mem_cons_self hnext hb',
      count_flatMap_stepKeys hprev hbinds hcut hw hx, ways, hw, hx, Nat.mul_assoc]

/-- Every remaining step relates the nodes that its alias and the one before are bound to. -/
def Along (R : PatternStep → Bytes → Bytes → Prop) (b : Binding) :
    Bytes → List (Bytes × PatternStep) → Prop
  | _, [] => True
  | prevAlias, (alias_, step) :: rest =>
    (∃ w x, b.get? prevAlias = some w ∧ b.get? alias_ = some x ∧ R step w x) ∧
      Along R b alias_ rest

theorem Along.mono {S : PatternStep → Bytes → Bytes → Prop}
    (hsub : ∀ step w x, R step w x → S step w x) (hb : Along R b prevAlias rest) :
    Along S b prevAlias rest := by
  induction rest generalizing prevAlias with
  | nil => trivial
  | cons s rest ih =>
    obtain ⟨⟨w, x, hw, hx, hR⟩, hrest⟩ := hb
    exact ⟨⟨w, x, hw, hx, hsub _ w x hR⟩, ih hrest⟩

theorem Along.and (hP : ∀ s ∈ rest, ∀ x, b.get? s.1 = some x → P s.2 x)
    (hb : Along R b prevAlias rest) :
    Along (fun step w x => P step x ∧ R step w x) b prevAlias rest := by
  induction rest generalizing prevAlias with
  | nil => trivial
  | cons s rest ih =>
    obtain ⟨⟨w, x, hw, hx, hR⟩, hrest⟩ := hb
    exact ⟨⟨w, x, hw, hx, hP s mem_cons_self x hx, hR⟩,
      ih (fun s' hs' => hP s' (mem_cons_of_mem s hs')) hrest⟩

theorem Along.forall_mem (hb : Along (fun step w x => P step x ∧ R step w x) b prevAlias rest) :
    ∀ s ∈ rest, ∀ x, b.get? s.1 = some x → P s.2 x := by
  induction rest generalizing prevAlias with
  | nil =>
    intro s hs
    cases hs
  | cons s rest ih =>
    obtain ⟨⟨w, y, hw, hy, hP, -⟩, hrest⟩ := hb
    intro s' hs' x hx
    rcases mem_cons.mp hs' with rfl | hs'
    · rw [hy] at hx
      cases hx
      exact hP
    · exact ih hrest s' hs' x hx

/-- A step that reaches its node, in terms of the last edge. -/
def Hops (g : EdgeStore) (R : EdgeStore → PatternEdgeStep → Bytes → Bytes → Prop)
    (step : PatternStep) (w x : Bytes) : Prop :=
  nodePassesPrefixFilter x step.nodeFilter = true ∧ R g step.edge w x

/-- As long as the nodes before are reached, the number of ways tells whether a step reaches its
node, and whether it does so once. -/
theorem ways_iff (hlimit : StepsClear g limit prevAlias rest current)
    (hprev : prevAlias ∈ aliases) (hbinds : ∀ m ∈ current, Binds m.keys aliases)
    (hb : ∀ a, (∃ x, b.get? a = some x) ↔ a ∈ aliases ∨ a ∈ rest.map Prod.fst)
    (hmem : cut b aliases ∈ current.map MatchState.keys) :
    (ways g b prevAlias rest ≠ 0 ↔ Along (Hops g Entered) b prevAlias rest) ∧
      (ways g b prevAlias rest = 1 ↔ Along (Hops g EnteredOnce) b prevAlias rest) := by
  induction rest generalizing prevAlias aliases current with
  | nil => exact ⟨iff_of_true (by rw [ways]; omega) trivial, iff_of_true rfl trivial⟩
  | cons s rest ih =>
    obtain ⟨alias_, step⟩ := s
    obtain ⟨hnodes, hnext, hrest⟩ := hlimit
    obtain ⟨w, hw⟩ := (hb prevAlias).mpr (.inl hprev)
    have hb' : ∀ a, (∃ x, b.get? a = some x) ↔ a ∈ alias_ :: aliases ∨ a ∈ rest.map Prod.fst := by
      intro a
      rw [hb a, mem_cons, map_cons, mem_cons]
      tauto
    obtain ⟨x, hx⟩ := (hb' alias_).mpr (.inl mem_cons_self)
    have hcut : Binds (cut b aliases) aliases := binds_cut fun a ha => (hb a).mpr (.inl ha)
    have hbelow : (findReachableNodes g step.edge step.nodeFilter w).length < safetyLimit := by
      obtain ⟨m, hm, hkeys⟩ := mem_map.mp hmem
      have hget : (m.bindings.get? prevAlias).map GraphResultNode.key = some w := by
        rw [← get?_keys, hkeys, get?_cut, if_pos hprev, hw]
      obtain ⟨node, hnode, rfl⟩ := Option.map_eq_some_iff.mp hget
      exact hnodes m hm node hnode
    have hkeys := nextMatches_keys hnodes hnext
    have hbinds' : ∀ m ∈ nextMatches g limit prevAlias alias_ step [] current,
        Binds m.keys (alias_ :: aliases) := by
      intro m hm
      have hm' := mem_map_of_mem (f := MatchState.keys) hm
      rw [hkeys] at hm'
      refine binds_flatMap_stepKeys g prevAlias alias_ step ?_ m.keys hm'
      intro c hc
      obtain ⟨m', hmem', rfl⟩ := mem_map.mp hc
      exact hbinds m' hmem'
    -- where the step reaches its node, the next matches have the next part of the binding
    have hreach : x ∈ reachedKeys g step w → cut b (alias_ :: aliases) ∈
        (nextMatches g limit prevAlias alias_ step [] current).map MatchState.keys := by
      intro hreached
      rw [hkeys, mem_flatMap]
      refine ⟨cut b aliases, hmem, mem_stepKeys.mpr ⟨w, ?_, x, hreached, ?_⟩⟩
      · rw [get?_cut, if_pos hprev, hw]
      · exact (extendKeys_eq_some hcut hx).mpr ⟨rfl, rfl⟩
    have hways : ways g b prevAlias ((alias_, step) :: rest) =
        (reachedKeys g step w).count x * ways g b alias_ rest := by
      rw [ways, hw, hx]
    have hone : (∃ w' x', b.get? prevAlias = some w' ∧ b.get? alias_ = some x' ∧
        Hops g Entered step w' x') ↔ x ∈ reachedKeys g step w := by
      rw [mem_reachedKeys hbelow]
      constructor
      · rintro ⟨w', x', hw', hx', hop⟩
        rw [hw] at hw'
        rw [hx] at hx'
        cases hw'
        cases hx'
        exact hop
      · intro hop
        exact ⟨w, x, hw, hx, hop⟩
    have honce : (∃ w' x', b.get? prevAlias = some w' ∧ b.get? alias_ = some x' ∧
        Hops g EnteredOnce step w' x') ↔ (reachedKeys g step w).count x = 1 := by
      constructor
      · rintro ⟨w', x', hw', hx', hpre, hop⟩
        rw [hw] at hw'
        rw [hx] at hx'
        cases hw'
        cases hx'
        exact (count_reachedKeys hbelow hpre).mpr hop
      · intro hcount
        have hreached : x ∈ reachedKeys g step w := by
          rw [← count_pos_iff, hcount]
          exact Nat.one_pos
        have hpre := ((mem_reachedKeys hbelow).mp hreached).1
        exact ⟨w, x, hw, hx, hpre, (count_reachedKeys hbelow hpre).mp hcount⟩
    constructor
    · rw [hways, Along, hone, Nat.mul_ne_zero_iff, ← Nat.pos_iff_ne_zero, count_pos_iff]
      apply and_congr_right
      intro hreached
      exact (ih hrest mem_cons_self hbinds' hb' (hreach hreached)).1
    · have hboth : (reachedKeys g step w).count x * ways g b alias_ rest = 1 ↔
          (reachedKeys g step w).count x = 1 ∧ ways g b alias_ rest = 1 := by
        constructor
        · intro hmul
          exact ⟨Nat.eq_one_of_mul_eq_one_right hmul, Nat.eq_one_of_mul_eq_one_left hmul⟩
        · rintro ⟨hcount, hrest⟩
          rw [hcount, hrest]
      rw [hways, Along, honce, hboth]
      apply and_congr_right
      intro hcount
      have hreached : x ∈ reachedKeys g step w := by
        rw [← count_pos_iff, hcount]
        exact Nat.one_pos
      exact (ih hrest mem_cons_self hbinds' hb' (hreach hreached)).2

end Limits

end Antfly.Graph
