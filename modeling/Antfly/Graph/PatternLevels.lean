import Antfly.Graph.PatternMatch
import Antfly.Lib.Reach

/-!
A level of the search holds the nodes at one number of hops from the start, each once.  Every edge
out of a level that is not the last yields its other end, so that a node is a result as often as a
permitted edge enters it from a node whose number of hops is in the range of the step.
-/

namespace Antfly.Graph

open Trails List

theorem count_flatMap_eq_one {α β : Type*} [BEq β] [LawfulBEq β] {l : List α}
    {f : α → List β} {b : β} (hl : l.Nodup) :
    (l.flatMap f).count b = 1 ↔
      ∃ a ∈ l, (f a).count b = 1 ∧ ∀ a' ∈ l, b ∈ f a' → a' = a := by
  induction l with
  | nil => simp
  | cons a l ih =>
    obtain ⟨ha, hl⟩ := nodup_cons.mp hl
    rw [flatMap_cons, count_append]
    constructor
    · intro hone
      rcases Nat.eq_zero_or_pos ((f a).count b) with hzero | hpos
      · obtain ⟨c, hc, hcount, huniq⟩ := (ih hl).mp (by omega)
        refine ⟨c, mem_cons_of_mem a hc, hcount, ?_⟩
        intro a' ha' hmem
        rcases mem_cons.mp ha' with rfl | ha'
        · exact absurd hmem (count_eq_zero.mp hzero)
        · exact huniq a' ha' hmem
      · refine ⟨a, mem_cons_self, by omega, ?_⟩
        have hrest : b ∉ l.flatMap f := count_eq_zero.mp (by omega)
        intro a' ha' hmem
        rcases mem_cons.mp ha' with rfl | ha'
        · rfl
        · exact absurd (mem_flatMap.mpr ⟨a', ha', hmem⟩) hrest
    · rintro ⟨c, hc, hcount, huniq⟩
      rcases mem_cons.mp hc with rfl | hc
      · have hrest : (l.flatMap f).count b = 0 := by
          rw [count_eq_zero, mem_flatMap]
          rintro ⟨a', ha', hmem⟩
          exact ha (huniq a' (mem_cons_of_mem c ha') hmem ▸ ha')
        omega
      · have hfirst : (f a).count b = 0 := by
          rw [count_eq_zero]
          intro hmem
          exact ha (huniq a mem_cons_self hmem ▸ hc)
        have hrest := (ih hl).mpr
          ⟨c, hc, hcount, fun a' ha' => huniq a' (mem_cons_of_mem a ha')⟩
        omega

section Levels

variable (g : EdgeStore) (step : PatternEdgeStep) (filter : NodeFilter)

/-- The edge leads from `u` to `v` in the direction of the step. -/
def PatternEdgeStep.Joins (e : Edge) (u v : Bytes) : Prop :=
  match step.direction with
  | .out => e.source = u ∧ e.target = v
  | .incoming => e.target = u ∧ e.source = v
  | .both => (e.source = u ∧ e.target = v) ∨ (e.target = u ∧ e.source = v)

def Crossed (u : Bytes) (e : Edge) (v : Bytes) : Prop :=
  e ∈ g.outgoing ∧ step.admits e = true ∧ step.Joins e u v

/-- The edges that are looked at from `w`, each with the end it leads to. -/
def crossings (w : Bytes) : List (Edge × Bytes) :=
  (((g.getEdges w step.direction).filter step.admits).flatMap fun e =>
    (targetKeys step e).map fun x => (e, x)).filter fun p => p.2 ≠ w

def otherEnds (w : Bytes) : List Bytes := (crossings g step w).map Prod.snd

variable {w x v : Bytes} {h : ℕ} {s : Exploration} {f : Frontier} {e : Edge}

theorem mem_crossings {p : Edge × Bytes} :
    p ∈ crossings g step w ↔
      p.1 ∈ g.getEdges w step.direction ∧ step.admits p.1 = true ∧ p.2 ∈ targetKeys step p.1 ∧
        p.2 ≠ w := by
  simp only [crossings, mem_filter, mem_flatMap, mem_map, decide_eq_true_eq]
  constructor
  · rintro ⟨⟨e, ⟨he, hadmits⟩, x, hx, rfl⟩, hne⟩
    exact ⟨he, hadmits, hx, hne⟩
  · rintro ⟨he, hadmits, hx, hne⟩
    exact ⟨⟨p.1, ⟨he, hadmits⟩, p.2, hx, rfl⟩, hne⟩

theorem found_iff_joins (e : Edge) (hne : x ≠ w) :
    e ∈ g.getEdges w step.direction ∧ x ∈ targetKeys step e ↔
      e ∈ g.outgoing ∧ step.Joins e w x := by
  have hsame : e ∈ g.incoming ↔ e ∈ g.outgoing := g.same.mem_iff
  cases hdir : step.direction with
  | out =>
    simp only [EdgeStore.getEdges, targetKeys, PatternEdgeStep.Joins, hdir, mem_filter,
      mem_singleton, decide_eq_true_eq, and_assoc, eq_comm (a := x)]
  | incoming =>
    simp only [EdgeStore.getEdges, targetKeys, PatternEdgeStep.Joins, hdir, mem_filter,
      mem_singleton, decide_eq_true_eq, and_assoc, eq_comm (a := x), hsame]
  | both =>
    simp only [EdgeStore.getEdges, targetKeys, PatternEdgeStep.Joins, hdir, mem_append,
      mem_filter, mem_cons, not_mem_nil, or_false, decide_eq_true_eq, hsame]
    constructor
    · rintro ⟨⟨he, hw⟩ | ⟨he, hw⟩, rfl | rfl⟩
      · exact absurd hw hne
      · exact ⟨he, .inl ⟨hw, rfl⟩⟩
      · exact ⟨he, .inr ⟨hw, rfl⟩⟩
      · exact absurd hw hne
    · rintro ⟨he, ⟨hw, rfl⟩ | ⟨hw, rfl⟩⟩
      · exact ⟨.inl ⟨he, hw⟩, .inr rfl⟩
      · exact ⟨.inr ⟨he, hw⟩, .inl rfl⟩

theorem mem_otherEnds : x ∈ otherEnds g step w ↔ x ≠ w ∧ ∃ e, Crossed g step w e x := by
  rw [otherEnds, mem_map]
  constructor
  · rintro ⟨⟨e, y⟩, hp, rfl⟩
    obtain ⟨he, hadmits, hy, hne⟩ := (mem_crossings g step).mp hp
    obtain ⟨hmem, hjoins⟩ := (found_iff_joins g step e hne).mp ⟨he, hy⟩
    exact ⟨hne, e, hmem, hadmits, hjoins⟩
  · rintro ⟨hne, e, hmem, hadmits, hjoins⟩
    obtain ⟨he, hx⟩ := (found_iff_joins g step e hne).mpr ⟨hmem, hjoins⟩
    exact ⟨(e, x), (mem_crossings g step).mpr ⟨he, hadmits, hx, hne⟩, rfl⟩

/-- The least number of hops from `v` to `w` is `h`. -/
def AtDistance (v : Bytes) (h : ℕ) (w : Bytes) : Prop :=
  (∃ t, IsTrail (Crossed g step) v t w ∧ t.length = h) ∧
    ∀ t, IsTrail (Crossed g step) v t w → h ≤ t.length

variable {g step}

theorem AtDistance.unique {h' : ℕ} (hw : AtDistance g step v h w) (hw' : AtDistance g step v h' w) :
    h = h' :=
  Nearest.unique hw hw'

theorem atDistance_zero : AtDistance g step v 0 w ↔ w = v := by
  constructor
  · intro hw
    exact (Nearest.eq_zero_iff hw).mp rfl
  · rintro rfl
    exact nearest_start

theorem atDistance_succ :
    AtDistance g step v (h + 1) x ↔
      (¬∃ t, IsTrail (Crossed g step) v t x ∧ t.length ≤ h) ∧
        ∃ w, AtDistance g step v h w ∧ x ∈ otherEnds g step w := by
  constructor
  · rintro ⟨⟨t, ht, hlength⟩, hleast⟩
    have hfar : ¬∃ t, IsTrail (Crossed g step) v t x ∧ t.length ≤ h := by
      rintro ⟨t', ht', hshort⟩
      have hle := hleast t' ht'
      omega
    refine ⟨hfar, ?_⟩
    cases ht with
    | nil => cases hlength
    | @cons e w _ t ht hcross =>
      rw [length_cons] at hlength
      have hne : x ≠ w := by
        rintro rfl
        exact hfar ⟨t, ht, by omega⟩
      refine ⟨w, ⟨⟨t, ht, by omega⟩, ?_⟩, (mem_otherEnds g step).mpr ⟨hne, e, hcross⟩⟩
      intro t' ht'
      have hle := hleast _ (IsTrail.cons ht' hcross)
      rw [length_cons] at hle
      omega
  · rintro ⟨hfar, w, ⟨⟨t, ht, hlength⟩, -⟩, hx⟩
    obtain ⟨-, e, hcross⟩ := (mem_otherEnds g step).mp hx
    refine ⟨⟨(e, w) :: t, IsTrail.cons ht hcross, by rw [length_cons, hlength]⟩, ?_⟩
    intro t' ht'
    by_contra hlt
    exact hfar ⟨t', ht', by omega⟩

theorem within_succ :
    (∃ t, IsTrail (Crossed g step) v t x ∧ t.length ≤ h + 1) ↔
      (∃ t, IsTrail (Crossed g step) v t x ∧ t.length ≤ h) ∨ AtDistance g step v (h + 1) x := by
  constructor
  · rintro ⟨t, ht, hlength⟩
    by_cases hnear : ∃ t, IsTrail (Crossed g step) v t x ∧ t.length ≤ h
    · exact .inl hnear
    · have hfar : ∀ t', IsTrail (Crossed g step) v t' x → h + 1 ≤ t'.length := by
        intro t' ht'
        by_contra hlt
        exact hnear ⟨t', ht', by omega⟩
      have hle := hfar t ht
      exact .inr ⟨⟨t, ht, by omega⟩, hfar⟩
  · rintro (⟨t, ht, hlength⟩ | ⟨⟨t, ht, hlength⟩, -⟩)
    · exact ⟨t, ht, by omega⟩
    · exact ⟨t, ht, by omega⟩

theorem AtDistance.earlier {k : ℕ} (hx : AtDistance g step v k x) (hle : h ≤ k) :
    ∃ w, AtDistance g step v h w := by
  induction k generalizing x with
  | zero =>
    have hzero : h = 0 := Nat.le_zero.mp hle
    exact ⟨x, hzero ▸ hx⟩
  | succ k ih =>
    rcases Nat.lt_or_ge k h with hlt | hge
    · have hlast : h = k + 1 := by omega
      exact ⟨x, hlast ▸ hx⟩
    · obtain ⟨-, w, hw, -⟩ := atDistance_succ.mp hx
      exact ih hw hge

variable (g step)

/-- What the ends of the edges out of a node at `h` hops add to the results. -/
def yielded (h : ℕ) (ends : List Bytes) : List Bytes :=
  if step.minimum ≤ h + 1 then ends.filter fun x => nodePassesPrefixFilter x filter else []

theorem yielded_append (h : ℕ) (xs ys : List Bytes) :
    yielded step filter h (xs ++ ys) = yielded step filter h xs ++ yielded step filter h ys := by
  unfold yielded
  split
  · exact filter_append xs ys
  · rfl

def resultKeys (results : List ReachableNode) : List Bytes := results.map fun r => r.node.key

theorem visitFrontier_eq (s : Exploration) (f : Frontier) (hhops : (f.hops : ℤ) < step.maximum) :
    visitFrontier g step filter s f =
      (crossings g step f.key).foldl (fun s p => visitTarget step filter f p.1 s p.2) s := by
  unfold visitFrontier crossings
  rw [if_neg (not_le.mpr hhops), foldl_filter (p := fun p : Edge × Bytes => _),
    foldl_flatMap]
  congr 1
  funext s e
  rw [visitEdge, foldl_map]
  congr 1
  funext s x
  by_cases hx : x = f.key <;> simp [visitTarget, hx]

/-- What is left to go on from after the ends `D` of edges out of the level `h` have been met;
`V` has been visited before. -/
structure NextLevel (V D : List Bytes) (h : ℕ) (s : Exploration) : Prop where
  nodup : (s.next.map Frontier.key).Nodup
  next_iff : ∀ x, x ∈ s.next.map Frontier.key ↔ ((h : ℤ) + 1 < step.maximum ∧ x ∉ V) ∧ x ∈ D
  visited_iff : ∀ x, x ∈ s.visited ↔ x ∈ V ∨ x ∈ s.next.map Frontier.key
  hops : ∀ f ∈ s.next, f.hops = h + 1

variable {g step filter}

variable (filter) in
theorem NextLevel.visitTarget {V D : List Bytes} (e : Edge) (hx : x ≠ f.key)
    (hs : NextLevel step V D f.hops s) :
    NextLevel step V (D ++ [x]) f.hops (visitTarget step filter f e s x) := by
  unfold Graph.visitTarget
  rw [if_neg hx]
  dsimp only
  split
  · rename_i hnew
    obtain ⟨hmore, hunseen⟩ := hnew
    rw [hs.visited_iff, not_or] at hunseen
    push_cast at hmore
    constructor
    · rw [map_append, map_singleton]
      exact nodup_append.mpr ⟨hs.nodup, nodup_singleton x, by
        rintro y hy z hz rfl
        rw [mem_singleton.mp hz] at hy
        exact hunseen.2 hy⟩
    · intro y
      rw [map_append, mem_append, hs.next_iff, mem_append, map_singleton,
        mem_singleton]
      constructor
      · rintro (⟨hold, hy⟩ | rfl)
        · exact ⟨hold, .inl hy⟩
        · exact ⟨⟨hmore, hunseen.1⟩, .inr rfl⟩
      · rintro ⟨hold, hy | rfl⟩
        · exact .inl ⟨hold, hy⟩
        · exact .inr rfl
    · intro y
      rw [mem_cons, hs.visited_iff, map_append, mem_append, map_singleton,
        mem_singleton]
      tauto
    · intro f' hf'
      rcases mem_append.mp hf' with hf' | hf'
      · exact hs.hops f' hf'
      · rw [mem_singleton.mp hf']
  · rename_i hold
    constructor
    · exact hs.nodup
    · intro y
      rw [hs.next_iff, mem_append, mem_singleton]
      constructor
      · rintro ⟨hnext, hy⟩
        exact ⟨hnext, .inl hy⟩
      · rintro ⟨⟨hmore, hy⟩, hmem | rfl⟩
        · exact ⟨⟨hmore, hy⟩, hmem⟩
        · have hseen : y ∈ s.visited := by
            by_contra hunseen
            exact hold ⟨by push_cast; exact hmore, hunseen⟩
          rcases (hs.visited_iff y).mp hseen with hbefore | hnext
          · exact absurd hbefore hy
          · exact (hs.next_iff y).mp hnext
    · exact hs.visited_iff
    · exact hs.hops

theorem visitTarget_results (hx : x ≠ f.key) :
    (visitTarget step filter f e s x).results =
      if step.minimum ≤ (f.hops + 1 : ℕ) ∧ nodePassesPrefixFilter x filter then
        s.results ++ [⟨⟨x, f.hops + 1, none⟩, f.path ++ [⟨f.key, x, e.type, e.weight, e.metadata⟩]⟩]
      else s.results := by
  unfold visitTarget
  rw [if_neg hx]
  dsimp only
  split <;> rfl

theorem visitTarget_keys (hx : x ≠ f.key) :
    resultKeys (visitTarget step filter f e s x).results =
      resultKeys s.results ++ yielded step filter f.hops [x] := by
  rw [visitTarget_results hx]
  unfold yielded
  push_cast
  by_cases hmin : step.minimum ≤ (f.hops : ℤ) + 1 <;>
    by_cases hpre : nodePassesPrefixFilter x filter = true <;> simp [hmin, hpre, resultKeys]

section Frontiers

variable {V : List Bytes}

variable {D : List Bytes} {s : Exploration} {f : Frontier}

theorem foldl_visitTarget {ps : List (Edge × Bytes)} (hps : ∀ p ∈ ps, p.2 ≠ f.key)
    (hs : NextLevel step V D f.hops s) :
    NextLevel step V (D ++ ps.map Prod.snd) f.hops
        (ps.foldl (fun s p => visitTarget step filter f p.1 s p.2) s) ∧
      resultKeys (ps.foldl (fun s p => visitTarget step filter f p.1 s p.2) s).results =
        resultKeys s.results ++ yielded step filter f.hops (ps.map Prod.snd) := by
  induction ps generalizing s D with
  | nil =>
    constructor
    · simpa using hs
    · simp [yielded]
  | cons p ps ih =>
    have hne := hps p mem_cons_self
    obtain ⟨hnext, hkeys⟩ :=
      ih (fun p' hp' => hps p' (mem_cons_of_mem p hp'))
        (hs.visitTarget filter p.1 hne)
    rw [foldl_cons, map_cons]
    constructor
    · simpa using hnext
    · rw [hkeys, visitTarget_keys hne, append_assoc, ← yielded_append]
      rfl

variable (g filter) in
theorem visitFrontier_spec (hhops : (f.hops : ℤ) < step.maximum)
    (hs : NextLevel step V D f.hops s) :
    NextLevel step V (D ++ otherEnds g step f.key) f.hops (visitFrontier g step filter s f) ∧
      resultKeys (visitFrontier g step filter s f).results =
        resultKeys s.results ++ yielded step filter f.hops (otherEnds g step f.key) := by
  rw [visitFrontier_eq g step filter s f hhops]
  apply foldl_visitTarget _ hs
  intro p hp
  exact ((mem_crossings g step).mp hp).2.2.2

variable (g filter) in
theorem foldl_visitFrontier {h : ℕ} {current : List Frontier} (hhops : ∀ f ∈ current, f.hops = h)
    (hmore : (h : ℤ) < step.maximum) (hs : NextLevel step V D h s) :
    NextLevel step V (D ++ current.flatMap fun f => otherEnds g step f.key) h
        (current.foldl (visitFrontier g step filter) s) ∧
      resultKeys (current.foldl (visitFrontier g step filter) s).results =
        resultKeys s.results ++
          current.flatMap fun f => yielded step filter h (otherEnds g step f.key) := by
  induction current generalizing s D with
  | nil =>
    constructor
    · simpa using hs
    · simp
  | cons f current ih =>
    have hf : f.hops = h := hhops f mem_cons_self
    subst hf
    obtain ⟨hnext, hkeys⟩ := visitFrontier_spec g filter hmore hs
    obtain ⟨hnext', hkeys'⟩ := ih (fun f' hf' => hhops f' (mem_cons_of_mem f hf')) hnext
    rw [foldl_cons, flatMap_cons, flatMap_cons]
    constructor
    · simpa using hnext'
    · rw [hkeys', hkeys, append_assoc]

end Frontiers

variable (g step) in
/-- The search is about to look at the nodes at `h` hops; the first level is always looked at. -/
structure Level (v : Bytes) (h : ℕ) (current : List Frontier) (visited : List Bytes) : Prop where
  nodup : (current.map Frontier.key).Nodup
  hops : ∀ f ∈ current, f.hops = h
  keys : ∀ w, w ∈ current.map Frontier.key ↔
    (h = 0 ∨ (h : ℤ) < step.maximum) ∧ AtDistance g step v h w
  visited : (h = 0 ∨ (h : ℤ) < step.maximum) → ∀ x, x ∈ visited ↔
    ∃ t, IsTrail (Crossed g step) v t x ∧ t.length ≤ h

variable (g step) in
theorem level_start (v : Bytes) : Level g step v 0 [⟨v, [], 0⟩] [v] := by
  constructor
  · exact nodup_singleton v
  · intro f hf
    rw [mem_singleton.mp hf]
  · intro w
    rw [map_singleton, mem_singleton, atDistance_zero]
    exact ⟨fun hw => ⟨.inl rfl, hw⟩, fun hw => hw.2⟩
  · intro _ x
    rw [mem_singleton]
    constructor
    · rintro rfl
      exact ⟨[], IsTrail.nil, Nat.le_refl 0⟩
    · rintro ⟨t, ht, hlength⟩
      cases length_eq_zero_iff.mp (Nat.le_zero.mp hlength)
      cases ht
      rfl

variable {h fuel : ℕ} {current : List Frontier} {v : Bytes} {visited : List Bytes}
variable {results : List ReachableNode}

theorem foldl_visitFrontier_of_maximum {s : Exploration} (hhops : ∀ f ∈ current, f.hops = h)
    (hmax : ¬(h : ℤ) < step.maximum) :
    current.foldl (visitFrontier g step filter) s = s := by
  induction current with
  | nil => rfl
  | cons f current ih =>
    have hf : f.hops = h := hhops f mem_cons_self
    have hskip : visitFrontier g step filter s f = s := by
      unfold visitFrontier
      rw [hf, if_pos (not_lt.mp hmax)]
    rw [foldl_cons, hskip]
    exact ih fun f' hf' => hhops f' (mem_cons_of_mem f hf')

theorem Level.next (hl : Level g step v h current visited) (results : List ReachableNode) :
    Level g step v (h + 1) (current.foldl (visitFrontier g step filter) ⟨visited, results, []⟩).next
      (current.foldl (visitFrontier g step filter) ⟨visited, results, []⟩).visited := by
  by_cases hmore : (h : ℤ) < step.maximum
  · have hstart : NextLevel step visited [] h ⟨visited, results, []⟩ := by
      constructor <;> simp
    obtain ⟨hnext, -⟩ := foldl_visitFrontier g filter hl.hops hmore hstart
    rw [nil_append] at hnext
    have hvisited := hl.visited (.inr hmore)
    -- what is new at this level is what is one hop further
    have hnew : ∀ x, (x ∉ visited ∧ x ∈ current.flatMap fun f => otherEnds g step f.key) ↔
        AtDistance g step v (h + 1) x := by
      intro x
      rw [atDistance_succ, hvisited x, mem_flatMap]
      apply and_congr_right
      intro _
      constructor
      · rintro ⟨f, hf, hx⟩
        exact ⟨f.key, ((hl.keys f.key).mp (mem_map_of_mem hf)).2, hx⟩
      · rintro ⟨w, hw, hx⟩
        obtain ⟨f, hf, rfl⟩ := mem_map.mp ((hl.keys w).mpr ⟨.inr hmore, hw⟩)
        exact ⟨f, hf, hx⟩
    constructor
    · exact hnext.nodup
    · exact hnext.hops
    · intro w
      rw [hnext.next_iff, and_assoc, hnew]
      push_cast
      apply and_congr_left
      intro _
      simp
    · intro hgoes x
      have hgoes : (h : ℤ) + 1 < step.maximum := by
        rcases hgoes with hzero | hlt
        · exact absurd hzero (Nat.succ_ne_zero h)
        · exact_mod_cast hlt
      rw [hnext.visited_iff, hnext.next_iff, and_assoc, hnew, within_succ, hvisited x]
      exact or_congr_right (and_iff_right hgoes)
  · rw [foldl_visitFrontier_of_maximum hl.hops hmore]
    have hno : ¬(h + 1 = 0 ∨ ((h + 1 : ℕ) : ℤ) < step.maximum) := by
      rintro (hzero | hlt)
      · exact Nat.succ_ne_zero h hzero
      · push_cast at hlt
        omega
    constructor
    · exact nodup_nil
    · intro f hf
      cases hf
    · intro w
      constructor
      · intro hw
        cases hw
      · intro hw
        exact absurd hw.1 hno
    · intro hgoes
      exact absurd hgoes hno

theorem exploreLevels_succ (hl : Level g step v h current visited)
    (hfuel : step.maximum.toNat < fuel + h) :
    exploreLevels g step filter (fuel + 1) current visited results =
      exploreLevels g step filter fuel current visited results := by
  induction fuel generalizing h current visited results with
  | zero =>
    have hempty : current = [] := by
      rw [← map_eq_nil_iff (f := Frontier.key), eq_nil_iff_forall_not_mem]
      intro w hw
      have hgoes := ((hl.keys w).mp hw).1
      omega
    simp only [exploreLevels, if_pos (Or.inl hempty)]
  | succ fuel ih =>
    rw [exploreLevels.eq_2 g step filter current visited results (fuel + 1),
      exploreLevels.eq_2 g step filter current visited results fuel]
    split
    · rfl
    · exact ih (hl.next results) (by omega)

theorem exploreLevels_enough (v : Bytes) (hfuel : step.maximum.toNat < fuel) :
    exploreLevels g step filter fuel [⟨v, [], 0⟩] [v] [] = findReachableNodes g step filter v := by
  induction fuel, hfuel using Nat.le_induction with
  | base => rfl
  | succ fuel hle ih => rw [exploreLevels_succ (level_start g step v) (by omega), ih]

theorem exploreLevels_documents (hresults : ∀ r ∈ results, r.node.document = none) :
    ∀ r ∈ exploreLevels g step filter fuel current visited results, r.node.document = none := by
  have htarget : ∀ (f : Frontier) (e : Edge) (s : Exploration) (x : Bytes),
      (∀ r ∈ s.results, r.node.document = none) →
        ∀ r ∈ (visitTarget step filter f e s x).results, r.node.document = none := by
    intro f e s x hs r hr
    by_cases hx : x = f.key
    · rw [visitTarget, if_pos hx] at hr
      exact hs r hr
    · rw [visitTarget_results hx] at hr
      split at hr
      · rcases mem_append.mp hr with hr | hr
        · exact hs r hr
        · rw [mem_singleton.mp hr]
      · exact hs r hr
  have hfrontier : ∀ (s : Exploration) (f : Frontier), (∀ r ∈ s.results, r.node.document = none) →
      ∀ r ∈ (visitFrontier g step filter s f).results, r.node.document = none := by
    intro s f hs
    unfold visitFrontier
    split
    · exact hs
    · apply List.foldlRecOn (motive := fun s : Exploration =>
        ∀ r ∈ s.results, r.node.document = none) _ _ hs
      intro s hs e _
      apply List.foldlRecOn (motive := fun s : Exploration =>
        ∀ r ∈ s.results, r.node.document = none) _ _ hs
      intro s hs x _
      exact htarget f e s x hs
  induction fuel generalizing current visited results with
  | zero => exact hresults
  | succ fuel ih =>
    rw [exploreLevels]
    split
    · exact hresults
    · apply ih
      apply List.foldlRecOn (motive := fun s : Exploration =>
        ∀ r ∈ s.results, r.node.document = none) _ _ hresults
      intro s hs f _
      exact hfrontier s f hs

/-- The keys found from the level `h` on: the other ends of the edges out of the nodes `ws` at the
distances in range. -/
theorem exploreLevels_keys (hl : Level g step v h current visited)
    (hfuel : step.maximum.toNat < fuel + h)
    (hlimit : (exploreLevels g step filter fuel current visited results).length < safetyLimit) :
    ∃ ws : List Bytes, ws.Nodup ∧
      (∀ w, w ∈ ws ↔ ∃ k, h ≤ k ∧ (k : ℤ) < step.maximum ∧ step.minimum ≤ k + 1 ∧
        AtDistance g step v k w) ∧
      resultKeys (exploreLevels g step filter fuel current visited results) =
        resultKeys results ++
          ws.flatMap fun w =>
            (otherEnds g step w).filter fun x => nodePassesPrefixFilter x filter := by
  induction fuel generalizing h current visited results with
  | zero =>
    refine ⟨[], nodup_nil, ?_, by rw [exploreLevels]; simp⟩
    intro w
    constructor
    · intro hw
      cases hw
    · rintro ⟨k, hk, hmax, -⟩
      omega
  | succ fuel ih =>
    rw [exploreLevels] at hlimit ⊢
    by_cases hstop : current = [] ∨ safetyLimit ≤ results.length
    · rw [if_pos hstop] at hlimit ⊢
      have hempty : current = [] := hstop.resolve_right (not_le.mpr hlimit)
      refine ⟨[], nodup_nil, ?_, by simp⟩
      intro w
      constructor
      · intro hw
        cases hw
      · rintro ⟨k, hk, hmax, -, hw⟩
        obtain ⟨w', hw'⟩ := hw.earlier hk
        have hmem := (hl.keys w').mpr ⟨.inr (by omega), hw'⟩
        rw [hempty] at hmem
        cases hmem
    · rw [if_neg hstop] at hlimit ⊢
      dsimp only at hlimit ⊢
      obtain ⟨ws, hnodup, hws, hkeys⟩ := ih (hl.next results) (by omega) hlimit
      by_cases hmore : (h : ℤ) < step.maximum
      · have hstart : NextLevel step visited [] h ⟨visited, results, []⟩ := by
          constructor <;> simp
        obtain ⟨-, hlevel⟩ := foldl_visitFrontier g filter hl.hops hmore hstart
        by_cases hmin : step.minimum ≤ (h : ℤ) + 1
        · refine ⟨current.map Frontier.key ++ ws, ?_, ?_, ?_⟩
          · refine nodup_append.mpr ⟨hl.nodup, hnodup, ?_⟩
            rintro w hw _ hw' rfl
            obtain ⟨k, hk, -, -, hdist⟩ := (hws w).mp hw'
            have hsame := ((hl.keys w).mp hw).2.unique hdist
            omega
          · intro w
            rw [mem_append, hl.keys, hws]
            constructor
            · rintro (⟨-, hw⟩ | ⟨k, hk, hw⟩)
              · exact ⟨h, Nat.le_refl h, hmore, hmin, hw⟩
              · exact ⟨k, by omega, hw⟩
            · rintro ⟨k, hk, hmax, hkmin, hw⟩
              rcases Nat.eq_or_lt_of_le hk with rfl | hlt
              · exact .inl ⟨.inr hmore, hw⟩
              · exact .inr ⟨k, hlt, hmax, hkmin, hw⟩
          · rw [hkeys, hlevel, flatMap_append, flatMap_map, append_assoc]
            unfold yielded
            simp only [if_pos hmin]
        · refine ⟨ws, hnodup, ?_, ?_⟩
          · intro w
            rw [hws]
            constructor
            · rintro ⟨k, hk, hw⟩
              exact ⟨k, by omega, hw⟩
            · rintro ⟨k, hk, hmax, hkmin, hw⟩
              exact ⟨k, by omega, hmax, hkmin, hw⟩
          · rw [hkeys, hlevel]
            unfold yielded
            simp [hmin]
      · refine ⟨ws, hnodup, ?_, ?_⟩
        · intro w
          rw [hws]
          constructor
          · rintro ⟨k, hk, hw⟩
            exact ⟨k, by omega, hw⟩
          · rintro ⟨k, hk, hmax, hw⟩
            exact absurd hmax (by omega)
        · rw [hkeys, foldl_visitFrontier_of_maximum hl.hops hmore]

end Levels

end Antfly.Graph
