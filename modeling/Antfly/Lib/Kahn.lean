import Mathlib.Data.List.Basic
import Mathlib.Data.List.Perm.Subperm
import Mathlib.Data.Fintype.Basic
import Mathlib.Order.WellFounded
import Mathlib.Logic.Relation
import Mathlib.Data.Fintype.Order

/-!
Kahn's algorithm over a finite list of names, each with a list of names it depends on.  A name that
is listed twice counts twice.  The names are visited in an arbitrary order after each pop, which is
how a map is iterated.  A name is queued once everything it depends on is sorted, so the algorithm
sorts all names exactly when no name depends on itself through others.
-/

namespace Kahn

open List Function

variable {α : Type*} [DecidableEq α]

structure State (α : Type*) where
  inDegree : α → ℤ
  queue : List α
  sorted : List α

/-- One dependency of `name`, when `current` has been popped. -/
def release (current name : α) (s : State α) (dep : α) : State α :=
  if dep = current then
    let degree := s.inDegree name - 1
    { s with
      inDegree := Function.update s.inDegree name degree
      queue := if degree = 0 then s.queue ++ [name] else s.queue }
  else s

/-- All dependencies on `current`, the names taken in the given order. -/
def releaseAll (deps : α → List α) (current : α) (order : List α) (s : State α) : State α :=
  order.foldl (fun s name => (deps name).foldl (release current name) s) s

def pop (deps : α → List α) (order : List α) (s : State α) : State α :=
  match s.queue with
  | [] => s
  | current :: queue =>
    releaseAll deps current order { s with queue := queue, sorted := s.sorted ++ [current] }

/-- Pops until the queue is empty; the `i`-th pop visits the names in the order `orders i`. -/
def loop (deps : α → List α) (orders : ℕ → List α) : ℕ → State α → State α
  | 0, s => s
  | fuel + 1, s => loop deps (fun i => orders (i + 1)) fuel (pop deps (orders 0) s)

def start (deps : α → List α) (order : List α) : State α :=
  { inDegree := fun name => (deps name).length
    queue := order.filter fun name => (deps name).length = 0
    sorted := [] }

theorem foldl_release (current name : α) (l : List α) (s : State α)
    (hcount : (l.count current : ℤ) ≤ s.inDegree name) :
    l.foldl (release current name) s =
      { inDegree := Function.update s.inDegree name (s.inDegree name - l.count current)
        queue := s.queue ++
          if 0 < l.count current ∧ s.inDegree name = l.count current then [name] else []
        sorted := s.sorted } := by
  induction l generalizing s with
  | nil => simp
  | cons dep l ih =>
    rw [foldl_cons]
    by_cases hdep : dep = current
    · subst hdep
      rw [count_cons_self] at hcount ⊢
      push_cast at hcount ⊢
      have hrest : (l.count dep : ℤ) ≤ (release dep name s dep).inDegree name := by
        simp only [release, if_true, update_self]
        omega
      rw [ih _ hrest]
      simp only [release, if_true, update_self, update_idem]
      congr 1
      · congr 1
        omega
      · by_cases hzero : s.inDegree name - 1 = 0
        · have hnone : l.count dep = 0 := by omega
          rw [if_pos hzero, if_neg (by omega), if_pos ⟨by omega, by omega⟩, append_nil]
        · rw [if_neg hzero]
          congr 1
          apply if_congr _ rfl rfl
          omega
    · rw [count_cons_of_ne hdep] at hcount ⊢
      have hsame : release current name s dep = s := if_neg hdep
      rw [hsame, ih s hcount]

theorem releaseAll_spec (deps : α → List α) (current : α) (order : List α) (s : State α)
    (hnodup : order.Nodup)
    (hcount : ∀ n ∈ order, ((deps n).count current : ℤ) ≤ s.inDegree n) :
    (∀ n, (releaseAll deps current order s).inDegree n =
      if n ∈ order then s.inDegree n - (deps n).count current else s.inDegree n) ∧
    (releaseAll deps current order s).queue = s.queue ++ order.filter (fun n =>
      0 < (deps n).count current ∧ s.inDegree n = (deps n).count current) ∧
    (releaseAll deps current order s).sorted = s.sorted := by
  induction order generalizing s with
  | nil => simp [releaseAll]
  | cons name order ih =>
    obtain ⟨hnot, hnodup⟩ := nodup_cons.mp hnodup
    have hfirst := foldl_release current name (deps name) s (hcount name (mem_cons_self ..))
    have hother : ∀ n ∈ order, ((deps name).foldl (release current name) s).inDegree n =
        s.inDegree n := by
      intro n hn
      rw [hfirst]
      exact update_of_ne (ne_of_mem_of_not_mem hn hnot) _ _
    obtain ⟨hdegree, hqueue, hsorted⟩ := ih ((deps name).foldl (release current name) s) hnodup
      (fun n hn => by
        rw [hother n hn]
        exact hcount n (mem_cons_of_mem _ hn))
    refine ⟨fun n => ?_, ?_, ?_⟩
    · change (releaseAll deps current order _).inDegree n = _
      rw [hdegree n]
      by_cases hn : n = name
      · subst hn
        rw [if_neg hnot, if_pos (mem_cons_self ..), hfirst]
        exact update_self ..
      · have hmem : n ∈ name :: order ↔ n ∈ order := by simp [hn]
        have hsame : ((deps name).foldl (release current name) s).inDegree n = s.inDegree n := by
          rw [hfirst]
          exact update_of_ne hn _ _
        rw [hsame]
        exact if_congr hmem.symm rfl rfl
    · change (releaseAll deps current order _).queue = _
      have hfilter : (order.filter fun n => 0 < (deps n).count current ∧
          ((deps name).foldl (release current name) s).inDegree n = (deps n).count current) =
          order.filter fun n => 0 < (deps n).count current ∧
            s.inDegree n = (deps n).count current := by
        apply filter_congr
        intro n hn
        rw [hother n hn]
      rw [hqueue, hfilter, hfirst, filter_cons]
      by_cases hready : 0 < (deps name).count current ∧
          s.inDegree name = (deps name).count current
      · rw [if_pos hready, if_pos (by simpa using hready), append_assoc]
        rfl
      · rw [if_neg hready, if_neg (by simpa using hready), append_nil]
    · change (releaseAll deps current order _).sorted = _
      rw [hsorted, hfirst]

/-- A name is queued or sorted exactly when all it depends on is sorted, and whatever is sorted
stands behind what it depends on. -/
structure Sound (names : List α) (deps : α → List α) (s : State α) : Prop where
  nodup : (s.sorted ++ s.queue).Nodup
  degree : ∀ n ∈ names, s.inDegree n = (deps n).countP fun d => d ∉ s.sorted
  ready : ∀ n, n ∈ s.sorted ++ s.queue ↔ n ∈ names ∧ s.inDegree n = 0
  placed : ∀ before a after, s.sorted = before ++ a :: after → ∀ d ∈ deps a, d ∈ before

variable {names : List α} {deps : α → List α} {s : State α}

variable {order queue : List α} {current n : α} {fuel : ℕ} {orders : ℕ → List α}

theorem sound_start (hnames : names.Nodup) (horder : order.Perm names) :
    Sound names deps (start deps order) := by
  constructor
  · exact (horder.nodup_iff.mpr hnames).filter _
  · intro n _
    have hall : (deps n).countP (fun d => d ∉ (start deps order).sorted) = (deps n).length :=
      countP_eq_length.mpr fun d _ => by simp [start]
    rw [hall]
    rfl
  · intro n
    simp only [start, nil_append, mem_filter, horder.mem_iff, decide_eq_true_eq,
      Int.natCast_eq_zero]
  · intro before a after hsorted
    have hlength := congrArg List.length hsorted
    simp [start] at hlength

theorem countP_notMem_append (l sorted : List α) (h : current ∉ sorted) :
    l.countP (fun d => d ∉ sorted) =
      l.countP (fun d => d ∉ sorted ++ [current]) + l.count current := by
  induction l with
  | nil => rfl
  | cons d l ih =>
    rw [countP_cons, countP_cons, count_cons, ih]
    by_cases hd : d = current
    · subst hd
      simp [h]
      omega
    · simp [hd]
      omega

theorem Sound.notMem_sorted (h : Sound names deps s) (hqueue : s.queue = current :: queue) :
    current ∉ s.sorted := by
  have hnodup := h.nodup
  rw [hqueue] at hnodup
  intro hmem
  exact (nodup_append.mp hnodup).2.2 current hmem current (mem_cons_self ..) rfl

theorem Sound.degree_eq (h : Sound names deps s) (hqueue : s.queue = current :: queue)
    (hn : n ∈ names) :
    s.inDegree n =
      ((deps n).countP fun d => d ∉ s.sorted ++ [current]) + (deps n).count current := by
  rw [h.degree n hn, countP_notMem_append _ _ (h.notMem_sorted hqueue)]
  push_cast
  rfl

theorem Sound.count_le (h : Sound names deps s) (hqueue : s.queue = current :: queue)
    (hn : n ∈ names) :
    ((deps n).count current : ℤ) ≤ s.inDegree n := by
  rw [h.degree_eq hqueue hn]
  omega

theorem Sound.pop (h : Sound names deps s) (hnames : names.Nodup) (horder : order.Perm names) :
    Sound names deps (pop deps order s) := by
  unfold Kahn.pop
  split
  · exact h
  · rename_i current queue hqueue
    have hnodup := h.nodup
    rw [hqueue] at hnodup
    have hready : ∀ n, n ∈ s.sorted ++ current :: queue ↔ n ∈ names ∧ s.inDegree n = 0 := by
      rw [← hqueue]
      exact h.ready
    have hdegree : ∀ n ∈ names, s.inDegree n =
        ((deps n).countP fun d => d ∉ s.sorted ++ [current]) + (deps n).count current :=
      fun n hn => h.degree_eq hqueue hn
    obtain ⟨hafter, hqueued, hsorted⟩ := releaseAll_spec deps current order
      { s with queue := queue, sorted := s.sorted ++ [current] }
      (horder.nodup_iff.mpr hnames) fun n hn => h.count_le hqueue (horder.mem_iff.mp hn)
    have hnew : ∀ n ∈ names, (releaseAll deps current order
        { s with queue := queue, sorted := s.sorted ++ [current] }).inDegree n =
          (deps n).countP fun d => d ∉ s.sorted ++ [current] := by
      intro n hn
      rw [hafter n, if_pos (horder.mem_iff.mpr hn)]
      change s.inDegree n - _ = _
      rw [hdegree n hn]
      omega
    have happend : s.sorted ++ current :: queue = s.sorted ++ [current] ++ queue := by simp
    have hplaced : ∀ d ∈ deps current, d ∈ s.sorted := by
      intro d hd
      by_contra hmissing
      obtain ⟨hmem, hzero⟩ := (hready current).mp (by simp)
      rw [h.degree current hmem] at hzero
      have hnone := countP_eq_zero.mp (Int.natCast_eq_zero.mp hzero) d hd
      exact hnone (decide_eq_true hmissing)
    constructor
    · rw [hsorted, hqueued, ← append_assoc, ← happend]
      apply List.Nodup.append hnodup ((horder.nodup_iff.mpr hnames).filter _)
      intro n hn hfilter
      obtain ⟨-, hfilter⟩ := mem_filter.mp hfilter
      obtain ⟨hpos, hcount⟩ := of_decide_eq_true hfilter
      have hzero := ((hready n).mp hn).2
      change s.inDegree n = _ at hcount
      omega
    · intro n hn
      rw [hsorted, hnew n hn]
    · intro n
      rw [hsorted, hqueued, ← append_assoc, ← happend, mem_append, hready n,
        mem_filter, horder.mem_iff, decide_eq_true_eq]
      constructor
      · rintro (⟨hn, hzero⟩ | ⟨hn, -, hcount⟩)
        · refine ⟨hn, ?_⟩
          have := hdegree n hn
          rw [hnew n hn]
          omega
        · refine ⟨hn, ?_⟩
          change s.inDegree n = _ at hcount
          have := hdegree n hn
          rw [hnew n hn]
          omega
      · rintro ⟨hn, hzero⟩
        rw [hnew n hn] at hzero
        have hsum := hdegree n hn
        by_cases hpos : 0 < (deps n).count current
        · refine Or.inr ⟨hn, hpos, ?_⟩
          change s.inDegree n = _
          omega
        · exact Or.inl ⟨hn, by omega⟩
    · intro before a after hsplit d hd
      rw [hsorted] at hsplit
      rcases eq_nil_or_concat after with rfl | ⟨rest, last, rfl⟩
      · obtain ⟨hbefore, hlast⟩ := append_inj' hsplit rfl
        cases hlast
        exact hbefore ▸ hplaced d hd
      · rw [concat_eq_append, ← cons_append, ← append_assoc] at hsplit
        exact h.placed before a rest (append_inj' hsplit rfl).1 d hd

theorem pop_of_queue_nil (h : s.queue = []) : pop deps order s = s := by
  unfold pop
  rw [h]

theorem loop_of_queue_nil (h : s.queue = []) : loop deps orders fuel s = s := by
  induction fuel generalizing orders with
  | zero => rfl
  | succ fuel ih =>
    rw [loop, pop_of_queue_nil h]
    exact ih

theorem length_sorted_pop (h : Sound names deps s) (hnames : names.Nodup)
    (horder : order.Perm names) (hqueue : s.queue ≠ []) :
    (pop deps order s).sorted.length = s.sorted.length + 1 := by
  unfold pop
  split
  · contradiction
  · rename_i current queue hqueue
    obtain ⟨-, -, hsorted⟩ := releaseAll_spec deps current order
      { s with queue := queue, sorted := s.sorted ++ [current] }
      (horder.nodup_iff.mpr hnames) fun n hn => h.count_le hqueue (horder.mem_iff.mp hn)
    rw [hsorted]
    exact length_append

theorem Sound.loop (h : Sound names deps s) (hnames : names.Nodup)
    (horders : ∀ i, (orders i).Perm names) (hfuel : names.length ≤ s.sorted.length + fuel) :
    Sound names deps (loop deps orders fuel s) ∧ (loop deps orders fuel s).queue = [] := by
  induction fuel generalizing s orders with
  | zero =>
    refine ⟨h, ?_⟩
    have hsub : (s.sorted ++ s.queue).length ≤ names.length :=
      (h.nodup.subperm fun n hn => ((h.ready n).mp hn).1).length_le
    rw [length_append] at hsub
    have hnone : s.queue.length = 0 := by omega
    exact length_eq_zero_iff.mp hnone
  | succ fuel ih =>
    by_cases hqueue : s.queue = []
    · rw [loop_of_queue_nil hqueue]
      exact ⟨h, hqueue⟩
    · apply ih (h.pop hnames (horders 0)) fun i => horders (i + 1)
      rw [length_sorted_pop h hnames (horders 0) hqueue]
      omega

def DependsOn (names : List α) (deps : α → List α) (a b : α) : Prop :=
  a ∈ names ∧ b ∈ deps a

theorem Sound.idxOf_lt (h : Sound names deps s) {a b : α} (ha : a ∈ s.sorted) (hb : b ∈ deps a) :
    s.sorted.idxOf b < s.sorted.idxOf a := by
  obtain ⟨before, after, hsplit⟩ := append_of_mem ha
  have hbefore := h.placed before a after hsplit b hb
  have hnot : a ∉ before := by
    have hnodup := (nodup_append.mp h.nodup).1
    rw [hsplit] at hnodup
    intro hmem
    exact (nodup_append.mp hnodup).2.2 a hmem a (mem_cons_self ..) rfl
  rw [hsplit, idxOf_append_of_mem hbefore, idxOf_append_of_notMem hnot]
  exact Nat.lt_of_lt_of_le (idxOf_lt_length_of_mem hbefore) (Nat.le_add_right _ _)

theorem Sound.perm_of_length_eq (h : Sound names deps s)
    (hlength : s.sorted.length = names.length) : s.sorted.Perm names := by
  have hnodup := (nodup_append.mp h.nodup).1
  have hsub : s.sorted ⊆ names := fun n hn => ((h.ready n).mp (mem_append_left _ hn)).1
  exact (hnodup.subperm hsub).perm_of_length_le hlength.ge

/-- The algorithm leaves names over exactly when some name depends on itself through others. -/
theorem Sound.length_ne_iff (h : Sound names deps s) (hnames : names.Nodup)
    (hdeps : ∀ n ∈ names, ∀ d ∈ deps n, d ∈ names) (hqueue : s.queue = []) :
    s.sorted.length ≠ names.length ↔ ∃ n, Relation.TransGen (DependsOn names deps) n n := by
  constructor
  · intro hlength
    by_contra hcycle
    let r : {x // x ∈ names} → {x // x ∈ names} → Prop := fun x y =>
      Relation.TransGen (DependsOn names deps) y.1 x.1
    have htrans : IsTrans _ r := ⟨fun _ _ _ hxy hyz => hyz.trans hxy⟩
    have hirrefl : Std.Irrefl r := ⟨fun x hx => hcycle ⟨x.1, hx⟩⟩
    have hwf : WellFounded r := Finite.wellFounded_of_trans_of_irrefl r
    have hleft : ∃ n ∈ names, n ∉ s.sorted := by
      by_contra hall
      have hsub : names ⊆ s.sorted := by
        intro n hn
        by_contra hnot
        exact hall ⟨n, hn, hnot⟩
      have hle := (hnames.subperm hsub).length_le
      have hsub' : s.sorted ⊆ names := fun n hn => ((h.ready n).mp (mem_append_left _ hn)).1
      have hle' := ((nodup_append.mp h.nodup).1.subperm hsub').length_le
      omega
    obtain ⟨n, hn, hnot⟩ := hleft
    obtain ⟨m, hm, hmin⟩ := hwf.has_min {x | x.1 ∉ s.sorted} ⟨⟨n, hn⟩, hnot⟩
    have hdegree : s.inDegree m.1 ≠ 0 := by
      intro hzero
      have hready := (h.ready m.1).mpr ⟨m.2, hzero⟩
      rw [hqueue, append_nil] at hready
      exact hm hready
    rw [h.degree m.1 m.2, Ne, Int.natCast_eq_zero, countP_eq_zero] at hdegree
    push Not at hdegree
    obtain ⟨d, hd, hmissing⟩ := hdegree
    exact hmin ⟨d, hdeps m.1 m.2 d hd⟩ (of_decide_eq_true hmissing) (.single ⟨m.2, hd⟩)
  · rintro ⟨n, hcycle⟩ hlength
    have hperm := h.perm_of_length_eq hlength
    have hlt : ∀ a b, Relation.TransGen (DependsOn names deps) a b →
        s.sorted.idxOf b < s.sorted.idxOf a := by
      intro a b hab
      induction hab with
      | single hab => exact h.idxOf_lt (hperm.mem_iff.mpr hab.1) hab.2
      | tail _ hbc ih => exact (h.idxOf_lt (hperm.mem_iff.mpr hbc.1) hbc.2).trans ih
    exact lt_irrefl _ (hlt n n hcycle)

end Kahn
