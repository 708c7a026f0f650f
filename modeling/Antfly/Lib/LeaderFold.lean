import Mathlib.Data.List.Induction
import Mathlib.Data.List.Nodup
import Mathlib.Data.List.Perm.Basic

/-!
Nodes report a value and the node they take for the leader; `0` means that they know none.  A view
is folded from the reports in some order: a report by the node the view takes for the leader, and a
report by a node that takes itself for the leader, replace the view; every other report fills in
what the view lacks, and its value, if it has one, wins over the value of the view.

The fold is meant to be independent of the order.  It is so exactly when the reports agree in the
sense of `Agrees` (for the value) and `LeadKnown` (for whether a leader is known at all).
-/

universe u

namespace LeaderFold

open List

structure Report (α : Type u) where
  id : ℕ
  lead : ℕ
  value : Option α

structure View (α : Type u) where
  lead : ℕ
  value : Option α

variable {α : Type u}

/-- `s` takes `m` for the leader. -/
def Report.Names (s m : Report α) : Prop := s.lead ≠ 0 ∧ s.lead = m.id

/-- A leader's own report. -/
def Report.SelfLeads (r : Report α) : Prop := r.Names r

instance (s m : Report α) : Decidable (s.Names m) := inferInstanceAs (Decidable (_ ∧ _))

instance (r : Report α) : Decidable r.SelfLeads := inferInstanceAs (Decidable (r.Names r))

def View.take (v : View α) (r : Report α) : View α :=
  let v₁ := if v.lead ≠ 0 ∧ v.lead = r.id then ⟨r.lead, r.value⟩ else v
  let v₂ := if r.SelfLeads then ⟨r.lead, r.value⟩ else v₁
  ⟨if v₂.lead = 0 then r.lead else v₂.lead, r.value.or v₂.value⟩

def start : View α := ⟨0, none⟩

def fold (rs : List (Report α)) : View α := rs.foldl View.take start

variable {r l s n : Report α} {v : View α} {x : α} {rs p : List (Report α)}

theorem take_of_selfLeads (v : View α) (h : r.SelfLeads) : v.take r = ⟨r.id, r.value⟩ := by
  have hid : r.lead = r.id := h.2
  simp only [View.take, if_pos h, Option.or_self, hid, ite_self]

theorem take_of_named (h : ¬ r.SelfLeads) (hv : v.lead ≠ 0) (hid : v.lead = r.id) :
    v.take r = ⟨r.lead, r.value⟩ := by
  simp only [View.take, if_neg h, if_pos (And.intro hv hid), Option.or_self, ite_self]

theorem take_of_other (h : ¬ r.SelfLeads) (hv : v.lead ≠ 0) (hid : v.lead ≠ r.id) :
    v.take r = ⟨v.lead, r.value.or v.value⟩ := by
  have hnot : ¬ (v.lead ≠ 0 ∧ v.lead = r.id) := fun hand => hid hand.2
  simp only [View.take, if_neg h, if_neg hnot, if_neg hv]

theorem take_of_unknown (h : ¬ r.SelfLeads) (hv : v.lead = 0) :
    v.take r = ⟨r.lead, r.value.or v.value⟩ := by
  have hnot : ¬ (v.lead ≠ 0 ∧ v.lead = r.id) := fun hand => hand.1 hv
  simp only [View.take, if_neg h, if_neg hnot, if_pos hv]

theorem take_value_of_some (v : View α) (hx : r.value = some x) : (v.take r).value = some x := by
  simp [View.take, hx]

theorem take_lead_ne_zero (v : View α) (hr : r.lead ≠ 0) : (v.take r).lead ≠ 0 := by
  by_cases hself : r.SelfLeads
  · rw [take_of_selfLeads v hself, ← hself.2]
    exact hr
  · by_cases hv : v.lead = 0
    · rw [take_of_unknown hself hv]
      exact hr
    · by_cases hid : v.lead = r.id
      · rw [take_of_named hself hv hid]
        exact hr
      · rw [take_of_other hself hv hid]
        exact hv

theorem fold_append_singleton (rs : List (Report α)) (r : Report α) :
    fold (rs ++ [r]) = (fold rs).take r := by
  simp [fold]

theorem exists_value (h : (fold rs).value = some x) : ∃ r ∈ rs, r.value = some x := by
  induction rs using List.reverseRecOn with
  | nil => cases h
  | append_singleton rs r ih =>
    rw [fold_append_singleton] at h
    cases hr : r.value with
    | some y =>
      rw [take_value_of_some _ hr] at h
      exact ⟨r, by simp, by rw [hr, h]⟩
    | none =>
      have hold : (fold rs).value = some x := by
        by_cases hself : r.SelfLeads
        · rw [take_of_selfLeads _ hself, hr] at h
          cases h
        · by_cases hv : (fold rs).lead = 0
          · rw [take_of_unknown hself hv, hr] at h
            exact h
          · by_cases hid : (fold rs).lead = r.id
            · rw [take_of_named hself hv hid, hr] at h
              cases h
            · rw [take_of_other hself hv hid, hr] at h
              exact h
      obtain ⟨r', hr', hx⟩ := ih hold
      exact ⟨r', mem_append_left _ hr', hx⟩

theorem exists_lead (h : (fold rs).lead ≠ 0) : ∃ r ∈ rs, r.lead = (fold rs).lead := by
  induction rs using List.reverseRecOn with
  | nil => exact absurd rfl h
  | append_singleton rs r ih =>
    rw [fold_append_singleton] at h ⊢
    by_cases hself : r.SelfLeads
    · rw [take_of_selfLeads _ hself]
      exact ⟨r, by simp, hself.2⟩
    · by_cases hv : (fold rs).lead = 0
      · rw [take_of_unknown hself hv]
        exact ⟨r, by simp, rfl⟩
      · by_cases hid : (fold rs).lead = r.id
        · rw [take_of_named hself hv hid]
          exact ⟨r, by simp, rfl⟩
        · rw [take_of_other hself hv hid] at h ⊢
          obtain ⟨r', hr', hlead⟩ := ih hv
          exact ⟨r', mem_append_left _ hr', hlead⟩

/-- Distinct nodes, at most one of which leads. -/
structure WellReported (rs : List (Report α)) : Prop where
  nodup : (rs.map Report.id).Nodup
  leader : ∀ r ∈ rs, ∀ r' ∈ rs, r.SelfLeads → r'.SelfLeads → r = r'

theorem WellReported.perm (h : WellReported rs) (hp : p.Perm rs) :
    WellReported p where
  nodup := (hp.map Report.id).nodup_iff.mpr h.nodup
  leader := fun r hr r' hr' => h.leader r (hp.subset hr) r' (hp.subset hr')

private theorem foldl_after_leader (hl : l.SelfLeads) (hv : v.lead = l.id)
    (hids : ∀ r ∈ rs, r.id ≠ l.id) (hself : ∀ r ∈ rs, ¬ r.SelfLeads)
    (hvals : ∀ r ∈ rs, r.value = none ∨ r.value = v.value) :
    rs.foldl View.take v = v := by
  induction rs with
  | nil => rfl
  | cons r rs ih =>
    have hne : v.lead ≠ 0 := by
      rw [hv, ← hl.2]
      exact hl.1
    have hid : v.lead ≠ r.id := by
      rw [hv]
      exact (hids r mem_cons_self).symm
    have hor : r.value.or v.value = v.value := by
      rcases hvals r mem_cons_self with h | h
      · rw [h, Option.none_or]
      · rw [h, Option.or_self]
    rw [foldl_cons, take_of_other (hself r mem_cons_self) hne hid, hor]
    exact ih (fun r hr => hids r (mem_cons_of_mem _ hr))
      (fun r hr => hself r (mem_cons_of_mem _ hr))
      (fun r hr => hvals r (mem_cons_of_mem _ hr))

private theorem foldl_lead_after_leader (hl : l.SelfLeads) (hv : v.lead = l.id)
    (hids : ∀ r ∈ rs, r.id ≠ l.id) (hself : ∀ r ∈ rs, ¬ r.SelfLeads) :
    (rs.foldl View.take v).lead = l.id := by
  induction rs generalizing v with
  | nil => exact hv
  | cons r rs ih =>
    have hne : v.lead ≠ 0 := by
      rw [hv, ← hl.2]
      exact hl.1
    have hid : v.lead ≠ r.id := by
      rw [hv]
      exact (hids r mem_cons_self).symm
    rw [foldl_cons, take_of_other (hself r mem_cons_self) hne hid]
    exact ih hv (fun r hr => hids r (mem_cons_of_mem _ hr))
      (fun r hr => hself r (mem_cons_of_mem _ hr))

private theorem WellReported.split (h : WellReported rs) (hl : l ∈ rs) (hself : l.SelfLeads) :
    ∃ before after, rs = before ++ l :: after ∧ (∀ r ∈ after, r.id ≠ l.id) ∧
      ∀ r ∈ after, ¬ r.SelfLeads := by
  obtain ⟨before, after, rfl⟩ := append_of_mem hl
  have hnodup := h.nodup
  rw [map_append, map_cons, nodup_append, nodup_cons] at hnodup
  have hids : ∀ r ∈ after, r.id ≠ l.id := by
    intro r hr heq
    exact hnodup.2.1.1 (heq ▸ mem_map_of_mem hr)
  refine ⟨before, after, rfl, hids, fun r hr hrself => ?_⟩
  have heq := h.leader r (mem_append_right _ (mem_cons_of_mem _ hr)) l hl hrself hself
  exact hids r hr (congrArg Report.id heq)

theorem lead_of_leader (h : WellReported rs) (hl : l ∈ rs) (hself : l.SelfLeads) :
    (fold rs).lead = l.id := by
  obtain ⟨before, after, rfl, hids, hafter⟩ := h.split hl hself
  rw [fold, foldl_append, foldl_cons, take_of_selfLeads _ hself]
  exact foldl_lead_after_leader hself rfl hids hafter

theorem value_of_leader (h : WellReported rs) (hl : l ∈ rs) (hself : l.SelfLeads)
    (hvals : ∀ r ∈ rs, r.value = none ∨ r.value = l.value) :
    (fold rs).value = l.value := by
  obtain ⟨before, after, rfl, hids, hafter⟩ := h.split hl hself
  rw [fold, foldl_append, foldl_cons, take_of_selfLeads _ hself,
    foldl_after_leader hself rfl hids hafter]
  exact fun r hr => hvals r (mem_append_right _ (mem_cons_of_mem _ hr))

theorem value_ne_none (hself : ∀ r ∈ rs, ¬ r.SelfLeads)
    (hnames : ∀ s ∈ rs, ∀ n ∈ rs, s.Names n → n.value ≠ none) (h : ∃ r ∈ rs, r.value ≠ none) :
    (fold rs).value ≠ none := by
  induction rs using List.reverseRecOn with
  | nil =>
    obtain ⟨r, hr, -⟩ := h
    cases hr
  | append_singleton rs r ih =>
    have hmem : r ∈ rs ++ [r] := by simp
    rw [fold_append_singleton]
    cases hr : r.value with
    | some x =>
      rw [take_value_of_some _ hr]
      exact Option.some_ne_none x
    | none =>
      have hprev : (fold rs).value ≠ none := by
        refine ih (fun r hr => hself r (mem_append_left _ hr))
          (fun s hs n hn => hnames s (mem_append_left _ hs) n (mem_append_left _ hn)) ?_
        obtain ⟨r', hr', hval⟩ := h
        rcases mem_append.mp hr' with hr' | hr'
        · exact ⟨r', hr', hval⟩
        · rw [mem_singleton.mp hr'] at hval
          exact absurd hr hval
      by_cases hv : (fold rs).lead = 0
      · rw [take_of_unknown (hself r hmem) hv, hr]
        exact hprev
      · have hid : (fold rs).lead ≠ r.id := by
          intro hid
          obtain ⟨s, hs, hlead⟩ := exists_lead hv
          refine hnames s (mem_append_left _ hs) r hmem ⟨?_, ?_⟩ hr
          · rw [hlead]
            exact hv
          · rw [hlead, hid]
        rw [take_of_other (hself r hmem) hv hid, hr]
        exact hprev

theorem lead_ne_zero (hself : ∀ r ∈ rs, ¬ r.SelfLeads)
    (hnames : ∀ s ∈ rs, ∀ n ∈ rs, s.Names n → n.lead ≠ 0) (h : ∃ r ∈ rs, r.lead ≠ 0) :
    (fold rs).lead ≠ 0 := by
  induction rs using List.reverseRecOn with
  | nil =>
    obtain ⟨r, hr, -⟩ := h
    cases hr
  | append_singleton rs r ih =>
    have hmem : r ∈ rs ++ [r] := by simp
    rw [fold_append_singleton]
    by_cases hr : r.lead = 0
    · have hprev : (fold rs).lead ≠ 0 := by
        refine ih (fun r hr => hself r (mem_append_left _ hr))
          (fun s hs n hn => hnames s (mem_append_left _ hs) n (mem_append_left _ hn)) ?_
        obtain ⟨r', hr', hlead⟩ := h
        rcases mem_append.mp hr' with hr' | hr'
        · exact ⟨r', hr', hlead⟩
        · rw [mem_singleton.mp hr'] at hlead
          exact absurd hr hlead
      have hid : (fold rs).lead ≠ r.id := by
        intro hid
        obtain ⟨s, hs, hlead⟩ := exists_lead hprev
        refine hnames s (mem_append_left _ hs) r hmem ⟨?_, ?_⟩ hr
        · rw [hlead]
          exact hprev
        · rw [hlead, hid]
      rw [take_of_other (hself r hmem) hprev hid]
      exact hprev
    · exact take_lead_ne_zero _ hr

/-- The first report names the last one: the view waits for the named node and then takes over
what that node lacks. -/
theorem fold_named_last (hnames : s.Names n) (hself : ∀ r ∈ s :: (rs ++ [n]), ¬ r.SelfLeads)
    (hids : ∀ r ∈ rs, r.id ≠ n.id) :
    fold (s :: (rs ++ [n])) = ⟨n.lead, n.value⟩ := by
  have hmiddle : ∀ v : View α, v.lead = n.id → (∀ r ∈ rs, ¬ r.SelfLeads) →
      (rs.foldl View.take v).lead = n.id := by
    clear hself
    induction rs with
    | nil => exact fun v hv _ => hv
    | cons r rs ih =>
      intro v hv hself
      have hne : v.lead ≠ 0 := by
        rw [hv, ← hnames.2]
        exact hnames.1
      have hid : v.lead ≠ r.id := by
        rw [hv]
        exact (hids r mem_cons_self).symm
      rw [foldl_cons, take_of_other (hself r mem_cons_self) hne hid]
      exact ih (fun r hr => hids r (mem_cons_of_mem _ hr)) _ hv
        fun r hr => hself r (mem_cons_of_mem _ hr)
  have hfirst : (View.take start s).lead = n.id := by
    rw [take_of_unknown (hself s mem_cons_self) rfl]
    exact hnames.2
  have hlead := hmiddle _ hfirst fun r hr =>
    hself r (mem_cons_of_mem _ (mem_append_left _ hr))
  rw [← cons_append, fold_append_singleton]
  refine take_of_named (hself n (by simp)) ?_ hlead
  change (rs.foldl View.take (View.take start s)).lead ≠ 0
  rw [hlead, ← hnames.2]
  exact hnames.1

/-- The reported values agree: no two of them differ, a leader that reports none is contradicted by
nobody, and without a leader no report names a node that lacks a value others report. -/
structure Agrees (rs : List (Report α)) : Prop where
  values : ∀ r ∈ rs, ∀ r' ∈ rs, r.value ≠ none → r'.value ≠ none → r.value = r'.value
  cleared : ∀ l ∈ rs, l.SelfLeads → l.value = none → ∀ r ∈ rs, r.value = none
  named : (∀ r ∈ rs, ¬ r.SelfLeads) → (∃ r ∈ rs, r.value ≠ none) →
    ∀ s ∈ rs, ∀ n ∈ rs, s.Names n → n.value ≠ none

/-- A leader reports, or no report names a node that knows no leader. -/
def LeadKnown (rs : List (Report α)) : Prop :=
  (∃ r ∈ rs, r.SelfLeads) ∨ ∀ s ∈ rs, ∀ n ∈ rs, s.Names n → n.lead ≠ 0

/-- The value the folds have to end with: the leader's, or the one that is reported. -/
def Settled (rs : List (Report α)) : Prop :=
  ∀ p : List (Report α), p.Perm rs → (fold p).value = (fold rs).value ∧
    ∀ l ∈ rs, l.SelfLeads → (fold p).value = l.value

private theorem exists_perm_last (hr : r ∈ rs) : ∃ others, (others ++ [r]).Perm rs := by
  obtain ⟨before, after, rfl⟩ := append_of_mem hr
  refine ⟨before ++ after, ?_⟩
  rw [append_assoc]
  exact (perm_append_comm).append_left before

private theorem exists_perm_first_last (hs : s ∈ rs) (hn : n ∈ rs) (hne : s ≠ n) :
    ∃ others, (s :: (others ++ [n])).Perm rs := by
  obtain ⟨before, after, rfl⟩ := append_of_mem hs
  have hn' : n ∈ before ++ after := by
    rcases mem_append.mp hn with hn | hn
    · exact mem_append_left _ hn
    · exact mem_append_right _ ((mem_cons.mp hn).resolve_left hne.symm)
  obtain ⟨others, hperm⟩ := exists_perm_last hn'
  exact ⟨others, (hperm.cons s).trans perm_middle.symm⟩

/-- A node named by another one can report last, after the view has come to wait for it. -/
private theorem exists_perm_named (h : WellReported rs) (hself : ∀ r ∈ rs, ¬ r.SelfLeads)
    (hs : s ∈ rs) (hn : n ∈ rs) (hnames : s.Names n) :
    ∃ p : List (Report α), p.Perm rs ∧ fold p = ⟨n.lead, n.value⟩ := by
  have hne : s ≠ n := by
    rintro rfl
    exact hself s hs hnames
  obtain ⟨others, hperm⟩ := exists_perm_first_last hs hn hne
  refine ⟨_, hperm, fold_named_last hnames (fun r hr => hself r (hperm.subset hr)) ?_⟩
  intro r hr heq
  have hnodup := (h.perm hperm).nodup
  rw [map_cons, map_append, nodup_cons, nodup_append] at hnodup
  exact hnodup.2.2.2 r.id (mem_map_of_mem hr) n.id (by simp) heq

theorem value_eq_some_iff (h : WellReported rs) (hagrees : Agrees rs) (hp : p.Perm rs) :
    (fold p).value = some x ↔ ∃ r ∈ rs, r.value = some x := by
  constructor
  · intro hx
    obtain ⟨r, hr, hval⟩ := exists_value hx
    exact ⟨r, hp.subset hr, hval⟩
  · rintro ⟨r, hr, hval⟩
    have hrval : r.value ≠ none := by
      rw [hval]
      exact Option.some_ne_none x
    by_cases hleader : ∃ l ∈ rs, l.SelfLeads
    · obtain ⟨l, hl, hself⟩ := hleader
      have hlval : l.value ≠ none := fun hnone => hrval (hagrees.cleared l hl hself hnone r hr)
      have hvals : ∀ r' ∈ p, r'.value = none ∨ r'.value = l.value := by
        intro r' hr'
        by_cases hnone : r'.value = none
        · exact .inl hnone
        · exact .inr (hagrees.values r' (hp.subset hr') l hl hnone hlval)
      rw [value_of_leader (h.perm hp) (hp.symm.subset hl) hself hvals,
        hagrees.values l hl r hr hlval hrval, hval]
    · have hself : ∀ r ∈ rs, ¬ r.SelfLeads := fun r hr hr' => hleader ⟨r, hr, hr'⟩
      have hne : (fold p).value ≠ none := by
        refine value_ne_none (fun r hr => hself r (hp.subset hr)) ?_ ⟨r, hp.symm.subset hr, hrval⟩
        exact fun s hs n hn => hagrees.named hself ⟨r, hr, hrval⟩ s (hp.subset hs) n (hp.subset hn)
      obtain ⟨y, hy⟩ := Option.ne_none_iff_exists'.mp hne
      obtain ⟨r', hr', hval'⟩ := exists_value hy
      have hsame := hagrees.values r' (hp.subset hr') r hr (by simp [hval']) hrval
      rw [hy, ← hval', hsame, hval]

/-- The folds of all orders end with one value, the leader's if it reports, exactly when the
reports agree. -/
theorem settled_iff (h : WellReported rs) : Settled rs ↔ Agrees rs := by
  constructor
  · intro hsettled
    have hlast : ∀ r ∈ rs, r.value ≠ none → (fold rs).value = r.value := by
      intro r hr hval
      obtain ⟨others, hperm⟩ := exists_perm_last hr
      obtain ⟨x, hx⟩ := Option.ne_none_iff_exists'.mp hval
      have heq := (hsettled _ hperm).1
      rw [fold_append_singleton, take_value_of_some _ hx] at heq
      rw [← heq, hx]
    refine ⟨fun r hr r' hr' hv hv' => (hlast r hr hv).symm.trans (hlast r' hr' hv'), ?_, ?_⟩
    · intro l hl hself hnone r hr
      by_contra hval
      have hleader := (hsettled rs (List.Perm.refl rs)).2 l hl hself
      rw [hlast r hr hval, hnone] at hleader
      exact hval hleader
    · rintro hself ⟨r, hr, hval⟩ s hs n hn hnames hnone
      obtain ⟨p, hperm, hfold⟩ := exists_perm_named h hself hs hn hnames
      have heq := (hsettled p hperm).1
      rw [hfold, hlast r hr hval, hnone] at heq
      exact hval heq.symm
  · intro hagrees p hp
    have hsame : (fold p).value = (fold rs).value := by
      ext x
      rw [value_eq_some_iff h hagrees hp, value_eq_some_iff h hagrees (List.Perm.refl rs)]
    refine ⟨hsame, fun l hl hself => ?_⟩
    ext x
    rw [value_eq_some_iff h hagrees hp]
    constructor
    · rintro ⟨r, hr, hx⟩
      have hrval : r.value ≠ none := by
        rw [hx]
        exact Option.some_ne_none x
      have hlval : l.value ≠ none := fun hnone => hrval (hagrees.cleared l hl hself hnone r hr)
      rw [hagrees.values l hl r hr hlval hrval, hx]
    · exact fun hx => ⟨l, hl, hx⟩

/-- Whether the view knows a leader is independent of the order exactly when a leader reports or
no report names a node that knows none. -/
theorem lead_settled_iff (h : WellReported rs) :
    (∀ p : List (Report α), p.Perm rs → ((fold p).lead = 0 ↔ (fold rs).lead = 0)) ↔
      LeadKnown rs := by
  constructor
  · intro hsettled
    by_cases hleader : ∃ l ∈ rs, l.SelfLeads
    · exact .inl hleader
    · right
      have hself : ∀ r ∈ rs, ¬ r.SelfLeads := fun r hr hr' => hleader ⟨r, hr, hr'⟩
      intro s hs n hn hnames hzero
      obtain ⟨p, hperm, hfold⟩ := exists_perm_named h hself hs hn hnames
      have hnone : (fold rs).lead = 0 := by
        rw [← hsettled p hperm, hfold]
        exact hzero
      obtain ⟨others, hlast⟩ := exists_perm_last hs
      rw [← hsettled _ hlast, fold_append_singleton] at hnone
      exact take_lead_ne_zero _ hnames.1 hnone
  · rintro (⟨l, hl, hself⟩ | hnames) p hp
    · rw [lead_of_leader h hl hself, lead_of_leader (h.perm hp) (hp.symm.subset hl) hself]
    · by_cases hleader : ∃ l ∈ rs, l.SelfLeads
      · obtain ⟨l, hl, hself⟩ := hleader
        rw [lead_of_leader h hl hself, lead_of_leader (h.perm hp) (hp.symm.subset hl) hself]
      · have hself : ∀ r ∈ rs, ¬ r.SelfLeads := fun r hr hr' => hleader ⟨r, hr, hr'⟩
        have hknown : ∀ q : List (Report α), q.Perm rs →
            ((fold q).lead = 0 ↔ ∀ r ∈ rs, r.lead = 0) := by
          intro q hq
          constructor
          · intro hzero r hr
            by_contra hne
            refine lead_ne_zero (fun r hr => hself r (hq.subset hr)) ?_
              ⟨r, hq.symm.subset hr, hne⟩ hzero
            exact fun s hs n hn => hnames s (hq.subset hs) n (hq.subset hn)
          · intro hall
            by_contra hne
            obtain ⟨r, hr, hlead⟩ := exists_lead hne
            rw [← hlead] at hne
            exact hne (hall r (hq.subset hr))
        rw [hknown p hp, hknown rs (List.Perm.refl rs)]

end LeaderFold
