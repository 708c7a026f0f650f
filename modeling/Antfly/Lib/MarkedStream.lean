import Mathlib.Data.List.Basic
import Mathlib.Data.List.Nodup
import Mathlib.Data.List.Pairwise
import Mathlib.Logic.Function.Basic
import Mathlib.Order.Lattice
import Mathlib.Algebra.Group.Nat.Defs
import Mathlib.Tactic.Common

/-!
A pass over a stream keeps one current item.  A mark is for the item of its key: it counts at once
when that item is current, and is remembered otherwise.  When the next item comes, or the end, the
current item is reported unless it has been marked.  A blank comes in the place of an item: the
current one is reported but stays.

So an item is reported as often as something comes in its place before its first mark.
-/

namespace MarkedStream

open List

variable {ι κ α : Type*}

inductive Event (ι κ : Type*) where
  | item (i : ι)
  | blank
  | mark (k : κ)
  | other

/-- The events at which the current item is reported. -/
def Event.ends : Event ι κ → Bool
  | item _ => true
  | blank => true
  | mark _ => false
  | other => false

structure Pass (ι κ : Type*) where
  current : Option ι
  marked : Bool
  seen : κ → Bool
  out : List ι

def Pass.start : Pass ι κ where
  current := none
  marked := false
  seen := fun _ => false
  out := []

def Pass.pending (p : Pass ι κ) : List ι := if p.marked then [] else p.current.toList

def Pass.finish (p : Pass ι κ) : List ι := p.out ++ p.pending

section Run

variable [DecidableEq κ] (key : ι → κ)

def Pass.step (p : Pass ι κ) : Event ι κ → Pass ι κ
  | .item i =>
    { current := some i
      marked := p.seen (key i)
      seen := Function.update p.seen (key i) false
      out := p.out ++ p.pending }
  | .blank => { p with out := p.out ++ p.pending }
  | .mark k =>
    if p.current.map key = some k then { p with marked := true }
    else { p with seen := Function.update p.seen k true }
  | .other => p

/-- How often the item of the key is reported when the events follow it. -/
def shown (k : κ) (marked : Bool) : List (Event ι κ) → ℕ
  | [] => if marked then 0 else 1
  | .item _ :: _ => if marked then 0 else 1
  | .blank :: events => (if marked then 0 else 1) + shown k marked events
  | .mark k' :: events => shown k (marked || decide (k' = k)) events
  | .other :: events => shown k marked events

/-- What is reported of the events, when the keys have been marked before them. -/
def reports (marks : List κ) : List (Event ι κ) → List ι
  | [] => []
  | .item i :: events =>
    List.replicate (shown (key i) (decide (key i ∈ marks)) events) i ++ reports marks events
  | .mark k :: events => reports (k :: marks) events
  | .blank :: events => reports marks events
  | .other :: events => reports marks events

def items : List (Event ι κ) → List ι
  | [] => []
  | .item i :: events => i :: items events
  | .blank :: events => items events
  | .mark _ :: events => items events
  | .other :: events => items events

def marksOf : List (Event ι κ) → List κ
  | [] => []
  | .item _ :: events => marksOf events
  | .blank :: events => marksOf events
  | .mark k :: events => k :: marksOf events
  | .other :: events => marksOf events

/-- The pass keeps the marks of the items that are still to come. -/
def Pass.Remembers (p : Pass ι κ) (marks : List κ) (events : List (Event ι κ)) : Prop :=
  ∀ i ∈ items events, p.seen (key i) = decide (key i ∈ marks) ∧ p.current.map key ≠ some (key i)

variable {events : List (Event ι κ)}

theorem finish_run (hkeys : ((items events).map key).Nodup) {marks : List κ} {p : Pass ι κ}
    (h : p.Remembers key marks events) :
    (events.foldl (Pass.step key) p).finish =
      p.out ++ (p.current.toList.flatMap fun i =>
        List.replicate (shown (key i) p.marked events) i) ++ reports key marks events := by
  induction events generalizing p marks with
  | nil =>
    rw [foldl_nil, Pass.finish, reports, append_nil, Pass.pending]
    congr 1
    cases p.current with
    | none => cases p.marked <;> rfl
    | some i => cases p.marked <;> rfl
  | cons e events ih =>
    rw [foldl_cons]
    have hpending : p.pending = p.current.toList.flatMap fun i =>
        List.replicate (if p.marked then 0 else 1) i := by
      rw [Pass.pending]
      cases p.current with
      | none => cases p.marked <;> rfl
      | some i => cases p.marked <;> rfl
    cases e with
    | item i =>
      have hcons := nodup_cons.mp hkeys
      have hnext : (p.step key (.item i)).Remembers key marks events := by
        intro j hj
        have hne : key j ≠ key i := fun heq =>
          hcons.1 (heq ▸ mem_map_of_mem hj)
        obtain ⟨hseen, -⟩ := h j (mem_cons_of_mem i hj)
        refine ⟨?_, fun hcurrent => hne (Option.some.inj hcurrent).symm⟩
        exact (Function.update_of_ne hne _ _).trans hseen
      rw [ih hcons.2 hnext]
      have hmarked : (p.step key (.item i)).marked = decide (key i ∈ marks) :=
        (h i mem_cons_self).1
      rw [hmarked]
      change p.out ++ p.pending ++ List.flatMap _ [i] ++ _ = _
      rw [hpending, flatMap_singleton, reports]
      simp only [shown, append_assoc]
    | blank =>
      rw [ih hkeys (p := p.step key .blank) h]
      change p.out ++ p.pending ++ _ ++ _ = _
      rw [hpending, reports]
      change _ ++ List.flatMap (fun i => List.replicate (shown (key i) p.marked events) i)
        p.current.toList ++ _ = _
      cases p.current with
      | none => simp only [Option.toList_none, flatMap_nil, append_nil]
      | some i =>
        simp only [Option.toList_some, flatMap_singleton, shown, replicate_add,
          append_assoc]
    | mark k =>
      rw [reports]
      by_cases hcurrent : p.current.map key = some k
      · have hstep : p.step key (.mark k) = { p with marked := true } := if_pos hcurrent
        have hnext : Pass.Remembers key { p with marked := true } (k :: marks) events := by
          intro j hj
          obtain ⟨hseen, hne⟩ := h j hj
          have hkey : key j ≠ k := fun heq => hne (hcurrent.trans (congrArg some heq.symm))
          refine ⟨?_, hne⟩
          rw [hseen]
          exact decide_eq_decide.mpr ⟨mem_cons_of_mem k, fun hmem =>
            (mem_cons.mp hmem).resolve_left hkey⟩
        rw [hstep, ih hkeys hnext]
        obtain ⟨i, hi, rfl⟩ := Option.map_eq_some_iff.mp hcurrent
        rw [hi]
        simp only [Option.toList_some, flatMap_singleton, shown, decide_true,
          Bool.or_true]
      · have hstep : p.step key (.mark k) =
            { p with seen := Function.update p.seen k true } := if_neg hcurrent
        have hnext : Pass.Remembers key { p with seen := Function.update p.seen k true }
            (k :: marks) events := by
          intro j hj
          obtain ⟨hseen, hne⟩ := h j hj
          refine ⟨?_, hne⟩
          by_cases hkey : key j = k
          · rw [hkey]
            change Function.update p.seen k true k = _
            rw [Function.update_self]
            exact (decide_eq_true mem_cons_self).symm
          · change Function.update p.seen k true (key j) = _
            rw [Function.update_of_ne hkey, hseen]
            exact decide_eq_decide.mpr ⟨mem_cons_of_mem k, fun hmem =>
              (mem_cons.mp hmem).resolve_left hkey⟩
        rw [hstep, ih hkeys hnext]
        cases hi : p.current with
        | none => rfl
        | some i =>
          have hkey : ¬ k = key i := by
            rintro rfl
            exact hcurrent (by rw [hi]; rfl)
          simp only [Option.toList_some, flatMap_singleton, shown,
            decide_eq_false hkey, Bool.or_false]
    | other => exact ih hkeys h

theorem finish_start (hkeys : ((items events).map key).Nodup) :
    (events.foldl (Pass.step key) Pass.start).finish = reports key [] events := by
  have hstart : (Pass.start : Pass ι κ).Remembers key [] events := fun i _ =>
    ⟨rfl, Option.some_ne_none _ ∘ Eq.symm⟩
  rw [finish_run key hkeys hstart]
  rfl

end Run

section Shown

variable [DecidableEq κ]

theorem shown_marked (k : κ) (events : List (Event ι κ)) : shown k true events = 0 := by
  induction events with
  | nil => rfl
  | cons e events ih =>
    cases e with
    | item i => rfl
    | blank => rw [shown, ih]; rfl
    | mark k' => exact ih
    | other => exact ih

theorem shown_mark_self (k : κ) (events : List (Event ι κ)) :
    shown k false (.mark k :: events) = 0 := by
  rw [shown, decide_eq_true rfl, Bool.or_true, shown_marked]

theorem shown_mark_ne {k k' : κ} (hne : k' ≠ k) (events : List (Event ι κ)) :
    shown k false (.mark k' :: events) = shown k false events := by
  rw [shown, decide_eq_false hne, Bool.or_false]

variable [LinearOrder α]

/-- A mark of the key comes before anything that comes in the place of the item. -/
def MarkedFirst (k : κ) (events : List (α × Event ι κ)) : Prop :=
  ∃ b, (b, .mark k) ∈ events ∧ ∀ c e, (c, e) ∈ events → e.ends = true → b < c

/-- If a blank comes first in the place of the item, it is marked before anything else does. -/
def MarkedAfterBlank (k : κ) (events : List (α × Event ι κ)) : Prop :=
  ∀ c, (c, .blank) ∈ events → (∀ c' e, (c', e) ∈ events → e.ends = true → c ≤ c') →
    MarkedFirst k (events.filter fun f => c < f.1)

section Heads

variable {k : κ} {a : α} {events : List (α × Event ι κ)} {e : Event ι κ}

omit [DecidableEq κ]

theorem not_markedFirst_of_ends (hfirst : ∀ f ∈ events, a < f.1) (hends : e.ends = true) :
    ¬ MarkedFirst k ((a, e) :: events) := by
  rintro ⟨b, hb, hbefore⟩
  have hlt := hbefore a e mem_cons_self hends
  rcases mem_cons.mp hb with heq | hmem
  · obtain ⟨-, rfl⟩ := Prod.mk.inj heq
    cases hends
  · exact lt_asymm hlt (hfirst _ hmem)

theorem markedFirst_of_mark (hfirst : ∀ f ∈ events, a < f.1) :
    MarkedFirst k ((a, (.mark k : Event ι κ)) :: events) := by
  refine ⟨a, mem_cons_self, fun c e hmem hends => ?_⟩
  rcases mem_cons.mp hmem with heq | hrest
  · obtain ⟨-, rfl⟩ := Prod.mk.inj heq
    cases hends
  · exact hfirst _ hrest

theorem markedFirst_cons_iff (hends : e.ends = false) (hmark : e ≠ .mark k) :
    MarkedFirst k ((a, e) :: events) ↔ MarkedFirst k events := by
  constructor
  · rintro ⟨b, hb, hbefore⟩
    refine ⟨b, (mem_cons.mp hb).resolve_left fun heq => hmark (Prod.mk.inj heq).2.symm, ?_⟩
    exact fun c f hmem => hbefore c f (mem_cons_of_mem _ hmem)
  · rintro ⟨b, hb, hbefore⟩
    refine ⟨b, mem_cons_of_mem _ hb, fun c f hmem hf => ?_⟩
    rcases mem_cons.mp hmem with heq | hrest
    · obtain ⟨-, rfl⟩ := Prod.mk.inj heq
      rw [hends] at hf
      cases hf
    · exact hbefore c f hrest hf

theorem markedAfterBlank_cons_iff (hfirst : ∀ f ∈ events, a < f.1) (hends : e.ends = false) :
    MarkedAfterBlank k ((a, e) :: events) ↔ MarkedAfterBlank k events := by
  have hrest {c : α} (hc : (c, (.blank : Event ι κ)) ∈ (a, e) :: events) :
      (c, (.blank : Event ι κ)) ∈ events := by
    refine (mem_cons.mp hc).resolve_left fun heq => ?_
    obtain ⟨-, rfl⟩ := Prod.mk.inj heq
    cases hends
  have hfilter {c : α} (hc : (c, (.blank : Event ι κ)) ∈ events) :
      ((a, e) :: events).filter (fun f => c < f.1) = events.filter fun f => c < f.1 :=
    filter_cons_of_neg (by simpa using le_of_lt (hfirst _ hc))
  constructor
  · intro h c hc hleast
    rw [← hfilter hc]
    refine h c (mem_cons_of_mem _ hc) fun c' e' hin hends' => ?_
    rcases mem_cons.mp hin with heq | hmem
    · obtain ⟨-, rfl⟩ := Prod.mk.inj heq
      rw [hends] at hends'
      cases hends'
    · exact hleast c' e' hmem hends'
  · intro h c hc hleast
    rw [hfilter (hrest hc)]
    exact h c (hrest hc) fun c' e' hin => hleast c' e' (mem_cons_of_mem _ hin)

/-- Nothing after the first event that comes in the place of the item is the first blank. -/
theorem markedAfterBlank_of_item (hfirst : ∀ f ∈ events, a < f.1) (i : ι) :
    MarkedAfterBlank k ((a, (.item i : Event ι κ)) :: events) := by
  intro c hc hleast
  have hmem := (mem_cons.mp hc).resolve_left fun heq => nomatch (Prod.mk.inj heq).2
  exact absurd (hleast a _ mem_cons_self rfl) (not_le_of_gt (hfirst _ hmem))

theorem markedAfterBlank_blank_iff (hfirst : ∀ f ∈ events, a < f.1) :
    MarkedAfterBlank k ((a, (.blank : Event ι κ)) :: events) ↔ MarkedFirst k events := by
  have hself : ((a, (.blank : Event ι κ)) :: events).filter (fun f => a < f.1) = events := by
    rw [filter_cons_of_neg (by simp), filter_eq_self]
    exact fun f hf => decide_eq_true (hfirst f hf)
  constructor
  · intro h
    have hmarked := h a mem_cons_self fun c' e' hmem _ => by
      rcases mem_cons.mp hmem with heq | hin
      · exact le_of_eq (Prod.mk.inj heq).1.symm
      · exact le_of_lt (hfirst _ hin)
    rwa [hself] at hmarked
  · intro h c hc hleast
    rcases mem_cons.mp hc with heq | hmem
    · obtain ⟨rfl, -⟩ := Prod.mk.inj heq
      rwa [hself]
    · exact absurd (hleast a _ mem_cons_self rfl) (not_le_of_gt (hfirst _ hmem))

end Heads

variable {k : κ} {events : List (α × Event ι κ)}

theorem shown_eq_zero_iff (hsorted : events.Pairwise fun a b => a.1 < b.1) :
    shown k false (events.map Prod.snd) = 0 ↔ MarkedFirst k events := by
  induction events with
  | nil =>
    refine iff_of_false Nat.one_ne_zero ?_
    rintro ⟨b, hb, -⟩
    exact absurd hb not_mem_nil
  | cons f events ih =>
    obtain ⟨a, e⟩ := f
    obtain ⟨hfirst, hrest⟩ := pairwise_cons.mp hsorted
    rw [map_cons]
    cases e with
    | item i => exact iff_of_false Nat.one_ne_zero (not_markedFirst_of_ends hfirst rfl)
    | blank =>
      refine iff_of_false ?_ (not_markedFirst_of_ends hfirst rfl)
      rw [shown, if_neg Bool.false_ne_true]
      omega
    | mark k' =>
      by_cases hkey : k' = k
      · subst hkey
        exact iff_of_true (shown_mark_self k' _) (markedFirst_of_mark hfirst)
      · rw [shown_mark_ne hkey, ih hrest]
        exact (markedFirst_cons_iff rfl fun heq => hkey (Event.mark.inj heq)).symm
    | other =>
      have hother : (.other : Event ι κ) ≠ .mark k := fun heq => nomatch heq
      rw [shown, ih hrest]
      exact (markedFirst_cons_iff rfl hother).symm

theorem shown_eq_one_iff (hsorted : events.Pairwise fun a b => a.1 < b.1) :
    shown k false (events.map Prod.snd) = 1 ↔
      ¬ MarkedFirst k events ∧ MarkedAfterBlank k events := by
  induction events with
  | nil =>
    refine iff_of_true rfl ⟨?_, fun c hc => absurd hc not_mem_nil⟩
    rintro ⟨b, hb, -⟩
    exact absurd hb not_mem_nil
  | cons f events ih =>
    obtain ⟨a, e⟩ := f
    obtain ⟨hfirst, hrest⟩ := pairwise_cons.mp hsorted
    rw [map_cons]
    cases e with
    | item i =>
      exact iff_of_true rfl
        ⟨not_markedFirst_of_ends hfirst rfl, markedAfterBlank_of_item hfirst i⟩
    | blank =>
      have hone : shown k false (.blank :: events.map Prod.snd) = 1 ↔
          shown k false (events.map Prod.snd) = 0 := by
        rw [shown, if_neg Bool.false_ne_true]
        omega
      rw [hone, shown_eq_zero_iff hrest, markedAfterBlank_blank_iff hfirst]
      exact (and_iff_right (not_markedFirst_of_ends hfirst rfl)).symm
    | mark k' =>
      by_cases hkey : k' = k
      · subst hkey
        rw [shown_mark_self]
        exact iff_of_false Nat.zero_ne_one fun h => h.1 (markedFirst_of_mark hfirst)
      · rw [shown_mark_ne hkey, ih hrest, markedAfterBlank_cons_iff hfirst rfl,
          markedFirst_cons_iff rfl fun heq => hkey (Event.mark.inj heq)]
    | other =>
      have hother : (.other : Event ι κ) ≠ .mark k := fun heq => nomatch heq
      rw [shown, ih hrest, markedAfterBlank_cons_iff hfirst rfl,
        markedFirst_cons_iff rfl hother]

end Shown

section Count

variable [DecidableEq κ] (key : ι → κ)

variable {i : ι} {events : List (Event ι κ)} {k : κ} {marks : List κ}

omit [DecidableEq κ] in
theorem mem_items_iff : i ∈ items events ↔ .item i ∈ events := by
  induction events with
  | nil => exact iff_of_false not_mem_nil not_mem_nil
  | cons e events ih =>
    rw [mem_cons]
    cases e with
    | item j =>
      rw [items, mem_cons, ih]
      exact or_congr_left ⟨congrArg _, Event.item.inj⟩
    | blank => exact ih.trans (or_iff_right fun heq => nomatch heq).symm
    | mark k => exact ih.trans (or_iff_right fun heq => nomatch heq).symm
    | other => exact ih.trans (or_iff_right fun heq => nomatch heq).symm

omit [DecidableEq κ] in
theorem mem_marksOf_iff : k ∈ marksOf events ↔ .mark k ∈ events := by
  induction events with
  | nil => exact iff_of_false not_mem_nil not_mem_nil
  | cons e events ih =>
    rw [mem_cons]
    cases e with
    | item j => exact ih.trans (or_iff_right fun heq => nomatch heq).symm
    | blank => exact ih.trans (or_iff_right fun heq => nomatch heq).symm
    | mark k' =>
      rw [marksOf, mem_cons, ih]
      exact or_congr_left ⟨congrArg _, Event.mark.inj⟩
    | other => exact ih.trans (or_iff_right fun heq => nomatch heq).symm

theorem mem_items_of_reports (h : i ∈ reports key marks events) : i ∈ items events := by
  induction events generalizing marks with
  | nil => exact h
  | cons e events ih =>
    cases e with
    | item j =>
      rcases mem_append.mp h with hshown | hrest
      · exact mem_cons.mpr (.inl (eq_of_mem_replicate hshown))
      · exact mem_cons_of_mem j (ih hrest)
    | blank => exact ih h
    | mark k => exact ih h
    | other => exact ih h

theorem count_reports_eq_zero (hnone : k ∉ (items events).map key) :
    (reports key marks events).countP (fun j => key j = k) = 0 := by
  rw [countP_eq_zero]
  rintro i hi hkey
  exact hnone (of_decide_eq_true hkey ▸ mem_map_of_mem (mem_items_of_reports key hi))

theorem count_reports {pre post : List (Event ι κ)}
    (hkeys : ((items (pre ++ .item i :: post)).map key).Nodup) (marks : List κ) :
    (reports key marks (pre ++ .item i :: post)).countP (fun j => key j = key i) =
      shown (key i) (decide (key i ∈ marks ++ marksOf pre)) post := by
  induction pre generalizing marks with
  | nil =>
    have hnone := (nodup_cons.mp hkeys).1
    rw [nil_append, reports, countP_append, countP_replicate,
      if_pos (decide_eq_true rfl), count_reports_eq_zero key hnone, marksOf, append_nil,
      Nat.add_zero]
  | cons e pre ih =>
    cases e with
    | item j =>
      obtain ⟨hnew, hrest⟩ := nodup_cons.mp hkeys
      have hne : key j ≠ key i := by
        intro heq
        refine hnew (heq ▸ mem_map_of_mem ?_)
        exact mem_items_iff.mpr (mem_append_right pre mem_cons_self)
      rw [cons_append, reports, countP_append, countP_replicate,
        if_neg (by simpa using hne), Nat.zero_add, ih hrest]
      rfl
    | blank => exact ih hkeys marks
    | mark k =>
      have hmem : key i ∈ (k :: marks) ++ marksOf pre ↔
          key i ∈ marks ++ marksOf (.mark k :: pre) := by
        rw [marksOf, mem_append, mem_append, mem_cons, mem_cons, or_assoc,
          or_left_comm]
      rw [cons_append, reports, ih hkeys, decide_eq_decide.mpr hmem]
    | other => exact ih hkeys marks

variable [LinearOrder α]

/-- A mark of the key comes before anything that comes in the place of an item at `a`. -/
def InTime (events : List (α × Event ι κ)) (a : α) (k : κ) : Prop :=
  ∃ b, (b, .mark k) ∈ events ∧ ∀ c e, (c, e) ∈ events → e.ends = true → a < c → b < c

variable {events : List (α × Event ι κ)} {a : α} {i : ι}

section Split

variable {pre post : List (α × Event ι κ)}

omit [DecidableEq κ]

theorem mem_post_iff (hsorted : (pre ++ (a, .item i) :: post).Pairwise fun a b => a.1 < b.1) {c : α}
    {e : Event ι κ} : (c, e) ∈ post ↔ (c, e) ∈ pre ++ (a, .item i) :: post ∧ a < c := by
  obtain ⟨-, hpost, hcross⟩ := pairwise_append.mp hsorted
  constructor
  · intro hmem
    exact ⟨mem_append_right pre (mem_cons_of_mem _ hmem),
      (pairwise_cons.mp hpost).1 _ hmem⟩
  · rintro ⟨hmem, hlt⟩
    rcases mem_append.mp hmem with hpre | hrest
    · exact absurd hlt (lt_asymm (hcross _ hpre _ mem_cons_self))
    · refine (mem_cons.mp hrest).resolve_left fun heq => ?_
      rw [(Prod.mk.inj heq).1] at hlt
      exact lt_irrefl a hlt

theorem inTime_iff (hsorted : (pre ++ (a, .item i) :: post).Pairwise fun a b => a.1 < b.1) (k : κ) :
    InTime (pre ++ (a, .item i) :: post) a k ↔
      .mark k ∈ pre.map Prod.snd ∨ MarkedFirst k post := by
  have hcross := (pairwise_append.mp hsorted).2.2
  constructor
  · rintro ⟨b, hb, hbefore⟩
    rcases mem_append.mp hb with hpre | hrest
    · exact .inl (mem_map_of_mem hpre)
    · have hpost := (mem_cons.mp hrest).resolve_left fun heq => nomatch (Prod.mk.inj heq).2
      refine .inr ⟨b, hpost, fun c e hmem hends => ?_⟩
      obtain ⟨hin, hlt⟩ := (mem_post_iff hsorted).mp hmem
      exact hbefore c e hin hends hlt
  · rintro (hpre | ⟨b, hb, hbefore⟩)
    · obtain ⟨⟨b, e⟩, hmem, rfl⟩ := mem_map.mp hpre
      refine ⟨b, mem_append_left _ hmem, fun c e _ _ hlt => lt_trans ?_ hlt⟩
      exact hcross _ hmem _ mem_cons_self
    · refine ⟨b, ((mem_post_iff hsorted).mp hb).1, fun c e hmem hends hlt => ?_⟩
      exact hbefore c e ((mem_post_iff hsorted).mpr ⟨hmem, hlt⟩) hends

end Split

theorem count_eq_zero_iff (hsorted : events.Pairwise fun a b => a.1 < b.1)
    (hkeys : ((items (events.map Prod.snd)).map key).Nodup) (hitem : (a, .item i) ∈ events) :
    (reports key [] (events.map Prod.snd)).countP (fun j => key j = key i) = 0 ↔
      InTime events a (key i) := by
  obtain ⟨pre, post, rfl⟩ := append_of_mem hitem
  have hpost := (pairwise_cons.mp (pairwise_append.mp hsorted).2.1).2
  rw [map_append, map_cons] at hkeys ⊢
  rw [count_reports key hkeys, inTime_iff hsorted]
  by_cases hpre : .mark (key i) ∈ pre.map Prod.snd
  · rw [nil_append, decide_eq_true (mem_marksOf_iff.mpr hpre), shown_marked]
    exact iff_of_true rfl (.inl hpre)
  · rw [nil_append, decide_eq_false (mt mem_marksOf_iff.mp hpre), shown_eq_zero_iff hpost]
    exact (or_iff_right hpre).symm

theorem count_eq_one_iff (hsorted : events.Pairwise fun a b => a.1 < b.1)
    (hkeys : ((items (events.map Prod.snd)).map key).Nodup) (hitem : (a, .item i) ∈ events) :
    (reports key [] (events.map Prod.snd)).countP (fun j => key j = key i) = 1 ↔
      ¬ InTime events a (key i) ∧
        ∀ c, (c, .blank) ∈ events → a < c →
          (∀ c' e, (c', e) ∈ events → e.ends = true → a < c' → c ≤ c') →
          InTime events c (key i) := by
  obtain ⟨pre, post, rfl⟩ := append_of_mem hitem
  have hpost := (pairwise_cons.mp (pairwise_append.mp hsorted).2.1).2
  have htime := inTime_iff hsorted (key i)
  rw [map_append, map_cons] at hkeys ⊢
  rw [count_reports key hkeys]
  by_cases hpre : .mark (key i) ∈ pre.map Prod.snd
  · rw [nil_append, decide_eq_true (mem_marksOf_iff.mpr hpre), shown_marked]
    exact iff_of_false Nat.zero_ne_one fun h => h.1 (htime.mpr (.inl hpre))
  · rw [nil_append, decide_eq_false (mt mem_marksOf_iff.mp hpre), shown_eq_one_iff hpost,
      htime, or_iff_right hpre]
    refine and_congr_right fun hlate => ⟨fun h c hc hlt hleast => ?_, fun h c hc hleast => ?_⟩
    · obtain ⟨b, hb, hbefore⟩ := h c ((mem_post_iff hsorted).mpr ⟨hc, hlt⟩) fun c' e hmem hends =>
        hleast c' e ((mem_post_iff hsorted).mp hmem).1 hends ((mem_post_iff hsorted).mp hmem).2
      refine ⟨b, ((mem_post_iff hsorted).mp (mem_of_mem_filter hb)).1, ?_⟩
      intro c' e hmem hends hafter
      refine hbefore c' e (mem_filter.mpr ⟨?_, decide_eq_true hafter⟩) hends
      exact (mem_post_iff hsorted).mpr ⟨hmem, lt_trans hlt hafter⟩
    · obtain ⟨hin, hlt⟩ := (mem_post_iff hsorted).mp hc
      have hfirst : ∀ c' e, (c', e) ∈ pre ++ (a, .item i) :: post → e.ends = true → a < c' →
          c ≤ c' := fun c' e hmem hends hafter =>
        hleast c' e ((mem_post_iff hsorted).mpr ⟨hmem, hafter⟩) hends
      obtain ⟨b, hb, hbefore⟩ := h c hin hlt hfirst
      -- The mark comes after the blank, or it would have been in time for the item.
      have hcb : c < b := by
        by_contra hle
        have hne : b ≠ c := by
          rintro rfl
          have hnodup := pairwise_map.mpr (hsorted.imp fun h => ne_of_lt h)
          exact nomatch (Prod.mk.inj (inj_on_of_nodup_map hnodup hb hin rfl)).2
        have hbc := lt_of_le_of_ne (le_of_not_gt hle) hne
        refine hlate ((htime.mp ⟨b, hb, fun c' e hmem hends hafter => ?_⟩).resolve_left hpre)
        exact lt_of_lt_of_le hbc (hfirst c' e hmem hends hafter)
      refine ⟨b, mem_filter.mpr ⟨?_, decide_eq_true hcb⟩, fun c' e hmem hends => ?_⟩
      · exact (mem_post_iff hsorted).mpr ⟨hb, lt_trans hlt hcb⟩
      · obtain ⟨hpost', hafter⟩ := mem_filter.mp hmem
        exact hbefore c' e ((mem_post_iff hsorted).mp hpost').1 hends (of_decide_eq_true hafter)

end Count

end MarkedStream
