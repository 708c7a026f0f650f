import Mathlib.Data.List.Basic
import Mathlib.Data.List.Nodup

/-!
A walk through a labelled graph, kept as searches keep it: the edges from the last one back to the
first, each with the node it leaves.  Its stations are the walks it passes through, with the nodes
they end in.
-/

namespace Trails

open List

variable {ν ε : Type*}

inductive IsTrail (step : ν → ε → ν → Prop) (s : ν) : List (ε × ν) → ν → Prop
  | nil : IsTrail step s [] s
  | cons {e : ε} {u v : ν} {t : List (ε × ν)} :
      IsTrail step s t u → step u e v → IsTrail step s ((e, u) :: t) v

/-- The trail itself and those it passes through, each with the node it ends in. -/
def stations : List (ε × ν) → ν → List (List (ε × ν) × ν)
  | [], v => [([], v)]
  | (e, u) :: t, v => ((e, u) :: t, v) :: stations t u

def nodes (t : List (ε × ν)) (v : ν) : List ν := v :: t.map Prod.snd

theorem mem_stations_self (t : List (ε × ν)) (v : ν) : (t, v) ∈ stations t v := by
  cases t with
  | nil => exact mem_singleton.mpr rfl
  | cons x t => exact mem_cons_self

variable {e : ε} {u v w : ν} {t q r : List (ε × ν)}

theorem mem_stations_cons {q : List (ε × ν) × ν} :
    q ∈ stations ((e, u) :: t) v ↔ q = ((e, u) :: t, v) ∨ q ∈ stations t u := by
  rw [stations, mem_cons]

theorem mem_stations_nil {q : List (ε × ν) × ν} :
    q ∈ stations ([] : List (ε × ν)) v ↔ q = ([], v) := by
  rw [stations, mem_singleton]

theorem mem_stations_trans {x : ν} (hq : (q, w) ∈ stations t v) (hr : (r, x) ∈ stations q w) :
    (r, x) ∈ stations t v := by
  induction t generalizing v with
  | nil =>
    cases mem_stations_nil.mp hq
    exact hr
  | cons head t ih =>
    obtain ⟨e, u⟩ := head
    rcases mem_stations_cons.mp hq with heq | hq
    · cases heq
      exact hr
    · exact mem_stations_cons.mpr (.inr (ih hq))

theorem mem_stations_parent (hq : ((e, u) :: q, w) ∈ stations t v) : (q, u) ∈ stations t v := by
  apply mem_stations_trans hq
  rw [mem_stations_cons]
  exact .inr (mem_stations_self q u)

theorem length_le_of_mem_stations (hq : (q, w) ∈ stations t v) : q.length ≤ t.length := by
  induction t generalizing v with
  | nil =>
    cases mem_stations_nil.mp hq
    exact Nat.le_refl _
  | cons head t ih =>
    obtain ⟨e, u⟩ := head
    rcases mem_stations_cons.mp hq with heq | hq
    · cases heq
      exact Nat.le_refl _
    · have hle := ih hq
      rw [length_cons]
      omega

theorem exists_station (t : List (ε × ν)) (v : ν) {j : ℕ} (hj : j ≤ t.length) :
    ∃ r u, (r, u) ∈ stations t v ∧ r.length = j := by
  induction t generalizing v with
  | nil => exact ⟨[], v, mem_stations_self [] v, (Nat.le_zero.mp hj).symm⟩
  | cons head t ih =>
    obtain ⟨e, u⟩ := head
    rcases Nat.eq_or_lt_of_le hj with rfl | hlt
    · exact ⟨(e, u) :: t, v, mem_stations_self _ v, rfl⟩
    · rw [length_cons] at hlt
      obtain ⟨r, w, hr, hlength⟩ := ih u (by omega)
      exact ⟨r, w, mem_stations_cons.mpr (.inr hr), hlength⟩

section Steps

variable {step : ν → ε → ν → Prop} {s : ν}

variable {t r : List (ε × ν)} {v w u : ν}

theorem IsTrail.station {q : List (ε × ν)} (ht : IsTrail step s t v) (hq : (q, w) ∈ stations t v) :
    IsTrail step s q w := by
  induction ht with
  | nil =>
    cases mem_stations_nil.mp hq
    exact IsTrail.nil
  | cons ht hstep ih =>
    rcases mem_stations_cons.mp hq with heq | hq
    · cases heq
      exact IsTrail.cons ht hstep
    · exact ih hq

theorem IsTrail.mono {step' : ν → ε → ν → Prop} (hsub : ∀ u e w, step u e w → step' u e w)
    (ht : IsTrail step s t v) :
    IsTrail step' s t v := by
  induction ht with
  | nil => exact IsTrail.nil
  | cons _ hstep ih => exact IsTrail.cons ih (hsub _ _ _ hstep)

/-- The first station that ends outside of `seen` is the empty one, or leaves a node in it. -/
theorem IsTrail.exists_first {seen : ν → Prop} (ht : IsTrail step s t v) (hv : ¬seen v) :
    ∃ q w, (q, w) ∈ stations t v ∧ ¬seen w ∧
      ((q = [] ∧ w = s) ∨ ∃ e u q', q = (e, u) :: q' ∧ seen u ∧ step u e w) := by
  induction ht with
  | nil => exact ⟨[], s, mem_stations_self [] s, hv, .inl ⟨rfl, rfl⟩⟩
  | @cons e u w t ht hstep ih =>
    by_cases hu : seen u
    · exact ⟨(e, u) :: t, w, mem_stations_self _ w, hv, .inr ⟨e, u, t, rfl, hu, hstep⟩⟩
    · obtain ⟨q, x, hq, hx, hfirst⟩ := ih hu
      exact ⟨q, x, mem_stations_cons.mpr (.inr hq), hx, hfirst⟩

end Steps

end Trails
