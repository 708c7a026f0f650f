import Antfly.Lib.Trails
import Mathlib.Data.Nat.Find

/-!
The distance of a node is the least length of a walk to it.  A set that holds the start and what can
be stepped to from its nodes that are nearer than `h` holds all nodes within `h` steps, so that what
is outside of it and one step from distance `h` is at distance `h + 1`.  A node that walks of every
length start from has one of this kind among its successors, if these are finitely many.
-/

namespace Trails

variable {ν ε : Type*} {step : ν → ε → ν → Prop} {s : ν}

/-- The least length of a walk from `s` to `v` is `h`. -/
def Nearest (step : ν → ε → ν → Prop) (s : ν) (h : ℕ) (v : ν) : Prop :=
  (∃ t, IsTrail step s t v ∧ t.length = h) ∧ ∀ t, IsTrail step s t v → h ≤ t.length

variable {h : ℕ} {v u : ν} {t : List (ε × ν)} {seen : ν → Prop}

theorem Nearest.unique {h' : ℕ} (hv : Nearest step s h v) (hv' : Nearest step s h' v) : h = h' := by
  obtain ⟨⟨t, ht, hlength⟩, hleast⟩ := hv
  obtain ⟨⟨t', ht', hlength'⟩, hleast'⟩ := hv'
  have hle := hleast t' ht'
  have hle' := hleast' t ht
  omega

theorem nearest_start : Nearest step s 0 s :=
  ⟨⟨[], IsTrail.nil, rfl⟩, fun _ _ => Nat.zero_le _⟩

theorem Nearest.eq_zero_iff (hv : Nearest step s h v) : h = 0 ↔ v = s := by
  constructor
  · rintro rfl
    obtain ⟨⟨t, ht, hlength⟩, -⟩ := hv
    cases ht with
    | nil => rfl
    | cons _ _ => cases hlength
  · rintro rfl
    exact hv.unique nearest_start

theorem IsTrail.exists_nearest (ht : IsTrail step s t v) : ∃ h ≤ t.length, Nearest step s h v := by
  classical
  have hex : ∃ h t, IsTrail step s t v ∧ t.length = h := ⟨_, t, ht, rfl⟩
  have hleast {t : List (ε × ν)} (ht : IsTrail step s t v) : Nat.find hex ≤ t.length :=
    Nat.find_min' hex ⟨t, ht, rfl⟩
  exact ⟨Nat.find hex, hleast ht, Nat.find_spec hex, fun _ => hleast⟩

/-- The steps from the nodes of `seen` that are nearer than `h` stay in it. -/
def ClosedBelow (step : ν → ε → ν → Prop) (s : ν) (seen : ν → Prop) (h : ℕ) : Prop :=
  ∀ u, seen u → ∀ k < h, Nearest step s k u → ∀ e v, step u e v → seen v

theorem ClosedBelow.seen_of_trail (hclosed : ClosedBelow step s seen h) (hs : seen s)
    (ht : IsTrail step s t v) (hlength : t.length ≤ h) :
    seen v := by
  induction ht with
  | nil => exact hs
  | @cons e u v t ht hstep ih =>
    rw [List.length_cons] at hlength
    obtain ⟨k, hk, hnearest⟩ := ht.exists_nearest
    exact hclosed u (ih (by omega)) k (by omega) hnearest e v hstep

theorem ClosedBelow.nearest_succ (hclosed : ClosedBelow step s seen h) (hs : seen s) {e : ε}
    (hu : Nearest step s h u) (hstep : step u e v) (hv : ¬seen v) :
    Nearest step s (h + 1) v := by
  obtain ⟨⟨t, ht, hlength⟩, -⟩ := hu
  refine ⟨⟨(e, u) :: t, IsTrail.cons ht hstep, by rw [List.length_cons, hlength]⟩, ?_⟩
  intro t' ht'
  by_contra hshort
  exact hv (hclosed.seen_of_trail hs ht' (by omega))

/-- Walks of every length start from `u`. -/
def Endless (step : ν → ε → ν → Prop) (u : ν) : Prop :=
  ∀ n, ∃ t v, IsTrail step u t v ∧ t.length = n

theorem IsTrail.exists_second (ht : IsTrail step s t v) (hne : t ≠ []) :
    ∃ e w t', step s e w ∧ IsTrail step w t' v ∧ t.length = t'.length + 1 := by
  induction ht with
  | nil => exact absurd rfl hne
  | @cons e u v t ht hstep ih =>
    by_cases hnil : t = []
    · subst hnil
      cases ht
      exact ⟨e, v, [], hstep, IsTrail.nil, rfl⟩
    · obtain ⟨e', w, t', hfirst, ht', hlength⟩ := ih hnil
      refine ⟨e', w, (e, u) :: t', hfirst, IsTrail.cons ht' hstep, ?_⟩
      rw [List.length_cons, List.length_cons, hlength]

theorem not_endless_iff :
    ¬Endless step u ↔ ∃ bound, ∀ t v, IsTrail step u t v → t.length ≤ bound := by
  constructor
  · intro hnot
    obtain ⟨n, hn⟩ := not_forall.mp hnot
    refine ⟨n, ?_⟩
    intro t v ht
    by_contra hlong
    -- A longer walk has a station of length `n`.
    obtain ⟨r, w, hr, hlength⟩ := exists_station t v (Nat.le_of_lt (Nat.lt_of_not_le hlong))
    exact hn ⟨r, w, ht.station hr, hlength⟩
  · rintro ⟨bound, hbound⟩ hendless
    obtain ⟨t, v, ht, hlength⟩ := hendless (bound + 1)
    have hle := hbound t v ht
    omega

theorem Endless.exists_step (hu : Endless step u) {successors : List ν}
    (hfinite : ∀ e v, step u e v → v ∈ successors) :
    ∃ e v, step u e v ∧ Endless step v := by
  by_contra hnone
  have hbounded : ∀ v ∈ successors, ∃ bound, ∀ e t w, step u e v → IsTrail step v t w →
      t.length ≤ bound := by
    intro v _
    by_cases hstep : ∃ e, step u e v
    · obtain ⟨e, he⟩ := hstep
      obtain ⟨bound, hbound⟩ := not_endless_iff.mp fun hv => hnone ⟨e, v, he, hv⟩
      exact ⟨bound, fun _ t w _ ht => hbound t w ht⟩
    · exact ⟨0, fun e t w he _ => absurd ⟨e, he⟩ hstep⟩
  obtain ⟨bound, hbound⟩ : ∃ bound, ∀ v ∈ successors, ∀ e t w, step u e v → IsTrail step v t w →
      t.length ≤ bound := by
    clear hfinite
    induction successors with
    | nil => exact ⟨0, fun v hv => absurd hv List.not_mem_nil⟩
    | cons v rest ih =>
      obtain ⟨b, hb⟩ := hbounded v List.mem_cons_self
      obtain ⟨b', hb'⟩ := ih fun w hw => hbounded w (List.mem_cons_of_mem v hw)
      refine ⟨max b b', ?_⟩
      intro w hw e t x hstep ht
      rcases List.mem_cons.mp hw with rfl | hw
      · exact Nat.le_trans (hb e t x hstep ht) (Nat.le_max_left b b')
      · exact Nat.le_trans (hb' w hw e t x hstep ht) (Nat.le_max_right b b')
  obtain ⟨t, w, ht, hlength⟩ := hu (bound + 2)
  have hne : t ≠ [] := by
    rintro rfl
    cases hlength
  obtain ⟨e, v, t', hstep, ht', hlength'⟩ := ht.exists_second hne
  have hle := hbound v (hfinite e v hstep) e t' w hstep ht'
  omega

end Trails
