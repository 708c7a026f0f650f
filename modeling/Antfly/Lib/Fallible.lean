import Mathlib.Data.List.Basic
import Mathlib.Data.List.Forall2

/-!
Inversion rules for `Except` computations: what a successful bind ran, and what a successful
`mapM` computed for each element.
-/

universe u v

namespace Fallible

open List

variable {ε : Type u} {α β : Type v}

variable {x : Except ε α} {f g : α → Except ε β} {a : α} {e : ε} {xs : List α} {ys : List β}

theorem bind_eq_ok {b : β} : (x >>= f) = .ok b ↔ ∃ a, x = .ok a ∧ f a = .ok b := by
  cases x with
  | error e => simp [bind, Except.bind]
  | ok a => simp [bind, Except.bind]

theorem bind_congr_ok (h : ∀ a, x = .ok a → f a = g a) : x >>= f = x >>= g := by
  cases x with
  | error e => rfl
  | ok a => exact h a rfl

theorem pure_eq_ok {b : α} : (pure a : Except ε α) = .ok b ↔ a = b := by
  simp [pure, Except.pure]

theorem elim_eq_ok {x : Option α} : x.elim (Except.error e) Except.ok = .ok a ↔ x = some a := by
  cases x <;> simp

theorem mapM_eq_ok_iff : xs.mapM f = .ok ys ↔ List.Forall₂ (fun x y => f x = .ok y) xs ys := by
  induction xs generalizing ys with
  | nil =>
    rw [mapM_nil, pure_eq_ok, forall₂_nil_left_iff]
    exact eq_comm
  | cons x xs ih =>
    rw [mapM_cons, forall₂_cons_left_iff]
    simp only [bind_eq_ok, pure_eq_ok]
    constructor
    · rintro ⟨y, hy, zs, hzs, rfl⟩
      exact ⟨y, zs, hy, ih.mp hzs, rfl⟩
    · rintro ⟨y, zs, hy, hzs, rfl⟩
      exact ⟨y, hy, zs, ih.mpr hzs, rfl⟩

theorem exists_of_mem_mapM (h : xs.mapM f = .ok ys) {y : β} (hy : y ∈ ys) :
    ∃ x ∈ xs, f x = .ok y := by
  rw [mapM_eq_ok_iff] at h
  induction h with
  | nil => simp at hy
  | cons hx _ ih =>
    rcases mem_cons.mp hy with rfl | hy
    · exact ⟨_, mem_cons_self, hx⟩
    · obtain ⟨x, hmem, hfx⟩ := ih hy
      exact ⟨x, mem_cons_of_mem _ hmem, hfx⟩

theorem exists_mem_of_mapM (h : xs.mapM f = .ok ys) {x : α} (hx : x ∈ xs) :
    ∃ y ∈ ys, f x = .ok y := by
  rw [mapM_eq_ok_iff] at h
  induction h with
  | nil => exact absurd hx not_mem_nil
  | cons hfx _ ih =>
    rcases mem_cons.mp hx with rfl | hx
    · exact ⟨_, mem_cons_self, hfx⟩
    · obtain ⟨y, hy, hfy⟩ := ih hx
      exact ⟨y, mem_cons_of_mem _ hy, hfy⟩

theorem exists_mapM_ok_iff : (∃ ys, xs.mapM f = .ok ys) ↔ ∀ x ∈ xs, ∃ y, f x = .ok y := by
  constructor
  · rintro ⟨ys, h⟩ x hx
    rw [mapM_eq_ok_iff] at h
    induction h with
    | nil => cases hx
    | cons hfx _ ih =>
      rcases mem_cons.mp hx with rfl | hx
      · exact ⟨_, hfx⟩
      · exact ih hx
  · intro h
    induction xs with
    | nil => exact ⟨[], rfl⟩
    | cons x xs ih =>
      obtain ⟨y, hy⟩ := h x mem_cons_self
      obtain ⟨ys, hys⟩ := ih fun z hz => h z (mem_cons_of_mem x hz)
      refine ⟨y :: ys, ?_⟩
      rw [mapM_eq_ok_iff] at hys ⊢
      exact .cons hy hys

theorem exists_of_mapM_error (h : xs.mapM f = .error e) : ∃ x ∈ xs, f x = .error e := by
  induction xs with
  | nil => cases h
  | cons x xs ih =>
    rw [mapM_cons] at h
    cases hx : f x with
    | error e' =>
      rw [hx] at h
      cases h
      exact ⟨x, mem_cons_self, hx⟩
    | ok y =>
      rw [hx] at h
      cases hxs : xs.mapM f with
      | error e' =>
        rw [hxs] at h
        cases h
        obtain ⟨z, hz, hfz⟩ := ih hxs
        exact ⟨z, mem_cons_of_mem x hz, hfz⟩
      | ok ys =>
        rw [hxs] at h
        cases h

/-- The value of a successful computation, or a default. -/
def getD (x : Except ε α) (d : α) : α :=
  match x with
  | .ok a => a
  | .error _ => d

@[simp] theorem getD_ok (a d : α) : getD (.ok a : Except ε α) d = a := rfl

theorem eq_map_of_mapM (h : xs.mapM f = .ok ys) (d : β) : ys = xs.map fun x => getD (f x) d := by
  rw [mapM_eq_ok_iff] at h
  induction h with
  | nil => rfl
  | cons hx _ ih => rw [map_cons, ← ih, hx, getD_ok]

theorem flatten_of_mapM {f : α → Except ε (List β)} {ys : List (List β)} (h : xs.mapM f = .ok ys) :
    ys.flatten = xs.flatMap fun x => getD (f x) [] := by
  rw [eq_map_of_mapM h [], flatMap_def]

theorem mapM_congr (h : ∀ x ∈ xs, f x = g x) : xs.mapM f = xs.mapM g := by
  induction xs with
  | nil => rfl
  | cons x xs ih =>
    rw [mapM_cons, mapM_cons, h x mem_cons_self,
      ih fun y hy => h y (mem_cons_of_mem x hy)]

end Fallible
