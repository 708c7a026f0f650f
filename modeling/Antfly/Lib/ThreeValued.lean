import Mathlib.Data.List.Basic
import Mathlib.Tactic.Common

/-!
Truth values are booleans or unknown.  A conjunction is false as soon as one part is, a disjunction
true as soon as one part is, and otherwise an unknown part makes them unknown.
-/

namespace ThreeValued

abbrev Truth := Option Bool

def and : Truth → Truth → Truth
  | some false, _ => some false
  | _, some false => some false
  | some true, some true => some true
  | _, _ => none

def or : Truth → Truth → Truth
  | some true, _ => some true
  | _, some true => some true
  | some false, some false => some false
  | _, _ => none

def not (t : Truth) : Truth := t.map (!·)

def all (ts : List Truth) : Truth := ts.foldr and (some true)

def any (ts : List Truth) : Truth := ts.foldr or (some false)

variable {t u : Truth} {ts : List Truth}

theorem and_eq_true_iff : and t u = some true ↔ t = some true ∧ u = some true := by
  rcases t with _ | _ | _ <;> rcases u with _ | _ | _ <;> decide

theorem or_eq_true_iff : or t u = some true ↔ t = some true ∨ u = some true := by
  rcases t with _ | _ | _ <;> rcases u with _ | _ | _ <;> decide

theorem not_eq_true_iff : not t = some true ↔ t = some false := by
  rcases t with _ | _ | _ <;> decide

theorem all_eq_true_iff : all ts = some true ↔ ∀ t ∈ ts, t = some true := by
  induction ts with
  | nil => exact iff_of_true rfl fun t ht => absurd ht List.not_mem_nil
  | cons u ts ih =>
    change and u (all ts) = some true ↔ _
    rw [and_eq_true_iff, ih, List.forall_mem_cons]

theorem any_eq_true_iff : any ts = some true ↔ ∃ t ∈ ts, t = some true := by
  induction ts with
  | nil => exact iff_of_false (by decide) fun ⟨t, ht, _⟩ => absurd ht List.not_mem_nil
  | cons u ts ih =>
    change or u (any ts) = some true ↔ _
    rw [or_eq_true_iff, ih]
    simp only [List.mem_cons, exists_eq_or_imp]

theorem any_singleton (t : Truth) : any [t] = t := by
  rcases t with _ | _ | _ <;> rfl

end ThreeValued
