import Mathlib.Data.List.Basic

/-!
A system is a partial step function on states and events.  A run takes events one after the other,
and each event satisfies a guard `ok` in the state it is taken in.  What one step preserves, a run
preserves.
-/

universe u v w

/-- Runs of `step` in which every event satisfies `ok` in the state it is taken in. -/
inductive Run {σ : Type u} {ε : Type v} (step : σ → ε → Option σ) (ok : σ → ε → Prop) :
    σ → List ε → σ → Prop where
  | nil (s : σ) : Run step ok s [] s
  | cons {s s' s'' : σ} {e : ε} {es : List ε} :
      ok s e → step s e = some s' → Run step ok s' es s'' → Run step ok s (e :: es) s''

namespace Run

variable {σ : Type u} {ε : Type v} {step : σ → ε → Option σ} {ok ok' : σ → ε → Prop}
variable {s s' : σ} {es : List ε}

theorem invariant {Inv : σ → Prop}
    (hstep : ∀ s e s', ok s e → step s e = some s' → Inv s → Inv s')
    (h : Run step ok s es s') (hs : Inv s) : Inv s' := by
  induction h with
  | nil => exact hs
  | cons hok he _ ih => exact ih (hstep _ _ _ hok he hs)

theorem mono (hok : ∀ s e, ok s e → ok' s e) (h : Run step ok s es s') :
    Run step ok' s es s' := by
  induction h with
  | nil => exact .nil _
  | cons ho he _ ih => exact .cons (hok _ _ ho) he ih

/-- Takes the events of a list in order. -/
def exec (step : σ → ε → Option σ) (s : σ) : List ε → Option σ
  | [] => some s
  | e :: es => (step s e).bind fun s' => exec step s' es

@[simp] theorem exec_singleton (step : σ → ε → Option σ) (s : σ) (e : ε) :
    exec step s [e] = step s e := by
  simp only [exec, Option.bind_fun_some]

theorem exec_append (step : σ → ε → Option σ) (s : σ) (es es' : List ε) :
    exec step s (es ++ es') = (exec step s es).bind fun s' => exec step s' es' := by
  induction es generalizing s with
  | nil => rfl
  | cons e es ih =>
    simp only [List.cons_append, exec, Option.bind_assoc]
    exact congrArg _ (funext fun s' => ih s')

theorem of_exec (step : σ → ε → Option σ) (s : σ) {es : List ε} {s' : σ}
    (hok : ∀ s, ∀ e ∈ es, ok s e) (h : exec step s es = some s') : Run step ok s es s' := by
  induction es generalizing s with
  | nil =>
    cases h
    exact .nil _
  | cons e es ih =>
    simp only [exec, Option.bind_eq_some_iff] at h
    obtain ⟨s₁, he, h⟩ := h
    exact .cons (hok s e List.mem_cons_self) he
      (ih s₁ (fun s e' he' => hok s e' (List.mem_cons_of_mem e he')) h)

def guarded (step : σ → ε → Option σ) (ok : σ → ε → Prop) [∀ s e, Decidable (ok s e)] (s : σ)
    (e : ε) : Option σ :=
  if ok s e then step s e else none

theorem of_guarded [∀ s e, Decidable (ok s e)] (s : σ) {es : List ε} {s' : σ}
    (h : exec (guarded step ok) s es = some s') : Run step ok s es s' := by
  induction es generalizing s with
  | nil =>
    cases h
    exact .nil _
  | cons e es ih =>
    simp only [exec, guarded, Option.bind_eq_some_iff, Option.ite_none_right_eq_some] at h
    obtain ⟨s₁, ⟨hok, he⟩, h⟩ := h
    exact .cons hok he (ih s₁ h)

end Run
