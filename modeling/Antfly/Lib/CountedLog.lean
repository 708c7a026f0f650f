import Antfly.Lib.OrdMap
import Mathlib.Data.Nat.Basic

/-!
A log keeps its entries under numbered keys of an ordered store and the last number it gave out
under a counter key above them.  The writer also holds the number in memory.  `Bounded` says that
no stored entry has a number above the stored counter, and that the writer is not behind it; then
the next number is new.  Any batch of edits keeps this that leaves the counter alone, writes no
entry, and removes a range reaching the counter only together with all entries.
-/

/-- Where a store keeps a log, and how its values are read. -/
structure CountedLog (α β : Type*) [LinearOrder α] where
  isEntry : α → Prop
  counterKey : α
  sequence : β → Option ℕ
  counter : β → Option ℕ
  lt_counterKey : ∀ x, isEntry x → x < counterKey

namespace CountedLog

open OrdMap

variable {α β : Type*} [LinearOrder α] (log : CountedLog α β) {m : OrdMap α β} {next : ℕ}

/-- The stored counter; a missing one stands for zero. -/
def count (m : OrdMap α β) : ℕ := ((m.get? log.counterKey).bind log.counter).getD 0

/-- The entry of number `n` is stored. -/
def Stores (m : OrdMap α β) (n : ℕ) : Prop :=
  ∃ x v, log.isEntry x ∧ m.get? x = some v ∧ log.sequence v = some n

structure Bounded (m : OrdMap α β) (next : ℕ) : Prop where
  entries : ∀ n, log.Stores m n → n ≤ log.count m
  counter : log.count m ≤ next

/-- Edits that neither write the log nor remove its counter from above the entries. -/
def Spares : Edit α β → Prop
  | .set k _ => k ≠ log.counterKey ∧ ¬ log.isEntry k
  | .delete k => k ≠ log.counterKey
  | .deleteRange lo hi => lo ≤ log.counterKey → log.counterKey < hi → ∀ x, log.isEntry x → lo ≤ x

variable {log}

theorem spares_of_effect {e : Edit α β}
    (h : ∀ x, log.isEntry x ∨ x = log.counterKey → e.effect x = none) : log.Spares e := by
  cases e with
  | set k v =>
    refine ⟨?_, fun hk => ?_⟩
    · rintro rfl
      simpa [Edit.effect] using h _ (.inr rfl)
    · simpa [Edit.effect] using h k (.inl hk)
  | delete k =>
    rintro rfl
    simpa [Edit.effect] using h _ (.inr rfl)
  | deleteRange lo hi =>
    intro hlo hhi
    have hcounter := h _ (.inr rfl)
    simp [Edit.effect, hlo, hhi] at hcounter

private theorem Bounded.apply (h : log.Bounded m next) {e : Edit α β} (he : log.Spares e) :
    log.Bounded (e.apply m) next := by
  have hstores : ∀ n, log.Stores (e.apply m) n → log.Stores m n := by
    rintro n ⟨x, v, hx, hv, hn⟩
    refine ⟨x, v, hx, ?_, hn⟩
    rw [Edit.get?_apply] at hv
    cases e with
    | set k w =>
      have hne : x ≠ k := by
        rintro rfl
        exact he.2 hx
      simpa [Edit.effect, hne] using hv
    | delete k =>
      simp only [Edit.effect] at hv
      split at hv
      · cases hv
      · exact hv
    | deleteRange lo hi =>
      simp only [Edit.effect] at hv
      split at hv
      · cases hv
      · exact hv
  by_cases hrange : ∃ lo hi, e = .deleteRange lo hi ∧ lo ≤ log.counterKey ∧ log.counterKey < hi
  · -- The whole log goes with its counter.
    obtain ⟨lo, hi, rfl, hlo, hhi⟩ := hrange
    have hcount : log.count ((Edit.deleteRange lo hi).apply m) = 0 := by
      simp [count, Edit.get?_apply, Edit.effect, hlo, hhi]
    refine ⟨?_, by rw [hcount]; exact Nat.zero_le _⟩
    rintro n ⟨x, v, hx, hv, -⟩
    have hin : lo ≤ x ∧ x < hi := ⟨he hlo hhi x hx, (log.lt_counterKey x hx).trans hhi⟩
    simp [Edit.get?_apply, Edit.effect, hin] at hv
  · have hcount : log.count (e.apply m) = log.count m := by
      rw [count, Edit.get?_apply]
      cases e with
      | set k v => simp [Edit.effect, Ne.symm he.1, count]
      | delete k => simp [Edit.effect, Ne.symm he, count]
      | deleteRange lo hi =>
        have hout : ¬ (lo ≤ log.counterKey ∧ log.counterKey < hi) := fun hin =>
          hrange ⟨lo, hi, rfl, hin⟩
        simp [Edit.effect, hout, count]
    exact ⟨fun n hn => hcount ▸ h.entries n (hstores n hn), hcount ▸ h.counter⟩

theorem Bounded.applyAll (h : log.Bounded m next) {es : List (Edit α β)}
    (hes : ∀ e ∈ es, log.Spares e) : log.Bounded (m.applyAll es) next := by
  induction es generalizing m with
  | nil => exact h
  | cons e es ih =>
    exact ih (h.apply (hes e List.mem_cons_self)) fun f hf => hes f (List.mem_cons_of_mem e hf)

theorem Bounded.append (h : log.Bounded m next) {k : α} {v w : β}
    (hk : log.isEntry k) (hv : log.sequence v = some (next + 1))
    (hw : log.counter w = some (next + 1)) :
    log.Bounded (m.applyAll [.set k v, .set log.counterKey w]) (next + 1) := by
  have hget : ∀ x, (m.applyAll [.set k v, .set log.counterKey w]).get? x =
      if x = log.counterKey then some w else if x = k then some v else m.get? x := by
    intro x
    rw [get?_applyAll]
    simp only [lastEffect_cons, lastEffect_nil, Edit.effect, Option.none_or]
    by_cases hc : x = log.counterKey
    · simp [hc]
    · by_cases hxk : x = k
      · subst hxk
        simp [hc]
      · simp [hc, hxk]
  have hcount : log.count (m.applyAll [.set k v, .set log.counterKey w]) = next + 1 := by
    simp [count, hget, hw]
  refine ⟨?_, hcount.le⟩
  rintro n ⟨x, u, hx, hu, hn⟩
  rw [hcount]
  rw [hget, if_neg (log.lt_counterKey x hx).ne] at hu
  split at hu
  · cases hu
    rw [hv] at hn
    cases hn
    exact le_rfl
  · exact Nat.le_succ_of_le ((h.entries n ⟨x, u, hx, hu, hn⟩).trans h.counter)

theorem bounded_of_cleared (hcounter : m.get? log.counterKey = none)
    (hentries : ∀ x, log.isEntry x → m.get? x = none) (next : ℕ) : log.Bounded m next := by
  refine ⟨?_, by simp [count, hcounter]⟩
  rintro n ⟨x, v, hx, hv, -⟩
  rw [hentries x hx] at hv
  cases hv

end CountedLog
