import Antfly.Lib.BinaryHeap
import Mathlib.Data.Fin.Tuple.Sort
import Mathlib.Data.List.FinRange
import Mathlib.Order.Lattice

/-!
A comparison sort of a slice with `n` places asks which of two places holds the smaller element and
swaps the elements of two places; what it does next depends on the answers only.  It is written as
the tree of its questions.

A caller may answer the questions from the slice, as the sort expects, or from somewhere else.  With
answers that do not depend on the slice the sort carries out one fixed permutation, whatever the
slice holds.
-/

namespace ComparisonSort

inductive SortProgram (n : ℕ) where
  | done
  | compare (i j : Fin n) (yes no : SortProgram n)
  | swap (i j : Fin n) (next : SortProgram n)

variable {α β : Type} {n : ℕ}

/-- The answers may depend on the slice as it stands when the question is put. -/
def SortProgram.run (less : (Fin n → α) → Fin n → Fin n → Bool) :
    SortProgram n → (Fin n → α) → Fin n → α
  | .done, s => s
  | .compare i j yes no, s => if less s i j then yes.run less s else no.run less s
  | .swap i j next, s => next.run less (s ∘ Equiv.swap i j)

/-- Answers read from the slice that is sorted. -/
def elementLess (less : α → α → Bool) (s : Fin n → α) (i j : Fin n) : Bool :=
  less (s i) (s j)

def Sorted (less : α → α → Bool) (s : Fin n → α) : Prop :=
  ∀ i j, i < j → less (s j) (s i) = false

/-- The program sorts every slice, by every order, when its questions are answered from the
slice. -/
def SortProgram.Sorts (p : SortProgram n) : Prop :=
  ∀ {α : Type} (less : α → α → Bool), BinaryHeap.WeakOrder less →
    ∀ s : Fin n → α, Sorted less (p.run (elementLess less) s)

def IsComparisonSort (sort : ∀ n, SortProgram n) : Prop :=
  ∀ n, (sort n).Sorts

theorem SortProgram.run_permutes (less : (Fin n → α) → Fin n → Fin n → Bool) (p : SortProgram n)
    (s : Fin n → α) : ∃ σ : Equiv.Perm (Fin n), p.run less s = s ∘ σ := by
  induction p generalizing s with
  | done => exact ⟨1, rfl⟩
  | compare i j yes no ihYes ihNo =>
    rw [SortProgram.run]
    split
    · exact ihYes s
    · exact ihNo s
  | swap i j next ih =>
    obtain ⟨σ, hσ⟩ := ih (s ∘ Equiv.swap i j)
    exact ⟨Equiv.swap i j * σ, hσ⟩

theorem SortProgram.ofFn_run_perm (less : (Fin n → α) → Fin n → Fin n → Bool) (p : SortProgram n)
    (s : Fin n → α) : (List.ofFn (p.run less s)).Perm (List.ofFn s) := by
  obtain ⟨σ, hσ⟩ := p.run_permutes less s
  rw [hσ]
  exact σ.ofFn_comp_perm s

/-- The permutation that a program carries out when the answers are fixed. -/
def SortProgram.moves (answer : Fin n → Fin n → Bool) : SortProgram n → Equiv.Perm (Fin n)
  | .done => 1
  | .compare i j yes no => if answer i j then yes.moves answer else no.moves answer
  | .swap i j next => Equiv.swap i j * next.moves answer

theorem SortProgram.run_fixed (answer : Fin n → Fin n → Bool) (p : SortProgram n)
    (s : Fin n → α) : p.run (fun _ => answer) s = s ∘ p.moves answer := by
  induction p generalizing s with
  | done => rfl
  | compare i j yes no ihYes ihNo =>
    rw [SortProgram.run, SortProgram.moves]
    split
    · exact ihYes s
    · exact ihNo s
  | swap i j next ih => exact ih (s ∘ Equiv.swap i j)

/-- Moves the element at `j` down while it is less than the one before it. -/
def sink : (j : ℕ) → j < n → SortProgram n → SortProgram n
  | 0, _, next => next
  | j + 1, h, next =>
    .compare ⟨j + 1, h⟩ ⟨j, Nat.lt_of_succ_lt h⟩
      (.swap ⟨j + 1, h⟩ ⟨j, Nat.lt_of_succ_lt h⟩ (sink j (Nat.lt_of_succ_lt h) next)) next

/-- Inserts the last `left` elements. -/
def insertLast : ℕ → SortProgram n
  | 0 => .done
  | left + 1 =>
    if h : n - (left + 1) < n then sink (n - (left + 1)) h (insertLast left) else .done

/-- `insertionSort_func`, by which `sort.Slice` sorts up to twelve elements. -/
def insertionSort (n : ℕ) : SortProgram n :=
  insertLast n

section Insertion

variable (less : α → α → Bool)

def SortedBelow (k : ℕ) (s : Fin n → α) : Prop :=
  ∀ a b : Fin n, a < b → b.val < k → less (s b) (s a) = false

/-- Sorted up to place `i` but for the element at `j`, which is not above those behind it. -/
structure SinkReady (i j : ℕ) (hj : j < n) (s : Fin n → α) : Prop where
  others : ∀ a b : Fin n, a < b → b.val ≤ i → a.val ≠ j → b.val ≠ j → less (s b) (s a) = false
  behind : ∀ b : Fin n, j < b.val → b.val ≤ i → less (s b) (s ⟨j, hj⟩) = false

variable {less}

variable {i j : ℕ} {s : Fin n → α} {hj : j + 1 < n}

theorem SortedBelow.sinkReady (h : SortedBelow less i s) (hi : i < n) :
    SinkReady less i i hi s where
  others a b hab hb _ hbi := h a b hab (by omega)
  behind b hb hbi := by omega

theorem SinkReady.sortedBelow_zero {hj : 0 < n} (h : SinkReady less i 0 hj s) :
    SortedBelow less (i + 1) s := by
  intro a b hab hb
  have hab' : a.val < b.val := hab
  by_cases ha : a.val = 0
  · have ha' : a = ⟨0, hj⟩ := Fin.ext ha
    rw [ha']
    exact h.behind b (by omega) (by omega)
  · exact h.others a b hab (by omega) ha (by omega)

theorem SinkReady.sortedBelow (order : BinaryHeap.WeakOrder less)
    (h : SinkReady less i (j + 1) hj s)
    (hstop : less (s ⟨j + 1, hj⟩) (s ⟨j, Nat.lt_of_succ_lt hj⟩) = false) :
    SortedBelow less (i + 1) s := by
  intro a b hab hb
  have hab' : a.val < b.val := hab
  by_cases ha : a.val = j + 1
  · have ha' : a = ⟨j + 1, hj⟩ := Fin.ext ha
    rw [ha']
    exact h.behind b (by omega) (by omega)
  by_cases hbj : b.val = j + 1
  · have hb' : b = ⟨j + 1, hj⟩ := Fin.ext hbj
    rw [hb']
    by_cases haj : a.val = j
    · have ha' : a = ⟨j, Nat.lt_of_succ_lt hj⟩ := Fin.ext haj
      rw [ha']
      exact hstop
    · have hbelow := h.others a ⟨j, Nat.lt_of_succ_lt hj⟩ (show a.val < j by omega)
        (show j ≤ i by omega) ha (show j ≠ j + 1 by omega)
      exact order.trans _ _ _ hbelow hstop
  · exact h.others a b hab (by omega) ha hbj

theorem SinkReady.swap (order : BinaryHeap.WeakOrder less) (h : SinkReady less i (j + 1) hj s)
    (hi : j + 1 ≤ i) (hless : less (s ⟨j + 1, hj⟩) (s ⟨j, Nat.lt_of_succ_lt hj⟩) = true) :
    SinkReady less i j (Nat.lt_of_succ_lt hj)
      (s ∘ Equiv.swap ⟨j + 1, hj⟩ ⟨j, Nat.lt_of_succ_lt hj⟩) := by
  have hupper : Equiv.swap (⟨j + 1, hj⟩ : Fin n) ⟨j, Nat.lt_of_succ_lt hj⟩ ⟨j + 1, hj⟩ =
      ⟨j, Nat.lt_of_succ_lt hj⟩ := Equiv.swap_apply_left _ _
  have hlower : Equiv.swap (⟨j + 1, hj⟩ : Fin n) ⟨j, Nat.lt_of_succ_lt hj⟩
      ⟨j, Nat.lt_of_succ_lt hj⟩ = ⟨j + 1, hj⟩ := Equiv.swap_apply_right _ _
  have hother : ∀ c : Fin n, c.val ≠ j → c.val ≠ j + 1 →
      Equiv.swap (⟨j + 1, hj⟩ : Fin n) ⟨j, Nat.lt_of_succ_lt hj⟩ c = c := by
    intro c hc hc'
    exact Equiv.swap_apply_of_ne_of_ne (fun e => hc' (congrArg Fin.val e))
      (fun e => hc (congrArg Fin.val e))
  refine ⟨?_, ?_⟩
  · intro a b hab hb ha hbj
    have hab' : a.val < b.val := hab
    simp only [Function.comp_apply]
    by_cases hau : a.val = j + 1
    · have ha' : a = ⟨j + 1, hj⟩ := Fin.ext hau
      rw [ha', hupper, hother b hbj (by omega)]
      exact h.others _ b (show j < b.val by omega) hb (show j ≠ j + 1 by omega) (by omega)
    by_cases hbu : b.val = j + 1
    · have hb' : b = ⟨j + 1, hj⟩ := Fin.ext hbu
      rw [hb', hupper, hother a ha hau]
      exact h.others a _ (show a.val < j by omega) (show j ≤ i by omega) hau
        (show j ≠ j + 1 by omega)
    · rw [hother a ha hau, hother b hbj hbu]
      exact h.others a b hab hb hau hbu
  · intro b hb hbi
    simp only [Function.comp_apply]
    rw [hlower]
    by_cases hbu : b.val = j + 1
    · have hb' : b = ⟨j + 1, hj⟩ := Fin.ext hbu
      rw [hb', hupper]
      exact order.asymm _ _ hless
    · rw [hother b (by omega) hbu]
      exact h.behind b (by omega) hbi

theorem run_sink (order : BinaryHeap.WeakOrder less) (next : SortProgram n) :
    ∀ (j : ℕ) (hj : j < n) (s : Fin n → α), j ≤ i → SinkReady less i j hj s →
      ∃ s', (sink j hj next).run (elementLess less) s = next.run (elementLess less) s' ∧
        SortedBelow less (i + 1) s' := by
  intro j
  induction j with
  | zero =>
    intro hj s _ h
    exact ⟨s, rfl, h.sortedBelow_zero⟩
  | succ j ih =>
    intro hj s hi h
    rw [sink, SortProgram.run]
    cases hless : less (s ⟨j + 1, hj⟩) (s ⟨j, Nat.lt_of_succ_lt hj⟩) with
    | false =>
      refine ⟨s, ?_, h.sortedBelow order hless⟩
      simp only [elementLess, hless, Bool.false_eq_true, if_false]
    | true =>
      obtain ⟨s', hs', hsorted⟩ := ih _ _ (by omega) (h.swap order hi hless)
      refine ⟨s', ?_, hsorted⟩
      simp only [elementLess, hless, if_true]
      rw [SortProgram.run]
      exact hs'

theorem run_insertLast (order : BinaryHeap.WeakOrder less) :
    ∀ (left : ℕ) (s : Fin n → α), left ≤ n → SortedBelow less (n - left) s →
      Sorted less ((insertLast left).run (elementLess less) s) := by
  intro left
  induction left with
  | zero =>
    intro s _ h i j hij
    exact h i j hij (by omega)
  | succ left ih =>
    intro s hleft h
    have hi : n - (left + 1) < n := by omega
    rw [insertLast, dif_pos hi]
    obtain ⟨s', hs', hsorted⟩ :=
      run_sink order (insertLast left) (n - (left + 1)) hi s (Nat.le_refl _) (h.sinkReady hi)
    rw [hs']
    refine ih s' (by omega) ?_
    rwa [show n - (left + 1) + 1 = n - left by omega] at hsorted

end Insertion

theorem insertionSort_isComparisonSort : IsComparisonSort insertionSort := by
  intro n α less order s
  refine run_insertLast order n s (Nat.le_refl n) ?_
  intro a b _ hb
  omega

section Fixed

variable {S : Type} [LinearOrder S]

/-- Answers read from keys that stay where they are, for the order from high to low. -/
def keyLess (keys : Fin n → S) (i j : Fin n) : Bool :=
  decide (keys j < keys i)

theorem sorts_swap_first {p : SortProgram n} (h : p.Sorts) (i j : Fin n) :
    (SortProgram.swap i j p).Sorts :=
  fun less order s => h less order (s ∘ Equiv.swap i j)

/-- Insertion sort, but slices with `n` elements have two of them exchanged before it. -/
def exchangeFirst (a b : Fin n) (m : ℕ) : SortProgram m :=
  if h : n = m then .swap (h ▸ a) (h ▸ b) (insertionSort m) else insertionSort m

theorem exchangeFirst_self (a b : Fin n) :
    exchangeFirst a b n = .swap a b (insertionSort n) := by
  simp [exchangeFirst]

theorem exchangeFirst_isComparisonSort (a b : Fin n) : IsComparisonSort (exchangeFirst a b) := by
  intro m
  rw [exchangeFirst]
  split
  · exact sorts_swap_first (insertionSort_isComparisonSort m) _ _
  · exact insertionSort_isComparisonSort m

def Descending (s : Fin n → S) : Prop :=
  ∀ i j, i < j → s j ≤ s i

theorem Descending.monotone {s : Fin n → S} (h : Descending s) :
    Monotone (OrderDual.toDual ∘ s) := by
  intro i j hij
  rcases hij.lt_or_eq with hlt | rfl
  · exact h i j hlt
  · exact le_refl _

/-- Among all sorts there is one that leaves the keys out of order, unless they are all equal:
two sorts that differ by a swap at the start carry out permutations that differ by it. -/
theorem fixed_keys_sorted_iff (keys : Fin n → S) :
    (∀ sort, IsComparisonSort sort → Descending ((sort n).run (fun _ => keyLess keys) keys)) ↔
      ∀ i j, keys i = keys j := by
  constructor
  · intro h a b
    have hplain := h insertionSort insertionSort_isComparisonSort
    have hswapped := h (exchangeFirst a b) (exchangeFirst_isComparisonSort a b)
    rw [exchangeFirst_self] at hswapped
    rw [SortProgram.run_fixed] at hplain hswapped
    have heq := Tuple.unique_monotone (f := OrderDual.toDual ∘ keys) hplain.monotone
      hswapped.monotone
    have hpoint := congrFun heq (((insertionSort n).moves (keyLess keys)).symm a)
    simpa [SortProgram.moves] using hpoint
  · intro h sort _ i j _
    obtain ⟨σ, hσ⟩ := (sort n).run_permutes (fun _ => keyLess keys) keys
    rw [hσ]
    exact (h _ _).le

end Fixed

end ComparisonSort
