import Mathlib.Data.List.Basic
import Mathlib.Data.List.Perm.Basic

/-!
The array heap with its root first, the children of index `i` at `2 * i + 1` and `2 * i + 2`.  An
entry moves up while it is less than its parent, and down while its smaller child is less than it;
of equal children the left one is taken.  The order is any Boolean `less` that is the strict part of
a total preorder.
-/

namespace BinaryHeap

open List

variable {α : Type*} (less : α → α → Bool)

def lessAt (h : List α) (i j : ℕ) : Bool :=
  match h[i]?, h[j]? with
  | some a, some b => less a b
  | _, _ => false

/-- Moves entry `j` up; `fuel` bounds the number of moves. -/
def up : ℕ → List α → ℕ → List α
  | 0, h, _ => h
  | fuel + 1, h, j =>
    let i := (j - 1) / 2
    if i = j ∨ lessAt less h j i = false then h else up fuel (h.swap i j) i

def smallerChild (n : ℕ) (h : List α) (i : ℕ) : ℕ :=
  let left := 2 * i + 1
  if left + 1 < n ∧ lessAt less h (left + 1) left = true then left + 1 else left

/-- Moves entry `i` down among the first `n` entries; `fuel` bounds the number of moves. -/
def down (n : ℕ) : ℕ → List α → ℕ → List α
  | 0, h, _ => h
  | fuel + 1, h, i =>
    let j := smallerChild less n h i
    if n ≤ 2 * i + 1 ∨ lessAt less h j i = false then h else down n fuel (h.swap i j) j

def push (h : List α) (x : α) : List α :=
  up less (h.length + 1) (h ++ [x]) h.length

/-- Swaps the root with the last entry, moves it down among the others and takes the last off. -/
def pop (h : List α) : Option (α × List α) :=
  let n := h.length - 1
  let moved := down less n h.length (h.swap 0 n) 0
  moved[n]?.map fun x => (x, moved.take n)

/-- The heap with another root, which is moved down. -/
def replaceRoot (h : List α) (x : α) : List α :=
  down less h.length h.length (h.set 0 x) 0

variable {i j k fuel n : ℕ} {h : List α} {x : α}

theorem getElem?_swap (h : List α) (hi : i < h.length) (hj : j < h.length) (k : ℕ) :
    (h.swap i j)[k]? = if k = j then h[i]? else if k = i then h[j]? else h[k]? := by
  rw [swap_eq_of_lt hi hj, getElem?_set, getElem?_set, length_set,
    getElem?_eq_getElem hi, getElem?_eq_getElem hj]
  by_cases hkj : k = j
  · simp [hkj, hj]
  by_cases hki : k = i
  · have hij : i ≠ j := hki ▸ hkj
    simp [hki, hi, hij, hij.symm]
  · simp [Ne.symm hkj, Ne.symm hki, hkj, hki]

theorem lessAt_eq_false_iff :
    lessAt less h i j = false ↔
      ∀ a b, h[i]? = some a → h[j]? = some b → less a b = false := by
  unfold lessAt
  split <;> simp_all

theorem lessAt_eq_true_iff :
    lessAt less h i j = true ↔
      ∃ a b, h[i]? = some a ∧ h[j]? = some b ∧ less a b = true := by
  unfold lessAt
  split <;> simp_all

theorem lt_length_of_lessAt (hless : lessAt less h i j = true) : i < h.length ∧ j < h.length := by
  obtain ⟨a, b, ha, hb, -⟩ := (lessAt_eq_true_iff less).mp hless
  exact ⟨(List.getElem?_eq_some_iff.mp ha).1, (List.getElem?_eq_some_iff.mp hb).1⟩

theorem up_perm (fuel : ℕ) (h : List α) (j : ℕ) : (up less fuel h j).Perm h := by
  induction fuel generalizing h j with
  | zero => exact List.Perm.refl h
  | succ fuel ih =>
    rw [up]
    split
    · exact List.Perm.refl h
    · exact (ih _ _).trans (swap_perm h _ _)

theorem down_perm (n fuel : ℕ) (h : List α) (i : ℕ) : (down less n fuel h i).Perm h := by
  induction fuel generalizing h i with
  | zero => exact List.Perm.refl h
  | succ fuel ih =>
    rw [down]
    split
    · exact List.Perm.refl h
    · exact (ih _ _).trans (swap_perm h _ _)

/-- No entry among the first `n` is less than its parent. -/
def Ordered (n : ℕ) (h : List α) : Prop :=
  ∀ c, 0 < c → c < n → lessAt less h c ((c - 1) / 2) = false

/-- Ordered but for the edge into `j`, whose parent may stand above the children of `j`. -/
structure UpReady (h : List α) (j : ℕ) : Prop where
  others : ∀ c, 0 < c → c ≠ j → lessAt less h c ((c - 1) / 2) = false
  across : ∀ c, 0 < c → (c - 1) / 2 = j → 0 < j → lessAt less h c ((j - 1) / 2) = false

/-- Ordered but for the edges out of `i`, whose children may stand below the parent of `i`. -/
structure DownReady (n : ℕ) (h : List α) (i : ℕ) : Prop where
  others : ∀ c, 0 < c → c < n → (c - 1) / 2 ≠ i → lessAt less h c ((c - 1) / 2) = false
  across : ∀ c, 0 < c → c < n → (c - 1) / 2 = i → 0 < i → lessAt less h c ((i - 1) / 2) = false

structure WeakOrder : Prop where
  asymm : ∀ a b, less a b = true → less b a = false
  trans : ∀ a b c, less b a = false → less c b = false → less c a = false

variable {less}

theorem WeakOrder.lessAt_trans (ho : WeakOrder less) (hj : j < h.length)
    (hij : lessAt less h j i = false) (hjk : lessAt less h k j = false) :
    lessAt less h k i = false := by
  rw [lessAt_eq_false_iff] at *
  intro c a hc ha
  have hb := getElem?_eq_getElem hj
  exact ho.trans a _ c (hij _ _ hb ha) (hjk _ _ hc hb)

theorem WeakOrder.lessAt_asymm (ho : WeakOrder less) (hij : lessAt less h i j = true) :
    lessAt less h j i = false := by
  obtain ⟨a, b, ha, hb, hless⟩ := (lessAt_eq_true_iff less).mp hij
  rw [lessAt_eq_false_iff]
  intro b' a' hb' ha'
  rw [hb] at hb'
  rw [ha] at ha'
  cases hb'
  cases ha'
  exact ho.asymm _ _ hless

theorem WeakOrder.lessAt_self (ho : WeakOrder less) (h : List α) (k : ℕ) :
    lessAt less h k k = false := by
  by_contra hself
  rw [Bool.not_eq_false] at hself
  rw [ho.lessAt_asymm hself] at hself
  contradiction

theorem lessAt_swap (h : List α) (hi : i < h.length) (hj : j < h.length) (k l : ℕ) :
    lessAt less (h.swap i j) k l =
      lessAt less h (if k = j then i else if k = i then j else k)
        (if l = j then i else if l = i then j else l) := by
  unfold lessAt
  rw [getElem?_swap h hi hj, getElem?_swap h hi hj]
  congr 1 <;> split_ifs <;> rfl

theorem UpReady.swap (ho : WeakOrder less) (hready : UpReady less h j) (hpos : 0 < j)
    (hless : lessAt less h j ((j - 1) / 2) = true) :
    UpReady less (h.swap ((j - 1) / 2) j) ((j - 1) / 2) := by
  obtain ⟨hj, hi⟩ := lt_length_of_lessAt less hless
  obtain ⟨i, hidef⟩ : ∃ i, i = (j - 1) / 2 := ⟨_, rfl⟩
  rw [← hidef] at hless hi ⊢
  have hij : i ≠ j := by omega
  have hle := ho.lessAt_asymm hless
  constructor
  · intro c hc hci
    rw [lessAt_swap h hi hj]
    by_cases hcj : c = j
    · subst hcj
      rw [← hidef]
      simpa [hij] using hle
    by_cases hpj : (c - 1) / 2 = j
    · have hacross := hready.across c hc hpj hpos
      rw [← hidef] at hacross
      simpa [hcj, hci, hpj] using hacross
    by_cases hpi : (c - 1) / 2 = i
    · have hparent := hready.others c hc hcj
      rw [hpi] at hparent
      simpa [hcj, hci, hpi, hij] using ho.lessAt_trans hi hle hparent
    · simpa [hcj, hci, hpj, hpi] using hready.others c hc hcj
  · intro c hc hpc hipos
    have hgrand := hready.others i hipos hij
    have hne : (i - 1) / 2 ≠ j ∧ (i - 1) / 2 ≠ i := by omega
    rw [lessAt_swap h hi hj]
    by_cases hcj : c = j
    · simpa [hcj, hne.1, hne.2] using hgrand
    have hparent := hready.others c hc hcj
    rw [hpc] at hparent
    have hci : c ≠ i := by omega
    simpa [hcj, hci, hne.1, hne.2] using ho.lessAt_trans hi hgrand hparent

theorem up_ordered (ho : WeakOrder less) (hfuel : j < fuel) (hready : UpReady less h j) (n : ℕ) :
    Ordered less n (up less fuel h j) := by
  induction fuel generalizing h j with
  | zero => omega
  | succ fuel ih =>
    rw [up]
    split
    · rename_i hstop
      intro c hc _
      by_cases hcj : c = j
      · subst hcj
        rcases hstop with hroot | hnot
        · omega
        · exact hnot
      · exact hready.others c hc hcj
    · rename_i hgo
      obtain ⟨hne, hless⟩ := not_or.mp hgo
      rw [Bool.not_eq_false] at hless
      have hpos : 0 < j := by omega
      exact ih (by omega) (hready.swap ho hpos hless)

theorem DownReady.swap (ho : WeakOrder less) (hready : DownReady less n h i) (hj : j < n)
    (hpos : 0 < j) (hparent : (j - 1) / 2 = i)
    (hsmall : ∀ c, 0 < c → c < n → (c - 1) / 2 = i → lessAt less h c j = false)
    (hless : lessAt less h j i = true) :
    DownReady less n (h.swap i j) j := by
  obtain ⟨hjl, hil⟩ := lt_length_of_lessAt less hless
  have hij : i ≠ j := by omega
  constructor
  · intro c hc hcn hpj
    rw [lessAt_swap h hil hjl]
    by_cases hcj : c = j
    · subst hcj
      simpa [hparent, hij] using ho.lessAt_asymm hless
    by_cases hci : c = i
    · subst hci
      have hne : (c - 1) / 2 ≠ c := by omega
      simpa [hcj, hpj, hne] using hready.across j hpos hj hparent hc
    by_cases hpi : (c - 1) / 2 = i
    · simpa [hcj, hci, hpi, hij] using hsmall c hc hcn hpi
    · simpa [hcj, hci, hpj, hpi] using hready.others c hc hcn hpi
  · intro c hc hcn hpc _
    rw [lessAt_swap h hil hjl]
    have hother := hready.others c hc hcn (by omega)
    rw [hpc] at hother
    have hcj : c ≠ j := by omega
    have hci : c ≠ i := by omega
    simpa [hcj, hci, hparent, hij] using hother

theorem smallerChild_spec (ho : WeakOrder less) (hleft : 2 * i + 1 < n)
    (hj : smallerChild less n h i = j) :
    j < n ∧ 0 < j ∧ (j - 1) / 2 = i ∧
      ∀ c, 0 < c → c < n → (c - 1) / 2 = i → lessAt less h c j = false := by
  have hrange : j < n ∧ 0 < j ∧ (j - 1) / 2 = i := by
    simp only [smallerChild] at hj
    split at hj <;> omega
  refine ⟨hrange.1, hrange.2.1, hrange.2.2, ?_⟩
  intro c hc hcn hpc
  have hcases : c = 2 * i + 1 ∨ c = 2 * i + 1 + 1 := by omega
  simp only [smallerChild] at hj
  split at hj <;> rename_i hright <;> subst hj <;> rcases hcases with rfl | rfl
  · exact ho.lessAt_asymm hright.2
  · exact ho.lessAt_self h _
  · exact ho.lessAt_self h _
  · simpa [hcn] using hright

theorem down_ordered (ho : WeakOrder less) (hn : n ≤ h.length) (hfuel : n ≤ i + fuel)
    (hready : DownReady less n h i) :
    Ordered less n (down less n fuel h i) := by
  induction fuel generalizing h i with
  | zero =>
    intro c hc hcn
    exact hready.others c hc hcn (by omega)
  | succ fuel ih =>
    obtain ⟨j, hj⟩ : ∃ j, smallerChild less n h i = j := ⟨_, rfl⟩
    rw [down, hj]
    split
    · rename_i hstop
      intro c hc hcn
      by_cases hpc : (c - 1) / 2 = i
      · rcases hstop with hleaf | hnot
        · omega
        · obtain ⟨hjn, -, -, hsmall⟩ := smallerChild_spec ho (by omega) hj
          rw [hpc]
          exact ho.lessAt_trans (by omega) hnot (hsmall c hc hcn hpc)
      · exact hready.others c hc hcn hpc
    · rename_i hgo
      obtain ⟨hleft, hless⟩ := not_or.mp hgo
      rw [Bool.not_eq_false] at hless
      obtain ⟨hjn, hpos, hpj, hsmall⟩ := smallerChild_spec ho (by omega) hj
      have hlength : (h.swap i j).length = h.length := (swap_perm h i j).length_eq
      refine ih (by omega) (by omega) ?_
      exact hready.swap ho hjn hpos hpj hsmall hless

theorem getElem?_down (ho : WeakOrder less) (hk : n ≤ k) : (down less n fuel h i)[k]? = h[k]? := by
  induction fuel generalizing h i with
  | zero => rfl
  | succ fuel ih =>
    obtain ⟨j, hj⟩ : ∃ j, smallerChild less n h i = j := ⟨_, rfl⟩
    rw [down, hj]
    split
    · rfl
    · rename_i hgo
      obtain ⟨hleft, hless⟩ := not_or.mp hgo
      rw [Bool.not_eq_false] at hless
      obtain ⟨hjl, hil⟩ := lt_length_of_lessAt less hless
      obtain ⟨hjn, -⟩ := smallerChild_spec ho (by omega) hj
      rw [ih, getElem?_swap h hil hjl, if_neg (by omega), if_neg (by omega)]

theorem Ordered.root_le (ho : WeakOrder less) (hord : Ordered less h.length h)
    (hx : h[0]? = some x) {y : α} (hy : y ∈ h) :
    less y x = false := by
  have hroot : ∀ c, c < h.length → lessAt less h c 0 = false := by
    intro c
    induction c using Nat.strongRecOn with
    | ind c ih =>
      intro hc
      rcases Nat.eq_zero_or_pos c with rfl | hpos
      · exact ho.lessAt_self h 0
      · have hparent := ih ((c - 1) / 2) (by omega) (by omega)
        exact ho.lessAt_trans (by omega) hparent (hord c hpos hc)
  obtain ⟨c, hc, hget⟩ := getElem_of_mem hy
  have hle := hroot c hc
  rw [lessAt_eq_false_iff] at hle
  exact hle y x (by rw [getElem?_eq_getElem hc, hget]) hx

theorem push_perm (h : List α) (x : α) : (push less h x).Perm (x :: h) :=
  (up_perm less _ _ _).trans (perm_append_singleton x h)

theorem push_ordered (ho : WeakOrder less) (hord : Ordered less h.length h) (x : α) (n : ℕ) :
    Ordered less n (push less h x) := by
  refine up_ordered ho (Nat.lt_succ_self _) ⟨?_, ?_⟩ n
  · intro c hc hne
    rw [lessAt_eq_false_iff]
    intro a b ha hb
    have hcl := (List.getElem?_eq_some_iff.mp ha).1
    rw [length_append, length_singleton] at hcl
    have hclt : c < h.length := by omega
    rw [getElem?_append_left hclt] at ha
    rw [getElem?_append_left (by omega)] at hb
    exact (lessAt_eq_false_iff less).mp (hord c hc hclt) a b ha hb
  · intro c hc hpc hpos
    rw [lessAt_eq_false_iff]
    intro a b ha hb
    have hcl := (List.getElem?_eq_some_iff.mp ha).1
    rw [length_append, length_singleton] at hcl
    omega

theorem Ordered.take (hord : Ordered less n h) : Ordered less (h.take n).length (h.take n) := by
  intro c hc hcn
  rw [length_take] at hcn
  rw [lessAt_eq_false_iff]
  intro a b ha hb
  rw [getElem?_take_of_lt (by omega)] at ha hb
  exact (lessAt_eq_false_iff less).mp (hord c hc (by omega)) a b ha hb

/-- A pop takes the root of a nonempty heap, which is least, and leaves a heap of the others. -/
theorem pop_spec (ho : WeakOrder less) (hord : Ordered less h.length h) (hne : h ≠ []) :
    ∃ x rest, pop less h = some (x, rest) ∧ (x :: rest).Perm h ∧
      Ordered less rest.length rest ∧ ∀ y ∈ h, less y x = false := by
  have hlength : 0 < h.length := length_pos_iff.mpr hne
  have hlast : h.length - 1 < h.length := by omega
  obtain ⟨moved, hmoved⟩ :
      ∃ moved, moved = down less (h.length - 1) h.length (h.swap 0 (h.length - 1)) 0 := ⟨_, rfl⟩
  have hperm : moved.Perm h := by
    rw [hmoved]
    exact (down_perm less _ _ _ _).trans (swap_perm h _ _)
  have hroot : moved[h.length - 1]? = some h[0] := by
    rw [hmoved, getElem?_down ho (Nat.le_refl _), getElem?_swap h hlength hlast, if_pos rfl,
      getElem?_eq_getElem hlength]
  have hrest : Ordered less (h.length - 1) moved := by
    rw [hmoved]
    refine down_ordered ho ?_ (by omega) ⟨?_, ?_⟩
    · rw [(swap_perm h _ _).length_eq]
      omega
    · intro c hc hcn hpc
      rw [lessAt_swap h hlength hlast]
      have hc0 : c ≠ 0 := by omega
      have hcl : c ≠ h.length - 1 := by omega
      have hpl : (c - 1) / 2 ≠ h.length - 1 := by omega
      simpa [hc0, hcl, hpc, hpl] using hord c hc (by omega)
    · intro c _ _ _ hpos
      omega
  have hsplit : moved.take (h.length - 1) ++ [h[0]] = moved := by
    have hml := hperm.length_eq
    have htake : moved.take (h.length - 1 + 1) = moved := take_of_length_le (by omega)
    rw [take_add_one, hroot] at htake
    exact htake
  refine ⟨h[0], moved.take (h.length - 1), ?_, ?_, hrest.take, ?_⟩
  · unfold pop
    simp only [← hmoved, hroot, Option.map_some]
  · have happend := perm_append_singleton h[0] (moved.take (h.length - 1))
    rw [hsplit] at happend
    exact happend.symm.trans hperm
  · intro y hy
    exact hord.root_le ho (getElem?_eq_getElem hlength) hy

theorem pop_root (ho : WeakOrder less) {rest : List α} (hpop : pop less h = some (x, rest)) :
    h.head? = some x := by
  unfold pop at hpop
  obtain ⟨y, hy, hxy⟩ := Option.map_eq_some_iff.mp hpop
  obtain ⟨rfl, -⟩ := Prod.mk.inj hxy
  have hne : h ≠ [] := by
    rintro rfl
    cases hy
  have hlength : 0 < h.length := length_pos_iff.mpr hne
  rw [getElem?_down ho (Nat.le_refl _), getElem?_swap h hlength (by omega), if_pos rfl] at hy
  rwa [head?_eq_getElem?]

theorem replaceRoot_perm (x y : α) (t : List α) :
    (replaceRoot less (x :: t) y).Perm (y :: t) :=
  down_perm less _ _ _ _

theorem replaceRoot_ordered (ho : WeakOrder less) {t : List α}
    (hord : Ordered less (x :: t).length (x :: t)) (y : α) :
    Ordered less (x :: t).length (replaceRoot less (x :: t) y) := by
  refine down_ordered ho (by simp) (by simp) ⟨?_, ?_⟩
  · intro c hc hcn hpc
    have hother := hord c hc hcn
    rw [lessAt_eq_false_iff] at hother ⊢
    intro a b ha hb
    rw [set_cons_zero, getElem?_cons, if_neg (by omega)] at ha hb
    refine hother a b ?_ ?_
    · rwa [getElem?_cons, if_neg (by omega)]
    · rwa [getElem?_cons, if_neg (by omega)]
  · intro c _ _ _ hpos
    omega

end BinaryHeap
