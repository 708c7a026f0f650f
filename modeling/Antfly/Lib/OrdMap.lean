import Mathlib.Data.List.Basic
import Mathlib.Order.Lattice
import Mathlib.Order.Defs.LinearOrder

/-!
A finite map kept as its entries in strictly increasing key order, the shape in which an ordered
key-value engine shows its content to an iterator.  Point writes, point deletes and range deletes
are `Edit`s; a batch is a list of edits applied in order, and what a batch does to one key is
decided by the last edit that touches the key (`lastEffect`).
-/

/-- A finite map as the list of its entries in increasing key order. -/
structure OrdMap (α : Type*) (β : Type*) [LinearOrder α] where
  entries : List (α × β)
  sorted : entries.Pairwise fun a b => a.1 < b.1

namespace OrdMap

open List

variable {α β : Type*} [LinearOrder α]

instance [DecidableEq β] : DecidableEq (OrdMap α β) := fun m m' =>
  decidable_of_iff (m.entries = m'.entries) (by
    cases m
    cases m'
    simp)

def empty : OrdMap α β := ⟨[], List.Pairwise.nil⟩

instance : Inhabited (OrdMap α β) := ⟨empty⟩

def get? (m : OrdMap α β) (k : α) : Option β :=
  (m.entries.find? fun e => e.1 = k).map Prod.snd

/-- The entries whose key satisfies `p`. -/
def filter (m : OrdMap α β) (p : α → Bool) : OrdMap α β where
  entries := m.entries.filter fun e => p e.1
  sorted := m.sorted.filter _

def insert (m : OrdMap α β) (k : α) (v : β) : OrdMap α β where
  entries := (m.entries.filter fun e => e.1 < k) ++ (k, v) :: m.entries.filter fun e => k < e.1
  sorted := by
    rw [List.pairwise_append, List.pairwise_cons]
    refine ⟨m.sorted.filter _, ⟨?_, m.sorted.filter _⟩, ?_⟩
    · intro e he
      simpa using (List.mem_filter.mp he).2
    · intro a ha b hb
      have hak : a.1 < k := by simpa using (List.mem_filter.mp ha).2
      rcases List.mem_cons.mp hb with rfl | hb
      · exact hak
      · have hkb : k < b.1 := by simpa using (List.mem_filter.mp hb).2
        exact hak.trans hkb

def erase (m : OrdMap α β) (k : α) : OrdMap α β :=
  m.filter fun x => x ≠ k

/-- Every value replaced by a function of its key and itself. -/
def map {γ : Type*} (m : OrdMap α β) (f : α → β → γ) : OrdMap α γ where
  entries := m.entries.map fun e => (e.1, f e.1 e.2)
  sorted := by
    rw [List.pairwise_map]
    exact m.sorted

/-- Drops every key of the half-open interval `[lo, hi)`. -/
def eraseRange (m : OrdMap α β) (lo hi : α) : OrdMap α β :=
  m.filter fun x => ¬ (lo ≤ x ∧ x < hi)

/-- The entries of the half-open interval `[lo, hi)`, in key order. -/
def scan (m : OrdMap α β) (lo hi : α) : List (α × β) :=
  m.entries.filter fun e => lo ≤ e.1 ∧ e.1 < hi

def ofList (l : List (α × β)) : OrdMap α β :=
  l.foldl (fun m e => m.insert e.1 e.2) empty

theorem mem_entries_iff (m : OrdMap α β) (k : α) (v : β) :
    (k, v) ∈ m.entries ↔ m.get? k = some v := by
  obtain ⟨l, hl⟩ := m
  simp only [get?]
  induction l with
  | nil => simp
  | cons e l ih =>
    obtain ⟨a, b⟩ := e
    rw [pairwise_cons] at hl
    by_cases hak : a = k
    · subst hak
      have hne : ∀ w, (a, w) ∉ l := fun w hw => lt_irrefl a (hl.1 _ hw)
      simp [hne, eq_comm]
    · simp [hak, ih hl.2, Ne.symm hak]

theorem mem_keys_iff (m : OrdMap α β) (k : α) :
    k ∈ m.entries.map Prod.fst ↔ m.get? k ≠ none := by
  constructor
  · intro hk
    obtain ⟨⟨k, v⟩, hentry, rfl⟩ := mem_map.mp hk
    rw [(m.mem_entries_iff k v).mp hentry]
    exact Option.some_ne_none v
  · intro hne
    obtain ⟨v, hv⟩ := Option.ne_none_iff_exists'.mp hne
    exact mem_map.mpr ⟨(k, v), (m.mem_entries_iff k v).mpr hv, rfl⟩

theorem nodup_keys (m : OrdMap α β) : (m.entries.map Prod.fst).Nodup := by
  rw [List.Nodup, pairwise_map]
  exact m.sorted.imp fun h => h.ne

@[simp] theorem get?_empty (k : α) : (empty : OrdMap α β).get? k = none := rfl

theorem get?_filter (m : OrdMap α β) (p : α → Bool) (k : α) :
    (m.filter p).get? k = if p k then m.get? k else none := by
  ext v
  rw [← mem_entries_iff]
  by_cases hp : p k <;> simp [filter, hp, ← mem_entries_iff]

theorem get?_map {γ : Type*} (m : OrdMap α β) (f : α → β → γ) (k : α) :
    (m.map f).get? k = (m.get? k).map (f k) := by
  have hfind : ∀ l : List (α × β),
      ((l.map fun e => (e.1, f e.1 e.2)).find? fun e => e.1 = k).map Prod.snd =
        ((l.find? fun e => e.1 = k).map Prod.snd).map (f k) := by
    intro l
    induction l with
    | nil => rfl
    | cons e l ih =>
      by_cases hk : e.1 = k
      · simp [hk]
      · simpa [find?_cons, hk] using ih
  exact hfind m.entries

theorem get?_insert (m : OrdMap α β) (k x : α) (v : β) :
    (m.insert k v).get? x = if x = k then some v else m.get? x := by
  ext w
  rw [← mem_entries_iff]
  by_cases hx : x = k
  · subst hx
    simp [insert, eq_comm]
  · rcases lt_or_gt_of_ne hx with h | h
    · simp [insert, hx, h, ← mem_entries_iff, h.not_gt]
    · simp [insert, hx, h, ← mem_entries_iff, h.not_gt]

theorem get?_erase (m : OrdMap α β) (k x : α) :
    (m.erase k).get? x = if x = k then none else m.get? x := by
  simp only [erase, get?_filter]
  by_cases hx : x = k <;> simp [hx]

variable {m : OrdMap α β} {l : List (α × β)} {x : α}

theorem get?_foldl_insert_of_notMem (hx : x ∉ l.map Prod.fst) :
    (l.foldl (fun m e => m.insert e.1 e.2) m).get? x = m.get? x := by
  induction l generalizing m with
  | nil => rfl
  | cons e l ih =>
    rw [map_cons, mem_cons, not_or] at hx
    rw [foldl_cons, ih hx.2, get?_insert, if_neg hx.1]

theorem exists_get?_foldl_insert (hx : x ∈ l.map Prod.fst) :
    ∃ v, (x, v) ∈ l ∧ (l.foldl (fun m e => m.insert e.1 e.2) m).get? x = some v := by
  induction l generalizing m with
  | nil => cases hx
  | cons e l ih =>
    by_cases hmem : x ∈ l.map Prod.fst
    · obtain ⟨v, hv, hget⟩ := ih (m := m.insert e.1 e.2) hmem
      exact ⟨v, mem_cons_of_mem _ hv, hget⟩
    · rw [map_cons, mem_cons] at hx
      obtain rfl := hx.resolve_right hmem
      refine ⟨e.2, mem_cons_self, ?_⟩
      rw [foldl_cons, get?_foldl_insert_of_notMem hmem, get?_insert, if_pos rfl]

theorem get?_foldl_erase (m : OrdMap α β) (l : List α) (x : α) :
    (l.foldl erase m).get? x = if x ∈ l then none else m.get? x := by
  induction l generalizing m with
  | nil => simp
  | cons k l ih =>
    rw [foldl_cons, ih, get?_erase]
    by_cases hl : x ∈ l
    · simp [hl]
    · by_cases hk : x = k <;> simp [hl, hk]

section KeyedFold

variable {τ : Type*} {step : OrdMap α β → τ → OrdMap α β} {key : τ → α}
  {value : τ → Option β → Option β}

variable {l : List τ}

theorem get?_foldl_of_key_ne
    (hstep : ∀ m t k, (step m t).get? k = if k = key t then value t (m.get? k) else m.get? k)
    {k : α} (hne : ∀ t ∈ l, key t ≠ k) (m : OrdMap α β) :
    (l.foldl step m).get? k = m.get? k := by
  induction l generalizing m with
  | nil => rfl
  | cons t l ih =>
    rw [foldl_cons, ih fun t' ht' => hne t' (mem_cons_of_mem t ht'), hstep,
      if_neg (hne t mem_cons_self).symm]

theorem get?_foldl_of_mem
    (hstep : ∀ m t k, (step m t).get? k = if k = key t then value t (m.get? k) else m.get? k)
    (hnodup : (l.map key).Nodup) {t : τ} (ht : t ∈ l) (m : OrdMap α β) :
    (l.foldl step m).get? (key t) = value t (m.get? (key t)) := by
  induction l generalizing m with
  | nil => exact absurd ht not_mem_nil
  | cons t' l ih =>
    obtain ⟨hnot, hnodup'⟩ := nodup_cons.mp hnodup
    rcases mem_cons.mp ht with rfl | ht
    · have hne : ∀ t' ∈ l, key t' ≠ key t := fun t' ht' heq =>
        hnot (heq ▸ mem_map_of_mem ht')
      rw [foldl_cons, get?_foldl_of_key_ne hstep hne, hstep, if_pos rfl]
    · have hne : key t ≠ key t' := fun heq => hnot (heq ▸ mem_map_of_mem ht)
      rw [foldl_cons, ih hnodup' ht, hstep, if_neg hne]

end KeyedFold

theorem get?_eraseRange (m : OrdMap α β) (lo hi x : α) :
    (m.eraseRange lo hi).get? x = if lo ≤ x ∧ x < hi then none else m.get? x := by
  simp only [eraseRange, get?_filter]
  by_cases hx : lo ≤ x ∧ x < hi <;> simp [hx]

theorem mem_scan_iff (m : OrdMap α β) (lo hi k : α) (v : β) :
    (k, v) ∈ m.scan lo hi ↔ (lo ≤ k ∧ k < hi) ∧ m.get? k = some v := by
  rw [← mem_entries_iff]
  simp [scan, and_comm]

variable {m m' : OrdMap α β} {lo hi k : α} {v : β} {l : List (α × β)}

private theorem entries_subset_of_get? (h : ∀ k, m.get? k = m'.get? k) :
    m.entries ⊆ m'.entries := by
  rintro ⟨k, v⟩ he
  rw [mem_entries_iff] at he ⊢
  rw [← h k, he]

@[ext] theorem ext_get? (h : ∀ k, m.get? k = m'.get? k) : m = m' := by
  have hsub := entries_subset_of_get? h
  have hsup := entries_subset_of_get? fun k => (h k).symm
  obtain ⟨l, hl⟩ := m
  obtain ⟨l', hl'⟩ := m'
  have hnd {s : List (α × β)} (hs : s.Pairwise fun a b => a.1 < b.1) : s.Nodup :=
    hs.imp fun {a b} hab => by
      rintro rfl
      exact lt_irrefl _ hab
  have hperm : l.Perm l' := by
    rw [perm_ext_iff_of_nodup (hnd hl) (hnd hl')]
    exact fun e => ⟨fun he => hsub he, fun he => hsup he⟩
  have hll : l = l' := hperm.eq_of_pairwise (fun a b _ _ hab hba => absurd hab hba.not_gt) hl hl'
  subst hll
  rfl

theorem scan_congr (h : ∀ k, lo ≤ k → k < hi → m.get? k = m'.get? k) :
    m.scan lo hi = m'.scan lo hi := by
  have hf : m.filter (fun x => lo ≤ x ∧ x < hi) = m'.filter (fun x => lo ≤ x ∧ x < hi) := by
    ext k : 1
    rw [get?_filter, get?_filter]
    by_cases hk : lo ≤ k ∧ k < hi
    · simp [hk, h k hk.1 hk.2]
    · simp [hk]
  exact congrArg entries hf

theorem scan_eq_cons (hlt : lo < hi) (hlo : m.get? lo = some v) :
    ∃ rest, m.scan lo hi = (lo, v) :: rest := by
  have hmem : (lo, v) ∈ m.scan lo hi := (mem_scan_iff _ _ _ _ _).mpr ⟨⟨le_rfl, hlt⟩, hlo⟩
  cases hscan : m.scan lo hi with
  | nil =>
    rw [hscan] at hmem
    cases hmem
  | cons e rest =>
    rw [hscan] at hmem
    rcases mem_cons.mp hmem with rfl | hrest
    · exact ⟨rest, rfl⟩
    · -- The keys of a scan increase, and none is below its lower bound.
      have hsorted : (e :: rest).Pairwise (fun a b => a.1 < b.1) := by
        rw [← hscan]
        exact m.sorted.filter _
      have hbelow := rel_of_pairwise_cons hsorted hrest
      have he : e ∈ m.scan lo hi := by
        rw [hscan]
        exact mem_cons_self
      have hge := ((mem_scan_iff m lo hi e.1 e.2).mp he).1.1
      exact absurd hbelow (not_lt.mpr hge)

theorem get?_ofList (hl : (l.map Prod.fst).Nodup) (k : α) (v : β) :
    (ofList l).get? k = some v ↔ (k, v) ∈ l := by
  have hfold : ∀ (l : List (α × β)) (m : OrdMap α β), (l.map Prod.fst).Nodup →
      ((l.foldl (fun m e => m.insert e.1 e.2) m).get? k = some v ↔
        (k, v) ∈ l ∨ (k ∉ l.map Prod.fst ∧ m.get? k = some v)) := by
    intro l
    induction l with
    | nil => simp
    | cons e l ih =>
      intro m hnodup
      rw [map_cons, nodup_cons] at hnodup
      rw [foldl_cons, ih _ hnodup.2, get?_insert]
      obtain ⟨a, b⟩ := e
      by_cases hka : k = a
      · subst hka
        have hnot : (k, v) ∉ l := fun hmem =>
          hnodup.1 (mem_map.mpr ⟨(k, v), hmem, rfl⟩)
        simp [hnot, hnodup.1, eq_comm]
      · simp [hka]
  rw [ofList, hfold l empty hl]
  simp

theorem ofList_congr {l' : List (α × β)} (hl : (l.map Prod.fst).Nodup)
    (hl' : (l'.map Prod.fst).Nodup) (h : ∀ e, e ∈ l ↔ e ∈ l') :
    ofList l = ofList l' := by
  ext k : 1
  ext v
  rw [get?_ofList hl, get?_ofList hl', h]

theorem exists_get?_ofList (h : (k, v) ∈ l) : ∃ w, (ofList l).get? k = some w := by
  obtain ⟨w, -, hw⟩ := exists_get?_foldl_insert (m := empty)
    (mem_map_of_mem (f := Prod.fst) h)
  exact ⟨w, hw⟩

theorem mem_of_get?_ofList (h : (ofList l).get? k = some v) : (k, v) ∈ l := by
  by_cases hmem : k ∈ l.map Prod.fst
  · obtain ⟨w, hw, hget⟩ := exists_get?_foldl_insert (m := empty) hmem
    have heq : some v = some w := h.symm.trans hget
    rw [Option.some.inj heq]
    exact hw
  · have hnone : (ofList l).get? k = none := get?_foldl_insert_of_notMem hmem
    rw [hnone] at h
    cases h

theorem get?_foldl_insert_scan {γ : Type*} {f : α × β → α} {g : α × β → γ}
    (hf : ∀ e ∈ m.scan lo hi, f e = e.1) (k : α) (v : γ) :
    ((m.scan lo hi).foldl (fun m e => m.insert (f e) (g e)) empty).get? k = some v ↔
      ∃ w, (k, w) ∈ m.scan lo hi ∧ g (k, w) = v := by
  have hlist : (m.scan lo hi).foldl (fun m e => m.insert (f e) (g e)) empty =
      ofList ((m.scan lo hi).map fun e => (e.1, g e)) := by
    rw [ofList, foldl_map]
    exact foldl_ext _ _ _ fun m e he => by rw [hf e he]
  have hnodup : (((m.scan lo hi).map fun e => (e.1, g e)).map Prod.fst).Nodup := by
    have hsorted : ((m.scan lo hi).map Prod.fst).Pairwise (· < ·) :=
      pairwise_map.mpr (m.sorted.filter _)
    rw [map_map]
    exact hsorted.imp ne_of_lt
  rw [hlist, get?_ofList hnodup, mem_map]
  constructor
  · rintro ⟨⟨k', w⟩, hmem, heq⟩
    cases heq
    exact ⟨w, hmem, rfl⟩
  · rintro ⟨w, hmem, rfl⟩
    exact ⟨(k, w), hmem, rfl⟩

/-- One operation of a write batch. -/
inductive Edit (α : Type*) (β : Type*) where
  | set (k : α) (v : β)
  | delete (k : α)
  | deleteRange (lo hi : α)
  deriving DecidableEq

namespace Edit

def apply (m : OrdMap α β) : Edit α β → OrdMap α β
  | set k v => m.insert k v
  | delete k => m.erase k
  | deleteRange lo hi => m.eraseRange lo hi

/-- What the edit leaves at key `x`: nothing said, a value, or an absent key. -/
def effect : Edit α β → α → Option (Option β)
  | set k v, x => if x = k then some (some v) else none
  | delete k, x => if x = k then some none else none
  | deleteRange lo hi, x => if lo ≤ x ∧ x < hi then some none else none

theorem get?_apply (m : OrdMap α β) (e : Edit α β) (x : α) :
    (e.apply m).get? x = (e.effect x).getD (m.get? x) := by
  cases e with
  | set k v =>
    simp only [apply, effect, get?_insert]
    split <;> rfl
  | delete k =>
    simp only [apply, effect, get?_erase]
    split <;> rfl
  | deleteRange lo hi =>
    simp only [apply, effect, get?_eraseRange]
    split <;> rfl

end Edit

def applyAll (m : OrdMap α β) (es : List (Edit α β)) : OrdMap α β :=
  es.foldl (fun m e => e.apply m) m

/-- The effect of the last edit of the batch that touches `x`. -/
def lastEffect : List (Edit α β) → α → Option (Option β)
  | [], _ => none
  | e :: es, x => (lastEffect es x).or (e.effect x)

@[simp] theorem lastEffect_nil (x : α) : lastEffect ([] : List (Edit α β)) x = none := rfl

theorem lastEffect_cons (e : Edit α β) (es : List (Edit α β)) (x : α) :
    lastEffect (e :: es) x = (lastEffect es x).or (e.effect x) := rfl

theorem lastEffect_append (es fs : List (Edit α β)) (x : α) :
    lastEffect (es ++ fs) x = (lastEffect fs x).or (lastEffect es x) := by
  induction es with
  | nil => simp
  | cons e es ih => simp [lastEffect_cons, ih, Option.or_assoc]

theorem applyAll_append (m : OrdMap α β) (es fs : List (Edit α β)) :
    m.applyAll (es ++ fs) = (m.applyAll es).applyAll fs := by
  simp [applyAll]

theorem get?_applyAll (m : OrdMap α β) (es : List (Edit α β)) (x : α) :
    (m.applyAll es).get? x = (lastEffect es x).getD (m.get? x) := by
  induction es generalizing m with
  | nil => rfl
  | cons e es ih =>
    have h := ih (e.apply m)
    simp only [applyAll, foldl_cons] at h ⊢
    rw [h, Edit.get?_apply, lastEffect_cons]
    cases lastEffect es x <;> simp

variable {es : List (Edit α β)} {x : α} {ι : Type*} {l : List ι} {f : ι → List (Edit α β)}

theorem lastEffect_eq_none_iff : lastEffect es x = none ↔ ∀ e ∈ es, e.effect x = none := by
  induction es with
  | nil => simp
  | cons e es ih => simp [lastEffect_cons, ih, and_comm]

theorem exists_effect_of_lastEffect {o : Option β} (h : lastEffect es x = some o) :
    ∃ e ∈ es, e.effect x = some o := by
  induction es with
  | nil => cases h
  | cons e es ih =>
    rw [lastEffect_cons, Option.or_eq_some_iff] at h
    rcases h with h | ⟨-, h⟩
    · obtain ⟨f, hf, hfx⟩ := ih h
      exact ⟨f, mem_cons_of_mem _ hf, hfx⟩
    · exact ⟨e, mem_cons_self, h⟩

theorem lastEffect_eq_absent (hex : ∃ e ∈ es, e.effect x = some none)
    (hall : ∀ e ∈ es, e.effect x = none ∨ e.effect x = some none) :
    lastEffect es x = some none := by
  cases h : lastEffect es x with
  | none =>
    obtain ⟨e, he, hx⟩ := hex
    rw [lastEffect_eq_none_iff.mp h e he] at hx
    cases hx
  | some o =>
    obtain ⟨e, he, hx⟩ := exists_effect_of_lastEffect h
    rcases hall e he with hnone | hgone
    · rw [hnone] at hx
      cases hx
    · rw [hgone] at hx
      exact hx.symm

theorem lastEffect_flatMap_of_unique {i : ι} (hi : i ∈ l)
    (h : ∀ j ∈ l, j ≠ i → ∀ e ∈ f j, e.effect x = none) :
    lastEffect (l.flatMap f) x = lastEffect (f i) x := by
  classical
  induction l with
  | nil => cases hi
  | cons j l ih =>
    rw [flatMap_cons, lastEffect_append]
    have hl : ∀ j ∈ l, j ≠ i → ∀ e ∈ f j, e.effect x = none :=
      fun k hk => h k (mem_cons_of_mem j hk)
    by_cases hmem : i ∈ l
    · rw [ih hmem hl]
      by_cases hji : j = i
      · rw [hji]
        cases lastEffect (f i) x <;> rfl
      · rw [lastEffect_eq_none_iff.mpr (h j mem_cons_self hji), Option.or_none]
    · obtain rfl : i = j := (mem_cons.mp hi).resolve_right hmem
      have hrest : lastEffect (l.flatMap f) x = none := by
        rw [lastEffect_eq_none_iff]
        intro e he
        obtain ⟨k, hk, hek⟩ := mem_flatMap.mp he
        exact hl k hk (fun heq => hmem (heq ▸ hk)) e hek
      rw [hrest, Option.none_or]

theorem lastEffect_flatMap_eq_none_iff :
    lastEffect (l.flatMap f) x = none ↔ ∀ i ∈ l, lastEffect (f i) x = none := by
  induction l with
  | nil => simp
  | cons i l ih => simp [lastEffect_append, ih, and_comm]

theorem lastEffect_flatMap_congr {g : ι → List (Edit α β)}
    (h : ∀ i ∈ l, lastEffect (f i) x = lastEffect (g i) x) :
    lastEffect (l.flatMap f) x = lastEffect (l.flatMap g) x := by
  induction l with
  | nil => rfl
  | cons i l ih =>
    rw [flatMap_cons, flatMap_cons, lastEffect_append, lastEffect_append,
      h i mem_cons_self, ih fun j hj => h j (mem_cons_of_mem i hj)]

theorem lastEffect_flatMap_filter {p : ι → Bool}
    (h : ∀ i ∈ l, p i = false → lastEffect (f i) x = none) :
    lastEffect ((l.filter p).flatMap f) x = lastEffect (l.flatMap f) x := by
  induction l with
  | nil => rfl
  | cons i l ih =>
    have hrest := ih fun j hj => h j (mem_cons_of_mem i hj)
    rw [filter_cons, flatMap_cons, lastEffect_append]
    cases hp : p i with
    | false => simp [hrest, h i mem_cons_self hp]
    | true => simp [lastEffect_append, hrest]

theorem get?_applyAll_of_untouched (m : OrdMap α β) (h : ∀ e ∈ es, e.effect x = none) :
    (m.applyAll es).get? x = m.get? x := by
  rw [get?_applyAll, lastEffect_eq_none_iff.mpr h]
  rfl

theorem applyAll_comm (m : OrdMap α β) {fs : List (Edit α β)}
    (h : ∀ x, lastEffect es x = none ∨ lastEffect fs x = none) :
    (m.applyAll es).applyAll fs = (m.applyAll fs).applyAll es := by
  ext x : 2
  rw [get?_applyAll, get?_applyAll, get?_applyAll, get?_applyAll]
  rcases h x with hes | hfs
  · rw [hes]
    rfl
  · rw [hfs]
    rfl

end OrdMap
