import Mathlib.Data.List.Basic

/-!
A view keeps a set of entries that follows a base.  Changes of the base are announced to it as keys
to look up and entries to remove, and wait in a queue.  A key is looked up in the base only when its
turn comes, what was found is added later still, and the additions of a group are made before its
removals.  The view catches up with the base when no entry appears while its removal is queued, and
none is removed past the queue while a look-up of it that succeeded still waits there.
-/

namespace FedSet

open List

variable {σ κ α : Type*}

/-- How a view reads the base: the entry a key stands for, whether the key is there, and the
entries the view is to have. -/
structure Source (σ κ α : Type*) where
  entry : κ → Option α
  live : σ → κ → Bool
  holds : σ → α → Prop

/-- Keys to look up, entries found and entries to remove. -/
structure Op (κ α : Type*) where
  unread : List κ
  read : List α
  deletes : List α

structure View (κ α : Type*) where
  queue : List (Op κ α)
  contents : List α

namespace Source

variable (src : Source σ κ α)

/-- A key that is there stands for an entry the view is to have. -/
def Homed (k : κ) : Prop :=
  ∀ s e, src.entry k = some e → src.live s k = true → src.holds s e

/-- The entries found under the keys. -/
def found (s : σ) (ks : List κ) : List α :=
  (ks.filter (src.live s)).filterMap src.entry

/-- Looks the next key up. -/
def readNext (s : σ) (op : Op κ α) : Op κ α :=
  match op.unread with
  | [] => op
  | k :: ks => { op with unread := ks, read := op.read ++ src.found s [k] }

theorem mem_found {s : σ} {ks : List κ} {e : α} :
    e ∈ src.found s ks ↔ ∃ k ∈ ks, src.entry k = some e ∧ src.live s k = true := by
  unfold found
  rw [mem_filterMap]
  constructor
  · rintro ⟨k, hk, hentry⟩
    obtain ⟨hk, hlive⟩ := mem_filter.mp hk
    exact ⟨k, hk, hentry, hlive⟩
  · rintro ⟨k, hk, hentry, hlive⟩
    exact ⟨k, mem_filter.mpr ⟨hk, hlive⟩, hentry⟩

/-- The base went from `s` to `s'`, and the keys and removals tell a view all of it. -/
structure Told (s s' : σ) (writes : List κ) (deletes : List α) : Prop where
  homed : ∀ k ∈ writes, src.Homed k
  gone : ∀ e ∈ deletes, ¬src.holds s' e
  kept : ∀ k e, src.entry k = some e → src.live s k = true → e ∉ deletes → src.live s' k = true
  kept_holds : ∀ e, src.holds s e → e ∉ deletes → src.holds s' e
  new : ∀ e, src.holds s' e →
    src.holds s e ∨ ∃ k ∈ writes, src.entry k = some e ∧ src.live s' k = true

end Source

section Apply

variable [DecidableEq α]

/-- Adds, then removes. -/
def apply (contents added deletes : List α) : List α :=
  (contents ++ added).filter fun e => e ∉ deletes

theorem mem_apply {contents added deletes : List α} {e : α} :
    e ∈ apply contents added deletes ↔ (e ∈ contents ∨ e ∈ added) ∧ e ∉ deletes := by
  unfold apply
  rw [mem_filter, mem_append, decide_eq_true_eq]

/-- Takes the first `n` groups as one, once all their keys have been looked up. -/
def View.commit (v : View κ α) (n : ℕ) : Option (View κ α) :=
  if (v.queue.take n).all fun op => op.unread.isEmpty then
    some { queue := v.queue.drop n
           contents := apply v.contents ((v.queue.take n).flatMap Op.read)
             ((v.queue.take n).flatMap Op.deletes) }
  else none

end Apply

/-- The groups announce these keys and removals and nothing has been looked up. -/
structure Announces (ops : List (Op κ α)) (writes : List κ) (deletes : List α) : Prop where
  unread : ∀ k, (∃ op ∈ ops, k ∈ op.unread) ↔ k ∈ writes
  read : ∀ op ∈ ops, op.read = []
  deletes : ∀ e, (∃ op ∈ ops, e ∈ op.deletes) ↔ e ∈ deletes

/-- What has been looked up satisfies `P` or is removed in its own group or a later one. -/
def ReadsHold (P : α → Prop) : List (Op κ α) → Prop
  | [] => True
  | op :: ops => (∀ e ∈ op.read, P e ∨ e ∈ op.deletes ∨ ∃ op' ∈ ops, e ∈ op'.deletes) ∧
      ReadsHold P ops

variable {P : α → Prop} {ops : List (Op κ α)} {op : Op κ α} {e : α} {k : κ} {n : ℕ} {v' : View κ α}

theorem readsHold_append {ops' : List (Op κ α)} :
    ReadsHold P (ops ++ ops') ↔
      ReadsHold (fun e => P e ∨ ∃ op ∈ ops', e ∈ op.deletes) ops ∧ ReadsHold P ops' := by
  induction ops with
  | nil => exact ⟨fun h => ⟨trivial, h⟩, And.right⟩
  | cons op ops ih =>
    rw [cons_append, ReadsHold, ReadsHold, ih, ← and_assoc]
    refine and_congr_left fun _ => and_congr_left fun _ => forall₂_congr fun e _ => ?_
    constructor
    · rintro (hP | hdel | ⟨op', hmem, hdel⟩)
      · exact .inl (.inl hP)
      · exact .inr (.inl hdel)
      · rcases mem_append.mp hmem with hmem | hmem
        · exact .inr (.inr ⟨op', hmem, hdel⟩)
        · exact .inl (.inr ⟨op', hmem, hdel⟩)
    · rintro ((hP | ⟨op', hmem, hdel⟩) | hdel | ⟨op', hmem, hdel⟩)
      · exact .inl hP
      · exact .inr (.inr ⟨op', mem_append_right _ hmem, hdel⟩)
      · exact .inr (.inl hdel)
      · exact .inr (.inr ⟨op', mem_append_left _ hmem, hdel⟩)

theorem ReadsHold.mono {P' : α → Prop} (h : ReadsHold P ops)
    (hP : ∀ op ∈ ops, ∀ e ∈ op.read, P e → P' e) :
    ReadsHold P' ops := by
  induction ops with
  | nil => trivial
  | cons op ops ih =>
    refine ⟨fun e he => ?_, ih h.2 fun op' hmem => hP op' (mem_cons_of_mem op hmem)⟩
    exact (h.1 e he).imp_left (hP op mem_cons_self e he)

theorem readsHold_of_unread (h : ∀ op ∈ ops, op.read = []) : ReadsHold P ops := by
  induction ops with
  | nil => trivial
  | cons op ops ih =>
    refine ⟨fun e he => ?_, ih fun op' hmem => h op' (mem_cons_of_mem op hmem)⟩
    rw [h op mem_cons_self] at he
    cases he

theorem ReadsHold.mem (h : ReadsHold P ops) (hop : op ∈ ops) (he : e ∈ op.read) :
    P e ∨ ∃ op' ∈ ops, e ∈ op'.deletes := by
  induction ops with
  | nil => cases hop
  | cons op₀ ops ih =>
    rcases mem_cons.mp hop with rfl | hop
    · rcases h.1 e he with hP | hdel | ⟨op', hmem, hdel⟩
      · exact .inl hP
      · exact .inr ⟨op, mem_cons_self, hdel⟩
      · exact .inr ⟨op', mem_cons_of_mem _ hmem, hdel⟩
    · rcases ih h.2 hop with hP | ⟨op', hmem, hdel⟩
      · exact .inl hP
      · exact .inr ⟨op', mem_cons_of_mem _ hmem, hdel⟩

/-- The view lags behind the base only by what is queued. -/
structure Lags (src : Source σ κ α) (s : σ) (v : View κ α) : Prop where
  homed : ∀ op ∈ v.queue, ∀ k ∈ op.unread, src.Homed k
  removed : ∀ op ∈ v.queue, ∀ e ∈ op.deletes, ¬src.holds s e
  found : ∀ e, src.holds s e → e ∈ v.contents ∨ (∃ op ∈ v.queue, e ∈ op.read) ∨
    ∃ op ∈ v.queue, ∃ k ∈ op.unread, src.entry k = some e ∧ src.live s k = true
  kept : ∀ e ∈ v.contents, src.holds s e ∨ ∃ op ∈ v.queue, e ∈ op.deletes
  reads : ReadsHold (src.holds s) v.queue

variable {src : Source σ κ α} {s s' : σ} {v : View κ α}

theorem Lags.drained (h : Lags src s v) (hqueue : v.queue = []) (e : α) :
    e ∈ v.contents ↔ src.holds s e := by
  constructor
  · intro he
    rcases h.kept e he with hholds | ⟨op, hop, -⟩
    · exact hholds
    · rw [hqueue] at hop
      cases hop
  · intro hholds
    rcases h.found e hholds with he | ⟨op, hop, -⟩ | ⟨op, hop, -⟩
    · exact he
    · rw [hqueue] at hop
      cases hop
    · rw [hqueue] at hop
      cases hop

theorem lags_of_drained (hqueue : v.queue = []) (h : ∀ e, e ∈ v.contents ↔ src.holds s e) :
    Lags src s v where
  homed op hop := by
    rw [hqueue] at hop
    cases hop
  removed op hop := by
    rw [hqueue] at hop
    cases hop
  found e he := .inl ((h e).mpr he)
  kept e he := .inl ((h e).mp he)
  reads := by
    rw [hqueue]
    trivial

variable {writes : List κ} {deletes : List α} {ops ops' pre post : List (Op κ α)}

/-- No entry appears while its removal is queued. -/
def AppearsFree (src : Source σ κ α) (s s' : σ) (queue : List (Op κ α)) : Prop :=
  ∀ e, src.holds s' e → ¬src.holds s e → ∀ op ∈ queue, e ∉ op.deletes

/-- No entry that has been looked up and not added yet disappears. -/
def ReadsStay (src : Source σ κ α) (s s' : σ) (queue : List (Op κ α)) : Prop :=
  ∀ op ∈ queue, ∀ e ∈ op.read, src.holds s e → src.holds s' e

theorem Lags.removed_after (h : Lags src s v) (hfree : AppearsFree src s s' v.queue) :
    ∀ op ∈ v.queue, ∀ e ∈ op.deletes, ¬src.holds s' e := by
  intro op hop e he hholds
  exact hfree e hholds (h.removed op hop e he) op hop he

theorem Lags.found_after (h : Lags src s v) (htold : src.Told s s' writes deletes)
    (he : src.holds s' e) :
    (e ∈ v.contents ∨ (∃ op ∈ v.queue, e ∈ op.read) ∨
      ∃ op ∈ v.queue, ∃ k ∈ op.unread, src.entry k = some e ∧ src.live s' k = true) ∨
    ∃ k ∈ writes, src.entry k = some e ∧ src.live s' k = true := by
  rcases htold.new e he with hholds | hnew
  · left
    rcases h.found e hholds with hin | hread | ⟨op, hop, k, hk, hentry, hlive⟩
    · exact .inl hin
    · exact .inr (.inl hread)
    · have hout : e ∉ deletes := fun hdel => htold.gone e hdel he
      exact .inr (.inr ⟨op, hop, k, hk, hentry, htold.kept k e hentry hlive hout⟩)
  · exact .inr hnew

theorem Lags.insert (h : Lags src s v) (hqueue : v.queue = pre ++ post)
    (hpost : ∀ op ∈ post, op.read = []) (htold : src.Told s s' writes deletes)
    (hfree : AppearsFree src s s' v.queue) (hops : Announces ops writes deletes) :
    Lags src s' { v with queue := pre ++ ops ++ post } := by
  have hmem : ∀ op, op ∈ pre ++ ops ++ post ↔ op ∈ v.queue ∨ op ∈ ops := by
    intro op
    rw [hqueue, mem_append, mem_append, mem_append, or_right_comm]
  refine ⟨fun op hop k hk => ?_, fun op hop e he => ?_, fun e he => ?_, fun e he => ?_, ?_⟩
  · rcases (hmem op).mp hop with hop | hop
    · exact h.homed op hop k hk
    · exact htold.homed k ((hops.unread k).mp ⟨op, hop, hk⟩)
  · rcases (hmem op).mp hop with hop | hop
    · exact h.removed_after hfree op hop e he
    · exact htold.gone e ((hops.deletes e).mp ⟨op, hop, he⟩)
  · rcases h.found_after htold he with (hin | ⟨op, hop, hread⟩ | ⟨op, hop, hunread⟩) | hnew
    · exact .inl hin
    · exact .inr (.inl ⟨op, (hmem op).mpr (.inl hop), hread⟩)
    · exact .inr (.inr ⟨op, (hmem op).mpr (.inl hop), hunread⟩)
    · obtain ⟨k, hk, hfound⟩ := hnew
      obtain ⟨op, hop, hk⟩ := (hops.unread k).mpr hk
      exact .inr (.inr ⟨op, (hmem op).mpr (.inr hop), k, hk, hfound⟩)
  · rcases h.kept e he with hholds | ⟨op, hop, hdel⟩
    · by_cases hdel : e ∈ deletes
      · obtain ⟨op, hop, hdel⟩ := (hops.deletes e).mpr hdel
        exact .inr ⟨op, (hmem op).mpr (.inr hop), hdel⟩
      · exact .inl (htold.kept_holds e hholds hdel)
    · exact .inr ⟨op, (hmem op).mpr (.inl hop), hdel⟩
  · have hreads := h.reads
    rw [hqueue, readsHold_append] at hreads
    rw [append_assoc, readsHold_append, readsHold_append]
    refine ⟨hreads.1.mono fun op hop e he hholds => ?_, readsHold_of_unread hops.read,
      readsHold_of_unread hpost⟩
    rcases hholds with hholds | ⟨op, hop, hdel⟩
    · by_cases hdel : e ∈ deletes
      · obtain ⟨op, hop, hdel⟩ := (hops.deletes e).mpr hdel
        exact .inr ⟨op, mem_append_left _ hop, hdel⟩
      · exact .inl (htold.kept_holds e hholds hdel)
    · exact .inr ⟨op, mem_append_right _ hop, hdel⟩

theorem Lags.executed [DecidableEq α] (h : Lags src s v) (htold : src.Told s s' writes deletes)
    (hfree : AppearsFree src s s' v.queue) (hstay : ReadsStay src s s' v.queue) :
    Lags src s' { v with contents := apply v.contents (src.found s' writes) deletes } where
  homed := h.homed
  removed := h.removed_after hfree
  found e he := by
    have hout : e ∉ deletes := fun hdel => htold.gone e hdel he
    rcases h.found_after htold he with (hin | hread | hunread) | hnew
    · exact .inl (mem_apply.mpr ⟨.inl hin, hout⟩)
    · exact .inr (.inl hread)
    · exact .inr (.inr hunread)
    · exact .inl (mem_apply.mpr ⟨.inr (src.mem_found.mpr hnew), hout⟩)
  kept e he := by
    obtain ⟨hin, hout⟩ := mem_apply.mp he
    rcases hin with hin | hin
    · rcases h.kept e hin with hholds | hdel
      · exact .inl (htold.kept_holds e hholds hout)
      · exact .inr hdel
    · obtain ⟨k, hk, hentry, hlive⟩ := src.mem_found.mp hin
      exact .inl (htold.homed k hk s' e hentry hlive)
  reads := h.reads.mono hstay

theorem Lags.regroup (h : Lags src s v) (hqueue : v.queue = pre ++ ops ++ post)
    (hops : Announces ops writes deletes) (hops' : Announces ops' writes deletes) :
    Lags src s { v with queue := pre ++ ops' ++ post } := by
  have hmem : ∀ op, op ∈ pre ++ ops' ++ post ↔ (op ∈ pre ∨ op ∈ post) ∨ op ∈ ops' := by
    intro op
    rw [mem_append, mem_append, or_right_comm]
  have hmem' : ∀ op, op ∈ v.queue ↔ (op ∈ pre ∨ op ∈ post) ∨ op ∈ ops := by
    intro op
    rw [hqueue, mem_append, mem_append, or_right_comm]
  have hdeletes : ∀ e, (∃ op ∈ ops, e ∈ op.deletes) ↔ ∃ op ∈ ops', e ∈ op.deletes := by
    intro e
    rw [hops.deletes, hops'.deletes]
  have hunread : ∀ k, (∃ op ∈ ops, k ∈ op.unread) ↔ ∃ op ∈ ops', k ∈ op.unread := by
    intro k
    rw [hops.unread, hops'.unread]
  refine ⟨fun op hop k hk => ?_, fun op hop e he => ?_, fun e he => ?_, fun e he => ?_, ?_⟩
  · rcases (hmem op).mp hop with hop | hop
    · exact h.homed op ((hmem' op).mpr (.inl hop)) k hk
    · obtain ⟨op', hop', hk'⟩ := (hunread k).mpr ⟨op, hop, hk⟩
      exact h.homed op' ((hmem' op').mpr (.inr hop')) k hk'
  · rcases (hmem op).mp hop with hop | hop
    · exact h.removed op ((hmem' op).mpr (.inl hop)) e he
    · obtain ⟨op', hop', he'⟩ := (hdeletes e).mpr ⟨op, hop, he⟩
      exact h.removed op' ((hmem' op').mpr (.inr hop')) e he'
  · rcases h.found e he with hin | ⟨op, hop, hread⟩ | ⟨op, hop, k, hk, hfound⟩
    · exact .inl hin
    · rcases (hmem' op).mp hop with hop | hop
      · exact .inr (.inl ⟨op, (hmem op).mpr (.inl hop), hread⟩)
      · rw [hops.read op hop] at hread
        cases hread
    · rcases (hmem' op).mp hop with hop | hop
      · exact .inr (.inr ⟨op, (hmem op).mpr (.inl hop), k, hk, hfound⟩)
      · obtain ⟨op', hop', hk'⟩ := (hunread k).mp ⟨op, hop, hk⟩
        exact .inr (.inr ⟨op', (hmem op').mpr (.inr hop'), k, hk', hfound⟩)
  · rcases h.kept e he with hholds | ⟨op, hop, hdel⟩
    · exact .inl hholds
    · rcases (hmem' op).mp hop with hop | hop
      · exact .inr ⟨op, (hmem op).mpr (.inl hop), hdel⟩
      · obtain ⟨op', hop', hdel'⟩ := (hdeletes e).mp ⟨op, hop, hdel⟩
        exact .inr ⟨op', (hmem op').mpr (.inr hop'), hdel'⟩
  · have hreads := h.reads
    rw [hqueue, append_assoc, readsHold_append, readsHold_append] at hreads
    obtain ⟨hpre, -, hpost⟩ := hreads
    rw [append_assoc, readsHold_append, readsHold_append]
    refine ⟨hpre.mono fun _ _ e _ he => he.imp_right ?_, readsHold_of_unread hops'.read, hpost⟩
    rintro ⟨op, hop, hdel⟩
    rcases mem_append.mp hop with hop | hop
    · obtain ⟨op', hop', hdel'⟩ := (hdeletes e).mp ⟨op, hop, hdel⟩
      exact ⟨op', mem_append_left _ hop', hdel'⟩
    · exact ⟨op, mem_append_right _ hop, hdel⟩

theorem mem_readNext (he : e ∈ (src.readNext s op).read) :
    e ∈ op.read ∨ ∃ k ∈ op.unread, src.entry k = some e ∧ src.live s k = true := by
  unfold Source.readNext at he
  cases hunread : op.unread with
  | nil =>
    rw [hunread] at he
    exact .inl he
  | cons k ks =>
    rw [hunread] at he
    rcases mem_append.mp he with he | he
    · exact .inl he
    · obtain ⟨k', hk', hfound⟩ := src.mem_found.mp he
      rw [mem_singleton] at hk'
      subst hk'
      exact .inr ⟨k', mem_cons_self, hfound⟩

@[simp] theorem readNext_deletes (op : Op κ α) : (src.readNext s op).deletes = op.deletes := by
  unfold Source.readNext
  split <;> rfl

theorem mem_unread_readNext (hk : k ∈ (src.readNext s op).unread) : k ∈ op.unread := by
  unfold Source.readNext at hk
  split at hk
  · exact hk
  · next h => rw [h]; exact mem_cons_of_mem _ hk

theorem unread_readNext (hk : k ∈ op.unread) (hentry : src.entry k = some e)
    (hlive : src.live s k = true) :
    e ∈ (src.readNext s op).read ∨ k ∈ (src.readNext s op).unread := by
  unfold Source.readNext
  cases hunread : op.unread with
  | nil =>
    rw [hunread] at hk
    cases hk
  | cons k' ks =>
    rw [hunread] at hk
    rcases mem_cons.mp hk with rfl | hk
    · refine .inl (mem_append_right _ (src.mem_found.mpr ?_))
      exact ⟨k, mem_singleton_self k, hentry, hlive⟩
    · exact .inr hk

theorem read_readNext (he : e ∈ op.read) : e ∈ (src.readNext s op).read := by
  unfold Source.readNext
  split
  · exact he
  · exact mem_append_left _ he

theorem Lags.readNext (h : Lags src s v) (hqueue : v.queue = pre ++ op :: post) :
    Lags src s { v with queue := pre ++ src.readNext s op :: post } := by
  have hmem : ∀ op', op' ∈ pre ++ src.readNext s op :: post ↔
      (op' ∈ pre ∨ op' ∈ post) ∨ op' = src.readNext s op := by
    intro op'
    rw [mem_append, mem_cons, or_comm (a := op' = _), or_assoc]
  have hmem' : ∀ op', op' ∈ v.queue ↔ (op' ∈ pre ∨ op' ∈ post) ∨ op' = op := by
    intro op'
    rw [hqueue, mem_append, mem_cons, or_comm (a := op' = _), or_assoc]
  have hop : op ∈ v.queue := (hmem' op).mpr (.inr rfl)
  have hnext : src.readNext s op ∈ pre ++ src.readNext s op :: post :=
    (hmem _).mpr (.inr rfl)
  refine ⟨fun op' hop' k hk => ?_, fun op' hop' e he => ?_, fun e he => ?_, fun e he => ?_, ?_⟩
  · rcases (hmem op').mp hop' with hop' | rfl
    · exact h.homed op' ((hmem' op').mpr (.inl hop')) k hk
    · exact h.homed op hop k (mem_unread_readNext hk)
  · rcases (hmem op').mp hop' with hop' | rfl
    · exact h.removed op' ((hmem' op').mpr (.inl hop')) e he
    · rw [readNext_deletes] at he
      exact h.removed op hop e he
  · rcases h.found e he with hin | ⟨op', hop', hread⟩ | ⟨op', hop', k, hk, hentry, hlive⟩
    · exact .inl hin
    · rcases (hmem' op').mp hop' with hop' | rfl
      · exact .inr (.inl ⟨op', (hmem op').mpr (.inl hop'), hread⟩)
      · exact .inr (.inl ⟨_, hnext, read_readNext hread⟩)
    · rcases (hmem' op').mp hop' with hop' | rfl
      · exact .inr (.inr ⟨op', (hmem op').mpr (.inl hop'), k, hk, hentry, hlive⟩)
      · rcases unread_readNext hk hentry hlive with hread | hunread
        · exact .inr (.inl ⟨_, hnext, hread⟩)
        · exact .inr (.inr ⟨_, hnext, k, hunread, hentry, hlive⟩)
  · rcases h.kept e he with hholds | ⟨op', hop', hdel⟩
    · exact .inl hholds
    · rcases (hmem' op').mp hop' with hop' | rfl
      · exact .inr ⟨op', (hmem op').mpr (.inl hop'), hdel⟩
      · exact .inr ⟨_, hnext, by rwa [readNext_deletes]⟩
  · have hreads := h.reads
    rw [hqueue, readsHold_append] at hreads
    obtain ⟨hpre, hhere, hpost⟩ := hreads
    rw [readsHold_append]
    refine ⟨hpre.mono fun _ _ e _ he => he.imp_right ?_, fun e he => ?_, hpost⟩
    · rintro ⟨op', hop', hdel⟩
      rcases mem_cons.mp hop' with rfl | hop'
      · exact ⟨_, mem_cons_self, by rwa [readNext_deletes]⟩
      · exact ⟨op', mem_cons_of_mem _ hop', hdel⟩
    · rw [readNext_deletes]
      rcases mem_readNext he with hread | ⟨k, hk, hentry, hlive⟩
      · exact hhere e hread
      · exact .inl (h.homed op hop k hk s e hentry hlive)

theorem Lags.commit [DecidableEq α] (h : Lags src s v) (hcommit : v.commit n = some v') :
    Lags src s v' := by
  unfold View.commit at hcommit
  split at hcommit
  case isFalse => cases hcommit
  case isTrue hall =>
    cases hcommit
    rw [all_eq_true] at hall
    have hsplit : ∀ op ∈ v.queue, op ∈ v.queue.take n ∨ op ∈ v.queue.drop n := by
      intro op hop
      rw [← take_append_drop n v.queue] at hop
      exact mem_append.mp hop
    have hreads : ReadsHold (src.holds s) (v.queue.take n ++ v.queue.drop n) := by
      rw [take_append_drop]
      exact h.reads
    rw [readsHold_append] at hreads
    refine ⟨fun op hop => h.homed op (mem_of_mem_drop hop),
      fun op hop => h.removed op (mem_of_mem_drop hop), fun e he => ?_, fun e he => ?_,
      hreads.2⟩
    · have hout : e ∉ (v.queue.take n).flatMap Op.deletes := by
        intro hdel
        obtain ⟨op, hop, hdel⟩ := mem_flatMap.mp hdel
        exact h.removed op (mem_of_mem_take hop) e hdel he
      rcases h.found e he with hin | ⟨op, hop, hread⟩ | ⟨op, hop, k, hk, hfound⟩
      · exact .inl (mem_apply.mpr ⟨.inl hin, hout⟩)
      · rcases hsplit op hop with hop | hop
        · exact .inl (mem_apply.mpr ⟨.inr (mem_flatMap.mpr ⟨op, hop, hread⟩), hout⟩)
        · exact .inr (.inl ⟨op, hop, hread⟩)
      · rcases hsplit op hop with hop | hop
        · have hnone := hall op hop
          rw [List.isEmpty_iff] at hnone
          rw [hnone] at hk
          cases hk
        · exact .inr (.inr ⟨op, hop, k, hk, hfound⟩)
    · obtain ⟨hin, hout⟩ := mem_apply.mp he
      have hlater : ∀ op ∈ v.queue, e ∈ op.deletes → ∃ op ∈ v.queue.drop n, e ∈ op.deletes := by
        intro op hop hdel
        rcases hsplit op hop with hop | hop
        · exact absurd (mem_flatMap.mpr ⟨op, hop, hdel⟩) hout
        · exact ⟨op, hop, hdel⟩
      rcases hin with hin | hin
      · rcases h.kept e hin with hholds | ⟨op, hop, hdel⟩
        · exact .inl hholds
        · exact .inr (hlater op hop hdel)
      · obtain ⟨op, hop, hread⟩ := mem_flatMap.mp hin
        rcases h.reads.mem (mem_of_mem_take hop) hread with hholds | ⟨op', hop', hdel⟩
        · exact .inl hholds
        · exact .inr (hlater op' hop' hdel)

theorem View.commit_append [DecidableEq α] (tail : List (Op κ α)) (h : v.commit n = some v') :
    ({ v with queue := v.queue ++ tail } : View κ α).commit (min n v.queue.length) =
      some { v' with queue := v'.queue ++ tail } := by
  have htake : (v.queue ++ tail).take (min n v.queue.length) = v.queue.take n := by
    rw [take_append_of_le_length (Nat.min_le_right _ _), take_eq_take_min,
      Nat.min_assoc, Nat.min_self, ← take_eq_take_min]
  have hdrop : (v.queue ++ tail).drop (min n v.queue.length) = v.queue.drop n ++ tail := by
    rw [drop_append_of_le_length (Nat.min_le_right _ _), drop_eq_drop_min,
      Nat.min_assoc, Nat.min_self, ← drop_eq_drop_min]
  unfold View.commit at h ⊢
  dsimp only
  rw [htake, hdrop]
  split at h
  case isFalse => cases h
  case isTrue hall =>
    cases h
    rw [if_pos hall]

end FedSet
