import Antfly.Lib.Runs
import Mathlib.Data.Int.Notation
import Mathlib.Data.List.Nodup
import Mathlib.Logic.Function.Basic

/-!
Operations with one id are collected and handed to a callback together.  An id stands in the ready
list while it has collected operations; while its callback runs, the operations that arrive for it
are kept in a backup and become ready when the callback is done.  Any number of workers take ids
from the ready list, each holding the lock before and after its callback but not during it.
-/

namespace Antfly.Inflight

open Function

structure Op (ι ν : Type*) where
  id : ι
  data : ν
  deriving DecidableEq

structure DedupeQueue (ι ν : Type*) where
  depth : ℤ
  width : ℤ
  q : List ι
  entries : ι → Option (List (Op ι ν))
  backup : ι → Option (List (Op ι ν))
  closed : Bool

inductive EnqueueError where
  | queueClosed
  | queueSaturatedWidth
  | queueSaturatedDepth
  deriving DecidableEq

inductive Dequeued (ι ν : Type*) where
  | empty
  | panics
  | ok (id : ι) (set : List (Op ι ν)) (q : DedupeQueue ι ν)

namespace DedupeQueue

variable {ι ν : Type*} [DecidableEq ι]

def new (depth width : ℤ) : DedupeQueue ι ν :=
  { depth := depth, width := width, q := [], entries := fun _ => none, backup := fun _ => none
    closed := false }

def close (q : DedupeQueue ι ν) : DedupeQueue ι ν :=
  { q with q := [], entries := fun _ => none, backup := fun _ => none, closed := true }

def enqueue (q : DedupeQueue ι ν) (op : Op ι ν) : Except EnqueueError (DedupeQueue ι ν) :=
  if q.closed then .error .queueClosed
  else match q.backup op.id with
    | some set =>
      if q.width ≤ set.length then .error .queueSaturatedWidth
      else .ok { q with backup := Function.update q.backup op.id (some (set ++ [op])) }
    | none =>
      match q.entries op.id with
      | none =>
        if q.depth ≤ q.q.length then .error .queueSaturatedDepth
        else .ok { q with
          entries := Function.update q.entries op.id (some [op])
          q := q.q ++ [op.id] }
      | some set =>
        if q.width ≤ set.length then .error .queueSaturatedWidth
        else .ok { q with entries := Function.update q.entries op.id (some (set ++ [op])) }

/-- What a worker does before its callback. -/
def dequeue (q : DedupeQueue ι ν) : Dequeued ι ν :=
  if q.closed then .empty
  else match q.q with
    | [] => .empty
    | id :: rest =>
      match q.entries id with
      | none => .panics
      | some set => .ok id set { q with
          q := rest
          entries := Function.update q.entries id none
          backup := Function.update q.backup id (some []) }

/-- What a worker does after its callback; without a backup of the id it dereferences nil. -/
def finish (q : DedupeQueue ι ν) (id : ι) : Option (DedupeQueue ι ν) :=
  if q.closed then some q
  else match q.backup id with
    | none => none
    | some set =>
      if 0 < set.length then some { q with
        entries := Function.update q.entries id (some set)
        q := q.q ++ [id]
        backup := Function.update q.backup id none }
      else some { q with backup := Function.update q.backup id none }

end DedupeQueue

/-- The queue, the ids whose callbacks run, what was handed to callbacks and what was accepted. -/
structure QueueSystem (ι ν : Type*) where
  queue : DedupeQueue ι ν
  inProgress : List ι
  delivered : List (Op ι ν)
  accepted : List (Op ι ν)
  panicked : Bool

inductive QueueEvent (ι ν : Type*) where
  | enqueue (op : Op ι ν)
  | dequeue
  | finish (id : ι)
  | close

namespace QueueSystem

variable {ι ν : Type*} [DecidableEq ι]

def start (depth width : ℤ) : QueueSystem ι ν := ⟨.new depth width, [], [], [], false⟩

def step (s : QueueSystem ι ν) : QueueEvent ι ν → Option (QueueSystem ι ν)
  | .enqueue op =>
    match s.queue.enqueue op with
    | .error _ => some s
    | .ok queue => some { s with queue := queue, accepted := s.accepted ++ [op] }
  | .dequeue =>
    match s.queue.dequeue with
    | .empty => none
    | .panics => some { s with panicked := true }
    | .ok id set queue => some { s with
        queue := queue
        inProgress := id :: s.inProgress
        delivered := s.delivered ++ set }
  | .finish id =>
    if id ∈ s.inProgress then
      match s.queue.finish id with
      | none => some { s with panicked := true }
      | some queue => some { s with queue := queue, inProgress := s.inProgress.erase id }
    else none
  | .close => some { s with queue := s.queue.close }

def of (id : ι) (ops : List (Op ι ν)) : List (Op ι ν) := ops.filter fun op => op.id = id

/-- What has been accepted for the id and not been handed to a callback. -/
def waiting (s : QueueSystem ι ν) (id : ι) : List (Op ι ν) :=
  (s.queue.entries id).getD [] ++ (s.queue.backup id).getD []

/-- The ready list, the entries and the backups fit together, and what was handed to callbacks is
what was accepted up to what is waiting. -/
structure Consistent (s : QueueSystem ι ν) : Prop where
  opened : s.queue.closed = false
  intact : s.panicked = false
  listed : ∀ id, id ∈ s.queue.q ↔ s.queue.entries id ≠ none
  listedOnce : s.queue.q.Nodup
  running : ∀ id, id ∈ s.inProgress ↔ s.queue.backup id ≠ none
  runningOnce : s.inProgress.Nodup
  apart : ∀ id ∈ s.inProgress, id ∉ s.queue.q
  filed : ∀ id, ∀ op ∈ s.waiting id, op.id = id
  accounted : ∀ id, of id s.delivered ++ s.waiting id = of id s.accepted

theorem consistent_start (depth width : ℤ) : Consistent (start depth width : QueueSystem ι ν) := by
  constructor
  · rfl
  · rfl
  · intro id
    simp [start, DedupeQueue.new]
  · exact List.nodup_nil
  · intro id
    simp [start, DedupeQueue.new]
  · exact List.nodup_nil
  · intro id hid
    cases hid
  · intro id op hop
    cases hop
  · intro id
    rfl

variable {op : Op ι ν} {s : QueueSystem ι ν} {queue : DedupeQueue ι ν} {id : ι}
variable {ops set : List (Op ι ν)}

theorem enqueue_cases {q q' : DedupeQueue ι ν} (h : q.enqueue op = .ok q') :
    (∃ set, q.backup op.id = some set ∧
      q' = { q with backup := Function.update q.backup op.id (some (set ++ [op])) }) ∨
    (q.backup op.id = none ∧ q.entries op.id = none ∧ q' = { q with
      entries := Function.update q.entries op.id (some [op])
      q := q.q ++ [op.id] }) ∨
    (q.backup op.id = none ∧ ∃ set, q.entries op.id = some set ∧
      q' = { q with entries := Function.update q.entries op.id (some (set ++ [op])) }) := by
  unfold DedupeQueue.enqueue at h
  split at h
  · cases h
  · split at h
    · rename_i set hbackup
      split at h
      · cases h
      · cases h
        exact .inl ⟨set, hbackup, rfl⟩
    · rename_i hbackup
      split at h
      · rename_i hentries
        split at h
        · cases h
        · cases h
          exact .inr (.inl ⟨hbackup, hentries, rfl⟩)
      · rename_i set hentries
        split at h
        · cases h
        · cases h
          exact .inr (.inr ⟨hbackup, set, hentries, rfl⟩)

theorem waiting_enqueue (h : s.queue.enqueue op = .ok queue) (id : ι) :
    (queue.entries id).getD [] ++ (queue.backup id).getD [] =
      s.waiting id ++ if op.id = id then [op] else [] := by
  unfold waiting
  by_cases hid : op.id = id
  · subst hid
    rw [if_pos rfl]
    rcases enqueue_cases h with ⟨set, hbackup, rfl⟩ | ⟨hbackup, hentries, rfl⟩ |
      ⟨hbackup, set, hentries, rfl⟩
    · simp [hbackup]
    · simp [hbackup, hentries]
    · simp [hbackup, hentries]
  · have hne : id ≠ op.id := fun heq => hid heq.symm
    rw [if_neg hid, List.append_nil]
    rcases enqueue_cases h with ⟨set, hbackup, rfl⟩ | ⟨hbackup, hentries, rfl⟩ |
      ⟨hbackup, set, hentries, rfl⟩
    · simp [update_of_ne hne]
    · simp [update_of_ne hne]
    · simp [update_of_ne hne]

theorem of_append (id : ι) (ops ops' : List (Op ι ν)) :
    of id (ops ++ ops') = of id ops ++ of id ops' := List.filter_append ..

theorem Consistent.enqueue (h : Consistent s) (henqueue : s.queue.enqueue op = .ok queue) :
    Consistent { s with queue := queue, accepted := s.accepted ++ [op] } := by
  have hwaiting := waiting_enqueue henqueue
  have hfiled : ∀ id, ∀ op' ∈ (queue.entries id).getD [] ++ (queue.backup id).getD [],
      op'.id = id := by
    intro id op' hop'
    rw [hwaiting id] at hop'
    rcases List.mem_append.mp hop' with hold | hnew
    · exact h.filed id op' hold
    · split at hnew
      · rename_i hid
        rw [List.mem_singleton.mp hnew]
        exact hid
      · cases hnew
  have haccounted : ∀ id, of id s.delivered ++
      ((queue.entries id).getD [] ++ (queue.backup id).getD []) =
        of id (s.accepted ++ [op]) := by
    intro id
    rw [hwaiting id, ← List.append_assoc, h.accounted id, of_append]
    congr 1
    unfold of
    rw [List.filter_singleton]
    by_cases hid : op.id = id
    · simp [hid]
    · simp [hid]
  rcases enqueue_cases henqueue with ⟨set, hbackup, rfl⟩ | ⟨hbackup, hentries, rfl⟩ |
    ⟨hbackup, set, hentries, rfl⟩
  · -- The callback of the id runs: the operation goes to its backup.
    refine ⟨h.opened, h.intact, h.listed, h.listedOnce, ?_, h.runningOnce, h.apart, hfiled,
      haccounted⟩
    intro id
    by_cases hid : id = op.id
    · subst hid
      simpa [hbackup] using h.running op.id
    · simpa [update_of_ne hid] using h.running id
  · -- The id is new.
    have hnot : op.id ∉ s.queue.q := by
      rw [h.listed]
      exact not_not.mpr hentries
    have hidle : op.id ∉ s.inProgress := by
      rw [h.running]
      exact not_not.mpr hbackup
    refine ⟨h.opened, h.intact, ?_, ?_, h.running, h.runningOnce, ?_, hfiled, haccounted⟩
    · intro id
      by_cases hid : id = op.id
      · subst hid
        simp
      · simpa [update_of_ne hid, hid] using h.listed id
    · exact h.listedOnce.append (List.nodup_singleton _) (by simpa using hnot)
    · intro id hid
      rw [List.mem_append, List.mem_singleton, not_or]
      exact ⟨h.apart id hid, fun heq => hidle (heq ▸ hid)⟩
  · refine ⟨h.opened, h.intact, ?_, h.listedOnce, h.running, h.runningOnce, h.apart, hfiled,
      haccounted⟩
    intro id
    by_cases hid : id = op.id
    · subst hid
      simpa [hentries] using h.listed op.id
    · simpa [update_of_ne hid] using h.listed id

theorem Consistent.dequeue_cases (h : Consistent s) :
    (s.queue.q = [] ∧ s.queue.dequeue = .empty) ∨
    ∃ id rest set, s.queue.q = id :: rest ∧ s.queue.entries id = some set ∧
      s.queue.dequeue = .ok id set { s.queue with
        q := rest
        entries := Function.update s.queue.entries id none
        backup := Function.update s.queue.backup id (some []) } := by
  have hopened : ¬ s.queue.closed = true := by simp [h.opened]
  unfold DedupeQueue.dequeue
  rw [if_neg hopened]
  cases hq : s.queue.q with
  | nil => exact .inl ⟨rfl, rfl⟩
  | cons id rest =>
    obtain ⟨set, hset⟩ := Option.ne_none_iff_exists'.mp
      ((h.listed id).mp (hq ▸ List.mem_cons_self ..))
    refine .inr ⟨id, rest, set, rfl, hset, ?_⟩
    simp only [hset]

theorem of_eq_self (h : ∀ op ∈ ops, op.id = id) :
    of id ops = ops := List.filter_eq_self.mpr fun op hop => decide_eq_true (h op hop)

theorem of_eq_nil {id' : ι} (h : ∀ op ∈ ops, op.id = id) (hne : id ≠ id') : of id' ops = [] :=
  List.filter_eq_nil_iff.mpr fun op hop heq => hne ((h op hop).symm.trans (of_decide_eq_true heq))

theorem Consistent.dequeue {rest : List ι} (h : Consistent s) (hq : s.queue.q = id :: rest)
    (hset : s.queue.entries id = some set) :
    Consistent { s with
      queue := { s.queue with
        q := rest
        entries := Function.update s.queue.entries id none
        backup := Function.update s.queue.backup id (some []) }
      inProgress := id :: s.inProgress
      delivered := s.delivered ++ set } := by
  have hlisted : id ∈ s.queue.q := hq ▸ List.mem_cons_self ..
  have honce := h.listedOnce
  rw [hq, List.nodup_cons] at honce
  have hidle : id ∉ s.inProgress := fun hid => h.apart id hid hlisted
  have hbackup : s.queue.backup id = none := by
    by_contra hne
    exact hidle ((h.running id).mpr hne)
  have hall : s.waiting id = set := by
    rw [waiting, hset, hbackup]
    exact List.append_nil _
  have hfiled : ∀ op ∈ set, op.id = id := hall ▸ h.filed id
  refine ⟨h.opened, h.intact, ?_, honce.2, ?_, ?_, ?_, ?_, ?_⟩
  · intro id'
    by_cases hid : id' = id
    · subst hid
      simpa using honce.1
    · have hsame := h.listed id'
      rw [hq, List.mem_cons] at hsame
      simpa [update_of_ne hid, hid] using hsame
  · intro id'
    by_cases hid : id' = id
    · subst hid
      simp
    · simpa [update_of_ne hid, hid] using h.running id'
  · exact List.nodup_cons.mpr ⟨hidle, h.runningOnce⟩
  · intro id' hid'
    rcases List.mem_cons.mp hid' with rfl | hid'
    · exact honce.1
    · have hnot := h.apart id' hid'
      rw [hq] at hnot
      exact fun hmem => hnot (List.mem_cons_of_mem _ hmem)
  · intro id' op hop
    by_cases hid : id' = id
    · subst hid
      simp [waiting] at hop
    · simp only [waiting, update_of_ne hid] at hop
      exact h.filed id' op hop
  · intro id'
    by_cases hid : id' = id
    · subst hid
      rw [← h.accounted id', hall, of_append, of_eq_self hfiled]
      simp [waiting]
    · rw [← h.accounted id', of_append, of_eq_nil hfiled (Ne.symm hid), List.append_nil]
      simp [waiting, update_of_ne hid]

theorem Consistent.finish_cases (h : Consistent s) (hid : id ∈ s.inProgress) :
    ∃ set, s.queue.backup id = some set ∧ s.queue.finish id =
      if 0 < set.length then some { s.queue with
        entries := Function.update s.queue.entries id (some set)
        q := s.queue.q ++ [id]
        backup := Function.update s.queue.backup id none }
      else some { s.queue with backup := Function.update s.queue.backup id none } := by
  obtain ⟨set, hset⟩ := Option.ne_none_iff_exists'.mp ((h.running id).mp hid)
  have hopened : ¬ s.queue.closed = true := by simp [h.opened]
  refine ⟨set, hset, ?_⟩
  unfold DedupeQueue.finish
  rw [if_neg hopened, hset]

theorem Consistent.finish (h : Consistent s) (hid : id ∈ s.inProgress)
    (hfinish : s.queue.finish id = some queue) :
    Consistent { s with queue := queue, inProgress := s.inProgress.erase id } := by
  obtain ⟨set, hbackup, hcases⟩ := h.finish_cases hid
  have hnot := h.apart id hid
  have hentries : s.queue.entries id = none := by
    by_contra hne
    exact hnot ((h.listed id).mpr hne)
  have herase : ∀ id', id' ∈ s.inProgress.erase id ↔ id' ≠ id ∧ id' ∈ s.inProgress :=
    fun id' => h.runningOnce.mem_erase_iff
  have hrunning : ∀ id', id' ∈ s.inProgress.erase id ↔
      Function.update s.queue.backup id none id' ≠ none := by
    intro id'
    rw [herase]
    by_cases hne : id' = id
    · subst hne
      simp
    · simpa [update_of_ne hne, hne] using h.running id'
  rw [hcases] at hfinish
  split at hfinish
  · cases hfinish
    have hwaiting : ∀ id', (Function.update s.queue.entries id (some set) id').getD [] ++
        (Function.update s.queue.backup id none id').getD [] = s.waiting id' := by
      intro id'
      unfold waiting
      by_cases hne : id' = id
      · subst hne
        simp [hentries, hbackup]
      · simp [update_of_ne hne]
    refine ⟨h.opened, h.intact, ?_, ?_, hrunning, h.runningOnce.erase _, ?_, ?_, ?_⟩
    · intro id'
      by_cases hne : id' = id
      · subst hne
        simp
      · simpa [update_of_ne hne, hne] using h.listed id'
    · exact h.listedOnce.append (List.nodup_singleton _) (by simpa using hnot)
    · intro id' hid'
      obtain ⟨hne, hid'⟩ := (herase id').mp hid'
      rw [List.mem_append, List.mem_singleton, not_or]
      exact ⟨h.apart id' hid', hne⟩
    · intro id' op hop
      exact h.filed id' op (hwaiting id' ▸ hop)
    · intro id'
      rw [← h.accounted id', ← hwaiting id']
      rfl
  · rename_i hempty
    cases hfinish
    have hnil : set = [] := List.length_eq_zero_iff.mp (Nat.le_zero.mp (Nat.not_lt.mp hempty))
    subst hnil
    have hwaiting : ∀ id', (s.queue.entries id').getD [] ++
        (Function.update s.queue.backup id none id').getD [] = s.waiting id' := by
      intro id'
      unfold waiting
      by_cases hne : id' = id
      · subst hne
        simp [hbackup]
      · simp [update_of_ne hne]
    refine ⟨h.opened, h.intact, h.listed, h.listedOnce, hrunning, h.runningOnce.erase _, ?_, ?_,
      ?_⟩
    · intro id' hid'
      exact h.apart id' ((herase id').mp hid').2
    · intro id' op hop
      exact h.filed id' op (hwaiting id' ▸ hop)
    · intro id'
      rw [← h.accounted id', ← hwaiting id']
      rfl

theorem step_dequeue (h : s.queue.dequeue = .ok id set queue) :
    s.step .dequeue = some { s with
      queue := queue
      inProgress := id :: s.inProgress
      delivered := s.delivered ++ set } := by
  simp only [step, h]

theorem step_finish (hid : id ∈ s.inProgress) (h : s.queue.finish id = some queue) :
    s.step (.finish id) =
      some { s with queue := queue, inProgress := s.inProgress.erase id } := by
  simp only [step, if_pos hid, h]

theorem Consistent.step {s' : QueueSystem ι ν} {e : QueueEvent ι ν} (h : Consistent s)
    (hopen : e ≠ .close) (hstep : s.step e = some s') :
    Consistent s' := by
  cases e with
  | enqueue op =>
    simp only [QueueSystem.step] at hstep
    split at hstep
    · cases hstep
      exact h
    · rename_i queue henqueue
      cases hstep
      exact h.enqueue henqueue
  | dequeue =>
    simp only [QueueSystem.step] at hstep
    rcases h.dequeue_cases with ⟨-, hempty⟩ | ⟨id, rest, set, hq, hset, hok⟩
    · rw [hempty] at hstep
      cases hstep
    · rw [hok] at hstep
      cases hstep
      exact h.dequeue hq hset
  | finish id =>
    simp only [QueueSystem.step] at hstep
    split at hstep
    · rename_i hid
      obtain ⟨set, -, hcases⟩ := h.finish_cases hid
      split at hstep
      · rename_i hnone
        rw [hcases] at hnone
        split at hnone <;> cases hnone
      · rename_i queue hfinish
        cases hstep
        exact h.finish hid hfinish
    · cases hstep
  | close => exact absurd rfl hopen

/-- A step of a worker: taking an id or being done with one. -/
def IsWork : QueueEvent ι ν → Prop
  | .dequeue => True
  | .finish _ => True
  | _ => False

/-- How many steps the workers can take at most while nothing is enqueued. -/
def work (s : QueueSystem ι ν) : ℕ :=
  2 * s.queue.q.length + s.inProgress.length +
    2 * s.inProgress.countP fun id => 0 < ((s.queue.backup id).getD []).length

/-- A worker can take a step unless nothing is ready and no callback runs, and each such step leaves
less to do. -/
theorem Consistent.progress (h : Consistent s) (hwork : 0 < s.work) :
    ∃ e s', IsWork e ∧ s.step e = some s' ∧ s'.accepted = s.accepted ∧ s'.work < s.work := by
  rcases h.dequeue_cases with ⟨hq, -⟩ | ⟨id, rest, set, hq, hset, hok⟩
  · cases hrun : s.inProgress with
    | nil =>
      unfold work at hwork
      rw [hq, hrun] at hwork
      exact absurd hwork (Nat.lt_irrefl 0)
    | cons id running =>
      have hid : id ∈ s.inProgress := hrun ▸ List.mem_cons_self ..
      obtain ⟨set, hbackup, hcases⟩ := h.finish_cases hid
      have honce := h.runningOnce
      rw [hrun, List.nodup_cons] at honce
      have hothers : running.countP (fun id' => 0 <
          ((Function.update s.queue.backup id none id').getD []).length) =
          running.countP fun id' => 0 < ((s.queue.backup id').getD []).length := by
        apply List.countP_congr
        intro id' hid'
        rw [update_of_ne (ne_of_mem_of_not_mem hid' honce.1)]
      have herase : (id :: running).erase id = running := List.erase_cons_head ..
      by_cases hset : 0 < set.length
      · rw [if_pos hset] at hcases
        refine ⟨.finish id, _, trivial, step_finish hid hcases, rfl, ?_⟩
        simp only [work, hrun, herase, hothers, List.length_append, List.length_cons,
          List.length_nil, List.countP_cons, hbackup, Option.getD_some, decide_eq_true hset,
          if_true]
        omega
      · rw [if_neg hset] at hcases
        refine ⟨.finish id, _, trivial, step_finish hid hcases, rfl, ?_⟩
        simp only [work, hrun, herase, hothers, List.length_cons, List.countP_cons]
        omega
  · have hidle : id ∉ s.inProgress := fun hid => h.apart id hid (hq ▸ List.mem_cons_self ..)
    have hothers : s.inProgress.countP (fun id' => 0 <
        ((Function.update s.queue.backup id (some []) id').getD []).length) =
        s.inProgress.countP fun id' => 0 < ((s.queue.backup id').getD []).length := by
      apply List.countP_congr
      intro id' hid'
      rw [update_of_ne (ne_of_mem_of_not_mem hid' hidle)]
    refine ⟨.dequeue, _, trivial, step_dequeue hok, rfl, ?_⟩
    simp only [work, hothers, hq, List.length_cons, List.countP_cons, update_self,
      Option.getD_some, List.length_nil]
    simp
    omega

/-- Once the workers have nothing left to do, everything accepted was handed to a callback. -/
theorem Consistent.delivered_of_idle (h : Consistent s) (hidle : s.work = 0) (id : ι) :
    of id s.delivered = of id s.accepted := by
  unfold work at hidle
  have hq : s.queue.q = [] := List.length_eq_zero_iff.mp (by omega)
  have hrun : s.inProgress = [] := List.length_eq_zero_iff.mp (by omega)
  have hentries : s.queue.entries id = none := by
    by_contra hne
    have hmem := (h.listed id).mpr hne
    rw [hq] at hmem
    cases hmem
  have hbackup : s.queue.backup id = none := by
    by_contra hne
    have hmem := (h.running id).mpr hne
    rw [hrun] at hmem
    cases hmem
  rw [← h.accounted id, waiting, hentries, hbackup]
  simp

theorem Consistent.drains (h : Consistent s) :
    ∃ events s', Run QueueSystem.step (fun _ e => IsWork e) s events s' ∧ s'.accepted = s.accepted ∧
      ∀ id, of id s'.delivered = of id s.accepted := by
  induction hn : s.work using Nat.strongRecOn generalizing s with
  | _ n ih =>
    rcases Nat.eq_zero_or_pos n with hzero | hpos
    · exact ⟨[], s, .nil s, rfl, h.delivered_of_idle (hn.trans hzero)⟩
    · obtain ⟨e, s₁, hwork, hstep, haccepted, hless⟩ := h.progress (hn ▸ hpos)
      have hopen : e ≠ .close := by
        rintro rfl
        exact hwork
      obtain ⟨events, s', hrun, hsame, hall⟩ := ih s₁.work (hn ▸ hless) (h.step hopen hstep) rfl
      exact ⟨e :: events, s', .cons hwork hstep hrun, hsame.trans haccepted,
        haccepted ▸ hall⟩

/-- In every run without a close: nothing panics, the three structures are consistent, no id has two
callbacks at a time, for each id what was delivered and what waits are what was accepted, in order
and each operation once, and the workers can deliver the rest. -/
theorem dedupe_queue_loses_nothing (depth width : ℤ) (events : List (QueueEvent ι ν))
    (s : QueueSystem ι ν) (h : Run step (fun _ e => e ≠ .close) (start depth width) events s) :
    s.panicked = false ∧ Consistent s ∧ s.inProgress.Nodup ∧
    (∀ id, of id s.delivered ++ s.waiting id = of id s.accepted) ∧
    ∃ more s', Run step (fun _ e => IsWork e) s more s' ∧ s'.accepted = s.accepted ∧
      ∀ id, of id s'.delivered = of id s.accepted := by
  have hsound := h.invariant (fun _ _ _ hok hstep hinv => Consistent.step hinv hok hstep)
    (consistent_start depth width)
  exact ⟨hsound.intact, hsound, hsound.runningOnce, hsound.accounted, hsound.drains⟩

/-- Two operations of one id, the second while the callback of the first runs. -/
theorem dedupe_queue_sample : ∃ s : QueueSystem ℕ ℕ,
    Run step (fun _ e => e ≠ .close) (start 1 1)
      [.enqueue ⟨7, 0⟩, .dequeue, .enqueue ⟨7, 1⟩, .finish 7, .dequeue] s ∧
    s.delivered = [⟨7, 0⟩, ⟨7, 1⟩] ∧ s.inProgress.Nodup := by
  have hrun : ∃ s : QueueSystem ℕ ℕ, Run step (fun _ e => e ≠ .close) (start 1 1)
      [.enqueue ⟨7, 0⟩, .dequeue, .enqueue ⟨7, 1⟩, .finish 7, .dequeue] s ∧
      s.delivered = [⟨7, 0⟩, ⟨7, 1⟩] := by
    refine ⟨_, .cons ?_ rfl (.cons ?_ rfl (.cons ?_ rfl (.cons ?_ rfl (.cons ?_ rfl (.nil _))))),
      rfl⟩ <;> exact nofun
  obtain ⟨s, hrun, hdelivered⟩ := hrun
  exact ⟨s, hrun, hdelivered, (dedupe_queue_loses_nothing _ _ _ _ hrun).2.2.1⟩

end QueueSystem

end Antfly.Inflight
