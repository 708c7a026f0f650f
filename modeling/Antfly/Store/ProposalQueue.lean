import Antfly.Inflight.DedupeQueue
import Antfly.Store.Routing
import Mathlib.Data.List.Perm.Subperm

/-!
Requests that only wait for the proposal go through a queue.  Its worker merges the batches that
pass the ownership check into one and proposes it, under the lock that changes of the ownership
take.  A request waits on a channel with room for one answer, or until its context is done.
-/

namespace Antfly

open List Inflight Inflight.QueueSystem

/-- What `byteRangeMu` guards. -/
structure ShardOwnership where
  byteRange : Range
  splitState : Option SplitState
  mergeState : Option MergeState

/-- The key `ValidateBatchKeys` complains about. -/
def ShardOwnership.refused (o : ShardOwnership) (b : BatchOp) : Option Bytes :=
  (b.writes.map Prod.fst ++ b.deletes ++ b.transforms.map Transform.key).find? fun key =>
    !validateKey key o.byteRange o.splitState o.mergeState

structure Proposal where
  batch : BatchOp
  done : ℕ
  ctx : ℕ

inductive ProposalError (ε : Type*) where
  | keyOutOfRange (key : Bytes) (byteRange : Range)
  | proposing (e : ε)

/-- Where the callback of `proposalDequeuer` stands. -/
inductive ProposalWorker (ε : Type*) where
  | waiting
  | called (ops : List Proposal)
  | merging (ops : List Proposal) (mergedData : BatchOp) (doneChans : List ℕ)
  | answering (err : Option ε) (doneChans : List ℕ)

/-- A proposed batch, with the ownership at that time and the outcome. -/
structure Proposed (ε : Type*) where
  batch : BatchOp
  ownership : ShardOwnership
  err : Option ε

structure ProposalSystem (ε : Type*) where
  proposalQueue : QueueSystem ℕ Proposal
  ownership : ShardOwnership
  worker : ProposalWorker ε
  cancelled : List ℕ
  /-- How many channels have been made. -/
  made : ℕ
  /-- The requests the worker has looked at, with the contexts that were done at that time. -/
  looked : List (Proposal × List ℕ)
  proposed : List (Proposed ε)
  answers : List (ℕ × Option (ProposalError ε))

inductive ProposalEvent (ε : Type*) where
  | enqueue (ctx : ℕ) (batch : BatchOp)
  | cancel (ctx : ℕ)
  | own (ownership : ShardOwnership)
  /-- The next step of the worker; a proposal ends with the outcome. -/
  | work (outcome : Option ε)

/-- The merged operation keeps neither the sync levels nor the timestamps. -/
def BatchOp.merge (merged b : BatchOp) : BatchOp :=
  { merged with
    writes := merged.writes ++ b.writes
    deletes := merged.deletes ++ b.deletes
    transforms := merged.transforms ++ b.transforms }

namespace ProposalSystem

variable {ε : Type*}

def start (ownership : ShardOwnership) : ProposalSystem ε :=
  ⟨.start 100 100, ownership, .waiting, [], 0, [], [], []⟩

/-- A second answer would find the channel full. -/
def send (s : ProposalSystem ε) (ch : ℕ) (err : Option (ProposalError ε)) :
    Option (ProposalSystem ε) :=
  if ch ∈ s.answers.map Prod.fst then none
  else some { s with answers := s.answers ++ [(ch, err)] }

def work (s : ProposalSystem ε) (outcome : Option ε) : Option (ProposalSystem ε) :=
  match s.worker with
  | .waiting =>
    match s.proposalQueue.queue.dequeue with
    | .ok _ opSet _ => (s.proposalQueue.step .dequeue).map fun queue =>
      { s with proposalQueue := queue, worker := .called (opSet.map Op.data) }
    | _ => none
  | .called ops => some { s with worker := .merging ops ⟨[], [], [], .propose, 0⟩ [] }
  | .merging (p :: ops) mergedData doneChans =>
    let s := { s with looked := s.looked ++ [(p, s.cancelled)] }
    if p.ctx ∈ s.cancelled then some { s with worker := .merging ops mergedData doneChans }
    else match s.ownership.refused p.batch with
      | some key => { s with worker := .merging ops mergedData doneChans }.send p.done
        (some (.keyOutOfRange key s.ownership.byteRange))
      | none => some { s with
        worker := .merging ops (mergedData.merge p.batch) (doneChans ++ [p.done]) }
  | .merging [] mergedData doneChans => some { s with
      proposed := s.proposed ++ [⟨mergedData, s.ownership, outcome⟩]
      worker := .answering outcome doneChans }
  | .answering err (ch :: doneChans) =>
    { s with worker := .answering err doneChans }.send ch (err.map .proposing)
  | .answering _ [] => (s.proposalQueue.step (.finish 1)).map fun queue =>
    { s with proposalQueue := queue, worker := .waiting }

def step (s : ProposalSystem ε) : ProposalEvent ε → Option (ProposalSystem ε)
  | .enqueue ctx batch => (s.proposalQueue.step (.enqueue ⟨1, ⟨batch, s.made, ctx⟩⟩)).map
    fun queue => { s with proposalQueue := queue, made := s.made + 1 }
  | .cancel ctx => some { s with cancelled := ctx :: s.cancelled }
  | .own ownership =>
    match s.worker with
    | .merging .. => none
    | _ => some { s with ownership := ownership }
  | .work outcome => s.work outcome

end ProposalSystem

/-- What is left of the worker's callback. -/
def ProposalWorker.left {ε : Type*} : ProposalWorker ε → ℕ
  | .waiting => 0
  | .called ops => 2 * ops.length + 3
  | .merging ops _ doneChans => 2 * ops.length + doneChans.length + 2
  | .answering _ doneChans => doneChans.length + 1

section Rounds

variable {ε : Type*}

/-- The requests that go into the merged batch, given the contexts that were done when the worker
looked at each. -/
def joined (o : ShardOwnership) (ops : List (Proposal × List ℕ)) : List Proposal :=
  (ops.filter fun p => decide (p.1.ctx ∉ p.2) && (o.refused p.1.batch).isNone).map Prod.fst

def refusals (o : ShardOwnership) (ops : List (Proposal × List ℕ)) :
    List (ℕ × Option (ProposalError ε)) :=
  ops.filterMap fun p => if p.1.ctx ∈ p.2 then none else
    (o.refused p.1.batch).map fun key => (p.1.done, some (.keyOutOfRange key o.byteRange))

def mergeAll (ps : List Proposal) : BatchOp :=
  ⟨ps.flatMap (·.batch.writes), ps.flatMap (·.batch.deletes), ps.flatMap (·.batch.transforms),
    .propose, 0⟩

/-- What one callback makes of the requests it is handed. -/
structure Round (ε : Type*) where
  ownership : ShardOwnership
  ops : List (Proposal × List ℕ)
  err : Option ε

namespace Round

def proposed (r : Round ε) : Proposed ε := ⟨mergeAll (joined r.ownership r.ops), r.ownership, r.err⟩

def answers (r : Round ε) : List (ℕ × Option (ProposalError ε)) :=
  refusals r.ownership r.ops ++
    (joined r.ownership r.ops).map fun p => (p.done, r.err.map .proposing)

end Round

/-- Every request was handed to one callback, in the order of the queue; the callbacks proposed and
answered what they make of their requests, given the contexts that were done when the worker looked
at each. -/
structure Accounted (s : ProposalSystem ε) (rounds : List (Round ε)) : Prop where
  looked : s.looked = rounds.flatMap Round.ops
  ops : s.proposalQueue.accepted.map Op.data = s.looked.map Prod.fst
  proposed : s.proposed = rounds.map Round.proposed
  answers : s.answers = rounds.flatMap Round.answers

end Rounds

section Queue

variable {q q' : QueueSystem ℕ Proposal} {op : Op ℕ Proposal}

/-- A queue for the one id under which proposals are collected. -/
structure OneId (q : QueueSystem ℕ Proposal) : Prop extends Consistent q where
  named : ∀ op ∈ q.accepted, op.id = 1
  filled : ∀ id, q.queue.entries id ≠ some []

namespace OneId

theorem start : OneId (.start 100 100) := ⟨consistent_start _ _, nofun, nofun⟩

/-- What was handed out and what waits, in order. -/
theorem delivered (h : OneId q) : q.delivered ++ q.waiting 1 = q.accepted := by
  have hnamed : ∀ op ∈ q.delivered, op.id = 1 := fun op hop => by
    have hmem : op ∈ of op.id q.accepted := by
      rw [← h.accounted op.id]
      exact mem_append_left _ (mem_filter.mpr ⟨hop, decide_eq_true rfl⟩)
    exact h.named op (mem_filter.mp hmem).1
  have haccounted := h.accounted 1
  rwa [of_eq_self hnamed, of_eq_self h.named] at haccounted

theorem kept {e : QueueEvent ℕ Proposal} (h : OneId q) (hstep : q.step e = some q')
    (hopen : e ≠ .close) : Consistent q' := h.toConsistent.step hopen hstep

theorem enqueue (h : OneId q) (hid : op.id = 1) (hstep : q.step (.enqueue op) = some q') :
    OneId q' ∧ q'.delivered = q.delivered ∧ q'.inProgress = q.inProgress ∧
      (q'.accepted = q.accepted ∨ q'.accepted = q.accepted ++ [op]) := by
  have hsound := h.kept hstep (by simp)
  simp only [QueueSystem.step] at hstep
  split at hstep
  · cases hstep
    exact ⟨h, rfl, rfl, .inl rfl⟩
  · rename_i queue henqueue
    cases hstep
    refine ⟨⟨hsound, fun op' hop' => ?_, fun id => ?_⟩, rfl, rfl, .inr rfl⟩
    · rcases mem_append.mp hop' with hop' | hop'
      · exact h.named op' hop'
      · rwa [mem_singleton.mp hop']
    · rcases enqueue_cases henqueue with ⟨ops, -, rfl⟩ | ⟨-, -, rfl⟩ | ⟨-, ops, -, rfl⟩
      · exact h.filled id
      · simp only [Function.update_apply]
        split
        · simp
        · exact h.filled id
      · simp only [Function.update_apply]
        split
        · simp
        · exact h.filled id

/-- An idle worker is handed what waits, unless nothing does. -/
theorem dequeue (h : OneId q) (hidle : q.inProgress = []) :
    (q.delivered = q.accepted ∧ q.queue.dequeue = .empty) ∨
    ∃ ops queue q', ops ≠ [] ∧ q.queue.dequeue = .ok 1 ops queue ∧ q.step .dequeue = some q' ∧
      OneId q' ∧ q'.delivered = q.delivered ++ ops ∧ q'.accepted = q.accepted ∧
      q'.inProgress = [1] := by
  rcases h.dequeue_cases with ⟨hq, hempty⟩ | ⟨id, rest, ops, hq, hops, hok⟩
  · refine .inl ⟨?_, hempty⟩
    have hentries : q.queue.entries 1 = none := by
      by_contra hne
      have hmem := (h.listed 1).mpr hne
      rw [hq] at hmem
      cases hmem
    have hbackup : q.queue.backup 1 = none := by
      by_contra hne
      have hmem := (h.running 1).mpr hne
      rw [hidle] at hmem
      cases hmem
    rw [← h.delivered, waiting, hentries, hbackup]
    simp
  · have hne : ops ≠ [] := by
      rintro rfl
      exact h.filled id hops
    obtain ⟨op, hop⟩ := exists_mem_of_ne_nil ops hne
    have hwaiting : op ∈ q.waiting id := by
      unfold waiting
      rw [hops]
      exact mem_append_left _ hop
    have hid : id = 1 := by
      rw [← h.filed id op hwaiting]
      have hmem : op ∈ of id q.accepted := h.accounted id ▸ mem_append_right _ hwaiting
      exact h.named op (mem_filter.mp hmem).1
    subst hid
    have hstep := step_dequeue hok
    refine .inr ⟨ops, _, _, hne, hok, hstep, ⟨h.kept hstep (by simp), h.named, ?_⟩, rfl,
      rfl, by rw [hidle]⟩
    intro id
    simp only [Function.update_apply]
    split
    · simp
    · exact h.filled id

theorem finish (h : OneId q) (hrun : q.inProgress = [1]) :
    ∃ q', q.step (.finish 1) = some q' ∧ OneId q' ∧ q'.delivered = q.delivered ∧
      q'.accepted = q.accepted ∧ q'.inProgress = [] := by
  have hid : 1 ∈ q.inProgress := hrun ▸ mem_singleton_self 1
  obtain ⟨ops, -, hcases⟩ := h.finish_cases hid
  have herase : q.inProgress.erase 1 = [] := by
    rw [hrun]
    rfl
  split at hcases
  · rename_i hpos
    have hstep := step_finish hid hcases
    refine ⟨_, hstep, ⟨h.kept hstep (by simp), h.named, fun id => ?_⟩, rfl, rfl, herase⟩
    simp only [Function.update_apply]
    split
    · rw [ne_eq, Option.some_inj]
      exact ne_nil_of_length_pos hpos
    · exact h.filled id
  · have hstep := step_finish hid hcases
    exact ⟨_, hstep, ⟨h.kept hstep (by simp), h.named, h.filled⟩, rfl, rfl, herase⟩

end OneId

end Queue

section Rounds

variable {ε : Type*} {o : ShardOwnership} {b : BatchOp} {p : Proposal}
variable {ops : List (Proposal × List ℕ)}

theorem ShardOwnership.refused_eq_none_iff : o.refused b = none ↔
    validateBatchKeys b o.byteRange o.splitState o.mergeState = true := by
  simp only [refused, find?_eq_none, validateBatchKeys, mem_append, mem_map, Bool.and_eq_true,
    all_eq_true, Bool.not_eq_true, Bool.not_eq_false']
  constructor
  · intro h
    exact ⟨⟨fun w hw => h _ (.inl (.inl ⟨w, hw, rfl⟩)), fun d hd => h _ (.inl (.inr hd))⟩,
      fun t ht => h _ (.inr ⟨t, ht, rfl⟩)⟩
  · rintro ⟨⟨hw, hd⟩, ht⟩ key ((⟨w, hmem, rfl⟩ | hmem) | ⟨t, hmem, rfl⟩)
    · exact hw w hmem
    · exact hd _ hmem
    · exact ht t hmem

/-- A merged batch passes the check that its parts passed. -/
theorem validates_mergeAll (o : ShardOwnership) (ops : List (Proposal × List ℕ)) :
    validateBatchKeys (mergeAll (joined o ops)) o.byteRange o.splitState o.mergeState = true := by
  have hparts : ∀ p ∈ joined o ops,
      validateBatchKeys p.batch o.byteRange o.splitState o.mergeState = true := by
    simp only [joined, mem_map, mem_filter, Bool.and_eq_true, Option.isNone_iff_eq_none]
    rintro p ⟨x, ⟨-, -, hp⟩, rfl⟩
    exact ShardOwnership.refused_eq_none_iff.mp hp
  simp only [validateBatchKeys, Bool.and_eq_true, all_eq_true] at hparts ⊢
  refine ⟨⟨fun w hw => ?_, fun d hd => ?_⟩, fun t ht => ?_⟩
  · obtain ⟨p, hp, hw⟩ := mem_flatMap.mp hw
    exact (hparts p hp).1.1 w hw
  · obtain ⟨p, hp, hd⟩ := mem_flatMap.mp hd
    exact (hparts p hp).1.2 d hd
  · obtain ⟨p, hp, ht⟩ := mem_flatMap.mp ht
    exact (hparts p hp).2 t ht

/-- No request is answered twice in a round. -/
theorem answered_subperm (o : ShardOwnership) (ops : List (Proposal × List ℕ)) (err : Option ε) :
    (refusals o ops ++ (joined o ops).map fun p : Proposal =>
      (p.done, err.map ProposalError.proposing)).map Prod.fst <+~
      (ops.map Prod.fst).map Proposal.done := by
  induction ops with
  | nil => exact .refl _
  | cons x ops ih =>
    obtain ⟨p, done⟩ := x
    by_cases hgone : p.ctx ∈ done
    · simpa [refusals, joined, hgone] using ih.cons_right p.done
    · cases hkey : o.refused p.batch with
      | some key => simpa [refusals, joined, hgone, hkey, subperm_cons] using ih
      | none =>
        have hrefusals : refusals (ε := ε) o ((p, done) :: ops) = refusals o ops := by
          simp [refusals, hgone, hkey]
        have hjoined : joined o ((p, done) :: ops) = p :: joined o ops := by
          simp [joined, hgone, hkey]
        rw [hrefusals, hjoined, map_append]
        rw [map_append] at ih
        exact perm_middle.subperm.trans ((subperm_cons p.done).mpr ih)

theorem refusals_subperm (o : ShardOwnership) (ops : List (Proposal × List ℕ)) :
    (refusals (ε := ε) o ops).map Prod.fst <+~ (ops.map Prod.fst).map Proposal.done := by
  have hsubperm := answered_subperm (ε := ε) o ops none
  rw [map_append] at hsubperm
  exact (sublist_append_left ..).subperm.trans hsubperm

theorem answers_subperm (rounds : List (Round ε)) :
    (rounds.flatMap Round.answers).map Prod.fst <+~
      ((rounds.flatMap Round.ops).map Prod.fst).map Proposal.done := by
  induction rounds with
  | nil => exact .refl _
  | cons r rounds ih =>
    rw [flatMap_cons, flatMap_cons, map_append, map_append, map_append]
    exact (answered_subperm r.ownership r.ops r.err).append ih

end Rounds

namespace ProposalSystem

variable {ε : Type*} {s s' : ProposalSystem ε} {rounds : List (Round ε)}
variable {seen : List (Proposal × List ℕ)} {rest : List Proposal}
variable {owed : List (ℕ × Option (ProposalError ε))}

/-- Whole rounds, then the requests the worker has seen and those it has not, and the answers it
still owes for the last round. -/
structure Books (s : ProposalSystem ε) (rounds : List (Round ε)) (seen : List (Proposal × List ℕ))
    (rest : List Proposal) (owed : List (ℕ × Option (ProposalError ε))) : Prop where
  looked : s.looked = rounds.flatMap Round.ops ++ seen
  taken : s.proposalQueue.delivered.map Op.data = s.looked.map Prod.fst ++ rest
  proposed : s.proposed = rounds.map Round.proposed
  answers : s.answers ++ owed = rounds.flatMap Round.answers ++ refusals s.ownership seen

/-- What the worker's own variables hold. -/
def Stands (o : ShardOwnership) (seen : List (Proposal × List ℕ)) (rest : List Proposal)
    (owed : List (ℕ × Option (ProposalError ε))) : ProposalWorker ε → Prop
  | .waiting => seen = [] ∧ rest = [] ∧ owed = []
  | .called ops => seen = [] ∧ rest = ops ∧ owed = []
  | .merging ops mergedData doneChans => rest = ops ∧ owed = [] ∧
    mergedData = mergeAll (joined o seen) ∧ doneChans = (joined o seen).map Proposal.done
  | .answering err doneChans => seen = [] ∧ rest = [] ∧
    owed = doneChans.map fun ch => (ch, err.map .proposing)

/-- Whether a callback runs. -/
def callbacks : ProposalWorker ε → List ℕ
  | .waiting => []
  | _ => [1]

structure Sound (s : ProposalSystem ε) : Prop where
  queue : OneId s.proposalQueue
  inProgress : s.proposalQueue.inProgress = callbacks s.worker
  made : ∀ op ∈ s.proposalQueue.accepted, op.data.done < s.made
  channels : ((s.proposalQueue.accepted.map Op.data).map Proposal.done).Nodup
  books : ∃ rounds seen rest owed, s.Books rounds seen rest owed ∧
    Stands s.ownership seen rest owed s.worker

theorem sound_start (o : ShardOwnership) : (start o : ProposalSystem ε).Sound :=
  ⟨.start, rfl, nofun, nodup_nil, [], [], [], [], ⟨rfl, rfl, rfl, rfl⟩, rfl, rfl, rfl⟩

/-- No channel gets two answers, counting those that are owed. -/
theorem Books.answers_nodup (hbooks : s.Books rounds seen rest owed) (hq : OneId s.proposalQueue)
    (hchannels : ((s.proposalQueue.accepted.map Op.data).map Proposal.done).Nodup) :
    ((s.answers ++ owed).map Prod.fst).Nodup := by
  have hanswers := (answers_subperm rounds).append (refusals_subperm (ε := ε) s.ownership seen)
  rw [← map_append, ← map_append, ← map_append, ← hbooks.answers] at hanswers
  have htaken : ((rounds.flatMap Round.ops ++ seen).map Prod.fst).map Proposal.done <+~
      (s.proposalQueue.accepted.map Op.data).map Proposal.done := by
    rw [← hq.delivered, map_append (f := Op.data), hbooks.taken, hbooks.looked, append_assoc,
      map_append (f := Proposal.done)]
    exact (sublist_append_left ..).subperm
  exact nodup_iff_count_le_one.mpr fun ch =>
    ((hanswers.trans htaken).count_le ch).trans (nodup_iff_count_le_one.mp hchannels ch)

/-- What is left of the worker's callback, and what waits. -/
def toDo (s : ProposalSystem ε) : ℕ :=
  10 * (s.proposalQueue.accepted.length - s.proposalQueue.delivered.length) + s.worker.left

/-- The answer that is owed next finds room in its channel. -/
theorem send_of_nodup {a : ℕ × Option (ProposalError ε)}
    (h : ((s.answers ++ a :: owed).map Prod.fst).Nodup) (worker : ProposalWorker ε) :
    { s with worker := worker }.send a.1 a.2 =
      some { s with worker := worker, answers := s.answers ++ [a] } := by
  rw [map_append, map_cons, nodup_middle, nodup_cons, mem_append] at h
  exact if_neg fun hmem => h.1 (.inl hmem)

/-- The worker's look at one request. -/
def look (s : ProposalSystem ε) (p : Proposal) : ProposalSystem ε :=
  { s with looked := s.looked ++ [(p, s.cancelled)] }

theorem Books.see {p : Proposal} (h : s.Books rounds seen (p :: rest) []) :
    (s.look p).Books rounds (seen ++ [(p, s.cancelled)]) rest
      (refusals s.ownership [(p, s.cancelled)]) := by
  refine ⟨?_, ?_, h.proposed, ?_⟩
  · rw [look, h.looked, append_assoc]
  · simpa [look] using h.taken
  · have hanswers := h.answers
    rw [append_nil] at hanswers
    rw [look, hanswers, append_assoc]
    exact congrArg _ filterMap_append.symm

/-- What a step of the worker leaves as it is, and that it gets on. -/
structure Advances (s s' : ProposalSystem ε) : Prop where
  sound : s'.Sound
  accepted : s'.proposalQueue.accepted = s.proposalQueue.accepted
  answers : s.answers <+: s'.answers
  proposed : s.proposed <+: s'.proposed
  less : s'.toDo < s.toDo

variable {ops : List Proposal} {mergedData : BatchOp} {doneChans : List ℕ} {p : Proposal}
variable {err : Option ε}

theorem Sound.work_waiting (h : s.Sound) (hworker : s.worker = .waiting) (outcome : Option ε) :
    (s.proposalQueue.delivered = s.proposalQueue.accepted ∧ s.work outcome = none) ∨
      ∃ s', s.work outcome = some s' ∧ s.Advances s' := by
  obtain ⟨rounds, seen, rest, owed, hbooks, hstands⟩ := h.books
  have hrun := h.inProgress
  rw [hworker] at hrun hstands
  obtain ⟨rfl, rfl, rfl⟩ := hstands
  rcases h.queue.dequeue hrun with ⟨hall, hempty⟩ |
    ⟨ops, queue, q', hne, hok, hstep, hq, hdelivered, haccepted, hcallback⟩
  · exact .inl ⟨hall, by simp only [work, hworker, hempty]⟩
  · have htaken : q'.delivered.map Op.data = s.looked.map Prod.fst ++ ops.map Op.data := by
      simpa [hdelivered] using hbooks.taken
    refine .inr ⟨{ s with proposalQueue := q', worker := .called (ops.map Op.data) }, ?_,
      ⟨hq, hcallback, haccepted ▸ h.made, haccepted ▸ h.channels, rounds, [], _, [],
        ⟨hbooks.looked, htaken, hbooks.proposed, hbooks.answers⟩, rfl, rfl, rfl⟩,
      haccepted, prefix_rfl, prefix_rfl, ?_⟩
    · simp only [work, hworker, hok, hstep, Option.map_some]
    · have hlength := congrArg length hq.delivered
      have hpos := length_pos_of_ne_nil hne
      simp only [toDo, hworker, ProposalWorker.left, haccepted, hdelivered, length_append,
        length_map] at hlength ⊢
      omega

theorem Sound.work_merging (h : s.Sound)
    (hworker : s.worker = .merging (p :: ops) mergedData doneChans) (outcome : Option ε) :
    ∃ s', s.work outcome = some s' ∧ s.Advances s' := by
  obtain ⟨rounds, seen, rest, owed, hbooks, hstands⟩ := h.books
  have hrun := h.inProgress
  rw [hworker] at hrun hstands
  obtain ⟨rfl, rfl, hmerged, hchans⟩ := hstands
  have hless {merged : BatchOp} {chans : List ℕ} (hle : chans.length ≤ doneChans.length + 1) :
      (ProposalWorker.merging (ε := ε) ops merged chans).left < s.worker.left := by
    rw [hworker]
    simp only [ProposalWorker.left, length_cons]
    omega
  have hsee := hbooks.see
  by_cases hgone : p.ctx ∈ s.cancelled
  · have hjoined : joined s.ownership (seen ++ [(p, s.cancelled)]) = joined s.ownership seen := by
      simp [joined, hgone]
    have howed : refusals (ε := ε) s.ownership [(p, s.cancelled)] = [] := by
      simp [refusals, hgone]
    rw [howed] at hsee
    refine ⟨{ s.look p with worker := .merging ops mergedData doneChans }, ?_,
      ⟨h.queue, hrun, h.made, h.channels, rounds, seen ++ [(p, s.cancelled)], ops, [],
        ⟨hsee.looked, hsee.taken, hsee.proposed, hsee.answers⟩, rfl, rfl,
        hjoined ▸ hmerged, hjoined ▸ hchans⟩,
      rfl, prefix_rfl, prefix_rfl, Nat.add_lt_add_left (hless (Nat.le_succ _)) _⟩
    simp only [work, hworker, if_pos hgone, look]
  · cases hkey : s.ownership.refused p.batch with
    | some key =>
      have hjoined : joined s.ownership (seen ++ [(p, s.cancelled)]) = joined s.ownership seen := by
        simp [joined, hkey]
      have howed : refusals (ε := ε) s.ownership [(p, s.cancelled)] =
          [(p.done, some (.keyOutOfRange key s.ownership.byteRange))] := by
        simp [refusals, hgone, hkey]
      rw [howed] at hsee
      have hanswers := hsee.answers
      rw [← append_nil (_ ++ [_])] at hanswers
      refine ⟨{ s.look p with
          worker := .merging ops mergedData doneChans
          answers := s.answers ++ [(p.done, some (.keyOutOfRange key s.ownership.byteRange))] }, ?_,
        ⟨h.queue, hrun, h.made, h.channels, rounds, seen ++ [(p, s.cancelled)], ops, [],
          ⟨hsee.looked, hsee.taken, hsee.proposed, hanswers⟩, rfl, rfl,
          hjoined ▸ hmerged, hjoined ▸ hchans⟩,
        rfl, prefix_append _ _, prefix_rfl, Nat.add_lt_add_left (hless (Nat.le_succ _)) _⟩
      simp only [work, hworker, if_neg hgone, hkey]
      exact send_of_nodup (hsee.answers_nodup h.queue h.channels) _
    | none =>
      have hjoined : joined s.ownership (seen ++ [(p, s.cancelled)]) =
          joined s.ownership seen ++ [p] := by
        simp [joined, hgone, hkey]
      have howed : refusals (ε := ε) s.ownership [(p, s.cancelled)] = [] := by
        simp [refusals, hkey]
      rw [howed] at hsee
      refine ⟨{ s.look p with
          worker := .merging ops (mergedData.merge p.batch) (doneChans ++ [p.done]) }, ?_,
        ⟨h.queue, hrun, h.made, h.channels, rounds, seen ++ [(p, s.cancelled)], ops, [],
          ⟨hsee.looked, hsee.taken, hsee.proposed, hsee.answers⟩, rfl, rfl, ?_, ?_⟩,
        rfl, prefix_rfl, prefix_rfl, Nat.add_lt_add_left (hless ?_) _⟩
      · simp only [work, hworker, if_neg hgone, hkey, look]
      · change mergedData.merge p.batch = mergeAll (joined s.ownership _)
        simp [hjoined, hmerged, mergeAll, BatchOp.merge]
      · change doneChans ++ [p.done] = (joined s.ownership _).map Proposal.done
        simp [hjoined, hchans]
      · simp

theorem Sound.work_proposing (h : s.Sound)
    (hworker : s.worker = .merging [] mergedData doneChans) (outcome : Option ε) :
    ∃ s', s.work outcome = some s' ∧ s.Advances s' := by
  obtain ⟨rounds, seen, rest, owed, hbooks, hstands⟩ := h.books
  have hrun := h.inProgress
  rw [hworker] at hrun hstands
  obtain ⟨rfl, rfl, hmerged, hchans⟩ := hstands
  let r : Round ε := ⟨s.ownership, seen, outcome⟩
  have hanswers := hbooks.answers
  rw [append_nil] at hanswers
  refine ⟨{ s with
      proposed := s.proposed ++ [⟨mergedData, s.ownership, outcome⟩]
      worker := .answering outcome doneChans }, ?_,
    ⟨h.queue, hrun, h.made, h.channels, rounds ++ [r], [], [], _, ⟨?_, ?_, ?_, ?_⟩, rfl, rfl, rfl⟩,
    rfl, prefix_rfl, prefix_append _ _, ?_⟩
  · simp only [work, hworker]
  · simpa [r] using hbooks.looked
  · exact hbooks.taken
  · simp [r, hbooks.proposed, Round.proposed, hmerged]
  · simp [r, Round.answers, hanswers, hchans, refusals]
  · simp [toDo, hworker, ProposalWorker.left]

theorem Sound.work_answering (h : s.Sound) (hworker : s.worker = .answering err doneChans)
    (outcome : Option ε) : ∃ s', s.work outcome = some s' ∧ s.Advances s' := by
  obtain ⟨rounds, seen, rest, owed, hbooks, hstands⟩ := h.books
  have hrun := h.inProgress
  rw [hworker] at hrun hstands
  obtain ⟨rfl, rfl, rfl⟩ := hstands
  cases doneChans with
  | nil =>
    obtain ⟨q', hstep, hq, hdelivered, haccepted, hcallback⟩ := h.queue.finish hrun
    refine ⟨{ s with proposalQueue := q', worker := .waiting }, ?_,
      ⟨hq, hcallback, haccepted ▸ h.made, haccepted ▸ h.channels, rounds, [], [], [],
        ⟨hbooks.looked, hdelivered ▸ hbooks.taken, hbooks.proposed, hbooks.answers⟩,
        rfl, rfl, rfl⟩,
      haccepted, prefix_rfl, prefix_rfl, ?_⟩
    · simp only [work, hworker, hstep, Option.map_some]
    · simp [toDo, hworker, ProposalWorker.left, haccepted, hdelivered]
  | cons ch doneChans =>
    have hanswers : s.answers ++ [(ch, err.map .proposing)] ++
        doneChans.map (fun ch => (ch, err.map .proposing)) =
        rounds.flatMap Round.answers ++ refusals s.ownership [] := by
      simpa using hbooks.answers
    refine ⟨{ s with
        worker := .answering err doneChans
        answers := s.answers ++ [(ch, err.map .proposing)] }, ?_,
      ⟨h.queue, hrun, h.made, h.channels, rounds, [], [], _,
        ⟨hbooks.looked, hbooks.taken, hbooks.proposed, hanswers⟩, rfl, rfl, rfl⟩,
      rfl, prefix_append _ _, prefix_rfl, ?_⟩
    · simp only [work, hworker]
      exact send_of_nodup (hbooks.answers_nodup h.queue h.channels) _
    · simp [toDo, hworker, ProposalWorker.left]

/-- The worker is never stuck: it takes a step unless it waits and everything was handed to it. -/
theorem Sound.work (h : s.Sound) (outcome : Option ε) :
    (s.worker = .waiting ∧ s.proposalQueue.delivered = s.proposalQueue.accepted ∧
      s.work outcome = none) ∨ ∃ s', s.work outcome = some s' ∧ s.Advances s' := by
  cases hworker : s.worker with
  | waiting => exact (h.work_waiting hworker outcome).imp_left fun hall => ⟨rfl, hall⟩
  | called ops =>
    obtain ⟨rounds, seen, rest, owed, hbooks, hstands⟩ := h.books
    have hrun := h.inProgress
    rw [hworker] at hrun hstands
    obtain ⟨rfl, rfl, rfl⟩ := hstands
    refine .inr ⟨{ s with worker := .merging rest ⟨[], [], [], .propose, 0⟩ [] }, ?_,
      ⟨h.queue, hrun, h.made, h.channels, rounds, [], rest, [],
        ⟨hbooks.looked, hbooks.taken, hbooks.proposed, hbooks.answers⟩, rfl, rfl, rfl, rfl⟩,
      rfl, prefix_rfl, prefix_rfl, ?_⟩
    · simp only [ProposalSystem.work, hworker]
    · simp [toDo, hworker, ProposalWorker.left]
  | merging ops mergedData doneChans =>
    cases ops with
    | nil => exact .inr (h.work_proposing hworker outcome)
    | cons p ops => exact .inr (h.work_merging hworker outcome)
  | answering err doneChans => exact .inr (h.work_answering hworker outcome)

theorem Sound.step (h : s.Sound) {e : ProposalEvent ε} (hstep : s.step e = some s') :
    s'.Sound := by
  obtain ⟨rounds, seen, rest, owed, hbooks, hstands⟩ := h.books
  cases e with
  | enqueue ctx batch =>
    obtain ⟨q', hq', rfl⟩ := Option.map_eq_some_iff.mp hstep
    obtain ⟨hq, hdelivered, hcallback, haccepted⟩ := h.queue.enqueue rfl hq'
    refine ⟨hq, hcallback.trans h.inProgress, fun op hop => ?_, ?_, rounds, seen, rest, owed,
      ⟨hbooks.looked, hdelivered ▸ hbooks.taken, hbooks.proposed, hbooks.answers⟩, hstands⟩
    · rcases haccepted with heq | heq
      · rw [heq] at hop
        exact Nat.lt_succ_of_lt (h.made op hop)
      · rw [heq, mem_append] at hop
        rcases hop with hop | hop
        · exact Nat.lt_succ_of_lt (h.made op hop)
        · rw [mem_singleton.mp hop]
          exact Nat.lt_succ_self _
    · rcases haccepted with heq | heq
      · rw [heq]
        exact h.channels
      · rw [heq, map_append, map_append]
        refine nodup_append.mpr ⟨h.channels, nodup_singleton _, fun ch hch ch' hch' => ?_⟩
        obtain ⟨p, hp, rfl⟩ := List.mem_map.mp hch
        obtain ⟨op, hop, rfl⟩ := List.mem_map.mp hp
        rw [mem_singleton.mp hch']
        exact (h.made op hop).ne
  | cancel ctx =>
    cases hstep
    exact ⟨h.queue, h.inProgress, h.made, h.channels, rounds, seen, rest, owed,
      ⟨hbooks.looked, hbooks.taken, hbooks.proposed, hbooks.answers⟩, hstands⟩
  | own ownership =>
    simp only [ProposalSystem.step] at hstep
    have hrun := h.inProgress
    split at hstep
    · cases hstep
    · rename_i hnot
      cases hstep
      -- Outside of a merge nothing depends on the ownership.
      have hseen : seen = [] ∧ Stands ownership seen rest owed s.worker := by
        cases hworker : s.worker with
        | merging => exact absurd hworker (hnot _ _ _)
        | waiting | called | answering =>
          rw [hworker] at hstands
          exact ⟨hstands.1, hstands⟩
      obtain ⟨rfl, hstands⟩ := hseen
      exact ⟨h.queue, hrun, h.made, h.channels, rounds, [], rest, owed,
        ⟨hbooks.looked, hbooks.taken, hbooks.proposed, hbooks.answers⟩, hstands⟩
  | work outcome =>
    rcases h.work outcome with ⟨-, -, hnone⟩ | ⟨s₁, hwork, hadvances⟩
    · exact absurd (hnone.symm.trans hstep) nofun
    · obtain rfl : s₁ = s' := Option.some_inj.mp (hwork.symm.trans hstep)
      exact hadvances.sound

/-- The worker gets through what was accepted, whatever becomes of the proposals. -/
theorem Sound.drains (h : s.Sound) (outcome : Option ε) :
    ∃ more s' rounds, Run ProposalSystem.step (fun _ e => e = .work outcome) s more s' ∧
      s'.worker = .waiting ∧ s'.proposalQueue.accepted = s.proposalQueue.accepted ∧
      s.answers <+: s'.answers ∧ s.proposed <+: s'.proposed ∧ Accounted s' rounds := by
  induction hn : s.toDo using Nat.strongRecOn generalizing s with
  | _ n ih =>
    rcases h.work outcome with ⟨hworker, hall, -⟩ | ⟨s₁, hwork, hadvances⟩
    · obtain ⟨rounds, seen, rest, owed, hbooks, hstands⟩ := h.books
      rw [hworker] at hstands
      obtain ⟨rfl, rfl, rfl⟩ := hstands
      refine ⟨[], s, rounds, .nil s, hworker, rfl, prefix_rfl, prefix_rfl, ?_, ?_, hbooks.proposed,
        ?_⟩
      · rw [hbooks.looked, append_nil]
      · rw [← hall, hbooks.taken, append_nil]
      · simpa [refusals] using hbooks.answers
    · obtain ⟨more, s', rounds, hrun, hworker, haccepted, hanswers, hproposed, hrounds⟩ :=
        ih _ (hn ▸ hadvances.less) hadvances.sound rfl
      exact ⟨.work outcome :: more, s', rounds, .cons rfl hwork hrun, hworker,
        haccepted.trans hadvances.accepted, hadvances.answers.trans hanswers,
        hadvances.proposed.trans hproposed, hrounds⟩

/-- In every run, however requests, cancellations and changes of the ownership interleave with the
worker: what is proposed passes the ownership check of that moment, no channel is sent two answers,
and the worker gets through what was accepted, each request in one round and in order. -/
theorem proposals_accounted {o : ShardOwnership} {events : List (ProposalEvent ε)}
    (h : Run step (fun _ _ => True) (start o) events s) :
    (∀ p ∈ s.proposed, validateBatchKeys p.batch p.ownership.byteRange p.ownership.splitState
      p.ownership.mergeState = true) ∧
    (s.answers.map Prod.fst).Nodup ∧
    ∀ outcome : Option ε, ∃ more s' rounds, Run step (fun _ e => e = .work outcome) s more s' ∧
      s'.worker = .waiting ∧ s'.proposalQueue.accepted = s.proposalQueue.accepted ∧
      s.answers <+: s'.answers ∧ s.proposed <+: s'.proposed ∧ Accounted s' rounds := by
  have hsound := h.invariant (fun _ _ _ _ hstep hinv => hinv.step hstep) (sound_start o)
  obtain ⟨rounds, seen, rest, owed, hbooks, -⟩ := hsound.books
  refine ⟨fun p hp => ?_, ?_, hsound.drains⟩
  · rw [hbooks.proposed] at hp
    obtain ⟨r, -, rfl⟩ := List.mem_map.mp hp
    exact validates_mergeAll r.ownership r.ops
  · have hnodup := hbooks.answers_nodup hsound.queue hsound.channels
    rw [map_append] at hnodup
    exact hnodup.of_append_left

/-- The second of two requests is outside of the range. -/
theorem proposals_accounted_one_refused : ∃ s : ProposalSystem ℕ,
    Run step (fun _ _ => True) (start ⟨⟨[], ascii ['m']⟩, none, none⟩)
      [.enqueue 0 ⟨[], [ascii ['b']], [], .propose, 0⟩,
        .enqueue 1 ⟨[], [ascii ['x']], [], .propose, 0⟩,
        .work none, .work none, .work none, .work none, .work none, .work none] s ∧
      s.answers = [(1, some (.keyOutOfRange (ascii ['x']) ⟨[], ascii ['m']⟩)), (0, none)] ∧
      (s.answers.map Prod.fst).Nodup := by
  have hrun : ∃ s : ProposalSystem ℕ,
      Run step (fun _ _ => True) (start ⟨⟨[], ascii ['m']⟩, none, none⟩)
        [.enqueue 0 ⟨[], [ascii ['b']], [], .propose, 0⟩,
          .enqueue 1 ⟨[], [ascii ['x']], [], .propose, 0⟩,
          .work none, .work none, .work none, .work none, .work none, .work none] s ∧
        s.answers = [(1, some (.keyOutOfRange (ascii ['x']) ⟨[], ascii ['m']⟩)), (0, none)] :=
    ⟨_, .cons trivial rfl (.cons trivial rfl (.cons trivial rfl (.cons trivial rfl
      (.cons trivial rfl (.cons trivial rfl (.cons trivial rfl (.cons trivial rfl
      (.nil _)))))))), rfl⟩
  obtain ⟨s, hrun, hanswers⟩ := hrun
  exact ⟨s, hrun, hanswers, (proposals_accounted hrun).2.1⟩

end ProposalSystem

end Antfly
