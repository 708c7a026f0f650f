import Antfly.Graph.PatternExact

/-!
The first step filters the start nodes, with documents that have to exist; the steps between filter
by prefix only; the query of the last step is asked unless its alias is that of the first step and
has been asked there.
-/

namespace Antfly.Graph

open Trails List OrdMap

section Ends

variable {g : EdgeStore} {docs : Documents}

def Documents.keepsStart (docs : Documents) (filter : NodeFilter) (v : Bytes) : Bool :=
  nodePassesPrefixFilter v filter &&
    match filter.filterQuery with
    | none => true
    | some _ => (docs.fetch v).any fun doc => docs.nodePassesQueryFilter (some doc) filter

theorem keys_start (firstAlias v : Bytes) (doc : Option Bytes) :
    MatchState.keys ⟨OrdMap.empty.insert firstAlias ⟨v, 0, doc⟩, []⟩ =
      (OrdMap.empty : Binding).insert firstAlias v := by
  apply ext_get?
  intro a
  rw [get?_keys, get?_insert, get?_insert]
  split <;> rfl

theorem firstMatches_keys (firstAlias : Bytes) (filter : NodeFilter) (startNodes : List Bytes) :
    (firstMatches docs firstAlias filter startNodes).map MatchState.keys =
      (startNodes.filter (docs.keepsStart filter)).map
        fun v => (OrdMap.empty : Binding).insert firstAlias v := by
  unfold firstMatches
  cases hquery : filter.filterQuery with
  | none =>
    have hkeeps : docs.keepsStart filter = fun v => nodePassesPrefixFilter v filter := by
      funext v
      simp only [Documents.keepsStart, hquery, Bool.and_true]
    dsimp only
    rw [hkeeps, map_map]
    apply map_congr_left
    intro v _
    exact keys_start firstAlias v none
  | some query =>
    dsimp only
    induction startNodes with
    | nil => rfl
    | cons v startNodes ih =>
      cases hpre : nodePassesPrefixFilter v filter with
      | false =>
        have hkeeps : docs.keepsStart filter v = false := by
          rw [Documents.keepsStart, hpre, Bool.false_and]
        rw [filter_cons_of_neg (by rw [hpre]; exact Bool.false_ne_true), ih,
          filter_cons_of_neg (by rw [hkeeps]; exact Bool.false_ne_true)]
      | true =>
        rw [filter_cons_of_pos (p := fun key => nodePassesPrefixFilter key filter) hpre,
          filterMap_cons]
        have hkeeps : docs.keepsStart filter v =
            (docs.fetch v).any fun doc => docs.nodePassesQueryFilter (some doc) filter := by
          simp only [Documents.keepsStart, hpre, hquery, Bool.true_and]
        rw [filter_cons, hkeeps]
        cases docs.fetch v with
        | none => exact ih
        | some doc =>
          by_cases hpass : docs.nodePassesQueryFilter (some doc) filter = true
          · simp only [Option.bind_some, Option.any_some, if_pos hpass, map_cons, ih,
              keys_start]
          · simp only [Option.bind_some, Option.any_some, if_neg hpass, ih]

variable {b : Binding} {a v : Bytes} {filter : NodeFilter} {startNodes : List Bytes}
variable {first : Bytes × PatternStep} {m : MatchState} {current : List MatchState}

theorem cut_singleton (hv : b.get? a = some v) :
    cut b [a] = (OrdMap.empty : Binding).insert a v := by
  apply ext_get?
  intro x
  rw [get?_cut, get?_insert]
  by_cases hx : x = a
  · subst hx
    rw [if_pos (mem_singleton_self x), if_pos rfl, hv]
  · rw [if_neg (fun h => hx (mem_singleton.mp h)), if_neg hx]
    rfl

theorem insert_injective (a : Bytes) :
    Function.Injective fun v => (OrdMap.empty : Binding).insert a v := by
  intro v w heq
  have hget := congrArg (fun b : Binding => b.get? a) heq
  simp only [get?_insert, if_true, Option.some.injEq] at hget
  exact hget

theorem count_firstMatches (hv : b.get? a = some v) :
    ((firstMatches docs a filter startNodes).map MatchState.keys).count (cut b [a]) =
      (startNodes.filter (docs.keepsStart filter)).count v := by
  rw [firstMatches_keys, cut_singleton hv]
  exact count_map_of_injective _ _ (insert_injective a) v

theorem binds_firstMatches : ∀ m ∈ firstMatches docs a filter startNodes, Binds m.keys [a] := by
  intro m hm x
  have hkeys := mem_map_of_mem (f := MatchState.keys) hm
  rw [firstMatches_keys, mem_map] at hkeys
  obtain ⟨v, -, hv⟩ := hkeys
  rw [← hv, get?_insert, mem_singleton]
  by_cases hx : x = a <;> simp [hx]

theorem binds_firstKeys :
    ∀ c ∈ (firstMatches docs a filter startNodes).map MatchState.keys, Binds c [a] := by
  intro c hc
  obtain ⟨m, hm, rfl⟩ := mem_map.mp hc
  exact binds_firstMatches m hm

/-- The documents that a match has: that of the start node where its query has been asked. -/
structure Fetched (first : Bytes × PatternStep) (m : MatchState) : Prop where
  start : ∃ node, m.bindings.get? first.1 = some node ∧
    (node.document = none ↔ first.2.nodeFilter.filterQuery = none)
  others : ∀ a ≠ first.1, ∀ node, m.bindings.get? a = some node → node.document = none

theorem fetched_firstMatches :
    ∀ m ∈ firstMatches docs first.1 first.2.nodeFilter startNodes, Fetched first m := by
  have hmake : ∀ v doc, (doc = none ↔ first.2.nodeFilter.filterQuery = none) →
      Fetched first ⟨OrdMap.empty.insert first.1 ⟨v, 0, doc⟩, []⟩ := by
    intro v doc hdoc
    constructor
    · exact ⟨⟨v, 0, doc⟩, by rw [get?_insert, if_pos rfl], hdoc⟩
    · intro a ha node hnode
      rw [get?_insert, if_neg ha] at hnode
      cases hnode
  intro m hm
  unfold firstMatches at hm
  cases hquery : first.2.nodeFilter.filterQuery with
  | none =>
    rw [hquery] at hm
    obtain ⟨v, -, rfl⟩ := mem_map.mp hm
    exact hmake v none (iff_of_true rfl hquery)
  | some query =>
    rw [hquery] at hm
    obtain ⟨v, -, hv⟩ := mem_filterMap.mp hm
    obtain ⟨doc, -, hdoc⟩ := Option.bind_eq_some_iff.mp hv
    split at hdoc
    · cases hdoc
      apply hmake
      rw [hquery]
      exact iff_of_false (Option.some_ne_none doc) (Option.some_ne_none query)
    · cases hdoc

theorem Fetched.extend {m' : MatchState} {alias_ : Bytes} {reached : ReachableNode}
    (hm : Fetched first m) (hdoc : reached.node.document = none)
    (hext : extendMatch alias_ filter m reached = some m') :
    Fetched first m' := by
  unfold extendMatch at hext
  cases hget : m.bindings.get? alias_ with
  | some expected =>
    rw [hget] at hext
    dsimp only at hext
    split at hext
    · cases hext
    · cases hext
      exact ⟨hm.start, hm.others⟩
  | none =>
    rw [hget] at hext
    dsimp only at hext
    split at hext
    · cases hext
    · cases hext
      obtain ⟨node, hnode, hstart⟩ := hm.start
      have hne : first.1 ≠ alias_ := by
        rintro rfl
        rw [hget] at hnode
        cases hnode
      constructor
      · exact ⟨node, by rw [get?_insert, if_neg hne, hnode], hstart⟩
      · intro a ha node' hnode'
        rw [get?_insert] at hnode'
        split at hnode'
        · cases hnode'
          exact hdoc
        · exact hm.others a ha node' hnode'

theorem fetched_runSteps {limit : ℕ} {prevAlias : Bytes} {rest : List (Bytes × PatternStep)}
    (hlimit : StepsClear g limit prevAlias rest current)
    (hcurrent : ∀ m ∈ current, Fetched first m) :
    ∀ m ∈ runSteps g limit prevAlias rest current, Fetched first m := by
  induction rest generalizing prevAlias current with
  | nil => exact hcurrent
  | cons s rest ih =>
    obtain ⟨alias_, step⟩ := s
    obtain ⟨-, hnext, hrest⟩ := hlimit
    have hfetched : ∀ m ∈ nextMatches g limit prevAlias alias_ step [] current,
        Fetched first m := by
      intro m hm
      rw [nextMatches_eq hnext, nil_append, mem_flatMap] at hm
      obtain ⟨m', hm', hext⟩ := hm
      unfold matchExtensions at hext
      cases hget : m'.bindings.get? prevAlias with
      | none =>
        rw [hget] at hext
        cases hext
      | some node =>
        rw [hget] at hext
        obtain ⟨reached, hreached, hext⟩ := mem_filterMap.mp hext
        refine (hcurrent m' hm').extend ?_ hext
        refine exploreLevels_documents ?_ reached hreached
        intro r hr
        cases hr
    rw [runSteps]
    split
    · intro m hm
      cases hm
    · exact ih hrest hfetched

def Documents.keepsLast (docs : Documents) (first last : Bytes × PatternStep) (b : Binding) :
    Bool :=
  if last.1 = first.1 ∧ first.2.nodeFilter.filterQuery ≠ none then true
  else (b.get? last.1).all fun x => docs.nodePassesQueryFilter (docs.fetch x) last.2.nodeFilter

theorem keys_insert_document {node : GraphResultNode} {doc : Option Bytes}
    (hnode : m.bindings.get? a = some node) :
    MatchState.keys { m with bindings := m.bindings.insert a { node with document := doc } } =
      m.keys := by
  apply ext_get?
  intro x
  rw [get?_keys, get?_keys, get?_insert]
  by_cases hx : x = a
  · rw [if_pos hx, hx, hnode]
    rfl
  · rw [if_neg hx]

theorem filterLast_keys {last : Bytes × PatternStep} (hcurrent : ∀ m ∈ current, Fetched first m)
    (hlast : ∀ m ∈ current, ∃ node, m.bindings.get? last.1 = some node) :
    (filterLast docs last.1 last.2.nodeFilter current).map MatchState.keys =
      (current.map MatchState.keys).filter (docs.keepsLast first last) := by
  unfold filterLast
  cases hquery : last.2.nodeFilter.filterQuery with
  | none =>
    have hkeeps : ∀ b, docs.keepsLast first last b = true := by
      intro b
      unfold Documents.keepsLast Documents.nodePassesQueryFilter
      rw [hquery]
      simp
    symm
    rw [filter_eq_self]
    intro b _
    exact hkeeps b
  | some query =>
    dsimp only
    by_cases hasked : last.1 = first.1 ∧ first.2.nodeFilter.filterQuery ≠ none
    · -- every document has been fetched with the start nodes
      have hkeys : keysToFetch last.1 current = [] := by
        unfold keysToFetch
        rw [filterMap_eq_nil_iff]
        intro m hm
        obtain ⟨node, hnode, hdoc⟩ := (hcurrent m hm).start
        have hsome : node.document ≠ none := fun h => hasked.2 (hdoc.mp h)
        rw [hasked.1, hnode]
        simp [Option.isNone_iff_eq_none, hsome]
      rw [if_pos hkeys]
      symm
      rw [filter_eq_self]
      intro b _
      rw [Documents.keepsLast, if_pos hasked]
    · have hnone : ∀ m ∈ current, ∀ node, m.bindings.get? last.1 = some node →
          node.document = none := by
        intro m hm node hnode
        by_cases hfirst : last.1 = first.1
        · obtain ⟨node', hnode', hdoc⟩ := (hcurrent m hm).start
          rw [hfirst, hnode'] at hnode
          cases hnode
          rw [hdoc]
          by_contra hne
          exact hasked ⟨hfirst, hne⟩
        · exact (hcurrent m hm).others last.1 hfirst node hnode
      have hfetch : ∀ m ∈ current, ∀ node, m.bindings.get? last.1 = some node →
          node.key ∈ keysToFetch last.1 current := by
        intro m hm node hnode
        refine mem_filterMap.mpr ⟨m, hm, ?_⟩
        rw [hnode]
        simp [hnone m hm node hnode]
      split
      · rename_i hempty
        have hnil : current = [] := by
          rw [eq_nil_iff_forall_not_mem]
          intro m hm
          obtain ⟨node, hnode⟩ := hlast m hm
          have hmem := hfetch m hm node hnode
          rw [hempty] at hmem
          cases hmem
        rw [hnil]
        rfl
      · rw [map_filterMap, filter_map, ← filterMap_eq_map,
          filterMap_filter]
        apply filterMap_congr
        intro m hm
        obtain ⟨node, hnode⟩ := hlast m hm
        have hkeeps : docs.keepsLast first last m.keys =
            docs.nodePassesQueryFilter (docs.fetch node.key) last.2.nodeFilter := by
          rw [Documents.keepsLast, if_neg hasked, get?_keys, hnode]
          rfl
        rw [hnode, Option.bind_some, if_pos (hfetch m hm node hnode), hnone m hm node hnode,
          Option.or_none, Function.comp_apply, hkeeps]
        split
        · rw [Option.map_some, keys_insert_document hnode]
          rfl
        · rfl

end Ends

section Exactness

variable (g : EdgeStore) (docs : Documents) (query : GraphQuery.Pattern) (startNodes : List Bytes)
  (first : Bytes × PatternStep) (rest : List (Bytes × PatternStep))

/-- A walk of permitted edges of a length in range. -/
def Realised (step : PatternEdgeStep) (v x : Bytes) : Prop :=
  ∃ t, IsTrail (Crossed g step) v t x ∧ step.minimum ≤ t.length ∧ (t.length : ℤ) ≤ step.maximum

/-- A binding that the pattern asks for. -/
structure Wanted (b : Binding) : Prop where
  binds : Binds b ((first :: rest).map Prod.fst)
  starts : ∃ v ∈ startNodes, b.get? first.1 = some v
  passes : ∀ s ∈ first :: rest, ∀ x, b.get? s.1 = some x →
    nodePassesPrefixFilter x s.2.nodeFilter = true ∧
      docs.nodePassesQueryFilter (docs.fetch x) s.2.nodeFilter = true
  realised : Along (fun step => Realised g step.edge) b first.1 rest

/-- A binding whose steps are entered and that the filters that are asked let pass. -/
structure Candidate (b : Binding) : Prop where
  binds : Binds b ((first :: rest).map Prod.fst)
  starts : ∃ v ∈ startNodes, b.get? first.1 = some v ∧
    docs.keepsStart first.2.nodeFilter v = true
  entered : Along (Hops g Entered) b first.1 rest
  last : docs.keepsLast first ((first :: rest).getLast (List.cons_ne_nil first rest)) b = true

/-- The start node is listed once, with a document if the first step asks for one, and one edge
enters the node of every further step. -/
def FoundOnce (b : Binding) : Prop :=
  (∃ v, b.get? first.1 = some v ∧ startNodes.count v = 1 ∧
    (first.2.nodeFilter.filterQuery ≠ none → docs.fetch v ≠ none)) ∧
  Along (fun step => EnteredOnce g step.edge) b first.1 rest

/-- Every binding asked for is found once, and the queries that are not asked change nothing. -/
def Tidy : Prop :=
  (∀ b, Wanted g docs startNodes first rest b → FoundOnce g docs startNodes first rest b) ∧
  ∀ b, Candidate g docs startNodes first rest b → ∀ s ∈ first :: rest, ∀ x, b.get? s.1 = some x →
    docs.nodePassesQueryFilter (docs.fetch x) s.2.nodeFilter = true

def NoLimit : Prop :=
  StepsClear g (query.limit * 10) first.1 rest
      (firstMatches docs first.1 first.2.nodeFilter startNodes) ∧
    (patternMatches g docs query.limit startNodes first rest).length ≤ query.limit

/-- The query returns the matches found, which bind what is asked for, each once. -/
def Exact : Prop :=
  executePattern g docs query startNodes =
      .ok ((patternMatches g docs query.limit startNodes first rest).map (returnMatch docs query)) ∧
    ((patternMatches g docs query.limit startNodes first rest).map MatchState.keys).Nodup ∧
    ∀ b, b ∈ (patternMatches g docs query.limit startNodes first rest).map MatchState.keys ↔
      Wanted g docs startNodes first rest b

variable {g docs query startNodes first rest}

variable {v : Bytes} {filter : NodeFilter} {b : Binding}

theorem Entered.realised {step : PatternEdgeStep} {x : Bytes} (hx : Entered g step v x) :
    Realised g step v x := by
  obtain ⟨w, ⟨k, hmax, hmin, ⟨t, ht, hlength⟩, -⟩, hend⟩ := hx
  obtain ⟨-, e, hcross⟩ := (mem_otherEnds g step).mp hend
  refine ⟨(e, w) :: t, IsTrail.cons ht hcross, ?_, ?_⟩ <;> rw [length_cons, hlength] <;>
    push_cast <;> omega

theorem found_keys
    (hlimit : StepsClear g (query.limit * 10) first.1 rest
      (firstMatches docs first.1 first.2.nodeFilter startNodes)) :
    (patternMatches g docs query.limit startNodes first rest).map MatchState.keys =
      (stepsKeys g first.1 rest
        ((firstMatches docs first.1 first.2.nodeFilter startNodes).map MatchState.keys)).filter
        (docs.keepsLast first ((first :: rest).getLast (cons_ne_nil first rest))) := by
  unfold patternMatches
  dsimp only
  rw [filterLast_keys (fetched_runSteps hlimit fetched_firstMatches), runSteps_keys hlimit]
  intro m hm
  have hkeys := mem_map_of_mem (f := MatchState.keys) hm
  rw [runSteps_keys hlimit] at hkeys
  have hlast : ((first :: rest).getLast (cons_ne_nil first rest)).1 ∈
      (first :: rest).map Prod.fst := mem_map_of_mem (getLast_mem _)
  rw [map_cons, mem_cons, ← mem_singleton] at hlast
  obtain ⟨x, hx⟩ := (binds_stepsKeys binds_firstKeys m.keys hkeys _).mpr hlast
  rw [get?_keys] at hx
  obtain ⟨node, hnode, -⟩ := Option.map_eq_some_iff.mp hx
  exact ⟨node, hnode⟩

/-- How often a binding is found: as often as its start node is listed, times the ways to go on. -/
theorem count_found
    (hlimit : StepsClear g (query.limit * 10) first.1 rest
      (firstMatches docs first.1 first.2.nodeFilter startNodes))
    {b : Binding} {v : Bytes} (hbinds : Binds b ((first :: rest).map Prod.fst))
    (hv : b.get? first.1 = some v)
    (hlast : docs.keepsLast first ((first :: rest).getLast (cons_ne_nil first rest)) b =
      true) :
    ((patternMatches g docs query.limit startNodes first rest).map MatchState.keys).count b =
      (startNodes.filter (docs.keepsStart first.2.nodeFilter)).count v * ways g b first.1 rest := by
  have hb : ∀ a, (∃ x, b.get? a = some x) ↔ a ∈ [first.1] ∨ a ∈ rest.map Prod.fst := by
    intro a
    rw [hbinds a, map_cons, mem_cons, mem_singleton]
  rw [found_keys hlimit, count_filter hlast,
    count_stepsKeys (mem_singleton_self first.1) binds_firstKeys hb, count_firstMatches hv]

theorem ways_first
    (hlimit : StepsClear g (query.limit * 10) first.1 rest
      (firstMatches docs first.1 first.2.nodeFilter startNodes))
    {b : Binding} {v : Bytes} (hbinds : Binds b ((first :: rest).map Prod.fst))
    (hv : b.get? first.1 = some v)
    (hmem : v ∈ startNodes.filter (docs.keepsStart first.2.nodeFilter)) :
    (ways g b first.1 rest ≠ 0 ↔ Along (Hops g Entered) b first.1 rest) ∧
      (ways g b first.1 rest = 1 ↔ Along (Hops g EnteredOnce) b first.1 rest) := by
  have hb : ∀ a, (∃ x, b.get? a = some x) ↔ a ∈ [first.1] ∨ a ∈ rest.map Prod.fst := by
    intro a
    rw [hbinds a, map_cons, mem_cons, mem_singleton]
  apply ways_iff hlimit (mem_singleton_self first.1) binds_firstMatches hb
  rw [← count_pos_iff, count_firstMatches hv, count_pos_iff]
  exact hmem

theorem mem_found
    (hlimit : StepsClear g (query.limit * 10) first.1 rest
      (firstMatches docs first.1 first.2.nodeFilter startNodes)) {b : Binding} :
    b ∈ (patternMatches g docs query.limit startNodes first rest).map MatchState.keys ↔
      Candidate g docs startNodes first rest b := by
  constructor
  · intro hmem
    have hmem' := hmem
    rw [found_keys hlimit, mem_filter] at hmem'
    obtain ⟨hsteps, hlast⟩ := hmem'
    have hbinds : Binds b ((first :: rest).map Prod.fst) := by
      intro a
      rw [binds_stepsKeys binds_firstKeys b hsteps a, mem_singleton, map_cons,
        mem_cons]
    obtain ⟨v, hv⟩ := (hbinds first.1).mpr (by rw [map_cons]; exact mem_cons_self)
    have hcount := count_pos_iff.mpr hmem
    rw [count_found hlimit hbinds hv hlast] at hcount
    have hstart := count_pos_iff.mp (Nat.pos_of_mul_pos_right hcount)
    have hways := Nat.pos_of_mul_pos_left hcount
    obtain ⟨hlisted, hkeeps⟩ := mem_filter.mp hstart
    exact ⟨hbinds, ⟨v, hlisted, hv, hkeeps⟩,
      (ways_first hlimit hbinds hv hstart).1.mp (by omega), hlast⟩
  · rintro ⟨hbinds, ⟨v, hlisted, hv, hkeeps⟩, hentered, hlast⟩
    have hstart := mem_filter.mpr ⟨hlisted, hkeeps⟩
    have hways := (ways_first hlimit hbinds hv hstart).1.mpr hentered
    rw [← count_pos_iff, count_found hlimit hbinds hv hlast]
    exact Nat.mul_pos (count_pos_iff.mpr hstart) (Nat.pos_of_ne_zero hways)

/-- A candidate that passes every filter is found once where its start node is listed once and every
step is entered by one edge. -/
theorem count_found_eq_one
    (hlimit : StepsClear g (query.limit * 10) first.1 rest
      (firstMatches docs first.1 first.2.nodeFilter startNodes)) {b : Binding}
    (hb : Candidate g docs startNodes first rest b) :
    ((patternMatches g docs query.limit startNodes first rest).map MatchState.keys).count b = 1 ↔
      (∃ v, b.get? first.1 = some v ∧ startNodes.count v = 1) ∧
        Along (Hops g EnteredOnce) b first.1 rest := by
  obtain ⟨hbinds, ⟨v, hlisted, hv, hkeeps⟩, -, hlast⟩ := hb
  have hstart := mem_filter.mpr ⟨hlisted, hkeeps⟩
  have hways := (ways_first hlimit hbinds hv hstart).2
  rw [count_found hlimit hbinds hv hlast, count_filter hkeeps, ← hways]
  constructor
  · intro hmul
    exact ⟨⟨v, hv, Nat.eq_one_of_mul_eq_one_right hmul⟩, Nat.eq_one_of_mul_eq_one_left hmul⟩
  · rintro ⟨⟨v', hv', hcount⟩, hone⟩
    rw [hv] at hv'
    cases hv'
    rw [hcount, hone]

theorem keepsStart_of_passes (hpre : nodePassesPrefixFilter v filter = true)
    (hquery : docs.nodePassesQueryFilter (docs.fetch v) filter = true)
    (hdoc : filter.filterQuery ≠ none → docs.fetch v ≠ none) :
    docs.keepsStart filter v = true := by
  rw [Documents.keepsStart, hpre, Bool.true_and]
  cases hasked : filter.filterQuery with
  | none => rfl
  | some query =>
    have hne := hdoc (by rw [hasked]; exact Option.some_ne_none query)
    obtain ⟨doc, hfetch⟩ := Option.ne_none_iff_exists'.mp hne
    dsimp only
    rw [hfetch] at hquery ⊢
    exact hquery

theorem fetch_of_keepsStart (hkeeps : docs.keepsStart filter v = true) :
    filter.filterQuery ≠ none → docs.fetch v ≠ none := by
  intro hasked hnone
  obtain ⟨query, hquery⟩ := Option.ne_none_iff_exists'.mp hasked
  rw [Documents.keepsStart, hquery, hnone] at hkeeps
  simp at hkeeps

theorem keepsLast_of_wanted (hb : Wanted g docs startNodes first rest b) :
    docs.keepsLast first ((first :: rest).getLast (cons_ne_nil first rest)) b = true := by
  unfold Documents.keepsLast
  split
  · rfl
  · rw [Option.all_eq_true]
    intro x hx
    exact (hb.passes _ (getLast_mem _) x hx).2

theorem Wanted.candidate (hb : Wanted g docs startNodes first rest b)
    (honce : FoundOnce g docs startNodes first rest b) :
    Candidate g docs startNodes first rest b ∧ Along (Hops g EnteredOnce) b first.1 rest := by
  obtain ⟨⟨v, hv, hcount, hdoc⟩, halong⟩ := honce
  have hpass := hb.passes first mem_cons_self v hv
  have hlisted : v ∈ startNodes := by
    rw [← count_pos_iff, hcount]
    exact Nat.one_pos
  have hhops : Along (Hops g EnteredOnce) b first.1 rest :=
    halong.and fun s hs x hx => (hb.passes s (mem_cons_of_mem first hs) x hx).1
  refine ⟨⟨hb.binds, ⟨v, hlisted, hv, keepsStart_of_passes hpass.1 hpass.2 hdoc⟩, ?_,
    keepsLast_of_wanted hb⟩, hhops⟩
  apply hhops.mono
  rintro step w x ⟨hpre, u, hrange, hone, -⟩
  refine ⟨hpre, u, hrange, ?_⟩
  rw [← count_pos_iff, hone]
  exact Nat.one_pos

theorem Candidate.wanted {b : Binding} (hb : Candidate g docs startNodes first rest b)
    (hquery : ∀ s ∈ first :: rest, ∀ x, b.get? s.1 = some x →
      docs.nodePassesQueryFilter (docs.fetch x) s.2.nodeFilter = true) :
    Wanted g docs startNodes first rest b := by
  obtain ⟨hbinds, ⟨v, hlisted, hv, hkeeps⟩, hentered, -⟩ := hb
  refine ⟨hbinds, ⟨v, hlisted, hv⟩, ?_, hentered.mono fun step w x h => h.2.realised⟩
  intro s hs x hx
  refine ⟨?_, hquery s hs x hx⟩
  rcases mem_cons.mp hs with rfl | hs
  · rw [hv] at hx
    cases hx
    rw [Documents.keepsStart, Bool.and_eq_true] at hkeeps
    exact hkeeps.1
  · exact hentered.forall_mem s hs x hx

theorem executePattern_eq (hsteps : aliased query.steps = first :: rest)
    (hlength : (patternMatches g docs query.limit startNodes first rest).length ≤ query.limit) :
    executePattern g docs query startNodes =
      .ok ((patternMatches g docs query.limit startNodes first rest).map
        (returnMatch docs query)) := by
  unfold executePattern
  rw [hsteps]
  dsimp only
  rw [take_of_length_le hlength]

def PatternMatch.keys (m : PatternMatch) : Binding := m.bindings.map fun _ node => node.key

theorem returnMatch_keys (m : MatchState) :
    (returnMatch docs query m).keys =
      m.keys.filter fun name => decide (query.returnAliases = [] ∨ name ∈ query.returnAliases) := by
  apply ext_get?
  intro a
  rw [PatternMatch.keys, returnMatch, get?_map, get?_map, get?_filter,
    get?_filter, get?_keys]
  split
  · cases m.bindings.get? a with
    | none => rfl
    | some node =>
      rw [Option.map_some, Option.map_some, Option.map_some]
      split <;> rfl
  · rfl

/-- Below the limits, every search for the nodes of a step ends, and the query is exact where every
binding asked for is found once and the queries that are not asked change nothing. -/
theorem executePattern_spec (hsteps : aliased query.steps = first :: rest)
    (hlimit : NoLimit g docs query startNodes first rest) :
    (∀ step filter v fuel, step.maximum.toNat < fuel →
      exploreLevels g step filter fuel [⟨v, [], 0⟩] [v] [] = findReachableNodes g step filter v) ∧
    (∀ m, (returnMatch docs query m).keys = m.keys.filter fun name =>
      decide (query.returnAliases = [] ∨ name ∈ query.returnAliases)) ∧
    (Exact g docs query startNodes first rest ↔ Tidy g docs startNodes first rest) := by
  obtain ⟨hclear, hlength⟩ := hlimit
  refine ⟨fun step filter v fuel hfuel => exploreLevels_enough v hfuel, returnMatch_keys, ?_⟩
  constructor
  · rintro ⟨-, hnodup, hexact⟩
    constructor
    · intro b hb
      have hmem := (hexact b).mpr hb
      have hcandidate := (mem_found hclear).mp hmem
      have hone := List.count_eq_one_of_mem hnodup hmem
      obtain ⟨⟨v, hv, hcount⟩, halong⟩ := (count_found_eq_one hclear hcandidate).mp hone
      obtain ⟨v', -, hv', hkeeps⟩ := hcandidate.starts
      rw [hv] at hv'
      cases hv'
      exact ⟨⟨v, hv, hcount, fetch_of_keepsStart hkeeps⟩, halong.mono fun _ _ _ h => h.2⟩
    · intro b hb s hs x hx
      have hwanted := (hexact b).mp ((mem_found hclear).mpr hb)
      exact (hwanted.passes s hs x hx).2
  · rintro ⟨honce, hqueries⟩
    have hfound : ∀ b, b ∈ (patternMatches g docs query.limit startNodes first rest).map
        MatchState.keys → Wanted g docs startNodes first rest b := by
      intro b hmem
      have hcandidate := (mem_found hclear).mp hmem
      exact hcandidate.wanted (hqueries b hcandidate)
    refine ⟨executePattern_eq hsteps hlength, ?_, ?_⟩
    · rw [List.nodup_iff_count_le_one]
      intro b
      by_cases hmem : b ∈ (patternMatches g docs query.limit startNodes first rest).map
        MatchState.keys
      · have hwanted := hfound b hmem
        obtain ⟨hcandidate, halong⟩ := hwanted.candidate (honce b hwanted)
        obtain ⟨v, hv, hcount, -⟩ := (honce b hwanted).1
        exact le_of_eq ((count_found_eq_one hclear hcandidate).mpr ⟨⟨v, hv, hcount⟩, halong⟩)
      · rw [List.count_eq_zero.mpr hmem]
        exact Nat.zero_le 1
    · intro b
      constructor
      · exact hfound b
      · intro hwanted
        exact (mem_found hclear).mpr (hwanted.candidate (honce b hwanted)).1

end Exactness

def follows : Edge := ⟨[1], [2], [70], 1, []⟩
def likes : Edge := ⟨[1], [2], [76], 1, []⟩

def chord13 : Edge := ⟨[1], [3], [], 1, []⟩
def chord23 : Edge := ⟨[2], [3], [], 1, []⟩
def chord34 : Edge := ⟨[3], [4], [], 1, []⟩

def parallelGraph : EdgeStore := ⟨[follows, likes], [follows, likes], List.Perm.refl _⟩

/-- From 1 to 4 over 3, which is reached directly or over 2. -/
def chordGraph : EdgeStore :=
  ⟨[follows, chord13, chord23, chord34], [follows, chord13, chord23, chord34], List.Perm.refl _⟩

def noDocuments : Documents := ⟨fun _ => none, fun _ _ => false⟩

def outStep (alias_ : Bytes) (types : List Bytes) (least most : ℤ) : Bytes × PatternStep :=
  (alias_, ⟨alias_, ⟨types, .out, least, most, 0, 0⟩, ⟨[], none⟩⟩)

/-- From `a` to `b` over edges of the given types, with a number of hops in a range. -/
def pairQuery (types : List Bytes) (least most : ℤ) : GraphQuery.Pattern :=
  ⟨[(outStep [97] [] 1 1).2, (outStep [98] types least most).2], 10, [], false⟩

theorem noLimit_pair {g : EdgeStore} {types : List Bytes} {least most : ℤ}
    (hnodes : (findReachableNodes g (outStep [98] types least most).2.edge ⟨[], none⟩ [1]).length <
      safetyLimit)
    (hnext : (nextMatches g 100 [97] [98] (outStep [98] types least most).2 []
      (firstMatches noDocuments [97] ⟨[], none⟩ [[1]])).length < 100)
    (hfound : (patternMatches g noDocuments 10 [[1]] (outStep [97] [] 1 1)
      [outStep [98] types least most]).length ≤ 10) :
    NoLimit g noDocuments (pairQuery types least most) [[1]] (outStep [97] [] 1 1)
      [outStep [98] types least most] := by
  refine ⟨⟨?_, hnext, trivial⟩, hfound⟩
  intro m hm node hnode
  have hstart : m = ⟨OrdMap.empty.insert [97] ⟨[1], 0, none⟩, []⟩ := mem_singleton.mp hm
  subst hstart
  dsimp only at hnode
  rw [get?_insert, outStep, if_pos rfl] at hnode
  cases hnode
  exact hnodes

def follows23 : Edge := ⟨[2], [3], [70], 1, []⟩

def followsGraph : EdgeStore :=
  ⟨[follows, likes, follows23], [follows, likes, follows23], List.Perm.refl _⟩

theorem crossed_followsGraph {u x : Bytes} {e : Edge}
    (hcross : Crossed followsGraph (outStep [98] [[70]] 1 2).2.edge u e x) :
    x = [2] ∨ x = [3] := by
  obtain ⟨hmem, -, -, rfl⟩ := hcross
  revert e
  decide

/-- Edges of one of the two types are matched once, over one hop and over two. -/
theorem follows_matched : Exact followsGraph noDocuments (pairQuery [[70]] 1 2) [[1]]
    (outStep [97] [] 1 1) [outStep [98] [[70]] 1 2] := by
  have hnodes : (findReachableNodes followsGraph (outStep [98] [[70]] 1 2).2.edge ⟨[], none⟩
      [1]).length < safetyLimit := by decide +kernel
  apply (executePattern_spec rfl
    (noLimit_pair hnodes (by decide +kernel) (by decide +kernel))).2.2.mpr
  constructor
  · rintro b ⟨-, ⟨v, hv, hstart⟩, -, ⟨w, x, hw, hx, t, ht, hmin, -⟩, -⟩
    rw [List.mem_singleton.mp hv] at hstart
    rw [hstart] at hw
    cases hw
    have hends : x = [2] ∨ x = [3] := by
      cases ht with
      | nil => exact absurd hmin (by decide)
      | cons _ hcross => exact crossed_followsGraph hcross
    refine ⟨⟨[1], hstart, rfl, fun h => absurd rfl h⟩, ⟨[1], x, hstart, hx, ?_⟩, trivial⟩
    apply (count_reachedKeys hnodes rfl).mp
    rcases hends with rfl | rfl
    · decide +kernel
    · decide +kernel
  · intro b _ s hs x _
    rcases List.mem_cons.mp hs with rfl | hs
    · rfl
    · rw [List.mem_singleton.mp hs]
      rfl

/-- Edges of both types give the same binding twice; and a node that is reached in one hop is not
gone on from after two, so that four is not reached in three. -/
theorem bindings_repeated_and_missed :
    (NoLimit parallelGraph noDocuments (pairQuery [] 1 1) [[1]] (outStep [97] [] 1 1)
        [outStep [98] [] 1 1] ∧
      ¬Exact parallelGraph noDocuments (pairQuery [] 1 1) [[1]] (outStep [97] [] 1 1)
        [outStep [98] [] 1 1]) ∧
    NoLimit chordGraph noDocuments (pairQuery [] 3 3) [[1]] (outStep [97] [] 1 1)
        [outStep [98] [] 3 3] ∧
      ¬Exact chordGraph noDocuments (pairQuery [] 3 3) [[1]] (outStep [97] [] 1 1)
        [outStep [98] [] 3 3] := by
  refine ⟨⟨noLimit_pair (by decide +kernel) (by decide +kernel) (by decide +kernel), ?_⟩,
    noLimit_pair (by decide +kernel) (by decide +kernel) (by decide +kernel), ?_⟩
  · rintro ⟨-, hnodup, -⟩
    exact absurd hnodup (by decide +kernel)
  · rintro ⟨-, -, hexact⟩
    have hnone : patternMatches chordGraph noDocuments 10 [[1]] (outStep [97] [] 1 1)
        [outStep [98] [] 3 3] = [] := by decide +kernel
    have hcrossed : ∀ e ∈ chordGraph.outgoing,
        Crossed chordGraph (outStep [98] [] 3 3).2.edge e.source e e.target := by
      intro e he
      exact ⟨he, rfl, rfl, rfl⟩
    have hfirst := hcrossed follows (by decide +kernel)
    have hsecond := hcrossed chord23 (by decide +kernel)
    have hthird := hcrossed chord34 (by decide +kernel)
    have htrail : IsTrail (Crossed chordGraph (outStep [98] [] 3 3).2.edge) [1]
        [(chord34, [3]), (chord23, [2]), (follows, [1])] [4] :=
      IsTrail.cons (IsTrail.cons (IsTrail.cons IsTrail.nil hfirst) hsecond) hthird
    have hwanted : Wanted chordGraph noDocuments [[1]] (outStep [97] [] 1 1) [outStep [98] [] 3 3]
        ((OrdMap.empty.insert [97] [1]).insert [98] [4]) := by
      constructor
      · intro a
        rw [OrdMap.get?_insert, OrdMap.get?_insert]
        by_cases hb : a = [98] <;> by_cases ha : a = [97] <;> simp [outStep, ha, hb]
      · exact ⟨[1], List.mem_singleton_self _, by decide +kernel⟩
      · intro s hs x _
        rcases List.mem_cons.mp hs with rfl | hs
        · exact ⟨rfl, rfl⟩
        · rw [List.mem_singleton.mp hs]
          exact ⟨rfl, rfl⟩
      · exact ⟨⟨[1], [4], by decide +kernel, by decide +kernel, _, htrail, by decide, by decide⟩,
          trivial⟩
    have hmem := (hexact _).mpr hwanted
    have hempty : patternMatches chordGraph noDocuments (pairQuery [] 3 3).limit [[1]]
        (outStep [97] [] 1 1) [outStep [98] [] 3 3] = [] := hnone
    rw [hempty] at hmem
    cases hmem

end Antfly.Graph
