import Antfly.Usermgr.UserManager

/-!
A request is checked against the rules of its user and, when it comes with a scoped API key,
against the permissions of the key.  Handlers for one table look the resource up among the values
in the request's path, under the name they are given, which is the name of the table and not of a
path wildcard.  Requests that name their tables in the body check the names themselves, and
requests across tables the wildcard.

The statements are about the tables a request touches when all of its queries answer, and each of
its joins has rows for the one nested in it.
-/

namespace Antfly

def tableType : Bytes := ascii ['t', 'a', 'b', 'l', 'e']

def readPermission : Bytes := ascii ['r', 'e', 'a', 'd']

def writePermission : Bytes := ascii ['w', 'r', 'i', 't', 'e']

def adminPermission : Bytes := ascii ['a', 'd', 'm', 'i', 'n']

/-- An authenticated caller; a key without permissions is not scoped. -/
structure Caller where
  username : Bytes
  keyPerms : List Permission

def matchesApiKeyPermission (perms : List Permission)
    (resourceType resource permissionType : Bytes) : Bool :=
  perms.any fun p =>
    (decide (p.resourceType = resourceType) || decide (p.resourceType = wildcard)) &&
      (decide (p.resource = resource) || decide (p.resource = wildcard)) &&
      (decide (p.type = permissionType) || decide (p.type = wildcard))

/-- The values of the wildcards in a request's path; empty where its pattern has none of the
name. -/
structure PathValues where
  tableName : Bytes
  indexName : Bytes
  key : Bytes

/-- `r.PathValue`. -/
def PathValues.get (path : PathValues) (name : Bytes) : Bytes :=
  if name = ascii ['t', 'a', 'b', 'l', 'e', 'N', 'a', 'm', 'e'] then path.tableName
  else if name = ascii ['i', 'n', 'd', 'e', 'x', 'N', 'a', 'm', 'e'] then path.indexName
  else if name = ascii ['k', 'e', 'y'] then path.key
  else []

namespace UserManager

variable (m : UserManager)

def checkPermission (caller : Caller) (resourceType resource permissionType : Bytes) : Bool :=
  match m.enforce caller.username resourceType resource permissionType with
  | .error _ => false
  | .ok false => false
  | .ok true =>
    caller.keyPerms.isEmpty ||
      matchesApiKeyPermission caller.keyPerms resourceType resource permissionType

/-- What `ensureAuth` checks. -/
def checkedResource (path : PathValues) (resource : Bytes) : Bytes :=
  if resource = wildcard then resource else path.get resource

def ensureAuth (caller : Caller) (path : PathValues)
    (resourceType resource permissionType : Bytes) : Bool :=
  m.checkPermission caller resourceType (checkedResource path resource) permissionType

def ensureMultiTableAuth (caller : Caller) (tables : List (Bytes × Bytes)) : Bool :=
  tables.all fun e => m.checkPermission caller tableType e.1 e.2

end UserManager

/-- The handlers for one table, queries apart. -/
inductive PathHandler where
  | dropTable | getTable | createTable | listIndexes | dropIndex | getIndex | createIndex
  | lookupKey | scanKeys | batchWrite | updateSchema | backupTable | restoreTable | linearMerge

def PathHandler.permission : PathHandler → Bytes
  | .getTable | .getIndex | .lookupKey | .scanKeys => readPermission
  | .batchWrite | .linearMerge => writePermission
  | .dropTable | .createTable | .listIndexes | .dropIndex | .createIndex | .updateSchema
  | .backupTable | .restoreTable => adminPermission

/-- The values in the path of a handler: the patterns of three handlers have an index, and one has a
key. -/
def PathHandler.path (handler : PathHandler) (path : PathValues) : PathValues :=
  match handler with
  | .dropIndex | .getIndex | .createIndex => ⟨path.tableName, path.indexName, []⟩
  | .lookupKey => ⟨path.tableName, [], path.key⟩
  | _ => ⟨path.tableName, [], []⟩

/-- A join clause of a query, with the one nested in it. -/
inductive JoinClause where
  | none
  | clause (rightTable : Bytes) (nestedJoin : JoinClause)

/-- The right tables; a clause without one is no join. -/
def JoinClause.rightTables : JoinClause → List Bytes
  | .none => []
  | .clause rightTable nestedJoin =>
    if rightTable = [] then [] else rightTable :: nestedJoin.rightTables

/-- One query: its table, its join, and the names of its foreign sources. -/
structure TableQuery where
  table : Bytes
  join : JoinClause
  foreignSources : List Bytes

/-- The requests across tables that check the wildcard. -/
inductive ClusterHandler where
  | listTables | backup | restore | listBackups | retrievalAgent

def ClusterHandler.permission : ClusterHandler → Bytes
  | .listTables | .listBackups | .retrievalAgent => readPermission
  | .backup | .restore => adminPermission

inductive TableRequest where
  | path (handler : PathHandler) (values : PathValues)
  | query (tableName : Bytes) (queries : List TableQuery)
  | globalQuery (queries : List TableQuery)
  | cluster (handler : ClusterHandler) (tables : List Bytes)
  | multiBatch (tables : List Bytes)
  | commit (readSet tables : List Bytes)
  | queryBuilder (table : Bytes)

def TableQuery.reads (q : TableQuery) : List Bytes :=
  (q.table :: q.join.rightTables).filter fun t => decide (t ∉ q.foreignSources)

/-- Several queries of one table go as a batch, which knows no joins and no foreign sources. -/
def queriesRead (queries : List TableQuery) : List Bytes :=
  match queries with
  | first :: second :: rest =>
    if (second :: rest).all fun q => decide (q.table = first.table) then [first.table]
    else queries.flatMap TableQuery.reads
  | _ => queries.flatMap TableQuery.reads

/-- The queries of a request for one table, which name it or none. -/
def pathQueries (tableName : Bytes) (queries : List TableQuery) : Option (List TableQuery) :=
  if tableName = [] then some queries
  else if queries.any fun q => decide (q.table ≠ [] ∧ q.table ≠ tableName) then none
  else some (queries.map fun q => { q with table := tableName })

namespace TableRequest

/-- The permissions that `CommitTransaction` asks for: write for the tables written, which implies
read, and read for the others. -/
def commitPermissions (readSet tables : List Bytes) : List (Bytes × Bytes) :=
  (readSet.filter fun t => decide (t ∉ tables)).map (·, readPermission) ++
    tables.map (·, writePermission)

/-- The value that `ensureAuth` checks for a request for one table. -/
def checked : TableRequest → Bytes
  | .path handler values => UserManager.checkedResource (handler.path values) values.tableName
  | .query tableName _ => UserManager.checkedResource ⟨tableName, [], []⟩ tableName
  | .queryBuilder table => UserManager.checkedResource ⟨[], [], []⟩ table
  | _ => wildcard

def admits (m : UserManager) (caller : Caller) : TableRequest → Bool
  | .path handler values =>
    m.ensureAuth caller (handler.path values) tableType values.tableName handler.permission
  | .query tableName _ =>
    m.ensureAuth caller ⟨tableName, [], []⟩ tableType tableName readPermission
  | .globalQuery _ => m.ensureAuth caller ⟨[], [], []⟩ tableType wildcard readPermission
  | .cluster handler _ => m.ensureAuth caller ⟨[], [], []⟩ tableType wildcard handler.permission
  | .multiBatch tables => m.ensureMultiTableAuth caller (tables.map (·, writePermission))
  | .commit readSet tables => m.ensureMultiTableAuth caller (commitPermissions readSet tables)
  | .queryBuilder table =>
    table.isEmpty || m.ensureAuth caller ⟨[], [], []⟩ tableType table readPermission

/-- The tables an admitted request touches, each with the permission that takes. -/
def touches : TableRequest → List (Bytes × Bytes)
  | .path handler values => [(values.tableName, handler.permission)]
  | .query tableName queries =>
    ((pathQueries tableName queries).elim [] queriesRead).map (·, readPermission)
  | .globalQuery queries => (queriesRead queries).map (·, readPermission)
  | .cluster handler tables => tables.map (·, handler.permission)
  | .multiBatch tables => tables.map (·, writePermission)
  | .commit readSet tables => commitPermissions readSet tables
  | .queryBuilder table => if table.isEmpty then [] else [(table, readPermission)]

/-- The table of a path handler, and the permission for it. -/
def pathTable : TableRequest → Option (Bytes × Bytes)
  | .path handler values => some (values.tableName, handler.permission)
  | .query tableName _ => some (tableName, readPermission)
  | _ => none

end TableRequest

/-- The user exists and a rule of the user matches. -/
def UserManager.Holds (m : UserManager) (username typ obj act : Bytes) : Prop :=
  m.passwordHashes.get? username ≠ none ∧ ∃ ptyp pobj pact,
    [username, ptyp, pobj, pact] ∈ m.policies ∧ (typ = ptyp ∨ ptyp = wildcard) ∧
      (obj = pobj ∨ pobj = wildcard) ∧ (act = pact ∨ pact = wildcard)

def ScopeCovers (scope : List Permission) (typ obj act : Bytes) : Prop :=
  ∃ p ∈ scope, (p.resourceType = typ ∨ p.resourceType = wildcard) ∧
    (p.resource = obj ∨ p.resource = wildcard) ∧ (p.type = act ∨ p.type = wildcard)

/-- The rules of the caller's user and, for a scoped key, its permissions match the table. -/
def Authorised (m : UserManager) (caller : Caller) (table act : Bytes) : Prop :=
  m.Holds caller.username tableType table act ∧
    (caller.keyPerms ≠ [] → ScopeCovers caller.keyPerms tableType table act)

structure ExactlyAuthorised (m : UserManager) (caller : Caller) (req : TableRequest) : Prop where
  only : req.admits m caller = true → ∀ e ∈ req.touches, Authorised m caller e.1 e.2
  complete : ∀ e, req.pathTable = some e → Authorised m caller e.1 e.2 →
    req.admits m caller = true

/-- The resource that a rule of the user names for an action on tables. -/
def ruleResource (username act : Bytes) : List Bytes → Option Bytes
  | [sub, typ, obj, a] =>
    if username = sub ∧ (tableType = typ ∨ typ = wildcard) ∧ (act = a ∨ a = wildcard) then some obj
    else none
  | _ => none

def UserManager.namedByRules (m : UserManager) (username act : Bytes) : List Bytes :=
  m.policies.filterMap (ruleResource username act)

/-- The resources that the permissions of a key name for an action on tables. -/
def namedByScope (scope : List Permission) (act : Bytes) : List Bytes :=
  (scope.filter fun p => decide (p.resourceType = tableType ∨ p.resourceType = wildcard) &&
    decide (p.type = act ∨ p.type = wildcard)).map Permission.resource

def Matches (names : List Bytes) (resource : Bytes) : Prop := resource ∈ names ∨ wildcard ∈ names

/-- Where the rules of the user and the scope of the key match `x`, those of the two that name `x`
name `y` or the wildcard too. -/
def NamedWith (m : UserManager) (caller : Caller) (x y act : Bytes) : Prop :=
  m.passwordHashes.get? caller.username ≠ none →
    Matches (m.namedByRules caller.username act) x →
      (caller.keyPerms ≠ [] → Matches (namedByScope caller.keyPerms act) x) →
        (x ∈ m.namedByRules caller.username act →
          Matches (m.namedByRules caller.username act) y) ∧
        (caller.keyPerms ≠ [] → x ∈ namedByScope caller.keyPerms act →
          Matches (namedByScope caller.keyPerms act) y)

/-- The condition: the rules and the scope name the table of a path handler along with the value
that is checked in its place, and with this value all that the request touches. -/
def TableRequest.ChecksTables (m : UserManager) (caller : Caller) (req : TableRequest) : Prop :=
  (∀ e ∈ req.pathTable, NamedWith m caller e.1 req.checked e.2) ∧
    match req with
    | .path .. | .query .. | .queryBuilder _ =>
      ∀ e ∈ req.touches, NamedWith m caller req.checked e.1 e.2
    | _ => True

variable {m : UserManager} {caller : Caller}

variable {typ obj act : Bytes}

theorem ruleMatches_iff {sub : Bytes} {rule : List Bytes} :
    ruleMatches sub typ obj act rule = true ↔ ∃ ptyp pobj pact, rule = [sub, ptyp, pobj, pact] ∧
      (typ = ptyp ∨ ptyp = wildcard) ∧ (obj = pobj ∨ pobj = wildcard) ∧
      (act = pact ∨ pact = wildcard) := by
  unfold ruleMatches
  split
  · rename_i psub ptyp pobj pact
    simp only [Bool.and_eq_true, Bool.or_eq_true, decide_eq_true_eq, List.cons.injEq, and_true]
    constructor
    · rintro ⟨⟨⟨rfl, htyp⟩, hobj⟩, hact⟩
      exact ⟨ptyp, pobj, pact, ⟨rfl, rfl, rfl, rfl⟩, htyp, hobj, hact⟩
    · rintro ⟨_, _, _, ⟨rfl, rfl, rfl, rfl⟩, htyp, hobj, hact⟩
      exact ⟨⟨⟨rfl, htyp⟩, hobj⟩, hact⟩
  · rename_i hshape
    constructor
    · intro h
      cases h
    · rintro ⟨ptyp, pobj, pact, rfl, -⟩
      exact absurd rfl (hshape sub ptyp pobj pact)

theorem enforce_iff {username : Bytes} :
    m.enforce username typ obj act = .ok true ↔ m.Holds username typ obj act := by
  unfold UserManager.enforce UserManager.Holds
  cases m.passwordHashes.get? username with
  | none => simp
  | some hash =>
    simp only [Option.isNone_some, Bool.false_eq_true, if_false, Except.ok.injEq,
      List.any_eq_true, ruleMatches_iff, ne_eq, reduceCtorEq, not_false_eq_true, true_and]
    constructor
    · rintro ⟨_, hrule, ptyp, pobj, pact, rfl, hrest⟩
      exact ⟨ptyp, pobj, pact, hrule, hrest⟩
    · rintro ⟨ptyp, pobj, pact, hrule, hrest⟩
      exact ⟨_, hrule, ptyp, pobj, pact, rfl, hrest⟩

theorem matchesApiKeyPermission_iff {scope : List Permission} :
    matchesApiKeyPermission scope typ obj act = true ↔ ScopeCovers scope typ obj act := by
  unfold matchesApiKeyPermission ScopeCovers
  simp only [List.any_eq_true, Bool.and_eq_true, Bool.or_eq_true, decide_eq_true_eq, and_assoc]

theorem checkPermission_iff :
    m.checkPermission caller typ obj act = true ↔ m.Holds caller.username typ obj act ∧
      (caller.keyPerms ≠ [] → ScopeCovers caller.keyPerms typ obj act) := by
  rw [← enforce_iff, ← matchesApiKeyPermission_iff]
  unfold UserManager.checkPermission
  split
  · rename_i h
    simp [h]
  · rename_i h
    simp [h]
  · rename_i h
    rw [h, Bool.or_eq_true, List.isEmpty_iff]
    constructor
    · rintro (hnil | hmatch)
      · exact ⟨rfl, fun hne => absurd hnil hne⟩
      · exact ⟨rfl, fun _ => hmatch⟩
    · rintro ⟨-, hscope⟩
      by_cases hnil : caller.keyPerms = []
      · exact .inl hnil
      · exact .inr (hscope hnil)

theorem ensureAuth_iff {resource : Bytes} {path : PathValues} :
    m.ensureAuth caller path tableType resource act = true ↔
      Authorised m caller (UserManager.checkedResource path resource) act :=
  checkPermission_iff

theorem ensureMultiTableAuth_iff {tables : List (Bytes × Bytes)} :
    m.ensureMultiTableAuth caller tables = true ↔
      ∀ e ∈ tables, Authorised m caller e.1 e.2 := by
  rw [UserManager.ensureMultiTableAuth, List.all_eq_true]
  exact forall₂_congr fun e _ => checkPermission_iff

theorem Authorised.of_wildcard (h : Authorised m caller wildcard act) (table : Bytes) :
    Authorised m caller table act := by
  obtain ⟨⟨hexists, ptyp, pobj, pact, hrule, htyp, hobj, hact⟩, hscope⟩ := h
  constructor
  · refine ⟨hexists, ptyp, pobj, pact, hrule, htyp, .inr ?_, hact⟩
    rcases hobj with rfl | hobj
    · rfl
    · exact hobj
  · intro hne
    obtain ⟨p, hp, hptyp, hpobj, hpact⟩ := hscope hne
    refine ⟨p, hp, hptyp, .inr ?_, hpact⟩
    rcases hpobj with hpobj | hpobj
    · exact hpobj
    · exact hpobj

theorem exactlyAuthorised_of_wildcard {req : TableRequest}
    (hadmits : req.admits m caller = true → Authorised m caller wildcard act)
    (htouches : ∀ e ∈ req.touches, e.2 = act) (hpath : req.pathTable = none) :
    ExactlyAuthorised m caller req := by
  constructor
  · intro h e he
    rw [htouches e he]
    exact (hadmits h).of_wildcard e.1
  · intro e he
    rw [hpath] at he
    cases he

theorem ruleResource_eq_some_iff {username : Bytes} {rule : List Bytes} :
    ruleResource username act rule = some obj ↔ ∃ ptyp pact, rule = [username, ptyp, obj, pact] ∧
      (tableType = ptyp ∨ ptyp = wildcard) ∧ (act = pact ∨ pact = wildcard) := by
  constructor
  · intro h
    unfold ruleResource at h
    split at h
    · rename_i sub ptyp pobj pact
      split_ifs at h with hrule
      obtain ⟨rfl, htyp, hact⟩ := hrule
      cases h
      exact ⟨ptyp, pact, rfl, htyp, hact⟩
    · cases h
  · rintro ⟨ptyp, pact, rfl, htyp, hact⟩
    exact if_pos ⟨rfl, htyp, hact⟩

theorem holds_iff {username : Bytes} : m.Holds username tableType obj act ↔
    m.passwordHashes.get? username ≠ none ∧ Matches (m.namedByRules username act) obj := by
  unfold UserManager.Holds Matches UserManager.namedByRules
  refine and_congr_right fun _ => ?_
  simp only [List.mem_filterMap, ruleResource_eq_some_iff]
  constructor
  · rintro ⟨ptyp, pobj, pact, hrule, htyp, rfl | rfl, hact⟩
    · exact .inl ⟨_, hrule, ptyp, pact, rfl, htyp, hact⟩
    · exact .inr ⟨_, hrule, ptyp, pact, rfl, htyp, hact⟩
  · rintro (⟨_, hrule, ptyp, pact, rfl, htyp, hact⟩ | ⟨_, hrule, ptyp, pact, rfl, htyp, hact⟩)
    · exact ⟨ptyp, obj, pact, hrule, htyp, .inl rfl, hact⟩
    · exact ⟨ptyp, wildcard, pact, hrule, htyp, .inr rfl, hact⟩

theorem scopeCovers_iff {scope : List Permission} :
    ScopeCovers scope tableType obj act ↔ Matches (namedByScope scope act) obj := by
  unfold ScopeCovers Matches namedByScope
  simp only [List.mem_map, List.mem_filter, Bool.and_eq_true, decide_eq_true_eq]
  constructor
  · rintro ⟨p, hp, htyp, rfl | hobj, hact⟩
    · exact .inl ⟨p, ⟨hp, htyp, hact⟩, rfl⟩
    · exact .inr ⟨p, ⟨hp, htyp, hact⟩, hobj⟩
  · rintro (⟨p, ⟨hp, htyp, hact⟩, hobj⟩ | ⟨p, ⟨hp, htyp, hact⟩, hobj⟩)
    · exact ⟨p, hp, htyp, .inl hobj, hact⟩
    · exact ⟨p, hp, htyp, .inr hobj, hact⟩

/-- The condition on the rules under which whoever may act on `x` may act on `y`. -/
theorem namedWith_iff {x y : Bytes} :
    NamedWith m caller x y act ↔ (Authorised m caller x act → Authorised m caller y act) := by
  unfold NamedWith Authorised
  simp only [holds_iff, scopeCovers_iff]
  constructor
  · rintro h ⟨⟨hexists, hrules⟩, hscope⟩
    obtain ⟨hrules', hscope'⟩ := h hexists hrules hscope
    refine ⟨⟨hexists, hrules.elim hrules' .inr⟩, fun hne => ?_⟩
    exact (hscope hne).elim (hscope' hne) .inr
  · intro h hexists hrules hscope
    obtain ⟨⟨-, hrules'⟩, hscope'⟩ := h ⟨⟨hexists, hrules⟩, hscope⟩
    exact ⟨fun _ => hrules', fun hne _ => hscope' hne⟩

theorem exactlyAuthorised_iff_namedWith {req : TableRequest}
    (hadmits : ∀ e ∈ req.touches ++ req.pathTable.toList,
      (req.admits m caller = true ↔ Authorised m caller req.checked e.2)) :
    ExactlyAuthorised m caller req ↔
      (∀ e ∈ req.pathTable, NamedWith m caller e.1 req.checked e.2) ∧
        ∀ e ∈ req.touches, NamedWith m caller req.checked e.1 e.2 := by
  have htouched : ∀ e ∈ req.touches, (req.admits m caller = true ↔ _) :=
    fun e he => hadmits e (List.mem_append_left _ he)
  have hpath : ∀ e ∈ req.pathTable, (req.admits m caller = true ↔ _) :=
    fun e he => hadmits e (List.mem_append_right _ (Option.mem_toList.mpr he))
  simp only [namedWith_iff]
  constructor
  · rintro ⟨honly, hcomplete⟩
    exact ⟨fun e he hauth => (hpath e he).mp (hcomplete e he hauth),
      fun e he hauth => honly ((htouched e he).mpr hauth) e he⟩
  · rintro ⟨hcomplete, honly⟩
    exact ⟨fun h e he => honly e he ((htouched e he).mp h),
      fun e he hauth => (hpath e he).mpr (hcomplete e he hauth)⟩

/-- Authorisation is exact for a request precisely when the rules and the scope of the caller name
its tables along with the value that is checked in their place. -/
theorem authorisation_exact_iff (m : UserManager) (caller : Caller) (req : TableRequest) :
    ExactlyAuthorised m caller req ↔ req.ChecksTables m caller := by
  have hnone : ∀ {e : Bytes × Bytes} {P : Prop}, e ∈ (none : Option (Bytes × Bytes)) → P :=
    fun h => by cases h
  cases req with
  | path handler values =>
    refine exactlyAuthorised_iff_namedWith fun e he => ?_
    obtain rfl : e = (values.tableName, handler.permission) := by
      simpa [TableRequest.touches, TableRequest.pathTable] using he
    exact ensureAuth_iff
  | query tableName queries =>
    refine exactlyAuthorised_iff_namedWith fun e he => ?_
    have hread : e.2 = readPermission := by
      rcases List.mem_append.mp he with he | he
      · obtain ⟨t, -, rfl⟩ := List.mem_map.mp he
        rfl
      · obtain rfl := List.mem_singleton.mp he
        rfl
    rw [hread]
    exact ensureAuth_iff
  | queryBuilder table =>
    refine exactlyAuthorised_iff_namedWith fun e he => ?_
    cases table with
    | nil => exact absurd he List.not_mem_nil
    | cons c table =>
      obtain rfl := List.mem_singleton.mp he
      exact ensureAuth_iff
  | globalQuery queries =>
    refine iff_of_true (exactlyAuthorised_of_wildcard ensureAuth_iff.mp ?_ rfl)
      ⟨fun _ => hnone, trivial⟩
    intro e he
    obtain ⟨t, -, rfl⟩ := List.mem_map.mp he
    rfl
  | cluster handler tables =>
    refine iff_of_true (exactlyAuthorised_of_wildcard ensureAuth_iff.mp ?_ rfl)
      ⟨fun _ => hnone, trivial⟩
    intro e he
    obtain ⟨t, -, rfl⟩ := List.mem_map.mp he
    rfl
  | multiBatch tables | commit readSet tables =>
    exact iff_of_true ⟨ensureMultiTableAuth_iff.mp, fun _ => hnone⟩ ⟨fun _ => hnone, trivial⟩

def docs : Bytes := ascii ['d', 'o', 'c', 's']

def reader : Bytes := ascii ['a', 'n', 'n']

def readerManager : UserManager :=
  ⟨OrdMap.empty.insert reader [1], .empty, [[reader, tableType, docs, readPermission]]⟩

/-- A user who may read the table is refused by its handlers, here at `/tables/docs`. -/
theorem reader_refused :
    ¬ ExactlyAuthorised readerManager ⟨reader, []⟩ (.path .getTable ⟨docs, [], []⟩) := by
  intro h
  have hauth : Authorised readerManager ⟨reader, []⟩ docs readPermission := by
    refine ⟨⟨?_, tableType, docs, readPermission, List.mem_cons_self, Or.inl rfl, Or.inl rfl,
      Or.inl rfl⟩, fun hne => absurd rfl hne⟩
    rw [readerManager, OrdMap.get?_insert, if_pos rfl]
    simp
  have hadmits := h.complete _ rfl hauth
  cases hadmits

end Antfly
