import Antfly.Lib.Runs
import Antfly.Usermgr.UserManager

/-!
A user manager that is loaded from the store has the users, password hashes and API keys of the
running one and decides every request as it does, as long as the store holds the rules of the
engine and nothing else.  Filtered removals are where the two part: the store is searched for the
text of the filter, and for a type that no stored rule has it deletes every rule.
-/

namespace Antfly

open List OrdMap

variable (lib : UserLibraries)

/-- The key a rule of the engine is stored under. -/
def ruleKey (rule : List Bytes) : Bytes := (convertRule policyType rule).key

def ReadsBack (rule : List Bytes) : Prop :=
  rule.length = 4 ∧ lib.readRecord (policyLine ((convertRule policyType rule).reread lib)) =
    some (policyType :: rule)

/-- The store holds the password hashes in memory, under names that are loaded again. -/
structure PasswordsKept (hashes : OrdMap Bytes Bytes) (stored : OrdMap Bytes UserPasswordInfo) :
    Prop where
  same : ∀ name, stored.get? name = (hashes.get? name).map fun hash => ⟨name, hash⟩
  loads : ∀ name, hashes.get? name ≠ none → name < loadBound ∧ lib.text name = name

structure ApiKeysKept (keys stored : OrdMap Bytes ApiKeyRecord) : Prop where
  same : ∀ id, stored.get? id = keys.get? id
  loads : ∀ id record, keys.get? id = some record →
    record.keyID = id ∧ id < loadBound ∧ record.reread lib = record

structure RulesKept (policies : List (List Bytes)) (stored : OrdMap Bytes CasbinRule) : Prop where
  same : ∀ key r, stored.get? key = some r ↔
    ∃ rule ∈ policies, key = ruleKey rule ∧ r = convertRule policyType rule
  loads : ∀ rule ∈ policies, ReadsBack lib rule
  apart : ∀ rule ∈ policies, ∀ rule' ∈ policies, ruleKey rule = ruleKey rule' → rule = rule'

structure Kept (s : UserSystem) : Prop where
  passwords : PasswordsKept lib s.manager.passwordHashes s.store.passwords
  apiKeys : ApiKeysKept lib s.manager.apiKeys s.store.apiKeys
  rules : RulesKept lib s.manager.policies s.store.policies.rules

/-- A new user manager over the store is made, has the same users, hashes and keys, and decides
every request the same way. -/
def SurvivesRestart (s : UserSystem) : Prop :=
  ∃ m, s.store.newUserManager lib = some m ∧ m.passwordHashes = s.manager.passwordHashes ∧
    m.apiKeys = s.manager.apiKeys ∧
    ∀ username resourceType resource permissionType,
      m.enforce username resourceType resource permissionType =
        s.manager.enforce username resourceType resource permissionType

/-- New rules are read back as they are and are not stored under the key of another rule. -/
structure SafeRules (policies rules : List (List Bytes)) : Prop where
  loads : ∀ rule ∈ rules, ReadsBack lib rule
  apart : ∀ rule ∈ rules, ∀ rule' ∈ policies ++ rules, ruleKey rule = ruleKey rule' → rule = rule'

/-- The condition on an operation.  Names and rules that are written are read back as they are,
and a removal deletes the stored rule of a rule exactly when the engine removes it. -/
def UserOp.Persists (s : UserSystem) : UserOp → Prop
  | .createUser username password salt initialPolicies saved rulesSaved =>
    s.manager.passwordHashes.get? username = none →
    (lib.generateFromPassword password salt).isSome → saved = true →
      (username < loadBound ∧ lib.text username = username) ∧
      (rulesSaved = true → (∀ p ∈ initialPolicies, p.rule username ∉ s.manager.policies) →
        SafeRules lib s.manager.policies (initialPolicies.map fun p => p.rule username))
  | .addPermission username perm saved =>
    s.manager.passwordHashes.get? username ≠ none → saved = true →
      perm.rule username ∉ s.manager.policies →
        SafeRules lib s.manager.policies [perm.rule username]
  | .removePermission username resourceName resourceType saved =>
    s.manager.passwordHashes.get? username ≠ none → saved = true →
      ∀ rule ∈ s.manager.policies,
        let fieldValues := UserSystem.permissionFilter username resourceName resourceType
        removesFiltered policyType 0 fieldValues (ruleKey rule) = fieldsMatch 0 fieldValues rule
  | .deleteUser username saved rulesSaved groupsSaved =>
    s.manager.passwordHashes.get? username ≠ none → saved = true →
      ∀ rule ∈ s.manager.policies,
        (rulesSaved && removesFiltered policyType 0 [username] (ruleKey rule) ||
          groupsSaved && removesFiltered groupingType 0 [username] (ruleKey rule)) =
        (rulesSaved && fieldsMatch 0 [username] rule)
  | .createApiKey username name permissions _ _ saved =>
    saved = true → lib.text username = username ∧ lib.text name = name ∧
      permissions.map (Permission.reread lib) = permissions
  | .updatePassword .. | .deleteApiKey .. => True

/-- The operations as steps; one that returns an error may have changed something. -/
def UserSystem.step (s : UserSystem) (op : UserOp) : Option UserSystem := some (s.apply lib op).2

variable {lib}

private theorem mem_loaded_iff {β : Type} {m : OrdMap Bytes β} {k : Bytes} {v : β} :
    (k, v) ∈ m.scan [] loadBound ↔ k < loadBound ∧ m.get? k = some v := by
  rw [mem_scan_iff]
  constructor
  · rintro ⟨⟨-, hlt⟩, hget⟩
    exact ⟨hlt, hget⟩
  · rintro ⟨hlt, hget⟩
    exact ⟨⟨Lex.nil_le k, hlt⟩, hget⟩

variable {st : UserStore} {hashes : OrdMap Bytes Bytes} {keys : OrdMap Bytes ApiKeyRecord}
variable {policies rules : List (List Bytes)} {rule : List Bytes}
variable {stored : OrdMap Bytes UserPasswordInfo}

theorem get?_loadUserPasswordHashes
    (h : ∀ name info, st.passwords.get? name = some info → lib.text info.username = name)
    (name hash : Bytes) :
    (st.loadUserPasswordHashes lib).get? name = some hash ↔
      name < loadBound ∧ ∃ info, st.passwords.get? name = some info ∧ info.passwordHash = hash := by
  have hnames : ∀ e ∈ st.passwords.scan [] loadBound, lib.text e.2.username = e.1 := by
    rintro ⟨name, info⟩ he
    exact h name info (mem_loaded_iff.mp he).2
  rw [UserStore.loadUserPasswordHashes, get?_foldl_insert_scan hnames]
  simp only [mem_loaded_iff, and_assoc, exists_and_left]

theorem get?_loadApiKeys
    (h : ∀ id record, st.apiKeys.get? id = some record → (record.reread lib).keyID = id)
    (id : Bytes) (record : ApiKeyRecord) :
    (st.loadApiKeys lib).get? id = some record ↔
      id < loadBound ∧ ∃ r, st.apiKeys.get? id = some r ∧ r.reread lib = record := by
  have hids : ∀ e ∈ st.apiKeys.scan [] loadBound, (e.2.reread lib).keyID = e.1 := by
    rintro ⟨id, record⟩ he
    exact h id record (mem_loaded_iff.mp he).2
  rw [UserStore.loadApiKeys, get?_foldl_insert_scan hids]
  simp only [mem_loaded_iff, and_assoc, exists_and_left]

theorem loadUserPasswordHashes_eq (h : PasswordsKept lib hashes st.passwords) :
    st.loadUserPasswordHashes lib = hashes := by
  have hstored : ∀ name info, st.passwords.get? name = some info →
      hashes.get? name = some info.passwordHash ∧ lib.text info.username = name := by
    intro name info hinfo
    rw [h.same, Option.map_eq_some_iff] at hinfo
    obtain ⟨hash, hhash, rfl⟩ := hinfo
    exact ⟨hhash, (h.loads name (by rw [hhash]; simp)).2⟩
  apply ext_get?
  intro name
  ext hash
  rw [get?_loadUserPasswordHashes fun name info hinfo => (hstored name info hinfo).2]
  constructor
  · rintro ⟨-, info, hinfo, rfl⟩
    exact (hstored name info hinfo).1
  · intro hhash
    refine ⟨(h.loads name (by rw [hhash]; simp)).1, ⟨name, hash⟩, ?_, rfl⟩
    rw [h.same, hhash]
    rfl

theorem loadApiKeys_eq (h : ApiKeysKept lib keys st.apiKeys) : st.loadApiKeys lib = keys := by
  have hstored : ∀ id record, st.apiKeys.get? id = some record →
      record.keyID = id ∧ id < loadBound ∧ record.reread lib = record := by
    intro id record hrecord
    rw [h.same] at hrecord
    exact h.loads id record hrecord
  apply ext_get?
  intro id
  ext record
  rw [get?_loadApiKeys fun id record hrecord => by
    obtain ⟨hid, -, hreread⟩ := hstored id record hrecord
    rw [hreread, hid]]
  constructor
  · rintro ⟨-, record', hrecord', rfl⟩
    rw [(hstored id record' hrecord').2.2, ← h.same, hrecord']
  · intro hrecord
    rw [← h.same] at hrecord
    obtain ⟨-, hlt, hreread⟩ := hstored id record hrecord
    exact ⟨hlt, record, hrecord, hreread⟩

theorem mem_addPolicy {rule' : List Bytes} :
    rule' ∈ addPolicy policies rule ↔ rule' ∈ policies ∨ rule' = rule := by
  unfold addPolicy
  split
  · rename_i hmem
    refine ⟨.inl, ?_⟩
    rintro (h | rfl)
    · exact h
    · exact hmem
  · rw [mem_append, mem_singleton]

theorem mem_foldl_addPolicy :
    rule ∈ rules.foldl addPolicy policies ↔ rule ∈ policies ∨ rule ∈ rules := by
  induction rules generalizing policies with
  | nil => simp
  | cons r rules ih => rw [foldl_cons, ih, mem_addPolicy, mem_cons, or_assoc]

private theorem foldlM_loadPolicyLine {entries : List (Bytes × CasbinRule)}
    {loaded : List (List Bytes)} (rule : Bytes × CasbinRule → List Bytes)
    (h : ∀ e ∈ entries, (rule e).length = 4 ∧
      lib.readRecord (policyLine (e.2.reread lib)) = some (policyType :: rule e)) :
    entries.foldlM (fun policies e => loadPolicyLine lib policies (policyLine (e.2.reread lib)))
      loaded = some ((entries.map rule).foldl addPolicy loaded) := by
  induction entries generalizing loaded with
  | nil => rfl
  | cons e entries ih =>
    obtain ⟨hlength, hline⟩ := h e mem_cons_self
    have hload : loadPolicyLine lib loaded (policyLine (e.2.reread lib)) =
        some (addPolicy loaded (rule e)) := by
      rw [loadPolicyLine, hline]
      exact if_pos ⟨rfl, hlength⟩
    rw [foldlM_cons, hload]
    exact ih fun e' he' => h e' (mem_cons_of_mem _ he')

private def firstFields (r : CasbinRule) : List Bytes := [r.v0, r.v1, r.v2, r.v3]

private theorem firstFields_convertRule (h : rule.length = 4) :
    firstFields (convertRule policyType rule) = rule := by
  obtain ⟨a, b, c, d, rfl⟩ : ∃ a b c d, rule = [a, b, c, d] := by
    match rule, h with
    | [a, b, c, d], _ => exact ⟨a, b, c, d, rfl⟩
  rfl

theorem loadPolicies_eq (h : RulesKept lib policies st.policies.rules) :
    ∃ loaded, st.loadPolicies lib = some loaded ∧ ∀ rule, rule ∈ loaded ↔ rule ∈ policies := by
  have hentries : ∀ e ∈ st.policies.rules.entries, firstFields e.2 ∈ policies ∧
      e.2 = convertRule policyType (firstFields e.2) := by
    rintro ⟨key, r⟩ he
    obtain ⟨rule, hrule, -, rfl⟩ := (h.same key r).mp ((mem_entries_iff _ _ _).mp he)
    change firstFields (convertRule policyType rule) ∈ policies ∧ _ = convertRule policyType
      (firstFields (convertRule policyType rule))
    rw [firstFields_convertRule (h.loads rule hrule).1]
    exact ⟨hrule, rfl⟩
  refine ⟨_, foldlM_loadPolicyLine (fun e => firstFields e.2) ?_, ?_⟩
  · intro e he
    obtain ⟨hmem, heq⟩ := hentries e he
    have hload := h.loads _ hmem
    rw [ReadsBack, ← heq] at hload
    exact hload
  · intro rule
    rw [mem_foldl_addPolicy, mem_map]
    constructor
    · rintro (hnil | ⟨e, he, rfl⟩)
      · cases hnil
      · exact (hentries e he).1
    · intro hrule
      have hstored := (h.same _ _).mpr ⟨rule, hrule, rfl, rfl⟩
      refine .inr ⟨_, (mem_entries_iff _ _ _).mpr hstored, ?_⟩
      exact firstFields_convertRule (h.loads rule hrule).1

theorem Kept.survivesRestart {s : UserSystem} (h : Kept lib s) : SurvivesRestart lib s := by
  obtain ⟨loaded, hloaded, hmem⟩ := loadPolicies_eq h.rules
  refine ⟨⟨s.store.loadUserPasswordHashes lib, s.store.loadApiKeys lib, loaded⟩, ?_,
    loadUserPasswordHashes_eq h.passwords, loadApiKeys_eq h.apiKeys, ?_⟩
  · rw [UserStore.newUserManager, hloaded]
    rfl
  · intro username resourceType resource permissionType
    have hany : loaded.any (ruleMatches username resourceType resource permissionType) =
        s.manager.policies.any (ruleMatches username resourceType resource permissionType) := by
      rw [Bool.eq_iff_iff, any_eq_true, any_eq_true]
      simp only [hmem]
    rw [UserManager.enforce, UserManager.enforce, loadUserPasswordHashes_eq h.passwords, hany]

theorem PasswordsKept.insert (h : PasswordsKept lib hashes stored) {name : Bytes}
    (hname : name < loadBound ∧ lib.text name = name) (hash : Bytes) :
    PasswordsKept lib (hashes.insert name hash) (stored.insert name ⟨name, hash⟩) := by
  constructor
  · intro n
    rw [get?_insert, get?_insert]
    split
    · rename_i heq
      rw [heq]
      rfl
    · exact h.same n
  · intro n hn
    rw [get?_insert] at hn
    split at hn
    · rename_i heq
      rwa [heq]
    · exact h.loads n hn

theorem PasswordsKept.erase (h : PasswordsKept lib hashes stored) (name : Bytes) :
    PasswordsKept lib (hashes.erase name) (stored.erase name) := by
  constructor
  · intro n
    rw [get?_erase, get?_erase]
    split
    · rfl
    · exact h.same n
  · intro n hn
    rw [get?_erase] at hn
    split at hn
    · exact absurd rfl hn
    · exact h.loads n hn

theorem ApiKeysKept.insert {stored : OrdMap Bytes ApiKeyRecord} (h : ApiKeysKept lib keys stored)
    {id : Bytes} {record : ApiKeyRecord}
    (hrecord : record.keyID = id ∧ id < loadBound ∧ record.reread lib = record) :
    ApiKeysKept lib (keys.insert id record) (stored.insert id record) := by
  constructor
  · intro i
    rw [get?_insert, get?_insert, h.same]
  · intro i r hr
    rw [get?_insert] at hr
    split at hr
    · rename_i heq
      cases hr
      rwa [heq]
    · exact h.loads i r hr

theorem ApiKeysKept.erase {stored : OrdMap Bytes ApiKeyRecord} (h : ApiKeysKept lib keys stored)
    (id : Bytes) :
    ApiKeysKept lib (keys.erase id) (stored.erase id) := by
  constructor
  · intro i
    rw [get?_erase, get?_erase, h.same]
  · intro i r hr
    rw [get?_erase] at hr
    split at hr
    · cases hr
    · exact h.loads i r hr

theorem RulesKept.add {st : PolicyStore} (h : RulesKept lib policies st.rules)
    (hsafe : SafeRules lib policies rules) :
    RulesKept lib (rules.foldl addPolicy policies) (st.addPolicies policyType rules).rules := by
  have hstored : (st.addPolicies policyType rules).rules =
      (rules.map fun rule => (ruleKey rule, convertRule policyType rule)).foldl
        (fun m e => m.insert e.1 e.2) st.rules := by
    rw [foldl_map]
    rfl
  have hkeys : ∀ key, key ∈ (rules.map fun rule =>
      (ruleKey rule, convertRule policyType rule)).map Prod.fst ↔
        ∃ rule ∈ rules, ruleKey rule = key := by
    intro key
    rw [map_map, mem_map]
    rfl
  -- A key of a new rule holds the rule, since no other rule has that key.
  have hnew : ∀ rule ∈ rules, (st.addPolicies policyType rules).rules.get? (ruleKey rule) =
      some (convertRule policyType rule) := by
    intro rule hrule
    obtain ⟨r, hr, hget⟩ := exists_get?_foldl_insert (m := st.rules)
      ((hkeys (ruleKey rule)).mpr ⟨rule, hrule, rfl⟩)
    obtain ⟨rule', hrule', heq⟩ := mem_map.mp hr
    obtain ⟨hkey, rfl⟩ := Prod.mk.inj heq
    rw [hstored, hget, hsafe.apart rule' hrule' rule (mem_append_right _ hrule) hkey]
  have hold : ∀ key, (∀ rule ∈ rules, ruleKey rule ≠ key) →
      (st.addPolicies policyType rules).rules.get? key = st.rules.get? key := by
    intro key hkey
    rw [hstored]
    apply get?_foldl_insert_of_notMem
    intro hmem
    obtain ⟨rule, hrule, heq⟩ := (hkeys key).mp hmem
    exact hkey rule hrule heq
  constructor
  · intro key r
    simp only [mem_foldl_addPolicy]
    by_cases hkey : ∃ rule ∈ rules, ruleKey rule = key
    · obtain ⟨rule, hrule, rfl⟩ := hkey
      rw [hnew rule hrule]
      constructor
      · intro hr
        exact ⟨rule, .inr hrule, rfl, (Option.some.inj hr).symm⟩
      · rintro ⟨rule', hrule', hkey', rfl⟩
        rw [hsafe.apart rule hrule rule' (mem_append.mpr hrule') hkey']
    · rw [hold key fun rule hrule heq => hkey ⟨rule, hrule, heq⟩, h.same]
      constructor
      · rintro ⟨rule, hrule, hrest⟩
        exact ⟨rule, .inl hrule, hrest⟩
      · rintro ⟨rule, hrule | hrule, rfl, rfl⟩
        · exact ⟨rule, hrule, rfl, rfl⟩
        · exact absurd ⟨rule, hrule, rfl⟩ hkey
  · intro rule hrule
    rcases mem_foldl_addPolicy.mp hrule with hrule | hrule
    · exact h.loads rule hrule
    · exact hsafe.loads rule hrule
  · intro rule hrule rule' hrule' heq
    rcases mem_foldl_addPolicy.mp hrule with hrule | hrule
    · rcases mem_foldl_addPolicy.mp hrule' with hrule' | hrule'
      · exact h.apart rule hrule rule' hrule' heq
      · exact (hsafe.apart rule' hrule' rule (mem_append_left _ hrule) heq.symm).symm
    · exact hsafe.apart rule hrule rule'
        (mem_append.mpr (mem_foldl_addPolicy.mp hrule')) heq

theorem RulesKept.remove {policies policies' : List (List Bytes)}
    {stored stored' : OrdMap Bytes CasbinRule} (h : RulesKept lib policies stored)
    (kept keptKey : List Bytes → Bool) (hmem : ∀ rule, rule ∈ policies' ↔
      rule ∈ policies ∧ kept rule = true)
    (hget : ∀ rule ∈ policies, stored'.get? (ruleKey rule) =
      if keptKey rule then stored.get? (ruleKey rule) else none)
    (hsub : ∀ key r, stored'.get? key = some r → stored.get? key = some r)
    (hsame : ∀ rule ∈ policies, keptKey rule = kept rule) : RulesKept lib policies' stored' := by
  constructor
  · intro key r
    constructor
    · intro hr
      obtain ⟨rule, hrule, rfl, rfl⟩ := (h.same key r).mp (hsub key r hr)
      refine ⟨rule, (hmem rule).mpr ⟨hrule, ?_⟩, rfl, rfl⟩
      by_contra hnot
      rw [hget rule hrule, hsame rule hrule, if_neg hnot] at hr
      cases hr
    · rintro ⟨rule, hrule, rfl, rfl⟩
      obtain ⟨hrule, hkept⟩ := (hmem rule).mp hrule
      rw [hget rule hrule, hsame rule hrule, if_pos hkept]
      exact (h.same _ _).mpr ⟨rule, hrule, rfl, rfl⟩
  · intro rule hrule
    exact h.loads rule ((hmem rule).mp hrule).1
  · intro rule hrule rule' hrule'
    exact h.apart rule ((hmem rule).mp hrule).1 rule' ((hmem rule').mp hrule').1

section Runs

variable {s : UserSystem}

theorem Kept.addPolicies (h : Kept lib s) {rules : List (List Bytes)} {saved : Bool}
    {s' : UserSystem} (hs : s.addPolicies rules saved = some s')
    (hsafe : saved = true → (∀ rule ∈ rules, rule ∉ s.manager.policies) →
      SafeRules lib s.manager.policies rules) : Kept lib s' := by
  unfold UserSystem.addPolicies at hs
  split at hs
  · cases hs
    exact h
  · rename_i hnone
    split at hs
    · cases hs
    · rename_i hsaved
      cases hs
      have hsafe := hsafe (by simpa using hsaved) (by simpa using hnone)
      exact ⟨h.passwords, h.apiKeys, h.rules.add hsafe⟩

variable {name username : Bytes} {saved : Bool}

theorem Kept.setPassword (h : Kept lib s) (hname : name < loadBound ∧ lib.text name = name)
    (hash : Bytes) :
    Kept lib (UserSystem.setPasswordHash { s with store := { s.store with
      passwords := s.store.passwords.insert name ⟨name, hash⟩ } } name hash) :=
  ⟨h.passwords.insert hname hash, h.apiKeys, h.rules⟩

theorem Kept.createUser (h : Kept lib s) {username password salt : Bytes}
    {initialPolicies : List Permission} {saved rulesSaved : Bool}
    (hok : (UserOp.createUser username password salt initialPolicies saved rulesSaved).Persists
      lib s) :
    Kept lib (s.createUser lib username password salt initialPolicies saved rulesSaved).2 := by
  unfold UserSystem.createUser
  cases hexists : s.manager.passwordHashes.get? username with
  | some hash => exact h
  | none =>
    cases hhash : lib.generateFromPassword password salt with
    | none => exact h
    | some hash =>
      cases saved with
      | false => exact h
      | true =>
        obtain ⟨hname, hsafe⟩ := hok hexists (by rw [hhash]; rfl) rfl
        have hset := h.setPassword hname hash
        simp only [UserSystem.saveUserPasswordInfo, if_true, Option.isSome_none,
          Bool.false_eq_true, if_false]
        split
        · exact hset
        · split
          · exact hset
          · rename_i s' hs'
            apply hset.addPolicies hs'
            intro hsaved hnew
            apply hsafe hsaved
            intro p hp
            exact hnew _ (mem_map_of_mem hp)

theorem Kept.addPermission (h : Kept lib s) {perm : Permission}
    (hok : (UserOp.addPermission username perm saved).Persists lib s) :
    Kept lib (s.addPermissionToUser username perm saved).2 := by
  unfold UserSystem.addPermissionToUser
  cases hexists : s.manager.passwordHashes.get? username with
  | none => exact h
  | some hash =>
    simp only [Option.isNone_some, Bool.false_eq_true, if_false]
    split
    · exact h
    · rename_i s' hs'
      apply h.addPolicies hs'
      intro hsaved hnew
      exact hok (by rw [hexists]; simp) hsaved (hnew _ (mem_singleton.mpr rfl))

theorem mem_filter_not {policies : List (List Bytes)} {p : List Bytes → Bool} {rule : List Bytes} :
    rule ∈ policies.filter (fun r => !p r) ↔ rule ∈ policies ∧ (!p rule) = true :=
  mem_filter

theorem Kept.removePermission (h : Kept lib s) {resourceName resourceType : Bytes}
    (hok : (UserOp.removePermission username resourceName resourceType saved).Persists lib s) :
    Kept lib (s.removePermissionFromUser username resourceName resourceType saved).2 := by
  unfold UserSystem.removePermissionFromUser UserSystem.removeFilteredPolicy
  cases hexists : s.manager.passwordHashes.get? username with
  | none => exact h
  | some hash =>
    cases saved with
    | false => exact h
    | true =>
      have hsame := hok (by rw [hexists]; simp) rfl
      simp only [Option.isNone_some, Bool.false_eq_true, if_false, Bool.not_true]
      split
      all_goals
        refine ⟨h.passwords, h.apiKeys, h.rules.remove _
          (fun rule => !removesFiltered policyType 0
            (UserSystem.permissionFilter username resourceName resourceType) (ruleKey rule))
          (fun _ => mem_filter_not) (fun rule _ => get?_filter _ _ _) ?_ ?_⟩
        · intro key r hr
          rw [PolicyStore.removeFilteredPolicy, get?_filter] at hr
          split at hr
          · exact hr
          · cases hr
        · intro rule hrule
          rw [hsame rule hrule]

theorem Kept.deleteUser (h : Kept lib s) {rulesSaved groupsSaved : Bool}
    (hok : (UserOp.deleteUser username saved rulesSaved groupsSaved).Persists lib s) :
    Kept lib (s.deleteUser username saved rulesSaved groupsSaved).2 := by
  unfold UserSystem.deleteUser UserSystem.removeFilteredPolicy
    UserSystem.removeFilteredGroupingPolicy
  cases hexists : s.manager.passwordHashes.get? username with
  | none => exact h
  | some hash =>
    cases saved with
    | false => exact h
    | true =>
      have hsame := hok (by rw [hexists]; simp) rfl
      -- The two removals together, each of which may fail.
      refine ⟨?_, ?_, h.rules.remove
        (fun rule => !(rulesSaved && fieldsMatch 0 [username] rule))
        (fun rule =>
          !(rulesSaved && removesFiltered policyType 0 [username] (ruleKey rule) ||
            groupsSaved && removesFiltered groupingType 0 [username] (ruleKey rule)))
        ?_ ?_ ?_ ?_⟩
      · cases rulesSaved <;> cases groupsSaved <;> exact h.passwords.erase username
      · cases rulesSaved <;> cases groupsSaved <;> exact h.apiKeys
      · intro rule
        cases rulesSaved <;> cases groupsSaved <;> simp
      · intro rule hrule
        cases rulesSaved <;> cases groupsSaved <;>
          cases hp : removesFiltered policyType 0 [username] (ruleKey rule) <;>
          cases hg : removesFiltered groupingType 0 [username] (ruleKey rule) <;>
          simp [PolicyStore.removeFilteredPolicy, get?_filter, hp, hg]
      · intro key r hr
        cases rulesSaved <;> cases groupsSaved <;>
          simp_all [PolicyStore.removeFilteredPolicy, get?_filter]
      · intro rule hrule
        rw [hsame rule hrule]

theorem Kept.updatePassword (h : Kept lib s) {newPassword salt : Bytes} :
    Kept lib (s.updatePassword lib username newPassword salt saved).2 := by
  unfold UserSystem.updatePassword
  cases hexists : s.manager.passwordHashes.get? username with
  | none => exact h
  | some old =>
    cases hhash : lib.generateFromPassword newPassword salt with
    | none => exact h
    | some hash =>
      cases saved with
      | false => exact h
      | true => exact h.setPassword (h.passwords.loads username (by rw [hexists]; simp)) hash

theorem alphanumeric_lt {b : UInt8} (h : b ∈ alphanumeric) : b < 126 := by
  have hall : ∀ b ∈ alphanumeric, b < 126 := by decide +kernel
  exact hall b h

theorem generateRandomAlphanumeric_loads (lib : UserLibraries) (random : Bytes) :
    generateRandomAlphanumeric random < loadBound ∧
      lib.text (generateRandomAlphanumeric random) = generateRandomAlphanumeric random := by
  have hbytes : ∀ c ∈ generateRandomAlphanumeric random, c < 126 := by
    intro c hc
    obtain ⟨b, -, rfl⟩ := mem_map.mp hc
    have hlt : b.toNat % alphanumeric.length < alphanumeric.length :=
      Nat.mod_lt _ (by decide)
    rw [getD_eq_getElem?_getD, getElem?_eq_getElem hlt, Option.getD_some]
    exact alphanumeric_lt (getElem_mem hlt)
  constructor
  · cases hid : generateRandomAlphanumeric random with
    | nil => exact nil_lt_cons _ _
    | cons c id =>
      rw [hid] at hbytes
      exact cons_lt_cons_iff.mpr (.inl (hbytes c mem_cons_self))
  · apply lib.text_ascii
    intro c hc
    exact lt_trans (hbytes c hc) (by decide)

theorem Kept.createApiKey (h : Kept lib s) {username name : Bytes} {permissions : List Permission}
    {expiresAt : Option ℕ} {material : KeyMaterial} {saved : Bool}
    (hok : (UserOp.createApiKey username name permissions expiresAt material saved).Persists lib
      s) :
    Kept lib (s.createApiKey lib username name permissions expiresAt material saved).2 := by
  unfold UserSystem.createApiKey
  cases hexists : s.manager.passwordHashes.get? username with
  | none => exact h
  | some hash =>
    cases s.escalated username permissions with
    | some perm => exact h
    | none =>
      cases saved with
      | false => exact h
      | true =>
        obtain ⟨husername, hname, hperms⟩ := hok rfl
        obtain ⟨hlt, hid⟩ := generateRandomAlphanumeric_loads lib material.id
        refine ⟨h.passwords, h.apiKeys.insert ⟨rfl, hlt, ?_⟩, h.rules⟩
        simp only [ApiKeyRecord.reread, hid, husername, hname, hperms]

theorem Kept.deleteApiKey (h : Kept lib s) {keyID : Bytes} :
    Kept lib (s.deleteApiKey username keyID saved).2 := by
  unfold UserSystem.deleteApiKey
  cases s.manager.apiKeys.get? keyID with
  | none => exact h
  | some record =>
    simp only
    split
    · exact h
    · split
      · exact h
      · exact ⟨h.passwords, h.apiKeys.erase keyID, h.rules⟩

theorem Kept.empty : Kept lib .empty := by
  refine ⟨⟨fun _ => rfl, fun _ hname => absurd rfl hname⟩, ⟨fun _ => rfl, fun _ _ hid => ?_⟩,
    ⟨fun key r => ⟨fun hr => ?_, fun hrule => ?_⟩, fun _ hrule => ?_, fun _ hrule => ?_⟩⟩
  · cases hid
  · cases hr
  · obtain ⟨rule, hrule, -⟩ := hrule
    cases hrule
  · cases hrule
  · cases hrule

theorem Kept.step {s' : UserSystem} {op : UserOp} (h : Kept lib s) (hok : op.Persists lib s)
    (hstep : s.step lib op = some s') : Kept lib s' := by
  cases hstep
  cases op with
  | createUser => exact h.createUser hok
  | deleteUser => exact h.deleteUser hok
  | addPermission => exact h.addPermission hok
  | removePermission => exact h.removePermission hok
  | updatePassword => exact h.updatePassword
  | createApiKey => exact h.createApiKey hok
  | deleteApiKey => exact h.deleteApiKey

/-- In every run whose operations meet the condition, a new user manager over the store decides as
the running one after each of them. -/
theorem permissions_survive_restart (lib : UserLibraries) (ops : List UserOp) (s : UserSystem)
    (h : Run (UserSystem.step lib) (UserOp.Persists lib) .empty ops s) : SurvivesRestart lib s :=
  (h.invariant (fun _ _ _ hok hstep hinv => hinv.step hok hstep) Kept.empty).survivesRestart

end Runs

/-- The fields of a line without quotes. -/
def splitCommas : Bytes → List Bytes
  | [] => [[]]
  | c :: b =>
    if c = 44 then [] :: splitCommas b
    else match splitCommas b with
      | [] => [[c]]
      | field :: fields => (c :: field) :: fields

/-- Libraries that behave as the real ones on plain ASCII names, with hashes in clear. -/
def plainLibraries : UserLibraries where
  text := id
  readRecord line := some ((splitCommas line).map fun field => field.dropWhile fun c => c = 32)
  generateFromPassword password salt := some (salt ++ password)
  compareHashAndPassword hash password := hasSuffix hash password
  sha256 := id
  encodeSecret := id
  decodeSecret := some
  text_ascii _ _ := rfl

def alice : Bytes := ascii ['a', 'l', 'i', 'c', 'e']

def bob : Bytes := ascii ['b', 'o', 'b']

def readDocs : Permission :=
  ⟨ascii ['d', 'o', 'c', 's'], ascii ['t', 'a', 'b', 'l', 'e'], ascii ['r', 'e', 'a', 'd']⟩

theorem deleting_user_erases_rules : ∃ s, Run (UserSystem.step plainLibraries) (fun _ _ => True)
    .empty [.createUser alice [1] [] [readDocs] true true, .createUser bob [2] [] [] true true,
      .deleteUser bob true true true] s ∧ ¬ SurvivesRestart plainLibraries s := by
  refine ⟨_, .cons trivial rfl (.cons trivial rfl (.cons trivial rfl (.nil _))), ?_⟩
  rintro ⟨m, hm, -, -, henforce⟩
  cases hm
  have hread := henforce alice readDocs.resourceType readDocs.resource readDocs.type
  cases hread

/-- A permission of `alice` is given and taken away. -/
theorem permission_taken_away : ∃ s, Run (UserSystem.step plainLibraries)
    (UserOp.Persists plainLibraries) .empty
    [.createUser alice [1] [] [readDocs] true true,
      .removePermission alice readDocs.resource readDocs.resourceType true] s ∧
    SurvivesRestart plainLibraries s := by
  have hrun : ∃ s, Run (UserSystem.step plainLibraries) (UserOp.Persists plainLibraries) .empty
      [.createUser alice [1] [] [readDocs] true true,
        .removePermission alice readDocs.resource readDocs.resourceType true] s := by
    refine ⟨_, .cons ?_ rfl (.cons ?_ rfl (.nil _))⟩
    · intro _ _ _
      refine ⟨⟨by decide, rfl⟩, fun _ _ => ⟨?_, ?_⟩⟩
      · intro rule hrule
        obtain rfl := List.mem_singleton.mp hrule
        exact ⟨rfl, rfl⟩
      · intro rule hrule rule' hrule' _
        obtain rfl := List.mem_singleton.mp hrule
        obtain rfl := List.mem_singleton.mp hrule'
        rfl
    · intro _ _ rule hrule
      obtain rfl := List.mem_singleton.mp hrule
      rfl
  obtain ⟨s, hrun⟩ := hrun
  exact ⟨s, hrun, permissions_survive_restart _ _ _ hrun⟩

end Antfly
