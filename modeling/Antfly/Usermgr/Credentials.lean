import Antfly.Metadata.Auth
import Antfly.Usermgr.Restart

/-!
Every successful creation of a user starts a new incarnation of its name.  A password hash and an
API key belong to the incarnation they were issued for.  Deleting a user does not delete its API
keys, so that the credentials of one incarnation are only kept from the next one when the user has
no keys left.
-/

namespace Antfly

open Option OrdMap

variable (lib : UserLibraries)

/-- The users with the number of the current incarnation of each name, and the incarnation each
password hash and each API key was issued for. -/
structure Session where
  system : UserSystem
  incarnation : Bytes → ℕ
  passwordIssued : Bytes → ℕ
  keyIssued : Bytes → ℕ

def Session.empty : Session := ⟨.empty, fun _ => 0, fun _ => 0, fun _ => 0⟩

inductive SessionEvent where
  | op (op : UserOp)
  | restart

def setAt (f : Bytes → ℕ) (name : Bytes) (n : ℕ) : Bytes → ℕ :=
  fun x => if x = name then n else f x

/-- The user has a password hash in memory. -/
def UserSystem.hasUser (s : UserSystem) (username : Bytes) : Bool :=
  (s.manager.passwordHashes.get? username).isSome

namespace Session

variable (s : Session)

/-- What an operation issues, and for which incarnation. -/
def issue (s' : UserSystem) : UserOp → Session
  | .createUser username .. =>
    if !s.system.hasUser username && s'.hasUser username then
      { s with
        system := s'
        incarnation := setAt s.incarnation username (s.incarnation username + 1)
        passwordIssued := setAt s.passwordIssued username (s.incarnation username + 1) }
    else { s with system := s' }
  | .updatePassword username .. =>
    { s with
      system := s'
      passwordIssued := setAt s.passwordIssued username (s.incarnation username) }
  | .createApiKey username _ _ _ material _ =>
    { s with
      system := s'
      keyIssued := setAt s.keyIssued (generateRandomAlphanumeric material.id)
        (s.incarnation username) }
  | _ => { s with system := s' }

/-- A restart that fails leaves no user manager. -/
def step : SessionEvent → Option Session
  | .op op =>
    match s.system.apply lib op with
    | (.ok _, s') => some (s.issue s' op)
    | (.error _, s') => some { s with system := s' }
  | .restart => (s.system.store.newUserManager lib).map fun m =>
    { s with system := { s.system with manager := m } }

end Session

/-- Credentials are accepted for users that exist and that they were issued for, and a request with
a key is authorised only by its owner's rules and its scope. -/
structure CredentialsSound (s : Session) : Prop where
  keys : ∀ keyID keySecret now username permissions,
    s.system.validateApiKey lib keyID keySecret now = .ok (username, permissions) →
      s.system.hasUser username = true ∧ s.keyIssued keyID = s.incarnation username
  passwords : ∀ username password, s.system.authenticateUser lib username password = .ok () →
    s.system.hasUser username = true ∧ s.passwordIssued username = s.incarnation username
  authorised : ∀ keyID keySecret now username permissions typ obj act,
    s.system.validateApiKey lib keyID keySecret now = .ok (username, permissions) →
      s.system.manager.checkPermission ⟨username, permissions⟩ typ obj act = true →
        s.system.manager.Holds username typ obj act ∧
          (permissions ≠ [] → ScopeCovers permissions typ obj act)

/-- The condition on an event.  A created user gets its rules stored with it and a name that JSON
keeps, a deleted user has no API keys, a key's owner has a name that is loaded again, and a removal
that the engine knows nothing of finds nothing in the store. -/
def SessionEvent.Meets (s : Session) : SessionEvent → Prop
  | .op (.createUser username password salt initialPolicies saved rulesSaved) =>
    s.system.hasUser username = false →
    (lib.generateFromPassword password salt).isSome → saved = true →
      lib.text username = username ∧ (rulesSaved = true ∨ initialPolicies = [] ∨
        ∃ p ∈ initialPolicies, p.rule username ∈ s.system.manager.policies)
  | .op (.deleteUser username saved _ _) =>
    s.system.hasUser username = true → saved = true →
      ∀ id record, s.system.manager.apiKeys.get? id = some record → record.username ≠ username
  | .op (.createApiKey username _ _ _ _ saved) =>
    s.system.hasUser username = true → saved = true → username < loadBound
  | .op (.removePermission username resourceName resourceType saved) =>
    s.system.hasUser username = true → saved = true →
      let fieldValues := UserSystem.permissionFilter username resourceName resourceType
      (∃ rule ∈ s.system.manager.policies, fieldsMatch 0 fieldValues rule = true) ∨
        ∀ key, s.system.store.policies.rules.get? key ≠ none →
          removesFiltered policyType 0 fieldValues key = false
  | _ => True

/-- An operation that returns an error changes neither memory nor store. -/
def ErrorsChangeNothing (s : Session) : Prop :=
  ∀ op e s', SessionEvent.Meets lib s (.op op) → s.system.apply lib op = (.error e, s') →
    s' = s.system

variable {lib}

variable {s s' : UserSystem} {username password salt : Bytes} {rules : List (List Bytes)}
variable {saved rulesSaved : Bool}

theorem hasUser_eq_false :
    s.hasUser username = false ↔ s.manager.passwordHashes.get? username = none := by
  rw [UserSystem.hasUser, isSome_eq_false_iff, isNone_iff_eq_none]

theorem hasUser_eq_true :
    s.hasUser username = true ↔ s.manager.passwordHashes.get? username ≠ none := by
  rw [UserSystem.hasUser, isSome_iff_ne_none]

/-- Users and keys are the same in memory and in the store. -/
structure SameCredentials (s s' : UserSystem) : Prop where
  passwordHashes : s'.manager.passwordHashes = s.manager.passwordHashes
  apiKeys : s'.manager.apiKeys = s.manager.apiKeys
  passwords : s'.store.passwords = s.store.passwords
  storedKeys : s'.store.apiKeys = s.store.apiKeys

theorem SameCredentials.refl (s : UserSystem) : SameCredentials s s := ⟨rfl, rfl, rfl, rfl⟩

theorem addPolicies_sameCredentials (h : s.addPolicies rules saved = some s') :
    SameCredentials s s' := by
  unfold UserSystem.addPolicies at h
  split at h
  · cases h
    exact .refl s
  · split at h
    · cases h
    · cases h
      exact ⟨rfl, rfl, rfl, rfl⟩

theorem addPolicies_eq_none (h : s.addPolicies rules saved = none) :
    saved = false ∧ ∀ rule ∈ rules, rule ∉ s.manager.policies := by
  unfold UserSystem.addPolicies at h
  split at h
  · cases h
  · rename_i hnone
    split at h
    · rename_i hsaved
      exact ⟨by simpa using hsaved, by simpa using hnone⟩
    · cases h

theorem createUser_ok {initialPolicies : List Permission}
    (h : s.createUser lib username password salt initialPolicies saved rulesSaved = (.ok (), s')) :
    s.hasUser username = false ∧ saved = true ∧ ∃ hash,
      lib.generateFromPassword password salt = some hash ∧
      s'.manager.passwordHashes = s.manager.passwordHashes.insert username hash ∧
      s'.store.passwords = s.store.passwords.insert username ⟨username, hash⟩ ∧
      s'.manager.apiKeys = s.manager.apiKeys ∧ s'.store.apiKeys = s.store.apiKeys := by
  unfold UserSystem.createUser at h
  cases hexists : s.manager.passwordHashes.get? username with
  | some hash =>
    rw [hexists] at h
    cases h
  | none =>
    rw [hexists] at h
    refine ⟨hasUser_eq_false.mpr hexists, ?_⟩
    cases hhash : lib.generateFromPassword password salt with
    | none =>
      rw [hhash] at h
      cases h
    | some hash =>
      rw [hhash] at h
      cases saved with
      | false => cases h
      | true =>
        refine ⟨rfl, hash, rfl, ?_⟩
        simp only [UserSystem.saveUserPasswordInfo, if_true, isSome_none,
          Bool.false_eq_true, if_false] at h
        split at h
        · cases h
          exact ⟨rfl, rfl, rfl, rfl⟩
        · split at h
          · cases h
          · rename_i s'' hs''
            cases h
            have hsame := addPolicies_sameCredentials hs''
            exact ⟨hsame.passwordHashes, hsame.passwords, hsame.apiKeys, hsame.storedKeys⟩

theorem createUser_error {s s' : UserSystem} {username password salt : Bytes}
    {initialPolicies : List Permission} {saved rulesSaved : Bool} {e : UserError}
    (h : s.createUser lib username password salt initialPolicies saved rulesSaved = (.error e, s'))
    (hok : s.hasUser username = false → (lib.generateFromPassword password salt).isSome →
      saved = true → lib.text username = username ∧ (rulesSaved = true ∨ initialPolicies = [] ∨
        ∃ p ∈ initialPolicies, p.rule username ∈ s.manager.policies)) : s' = s := by
  unfold UserSystem.createUser at h
  cases hexists : s.manager.passwordHashes.get? username with
  | some hash =>
    rw [hexists] at h
    cases h
    rfl
  | none =>
    rw [hexists] at h
    cases hhash : lib.generateFromPassword password salt with
    | none =>
      rw [hhash] at h
      cases h
      rfl
    | some hash =>
      rw [hhash] at h
      cases saved with
      | false =>
        cases h
        rfl
      | true =>
        obtain ⟨-, hrules⟩ := hok (hasUser_eq_false.mpr hexists) (by rw [hhash]; rfl) rfl
        simp only [UserSystem.saveUserPasswordInfo, if_true, isSome_none,
          Bool.false_eq_true, if_false] at h
        split at h
        · cases h
        · rename_i hne
          split at h
          · rename_i hnone
            obtain ⟨hsaved, hnew⟩ := addPolicies_eq_none hnone
            rcases hrules with hsaved' | hnil | ⟨p, hp, hmem⟩
            · rw [hsaved] at hsaved'
              cases hsaved'
            · rw [hnil] at hne
              exact absurd rfl hne
            · exact absurd hmem (hnew _ (List.mem_map_of_mem hp))
          · cases h

theorem removeFiltered_nothing {s : UserSystem} {fieldValues : List Bytes}
    (hmemory : s.manager.policies.any (fieldsMatch 0 fieldValues) = false)
    (hstore : ∀ key, s.store.policies.rules.get? key ≠ none →
      removesFiltered policyType 0 fieldValues key = false) :
    (s.removeFilteredPolicy 0 fieldValues true) = some (false, s) := by
  have hpolicies : s.manager.policies.filter (fun r => !fieldsMatch 0 fieldValues r) =
      s.manager.policies := by
    apply List.filter_eq_self.mpr
    intro rule hrule
    rw [List.any_eq_false] at hmemory
    simpa using hmemory rule hrule
  have hrules : s.store.policies.rules.filter
      (fun key => !removesFiltered policyType 0 fieldValues key) = s.store.policies.rules := by
    apply ext_get?
    intro key
    rw [get?_filter]
    cases hkey : s.store.policies.rules.get? key with
    | none => exact ite_self _
    | some r =>
      rw [hstore key (by rw [hkey]; simp)]
      rfl
  unfold UserSystem.removeFilteredPolicy PolicyStore.removeFilteredPolicy
  rw [hpolicies, hrules, hmemory]
  rfl

theorem errorsChangeNothing (s : Session) : ErrorsChangeNothing lib s := by
  intro op e s' hok happly
  cases op with
  | createUser username password salt initialPolicies saved rulesSaved =>
    exact createUser_error happly hok
  | deleteUser username saved rulesSaved groupsSaved =>
    simp only [UserSystem.apply, UserSystem.deleteUser] at happly
    split at happly
    · cases happly
      rfl
    · split at happly
      · cases happly
        rfl
      · cases happly
  | addPermission username perm saved =>
    simp only [UserSystem.apply, UserSystem.addPermissionToUser] at happly
    split at happly
    · cases happly
      rfl
    · split at happly
      · cases happly
        rfl
      · cases happly
  | removePermission username resourceName resourceType saved =>
    simp only [UserSystem.apply, UserSystem.removePermissionFromUser] at happly
    split at happly
    · cases happly
      rfl
    · rename_i hexists
      cases saved with
      | false =>
        cases happly
        rfl
      | true =>
        have huser := hasUser_eq_true.mpr (by simpa using hexists)
        rcases hok huser rfl with hfound | hnothing
        · simp only [UserSystem.removeFilteredPolicy, Bool.not_true, Bool.false_eq_true,
            if_false, List.any_eq_true.mpr hfound, if_true] at happly
          cases happly
        · cases hany : s.system.manager.policies.any (fieldsMatch 0
            (UserSystem.permissionFilter username resourceName resourceType)) with
          | false =>
            rw [removeFiltered_nothing hany hnothing] at happly
            cases happly
            rfl
          | true =>
            simp only [UserSystem.removeFilteredPolicy, Bool.not_true, Bool.false_eq_true,
              if_false, hany, if_true] at happly
            cases happly
  | updatePassword username newPassword salt saved =>
    simp only [UserSystem.apply, UserSystem.updatePassword] at happly
    split at happly
    · cases happly
      rfl
    · split at happly
      · cases happly
        rfl
      · cases saved with
        | false =>
          cases happly
          rfl
        | true => cases happly
  | createApiKey username name permissions expiresAt material saved =>
    simp only [UserSystem.apply, UserSystem.createApiKey] at happly
    split at happly
    · cases happly
      rfl
    · split at happly
      · cases happly
        rfl
      · split at happly
        · cases happly
          rfl
        · cases happly
  | deleteApiKey username keyID saved =>
    simp only [UserSystem.apply, UserSystem.deleteApiKey] at happly
    split at happly
    · cases happly
      rfl
    · split at happly
      · cases happly
        rfl
      · split at happly
        · cases happly
          rfl
        · cases happly

/-- The users in memory are stored, the stored ones that can be loaded are in memory, and every key
belongs to the current incarnation of a user in memory that is loaded again. -/
structure Live (lib : UserLibraries) (s : Session) : Prop where
  stored : ∀ name hash, s.system.manager.passwordHashes.get? name = some hash →
    s.system.store.passwords.get? name = some ⟨name, hash⟩
  names : ∀ name info, s.system.store.passwords.get? name = some info →
    info.username = name ∧ lib.text name = name ∧ s.passwordIssued name = s.incarnation name
  loaded : ∀ name, s.system.store.passwords.get? name ≠ none → name < loadBound →
    s.system.hasUser name = true
  keysStored : ∀ id record, s.system.manager.apiKeys.get? id = some record →
    ∃ r, s.system.store.apiKeys.get? id = some r ∧ r.username = record.username
  keysInMemory : ∀ id r, s.system.store.apiKeys.get? id = some r →
    ∃ record, s.system.manager.apiKeys.get? id = some record ∧ record.username = r.username
  keyIds : ∀ id r, s.system.store.apiKeys.get? id = some r →
    r.keyID = id ∧ lib.text id = id ∧ id < loadBound
  owners : ∀ id r, s.system.store.apiKeys.get? id = some r →
    r.username < loadBound ∧ s.system.hasUser r.username = true ∧
      s.keyIssued id = s.incarnation r.username

namespace Live

variable {s : Session}

theorem empty : Live lib .empty := by
  constructor
  all_goals
    intro name
    intros
    contradiction

theorem sound (h : Live lib s) : CredentialsSound lib s := by
  constructor
  · intro keyID keySecret now username permissions hvalid
    unfold UserSystem.validateApiKey at hvalid
    split at hvalid
    · cases hvalid
    · rename_i record hrecord
      obtain ⟨r, hr, hname⟩ := h.keysStored keyID record hrecord
      obtain ⟨-, huser, hissued⟩ := h.owners keyID r hr
      have husername : record.username = username := by
        split at hvalid
        · cases hvalid
        · split at hvalid
          · cases hvalid
          · split at hvalid
            · cases hvalid
            · cases hvalid
              rfl
      rw [← husername, ← hname]
      exact ⟨huser, hissued⟩
  · intro username password hauth
    unfold UserSystem.authenticateUser at hauth
    split at hauth
    · cases hauth
    · rename_i hash hhash
      refine ⟨hasUser_eq_true.mpr (by rw [hhash]; simp), ?_⟩
      exact (h.names username _ (h.stored username hash hhash)).2.2
  · intro keyID keySecret now username permissions typ obj act _ hcheck
    exact checkPermission_iff.mp hcheck

variable {s' : UserSystem}

theorem congr (h : Live lib s) (hsame : SameCredentials s.system s') :
    Live lib { s with system := s' } := by
  have huser : ∀ name, s'.hasUser name = s.system.hasUser name := by
    intro name
    rw [UserSystem.hasUser, UserSystem.hasUser, hsame.passwordHashes]
  constructor
  · simp only [hsame.passwordHashes, hsame.passwords]
    exact h.stored
  · simp only [hsame.passwords]
    exact h.names
  · simp only [hsame.passwords, huser]
    exact h.loaded
  · simp only [hsame.apiKeys, hsame.storedKeys]
    exact h.keysStored
  · simp only [hsame.apiKeys, hsame.storedKeys]
    exact h.keysInMemory
  · simp only [hsame.storedKeys]
    exact h.keyIds
  · simp only [hsame.storedKeys, huser]
    exact h.owners

/-- A password hash is written for the current incarnation, or starts a new one of a name that no
key belongs to. -/
theorem setPassword (h : Live lib s) {username hash : Bytes} {n : ℕ}
    (hname : lib.text username = username)
    (hhashes : s'.manager.passwordHashes = s.system.manager.passwordHashes.insert username hash)
    (hstored : s'.store.passwords = s.system.store.passwords.insert username ⟨username, hash⟩)
    (hkeys : s'.manager.apiKeys = s.system.manager.apiKeys)
    (hstoredKeys : s'.store.apiKeys = s.system.store.apiKeys)
    (hn : n = s.incarnation username ∨ s.system.hasUser username = false) :
    Live lib ⟨s', setAt s.incarnation username n, setAt s.passwordIssued username n,
      s.keyIssued⟩ := by
  have huser : ∀ name, s'.hasUser name = true ↔
      name = username ∨ s.system.hasUser name = true := by
    intro name
    rw [hasUser_eq_true, hhashes, get?_insert, hasUser_eq_true]
    split
    · rename_i heq
      exact iff_of_true (by simp) (.inl heq)
    · rename_i hne
      exact ⟨.inr, fun h => h.resolve_left hne⟩
  constructor
  · intro name hash' hget
    simp only [hhashes, hstored, get?_insert] at hget ⊢
    split at hget
    · rename_i heq
      cases hget
      rw [if_pos heq, heq]
    · rename_i hne
      rw [if_neg hne]
      exact h.stored name hash' hget
  · intro name info hget
    simp only [hstored, get?_insert] at hget
    split at hget
    · rename_i heq
      cases hget
      subst heq
      exact ⟨rfl, hname, by simp only [setAt, if_true]⟩
    · rename_i hne
      obtain ⟨hinfo, htext, hissued⟩ := h.names name info hget
      refine ⟨hinfo, htext, ?_⟩
      simp only [setAt, if_neg hne]
      exact hissued
  · intro name hget hlt
    simp only [hstored, get?_insert] at hget
    rw [huser]
    split at hget
    · rename_i heq
      exact .inl heq
    · exact .inr (h.loaded name hget hlt)
  · simp only [hkeys, hstoredKeys]
    exact h.keysStored
  · simp only [hkeys, hstoredKeys]
    exact h.keysInMemory
  · simp only [hstoredKeys]
    exact h.keyIds
  · intro id r hget
    simp only [hstoredKeys] at hget
    obtain ⟨hlt, howner, hissued⟩ := h.owners id r hget
    refine ⟨hlt, (huser _).mpr (.inr howner), ?_⟩
    simp only [setAt]
    split
    · rename_i heq
      rcases hn with rfl | hnone
      · rw [hissued, heq]
      · rw [heq, hnone] at howner
        cases howner
    · exact hissued

theorem eraseUser (h : Live lib s) {s' : UserSystem} {username : Bytes}
    (hhashes : s'.manager.passwordHashes = s.system.manager.passwordHashes.erase username)
    (hstored : s'.store.passwords = s.system.store.passwords.erase username)
    (hkeys : s'.manager.apiKeys = s.system.manager.apiKeys)
    (hstoredKeys : s'.store.apiKeys = s.system.store.apiKeys)
    (hfree : ∀ id record, s.system.manager.apiKeys.get? id = some record →
      record.username ≠ username) :
    Live lib { s with system := s' } := by
  have huser : ∀ name, s'.hasUser name = true ↔
      name ≠ username ∧ s.system.hasUser name = true := by
    intro name
    rw [hasUser_eq_true, hhashes, get?_erase, hasUser_eq_true]
    split
    · rename_i heq
      exact iff_of_false (by simp) fun h => h.1 heq
    · rename_i hne
      exact ⟨fun h => ⟨hne, h⟩, And.right⟩
  constructor
  · intro name hash hget
    simp only [hhashes, hstored, get?_erase] at hget ⊢
    split at hget
    · cases hget
    · rename_i hne
      rw [if_neg hne]
      exact h.stored name hash hget
  · intro name info hget
    simp only [hstored, get?_erase] at hget
    split at hget
    · cases hget
    · exact h.names name info hget
  · intro name hget hlt
    simp only [hstored, get?_erase] at hget
    rw [huser]
    split at hget
    · exact absurd rfl hget
    · rename_i hne
      exact ⟨hne, h.loaded name hget hlt⟩
  · simp only [hkeys, hstoredKeys]
    exact h.keysStored
  · simp only [hkeys, hstoredKeys]
    exact h.keysInMemory
  · simp only [hstoredKeys]
    exact h.keyIds
  · intro id r hget
    simp only [hstoredKeys] at hget
    obtain ⟨hlt, howner, hissued⟩ := h.owners id r hget
    obtain ⟨record, hrecord, hname⟩ := h.keysInMemory id r hget
    refine ⟨hlt, (huser _).mpr ⟨?_, howner⟩, hissued⟩
    rw [← hname]
    exact hfree id record hrecord

theorem insertKey (h : Live lib s) (record : ApiKeyRecord)
    (hid : lib.text record.keyID = record.keyID ∧ record.keyID < loadBound)
    (huser : s.system.hasUser record.username = true) (hlt : record.username < loadBound)
    (hhashes : s'.manager.passwordHashes = s.system.manager.passwordHashes)
    (hstored : s'.store.passwords = s.system.store.passwords)
    (hkeys : s'.manager.apiKeys = s.system.manager.apiKeys.insert record.keyID record)
    (hstoredKeys : s'.store.apiKeys = s.system.store.apiKeys.insert record.keyID record) :
    Live lib { s with
      system := s'
      keyIssued := setAt s.keyIssued record.keyID (s.incarnation record.username) } := by
  have husers : ∀ name, s'.hasUser name = s.system.hasUser name := by
    intro name
    rw [UserSystem.hasUser, UserSystem.hasUser, hhashes]
  constructor
  · simp only [hhashes, hstored]
    exact h.stored
  · simp only [hstored]
    exact h.names
  · simp only [hstored, husers]
    exact h.loaded
  · intro id r hget
    simp only [hkeys, hstoredKeys, get?_insert] at hget ⊢
    split at hget
    · rename_i heq
      cases hget
      exact ⟨record, if_pos heq, rfl⟩
    · rename_i hne
      rw [if_neg hne]
      exact h.keysStored id r hget
  · intro id r hget
    simp only [hkeys, hstoredKeys, get?_insert] at hget ⊢
    split at hget
    · rename_i heq
      cases hget
      exact ⟨record, if_pos heq, rfl⟩
    · rename_i hne
      rw [if_neg hne]
      exact h.keysInMemory id r hget
  · intro id r hget
    simp only [hstoredKeys, get?_insert] at hget
    split at hget
    · rename_i heq
      cases hget
      subst heq
      exact ⟨rfl, hid⟩
    · exact h.keyIds id r hget
  · intro id r hget
    simp only [hstoredKeys, get?_insert, husers, setAt] at hget ⊢
    split at hget
    · rename_i heq
      cases hget
      rw [if_pos heq]
      exact ⟨hlt, huser, rfl⟩
    · rename_i hne
      rw [if_neg hne]
      exact h.owners id r hget

theorem eraseKey (h : Live lib s) {keyID : Bytes}
    (hhashes : s'.manager.passwordHashes = s.system.manager.passwordHashes)
    (hstored : s'.store.passwords = s.system.store.passwords)
    (hkeys : s'.manager.apiKeys = s.system.manager.apiKeys.erase keyID)
    (hstoredKeys : s'.store.apiKeys = s.system.store.apiKeys.erase keyID) :
    Live lib { s with system := s' } := by
  have husers : ∀ name, s'.hasUser name = s.system.hasUser name := by
    intro name
    rw [UserSystem.hasUser, UserSystem.hasUser, hhashes]
  have herase : ∀ (map : OrdMap Bytes ApiKeyRecord) (id : Bytes) (r : ApiKeyRecord),
      (map.erase keyID).get? id = some r ↔ id ≠ keyID ∧ map.get? id = some r := by
    intro map id r
    rw [get?_erase]
    split
    · rename_i heq
      exact iff_of_false (by simp) fun h => h.1 heq
    · rename_i hne
      exact ⟨fun h => ⟨hne, h⟩, And.right⟩
  constructor
  · simp only [hhashes, hstored]
    exact h.stored
  · simp only [hstored]
    exact h.names
  · simp only [hstored, husers]
    exact h.loaded
  · intro id r hget
    simp only [hkeys, hstoredKeys, herase] at hget ⊢
    obtain ⟨r', hr', hname⟩ := h.keysStored id r hget.2
    exact ⟨r', ⟨hget.1, hr'⟩, hname⟩
  · intro id r hget
    simp only [hkeys, hstoredKeys, herase] at hget ⊢
    obtain ⟨r', hr', hname⟩ := h.keysInMemory id r hget.2
    exact ⟨r', ⟨hget.1, hr'⟩, hname⟩
  · intro id r hget
    simp only [hstoredKeys, herase] at hget
    exact h.keyIds id r hget.2
  · intro id r hget
    simp only [hstoredKeys, herase, husers] at hget ⊢
    exact h.owners id r hget.2

theorem restart (h : Live lib s) {m : UserManager}
    (hm : s.system.store.newUserManager lib = some m) :
    Live lib { s with system := { s.system with manager := m } } := by
  have hnames : ∀ name info, s.system.store.passwords.get? name = some info →
      lib.text info.username = name := by
    intro name info hinfo
    obtain ⟨hname, htext, -⟩ := h.names name info hinfo
    rw [hname, htext]
  have hids : ∀ id r, s.system.store.apiKeys.get? id = some r → (r.reread lib).keyID = id := by
    intro id r hr
    obtain ⟨hid, htext, -⟩ := h.keyIds id r hr
    change lib.text r.keyID = id
    rw [hid, htext]
  obtain ⟨policies, -, rfl⟩ := map_eq_some_iff.mp hm
  have hhash := @get?_loadUserPasswordHashes lib s.system.store hnames
  have hkey := @get?_loadApiKeys lib s.system.store hids
  have huser : ∀ name, name < loadBound → s.system.hasUser name = true →
      ∃ hash, (s.system.store.loadUserPasswordHashes lib).get? name = some hash := by
    intro name hlt hname
    obtain ⟨hash, hget⟩ := ne_none_iff_exists'.mp (hasUser_eq_true.mp hname)
    exact ⟨hash, (hhash name hash).mpr ⟨hlt, ⟨name, hash⟩, h.stored name hash hget, rfl⟩⟩
  -- The owner of a key has a name that JSON keeps.
  have howner : ∀ id r, s.system.store.apiKeys.get? id = some r →
      (r.reread lib).username = r.username := by
    intro id r hr
    obtain ⟨hash, hget⟩ :=
      ne_none_iff_exists'.mp (hasUser_eq_true.mp (h.owners id r hr).2.1)
    exact (h.names r.username _ (h.stored r.username hash hget)).2.1
  constructor
  · intro name hash hget
    obtain ⟨-, info, hinfo, rfl⟩ := (hhash name hash).mp hget
    obtain ⟨hname, -⟩ := h.names name info hinfo
    change s.system.store.passwords.get? name = _
    rw [hinfo, ← hname]
  · exact h.names
  · intro name hget hlt
    obtain ⟨hash, hhash⟩ := huser name hlt (h.loaded name hget hlt)
    exact hasUser_eq_true.mpr (by simp only [hhash]; simp)
  · intro id record hget
    obtain ⟨-, r, hr, rfl⟩ := (hkey id record).mp hget
    exact ⟨r, hr, (howner id r hr).symm⟩
  · intro id r hr
    exact ⟨r.reread lib, (hkey id _).mpr ⟨(h.keyIds id r hr).2.2, r, hr, rfl⟩, howner id r hr⟩
  · exact h.keyIds
  · intro id r hr
    obtain ⟨hlt, hname, hissued⟩ := h.owners id r hr
    obtain ⟨hash, hhash⟩ := huser r.username hlt hname
    exact ⟨hlt, hasUser_eq_true.mpr (by simp only [hhash]; simp), hissued⟩

end Live

section Runs

variable {s : Session} {s' : UserSystem}

private theorem setAt_self (f : Bytes → ℕ) (name : Bytes) : setAt f name (f name) = f := by
  funext x
  unfold setAt
  split
  · rename_i heq
    rw [heq]
  · rfl

theorem Live.createUser (h : Live lib s) {username password salt : Bytes}
    {initialPolicies : List Permission} {saved rulesSaved : Bool}
    (hok : SessionEvent.Meets lib s
      (.op (.createUser username password salt initialPolicies saved rulesSaved)))
    (happly : s.system.createUser lib username password salt initialPolicies saved rulesSaved =
      (.ok (), s')) :
    Live lib (s.issue s'
      (.createUser username password salt initialPolicies saved rulesSaved)) := by
  obtain ⟨hnew, hsaved, hash, hhash, hhashes, hstored, hkeys, hstoredKeys⟩ := createUser_ok happly
  obtain ⟨hname, -⟩ := hok hnew (by rw [hhash]; rfl) hsaved
  have hcreated : s'.hasUser username = true := by
    rw [hasUser_eq_true, hhashes, get?_insert, if_pos rfl]
    simp
  simp only [Session.issue, hnew, hcreated, Bool.not_false, Bool.and_self, if_true]
  exact h.setPassword hname hhashes hstored hkeys hstoredKeys (.inr hnew)

variable {username : Bytes} {saved : Bool}

theorem Live.deleteUser (h : Live lib s) {rulesSaved groupsSaved : Bool}
    (hok : SessionEvent.Meets lib s (.op (.deleteUser username saved rulesSaved groupsSaved)))
    (happly : s.system.deleteUser username saved rulesSaved groupsSaved = (.ok (), s')) :
    Live lib { s with system := s' } := by
  unfold UserSystem.deleteUser UserSystem.removeFilteredPolicy
    UserSystem.removeFilteredGroupingPolicy at happly
  split at happly
  · cases happly
  · rename_i hexists
    cases saved with
    | false => cases happly
    | true =>
      have hfree := hok (hasUser_eq_true.mpr (by simpa using hexists)) rfl
      cases rulesSaved <;> cases groupsSaved <;> cases happly <;>
        exact h.eraseUser rfl rfl rfl rfl hfree

theorem Live.addPermission (h : Live lib s) {perm : Permission}
    (happly : s.system.addPermissionToUser username perm saved = (.ok (), s')) :
    Live lib { s with system := s' } := by
  unfold UserSystem.addPermissionToUser at happly
  split at happly
  · cases happly
  · split at happly
    · cases happly
    · rename_i s'' hs''
      cases happly
      exact h.congr (addPolicies_sameCredentials hs'')

theorem Live.removePermission (h : Live lib s) {username resourceName resourceType : Bytes}
    {saved : Bool}
    (happly : s.system.removePermissionFromUser username resourceName resourceType saved =
      (.ok (), s')) : Live lib { s with system := s' } := by
  unfold UserSystem.removePermissionFromUser UserSystem.removeFilteredPolicy at happly
  split at happly
  · cases happly
  · cases saved with
    | false => cases happly
    | true =>
      simp only [Bool.not_true, Bool.false_eq_true, if_false] at happly
      split at happly
      · cases happly
        exact h.congr ⟨rfl, rfl, rfl, rfl⟩
      · cases happly

theorem Live.updatePassword (h : Live lib s) {newPassword salt : Bytes}
    (happly : s.system.updatePassword lib username newPassword salt saved = (.ok (), s')) :
    Live lib (s.issue s' (.updatePassword username newPassword salt saved)) := by
  unfold UserSystem.updatePassword at happly
  split at happly
  · cases happly
  · rename_i hexists
    have huser := hasUser_eq_true.mpr (by simpa using hexists)
    split at happly
    · cases happly
    · rename_i hash hhash
      cases saved with
      | false => cases happly
      | true =>
        cases happly
        obtain ⟨old, hold⟩ := ne_none_iff_exists'.mp (hasUser_eq_true.mp huser)
        have hname := (h.names username _ (h.stored username old hold)).2.1
        have hissue := setAt_self s.incarnation username
        simp only [Session.issue]
        conv => enter [2, 2]; rw [← hissue]
        exact h.setPassword hname rfl rfl rfl rfl (.inl rfl)

theorem Live.createApiKey (h : Live lib s) {username name : Bytes} {permissions : List Permission}
    {expiresAt : Option ℕ} {material : KeyMaterial} {saved : Bool} {key : Bytes × Bytes}
    (hok : SessionEvent.Meets lib s
      (.op (.createApiKey username name permissions expiresAt material saved)))
    (happly : s.system.createApiKey lib username name permissions expiresAt material saved =
      (.ok key, s')) :
    Live lib (s.issue s'
      (.createApiKey username name permissions expiresAt material saved)) := by
  unfold UserSystem.createApiKey at happly
  split at happly
  · cases happly
  · rename_i hexists
    have huser := hasUser_eq_true.mpr (by simpa using hexists)
    split at happly
    · cases happly
    · cases saved with
      | false => cases happly
      | true =>
        cases happly
        obtain ⟨hlt, hid⟩ := generateRandomAlphanumeric_loads lib material.id
        exact h.insertKey {
          keyID := generateRandomAlphanumeric material.id
          secretHash := hashApiKeySecret lib material.salt material.secret
          secretSalt := material.salt
          username, name, permissions
          createdAt := material.now
          expiresAt } ⟨hid, hlt⟩ huser (hok huser rfl) rfl rfl rfl rfl

theorem Live.deleteApiKey (h : Live lib s) {keyID : Bytes}
    (happly : s.system.deleteApiKey username keyID saved = (.ok (), s')) :
    Live lib { s with system := s' } := by
  unfold UserSystem.deleteApiKey at happly
  split at happly
  · cases happly
  · split at happly
    · cases happly
    · split at happly
      · cases happly
      · cases happly
        exact h.eraseKey rfl rfl rfl rfl

theorem Live.step {s₂ : Session} {event : SessionEvent} (h : Live lib s)
    (hok : event.Meets lib s) (hstep : s.step lib event = some s₂) : Live lib s₂ := by
  cases event with
  | restart =>
    obtain ⟨m, hm, rfl⟩ := map_eq_some_iff.mp hstep
    exact h.restart hm
  | op op =>
    simp only [Session.step] at hstep
    split at hstep
    · rename_i s' happly
      cases hstep
      cases op with
      | createUser => exact h.createUser hok happly
      | deleteUser => exact h.deleteUser hok happly
      | addPermission => exact h.addPermission happly
      | removePermission => exact h.removePermission happly
      | updatePassword => exact h.updatePassword happly
      | createApiKey username name permissions expiresAt material saved =>
        simp only [UserSystem.apply] at happly
        cases hresult : s.system.createApiKey lib username name permissions expiresAt material
          saved with
        | mk result s'' =>
          rw [hresult] at happly
          cases result with
          | error e => cases happly
          | ok key =>
            cases happly
            exact h.createApiKey hok hresult
      | deleteApiKey => exact h.deleteApiKey happly
    · rename_i e s' happly
      cases hstep
      rw [errorsChangeNothing s op e s' hok happly]
      exact h

/-- In every run of operations and restarts whose events meet the condition, credentials are
accepted only for the users they were issued for, and errors change nothing. -/
theorem credentials_keep_to_users (lib : UserLibraries) (events : List SessionEvent) (s : Session)
    (h : Run (Session.step lib) (SessionEvent.Meets lib) .empty events s) :
    CredentialsSound lib s ∧ ErrorsChangeNothing lib s :=
  ⟨(h.invariant (fun _ _ _ hok hstep hinv => hinv.step hok hstep) Live.empty).sound,
    errorsChangeNothing s⟩

end Runs

def aliceKey : UserOp := .createApiKey alice [1] [] none ⟨[0], [7], [], 0⟩ true

theorem key_outlives_user : ∃ s, Run (Session.step plainLibraries) (fun _ _ => True) .empty
    [.op (.createUser alice [1] [] [] true true), .op aliceKey,
      .op (.deleteUser alice true true true), .op (.createUser alice [2] [] [] true true)] s ∧
    ¬ CredentialsSound plainLibraries s := by
  refine ⟨_, .cons trivial rfl (.cons trivial rfl (.cons trivial rfl (.cons trivial rfl
    (.nil _)))), fun h => ?_⟩
  have hissued := (h.keys (generateRandomAlphanumeric [0]) [7] 0 alice [] rfl).2
  cases hissued

/-- A user who deletes her key before she is deleted. -/
theorem key_deleted_first : ∃ s, Run (Session.step plainLibraries)
    (SessionEvent.Meets plainLibraries) .empty
    [.op (.createUser alice [1] [] [] true true), .op aliceKey, .restart,
      .op (.deleteApiKey alice (generateRandomAlphanumeric [0]) true),
      .op (.deleteUser alice true true true)] s ∧
    CredentialsSound plainLibraries s ∧ ErrorsChangeNothing plainLibraries s := by
  have hrun : ∃ s, Run (Session.step plainLibraries)
      (SessionEvent.Meets plainLibraries) .empty
      [.op (.createUser alice [1] [] [] true true), .op aliceKey, .restart,
        .op (.deleteApiKey alice (generateRandomAlphanumeric [0]) true),
        .op (.deleteUser alice true true true)] s := by
    refine ⟨_, .cons ?_ rfl (.cons ?_ rfl (.cons trivial rfl (.cons trivial rfl (.cons ?_ rfl
      (.nil _)))))⟩
    · intro _ _ _
      exact ⟨rfl, Or.inl rfl⟩
    · intro _ _
      decide
    · intro _ _ id record hrecord
      cases hrecord
  obtain ⟨s, hrun⟩ := hrun
  exact ⟨s, hrun, credentials_keep_to_users _ _ _ hrun⟩

end Antfly
