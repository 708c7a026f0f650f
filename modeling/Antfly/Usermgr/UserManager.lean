import Antfly.Usermgr.PolicyAdapter

/-!
The user manager keeps password hashes, API keys and, in the permission engine, the rules of all
users in memory, and writes each change to its store.  An operation makes up to three writes; each
of them may fail, and what the writes before it did stays.  A new user manager is loaded from the
store.

Names and fields reach the store as JSON text, and rules are read back as one comma-separated
record.
-/

namespace Antfly

structure Permission where
  resource : Bytes
  resourceType : Bytes
  type : Bytes
  deriving DecidableEq

structure UserPasswordInfo where
  username : Bytes
  passwordHash : Bytes
  deriving DecidableEq

/-- `expiresAt` is missing for a key that never expires. -/
structure ApiKeyRecord where
  keyID : Bytes
  secretHash : Bytes
  secretSalt : Bytes
  username : Bytes
  name : Bytes
  permissions : List Permission
  createdAt : ℕ
  expiresAt : Option ℕ
  deriving DecidableEq

/-- The libraries of the user manager: `text` is a string after it has been written as JSON and
read, `readRecord` reads one line of comma-separated values. -/
structure UserLibraries where
  text : Bytes → Bytes
  readRecord : Bytes → Option (List Bytes)
  generateFromPassword : Bytes → Bytes → Option Bytes
  compareHashAndPassword : Bytes → Bytes → Bool
  sha256 : Bytes → Bytes
  encodeSecret : Bytes → Bytes
  decodeSecret : Bytes → Option Bytes
  /-- JSON keeps ASCII text. -/
  text_ascii : ∀ b : Bytes, (∀ c ∈ b, c < 128) → text b = b

/-- The stored records, under the names and ids that follow the prefixes of their keys. -/
structure UserStore where
  passwords : OrdMap Bytes UserPasswordInfo
  apiKeys : OrdMap Bytes ApiKeyRecord
  policies : PolicyStore

/-- `policies` are the rules that the permission engine holds. -/
structure UserManager where
  passwordHashes : OrdMap Bytes Bytes
  apiKeys : OrdMap Bytes ApiKeyRecord
  policies : List (List Bytes)

structure UserSystem where
  manager : UserManager
  store : UserStore

def UserSystem.empty : UserSystem := ⟨⟨.empty, .empty, []⟩, ⟨.empty, .empty, ⟨.empty⟩⟩⟩

inductive UserError where
  | userExists
  | userNotFound
  | invalidPassword
  | roleNotFound
  | apiKeyNotFound
  | apiKeyExpired
  | apiKeyInvalid
  | privilegeEscalation (perm : Permission)
  | hashing
  | saving
  | rules
  deriving DecidableEq

/-- The type of the rules, `p`. -/
def policyType : Bytes := ascii ['p']

/-- The type of role memberships, `g`; none is ever added. -/
def groupingType : Bytes := ascii ['g']

def wildcard : Bytes := ascii ['*']

/-- The matcher of the permission model, without role memberships. -/
def ruleMatches (sub typ obj act : Bytes) : List Bytes → Bool
  | [psub, ptyp, pobj, pact] =>
    decide (sub = psub) && (decide (typ = ptyp) || decide (ptyp = wildcard)) &&
      (decide (obj = pobj) || decide (pobj = wildcard)) &&
      (decide (act = pact) || decide (pact = wildcard))
  | _ => false

/-- The engine's test of a filtered removal; an empty value matches every field. -/
def fieldsMatch (fieldIndex : ℕ) (fieldValues rule : List Bytes) : Bool :=
  ((rule.drop fieldIndex).zip fieldValues).all fun e => decide (e.2 = []) || decide (e.1 = e.2)

def addPolicy (policies : List (List Bytes)) (rule : List Bytes) : List (List Bytes) :=
  if rule ∈ policies then policies else policies ++ [rule]

namespace UserSystem

variable (s : UserSystem)

/-- `AddPolicies` of the engine adds all rules or, when it has one of them, none. -/
def addPolicies (rules : List (List Bytes)) (saved : Bool) : Option UserSystem :=
  if rules.any fun rule => decide (rule ∈ s.manager.policies) then some s
  else if !saved then none
  else some {
    manager := { s.manager with policies := rules.foldl addPolicy s.manager.policies }
    store := { s.store with policies := s.store.policies.addPolicies policyType rules } }

/-- `RemoveFilteredPolicy` of the engine, and whether it removed a rule. -/
def removeFilteredPolicy (fieldIndex : ℕ) (fieldValues : List Bytes) (saved : Bool) :
    Option (Bool × UserSystem) :=
  if !saved then none
  else some (s.manager.policies.any (fieldsMatch fieldIndex fieldValues), {
    manager := { s.manager with
      policies := s.manager.policies.filter fun r => !fieldsMatch fieldIndex fieldValues r }
    store := { s.store with
      policies := s.store.policies.removeFilteredPolicy policyType fieldIndex fieldValues } })

/-- `RemoveFilteredGroupingPolicy` of the engine, which holds no role memberships. -/
def removeFilteredGroupingPolicy (fieldIndex : ℕ) (fieldValues : List Bytes) (saved : Bool) :
    Option (Bool × UserSystem) :=
  if !saved then none
  else some (false, { s with store := { s.store with
      policies := s.store.policies.removeFilteredPolicy groupingType fieldIndex fieldValues } })

def saveUserPasswordInfo (info : UserPasswordInfo) (saved : Bool) : Option UserSystem :=
  if saved then some { s with
    store := { s.store with passwords := s.store.passwords.insert info.username info } }
  else none

def setPasswordHash (username hash : Bytes) : UserSystem :=
  { s with manager := { s.manager with
    passwordHashes := s.manager.passwordHashes.insert username hash } }

end UserSystem

namespace Permission

/-- The rule that gives the permission to a user. -/
def rule (perm : Permission) (username : Bytes) : List Bytes :=
  [username, perm.resourceType, perm.resource, perm.type]

end Permission

def UserManager.enforce (m : UserManager) (username resourceType resource permissionType : Bytes) :
    Except UserError Bool :=
  if (m.passwordHashes.get? username).isNone then .error .userNotFound
  else .ok (m.policies.any (ruleMatches username resourceType resource permissionType))

namespace UserSystem

variable (lib : UserLibraries) (s : UserSystem)

def createUser (username password salt : Bytes) (initialPolicies : List Permission)
    (saved rulesSaved : Bool) : Except UserError Unit × UserSystem :=
  if (s.manager.passwordHashes.get? username).isSome then (.error .userExists, s)
  else match lib.generateFromPassword password salt with
    | none => (.error .hashing, s)
    | some hash =>
      match s.saveUserPasswordInfo ⟨username, hash⟩ saved with
      | none => (.error .saving, s)
      | some s =>
        let s := s.setPasswordHash username hash
        if initialPolicies.isEmpty then (.ok (), s)
        else match s.addPolicies (initialPolicies.map fun p => p.rule username) rulesSaved with
          | none => (.error .rules, s)
          | some s => (.ok (), s)

def authenticateUser (username password : Bytes) : Except UserError Unit :=
  match s.manager.passwordHashes.get? username with
  | none => .error .userNotFound
  | some hash =>
    if lib.compareHashAndPassword hash password then .ok () else .error .invalidPassword

def addPermissionToUser (username : Bytes) (perm : Permission) (saved : Bool) :
    Except UserError Unit × UserSystem :=
  if (s.manager.passwordHashes.get? username).isNone then (.error .userNotFound, s)
  else match s.addPolicies [perm.rule username] saved with
    | none => (.error .rules, s)
    | some s => (.ok (), s)

/-- The filter of `RemovePermissionFromUser`. -/
def permissionFilter (username resourceName resourceType : Bytes) : List Bytes :=
  if resourceName = wildcard then [username, resourceType]
  else [username, resourceType, resourceName]

def removePermissionFromUser (username resourceName resourceType : Bytes) (saved : Bool) :
    Except UserError Unit × UserSystem :=
  if (s.manager.passwordHashes.get? username).isNone then (.error .userNotFound, s)
  else
    let fieldValues := permissionFilter username resourceName resourceType
    match s.removeFilteredPolicy 0 fieldValues saved with
    | none => (.error .rules, s)
    | some (foundAndRemoved, s) =>
      if foundAndRemoved then (.ok (), s) else (.error .roleNotFound, s)

/-- `DeleteUser`; that rules could not be removed is only printed. -/
def deleteUser (username : Bytes) (saved rulesSaved groupsSaved : Bool) :
    Except UserError Unit × UserSystem :=
  if (s.manager.passwordHashes.get? username).isNone then (.error .userNotFound, s)
  else if !saved then (.error .saving, s)
  else
    let s : UserSystem := {
      manager := { s.manager with
        passwordHashes := s.manager.passwordHashes.erase username }
      store := { s.store with passwords := s.store.passwords.erase username } }
    let s := ((s.removeFilteredPolicy 0 [username] rulesSaved).map Prod.snd).getD s
    (.ok (), ((s.removeFilteredGroupingPolicy 0 [username] groupsSaved).map Prod.snd).getD s)

def updatePassword (username newPassword salt : Bytes) (saved : Bool) :
    Except UserError Unit × UserSystem :=
  if (s.manager.passwordHashes.get? username).isNone then (.error .userNotFound, s)
  else match lib.generateFromPassword newPassword salt with
    | none => (.error .hashing, s)
    | some hash =>
      match s.saveUserPasswordInfo ⟨username, hash⟩ saved with
      | none => (.error .saving, s)
      | some s => (.ok (), s.setPasswordHash username hash)

end UserSystem

def alphanumeric : Bytes :=
  ascii ['a', 'b', 'c', 'd', 'e', 'f', 'g', 'h', 'i', 'j', 'k', 'l', 'm', 'n', 'o', 'p', 'q', 'r',
    's', 't', 'u', 'v', 'w', 'x', 'y', 'z', 'A', 'B', 'C', 'D', 'E', 'F', 'G', 'H', 'I', 'J', 'K',
    'L', 'M', 'N', 'O', 'P', 'Q', 'R', 'S', 'T', 'U', 'V', 'W', 'X', 'Y', 'Z', '0', '1', '2', '3',
    '4', '5', '6', '7', '8', '9']

/-- `generateRandomAlphanumeric` of the random bytes it reads. -/
def generateRandomAlphanumeric (random : Bytes) : Bytes :=
  random.map fun b => alphanumeric.getD (b.toNat % alphanumeric.length) 0

def hashApiKeySecret (lib : UserLibraries) (salt secretRaw : Bytes) : Bytes :=
  lib.sha256 (salt ++ secretRaw)

/-- What `CreateApiKey` reads from its random source and its clock. -/
structure KeyMaterial where
  id : Bytes
  secret : Bytes
  salt : Bytes
  now : ℕ

namespace UserSystem

variable (lib : UserLibraries) (s : UserSystem)

/-- The first permission that the owner of a new key does not hold. -/
def escalated (username : Bytes) (permissions : List Permission) : Option Permission :=
  permissions.find? fun p =>
    !s.manager.policies.any (ruleMatches username p.resourceType p.resource p.type)

def createApiKey (username name : Bytes) (permissions : List Permission) (expiresAt : Option ℕ)
    (material : KeyMaterial) (saved : Bool) : Except UserError (Bytes × Bytes) × UserSystem :=
  if (s.manager.passwordHashes.get? username).isNone then (.error .userNotFound, s)
  else match s.escalated username permissions with
    | some perm => (.error (.privilegeEscalation perm), s)
    | none =>
      let keyID := generateRandomAlphanumeric material.id
      let record : ApiKeyRecord := {
        keyID := keyID
        secretHash := hashApiKeySecret lib material.salt material.secret
        secretSalt := material.salt
        username := username
        name := name
        permissions := permissions
        createdAt := material.now
        expiresAt := expiresAt }
      if !saved then (.error .saving, s)
      else (.ok (keyID, lib.encodeSecret material.secret), {
        manager := { s.manager with apiKeys := s.manager.apiKeys.insert keyID record }
        store := { s.store with apiKeys := s.store.apiKeys.insert keyID record } })

def validateApiKey (keyID keySecret : Bytes) (now : ℕ) :
    Except UserError (Bytes × List Permission) :=
  match s.manager.apiKeys.get? keyID with
  | none => .error .apiKeyNotFound
  | some record =>
    match lib.decodeSecret keySecret with
    | none => .error .apiKeyInvalid
    | some secretRaw =>
      if hashApiKeySecret lib record.secretSalt secretRaw ≠ record.secretHash then
        .error .apiKeyInvalid
      else if record.expiresAt.any fun t => decide (t < now) then .error .apiKeyExpired
      else .ok (record.username, record.permissions)

def deleteApiKey (username keyID : Bytes) (saved : Bool) : Except UserError Unit × UserSystem :=
  match s.manager.apiKeys.get? keyID with
  | none => (.error .apiKeyNotFound, s)
  | some record =>
    if record.username ≠ username then (.error .apiKeyNotFound, s)
    else if !saved then (.error .saving, s)
    else (.ok (), {
      manager := { s.manager with apiKeys := s.manager.apiKeys.erase keyID }
      store := { s.store with apiKeys := s.store.apiKeys.erase keyID } })

end UserSystem

namespace CasbinRule

/-- The rule as it is read from its stored JSON. -/
def reread (lib : UserLibraries) (r : CasbinRule) : CasbinRule where
  key := lib.text r.key
  pType := lib.text r.pType
  v0 := lib.text r.v0
  v1 := lib.text r.v1
  v2 := lib.text r.v2
  v3 := lib.text r.v3
  v4 := lib.text r.v4
  v5 := lib.text r.v5

end CasbinRule

def Permission.reread (lib : UserLibraries) (p : Permission) : Permission where
  resource := lib.text p.resource
  resourceType := lib.text p.resourceType
  type := lib.text p.type

def ApiKeyRecord.reread (lib : UserLibraries) (r : ApiKeyRecord) : ApiKeyRecord :=
  { r with
    keyID := lib.text r.keyID
    username := lib.text r.username
    name := lib.text r.name
    permissions := r.permissions.map (Permission.reread lib) }

/-- The engine reads one line; a rule has four fields, and one it holds already is skipped.  Lines
of another type than `p` are not stored. -/
def loadPolicyLine (lib : UserLibraries) (policies : List (List Bytes)) (line : Bytes) :
    Option (List (List Bytes)) :=
  match lib.readRecord line with
  | some (ptype :: rule) =>
    if ptype = policyType ∧ rule.length = 4 then some (addPolicy policies rule) else none
  | _ => none

/-- `~`, the upper bound of the loaded names and ids. -/
def loadBound : Bytes := ascii ['~']

namespace UserStore

variable (lib : UserLibraries) (st : UserStore)

def loadPolicies : Option (List (List Bytes)) :=
  st.policies.rules.entries.foldlM
    (fun policies e => loadPolicyLine lib policies (policyLine (e.2.reread lib))) []

def loadUserPasswordHashes : OrdMap Bytes Bytes :=
  (st.passwords.scan [] loadBound).foldl
    (fun m e => m.insert (lib.text e.2.username) e.2.passwordHash) .empty

def loadApiKeys : OrdMap Bytes ApiKeyRecord :=
  (st.apiKeys.scan [] loadBound).foldl
    (fun m e => m.insert (e.2.reread lib).keyID (e.2.reread lib)) .empty

def newUserManager : Option UserManager :=
  (st.loadPolicies lib).map fun policies =>
    ⟨st.loadUserPasswordHashes lib, st.loadApiKeys lib, policies⟩

end UserStore

/-- An operation with what the libraries give it, and which of its writes succeed. -/
inductive UserOp where
  | createUser (username password salt : Bytes) (initialPolicies : List Permission)
      (saved rulesSaved : Bool)
  | deleteUser (username : Bytes) (saved rulesSaved groupsSaved : Bool)
  | addPermission (username : Bytes) (perm : Permission) (saved : Bool)
  | removePermission (username resourceName resourceType : Bytes) (saved : Bool)
  | updatePassword (username newPassword salt : Bytes) (saved : Bool)
  | createApiKey (username name : Bytes) (permissions : List Permission) (expiresAt : Option ℕ)
      (material : KeyMaterial) (saved : Bool)
  | deleteApiKey (username keyID : Bytes) (saved : Bool)

/-- The error of the operation, if any, and what it leaves. -/
def UserSystem.apply (lib : UserLibraries) (s : UserSystem) :
    UserOp → Except UserError Unit × UserSystem
  | .createUser username password salt initialPolicies saved rulesSaved =>
    s.createUser lib username password salt initialPolicies saved rulesSaved
  | .deleteUser username saved rulesSaved groupsSaved =>
    s.deleteUser username saved rulesSaved groupsSaved
  | .addPermission username perm saved => s.addPermissionToUser username perm saved
  | .removePermission username resourceName resourceType saved =>
    s.removePermissionFromUser username resourceName resourceType saved
  | .updatePassword username newPassword salt saved =>
    s.updatePassword lib username newPassword salt saved
  | .createApiKey username name permissions expiresAt material saved =>
    let r := s.createApiKey lib username name permissions expiresAt material saved
    (r.1.map fun _ => (), r.2)
  | .deleteApiKey username keyID saved => s.deleteApiKey username keyID saved

end Antfly
