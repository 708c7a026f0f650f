import Antfly.Bytes
import Antfly.Lib.OrdMap

/-!
Every rule of the permission engine is stored under its type and its fields, joined by `::`.
Filtered removals do not compare fields: they take the fields before the first filtered one off
the key and look for the filter in what is left.  A rule is read back as one record of the fields
that are not empty, joined by a comma.
-/

namespace Antfly

structure CasbinRule where
  key : Bytes
  pType : Bytes
  v0 : Bytes
  v1 : Bytes
  v2 : Bytes
  v3 : Bytes
  v4 : Bytes
  v5 : Bytes
  deriving DecidableEq

def ruleSeparator : Bytes := ascii [':', ':']

namespace CasbinRule

def fields (rule : CasbinRule) : List Bytes :=
  [rule.v0, rule.v1, rule.v2, rule.v3, rule.v4, rule.v5]

def nonemptyFields (rule : CasbinRule) : List Bytes := rule.fields.filter fun v => !v.isEmpty

end CasbinRule

def convertRule (ptype : Bytes) (line : List Bytes) : CasbinRule where
  key := ruleSeparator.intercalate (ptype :: line.take 6)
  pType := ptype
  v0 := line.getD 0 []
  v1 := line.getD 1 []
  v2 := line.getD 2 []
  v3 := line.getD 3 []
  v4 := line.getD 4 []
  v5 := line.getD 5 []

/-- The rule with the filter values in the fields from `fieldIndex` on. -/
def ruleFromFieldValues (ptype : Bytes) (fieldIndex : ℕ) (fieldValues : List Bytes) : CasbinRule :=
  let field := fun i => if fieldIndex ≤ i then fieldValues.getD (i - fieldIndex) [] else []
  { key := [], pType := ptype, v0 := field 0, v1 := field 1, v2 := field 2, v3 := field 3,
    v4 := field 4, v5 := field 5 }

def buildFilter (rule : CasbinRule) : Bytes := ruleSeparator.intercalate rule.nonemptyFields

/-- What follows the first separator. -/
def afterSeparator : Bytes → Option Bytes
  | a :: b :: rest =>
    if a = 58 ∧ b = 58 then some rest else afterSeparator (b :: rest)
  | _ => none

/-- The key without its first `n` fields. -/
def dropFields : ℕ → Bytes → Option Bytes
  | 0, key => some key
  | n + 1, key => (afterSeparator key).bind (dropFields n)

/-- Whether a filtered iteration skips a key: only keys of the type, with enough fields, are
skipped, when what is left does not contain the filter. -/
def skipPoint (rule : CasbinRule) (fieldIndex : ℕ) (filterPrefix key : Bytes) : Bool :=
  if !hasPrefix key rule.pType then false
  else match dropFields (fieldIndex + 1) key with
    | none => false
    | some rest => !contains rest filterPrefix

/-- Whether `RemoveFilteredPolicy` deletes the rule stored under `key`. -/
def removesFiltered (ptype : Bytes) (fieldIndex : ℕ) (fieldValues : List Bytes) (key : Bytes) :
    Bool :=
  let rule := ruleFromFieldValues ptype fieldIndex fieldValues
  !skipPoint rule fieldIndex (buildFilter rule) key

/-- The line that `loadPolicy` hands to the engine. -/
def policyLine (rule : CasbinRule) : Bytes :=
  (ascii [',', ' ']).intercalate (rule.pType :: rule.nonemptyFields)

/-- The stored rules, by their keys; all keys have one prefix in front and are below its upper
bound. -/
structure PolicyStore where
  rules : OrdMap Bytes CasbinRule

namespace PolicyStore

def addPolicies (st : PolicyStore) (ptype : Bytes) (lines : List (List Bytes)) : PolicyStore where
  rules := lines.foldl
    (fun rules line => rules.insert (convertRule ptype line).key (convertRule ptype line)) st.rules

def removeFilteredPolicy (st : PolicyStore) (ptype : Bytes) (fieldIndex : ℕ)
    (fieldValues : List Bytes) : PolicyStore where
  rules := st.rules.filter fun key => !removesFiltered ptype fieldIndex fieldValues key

end PolicyStore

end Antfly
