import Antfly.Indexes.GraphIndex

/-!
An edge type may name a field of the documents; the targets in that field become edges of the
document.  On the leader the enricher of the graph index reconciles them with the store: under a
marker of its own each edge type of a document keeps the hash of the targets it was last given, and
when the hash is another the old edges are deleted and the new ones written.

The hash function is a library.
-/

namespace Antfly.Indexes

structure FieldEdgeType extends EdgeTypeConfig where
  field : Bytes

/-- What the caller of a persisted batch sees: a batch that was proposed may be applied although an
error comes back. -/
inductive Persisted where
  | done
  | lost
  | refused
  deriving DecidableEq

/-- A batch the enricher persists: the tombstones of old edges, or the edges to the targets and the
marker. -/
inductive EdgeBatch where
  | deletes (edgeType : Bytes) (edgeKeys : List Bytes)
  | writes (edgeType : Bytes) (targets : List Bytes)

structure GraphEnricher where
  hash : Bytes → UInt64
  name : Bytes
  edgeTypes : List FieldEdgeType

/-- `toStringSlice`, for the values the JSON decoder returns. -/
def toStringSlice : Json → List Bytes
  | .str s => [s]
  | .arr items => items.filterMap fun item =>
    match item with
    | .str s => some s
    | _ => none
  | _ => []

/-- `fmt.Sprint` of a slice of strings. -/
def sprint (targets : List Bytes) : Bytes :=
  ascii ['['] ++ (targets.intersperse (ascii [' '])).flatten ++ ascii [']']

/-- `<docKey>:i:<graphName>:<edgeType>:fh`. -/
def makeFieldHashKey (docKey graphName edgeType : Bytes) : Bytes :=
  docKey ++ indexMarker ++ graphName ++ ascii [':'] ++ edgeType ++ fieldHashSuffix

/-- The stores of the shard and of the index, the batches that were passed on with what became of
them, and what becomes of the next ones; without an entry a batch is applied. -/
structure EnricherState where
  db : OrdMap Bytes Bytes
  indexDB : OrdMap Bytes Bytes
  persisted : List (EdgeBatch × Persisted)
  outcomes : List Persisted

namespace GraphEnricher

variable (g : GraphEnricher) (docKey : Bytes) (edgeValue : Bytes)

def fieldEdgeTypes : List FieldEdgeType := g.edgeTypes.filter fun et => et.field ≠ []

def fieldHash (targets : List Bytes) : UInt64 := g.hash (sprint targets)

/-- The edits of a batch; every new edge has the same value. -/
def edits : EdgeBatch → List (OrdMap.Edit Bytes Bytes)
  | .deletes _ edgeKeys =>
    edgeKeys.map fun k => .deleteRange k (prefixSuccessor (keyRangeEnd k))
  | .writes edgeType targets =>
    (targets.filter fun target => target ≠ []).map
        (fun target => .set (makeEdgeKey docKey target g.name edgeType) edgeValue) ++
      [.set (makeFieldHashKey docKey g.name edgeType)
        (encodeUint64Ascending (g.fieldHash targets).toNat)]

/-- `persistFunc`, and whether it returned without an error. -/
def persistFunc (s : EnricherState) (batch : EdgeBatch) : EnricherState × Bool :=
  let outcome := s.outcomes.headD .done
  ({ s with
      db := if outcome = .refused then s.db else s.db.applyAll (g.edits docKey edgeValue batch)
      persisted := s.persisted ++ [(batch, outcome)]
      outcomes := s.outcomes.tail },
    outcome = .done)

def edgeKeys (db : OrdMap Bytes Bytes) (edgeType : Bytes) : List Bytes :=
  let edgePrefix := edgeIteratorPrefix docKey g.name edgeType
  (db.scan edgePrefix (prefixSuccessor edgePrefix)).map Prod.fst

/-- Takes the edges out of the reverse index. -/
def removeFromEdgeIndex (indexDB : OrdMap Bytes Bytes) (edgeKeys : List Bytes) :
    OrdMap Bytes Bytes :=
  indexDB.applyAll ((edgeKeys.filterMap parseEdgeKey).map fun edge =>
    .delete (makeEdgeIndexKey g.name edge.target edge.source edge.edgeType))

/-- Whether the marker has the hash of the targets. -/
def unchanged (db : OrdMap Bytes Bytes) (edgeType : Bytes) (targets : List Bytes) : Bool :=
  (db.get? (makeFieldHashKey docKey g.name edgeType)).bind decodeUint64Ascending =
    some (g.fieldHash targets).toNat

/-- One edge type; a field the document does not have is skipped. -/
def reconcileFieldEdge (s : EnricherState) (doc : Obj) (et : FieldEdgeType) :
    EnricherState × Bool :=
  match doc.get? et.field with
  | none => (s, true)
  | some fieldValue =>
    let desiredTargets := toStringSlice fieldValue
    if g.unchanged docKey s.db et.name desiredTargets then (s, true)
    else
      let edgeKeysToDelete := g.edgeKeys docKey s.db et.name
      let s := { s with indexDB := g.removeFromEdgeIndex s.indexDB edgeKeysToDelete }
      let (s, ok) :=
        if edgeKeysToDelete = [] then (s, true)
        else g.persistFunc docKey edgeValue s (.deletes et.name edgeKeysToDelete)
      if ok then g.persistFunc docKey edgeValue s (.writes et.name desiredTargets) else (s, false)

/-- The edge types one after the other, up to the first error. -/
def reconcileEdgeTypes (doc : Obj) : List FieldEdgeType → EnricherState → EnricherState × Bool
  | [], s => (s, true)
  | et :: rest, s =>
    let (s, ok) := g.reconcileFieldEdge docKey edgeValue s doc et
    if ok then reconcileEdgeTypes doc rest s else (s, false)

def reconcileFieldEdges (s : EnricherState) (doc : Obj) : EnricherState × Bool :=
  g.reconcileEdgeTypes docKey edgeValue doc g.fieldEdgeTypes s

end GraphEnricher

/-- The stores, the batches persisted since the document was last deleted, the version of the last
reconciliation if it succeeded, and the store before it. -/
structure FieldState where
  db : OrdMap Bytes Bytes
  indexDB : OrdMap Bytes Bytes
  persisted : List (EdgeBatch × Persisted)
  latest : Option Obj
  before : OrdMap Bytes Bytes

/-- A version of the document is reconciled, the document is deleted, or something else changes the
store. -/
inductive FieldEvent where
  | reconcile (doc : Obj) (edgeValue : Bytes) (outcomes : List Persisted)
  | delete
  | edit (edits : List (OrdMap.Edit Bytes Bytes))

namespace FieldState

def start : FieldState := ⟨.empty, .empty, [], none, .empty⟩

def step (g : GraphEnricher) (docKey : Bytes) (s : FieldState) : FieldEvent → Option FieldState
  | .reconcile doc edgeValue outcomes =>
    let (r, ok) := g.reconcileFieldEdges docKey edgeValue
      ⟨s.db, s.indexDB, s.persisted, outcomes⟩ doc
    some ⟨r.db, r.indexDB, r.persisted, if ok then some doc else none, s.db⟩
  | .delete =>
    let db := s.db.applyAll [.deleteRange docKey (prefixSuccessor (keyRangeEnd docKey))]
    some { s with db := db, persisted := [], latest := none, before := db }
  | .edit edits =>
    let db := s.db.applyAll edits
    some { s with db := db, before := db }

end FieldState

end Antfly.Indexes
