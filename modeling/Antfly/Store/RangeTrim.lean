import Antfly.Store.Routing
import Antfly.Store.StoreDB

/-!
Trims are byte-range tombstones computed from the ends of a range.  The documents of a shard, its
metadata, its transaction records and its intents share one key space, in which everything but the
documents starts with two zero bytes.  A tombstone that ends at the start of a range therefore
covers the records and intents as soon as the start lies above them; an empty end is the least key
and not the greatest; and a document belongs to a range with its body key, while its other keys may
lie behind the end of the range.
-/

namespace Antfly

open OrdMap

def IsTxnKey (x : Bytes) : Prop := txnRecordsPrefix <+: x ∨ txnIntentsPrefix <+: x

/-- The keys a shard keeps for itself. -/
def IsSystemKey (x : Bytes) : Prop := metadataPrefix <+: x ∨ IsTxnKey x

/-- The keys stored for the document `id`: its body and timestamp continue the id by `:\x00`, its
enrichments, chunks and edges by `:i:`. -/
def StoredFor (id x : Bytes) : Prop := keyRangeStart id <+: x ∨ id ++ indexMarker <+: x

namespace StoredFor

variable {id x : Bytes}

/-- The body is the first of the keys of a document. -/
theorem le (h : StoredFor id x) : keyRangeStart id ≤ x := by
  rcases h with h | ⟨t, rfl⟩
  · exact Lex.le_of_prefix h
  · rw [keyRangeStart, List.append_assoc, Lex.append_le_append_left]
    exact le_trans (by decide) (Lex.le_append indexMarker t)

end StoredFor

variable {x : Bytes}

theorem IsSystemKey.lt_sentinel (h : IsSystemKey x) : x < rangeEndSentinel := by
  have hcons : ∃ t, x = 0 :: t := by
    rcases h with ⟨t, rfl⟩ | ⟨t, rfl⟩ | ⟨t, rfl⟩ <;> exact ⟨_, rfl⟩
  obtain ⟨t, rfl⟩ := hcons
  exact List.Lex.rel (by decide)

theorem lt_metadataEnd (h : metadataPrefix <+: x) : x < prefixSuccessor metadataPrefix :=
  lt_prefixSuccessor (by decide) h

/-- The records and intents lie above the metadata, where the first tombstone of a trim starts. -/
theorem IsTxnKey.metadataEnd_le (h : IsTxnKey x) : prefixSuccessor metadataPrefix ≤ x := by
  rcases h with h | h
  · exact le_trans (by decide) (Lex.le_of_prefix h)
  · exact le_trans (by decide) (Lex.le_of_prefix h)

theorem IsTxnKey.not_saved (h : IsTxnKey x) : ¬ DBImpl.IsSavedKey x := by
  intro hx
  simp only [DBImpl.IsSavedKey, List.mem_cons, List.not_mem_nil, or_false] at hx
  rcases hx with rfl | rfl | rfl | rfl <;> rcases h with h | h <;> revert h <;> decide

inductive RangeOp where
  | finalizeSplit (newRange : Range)
  | updateRange (newRange : Range)
  | setRange (newRange : Range)
  | deleteDataRange (dropped : Range)

namespace RangeOp

def run (db : DBImpl) : RangeOp → DBImpl
  | finalizeSplit newRange => db.finalizeSplit newRange
  | updateRange newRange => db.updateRange newRange
  | setRange newRange => db.setRange newRange
  | deleteDataRange dropped => db.deleteDataRange dropped

/-- Whether the document `id` stays: a shard holds the documents whose body key is in its range. -/
def keeps : RangeOp → Bytes → Bool
  | finalizeSplit newRange, id | updateRange newRange, id | setRange newRange, id =>
    newRange.contains (keyRangeStart id)
  | deleteDataRange dropped, id => !dropped.contains (keyRangeStart id)

/-- The range record afterwards: the new range, or the old record where no range is set. -/
def rangeRecord (db : DBImpl) : RangeOp → Option Stored
  | finalizeSplit newRange | updateRange newRange | setRange newRange =>
    some (.byteRange newRange)
  | deleteDataRange _ => db.get? byteRangeKey

end RangeOp

/-- The operation deletes the keys of the documents outside the kept range and of no other, leaves
every record of the shard's own alone, and sets the range record. -/
structure FramesRange (db : DBImpl) (op : RangeOp) : Prop where
  documents : ∀ id x, ¬ IsSystemKey x → StoredFor id x →
    (op.run db).get? x = if op.keeps id then db.get? x else none
  system : ∀ x, IsSystemKey x → x ≠ byteRangeKey → (op.run db).get? x = db.get? x
  range : (op.run db).get? byteRangeKey = op.rangeRecord db

/-- The keys a trim to `[start, stop)` deletes. -/
def Trimmed (start stop x : Bytes) : Prop :=
  (prefixSuccessor metadataPrefix ≤ x ∧ x < start) ∨ (stop ≤ x ∧ x < rangeEndSentinel)

instance decidableTrimmed (start stop x : Bytes) : Decidable (Trimmed start stop x) :=
  inferInstanceAs (Decidable (_ ∨ _))

namespace DBImpl

variable (db : DBImpl)

theorem lastEffect_trimOps (start stop x : Bytes) :
    OrdMap.lastEffect (trimOps start stop) x =
      if Trimmed start stop x then some none else none := by
  simp only [trimOps, lastEffect_cons, lastEffect_nil, OrdMap.Edit.effect,
    Option.none_or, Trimmed]
  by_cases hstop : stop ≤ x ∧ x < rangeEndSentinel
  · simp [hstop]
  · simp [hstop]

theorem get?_setThenTrim (r : Range) (start stop x : Bytes) :
    (db.applyOps (.set byteRangeKey (.byteRange r) :: trimOps start stop)).get? x =
      if Trimmed start stop x then none
      else if x = byteRangeKey then some (.byteRange r) else db.get? x := by
  rw [get?_applyOps, lastEffect_cons, lastEffect_trimOps, OrdMap.Edit.effect]
  by_cases htrim : Trimmed start stop x
  · rw [if_pos htrim, if_pos htrim]
    rfl
  · rw [if_neg htrim, if_neg htrim]
    by_cases hx : x = byteRangeKey
    · rw [if_pos hx, if_pos hx]
      rfl
    · rw [if_neg hx, if_neg hx]
      rfl

theorem finalizeSplit_get? (r : Range) (x : Bytes) :
    (db.finalizeSplit r).get? x =
      if Trimmed r.start r.stop x then none
      else if x = byteRangeKey then some (.byteRange r) else db.get? x :=
  db.get?_setThenTrim r r.start r.stop x

/-- What the opening at the end of `UpdateRange` saves under a key: the indexes are loaded first when
there is neither a schema nor a bound, and nothing is trimmed then. -/
def resaved (r : Range) (x : Bytes) : Option Stored :=
  metadataRecord { db with
    byteRange := r
    indexes := if loadsMetadata db.schema r then db.storedIndexes.getD db.indexes
      else db.indexes } x

theorem isSavedKey_of_resaved {db : DBImpl} {r : Range} {x : Bytes}
    (h : (db.resaved r x).isSome = true) : IsSavedKey x := by
  by_contra hx
  simp only [IsSavedKey, List.mem_cons, List.not_mem_nil, or_false, not_or] at hx
  rw [resaved, metadataRecord, if_neg hx.1, if_neg hx.2.1, if_neg hx.2.2.1, if_neg hx.2.2.2] at h
  cases h

theorem isSystemKey_of_resaved {db : DBImpl} {r : Range} {x : Bytes}
    (h : (db.resaved r x).isSome = true) : IsSystemKey x :=
  .inl (isSavedKey_of_resaved h).metadata

theorem eq_unbounded_of_not_given {r : Range} (h : rangeGiven r = false) : r = ⟨[], []⟩ := by
  obtain ⟨_ | ⟨a, lo⟩, _ | ⟨b, hi⟩⟩ := r <;> first | rfl | cases h

/-- The metadata is saved again when the store is reopened, so that the tombstones do not reach
it. -/
theorem updateRange_get? (r : Range) (x : Bytes) :
    (db.updateRange r).get? x =
      (db.resaved r x).or (if Trimmed r.start r.endForPebble x then none else db.get? x) := by
  set trimmed := (db.applyOps (.set byteRangeKey (.byteRange r) ::
    trimOps r.start r.endForPebble)).setByteRange r with htrimmed
  have hget : ∀ y, trimmed.get? y = if Trimmed r.start r.endForPebble y then none
      else if y = byteRangeKey then some (.byteRange r) else db.get? y :=
    db.get?_setThenTrim r r.start r.endForPebble
  have hother : ∀ y, y ≠ byteRangeKey → trimmed.get? y =
      if Trimmed r.start r.endForPebble y then none else db.get? y := by
    intro y hy
    rw [hget, if_neg hy]
  -- Without a bound nothing is trimmed, so that what is loaded is what was stored.
  have huntrimmed : rangeGiven r = false → ∀ y, ¬ Trimmed r.start r.endForPebble y := by
    intro hgiven y htrim
    rw [eq_unbounded_of_not_given hgiven] at htrim
    rcases htrim with ⟨-, hlt⟩ | ⟨hle, hlt⟩
    · exact absurd hlt (not_lt.mpr (Lex.nil_le y))
    · exact absurd hlt (not_lt.mpr hle)
  have hindexes : loadsMetadata db.schema r = true → trimmed.storedIndexes = db.storedIndexes := by
    intro hloads
    have hgiven : rangeGiven r = false := by simpa using (Bool.and_eq_true_iff.mp hloads).2
    rw [storedIndexes, hother indexesKey (by decide), if_neg (huntrimmed hgiven _), storedIndexes]
  have hrange : (trimmed.openInternal db.schema r).byteRange = r := by
    rw [openInternal_byteRange]
    cases hgiven : rangeGiven r with
    | true => rfl
    | false =>
      have hstored : trimmed.storedByteRange = some r := by
        rw [storedByteRange, hget, if_neg (huntrimmed hgiven _), if_pos rfl]
      rw [hstored]
      change (if db.schema.isSome then r else r) = r
      exact ite_self r
  change (trimmed.openInternal db.schema r).get? x = _
  rw [openInternal_get?]
  unfold resaved metadataRecord
  dsimp only
  by_cases hversion : x = versionKey
  · rw [if_pos hversion, if_pos hversion]
    rfl
  rw [if_neg hversion, if_neg hversion]
  by_cases hschema : x = schemaKey
  · rw [if_pos hschema, if_pos hschema, openInternal_schema, hother x (by rw [hschema]; decide)]
    have hkept : trimmed.schema = db.schema := rfl
    rw [hkept]
    cases hdb : db.schema with
    | some json => rfl
    | none =>
      -- A schema that was loaded is saved as it was stored.
      have hsaved : (trimmed.storedSchema.map Stored.schema).or
          (if Trimmed r.start r.endForPebble x then none else db.get? x) =
          if Trimmed r.start r.endForPebble x then none else db.get? x := by
        rw [storedSchema, ← hother x (by rw [hschema]; decide), hschema]
        cases trimmed.get? schemaKey with
        | none => rfl
        | some v => cases v <;> rfl
      by_cases hloads : loadsMetadata none r = true
      · rw [if_pos hloads, Option.none_or, Option.or_none, hsaved]
        rfl
      · rw [if_neg hloads]
        rfl
  rw [if_neg hschema, if_neg hschema, hrange]
  by_cases hbr : x = byteRangeKey
  · rw [if_pos hbr, if_pos hbr]
    rfl
  rw [if_neg hbr, if_neg hbr, openInternal_indexes]
  by_cases hindex : x = indexesKey
  · rw [if_pos hindex, if_pos hindex]
    by_cases hloads : loadsMetadata db.schema r = true
    · rw [if_pos hloads, if_pos hloads, hindexes hloads]
      rfl
    · rw [if_neg hloads, if_neg hloads]
      rfl
  · rw [if_neg hindex, if_neg hindex, hother x hbr]

theorem setRange_get? (r : Range) (x : Bytes) :
    (db.setRange r).get? x = if x = byteRangeKey then some (.byteRange r) else db.get? x := by
  change (db.applyOps [.set byteRangeKey (.byteRange r)]).get? x = _
  rw [get?_applyOps, lastEffect_cons, lastEffect_nil, OrdMap.Edit.effect]
  by_cases hx : x = byteRangeKey
  · rw [if_pos hx, if_pos hx]
    rfl
  · rw [if_neg hx, if_neg hx]
    rfl

theorem deleteDataRange_get? (r : Range) (x : Bytes) :
    (db.deleteDataRange r).get? x =
      if r.start ≤ x ∧ x < r.endForPebble then none else db.get? x := by
  change (db.applyOps [.deleteRange r.start r.endForPebble]).get? x = _
  rw [get?_applyOps, lastEffect_cons, lastEffect_nil, OrdMap.Edit.effect]
  by_cases hx : r.start ≤ x ∧ x < r.endForPebble
  · rw [if_pos hx, if_pos hx]
    rfl
  · rw [if_neg hx, if_neg hx]
    rfl

end DBImpl

/-- The store holds a value at `x`. -/
def DBImpl.Holds (db : DBImpl) (x : Bytes) : Prop := db.get? x ≠ none

/-- Every record of the shard's own that is not saved again lies below `stop`, and the stored records
and intents of transactions do not lie below the range. -/
structure SystemInside (db : DBImpl) (saved : Bytes → Prop) (r : Range) (stop : Bytes) :
    Prop where
  transactions : ∀ x, db.Holds x → IsTxnKey x → r.start ≤ x
  belowStop : ∀ x, db.Holds x → IsSystemKey x → ¬ saved x → x < stop

/-- The records that are saved again beside the range are stored as they are saved: the version, and
the schema and the indexes in memory.  Every opening of the store and every change of them sees to
it. -/
def MetadataCurrent (db : DBImpl) (r : Range) : Prop :=
  ∀ x v, x ≠ byteRangeKey → db.resaved r x = some v → db.get? x = some v

/-- No stored key of a document is on the other side of a bound than its body: `stop` follows the
keys of the documents in the range, and the keys of the others lie inside the tombstones. -/
structure TrimsDocuments (db : DBImpl) (r : Range) (stop : Bytes) : Prop where
  inside : ∀ id x, db.Holds x → ¬ IsSystemKey x → StoredFor id x →
    r.contains (keyRangeStart id) = true → x < stop ∨ rangeEndSentinel ≤ x
  below : ∀ id x, db.Holds x → ¬ IsSystemKey x → StoredFor id x → keyRangeStart id < r.start →
    Trimmed r.start stop x
  above : ∀ id x, db.Holds x → ¬ IsSystemKey x → StoredFor id x → r.start ≤ keyRangeStart id →
    r.stop ≠ [] → r.stop ≤ keyRangeStart id → x < rangeEndSentinel

/-- The same for the single tombstone of `DeleteDataRange`. -/
structure DropsDocuments (db : DBImpl) (r : Range) : Prop where
  inside : ∀ id x, db.Holds x → ¬ IsSystemKey x → StoredFor id x →
    r.contains (keyRangeStart id) = true → x < r.endForPebble
  below : ∀ id x, db.Holds x → ¬ IsSystemKey x → StoredFor id x → keyRangeStart id < r.start →
    x < r.start ∨ r.endForPebble ≤ x

/-- Where the stored keys must lie for a range operation to have its frame. -/
def RangeSafe (db : DBImpl) : RangeOp → Prop
  | .finalizeSplit r => byteRangeKey < r.stop ∧ SystemInside db (· = byteRangeKey) r r.stop ∧
      TrimsDocuments db r r.stop
  | .updateRange r => MetadataCurrent db r ∧
      SystemInside db (fun x => (db.resaved r x).isSome) r r.endForPebble ∧
      TrimsDocuments db r r.endForPebble
  | .setRange r => ∀ id x, db.Holds x → ¬ IsSystemKey x → StoredFor id x →
      r.contains (keyRangeStart id) = true
  | .deleteDataRange r => (∀ x, db.Holds x → IsSystemKey x → x < r.start ∨ r.endForPebble ≤ x) ∧
      DropsDocuments db r

section Frame

variable {db db' : DBImpl} {D : Bytes → Prop} [DecidablePred D]

/-- An operation that deletes the keys of `D` deletes exactly the documents it should when `D`
separates their stored keys. -/
private theorem documents_iff (keeps : Bytes → Bool)
    (h : ∀ x, ¬ IsSystemKey x → db'.get? x = if D x then none else db.get? x) :
    (∀ id x, ¬ IsSystemKey x → StoredFor id x →
      db'.get? x = if keeps id then db.get? x else none) ↔
    ∀ id x, db.Holds x → ¬ IsSystemKey x → StoredFor id x → (D x ↔ keeps id = false) := by
  refine forall₂_congr fun id x => ?_
  constructor
  · intro hdoc hx hsys hfor
    have heq := (h x hsys).symm.trans (hdoc hsys hfor)
    cases hkeep : keeps id <;> by_cases hD : D x <;> simp_all [DBImpl.Holds]
  · intro hsep hsys hfor
    rw [h x hsys]
    by_cases hx : db.get? x = none
    · simp [hx]
    · have := hsep hx hsys hfor
      cases hkeep : keeps id <;> simp_all

private theorem system_iff {saved : Bytes → Prop}
    (h : ∀ x, IsSystemKey x → ¬ saved x → db'.get? x = if D x then none else db.get? x) :
    (∀ x, IsSystemKey x → ¬ saved x → db'.get? x = db.get? x) ↔
    ∀ x, db.Holds x → IsSystemKey x → ¬ saved x → ¬ D x := by
  refine forall_congr' fun x => ?_
  constructor
  · intro heq hx hsys hne hD
    have hgone := (heq hsys hne).symm.trans ((h x hsys hne).trans (if_pos hD))
    exact hx hgone
  · intro hnot hsys hne
    rw [h x hsys hne]
    by_cases hx : db.get? x = none
    · simp [hx]
    · rw [if_neg (hnot hx hsys hne)]

end Frame

theorem isSystemKey_byteRangeKey : IsSystemKey byteRangeKey := .inl (List.prefix_append _ _)

variable {db : DBImpl} {r : Range} {stop : Bytes}

/-- The tombstones of a trim spare the records of the shard's own exactly when these lie inside
the range and below `stop`. -/
private theorem systemInside_iff {saved : Bytes → Prop} (htxn : ∀ x, IsTxnKey x → ¬ saved x) :
    (∀ x, db.Holds x → IsSystemKey x → ¬ saved x → ¬ Trimmed r.start stop x) ↔
      SystemInside db saved r stop := by
  constructor
  · intro h
    refine ⟨fun x hx htxn => ?_, fun x hx hsys hne => ?_⟩
    · have hne := ‹∀ x, IsTxnKey x → ¬ saved x› x htxn
      exact not_lt.mp fun hlt => h x hx (.inr htxn) hne (.inl ⟨htxn.metadataEnd_le, hlt⟩)
    · exact not_le.mp fun hle => h x hx hsys hne (.inr ⟨hle, hsys.lt_sentinel⟩)
  · rintro h x hx hsys hne (⟨hlow, hlt⟩ | ⟨hle, -⟩)
    · rcases hsys with hmeta | htxn
      · exact absurd (lt_metadataEnd hmeta) (not_lt.mpr hlow)
      · exact absurd hlt (not_lt.mpr (h.transactions x hx htxn))
    · exact absurd (h.belowStop x hx hsys hne) (not_lt.mpr hle)

/-- The tombstones of a trim separate the documents exactly when no stored key is on the other
side of a bound.  `stop` is the end of the range, or the greatest key for an unbounded range. -/
private theorem trimsDocuments_iff (hstop : r.stop ≠ [] → stop = r.stop) :
    (∀ id x, db.Holds x → ¬ IsSystemKey x → StoredFor id x →
      (Trimmed r.start stop x ↔ r.contains (keyRangeStart id) = false)) ↔
      TrimsDocuments db r stop := by
  constructor
  · intro h
    refine ⟨fun id x hx hsys hfor hin => ?_, fun id x hx hsys hfor hlt => ?_,
      fun id x hx hsys hfor hlow hne hhi => ?_⟩
    · have hnot : ¬ Trimmed r.start stop x := by
        rw [h id x hx hsys hfor, hin]
        simp
      by_contra hboth
      rw [not_or, not_lt, not_le] at hboth
      exact hnot (.inr hboth)
    · refine (h id x hx hsys hfor).mpr ?_
      exact Bool.eq_false_iff.mpr fun hin => absurd hlt (not_lt.mpr (Range.contains_iff.mp hin).1)
    · have htrim : Trimmed r.start stop x := by
        refine (h id x hx hsys hfor).mpr (Bool.eq_false_iff.mpr fun hin => ?_)
        exact absurd hhi (not_le.mpr ((Range.contains_iff.mp hin).2.resolve_left hne))
      rcases htrim with ⟨-, hlt⟩ | ⟨-, hlt⟩
      · exact absurd (hlow.trans hfor.le) (not_le.mpr hlt)
      · exact hlt
  · intro h id x hx hsys hfor
    constructor
    · intro htrim
      refine Bool.eq_false_iff.mpr fun hin => ?_
      have hlow := (Range.contains_iff.mp hin).1
      rcases htrim with ⟨-, hlt⟩ | ⟨hle, hlt⟩
      · exact absurd (hlow.trans hfor.le) (not_le.mpr hlt)
      · rcases h.inside id x hx hsys hfor hin with hin | hin
        · exact absurd hin (not_lt.mpr hle)
        · exact absurd hlt (not_lt.mpr hin)
    · intro hout
      rcases lt_or_ge (keyRangeStart id) r.start with hlt | hlow
      · exact h.below id x hx hsys hfor hlt
      · have hhi : r.stop ≠ [] ∧ r.stop ≤ keyRangeStart id := by
          by_contra hnot
          have hin : r.contains (keyRangeStart id) = true := by
            refine Range.contains_iff.mpr ⟨hlow, ?_⟩
            by_cases hne : r.stop = []
            · exact .inl hne
            · exact .inr (not_le.mp fun hle => hnot ⟨hne, hle⟩)
          rw [hin] at hout
          cases hout
        refine .inr ⟨?_, h.above id x hx hsys hfor hlow hhi.1 hhi.2⟩
        rw [hstop hhi.1]
        exact hhi.2.trans hfor.le

private theorem dropsDocuments_iff :
    (∀ id x, db.Holds x → ¬ IsSystemKey x → StoredFor id x →
      ((r.start ≤ x ∧ x < r.endForPebble) ↔ (!r.contains (keyRangeStart id)) = false)) ↔
      DropsDocuments db r := by
  constructor
  · intro h
    refine ⟨fun id x hx hsys hfor hin => ?_, fun id x hx hsys hfor hlt => ?_⟩
    · exact ((h id x hx hsys hfor).mpr (by rw [hin]; rfl)).2
    · by_contra hboth
      rw [not_or, not_lt, not_le] at hboth
      have hin : r.contains (keyRangeStart id) = true := by
        simpa using (h id x hx hsys hfor).mp hboth
      exact absurd hlt (not_lt.mpr (Range.contains_iff.mp hin).1)
  · intro h id x hx hsys hfor
    constructor
    · rintro ⟨hlow, hhi⟩
      rcases lt_or_ge (keyRangeStart id) r.start with hlt | hge
      · rcases h.below id x hx hsys hfor hlt with hx' | hx'
        · exact absurd hlow (not_le.mpr hx')
        · exact absurd hhi (not_lt.mpr hx')
      · have hin : r.contains (keyRangeStart id) = true := by
          refine Range.contains_iff.mpr ⟨hge, ?_⟩
          cases hstop : r.stop with
          | nil => exact .inl rfl
          | cons b t =>
            rw [Range.endForPebble, hstop] at hhi
            exact .inr (hfor.le.trans_lt hhi)
        rw [hin]
        rfl
    · intro hkeep
      have hin : r.contains (keyRangeStart id) = true := by simpa using hkeep
      exact ⟨(Range.contains_iff.mp hin).1.trans hfor.le, h.inside id x hx hsys hfor hin⟩

private theorem finalizeSplit_frames_iff (db : DBImpl) (r : Range) :
    FramesRange db (.finalizeSplit r) ↔ RangeSafe db (.finalizeSplit r) := by
  have hget := db.finalizeSplit_get? r
  have hother : ∀ x, x ≠ byteRangeKey →
      (db.finalizeSplit r).get? x = if Trimmed r.start r.stop x then none else db.get? x := by
    intro x hx
    rw [hget, if_neg hx]
  have hdocs := (documents_iff (fun id => r.contains (keyRangeStart id)) fun x hsys =>
    hother x fun hx => hsys (hx ▸ isSystemKey_byteRangeKey)).trans
      (trimsDocuments_iff fun _ => rfl)
  have hsystem := (system_iff fun x _ => hother x).trans (systemInside_iff
    fun x htxn hx => htxn.not_saved (by simp [DBImpl.IsSavedKey, hx]))
  have hrecord : (db.finalizeSplit r).get? byteRangeKey = some (.byteRange r) ↔
      byteRangeKey < r.stop := by
    rw [hget, if_pos rfl]
    constructor
    · intro h
      refine lt_of_not_ge fun hle => ?_
      have htrim : Trimmed r.start r.stop byteRangeKey :=
        .inr ⟨hle, isSystemKey_byteRangeKey.lt_sentinel⟩
      rw [if_pos htrim] at h
      cases h
    · intro hlt
      refine if_neg ?_
      rintro (⟨hlow, -⟩ | ⟨hle, -⟩)
      · exact absurd (lt_metadataEnd (List.prefix_append _ _)) (not_lt.mpr hlow)
      · exact absurd hlt (not_lt.mpr hle)
  constructor
  · intro h
    exact ⟨hrecord.mp h.range, hsystem.mp h.system, hdocs.mp h.documents⟩
  · rintro ⟨hrange, hsys, hdoc⟩
    exact ⟨hdocs.mpr hdoc, hsystem.mpr hsys, hrecord.mpr hrange⟩

private theorem updateRange_frames_iff (db : DBImpl) (r : Range) :
    FramesRange db (.updateRange r) ↔ RangeSafe db (.updateRange r) := by
  have hget := db.updateRange_get? r
  have hother : ∀ x, ¬ (db.resaved r x).isSome → (db.updateRange r).get? x =
      if Trimmed r.start r.endForPebble x then none else db.get? x := by
    intro x hx
    rw [hget, Option.not_isSome_iff_eq_none.mp hx, Option.none_or]
  have hsaved : ∀ x v, db.resaved r x = some v → (db.updateRange r).get? x = some v := by
    intro x v hv
    rw [hget, hv, Option.some_or]
  have hstop : r.stop ≠ [] → r.endForPebble = r.stop := by
    intro hne
    simp [Range.endForPebble, hne]
  have hdocs := (documents_iff (fun id => r.contains (keyRangeStart id)) fun x hsys =>
    hother x fun hx => hsys (DBImpl.isSystemKey_of_resaved hx)).trans (trimsDocuments_iff hstop)
  have hsystem := (system_iff fun x _ => hother x).trans (systemInside_iff
    fun x htxn hx => htxn.not_saved (DBImpl.isSavedKey_of_resaved hx))
  have hrange : db.resaved r byteRangeKey = some (.byteRange r) := rfl
  constructor
  · intro h
    refine ⟨fun x v hne hv => ?_, hsystem.mp fun x hsys hx => h.system x hsys fun hbr => ?_,
      hdocs.mp h.documents⟩
    · have hsys := DBImpl.isSystemKey_of_resaved (Option.isSome_iff_exists.mpr ⟨v, hv⟩)
      exact (h.system x hsys hne).symm.trans (hsaved x v hv)
    · rw [hbr, hrange] at hx
      exact hx rfl
  · rintro ⟨hcurrent, hsys, hdoc⟩
    refine ⟨hdocs.mpr hdoc, fun x hx hne => ?_, hsaved _ _ hrange⟩
    cases hv : db.resaved r x with
    | none => exact hsystem.mpr hsys x hx (by rw [hv]; exact Bool.false_ne_true)
    | some v => exact (hsaved x v hv).trans (hcurrent x v hne hv).symm

private theorem setRange_frames_iff (db : DBImpl) (r : Range) :
    FramesRange db (.setRange r) ↔ RangeSafe db (.setRange r) := by
  have hother : ∀ x, x ≠ byteRangeKey → (db.setRange r).get? x = db.get? x := by
    intro x hx
    rw [db.setRange_get? r x, if_neg hx]
  constructor
  · intro h id x hx hsys hfor
    have hdoc := h.documents id x hsys hfor
    rw [RangeOp.run, hother x fun hbr => hsys (hbr ▸ isSystemKey_byteRangeKey)] at hdoc
    by_contra hout
    rw [RangeOp.keeps, if_neg hout] at hdoc
    exact hx hdoc
  · intro h
    refine ⟨fun id x hsys hfor => ?_, fun x _ => hother x, ?_⟩
    · rw [RangeOp.run, hother x fun hbr => hsys (hbr ▸ isSystemKey_byteRangeKey)]
      by_cases hx : db.get? x = none
      · rw [hx, ite_self]
      · rw [RangeOp.keeps, if_pos (h id x hx hsys hfor)]
    · exact (db.setRange_get? r _).trans (if_pos rfl)

private theorem deleteDataRange_frames_iff (db : DBImpl) (r : Range) :
    FramesRange db (.deleteDataRange r) ↔ RangeSafe db (.deleteDataRange r) := by
  have hget := db.deleteDataRange_get? r
  have hdocs := (documents_iff (fun id => !r.contains (keyRangeStart id)) fun x _ => hget x).trans
    dropsDocuments_iff
  constructor
  · intro h
    refine ⟨fun x hx hsys => ?_, hdocs.mp h.documents⟩
    have hkept : (db.deleteDataRange r).get? x = db.get? x := by
      by_cases hbr : x = byteRangeKey
      · exact hbr ▸ h.range
      · exact h.system x hsys hbr
    by_contra hboth
    rw [not_or, not_lt, not_le] at hboth
    rw [hget, if_pos hboth] at hkept
    exact hx hkept.symm
  · rintro ⟨hsys, hdoc⟩
    have hkept : ∀ x, IsSystemKey x → (db.deleteDataRange r).get? x = db.get? x := by
      intro x hx
      rw [hget]
      by_cases hholds : db.get? x = none
      · rw [hholds, ite_self]
      · refine if_neg fun hin => ?_
        rcases hsys x hholds hx with hlt | hle
        · exact absurd hin.1 (not_le.mpr hlt)
        · exact absurd hin.2 (not_lt.mpr hle)
    exact ⟨hdocs.mpr hdoc, fun x hx _ => hkept x hx, hkept _ isSystemKey_byteRangeKey⟩

/-- A range operation has its frame exactly when the stored keys lie where its tombstones expect
them. -/
theorem range_operation_frames_iff (db : DBImpl) (op : RangeOp) :
    FramesRange db op ↔ RangeSafe db op := by
  cases op with
  | finalizeSplit r => exact finalizeSplit_frames_iff db r
  | updateRange r => exact updateRange_frames_iff db r
  | setRange r => exact setRange_frames_iff db r
  | deleteDataRange r => exact deleteDataRange_frames_iff db r

/-- The shard `["b", "z")` with the record of a transaction it coordinates. -/
def coordinatorStore : StoreDB :=
  ((StoreDB.create ⟨ascii ['b'], ascii ['z']⟩).applyOp Codec.emptyObject
    (.initTransaction ⟨ascii ['t'], 7, []⟩ 0)).1

/-- Finalizing a split of a shard with a lower bound deletes the transaction records. -/
theorem finalize_deletes_transaction_record :
    (∃ record, loadTxnRecord coordinatorStore.coreDB (ascii ['t']) = .ok record) ∧
      ¬ FramesRange coordinatorStore.coreDB (.finalizeSplit ⟨ascii ['b'], ascii ['m']⟩) := by
  refine ⟨⟨⟨ascii ['t'], 7, 0, .pending, [], [], 0, 0⟩, by decide +kernel⟩, fun h => ?_⟩
  have hkept := h.system (makeTxnKey (ascii ['t'])) (Or.inr (Or.inl (List.prefix_append _ _)))
    (by decide)
  revert hkept
  decide +kernel

end Antfly
