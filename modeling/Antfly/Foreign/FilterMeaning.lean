import Antfly.Foreign.FilterReading

/-!
A comparison of a column with a value of its type comes out as the evaluation of the node does, and
LIKE matches the same texts as the pattern of the node.
-/

namespace Antfly.Foreign

open ThreeValued List

section Compare

variable {db : Database} {row : TableRow} {field : Text} {column : SqlColumn}

theorem rowMap_eq (hcolumn : row field = some column) :
    rowMap row field = some column.goValue := by
  unfold rowMap
  rw [hcolumn]
  rfl

theorem isNullAt_eq (hcolumn : row field = some column) :
    isNullAt row field = column.goValue.isNull := by
  unfold isNullAt
  rw [rowMap_eq hcolumn]
  rfl

theorem unlessNull_eq (hcolumn : row field = some column) (test : FilterValue → Option Bool) :
    unlessNull row field (onField (rowMap row) field test) =
      if column.goValue.isNull then none else test column.goValue := by
  unfold unlessNull onField
  rw [isNullAt_eq hcolumn, rowMap_eq hcolumn]
  cases column.goValue <;> rfl

theorem compareTruth_eq (hcolumn : row field = some column) (op : SqlOperator)
    (value : FilterValue) :
    compareTruth db row field op value =
      (sqlCompare db column value).map fun o => o.map op.holds := by
  unfold compareTruth
  rw [hcolumn]
  rfl

theorem equal_truth {value : FilterValue} (hfits : ValueFits column value) :
    (sqlCompare db column value).map (fun o => o.map SqlOperator.equal.holds) =
      some (if value.isNull then none
        else if column.goValue.isNull then none else valuesEqual column.goValue value) := by
  cases value with
  | null => cases column <;> rfl
  | text t =>
    cases column with
    | text v =>
      cases v with
      | none => rfl
      | some s =>
        change some (some (db.collate s t == .eq)) = some (some (decide (s = t)))
        congr 2
        rw [Bool.eq_iff_iff, beq_iff_eq, decide_eq_true_eq, db.collate_eq]
    | double v => exact hfits.elim
    | boolean v => exact hfits.elim
    | other v => exact hfits.elim
  | number y =>
    cases column with
    | double v =>
      cases v with
      | none => rfl
      | some x =>
        change some (some (compare (floatRank x) (floatRank y) == .eq)) =
          some (some (decide (floatRank x = floatRank y)))
        congr 2
        rw [Bool.eq_iff_iff, beq_iff_eq, decide_eq_true_eq, compare_eq_iff_eq]
    | text v => exact hfits.elim
    | boolean v => exact hfits.elim
    | other v => exact hfits.elim
  | boolean c =>
    cases column with
    | boolean v =>
      cases v with
      | none => rfl
      | some b => cases b <;> cases c <;> rfl
    | text v => exact hfits.elim
    | double v => exact hfits.elim
    | other v => exact hfits.elim
  | list vs => cases column <;> exact hfits.elim
  | object fields => cases column <;> exact hfits.elim

theorem ordered_truth {bound : FilterValue} (hfits : BoundFits db column bound)
    (hbound : bound.isNull = false) (op : SqlOperator) :
    (sqlCompare db column bound).map (fun o => o.map op.holds) =
      some (if column.goValue.isNull then none
        else some (op.holds (compareOrdered column.goValue bound))) := by
  cases bound with
  | null => cases hbound
  | text t =>
    cases column with
    | text v =>
      cases v with
      | none => rfl
      | some s =>
        change some (some (op.holds (db.collate s t))) = _
        rw [hfits s rfl]
        rfl
    | double v => exact hfits.elim
    | boolean v => exact hfits.elim
    | other v => exact hfits.elim
  | number y =>
    cases column with
    | double v => cases v <;> rfl
    | text v => exact hfits.elim
    | boolean v => exact hfits.elim
    | other v => exact hfits.elim
  | boolean c => cases column <;> exact hfits.elim
  | list vs => cases column <;> exact hfits.elim
  | object fields => cases column <;> exact hfits.elim

end Compare

variable {c : Char} {pattern : Text}

theorem likeItems_letter (hescape : c ≠ '\\') (hany : c ≠ '%') (hone : c ≠ '_') (p : Text) :
    likeItems (c :: p) = (likeItems p).map (.letter c :: ·) := by
  rw [likeItems.eq_def]
  split
  · contradiction
  · next heq => exact absurd (List.cons.inj heq).1 hescape
  · next heq => exact absurd (List.cons.inj heq).1 hescape
  · next heq => exact absurd (List.cons.inj heq).1 hany
  · next heq => exact absurd (List.cons.inj heq).1 hone
  · next heq =>
      obtain ⟨rfl, rfl⟩ := List.cons.inj heq
      rfl

theorem likeItems_escapeLike {start : Text} (hstart : '\\' ∉ start) (rest : Text) :
    likeItems (escapeLike start ++ rest) =
      (likeItems rest).map (start.map Glob.Item.letter ++ ·) := by
  induction start with
  | nil =>
    change likeItems rest = (likeItems rest).map fun items => [] ++ items
    exact Option.map_id'.symm
  | cons c start ih =>
    have hc : c ≠ '\\' := fun heq => hstart (heq ▸ mem_cons_self)
    have hrest := ih fun hmem => hstart (mem_cons_of_mem c hmem)
    have hmap : ((likeItems rest).map (start.map Glob.Item.letter ++ ·)).map (.letter c :: ·) =
        (likeItems rest).map ((c :: start).map Glob.Item.letter ++ ·) := Option.map_map _ _ _
    unfold escapeLike at hrest ⊢
    rw [flatMap_cons, append_assoc]
    by_cases hspecial : c = '%' ∨ c = '_'
    · rw [if_pos hspecial]
      change (likeItems (start.flatMap _ ++ rest)).map (.letter c :: ·) = _
      rw [hrest, hmap]
    · rw [if_neg hspecial]
      obtain ⟨hany, hone⟩ := not_or.mp hspecial
      rw [singleton_append, likeItems_letter hc hany hone, hrest, hmap]

/-- What a character of a wildcard pattern stands for. -/
def wildcardCharItem (c : Char) : Glob.Item Char :=
  if c = '*' then .any else if c = '?' then .one else .letter c

theorem likeItems_wildcardToLike (hpattern : '\\' ∉ pattern) :
    likeItems (wildcardToLike pattern) = some (pattern.map wildcardCharItem) := by
  induction pattern with
  | nil => rfl
  | cons c pattern ih =>
    have hc : c ≠ '\\' := fun heq => hpattern (heq ▸ mem_cons_self)
    have hrest := ih fun hmem => hpattern (mem_cons_of_mem c hmem)
    unfold wildcardToLike at hrest ⊢
    rw [flatMap_cons, map_cons]
    unfold wildcardCharItem at hrest ⊢
    by_cases hstar : c = '*'
    · rw [if_pos hstar, if_pos hstar]
      change (likeItems (pattern.flatMap _)).map (.any :: ·) = _
      rw [hrest]
      rfl
    · rw [if_neg hstar, if_neg hstar]
      by_cases hquestion : c = '?'
      · rw [if_pos hquestion, if_pos hquestion]
        change (likeItems (pattern.flatMap _)).map (.one :: ·) = _
        rw [hrest]
        rfl
      · rw [if_neg hquestion, if_neg hquestion]
        by_cases hspecial : c = '%' ∨ c = '_'
        · rw [if_pos hspecial]
          change (likeItems (pattern.flatMap _)).map (.letter c :: ·) = _
          rw [hrest]
          rfl
        · rw [if_neg hspecial]
          obtain ⟨hany, hone⟩ := not_or.mp hspecial
          rw [singleton_append, likeItems_letter hc hany hone, hrest]
          rfl

theorem isCode_utf8 : Glob.IsCode String.utf8EncodeChar fun b => b.IsUTF8FirstByte where
  first c := by
    cases henc : String.utf8EncodeChar c with
    | nil => exact absurd henc String.utf8EncodeChar_ne_nil
    | cons b rest =>
      have hbyte {i : ℕ} (hi : i < (b :: rest).length) :
          (b :: rest)[i].IsUTF8FirstByte ↔ i = 0 := by
        have hall := @UInt8.isUTF8FirstByte_getElem_utf8EncodeChar c i (henc ▸ hi)
        simpa only [henc] using hall
      refine ⟨b, rest, rfl, (hbyte (Nat.succ_pos _)).mpr rfl, fun d hd => ?_⟩
      obtain ⟨i, hi, rfl⟩ := getElem_of_mem hd
      exact fun hfirst => Nat.succ_ne_zero i ((hbyte (Nat.succ_lt_succ hi)).mp hfirst)
  free c d u v h := by
    have hbytes := congrArg List.toByteArray h
    rw [toByteArray_append, toByteArray_append] at hbytes
    have hc := @ByteArray.utf8DecodeChar?_utf8EncodeChar_append u.toByteArray c
    rw [hbytes, ByteArray.utf8DecodeChar?_utf8EncodeChar_append] at hc
    obtain rfl := Option.some.inj hc
    exact ⟨rfl, append_cancel_left h⟩

theorem encode_ascii (h : c.val ≤ 0x7f) : String.utf8EncodeChar c = [c.val.toUInt8] := by
  rw [String.utf8EncodeChar_eq_utf8EncodeCharFast, String.utf8EncodeCharFast, if_pos h]

theorem le_of_mem_encode (h : ¬ c.val ≤ 0x7f) {b : UInt8} (hb : b ∈ String.utf8EncodeChar c) :
    128 ≤ b.toNat := by
  have hor (x y : UInt8) (hy : 128 ≤ y.toNat) : 128 ≤ (x ||| y).toNat := by
    rw [UInt8.toNat_or]
    exact hy.trans Nat.right_le_or
  rw [String.utf8EncodeChar_eq_utf8EncodeCharFast, String.utf8EncodeCharFast, if_neg h] at hb
  split at hb
  · simp only [mem_cons, not_mem_nil, or_false] at hb
    rcases hb with rfl | rfl <;> exact hor _ _ (by decide)
  · split at hb
    · simp only [mem_cons, not_mem_nil, or_false] at hb
      rcases hb with rfl | rfl | rfl <;> exact hor _ _ (by decide)
    · simp only [mem_cons, not_mem_nil, or_false] at hb
      rcases hb with rfl | rfl | rfl | rfl <;> exact hor _ _ (by decide)

theorem wildcardItem_encodeChar (c : Char) :
    (String.utf8EncodeChar c).map wildcardItem =
      Glob.encodeItem String.utf8EncodeChar (wildcardCharItem c) := by
  by_cases h : c.val ≤ 0x7f
  · have hbyte (d : Char) (hd : d.val ≤ 0x7f) : c.val.toUInt8 = d.val.toUInt8 ↔ c = d := by
      rw [UInt32.le_iff_toNat_le] at h hd
      rw [← Char.val_inj, ← UInt32.toNat_inj, ← UInt8.toNat_inj, UInt32.toNat_toUInt8,
        UInt32.toNat_toUInt8]
      have hlimit : (0x7f : UInt32).toNat = 127 := rfl
      omega
    have hstar : c.val.toUInt8 = 42 ↔ c = '*' := hbyte '*' (by decide)
    have hquestion : c.val.toUInt8 = 63 ↔ c = '?' := hbyte '?' (by decide)
    unfold wildcardCharItem wildcardItem
    rw [encode_ascii h, map_singleton]
    by_cases h₁ : c = '*'
    · rw [if_pos h₁, if_pos (hstar.mpr h₁)]
      rfl
    · rw [if_neg h₁, if_neg (mt hstar.mp h₁)]
      by_cases h₂ : c = '?'
      · rw [if_pos h₂, if_pos (hquestion.mpr h₂)]
        rfl
      · rw [if_neg h₂, if_neg (mt hquestion.mp h₂), Glob.encodeItem, encode_ascii h]
        rfl
  · have hstar : c ≠ '*' := by
      rintro rfl
      exact h (by decide)
    have hquestion : c ≠ '?' := by
      rintro rfl
      exact h (by decide)
    unfold wildcardCharItem
    rw [if_neg hstar, if_neg hquestion, Glob.encodeItem]
    refine map_congr_left fun b hb => ?_
    have hle := le_of_mem_encode h hb
    unfold wildcardItem
    rw [if_neg, if_neg]
    · rintro rfl
      exact absurd hle (by decide)
    · rintro rfl
      exact absurd hle (by decide)

theorem wildcardItem_encodeText (pattern : Text) :
    (encodeText pattern).map wildcardItem =
      (pattern.map wildcardCharItem).flatMap (Glob.encodeItem String.utf8EncodeChar) := by
  unfold encodeText
  rw [map_flatMap, flatMap_map]
  exact flatMap_congr fun c _ => wildcardItem_encodeChar c

theorem matchWildcard_eq {s : Text} (hascii : '?' ∈ pattern → isAscii s) :
    matchWildcard pattern s = Glob.isMatch (pattern.map wildcardCharItem) s := by
  have hone : .one ∈ pattern.map wildcardCharItem →
      ∀ c ∈ s, ∃ b, String.utf8EncodeChar c = [b] := by
    intro hmem c hc
    obtain ⟨d, hd, hitem⟩ := mem_map.mp hmem
    have hquestion : d = '?' := by
      unfold wildcardCharItem at hitem
      split at hitem
      · cases hitem
      · split at hitem
        · assumption
        · cases hitem
    have hsize := hascii (hquestion ▸ hd) c hc
    exact length_eq_one_iff.mp ((String.length_utf8EncodeChar c).trans hsize)
  unfold matchWildcard
  rw [Glob.tableMatch_eq, wildcardItem_encodeText, Bool.eq_iff_iff]
  exact (isCode_utf8.isMatch_flatMap hone).1

section Nodes

variable {db : Database} {row : TableRow}

variable {field pattern : Text} {v : Option Text} {column : SqlColumn} {es : List SqlExpr}
variable {ts : List Truth} {min max : FilterValue} {α : Type} {l : List α}

theorem like_truth (hcolumn : row field = some (.text v)) {items : List (Glob.Item Char)}
    (hitems : likeItems pattern = some items) (test : FilterValue → Option Bool)
    (htest : ∀ s, v = some s → test (.text s) = some (Glob.isMatch items s)) :
    SqlExpr.truth db row (.like field pattern) =
      some (unlessNull row field (onField (rowMap row) field test)) := by
  rw [SqlExpr.truth, hcolumn, unlessNull_eq hcolumn]
  cases v with
  | none => rfl
  | some s =>
    change (likeItems pattern).map (fun items => some (Glob.isMatch items s)) =
      some (test (.text s))
    rw [hitems, htest s rfl]
    rfl

theorem prefixNode_truth {start : Text} (h : FitsAt db row (.prefixNode field start)) :
    SqlExpr.truth db row (.like field (escapeLike start ++ ['%'])) =
      some (unlessNull row field (onField (rowMap row) field (startsWith start))) := by
  obtain ⟨v, hcolumn, hstart⟩ := h
  refine like_truth hcolumn (likeItems_escapeLike hstart ['%']) _ fun s _ => ?_
  refine congrArg some ?_
  rw [Bool.eq_iff_iff, Glob.isMatch_letters_any_iff, isPrefixOf_iff_prefix]

theorem wildcardNode_truth (h : FitsAt db row (.wildcardNode field pattern)) :
    SqlExpr.truth db row (.like field (wildcardToLike pattern)) =
      some (unlessNull row field (onField (rowMap row) field (matchesWildcard pattern))) := by
  obtain ⟨v, hcolumn, hpattern, hascii⟩ := h
  refine like_truth hcolumn (likeItems_wildcardToLike hpattern) _ fun s hs => ?_
  exact congrArg some (matchWildcard_eq fun hmem => hascii hmem s hs)

theorem equal_truth_at {value : FilterValue} (hcolumn : row field = some column)
    (hfits : ValueFits column value) :
    compareTruth db row field .equal value =
      some (if value.isNull then none
        else unlessNull row field (onField (rowMap row) field (valuesEqual · value))) := by
  rw [compareTruth_eq hcolumn, equal_truth hfits, unlessNull_eq hcolumn]

theorem equalText_truth (hcolumn : row field = some (.text v)) (value : Text) :
    compareTruth db row field .equal (.text value) =
      some (unlessNull row field (onField (rowMap row) field (valuesEqual · (.text value)))) :=
  equal_truth_at hcolumn trivial

theorem boundClause_truth (hcolumn : row field = some column) {bound : FilterValue}
    (hfits : BoundFits db column bound) (op : SqlOperator) :
    truthAll db row (boundClause field op bound) =
      some (if bound.isNull then []
        else [if column.goValue.isNull then none
          else some (op.holds (compareOrdered column.goValue bound))]) := by
  have hcompare (hbound : bound.isNull = false) :
      truthAll db row [.compare field op bound] =
        some [if column.goValue.isNull then none
          else some (op.holds (compareOrdered column.goValue bound))] := by
    rw [truthAll, SqlExpr.truth, compareTruth_eq hcolumn, ordered_truth hfits hbound]
    rfl
  cases bound with
  | null => rfl
  | text t => exact hcompare rfl
  | number y => exact hcompare rfl
  | boolean c => exact hcompare rfl
  | list vs => exact hcompare rfl
  | object fields => exact hcompare rfl

theorem truthAll_append (es es' : List SqlExpr) :
    truthAll db row (es ++ es') =
      (truthAll db row es).bind fun ts => (truthAll db row es').map fun ts' => ts ++ ts' := by
  induction es with
  | nil =>
    change truthAll db row es' = (truthAll db row es').map fun ts' => [] ++ ts'
    exact Option.map_id'.symm
  | cons e es ih =>
    rw [cons_append, truthAll, truthAll, ih]
    cases e.truth db row with
    | none => rfl
    | some t =>
      cases truthAll db row es with
      | none => rfl
      | some ts =>
        cases truthAll db row es' with
        | none => rfl
        | some ts' => rfl

theorem truthAll_cons {e : SqlExpr} (h : truthAll db row (e :: es) = some ts) :
    ∃ t us, e.truth db row = some t ∧ truthAll db row es = some us ∧ ts = t :: us := by
  rw [truthAll] at h
  obtain ⟨t, he, h⟩ := Option.bind_eq_some_iff.mp h
  obtain ⟨us, hes, rfl⟩ := Option.map_eq_some_iff.mp h
  exact ⟨t, us, he, hes, rfl⟩

theorem allOf_truth (h : truthAll db row es = some ts) :
    (allOf es).map (SqlExpr.truth db row) = (allOfReadings ts).map some := by
  cases es with
  | nil =>
    obtain rfl := Option.some.inj h
    rfl
  | cons e es =>
    obtain ⟨t, us, he, hes, rfl⟩ := truthAll_cons h
    change some (SqlExpr.truth db row (.all e es)) = _
    rw [SqlExpr.truth, he, hes]
    rfl

theorem anyOf_truth (h : truthAll db row es = some ts) :
    truthAll db row (anyOf es) = some (anyOfReadings ts) := by
  cases es with
  | nil =>
    obtain rfl := Option.some.inj h
    rfl
  | cons e es =>
    obtain ⟨t, us, he, hes, rfl⟩ := truthAll_cons h
    change truthAll db row [.paren (.any e es)] = _
    rw [truthAll, SqlExpr.truth, SqlExpr.truth, he, hes]
    rfl

theorem clause_reading {clause : Option SqlExpr} {r : Option Truth}
    (h : clause.map (SqlExpr.truth db row) = r.map some) :
    (clause = none ∧ r = none) ∨
      ∃ e t, clause = some e ∧ r = some t ∧ e.truth db row = some t := by
  cases clause with
  | none => exact .inl ⟨rfl, Option.map_eq_none_iff.mp h.symm⟩
  | some e =>
    obtain ⟨t, hr, ht⟩ := Option.map_eq_some_iff.mp h.symm
    exact .inr ⟨e, t, rfl, hr, ht.symm⟩

theorem aboveMin_eq (hmin : min.isNull = false) (v : FilterValue) (inclusiveMin : Bool) :
    aboveMin v min inclusiveMin =
      (if inclusiveMin = true then SqlOperator.greaterEqual else .greater).holds
        (compareOrdered v min) := by
  cases min with
  | null => cases hmin
  | text t => cases inclusiveMin <;> rfl
  | number y => cases inclusiveMin <;> rfl
  | boolean c => cases inclusiveMin <;> rfl
  | list vs => cases inclusiveMin <;> rfl
  | object fields => cases inclusiveMin <;> rfl

theorem belowMax_eq (hmax : max.isNull = false) (v : FilterValue) (inclusiveMax : Bool) :
    belowMax v max inclusiveMax =
      (if inclusiveMax = true then SqlOperator.lessEqual else .less).holds
        (compareOrdered v max) := by
  cases max with
  | null => cases hmax
  | text t => cases inclusiveMax <;> rfl
  | number y => cases inclusiveMax <;> rfl
  | boolean c => cases inclusiveMax <;> rfl
  | list vs => cases inclusiveMax <;> rfl
  | object fields => cases inclusiveMax <;> rfl

theorem aboveMin_null (hmin : min.isNull = true) (v : FilterValue) (inclusiveMin : Bool) :
    aboveMin v min inclusiveMin = true := by
  cases min <;> first | rfl | cases hmin

theorem belowMax_null (hmax : max.isNull = true) (v : FilterValue) (inclusiveMax : Bool) :
    belowMax v max inclusiveMax = true := by
  cases max <;> first | rfl | cases hmax

theorem rangeNode_truth {inclusiveMin inclusiveMax : Bool}
    (h : FitsAt db row (.rangeNode field min max inclusiveMin inclusiveMax)) :
    (allOf (boundClause field (if inclusiveMin then .greaterEqual else .greater) min ++
        boundClause field (if inclusiveMax then .lessEqual else .less) max)).map
          (SqlExpr.truth db row) =
      (reading row (.rangeNode field min max inclusiveMin inclusiveMax)).map some := by
  obtain ⟨column, hcolumn, hmin, hmax, -⟩ := h
  have hall := @truthAll_append db row
    (boundClause field (if inclusiveMin then .greaterEqual else .greater) min)
    (boundClause field (if inclusiveMax then .lessEqual else .less) max)
  rw [boundClause_truth hcolumn hmin, boundClause_truth hcolumn hmax] at hall
  rw [allOf_truth hall, reading, unlessNull_eq hcolumn]
  cases hnullMin : min.isNull <;> cases hnullMax : max.isNull
  · rw [aboveMin_eq hnullMin, belowMax_eq hnullMax]
    generalize SqlOperator.holds _ (compareOrdered column.goValue min) = above
    generalize SqlOperator.holds _ (compareOrdered column.goValue max) = below
    cases column.goValue.isNull <;> cases above <;> cases below <;> rfl
  · rw [aboveMin_eq hnullMin, belowMax_null hnullMax]
    generalize SqlOperator.holds _ (compareOrdered column.goValue min) = above
    cases column.goValue.isNull <;> cases above <;> rfl
  · rw [aboveMin_null hnullMin, belowMax_eq hnullMax]
    generalize SqlOperator.holds _ (compareOrdered column.goValue max) = below
    cases column.goValue.isNull <;> cases below <;> rfl
  · rfl

theorem mapM_map_eq_some {β γ : Type} {k : α → β} {g : β → Option γ} {h : α → γ}
    (heq : ∀ a ∈ l, g (k a) = some (h a)) :
    (l.map k).mapM g = some (l.map h) := by
  induction l with
  | nil => rfl
  | cons a l ih =>
    rw [map_cons, mapM_cons, heq a mem_cons_self,
      ih fun b hb => heq b (mem_cons_of_mem a hb)]
    rfl

theorem truthAll_map {g : α → SqlExpr} {h : α → Truth}
    (heq : ∀ a ∈ l, (g a).truth db row = some (h a)) :
    truthAll db row (l.map g) = some (l.map h) := by
  induction l with
  | nil => rfl
  | cons a l ih =>
    rw [map_cons, truthAll, heq a mem_cons_self,
      ih fun b hb => heq b (mem_cons_of_mem a hb)]
    rfl

/-- What a term of a query string says. -/
def termTruth (row : TableRow) (t : QueryTerm) : Truth :=
  unlessNull row t.field (onField (rowMap row) t.field (valuesEqual · (.text t.value)))

theorem queryStringNode_truth {terms : List QueryTerm}
    (h : FitsAt db row (.queryStringNode terms)) {knownColumns : List Text}
    {clause : Option SqlExpr} (hclause : queryStringClause knownColumns terms = .ok clause) :
    clause.map (SqlExpr.truth db row) = (reading row (.queryStringNode terms)).map some := by
  have hterm : ∀ t ∈ terms, compareTruth db row t.field .equal (.text t.value) =
      some (termTruth row t) := by
    intro t ht
    obtain ⟨v, hcolumn⟩ := h t ht
    exact equalText_truth hcolumn t.value
  cases terms with
  | nil =>
    obtain rfl := Except.ok.inj hclause
    rfl
  | cons first rest =>
    have hreading : (reading row (.queryStringNode (first :: rest))).map some =
        some (some (ThreeValued.any ((first :: rest).map (termTruth row)))) := by
      rw [reading, if_neg (cons_ne_nil first rest)]
      rfl
    rw [hreading]
    unfold queryStringClause at hclause
    dsimp only at hclause
    cases hvalid : (first :: rest).mapM fun t => validateField knownColumns t.field with
    | error err =>
      rw [hvalid] at hclause
      cases hclause
    | ok us =>
      rw [hvalid] at hclause
      change (if _ then Except.ok _ else if _ then Except.ok _ else Except.ok _) = _ at hclause
      split at hclause
      · next hsame =>
          obtain rfl := Except.ok.inj hclause
          have hall : ∀ t ∈ first :: rest,
              compareTruth db row first.field .equal (.text t.value) =
                some (termTruth row t) := by
            intro t ht
            have hfield : t.field = first.field := by
              rcases mem_cons.mp ht with rfl | hrest
              · rfl
              · exact of_decide_eq_true (all_eq_true.mp hsame.1 t hrest)
            rw [← hfield]
            exact hterm t ht
          have hvalues : (((first :: rest).map fun t => FilterValue.text t.value).mapM
              fun v => compareTruth db row first.field .equal v) =
                some ((first :: rest).map (termTruth row)) := mapM_map_eq_some hall
          refine congrArg some ?_
          rw [SqlExpr.truth]
          rw [map_cons] at hvalues
          rw [hvalues]
          rfl
      · split at hclause
        · next hone =>
            obtain rfl := Except.ok.inj hclause
            subst hone
            change some (compareTruth db row first.field .equal (.text first.value)) = _
            rw [hterm first mem_cons_self, map_singleton, any_singleton]
        · obtain rfl := Except.ok.inj hclause
          have hfirst : SqlExpr.truth db row (.compare first.field .equal (.text first.value)) =
              some (termTruth row first) := hterm first mem_cons_self
          have hrest : truthAll db row
              (rest.map fun t => .compare t.field .equal (.text t.value)) =
                some (rest.map (termTruth row)) :=
            truthAll_map fun t ht => hterm t (mem_cons_of_mem first ht)
          refine congrArg some ?_
          rw [SqlExpr.truth, SqlExpr.truth, hfirst, hrest]
          rfl

variable {knownColumns : List Text}

theorem clause_of_valid {field : Text} {e : SqlExpr} {clause : Option SqlExpr}
    (h : (do validateField knownColumns field
             return some e : Except FilterSQLError (Option SqlExpr)) = .ok clause) :
    clause = some e := by
  cases hvalid : validateField knownColumns field with
  | error err =>
    rw [hvalid] at h
    cases h
  | ok u =>
    rw [hvalid] at h
    exact (Except.ok.inj h).symm

theorem Fits.child {cs ds : List FilterNode} {m : Option FilterNode}
    (h : Fits db row (.boolNode cs ds m)) :
    (∀ c ∈ cs, Fits db row c) ∧ (∀ d ∈ ds, Fits db row d) ∧ ∀ n, m = some n → Fits db row n := by
  refine ⟨fun c hc g hg => h g (.conjunct hc hg), fun d hd g hg => h g (.disjunct hd hg), ?_⟩
  rintro n rfl g hg
  exact h g (.mustNot hg)

mutual

theorem clauseOf_truth : (f : FilterNode) → Fits db row f →
    (clause : Option SqlExpr) → clauseOf knownColumns f = .ok clause →
    clause.map (SqlExpr.truth db row) = (reading row f).map some
  | .matchAllNode, _, clause, h => by
      obtain rfl := Except.ok.inj h
      rfl
  | .matchNoneNode, _, clause, h => by
      obtain rfl := Except.ok.inj h
      rfl
  | .termNode field value, hfits, clause, h => by
      obtain rfl := clause_of_valid h
      obtain ⟨column, hcolumn, hvalue⟩ := hfits _ .self
      exact congrArg some (equal_truth_at hcolumn hvalue)
  | .matchNode field value, hfits, clause, h => by
      obtain rfl := clause_of_valid h
      obtain ⟨v, hcolumn⟩ := hfits _ .self
      exact congrArg some (equalText_truth hcolumn value)
  | .prefixNode field start, hfits, clause, h => by
      obtain rfl := clause_of_valid h
      exact congrArg some (prefixNode_truth (hfits _ .self))
  | .wildcardNode field pattern, hfits, clause, h => by
      obtain rfl := clause_of_valid h
      exact congrArg some (wildcardNode_truth (hfits _ .self))
  | .rangeNode field min max inclusiveMin inclusiveMax, hfits, clause, h => by
      rw [clauseOf] at h
      cases hvalid : validateField knownColumns field with
      | error err =>
        rw [hvalid] at h
        cases h
      | ok u =>
        rw [hvalid] at h
        obtain rfl := Except.ok.inj h
        exact rangeNode_truth (hfits _ .self)
  | .queryStringNode terms, hfits, clause, h => queryStringNode_truth (hfits _ .self) h
  | .boolNode conjuncts disjuncts mustNot, hfits, clause, h => by
      obtain ⟨hconjuncts, hdisjuncts, hnot⟩ := hfits.child
      rw [clauseOf] at h
      cases hparts : clausesOf knownColumns conjuncts with
      | error err =>
        rw [hparts] at h
        cases h
      | ok parts =>
        cases horParts : clausesOf knownColumns disjuncts with
        | error err =>
          rw [hparts, horParts] at h
          cases h
        | ok orParts =>
          cases hnotPart : mustNotOf knownColumns mustNot with
          | error err =>
            rw [hparts, horParts, hnotPart] at h
            cases h
          | ok notPart =>
            rw [hparts, horParts, hnotPart] at h
            obtain rfl := Except.ok.inj h
            have hand := clausesOf_truth conjuncts hconjuncts parts hparts
            have hor := anyOf_truth
              (clausesOf_truth disjuncts hdisjuncts orParts horParts)
            have hmustNot := mustNotOf_truth mustNot hnot notPart hnotPart
            rw [reading]
            refine allOf_truth ?_
            rw [truthAll_append, truthAll_append, hand, hor, hmustNot]
            rfl

theorem clausesOf_truth : (fs : List FilterNode) → (∀ f ∈ fs, Fits db row f) →
    (es : List SqlExpr) → clausesOf knownColumns fs = .ok es →
    truthAll db row es = some (readings row fs)
  | [], _, es, h => by
      obtain rfl := Except.ok.inj h
      rfl
  | f :: fs, hfits, es, h => by
      rw [clausesOf] at h
      cases hclause : clauseOf knownColumns f with
      | error err =>
        rw [hclause] at h
        cases h
      | ok clause =>
        cases hclauses : clausesOf knownColumns fs with
        | error err =>
          rw [hclause, hclauses] at h
          cases h
        | ok clauses =>
          rw [hclause, hclauses] at h
          obtain rfl := Except.ok.inj h
          have hhead := clauseOf_truth f (hfits f mem_cons_self) clause hclause
          have htail := clausesOf_truth fs
            (fun g hg => hfits g (mem_cons_of_mem f hg)) clauses hclauses
          rw [truthAll_append, htail, readings]
          rcases clause_reading hhead with ⟨rfl, hreading⟩ | ⟨e, t, rfl, hreading, he⟩
          · rw [hreading]
            rfl
          · rw [hreading]
            change (truthAll db row [.paren e]).bind _ = _
            rw [truthAll, SqlExpr.truth, he]
            rfl

theorem mustNotOf_truth : (m : Option FilterNode) → (∀ f, m = some f → Fits db row f) →
    (es : List SqlExpr) → mustNotOf knownColumns m = .ok es →
    truthAll db row es = some (notReading row m)
  | none, _, es, h => by
      obtain rfl := Except.ok.inj h
      rfl
  | some f, hfits, es, h => by
      rw [mustNotOf] at h
      cases hclause : clauseOf knownColumns f with
      | error err =>
        rw [hclause] at h
        cases h
      | ok clause =>
        rw [hclause] at h
        obtain rfl := Except.ok.inj h
        have hhead := clauseOf_truth f (hfits f rfl) clause hclause
        rw [notReading]
        rcases clause_reading hhead with ⟨rfl, hreading⟩ | ⟨e, t, rfl, hreading, he⟩
        · rw [hreading]
          rfl
        · rw [hreading]
          change truthAll db row [.not (.paren e)] = _
          rw [truthAll, SqlExpr.truth, SqlExpr.truth, he]
          rfl

end

end Nodes

end Antfly.Foreign
