import Antfly.Foreign.FilterMeaning

/-!
A node whose values fit is evaluated without a panic.  At a leaf the clause selects the row if and
only if the evaluation is true.  At a boolean node this holds if and only if it does not drop a
disjunct or negated filter that says nothing where this matters, and does not negate what is
unknown.
-/

namespace Antfly.Foreign

open ThreeValued List Option

section Agreement

variable {db : Database} {row : TableRow}

def IsLeaf (f : FilterNode) : Prop := ∀ cs ds m, f ≠ .boolNode cs ds m

theorem FilterNode.childInduction {P : FilterNode → Prop} (hleaf : ∀ f, IsLeaf f → P f)
    (hbool : ∀ cs ds m, (∀ c ∈ cs, P c) → (∀ d ∈ ds, P d) → (∀ n, m = some n → P n) →
      P (.boolNode cs ds m)) (f : FilterNode) : P f :=
  @FilterNode.rec P (fun fs => ∀ f ∈ fs, P f) (fun m => ∀ n, m = some n → P n)
    (hleaf _ fun _ _ _ => nofun) (hleaf _ fun _ _ _ => nofun)
    (fun _ _ => hleaf _ fun _ _ _ => nofun) (fun _ _ => hleaf _ fun _ _ _ => nofun)
    (fun _ _ => hleaf _ fun _ _ _ => nofun) (fun _ _ => hleaf _ fun _ _ _ => nofun)
    (fun _ _ _ _ _ => hleaf _ fun _ _ _ => nofun) hbool
    (fun _ => hleaf _ fun _ _ _ => nofun)
    (fun _ hf => absurd hf not_mem_nil)
    (fun _ _ hhead htail _ hf => (mem_cons.mp hf).elim (fun heq => heq ▸ hhead) (htail _))
    nofun (fun _ hsome _ heq => Option.some.inj heq ▸ hsome) f

variable {column : SqlColumn} {fs : List FilterNode}

theorem onField_total {field : Text} (hcolumn : row field = some column)
    (test : FilterValue → Option Bool)
    (htest : column.goValue.isNull = false → ∃ b, test column.goValue = some b) :
    ∃ b, onField (rowMap row) field test = some b := by
  unfold onField
  rw [rowMap_eq hcolumn]
  revert htest
  cases column.goValue with
  | null => exact fun _ => ⟨false, rfl⟩
  | text s => exact fun htest => htest rfl
  | number y => exact fun htest => htest rfl
  | boolean b => exact fun htest => htest rfl
  | list vs => exact fun htest => htest rfl
  | object fields => exact fun htest => htest rfl

theorem valuesEqual_text (v : FilterValue) (s : Text) : ∃ b, valuesEqual v (.text s) = some b := by
  cases v <;> exact ⟨_, rfl⟩

theorem valuesEqual_null (v : FilterValue) : valuesEqual v .null = some v.isNull := by
  cases v <;> rfl

theorem valuesEqual_total {value : FilterValue} (hfits : ValueFits column value) :
    ∃ b, valuesEqual column.goValue value = some b := by
  cases value with
  | null => exact ⟨_, valuesEqual_null _⟩
  | text t => exact valuesEqual_text _ t
  | number y => cases column.goValue <;> exact ⟨_, rfl⟩
  | boolean c => cases column.goValue <;> exact ⟨_, rfl⟩
  | list vs => cases column <;> exact hfits.elim
  | object fields => cases column <;> exact hfits.elim

theorem unlessNull_iff (field : Text) (test : FilterValue → Option Bool) :
    unlessNull row field (onField (rowMap row) field test) = some true ↔
      onField (rowMap row) field test = some true := by
  unfold unlessNull isNullAt onField
  cases rowMap row field with
  | none => exact iff_of_false nofun nofun
  | some v =>
    cases v with
    | null => exact iff_of_false nofun nofun
    | text s => exact Iff.rfl
    | number y => exact Iff.rfl
    | boolean b => exact Iff.rfl
    | list vs => exact Iff.rfl
    | object fields => exact Iff.rfl

theorem evaluateTerms_iff {terms : List QueryTerm}
    (h : ∀ t ∈ terms, ∃ v, row t.field = some (.text v)) :
    (∃ b, evaluateTerms (rowMap row) terms = some b) ∧
      (evaluateTerms (rowMap row) terms = some true ↔
        ∃ t ∈ terms, termTruth row t = some true) := by
  induction terms with
  | nil => exact ⟨⟨false, rfl⟩, iff_of_false nofun fun ⟨t, ht, _⟩ => absurd ht not_mem_nil⟩
  | cons t terms ih =>
    obtain ⟨htotal, hiff⟩ := ih fun u hu => h u (mem_cons_of_mem t hu)
    obtain ⟨v, hcolumn⟩ := h t mem_cons_self
    obtain ⟨b, hb⟩ := onField_total hcolumn (valuesEqual · (.text t.value)) fun _ =>
      valuesEqual_text _ t.value
    have hterm : termTruth row t = some true ↔ b = true := by
      unfold termTruth
      rw [unlessNull_iff, hb, some_inj]
    rw [evaluateTerms, hb]
    simp only [mem_cons, exists_eq_or_imp, hterm]
    cases b with
    | true => exact ⟨⟨true, rfl⟩, iff_of_true rfl (.inl rfl)⟩
    | false => exact ⟨htotal, hiff.trans (or_iff_right Bool.false_ne_true).symm⟩

/-- The reading lets the row through. -/
def Holds (r : Option Truth) : Prop := ∀ t ∈ r, t = some true

def EvaluatesTrue (row : TableRow) (f : FilterNode) : Prop :=
  f.evaluate (rowMap row) = some true

theorem holds_some {t : Truth} : Holds (some t) ↔ t = some true :=
  ⟨fun h => h t rfl, fun h _ hu => Option.some.inj hu ▸ h⟩

theorem selects_iff {clause : Option SqlExpr} {r : Option Truth}
    (h : clause.map (SqlExpr.truth db row) = r.map some) : Selects db row clause ↔ Holds r := by
  cases clause with
  | none =>
    cases r with
    | none => exact iff_of_true trivial nofun
    | some t => cases h
  | some e =>
    cases r with
    | none => cases h
    | some t =>
      have he : e.truth db row = some t := Option.some.inj h
      change e.truth db row = some (some true) ↔ _
      rw [he, holds_some, some_inj]

theorem leaf_agrees {f : FilterNode} (hleaf : IsLeaf f) (hfits : FitsAt db row f) :
    (∃ b, f.evaluate (rowMap row) = some b) ∧ (Holds (reading row f) ↔ EvaluatesTrue row f) := by
  unfold EvaluatesTrue
  cases f with
  | matchAllNode => exact ⟨⟨true, rfl⟩, iff_of_true nofun rfl⟩
  | matchNoneNode => exact ⟨⟨false, rfl⟩, holds_some.trans (iff_of_false nofun nofun)⟩
  | termNode field value =>
    obtain ⟨column, hcolumn, hvalue⟩ := hfits
    refine ⟨onField_total hcolumn _ fun _ => valuesEqual_total hvalue, ?_⟩
    rw [reading, holds_some]
    cases hnull : value.isNull with
    | false => exact unlessNull_iff field _
    | true =>
      refine iff_of_false nofun fun htrue => ?_
      have hvalueNull : value = .null := by
        cases value <;> first | rfl | cases hnull
      subst hvalueNull
      rw [FilterNode.evaluate, ← unlessNull_iff, unlessNull_eq hcolumn] at htrue
      split at htrue
      · cases htrue
      · next hnot =>
          rw [valuesEqual_null] at htrue
          exact hnot (Option.some.inj htrue)
  | matchNode field value =>
    obtain ⟨v, hcolumn⟩ := hfits
    exact ⟨onField_total hcolumn _ fun _ => valuesEqual_text _ value,
      holds_some.trans (unlessNull_iff field _)⟩
  | prefixNode field start =>
    obtain ⟨v, hcolumn, -⟩ := hfits
    refine ⟨onField_total hcolumn _ fun _ => ?_, holds_some.trans (unlessNull_iff field _)⟩
    cases SqlColumn.goValue _ <;> exact ⟨_, rfl⟩
  | wildcardNode field pattern =>
    obtain ⟨v, hcolumn, -⟩ := hfits
    refine ⟨onField_total hcolumn _ fun _ => ?_, holds_some.trans (unlessNull_iff field _)⟩
    cases SqlColumn.goValue _ <;> exact ⟨_, rfl⟩
  | rangeNode field min max inclusiveMin inclusiveMax =>
    obtain ⟨column, hcolumn, -, -, hbounds⟩ := hfits
    refine ⟨onField_total hcolumn _ fun _ => ⟨_, rfl⟩, ?_⟩
    rw [reading]
    by_cases hnone : (min.isNull && max.isNull) = true
    · rw [if_pos hnone]
      obtain ⟨hmin, hmax⟩ := Bool.and_eq_true_iff.mp hnone
      refine iff_of_true nofun ?_
      have hnull := hbounds hmin hmax
      rw [isNullAt_eq hcolumn] at hnull
      rw [FilterNode.evaluate, ← unlessNull_iff, unlessNull_eq hcolumn, hnull,
        aboveMin_null hmin, belowMax_null hmax]
      rfl
    · rw [if_neg hnone, holds_some]
      exact unlessNull_iff field _
  | boolNode cs ds m => exact absurd rfl (hleaf cs ds m)
  | queryStringNode terms =>
    obtain ⟨htotal, hiff⟩ := evaluateTerms_iff hfits
    rw [reading, FilterNode.evaluate]
    by_cases hnone : terms = []
    · rw [if_pos hnone, if_pos hnone]
      exact ⟨⟨true, rfl⟩, iff_of_true nofun rfl⟩
    · rw [if_neg hnone, if_neg hnone, holds_some, any_eq_true_iff, hiff]
      refine ⟨htotal, ?_⟩
      simp only [List.mem_map, exists_exists_and_eq_and]
      rfl

def IsEvaluated (row : TableRow) (f : FilterNode) : Prop := ∃ b, f.evaluate (rowMap row) = some b

theorem evaluateAll_spec (h : ∀ f ∈ fs, IsEvaluated row f) :
    (∃ b, evaluateAll (rowMap row) fs = some b) ∧
      (evaluateAll (rowMap row) fs = some true ↔ ∀ f ∈ fs, EvaluatesTrue row f) := by
  induction fs with
  | nil => exact ⟨⟨true, rfl⟩, iff_of_true rfl fun f hf => absurd hf not_mem_nil⟩
  | cons f fs ih =>
    obtain ⟨htotal, hiff⟩ := ih fun g hg => h g (mem_cons_of_mem f hg)
    obtain ⟨b, hb⟩ := h f mem_cons_self
    have hhead : EvaluatesTrue row f ↔ b = true := by
      unfold EvaluatesTrue
      rw [hb, some_inj]
    rw [evaluateAll, hb, forall_mem_cons, hhead]
    cases b with
    | true => exact ⟨htotal, hiff.trans (and_iff_right rfl).symm⟩
    | false => exact ⟨⟨false, rfl⟩, iff_of_false nofun fun hall => nomatch hall.1⟩

theorem evaluateAny_spec (h : ∀ f ∈ fs, IsEvaluated row f) :
    (∃ b, evaluateAny (rowMap row) fs = some b) ∧
      (evaluateAny (rowMap row) fs = some true ↔ ∃ f ∈ fs, EvaluatesTrue row f) := by
  induction fs with
  | nil => exact ⟨⟨false, rfl⟩, iff_of_false nofun fun ⟨f, hf, _⟩ => absurd hf not_mem_nil⟩
  | cons f fs ih =>
    obtain ⟨htotal, hiff⟩ := ih fun g hg => h g (mem_cons_of_mem f hg)
    obtain ⟨b, hb⟩ := h f mem_cons_self
    have hhead : EvaluatesTrue row f ↔ b = true := by
      unfold EvaluatesTrue
      rw [hb, some_inj]
    rw [evaluateAny, hb]
    simp only [mem_cons, exists_eq_or_imp, hhead]
    cases b with
    | true => exact ⟨⟨true, rfl⟩, iff_of_true rfl (.inl rfl)⟩
    | false => exact ⟨htotal, hiff.trans (or_iff_right Bool.false_ne_true).symm⟩

theorem evaluateNot_spec {m : Option FilterNode} (h : ∀ n, m = some n → IsEvaluated row n) :
    (∃ b, evaluateNot (rowMap row) m = some b) ∧
      (evaluateNot (rowMap row) m = some true ↔ ∀ n, m = some n → ¬EvaluatesTrue row n) := by
  cases m with
  | none => exact ⟨⟨true, rfl⟩, iff_of_true rfl nofun⟩
  | some n =>
    obtain ⟨b, hb⟩ := h n rfl
    unfold EvaluatesTrue
    rw [evaluateNot, hb]
    refine ⟨⟨!b, rfl⟩, ?_⟩
    have hone : (∀ n', some n = some n' → n'.evaluate (rowMap row) ≠ some true) ↔ b ≠ true := by
      rw [← some_inj.ne, ← hb]
      exact ⟨fun hall => hall n rfl, fun hne n' heq => Option.some.inj heq ▸ hne⟩
    rw [hone]
    cases b <;> decide

theorem andThen_spec {first second : Option Bool} (hfirst : ∃ b, first = some b)
    (hsecond : ∃ b, second = some b) :
    (∃ b, andThen first second = some b) ∧
      (andThen first second = some true ↔ first = some true ∧ second = some true) := by
  obtain ⟨b, rfl⟩ := hfirst
  obtain ⟨c, rfl⟩ := hsecond
  cases b with
  | true => exact ⟨⟨c, rfl⟩, (and_iff_right rfl).symm⟩
  | false => exact ⟨⟨false, rfl⟩, iff_of_false nofun fun hboth => nomatch hboth.1⟩

section Bool

variable {cs ds : List FilterNode} {m : Option FilterNode}

theorem boolNode_evaluate (hcs : ∀ c ∈ cs, IsEvaluated row c) (hds : ∀ d ∈ ds, IsEvaluated row d)
    (hm : ∀ n, m = some n → IsEvaluated row n) :
    IsEvaluated row (.boolNode cs ds m) ∧ (EvaluatesTrue row (.boolNode cs ds m) ↔
      (∀ c ∈ cs, EvaluatesTrue row c) ∧ (ds = [] ∨ ∃ d ∈ ds, EvaluatesTrue row d) ∧
        ∀ n, m = some n → ¬EvaluatesTrue row n) := by
  obtain ⟨hallTotal, hall⟩ := evaluateAll_spec hcs
  obtain ⟨hnotTotal, hnot⟩ := evaluateNot_spec hm
  have hany : (∃ b, (if ds.isEmpty then some true else evaluateAny (rowMap row) ds) = some b) ∧
      ((if ds.isEmpty then some true else evaluateAny (rowMap row) ds) = some true ↔
        ds = [] ∨ ∃ d ∈ ds, EvaluatesTrue row d) := by
    by_cases hempty : ds = []
    · rw [if_pos (isEmpty_iff.mpr hempty)]
      exact ⟨⟨true, rfl⟩, iff_of_true rfl (.inl hempty)⟩
    · rw [if_neg fun h => hempty (isEmpty_iff.mp h), or_iff_right hempty]
      exact evaluateAny_spec hds
  obtain ⟨hrestTotal, hrest⟩ := andThen_spec hany.1 hnotTotal
  obtain ⟨htotal, hnode⟩ := andThen_spec hallTotal hrestTotal
  unfold IsEvaluated EvaluatesTrue
  rw [FilterNode.evaluate]
  exact ⟨htotal, hnode.trans (and_congr hall (hrest.trans (and_congr hany.2 hnot)))⟩

variable {fs : List FilterNode} {ts : List Truth}

theorem mem_readings {t : Truth} : t ∈ readings row fs ↔ ∃ f ∈ fs, reading row f = some t := by
  induction fs with
  | nil => exact iff_of_false not_mem_nil fun ⟨f, hf, _⟩ => absurd hf not_mem_nil
  | cons f fs ih =>
    rw [readings, mem_append, mem_toList, ih]
    simp only [mem_cons, exists_eq_or_imp]

theorem readings_eq_nil : readings row fs = [] ↔ ∀ f ∈ fs, reading row f = none := by
  rw [eq_nil_iff_forall_not_mem]
  constructor
  · intro h f hf
    cases hreading : reading row f with
    | none => rfl
    | some t => exact absurd (mem_readings.mpr ⟨f, hf, hreading⟩) (h t)
  · intro h t ht
    obtain ⟨f, hf, hreading⟩ := mem_readings.mp ht
    rw [h f hf] at hreading
    cases hreading

theorem holds_allOfReadings : Holds (allOfReadings ts) ↔ ∀ t ∈ ts, t = some true := by
  unfold allOfReadings
  by_cases hts : ts = []
  · rw [if_pos hts, hts]
    exact iff_of_true nofun fun t ht => absurd ht not_mem_nil
  · rw [if_neg hts, holds_some, all_eq_true_iff]

theorem forall_anyOfReadings :
    (∀ t ∈ anyOfReadings ts, t = some true) ↔ ts = [] ∨ some true ∈ ts := by
  unfold anyOfReadings
  by_cases hts : ts = []
  · rw [if_pos hts]
    exact iff_of_true (fun t ht => absurd ht not_mem_nil) (.inl hts)
  · rw [if_neg hts, forall_mem_singleton, any_eq_true_iff, or_iff_right hts]
    exact ⟨fun ⟨t, ht, heq⟩ => heq ▸ ht, fun ht => ⟨_, ht, rfl⟩⟩

theorem forall_notReading :
    (∀ t ∈ notReading row m, t = some true) ↔
      ∀ n, m = some n → ∀ t, reading row n = some t → t = some false := by
  cases m with
  | none => exact iff_of_true (fun t ht => absurd ht not_mem_nil) nofun
  | some n =>
    rw [notReading]
    simp only [mem_toList, map_eq_some_iff, forall_exists_index,
      and_imp, forall_apply_eq_imp_iff₂, some_inj, forall_eq', not_eq_true_iff]

theorem holds_boolNode : Holds (reading row (.boolNode cs ds m)) ↔
    (∀ c ∈ cs, Holds (reading row c)) ∧
      ((∀ d ∈ ds, reading row d = none) ∨ ∃ d ∈ ds, reading row d = some (some true)) ∧
        ∀ n, m = some n → ∀ t, reading row n = some t → t = some false := by
  have hall : (∀ t ∈ readings row cs, t = some true) ↔ ∀ c ∈ cs, Holds (reading row c) :=
    ⟨fun h c hc t ht => h t (mem_readings.mpr ⟨c, hc, ht⟩), fun h t ht =>
      let ⟨c, hc, hreading⟩ := mem_readings.mp ht
      h c hc t hreading⟩
  rw [reading, holds_allOfReadings]
  simp only [mem_append, or_imp, forall_and]
  rw [hall, forall_anyOfReadings, readings_eq_nil, mem_readings, forall_notReading, and_assoc]

/-- A boolean node of which no disjunct that says nothing is lost beside others, and no negated
filter says nothing or is unknown. -/
structure BoolTranslates (row : TableRow) (cs ds : List FilterNode) (m : Option FilterNode) :
    Prop where
  disjuncts : (∀ c ∈ cs, Holds (reading row c)) → (∀ n, m = some n → ¬Holds (reading row n)) →
    (∃ d ∈ ds, reading row d = none) → (∃ d ∈ ds, reading row d ≠ none) →
      ∃ d ∈ ds, reading row d = some (some true)
  mustNot : (∀ c ∈ cs, Holds (reading row c)) →
    ((∀ d ∈ ds, reading row d = none) ∨ ∃ d ∈ ds, reading row d = some (some true)) →
      ∀ n, m = some n → ∃ b, reading row n = some (some b)

def TranslatesAt (row : TableRow) : FilterNode → Prop
  | .boolNode cs ds m => BoolTranslates row cs ds m
  | _ => True

def ReadingAgrees (row : TableRow) (f : FilterNode) : Prop :=
  Holds (reading row f) ↔ EvaluatesTrue row f

theorem exists_holds {ds : List FilterNode} (h : ∀ d ∈ ds, ReadingAgrees row d) :
    (∃ d ∈ ds, EvaluatesTrue row d) ↔
      (∃ d ∈ ds, reading row d = none) ∨ ∃ d ∈ ds, reading row d = some (some true) := by
  constructor
  · rintro ⟨d, hd, htrue⟩
    have hholds := (h d hd).mpr htrue
    cases hreading : reading row d with
    | none => exact .inl ⟨d, hd, hreading⟩
    | some t => exact .inr ⟨d, hd, hreading.trans (congrArg some (hholds t hreading))⟩
  · rintro (⟨d, hd, hreading⟩ | ⟨d, hd, hreading⟩)
    · exact ⟨d, hd, (h d hd).mp (hreading ▸ nofun)⟩
    · exact ⟨d, hd, (h d hd).mp (hreading ▸ holds_some.mpr rfl)⟩

theorem negated_iff :
    ((∀ n, m = some n → ∀ t, reading row n = some t → t = some false) ↔
        ∀ n, m = some n → ¬Holds (reading row n)) ↔
      ∀ n, m = some n → ∃ b, reading row n = some (some b) := by
  cases m with
  | none => exact iff_of_true (iff_of_true nofun nofun) nofun
  | some n =>
    simp only [some_inj, forall_eq']
    cases reading row n with
    | none => exact iff_of_false (fun h => h.mp nofun nofun) nofun
    | some t =>
      rw [holds_some]
      rcases t with _ | _ | _ <;> simp

/-- How the parts of a boolean node must stand to each other: `N` and `T` are what the clause asks
of the disjuncts, `X`, `E` and `T` what the evaluation asks. -/
theorem and_agree_iff {C N E T X M M' : Prop} (hX : X → N) (hN : N → X ∨ E) :
    (C ∧ (N ∨ T) ∧ M' ↔ C ∧ (X ∨ E ∨ T) ∧ M) ↔
      (C → M → E → ¬N → T) ∧ (C → (N ∨ T) → (M' ↔ M)) := by
  have hdisjuncts : N ∨ T → X ∨ E ∨ T := by
    rintro (hnone | hT)
    · exact (hN hnone).imp_right .inl
    · exact .inr (.inr hT)
  constructor
  · intro h
    refine ⟨fun hC hM hE hnot => ?_, fun hC hNT => ?_⟩
    · exact (h.mpr ⟨hC, .inr (.inl hE), hM⟩).2.1.resolve_left hnot
    · exact ⟨fun hM' => (h.mp ⟨hC, hNT, hM'⟩).2.2,
        fun hM => (h.mpr ⟨hC, hdisjuncts hNT, hM⟩).2.2⟩
  · rintro ⟨hlost, hnegated⟩
    refine ⟨fun ⟨hC, hNT, hM'⟩ => ⟨hC, hdisjuncts hNT, (hnegated hC hNT).mp hM'⟩, ?_⟩
    rintro ⟨hC, hdisj, hM⟩
    have hNT : N ∨ T := by
      by_cases hnone : N
      · exact .inl hnone
      · rcases hdisj with hx | hE | hT
        · exact .inl (hX hx)
        · exact .inr (hlost hC hM hE hnone)
        · exact .inr hT
    exact ⟨hC, hNT, (hnegated hC hNT).mpr hM⟩

theorem boolNode_agrees_iff (hcs : ∀ c ∈ cs, IsEvaluated row c ∧ ReadingAgrees row c)
    (hds : ∀ d ∈ ds, IsEvaluated row d ∧ ReadingAgrees row d)
    (hm : ∀ n, m = some n → IsEvaluated row n ∧ ReadingAgrees row n) :
    ReadingAgrees row (.boolNode cs ds m) ↔ BoolTranslates row cs ds m := by
  have hall : (∀ c ∈ cs, EvaluatesTrue row c) ↔ ∀ c ∈ cs, Holds (reading row c) :=
    forall₂_congr fun c hc => (hcs c hc).2.symm
  have hnot : (∀ n, m = some n → ¬EvaluatesTrue row n) ↔
      ∀ n, m = some n → ¬Holds (reading row n) :=
    forall₂_congr fun n hn => not_congr (hm n hn).2.symm
  unfold ReadingAgrees
  rw [holds_boolNode, (boolNode_evaluate (fun c hc => (hcs c hc).1) (fun d hd => (hds d hd).1)
    fun n hn => (hm n hn).1).2, exists_holds fun d hd => (hds d hd).2, hall, hnot]
  have hnil : ds = [] → ∀ d ∈ ds, reading row d = none := by
    rintro rfl d hd
    exact absurd hd not_mem_nil
  have hcons : (∀ d ∈ ds, reading row d = none) → ds = [] ∨ ∃ d ∈ ds, reading row d = none := by
    intro hnone
    cases ds with
    | nil => exact .inl rfl
    | cons d ds => exact .inr ⟨d, mem_cons_self, hnone d mem_cons_self⟩
  have hsome : (∃ d ∈ ds, reading row d ≠ none) ↔ ¬∀ d ∈ ds, reading row d = none := by
    simp only [not_forall, exists_prop]
  have htranslates : BoolTranslates row cs ds m ↔
      ((∀ c ∈ cs, Holds (reading row c)) → (∀ n, m = some n → ¬Holds (reading row n)) →
        (∃ d ∈ ds, reading row d = none) → (∃ d ∈ ds, reading row d ≠ none) →
          ∃ d ∈ ds, reading row d = some (some true)) ∧
      ((∀ c ∈ cs, Holds (reading row c)) →
        ((∀ d ∈ ds, reading row d = none) ∨ ∃ d ∈ ds, reading row d = some (some true)) →
          ∀ n, m = some n → ∃ b, reading row n = some (some b)) :=
    ⟨fun h => ⟨h.disjuncts, h.mustNot⟩, fun h => ⟨h.1, h.2⟩⟩
  rw [htranslates, hsome, ← negated_iff]
  exact and_agree_iff hnil hcons

end Bool

theorem isEvaluated_of_fits (f : FilterNode) : Fits db row f → IsEvaluated row f := by
  induction f using FilterNode.childInduction with
  | hleaf f hleaf => exact fun hfits => (leaf_agrees hleaf (hfits _ .self)).1
  | hbool cs ds m hcs hds hm =>
    intro hfits
    obtain ⟨hcsFit, hdsFit, hmFit⟩ := hfits.child
    exact (boolNode_evaluate (fun c hc => hcs c hc (hcsFit c hc))
      (fun d hd => hds d hd (hdsFit d hd)) fun n hn => hm n hn (hmFit n hn)).1

variable {f g : FilterNode} {clause : Option SqlExpr}

theorem Within.trans {h : FilterNode} (hgf : Within g f) (hhg : Within h g) : Within h f := by
  induction hgf with
  | self => exact hhg
  | conjunct hc _ ih => exact .conjunct hc ih
  | disjunct hd _ ih => exact .disjunct hd ih
  | mustNot _ ih => exact .mustNot ih

theorem Fits.within (h : Fits db row f) (hg : Within g f) : Fits db row g :=
  fun k hk => h k (hg.trans hk)

theorem agrees_of_translates (f : FilterNode) : Fits db row f →
    (∀ g, Within g f → TranslatesAt row g) → ReadingAgrees row f := by
  induction f using FilterNode.childInduction with
  | hleaf f hleaf => exact fun hfits _ => (leaf_agrees hleaf (hfits _ .self)).2
  | hbool cs ds m hcs hds hm =>
    intro hfits htranslates
    obtain ⟨hcsFit, hdsFit, hmFit⟩ := hfits.child
    refine (boolNode_agrees_iff (fun c hc => ⟨isEvaluated_of_fits c (hcsFit c hc), ?_⟩)
      (fun d hd => ⟨isEvaluated_of_fits d (hdsFit d hd), ?_⟩)
      fun n hn => ⟨isEvaluated_of_fits n (hmFit n hn), ?_⟩).mpr (htranslates _ .self)
    · exact hcs c hc (hcsFit c hc) fun g hg => htranslates g (.conjunct hc hg)
    · exact hds d hd (hdsFit d hd) fun g hg => htranslates g (.disjunct hd hg)
    · subst hn
      exact hm n rfl (hmFit n rfl) fun g hg => htranslates g (.mustNot hg)

/-- The readings of a filter and of all filters within it agree with their evaluations if and only
if its boolean nodes translate. -/
theorem agrees_iff (hfits : Fits db row f) :
    (∀ g, Within g f → ReadingAgrees row g) ↔ ∀ g, Within g f → TranslatesAt row g := by
  constructor
  · intro hagrees g hg
    cases g with
    | boolNode cs ds m =>
      obtain ⟨hcsFit, hdsFit, hmFit⟩ := (hfits.within hg).child
      refine (boolNode_agrees_iff
        (fun c hc => ⟨isEvaluated_of_fits c (hcsFit c hc), hagrees c (hg.trans ?_)⟩)
        (fun d hd => ⟨isEvaluated_of_fits d (hdsFit d hd), hagrees d (hg.trans ?_)⟩)
        fun n hn => ⟨isEvaluated_of_fits n (hmFit n hn), hagrees n (hg.trans ?_)⟩).mp
          (hagrees _ hg)
      · exact .conjunct hc .self
      · exact .disjunct hd .self
      · exact hn ▸ .mustNot .self
    | _ => trivial
  · exact fun htranslates g hg =>
      agrees_of_translates g (hfits.within hg) fun k hk => htranslates k (hg.trans hk)

variable {knownColumns : List Text}

theorem clauseOf_of_mem {fs : List FilterNode} (hf : f ∈ fs) {es : List SqlExpr}
    (h : clausesOf knownColumns fs = .ok es) :
    ∃ clause, clauseOf knownColumns f = .ok clause := by
  induction fs generalizing es with
  | nil => exact absurd hf not_mem_nil
  | cons g fs ih =>
    rw [clausesOf] at h
    cases hhead : clauseOf knownColumns g with
    | error err =>
      rw [hhead] at h
      cases h
    | ok clause =>
      cases htail : clausesOf knownColumns fs with
      | error err =>
        rw [hhead, htail] at h
        cases h
      | ok es' =>
        rcases mem_cons.mp hf with rfl | hrest
        · exact ⟨clause, hhead⟩
        · exact ih hrest htail

theorem clauseOf_boolNode {cs ds : List FilterNode} {m : Option FilterNode}
    (h : clauseOf knownColumns (.boolNode cs ds m) = .ok clause) :
    (∃ es, clausesOf knownColumns cs = .ok es) ∧ (∃ es, clausesOf knownColumns ds = .ok es) ∧
      ∃ es, mustNotOf knownColumns m = .ok es := by
  rw [clauseOf] at h
  cases hparts : clausesOf knownColumns cs with
  | error err =>
    rw [hparts] at h
    cases h
  | ok parts =>
    cases horParts : clausesOf knownColumns ds with
    | error err =>
      rw [hparts, horParts] at h
      cases h
    | ok orParts =>
      cases hnotPart : mustNotOf knownColumns m with
      | error err =>
        rw [hparts, horParts, hnotPart] at h
        cases h
      | ok notPart => exact ⟨⟨parts, rfl⟩, ⟨orParts, rfl⟩, notPart, rfl⟩

theorem clauseOf_within (hg : Within g f) (h : clauseOf knownColumns f = .ok clause) :
    ∃ c, clauseOf knownColumns g = .ok c := by
  induction hg generalizing clause with
  | self => exact ⟨clause, h⟩
  | conjunct hc _ ih =>
    obtain ⟨⟨es, hes⟩, -, -⟩ := clauseOf_boolNode h
    obtain ⟨c, hclause⟩ := clauseOf_of_mem hc hes
    exact ih hclause
  | disjunct hd _ ih =>
    obtain ⟨-, ⟨es, hes⟩, -⟩ := clauseOf_boolNode h
    obtain ⟨c, hclause⟩ := clauseOf_of_mem hd hes
    exact ih hclause
  | @mustNot n cs ds _ ih =>
    obtain ⟨-, -, es, hes⟩ := clauseOf_boolNode h
    rw [mustNotOf] at hes
    cases hclause : clauseOf knownColumns n with
    | error err =>
      rw [hclause] at hes
      cases hes
    | ok c => exact ih hclause

/-- A clause selects the row as the filter evaluates. -/
def Translates (db : Database) (row : TableRow) (knownColumns : List Text) (f : FilterNode) :
    Prop :=
  ∃ clause, clauseOf knownColumns f = .ok clause ∧ (Selects db row clause ↔ EvaluatesTrue row f)

theorem translates_iff (hfits : Fits db row f) (h : clauseOf knownColumns f = .ok clause) :
    Translates db row knownColumns f ↔ ReadingAgrees row f := by
  have hselects := selects_iff (clauseOf_truth f hfits clause h)
  constructor
  · rintro ⟨c, hc, hagrees⟩
    obtain rfl := Except.ok.inj (hc.symm.trans h)
    exact hselects.symm.trans hagrees
  · exact fun hagrees => ⟨clause, h, hselects.trans hagrees⟩

/-- The texts of both translations are those of the clause, and on a row that the values fit it and
the clauses within it select as the filters evaluate if and only if its boolean nodes translate. -/
theorem translate_agrees_iff {f : FilterNode} (hfits : Fits db row f) {clause : Option SqlExpr}
    (hclause : clauseOf knownColumns f = .ok clause) :
    (∀ placeholderFn, translateFilter placeholderFn knownColumns (some f) =
        .ok (printClause (renderPlaceholder placeholderFn) [] clause).swap) ∧
      (∀ format, filterToLiteralSQL format knownColumns (some f) =
        .ok (printClause (renderLiteral format) [] clause).2) ∧
      ((∀ g, Within g f → Translates db row knownColumns g) ↔
        ∀ g, Within g f → TranslatesAt row g) := by
  refine ⟨fun placeholderFn => ?_, fun format => ?_, ?_⟩
  · rw [translateFilter, nodeToSQL_eq, hclause]
    rfl
  · rw [filterToLiteralSQL, nodeToSQL_eq, hclause]
    rfl
  · rw [← agrees_iff hfits]
    refine forall₂_congr fun g hg => ?_
    obtain ⟨c, hc⟩ := clauseOf_within hg hclause
    exact translates_iff (hfits.within hg) hc

/-- A negated match-all is an empty clause, which selects every row. -/
theorem translate_drops_negation :
    ∃ json f, parseFilter (some json) = .ok f ∧
      (∀ placeholderFn knownColumns,
        translateFilter placeholderFn knownColumns (some f) = .ok ([], [])) ∧
      (∀ knownColumns, clauseOf knownColumns f = .ok none) ∧
      ∀ (db : Database) (row : TableRow),
        ¬(Selects db row none ↔ f.evaluate (rowMap row) = some true) :=
  ⟨.object [("must_not".toList, .object [("match_all".toList, .object [])])],
    .boolNode [] [] (some .matchAllNode), rfl, fun _ _ => rfl, fun _ => rfl,
    fun _ _ h => nomatch h.mp trivial⟩

end Agreement

def plainCollate (s t : Text) : Ordering := if s = t then .eq else if s < t then .lt else .gt

theorem plainCollate_eq (s t : Text) : plainCollate s t = .eq ↔ s = t := by
  unfold plainCollate
  by_cases heq : s = t
  · simp [heq]
  · rw [if_neg heq]
    refine iff_of_false ?_ heq
    split <;> nofun

/-- A database that fails when the types differ. -/
def strictDatabase : Database where
  collate := plainCollate
  collate_eq := plainCollate_eq
  compareOther _ _ := none
  likeOther _ _ := none

theorem translate_agrees_iff_negatedTerm :
    (∀ g, Within g (.boolNode [] [] (some (.termNode ['a'] (.boolean true)))) →
        Translates strictDatabase (fun _ => some (.boolean (some false))) [] g) ↔
      ∀ g, Within g (.boolNode [] [] (some (.termNode ['a'] (.boolean true)))) →
        TranslatesAt (fun _ => some (.boolean (some false))) g := by
  refine (@translate_agrees_iff strictDatabase (fun _ => some (.boolean (some false))) []
    (.boolNode [] [] (some (.termNode ['a'] (.boolean true)))) ?_
    (some (.all (.not (.paren (.compare ['a'] .equal (.boolean true)))) [])) rfl).2.2
  intro g hg
  cases hg with
  | self => trivial
  | conjunct hc => exact absurd hc List.not_mem_nil
  | disjunct hd => exact absurd hd List.not_mem_nil
  | mustNot hg =>
    cases hg with
    | self => exact ⟨_, rfl, trivial⟩

end Antfly.Foreign
