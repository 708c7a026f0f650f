import Antfly.Store.Transform

/-!
An operation names the path it works on, and `$rename` a second one.  At a path that neither begins
nor continues one of these, nothing changes, unless the document is made a value of itself.  A
failing operation changes nothing at all, and the others are applied as if it were not there.
-/

namespace Antfly

open List Option

namespace Obj

theorem get?_map_replace (o : Obj) (k name : Bytes) (v : Json) (hne : name ≠ k) :
    get? (o.map fun f => if f.1 = k then (k, v) else f) name = get? o name := by
  induction o with
  | nil => rfl
  | cons f o ih =>
    obtain ⟨n, w⟩ := f
    unfold get? at ih ⊢
    rw [map_cons]
    by_cases hn : n = k
    · rw [if_pos hn, lookup_cons, lookup_cons, ih]
      have hk : (name == k) = false := beq_eq_false_iff_ne.mpr hne
      rw [hn, hk]
    · rw [if_neg hn, lookup_cons, lookup_cons, ih]

theorem get?_map_replace_self (o : Obj) (k : Bytes) (v : Json)
    (h : o.any (fun f => f.1 = k) = true) :
    get? (o.map fun f => if f.1 = k then (k, v) else f) k = some v := by
  induction o with
  | nil => cases h
  | cons f o ih =>
    obtain ⟨n, w⟩ := f
    unfold get? at ih ⊢
    rw [map_cons]
    by_cases hn : n = k
    · rw [if_pos hn, lookup_cons, beq_self_eq_true]
    · have hk : (k == n) = false := beq_eq_false_iff_ne.mpr (Ne.symm hn)
      rw [if_neg hn, lookup_cons, hk]
      apply ih
      simpa [hn] using h

theorem get?_append (o o' : Obj) (name : Bytes) :
    get? (o ++ o') name = (get? o name).or (get? o' name) := by
  induction o with
  | nil => rfl
  | cons f o ih =>
    unfold get? at ih ⊢
    rw [cons_append, lookup_cons, lookup_cons, ih]
    cases name == f.1 <;> rfl

theorem get?_eq_none_of_any (o : Obj) (k : Bytes) (h : ¬ o.any (fun f => f.1 = k) = true) :
    get? o k = none := by
  unfold get?
  rw [lookup_eq_none_iff]
  intro f hf
  rw [bne_iff_ne]
  intro hk
  exact h (any_eq_true.mpr ⟨f, hf, decide_eq_true hk.symm⟩)

theorem get?_set (o : Obj) (k name : Bytes) (v : Json) :
    (o.set k v).get? name = if name = k then some v else o.get? name := by
  unfold set
  by_cases hany : o.any (fun f => f.1 = k) = true
  · rw [if_pos hany]
    by_cases hname : name = k
    · rw [if_pos hname, hname]
      exact get?_map_replace_self o k v hany
    · rw [if_neg hname]
      exact get?_map_replace o k name v hname
  · rw [if_neg hany, get?_append]
    by_cases hname : name = k
    · rw [if_pos hname, hname, get?_eq_none_of_any o k hany]
      unfold get?
      rw [lookup_cons, beq_self_eq_true]
      rfl
    · rw [if_neg hname]
      unfold get?
      have hk : (name == k) = false := beq_eq_false_iff_ne.mpr hname
      rw [lookup_cons, hk, lookup_nil, or_none]

theorem get?_erase_of_ne (o : Obj) {k name : Bytes} (hne : name ≠ k) :
    (o.erase k).get? name = o.get? name := by
  induction o with
  | nil => rfl
  | cons f o ih =>
    unfold erase get? at ih ⊢
    by_cases hf : f.1 = k
    · have hk : (name == f.1) = false := beq_eq_false_iff_ne.mpr (hf ▸ hne)
      rw [filter_cons_of_neg (by simpa using hf), ih, lookup_cons, hk]
    · rw [filter_cons_of_pos (by simpa using hf), lookup_cons, lookup_cons, ih]

end Obj

/-- Neither path begins the other. -/
def Incomparable (p q : List Bytes) : Prop := ¬ p <+: q ∧ ¬ q <+: p

instance (p q : List Bytes) : Decidable (Incomparable p q) := inferInstanceAs (Decidable (_ ∧ _))

namespace Incomparable

variable {p q : List Bytes} {a : Bytes}

/-- Paths that differ in the first part, or agree in it and are incomparable after it. -/
theorem cons_cons {b : Bytes} (h : Incomparable (a :: p) (b :: q)) :
    a ≠ b ∨ (a = b ∧ Incomparable p q) := by
  by_cases hab : a = b
  · subst hab
    refine .inr ⟨rfl, fun hpq => h.1 ?_, fun hqp => h.2 ?_⟩
    · exact cons_prefix_cons.mpr ⟨rfl, hpq⟩
    · exact cons_prefix_cons.mpr ⟨rfl, hqp⟩
  · exact .inl hab

theorem left_ne_nil (h : Incomparable p q) : p ≠ [] := by
  rintro rfl
  exact h.1 nil_prefix

theorem right_ne_nil (h : Incomparable p q) : q ≠ [] := by
  rintro rfl
  exact h.2 nil_prefix

end Incomparable

section Nested

variable {doc : Obj} {a : Bytes} {p q : List Bytes} {v : Json}

theorem getNestedValue_of_obj {m : Obj} (hp : p ≠ []) (h : doc.get? a = some (.obj m)) :
    getNestedValue doc (a :: p) = getNestedValue m p := by
  obtain ⟨b, p, rfl⟩ := exists_cons_of_ne_nil hp
  rw [getNestedValue, h]
  exact cons_ne_nil b p

theorem getNestedValue_of_not_obj (hp : p ≠ []) (h : ∀ m, doc.get? a ≠ some (.obj m)) :
    getNestedValue doc (a :: p) = none := by
  obtain ⟨b, p, rfl⟩ := exists_cons_of_ne_nil hp
  rw [getNestedValue]
  · split
    · rename_i m hm
      exact absurd hm (h m)
    · rfl
  · exact cons_ne_nil b p

theorem setNestedValue_of_obj {m : Obj} (hp : p ≠ []) (h : doc.get? a = some (.obj m)) :
    setNestedValue doc (a :: p) v = doc.set a (.obj (setNestedValue m p v)) := by
  obtain ⟨b, p, rfl⟩ := exists_cons_of_ne_nil hp
  rw [setNestedValue, h]
  exact cons_ne_nil b p

theorem setNestedValue_of_not_obj (hp : p ≠ []) (h : ∀ m, doc.get? a ≠ some (.obj m)) :
    setNestedValue doc (a :: p) v = doc.set a (.obj (setNestedValue [] p v)) := by
  obtain ⟨b, p, rfl⟩ := exists_cons_of_ne_nil hp
  rw [setNestedValue]
  · split
    · rename_i m hm
      exact absurd hm (h m)
    · rfl
  · exact cons_ne_nil b p

theorem removeNestedValue_of_obj {m : Obj} (hp : p ≠ []) (h : doc.get? a = some (.obj m)) :
    removeNestedValue doc (a :: p) = doc.set a (.obj (removeNestedValue m p)) := by
  obtain ⟨b, p, rfl⟩ := exists_cons_of_ne_nil hp
  rw [removeNestedValue, h]
  exact cons_ne_nil b p

theorem removeNestedValue_of_not_obj (hp : p ≠ []) (h : ∀ m, doc.get? a ≠ some (.obj m)) :
    removeNestedValue doc (a :: p) = doc := by
  obtain ⟨b, p, rfl⟩ := exists_cons_of_ne_nil hp
  rw [removeNestedValue]
  · split
    · rename_i m hm
      exact absurd hm (h m)
    · rfl
  · exact cons_ne_nil b p

theorem obj_or_not (doc : Obj) (a : Bytes) :
    (∃ m, doc.get? a = some (.obj m)) ∨ ∀ m, doc.get? a ≠ some (.obj m) := by
  by_cases h : ∃ m, doc.get? a = some (.obj m)
  · exact .inl h
  · exact .inr (not_exists.mp h)

theorem getNestedValue_nil_obj (hp : p ≠ []) : getNestedValue [] p = none := by
  obtain ⟨a, p, rfl⟩ := exists_cons_of_ne_nil hp
  by_cases hp : p = []
  · subst hp
    rfl
  · apply getNestedValue_of_not_obj hp
    intro m hm
    cases hm

theorem getNestedValue_congr {doc' : Obj} (hp : p ≠ []) (h : ∀ b, p.head? = some b →
    doc.get? b = doc'.get? b) : getNestedValue doc p = getNestedValue doc' p := by
  obtain ⟨a, p, rfl⟩ := exists_cons_of_ne_nil hp
  have ha := h a rfl
  by_cases hp : p = []
  · subst hp
    exact ha
  · rcases obj_or_not doc a with ⟨m, hm⟩ | hm
    · rw [getNestedValue_of_obj hp hm, getNestedValue_of_obj hp (ha ▸ hm)]
    · rw [getNestedValue_of_not_obj hp hm, getNestedValue_of_not_obj hp (ha ▸ hm)]

theorem getNestedValue_setNestedValue (h : Incomparable p q) :
    getNestedValue (setNestedValue doc q v) p = getNestedValue doc p := by
  induction q generalizing doc p with
  | nil => exact absurd rfl h.right_ne_nil
  | cons b q ih =>
    obtain ⟨a, p, rfl⟩ := exists_cons_of_ne_nil h.left_ne_nil
    have hform : ∃ w, setNestedValue doc (b :: q) v = doc.set b w := by
      by_cases hq : q = []
      · subst hq
        exact ⟨v, rfl⟩
      · rcases obj_or_not doc b with ⟨m, hm⟩ | hm
        · exact ⟨_, setNestedValue_of_obj hq hm⟩
        · exact ⟨_, setNestedValue_of_not_obj hq hm⟩
    rcases h.cons_cons with hne | ⟨rfl, hrest⟩
    · obtain ⟨w, hw⟩ := hform
      rw [hw]
      apply getNestedValue_congr (cons_ne_nil a p)
      intro c hc
      cases hc
      rw [Obj.get?_set, if_neg hne]
    · rcases obj_or_not doc a with ⟨m, hm⟩ | hm
      · have hset : (doc.set a (.obj (setNestedValue m q v))).get? a =
            some (.obj (setNestedValue m q v)) := by rw [Obj.get?_set, if_pos rfl]
        rw [setNestedValue_of_obj hrest.right_ne_nil hm,
          getNestedValue_of_obj hrest.left_ne_nil hset,
          getNestedValue_of_obj hrest.left_ne_nil hm, ih hrest]
      · have hset : (doc.set a (.obj (setNestedValue [] q v))).get? a =
            some (.obj (setNestedValue [] q v)) := by rw [Obj.get?_set, if_pos rfl]
        rw [setNestedValue_of_not_obj hrest.right_ne_nil hm,
          getNestedValue_of_obj hrest.left_ne_nil hset,
          getNestedValue_of_not_obj hrest.left_ne_nil hm, ih hrest,
          getNestedValue_nil_obj hrest.left_ne_nil]

theorem getNestedValue_removeNestedValue (h : Incomparable p q) :
    getNestedValue (removeNestedValue doc q) p = getNestedValue doc p := by
  induction q generalizing doc p with
  | nil => exact absurd rfl h.right_ne_nil
  | cons b q ih =>
    obtain ⟨a, p, rfl⟩ := exists_cons_of_ne_nil h.left_ne_nil
    rcases h.cons_cons with hne | ⟨rfl, hrest⟩
    · apply getNestedValue_congr (cons_ne_nil a p)
      intro c hc
      cases hc
      by_cases hq : q = []
      · subst hq
        exact Obj.get?_erase_of_ne doc hne
      · rcases obj_or_not doc b with ⟨m, hm⟩ | hm
        · rw [removeNestedValue_of_obj hq hm, Obj.get?_set, if_neg hne]
        · rw [removeNestedValue_of_not_obj hq hm]
    · rcases obj_or_not doc a with ⟨m, hm⟩ | hm
      · have hset : (doc.set a (.obj (removeNestedValue m q))).get? a =
            some (.obj (removeNestedValue m q)) := by rw [Obj.get?_set, if_pos rfl]
        rw [removeNestedValue_of_obj hrest.right_ne_nil hm,
          getNestedValue_of_obj hrest.left_ne_nil hset,
          getNestedValue_of_obj hrest.left_ne_nil hm, ih hrest]
      · rw [removeNestedValue_of_not_obj hrest.right_ne_nil hm]

end Nested

section Operations

variable (c : Codec)

/-- The paths an operation names; `$rename` has the new path as its value. -/
def targetPaths (op : TransformOp) : List (List Bytes) :=
  (parseSimplePath op.path).toList ++
    if op.op = .rename then ((c.unmarshalString op.value).bind parseSimplePath).toList else []

/-- The operation makes the document a value of itself. -/
def RenamesDocument (op : TransformOp) : Prop :=
  op.op = .rename ∧ parseSimplePath op.path = some [] ∧
    ∃ parts, parts ≠ [] ∧ (c.unmarshalString op.value).bind parseSimplePath = some parts

/-- A document without links is given none, and nothing changes at paths that are incomparable with
`parts`. -/
def KeepsApart (parts : List Bytes) (doc doc' : LinkedObj) : Prop :=
  doc.links = [] → doc'.links = [] ∧
    ∀ p, Incomparable p parts → getNestedValue doc'.fields p = getNestedValue doc.fields p

variable {c} {doc doc' : LinkedObj} {path value : Bytes}

theorem follow_of_no_links (h : doc.links = []) (parts : List Bytes) : doc.follow parts = parts := by
  have hfold : ∀ place : List Bytes, parts.foldl (fun place part =>
      if place ++ [part] ∈ doc.links then [] else place ++ [part]) place = place ++ parts := by
    induction parts with
    | nil => exact fun place => (append_nil place).symm
    | cons part parts ih =>
      intro place
      rw [foldl_cons, if_neg (h ▸ not_mem_nil), ih, append_assoc]
      rfl
  exact hfold []

theorem placeOf_of_no_links (h : doc.links = []) (parts : List Bytes) :
    doc.placeOf parts = parts := by
  unfold LinkedObj.placeOf
  rw [follow_of_no_links h]
  cases hlast : parts.getLast? with
  | none => rw [getLast?_eq_none_iff.mp hlast]; rfl
  | some last => exact dropLast_append_getLast? last hlast

theorem KeepsApart.refl (parts : List Bytes) (doc : LinkedObj) : KeepsApart parts doc doc :=
  fun h => ⟨h, fun _ _ => rfl⟩

theorem keepsApart_set (parts : List Bytes) (doc : LinkedObj) (v : Json) :
    KeepsApart parts doc (doc.setNestedValue parts v []) := by
  intro h
  unfold LinkedObj.setNestedValue
  split
  · exact ⟨h, fun _ _ => rfl⟩
  · rw [placeOf_of_no_links h, h]
    exact ⟨rfl, fun _ hp => getNestedValue_setNestedValue hp⟩

theorem keepsApart_remove (parts : List Bytes) (doc : LinkedObj) :
    KeepsApart parts doc (doc.removeNestedValue parts) := by
  intro h
  unfold LinkedObj.removeNestedValue
  split
  · exact ⟨h, fun _ _ => rfl⟩
  · rw [placeOf_of_no_links h, h]
    exact ⟨rfl, fun _ hp => getNestedValue_removeNestedValue hp⟩

theorem numericOp_keepsApart {missing : UInt64 → UInt64}
    {combine : UInt64 → UInt64 → Option UInt64}
    (h : numericOp c missing combine doc path value = some doc') :
    ∃ parts, parseSimplePath path = some parts ∧ KeepsApart parts doc doc' := by
  unfold numericOp at h
  simp only [bind_eq_bind, bind_eq_some_iff] at h
  obtain ⟨parts, hparts, operand, -, h⟩ := h
  refine ⟨parts, hparts, ?_⟩
  split at h
  · cases h
    exact keepsApart_set parts doc _
  · obtain ⟨currentNum, -, h⟩ := bind_eq_some_iff.mp h
    split at h
    · cases h
      exact keepsApart_set parts doc _
    · cases h
      exact .refl parts doc

theorem arrayOp_keepsApart {missing : Json → Option (List Json)}
    {combine : List Json → Json → Option (List Json)}
    (h : arrayOp c missing combine doc path value = some doc') :
    ∃ parts, parseSimplePath path = some parts ∧ KeepsApart parts doc doc' := by
  unfold arrayOp at h
  simp only [bind_eq_bind, bind_eq_some_iff] at h
  obtain ⟨parts, hparts, v, -, h⟩ := h
  refine ⟨parts, hparts, ?_⟩
  split at h
  · split at h
    · cases h
      exact keepsApart_set parts doc _
    · cases h
      exact .refl parts doc
  · split at h
    · cases h
      exact keepsApart_set parts doc _
    · cases h
      exact .refl parts doc
  · cases h

theorem popOp_keepsApart (h : popOp c doc path value = some doc') :
    ∃ parts, parseSimplePath path = some parts ∧ KeepsApart parts doc doc' := by
  unfold popOp at h
  simp only [bind_eq_bind, bind_eq_some_iff] at h
  obtain ⟨parts, hparts, position, -, h⟩ := h
  refine ⟨parts, hparts, ?_⟩
  split at h
  · cases h
  · split at h
    · cases h
      exact .refl parts doc
    · split at h
      · cases h
        exact .refl parts doc
      · split at h
        · cases h
          exact keepsApart_set parts doc _
        · cases h
          exact keepsApart_set parts doc _
    · cases h

theorem applyTransformOp_frame {op : TransformOp} (h : applyTransformOp c doc op = some doc')
    (hrename : ¬ RenamesDocument c op) (hlinks : doc.links = []) :
    doc'.links = [] ∧ ∀ p, (∀ q ∈ targetPaths c op, Incomparable p q) →
      getNestedValue doc'.fields p = getNestedValue doc.fields p := by
  have hpath : (∃ parts, parseSimplePath op.path = some parts ∧ KeepsApart parts doc doc') →
      doc'.links = [] ∧ ∀ p, (∀ q ∈ targetPaths c op, Incomparable p q) →
        getNestedValue doc'.fields p = getNestedValue doc.fields p := by
    rintro ⟨parts, hparts, hkeeps⟩
    refine ⟨(hkeeps hlinks).1, fun p hp => (hkeeps hlinks).2 p (hp parts ?_)⟩
    apply mem_append_left
    rw [hparts]
    exact mem_cons_self
  unfold applyTransformOp at h
  cases hop : op.op <;> rw [hop] at h
  case inc => exact hpath (numericOp_keepsApart h)
  case mul => exact hpath (numericOp_keepsApart h)
  case min => exact hpath (numericOp_keepsApart h)
  case max => exact hpath (numericOp_keepsApart h)
  case push => exact hpath (arrayOp_keepsApart h)
  case pull => exact hpath (arrayOp_keepsApart h)
  case addToSet => exact hpath (arrayOp_keepsApart h)
  case pop => exact hpath (popOp_keepsApart h)
  case set =>
    apply hpath
    obtain ⟨parts, hparts, h⟩ := bind_eq_some_iff.mp h
    refine ⟨parts, hparts, ?_⟩
    dsimp only at h
    split at h
    · cases h
      exact keepsApart_set parts doc _
    · obtain ⟨v, -, h⟩ := bind_eq_some_iff.mp h
      cases h
      exact keepsApart_set parts doc v
  case unset =>
    apply hpath
    simp only [unsetOp, bind_eq_bind, bind_eq_some_iff] at h
    obtain ⟨parts, hparts, h⟩ := h
    cases h
    exact ⟨parts, hparts, keepsApart_remove parts doc⟩
  case currentDate =>
    apply hpath
    simp only [currentDateOp, bind_eq_bind, bind_eq_some_iff] at h
    obtain ⟨parts, hparts, h⟩ := h
    cases h
    exact ⟨parts, hparts, keepsApart_set parts doc _⟩
  case rename =>
    simp only [renameOp, bind_eq_bind, bind_eq_some_iff] at h
    obtain ⟨oldParts, hold, newPath, hnew, newParts, hparts, h⟩ := h
    have htarget : oldParts ∈ targetPaths c op ∧ newParts ∈ targetPaths c op := by
      unfold targetPaths
      rw [if_pos hop, hold, hnew]
      dsimp only [bind_some]
      rw [hparts]
      exact ⟨mem_cons_self, mem_cons_of_mem _ mem_cons_self⟩
    split at h
    · cases h
      exact ⟨hlinks, fun _ _ => rfl⟩
    · cases h
      obtain ⟨hremoved, hkept⟩ := keepsApart_remove oldParts doc hlinks
      by_cases hnone : newParts = []
      · rw [LinkedObj.setNestedValue, if_pos hnone]
        exact ⟨hremoved, fun p hp => hkept p (hp _ htarget.1)⟩
      · have hwithin : doc.linksIn (doc.follow oldParts) = [] := by
          rw [follow_of_no_links hlinks, LinkedObj.linksIn, hlinks, if_neg]
          · rfl
          · rintro rfl
            apply hrename
            refine ⟨hop, hold, newParts, hnone, ?_⟩
            rw [hnew]
            exact hparts
        rw [hwithin]
        obtain ⟨hset, hkept'⟩ := keepsApart_set newParts (doc.removeNestedValue oldParts) _ hremoved
        exact ⟨hset, fun p hp => (hkept' p (hp _ htarget.2)).trans (hkept p (hp _ htarget.1))⟩

theorem applyTransformOps_frame {ops : List TransformOp}
    (hrename : ∀ op ∈ ops, ¬ RenamesDocument c op) (hlinks : doc.links = []) :
    (applyTransformOps c doc ops).links = [] ∧
      ∀ p, (∀ op ∈ ops, ∀ q ∈ targetPaths c op, Incomparable p q) →
        getNestedValue (applyTransformOps c doc ops).fields p = getNestedValue doc.fields p := by
  induction ops generalizing doc with
  | nil => exact ⟨hlinks, fun _ _ => rfl⟩
  | cons op ops ih =>
    obtain ⟨hstep, hkept⟩ : ((applyTransformOp c doc op).getD doc).links = [] ∧
        ∀ p, (∀ q ∈ targetPaths c op, Incomparable p q) →
          getNestedValue ((applyTransformOp c doc op).getD doc).fields p =
            getNestedValue doc.fields p := by
      cases hop : applyTransformOp c doc op with
      | none => exact ⟨hlinks, fun _ _ => rfl⟩
      | some doc' => exact applyTransformOp_frame hop (hrename op mem_cons_self) hlinks
    obtain ⟨hrun, hrest⟩ := ih (fun op' hop' => hrename op' (mem_cons_of_mem op hop')) hstep
    exact ⟨hrun, fun p hp => (hrest p fun op' hop' => hp op' (mem_cons_of_mem op hop')).trans
      (hkept p (hp op mem_cons_self))⟩

theorem applyTransformOps_skip {pre post : List TransformOp} {op : TransformOp}
    (h : applyTransformOp c (applyTransformOps c doc pre) op = none) :
    applyTransformOps c doc (pre ++ op :: post) = applyTransformOps c doc (pre ++ post) := by
  rw [applyTransformOps_append, applyTransformOps_append]
  change applyTransformOps c ((applyTransformOp c (applyTransformOps c doc pre) op).getD _) post = _
  rw [h]
  rfl

end Operations

end Antfly
