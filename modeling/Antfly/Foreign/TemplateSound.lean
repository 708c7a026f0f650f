import Antfly.Foreign.Templates
import Mathlib.Data.List.Basic

/-!
A key or a transform value should be its template with every reference in the place of its column's
value.  The replacements give that, each in its turn, if and only if the text of the reference is
spelled only where the template has it.  A column value that spells a later reference is expanded.
-/

namespace Antfly.Foreign

open Substitution List

section Match

variable {s template name : Bytes}

theorem matchRef_prefix (h : matchRef s = some name) : refText name <+: s := by
  unfold matchRef at h
  dsimp only at h
  split at h
  · next hcond =>
      obtain rfl := Option.some.inj h
      exact hcond.2
  · cases h

theorem not_brace_of_matchRef (h : matchRef s = some name) : (123 : UInt8) ∉ name := by
  unfold matchRef at h
  dsimp only at h
  split at h
  · obtain rfl := Option.some.inj h
    intro hmem
    exact absurd (mem_takeWhile_imp hmem) (by decide)
  · cases h

theorem refText_ne_nil (name : Bytes) : refText name ≠ [] := cons_ne_nil _ _

theorem refText_unbordered (hname : (123 : UInt8) ∉ name) : Unbordered (refText name) := by
  intro p hp hpre hsuf
  obtain ⟨q, hq⟩ := hsuf
  obtain ⟨rest, hrest⟩ := hpre
  obtain ⟨a, p, rfl⟩ := exists_cons_of_ne_nil hp
  have hbody : (123 : UInt8) ∉ name ++ closeBraces := by
    rw [mem_append]
    exact not_or.mpr ⟨hname, by decide⟩
  have htext : refText name = 123 :: 123 :: (name ++ closeBraces) := rfl
  rw [htext, cons_append, List.cons.injEq] at hrest
  obtain ⟨rfl, hrest⟩ := hrest
  match q with
  | [] => exact hq
  | [b] =>
    -- The border would begin with the second brace.
    rw [htext, cons_append, nil_append, List.cons.injEq, List.cons.injEq] at hq
    rw [hq.2.2] at hrest
    cases hbodyEq : name ++ closeBraces with
    | nil => exact absurd hbodyEq (by simp [closeBraces])
    | cons c body =>
      rw [hbodyEq, cons_append, List.cons.injEq] at hrest
      rw [hbodyEq, hrest.1] at hbody
      exact absurd mem_cons_self hbody
  | b :: c :: q =>
    rw [htext, cons_append, cons_append, List.cons.injEq, List.cons.injEq] at hq
    rw [← hq.2.2] at hbody
    exact absurd (mem_append_right q mem_cons_self) hbody

theorem text_piecesFrom (skip : ℕ) (s : Bytes) :
    text refText (piecesFrom skip s) = s.drop skip := by
  induction s generalizing skip with
  | nil =>
    rw [drop_nil]
    cases skip <;> rfl
  | cons b s ih =>
    cases skip with
    | succ skip => exact ih skip
    | zero =>
      rw [drop_zero]
      cases hmatch : matchRef (b :: s) with
      | none =>
        have hpieces : piecesFrom 0 (b :: s) = .letter b :: piecesFrom 0 s := by
          rw [piecesFrom, hmatch]
        rw [hpieces]
        exact congrArg (b :: ·) ((ih 0).trans drop_zero)
      | some name =>
        have hpieces : piecesFrom 0 (b :: s) =
            .ref name :: piecesFrom ((refText name).length - 1) s := by
          rw [piecesFrom, hmatch]
        obtain ⟨rest, hrest⟩ := matchRef_prefix hmatch
        have htail : s.drop ((refText name).length - 1) = rest := by
          have hdrop := congrArg (List.drop (refText name).length) hrest
          rw [drop_left] at hdrop
          rw [hdrop]
          rfl
        rw [hpieces, text_ref_cons, ih, htail, hrest]

theorem text_pieces (template : Bytes) : text refText (pieces template) = template :=
  (text_piecesFrom 0 template).trans drop_zero

theorem not_brace_of_mem_piecesFrom {skip : ℕ} (h : .ref name ∈ piecesFrom skip s) :
    (123 : UInt8) ∉ name := by
  induction s generalizing skip with
  | nil => cases skip <;> exact absurd h not_mem_nil
  | cons b s ih =>
    cases skip with
    | succ skip => exact ih h
    | zero =>
      rw [piecesFrom] at h
      split at h
      · next found hmatch =>
          rcases mem_cons.mp h with heq | h
          · obtain rfl := Piece.ref.inj heq
            exact not_brace_of_matchRef hmatch
          · exact ih h
      · exact ih ((mem_cons.mp h).resolve_left (by simp))

theorem mem_columnRefs : name ∈ columnRefs template ↔ .ref name ∈ pieces template := by
  unfold columnRefs
  rw [mem_filterMap]
  constructor
  · rintro ⟨piece, hpiece, hname⟩
    cases piece with
    | letter b => cases hname
    | ref found =>
      obtain rfl := Option.some.inj hname
      exact hpiece
  · exact fun h => ⟨_, h, rfl⟩

theorem columnRefs_unbordered (h : name ∈ columnRefs template) : Unbordered (refText name) :=
  refText_unbordered (not_brace_of_mem_piecesFrom (mem_columnRefs.mp h))

end Match

/-- What is put in the place of a reference. -/
def printed (val : Except TemplateError RowValue) : Bytes :=
  match val with
  | .ok val => val.sprint
  | .error _ => []

def keyText (row : Row) (column : Bytes) : Bytes := printed (keyColumn row column)

def columnText (row : Row) (ref : Bytes) : Bytes := printed (navigateColumnRef ref row)

/-- The template with every reference in the place of its value. -/
def substituted (value : Bytes → Bytes) (template : Bytes) : Bytes := text value (pieces template)

def partly (value : Bytes → Bytes) (done : List Bytes) (template : Bytes) : Bytes :=
  text (shownAfter refText value done) (pieces template)

/-- At the turn of each reference its text is spelled only where the template has the reference. -/
def AllClear (value : Bytes → Bytes) (template : Bytes) : Prop :=
  ∀ done ref, done ++ [ref] <+: columnRefs template →
    Clear refText value (pieces template) done ref

section Loop

variable {get : Bytes → Except TemplateError RowValue} {refs : List Bytes} {template : Bytes}

/-- The loop over the references of a key and of a transform value. -/
def replaceWith (get : Bytes → Except TemplateError RowValue) (refs : List Bytes) (s : Bytes) :
    Except TemplateError Bytes :=
  refs.foldlM (fun result ref => do
    let val ← get ref
    return replaceAll (refText ref) val.sprint result) s

theorem replaceWith_cons (get : Bytes → Except TemplateError RowValue) (ref : Bytes)
    (refs : List Bytes) (s : Bytes) :
    replaceWith get (ref :: refs) s =
      (get ref).bind fun val => replaceWith get refs (replaceAll (refText ref) val.sprint s) := by
  unfold replaceWith
  rw [foldlM_cons]
  cases get ref <;> rfl

theorem replaceWith_ok (h : ∀ ref ∈ refs, ∃ val, get ref = .ok val) (s : Bytes) :
    replaceWith get refs s = .ok (replaceRefs refText (fun ref => printed (get ref)) refs s) := by
  induction refs generalizing s with
  | nil => rfl
  | cons ref refs ih =>
    obtain ⟨val, hval⟩ := h ref mem_cons_self
    have hrest := ih (fun ref hmem => h ref (mem_cons_of_mem _ hmem))
      (replaceAll (refText ref) val.sprint s)
    rw [replaceWith_cons, hval]
    refine hrest.trans ?_
    have hprinted : printed (get ref) = val.sprint := by
      rw [hval]
      rfl
    unfold replaceRefs
    rw [foldl_cons]
    dsimp only
    rw [hprinted]

theorem resolves_of_replaceWith {s result : Bytes} (h : replaceWith get refs s = .ok result) :
    ∀ ref ∈ refs, ∃ val, get ref = .ok val := by
  induction refs generalizing s with
  | nil => exact fun _ hmem => absurd hmem not_mem_nil
  | cons ref refs ih =>
    rw [replaceWith_cons] at h
    cases hval : get ref with
    | error e =>
      rw [hval] at h
      cases h
    | ok val =>
      rw [hval] at h
      intro found hmem
      rcases mem_cons.mp hmem with rfl | hmem
      · exact ⟨val, hval⟩
      · exact ih h found hmem

/-- The loop over the first references gives them their values, however many they are, if and only
if every reference is clear at its turn. -/
theorem replaceWith_partly_iff (h : ∀ ref ∈ columnRefs template, ∃ val, get ref = .ok val) :
    (∀ done, done <+: columnRefs template → replaceWith get done template =
        .ok (partly (fun ref => printed (get ref)) done template)) ↔
      AllClear (fun ref => printed (get ref)) template := by
  refine Iff.trans ?_ (replaceRefs_iff (fun ref _ => refText_ne_nil ref)
    fun ref hmem => columnRefs_unbordered hmem)
  rw [text_pieces]
  refine forall₂_congr fun done hdone => ?_
  rw [replaceWith_ok fun ref hmem => h ref (hdone.subset hmem), Except.ok.injEq]
  rfl

theorem replaceWith_of_clear (hclear : AllClear (fun ref => printed (get ref)) template)
    {result : Bytes} (h : replaceWith get (columnRefs template) template = .ok result) :
    result = substituted (fun ref => printed (get ref)) template := by
  have hresolves := resolves_of_replaceWith h
  have hpartly := (replaceWith_partly_iff hresolves).mpr hclear _ (prefix_refl _)
  rw [h, Except.ok.injEq] at hpartly
  rw [hpartly]
  exact text_shownAfter_of_mem fun ref hmem => mem_columnRefs.mpr hmem

end Loop

section Templates

variable {row : Row} {template : Bytes}

theorem replaceKeyColumns_of_extractKey {key : Bytes} (h : extractKey row template = .ok key)
    (hrefs : contains template openBraces = true) :
    replaceWith (keyColumn row) (columnRefs template) template = .ok key := by
  unfold extractKey at h
  split at h
  · cases h
  · rwa [hrefs, Bool.not_true, if_neg Bool.false_ne_true] at h

theorem pieces_of_whole {ref : Bytes} (hrefs : columnRefs template = [ref])
    (hwhole : refText ref = template) : pieces template = [.ref ref] := by
  have htext := text_pieces template
  have hmem := mem_columnRefs.mp (hrefs ▸ mem_singleton_self ref)
  obtain ⟨l, l', hsplit⟩ := append_of_mem hmem
  rw [hsplit, text_append, text_ref_cons, hwhole] at htext
  have hlength := congrArg List.length htext
  rw [length_append, length_append] at hlength
  have hspelled : ∀ m : List (Piece UInt8 Bytes), (text refText m).length = 0 → m = [] := by
    intro m hm
    match m with
    | [] => rfl
    | piece :: m =>
      refine absurd hm ?_
      cases piece <;> simp [text, Piece.spelled, refText, openBraces]
  rw [hsplit, hspelled l (by omega), hspelled l' (by omega)]
  rfl

theorem resolveValue_cases {v : RowValue} (h : resolveValue (.text template) row = .ok v) :
    (∃ ref, pieces template = [.ref ref] ∧ navigateColumnRef ref row = .ok v) ∨
      ∃ result, v = .text result ∧
        replaceWith (fun ref => navigateColumnRef ref row) (columnRefs template) template =
          .ok result := by
  unfold resolveValue at h
  dsimp only at h
  split at h
  · next hrefs =>
      refine .inr ⟨template, (Except.ok.inj h).symm, ?_⟩
      rw [hrefs]
      rfl
  · next ref refs hrefs =>
      split at h
      · next hwhole =>
          obtain ⟨rfl, hwhole⟩ := hwhole
          exact .inl ⟨ref, pieces_of_whole hrefs hwhole, h⟩
      · cases hresult : replaceColumns row (ref :: refs) template with
        | error e =>
          rw [hresult] at h
          cases h
        | ok result =>
          rw [hresult] at h
          refine .inr ⟨result, (Except.ok.inj h).symm, ?_⟩
          rw [hrefs]
          exact hresult

/-- In a key and in a transform value that are made at all, every replacement gives the template's
own references their values and leaves the rest of the template as it is, if and only if the text
of each reference is clear at its turn, and what is made is then the template with every reference
in the place of its column's value. -/
theorem templates_substituted_iff (row : Row) (template : Bytes) :
    (∀ key, extractKey row template = .ok key → contains template openBraces = false →
        key = keyText row template) ∧
      (∀ key, extractKey row template = .ok key → contains template openBraces = true →
        ((∀ done, done <+: columnRefs template → replaceKeyColumns row done template =
            .ok (partly (keyText row) done template)) ↔ AllClear (keyText row) template) ∧
          (AllClear (keyText row) template → key = substituted (keyText row) template)) ∧
      ∀ v, resolveValue (.text template) row = .ok v →
        ((∀ done, done <+: columnRefs template → replaceColumns row done template =
            .ok (partly (columnText row) done template)) ↔ AllClear (columnText row) template) ∧
          (AllClear (columnText row) template →
            v.sprint = substituted (columnText row) template) := by
  refine ⟨fun key hkey hrefs => ?_, fun key hkey hrefs => ?_, fun v hv => ?_⟩
  · unfold extractKey at hkey
    split at hkey
    · cases hkey
    · rw [hrefs, Bool.not_false, if_pos rfl] at hkey
      unfold keyText
      cases hval : keyColumn row template with
      | error e =>
        rw [hval] at hkey
        cases hkey
      | ok val =>
        rw [hval] at hkey
        exact (Except.ok.inj hkey).symm
  · have hloop := replaceKeyColumns_of_extractKey hkey hrefs
    exact ⟨replaceWith_partly_iff (resolves_of_replaceWith hloop),
      fun hclear => replaceWith_of_clear hclear hloop⟩
  · rcases resolveValue_cases hv with ⟨ref, hpieces, href⟩ | ⟨result, rfl, hloop⟩
    · refine ⟨replaceWith_partly_iff fun found hmem => ⟨v, ?_⟩, fun _ => ?_⟩
      · rw [mem_columnRefs, hpieces, List.mem_singleton] at hmem
        obtain rfl := Piece.ref.inj hmem
        exact href
      · have htext : text (columnText row) (pieces template) = columnText row ref ++ [] := by
          rw [hpieces]
          rfl
        unfold substituted
        rw [htext, List.append_nil]
        unfold columnText
        rw [href]
        rfl
    · exact ⟨replaceWith_partly_iff (resolves_of_replaceWith hloop),
        fun hclear => replaceWith_of_clear hclear hloop⟩

def twoColumns : Row := [([97], .text [49]), ([98], .text [50])]

def twoRefs : Bytes := refText [97] ++ [45] ++ refText [98]

theorem templates_substituted_iff_twoRefs :
    extractKey twoColumns twoRefs = .ok [49, 45, 50] ∧ AllClear (keyText twoColumns) twoRefs := by
  have hsteps : ∀ done ∈ (columnRefs twoRefs).inits,
      replaceKeyColumns twoColumns done twoRefs =
        .ok (partly (keyText twoColumns) done twoRefs) := by decide +kernel
  refine ⟨rfl, ((templates_substituted_iff twoColumns twoRefs).2.1 _ rfl rfl).1.mp ?_⟩
  exact fun done hdone => hsteps done ((List.mem_inits done _).mpr hdone)

/-- A key is not the template with every reference in the place of its value: the value of `a` is
the text of the reference to `b`, which is expanded when the turn of `b` comes. -/
theorem extractKey_expands_value :
    ¬ ∀ (row : Row) (template key : Bytes), extractKey row template = .ok key →
      contains template openBraces = true → key = substituted (keyText row) template := by
  intro h
  have hkey := h [([97], .text (refText [98])), ([98], .text [120])]
    twoRefs [120, 45, 120] rfl rfl
  exact absurd hkey (by decide)

end Templates

end Antfly.Foreign
