import Mathlib.Data.List.Infix

/-!
A text is made of single letters and of references, each spelled by a token of its own.  Replacing
every occurrence of a token in the spelled text is not always the same as giving the references
their values: the token may also be spelled by letters and by values put in before.  The two agree,
reference after reference, if and only if no part of the text without the reference spells its
token, unless the value is the token itself.
-/

namespace Substitution

open List

variable {α : Type*} [DecidableEq α]

def replaceFrom (old new : List α) : ℕ → List α → List α
  | _, [] => []
  | skip + 1, _ :: s => replaceFrom old new skip s
  | 0, a :: s =>
    if old <+: a :: s then new ++ replaceFrom old new (old.length - 1) s
    else a :: replaceFrom old new 0 s

/-- Every occurrence of `old`, from the left and without overlaps, becomes `new`. -/
def replaceAll (old new s : List α) : List α := replaceFrom old new 0 s

/-- No proper beginning is also an end. -/
def Unbordered (old : List α) : Prop :=
  ∀ p : List α, p ≠ [] → p <+: old → p <:+ old → p = old

section Replace

variable {old new s : List α}

theorem replaceFrom_eq_drop (old new : List α) (skip : ℕ) (s : List α) :
    replaceFrom old new skip s = replaceAll old new (s.drop skip) := by
  induction s generalizing skip with
  | nil =>
    rw [drop_nil]
    rfl
  | cons a s ih =>
    cases skip with
    | zero => rfl
    | succ skip => exact ih skip

@[simp]
theorem replaceAll_nil (old new : List α) : replaceAll old new [] = [] := rfl

theorem replaceAll_append_self (hne : old ≠ []) (s : List α) :
    replaceAll old new (old ++ s) = new ++ replaceAll old new s := by
  obtain ⟨a, rest, rfl⟩ := exists_cons_of_ne_nil hne
  have hpre : a :: rest <+: a :: (rest ++ s) := prefix_append (a :: rest) s
  unfold replaceAll
  rw [cons_append, replaceFrom, if_pos hpre, replaceFrom_eq_drop, length_cons,
    Nat.add_sub_cancel, drop_left]
  rfl

theorem replaceAll_cons_of_mismatch {a : α} (h : ¬ old <+: a :: s) :
    replaceAll old new (a :: s) = a :: replaceAll old new s := by
  unfold replaceAll
  rw [replaceFrom, if_neg h]

theorem replaceAll_self (hne : old ≠ []) (s : List α) : replaceAll old old s = s := by
  induction hlength : s.length using Nat.strong_induction_on generalizing s with
  | _ n ih =>
    match s with
    | [] => rfl
    | a :: s =>
      by_cases hpre : old <+: a :: s
      · obtain ⟨rest, hrest⟩ := hpre
        have hpos := length_pos_of_ne_nil hne
        have hshort := congrArg List.length hrest
        rw [length_append] at hshort
        rw [← hrest, replaceAll_append_self hne, ih rest.length (by omega) rest rfl]
      · rw [length_cons] at hlength
        rw [replaceAll_cons_of_mismatch hpre, ih s.length (by omega) s rfl]

theorem replaceAll_of_not_infix (h : ¬ old <:+: s) : replaceAll old new s = s := by
  induction s with
  | nil => rfl
  | cons a s ih =>
    rw [replaceAll_cons_of_mismatch fun hpre => h hpre.isInfix,
      ih fun hin => h (hin.trans (suffix_cons a s).isInfix)]

/-- Around an occurrence of a token without a border, the parts are replaced each by itself. -/
theorem replaceAll_append (hne : old ≠ []) (hold : Unbordered old) (x y : List α) :
    replaceAll old new (x ++ (old ++ y)) =
      replaceAll old new x ++ (new ++ replaceAll old new y) := by
  induction hlength : x.length using Nat.strong_induction_on generalizing x with
  | _ n ih =>
    match x with
    | [] => rw [nil_append, replaceAll_append_self hne, replaceAll_nil, nil_append]
    | a :: x =>
      rw [length_cons] at hlength
      by_cases hpre : old <+: a :: x
      · obtain ⟨rest, hrest⟩ := hpre
        have hpos := length_pos_of_ne_nil hne
        have hshort := congrArg List.length hrest
        rw [length_append, length_cons] at hshort
        rw [← hrest, append_assoc, replaceAll_append_self hne, replaceAll_append_self hne,
          ih rest.length (by omega) rest rfl, append_assoc]
      · have hwhole : ¬ old <+: a :: (x ++ (old ++ y)) := by
          intro hwhole
          rcases prefix_or_prefix_of_prefix hwhole
            (prefix_append (a :: x) (old ++ y)) with h | h
          · exact hpre h
          · -- The occurrence begins in `x` and ends in `old`, as the overlap is no border.
            obtain ⟨overlap, hoverlap⟩ := h
            obtain ⟨rest, hrest⟩ := hwhole
            have htail : overlap ++ rest = old ++ y := by
              refine @append_cancel_left _ (a :: x) _ _ ?_
              rw [← append_assoc, hoverlap, hrest]
              rfl
            have hbegin : overlap <+: old := by
              refine prefix_of_prefix_length_le ⟨rest, htail⟩
                (prefix_append old y) ?_
              rw [← hoverlap, length_append]
              omega
            have hnil : overlap ≠ [] := by
              rintro rfl
              rw [append_nil] at hoverlap
              exact hpre (hoverlap ▸ prefix_refl _)
            have heq := hold overlap hnil hbegin ⟨a :: x, hoverlap⟩
            have hlen := congrArg List.length hoverlap
            rw [length_append, length_cons, heq] at hlen
            omega
        rw [cons_append, replaceAll_cons_of_mismatch hwhole,
          replaceAll_cons_of_mismatch hpre, ih x.length (by omega) x rfl, cons_append]

/-- The replaced text is no longer than the text if the new piece is no longer, and no shorter if
it is no shorter. -/
theorem length_replaceAll (new s : List α) (hne : old ≠ []) :
    (new.length ≤ old.length → (replaceAll old new s).length ≤ s.length) ∧
      (old.length ≤ new.length → s.length ≤ (replaceAll old new s).length) := by
  induction hlength : s.length using Nat.strong_induction_on generalizing s with
  | _ n ih =>
    match s with
    | [] => exact ⟨fun _ => hlength ▸ Nat.le_refl _, fun _ => hlength ▸ Nat.le_refl _⟩
    | a :: s =>
      by_cases hpre : old <+: a :: s
      · obtain ⟨rest, hrest⟩ := hpre
        have hpos := length_pos_of_ne_nil hne
        have hshort := congrArg List.length hrest
        rw [length_append] at hshort
        obtain ⟨hle, hge⟩ := ih rest.length (by omega) rest rfl
        rw [← hrest, replaceAll_append_self hne, length_append]
        exact ⟨fun h => by have := hle h; omega, fun h => by have := hge h; omega⟩
      · rw [length_cons] at hlength
        obtain ⟨hle, hge⟩ := ih s.length (by omega) s rfl
        rw [replaceAll_cons_of_mismatch hpre, length_cons]
        exact ⟨fun h => by have := hle h; omega, fun h => by have := hge h; omega⟩

theorem not_infix_of_replaceAll_eq (hne : old ≠ []) (hnew : new ≠ old)
    (h : replaceAll old new s = s) : ¬ old <:+: s := by
  induction s with
  | nil => exact fun hin => hne (eq_nil_of_infix_nil hin)
  | cons a s ih =>
    by_cases hpre : old <+: a :: s
    · obtain ⟨rest, hrest⟩ := hpre
      rw [← hrest, replaceAll_append_self hne] at h
      obtain ⟨hle, hge⟩ := length_replaceAll new rest hne
      have hlength := congrArg List.length h
      rw [length_append, length_append] at hlength
      have hsame : new.length = old.length := by
        rcases Nat.le_total new.length old.length with hnl | hnl
        · have := hle hnl
          omega
        · have := hge hnl
          omega
      exact absurd (append_inj_left h hsame) hnew
    · rw [replaceAll_cons_of_mismatch hpre, List.cons.injEq] at h
      rw [infix_cons_iff]
      exact not_or.mpr ⟨hpre, ih h.2⟩

theorem replaceAll_eq_self_iff (hne : old ≠ []) :
    replaceAll old new s = s ↔ new = old ∨ ¬ old <:+: s := by
  constructor
  · intro h
    by_cases hnew : new = old
    · exact .inl hnew
    · exact .inr (not_infix_of_replaceAll_eq hne hnew h)
  · rintro (rfl | h)
    · exact replaceAll_self hne s
    · exact replaceAll_of_not_infix h

end Replace

inductive Piece (α ρ : Type*) where
  | letter (a : α)
  | ref (r : ρ)
  deriving DecidableEq

variable {ρ : Type*}

/-- What a piece spells where every reference is shown as given. -/
def Piece.spelled (shown : ρ → List α) : Piece α ρ → List α
  | .letter a => [a]
  | .ref r => shown r

def text (shown : ρ → List α) (pieces : List (Piece α ρ)) : List α :=
  pieces.flatMap (Piece.spelled shown)

section Text

variable {shown shown' : ρ → List α} {r : ρ} {l l' pieces : List (Piece α ρ)}

omit [DecidableEq α] in
theorem text_append (shown : ρ → List α) (l l' : List (Piece α ρ)) :
    text shown (l ++ l') = text shown l ++ text shown l' := flatMap_append

omit [DecidableEq α] in
theorem text_ref_cons (shown : ρ → List α) (r : ρ) (l : List (Piece α ρ)) :
    text shown (.ref r :: l) = shown r ++ text shown l := flatMap_cons

omit [DecidableEq α] in
theorem text_congr (h : ∀ r, .ref r ∈ l → shown r = shown' r) : text shown l = text shown' l := by
  unfold text
  rw [flatMap_def, flatMap_def]
  congr 1
  refine map_congr_left fun piece hpiece => ?_
  cases piece with
  | letter a => rfl
  | ref r => exact h r hpiece

omit [DecidableEq α] in
theorem text_occurs (h : l <:+: l') : text shown l <:+: text shown l' := by
  obtain ⟨s, t, rfl⟩ := h
  rw [text_append, text_append]
  exact ⟨text shown s, text shown t, rfl⟩

omit [DecidableEq α] in
theorem infix_of_infix_append_cons {a : Piece α ρ} (h : pieces <:+: l ++ a :: l')
    (ha : a ∉ pieces) : pieces <:+: l ∨ pieces <:+: l' := by
  obtain ⟨s, t, heq⟩ := h
  rcases append_eq_append_iff.mp heq with ⟨u, hl, ht⟩ | ⟨u, hs, hl'⟩
  · exact .inl ⟨s, u, hl.symm⟩
  · match u with
    | [] =>
      rw [append_nil] at hs
      exact .inl ⟨s, [], by rw [append_nil, hs]⟩
    | b :: u =>
      rw [cons_append, List.cons.injEq] at hl'
      obtain ⟨rfl, hl'⟩ := hl'
      rcases append_eq_append_iff.mp hs with ⟨v, hv, hpieces⟩ | ⟨v, hv, hbu⟩
      · exact absurd (hpieces ▸ mem_append_right v mem_cons_self) ha
      · match v with
        | [] =>
          rw [nil_append] at hbu
          exact absurd (hbu ▸ mem_cons_self) ha
        | _ :: v =>
          rw [cons_append, List.cons.injEq] at hbu
          exact .inr ⟨v, t, by rw [← hbu.2, hl']⟩

omit [DecidableEq α] in
theorem split_induction {motive : List (Piece α ρ) → Prop} (r : ρ)
    (free : ∀ l, .ref r ∉ l → motive l)
    (split : ∀ l l', .ref r ∉ l → motive l' → motive (l ++ .ref r :: l'))
    (l : List (Piece α ρ)) : motive l := by
  classical
  induction hlength : l.length using Nat.strong_induction_on generalizing l with
  | _ n ih =>
    by_cases hmem : Piece.ref r ∈ l
    · obtain ⟨before, behind, rfl, hfree⟩ := eq_append_cons_of_mem hmem
      rw [length_append, length_cons] at hlength
      exact split before behind hfree (ih behind.length (by omega) behind rfl)
    · exact free l hmem

end Text

section Step

variable {shown shown' : ρ → List α} {r : ρ} {old new : List α} {pieces : List (Piece α ρ)}

theorem length_replaceAll_text (hne : old ≠ []) (hold : Unbordered old) (hshown : shown r = old)
    (hshown' : shown' r = new) (hsame : ∀ q, q ≠ r → shown q = shown' q) :
    (new.length ≤ old.length →
        (replaceAll old new (text shown pieces)).length ≤ (text shown' pieces).length) ∧
      (old.length ≤ new.length →
        (text shown' pieces).length ≤ (replaceAll old new (text shown pieces)).length) := by
  have hfreeText : ∀ l, .ref r ∉ l → text shown l = text shown' l := fun l hfree =>
    text_congr fun q hq => hsame q (by rintro rfl; exact hfree hq)
  induction pieces using split_induction r with
  | free l hfree =>
    rw [← hfreeText l hfree]
    exact length_replaceAll new (text shown l) hne
  | split l l' hfree ih =>
    obtain ⟨hle, hge⟩ := length_replaceAll new (text shown l) hne
    rw [text_append, text_append, text_ref_cons, text_ref_cons, hshown, hshown',
      replaceAll_append hne hold, ← hfreeText l hfree]
    simp only [length_append]
    exact ⟨fun h => by have := hle h; have := ih.1 h; omega,
      fun h => by have := hge h; have := ih.2 h; omega⟩

/-- Replacing the token of a reference gives every occurrence of the reference its value and leaves
the rest as it is, if and only if no part without the reference spells the token. -/
theorem replaceAll_text_iff (hne : old ≠ []) (hold : Unbordered old) (hshown : shown r = old)
    (hshown' : shown' r = new) (hsame : ∀ q, q ≠ r → shown q = shown' q) :
    replaceAll old new (text shown pieces) = text shown' pieces ↔
      new = old ∨ ∀ part, part <:+: pieces → .ref r ∉ part → ¬ old <:+: text shown part := by
  have hfreeText : ∀ l, .ref r ∉ l → text shown l = text shown' l := fun l hfree =>
    text_congr fun q hq => hsame q (by rintro rfl; exact hfree hq)
  induction pieces using split_induction r with
  | free l hfree =>
    rw [← hfreeText l hfree, replaceAll_eq_self_iff hne]
    refine or_congr_right
      ⟨fun h part hpart _ hin => h (hin.trans (text_occurs hpart)), fun h => ?_⟩
    exact h l (infix_refl l) hfree
  | split l l' hfree ih =>
    have hparts : replaceAll old new (text shown (l ++ .ref r :: l')) =
          text shown' (l ++ .ref r :: l') ↔
        replaceAll old new (text shown l) = text shown l ∧
          replaceAll old new (text shown l') = text shown' l' := by
      obtain ⟨hle, hge⟩ := length_replaceAll new (text shown l) hne
      obtain ⟨hle', hge'⟩ :=
        @length_replaceAll_text _ _ _ shown shown' r old new l' hne hold hshown hshown' hsame
      rw [text_append, text_append, text_ref_cons, text_ref_cons, hshown, hshown',
        replaceAll_append hne hold, ← hfreeText l hfree]
      constructor
      · intro h
        have hlength := congrArg List.length h
        simp only [length_append] at hlength
        have hfirst : (replaceAll old new (text shown l)).length = (text shown l).length := by
          rcases Nat.le_total new.length old.length with hnl | hnl
          · have := hle hnl
            have := hle' hnl
            omega
          · have := hge hnl
            have := hge' hnl
            omega
        obtain ⟨hl, htail⟩ := append_inj h hfirst
        exact ⟨hl, append_cancel_left htail⟩
      · rintro ⟨hl, hl'⟩
        rw [hl, hl']
    refine hparts.trans ((and_congr (replaceAll_eq_self_iff hne) ih).trans ?_)
    rw [← or_and_left]
    refine or_congr_right ⟨?_, fun h => ⟨?_, ?_⟩⟩
    · rintro ⟨hl, hl'⟩ part hpart hpartFree hin
      rcases infix_of_infix_append_cons hpart hpartFree with hpart | hpart
      · exact hl (hin.trans (text_occurs hpart))
      · exact hl' part hpart hpartFree hin
    · exact h l (prefix_append l _).isInfix hfree
    · intro part hpart
      refine h part (hpart.trans ⟨l ++ [.ref r], [], ?_⟩)
      simp

end Step

section Run

variable [DecidableEq ρ] {token value : ρ → List α} {pieces : List (Piece α ρ)}

/-- Every occurrence of the tokens of the references, one reference after the other. -/
def replaceRefs (token value : ρ → List α) (refs : List ρ) (s : List α) : List α :=
  refs.foldl (fun s r => replaceAll (token r) (value r) s) s

/-- The references in the list have their values, the others their tokens. -/
def shownAfter (token value : ρ → List α) (done : List ρ) (r : ρ) : List α :=
  if r ∈ done then value r else token r

/-- When the references `done` have their values, the token of `r` is spelled by no part of the
text without a reference `r` that waits for its value, or the value of `r` is its token. -/
def Clear (token value : ρ → List α) (pieces : List (Piece α ρ)) (done : List ρ) (r : ρ) : Prop :=
  value r = token r ∨ ∀ part, part <:+: pieces → (r ∉ done → .ref r ∉ part) →
    ¬ token r <:+: text (shownAfter token value done) part

theorem replaceAll_shownAfter_iff {done : List ρ} {r : ρ} (hne : token r ≠ [])
    (hold : Unbordered (token r)) :
    replaceAll (token r) (value r) (text (shownAfter token value done) pieces) =
        text (shownAfter token value (done ++ [r])) pieces ↔
      Clear token value pieces done r := by
  by_cases hdone : r ∈ done
  · have hsame : shownAfter token value (done ++ [r]) = shownAfter token value done := by
      funext q
      unfold shownAfter
      by_cases hq : q ∈ done
      · rw [if_pos hq, if_pos (mem_append_left _ hq)]
      · rw [if_neg hq, if_neg]
        rw [mem_append, mem_singleton]
        rintro (h | rfl)
        · exact hq h
        · exact hq hdone
    rw [hsame, replaceAll_eq_self_iff hne]
    refine or_congr_right ⟨fun h part hpart _ hin => h (hin.trans (text_occurs hpart)), fun h => ?_⟩
    exact h pieces (infix_refl pieces) (absurd hdone)
  · rw [replaceAll_text_iff hne hold]
    · exact or_congr_right (forall₂_congr fun part _ =>
        ⟨fun h hfree => h (hfree hdone), fun h hfree => h fun _ => hfree⟩)
    · exact if_neg hdone
    · exact if_pos (mem_append_right _ (mem_singleton_self r))
    · intro q hq
      unfold shownAfter
      simp only [mem_append, mem_singleton, hq, or_false]

omit [DecidableEq ρ] in
theorem replaceRefs_append_singleton (token value : ρ → List α) (first : List ρ) (r : ρ)
    (s : List α) : replaceRefs token value (first ++ [r]) s =
      replaceAll (token r) (value r) (replaceRefs token value first s) := by
  unfold replaceRefs
  rw [foldl_append]
  rfl

omit [DecidableEq α] in
theorem text_shownAfter_nil (token value : ρ → List α) (pieces : List (Piece α ρ)) :
    text (shownAfter token value []) pieces = text token pieces :=
  text_congr fun _ _ => if_neg not_mem_nil

/-- After every replacement the references so far have their values and the rest of the text is as
it was, if and only if every token was clear when its turn came. -/
theorem replaceRefs_iff {refs : List ρ} (hne : ∀ r ∈ refs, token r ≠ [])
    (hold : ∀ r ∈ refs, Unbordered (token r)) :
    (∀ first, first <+: refs → replaceRefs token value first (text token pieces) =
        text (shownAfter token value first) pieces) ↔
      ∀ first r, first ++ [r] <+: refs → Clear token value pieces first r := by
  have hmem : ∀ first r, first ++ [r] <+: refs → r ∈ refs := fun first r h =>
    h.subset (mem_append_right _ (mem_singleton_self r))
  constructor
  · intro h first r hfirst
    have hbefore := h first ((prefix_append first [r]).trans hfirst)
    have hafter := h (first ++ [r]) hfirst
    rw [replaceRefs_append_singleton, hbefore] at hafter
    exact (replaceAll_shownAfter_iff (hne r (hmem first r hfirst))
      (hold r (hmem first r hfirst))).mp hafter
  · intro h first
    induction first using List.reverseRecOn with
    | nil =>
      intro _
      exact (text_shownAfter_nil token value pieces).symm
    | append_singleton first r ih =>
      intro hfirst
      rw [replaceRefs_append_singleton, ih ((prefix_append first [r]).trans hfirst)]
      exact (replaceAll_shownAfter_iff (hne r (hmem first r hfirst))
        (hold r (hmem first r hfirst))).mpr (h first r hfirst)

omit [DecidableEq α] in
theorem text_shownAfter_of_mem {refs : List ρ} (h : ∀ r, .ref r ∈ pieces → r ∈ refs) :
    text (shownAfter token value refs) pieces = text value pieces :=
  text_congr fun r hr => if_pos (h r hr)

end Run

end Substitution
