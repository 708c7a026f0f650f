import Mathlib.Data.List.Basic
import Mathlib.Data.List.Infix
import Mathlib.Tactic.Common

/-!
A pattern is a list of letters, of wildcards for one letter, and of wildcards for any letters.  A
table that is filled row by row, one row for each item of the pattern and one entry for each
beginning of the text, decides whether the pattern matches.

Letters may be written as sequences of smaller ones, as characters are as bytes.  When it can be
told where a sequence begins, and no sequence begins another, matching the sequences is matching the
letters, except that a wildcard for one letter needs letters that are a single small one.
-/

namespace Glob

open List

variable {α β : Type*}

inductive Item (α : Type*) where
  | any
  | one
  | letter (a : α)
  deriving DecidableEq

section Matching

variable [DecidableEq α]

def isMatch : List (Item α) → List α → Bool
  | [], text => text.isEmpty
  | .any :: pattern, text => text.tails.any (isMatch pattern)
  | .one :: _, [] => false
  | .one :: pattern, _ :: text => isMatch pattern text
  | .letter _ :: _, [] => false
  | .letter a :: pattern, b :: text => decide (a = b) && isMatch pattern text

variable {pattern pattern' : List (Item α)} {text : List α} {a b : α}

theorem isMatch_nil_iff : isMatch [] text = true ↔ text = [] := isEmpty_iff

theorem isMatch_any_iff :
    isMatch (.any :: pattern) text = true ↔
      ∃ rest, rest <:+ text ∧ isMatch pattern rest = true := by
  rw [isMatch, any_eq_true]
  simp only [mem_tails]

theorem isMatch_one_iff :
    isMatch (.one :: pattern) text = true ↔
      ∃ a rest, text = a :: rest ∧ isMatch pattern rest = true := by
  cases text with
  | nil => exact iff_of_false Bool.false_ne_true fun ⟨a, rest, h, _⟩ => nomatch h
  | cons b text =>
    constructor
    · exact fun h => ⟨b, text, rfl, h⟩
    · rintro ⟨a, rest, h, hmatch⟩
      obtain ⟨rfl, rfl⟩ := List.cons.inj h
      exact hmatch

theorem isMatch_letter_iff :
    isMatch (.letter a :: pattern) text = true ↔
      ∃ rest, text = a :: rest ∧ isMatch pattern rest = true := by
  cases text with
  | nil => exact iff_of_false Bool.false_ne_true fun ⟨rest, h, _⟩ => nomatch h
  | cons b text =>
    rw [isMatch, Bool.and_eq_true, decide_eq_true_eq]
    constructor
    · rintro ⟨rfl, h⟩
      exact ⟨text, rfl, h⟩
    · rintro ⟨rest, h, hmatch⟩
      obtain ⟨rfl, rfl⟩ := List.cons.inj h
      exact ⟨rfl, hmatch⟩

theorem isMatch_append_iff :
    isMatch (pattern ++ pattern') text = true ↔
      ∃ u v, text = u ++ v ∧ isMatch pattern u = true ∧ isMatch pattern' v = true := by
  induction pattern generalizing text with
  | nil =>
    constructor
    · exact fun h => ⟨[], text, rfl, rfl, h⟩
    · rintro ⟨u, v, rfl, hu, hv⟩
      rw [isMatch_nil_iff.mp hu]
      exact hv
  | cons item pattern ih =>
    rw [cons_append]
    cases item with
    | any =>
      rw [isMatch_any_iff]
      constructor
      · rintro ⟨rest, ⟨start, rfl⟩, h⟩
        obtain ⟨u, v, rfl, hu, hv⟩ := ih.mp h
        exact ⟨start ++ u, v, (append_assoc _ _ _).symm,
          isMatch_any_iff.mpr ⟨u, ⟨start, rfl⟩, hu⟩, hv⟩
      · rintro ⟨u, v, rfl, hu, hv⟩
        obtain ⟨rest, ⟨start, rfl⟩, hrest⟩ := isMatch_any_iff.mp hu
        exact ⟨rest ++ v, ⟨start, (append_assoc _ _ _).symm⟩,
          ih.mpr ⟨rest, v, rfl, hrest, hv⟩⟩
    | one =>
      rw [isMatch_one_iff]
      constructor
      · rintro ⟨a, rest, rfl, h⟩
        obtain ⟨u, v, rfl, hu, hv⟩ := ih.mp h
        exact ⟨a :: u, v, rfl, isMatch_one_iff.mpr ⟨a, u, rfl, hu⟩, hv⟩
      · rintro ⟨u, v, rfl, hu, hv⟩
        obtain ⟨a, rest, rfl, hrest⟩ := isMatch_one_iff.mp hu
        exact ⟨a, rest ++ v, rfl, ih.mpr ⟨rest, v, rfl, hrest, hv⟩⟩
    | letter a =>
      rw [isMatch_letter_iff]
      constructor
      · rintro ⟨rest, rfl, h⟩
        obtain ⟨u, v, rfl, hu, hv⟩ := ih.mp h
        exact ⟨a :: u, v, rfl, isMatch_letter_iff.mpr ⟨u, rfl, hu⟩, hv⟩
      · rintro ⟨u, v, rfl, hu, hv⟩
        obtain ⟨rest, rfl, hrest⟩ := isMatch_letter_iff.mp hu
        exact ⟨rest ++ v, rfl, ih.mpr ⟨rest, v, rfl, hrest, hv⟩⟩

theorem isMatch_letters_any_iff {start : List α} :
    isMatch (start.map Item.letter ++ [.any]) text = true ↔ start <+: text := by
  induction start generalizing text with
  | nil =>
    rw [map_nil, nil_append, isMatch_any_iff]
    exact iff_of_true ⟨[], nil_suffix, rfl⟩ nil_prefix
  | cons a start ih =>
    rw [map_cons, cons_append, isMatch_letter_iff]
    constructor
    · rintro ⟨rest, rfl, h⟩
      exact (prefix_cons_inj a).mpr (ih.mp h)
    · rintro ⟨rest, rfl⟩
      exact ⟨start ++ rest, rfl, ih.mpr (prefix_append start rest)⟩

/-- From each entry on, whether one so far was true. -/
def orRow : Bool → List Bool → List Bool
  | _, [] => []
  | seen, b :: row => (b || seen) :: orRow (b || seen) row

def nextRow (text : List α) (row : List Bool) : Item α → List Bool
  | .any => orRow false row
  | .one => false :: List.zipWith (fun _ before => before) text row
  | .letter a => false :: List.zipWith (fun c before => decide (a = c) && before) text row

def firstRow (text : List α) : List Bool := true :: text.map fun _ => false

def tableMatch (pattern : List (Item α)) (text : List α) : Bool :=
  (pattern.foldl (nextRow text) (firstRow text)).getLastD false

omit [DecidableEq α] in
theorem inits_eq_cons (l : List α) : l.inits = [] :: l.inits.tail := by
  cases l with
  | nil => rfl
  | cons a l => rw [inits_cons, tail_cons]

omit [DecidableEq α] in
theorem orRow_inits (f : List α → Bool) (start : List α) (text : List α) (seen : Bool) :
    orRow seen (text.inits.map fun u => f (start ++ u)) =
      text.inits.map fun u => seen || u.inits.any fun v => f (start ++ v) := by
  induction text generalizing start seen with
  | nil => simp [orRow, Bool.or_comm]
  | cons c text ih =>
    have htail := ih (start ++ [c]) (f start || seen)
    simp only [append_assoc, singleton_append] at htail
    rw [inits_cons, map_cons, map_map, orRow, append_nil]
    simp only [Function.comp_def]
    rw [htail, map_cons, map_map]
    congr 1
    · simp [Bool.or_comm]
    · refine map_congr_left fun u _ => ?_
      simp [Function.comp_def, any_map, Bool.or_assoc, Bool.or_comm]

omit [DecidableEq α] in
theorem zipWith_inits (h : α → Bool → Bool) (f g : List α → Bool)
    (hg : ∀ u c, g (u ++ [c]) = h c (f u)) (start text : List α) :
    List.zipWith h text (text.inits.map fun u => f (start ++ u)) =
      text.inits.tail.map fun u => g (start ++ u) := by
  induction text generalizing start with
  | nil => rfl
  | cons c text ih =>
    have htail := ih (start ++ [c])
    simp only [append_assoc, singleton_append] at htail
    rw [inits_cons, map_cons, zipWith_cons_cons, map_map, tail_cons,
      map_map, append_nil]
    simp only [Function.comp_def]
    rw [htail, ← hg]
    conv_rhs => rw [inits_eq_cons text]
    rw [map_cons]

theorem isMatch_append_any (u : List α) :
    isMatch (pattern ++ [.any]) u = u.inits.any (isMatch pattern) := by
  rw [Bool.eq_iff_iff, isMatch_append_iff, any_eq_true]
  constructor
  · rintro ⟨v, w, rfl, hv, -⟩
    exact ⟨v, (mem_inits _ _).mpr (prefix_append v w), hv⟩
  · rintro ⟨v, hv, hmatch⟩
    obtain ⟨w, rfl⟩ := (mem_inits _ _).mp hv
    exact ⟨v, w, rfl, hmatch, isMatch_any_iff.mpr ⟨[], nil_suffix, rfl⟩⟩

theorem isMatch_append_one (u : List α) (c : α) :
    isMatch (pattern ++ [.one]) (u ++ [c]) = isMatch pattern u := by
  rw [Bool.eq_iff_iff, isMatch_append_iff]
  constructor
  · rintro ⟨v, w, heq, hv, hw⟩
    obtain ⟨d, rest, rfl, hrest⟩ := isMatch_one_iff.mp hw
    rw [isMatch_nil_iff.mp hrest] at heq
    rwa [(append_inj' heq rfl).1]
  · exact fun h => ⟨u, [c], rfl, h, isMatch_one_iff.mpr ⟨c, [], rfl, rfl⟩⟩

theorem isMatch_append_letter (u : List α) (c : α) :
    isMatch (pattern ++ [.letter a]) (u ++ [c]) = (decide (a = c) && isMatch pattern u) := by
  rw [Bool.eq_iff_iff, isMatch_append_iff, Bool.and_eq_true, decide_eq_true_eq]
  constructor
  · rintro ⟨v, w, heq, hv, hw⟩
    obtain ⟨rest, rfl, hrest⟩ := isMatch_letter_iff.mp hw
    rw [isMatch_nil_iff.mp hrest] at heq
    obtain ⟨rfl, hc⟩ := append_inj' heq rfl
    exact ⟨(List.cons.inj hc).1.symm, hv⟩
  · rintro ⟨rfl, h⟩
    exact ⟨u, [a], rfl, h, isMatch_letter_iff.mpr ⟨[], rfl, rfl⟩⟩

theorem isMatch_append_nil {item : Item α} (hitem : isMatch [item] [] = false) :
    isMatch (pattern ++ [item]) [] = false := by
  rw [← Bool.not_eq_true, isMatch_append_iff]
  rintro ⟨u, v, huv, -, hv⟩
  rw [(append_eq_nil_iff.mp huv.symm).2, hitem] at hv
  cases hv

theorem foldl_nextRow (pattern : List (Item α)) (text : List α) :
    pattern.foldl (nextRow text) (firstRow text) = text.inits.map (isMatch pattern) := by
  induction pattern using List.reverseRecOn with
  | nil =>
    rw [foldl_nil, firstRow]
    induction text with
    | nil => rfl
    | cons c text ih =>
      rw [inits_cons, map_cons, map_cons, map_map]
      congr 1
      have hfalse : (isMatch ([] : List (Item α)) ∘ List.cons c) = fun _ => false := rfl
      rw [hfalse, map_const', map_const', length_inits]
      rfl
  | append_singleton pattern item ih =>
    rw [foldl_append, ih, foldl_cons, foldl_nil]
    cases item with
    | any =>
      have hrow := orRow_inits (isMatch pattern) [] text false
      simp only [nil_append, Bool.false_or] at hrow
      rw [nextRow, hrow]
      exact map_congr_left fun u _ => (isMatch_append_any u).symm
    | one =>
      have hrow := zipWith_inits (fun _ before => before) (isMatch pattern)
        (isMatch (pattern ++ [.one])) (fun u c => isMatch_append_one u c) [] text
      simp only [nil_append] at hrow
      rw [nextRow, hrow]
      conv_rhs => rw [inits_eq_cons, map_cons, isMatch_append_nil rfl]
    | letter a =>
      have hrow := zipWith_inits (fun c before => decide (a = c) && before) (isMatch pattern)
        (isMatch (pattern ++ [.letter a])) (fun u c => isMatch_append_letter u c) [] text
      simp only [nil_append] at hrow
      rw [nextRow, hrow]
      conv_rhs => rw [inits_eq_cons, map_cons, isMatch_append_nil rfl]

theorem tableMatch_eq (pattern : List (Item α)) (text : List α) :
    tableMatch pattern text = isMatch pattern text := by
  have hlast (f : List α → Bool) : (text.inits.map f).getLastD false = f text := by
    induction text generalizing f with
    | nil => rfl
    | cons c text ih =>
      have htail := ih (f ∘ List.cons c)
      rw [inits_cons, map_cons, map_map]
      rw [inits_eq_cons, map_cons] at htail ⊢
      exact htail
  rw [tableMatch, foldl_nextRow, hlast]

end Matching

section Encoding

/-- Letters are written as sequences that begin with a small letter that can be told from the
others, and of which none begins another. -/
structure IsCode (enc : α → List β) (begins : β → Prop) : Prop where
  first : ∀ a, ∃ b rest, enc a = b :: rest ∧ begins b ∧ ∀ c ∈ rest, ¬ begins c
  free : ∀ a a' u u', enc a ++ u = enc a' ++ u' → a = a' ∧ u = u'

def encodeItem (enc : α → List β) : Item α → List (Item β)
  | .any => [.any]
  | .one => [.one]
  | .letter a => (enc a).map Item.letter

variable {enc : α → List β} {begins : β → Prop}

theorem IsCode.suffix (h : IsCode enc begins) {text : List α} {t : List β}
    (ht : t <:+ text.flatMap enc) (hbegins : ∀ b ∈ t.head?, begins b) :
    ∃ rest, rest <:+ text ∧ t = rest.flatMap enc := by
  induction text with
  | nil => exact ⟨[], suffix_refl [], suffix_nil.mp ht⟩
  | cons a text ih =>
    rw [flatMap_cons] at ht
    rcases suffix_or_suffix_of_suffix ht (suffix_append _ _) with hin | ⟨r, rfl⟩
    · obtain ⟨rest, hrest, rfl⟩ := ih hin
      exact ⟨rest, hrest.trans (suffix_cons a text), rfl⟩
    · obtain ⟨start, hstart⟩ := ht
      rw [← append_assoc, append_left_inj] at hstart
      obtain ⟨b, more, henc, -, hmore⟩ := h.first a
      cases r with
      | nil => exact ⟨text, suffix_cons a text, rfl⟩
      | cons c r =>
        have hc := hbegins c rfl
        cases start with
        | nil =>
          refine ⟨a :: text, suffix_refl _, ?_⟩
          rw [nil_append] at hstart
          rw [hstart, flatMap_cons]
        | cons d start =>
          rw [henc, cons_append] at hstart
          have hmem : c ∈ more := by
            rw [← (List.cons.inj hstart).2]
            exact mem_append_right _ mem_cons_self
          exact absurd hc (hmore c hmem)

variable [DecidableEq α] [DecidableEq β]

theorem isMatch_letters_append_iff {start : List β} {pattern : List (Item β)} {text : List β} :
    isMatch (start.map Item.letter ++ pattern) text = true ↔
      ∃ rest, text = start ++ rest ∧ isMatch pattern rest = true := by
  induction start generalizing text with
  | nil =>
    constructor
    · exact fun h => ⟨text, rfl, h⟩
    · rintro ⟨rest, rfl, h⟩
      exact h
  | cons b start ih =>
    rw [map_cons, cons_append, isMatch_letter_iff]
    constructor
    · rintro ⟨rest, rfl, h⟩
      obtain ⟨rest', rfl, hrest⟩ := ih.mp h
      exact ⟨rest', rfl, hrest⟩
    · rintro ⟨rest, rfl, h⟩
      exact ⟨start ++ rest, rfl, ih.mpr ⟨rest, rfl, h⟩⟩

theorem IsCode.isMatch_flatMap (h : IsCode enc begins) {pattern : List (Item α)} {text : List α}
    (hone : .one ∈ pattern → ∀ a ∈ text, ∃ b, enc a = [b]) :
    (isMatch (pattern.flatMap (encodeItem enc)) (text.flatMap enc) = true ↔
        isMatch pattern text = true) ∧
      ∀ t, t <:+ text.flatMap enc → isMatch (pattern.flatMap (encodeItem enc)) t = true →
        ∃ rest, rest <:+ text ∧ isMatch pattern rest = true := by
  induction pattern generalizing text with
  | nil =>
    refine ⟨?_, fun t _ _ => ⟨[], nil_suffix, rfl⟩⟩
    rw [flatMap_nil, isMatch_nil_iff, isMatch_nil_iff]
    constructor
    · intro hnil
      cases text with
      | nil => rfl
      | cons a text =>
        obtain ⟨b, rest, henc, -⟩ := h.first a
        rw [flatMap_cons, henc] at hnil
        cases hnil
    · rintro rfl
      rfl
  | cons item pattern ih =>
    have hrest {rest : List α} (hsub : rest <:+ text) :=
      @ih rest fun hmem a ha => hone (mem_cons_of_mem item hmem) a (hsub.subset ha)
    -- A match that begins at the beginning of a letter is one of the letters.
    have hwhole (hhead : ∀ {s : List α}, s <:+ text →
        (isMatch ((item :: pattern).flatMap (encodeItem enc)) (s.flatMap enc) = true ↔
          isMatch (item :: pattern) s = true))
        (hbegins : ∀ t, isMatch ((item :: pattern).flatMap (encodeItem enc)) t = true →
          t <:+ text.flatMap enc → ∀ b ∈ t.head?, begins b) :
        (isMatch ((item :: pattern).flatMap (encodeItem enc)) (text.flatMap enc) = true ↔
            isMatch (item :: pattern) text = true) ∧
          ∀ t, t <:+ text.flatMap enc →
            isMatch ((item :: pattern).flatMap (encodeItem enc)) t = true →
            ∃ rest, rest <:+ text ∧ isMatch (item :: pattern) rest = true := by
      refine ⟨hhead (suffix_refl text), fun t ht hmatch => ?_⟩
      obtain ⟨rest, hsub, rfl⟩ := h.suffix ht (hbegins t hmatch ht)
      exact ⟨rest, hsub, (hhead hsub).mp hmatch⟩
    cases item with
    | any =>
      rw [flatMap_cons]
      change (isMatch (.any :: _) _ = true ↔ _) ∧ ∀ t, _ → isMatch (.any :: _) t = true → _
      have hlater : ∀ t, t <:+ text.flatMap enc →
          isMatch (.any :: pattern.flatMap (encodeItem enc)) t = true →
          ∃ rest, rest <:+ text ∧ isMatch pattern rest = true := by
        intro t ht hmatch
        obtain ⟨t', ht', hmatch'⟩ := isMatch_any_iff.mp hmatch
        exact (hrest (suffix_refl text)).2 t' (ht'.trans ht) hmatch'
      refine ⟨⟨fun hmatch => ?_, fun hmatch => ?_⟩, fun t ht hmatch => ?_⟩
      · exact isMatch_any_iff.mpr (hlater _ (suffix_refl _) hmatch)
      · obtain ⟨rest, hsub, hmatch'⟩ := isMatch_any_iff.mp hmatch
        obtain ⟨start, rfl⟩ := hsub
        rw [isMatch_any_iff, flatMap_append]
        exact ⟨_, suffix_append _ _,
          (hrest (suffix_append start rest)).1.mpr hmatch'⟩
      · obtain ⟨rest, hsub, hmatch'⟩ := hlater t ht hmatch
        exact ⟨rest, hsub, isMatch_any_iff.mpr ⟨rest, suffix_refl rest, hmatch'⟩⟩
    | one =>
      have hsingle := hone mem_cons_self
      refine hwhole (fun {s} hs => ?_) fun t _ ht b hb => ?_
      · rw [flatMap_cons]
        change isMatch (.one :: _) _ = true ↔ _
        rw [isMatch_one_iff, isMatch_one_iff]
        constructor
        · rintro ⟨b, rest, heq, hmatch⟩
          cases s with
          | nil => cases heq
          | cons a s =>
            obtain ⟨b', henc⟩ := hsingle a (hs.subset mem_cons_self)
            rw [flatMap_cons, henc] at heq
            obtain ⟨-, rfl⟩ := List.cons.inj heq
            exact ⟨a, s, rfl, (hrest ((suffix_cons a s).trans hs)).1.mp hmatch⟩
        · rintro ⟨a, rest, rfl, hmatch⟩
          obtain ⟨b', henc⟩ := hsingle a (hs.subset mem_cons_self)
          refine ⟨b', rest.flatMap enc, by rw [flatMap_cons, henc]; rfl, ?_⟩
          exact (hrest ((suffix_cons a rest).trans hs)).1.mpr hmatch
      · obtain ⟨a, ha, hin⟩ := mem_flatMap.mp
          (ht.subset (mem_of_mem_head? hb))
        obtain ⟨b', henc⟩ := hsingle a ha
        obtain ⟨c, more, henc', hc, -⟩ := h.first a
        rw [henc, mem_singleton] at hin
        rw [henc] at henc'
        rw [hin, (List.cons.inj henc').1]
        exact hc
    | letter a =>
      refine hwhole (fun {s} hs => ?_) fun t hmatch _ b hb => ?_
      · rw [flatMap_cons, encodeItem, isMatch_letters_append_iff, isMatch_letter_iff]
        constructor
        · rintro ⟨rest, heq, hmatch⟩
          cases s with
          | nil =>
            obtain ⟨b, more, henc, -⟩ := h.first a
            rw [henc] at heq
            cases heq
          | cons a' s =>
            rw [flatMap_cons] at heq
            obtain ⟨rfl, rfl⟩ := h.free a' a _ _ heq
            exact ⟨s, rfl, (hrest ((suffix_cons _ s).trans hs)).1.mp hmatch⟩
        · rintro ⟨rest, rfl, hmatch⟩
          refine ⟨rest.flatMap enc, flatMap_cons, ?_⟩
          exact (hrest ((suffix_cons a rest).trans hs)).1.mpr hmatch
      · rw [flatMap_cons, encodeItem, isMatch_letters_append_iff] at hmatch
        obtain ⟨rest, rfl, -⟩ := hmatch
        obtain ⟨c, more, henc, hc, -⟩ := h.first a
        rw [henc] at hb
        obtain rfl := Option.some.inj hb
        exact hc

end Encoding

end Glob
