import Antfly.Indexes.Keys
import Antfly.Store.DeleteFrame

/-!
A shard is split at a key that was found by size and then cut back to a document boundary: the key
is cut at its last `:` and continued by `:\x00`.  The key found may belong to any of the keys of a
document, and what is left after the cut is the document itself for a body only.  What decides is
whether the key that results lies among the keys of a document, which is a matter of prefixes.
-/

namespace Antfly

open List

/-- What is left of a stored key when it is cut back. -/
def splitDocument (found : Bytes) : Bytes :=
  if hasSuffix found dbRangeStart then trimSuffix found dbRangeStart
  else
    match found.reverse.dropWhile (· ≠ 58) with
    | [] => found
    | _ :: rest => rest.reverse

theorem normalizeSplitKey_eq (found : Bytes) :
    normalizeSplitKey found = keyRangeStart (splitDocument found) := by
  unfold normalizeSplitKey splitDocument keyRangeStart
  split
  · rename_i hsuf
    obtain ⟨b, rfl⟩ := hasSuffix_iff.mp hsuf
    rw [trimSuffix_append]
  · cases found.reverse.dropWhile (· ≠ 58) <;> rfl

theorem splitDocument_append {b v : Bytes} (hv : 58 ∉ v) (hne : v ≠ [0]) :
    splitDocument (b ++ 58 :: v) = b := by
  have hcut : (b ++ 58 :: v).reverse.dropWhile (· ≠ 58) = 58 :: b.reverse := by
    have hrun : ∀ x ∈ v.reverse, decide (x ≠ 58) = true := by
      intro x hx
      rw [decide_eq_true_eq]
      rintro rfl
      exact hv (mem_reverse.mp hx)
    rw [reverse_append, reverse_cons, append_assoc,
      dropWhile_append_of_pos hrun]
    rfl
  have hbody : hasSuffix (b ++ 58 :: v) dbRangeStart = false := by
    rw [Bool.eq_false_iff]
    intro hsuf
    obtain ⟨t, ht⟩ := hasSuffix_iff.mp hsuf
    have hrev : 0 :: 58 :: t.reverse = v.reverse ++ 58 :: b.reverse := by
      simpa [dbRangeStart, ascii] using congrArg List.reverse ht
    -- The two last separators are in one place, so `v` is the zero byte.
    cases hv' : v.reverse with
    | nil =>
      rw [hv', nil_append] at hrev
      exact absurd (List.cons.inj hrev).1 (by decide)
    | cons c w =>
      rw [hv', cons_append] at hrev
      obtain ⟨hc, hrest⟩ := List.cons.inj hrev
      cases w with
      | nil => exact hne (by rw [← reverse_reverse v, hv', ← hc]; rfl)
      | cons d w =>
        rw [cons_append] at hrest
        obtain ⟨hd, -⟩ := List.cons.inj hrest
        exact hv (mem_reverse.mp (by rw [hv', hd]; simp))
  unfold splitDocument
  rw [hbody, hcut]
  simp

structure StoredDocument where
  id : Bytes
  keys : List Bytes
  body_mem : keyRangeStart id ∈ keys
  storedUnder : ∀ x ∈ keys, StoredUnder id x

/-- The table routes the id to the shard, whatever the iteration order. -/
def RoutedTo (shards : List (Nat × Range)) (id : Bytes) (shard : Nat) : Prop :=
  ∀ order : List (Nat × Range), order.Perm shards → findShardForKey order id = some shard

/-- All keys of the document are below the split key and its id is routed to the left half, or none
is and its id is routed to the right half. -/
def OnOneSide (range : Range) (key : Bytes) (doc : StoredDocument) : Prop :=
  ∀ (left right : Nat) (others : List (Nat × Range)),
    (∀ s ∈ others, s.2.contains (keyRangeStart doc.id) = false) →
    (∀ x ∈ doc.keys, x < key) ∧
        RoutedTo ((left, ⟨range.start, key⟩) :: (right, ⟨key, range.stop⟩) :: others) doc.id left ∨
      (∀ x ∈ doc.keys, key ≤ x) ∧
        RoutedTo ((left, ⟨range.start, key⟩) :: (right, ⟨key, range.stop⟩) :: others) doc.id right

/-- The search for a split key, after it found `found`, returns a key inside the range that
separates no document of the shard. -/
def SplitsCleanly (docs : List StoredDocument) (range : Range) (found : Bytes) : Prop :=
  ∃ key, findMedianKey range found = some key ∧ range.start < key ∧
    (range.stop = [] ∨ key < range.stop) ∧
    ∀ doc ∈ docs, range.contains (keyRangeStart doc.id) = true → OnOneSide range key doc

theorem findMedianKey_eq_some {range : Range} {found key : Bytes} :
    findMedianKey range found = some key ↔
      key = keyRangeStart (splitDocument found) ∧ range.start < key ∧
        (range.stop = [] ∨ key < range.stop) := by
  unfold findMedianKey
  rw [normalizeSplitKey_eq]
  dsimp only
  split
  · rename_i hle
    simp only [reduceCtorEq, false_iff, not_and]
    rintro rfl hlt
    exact absurd hle (not_le.mpr hlt)
  · rename_i hlt
    split
    · rename_i hstop
      simp only [Bool.and_eq_true, Bool.not_eq_true', isEmpty_eq_false_iff,
        decide_eq_true_eq] at hstop
      simp only [reduceCtorEq, false_iff, not_and, not_or]
      rintro rfl -
      exact ⟨hstop.1, not_lt.mpr hstop.2⟩
    · rename_i hstop
      simp only [Bool.and_eq_true, Bool.not_eq_true', isEmpty_eq_false_iff,
        decide_eq_true_eq, not_and, not_le] at hstop
      constructor
      · intro h
        cases h
        exact ⟨rfl, not_le.mp hlt, or_iff_not_imp_left.mpr hstop⟩
      · rintro ⟨rfl, -⟩
        rfl

theorem keyRangeStart_le_append (id : Bytes) {r : Bytes} (hr : r ≠ []) :
    keyRangeStart id ≤ id ++ 58 :: r := by
  obtain ⟨c, t, rfl⟩ := exists_cons_of_ne_nil hr
  have hzero : (0 : UInt8) ≤ c := by
    rw [UInt8.le_iff_toNat_le]
    exact Nat.zero_le _
  unfold keyRangeStart
  rw [Lex.append_le_append_left, ← not_lt]
  intro hlt
  rcases cons_lt_cons_iff.mp hlt with h | ⟨-, h⟩
  · exact lt_irrefl _ h
  · rcases cons_lt_cons_iff.mp h with h | ⟨-, h⟩
    · exact absurd h (not_lt.mpr hzero)
    · exact not_lt_nil _ h

variable {id x : Bytes}

/-- The bodies of a document and of one whose id continues the first by the separator. -/
theorem keyRangeStart_lt_of_prefix {d : Bytes} (h : id ++ [58] <+: d) :
    keyRangeStart id < keyRangeStart d := by
  obtain ⟨t, rfl⟩ := h
  have hshape : keyRangeStart (id ++ [58] ++ t) = id ++ 58 :: (t ++ dbRangeStart) := by
    simp [keyRangeStart]
  rw [hshape]
  refine lt_of_le_of_ne (keyRangeStart_le_append id (by simp [dbRangeStart, ascii])) ?_
  intro heq
  have hlength := congrArg List.length heq
  simp [keyRangeStart, dbRangeStart, ascii] at hlength

/-- A stored key that is not the body has its last separator behind the one that ends the id. -/
theorem StoredUnder.eq_body_or (h : StoredUnder id x) :
    x = keyRangeStart id ∨
      ∃ u v, x = id ++ 58 :: (u ++ 58 :: v) ∧ 58 ∉ v ∧ v ≠ [] ∧ v ≠ [0] := by
  have hderived : ∀ {y : Bytes} (n suffix : Bytes), 58 ∉ suffix → suffix ≠ [] → suffix ≠ [0] →
      EnrichedKey id y → ∃ u v, y ++ indexMarker ++ n ++ 58 :: suffix = id ++ 58 :: (u ++ 58 :: v) ∧
        58 ∉ v ∧ v ≠ [] ∧ v ≠ [0] := by
    intro y n suffix hcolon hne hzero hy
    obtain ⟨r, rfl⟩ := hy.eq_append
    exact ⟨r ++ indexMarker ++ n, suffix, by simp, hcolon, hne, hzero⟩
  cases h with
  | written h =>
    cases h with
    | document => exact .inl rfl
    | documentTimestamp =>
      exact .inr ⟨[0], [116], by simp [timestampKey, keyRangeStart, dbRangeStart,
        transactionSuffix, ascii], by decide⟩
    | embedding n =>
      exact .inr ⟨105 :: 58 :: n, [101], by simp [makeEmbeddingKey, indexMarker,
        embeddingSuffix, ascii], by decide⟩
    | sparse n =>
      exact .inr ⟨105 :: 58 :: n, [115, 112], by simp [makeSparseKey, indexMarker,
        sparseSuffix, ascii], by decide⟩
    | summary n =>
      exact .inr ⟨105 :: 58 :: n, [115], by simp [makeSummaryKey, indexMarker,
        summarySuffix, ascii], by decide⟩
    | edge target n ty =>
      exact .inr ⟨105 :: 58 :: (n ++ outMarker ++ ty ++ 58 :: target), [111], by
        simp [makeEdgeKey, indexMarker, edgeOutSuffix, ascii], by decide⟩
    | edgeTimestamp target n ty =>
      exact .inr ⟨105 :: 58 :: (n ++ outMarker ++ ty ++ 58 :: target ++ [58, 111]), [116], by
        simp [timestampKey, makeEdgeKey, indexMarker, edgeOutSuffix, transactionSuffix, ascii],
        by decide⟩
  | enriched h =>
    cases h with
    | summary n =>
      exact .inr ⟨105 :: 58 :: n, [115], by simp [makeSummaryKey, indexMarker,
        summarySuffix, ascii], by decide⟩
    | chunk n chunkID =>
      exact .inr ⟨105 :: 58 :: (n ++ 58 :: ascii (Nat.toDigits 10 chunkID.toNat)), [99], by
        simp [makeChunkKey, chunkKeyFormat, indexMarker, ascii], by decide⟩
    | chunkFullText n chunkID =>
      exact .inr ⟨105 :: 58 :: (n ++ 58 :: ascii (Nat.toDigits 10 chunkID.toNat)),
        [99, 102, 116], by simp [makeChunkFullTextKey, chunkKeyFormat, indexMarker, ascii],
        by decide⟩
    | mediaChunk n chunkID =>
      exact .inr ⟨105 :: 58 :: (n ++ 58 :: ascii (Nat.toDigits 10 chunkID.toNat)), [99, 109],
        by simp [makeMediaChunkKey, chunkKeyFormat, indexMarker, ascii], by decide⟩
  | embedding h n => exact .inr (hderived n [101] (by decide) (by decide) (by decide) h)
  | sparse h n => exact .inr (hderived n [115, 112] (by decide) (by decide) (by decide) h)
  | derivedSummary h n => exact .inr (hderived n [115] (by decide) (by decide) (by decide) h)
  | fieldHash g ty =>
    exact .inr ⟨105 :: 58 :: (g ++ 58 :: ty), [102, 104], by
      simp [makeFieldHashKey, indexMarker, fieldHashSuffix, ascii], by decide⟩

theorem keyRangeStart_le_of_storedUnder (h : StoredUnder id x) : keyRangeStart id ≤ x := by
  rcases h.eq_body_or with rfl | ⟨u, v, rfl, -⟩
  · exact le_rfl
  · exact keyRangeStart_le_append id (by simp)

theorem routedTo_of_contains {shards : List (Nat × Range)} {s : Nat × Range} (hs : s ∈ shards)
    (hsid : s.2.contains (keyRangeStart id) = true)
    (hothers : ∀ s' ∈ shards, s'.2.contains (keyRangeStart id) = true → s' = s) :
    RoutedTo shards id s.1 := by
  intro order horder
  unfold findShardForKey
  cases hfind : order.find? fun s => s.2.contains (keyRangeStart id) with
  | none =>
    rw [find?_eq_none] at hfind
    exact absurd hsid (hfind s (horder.mem_iff.mpr hs))
  | some s' =>
    have hmem := horder.mem_iff.mp (mem_of_find?_eq_some hfind)
    have hcontains : s'.2.contains (keyRangeStart id) = true := by
      simpa using find?_some hfind
    rw [hothers s' hmem hcontains]
    rfl

section Separation

variable {range : Range} {key : Bytes} {doc : StoredDocument}

/-- The body decides the side, so the document is on one side when no key is on the other. -/
theorem onOneSide_iff (hdoc : range.contains (keyRangeStart doc.id) = true) (hne : key ≠ []) :
    OnOneSide range key doc ↔ (keyRangeStart doc.id < key → ∀ x ∈ doc.keys, x < key) := by
  obtain ⟨hlo, hhi⟩ := Range.contains_iff.mp hdoc
  constructor
  · intro h hbody
    rcases h 0 1 [] (fun s hs => absurd hs not_mem_nil) with ⟨hleft, -⟩ | ⟨hright, -⟩
    · exact hleft
    · exact absurd (hright _ doc.body_mem) (not_le.mpr hbody)
  · intro h left right others hothers
    rcases lt_or_ge (keyRangeStart doc.id) key with hbody | hbody
    · refine .inl ⟨h hbody, ?_⟩
      refine routedTo_of_contains (s := (left, ⟨range.start, key⟩)) mem_cons_self
        (Range.contains_iff.mpr ⟨hlo, .inr hbody⟩) ?_
      intro s hs hcontains
      rcases mem_cons.mp hs with rfl | hs
      · rfl
      · rcases mem_cons.mp hs with rfl | hs
        · exact absurd (Range.contains_iff.mp hcontains).1 (not_le.mpr hbody)
        · rw [hothers s hs] at hcontains
          cases hcontains
    · refine .inr ⟨fun x hx => hbody.trans (keyRangeStart_le_of_storedUnder
        (doc.storedUnder x hx)), ?_⟩
      refine routedTo_of_contains (s := (right, ⟨key, range.stop⟩))
        (mem_cons_of_mem _ mem_cons_self) (Range.contains_iff.mpr ⟨hbody, hhi⟩) ?_
      intro s hs hcontains
      rcases mem_cons.mp hs with rfl | hs
      · exact absurd ((Range.contains_iff.mp hcontains).2.resolve_left hne) (not_lt.mpr hbody)
      · rcases mem_cons.mp hs with rfl | hs
        · rfl
        · rw [hothers s hs] at hcontains
          cases hcontains

/-- A stored key is at or above the split key of `d` and the body below it only when the id
continued by the separator begins `d`. -/
theorem prefix_of_separated {d x : Bytes} (hx : x ∈ doc.keys)
    (hbody : keyRangeStart doc.id < keyRangeStart d) (hle : keyRangeStart d ≤ x) :
    doc.id ++ [58] <+: d := by
  obtain ⟨r, rfl⟩ := (doc.storedUnder x hx).eq_append
  have hlow : doc.id ++ [58] ≤ keyRangeStart d := by
    refine le_trans ?_ hbody.le
    have hshape : keyRangeStart doc.id = (doc.id ++ [58]) ++ [0] := by
      simp [keyRangeStart, dbRangeStart, ascii]
    rw [hshape]
    exact Lex.le_append _ _
  have hpre : doc.id ++ [58] <+: keyRangeStart d := by
    rcases hle.lt_or_eq with hlt | heq
    · refine Lex.prefix_of_mem_Ico (y := r) hlow ?_
      rwa [append_assoc]
    · exact ⟨r, by rw [heq, append_assoc]; rfl⟩
  obtain ⟨t, ht⟩ := hpre
  rcases append_eq_append_iff.mp ht with ⟨a, hd, -⟩ | ⟨a, hd, hsep⟩
  · exact ⟨a, hd.symm⟩
  · -- `d` ends inside `id:`, and the separator that follows `d` leaves two places for that.
    have hsep' : 58 :: 0 :: [] = a ++ t := hsep
    cases a with
    | nil => exact ⟨[], by rw [hd]; simp⟩
    | cons c a =>
      obtain ⟨rfl, hrest⟩ := List.cons.inj hsep'
      cases a with
      | nil =>
        have hid : doc.id = d := append_cancel_right hd
        rw [hid] at hbody
        exact absurd hbody (lt_irrefl _)
      | cons c' a =>
        obtain ⟨rfl, hnil⟩ := List.cons.inj hrest
        obtain ⟨rfl, -⟩ := append_eq_nil_iff.mp hnil.symm
        have hlast := congrArg List.getLast? hd
        simp at hlast

end Separation

/-- The key cut from `found` lies strictly inside the range. -/
def CutInside (range : Range) (found : Bytes) : Prop :=
  range.start < keyRangeStart (splitDocument found) ∧
    (range.stop = [] ∨ keyRangeStart (splitDocument found) < range.stop)

/-- No document of the shard that `found` is cut inside of has a key above the cut. -/
def CutsNoDocument (docs : List StoredDocument) (range : Range) (found : Bytes) : Prop :=
  ∀ doc ∈ docs, range.contains (keyRangeStart doc.id) = true →
    doc.id ++ [58] <+: splitDocument found →
    ∀ x ∈ doc.keys, x < keyRangeStart (splitDocument found)

variable {docs : List StoredDocument} {range : Range} {found : Bytes}

theorem SplitsCleanly.condition (h : SplitsCleanly docs range found) :
    CutInside range found ∧ CutsNoDocument docs range found := by
  obtain ⟨key, hkey, hlo, hhi, hdocs⟩ := h
  obtain ⟨rfl, -⟩ := findMedianKey_eq_some.mp hkey
  refine ⟨⟨hlo, hhi⟩, ?_⟩
  intro doc hdoc hcontains hpre x hx
  have hne : keyRangeStart (splitDocument found) ≠ [] := by
    simp [keyRangeStart, dbRangeStart, ascii]
  refine (onOneSide_iff hcontains hne).mp (hdocs doc hdoc hcontains) ?_ x hx
  exact keyRangeStart_lt_of_prefix hpre

/-- The split is clean exactly when the cut is inside the range and no document of the shard whose
id and separator begin the cut has a key above it. -/
theorem splitsCleanly_iff (docs : List StoredDocument) (range : Range) (found : Bytes) :
    SplitsCleanly docs range found ↔
      CutInside range found ∧ CutsNoDocument docs range found := by
  constructor
  · exact SplitsCleanly.condition
  · rintro ⟨⟨hlo, hhi⟩, hcuts⟩
    refine ⟨_, findMedianKey_eq_some.mpr ⟨rfl, hlo, hhi⟩, hlo, hhi, ?_⟩
    intro doc hdoc hcontains
    have hne : keyRangeStart (splitDocument found) ≠ [] := by
      simp [keyRangeStart, dbRangeStart, ascii]
    refine (onOneSide_iff hcontains hne).mpr ?_
    intro hbody x hx
    by_contra hle
    have hpre := prefix_of_separated hx hbody (not_lt.mp hle)
    exact hle (hcuts doc hdoc hcontains hpre x hx)

/-- A search that finds a stored key other than a body separates the document of that key. -/
theorem not_splitsCleanly_of_artefact {doc : StoredDocument} (hdoc : doc ∈ docs)
    (hcontains : range.contains (keyRangeStart doc.id) = true) (hfound : found ∈ doc.keys)
    (hbody : found ≠ keyRangeStart doc.id) :
    ¬ SplitsCleanly docs range found := by
  intro h
  obtain ⟨-, hcuts⟩ := h.condition
  obtain ⟨u, v, heq, hcolon, hne, hzero⟩ :=
    (doc.storedUnder found hfound).eq_body_or.resolve_left hbody
  have hshape : found = (doc.id ++ 58 :: u) ++ 58 :: v := by
    rw [heq]
    simp
  have hcut : splitDocument found = doc.id ++ 58 :: u := by
    rw [hshape]
    exact splitDocument_append hcolon hzero
  have hpre : doc.id ++ [58] <+: splitDocument found := by
    rw [hcut]
    exact ⟨u, by simp⟩
  have hlt := hcuts doc hdoc hcontains hpre found hfound
  rw [hcut, hshape] at hlt
  exact absurd hlt (not_lt.mpr (keyRangeStart_le_append _ hne))

/-- The document `a` with its timestamp. -/
def documentA : StoredDocument where
  id := ascii ['a']
  keys := [keyRangeStart (ascii ['a']), timestampKey (keyRangeStart (ascii ['a']))]
  body_mem := List.mem_cons_self
  storedUnder x hx := by
    rcases List.mem_pair.mp hx with rfl | rfl
    · exact .written .document
    · exact .written .documentTimestamp

/-- The search ended at the timestamp of the only document, and the cut lies between the body and
that timestamp. -/
theorem split_at_timestamp :
    timestampKey (keyRangeStart (ascii ['a'])) ∈ documentA.keys ∧
      (⟨[], []⟩ : Range).contains (timestampKey (keyRangeStart (ascii ['a']))) = true ∧
      ¬ SplitsCleanly [documentA] ⟨[], []⟩ (timestampKey (keyRangeStart (ascii ['a']))) := by
  refine ⟨List.mem_cons_of_mem _ List.mem_cons_self, by decide, ?_⟩
  exact not_splitsCleanly_of_artefact List.mem_cons_self (by decide)
    (List.mem_cons_of_mem _ List.mem_cons_self) (by decide)

end Antfly
