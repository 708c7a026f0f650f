import Antfly.Indexes.GraphIndex

/-!
The key under which a graph index files an edge determines the edge as long as the marker of
incoming edges occurs only once in it; then a query for a target finds the edges of that target and
no others.
-/

namespace Antfly

open List Option

variable {sep b x y marker : Bytes} {c : UInt8}

theorem cut_eq_some (h : cut sep b = some (x, y)) : b = x ++ sep ++ y := by
  induction b generalizing x with
  | nil =>
    rw [cut] at h
    split at h
    · rename_i hempty
      cases h
      rw [isEmpty_iff.mp hempty]
      rfl
    · cases h
  | cons c b ih =>
    rw [cut] at h
    split at h
    · rename_i hleading
      cases h
      obtain ⟨t, ht⟩ := isPrefixOf_iff_prefix.mp hleading
      rw [← ht, drop_left, nil_append]
    · obtain ⟨⟨x', y'⟩, hcut, hxy⟩ := map_eq_some_iff.mp h
      cases hxy
      rw [ih hcut]
      rfl

theorem cut_min {p q : Bytes} (h : cut sep b = some (p, q)) (hb : b = x ++ sep ++ y) :
    p.length ≤ x.length := by
  induction b generalizing p x with
  | nil =>
    rw [cut] at h
    split at h
    · cases h
      exact Nat.zero_le _
    · cases h
  | cons c b ih =>
    rw [cut] at h
    split at h
    · cases h
      exact Nat.zero_le _
    · rename_i hleading
      obtain ⟨⟨p', q'⟩, hcut, hpq⟩ := map_eq_some_iff.mp h
      cases hpq
      cases x with
      | nil =>
        exfalso
        apply hleading
        apply isPrefixOf_iff_prefix.mpr
        rw [hb, nil_append]
        exact prefix_append _ _
      | cons d x =>
        rw [cons_append, cons_append] at hb
        exact Nat.succ_le_succ (ih hcut (List.cons.inj hb).2)

theorem cut_eq_none_iff : cut sep b = none ↔ ¬ sep <:+: b := by
  rw [← contains_iff]
  induction b with
  | nil => simp [cut, contains]
  | cons d b ih =>
    rw [cut, contains, Bool.or_eq_true, not_or, ← ih]
    split <;> simp [*]

theorem before_eq_nil_iff (h : cut sep b = some (x, y)) : x = [] ↔ sep <+: b := by
  constructor
  · rintro rfl
    rw [cut_eq_some h]
    exact prefix_append sep y
  · rintro ⟨t, rfl⟩
    have hmin := cut_min h (x := []) (y := t) rfl
    exact length_eq_zero_iff.mp (Nat.le_zero.mp hmin)

theorem not_mem_of_cut (h : cut [c] b = some (x, y)) : c ∉ x := by
  intro hc
  obtain ⟨s, t, hst⟩ := append_of_mem hc
  have hb : b = s ++ [c] ++ (t ++ [c] ++ y) := by
    rw [cut_eq_some h, hst]
    simp only [append_assoc, cons_append, nil_append]
  have hmin := cut_min h hb
  rw [hst, length_append, length_cons] at hmin
  omega

theorem cut_of_not_mem (hc : c ∉ x) (y : Bytes) : cut [c] (x ++ [c] ++ y) = some (x, y) := by
  induction x with
  | nil => simp [cut]
  | cons d x ih =>
    have hne : c ≠ d := fun heq => hc (heq ▸ mem_cons_self)
    have hrest := ih fun hmem => hc (mem_cons_of_mem d hmem)
    rw [cons_append, cons_append, cut, if_neg, hrest]
    · rfl
    · intro hleading
      obtain ⟨t, ht⟩ := isPrefixOf_iff_prefix.mp hleading
      exact hne (List.cons.inj ht).1

/-- The marker occurs in the key, and only once. -/
def markedOnce (marker b : Bytes) : Bool :=
  match cut marker b with
  | none => false
  | some (before, _) => !contains (b.drop (before.length + 1)) marker

theorem before_eq_of_markedOnce (h : markedOnce marker b = true) (hb : b = x ++ marker ++ y)
    {before after : Bytes} (hcut : cut marker b = some (before, after)) :
    x = before := by
  unfold markedOnce at h
  rw [hcut, Bool.not_eq_true'] at h
  have hmin := cut_min hcut hb
  have hbefore := cut_eq_some hcut
  have hlength : x.length = before.length := by
    by_contra hne
    have hlt : before.length + 1 ≤ x.length := by omega
    have hoccurs : contains (b.drop (before.length + 1)) marker = true := by
      rw [contains_iff, hb, append_assoc, drop_append_of_le_length hlt]
      exact ⟨_, _, append_assoc _ _ _⟩
    rw [h] at hoccurs
    cases hoccurs
  rw [hb, append_assoc, append_assoc] at hbefore
  exact (append_inj hbefore hlength).1

theorem split_unique {x' y' : Bytes} (h : markedOnce marker b = true) (hb : b = x ++ marker ++ y)
    (hb' : b = x' ++ marker ++ y') :
    x = x' ∧ y = y' := by
  cases hcut : cut marker b with
  | none =>
    unfold markedOnce at h
    rw [hcut] at h
    cases h
  | some p =>
    have hx := before_eq_of_markedOnce h hb hcut
    have hx' := before_eq_of_markedOnce h hb' hcut
    have hsame : x = x' := hx.trans hx'.symm
    subst hsame
    rw [hb] at hb'
    exact ⟨rfl, append_cancel_left hb'⟩

namespace Indexes

variable {name key source edgeType : Bytes} {edge : ParsedEdge}

theorem edgeOf_eq_some (h : edgeOf name key = some edge) :
    contains key (indexSuffix name ++ outMarker) = true ∧ parseEdgeKey key = some edge ∧
      edge.indexName = name := by
  unfold edgeOf at h
  split at h
  · rename_i hcontains
    obtain ⟨edge', hparse, hname⟩ := bind_eq_some_iff.mp h
    split at hname
    · rename_i heq
      cases hname
      exact ⟨hcontains, hparse, heq⟩
    · cases hname
  · cases h

theorem routed_of_edgeOf (h : edgeOf name key = some edge) :
    isEdgeKey key = true ∧ ∃ edge, parseEdgeKey key = some edge ∧ name = edge.indexName := by
  obtain ⟨hcontains, hparse, hname⟩ := edgeOf_eq_some h
  refine ⟨?_, edge, hparse, hname.symm⟩
  obtain ⟨s, t, hst⟩ := contains_iff.mp hcontains
  have hindex : contains key indexMarker = true := by
    apply contains_iff.mpr
    refine ⟨s, name ++ outMarker ++ t, ?_⟩
    rw [← hst]
    simp only [indexSuffix, append_assoc]
  have hout : contains key outMarker = true := by
    apply contains_iff.mpr
    refine ⟨s ++ indexSuffix name, t, ?_⟩
    rw [← hst]
    simp only [append_assoc]
  unfold isEdgeKey
  rw [hindex, hout]
  rfl

theorem edgeType_no_colon (h : parseEdgeKey key = some edge) : 58 ∉ edge.edgeType := by
  unfold parseEdgeKey at h
  simp only [bind_eq_bind, bind_eq_some_iff] at h
  obtain ⟨p, -, q, -, r, -, t, ht, hedge⟩ := h
  split at hedge
  · cases hedge
    exact not_mem_of_cut ht
  · cases hedge

theorem prefix_makeEdgeKey (docKey target name t : Bytes) :
    edgeIteratorPrefix docKey name t <+: makeEdgeKey docKey target name t := by
  unfold edgeIteratorPrefix makeEdgeKey
  split
  · simp only [append_assoc, append_nil, prefix_append_right_inj]
    exact prefix_append _ _
  · simp only [append_assoc, prefix_append_right_inj]
    exact prefix_append _ _

theorem makeEdgeKey_inj {docKey target target' t : Bytes}
    (h : makeEdgeKey docKey target name t = makeEdgeKey docKey target' name t) :
    target = target' := by
  unfold makeEdgeKey at h
  exact append_cancel_left (append_cancel_right h)

theorem mem_scan_edges {ν : Type} {store : OrdMap Bytes ν} {value : ν} :
    (key, value) ∈ store.scan (edgeIteratorPrefix source name edgeType)
        (prefixSuccessor (edgeIteratorPrefix source name edgeType)) ↔
      edgeIteratorPrefix source name edgeType <+: key ∧ store.get? key = some value := by
  have hcolon : ∃ c ∈ edgeIteratorPrefix source name edgeType, c ≠ 0xFF := by
    refine ⟨58, ?_, by decide⟩
    have hmarker : (58 : UInt8) ∈ outMarker := by decide
    exact mem_append_left _ (mem_append_right _ hmarker)
  rw [OrdMap.mem_scan_iff, mem_Ico_prefixSuccessor_iff hcolon]

/-- What precedes the type in the key of an incoming edge. -/
def incomingMarker (name : Bytes) : Bytes := indexSuffix name ++ inMarker

/-- An edge whose index key names it: the type is one, and the marker occurs once. -/
structure Filed (name : Bytes) (edge : ParsedEdge) : Prop where
  once : markedOnce (incomingMarker name)
    (makeEdgeIndexKey name edge.target edge.source edge.edgeType) = true
  typed : edge.edgeType ≠ []
  no_colon : 58 ∉ edge.edgeType

theorem makeEdgeIndexKey_eq (name target source edgeType : Bytes) :
    makeEdgeIndexKey name target source edgeType =
      target ++ incomingMarker name ++
        (edgeType ++ ascii [':'] ++ (source ++ ascii [':', 'i'])) := by
  unfold makeEdgeIndexKey incomingMarker indexSuffix
  simp only [append_assoc]

theorem trim_colon_i (source : Bytes) :
    hasSuffix (source ++ ascii [':', 'i']) (ascii [':', 'i']) = true ∧
      trimSuffix (source ++ ascii [':', 'i']) (ascii [':', 'i']) = source := by
  refine ⟨hasSuffix_iff.mpr (suffix_append _ _), ?_⟩
  unfold trimSuffix
  rw [length_append, Nat.add_sub_cancel]
  exact take_left

theorem parseRemaining_nil (htyped : edgeType ≠ []) (hcolon : 58 ∉ edgeType) :
    GraphIndex.parseRemaining [] (edgeType ++ ascii [':'] ++ (source ++ ascii [':', 'i'])) =
      some (edgeType, source) := by
  have hcut : cut (ascii [':']) (edgeType ++ ascii [':'] ++ (source ++ ascii [':', 'i'])) =
      some (edgeType, source ++ ascii [':', 'i']) := cut_of_not_mem hcolon _
  obtain ⟨hsuffix, htrim⟩ := trim_colon_i source
  have hempty : edgeType.isEmpty = false := isEmpty_eq_false_iff.mpr htyped
  unfold GraphIndex.parseRemaining
  rw [if_pos isEmpty_nil, hcut]
  dsimp only [bind_some]
  rw [hempty, if_neg Bool.false_ne_true, bind_some, if_pos hsuffix, htrim]

theorem parseRemaining_type (htyped : edgeType ≠ []) :
    GraphIndex.parseRemaining edgeType (source ++ ascii [':', 'i']) = some (edgeType, source) := by
  obtain ⟨hsuffix, htrim⟩ := trim_colon_i source
  have hempty : edgeType.isEmpty = false := isEmpty_eq_false_iff.mpr htyped
  unfold GraphIndex.parseRemaining
  rw [hempty, if_neg Bool.false_ne_true]
  dsimp only [bind_some]
  rw [if_pos hsuffix, htrim]

theorem append_colon_inj {x y x' y' : Bytes} (hx : 58 ∉ x) (hx' : 58 ∉ x')
    (h : x ++ ascii [':'] ++ y = x' ++ ascii [':'] ++ y') : x = x' ∧ y = y' := by
  have hcut : cut (ascii [':']) (x ++ ascii [':'] ++ y) = some (x, y) := cut_of_not_mem hx y
  have hcut' : cut (ascii [':']) (x' ++ ascii [':'] ++ y') = some (x', y') := cut_of_not_mem hx' y'
  rw [h, hcut'] at hcut
  cases hcut
  exact ⟨rfl, rfl⟩

theorem filed_inj {name : Bytes} {edge edge' : ParsedEdge} (h : Filed name edge)
    (h' : Filed name edge')
    (hkey : makeEdgeIndexKey name edge.target edge.source edge.edgeType =
      makeEdgeIndexKey name edge'.target edge'.source edge'.edgeType) :
    edge.target = edge'.target ∧ edge.source = edge'.source ∧ edge.edgeType = edge'.edgeType := by
  have hsplit := split_unique h.once (makeEdgeIndexKey_eq ..)
    (hkey.trans (makeEdgeIndexKey_eq ..))
  obtain ⟨htype, hsource⟩ := append_colon_inj h.no_colon h'.no_colon hsplit.2
  exact ⟨hsplit.1, append_cancel_right hsource, htype⟩

theorem parse_scanned {edgeType remaining : Bytes} {name : Bytes} {edge : ParsedEdge}
    (hfiled : Filed name edge) (hcolon : 58 ∉ edgeType)
    (h : (if edgeType.isEmpty then [] else edgeType ++ ascii [':']) ++ remaining =
      edge.edgeType ++ ascii [':'] ++ (edge.source ++ ascii [':', 'i'])) :
    GraphIndex.parseRemaining edgeType remaining = some (edge.edgeType, edge.source) ∧
      (edgeType = [] ∨ edge.edgeType = edgeType) := by
  cases edgeType with
  | nil =>
    rw [if_pos isEmpty_nil, nil_append] at h
    rw [h]
    exact ⟨parseRemaining_nil hfiled.typed hfiled.no_colon, Or.inl rfl⟩
  | cons c edgeType =>
    rw [isEmpty_cons, if_neg Bool.false_ne_true] at h
    obtain ⟨htype, hsource⟩ := append_colon_inj hcolon hfiled.no_colon h
    rw [hsource, htype]
    exact ⟨parseRemaining_type hfiled.typed, Or.inr rfl⟩

theorem scanned_of_type (h : edgeType = [] ∨ edge.edgeType = edgeType) :
    ∃ remaining, edge.edgeType ++ ascii [':'] ++ (edge.source ++ ascii [':', 'i']) =
      (if edgeType.isEmpty then [] else edgeType ++ ascii [':']) ++ remaining := by
  cases edgeType with
  | nil => exact ⟨_, rfl⟩
  | cons c edgeType =>
    have htype := h.resolve_left (cons_ne_nil c edgeType)
    rw [htype]
    exact ⟨_, rfl⟩

section Query

variable {ν : Type} {idx : GraphIndex ν}

theorem mem_scan_query {target edgeType r : Bytes} {value : ν} :
    (r, value) ∈ idx.indexDB.scan
        (target ++ indexMarker ++ idx.name ++ inMarker ++
          (if edgeType.isEmpty then [] else edgeType ++ ascii [':']))
        (prefixSuccessor (target ++ indexMarker ++ idx.name ++ inMarker ++
          (if edgeType.isEmpty then [] else edgeType ++ ascii [':']))) ↔
      (∃ remaining, r = target ++ incomingMarker idx.name ++
        ((if edgeType.isEmpty then [] else edgeType ++ ascii [':']) ++ remaining)) ∧
      idx.indexDB.get? r = some value := by
  have hcolon : ∃ c ∈ target ++ indexMarker ++ idx.name ++ inMarker ++
      (if edgeType.isEmpty then [] else edgeType ++ ascii [':']), c ≠ 0xFF := by
    refine ⟨58, ?_, by decide⟩
    have hmarker : (58 : UInt8) ∈ inMarker := by decide
    exact mem_append_left _ (mem_append_right _ hmarker)
  rw [OrdMap.mem_scan_iff, mem_Ico_prefixSuccessor_iff hcolon]
  apply and_congr_left
  intro _
  apply exists_congr
  intro remaining
  rw [eq_comm]
  unfold incomingMarker indexSuffix
  simp only [append_assoc]

theorem drop_scanPrefix {target tail remaining : Bytes} :
    (target ++ incomingMarker idx.name ++ (tail ++ remaining)).drop
      (target ++ indexMarker ++ idx.name ++ inMarker ++ tail).length = remaining := by
  have hassoc : target ++ incomingMarker idx.name ++ (tail ++ remaining) =
      target ++ indexMarker ++ idx.name ++ inMarker ++ tail ++ remaining := by
    unfold incomingMarker indexSuffix
    simp only [append_assoc]
  rw [hassoc, drop_left]

theorem mem_queryEdgeIndex
    (hfiled : ∀ r value, idx.indexDB.get? r = some value →
      ∃ edge, Filed idx.name edge ∧ r = idx.indexKey edge)
    {target edgeType : Bytes} (hcolon : 58 ∉ edgeType) {e : Edge ν} :
    e ∈ idx.queryEdgeIndex target edgeType ↔
      e.target = target ∧ (edgeType = [] ∨ e.edgeType = edgeType) ∧
        ∃ edge, Filed idx.name edge ∧ edge.source = e.source ∧ edge.target = e.target ∧
          edge.edgeType = e.edgeType ∧ idx.indexDB.get? (idx.indexKey edge) = some e.value := by
  unfold GraphIndex.queryEdgeIndex
  dsimp only
  rw [mem_filterMap]
  constructor
  · rintro ⟨⟨r, value⟩, hscan, he⟩
    obtain ⟨⟨remaining, hr⟩, hget⟩ := mem_scan_query.mp hscan
    obtain ⟨edge, hedge, hkey⟩ := hfiled r value hget
    obtain ⟨q, hq, rfl⟩ := map_eq_some_iff.mp he
    have hkey' : r = edge.target ++ incomingMarker idx.name ++
        (edge.edgeType ++ ascii [':'] ++ (edge.source ++ ascii [':', 'i'])) :=
      hkey.trans (makeEdgeIndexKey_eq ..)
    have honce : markedOnce (incomingMarker idx.name) r = true := by
      rw [hkey]
      exact hedge.once
    obtain ⟨htarget, hrest⟩ := split_unique honce hr hkey'
    obtain ⟨hparse, htype⟩ := parse_scanned hedge hcolon hrest
    dsimp only at hq
    rw [hr, drop_scanPrefix, hparse] at hq
    cases hq
    rw [hkey] at hget
    exact ⟨rfl, htype, edge, hedge, rfl, htarget.symm, rfl, hget⟩
  · rintro ⟨rfl, htype, edge, hedge, hsource, htarget, htype', hget⟩
    rw [← htype'] at htype
    obtain ⟨remaining, hremaining⟩ := scanned_of_type htype
    have hr : idx.indexKey edge = e.target ++ incomingMarker idx.name ++
        ((if edgeType.isEmpty then [] else edgeType ++ ascii [':']) ++ remaining) := by
      rw [← hremaining, ← htarget]
      exact makeEdgeIndexKey_eq ..
    refine ⟨(idx.indexKey edge, e.value), mem_scan_query.mpr ⟨⟨remaining, hr⟩, hget⟩, ?_⟩
    obtain ⟨hparse, -⟩ := parse_scanned hedge hcolon hremaining.symm
    dsimp only
    rw [hr, drop_scanPrefix, hparse, map_some, hsource, htype']

end Query

end Indexes

end Antfly
