import Antfly.Store.Routing

/-!
The body of a document `k` is stored under `k ++ ":\x00"` and its timestamp under
`k ++ ":\x00:t"`.  Of everything the store writes, these two keys are touched by the write of `k`
itself and by the tombstones of ids that cover it; never by the enrichments of another document.
-/

namespace Antfly

open List

/-- An id a client can use whose documents stay clear of other records: it is accepted by the
metadata layer, does not start with the zero byte of the store's own records, and is not the
`<id>:i:<index>:out` under which the edges of a document are listed. -/
structure UserKey (k : Bytes) : Prop where
  accepted : validateDocumentMutationKey k = none
  notReserved : k.head? ≠ some 0
  notEdgeList : ¬ (indexMarker <:+: k ∧ ascii [':', 'o', 'u', 't'] <:+ k)

def documentTimestampKey (k : Bytes) : Bytes := timestampKey (keyRangeStart k)

def IsDocumentKey (k x : Bytes) : Prop := x = keyRangeStart k ∨ x = documentTimestampKey k

theorem documentTimestampKey_eq (k : Bytes) :
    documentTimestampKey k = k ++ [58, 0, 58, 116] := by
  simp [documentTimestampKey, timestampKey, keyRangeStart, dbRangeStart, transactionSuffix, ascii]

theorem keyRangeStart_eq (k : Bytes) : keyRangeStart k = k ++ [58, 0] := rfl

variable {k k' : Bytes}

theorem keyRangeStart_inj : keyRangeStart k = keyRangeStart k' ↔ k = k' := by
  simp [keyRangeStart]

theorem documentTimestampKey_inj : documentTimestampKey k = documentTimestampKey k' ↔ k = k' := by
  simp [documentTimestampKey, timestampKey, keyRangeStart]

theorem keyRangeStart_ne_timestampKey (k k' : Bytes) :
    keyRangeStart k ≠ documentTimestampKey k' := by
  intro h
  rw [documentTimestampKey_eq, keyRangeStart_eq] at h
  have hlast := congrArg List.getLast? h
  simp at hlast

theorem effect_documentOps {id body x : Bytes} {ts : Nat} {e : PebbleOp} {o : Option Stored}
    (he : e ∈ documentOps id body ts) (h : e.effect x = some o) :
    (x = keyRangeStart id ∧ o = some (.zstd body)) ∨
      (x = documentTimestampKey id ∧ o = some (.uint64 ts)) := by
  have hset : ∀ {y : Bytes} {v : Stored}, (OrdMap.Edit.set y v : PebbleOp).effect x = some o →
      x = y ∧ o = some v := by
    intro y v heffect
    rw [OrdMap.Edit.effect] at heffect
    split at heffect
    · rename_i hx
      exact ⟨hx, (Option.some.inj heffect).symm⟩
    · cases heffect
  unfold documentOps timestampOps at he
  rcases mem_cons.mp he with rfl | hts
  · exact .inl (hset h)
  · split at hts
    · rw [mem_singleton.mp hts] at h
      exact .inr (hset h)
    · exact absurd hts not_mem_nil

namespace UserKey

variable {k : Bytes}

theorem ne_nil (h : UserKey k) : k ≠ [] := ne_nil_of_accepted h.accepted

theorem not_contains_dbRangeStart (h : UserKey k) : ¬ [58, 0] <:+: k := by
  intro hin
  have hacc := h.accepted
  have hcontains : contains k dbRangeStart = true := contains_iff.mpr hin
  unfold validateDocumentMutationKey validateReservedDocumentKeyShape at hacc
  grind

theorem not_isEdgeKey (h : UserKey k) : isEdgeKey k = false := by
  have hacc := h.accepted
  unfold validateDocumentMutationKey validateReservedDocumentKeyShape at hacc
  grind

theorem head_append (h : UserKey k) (t : Bytes) : (k ++ t).head? ≠ some 0 := by
  obtain ⟨a, l, rfl⟩ := exists_cons_of_ne_nil h.ne_nil
  exact h.notReserved

end UserKey

private theorem append_ne_of_getLast {a b s t : Bytes} {p q : UInt8} (hpq : p ≠ q) :
    a ++ (s ++ [p]) ≠ b ++ (t ++ [q]) := by
  intro h
  have hlast := congrArg List.getLast? h
  simp [← append_assoc] at hlast
  exact hpq hlast

variable {k u x name target type : Bytes} {sf : SpecialFields}

theorem documentKey_ne_of_embedding (hx : IsDocumentKey k x) (hemb : IsEmbeddingKeyOf u x) :
    False := by
  obtain ⟨name, hx' | hx'⟩ := hemb
  · rcases hx with rfl | rfl
    · exact append_ne_of_getLast (s := [58]) (t := [58]) (by decide) hx'
    · rw [documentTimestampKey_eq] at hx'
      exact append_ne_of_getLast (s := [58, 0, 58]) (t := [58]) (by decide) hx'
  · rcases hx with rfl | rfl
    · exact append_ne_of_getLast (s := [58]) (t := [58, 115]) (by decide) hx'
    · rw [documentTimestampKey_eq] at hx'
      exact append_ne_of_getLast (s := [58, 0, 58]) (t := [58, 115]) (by decide) hx'

theorem documentKey_ne_of_summary (hx : IsDocumentKey k x) (hsum : x = makeSummaryKey u name) :
    False := by
  rcases hx with rfl | rfl
  · exact append_ne_of_getLast (s := [58]) (t := [58]) (by decide) hsum
  · rw [documentTimestampKey_eq] at hsum
    exact append_ne_of_getLast (s := [58, 0, 58]) (t := [58]) (by decide) hsum

theorem documentKey_ne_of_edge (hx : IsDocumentKey k x)
    (hedge : x = makeEdgeKey u target name type) :
    False := by
  rcases hx with rfl | rfl
  · exact append_ne_of_getLast (s := [58]) (t := [58]) (by decide) hedge
  · rw [documentTimestampKey_eq] at hedge
    exact append_ne_of_getLast (s := [58, 0, 58]) (t := [58]) (by decide) hedge

theorem documentKey_ne_of_edgeTimestamp (hx : IsDocumentKey k x)
    (hedge : x = timestampKey (makeEdgeKey u target name type)) :
    False := by
  have hshape : timestampKey (makeEdgeKey u target name type) =
      (u ++ indexMarker ++ name ++ outMarker ++ type ++ ascii [':'] ++ target) ++
        [58, 111, 58, 116] := by
    simp [timestampKey, makeEdgeKey, edgeOutSuffix, transactionSuffix, ascii]
  rw [hshape] at hedge
  rcases hx with rfl | rfl
  · exact append_ne_of_getLast (s := [58]) (t := [58, 111, 58]) (by decide) hedge
  · rw [documentTimestampKey_eq] at hedge
    have hsuffix := append_inj_right' hedge rfl
    simp at hsuffix

theorem UserKey.not_edgeList (hk : UserKey k) (hx : IsDocumentKey k x)
    (hpre : edgeIteratorPrefix u name [] <+: x) :
    False := by
  rw [edgeIteratorPrefix_eq] at hpre
  set q := u ++ indexMarker ++ name ++ ascii [':', 'o', 'u', 't'] with hq
  have hindex : indexMarker <:+: q := by
    refine ⟨u, name ++ ascii [':', 'o', 'u', 't'], ?_⟩
    simp [hq]
  have hqt : q.getLast? = some 116 := by simp [hq, ascii]
  obtain ⟨r, hr, hxr⟩ : ∃ r, (r = [58, 0] ∨ r = [58, 0, 58, 116]) ∧ x = k ++ r := by
    rcases hx with rfl | rfl
    · exact ⟨_, .inl rfl, rfl⟩
    · exact ⟨_, .inr rfl, documentTimestampKey_eq k⟩
  subst hxr
  rcases le_or_gt (q ++ [58]).length k.length with hlen | hlen
  · -- The whole edge prefix lies inside the id, which is then an edge key itself.
    have hin : q ++ [58] <+: k := prefix_of_prefix_length_le hpre (prefix_append k r) hlen
    have hedge : isEdgeKey k = true := by
      have hmarker : contains k indexMarker = true :=
        contains_iff.mpr (hindex.trans ((prefix_append q [58]).trans hin).isInfix)
      have hout : contains k outMarker = true := by
        refine contains_iff.mpr (List.IsInfix.trans ?_ hin.isInfix)
        refine ⟨u ++ indexMarker ++ name, [], ?_⟩
        simp [hq, outMarker, ascii]
      simp [isEdgeKey, hmarker, hout]
    rw [hk.not_isEdgeKey] at hedge
    cases hedge
  · -- Otherwise the id is the name of the edge list, up to the bytes of the suffix.
    have hkq : k <+: q := by
      have hkp : k <+: q ++ [58] :=
        prefix_of_prefix_length_le (prefix_append k r) hpre (le_of_lt hlen)
      exact prefix_of_prefix_length_le hkp (prefix_append q [58]) (by
        simp only [length_append, length_singleton] at hlen
        omega)
    obtain ⟨s, hs⟩ := hkq
    rw [← hs, append_assoc, prefix_append_right_inj] at hpre
    rw [← hs] at hqt hindex
    have hsuffix : s = [] := by
      by_contra hne
      rw [getLast?_append_of_ne_nil k hne] at hqt
      have hmem : (116 : UInt8) ∈ s := mem_of_getLast? hqt
      obtain ⟨t, ht⟩ := hpre
      have hdrop : (116 : UInt8) ∈ r.dropLast := by
        rw [← ht, append_assoc, dropLast_append_of_ne_nil (by simp)]
        exact mem_append_left _ hmem
      rcases hr with rfl | rfl <;> revert hdrop <;> decide
    subst hsuffix
    rw [append_nil] at hs hindex
    refine hk.notEdgeList ⟨hindex, ?_⟩
    rw [hs, hq]
    exact suffix_append _ _

theorem SpecialFields.KeysOf.untouched {y : Bytes} (hsf : sf.KeysOf u)
    (hy : ¬ u ++ indexMarker <+: y) (ts : Nat) :
    ∀ e ∈ sf.ops ts, e.effect y = none := by
  have hne : ∀ {x : Bytes}, u ++ indexMarker <+: x → y ≠ x := by
    rintro x hx rfl
    exact hy hx
  have hset : ∀ {x : Bytes} {v : Stored}, u ++ indexMarker <+: x →
      (OrdMap.Edit.set x v : PebbleOp).effect y = none := by
    intro x v hx
    simp [OrdMap.Edit.effect, hne hx]
  have hemb : ∀ {x : Bytes}, IsEmbeddingKeyOf u x → u ++ indexMarker <+: x := by
    rintro x ⟨name, rfl | rfl⟩
    · exact ⟨name ++ embeddingSuffix, by simp [makeEmbeddingKey]⟩
    · exact ⟨name ++ sparseSuffix, by simp [makeSparseKey]⟩
  have hedgeKey : ∀ target name type, u ++ indexMarker <+: makeEdgeKey u target name type :=
    fun target name type => ⟨name ++ outMarker ++ type ++ ascii [':'] ++ target ++ edgeOutSuffix,
      by simp [makeEdgeKey]⟩
  intro e he
  simp only [SpecialFields.ops, mem_append, mem_flatMap, mem_map,
    mem_cons] at he
  rcases he with ((⟨w, hw, rfl⟩ | ⟨w, hw, rfl⟩) | ⟨w, hw, rfl | hts⟩) | ⟨d, hd, rfl⟩
  · exact hset (hemb (hsf.embeddings w hw))
  · obtain ⟨name, hname⟩ := hsf.summaries w hw
    exact hset ⟨name ++ summarySuffix, by simp [hname, makeSummaryKey]⟩
  · obtain ⟨target, name, type, hedge⟩ := hsf.edges w hw
    exact hset (hedge ▸ hedgeKey target name type)
  · obtain ⟨target, name, type, hedge⟩ := hsf.edges w hw
    unfold timestampOps at hts
    split at hts
    · rw [mem_singleton] at hts
      subst hts
      exact hset ((hedge ▸ hedgeKey target name type).trans (prefix_append _ _))
    · cases hts
  · have hpre : u ++ indexMarker <+: d := by
      rcases hsf.deletes d hd with h | ⟨name, h⟩
      · exact hemb h
      · exact List.IsPrefix.trans ⟨name ++ outMarker, by simp [edgeIteratorPrefix]⟩ h
    simp [OrdMap.Edit.effect, hne hpre]

theorem UserKey.specialFields_untouched (hk : UserKey k) (hx : IsDocumentKey k x)
    (hsf : sf.KeysOf u) (ts : Nat) :
    ∀ e ∈ sf.ops ts, e.effect x = none := by
  have hset : ∀ {y : Bytes} {v : Stored}, x ≠ y →
      (OrdMap.Edit.set y v : PebbleOp).effect x = none := by
    intro y v hne
    simp [OrdMap.Edit.effect, hne]
  intro e he
  simp only [SpecialFields.ops, mem_append, mem_flatMap, mem_map,
    mem_cons] at he
  rcases he with ((⟨w, hw, rfl⟩ | ⟨w, hw, rfl⟩) | ⟨w, hw, rfl | hts⟩) | ⟨d, hd, rfl⟩
  · refine hset fun hxw => ?_
    exact documentKey_ne_of_embedding hx (hxw ▸ hsf.embeddings w hw)
  · obtain ⟨name, hname⟩ := hsf.summaries w hw
    exact hset fun hxw => documentKey_ne_of_summary hx (hxw.trans hname)
  · obtain ⟨target, name, type, hedge⟩ := hsf.edges w hw
    exact hset fun hxw => documentKey_ne_of_edge hx (hxw.trans hedge)
  · obtain ⟨target, name, type, hedge⟩ := hsf.edges w hw
    unfold timestampOps at hts
    split at hts
    · rw [mem_singleton] at hts
      subst hts
      exact hset fun hxw => documentKey_ne_of_edgeTimestamp hx (hxw.trans (by rw [hedge]))
    · cases hts
  · have hne : x ≠ d := by
      rintro rfl
      rcases hsf.deletes x hd with hemb | ⟨name, hpre⟩
      · exact documentKey_ne_of_embedding hx hemb
      · exact hk.not_edgeList hx hpre
    simp [OrdMap.Edit.effect, hne]

end Antfly
