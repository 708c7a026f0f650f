import Antfly.Cluster.TableMetadata
import Antfly.Indexes.EdgeKeys
import Antfly.Store.DeleteFrame

/-!
A storage key joins ids, index names and edge types by the marker `:i:` and by colons, without
escapes.  `ParseEdgeKey` looks for the first marker, `ParseChunkKey` and `ParseSummaryKey` for the
last one, and `Batch` tells the kinds of keys apart by their suffixes and by the markers of edges.

Ids may contain colons, and an index name is any nonempty string.  An edge is read back as long as
its source does not complete a marker and its index name and type have no colon; a chunk or summary
as long as its index name does not complete a marker.
-/

namespace Antfly

open List Option

variable {sep x y b docKey indexName : Bytes}

theorem cut_append_iff (hsep : sep ≠ []) :
    cut sep (x ++ sep ++ y) = some (x, y) ↔ ¬ sep <:+: x ++ sep.dropLast := by
  constructor
  · rintro hcut ⟨u, v, huv⟩
    obtain ⟨c, hc⟩ : ∃ c, sep = sep.dropLast ++ [c] :=
      ⟨sep.getLast hsep, (dropLast_append_getLast hsep).symm⟩
    have hb : x ++ sep ++ y = u ++ sep ++ (v ++ [c] ++ y) := by
      calc
        x ++ sep ++ y = x ++ (sep.dropLast ++ [c]) ++ y := by rw [← hc]
        _ = x ++ sep.dropLast ++ [c] ++ y := by rw [append_assoc x sep.dropLast]
        _ = u ++ sep ++ (v ++ [c] ++ y) := by rw [← huv]; simp only [append_assoc]
    have hmin := cut_min hcut hb
    have hlength := congrArg List.length huv
    have hpos := length_pos_iff.mpr hsep
    simp only [length_append, length_dropLast] at hlength
    omega
  · intro hfirst
    induction x with
    | nil =>
      obtain ⟨c, s, rfl⟩ := exists_cons_of_ne_nil hsep
      have hleading : (c :: s).isPrefixOf (c :: (s ++ y)) = true :=
        isPrefixOf_iff_prefix.mpr (prefix_append (c :: s) y)
      rw [nil_append, cons_append, cut, if_pos hleading, ← cons_append,
        drop_left]
    | cons d x ih =>
      have hrest : ¬ sep <:+: x ++ sep.dropLast := fun h =>
        hfirst (h.trans (suffix_cons d _).isInfix)
      have hleading : ¬ sep.isPrefixOf (d :: (x ++ sep ++ y)) = true := by
        intro h
        apply hfirst
        have hpre := isPrefixOf_iff_prefix.mp h
        have hwhole : d :: x ++ sep.dropLast <+: d :: (x ++ sep ++ y) := by
          refine ⟨[sep.getLast hsep] ++ y, ?_⟩
          calc
            d :: x ++ sep.dropLast ++ ([sep.getLast hsep] ++ y) =
                d :: (x ++ (sep.dropLast ++ [sep.getLast hsep]) ++ y) := by simp
            _ = d :: (x ++ sep ++ y) := by rw [dropLast_append_getLast]
        apply (prefix_of_prefix_length_le hpre hwhole ?_).isInfix
        simp only [length_append, length_cons, length_dropLast]
        omega
      rw [cons_append, cons_append, cut, if_neg hleading, ih hrest]
      rfl

theorem cutLast_eq_some (hsep : sep ≠ []) (h : cutLast sep b = some (x, y)) :
    b = x ++ sep ++ y := by
  induction b generalizing x with
  | nil =>
    rw [cutLast, if_neg (fun hempty => hsep (isEmpty_iff.mp hempty))] at h
    cases h
  | cons c b ih =>
    rw [cutLast] at h
    cases hrest : cutLast sep b with
    | some p =>
      rw [hrest] at h
      cases h
      rw [ih hrest]
      rfl
    | none =>
      rw [hrest] at h
      dsimp only at h
      split at h
      · rename_i hleading
        cases h
        obtain ⟨t, ht⟩ := isPrefixOf_iff_prefix.mp hleading
        rw [← ht, drop_left, nil_append]
      · cases h

theorem cutLast_max (hsep : sep ≠ []) (hb : b = x ++ sep ++ y) :
    ∃ p q, cutLast sep b = some (p, q) ∧ x.length ≤ p.length := by
  induction b generalizing x with
  | nil =>
    have hnil : sep = [] := by
      have hparts := append_eq_nil_iff.mp hb.symm
      exact (append_eq_nil_iff.mp hparts.1).2
    exact absurd hnil hsep
  | cons c b ih =>
    rw [cutLast]
    cases x with
    | nil =>
      cases cutLast sep b with
      | some p => exact ⟨_, _, rfl, Nat.zero_le _⟩
      | none =>
        have hleading : sep.isPrefixOf (c :: b) = true := by
          rw [hb, nil_append]
          exact isPrefixOf_iff_prefix.mpr (prefix_append sep y)
        dsimp only
        rw [if_pos hleading]
        exact ⟨_, _, rfl, Nat.le_refl _⟩
    | cons d x =>
      rw [cons_append, cons_append] at hb
      obtain ⟨p, q, hcut, hle⟩ := ih (List.cons.inj hb).2
      rw [hcut]
      exact ⟨c :: p, q, rfl, Nat.succ_le_succ hle⟩

theorem cutLast_append_iff (hsep : sep ≠ []) :
    cutLast sep (x ++ sep ++ y) = some (x, y) ↔ ¬ sep <:+: sep.tail ++ y := by
  obtain ⟨c, s, rfl⟩ := exists_cons_of_ne_nil hsep
  rw [tail_cons]
  constructor
  · rintro hcut ⟨u, v, huv⟩
    have hb : x ++ (c :: s) ++ y = (x ++ c :: u) ++ (c :: s) ++ v := by
      rw [append_assoc, cons_append, ← huv]
      simp only [append_assoc, cons_append]
    obtain ⟨p, q, hmax, hle⟩ := cutLast_max hsep hb
    rw [hcut] at hmax
    cases hmax
    simp only [length_append, length_cons] at hle
    omega
  · intro hlast
    obtain ⟨p, q, hcut, hle⟩ := cutLast_max hsep (rfl : x ++ c :: s ++ y = x ++ c :: s ++ y)
    have hb := cutLast_eq_some hsep hcut
    rw [append_assoc, append_assoc] at hb
    obtain ⟨r, hp, hrest⟩ | ⟨r, hx, hrest⟩ := append_eq_append_iff.mp hb
    · cases r with
      | nil =>
        rw [append_nil] at hp
        rw [nil_append] at hrest
        rw [hcut, hp, append_cancel_left hrest]
      | cons d r =>
        exfalso
        apply hlast
        rw [cons_append, cons_append] at hrest
        exact ⟨r, q, by rw [(List.cons.inj hrest).2, append_assoc]⟩
    · have hr : r = [] := by
        have hlength := congrArg List.length hx
        rw [length_append] at hlength
        exact length_eq_zero_iff.mp (by omega)
      rw [hr, append_nil] at hx
      rw [hr, nil_append] at hrest
      rw [hcut, hx, append_cancel_left hrest]

theorem cutLast_of_not_mem {c : UInt8} (hc : c ∉ y) :
    cutLast [c] (x ++ [c] ++ y) = some (x, y) := by
  apply (cutLast_append_iff (cons_ne_nil c [])).mpr
  intro hin
  exact hc (hin.subset mem_cons_self)

theorem indexMarker_ne_nil : indexMarker ≠ [] := by decide

/-- The source does not contain a marker, nor complete one together with the marker after it. -/
def EndsBeforeMarker (source : Bytes) : Prop := ¬ indexMarker <:+: source ++ ascii [':', 'i']

instance (source : Bytes) : Decidable (EndsBeforeMarker source) :=
  decidable_of_iff (contains (source ++ ascii [':', 'i']) indexMarker = false) <| by
    rw [← Bool.not_eq_true, contains_iff]
    exact Iff.rfl

theorem parseEdgeKey_makeEdgeKey_iff (source target indexName edgeType : Bytes) :
    parseEdgeKey (makeEdgeKey source target indexName edgeType) =
        some { source, target, indexName, edgeType } ↔
      EndsBeforeMarker source ∧ 58 ∉ indexName ∧ 58 ∉ edgeType := by
  have hkey : makeEdgeKey source target indexName edgeType = source ++ indexMarker ++
      (indexName ++ [58] ++ (ascii ['o', 'u', 't'] ++ [58] ++
        (edgeType ++ [58] ++ (target ++ edgeOutSuffix)))) := by
    simp [makeEdgeKey, outMarker, ascii]
  have hout : cut [58] (ascii ['o', 'u', 't'] ++ [58] ++
      (edgeType ++ [58] ++ (target ++ edgeOutSuffix))) =
        some (ascii ['o', 'u', 't'], edgeType ++ [58] ++ (target ++ edgeOutSuffix)) :=
    cut_of_not_mem (by decide) _
  have hsuffix : hasSuffix (target ++ edgeOutSuffix) edgeOutSuffix = true :=
    hasSuffix_iff.mpr (suffix_append _ _)
  constructor
  · intro h
    unfold parseEdgeKey at h
    simp only [bind_eq_bind, bind_eq_some_iff] at h
    obtain ⟨⟨s, r⟩, hmarker, ⟨n, r'⟩, hname, ⟨o, r''⟩, hdir, ⟨t, r'''⟩, htype, hedge⟩ := h
    split at hedge
    · simp only [Option.some.injEq, ParsedEdge.mk.injEq] at hedge
      obtain ⟨rfl, -, rfl, rfl⟩ := hedge
      rw [hkey] at hmarker
      have hr := append_cancel_left (cut_eq_some hmarker)
      rw [← hr] at hmarker
      exact ⟨(cut_append_iff indexMarker_ne_nil).mp hmarker, not_mem_of_cut hname,
        not_mem_of_cut htype⟩
    · cases hedge
  · rintro ⟨hsource, hname, htype⟩
    have hmarker := (cut_append_iff (x := source) (y := indexName ++ [58] ++
      (ascii ['o', 'u', 't'] ++ [58] ++ (edgeType ++ [58] ++ (target ++ edgeOutSuffix))))
      indexMarker_ne_nil).mpr hsource
    have hcolon : ascii [':'] = [58] := rfl
    unfold parseEdgeKey
    rw [hkey, hmarker]
    dsimp only [bind_eq_bind, bind_some]
    rw [hcolon, cut_of_not_mem hname]
    dsimp only [bind_some]
    rw [hout]
    dsimp only [bind_some]
    rw [cut_of_not_mem htype]
    dsimp only [bind_some]
    rw [if_pos hsuffix, trimSuffix_append]

inductive ChunkKind where
  | text | fullText | media
  deriving DecidableEq

def ChunkKind.suffix : ChunkKind → Bytes
  | .text => chunkSuffix
  | .fullText => chunkFullTextSuffix
  | .media => chunkMediaSuffix

def ChunkKind.makeKey : ChunkKind → Bytes → Bytes → UInt32 → Bytes
  | .text => makeChunkKey
  | .fullText => makeChunkFullTextKey
  | .media => makeMediaChunkKey

theorem ChunkKind.makeKey_eq (kind : ChunkKind) (docKey indexName : Bytes) (chunkID : UInt32) :
    kind.makeKey docKey indexName chunkID =
      docKey ++ indexMarker ++ indexName ++ [58] ++ decimal chunkID.toNat ++ kind.suffix := by
  cases kind <;> rfl

/-- The index name does not complete a marker together with the one before it. -/
def StartsAfterMarker (indexName : Bytes) : Prop := ¬ indexMarker <:+: ascii ['i', ':'] ++ indexName

instance (indexName : Bytes) : Decidable (StartsAfterMarker indexName) :=
  decidable_of_iff (contains (ascii ['i', ':'] ++ indexName) indexMarker = false) <| by
    rw [← Bool.not_eq_true, contains_iff]
    exact Iff.rfl

theorem parseDerived_iff (hdoc : docKey ≠ []) (hname : indexName ≠ []) :
    parseDerived (docKey ++ indexMarker ++ indexName) = some (docKey, indexName) ↔
      StartsAfterMarker indexName := by
  have hempty : (docKey.isEmpty || indexName.isEmpty) = false := by
    rw [isEmpty_eq_false_iff.mpr hdoc, isEmpty_eq_false_iff.mpr hname]
    rfl
  constructor
  · intro h
    unfold parseDerived at h
    obtain ⟨⟨d, n⟩, hcut, hresult⟩ := bind_eq_some_iff.mp h
    dsimp only at hresult
    split at hresult
    · cases hresult
    · cases hresult
      exact (cutLast_append_iff indexMarker_ne_nil).mp hcut
  · intro h
    unfold parseDerived
    rw [(cutLast_append_iff indexMarker_ne_nil).mpr h]
    dsimp only [bind_eq_bind, bind_some]
    rw [hempty, if_neg Bool.false_ne_true]

theorem parseSummaryKey_makeSummaryKey_iff (hdoc : docKey ≠ []) (hname : indexName ≠ []) :
    parseSummaryKey (makeSummaryKey docKey indexName) = some (docKey, indexName) ↔
      StartsAfterMarker indexName := by
  have hsuffix : hasSuffix (makeSummaryKey docKey indexName) summarySuffix = true :=
    hasSuffix_iff.mpr (suffix_append _ _)
  have htrim : trimSuffix (makeSummaryKey docKey indexName) summarySuffix =
      docKey ++ indexMarker ++ indexName := trimSuffix_append _ _
  unfold parseSummaryKey
  rw [if_pos hsuffix, htrim]
  exact parseDerived_iff hdoc hname

theorem isChunkKey_append_suffix (x : Bytes) (kind : ChunkKind) :
    isChunkKey (x ++ kind.suffix) = true := by
  unfold isChunkKey
  rw [Bool.or_eq_true, Bool.or_eq_true]
  cases kind with
  | text => exact .inl (.inl (hasSuffix_iff.mpr (suffix_append _ _)))
  | fullText => exact .inl (.inr (hasSuffix_iff.mpr (suffix_append _ _)))
  | media => exact .inr (hasSuffix_iff.mpr (suffix_append _ _))

theorem trimChunkSuffix_append_suffix (x : Bytes) (kind : ChunkKind) :
    trimChunkSuffix (x ++ kind.suffix) = x := by
  have htrim : trimChunkSuffix (x ++ kind.suffix) = trimSuffix (x ++ kind.suffix) kind.suffix := by
    cases kind <;>
      simp [trimChunkSuffix, ChunkKind.suffix, chunkSuffix, chunkFullTextSuffix, chunkMediaSuffix,
        hasSuffix, List.isSuffixOf, List.isPrefixOf, ascii]
  rw [htrim, trimSuffix_append]

theorem parseChunkKey_makeKey_iff (kind : ChunkKind) (hdoc : docKey ≠ []) (hname : indexName ≠ [])
    (chunkID : UInt32) :
    parseChunkKey (kind.makeKey docKey indexName chunkID) = some (docKey, indexName) ↔
      StartsAfterMarker indexName := by
  have hchunk := isChunkKey_append_suffix
    (docKey ++ indexMarker ++ indexName ++ [58] ++ decimal chunkID.toNat) kind
  have hcut : cutLast (ascii [':']) (docKey ++ indexMarker ++ indexName ++ [58] ++
      decimal chunkID.toNat) = some (docKey ++ indexMarker ++ indexName, decimal chunkID.toNat) :=
    cutLast_of_not_mem (colon_not_mem_decimal _)
  have hnumber : decimal chunkID.toNat ≠ [] := decimal_ne_nil _
  have hempty : ((docKey ++ indexMarker ++ indexName).isEmpty ||
      (decimal chunkID.toNat).isEmpty) = false := by
    rw [isEmpty_eq_false_iff.mpr hnumber, isEmpty_eq_false_iff.mpr]
    · rfl
    · intro h
      exact hname (append_eq_nil_iff.mp h).2
  unfold parseChunkKey
  rw [kind.makeKey_eq, if_pos hchunk, trimChunkSuffix_append_suffix, hcut]
  dsimp only [bind_eq_bind, bind_some]
  rw [hempty, if_neg Bool.false_ne_true]
  exact parseDerived_iff hdoc hname

end Antfly
