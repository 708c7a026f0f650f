import Antfly.Sparse.ChunkMerger

/-!
Pebble may merge any run of neighbouring values of a key into one operand, then merge such operands
again, and at last merge everything with the base.  Each of these merges starts at some value and
takes in newer and older neighbours in any order.  A tree of merges is read in two orders: by age,
and in the order in which the mergers meet the values.

A merge that is not the last forgets its deletes, and a merge that meets an older value after a
newer one takes the older weight.  These are the only two ways in which a grouping can differ from
the one merge of all values from old to new.
-/

namespace Antfly.Sparse

open List

/-- A value written to a chunk key: a stored chunk, or the operand of an insert or a delete. -/
inductive Value (hw : Highway) where
  | chunk (data : Bytes) (postings : List Posting) (maxWeight : Weight)
      (decodes : decodeChunk hw data = .ok (postings, maxWeight))
  | add (docNums : List UInt32) (weights : List Weight)
      (sameLength : weights.length = docNums.length) (fits : docNums.length < 4294967296)
  | delete (docNums : List UInt32) (fits : docNums.length < 4294967296)

namespace Value

variable {hw : Highway}

def bytes : Value hw → Bytes
  | chunk data _ _ _ => data
  | add docNums weights _ _ => encodeMergeOperand opTypeAdd docNums weights
  | delete docNums _ => encodeMergeOperand opTypeDelete docNums []

def postings : Value hw → List Posting
  | chunk _ postings _ _ => postings
  | add docNums weights _ _ => List.zipWith (fun d w => ⟨d.toNat, w⟩) docNums weights
  | delete _ _ => []

def deletes : Value hw → List UInt32
  | delete docNums _ => docNums
  | _ => []

end Value

mutual

/-- A value of the key, or the operand a partial merge of several leaves. -/
inductive Grouping (hw : Highway) where
  | value (v : Value hw)
  | merged (m : Merging hw)

/-- The calls a merger has received. -/
inductive Merging (hw : Highway) where
  | new (g : Grouping hw)
  | newer (m : Merging hw) (g : Grouping hw)
  | older (m : Merging hw) (g : Grouping hw)

end

variable {hw : Highway}

mutual

/-- The bytes a grouping leaves in the store. -/
def Grouping.bytes : Grouping hw → Except EncodingError Bytes
  | .value v => .ok v.bytes
  | .merged m => do (← m.run).finish hw false

/-- The merger after the calls. -/
def Merging.run : Merging hw → Except EncodingError ChunkValueMerger
  | .new g => do return newChunkValueMerger (← g.bytes)
  | .newer m g => do return (← m.run).mergeNewer (← g.bytes)
  | .older m g => do return (← m.run).mergeOlder (← g.bytes)

end

mutual

/-- The values of a grouping from old to new. -/
def Grouping.byAge : Grouping hw → List (Value hw)
  | .value v => [v]
  | .merged m => m.byAge

def Merging.byAge : Merging hw → List (Value hw)
  | .new g => g.byAge
  | .newer m g => m.byAge ++ g.byAge
  | .older m g => g.byAge ++ m.byAge

end

mutual

/-- The values of a grouping in the order the mergers meet them. -/
def Grouping.asMet : Grouping hw → List (Value hw)
  | .value v => [v]
  | .merged m => m.asMet

def Merging.asMet : Merging hw → List (Value hw)
  | .new g => g.asMet
  | .newer m g | .older m g => m.asMet ++ g.asMet

end

/-- One merger for all values, from the oldest to the newest. -/
def atOnce (oldest : Value hw) (values : List (Value hw)) : Merging hw :=
  values.foldl (fun m v => .newer m (.value v)) (.new (.value oldest))

mutual

/-- The operands of the partial merges are values Pebble can hold: shorter than 4 GiB. -/
def Grouping.Stored : Grouping hw → Prop
  | .value _ => True
  | .merged m => m.Stored ∧ ∀ b, (Grouping.merged m).bytes = .ok b → b.length < 4294967296

def Merging.Stored : Merging hw → Prop
  | .new g => g.Stored
  | .newer m g | .older m g => m.Stored ∧ g.Stored

end

/-- The value is an operand that deletes the document. -/
def Grouping.deletes (d : UInt32) : Grouping hw → Bool
  | .value v => decide (d ∈ v.deletes)
  | .merged _ => false

/-- One of the values the merger itself has received deletes the document. -/
def Merging.deletes (d : UInt32) : Merging hw → Bool
  | .new g => g.deletes d
  | .newer m g | .older m g => m.deletes d || g.deletes d

mutual

/-- Every posting of the document in the grouping is dropped by a merge inside it. -/
def Grouping.Drops (d : UInt32) : Grouping hw → Prop
  | .value v => ∀ p ∈ v.postings, p.docNum ≠ d.toNat
  | .merged m => m.deletes d = true ∨ m.EachDrops d

def Merging.EachDrops (d : UInt32) : Merging hw → Prop
  | .new g => g.Drops d
  | .newer m g | .older m g => m.EachDrops d ∧ g.Drops d

end

/-- The postings of a document that the values hold, in their order. -/
def postingsOf (values : List (Value hw)) : List Posting := values.flatMap Value.postings

@[simp] theorem postingsOf_append (vs vs' : List (Value hw)) :
    postingsOf (vs ++ vs') = postingsOf vs ++ postingsOf vs' := flatMap_append

/-- A grouping is safe when every posting of a deleted document is merged with a delete of it, by
the last merge or by one before, and of the postings of any other document the newest, or one of
the same weight, is met last. -/
structure Merging.Safe (m : Merging hw) : Prop where
  deleted : ∀ d : UInt32, (∃ v ∈ m.byAge, d ∈ v.deletes) → m.deletes d = true ∨ m.EachDrops d
  newest : ∀ d : UInt32, (∀ v ∈ m.byAge, d ∉ v.deletes) →
    (weightsOf d.toNat (postingsOf m.asMet)).getLast? =
      (weightsOf d.toNat (postingsOf m.byAge)).getLast?

/-- The merger reads these postings and deletes from a value. -/
def Means (hw : Highway) (b : Bytes) (es : List Posting) (ds : List UInt32) : Prop :=
  ∀ acc : Collected, acc.process hw b = .ok ⟨acc.entries ++ es, acc.deleteSet ++ ds⟩

private theorem encodeMergeOperand_eq_cons (opType : UInt8) (docNums : List UInt32)
    (weights : List Weight) : ∃ rest,
      encodeMergeOperand opType docNums weights = mergeOperandVersion :: rest :=
  ⟨_, rfl⟩

variable {docNums : List UInt32} {weights : List Weight} {data : Bytes} {postings : List Posting}
variable {maxWeight : Weight}

theorem means_add (hlength : weights.length = docNums.length)
    (hfits : docNums.length < 4294967296) :
    Means hw (encodeMergeOperand opTypeAdd docNums weights)
      (List.zipWith (fun d w => ⟨d.toNat, w⟩) docNums weights) [] := by
  intro acc
  have hweights : opTypeAdd = opTypeAdd → weights.length = docNums.length := fun _ => hlength
  have hdecode := decodeMergeOperand_encodeMergeOperand hfits hweights
  obtain ⟨rest, hrest⟩ := encodeMergeOperand_eq_cons opTypeAdd docNums weights
  rw [hrest] at hdecode ⊢
  have hversion : mergeOperandVersion ≠ formatVersion := by decide
  simp only [Collected.process, if_neg hversion, if_true, hdecode, append_nil]
  rfl

theorem means_delete (hfits : docNums.length < 4294967296) :
    Means hw (encodeMergeOperand opTypeDelete docNums []) [] docNums := by
  intro acc
  have hkind : opTypeDelete ≠ opTypeAdd := by decide
  have hweights : opTypeDelete = opTypeAdd → ([] : List Weight).length = docNums.length :=
    fun h => absurd h hkind
  have hdecode := decodeMergeOperand_encodeMergeOperand hfits hweights
  obtain ⟨rest, hrest⟩ := encodeMergeOperand_eq_cons opTypeDelete docNums []
  rw [hrest] at hdecode ⊢
  have hversion : mergeOperandVersion ≠ formatVersion := by decide
  simp only [Collected.process, if_neg hversion, if_true, hdecode, if_neg hkind, append_nil]
  rfl

theorem means_chunk (h : decodeChunk hw data = .ok (postings, maxWeight)) :
    Means hw data postings [] := by
  intro acc
  cases data with
  | nil => cases h
  | cons version rest =>
    have hversion : version = formatVersion := by
      by_contra hne
      simp only [decodeChunk, if_pos hne] at h
      split at h <;> cases h
    simp only [Collected.process, if_pos hversion, h, append_nil]
    rfl

theorem Value.means (v : Value hw) : Means hw v.bytes v.postings v.deletes := by
  cases v with
  | chunk data postings maxWeight decodes => exact means_chunk decodes
  | add docNums weights sameLength fits => exact means_add sameLength fits
  | delete docNums fits => exact means_delete fits

private theorem docNum_lt_of_zipWith {p : Posting}
    (h : p ∈ List.zipWith (fun d w => (⟨d.toNat, w⟩ : Posting)) docNums weights) :
    p.docNum < 4294967296 := by
  induction docNums generalizing weights with
  | nil => simp at h
  | cons d docNums ih =>
    cases weights with
    | nil => simp at h
    | cons w weights =>
      rw [zipWith_cons_cons, mem_cons] at h
      rcases h with rfl | h
      · exact d.toNat_lt
      · exact ih h

theorem decodeChunk_docNum_lt (h : decodeChunk hw data = .ok (postings, maxWeight)) :
    ∀ p ∈ postings, p.docNum < 4294967296 := by
  intro p hp
  cases data with
  | nil => cases h
  | cons version rest =>
    simp only [decodeChunk] at h
    split at h
    · cases h
    · split at h
      · cases h
      · split at h
        · cases h
        · cases h
          exact docNum_lt_of_zipWith hp

theorem Value.docNum_lt (v : Value hw) : ∀ p ∈ v.postings, p.docNum < 4294967296 := by
  intro p hp
  cases v with
  | chunk data postings maxWeight decodes => exact decodeChunk_docNum_lt decodes p hp
  | add docNums weights sameLength fits => exact docNum_lt_of_zipWith hp
  | delete docNums fits => exact absurd hp not_mem_nil

/-- The operand of a partial merge brings the postings the merge resolved to, and no deletes. -/
theorem means_partialOperand (hdocNum : ∀ p ∈ postings, p.docNum < 4294967296)
    (hstored : (ChunkValueMerger.partialOperand postings).length < 4294967296) :
    Means hw (ChunkValueMerger.partialOperand postings) postings [] := by
  have hcount : postings.length < 4294967296 := by
    rw [ChunkValueMerger.partialOperand, length_encodeMergeOperand, length_map] at hstored
    omega
  have hread : List.zipWith (fun d w => (⟨d.toNat, w⟩ : Posting))
      (postings.map fun p =>
        if 4294967295 < p.docNum then 4294967295 else UInt32.ofNat p.docNum)
      (postings.map Posting.weight) = postings := by
    clear hstored hcount
    induction postings with
    | nil => rfl
    | cons p postings ih =>
      have hp := hdocNum p mem_cons_self
      have hsame : (UInt32.ofNat p.docNum).toNat = p.docNum := by
        rw [UInt32.toNat_ofNat']
        exact Nat.mod_eq_of_lt hp
      have hnot : ¬ 4294967295 < p.docNum := by omega
      rw [map_cons, map_cons, zipWith_cons_cons, if_neg hnot, hsame,
        ih fun q hq => hdocNum q (mem_cons_of_mem _ hq)]
  have hlength : (postings.map Posting.weight).length = (postings.map fun p =>
      if 4294967295 < p.docNum then 4294967295 else UInt32.ofNat p.docNum).length := by simp
  have hfits : (postings.map fun p =>
      if 4294967295 < p.docNum then 4294967295 else UInt32.ofNat p.docNum).length <
        4294967296 := by simpa using hcount
  have hmeans := @means_add hw _ _ hlength hfits
  rw [hread] at hmeans
  exact hmeans

mutual

/-- The weights of a document that come out of a grouping, in the order they are met: a partial
merge that deletes the document lets none of them through. -/
def Grouping.met (d : UInt32) : Grouping hw → List Weight
  | .value v => weightsOf d.toNat v.postings
  | .merged m => if m.deletes d = true then [] else m.met d

def Merging.met (d : UInt32) : Merging hw → List Weight
  | .new g => g.met d
  | .newer m g | .older m g => m.met d ++ g.met d

end

/-- The postings and deletes a grouping passes on are those the definitions above name. -/
structure Grouping.Passes (g : Grouping hw) (es : List Posting) (ds : List UInt32) : Prop where
  weight : ∀ d : UInt32, (weightsOf d.toNat es).getLast? = (g.met d).getLast?
  deleted : ∀ d, d ∈ ds ↔ g.deletes d = true
  docNum_lt : ∀ p ∈ es, p.docNum < 4294967296

structure Merging.Collects (m : Merging hw) (c : Collected) : Prop where
  weight : ∀ d : UInt32, (weightsOf d.toNat c.entries).getLast? = (m.met d).getLast?
  deleted : ∀ d, d ∈ c.deleteSet ↔ m.deletes d = true
  docNum_lt : ∀ p ∈ c.entries, p.docNum < 4294967296

variable {m : Merging hw} {c : Collected} {es : List Posting} {ds : List UInt32}

theorem Merging.Collects.weight? (h : m.Collects c) (d : UInt32) :
    c.weight? d.toNat = if m.deletes d = true then none else (m.met d).getLast? := by
  rw [Collected.weight?, UInt32.ofNat_toNat, h.weight]
  simp only [h.deleted]

theorem Merging.Collects.append {m' : Merging hw} {g : Grouping hw} (h : m.Collects c)
    (hg : g.Passes es ds) (hmet : ∀ d, m'.met d = m.met d ++ g.met d)
    (hdeletes : ∀ d, m'.deletes d = (m.deletes d || g.deletes d)) :
    m'.Collects ⟨c.entries ++ es, c.deleteSet ++ ds⟩ := by
  constructor
  · intro d
    rw [hmet, weightsOf_append, getLast?_append, getLast?_append, h.weight, hg.weight]
  · intro d
    rw [mem_append, h.deleted, hg.deleted, hdeletes, Bool.or_eq_true]
  · intro p hp
    rcases mem_append.mp hp with hp | hp
    · exact h.docNum_lt p hp
    · exact hg.docNum_lt p hp

theorem ChunkValueMerger.collect_merge (m : ChunkValueMerger) {b : Bytes}
    (h : m.collect hw = .ok c) (hb : Means hw b es ds) :
    (ChunkValueMerger.mk m.base (m.operands ++ [b])).collect hw =
      .ok ⟨c.entries ++ es, c.deleteSet ++ ds⟩ := by
  have hc : (m.base :: m.operands).foldlM (Collected.process hw) ⟨[], []⟩ = .ok c := h
  rw [ChunkValueMerger.collect, ← cons_append, foldlM_append, hc]
  change List.foldlM (Collected.process hw) c [b] = _
  rw [foldlM_cons, hb c]
  rfl

mutual

/-- Every grouping of storable operands finishes, and passes on what the definitions say. -/
theorem Grouping.passes (g : Grouping hw) (h : g.Stored) :
    ∃ b es ds, g.bytes = .ok b ∧ Means hw b es ds ∧ g.Passes es ds :=
  match g with
  | .value v => ⟨v.bytes, v.postings, v.deletes, rfl, v.means,
      fun d => rfl, fun d => by simp [Grouping.deletes], v.docNum_lt⟩
  | .merged m => by
      obtain ⟨hm, hstored⟩ := h
      obtain ⟨merger, c, hrun, hcollect, hc⟩ := m.collects hm
      have hresolve : merger.resolve hw = .ok c.postings := by
        rw [ChunkValueMerger.resolve, hcollect]
        rfl
      have hbytes : (Grouping.merged m).bytes =
          .ok (ChunkValueMerger.partialOperand c.postings) := by
        rw [Grouping.bytes, hrun]
        change merger.finishPartial hw = _
        rw [ChunkValueMerger.finishPartial, hresolve]
        -- The operand of no postings is the empty add operand.
        cases hnil : c.postings with
        | nil => rfl
        | cons p postings => rfl
      have hdocNum : ∀ p ∈ c.postings, p.docNum < 4294967296 := by
        intro p hp
        have hweight := c.mem_postings.mp hp
        rw [Collected.weight?] at hweight
        split at hweight
        · cases hweight
        · exact hc.docNum_lt _ (mem_weightsOf.mp (mem_of_getLast? hweight))
      refine ⟨_, c.postings, [], hbytes, means_partialOperand hdocNum (hstored _ hbytes), ?_⟩
      constructor
      · intro d
        rw [Collected.getLast?_weightsOf_postings, hc.weight?, Grouping.met]
        split <;> rfl
      · intro d
        simp [Grouping.deletes]
      · exact hdocNum

theorem Merging.collects (m : Merging hw) (h : m.Stored) :
    ∃ merger c, m.run = .ok merger ∧ merger.collect hw = .ok c ∧ m.Collects c :=
  match m with
  | .new g => by
      obtain ⟨b, es, ds, hbytes, hmeans, hg⟩ := g.passes h
      refine ⟨newChunkValueMerger b, ⟨es, ds⟩, ?_, ?_, ⟨hg.weight, hg.deleted, hg.docNum_lt⟩⟩
      · rw [Merging.run, hbytes]
        rfl
      · rw [ChunkValueMerger.collect]
        change List.foldlM (Collected.process hw) ⟨[], []⟩ [b] = _
        rw [foldlM_cons, hmeans]
        rfl
  | .newer m g => by
      obtain ⟨hm, hg⟩ := h
      obtain ⟨merger, c, hrun, hcollect, hc⟩ := m.collects hm
      obtain ⟨b, es, ds, hbytes, hmeans, hpasses⟩ := g.passes hg
      refine ⟨merger.mergeNewer b, _, ?_, merger.collect_merge hcollect hmeans,
        hc.append hpasses (fun d => rfl) fun d => rfl⟩
      rw [Merging.run, hrun, hbytes]
      rfl
  | .older m g => by
      obtain ⟨hm, hg⟩ := h
      obtain ⟨merger, c, hrun, hcollect, hc⟩ := m.collects hm
      obtain ⟨b, es, ds, hbytes, hmeans, hpasses⟩ := g.passes hg
      refine ⟨merger.mergeOlder b, _, ?_, merger.collect_merge hcollect hmeans,
        hc.append hpasses (fun d => rfl) fun d => rfl⟩
      rw [Merging.run, hrun, hbytes]
      rfl

end

theorem Merging.resolves (m : Merging hw) (h : m.Stored) :
    ∃ merger c, m.run = .ok merger ∧ merger.resolve hw = .ok c.postings ∧ m.Collects c := by
  obtain ⟨merger, c, hrun, hcollect, hc⟩ := m.collects h
  refine ⟨merger, c, hrun, ?_, hc⟩
  rw [ChunkValueMerger.resolve, hcollect]
  rfl

mutual

theorem Grouping.mem_asMet (g : Grouping hw) (v : Value hw) : v ∈ g.asMet ↔ v ∈ g.byAge :=
  match g with
  | .value _ => Iff.rfl
  | .merged m => m.mem_asMet v

theorem Merging.mem_asMet (m : Merging hw) (v : Value hw) : v ∈ m.asMet ↔ v ∈ m.byAge :=
  match m with
  | .new g => g.mem_asMet v
  | .newer m g => by
      rw [Merging.asMet, Merging.byAge, mem_append, mem_append, m.mem_asMet, g.mem_asMet]
  | .older m g => by
      rw [Merging.asMet, Merging.byAge, mem_append, mem_append, m.mem_asMet, g.mem_asMet,
        or_comm]

end

mutual

theorem Grouping.drops_iff (g : Grouping hw) (d : UInt32) : g.Drops d ↔ g.met d = [] :=
  match g with
  | .value v => weightsOf_eq_nil_iff.symm
  | .merged m => by
      rw [Grouping.Drops, Grouping.met, m.eachDrops_iff]
      cases m.deletes d <;> simp

theorem Merging.eachDrops_iff (m : Merging hw) (d : UInt32) : m.EachDrops d ↔ m.met d = [] :=
  match m with
  | .new g => g.drops_iff d
  | .newer m g | .older m g => by
      rw [Merging.EachDrops, Merging.met, append_eq_nil_iff, m.eachDrops_iff, g.drops_iff]

end

mutual

variable {d : UInt32}

theorem Grouping.met_of_not_deleted (g : Grouping hw) (h : ∀ v ∈ g.asMet, d ∉ v.deletes) :
    g.deletes d = false ∧ g.met d = weightsOf d.toNat (postingsOf g.asMet) :=
  match g with
  | .value v => by
      have hv := h v mem_cons_self
      simp [Grouping.deletes, Grouping.met, Grouping.asMet, postingsOf, hv]
  | .merged m => by
      obtain ⟨hdeletes, hmet⟩ := m.met_of_not_deleted h
      refine ⟨rfl, ?_⟩
      rw [Grouping.met, hdeletes, if_neg (by decide), hmet, Grouping.asMet]

theorem Merging.met_of_not_deleted (m : Merging hw) (h : ∀ v ∈ m.asMet, d ∉ v.deletes) :
    m.deletes d = false ∧ m.met d = weightsOf d.toNat (postingsOf m.asMet) :=
  match m with
  | .new g => g.met_of_not_deleted h
  | .newer m g | .older m g => by
      obtain ⟨hm, hmetm⟩ := m.met_of_not_deleted fun v hv => h v (mem_append_left _ hv)
      obtain ⟨hg, hmetg⟩ := g.met_of_not_deleted fun v hv => h v (mem_append_right _ hv)
      rw [Merging.deletes, Merging.met, Merging.asMet, hm, hg, hmetm, hmetg, postingsOf_append,
        weightsOf_append]
      exact ⟨rfl, rfl⟩

end

theorem atOnce_concat (oldest v : Value hw) (values : List (Value hw)) :
    atOnce oldest (values ++ [v]) = .newer (atOnce oldest values) (.value v) := by
  simp [atOnce]

theorem stored_atOnce (oldest : Value hw) (values : List (Value hw)) :
    (atOnce oldest values).Stored := by
  induction values using List.reverseRecOn with
  | nil => exact trivial
  | append_singleton values v ih =>
    rw [atOnce_concat]
    exact ⟨ih, trivial⟩

theorem deletes_atOnce (oldest : Value hw) (values : List (Value hw)) (d : UInt32) :
    (atOnce oldest values).deletes d = true ↔ ∃ v ∈ oldest :: values, d ∈ v.deletes := by
  induction values using List.reverseRecOn with
  | nil => simp [atOnce, Merging.deletes, Grouping.deletes]
  | append_singleton values v ih =>
    rw [atOnce_concat, Merging.deletes, Bool.or_eq_true, ih, ← cons_append]
    simp only [Grouping.deletes, decide_eq_true_eq, mem_append, mem_singleton]
    constructor
    · rintro (⟨u, hu, hd⟩ | hd)
      · exact ⟨u, .inl hu, hd⟩
      · exact ⟨v, .inr rfl, hd⟩
    · rintro ⟨u, hu | rfl, hd⟩
      · exact .inl ⟨u, hu, hd⟩
      · exact .inr hd

theorem met_atOnce (oldest : Value hw) (values : List (Value hw)) (d : UInt32) :
    (atOnce oldest values).met d = weightsOf d.toNat (postingsOf (oldest :: values)) := by
  induction values using List.reverseRecOn with
  | nil => simp [atOnce, Merging.met, Grouping.met, postingsOf]
  | append_singleton values v ih =>
    rw [atOnce_concat, Merging.met, ih, ← cons_append, postingsOf_append, weightsOf_append]
    simp [Grouping.met, postingsOf]

/-- Two collections with document numbers of 32 bits resolve to the same postings when they agree
on these. -/
theorem postings_eq_iff_uint32 {c c' : Collected} (h : ∀ p ∈ c.entries, p.docNum < 4294967296)
    (h' : ∀ p ∈ c'.entries, p.docNum < 4294967296) :
    c.postings = c'.postings ↔ ∀ d : UInt32, c.weight? d.toNat = c'.weight? d.toNat := by
  rw [Collected.postings_eq_iff]
  constructor
  · intro heq d
    exact heq d.toNat
  · intro heq d
    by_cases hd : d < 4294967296
    · have hsame : (UInt32.ofNat d).toNat = d := by
        rw [UInt32.toNat_ofNat']
        exact Nat.mod_eq_of_lt hd
      rw [← hsame]
      exact heq _
    · have hnone : ∀ c : Collected, (∀ p ∈ c.entries, p.docNum < 4294967296) →
          c.weight? d = none := by
        intro c hc
        have hnil : weightsOf d c.entries = [] := by
          rw [weightsOf_eq_nil_iff]
          intro p hp hpd
          exact hd (hpd ▸ hc p hp)
        rw [Collected.weight?, hnil]
        split <;> rfl
      rw [hnone c h, hnone c' h']

theorem Merging.safe_iff (m : Merging hw) {oldest : Value hw} {values : List (Value hw)}
    (hvalues : m.byAge = oldest :: values) :
    m.Safe ↔ ∀ d : UInt32,
      (if m.deletes d = true then none else (m.met d).getLast?) =
        if (atOnce oldest values).deletes d = true then none
          else ((atOnce oldest values).met d).getLast? := by
  have hdeleted : ∀ d : UInt32, (∃ v ∈ m.byAge, d ∈ v.deletes) →
      ((m.deletes d = true ∨ m.EachDrops d) ↔
        (if m.deletes d = true then none else (m.met d).getLast?) =
          if (atOnce oldest values).deletes d = true then none
            else ((atOnce oldest values).met d).getLast?) := by
    intro d hd
    rw [hvalues] at hd
    rw [if_pos ((deletes_atOnce oldest values d).mpr hd), m.eachDrops_iff]
    cases m.deletes d <;> simp
  have hnewest : ∀ d : UInt32, (∀ v ∈ m.byAge, d ∉ v.deletes) →
      ((weightsOf d.toNat (postingsOf m.asMet)).getLast? =
          (weightsOf d.toNat (postingsOf m.byAge)).getLast? ↔
        (if m.deletes d = true then none else (m.met d).getLast?) =
          if (atOnce oldest values).deletes d = true then none
            else ((atOnce oldest values).met d).getLast?) := by
    intro d hd
    obtain ⟨hdeletes, hmet⟩ := m.met_of_not_deleted fun v hv => hd v ((m.mem_asMet v).mp hv)
    have hnot : ¬ (atOnce oldest values).deletes d = true := by
      rw [deletes_atOnce, ← hvalues]
      rintro ⟨v, hv, hvd⟩
      exact hd v hv hvd
    rw [if_neg hnot, hdeletes, if_neg (by decide), hmet, met_atOnce, hvalues]
  constructor
  · intro h d
    by_cases hd : ∃ v ∈ m.byAge, d ∈ v.deletes
    · exact (hdeleted d hd).mp (h.deleted d hd)
    · have hd' : ∀ v ∈ m.byAge, d ∉ v.deletes := fun v hv hvd => hd ⟨v, hv, hvd⟩
      exact (hnewest d hd').mp (h.newest d hd')
  · intro h
    exact ⟨fun d hd => (hdeleted d hd).mpr (h d), fun d hd => (hnewest d hd).mpr (h d)⟩

/-- Two mergers that finish with the base give the same chunk, and the first reports it deletable
only when no posting remains. -/
structure SameChunk (hw : Highway) (a b : ChunkValueMerger) : Prop where
  chunk : a.resolve hw = b.resolve hw
  finish : a.finish hw true = b.finish hw true
  deletable : ∀ value, a.deletableFinish hw true = .ok (value, true) → b.resolve hw = .ok []

theorem sameChunk_iff {a b : ChunkValueMerger} {postings : List Posting}
    (h : a.resolve hw = .ok postings) : SameChunk hw a b ↔ a.resolve hw = b.resolve hw := by
  refine ⟨SameChunk.chunk, fun heq => ⟨heq, ?_, ?_⟩⟩
  · change a.finishFull hw = b.finishFull hw
    simp only [ChunkValueMerger.finishFull, heq]
  · intro value hdelete
    rw [ChunkValueMerger.deletableFinish, h] at hdelete
    cases postings with
    | nil => rw [← heq, h]
    | cons p postings =>
      change (do return (← encodeChunk hw (p :: postings), false)) = Except.ok (value, true)
        at hdelete
      rw [Fallible.bind_eq_ok] at hdelete
      obtain ⟨data, -, hdata⟩ := hdelete
      cases hdata

/-- However the values of a chunk key, from the oldest, are grouped into partial merges and a last
one, the chunk is that of one merge of all values from old to new exactly when the grouping is
safe. -/
theorem grouping_independent_iff (m : Merging hw) {oldest : Value hw} {values : List (Value hw)}
    (hvalues : m.byAge = oldest :: values) (hstored : m.Stored) :
    ∃ a b, m.run = .ok a ∧ (atOnce oldest values).run = .ok b ∧ (SameChunk hw a b ↔ m.Safe) := by
  obtain ⟨a, c, ha, hac, hc⟩ := m.resolves hstored
  obtain ⟨b, c', hb, hbc, hc'⟩ := (atOnce oldest values).resolves (stored_atOnce oldest values)
  refine ⟨a, b, ha, hb, ?_⟩
  rw [sameChunk_iff hac, hac, hbc, Except.ok.injEq,
    postings_eq_iff_uint32 hc.docNum_lt hc'.docNum_lt, m.safe_iff hvalues]
  simp only [hc.weight?, hc'.weight?]

/-- A vector library that keeps document numbers as they are and knows one weight. -/
private def plainHighway : Highway where
  minMax _ := (0, 0)
  deltaEncode docNums _ := docNums
  deltaDecode docNums _ := docNums
  quantizeFloat32 weights _ _ := weights.map fun _ => 0
  dequantizeUint8 quantized minW _ := quantized.map fun _ => minW

private def addFive : Value plainHighway := .add [5] [1] rfl (by decide)
private def deleteFive : Value plainHighway := .delete [5] (by decide)

/-- The delete is merged with nothing first, and the result with the add. -/
private def deleteAlone : Merging plainHighway :=
  .newer (.new (.value addFive)) (.merged (.new (.value deleteFive)))

/-- Once the delete operand of a document has gone through a partial merge, the document is back. -/
theorem deleted_posting_returns : deleteAlone.byAge = [addFive, deleteFive] ∧
    (∃ a, deleteAlone.run = .ok a ∧ a.resolve plainHighway = .ok [⟨5, 1⟩]) ∧
    ∃ b, (atOnce addFive [deleteFive]).run = .ok b ∧ b.resolve plainHighway = .ok [] ∧
      b.deletableFinish plainHighway true = .ok ([], true) :=
  ⟨rfl, ⟨_, rfl, rfl⟩, _, rfl, rfl, rfl⟩

private def addSeven : Value plainHighway := .add [7] [2] rfl (by decide)

/-- The add and the delete are merged first, and then under a newer add. -/
private def deletePaired : Merging plainHighway :=
  .older (.new (.value addSeven)) (.merged (.newer (.new (.value addFive)) (.value deleteFive)))

private theorem deletePaired_stored : deletePaired.Stored := by
  refine ⟨trivial, ⟨trivial, trivial⟩, fun b hb => ?_⟩
  obtain rfl : encodeMergeOperand opTypeAdd [] [] = b := Except.ok.inj hb
  decide

private theorem deletePaired_safe : deletePaired.Safe := by
  constructor
  · rintro d ⟨v, hv, hd⟩
    have hv' : v = addFive ∨ v = deleteFive ∨ v = addSeven := by
      simpa [deletePaired, Merging.byAge, Grouping.byAge] using hv
    rcases hv' with rfl | rfl | rfl
    · exact absurd hd not_mem_nil
    · obtain rfl := mem_singleton.mp hd
      refine .inr ⟨fun p hp => ?_, .inl rfl⟩
      obtain rfl := mem_singleton.mp hp
      decide
    · exact absurd hd not_mem_nil
  · intro d hd
    have hfive : d ≠ 5 := by
      rintro rfl
      exact hd deleteFive (by simp [deletePaired, Merging.byAge, Grouping.byAge])
        mem_cons_self
    have hfive' : ¬ 5 = d.toNat := fun h => hfive (UInt32.toNat_inj.mp h.symm)
    have hmet : postingsOf deletePaired.asMet = [⟨7, 2⟩, ⟨5, 1⟩] := rfl
    have hage : postingsOf deletePaired.byAge = [⟨5, 1⟩, ⟨7, 2⟩] := rfl
    rw [hmet, hage]
    simp [weightsOf_cons, hfive']

/-- A delete that is merged with its add first loses nothing. -/
theorem paired_delete_merges : ∃ a b, deletePaired.run = .ok a ∧
    (atOnce addFive [deleteFive, addSeven]).run = .ok b ∧ SameChunk plainHighway a b := by
  have hage : deletePaired.byAge = addFive :: [deleteFive, addSeven] := rfl
  obtain ⟨a, b, ha, hb, hiff⟩ := grouping_independent_iff deletePaired hage deletePaired_stored
  exact ⟨a, b, ha, hb, hiff.mpr deletePaired_safe⟩

end Antfly.Sparse
