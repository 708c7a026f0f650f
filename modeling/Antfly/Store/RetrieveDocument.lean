import Antfly.Indexes.KeyClasses

/-!
`storeutils.GetDocument` iterates over the keys of a document and takes the embeddings, summaries
and chunks it finds there, each under the index name it reads from the key.  Embeddings and
summaries are found by their suffix and the last marker.  Chunks are looked for in the formats
`<key>:i:<index>:cft:<chunk>` and `<key>:i:<index>:c:<chunk>`, by the first marker.
-/

namespace Antfly

def fullTextSeparator : Bytes := ascii [':', 'c', 'f', 't', ':']
def chunkSeparator : Bytes := ascii [':', 'c', ':']

/-- What stands before the chunk separator, and nothing if there is none. -/
def beforeChunkSeparator (remainder : Bytes) : Bytes :=
  match cut fullTextSeparator remainder with
  | some (before, _) => before
  | none =>
    match cut chunkSeparator remainder with
    | some (before, _) => before
    | none => []

def chunkIndexName (key entryKey : Bytes) : Option Bytes :=
  match cut indexMarker (entryKey.drop key.length) with
  | none => none
  | some (_, remainder) =>
    if (beforeChunkSeparator remainder).isEmpty then none
    else some (beforeChunkSeparator remainder)

/-- A document with its artefacts, as `GetDocument` returns it. -/
structure RetrievedDocument (C : Type) where
  document : Obj
  embeddings : OrdMap Bytes Json
  summaries : OrdMap Bytes Json
  chunks : OrdMap Bytes (List C)

section Retrieve

variable (c : Codec) {C : Type} (unmarshalChunk : Bytes → Option C)

/-- The chunk an iterated entry holds, if it holds one; the first eight bytes are its hash.  The
other values under keys of a document are no JSON, and what is no JSON is passed over. -/
def entryChunk (key : Bytes) (e : Bytes × Stored) : Except GetError (Option (Bytes × C)) :=
  if !contains e.1 chunkFullTextSuffix && !contains e.1 chunkSuffix then .ok none
  else
    match e.2, chunkIndexName key e.1 with
    | .raw v, some name =>
      if v = dudEnrichmentValue then .ok none
      else if v.length < 8 then .error .decode
      else .ok ((unmarshalChunk (v.drop 8)).map fun chunk => (name, chunk))
    | _, _ => .ok none

/-- The chunks of each index, in the order they are found. -/
def groupChunks (entries : List (Bytes × C)) : OrdMap Bytes (List C) :=
  entries.foldl (fun m e => m.insert e.1 ((m.get? e.1).getD [] ++ [e.2])) .empty

/-- `storeutils.GetDocument` with all embeddings, summaries and chunks. -/
def retrieveDocument (pdb : PebbleDB) (key : Bytes) : Except GetError (RetrievedDocument C) :=
  match pdb.scan (keyRangeStart key) (prefixSuccessor (keyRangeEnd key)) with
  | [] => .error .notFound
  | (k, v) :: rest =>
    if k ≠ keyRangeStart key then .error .notFound
    else
      match v with
      | .zstd body =>
        match c.unmarshalObj body with
        | none => .error .decode
        | some document => do
            let embeddings ← rest.mapM (entryEmbedding c key)
            let summaries ← rest.mapM (entrySummary key)
            let chunks ← rest.mapM (entryChunk unmarshalChunk key)
            return { document
                     embeddings := .ofList embeddings.reduceOption
                     summaries := .ofList summaries.reduceOption
                     chunks := groupChunks chunks.reduceOption }
      | _ => .error .decode

theorem get?_groupChunks (entries : List (Bytes × C)) (name : Bytes) :
    ((groupChunks entries).get? name).getD [] =
      (entries.filter fun e => e.1 = name).map Prod.snd := by
  have hfold : ∀ (l : List (Bytes × C)) (m : OrdMap Bytes (List C)),
      ((l.foldl (fun m e => m.insert e.1 ((m.get? e.1).getD [] ++ [e.2])) m).get? name).getD [] =
        (m.get? name).getD [] ++ (l.filter fun e => e.1 = name).map Prod.snd := by
    intro l
    induction l with
    | nil => simp
    | cons e l ih =>
      intro m
      rw [List.foldl_cons, ih, OrdMap.get?_insert]
      by_cases hname : name = e.1
      · simp [hname]
      · simp [hname, Ne.symm hname]
  exact hfold entries .empty

theorem afterLastIndexMarker_eq (b : Bytes) :
    afterLastIndexMarker b = (cutLast indexMarker b).map Prod.snd := by
  induction b with
  | nil => rfl
  | cons d b ih =>
    rw [afterLastIndexMarker, cutLast, ih]
    cases cutLast indexMarker b with
    | some p => rfl
    | none =>
      dsimp only [Option.map_none]
      split
      · rfl
      · rfl

theorem afterLastIndexMarker_eq_none_iff {b : Bytes} :
    afterLastIndexMarker b = none ↔ ¬ indexMarker <:+: b := by
  rw [afterLastIndexMarker_eq, Option.map_eq_none_iff]
  constructor
  · rintro hnone ⟨x, y, hb⟩
    obtain ⟨p, q, hcut, -⟩ := cutLast_max indexMarker_ne_nil hb.symm
    rw [hnone] at hcut
    cases hcut
  · intro h
    cases hcut : cutLast indexMarker b with
    | none => rfl
    | some p =>
      exfalso
      apply h
      rw [cutLast_eq_some indexMarker_ne_nil hcut]
      exact ⟨p.1, p.2, rfl⟩

/-- The index name is the one the key was made with if the name starts after the last marker. -/
theorem afterLastIndexMarker_append_iff {x indexName : Bytes} :
    afterLastIndexMarker (x ++ indexMarker ++ indexName) = some indexName ↔
      StartsAfterMarker indexName := by
  rw [afterLastIndexMarker_eq, Option.map_eq_some_iff]
  constructor
  · rintro ⟨⟨p, q⟩, hcut, rfl⟩
    have hsplit := cutLast_eq_some indexMarker_ne_nil hcut
    have hp : x ++ indexMarker = p ++ indexMarker := List.append_cancel_right hsplit
    have hx : x = p := List.append_cancel_right hp
    subst hx
    exact (cutLast_append_iff indexMarker_ne_nil).mp hcut
  · intro h
    exact ⟨(x, indexName), (cutLast_append_iff indexMarker_ne_nil).mpr h, rfl⟩

theorem enrichmentIndexName_append (key w : Bytes) (a b : UInt8) :
    enrichmentIndexName key (key ++ w ++ [a, b]) = afterLastIndexMarker w := by
  unfold enrichmentIndexName
  rw [List.append_assoc, List.drop_left]
  have htwice : w ++ [a, b] = w ++ [a] ++ [b] := by simp
  rw [htwice, List.dropLast_concat, List.dropLast_concat]

end Retrieve

end Antfly
