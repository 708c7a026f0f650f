import Antfly.Bytes
import Antfly.Lib.BestOf
import Antfly.Lib.OrdMap
import Mathlib.Algebra.BigOperators.Group.List.Basic
import Mathlib.Algebra.Order.Field.Rat

/-!
`Search` adds up a score for every document of the posting lists of the query's terms, keeps the `k`
best in a min-heap, and looks the document ids of these up.  A document the filter does not allow is
skipped then, when the `k` are already chosen.  `searchSIMD` collects the weights of every document
first and takes their dot product at the end.

Weights are rationals.  A posting list is given by its chunks in key order, each as the chunk cache
or the decoder hands it out.  A Go map is ranged over in any order; `MapOrder` is the order taken.
-/

namespace Antfly.Sparse

/-- What a search reads: the greatest weight of a term that has metadata, the chunks of a term as
document numbers with weights, and the reverse index. -/
structure Content where
  termMeta : UInt32 → Option ℚ
  chunks : UInt32 → List (List (ℕ × ℚ))
  reverse : ℕ → Option Bytes

def Content.postings (c : Content) (termID : UInt32) : List (ℕ × ℚ) := (c.chunks termID).flatten

/-- The indices of a sparse vector with their values. -/
abbrev SparseVector := List (UInt32 × ℚ)

structure SearchHit where
  docID : Bytes
  score : ℚ
  deriving DecidableEq

structure SearchStatus where
  total : ℕ
  successful : ℕ
  deriving DecidableEq

structure SearchResult where
  hits : List SearchHit
  total : ℕ
  status : Option SearchStatus
  deriving DecidableEq

inductive SearchError where
  | docNumNotFound (docNum : ℕ)
  deriving DecidableEq

/-- An order in which the keys of a map are visited. -/
structure MapOrder where
  visit : List ℕ → List ℕ
  perm : ∀ keys, (visit keys).Perm keys

/-- The dot product of the vector library. -/
structure VecDot where
  dot : List ℚ → List ℚ → ℚ
  dot_eq : ∀ a b, a.length = b.length → dot a b = (List.zipWith (· * ·) a b).sum

def scoreLess (a b : ℕ × ℚ) : Bool := decide (a.2 < b.2)

def lookupDocID (c : Content) (docNum : ℕ) : Except SearchError Bytes :=
  match c.reverse docNum with
  | some docID => .ok docID
  | none => .error (.docNumNotFound docNum)

/-- The hits of the entries that were kept; an empty filter allows every document. -/
def collectHits (c : Content) (filterIDs : List Bytes) :
    List (ℕ × ℚ) → Except SearchError (List SearchHit)
  | [] => .ok []
  | (docNum, score) :: entries => do
      let docID ← lookupDocID c docNum
      let hits ← collectHits c filterIDs entries
      if filterIDs ≠ [] ∧ docID ∉ filterIDs then .ok hits else .ok (⟨docID, score⟩ :: hits)

/-- The `k` best of the scores, visited in the given order, and their hits. -/
def extractTopK (c : Content) (order : MapOrder) (scores : OrdMap ℕ ℚ) (k : ℕ)
    (filterIDs : List Bytes) : Except SearchError SearchResult := do
  let visited := (order.visit (scores.entries.map Prod.fst)).map fun docNum =>
    (docNum, (scores.get? docNum).getD 0)
  let hits ← collectHits c filterIDs (BinaryHeap.bestOf scoreLess k visited)
  .ok ⟨hits, hits.length, some ⟨1, 1⟩⟩

def addScore (queryWeight : ℚ) (scores : OrdMap ℕ ℚ) (p : ℕ × ℚ) : OrdMap ℕ ℚ :=
  scores.insert p.1 ((scores.get? p.1).getD 0 + queryWeight * p.2)

def scoreTerm (c : Content) (scores : OrdMap ℕ ℚ) (t : UInt32 × ℚ) : OrdMap ℕ ℚ :=
  (c.postings t.1).foldl (addScore t.2) scores

def search (c : Content) (order : MapOrder) (query : SparseVector) (k : ℤ)
    (filterIDs : List Bytes) : Except SearchError SearchResult :=
  if k ≤ 0 then .ok ⟨[], 0, none⟩
  else if query = [] then .ok ⟨[], 0, none⟩
  else
    let terms := query.filter fun t => (c.termMeta t.1).isSome
    if terms = [] then .ok ⟨[], 0, some ⟨0, 1⟩⟩
    else extractTopK c order (terms.foldl (scoreTerm c) .empty) k.toNat filterIDs

structure DocTerms where
  queryWeights : List ℚ
  docWeights : List ℚ

/-- The weight map of the query: of several entries for a term the last stays. -/
def queryWeightMap (query : SparseVector) (termID : UInt32) : ℚ :=
  (((query.filter fun t => t.1 = termID).getLast?).map Prod.snd).getD 0

def addDocTerm (queryWeight : ℚ) (docTerms : OrdMap ℕ DocTerms) (p : ℕ × ℚ) : OrdMap ℕ DocTerms :=
  let dt := (docTerms.get? p.1).getD ⟨[], []⟩
  docTerms.insert p.1 ⟨dt.queryWeights ++ [queryWeight], dt.docWeights ++ [p.2]⟩

def collectTerm (c : Content) (query : SparseVector) (docTerms : OrdMap ℕ DocTerms)
    (t : UInt32 × ℚ) : OrdMap ℕ DocTerms :=
  (c.postings t.1).foldl (addDocTerm (queryWeightMap query t.1)) docTerms

def DocTerms.score (vec : VecDot) (dt : DocTerms) : ℚ :=
  if 4 ≤ dt.queryWeights.length then vec.dot dt.queryWeights dt.docWeights
  else (dt.queryWeights.zip dt.docWeights).foldl (fun score w => score + w.1 * w.2) 0

def searchSIMD (vec : VecDot) (c : Content) (order : MapOrder) (query : SparseVector) (k : ℤ)
    (filterIDs : List Bytes) : Except SearchError SearchResult :=
  if k ≤ 0 ∨ query = [] then .ok ⟨[], 0, none⟩
  else
    let docTerms := query.foldl (collectTerm c query) .empty
    extractTopK c order (docTerms.map fun _ dt => dt.score vec) k.toNat filterIDs

def weightSum (postings : List (ℕ × ℚ)) (docNum : ℕ) : ℚ :=
  ((postings.filter fun p => p.1 = docNum).map Prod.snd).sum

def dotProduct (c : Content) (query : SparseVector) (docNum : ℕ) : ℚ :=
  (query.map fun t => t.2 * weightSum (c.postings t.1) docNum).sum

/-- A document with a posting for a term of the query. -/
def Matching (c : Content) (query : SparseVector) (docNum : ℕ) : Prop :=
  ∃ t ∈ query, docNum ∈ (c.postings t.1).map Prod.fst

def permits (c : Content) (filterIDs : List Bytes) (docNum : ℕ) : Bool :=
  match c.reverse docNum with
  | some docID => decide (filterIDs = [] ∨ docID ∈ filterIDs)
  | none => false

/-- `k` documents with property `P`, or all of them, none of the others with a higher score. -/
structure Best (P : ℕ → Prop) (score : ℕ → ℚ) (k : ℕ) (docs : List ℕ) : Prop where
  nodup : docs.Nodup
  holds : ∀ d ∈ docs, P d
  fits : docs.length ≤ k
  others : ∀ d, P d → d ∉ docs → docs.length = k ∧ ∀ e ∈ docs, score d ≤ score e

def hitsOf (c : Content) (score : ℕ → ℚ) (docs : List ℕ) : List SearchHit :=
  docs.filterMap fun d => (c.reverse d).map fun docID => ⟨docID, score d⟩

/-- The hits are those of the `k` best allowed documents, by non-increasing score. -/
def TopK (c : Content) (query : SparseVector) (k : ℕ) (filterIDs : List Bytes)
    (hits : List SearchHit) : Prop :=
  ∃ docs, Best (fun d => Matching c query d ∧ permits c filterIDs d = true)
      (dotProduct c query) k docs ∧
    (docs.Pairwise fun d e => dotProduct c query e ≤ dotProduct c query d) ∧
    hits = hitsOf c (dotProduct c query) docs

/-- However each search ranges over its map, the one returns the best and the other the same. -/
def SearchCorrect (c : Content) (query : SparseVector) (k : ℤ) (filterIDs : List Bytes) : Prop :=
  ∀ (vec : VecDot) (order order' : MapOrder), ∃ result simd,
    search c order query k filterIDs = .ok result ∧ TopK c query k.toNat filterIDs result.hits ∧
    searchSIMD vec c order' query k filterIDs = .ok simd ∧ simd.hits.Perm result.hits

/-- Every term of the query with postings has metadata, and a term is not given two weights. -/
structure Regular (c : Content) (query : SparseVector) : Prop where
  listed : ∀ t ∈ query, c.postings t.1 ≠ [] → (c.termMeta t.1).isSome
  single : ∀ t ∈ query, ∀ t' ∈ query, t.1 = t'.1 → t.2 = t'.2

/-- Whichever `k` documents are the best without the filter, all have an id, and either all are
allowed or all allowed ones are among them. -/
def Uncrowded (c : Content) (query : SparseVector) (k : ℕ) (filterIDs : List Bytes) : Prop :=
  ∀ docs, Best (Matching c query) (dotProduct c query) k docs →
    (∀ d ∈ docs, (c.reverse d).isSome) ∧
      ((∀ d ∈ docs, permits c filterIDs d = true) ∨
        ∀ d, Matching c query d → permits c filterIDs d = true → d ∈ docs)

/-- No tie at the cut: the allowed documents among the `k` best have the same ids and scores,
whichever are chosen. -/
def Untied (c : Content) (query : SparseVector) (k : ℕ) (filterIDs : List Bytes) : Prop :=
  ∀ docs docs', Best (Matching c query) (dotProduct c query) k docs →
    Best (Matching c query) (dotProduct c query) k docs' →
    (hitsOf c (dotProduct c query) (docs.filter (permits c filterIDs))).Perm
      (hitsOf c (dotProduct c query) (docs'.filter (permits c filterIDs)))

end Antfly.Sparse
