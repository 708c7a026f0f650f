import Antfly.Bytes
import Antfly.Lib.Boundary
import Mathlib.Algebra.Order.Field.Rat
import Mathlib.Data.List.DropRight

/-!
A search over quantized vectors ends with candidates in the order of estimated distances, each with
a bound on its error.  The boundary policy computes the exact distances of those only that may be on
the wrong side of the cut at `k`, or of all if a distance bound is in doubt, sorts again, and trims.

Distances are rationals.
-/

namespace Antfly.Vector

structure Result where
  id : ℕ
  distance : ℚ
  errorBound : ℚ
  metadata : Bytes
  deriving DecidableEq

inductive RerankPolicy where
  | never
  | boundary
  | always
  deriving DecidableEq

def resultMaybeCloser (r1 r2 : Result) : Bool :=
  decide (r1.distance - r1.errorBound ≤ r2.distance + r2.errorBound)

def resultMaybeOver (r : Result) (dist : ℚ) : Bool := decide (r.distance + r.errorBound ≥ dist)

def resultDefinitelyOver (r : Result) (dist : ℚ) : Bool :=
  decide (r.distance - r.errorBound > dist)

def resultMaybeUnder (r : Result) (dist : ℚ) : Bool := decide (r.distance - r.errorBound ≤ dist)

def resultDefinitelyUnder (r : Result) (dist : ℚ) : Bool :=
  decide (r.distance + r.errorBound < dist)

/-- Whether the result is within the distance bounds is in doubt. -/
def thresholdAmbiguous (distanceOver distanceUnder : Option ℚ) (res : Result) : Bool :=
  distanceOver.any (fun bound => resultMaybeOver res bound && !resultDefinitelyOver res bound) ||
    distanceUnder.any fun under => resultMaybeUnder res under && !resultDefinitelyUnder res under

/-- The indices of the results to be reranked, in order. -/
def selectAutoRerankCandidates (results : List Result) (k : ℕ)
    (distanceOver distanceUnder : Option ℚ) : List ℕ :=
  let limit := min k results.length
  if limit = 0 then []
  else if (results.take limit).any (thresholdAmbiguous distanceOver distanceUnder) then
    List.range results.length
  else
    (results.zipIdx.filter fun p =>
      if p.2 < limit then (results.drop limit).any fun r => resultMaybeCloser r p.1
      else (results.take limit).any fun r => resultMaybeCloser p.1 r).map Prod.snd

/-- The result at its exact distance; `none` where the vector cannot be read. -/
def computeExactDistance (exact : ℕ → Option ℚ) (res : Result) : Result :=
  match exact res.id with
  | some distance => { res with distance := distance, errorBound := 0 }
  | none => res

def rerank (exact : ℕ → Option ℚ) (rerankCandidates : List ℕ) (finalResults : List Result) :
    List Result :=
  finalResults.zipIdx.map fun p =>
    if p.2 ∈ rerankCandidates then computeExactDistance exact p.1 else p.1

/-- What is left from the first result over the bound on. -/
def trimOver (distanceOver : Option ℚ) (finalResults : List Result) : List Result :=
  match distanceOver with
  | some bound => finalResults.dropWhile fun res => !decide (res.distance > bound)
  | none => finalResults

/-- What is left up to the last result under the bound. -/
def trimUnder (distanceUnder : Option ℚ) (finalResults : List Result) : List Result :=
  match distanceUnder with
  | some under => finalResults.rdropWhile fun res => !decide (res.distance < under)
  | none => finalResults

/-- The end of a search, from the candidates in the order of their distances. -/
def rerankAndTrim (sort : List Result → List Result) (exact : ℕ → Option ℚ)
    (rerankPolicy : RerankPolicy) (k : ℕ) (distanceOver distanceUnder : Option ℚ)
    (finalResults : List Result) : List Result :=
  let rerankCandidates :=
    match rerankPolicy with
    | .always => List.range finalResults.length
    | .boundary => selectAutoRerankCandidates finalResults k distanceOver distanceUnder
    | .never => []
  let finalResults :=
    if rerankCandidates = [] then finalResults
    else sort (rerank exact rerankCandidates finalResults)
  (trimUnder distanceUnder (trimOver distanceOver finalResults)).take k

/-- `slices.SortFunc` by distance, which need not keep the order of equal ones. -/
structure LawfulSort (sort : List Result → List Result) : Prop where
  perm : ∀ l, (sort l).Perm l
  sorted : ∀ l, (sort l).Pairwise fun a b => a.distance ≤ b.distance

/-- The sets of ids that the end of a search can give, as ties may be sorted in every way. -/
def Outcomes (exact : ℕ → Option ℚ) (rerankPolicy : RerankPolicy) (k : ℕ)
    (distanceOver distanceUnder : Option ℚ) (finalResults : List Result) : Set (Finset ℕ) :=
  {ids | ∃ sort, LawfulSort sort ∧
    ((rerankAndTrim sort exact rerankPolicy k distanceOver distanceUnder finalResults).map
      Result.id).toFinset = ids}

end Antfly.Vector
