import Antfly.Metadata.BatchWrite

/-!
`BatchWrite` takes its request object from a pool, decodes the body over it, and clears the deletes
and the inserts before it puts the object back.  `executeBatchNonTransactional` takes the slices of
a shard's call from two more pools.  Several requests may be under way at once, and the pools may
drop what they hold at any time.

The JSON decoder is whichever the process installs, and known by the places of the object that a
body names: it writes these and leaves the others, where an element of a list may also be a new
one.  What it does to the object before it refuses a body is not known.
-/

namespace Antfly.Metadata

open List

/-- The request object as the pool keeps it; a document that is `null` is a nil map. -/
structure PooledRequest where
  inserts : OrdMap Bytes (Option Obj)
  deletes : Slice Bytes
  transforms : Slice ApiTransform
  syncLevel : Bytes

/-- A place of the request object: a field, the length of a list, or a field of an element. -/
inductive Cell where
  | syncLevel
  | deletes
  | transforms
  | delete (i : ℕ)
  | key (i : ℕ)
  | upsert (i : ℕ)
  | operations (i : ℕ)
  | op (i j : ℕ)
  | path (i j : ℕ)
  | value (i j : ℕ)

inductive Datum where
  | text (b : Bytes)
  | flag (b : Bool)
  | json (v : Option Json)
  | length (n : ℕ)

def Datum.count : Datum → ℕ
  | .length n => n
  | _ => 0

/-- The element of the array at an index, zero behind its end. -/
def slot {α : Type} (zero : α) (s : Slice α) (i : ℕ) : α := s.backing[i]?.getD zero

namespace PooledRequest

/-- `batchRequestPool.New`. -/
def fresh : PooledRequest := ⟨.empty, .nil, .nil, []⟩

/-- What is done to a request before it goes back to the pool. -/
def clear (kvs : PooledRequest) : PooledRequest :=
  { kvs with deletes := ⟨kvs.deletes.backing, 0⟩, inserts := .empty }

def transform (kvs : PooledRequest) (i : ℕ) : ApiTransform := slot .zero kvs.transforms i

def operation (kvs : PooledRequest) (i j : ℕ) : ApiTransformOp :=
  slot .zero (kvs.transform i).operations j

def read (kvs : PooledRequest) : Cell → Datum
  | .syncLevel => .text kvs.syncLevel
  | .deletes => .length kvs.deletes.len
  | .transforms => .length kvs.transforms.len
  | .delete i => .text (slot [] kvs.deletes i)
  | .key i => .text (kvs.transform i).key
  | .upsert i => .flag (kvs.transform i).upsert
  | .operations i => .length (kvs.transform i).operations.len
  | .op i j => .text (kvs.operation i j).op
  | .path i j => .text (kvs.operation i j).path
  | .value i j => .json (kvs.operation i j).value

end PooledRequest

/-- The element that a place belongs to lies within the length of its list. -/
def Cell.Within (read : Cell → Datum) : Cell → Prop
  | .syncLevel | .deletes | .transforms => True
  | .delete i => i < (read .deletes).count
  | .key i | .upsert i | .operations i => i < (read .transforms).count
  | .op i j | .path i j | .value i j =>
      i < (read .transforms).count ∧ j < (read (.operations i)).count

/-- Whether a place is a field of the request or the length of one. -/
def Cell.isField : Cell → Bool
  | .syncLevel | .deletes | .transforms => true
  | _ => false

/-- Lists that agree where both have elements have the same lengths. -/
theorem Cell.within_of_agree {r r' : Cell → Datum}
    (h : ∀ c : Cell, c.Within r → c.Within r' → r c = r' c) {c : Cell} (hc : c.Within r) :
    c.Within r' := by
  have hdeletes := h .deletes trivial trivial
  have htransforms := h .transforms trivial trivial
  have hop : ∀ i j, i < (r .transforms).count ∧ j < (r (.operations i)).count →
      i < (r' .transforms).count ∧ j < (r' (.operations i)).count := by
    intro i j ⟨hi, hj⟩
    have hi' : i < (r' .transforms).count := htransforms ▸ hi
    exact ⟨hi', h (.operations i) hi hi' ▸ hj⟩
  cases c with
  | syncLevel | deletes | transforms => trivial
  | delete i => simpa only [Cell.Within, ← hdeletes] using hc
  | key i | upsert i | operations i => simpa only [Cell.Within, ← htransforms] using hc
  | op i j | path i j | value i j => exact hop i j hc

/-- What a transform says. -/
structure TransformContent where
  key : Bytes
  operations : List ApiTransformOp
  upsert : Bool

/-- The operations and the sync level a request acts on. -/
structure BatchContent where
  inserts : OrdMap Bytes (Option Obj)
  deletes : List Bytes
  transforms : List TransformContent
  syncLevel : Bytes

def PooledRequest.transformContent (kvs : PooledRequest) (i : ℕ) : TransformContent where
  key := (kvs.transform i).key
  operations := (List.range (kvs.transform i).operations.len).map (kvs.operation i)
  upsert := (kvs.transform i).upsert

def PooledRequest.content (kvs : PooledRequest) : BatchContent where
  inserts := kvs.inserts
  deletes := (List.range kvs.deletes.len).map (slot [] kvs.deletes)
  transforms := (List.range kvs.transforms.len).map kvs.transformContent
  syncLevel := kvs.syncLevel

theorem map_range_eq_iff {α : Type} {f g : ℕ → α} {n m : ℕ} :
    (List.range n).map f = (List.range m).map g ↔ n = m ∧ ∀ i < n, f i = g i := by
  constructor
  · intro h
    have hlen : n = m := by simpa using congrArg List.length h
    subst hlen
    exact ⟨rfl, fun i hi => List.map_inj_left.mp h i (List.mem_range.mpr hi)⟩
  · rintro ⟨rfl, h⟩
    exact List.map_congr_left fun i hi => h i (List.mem_range.mp hi)

theorem ApiTransformOp.eq_iff {a b : ApiTransformOp} :
    a = b ↔ a.op = b.op ∧ a.path = b.path ∧ a.value = b.value := by
  cases a
  cases b
  simp

theorem PooledRequest.content_eq_iff {a b : PooledRequest} :
    a.content = b.content ↔
      a.inserts = b.inserts ∧ ∀ c : Cell, c.Within a.read → a.read c = b.read c := by
  simp only [content, BatchContent.mk.injEq, transformContent, map_range_eq_iff,
    TransformContent.mk.injEq, ApiTransformOp.eq_iff]
  constructor
  · rintro ⟨hinserts, ⟨hdeletes, hdelete⟩, ⟨htransforms, htransform⟩, hlevel⟩
    refine ⟨hinserts, fun c hc => ?_⟩
    cases c with
    | syncLevel => exact congrArg Datum.text hlevel
    | deletes => exact congrArg Datum.length hdeletes
    | transforms => exact congrArg Datum.length htransforms
    | delete i => exact congrArg Datum.text (hdelete i hc)
    | key i => exact congrArg Datum.text (htransform i hc).1
    | upsert i => exact congrArg Datum.flag (htransform i hc).2.2
    | operations i => exact congrArg Datum.length (htransform i hc).2.1.1
    | op i j => exact congrArg Datum.text ((htransform i hc.1).2.1.2 j hc.2).1
    | path i j => exact congrArg Datum.text ((htransform i hc.1).2.1.2 j hc.2).2.1
    | value i j => exact congrArg Datum.json ((htransform i hc.1).2.1.2 j hc.2).2.2
  · rintro ⟨hinserts, h⟩
    refine ⟨hinserts, ⟨Datum.length.inj (h .deletes trivial), fun i hi =>
      Datum.text.inj (h (.delete i) hi)⟩, ⟨Datum.length.inj (h .transforms trivial), fun i hi =>
      ⟨Datum.text.inj (h (.key i) hi), ⟨Datum.length.inj (h (.operations i) hi), fun j hj =>
        ⟨Datum.text.inj (h (.op i j) ⟨hi, hj⟩), Datum.text.inj (h (.path i j) ⟨hi, hj⟩),
          Datum.json.inj (h (.value i j) ⟨hi, hj⟩)⟩⟩, Datum.flag.inj (h (.upsert i) hi)⟩⟩,
      Datum.text.inj (h .syncLevel trivial)⟩

/-- A JSON decoder: the bodies it accepts, what a body names at a place of the object (a `null`
names the length of a list, and nothing elsewhere but at a value), whether the element of a place
is decoded over the one in the array, the documents decoded into the map, and the object
afterwards. -/
structure BodyDecoder (Body : Type) where
  accepts : Body → Bool
  names : Body → Cell → Option Datum
  reuses : PooledRequest → Body → Cell → Bool
  inserts : Body → OrdMap Bytes (Option Obj) → OrdMap Bytes (Option Obj)
  decode : PooledRequest → Body → PooledRequest

namespace BodyDecoder

variable {Body : Type} (d : BodyDecoder Body)

/-- What a place has before the body is decoded shows unless the body names it: always in a field
of the request, and in the elements that are decoded over. -/
def keeps (kvs : PooledRequest) (body : Body) (c : Cell) : Bool := c.isField || d.reuses kvs body c

/-- A decoder that writes what an accepted body names and leaves the rest. -/
structure Lawful : Prop where
  inserts : ∀ kvs body, d.accepts body = true →
    (d.decode kvs body).inserts = d.inserts body kvs.inserts
  named : ∀ kvs body (c : Cell) v, d.accepts body = true → c.Within (d.decode kvs body).read →
    d.names body c = some v → (d.decode kvs body).read c = v
  kept : ∀ kvs body (c : Cell), d.accepts body = true → c.Within (d.decode kvs body).read →
    d.names body c = none → d.keeps kvs body c = true → (d.decode kvs body).read c = kvs.read c
  made : ∀ kvs body (c : Cell), d.accepts body = true → c.Within (d.decode kvs body).read →
    d.names body c = none → d.keeps kvs body c = false →
      (d.decode kvs body).read c = PooledRequest.fresh.read c

/-- What a body says at a place; the zero value where it says nothing. -/
def said (body : Body) (c : Cell) : Datum := (d.names body c).getD (PooledRequest.fresh.read c)

/-- What a request with this body acts on when it is decoded over the object; nothing when the
decoder refuses it. -/
def actsOn (kvs : PooledRequest) (body : Body) : Option BatchContent :=
  if d.accepts body then some (d.decode kvs body).content else none

/-- The decoder refuses the body, or the object has the zero value wherever the body names nothing
and the decoder leaves what is there. -/
def CoversObject (kvs : PooledRequest) (body : Body) : Prop :=
  d.accepts body = true → ∀ c : Cell, c.Within (d.said body) → d.names body c = none →
    d.keeps kvs body c = true → kvs.read c = PooledRequest.fresh.read c

variable {d}

theorem Lawful.read_eq_said_iff (h : d.Lawful) {body : Body} (hbody : d.accepts body = true)
    (kvs : PooledRequest) {c : Cell} (hc : c.Within (d.decode kvs body).read) :
    (d.decode kvs body).read c = d.said body c ↔ (d.names body c = none →
      d.keeps kvs body c = true → kvs.read c = PooledRequest.fresh.read c) := by
  unfold said
  cases hnames : d.names body c with
  | some v => simp [h.named kvs body c v hbody hc hnames]
  | none =>
    cases hkeeps : d.keeps kvs body c with
    | true => simp [h.kept kvs body c hbody hc hnames hkeeps]
    | false => simp [h.made kvs body c hbody hc hnames hkeeps]

theorem Lawful.read_fresh (h : d.Lawful) {body : Body} (hbody : d.accepts body = true) {c : Cell}
    (hc : c.Within (d.decode .fresh body).read) :
    (d.decode .fresh body).read c = d.said body c :=
  (h.read_eq_said_iff hbody .fresh hc).mpr fun _ _ => rfl

theorem Lawful.within_fresh_iff (h : d.Lawful) {body : Body} (hbody : d.accepts body = true)
    {c : Cell} : c.Within (d.decode .fresh body).read ↔ c.Within (d.said body) :=
  ⟨Cell.within_of_agree fun _ hc _ => h.read_fresh hbody hc,
    Cell.within_of_agree fun _ _ hc => (h.read_fresh hbody hc).symm⟩

theorem Lawful.actsOn_eq_fresh_iff (h : d.Lawful) {kvs : PooledRequest}
    (hinserts : kvs.inserts = .empty) (body : Body) :
    d.actsOn kvs body = d.actsOn .fresh body ↔ d.CoversObject kvs body := by
  unfold actsOn CoversObject
  by_cases hbody : d.accepts body = true
  · have hsame : (d.decode kvs body).inserts = (d.decode .fresh body).inserts := by
      rw [h.inserts kvs body hbody, h.inserts .fresh body hbody, hinserts]
      rfl
    rw [if_pos hbody, if_pos hbody, Option.some.injEq, PooledRequest.content_eq_iff]
    simp only [hsame, hbody, true_and, true_imp_iff]
    constructor
    · intro heq c hsaid
      have hfresh := (h.within_fresh_iff hbody).mpr hsaid
      have hc : c.Within (d.decode kvs body).read :=
        Cell.within_of_agree (fun _ _ hc => (heq _ hc).symm) hfresh
      exact (h.read_eq_said_iff hbody kvs hc).mp ((heq c hc).trans (h.read_fresh hbody hfresh))
    · intro hcovers c hc
      have hread : ∀ c : Cell, c.Within (d.decode kvs body).read → c.Within (d.said body) →
          (d.decode kvs body).read c = d.said body c :=
        fun c hc hsaid => (h.read_eq_said_iff hbody kvs hc).mpr (hcovers c hsaid)
      have hsaid : c.Within (d.said body) := Cell.within_of_agree hread hc
      rw [hread c hc hsaid, h.read_fresh hbody ((h.within_fresh_iff hbody).mpr hsaid)]
  · rw [if_neg hbody, if_neg hbody]
    exact iff_of_true rfl fun h => absurd h hbody

end BodyDecoder

/-- A slice of the pool with a new length; it is made anew where its array is too short. -/
def resize {α : Type} (zero : α) (pooled : Slice α) (n : ℕ) : Slice α :=
  if pooled.backing.length < n then ⟨List.replicate n zero, n⟩ else ⟨pooled.backing, n⟩

/-- Writes an element for each key, from an index on. -/
def fill {α : Type} (encode : Bytes → Except BatchError α) :
    List Bytes → ℕ → List α → Except BatchError (List α)
  | [], _, backing => .ok backing
  | key :: keys, i, backing => do
      let v ← encode key
      fill encode keys (i + 1) (backing.set i v)

def fillPooled {α : Type} (encode : Bytes → Except BatchError α) (zero : α) (pooled : Slice α)
    (keys : List Bytes) : Except BatchError (List α) := do
  let s := resize zero pooled keys.length
  let backing ← fill encode keys 0 s.backing
  return Slice.elems ⟨backing, s.len⟩

theorem fill_eq {α : Type} (encode : Bytes → Except BatchError α) {keys : List Bytes} {i : ℕ}
    {backing : List α} (h : i + keys.length ≤ backing.length) :
    (fill encode keys i backing).map (List.take (i + keys.length)) =
      (keys.mapM encode).map (backing.take i ++ ·) := by
  induction keys generalizing i backing with
  | nil => simp [fill, Except.map, pure, Except.pure]
  | cons key keys ih =>
    rw [length_cons] at h
    simp only [fill, mapM_cons]
    cases encode key with
    | error e => rfl
    | ok v =>
      have hnext := @ih (i + 1) (backing.set i v) (by simp; omega)
      have htake : (backing.set i v).take (i + 1) = backing.take i ++ [v] := by
        rw [take_add_one, take_set_of_le (Nat.le_refl i),
          getElem?_set_self (by omega)]
        rfl
      rw [htake, show i + 1 + keys.length = i + (key :: keys).length by simp; omega] at hnext
      change Except.map _ (fill encode keys (i + 1) (backing.set i v)) = _
      rw [hnext]
      cases keys.mapM encode <;> simp [Except.map, bind, Except.bind, pure, Except.pure]

theorem fillPooled_eq {α : Type} (encode : Bytes → Except BatchError α) (zero : α)
    (pooled : Slice α) (keys : List Bytes) :
    fillPooled encode zero pooled keys = keys.mapM encode := by
  have hlen : (resize zero pooled keys.length).len = keys.length := by
    unfold resize
    split <;> rfl
  have hle : 0 + keys.length ≤ (resize zero pooled keys.length).backing.length := by
    unfold resize
    split
    · simp
    · simp only
      omega
  have hfill := fill_eq encode hle
  rw [Nat.zero_add] at hfill
  unfold fillPooled
  simp only [hlen]
  cases hrun : fill encode keys 0 (resize zero pooled keys.length).backing with
  | error e =>
    rw [hrun] at hfill
    cases hmap : keys.mapM encode with
    | error e' =>
      rw [hmap] at hfill
      cases hfill
      rfl
    | ok vs =>
      rw [hmap] at hfill
      cases hfill
  | ok backing =>
    rw [hrun] at hfill
    cases hmap : keys.mapM encode with
    | error e' =>
      rw [hmap] at hfill
      cases hfill
    | ok vs =>
      rw [hmap] at hfill
      simpa [Except.map, bind, Except.bind, pure, Except.pure, Slice.elems] using hfill

section Buffers

variable (m : Marshaller)

/-- A shard's call, with slices of the pools where the shard has writes. -/
def Plan.sendPooled (p : Plan) (inserts : OrdMap Bytes Obj) (writes : Slice Write)
    (deletes : Slice Bytes) (id : ℕ) : Except BatchError Send :=
  if id ∈ p.writes.map Prod.fst then do
    let writes ← fillPooled (encodeWrite m inserts) ([], []) writes (shardEntry p.writes id)
    let deletes ← fillPooled .ok [] deletes (shardEntry p.deletes id)
    return ⟨id, writes, deletes, shardEntry p.transforms id⟩
  else p.send m inserts id

theorem mapM_ok {ε α : Type} (xs : List α) : xs.mapM (Except.ok : α → Except ε α) = .ok xs := by
  induction xs with
  | nil => rfl
  | cons x xs ih => simp [ih, bind, Except.bind, pure, Except.pure]

theorem Plan.sendPooled_eq (p : Plan) (inserts : OrdMap Bytes Obj) (writes : Slice Write)
    (deletes : Slice Bytes) (id : ℕ) : p.sendPooled m inserts writes deletes id =
      p.send m inserts id := by
  unfold sendPooled send
  split
  · rw [fillPooled_eq, fillPooled_eq, mapM_ok]
    rfl
  · rfl

end Buffers

/-- The request objects in the pool and those of the requests under way. -/
structure Process where
  idle : List PooledRequest
  busy : List PooledRequest

/-- A request that was handled: the object it was given, its body, and the slices the pools gave to
the call of each shard. -/
structure Served (Body : Type) where
  object : PooledRequest
  body : Body
  writes : ℕ → Slice Write
  deletes : ℕ → Slice Bytes

section Runs

variable {Body : Type} (d : BodyDecoder Body)

/-- One step of the process, with the requests that arrive in it. -/
inductive Process.Step : Process → List (Served Body) → Process → Prop where
  /-- A request is given a new object. -/
  | fresh {idle busy : List PooledRequest} (s : Served Body) (h : s.object = .fresh) :
      Step ⟨idle, busy⟩ [s] ⟨idle, d.decode s.object s.body :: busy⟩
  /-- A request is given an object of the pool. -/
  | recycled {idle idle' busy : List PooledRequest} (s : Served Body) :
      Step ⟨idle ++ s.object :: idle', busy⟩ [s] ⟨idle ++ idle', d.decode s.object s.body :: busy⟩
  /-- A request returns, whether it was accepted or not; its documents may have been changed. -/
  | finish {idle busy busy' : List PooledRequest} (kvs : PooledRequest)
      (inserts : OrdMap Bytes (Option Obj)) :
      Step ⟨idle, busy ++ kvs :: busy'⟩ [] ⟨{ kvs with inserts }.clear :: idle, busy ++ busy'⟩
  /-- The pool drops an object. -/
  | collect {idle idle' busy : List PooledRequest} (kvs : PooledRequest) :
      Step ⟨idle ++ kvs :: idle', busy⟩ [] ⟨idle ++ idle', busy⟩

/-- A run of the process, with the requests that arrived in it. -/
inductive Process.Run : Process → List (Served Body) → Process → Prop where
  | nil (p : Process) : Run p [] p
  | cons {p q r : Process} {served served' : List (Served Body)} (hstep : Step d p served q)
      (hrun : Run q served' r) : Run p (served ++ served') r

/-- The process before its first request. -/
def Process.initial : Process := ⟨[], []⟩

/-- The objects of the pool have been cleared. -/
def Process.Cleared (p : Process) : Prop := ∀ kvs ∈ p.idle, kvs.inserts = .empty

/-- A request acts on what its body names, and its slices do not show in the calls of the shards,
as in a process of its own. -/
structure Isolated (s : Served Body) : Prop where
  acts : d.actsOn s.object s.body = d.actsOn .fresh s.body
  calls : ∀ (m : Marshaller) (p : Plan) (inserts : OrdMap Bytes Obj) (id : ℕ),
    p.sendPooled m inserts (s.writes id) (s.deletes id) id =
      p.sendPooled m inserts .nil .nil id

variable {d}

theorem isolated_iff (h : d.Lawful) {s : Served Body} (hinserts : s.object.inserts = .empty) :
    Isolated d s ↔ d.CoversObject s.object s.body := by
  rw [← h.actsOn_eq_fresh_iff hinserts]
  constructor
  · exact Isolated.acts
  · intro h
    refine ⟨h, fun m p inserts id => ?_⟩
    rw [Plan.sendPooled_eq, Plan.sendPooled_eq]

theorem Process.Cleared.step {p q : Process} {served : List (Served Body)} (h : p.Cleared)
    (hstep : Step d p served q) : q.Cleared ∧ ∀ s ∈ served, s.object.inserts = .empty := by
  cases hstep with
  | fresh s hs =>
    refine ⟨h, ?_⟩
    simp only [mem_singleton, forall_eq, hs]
    rfl
  | recycled s =>
    constructor
    · intro kvs hkvs
      apply h kvs
      simp only [mem_append, mem_cons] at hkvs ⊢
      tauto
    · simp only [mem_singleton, forall_eq]
      exact h s.object (mem_append_right _ mem_cons_self)
  | finish kvs inserts =>
    refine ⟨?_, fun s hs => absurd hs not_mem_nil⟩
    intro object hobject
    rcases mem_cons.mp hobject with rfl | hobject
    · rfl
    · exact h object hobject
  | collect kvs =>
    refine ⟨?_, fun s hs => absurd hs not_mem_nil⟩
    intro object hobject
    apply h object
    simp only [mem_append, mem_cons] at hobject ⊢
    tauto

theorem Process.Cleared.run {p q : Process} {served : List (Served Body)} (h : p.Cleared)
    (hrun : Run d p served q) : ∀ s ∈ served, s.object.inserts = .empty := by
  induction hrun with
  | nil p => exact fun s hs => absurd hs not_mem_nil
  | cons hstep _ ih =>
    obtain ⟨hnext, hserved⟩ := h.step hstep
    intro s hs
    rcases mem_append.mp hs with hs | hs
    · exact hserved s hs
    · exact ih hnext s hs

theorem Process.cleared_initial : Process.initial.Cleared := fun _ h => absurd h not_mem_nil

end Runs

/-- `{"transforms":[{"key":"a"}]}`, the same without its last brace, and `{"deletes":["b"]}`. -/
inductive SampleBody where
  | oneTransform
  | truncated
  | oneDelete

/-- The decoder at these bodies.  The truncated one is refused after its transform is decoded. -/
def sampleDecoder : BodyDecoder SampleBody where
  accepts := fun body => match body with
    | .truncated => false
    | _ => true
  names := fun body c => match body, c with
    | .oneTransform, .transforms => some (.length 1)
    | .oneTransform, .key 0 => some (.text (ascii ['a']))
    | .oneDelete, .deletes => some (.length 1)
    | .oneDelete, .delete 0 => some (.text (ascii ['b']))
    | _, _ => none
  reuses := fun _ _ _ => true
  inserts := fun _ inserts => inserts
  decode := fun kvs body => match body with
    | .oneDelete => { kvs with deletes := ⟨[ascii ['b']], 1⟩ }
    | _ => { kvs with transforms := ⟨[{ kvs.transform 0 with key := ascii ['a'] }], 1⟩ }

theorem sampleDecoder_lawful : sampleDecoder.Lawful where
  inserts := by
    intro kvs body _
    cases body <;> rfl
  named := by
    intro kvs body c v hbody hc hnames
    cases body with
    | truncated => cases hbody
    | oneTransform | oneDelete =>
      simp only [sampleDecoder] at hnames
      split at hnames <;> first | cases hnames; rfl | contradiction
  kept := by
    intro kvs body c hbody hc hnames _
    cases body with
    | truncated => cases hbody
    | oneTransform =>
      have hzero : ∀ i < 1, i = 0 := fun i hi => Nat.lt_one_iff.mp hi
      cases c with
      | syncLevel | deletes | delete i => rfl
      | transforms => cases hnames
      | key i =>
        obtain rfl := hzero i hc
        cases hnames
      | upsert i | operations i =>
        obtain rfl := hzero i hc
        rfl
      | op i j | path i j | value i j =>
        obtain rfl := hzero i hc.1
        rfl
    | oneDelete =>
      cases c with
      | deletes => cases hnames
      | delete i =>
        obtain rfl : i = 0 := Nat.lt_one_iff.mp hc
        cases hnames
      | _ => rfl
  made := by
    intro kvs body c _ _ _ hkeeps
    simp [BodyDecoder.keeps, sampleDecoder] at hkeeps

/-- The object that the decoder leaves after a body, as the pool takes it back. -/
def leftBy (body : SampleBody) : PooledRequest := (sampleDecoder.decode .fresh body).clear

def withObject (kvs : PooledRequest) (body : SampleBody) : Served SampleBody :=
  ⟨kvs, body, fun _ => .nil, fun _ => .nil⟩

/-- Two requests, of which the second is given the object of the first. -/
theorem recycled_run (body body' : SampleBody) :
    Process.Run sampleDecoder .initial [withObject .fresh body, withObject (leftBy body) body']
      ⟨[], [sampleDecoder.decode (leftBy body) body']⟩ := by
  have hfinish : Process.Step sampleDecoder ⟨[], [sampleDecoder.decode .fresh body]⟩ []
      ⟨[leftBy body], []⟩ :=
    @Process.Step.finish _ sampleDecoder [] [] [] (sampleDecoder.decode .fresh body)
      (sampleDecoder.decode .fresh body).inserts
  have hrecycled : Process.Step sampleDecoder ⟨[leftBy body], []⟩ [withObject (leftBy body) body']
      ⟨[], [sampleDecoder.decode (leftBy body) body']⟩ :=
    @Process.Step.recycled _ sampleDecoder [] [] [] (withObject (leftBy body) body')
  exact .cons (.fresh (withObject .fresh body) rfl)
    (.cons hfinish (.cons hrecycled (.nil _)))

/-- A request that deletes acts on the transform of the request before it, also where that one was
refused. -/
theorem not_isolated_after {body : SampleBody} (hbody : body ≠ .oneDelete) :
    ¬ Isolated sampleDecoder (withObject (leftBy body) .oneDelete) := by
  intro h
  have hlength := congrArg (Option.map fun content => content.transforms.length) h.acts
  cases body with
  | oneDelete => exact hbody rfl
  | oneTransform | truncated => exact absurd hlength (by decide)

end Antfly.Metadata
