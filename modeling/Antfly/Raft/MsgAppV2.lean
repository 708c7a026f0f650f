import Antfly.Bytes
import Antfly.Lib.Fallible
import Antfly.Lib.Framing

/-!
One connection carries the appends of all groups that two stores share.  The encoder leaves the
term and the index out of a message that continues the last one, whichever group that was of; the
decoder takes them from a state of its own.  Marshalling is a parameter.
-/

namespace Antfly.MsgAppV2

open Fallible List

structure Entry where
  term : UInt64
  index : UInt64
  type : ℕ
  data : Bytes
  deriving DecidableEq

inductive MessageType where
  | heartbeat
  | app
  | other (t : ℕ)
  deriving DecidableEq

/-- A `raftpb.Message`; `rest` holds the fields that an append leaves unset. -/
structure Message (ρ : Type) where
  type : MessageType
  toID : UInt64
  fromID : UInt64
  term : UInt64
  logTerm : UInt64
  index : UInt64
  entries : List Entry
  commit : UInt64
  rest : ρ
  deriving DecidableEq

structure MultiMessage (ρ : Type) where
  shardID : UInt64
  msg : Message ρ
  deriving DecidableEq

/-- The marshalling that comes with the messages. -/
structure Protobuf (ρ : Type) where
  marshalEntry : Entry → Bytes
  unmarshalEntry : Bytes → Option Entry
  marshal : Message ρ → Bytes
  unmarshal : Bytes → Option (Message ρ)

/-- What the encoder and the decoder keep each. -/
structure State where
  term : UInt64
  index : UInt64
  deriving DecidableEq

def maxInt : ℕ := 2 ^ 63 - 1

variable {ρ : Type} (pb : Protobuf ρ)

def linkHeartbeatMessage [Inhabited ρ] : MultiMessage ρ where
  shardID := 0
  msg :=
    { type := .heartbeat, toID := 0, fromID := 0, term := 0, logTerm := 0, index := 0,
      entries := [], commit := 0, rest := default }

def isLinkHeartbeatMessage (m : MultiMessage ρ) : Bool :=
  m.shardID == 0 && m.msg.type == .heartbeat && m.msg.fromID == 0 && m.msg.toID == 0

/-- The state that a whole message leaves. -/
def State.ofMessage (m : Message ρ) : State where
  term := m.term
  index := (m.entries.getLast?.map (·.index)).getD m.index

/-- The bytes with their length before them. -/
def putSized (b : Bytes) : Bytes := encodeUint64Ascending b.length ++ b

def encode (enc : State) (m : MultiMessage ρ) : State × Bytes :=
  if isLinkHeartbeatMessage m then (enc, [0])
  else if enc.index = m.msg.index ∧ enc.term = m.msg.logTerm ∧ m.msg.logTerm = m.msg.term then
    ({ enc with index := m.msg.entries.foldl (fun i _ => i + 1) enc.index },
      [1] ++ (encodeUint64Ascending m.shardID.toNat ++
        (encodeUint64Ascending m.msg.entries.length ++
          (m.msg.entries.flatMap (fun e => putSized (pb.marshalEntry e)) ++
            encodeUint64Ascending m.msg.commit.toNat))))
  else
    (.ofMessage m.msg,
      [2] ++ (encodeUint64Ascending m.shardID.toNat ++ putSized (pb.marshal m.msg)))

def encodeAll (enc : State) : List (MultiMessage ρ) → State × Bytes
  | [] => (enc, [])
  | m :: msgs =>
    let after := encodeAll (encode pb enc m).1 msgs
    (after.1, (encode pb enc m).2 ++ after.2)

section Decoder

inductive DecodeError where
  | endOfStream
  | lengthOverflow (l : ℕ)
  | sizeOverflow (size : ℕ)
  /-- `MustUnmarshal` panics. -/
  | unmarshal
  | unknownType (typ : Bytes)
  deriving DecidableEq

def readFull (n : ℕ) (r : Bytes) : Except DecodeError (Bytes × Bytes) :=
  if n ≤ r.length then .ok (r.take n, r.drop n) else .error .endOfStream

def readUint64 (r : Bytes) : Except DecodeError (ℕ × Bytes) := do
  let (b, r) ← readFull 8 r
  return ((decodeUint64Ascending b).getD 0, r)

/-- The bytes of a marshalled value and what comes out of them. -/
def readSized {α : Type} (unmarshal : Bytes → Option α) (r : Bytes) :
    Except DecodeError (α × Bytes) := do
  let (size, r) ← readUint64 r
  if maxInt < size then throw (.sizeOverflow size)
  let (buf, r) ← readFull size r
  match unmarshal buf with
  | some a => return (a, r)
  | none => throw .unmarshal

def decodeEntries : ℕ → State → Bytes → Except DecodeError (List Entry × State × Bytes)
  | 0, dec, r => return ([], dec, r)
  | l + 1, dec, r => do
    let (e, r) ← readSized pb.unmarshalEntry r
    let (es, dec, r) ← decodeEntries l { dec with index := dec.index + 1 } r
    return (e :: es, dec, r)

def decodeApp (r : Bytes) : Except DecodeError (MultiMessage ρ × State × Bytes) := do
  let (shardID, r) ← readUint64 r
  let (msg, r) ← readSized pb.unmarshal r
  return (⟨.ofNat shardID, msg⟩, .ofMessage msg, r)

variable [Inhabited ρ]

def decodeAppEntries (localID remoteID : UInt64) (dec : State) (r : Bytes) :
    Except DecodeError (MultiMessage ρ × State × Bytes) := do
  let (shardID, r) ← readUint64 r
  let (l, r) ← readUint64 r
  if maxInt < l then throw (.lengthOverflow l)
  let (entries, dec', r) ← decodeEntries pb l dec r
  let (commit, r) ← readUint64 r
  let msg : Message ρ :=
    { type := .app, toID := localID, fromID := remoteID, term := dec.term, logTerm := dec.term,
      index := dec.index, entries := entries, commit := .ofNat commit, rest := default }
  return (⟨.ofNat shardID, msg⟩, dec', r)

def decode (localID remoteID : UInt64) (dec : State) (r : Bytes) :
    Except DecodeError (MultiMessage ρ × State × Bytes) := do
  let (typ, r) ← readFull 1 r
  if typ = [0] then return (linkHeartbeatMessage, dec, r)
  else if typ = [1] then decodeAppEntries pb localID remoteID dec r
  else if typ = [2] then decodeApp pb r
  else throw (.unknownType typ)

def decodeAll (localID remoteID : UInt64) :
    ℕ → State → Bytes → Except DecodeError (List (MultiMessage ρ) × State × Bytes)
  | 0, dec, r => return ([], dec, r)
  | k + 1, dec, r => do
    let (m, dec, r) ← decode pb localID remoteID dec r
    let (msgs, dec, r) ← decodeAll localID remoteID k dec r
    return (m :: msgs, dec, r)

end Decoder

variable {pb} {localID remoteID : UInt64} {st : State} {m : MultiMessage ρ} {v : ℕ}

theorem readFull_reads (b : Bytes) : Reads .endOfStream (readFull b.length) b fun r => (b, r) := by
  constructor
  · intro r
    unfold readFull
    rw [if_pos (by simp), take_left, drop_left]
  · intro c hcut hne
    have hlt : c.length < b.length := lt_of_not_ge fun hle => hne (hcut.eq_of_length_le hle)
    exact if_neg (Nat.not_le_of_lt hlt)

theorem readUint64_reads (h : v < 2 ^ 64) :
    Reads .endOfStream readUint64 (encodeUint64Ascending v) fun r => (v, r) := by
  refine (readFull_reads (encodeUint64Ascending v)).map fun r => ?_
  simp only [decodeUint64Ascending_encodeUint64Ascending h]
  rfl

theorem lt_of_le_maxInt {l : ℕ} (h : l ≤ maxInt) : l < 2 ^ 64 :=
  Nat.lt_of_le_of_lt h (by decide)

theorem readSized_reads {α : Type} {unmarshal : Bytes → Option α} {b : Bytes} {a : α}
    (hsize : b.length ≤ maxInt) (ha : unmarshal b = some a) :
    Reads .endOfStream (readSized unmarshal) (putSized b) fun r => (a, r) := by
  refine (readUint64_reads (lt_of_le_maxInt hsize)).bind ?_
  simp only [if_neg (Nat.not_lt_of_le hsize)]
  refine (readFull_reads b).map fun r => ?_
  simp only [ha]
  rfl

/-- An append from the one store to the other. -/
structure IsAppend [Inhabited ρ] (localID remoteID : UInt64) (m : Message ρ) : Prop where
  type : m.type = .app
  toID : m.toID = localID
  fromID : m.fromID = remoteID
  rest : m.rest = default

/-- Marshalling gives the message and its entries back. -/
structure Protobuf.RoundTrips (pb : Protobuf ρ) (m : Message ρ) : Prop where
  entries : ∀ e ∈ m.entries, pb.unmarshalEntry (pb.marshalEntry e) = some e
  message : pb.unmarshal (pb.marshal m) = some m

/-- The slices of a message have lengths that are an `int`. -/
structure Protobuf.Fits (pb : Protobuf ρ) (m : Message ρ) : Prop where
  length : m.entries.length ≤ maxInt
  entries : ∀ e ∈ m.entries, (pb.marshalEntry e).length ≤ maxInt
  message : (pb.marshal m).length ≤ maxInt

theorem decodeEntries_reads {es : List Entry}
    (htrip : ∀ e ∈ es, pb.unmarshalEntry (pb.marshalEntry e) = some e)
    (hsize : ∀ e ∈ es, (pb.marshalEntry e).length ≤ maxInt) (st : State) :
    Reads .endOfStream (decodeEntries pb es.length st)
      (es.flatMap fun e => putSized (pb.marshalEntry e))
      fun r => (es, { st with index := es.foldl (fun i _ => i + 1) st.index }, r) := by
  induction es generalizing st with
  | nil => exact .nothing fun _ => rfl
  | cons e es ih =>
    have hrest := ih (fun e he => htrip e (mem_cons_of_mem _ he))
      (fun e he => hsize e (mem_cons_of_mem _ he)) { st with index := st.index + 1 }
    rw [flatMap_cons]
    exact (readSized_reads (hsize e mem_cons_self) (htrip e mem_cons_self)).bind
      (hrest.map fun _ => rfl)

theorem not_isLinkHeartbeatMessage (h : m.msg.type = .app) : isLinkHeartbeatMessage m = false := by
  simp [isLinkHeartbeatMessage, h]

theorem encodeAll_append (st : State) (msgs after : List (MultiMessage ρ)) :
    encodeAll pb st (msgs ++ after) =
      ((encodeAll pb (encodeAll pb st msgs).1 after).1,
        (encodeAll pb st msgs).2 ++ (encodeAll pb (encodeAll pb st msgs).1 after).2) := by
  induction msgs generalizing st with
  | nil => rfl
  | cons m msgs ih =>
    simp only [cons_append, encodeAll, ih, append_assoc]

theorem decodeApp_reads (htrip : pb.RoundTrips m.msg) (hfits : pb.Fits m.msg) :
    Reads .endOfStream (decodeApp pb)
      (encodeUint64Ascending m.shardID.toNat ++ putSized (pb.marshal m.msg))
      fun r => (m, .ofMessage m.msg, r) := by
  refine (readUint64_reads m.shardID.toNat_lt).bind ?_
  refine (readSized_reads hfits.message htrip.message).map fun r => ?_
  simp only [UInt64.ofNat_toNat]
  rfl

variable [Inhabited ρ]

theorem decodeAppEntries_reads (happend : IsAppend localID remoteID m.msg)
    (htrip : pb.RoundTrips m.msg) (hfits : pb.Fits m.msg) (hindex : st.index = m.msg.index)
    (hlogTerm : st.term = m.msg.logTerm) (hterm : m.msg.logTerm = m.msg.term) :
    Reads .endOfStream (decodeAppEntries pb localID remoteID st)
      (encodeUint64Ascending m.shardID.toNat ++ (encodeUint64Ascending m.msg.entries.length ++
        (m.msg.entries.flatMap (fun e => putSized (pb.marshalEntry e)) ++
          encodeUint64Ascending m.msg.commit.toNat)))
      fun r => (m, { st with index := m.msg.entries.foldl (fun i _ => i + 1) st.index }, r) := by
  refine (readUint64_reads m.shardID.toNat_lt).bind ?_
  refine (readUint64_reads (lt_of_le_maxInt hfits.length)).bind ?_
  simp only [if_neg (Nat.not_lt_of_le hfits.length)]
  refine (decodeEntries_reads htrip.entries hfits.entries st).bind ?_
  simp only
  refine (readUint64_reads m.msg.commit.toNat_lt).map fun r => ?_
  obtain ⟨shardID, msg⟩ := m
  obtain ⟨type, toID, fromID, term, logTerm, index, entries, commit, rest⟩ := msg
  obtain ⟨rfl, rfl, rfl, rfl⟩ := happend
  simp only at hindex hlogTerm hterm ⊢
  rw [UInt64.ofNat_toNat, UInt64.ofNat_toNat, hindex, hlogTerm, hterm]
  rfl

theorem decode_reads (hm : m = linkHeartbeatMessage ∨ IsAppend localID remoteID m.msg)
    (htrip : pb.RoundTrips m.msg) (hfits : pb.Fits m.msg) (st : State) :
    Reads .endOfStream (decode pb localID remoteID st) (encode pb st m).2
      fun r => (m, (encode pb st m).1, r) := by
  rcases hm with rfl | happend
  · have hlink : isLinkHeartbeatMessage (linkHeartbeatMessage : MultiMessage ρ) = true := rfl
    unfold encode
    rw [if_pos hlink]
    exact (readFull_reads [0]).map fun _ => rfl
  · unfold encode
    rw [not_isLinkHeartbeatMessage happend.type, if_neg Bool.false_ne_true]
    split
    · next hcontinues =>
      obtain ⟨hindex, hlogTerm, hterm⟩ := hcontinues
      exact (readFull_reads [1]).bind
        (decodeAppEntries_reads happend htrip hfits hindex hlogTerm hterm)
    · exact (readFull_reads [2]).bind (decodeApp_reads htrip hfits)

theorem decodeAll_reads {msgs : List (MultiMessage ρ)}
    (hmsgs : ∀ m ∈ msgs, m = linkHeartbeatMessage ∨ IsAppend localID remoteID m.msg)
    (htrip : ∀ m ∈ msgs, pb.RoundTrips m.msg) (hfits : ∀ m ∈ msgs, pb.Fits m.msg) (st : State) :
    Reads .endOfStream (decodeAll pb localID remoteID msgs.length st) (encodeAll pb st msgs).2
      fun r => (msgs, (encodeAll pb st msgs).1, r) := by
  induction msgs generalizing st with
  | nil => exact .nothing fun _ => rfl
  | cons m msgs ih =>
    have hrest := ih (fun m hm => hmsgs m (mem_cons_of_mem _ hm))
      (fun m hm => htrip m (mem_cons_of_mem _ hm))
      (fun m hm => hfits m (mem_cons_of_mem _ hm)) (encode pb st m).1
    exact (decode_reads (hmsgs m mem_cons_self) (htrip m mem_cons_self) (hfits m mem_cons_self)
      st).bind (hrest.map fun _ => rfl)

/-- What the decoder returns of the stream so far is what the encoder has been given so far, and
they are in one state then. -/
theorem stream_roundTrips (msgs after : List (MultiMessage ρ))
    (hmsgs : ∀ m ∈ msgs ++ after, m = linkHeartbeatMessage ∨ IsAppend localID remoteID m.msg)
    (htrip : ∀ m ∈ msgs ++ after, pb.RoundTrips m.msg)
    (hfits : ∀ m ∈ msgs ++ after, pb.Fits m.msg) :
    decodeAll pb localID remoteID msgs.length ⟨0, 0⟩ (encodeAll pb ⟨0, 0⟩ (msgs ++ after)).2 =
      .ok (msgs, (encodeAll pb ⟨0, 0⟩ msgs).1,
        (encodeAll pb (encodeAll pb ⟨0, 0⟩ msgs).1 after).2) := by
  rw [encodeAll_append]
  exact (decodeAll_reads (fun m hm => hmsgs m (List.mem_append_left _ hm))
    (fun m hm => htrip m (List.mem_append_left _ hm))
    (fun m hm => hfits m (List.mem_append_left _ hm)) _).whole _

/-- Of a stream that breaks off anywhere the decoder returns the messages that are whole and then
its end: never another message, and no panic. -/
theorem cut_stream_ends {msgs : List (MultiMessage ρ)}
    (hmsgs : ∀ m ∈ msgs, m = linkHeartbeatMessage ∨ IsAppend localID remoteID m.msg)
    (htrip : ∀ m ∈ msgs, pb.RoundTrips m.msg) (hfits : ∀ m ∈ msgs, pb.Fits m.msg) (st : State)
    {c : Bytes} (hcut : c <+: (encodeAll pb st msgs).2) :
    ∃ k ≤ msgs.length, ∃ rest,
      decodeAll pb localID remoteID k st c =
        .ok (msgs.take k, (encodeAll pb st (msgs.take k)).1, rest) ∧
      decode pb localID remoteID (encodeAll pb st (msgs.take k)).1 rest = .error .endOfStream := by
  induction msgs generalizing st c with
  | nil =>
    rw [prefix_nil.mp hcut]
    exact ⟨0, le_rfl, [], rfl, rfl⟩
  | cons m msgs ih =>
    have hm := decode_reads (hmsgs m mem_cons_self) (htrip m mem_cons_self)
      (hfits m mem_cons_self) st
    by_cases hwhole : (encode pb st m).2 <+: c
    · obtain ⟨q, rfl⟩ := hwhole
      obtain ⟨k, hk, rest, hall, hend⟩ := ih (fun m hm => hmsgs m (mem_cons_of_mem _ hm))
        (fun m hm => htrip m (mem_cons_of_mem _ hm)) (fun m hm => hfits m (mem_cons_of_mem _ hm))
        (encode pb st m).1 ((prefix_append_right_inj _).mp hcut)
      refine ⟨k + 1, Nat.succ_le_succ hk, rest, ?_, hend⟩
      exact bind_eq_ok.mpr ⟨_, hm.whole q, bind_eq_ok.mpr ⟨_, hall, rfl⟩⟩
    · have hpart := ( prefix_or_prefix_of_prefix hcut (prefix_append _ _)).resolve_right hwhole
      exact ⟨0, Nat.zero_le _, c, rfl, hm.cut c hpart fun heq => hwhole (heq ▸ prefix_refl _)⟩

def firstAppend : MultiMessage Unit where
  shardID := 1
  msg :=
    { type := .app, toID := 2, fromID := 1, term := 1, logTerm := 1, index := 0,
      entries := [⟨1, 1, 0, [97]⟩], commit := 0, rest := () }

/-- The append of another group that continues where the first one has ended. -/
def nextAppend : MultiMessage Unit where
  shardID := 7
  msg :=
    { type := .app, toID := 2, fromID := 1, term := 1, logTerm := 1, index := 1,
      entries := [⟨1, 2, 0, [98]⟩], commit := 1, rest := () }

/-- The wire format for fields below 128. -/
def smallProtobuf : Protobuf Unit where
  marshalEntry := marshalEntry
  unmarshalEntry
    | 8 :: type :: 16 :: term :: 24 :: index :: 34 :: _ :: data =>
      some ⟨term.toUInt64, index.toUInt64, type.toNat, data⟩
    | _ => none
  marshal := marshal
  unmarshal b := [firstAppend.msg, nextAppend.msg, linkHeartbeatMessage.msg].find? (marshal · = b)
where
  marshalEntry (e : Entry) : Bytes :=
    [8, .ofNat e.type, 16, e.term.toUInt8, 24, e.index.toUInt8, 34, .ofNat e.data.length] ++ e.data
  marshal (m : Message Unit) : Bytes :=
    let type := if m.type = .app then 3 else 8
    [8, type, 16, m.toID.toUInt8, 24, m.fromID.toUInt8, 32, m.term.toUInt8, 40,
      m.logTerm.toUInt8, 48, m.index.toUInt8] ++
      m.entries.flatMap (fun e => 58 :: .ofNat (marshalEntry e).length :: marshalEntry e) ++
      [64, m.commit.toUInt8, 80, 0, 88, 0, 104, 0]

theorem sampleStream_sound {m : MultiMessage Unit}
    (hm : m ∈ [linkHeartbeatMessage, firstAppend, nextAppend]) :
    (m = linkHeartbeatMessage ∨ IsAppend 2 1 m.msg) ∧ smallProtobuf.RoundTrips m.msg ∧
      smallProtobuf.Fits m.msg := by
  have hcases : m = linkHeartbeatMessage ∨ m = firstAppend ∨ m = nextAppend := by simpa using hm
  refine ⟨?_, ?_, ?_⟩
  · rcases hcases with rfl | rfl | rfl
    · exact .inl rfl
    · exact .inr ⟨rfl, rfl, rfl, rfl⟩
    · exact .inr ⟨rfl, rfl, rfl, rfl⟩
  · rcases hcases with rfl | rfl | rfl <;> exact ⟨by decide, by decide⟩
  · rcases hcases with rfl | rfl | rfl <;> exact ⟨by decide, by decide, by decide⟩

theorem stream_roundTrips_two_groups :
    decodeAll smallProtobuf 2 1 2 ⟨0, 0⟩
        (encodeAll smallProtobuf ⟨0, 0⟩ [linkHeartbeatMessage, firstAppend, nextAppend]).2 =
      .ok ([linkHeartbeatMessage, firstAppend],
        (encodeAll smallProtobuf ⟨0, 0⟩ [linkHeartbeatMessage, firstAppend]).1,
        (encodeAll smallProtobuf (encodeAll smallProtobuf ⟨0, 0⟩
          [linkHeartbeatMessage, firstAppend]).1 [nextAppend]).2) :=
  stream_roundTrips [linkHeartbeatMessage, firstAppend] [nextAppend]
    (fun _ hm => (sampleStream_sound hm).1) (fun _ hm => (sampleStream_sound hm).2.1)
    fun _ hm => (sampleStream_sound hm).2.2

theorem cut_stream_ends_two_groups :
    ∃ k ≤ 3, ∃ rest,
      decodeAll smallProtobuf 2 1 k ⟨0, 0⟩
          ((encodeAll smallProtobuf ⟨0, 0⟩ [linkHeartbeatMessage, firstAppend, nextAppend]).2.take
            40) =
        .ok ([linkHeartbeatMessage, firstAppend, nextAppend].take k,
          (encodeAll smallProtobuf ⟨0, 0⟩
            ([linkHeartbeatMessage, firstAppend, nextAppend].take k)).1, rest) ∧
      decode smallProtobuf 2 1 (encodeAll smallProtobuf ⟨0, 0⟩
          ([linkHeartbeatMessage, firstAppend, nextAppend].take k)).1 rest =
        .error .endOfStream :=
  cut_stream_ends (fun _ hm => (sampleStream_sound hm).1)
    (fun _ hm => (sampleStream_sound hm).2.1) (fun _ hm => (sampleStream_sound hm).2.2) ⟨0, 0⟩
    ( take_prefix 40 _)

end Antfly.MsgAppV2
