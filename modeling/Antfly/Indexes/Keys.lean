import Antfly.Store.Keys

/-!
An edge is stored as `<source>:i:<index>:out:<type>:<target>:o` and a graph index files it under
`<target>:i:<index>:in:<type>:<source>:i`.  Parsing takes the first marker of an edge key and the
last one of a chunk or summary key.
-/

namespace Antfly

/-- `bytes.Cut`: what is before and after the first occurrence of the separator. -/
def cut (sep : Bytes) : Bytes → Option (Bytes × Bytes)
  | [] => if sep.isEmpty then some ([], []) else none
  | c :: b =>
    if sep.isPrefixOf (c :: b) then some ([], (c :: b).drop sep.length)
    else (cut sep b).map fun p => (c :: p.1, p.2)

/-- What is before and after the last occurrence of the separator, `bytes.LastIndex`. -/
def cutLast (sep : Bytes) : Bytes → Option (Bytes × Bytes)
  | [] => if sep.isEmpty then some ([], []) else none
  | c :: b =>
    match cutLast sep b with
    | some p => some (c :: p.1, p.2)
    | none =>
      if sep.isPrefixOf (c :: b) then some ([], (c :: b).drop sep.length) else none

def trimSuffix (b suf : Bytes) : Bytes := b.take (b.length - suf.length)

theorem trimSuffix_append (b suf : Bytes) : trimSuffix (b ++ suf) suf = b := by
  unfold trimSuffix
  rw [List.length_append, Nat.add_sub_cancel]
  exact List.take_left

structure ParsedEdge where
  source : Bytes
  target : Bytes
  indexName : Bytes
  edgeType : Bytes
  deriving DecidableEq

/-- `ParseEdgeKey`; the direction between the name and the type is not looked at. -/
def parseEdgeKey (edgeKey : Bytes) : Option ParsedEdge := do
  let (source, remaining) ← cut indexMarker edgeKey
  let (indexName, remaining) ← cut (ascii [':']) remaining
  let (_, remaining) ← cut (ascii [':']) remaining
  let (edgeType, targetWithSuffix) ← cut (ascii [':']) remaining
  if hasSuffix targetWithSuffix edgeOutSuffix then
    some { source, target := trimSuffix targetWithSuffix edgeOutSuffix, indexName, edgeType }
  else none

def makeEdgeIndexKey (name target source edgeType : Bytes) : Bytes :=
  target ++ indexMarker ++ name ++ inMarker ++ edgeType ++ ascii [':'] ++ source ++ ascii [':', 'i']

/-- What precedes the suffix, without the last field and the index name before it. -/
def parseDerived (key : Bytes) : Option (Bytes × Bytes) := do
  let (docKey, indexName) ← cutLast indexMarker key
  if docKey.isEmpty || indexName.isEmpty then none else some (docKey, indexName)

/-- `ParseSummaryKey`: the document and the index of a summary. -/
def parseSummaryKey (summaryKey : Bytes) : Option (Bytes × Bytes) :=
  if hasSuffix summaryKey summarySuffix then parseDerived (trimSuffix summaryKey summarySuffix)
  else none

def chunkSuffix : Bytes := ascii [':', 'c']
def chunkFullTextSuffix : Bytes := ascii [':', 'c', 'f', 't']
def chunkMediaSuffix : Bytes := ascii [':', 'c', 'm']

def trimChunkSuffix (chunkKey : Bytes) : Bytes :=
  if hasSuffix chunkKey chunkFullTextSuffix then trimSuffix chunkKey chunkFullTextSuffix
  else if hasSuffix chunkKey chunkMediaSuffix then trimSuffix chunkKey chunkMediaSuffix
  else trimSuffix chunkKey chunkSuffix

/-- `ParseChunkKey`: the document and the index of a chunk. -/
def parseChunkKey (chunkKey : Bytes) : Option (Bytes × Bytes) :=
  if isChunkKey chunkKey then do
    let (keyWithoutChunkID, chunkID) ← cutLast (ascii [':']) (trimChunkSuffix chunkKey)
    if keyWithoutChunkID.isEmpty || chunkID.isEmpty then none else parseDerived keyWithoutChunkID
  else none

end Antfly
