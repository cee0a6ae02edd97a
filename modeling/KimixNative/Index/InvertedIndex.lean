import KimixNative.Lib.Table
import KimixNative.Lib.Merge
import KimixNative.Lib.Reader
import Mathlib.Data.List.Lex

/-!
# The incremental inverted index

Postings live in three places: the delta, a map from term to the postings added since
the last flush; the segments, each an immutable CSR array built by a flush or a
compaction; and the merge cache, which keeps the merged postings of a term that was
looked up while it had more than one source. Offsets, row numbers and lengths are 32-bit
in the source and are truncated here where the source casts.

`kimix::sort` is a pattern-defeating quicksort and is not stable; every operation that
sorts takes the sort as an argument. The hash maps are tables.
-/

namespace KimixNative.Index

abbrev DocId := BitVec 32

/-- A term is a byte string. -/
abbrev Term := Bytes

/-- Document id and term frequency. -/
structure PostingsEntry where
  docId : DocId
  tf : BitVec 32
  deriving DecidableEq, Repr

abbrev Postings := List PostingsEntry

/-- What `posting_less` compares. -/
def PostingsEntry.key (e : PostingsEntry) : Nat := e.docId.toNat

/-- `posting_less`. -/
def postingLess (a b : PostingsEntry) : Bool := decide (a.key < b.key)

/-- Terms compare byte by byte, unsigned. -/
def termKey (t : Term) : List Nat := t.map BitVec.toNat

/-- Sorted by document. -/
abbrev DocSorted (pl : Postings) : Prop := pl.Pairwise fun a b => a.key ≤ b.key

/-- A delta entry; `sorted` is false after a push. -/
structure DeltaEntry where
  postings : Postings := []
  sorted : Bool := true
  deriving DecidableEq, Repr

/-- An immutable segment. -/
structure Segment where
  termKeys : List Term := []
  termIndex : Table Term (BitVec 32) := ∅
  postings : Postings := []
  termOffsets : List (BitVec 32) := []
  deriving DecidableEq

/-- Length of a document, whether it has been flushed, and while it has not, its terms. -/
structure DocMeta where
  length : BitVec 32 := 0
  inSegment : Bool := false
  terms : List Term := []
  deriving DecidableEq, Repr

structure InvertedIndex where
  delta : Table Term DeltaEntry := ∅
  docMeta : Table DocId DocMeta := ∅
  segments : List Segment := []
  mergeCache : Table Term Postings := ∅
  maxDocId : DocId := 0
  sumDocLengths : BitVec 64 := 0
  finalized : Bool := false
  deriving DecidableEq

/-! ## Segments -/

namespace Segment

def totalPostings (seg : Segment) : BitVec 32 := seg.termOffsets.getLastD 0

/-- The postings of one row, cut out between two offsets. -/
def row (seg : Segment) (r : Nat) : Postings :=
  let start := (seg.termOffsets.getD r 0).toNat
  let stop := (seg.termOffsets.getD (r + 1) 0).toNat
  (seg.postings.drop start).take (stop - start)

/-- The rows with their terms. -/
def rows (seg : Segment) : List (Term × Postings) :=
  seg.termKeys.zipIdx.map fun (key, r) => (key, seg.row r)

/-- The row the index names for a term. -/
def lookup (seg : Segment) (term : Term) : Option Postings :=
  (seg.termIndex.find? term).map fun r => seg.row r.toNat

/-- Append one row (the loop body of `build_segment_from_rows`). -/
def appendRow (seg : Segment) (r : Term × Postings) : Segment where
  termIndex := seg.termIndex.emplaceAll [(r.1, BitVec.ofNat 32 seg.termKeys.length)]
  termKeys := seg.termKeys ++ [r.1]
  termOffsets := seg.termOffsets ++ [BitVec.ofNat 32 (seg.postings.length + r.2.length)]
  postings := seg.postings ++ r.2

end Segment

/-- `build_segment_from_rows`. -/
def buildSegmentFromRows (S : Sorter) (rows : List (Term × Postings)) : Segment :=
  (S.sort (fun a b => decide (termKey a.1 < termKey b.1)) rows).foldl Segment.appendRow
    { termOffsets := [0] }

/-- Sort the postings of an entry unless they are known to be sorted. -/
def DeltaEntry.sort (S : Sorter) (e : DeltaEntry) : DeltaEntry :=
  if e.sorted then e
  else
    { postings := if 1 < e.postings.length then S.sort postingLess e.postings else e.postings
      sorted := true }

/-- Group runs of equal keys. -/
def groupRuns : List (Term × Postings) → List (Term × List Postings)
  | [] => []
  | (key, pl) :: rest =>
    match groupRuns rest with
    | [] => [(key, [pl])]
    | (key', pls) :: groups =>
      if key = key' then (key, pl :: pls) :: groups
      else (key, [pl]) :: (key', pls) :: groups

/-- A run of one is copied, a longer one is merged. -/
def mergeRun (run : Term × List Postings) : Term × Postings :=
  match run.2 with
  | [pl] => (run.1, pl)
  | pls => (run.1, kWayMerge PostingsEntry.key pls)

namespace InvertedIndex

/-! ## Adding documents -/

/-- `++counter[t]` for each token. -/
def countTerms (tokens : List Term) : Table Term (BitVec 32) :=
  tokens.foldl (fun counter t => counter.insert t ((counter.find? t).getD 0 + 1)) ∅

/-- `push_posting`. -/
def pushPosting (docId : DocId) (delta : Table Term DeltaEntry) (kv : Term × BitVec 32) :
    Table Term DeltaEntry :=
  let entry := (delta.find? kv.1).getD {}
  delta.insert kv.1 { postings := entry.postings ++ [⟨docId, kv.2⟩], sorted := false }

/-- Remove a document's postings of one term from the delta, and the entry with its last
posting. -/
def dropPosting (docId : DocId) (delta : Table Term DeltaEntry) (term : Term) :
    Table Term DeltaEntry :=
  match delta.find? term with
  | none => delta
  | some entry =>
    let kept := entry.postings.filter fun e => e.docId != docId
    if kept.isEmpty then delta.erase term else delta.insert term { entry with postings := kept }

/-- `add_document`: a new document, one still in the delta, or one already flushed. -/
def addDocument (idx : InvertedIndex) (docId : DocId) (tokens : List Term) : InvertedIndex :=
  let counter := countTerms tokens
  let newLen := BitVec.ofNat 32 tokens.length
  let maxDocId := if idx.maxDocId < docId then docId else idx.maxDocId
  match idx.docMeta.find? docId with
  | none =>
    { idx with
      maxDocId
      sumDocLengths := idx.sumDocLengths + newLen.setWidth 64
      docMeta := idx.docMeta.insert docId { length := newLen, terms := counter.keys }
      delta := counter.toList.foldl (pushPosting docId) idx.delta }
  | some old =>
    let sumDocLengths := idx.sumDocLengths + (newLen.setWidth 64 - old.length.setWidth 64)
    if old.inSegment then
      { idx with
        maxDocId
        sumDocLengths
        docMeta := idx.docMeta.insert docId { old with length := newLen }
        delta := counter.toList.foldl (pushPosting docId) idx.delta }
    else
      { idx with
        maxDocId
        sumDocLengths
        docMeta := idx.docMeta.insert docId { old with length := newLen, terms := counter.keys }
        delta := counter.toList.foldl (pushPosting docId)
          (old.terms.foldl (dropPosting docId) idx.delta) }

/-! ## Flushing and compaction -/

/-- The rows a flush builds its segment from. -/
def deltaRows (S : Sorter) (idx : InvertedIndex) : List (Term × Postings) :=
  idx.delta.toList.map fun e => (e.1, (e.2.sort S).postings)

/-- `build_segment_from_delta`. -/
def buildSegmentFromDelta (S : Sorter) (idx : InvertedIndex) : InvertedIndex :=
  { idx with
    delta := ∅
    segments := idx.segments ++ [buildSegmentFromRows S (idx.deltaRows S)]
    docMeta := idx.docMeta.mapValues fun m =>
      if m.inSegment then m else { m with inSegment := true, terms := [] }
    mergeCache := ∅ }

/-- The rows of all segments, grouped by term and merged. -/
def compactedRows (S : Sorter) (segments : List Segment) : List (Term × Postings) :=
  let refs := segments.flatMap Segment.rows
  (groupRuns (S.sort (fun a b => decide (termKey a.1 < termKey b.1)) refs)).map mergeRun

/-- `compact`. -/
def compact (S : Sorter) (idx : InvertedIndex) : InvertedIndex :=
  if idx.segments.length ≤ 1 then idx
  else
    { idx with
      segments := [buildSegmentFromRows S (compactedRows S idx.segments)]
      mergeCache := ∅ }

def kMaxSegmentsBeforeCompact : Nat := 8

def kMaxPostingsBeforeCompact : Nat := 262144

/-- `finalize`: flush a non-empty delta, and compact past the thresholds. -/
def finalize (S : Sorter) (idx : InvertedIndex) : InvertedIndex :=
  if idx.delta.keys.isEmpty then { idx with finalized := true }
  else
    let flushed := idx.buildSegmentFromDelta S
    let segPostings := (flushed.segments.map Segment.totalPostings).foldl (· + ·) 0
    let settled :=
      if kMaxSegmentsBeforeCompact < flushed.segments.length ||
          kMaxPostingsBeforeCompact < segPostings.toNat then flushed.compact S
      else flushed
    { settled with finalized := true }

/-! ## Lookup -/

/-- Sort the delta entry of a term in place. -/
def sortDelta (S : Sorter) (idx : InvertedIndex) (term : Term) : InvertedIndex :=
  { idx with delta := idx.delta.modify term (·.sort S) }

/-- `merge_postings`: the cached merge, or a fresh one that is then cached. -/
def mergePostings (S : Sorter) (idx : InvertedIndex) (term : Term) : InvertedIndex × Postings :=
  match idx.mergeCache.find? term with
  | some cached => (idx, cached)
  | none =>
    let idx := idx.sortDelta S term
    let sources := ((idx.delta.find? term).map DeltaEntry.postings).toList ++
      idx.segments.filterMap (·.lookup term)
    let merged := kWayMerge PostingsEntry.key sources
    ({ idx with mergeCache := idx.mergeCache.insert term merged }, merged)

/-- `get_postings`. -/
def getPostings (S : Sorter) (idx : InvertedIndex) (term : Term) : InvertedIndex × Postings :=
  match idx.delta.find? term, idx.segments.filterMap (·.lookup term) with
  | none, [] => (idx, [])
  | some entry, [] => (idx.sortDelta S term, (entry.sort S).postings)
  | none, [pl] => (idx, pl)
  | _, _ => idx.mergePostings S term

/-! ## The KNIDX1 blob -/

def kMagic : Bytes := [0x4B, 0x4E, 0x49, 0x44, 0x58, 0x31]

/-- One posting on disk. -/
def writePosting (e : PostingsEntry) : Bytes := leBytes 4 e.docId.toNat ++ leBytes 4 e.tf.toNat

def writeSegment (seg : Segment) : Bytes :=
  leBytes 4 seg.termKeys.length ++
  seg.termKeys.flatMap (fun key => leBytes 4 key.length ++ key) ++
  seg.termOffsets.flatMap (fun off => leBytes 4 off.toNat) ++
  leBytes 4 seg.totalPostings.toNat ++ seg.postings.flatMap writePosting

/-- `write_blob`: documents in the order of their ids. -/
def writeBlob (S : Sorter) (idx : InvertedIndex) : Bytes :=
  let docIds := S.sort (fun a b => decide (BitVec.toNat a < BitVec.toNat b)) idx.docMeta.keys
  kMagic ++ leBytes 4 idx.docMeta.keys.length ++ leBytes 4 idx.maxDocId.toNat ++
  leBytes 8 idx.sumDocLengths.toNat ++ leBytes 4 idx.docMeta.keys.length ++
  docIds.flatMap (fun id =>
    leBytes 4 id.toNat ++ leBytes 4 ((idx.docMeta.find? id).getD {}).length.toNat) ++
  leBytes 4 idx.segments.length ++ idx.segments.flatMap writeSegment

/-- `save_to`: a non-empty delta is flushed first. -/
def saveTo (S : Sorter) (idx : InvertedIndex) : InvertedIndex × Bytes :=
  let idx := if idx.delta.keys.isEmpty then idx else idx.finalize S
  (idx, idx.writeBlob S)

def readDoc : Reader (DocId × DocMeta) := fun input => do
  let (id, input) ← Reader.field 4 input
  let (len, input) ← Reader.field 4 input
  return ((BitVec.ofNat 32 id, { length := BitVec.ofNat 32 len, inSegment := true }), input)

def readTerm : Reader Term := fun input => do
  let (len, input) ← Reader.field 4 input
  Reader.take len input

def readOffset : Reader (BitVec 32) := fun input => do
  let (off, input) ← Reader.field 4 input
  return (BitVec.ofNat 32 off, input)

def readPosting : Reader PostingsEntry := fun input => do
  let (id, input) ← Reader.field 4 input
  let (tf, input) ← Reader.field 4 input
  return (⟨BitVec.ofNat 32 id, BitVec.ofNat 32 tf⟩, input)

/-- One segment: the offsets must not decrease and the last one must count the
postings. A repeated term keeps its first row in the index. -/
def readSegment : Reader Segment := fun input => do
  let (termCount, input) ← Reader.field 4 input
  -- With this count the offset loop never ends within the input.
  Reader.require (termCount + 1 ≠ 2 ^ 32)
  let (termKeys, input) ← Reader.times readTerm termCount input
  let (termOffsets, input) ← Reader.times readOffset (termCount + 1) input
  Reader.require ((termOffsets.map BitVec.toNat).IsChain (· ≤ ·))
  let (postingsCount, input) ← Reader.field 4 input
  Reader.require (postingsCount = (termOffsets.getLastD 0).toNat)
  let (postings, input) ← Reader.times readPosting postingsCount input
  let termIndex := Table.ofList (termKeys.zipIdx.map fun (key, t) => (key, BitVec.ofNat 32 t))
  return ({ termKeys, termIndex, postings, termOffsets }, input)

/-- What a blob describes, when it is well formed. Bytes after the last segment are
ignored. -/
def readBlob (blob : Bytes) : Option InvertedIndex := do
  let (magic, input) ← Reader.take 6 blob
  Reader.require (magic = kMagic)
  let (docCount, input) ← Reader.field 4 input
  let (maxDocId, input) ← Reader.field 4 input
  let (sumLengths, input) ← Reader.field 8 input
  let (metaCount, input) ← Reader.field 4 input
  Reader.require (metaCount = docCount)
  let (docs, input) ← Reader.times readDoc metaCount input
  let (segCount, input) ← Reader.field 4 input
  let (segments, _) ← Reader.times readSegment segCount input
  return {
    docMeta := Table.ofList docs
    segments
    maxDocId := BitVec.ofNat 32 maxDocId
    sumDocLengths := BitVec.ofNat 64 sumLengths
    finalized := true }

/-- `load_from`: everything is parsed before anything is replaced. -/
def loadFrom (idx : InvertedIndex) (blob : Bytes) : InvertedIndex × Bool :=
  match readBlob blob with
  | none => (idx, false)
  | some loaded => (loaded, true)

/-- `reset`. -/
def reset (_ : InvertedIndex) : InvertedIndex := {}

end InvertedIndex

/-- The public calls that change an index or read from it. -/
inductive IndexOp where
  | addDocument (docId : DocId) (tokens : List Term)
  | finalize
  | compact
  | saveTo
  | loadFrom (blob : Bytes)
  | reset
  | getPostings (term : Term)

/-- The index after one call. -/
def InvertedIndex.step (S : Sorter) (idx : InvertedIndex) : IndexOp → InvertedIndex
  | .addDocument docId tokens => idx.addDocument docId tokens
  | .finalize => idx.finalize S
  | .compact => idx.compact S
  | .saveTo => (idx.saveTo S).1
  | .loadFrom blob => (idx.loadFrom blob).1
  | .reset => idx.reset
  | .getPostings term => (idx.getPostings S term).1

end KimixNative.Index
