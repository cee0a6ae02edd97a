import KimixNative.Index.BlobRuns

/-!
# The history index

A history index keeps the turns of a conversation in a queue and indexes the text of each
under its turn id. A blob holds the turns, a document count and, up to its end, the blob of
the inverted index. Evicted turns stay in the index.

The tokenizer is an argument and nothing depends on what it returns. Timestamps are kept as
the 64 bits they are stored in. The scores of a turn are filled in by a search, never stored
and not kept here; a search is present with what it does to the index.
-/

namespace KimixNative.Index

open Reader

/-- One conversation turn. -/
structure TurnMeta where
  turnId : DocId := 0
  timestamp : BitVec 64 := 0
  role : Byte := 3
  isCompacted : Bool := false
  text : Bytes := []
  deriving DecidableEq, Repr

structure HistoryIndex where
  turns : List TurnMeta := []
  index : InvertedIndex := {}
  deriving DecidableEq

namespace InvertedIndex

/-- `save_blob_size`: the exact size of the blob, after flushing a non-empty delta. -/
def saveBlobSize (S : Sorter) (idx : InvertedIndex) : InvertedIndex × Nat :=
  let idx := if idx.delta.keys.isEmpty then idx else idx.finalize S
  (idx, 6 + (4 + 4 + 8 + 4) + idx.docMeta.keys.length * 8 + 4 +
    (idx.segments.map fun seg =>
      4 + (seg.termKeys.map fun key => 4 + key.length).sum + (seg.termKeys.length + 1) * 4 + 4 +
        seg.totalPostings.toNat * 8).sum)

end InvertedIndex

namespace HistoryIndex

def MAX_TURNS : Nat := 500

/-- Pop from the front while there are too many turns. -/
def evict (turns : List TurnMeta) : List TurnMeta := turns.drop (turns.length - MAX_TURNS)

/-- `append_turns`: every turn is indexed; the queue is cut to size afterwards and the
index is not. -/
def appendTurns (tokenize : Bytes → List Term) (h : HistoryIndex) (turns : List TurnMeta) :
    HistoryIndex where
  turns := evict (h.turns ++ turns)
  index := turns.foldl (fun idx t => idx.addDocument t.turnId (tokenize t.text)) h.index

/-- `mark_compacted`. -/
def markCompacted (h : HistoryIndex) : HistoryIndex :=
  { h with turns := h.turns.map fun t => { t with isCompacted := true } }

/-- `search`, as far as it changes the index: the first one flushes it, and every query
term is looked up. -/
def search (S : Sorter) (tokenize : Bytes → List Term) (h : HistoryIndex) (query : Bytes)
    (topK : BitVec 32) : HistoryIndex :=
  if h.turns.isEmpty || topK == 0 then h
  else
    let index := if h.index.finalized then h.index else h.index.finalize S
    { h with index := (tokenize query).foldl (fun idx t => (idx.getPostings S t).1) index }

/-- `pop_front`. -/
def popFront (h : HistoryIndex) : HistoryIndex := { h with turns := h.turns.tail }

/-- `reset`. -/
def reset (_ : HistoryIndex) : HistoryIndex := {}

/-! ## The KNHIX1 blob -/

def kHistoryMagic : Bytes := [0x4B, 0x4E, 0x48, 0x49, 0x58, 0x31]

def writeTurn (t : TurnMeta) : Bytes :=
  leBytes 4 t.turnId.toNat ++ leBytes 8 t.timestamp.toNat ++ leBytes 1 t.role.toNat ++
  leBytes 1 (if t.isCompacted then 1 else 0) ++ leBytes 4 t.text.length ++ t.text

/-- `save_to`: computing the size flushes the index, so the header counts what is
appended. -/
def saveTo (S : Sorter) (h : HistoryIndex) : HistoryIndex × Bytes :=
  let index := (h.index.saveBlobSize S).1
  let header := kHistoryMagic ++ leBytes 4 h.turns.length ++ leBytes 4 index.docCount.toNat ++
    h.turns.flatMap writeTurn
  let appended := index.saveTo S
  ({ h with index := appended.1 }, header ++ appended.2)

def readTurn : Reader TurnMeta := fun input => do
  let (turnId, input) ← field 4 input
  let (timestamp, input) ← field 8 input
  let (role, input) ← field 1 input
  let (flags, input) ← field 1 input
  let (textLen, input) ← field 4 input
  let (text, input) ← take textLen input
  return ({ turnId := BitVec.ofNat 32 turnId
            timestamp := BitVec.ofNat 64 timestamp
            role := BitVec.ofNat 8 role
            isCompacted := flags % 2 != 0
            text }, input)

/-- The turns, the document count of the header and the rest, which is the index blob. -/
def readHeader (blob : Bytes) : Option (List TurnMeta × Nat × Bytes) := do
  let (magic, input) ← take 6 blob
  require (magic = kHistoryMagic)
  let (turnCount, input) ← field 4 input
  let (docCount, input) ← field 4 input
  let (turns, input) ← times readTurn turnCount input
  return (turns, docCount, input)

/-- `load_from`: a refused blob leaves the object reset. -/
def loadFrom (h : HistoryIndex) (blob : Bytes) : HistoryIndex × Bool :=
  match readHeader blob with
  | none => (h.reset, false)
  | some (turns, docCount, indexBlob) =>
    let (index, ok) := h.index.loadFrom indexBlob
    if ok && index.docCount.toNat == docCount then ({ turns, index }, true)
    else (h.reset, false)

end HistoryIndex

/-- The public calls that change a history index. -/
inductive HistoryOp where
  | appendTurns (turns : List TurnMeta)
  | markCompacted
  | search (query : Bytes) (topK : BitVec 32)
  | saveTo
  | loadFrom (blob : Bytes)
  | popFront
  | reset

namespace HistoryIndex

/-- The history index after one call. -/
def step (S : Sorter) (tokenize : Bytes → List Term) (h : HistoryIndex) :
    HistoryOp → HistoryIndex
  | .appendTurns turns => h.appendTurns tokenize turns
  | .markCompacted => h.markCompacted
  | .search query topK => h.search S tokenize query topK
  | .saveTo => (h.saveTo S).1
  | .loadFrom blob => (h.loadFrom blob).1
  | .popFront => h.popFront
  | .reset => h.reset

/-- The calls on the index that adding the turns makes. -/
def addDocuments (tokenize : Bytes → List Term) (turns : List TurnMeta) : List IndexOp :=
  turns.map fun t => .addDocument t.turnId (tokenize t.text)

/-- The condition on one call: the turns, one after the other, touch no term whose merge is
cached. -/
def CacheStepOk (S : Sorter) (tokenize : Bytes → List Term) (h : HistoryIndex) :
    HistoryOp → Prop
  | .appendTurns turns =>
    Meets (InvertedIndex.step S) InvertedIndex.CacheStepOk h.index (addDocuments tokenize turns)
  | _ => True

instance (S : Sorter) (tokenize : Bytes → List Term) (h : HistoryIndex) (op : HistoryOp) :
    Decidable (h.CacheStepOk S tokenize op) := by
  induction op using HistoryOp.casesOn <;> dsimp only [CacheStepOk] <;> infer_instance

/-! ## The index under the turns -/

/-- What the index needs for its round trip. -/
def Settled (h : HistoryIndex) : Prop := h.index.Recorded ∧ h.index.CacheCurrent

variable {h : HistoryIndex}

variable {tokenize : Bytes → List Term}

theorem settled_appendTurns (S : Sorter) (settled : h.Settled) {turns : List TurnMeta}
    (ok : h.CacheStepOk S tokenize (.appendTurns turns)) :
    (h.appendTurns tokenize turns).Settled := by
  have hindex : (h.appendTurns tokenize turns).index =
      run (InvertedIndex.step S) h.index (addDocuments tokenize turns) := by
    simp only [appendTurns, run, addDocuments, List.foldl_map]
    rfl
  rw [Settled, hindex]
  exact ⟨run_invariant (fun _ op hr => hr.step S op) settled.1 _,
    ok.invariant (fun _ _ hc hok => hc.step S hok) settled.2⟩

theorem settled_search (S : Sorter) (tokenize : Bytes → List Term) (settled : h.Settled)
    (query : Bytes) (topK : BitVec 32) : (h.search S tokenize query topK).Settled := by
  have hlookups : ∀ (terms : List Term) (idx : InvertedIndex), idx.Recorded → idx.CacheCurrent →
      (terms.foldl (fun idx t => (idx.getPostings S t).1) idx).Recorded ∧
        (terms.foldl (fun idx t => (idx.getPostings S t).1) idx).CacheCurrent := by
    intro terms
    induction terms with
    | nil => exact fun idx hr hc => ⟨hr, hc⟩
    | cons t terms ih => exact fun idx hr hc => ih _ (hr.step S (.getPostings t)) (hc.getPostings S t)
  unfold search
  split
  · exact settled
  · refine hlookups _ _ ?_ ?_
    · split
      · exact settled.1
      · exact settled.1.finalize S
    · split
      · exact settled.2
      · exact settled.2.finalize S

theorem settled_reset (h : HistoryIndex) : h.reset.Settled := by
  refine ⟨?_, InvertedIndex.cacheCurrent_of_empty rfl⟩
  intro seg hseg
  cases hseg

theorem settled_loadFrom (settled : h.Settled) (blob : Bytes) : (h.loadFrom blob).1.Settled := by
  unfold loadFrom
  split
  · exact h.settled_reset
  · next turns docCount indexBlob hread =>
      simp only
      split
      · exact ⟨settled.1.loadFrom indexBlob, settled.2.loadFrom indexBlob⟩
      · exact h.settled_reset

theorem Settled.step (S : Sorter) (settled : h.Settled) {op : HistoryOp}
    (ok : h.CacheStepOk S tokenize op) : (h.step S tokenize op).Settled := by
  cases op with
  | appendTurns turns => exact settled_appendTurns S settled ok
  | markCompacted => exact settled
  | search query topK => exact settled_search S tokenize settled query topK
  | saveTo => exact ⟨(settled.1.saveTo S).saveTo S, (settled.2.saveTo S).saveTo S⟩
  | loadFrom blob => exact settled_loadFrom settled blob
  | popFront => exact settled
  | reset => exact h.settled_reset

/-! ## The round trip -/

/-- Every count that is written fits its field. -/
structure Small (h : HistoryIndex) : Prop where
  turns : h.turns.length < 2 ^ 32
  texts : ∀ t ∈ h.turns, t.text.length < 2 ^ 32
  index : h.index.Small

instance (h : HistoryIndex) : Decidable h.Small :=
  decidable_of_iff (_ ∧ _ ∧ _) ⟨fun ⟨a, b, c⟩ => ⟨a, b, c⟩, fun ⟨a, b, c⟩ => ⟨a, b, c⟩⟩

/-- A fresh history index accepts what `save_to` writes, has its turns, and its index stands
for the one that was saved; it writes the same bytes. -/
structure RoundTrips (S : Sorter) (h : HistoryIndex) : Prop where
  accepted : (loadFrom {} (h.saveTo S).2).2 = true
  turns : (loadFrom {} (h.saveTo S).2).1.turns = h.turns
  index : InvertedIndex.Restores S h.index (h.saveTo S).1.index
    (loadFrom {} (h.saveTo S).2).1.index
  resaved : ((loadFrom {} (h.saveTo S).2).1.saveTo S).2 = (h.saveTo S).2

theorem reads_readTurn {t : TurnMeta} (small : t.text.length < 2 ^ 32) :
    Reads readTurn (writeTurn t) t := by
  intro rest
  have hid : Reads (field 4) (leBytes 4 t.turnId.toNat) t.turnId.toNat := reads_field (by omega)
  have htime : Reads (field 8) (leBytes 8 t.timestamp.toNat) t.timestamp.toNat :=
    reads_field (by omega)
  have hrole : Reads (field 1) (leBytes 1 t.role.toNat) t.role.toNat := reads_field (by omega)
  have hflags : Reads (field 1) (leBytes 1 (if t.isCompacted then 1 else 0))
      (if t.isCompacted then 1 else 0) := reads_field (by split <;> omega)
  have hlen : Reads (field 4) (leBytes 4 t.text.length) t.text.length := reads_field (by omega)
  have htext := reads_take t.text
  rw [readTurn, writeTurn]
  simp only [List.append_assoc, hid _, htime _, hrole _, hflags _, hlen _, htext _,
    Option.bind_eq_bind, Option.bind_some, Option.pure_def]
  obtain ⟨_, _, _, isCompacted, _⟩ := t
  cases isCompacted <;> simp

/-- The index has been flushed when it is appended, so it is appended as it stands. -/
theorem saveTo_eq (S : Sorter) (h : HistoryIndex) :
    h.saveTo S = ({ h with index := (h.index.saveTo S).1 },
      kHistoryMagic ++ leBytes 4 h.turns.length ++ leBytes 4 h.index.docCount.toNat ++
        h.turns.flatMap writeTurn ++ (h.index.saveTo S).2) := by
  have hcount : (h.index.saveTo S).1.docCount = h.index.docCount := by
    rw [InvertedIndex.docCount, (h.index.sameDocs_saveTo S).keys, InvertedIndex.docCount]
  have hsize : (h.index.saveBlobSize S).1 = (h.index.saveTo S).1 := rfl
  rw [saveTo, hsize, InvertedIndex.saveTo_saveTo, hcount]

theorem readHeader_saveTo (S : Sorter) (turns : h.turns.length < 2 ^ 32)
    (texts : ∀ t ∈ h.turns, t.text.length < 2 ^ 32) :
    readHeader (h.saveTo S).2 = some (h.turns, h.index.docCount.toNat, (h.index.saveTo S).2) := by
  have hmagic : Reads (take 6) kHistoryMagic kHistoryMagic := reads_take kHistoryMagic
  have hturns : Reads (field 4) (leBytes 4 h.turns.length) h.turns.length :=
    reads_field (by omega)
  have hdocs : Reads (field 4) (leBytes 4 h.index.docCount.toNat) h.index.docCount.toNat :=
    reads_field (by omega)
  have hlist : Reads (times readTurn h.turns.length) (h.turns.flatMap writeTurn) h.turns := by
    simpa using reads_times (f := id) fun t ht => reads_readTurn (texts t ht)
  rw [saveTo_eq, readHeader]
  simp only [List.append_assoc, hmagic _, hturns _, hdocs _, hlist _, require_of,
    Option.bind_eq_bind, Option.bind_some, Option.pure_def]

theorem roundTrips (S : Sorter) (settled : h.Settled) (small : (h.saveTo S).1.Small) :
    h.RoundTrips S := by
  have hsmall : (h.index.saveTo S).1.Small := by
    have := small.index
    rwa [saveTo_eq] at this
  have hturns : (h.saveTo S).1.turns = h.turns := by rw [saveTo_eq]
  have hload := InvertedIndex.loadFrom_saveTo S settled.1 hsmall {}
  have hrestores := InvertedIndex.restores_reloaded S settled.2
  have hread := readHeader_saveTo S (hturns ▸ small.turns) (hturns ▸ small.texts)
  have hloaded : loadFrom {} (h.saveTo S).2 =
      ({ turns := h.turns, index := (h.index.saveTo S).1.reloaded S }, true) := by
    rw [loadFrom, hread]
    simp only [hload, hrestores.docCount, beq_self_eq_true, Bool.and_self, if_true]
  refine ⟨?_, ?_, ?_, ?_⟩
  · rw [hloaded]
  · rw [hloaded]
  · rw [hloaded, saveTo_eq]
    exact hrestores
  · rw [hloaded, saveTo_eq, saveTo_eq, InvertedIndex.saveTo_reloaded, hrestores.docCount]
    rfl

end HistoryIndex

/-- Every index and every history index reached by calls that touch no cached term survives
the round trip, as long as what is written fits 32 bits. A lookup made before the flush
also agrees, when lookups are current and no document has two postings of the term. -/
theorem roundTrips_run (S : Sorter) (tokenize : Bytes → List Term) :
    (∀ ops, Meets (InvertedIndex.step S) InvertedIndex.CacheStepOk {} ops →
      let idx := run (InvertedIndex.step S) {} ops
      (idx.saveTo S).1.Small →
        idx.RoundTrips S ∧
        (Meets (InvertedIndex.step S) InvertedIndex.LookupStepOk {} (ops ++ [.saveTo]) →
          ∀ t, ((idx.held t).map PostingsEntry.docId).Nodup →
            ((InvertedIndex.loadFrom {} (idx.saveTo S).2).1.getPostings S t).2 =
              (idx.getPostings S t).2)) ∧
    (∀ ops, Meets (HistoryIndex.step S tokenize) (HistoryIndex.CacheStepOk S tokenize) {} ops →
      let h := run (HistoryIndex.step S tokenize) {} ops
      (h.saveTo S).1.Small → h.RoundTrips S) := by
  constructor
  · intro ops ok idx small
    have hrecorded : idx.Recorded := run_invariant (fun _ op hr => hr.step S op) (by
      intro seg hseg
      cases hseg) ops
    have hcurrent : idx.CacheCurrent := ok.invariant (fun _ _ hc hok => hc.step S hok)
      (InvertedIndex.cacheCurrent_of_empty rfl)
    have htrip := InvertedIndex.roundTrips S hrecorded hcurrent small
    refine ⟨htrip, ?_⟩
    intro hops t distinct
    obtain ⟨hlookup, hfits, -⟩ := meets_append.mp hops
    have hsound : idx.Sound :=
      hlookup.invariant (fun _ _ hs hok => hs.step S hok) InvertedIndex.sound_empty
    rw [htrip.restored.postings, hsound.getPostings_saveTo S hfits distinct]
  · intro ops ok h small
    refine HistoryIndex.roundTrips S ?_ small
    exact ok.invariant (fun _ _ hs hok => hs.step S hok) (HistoryIndex.settled_reset {})

/-- A turn replaced while pending and a query between flushes. -/
theorem roundTrips_run_replaced :
    let tokenize := fun text : Bytes => text.map fun b => [b]
    let ops : List HistoryOp :=
      [.appendTurns [{ turnId := 1, text := [65, 66] }, { turnId := 2, text := [66] }],
        .search [65] 5, .markCompacted, .appendTurns [{ turnId := 4, text := [67] }],
        .appendTurns [{ turnId := 4, text := [68, 65] }], .search [65, 67] 5]
    Meets (HistoryIndex.step .insertion tokenize) (HistoryIndex.CacheStepOk .insertion tokenize) {}
        ops ∧
      (run (HistoryIndex.step .insertion tokenize) {} ops).RoundTrips .insertion := by
  intro tokenize ops
  have ok : Meets (HistoryIndex.step .insertion tokenize)
      (HistoryIndex.CacheStepOk .insertion tokenize) {} ops := by decide
  exact ⟨ok, (roundTrips_run .insertion tokenize).2 ops ok (by decide)⟩

/-- A document whose pending postings were in a cached merge is replaced by an empty one. The
delta is empty again, so saving clears nothing: the saved index still answers with the
document, and the loaded one does not. -/
theorem not_roundTrips_cached :
    let idx := run (InvertedIndex.step .insertion) {}
      [.addDocument 1 [[65]], .finalize, .addDocument 3 [[65]], .finalize, .addDocument 2 [[65]],
        .getPostings [65], .addDocument 2 []]
    (idx.saveTo .insertion).1.Small ∧ ¬idx.RoundTrips .insertion := by
  intro idx
  refine ⟨by decide, fun h => ?_⟩
  exact absurd (h.restored.postings [65]) (by decide)

end KimixNative.Index
