import KimixNative.Index.Lookup

/-!
# Saving an index and loading it back

`save_to` flushes the delta and writes the documents in the order of their ids and the
segments as they stand; `load_from` rebuilds the hash maps from the arrays. A segment is
`Stored` when its arrays determine it. Every segment of a reachable index is, unless its
postings have outgrown their 32-bit offsets, so what is read back has the same segments,
and the same documents up to the order of the map.

The merge cache is not stored. It agrees with the segments as long as no document touches
a term whose merge is cached.
-/

namespace KimixNative.Index

open Reader

/-! ## Segments -/

variable {seg : Segment}

namespace Segment

/-- The row numbers of the terms of a segment, as a loader assigns them. -/
def numbered (keys : List Term) : Table Term (BitVec 32) :=
  Table.ofList (keys.zipIdx.map fun p => (p.1, BitVec.ofNat 32 p.2))

/-- A segment that its arrays determine. -/
structure Stored (seg : Segment) : Prop where
  offsets : seg.termOffsets.length = seg.termKeys.length + 1
  rising : (seg.termOffsets.map BitVec.toNat).IsChain (· ≤ ·)
  last : seg.totalPostings.toNat = seg.postings.length
  index : seg.termIndex = numbered seg.termKeys

/-- Every array of the segment, and every term, can be counted in 32 bits. -/
structure Small (seg : Segment) : Prop where
  keys : ∀ key ∈ seg.termKeys, key.length < 2 ^ 32
  offsets : seg.termOffsets.length < 2 ^ 32
  postings : seg.postings.length < 2 ^ 32

instance (seg : Segment) : Decidable seg.Small :=
  decidable_of_iff (_ ∧ _ ∧ _) ⟨fun ⟨a, b, c⟩ => ⟨a, b, c⟩, fun ⟨a, b, c⟩ => ⟨a, b, c⟩⟩

theorem numbered_concat (keys : List Term) (key : Term) :
    numbered (keys ++ [key]) =
      (numbered keys).emplaceAll [(key, BitVec.ofNat 32 keys.length)] := by
  rw [numbered, List.zipIdx_append, List.map_append, Table.ofList, Table.emplaceAll_append]
  simp [numbered, Table.ofList]

theorem termIndex_foldl (h : seg.termIndex = numbered seg.termKeys) (rows : List (Term × Postings)) :
    (rows.foldl appendRow seg).termIndex = numbered (rows.foldl appendRow seg).termKeys := by
  induction rows generalizing seg with
  | nil => exact h
  | cons r rest ih =>
    refine ih ?_
    simp only [appendRow]
    rw [numbered_concat, h]

variable {rows : List (Term × Postings)}

theorem Built.rising (h : seg.Built rows) (fits : rowPostings rows < 2 ^ 32) :
    (seg.termOffsets.map BitVec.toNat).IsChain (· ≤ ·) := by
  refine List.isChain_iff_getElem.mpr ?_
  intro i hi
  rw [List.length_map, h.offsets_length] at hi
  have hoff : ∀ j ≤ rows.length, ∀ hj : j < (seg.termOffsets.map BitVec.toNat).length,
      (seg.termOffsets.map BitVec.toNat)[j] = rowPostings (rows.take j) := by
    intro j hj hlt
    have hle : rowPostings (rows.take j) ≤ rowPostings rows := by
      conv_rhs => rw [← List.take_append_drop j rows]
      rw [rowPostings_append]
      omega
    have hget := h.offsets j hj
    rw [List.length_map] at hlt
    rw [List.getElem?_eq_getElem hlt, Option.some_inj] at hget
    rw [List.getElem_map, hget, BitVec.toNat_ofNat, Nat.mod_eq_of_lt (by omega)]
  rw [hoff i (by omega), hoff (i + 1) (by omega), List.take_add_one, rowPostings_append]
  omega

/-- The last offset counts the postings, cut to 32 bits. -/
theorem Built.totalPostings (h : seg.Built rows) :
    seg.totalPostings = BitVec.ofNat 32 (rowPostings rows) := by
  have hget := h.offsets rows.length (le_refl _)
  rw [Segment.totalPostings, List.getLastD_eq_getLast?, List.getLast?_eq_getElem?,
    h.offsets_length, Nat.add_sub_cancel, hget, List.take_length, Option.getD_some]

theorem Built.last {seg : Segment} {rows : List (Term × Postings)} (h : seg.Built rows)
    (fits : rowPostings rows < 2 ^ 32) : seg.totalPostings.toNat = seg.postings.length := by
  rw [h.totalPostings, BitVec.toNat_ofNat, Nat.mod_eq_of_lt fits, h.postings]
  rfl

end Segment

/-- What a flush or a compaction builds is stored, as long as its offsets fit. -/
theorem stored_buildSegmentFromRows (S : Sorter) (rows : List (Term × Postings))
    (fits : (buildSegmentFromRows S rows).postings.length < 2 ^ 32) :
    (buildSegmentFromRows S rows).Stored := by
  have hb := Segment.built_foldl Segment.built_nil
    (S.sort (fun a b => decide (termKey a.1 < termKey b.1)) rows)
  rw [List.nil_append] at hb
  have hfits : rowPostings (S.sort (fun a b => decide (termKey a.1 < termKey b.1)) rows) < 2 ^ 32 := by
    rw [buildSegmentFromRows, hb.postings] at fits
    exact fits
  refine ⟨?_, hb.rising hfits, hb.last hfits, Segment.termIndex_foldl rfl _⟩
  rw [buildSegmentFromRows, hb.offsets_length, hb.keys, List.length_map]

variable {idx : InvertedIndex}

namespace InvertedIndex

theorem reads_readTerm {key : Term} (h : key.length < 2 ^ 32) :
    Reads readTerm (leBytes 4 key.length ++ key) key := by
  intro rest
  rw [readTerm, List.append_assoc, reads_field (by omega)]
  exact reads_take key rest

theorem reads_readOffset (off : BitVec 32) : Reads readOffset (leBytes 4 off.toNat) off := by
  intro rest
  rw [readOffset, reads_field (by omega)]
  simp

theorem reads_readPosting (e : PostingsEntry) : Reads readPosting (writePosting e) e := by
  intro rest
  rw [readPosting, writePosting, List.append_assoc, reads_field (by omega)]
  simp only [Option.bind_eq_bind, Option.bind_some]
  rw [reads_field (by omega)]
  simp

/-- A stored segment is read back as it was. -/
theorem reads_readSegment (h : seg.Stored) (small : seg.Small) :
    Reads readSegment (writeSegment seg) seg := by
  intro rest
  have hoff := h.offsets
  have hsmall := small.offsets
  have hpost := small.postings
  have hcount : Reads (field 4) (leBytes 4 seg.termKeys.length) seg.termKeys.length :=
    reads_field (by omega)
  have hkeys : Reads (times readTerm seg.termKeys.length)
      (seg.termKeys.flatMap fun key => leBytes 4 key.length ++ key) seg.termKeys := by
    simpa using reads_times (f := id) fun key hkey => reads_readTerm (small.keys key hkey)
  have hoffsets : Reads (times readOffset (seg.termKeys.length + 1))
      (seg.termOffsets.flatMap fun off => leBytes 4 off.toNat) seg.termOffsets := by
    simpa [hoff] using reads_times (l := seg.termOffsets) (f := id) fun off _ => reads_readOffset off
  have htotal : Reads (field 4) (leBytes 4 seg.totalPostings.toNat) seg.postings.length := by
    rw [h.last]
    exact reads_field (by omega)
  have hpostings : Reads (times readPosting seg.postings.length)
      (seg.postings.flatMap writePosting) seg.postings := by
    simpa using reads_times (l := seg.postings) (f := id) fun e _ => reads_readPosting e
  rw [readSegment, writeSegment]
  simp only [List.append_assoc, hcount _, hkeys _, hoffsets _, htotal _, hpostings _,
    Option.bind_eq_bind, Option.bind_some, require_of h.rising,
    require_of (show seg.termKeys.length + 1 ≠ 2 ^ 32 by omega),
    require_of (show seg.postings.length = (seg.termOffsets.getLastD 0).toNat from h.last.symm)]
  rw [← Segment.numbered, ← h.index]
  rfl

/-- A segment that was read is stored. -/
theorem readSegment_stored {input rest : Bytes} (h : readSegment input = some (seg, rest)) :
    seg.Stored := by
  simp only [readSegment, Option.bind_eq_bind, Option.bind_eq_some_iff, Option.pure_def,
    Option.some.injEq, Prod.mk.injEq, require_eq_some] at h
  obtain ⟨⟨termCount, _⟩, -, -, -, ⟨termKeys, _⟩, hkeys, ⟨termOffsets, _⟩, hoffsets, -, hrising,
    ⟨postingsCount, _⟩, -, -, hlast, ⟨postings, _⟩, hpostings, rfl, -⟩ := h
  refine ⟨?_, hrising, ?_, rfl⟩
  · simp only
    rw [length_times hkeys, length_times hoffsets]
  · simp only [Segment.totalPostings]
    rw [length_times hpostings]
    exact hlast.symm

/-! ## The whole blob -/

/-- `doc_count`. -/
def docCount (idx : InvertedIndex) : BitVec 32 := BitVec.ofNat 32 idx.docMeta.keys.length

/-- `doc_length`. -/
def docLength (idx : InvertedIndex) (docId : DocId) : BitVec 32 :=
  ((idx.docMeta.find? docId).getD {}).length

/-- Every count that is written fits its field. -/
structure Small (idx : InvertedIndex) : Prop where
  docs : idx.docMeta.keys.length < 2 ^ 32
  segments : idx.segments.length < 2 ^ 32
  segment : ∀ seg ∈ idx.segments, seg.Small

instance (idx : InvertedIndex) : Decidable idx.Small :=
  decidable_of_iff (_ ∧ _ ∧ _) ⟨fun ⟨a, b, c⟩ => ⟨a, b, c⟩, fun ⟨a, b, c⟩ => ⟨a, b, c⟩⟩

/-- The documents in the order they are written in. -/
def sortedIds (S : Sorter) (idx : InvertedIndex) : List DocId :=
  S.sort (fun a b => decide (BitVec.toNat a < BitVec.toNat b)) idx.docMeta.keys

/-- The documents as they are read back. -/
def storedDocs (S : Sorter) (idx : InvertedIndex) : List (DocId × DocMeta) :=
  (idx.sortedIds S).map fun id => (id, { length := idx.docLength id, inSegment := true })

theorem mem_sortedIds {S : Sorter} {id : DocId} :
    id ∈ idx.sortedIds S ↔ ∃ m, idx.docMeta.find? id = some m :=
  S.mem_sort.trans Table.mem_keys

theorem find?_storedDocs (S : Sorter) (idx : InvertedIndex) (id : DocId) :
    (Table.ofList (idx.storedDocs S)).find? id =
      (idx.docMeta.find? id).map fun m => { length := m.length, inSegment := true } := by
  have hnodup : ((idx.storedDocs S).map Prod.fst).Nodup := by
    rw [storedDocs, List.map_map]
    simp only [Function.comp_def, List.map_id']
    exact (S.perm _ _).nodup_iff.mpr (Table.keys_nodup idx.docMeta)
  refine Option.ext fun m => ?_
  rw [Table.find?_ofList_eq_some hnodup, storedDocs, List.mem_map, Option.map_eq_some_iff]
  constructor
  · rintro ⟨id', hid, heq⟩
    obtain ⟨rfl, rfl⟩ := Prod.mk.inj heq
    obtain ⟨m, hm⟩ := mem_sortedIds.mp hid
    exact ⟨m, hm, by simp [docLength, hm]⟩
  · rintro ⟨m, hm, rfl⟩
    exact ⟨id, mem_sortedIds.mpr ⟨m, hm⟩, by simp [docLength, hm]⟩

theorem keys_storedDocs_perm (S : Sorter) (idx : InvertedIndex) :
    (Table.ofList (idx.storedDocs S)).keys.Perm idx.docMeta.keys := by
  refine (List.perm_ext_iff_of_nodup (Table.keys_nodup _) (Table.keys_nodup _)).mpr ?_
  intro id
  rw [Table.mem_keys, Table.mem_keys, find?_storedDocs]
  simp

/-- What a blob is read back as. -/
def reloaded (S : Sorter) (idx : InvertedIndex) : InvertedIndex where
  docMeta := Table.ofList (idx.storedDocs S)
  segments := idx.segments
  maxDocId := idx.maxDocId
  sumDocLengths := idx.sumDocLengths
  finalized := true

theorem reads_readDoc (id : DocId) (len : BitVec 32) :
    Reads readDoc (leBytes 4 id.toNat ++ leBytes 4 len.toNat)
      (id, { length := len, inSegment := true }) := by
  intro rest
  rw [readDoc, List.append_assoc, reads_field (by omega)]
  simp only [Option.bind_eq_bind, Option.bind_some]
  rw [reads_field (by omega)]
  simp

end InvertedIndex

/-- The contents of a blob, in the order they are laid out in. -/
structure BlobLayout where
  docs : List (DocId × BitVec 32)
  maxDocId : DocId
  sumDocLengths : BitVec 64
  segments : List Segment
  trailing : Bytes

namespace BlobLayout

def docBytes (doc : DocId × BitVec 32) : Bytes := leBytes 4 doc.1.toNat ++ leBytes 4 doc.2.toNat

def bytes (l : BlobLayout) : Bytes :=
  InvertedIndex.kMagic ++ leBytes 4 l.docs.length ++ leBytes 4 l.maxDocId.toNat ++
  leBytes 8 l.sumDocLengths.toNat ++ leBytes 4 l.docs.length ++ l.docs.flatMap docBytes ++
  leBytes 4 l.segments.length ++ l.segments.flatMap InvertedIndex.writeSegment ++ l.trailing

/-- Every count fits its field, and every segment is determined by its arrays. -/
structure WellFormed (l : BlobLayout) : Prop where
  docs : l.docs.length < 2 ^ 32
  segments : l.segments.length < 2 ^ 32
  small : ∀ seg ∈ l.segments, seg.Small
  stored : ∀ seg ∈ l.segments, seg.Stored

/-- A loaded document belongs to the immutable blob. -/
def docEntry (doc : DocId × BitVec 32) : DocId × DocMeta :=
  (doc.1, { length := doc.2, inSegment := true })

/-- The index a blob describes. -/
def index (l : BlobLayout) : InvertedIndex where
  docMeta := Table.ofList (l.docs.map docEntry)
  segments := l.segments
  maxDocId := l.maxDocId
  sumDocLengths := l.sumDocLengths
  finalized := true

theorem readBlob_bytes {l : BlobLayout} (h : l.WellFormed) :
    InvertedIndex.readBlob l.bytes = some l.index := by
  have hmagic : Reads (take 6) InvertedIndex.kMagic InvertedIndex.kMagic :=
    reads_take InvertedIndex.kMagic
  have hcount : Reads (field 4) (leBytes 4 l.docs.length) l.docs.length :=
    reads_field (by have := h.docs; omega)
  have hmax : Reads (field 4) (leBytes 4 l.maxDocId.toNat) l.maxDocId.toNat :=
    reads_field (by omega)
  have hsum : Reads (field 8) (leBytes 8 l.sumDocLengths.toNat) l.sumDocLengths.toNat :=
    reads_field (by omega)
  have hmeta : Reads (times InvertedIndex.readDoc l.docs.length) (l.docs.flatMap docBytes)
      (l.docs.map docEntry) :=
    reads_times fun doc _ => InvertedIndex.reads_readDoc doc.1 doc.2
  have hsegs : Reads (field 4) (leBytes 4 l.segments.length) l.segments.length :=
    reads_field (by have := h.segments; omega)
  have hsegments : Reads (times InvertedIndex.readSegment l.segments.length)
      (l.segments.flatMap InvertedIndex.writeSegment) l.segments := by
    simpa using reads_times (f := id) fun seg hseg =>
      InvertedIndex.reads_readSegment (h.stored seg hseg) (h.small seg hseg)
  rw [bytes, InvertedIndex.readBlob]
  simp only [List.append_assoc, hmagic _, hcount _, hmax _, hsum _, hmeta _, hsegs _, hsegments _,
    Option.bind_eq_bind, Option.bind_some, Option.pure_def, require]
  simp [index]

end BlobLayout

namespace InvertedIndex

theorem writeBlob_eq (S : Sorter) (idx : InvertedIndex) :
    idx.writeBlob S = kMagic ++ leBytes 4 idx.docMeta.keys.length ++
      leBytes 4 idx.maxDocId.toNat ++ leBytes 8 idx.sumDocLengths.toNat ++
      leBytes 4 idx.docMeta.keys.length ++
      (idx.sortedIds S).flatMap (fun id =>
        leBytes 4 id.toNat ++ leBytes 4 (idx.docLength id).toNat) ++
      leBytes 4 idx.segments.length ++ idx.segments.flatMap writeSegment := rfl

/-- What is laid out when an index is written. -/
def layout (S : Sorter) (idx : InvertedIndex) : BlobLayout where
  docs := (idx.sortedIds S).map fun id => (id, idx.docLength id)
  maxDocId := idx.maxDocId
  sumDocLengths := idx.sumDocLengths
  segments := idx.segments
  trailing := []

theorem bytes_layout (S : Sorter) (idx : InvertedIndex) :
    (idx.layout S).bytes = idx.writeBlob S := by
  have hlen : (idx.sortedIds S).length = idx.docMeta.keys.length := (S.perm _ _).length_eq
  simp only [writeBlob_eq, BlobLayout.bytes, layout, List.length_map, hlen, List.flatMap_map,
    BlobLayout.docBytes, List.append_nil]

theorem index_layout (S : Sorter) (idx : InvertedIndex) :
    (idx.layout S).index = idx.reloaded S := by
  simp only [BlobLayout.index, layout, reloaded, storedDocs, List.map_map]
  rfl

theorem readBlob_writeBlob (S : Sorter) (small : idx.Small)
    (stored : ∀ seg ∈ idx.segments, seg.Stored) :
    readBlob (idx.writeBlob S) = some (idx.reloaded S) := by
  have hdocs : (idx.layout S).docs.length < 2 ^ 32 := by
    rw [layout, List.length_map, sortedIds, (S.perm _ _).length_eq]
    exact small.docs
  rw [← bytes_layout, ← index_layout]
  exact BlobLayout.readBlob_bytes ⟨hdocs, small.segments, small.segment, stored⟩

theorem docLength_reloaded (S : Sorter) (idx : InvertedIndex) (id : DocId) :
    (idx.reloaded S).docLength id = idx.docLength id := by
  simp only [docLength, reloaded, find?_storedDocs]
  cases idx.docMeta.find? id with
  | none => rfl
  | some m => rfl

/-- Written again, what was read back gives the same bytes: the order of the map is lost and
the order of the ids restores it. -/
theorem writeBlob_reloaded (S : Sorter) (idx : InvertedIndex) :
    (idx.reloaded S).writeBlob S = idx.writeBlob S := by
  have hperm := idx.keys_storedDocs_perm S
  have hlen : (idx.reloaded S).docMeta.keys.length = idx.docMeta.keys.length := hperm.length_eq
  have hids : (idx.reloaded S).sortedIds S = idx.sortedIds S :=
    S.sort_eq_of_perm (fun a b => decide_eq_true_iff) (fun a b => BitVec.eq_of_toNat_eq) hperm
  rw [writeBlob_eq, writeBlob_eq, hlen, hids]
  simp only [docLength_reloaded]
  rfl

end InvertedIndex

end KimixNative.Index
