import KimixNative.Index.BlobRuns

/-!
# Loading arbitrary bytes

`load_from` accepts exactly the blobs, and every row of a segment it has read lies inside
the postings of the segment. It parses into locals and returns before it touches a member,
so what a refused blob leaves behind is the index as it was: it is reset only if it had
nothing to lose.
-/

namespace KimixNative.Index

open Reader

/-- The bytes are a KNIDX1 blob. -/
def IsBlob (blob : Bytes) : Prop := ∃ l : BlobLayout, l.WellFormed ∧ blob = l.bytes

variable {blob : Bytes} {seg : Segment}

namespace InvertedIndex

/-! ## What the readers accept -/

theorem toNat_ofNat_field {x : Nat} (h : x < 256 ^ 4) : (BitVec.ofNat 32 x).toNat = x :=
  BitVec.toNat_ofNat x 32 ▸ Nat.mod_eq_of_lt h

theorem accepts_readDoc : Accepts readDoc
    (fun doc => BlobLayout.docBytes (doc.1, doc.2.length))
    fun doc => BlobLayout.docEntry (doc.1, doc.2.length) = doc := by
  intro input doc rest h
  simp only [readDoc, Option.bind_eq_bind, Option.bind_eq_some_iff, Option.pure_def,
    Option.some.injEq, Prod.mk.injEq] at h
  obtain ⟨⟨id, _⟩, hid, ⟨len, _⟩, hlen, rfl, rfl⟩ := h
  obtain ⟨hidLt, rfl⟩ := accepts_field 4 hid
  obtain ⟨hlenLt, rfl⟩ := accepts_field 4 hlen
  refine ⟨rfl, ?_⟩
  simp only [BlobLayout.docBytes, toNat_ofNat_field hidLt, toNat_ofNat_field hlenLt,
    List.append_assoc]

theorem accepts_readTerm : Accepts readTerm (fun key => leBytes 4 key.length ++ key)
    fun key => key.length < 2 ^ 32 := by
  intro input key rest h
  simp only [readTerm, Option.bind_eq_bind, Option.bind_eq_some_iff] at h
  obtain ⟨⟨len, _⟩, hlen, hkey⟩ := h
  obtain ⟨hlenLt, rfl⟩ := accepts_field 4 hlen
  obtain ⟨rfl, rfl⟩ := accepts_take len hkey
  exact ⟨hlenLt, (List.append_assoc _ _ _).symm⟩

theorem accepts_readOffset : Accepts readOffset (fun off => leBytes 4 off.toNat)
    fun _ => True := by
  intro input off rest h
  simp only [readOffset, Option.bind_eq_bind, Option.bind_eq_some_iff, Option.pure_def,
    Option.some.injEq, Prod.mk.injEq] at h
  obtain ⟨⟨n, _⟩, hn, rfl, rfl⟩ := h
  obtain ⟨hnLt, rfl⟩ := accepts_field 4 hn
  refine ⟨trivial, ?_⟩
  simp only [toNat_ofNat_field hnLt]

theorem accepts_readPosting : Accepts readPosting writePosting fun _ => True := by
  intro input e rest h
  simp only [readPosting, Option.bind_eq_bind, Option.bind_eq_some_iff, Option.pure_def,
    Option.some.injEq, Prod.mk.injEq] at h
  obtain ⟨⟨id, _⟩, hid, ⟨tf, _⟩, htf, rfl, rfl⟩ := h
  obtain ⟨hidLt, rfl⟩ := accepts_field 4 hid
  obtain ⟨htfLt, rfl⟩ := accepts_field 4 htf
  refine ⟨trivial, ?_⟩
  simp only [writePosting, toNat_ofNat_field hidLt, toNat_ofNat_field htfLt, List.append_assoc]

theorem accepts_readSegment :
    Accepts readSegment writeSegment fun seg => seg.Small ∧ seg.Stored := by
  intro input seg rest h
  have hstored := readSegment_stored h
  simp only [readSegment, Option.bind_eq_bind, Option.bind_eq_some_iff, Option.pure_def,
    Option.some.injEq, Prod.mk.injEq, require_eq_some] at h
  obtain ⟨⟨termCount, _⟩, hcount, _, hbound, ⟨termKeys, _⟩, hkeys, ⟨termOffsets, _⟩, hoffsets, _,
    hrising, ⟨postingsCount, _⟩, htotal, _, hlast, ⟨postings, _⟩, hpostings, rfl, rfl⟩ := h
  obtain ⟨hcountLt, rfl⟩ := accepts_field 4 hcount
  obtain ⟨⟨rfl, hkeysLt⟩, rfl⟩ := accepts_times accepts_readTerm termCount hkeys
  obtain ⟨⟨hoffsetsLen, -⟩, rfl⟩ := accepts_times accepts_readOffset _ hoffsets
  obtain ⟨htotalLt, rfl⟩ := accepts_field 4 htotal
  obtain ⟨⟨rfl, -⟩, rfl⟩ := accepts_times accepts_readPosting postingsCount hpostings
  refine ⟨⟨⟨hkeysLt, ?_, htotalLt⟩, hstored⟩, ?_⟩
  · simp only
    omega
  · simp only [writeSegment, Segment.totalPostings]
    rw [← hlast]
    simp only [List.append_assoc]

/-- The loader accepts exactly the blobs, and reads what they describe. -/
theorem readBlob_eq_some_iff {loaded : InvertedIndex} :
    readBlob blob = some loaded ↔
      ∃ l : BlobLayout, l.WellFormed ∧ blob = l.bytes ∧ loaded = l.index := by
  constructor
  · intro h
    simp only [readBlob, Option.bind_eq_bind, Option.bind_eq_some_iff, Option.pure_def,
      Option.some.injEq, require_eq_some] at h
    obtain ⟨⟨magic, _⟩, hmagic, _, hkMagic, ⟨docCount, _⟩, hcount, ⟨maxDocId, _⟩, hmax,
      ⟨sumLengths, _⟩, hsum, ⟨metaCount, _⟩, hmeta, _, hsame, ⟨docs, _⟩, hdocs, ⟨segCount, _⟩,
      hsegs, ⟨segments, trailing⟩, hsegments, rfl⟩ := h
    obtain ⟨-, rfl⟩ := accepts_take 6 hmagic
    obtain ⟨hcountLt, rfl⟩ := accepts_field 4 hcount
    obtain ⟨hmaxLt, rfl⟩ := accepts_field 4 hmax
    obtain ⟨hsumLt, rfl⟩ := accepts_field 8 hsum
    obtain ⟨hmetaLt, rfl⟩ := accepts_field 4 hmeta
    obtain ⟨⟨rfl, hentries⟩, rfl⟩ := accepts_times accepts_readDoc metaCount hdocs
    obtain ⟨hsegsLt, rfl⟩ := accepts_field 4 hsegs
    obtain ⟨⟨rfl, hstored⟩, rfl⟩ := accepts_times accepts_readSegment segCount hsegments
    let l : BlobLayout :=
      { docs := docs.map fun doc => (doc.1, doc.2.length)
        maxDocId := BitVec.ofNat 32 maxDocId
        sumDocLengths := BitVec.ofNat 64 sumLengths
        segments
        trailing }
    have hdocEntries : l.docs.map BlobLayout.docEntry = docs := by
      simp only [l, List.map_map]
      exact (List.map_congr_left hentries).trans (List.map_id docs)
    have hdocBytes : l.docs.flatMap BlobLayout.docBytes =
        docs.flatMap fun doc => BlobLayout.docBytes (doc.1, doc.2.length) := by
      simp only [l, List.flatMap_map]
    have hdocCount : l.docs.length = docs.length := List.length_map _
    refine ⟨l, ⟨?_, hsegsLt, fun seg hseg => (hstored seg hseg).1,
      fun seg hseg => (hstored seg hseg).2⟩, ?_, ?_⟩
    · rw [hdocCount]
      exact hmetaLt
    · rw [BlobLayout.bytes, hdocBytes, hdocCount]
      simp only at hkMagic hsame
      simp only [l, hkMagic, ← hsame, toNat_ofNat_field hmaxLt, BitVec.toNat_ofNat,
        Nat.mod_eq_of_lt (show sumLengths < 2 ^ 64 from hsumLt), List.append_assoc, id_eq]
    · rw [BlobLayout.index, hdocEntries]
  · rintro ⟨l, h, rfl, rfl⟩
    exact BlobLayout.readBlob_bytes h

theorem isSome_readBlob : (readBlob blob).isSome ↔ IsBlob blob := by
  simp only [Option.isSome_iff_exists, readBlob_eq_some_iff]
  constructor
  · rintro ⟨loaded, l, hl, hblob, -⟩
    exact ⟨l, hl, hblob⟩
  · rintro ⟨l, hl, hblob⟩
    exact ⟨l.index, l, hl, hblob, rfl⟩

end InvertedIndex

/-! ## Rows -/

/-- Every row is cut out inside the postings. -/
def Segment.RowsInside (seg : Segment) : Prop :=
  ∀ r < seg.termKeys.length, ∃ start stop, seg.termOffsets[r]? = some start ∧
    seg.termOffsets[r + 1]? = some stop ∧ start.toNat ≤ stop.toNat ∧
    stop.toNat ≤ seg.postings.length

/-- `term_offsets[i]`. -/
def Segment.offset (seg : Segment) (i : Nat) : Nat := (seg.termOffsets.getD i 0).toNat

theorem Segment.offset_eq {i : Nat} (hi : i < seg.termOffsets.length) :
    seg.offset i = seg.termOffsets[i].toNat := by
  rw [offset, List.getD_eq_getElem?_getD, List.getElem?_eq_getElem hi, Option.getD_some]

theorem Segment.offset_mono (rising : (seg.termOffsets.map BitVec.toNat).IsChain (· ≤ ·))
    {i j : Nat} (hij : i ≤ j) (hj : j < seg.termOffsets.length) : seg.offset i ≤ seg.offset j := by
  have hpair := List.pairwise_map.mp (List.isChain_iff_pairwise.mp rising)
  have hi : i < seg.termOffsets.length := by omega
  rw [offset_eq hi, offset_eq hj]
  obtain rfl | hlt := Nat.eq_or_lt_of_le hij
  · exact le_refl _
  · exact List.pairwise_iff_getElem.mp hpair i j hi hj hlt

theorem Segment.offset_last (offsets : seg.termOffsets.length = seg.termKeys.length + 1) :
    seg.offset seg.termKeys.length = seg.totalPostings.toNat := by
  rw [offset, totalPostings, List.getLastD_eq_getLast?, List.getLast?_eq_getElem?, offsets,
    Nat.add_sub_cancel, List.getD_eq_getElem?_getD]

/-- The offsets do not fall and the last one counts the postings. -/
theorem Segment.Stored.rowsInside (h : seg.Stored) : seg.RowsInside := by
  intro r hr
  have hlen := h.offsets
  have hstart : r < seg.termOffsets.length := by omega
  have hstop : r + 1 < seg.termOffsets.length := by omega
  have hle := offset_mono h.rising (Nat.le_succ r) hstop
  have hlast := offset_mono h.rising (show r + 1 ≤ seg.termKeys.length from hr) (by omega)
  rw [offset_eq hstart, offset_eq hstop] at hle
  rw [offset_eq hstop, offset_last h.offsets, h.last] at hlast
  exact ⟨_, _, List.getElem?_eq_getElem hstart, List.getElem?_eq_getElem hstop, hle, hlast⟩

namespace InvertedIndex

/-! ## The contract -/

/-- What a reset index shows. -/
structure Cleared (S : Sorter) (idx : InvertedIndex) : Prop where
  docCount : idx.docCount = 0
  postings : ∀ t, (idx.getPostings S t).2 = []
  finalized : idx.finalized = false

/-- A refusal leaves the index reset, and what was accepted can be read. -/
structure LoadContract (S : Sorter) (idx : InvertedIndex) (blob : Bytes) : Prop where
  refused : (idx.loadFrom blob).2 = false → (idx.loadFrom blob).1.Cleared S
  accepted : (idx.loadFrom blob).2 = true →
    ∀ seg ∈ (idx.loadFrom blob).1.segments, seg.RowsInside

theorem loadFrom_of_refused (h : ¬IsBlob blob) (idx : InvertedIndex) :
    idx.loadFrom blob = (idx, false) := by
  rw [← isSome_readBlob, Option.not_isSome_iff_eq_none] at h
  rw [loadFrom, h]

theorem loadFrom_of_isBlob (h : IsBlob blob) (idx : InvertedIndex) :
    ∃ l : BlobLayout, l.WellFormed ∧ blob = l.bytes ∧ idx.loadFrom blob = (l.index, true) := by
  obtain ⟨l, hl, rfl⟩ := h
  refine ⟨l, hl, rfl, ?_⟩
  rw [loadFrom, BlobLayout.readBlob_bytes hl]

/-- The contract holds for every blob. For bytes that are none it holds only if the index
had been reset before. -/
theorem loadContract_iff (S : Sorter) (idx : InvertedIndex) (blob : Bytes) :
    idx.LoadContract S blob ↔ IsBlob blob ∨ idx.Cleared S := by
  by_cases hblob : IsBlob blob
  · obtain ⟨l, hl, -, hload⟩ := loadFrom_of_isBlob hblob idx
    refine iff_of_true ⟨?_, ?_⟩ (Or.inl hblob)
    · rw [hload]
      intro hrefused
      cases hrefused
    · rw [hload]
      intro _ seg hseg
      exact (hl.stored seg hseg).rowsInside
  · have hload := loadFrom_of_refused hblob idx
    constructor
    · intro h
      have hcleared := h.refused
      rw [hload] at hcleared
      exact Or.inr (hcleared rfl)
    · intro h
      have hcleared := h.resolve_left hblob
      refine ⟨?_, ?_⟩
      · rw [hload]
        exact fun _ => hcleared
      · rw [hload]
        intro haccepted
        cases haccepted

/-- The empty string is refused, and the document is still there. -/
theorem loadFrom_empty_keeps_document :
    ¬(addDocument {} 7 [[65]]).LoadContract .insertion [] := by
  intro h
  have hcount := (h.refused rfl).docCount
  revert hcount
  decide

end InvertedIndex

end KimixNative.Index
