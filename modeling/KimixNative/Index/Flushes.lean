import KimixNative.Index.LoadContract
import Mathlib.Algebra.Order.BigOperators.Group.List

/-!
# Flushing and compacting

A flush turns the delta into a segment and a compaction merges the segments into one.
Neither loses or duplicates a posting, and the segments they leave are `Consistent`. The
sum of the document lengths is kept by 64-bit additions and subtractions that wrap; it is
the sum of the stored lengths in every state.

What `load_from` accepts is taken at its word: the sum of the lengths, the order of the
terms, the first offset and the order inside a row are read and not checked. The condition
on a loaded blob is therefore that it has these properties.
-/

namespace KimixNative.Index

/-! ## Consistent segments -/

namespace Segment

/-- Terms increase, the offsets cut the postings up, and rows are sorted by document. -/
structure Consistent (seg : Segment) : Prop where
  increasing : seg.termKeys.Pairwise fun a b => termKey a < termKey b
  offsets : seg.termOffsets.length = seg.termKeys.length + 1
  first : seg.offset 0 = 0
  rising : (seg.termOffsets.map BitVec.toNat).IsChain (· ≤ ·)
  last : seg.totalPostings.toNat = seg.postings.length
  sorted : ∀ r ∈ seg.rows, DocSorted r.2

instance (seg : Segment) : Decidable seg.Consistent :=
  decidable_of_iff (_ ∧ _ ∧ _ ∧ _ ∧ _ ∧ _)
    ⟨fun ⟨a, b, c, d, e, f⟩ => ⟨a, b, c, d, e, f⟩, fun ⟨a, b, c, d, e, f⟩ => ⟨a, b, c, d, e, f⟩⟩

theorem row_eq_cut (seg : Segment) (r : Nat) :
    seg.row r = (seg.postings.drop (seg.offset r)).take (seg.offset (r + 1) - seg.offset r) := rfl

theorem flatMap_snd_rows (seg : Segment) :
    seg.rows.flatMap Prod.snd = (List.range seg.termKeys.length).flatMap seg.row := by
  rw [rows, List.flatMap_map, List.range_eq_range', ← List.zipIdx_map_snd 0 seg.termKeys,
    List.flatMap_map]

/-- Two neighbouring cuts make one. -/
theorem take_drop_append {α : Type} (l : List α) {a b c : Nat} (hab : a ≤ b) (hbc : b ≤ c) :
    (l.drop a).take (b - a) ++ (l.drop b).take (c - b) = (l.drop a).take (c - a) := by
  have hsum : c - a = (b - a) + (c - b) := by omega
  have hdrop : (l.drop a).drop (b - a) = l.drop b := by
    rw [List.drop_drop]
    congr 1
    omega
  rw [hsum, List.take_add, hdrop]

variable {seg : Segment}

/-- The rows up to some row, one after the other, are one piece of the postings. -/
theorem flatMap_row_range (rising : (seg.termOffsets.map BitVec.toNat).IsChain (· ≤ ·)) {n : Nat}
    (hn : n < seg.termOffsets.length) :
    (List.range n).flatMap seg.row =
      (seg.postings.drop (seg.offset 0)).take (seg.offset n - seg.offset 0) := by
  induction n with
  | zero => simp
  | succ n ih =>
    rw [List.range_succ, List.flatMap_append, ih (by omega), List.flatMap_singleton, row_eq_cut]
    exact take_drop_append _ (offset_mono rising (Nat.zero_le n) (by omega))
      (offset_mono rising (Nat.le_succ n) hn)

/-- Every posting of a consistent segment is in a row. -/
theorem Consistent.flatMap_snd_rows (h : seg.Consistent) :
    seg.rows.flatMap Prod.snd = seg.postings := by
  have hlt : seg.termKeys.length < seg.termOffsets.length := by
    rw [h.offsets]
    omega
  rw [Segment.flatMap_snd_rows, flatMap_row_range h.rising hlt, h.first, offset_last h.offsets,
    h.last]
  simp

theorem Consistent.rowPostings_rows (h : seg.Consistent) :
    rowPostings seg.rows = seg.totalPostings.toNat := by
  rw [rowPostings, h.flatMap_snd_rows, h.last]

end Segment

/-! ## Built segments -/

section Build

variable (S : Sorter) {rows : List (Term × Postings)}

theorem totalPostings_buildSegmentFromRows :
    (buildSegmentFromRows S rows).totalPostings = BitVec.ofNat 32 (rowPostings rows) := by
  have hb := Segment.built_foldl Segment.built_nil
    (S.sort (fun a b => decide (termKey a.1 < termKey b.1)) rows)
  rw [List.nil_append] at hb
  rw [buildSegmentFromRows, hb.totalPostings, rowPostings_perm (S.perm _ _)]

theorem consistent_buildSegmentFromRows (fits : rowPostings rows < 2 ^ 32)
    (nodup : (rows.map Prod.fst).Nodup) (sorted : ∀ r ∈ rows, DocSorted r.2) :
    (buildSegmentFromRows S rows).Consistent := by
  have hb := Segment.built_foldl Segment.built_nil
    (S.sort (fun a b => decide (termKey a.1 < termKey b.1)) rows)
  rw [List.nil_append] at hb
  have hperm := S.perm (fun a b => decide (termKey a.1 < termKey b.1)) rows
  have hfits : rowPostings (S.sort (fun a b => decide (termKey a.1 < termKey b.1)) rows) < 2 ^ 32 := by
    rwa [rowPostings_perm hperm]
  have hsorted : (S.sort (fun a b => decide (termKey a.1 < termKey b.1)) rows).Pairwise
      fun a b => termKey a.1 ≤ termKey b.1 :=
    S.sorted (fun r : Term × Postings => termKey r.1) (fun a b => decide_eq_true_iff) rows
  have hnodup := (hperm.map Prod.fst).nodup_iff.mpr nodup
  have hrows := rows_buildSegmentFromRows S fits
  refine ⟨?_, ?_, ?_, hb.rising hfits, hb.last hfits, ?_⟩
  · rw [buildSegmentFromRows, hb.keys]
    refine List.pairwise_map.mpr ?_
    refine (hsorted.and (List.pairwise_map.mp hnodup)).imp ?_
    rintro a b ⟨hle, hne⟩
    exact lt_of_le_of_ne hle fun heq => hne (termKey_injective heq)
  · rw [buildSegmentFromRows, hb.offsets_length, hb.keys, List.length_map]
  · have hfirst := hb.offsets 0 (Nat.zero_le _)
    rw [Segment.offset, buildSegmentFromRows, List.getD_eq_getElem?_getD, hfirst]
    simp [rowPostings]
  · intro r hr
    rw [hrows] at hr
    exact sorted r (S.mem_sort.mp hr)

end Build

namespace InvertedIndex

/-! ## Totals -/

/-- `total_postings`. -/
def totalPostings (idx : InvertedIndex) : BitVec 32 :=
  let total := idx.delta.toList.foldl
    (fun total kv => total + BitVec.ofNat 32 kv.2.postings.length) 0
  idx.segments.foldl (fun total seg => total + seg.totalPostings) total

/-- The lengths of all documents, without overflow. -/
def sumLengths (docMeta : Table DocId DocMeta) : Nat :=
  (docMeta.toList.map fun doc => doc.2.length.toNat).sum

theorem foldl_add_ofNat {α : Type} (f : α → Nat) (l : List α) (n : Nat) :
    l.foldl (fun total a => total + BitVec.ofNat 32 (f a)) (BitVec.ofNat 32 n) =
      BitVec.ofNat 32 (n + (l.map f).sum) := by
  induction l generalizing n with
  | nil => simp
  | cons a rest ih =>
    rw [List.foldl_cons, ← BitVec.ofNat_add, ih, List.map_cons, List.sum_cons, Nat.add_assoc]

/-- The total is the number of postings, cut to 32 bits. -/
theorem totalPostings_eq (idx : InvertedIndex) :
    idx.totalPostings = BitVec.ofNat 32
      (rowPostings (idx.delta.toList.map fun e => (e.1, e.2.postings)) +
        (idx.segments.map fun seg => seg.totalPostings.toNat).sum) := by
  have hdelta : rowPostings (idx.delta.toList.map fun e => (e.1, e.2.postings)) =
      (idx.delta.toList.map fun e => e.2.postings.length).sum := by
    simp [rowPostings, List.length_flatMap, List.map_map, Function.comp_def]
  have hloop := foldl_add_ofNat (fun seg : Segment => seg.totalPostings.toNat) idx.segments
    (idx.delta.toList.map fun e => e.2.postings.length).sum
  have hinner := foldl_add_ofNat (fun e : Term × DeltaEntry => e.2.postings.length)
    idx.delta.toList 0
  simp only [BitVec.ofNat_toNat, BitVec.setWidth_eq] at hloop
  rw [Nat.zero_add] at hinner
  rw [hdelta, ← hloop, ← hinner]
  rfl

/-- There are at most as many documents as ids, so the sum fits 64 bits. -/
theorem sumLengths_lt (docMeta : Table DocId DocMeta) : sumLengths docMeta < 2 ^ 64 := by
  have hcount : docMeta.toList.length ≤ 2 ^ 32 := by
    have hnodup : (docMeta.keys.map BitVec.toNat).Nodup :=
      docMeta.keys_nodup.map fun _ _ h => BitVec.eq_of_toNat_eq h
    have hsubset : docMeta.keys.map BitVec.toNat ⊆ List.range (2 ^ 32) := by
      intro n hn
      obtain ⟨id, -, rfl⟩ := List.mem_map.mp hn
      exact List.mem_range.mpr id.isLt
    have hle := (List.subperm_of_subset hnodup hsubset).length_le
    rw [List.length_map, List.length_range, Table.keys_eq_map, List.length_map] at hle
    exact hle
  have hsum : sumLengths docMeta ≤ docMeta.toList.length * (2 ^ 32 - 1) := by
    rw [sumLengths]
    have hbound := List.sum_le_card_nsmul (docMeta.toList.map fun doc => doc.2.length.toNat)
      (2 ^ 32 - 1) (by
        intro n hn
        obtain ⟨doc, -, rfl⟩ := List.mem_map.mp hn
        have := doc.2.length.isLt
        omega)
    simpa using hbound
  have := Nat.mul_le_mul_right (2 ^ 32 - 1) hcount
  omega

variable {docId : DocId}

variable {docMeta : Table DocId DocMeta} {old : DocMeta}

theorem sumLengths_insert_new (h : docMeta.find? docId = none) (m : DocMeta) :
    sumLengths (docMeta.insert docId m) = m.length.toNat + sumLengths docMeta := by
  rw [sumLengths, Table.toList_insert, List.map_cons, List.sum_cons, sumLengths]
  exact congrArg _ ((Table.toList_erase_perm h).map _).sum_eq

theorem sumLengths_insert_old (h : docMeta.find? docId = some old) (m : DocMeta) :
    sumLengths (docMeta.insert docId m) + old.length.toNat =
      m.length.toNat + sumLengths docMeta := by
  have hold : sumLengths docMeta =
      old.length.toNat + ((docMeta.erase docId).toList.map fun doc => doc.2.length.toNat).sum := by
    rw [sumLengths, ((Table.toList_perm_cons h).map _).sum_eq, List.map_cons, List.sum_cons]
  rw [hold, sumLengths, Table.toList_insert, List.map_cons, List.sum_cons]
  exact Nat.add_right_comm _ _ _ |>.trans (Nat.add_assoc _ _ _)

theorem sumLengths_mapValues (docMeta : Table DocId DocMeta) {f : DocMeta → DocMeta}
    (h : ∀ m, (f m).length = m.length) :
    sumLengths (docMeta.mapValues f) = sumLengths docMeta := by
  rw [sumLengths, Table.toList_mapValues, List.map_map, sumLengths]
  simp only [Function.comp_def, h]

/-- `_sum_doc_lengths` is the sum of the stored lengths. -/
def LengthsAgree (idx : InvertedIndex) : Prop :=
  idx.sumDocLengths.toNat = sumLengths idx.docMeta

instance (idx : InvertedIndex) : Decidable idx.LengthsAgree :=
  inferInstanceAs (Decidable (_ = _))

/-- A new length is added. -/
theorem lengthsAgree_new {idx : InvertedIndex} (h : idx.LengthsAgree)
    (absent : idx.docMeta.find? docId = none) (m : DocMeta) :
    (idx.sumDocLengths + m.length.setWidth 64).toNat = sumLengths (idx.docMeta.insert docId m) := by
  unfold LengthsAgree at h
  have hnew := sumLengths_insert_new absent m
  have hlt := sumLengths_lt (idx.docMeta.insert docId m)
  rw [BitVec.toNat_add, BitVec.toNat_setWidth_of_le (by omega), h]
  omega

/-- The difference to an old length is added, and the subtraction may wrap. -/
theorem lengthsAgree_old {idx : InvertedIndex} (h : idx.LengthsAgree)
    (present : idx.docMeta.find? docId = some old) (m : DocMeta) :
    (idx.sumDocLengths + (m.length.setWidth 64 - old.length.setWidth 64)).toNat =
      sumLengths (idx.docMeta.insert docId m) := by
  unfold LengthsAgree at h
  have hold := sumLengths_insert_old present m
  have hlt := sumLengths_lt (idx.docMeta.insert docId m)
  have hlen := old.length.isLt
  rw [BitVec.toNat_add, BitVec.toNat_sub, BitVec.toNat_setWidth_of_le (by omega),
    BitVec.toNat_setWidth_of_le (by omega), h]
  omega

theorem LengthsAgree.addDocument {idx : InvertedIndex} (h : idx.LengthsAgree) (docId : DocId)
    (tokens : List Term) : (idx.addDocument docId tokens).LengthsAgree := by
  unfold InvertedIndex.addDocument
  cases hm : idx.docMeta.find? docId with
  | none =>
    exact lengthsAgree_new h hm
      { length := BitVec.ofNat 32 tokens.length, terms := (countTerms tokens).keys }
  | some old =>
    simp only
    cases hs : old.inSegment with
    | true => exact lengthsAgree_old h hm { old with length := BitVec.ofNat 32 tokens.length }
    | false => exact lengthsAgree_old h hm { old with
        length := BitVec.ofNat 32 tokens.length, terms := (countTerms tokens).keys }

theorem LengthsAgree.buildSegmentFromDelta {idx : InvertedIndex} (h : idx.LengthsAgree)
    (S : Sorter) : (idx.buildSegmentFromDelta S).LengthsAgree := by
  have hlength : ∀ m : DocMeta,
      (if m.inSegment then m else { m with inSegment := true, terms := [] }).length = m.length := by
    intro m
    split <;> rfl
  exact h.trans (sumLengths_mapValues idx.docMeta hlength).symm

/-! ## Arranged indexes -/

/-- What a flush relies on and leaves behind. -/
structure Arranged (idx : InvertedIndex) : Prop where
  delta : FlagsTrue idx.delta
  segments : ∀ seg ∈ idx.segments, seg.Consistent
  lengths : idx.LengthsAgree

/-- What a flush or a compaction may not change, and what it leaves behind. -/
structure Keeps (idx idx' : InvertedIndex) : Prop where
  held : ∀ t, (idx'.held t).Perm (idx.held t)
  totalPostings : idx'.totalPostings = idx.totalPostings
  docLength : ∀ docId, idx'.docLength docId = idx.docLength docId
  sumDocLengths : idx'.sumDocLengths = idx.sumDocLengths
  segments : ∀ seg ∈ idx'.segments, seg.Consistent

theorem Arranged.keeps_refl {idx : InvertedIndex} (h : idx.Arranged) : idx.Keeps idx where
  held _ := .refl _
  totalPostings := rfl
  docLength _ := rfl
  sumDocLengths := rfl
  segments := h.segments

theorem Keeps.trans {idx idx' idx'' : InvertedIndex} (h : idx.Keeps idx') (h' : idx'.Keeps idx'') :
    idx.Keeps idx'' where
  held t := (h'.held t).trans (h.held t)
  totalPostings := h'.totalPostings.trans h.totalPostings
  docLength docId := (h'.docLength docId).trans (h.docLength docId)
  sumDocLengths := h'.sumDocLengths.trans h.sumDocLengths
  segments := h'.segments

theorem Keeps.setFinalized {idx idx' : InvertedIndex} (h : idx.Keeps idx') :
    idx.Keeps { idx' with finalized := true } :=
  ⟨h.held, h.totalPostings, h.docLength, h.sumDocLengths, h.segments⟩

/-- The postings of delta and segments can be counted in 32 bits. -/
def PostingsFit (idx : InvertedIndex) : Prop :=
  rowPostings (idx.delta.toList.map fun e => (e.1, e.2.postings)) +
    rowPostings (idx.segments.flatMap Segment.rows) < 2 ^ 32

instance (idx : InvertedIndex) : Decidable idx.PostingsFit := inferInstanceAs (Decidable (_ < _))

section Flush

variable {idx : InvertedIndex} (h : idx.Arranged) (S : Sorter)
include h

theorem Arranged.buildSegmentFromDelta
    (fits : rowPostings (idx.delta.toList.map fun e => (e.1, e.2.postings)) < 2 ^ 32) :
    (idx.buildSegmentFromDelta S).Arranged := by
  have hsorted : ∀ r ∈ idx.deltaRows S, DocSorted r.2 := by
    intro r hr
    obtain ⟨⟨t, e⟩, he, rfl⟩ := List.mem_map.mp hr
    exact sort_sorted S (h.delta t e (Table.mem_toList.mp he))
  refine ⟨fun t e he => ?_, ?_, h.lengths.buildSegmentFromDelta S⟩
  · simp [InvertedIndex.buildSegmentFromDelta] at he
  · intro seg hseg
    obtain hold | hnew := List.mem_append.mp hseg
    · exact h.segments seg hold
    · obtain rfl := List.mem_singleton.mp hnew
      refine consistent_buildSegmentFromRows S ?_ (idx.nodup_deltaRows S) hsorted
      rwa [rowPostings_deltaRows]

theorem Arranged.keeps_buildSegmentFromDelta
    (fits : rowPostings (idx.delta.toList.map fun e => (e.1, e.2.postings)) < 2 ^ 32) :
    idx.Keeps (idx.buildSegmentFromDelta S) where
  held t := idx.held_buildSegmentFromDelta S (by rwa [rowPostings_deltaRows]) t
  totalPostings := by
    rw [totalPostings_eq, totalPostings_eq]
    simp only [InvertedIndex.buildSegmentFromDelta, List.map_append, List.sum_append,
      List.map_singleton, List.sum_singleton, totalPostings_buildSegmentFromRows,
      rowPostings_deltaRows, BitVec.toNat_ofNat, Nat.mod_eq_of_lt fits]
    exact congrArg _ ((Nat.zero_add _).trans (Nat.add_comm _ _))
  docLength := (idx.sameDocs_buildSegmentFromDelta S).docLength
  sumDocLengths := rfl
  segments := (h.buildSegmentFromDelta S fits).segments

theorem Arranged.compact (fits : rowPostings (idx.segments.flatMap Segment.rows) < 2 ^ 32) :
    (idx.compact S).Arranged := by
  unfold InvertedIndex.compact
  split
  · exact h
  · refine ⟨h.delta, ?_, h.lengths⟩
    intro seg hseg
    obtain rfl := List.mem_singleton.mp hseg
    refine consistent_buildSegmentFromRows S ?_ (nodup_compactedRows S _)
      (sorted_compactedRows S _ fun seg hseg => (h.segments seg hseg).sorted)
    rwa [rowPostings_compactedRows]

/-- The totals of consistent segments count their rows. -/
theorem Arranged.sum_totalPostings :
    (idx.segments.map fun seg => seg.totalPostings.toNat).sum =
      rowPostings (idx.segments.flatMap Segment.rows) := by
  have hsegs := h.segments
  generalize idx.segments = segments at hsegs
  induction segments with
  | nil => rfl
  | cons seg rest ih =>
    have hrest := ih fun s hs => hsegs s (List.mem_cons_of_mem seg hs)
    rw [List.map_cons, List.sum_cons, List.flatMap_cons, rowPostings_append, hrest,
      (hsegs seg List.mem_cons_self).rowPostings_rows]

theorem Arranged.keeps_compact
    (fits : rowPostings (idx.segments.flatMap Segment.rows) < 2 ^ 32) :
    idx.Keeps (idx.compact S) where
  held := idx.held_compact S fits
  totalPostings := by
    rw [totalPostings_eq, totalPostings_eq, h.sum_totalPostings]
    unfold InvertedIndex.compact
    split
    · rw [h.sum_totalPostings]
    · simp only [List.map_singleton, List.sum_singleton, totalPostings_buildSegmentFromRows,
        rowPostings_compactedRows, BitVec.toNat_ofNat, Nat.mod_eq_of_lt fits]
  docLength docId := by
    unfold InvertedIndex.compact
    split <;> rfl
  sumDocLengths := by
    unfold InvertedIndex.compact
    split <;> rfl
  segments := (h.compact S fits).segments

omit h in
/-- A flush moves rows, so what fits before it fits after it. -/
theorem PostingsFit.flushed (fits : idx.PostingsFit) :
    rowPostings ((idx.buildSegmentFromDelta S).segments.flatMap Segment.rows) < 2 ^ 32 := by
  unfold PostingsFit at fits
  have hcount := idx.rowPostings_deltaRows S
  have hrows := rows_buildSegmentFromRows S (show rowPostings (idx.deltaRows S) < 2 ^ 32 by omega)
  simp only [InvertedIndex.buildSegmentFromDelta, List.flatMap_append, List.flatMap_singleton]
  rw [rowPostings_append, hrows, rowPostings_perm (S.perm _ _)]
  omega

theorem Arranged.setFinalized : ({ idx with finalized := true } : InvertedIndex).Arranged :=
  ⟨h.delta, h.segments, h.lengths⟩

/-- A flush and the compaction it may bring. -/
theorem Arranged.finalize (fits : idx.PostingsFit) :
    (idx.finalize S).Arranged ∧ idx.Keeps (idx.finalize S) := by
  have hdelta : rowPostings (idx.delta.toList.map fun e => (e.1, e.2.postings)) < 2 ^ 32 := by
    unfold PostingsFit at fits
    omega
  have hflushed := h.buildSegmentFromDelta S hdelta
  have hkeeps := h.keeps_buildSegmentFromDelta S hdelta
  unfold InvertedIndex.finalize
  split
  · exact ⟨h.setFinalized, h.keeps_refl.setFinalized⟩
  · simp only
    split
    · have hcompact := hkeeps.trans (hflushed.keeps_compact S (fits.flushed S))
      exact ⟨(hflushed.compact S (fits.flushed S)).setFinalized, hcompact.setFinalized⟩
    · exact ⟨hflushed.setFinalized, hkeeps.setFinalized⟩

end Flush

/-! ## Runs -/

/-- The condition on one call: what is rebuilt can be counted in 32 bits, and a blob that is
accepted has consistent segments and states the sum of its lengths. -/
def FlushStepOk (idx : InvertedIndex) : IndexOp → Prop
  | .finalize | .saveTo => idx.PostingsFit
  | .compact => rowPostings (idx.segments.flatMap Segment.rows) < 2 ^ 32
  | .loadFrom blob => ∀ loaded ∈ (readBlob blob).toList,
      loaded.LengthsAgree ∧ ∀ seg ∈ loaded.segments, seg.Consistent
  | .addDocument .. | .reset | .getPostings _ => True

instance (idx : InvertedIndex) (op : IndexOp) : Decidable (idx.FlushStepOk op) := by
  induction op using IndexOp.casesOn <;> dsimp only [FlushStepOk] <;> infer_instance

theorem arranged_empty : Arranged {} where
  delta t e he := by simp at he
  segments seg hseg := by simp at hseg
  lengths := rfl

theorem Arranged.getPostings {idx : InvertedIndex} (h : idx.Arranged) (S : Sorter) (term : Term) :
    (idx.getPostings S term).1.Arranged := by
  have hsorted : (idx.sortDelta S term).Arranged :=
    ⟨h.delta.modifySort S term, h.segments, h.lengths⟩
  unfold InvertedIndex.getPostings InvertedIndex.mergePostings
  split
  · exact h
  · exact hsorted
  · exact h
  · split
    · exact h
    · exact ⟨hsorted.delta, hsorted.segments, hsorted.lengths⟩

theorem Arranged.step {idx : InvertedIndex} (h : idx.Arranged) (S : Sorter) {op : IndexOp}
    (ok : idx.FlushStepOk op) : (idx.step S op).Arranged := by
  cases op with
  | addDocument docId tokens =>
    obtain ⟨hsegs, -, hflags, -⟩ := idx.addDocument_frame docId tokens
    exact ⟨hflags h.delta, fun seg hseg => h.segments seg (hsegs ▸ hseg),
      h.lengths.addDocument docId tokens⟩
  | finalize => exact (h.finalize S ok).1
  | compact => exact h.compact S ok
  | saveTo =>
    simp only [InvertedIndex.step, InvertedIndex.saveTo]
    split
    · exact h
    · exact (h.finalize S ok).1
  | loadFrom blob =>
    simp only [InvertedIndex.step, InvertedIndex.loadFrom]
    cases hblob : readBlob blob with
    | none => exact h
    | some loaded =>
      obtain ⟨hlengths, hsegs⟩ := ok loaded (by simp [hblob])
      have hdelta := (readBlob_segments hblob).1
      exact ⟨fun t e he => by simp [hdelta] at he, hsegs, hlengths⟩
  | reset => exact arranged_empty
  | getPostings term => exact h.getPostings S term

/-- The lengths add up, and a flush or a compaction at this point would keep everything. -/
structure FlushSafe (S : Sorter) (idx : InvertedIndex) : Prop where
  lengths : idx.sumDocLengths.toNat = sumLengths idx.docMeta
  finalize : idx.FlushStepOk .finalize → idx.Keeps (idx.finalize S)
  compact : idx.FlushStepOk .compact → idx.Keeps (idx.compact S)

/-- In every state of a run whose calls meet the condition. -/
theorem flushSafe_run (S : Sorter) (ops : List IndexOp)
    (ok : Meets (step S) FlushStepOk {} ops) : (run (step S) {} ops).FlushSafe S := by
  have harranged : (run (step S) {} ops).Arranged :=
    ok.invariant (fun _ _ h hok => h.step S hok) arranged_empty
  exact ⟨harranged.lengths, fun fits => (harranged.finalize S fits).2,
    fun fits => harranged.keeps_compact S fits⟩

/-- A run over documents, flushes and a blob that was saved. -/
theorem flushSafe_run_reloaded :
    let blob := ((run (step .insertion) {}
      [.addDocument 7 [[65], [66]], .finalize, .addDocument 3 [[65], [65]]]).saveTo .insertion).2
    let ops : List IndexOp :=
      [.loadFrom blob, .addDocument 7 [[65]], .addDocument 9 [[66], [66]], .addDocument 9 [],
        .finalize, .compact, .addDocument 3 [[67]]]
    Meets (step .insertion) FlushStepOk {} ops ∧
      (run (step .insertion) {} ops).FlushSafe .insertion := by
  intro blob ops
  have ok : Meets (step .insertion) FlushStepOk {} ops := by decide +kernel
  exact ⟨ok, flushSafe_run .insertion ops ok⟩

/-- A blob without documents that claims their lengths sum to seven. -/
def boastfulBlob : Bytes :=
  kMagic ++ leBytes 4 0 ++ leBytes 4 0 ++ leBytes 8 7 ++ leBytes 4 0 ++ leBytes 4 0

/-- It is loaded, and the sum is believed. -/
theorem loadFrom_boastfulBlob_not_flushSafe :
    ¬(run (step .insertion) {} [.loadFrom boastfulBlob]).FlushSafe .insertion := by
  intro h
  have hlengths := h.lengths
  revert hlengths
  decide +kernel

end InvertedIndex

end KimixNative.Index
