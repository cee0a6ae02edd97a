import KimixNative.Index.BlobRoundTrip

/-!
# The round trip over whole runs

Two facts hold in every state a run reaches. Segments stay determined by their arrays,
whatever blobs were loaded and whatever was compacted. And as long as `add_document`
touches no term whose merge is cached, a cached merge is what merging afresh would give,
so the segments alone decide every lookup once the delta has been flushed. The merge cache
is the one part of an index that is neither stored nor rebuilt from the blob.
-/

namespace KimixNative.Index

open Reader

namespace InvertedIndex

/-! ## Segments stay stored -/

/-- The segments are determined by their arrays, those apart that outgrew their offsets. -/
def Recorded (idx : InvertedIndex) : Prop :=
  ∀ seg ∈ idx.segments, seg.postings.length < 2 ^ 32 → seg.Stored

variable {idx : InvertedIndex}

theorem Recorded.buildSegmentFromDelta (h : idx.Recorded) (S : Sorter) :
    (idx.buildSegmentFromDelta S).Recorded := by
  intro seg hseg hfits
  obtain hold | hnew := List.mem_append.mp hseg
  · exact h seg hold hfits
  · obtain rfl := List.mem_singleton.mp hnew
    exact stored_buildSegmentFromRows S _ hfits

theorem Recorded.compact (h : idx.Recorded) (S : Sorter) : (idx.compact S).Recorded := by
  unfold InvertedIndex.compact
  split
  · exact h
  · intro seg hseg hfits
    obtain rfl := List.mem_singleton.mp hseg
    exact stored_buildSegmentFromRows S _ hfits

theorem Recorded.finalize (h : idx.Recorded) (S : Sorter) : (idx.finalize S).Recorded := by
  unfold InvertedIndex.finalize
  split
  · exact h
  · have hflushed := h.buildSegmentFromDelta S
    simp only
    split
    · exact hflushed.compact S
    · exact hflushed

theorem Recorded.saveTo (h : idx.Recorded) (S : Sorter) : (idx.saveTo S).1.Recorded := by
  unfold InvertedIndex.saveTo
  simp only
  split
  · exact h
  · exact h.finalize S

theorem Recorded.loadFrom (h : idx.Recorded) (blob : Bytes) : (idx.loadFrom blob).1.Recorded := by
  unfold InvertedIndex.loadFrom
  cases hblob : readBlob blob with
  | none => exact h
  | some loaded =>
    intro seg hseg _
    obtain ⟨before, after, hread⟩ := (readBlob_segments hblob).2.2 seg hseg
    exact readSegment_stored hread

@[simp] theorem segments_getPostings (S : Sorter) (idx : InvertedIndex) (t : Term) :
    (idx.getPostings S t).1.segments = idx.segments := by
  unfold getPostings mergePostings
  split
  · rfl
  · rfl
  · rfl
  · split <;> rfl

theorem Recorded.step (h : idx.Recorded) (S : Sorter) (op : IndexOp) :
    (idx.step S op).Recorded := by
  cases op with
  | addDocument docId tokens =>
    have hsegs := (idx.addDocument_frame docId tokens).1
    intro seg hseg
    exact h seg (hsegs ▸ hseg)
  | finalize => exact h.finalize S
  | compact => exact h.compact S
  | saveTo => exact h.saveTo S
  | loadFrom blob => exact h.loadFrom blob
  | reset =>
    intro seg hseg
    cases hseg
  | getPostings term =>
    intro seg hseg
    exact h seg (segments_getPostings S idx term ▸ hseg)

/-! ## The cache stays current -/

/-- What a merge of a term is made from. -/
def mergeSources (idx : InvertedIndex) (t : Term) : List Postings :=
  ((idx.delta.find? t).map DeltaEntry.postings).toList ++ idx.segments.filterMap (·.lookup t)

/-- A cached merge is what merging afresh would give. -/
def CacheCurrent (idx : InvertedIndex) : Prop :=
  ∀ t pl, idx.mergeCache.find? t = some pl →
    (∀ e, idx.delta.find? t = some e → e.sorted = true) ∧
      pl = kWayMerge PostingsEntry.key (idx.mergeSources t)

/-- The condition on one call: a document neither brings a term whose merge is cached nor
replaces pending postings of one. -/
def CacheStepOk (idx : InvertedIndex) : IndexOp → Prop
  | .addDocument docId tokens =>
    ∀ t ∈ idx.mergeCache.keys, t ∉ tokens ∧ t ∉ idx.pendingTerms docId
  | _ => True

instance (idx : InvertedIndex) (op : IndexOp) : Decidable (idx.CacheStepOk op) := by
  induction op using IndexOp.casesOn <;> dsimp only [CacheStepOk] <;> infer_instance

theorem cacheCurrent_of_empty (h : idx.mergeCache = ∅) : idx.CacheCurrent := by
  intro t pl hpl
  rw [h, Table.find?_empty] at hpl
  cases hpl

/-- Nothing but the delta at a cached term and the segments matters. -/
theorem CacheCurrent.congr {idx' : InvertedIndex} (h : idx.CacheCurrent)
    (cache : idx'.mergeCache = idx.mergeCache) (segments : idx'.segments = idx.segments)
    (delta : ∀ t ∈ idx.mergeCache.keys, idx'.delta.find? t = idx.delta.find? t) :
    idx'.CacheCurrent := by
  intro t pl hpl
  rw [cache] at hpl
  have hdelta := delta t (Table.mem_keys.mpr ⟨pl, hpl⟩)
  rw [mergeSources, hdelta, segments]
  exact h t pl hpl

theorem CacheCurrent.addDocument (h : idx.CacheCurrent) {docId : DocId} {tokens : List Term}
    (ok : idx.CacheStepOk (.addDocument docId tokens)) :
    (idx.addDocument docId tokens).CacheCurrent := by
  obtain ⟨hseg, hcache, -, hframe⟩ := idx.addDocument_frame docId tokens
  refine h.congr hcache hseg ?_
  intro t ht
  obtain ⟨htokens, hpending⟩ := ok t ht
  exact hframe t htokens hpending

theorem CacheCurrent.compact (h : idx.CacheCurrent) (S : Sorter) :
    (idx.compact S).CacheCurrent := by
  unfold InvertedIndex.compact
  split
  · exact h
  · exact cacheCurrent_of_empty rfl

theorem CacheCurrent.finalize (h : idx.CacheCurrent) (S : Sorter) :
    (idx.finalize S).CacheCurrent := by
  unfold InvertedIndex.finalize
  split
  · exact h
  · have hflushed : (idx.buildSegmentFromDelta S).CacheCurrent := cacheCurrent_of_empty rfl
    simp only
    split
    · exact hflushed.compact S
    · exact hflushed

theorem CacheCurrent.saveTo (h : idx.CacheCurrent) (S : Sorter) :
    (idx.saveTo S).1.CacheCurrent := by
  unfold InvertedIndex.saveTo
  simp only
  split
  · exact h
  · exact h.finalize S

theorem CacheCurrent.loadFrom (h : idx.CacheCurrent) (blob : Bytes) :
    (idx.loadFrom blob).1.CacheCurrent := by
  unfold InvertedIndex.loadFrom
  cases hblob : readBlob blob with
  | none => exact h
  | some loaded => exact cacheCurrent_of_empty (readBlob_segments hblob).2.1

theorem DeltaEntry.sort_of_sorted (S : Sorter) {e : DeltaEntry} (h : e.sorted = true) :
    e.sort S = e := if_pos h

theorem DeltaEntry.sorted_sort (S : Sorter) (e : DeltaEntry) : (e.sort S).sorted = true := by
  unfold DeltaEntry.sort
  split
  · next hs => exact hs
  · rfl

/-- Sorting an entry in place leaves cached terms alone: their entries are sorted. -/
theorem CacheCurrent.sortDelta (h : idx.CacheCurrent) (S : Sorter) (term : Term) :
    (idx.sortDelta S term).CacheCurrent := by
  refine h.congr rfl rfl ?_
  intro t ht
  obtain ⟨pl, hpl⟩ := Table.mem_keys.mp ht
  simp only [InvertedIndex.sortDelta, Table.find?_modify]
  split
  · next heq =>
      subst heq
      cases he : idx.delta.find? t with
      | none => rfl
      | some e => rw [Option.map_some, DeltaEntry.sort_of_sorted S ((h t pl hpl).1 e he)]
  · rfl

theorem CacheCurrent.mergePostings (h : idx.CacheCurrent) (S : Sorter) (term : Term) :
    (idx.mergePostings S term).1.CacheCurrent := by
  unfold InvertedIndex.mergePostings
  cases hc : idx.mergeCache.find? term with
  | some cached => exact h
  | none =>
    intro t pl hpl
    simp only [Table.find?_insert] at hpl
    split at hpl
    · next heq =>
        obtain rfl := Option.some.inj hpl
        subst heq
        refine ⟨?_, rfl⟩
        intro e he
        simp only [InvertedIndex.sortDelta, Table.find?_modify_self] at he
        obtain ⟨e₀, -, rfl⟩ := Option.map_eq_some_iff.mp he
        exact DeltaEntry.sorted_sort S e₀
    · exact h.sortDelta S term t pl hpl

theorem CacheCurrent.getPostings (h : idx.CacheCurrent) (S : Sorter) (term : Term) :
    (idx.getPostings S term).1.CacheCurrent := by
  unfold InvertedIndex.getPostings
  split
  · exact h
  · exact h.sortDelta S term
  · exact h
  · exact h.mergePostings S term

theorem CacheCurrent.step (h : idx.CacheCurrent) (S : Sorter) {op : IndexOp}
    (ok : idx.CacheStepOk op) : (idx.step S op).CacheCurrent := by
  cases op with
  | addDocument docId tokens => exact h.addDocument ok
  | finalize => exact h.finalize S
  | compact => exact h.compact S
  | saveTo => exact h.saveTo S
  | loadFrom blob => exact h.loadFrom blob
  | reset => exact cacheCurrent_of_empty rfl
  | getPostings term => exact h.getPostings S term

/-! ## Lookups of a flushed index -/

/-- What the segments alone give for a term. -/
def segmentPostings (segments : List Segment) (t : Term) : Postings :=
  match segments.filterMap (·.lookup t) with
  | [] => []
  | [pl] => pl
  | pls => kWayMerge PostingsEntry.key pls

theorem CacheCurrent.getPostings_eq (h : idx.CacheCurrent) (S : Sorter) {t : Term}
    (flushed : idx.delta.find? t = none) :
    (idx.getPostings S t).2 = segmentPostings idx.segments t := by
  have hsources : idx.mergeSources t = idx.segments.filterMap (·.lookup t) := by
    rw [mergeSources, flushed]
    rfl
  have hmerge : (idx.mergePostings S t).2 =
      kWayMerge PostingsEntry.key (idx.segments.filterMap (·.lookup t)) := by
    unfold InvertedIndex.mergePostings
    cases hc : idx.mergeCache.find? t with
    | some cached => rw [← hsources, (h t cached hc).2]
    | none =>
      simp only [InvertedIndex.sortDelta, Table.find?_modify_self, flushed]
      rfl
  unfold InvertedIndex.getPostings segmentPostings
  rw [flushed]
  split
  · next hd hl => simp only [hl]
  · next hd hl => cases hd
  · next hd hl => simp only [hl]
  · next hnone _ hone =>
      rw [hmerge]
      split
      · next hl => exact absurd hl (hnone rfl)
      · next pl hl => exact absurd hl (hone pl rfl)
      · rfl

theorem delta_finalize (S : Sorter) (idx : InvertedIndex) :
    (idx.finalize S).delta.keys = [] := by
  unfold finalize
  split
  · next h => exact List.isEmpty_iff.mp h
  · simp only
    split
    · unfold compact
      split <;> rfl
    · rfl

theorem delta_saveTo (S : Sorter) (idx : InvertedIndex) :
    (idx.saveTo S).1.delta.keys = [] := by
  unfold saveTo
  simp only
  split
  · next h => exact List.isEmpty_iff.mp h
  · exact idx.delta_finalize S

theorem saveTo_of_flushed (S : Sorter) (h : idx.delta.keys = []) :
    idx.saveTo S = (idx, idx.writeBlob S) := by
  rw [saveTo, h]
  rfl

/-- Saving twice saves the same. -/
theorem saveTo_saveTo (S : Sorter) (idx : InvertedIndex) :
    (idx.saveTo S).1.saveTo S = idx.saveTo S :=
  saveTo_of_flushed S (idx.delta_saveTo S)

theorem find?_delta_saveTo (S : Sorter) (idx : InvertedIndex) (t : Term) :
    (idx.saveTo S).1.delta.find? t = none := by
  have hempty := idx.delta_saveTo S
  cases hf : (idx.saveTo S).1.delta.find? t with
  | none => rfl
  | some e =>
    have := Table.mem_keys.mpr ⟨e, hf⟩
    rw [hempty] at this
    cases this

/-! ## The round trip -/

/-- What `save_to` keeps besides postings. -/
structure SameDocs (idx idx' : InvertedIndex) : Prop where
  keys : idx'.docMeta.keys = idx.docMeta.keys
  docLength : ∀ docId, idx'.docLength docId = idx.docLength docId
  maxDocId : idx'.maxDocId = idx.maxDocId
  sumDocLengths : idx'.sumDocLengths = idx.sumDocLengths

theorem sameDocs_buildSegmentFromDelta (S : Sorter) (idx : InvertedIndex) :
    idx.SameDocs (idx.buildSegmentFromDelta S) := by
  refine ⟨Table.keys_mapValues _ _, ?_, rfl, rfl⟩
  intro docId
  simp only [docLength, buildSegmentFromDelta, Table.find?_mapValues]
  cases idx.docMeta.find? docId with
  | none => rfl
  | some m =>
    simp only [Option.map_some, Option.getD_some]
    split <;> rfl

theorem sameDocs_finalize (S : Sorter) (idx : InvertedIndex) : idx.SameDocs (idx.finalize S) := by
  have hflushed := idx.sameDocs_buildSegmentFromDelta S
  unfold finalize
  split
  · exact ⟨rfl, fun _ => rfl, rfl, rfl⟩
  · simp only
    split
    · unfold compact
      split
      · exact ⟨hflushed.keys, hflushed.docLength, rfl, rfl⟩
      · exact ⟨hflushed.keys, hflushed.docLength, rfl, rfl⟩
    · exact ⟨hflushed.keys, hflushed.docLength, rfl, rfl⟩

theorem sameDocs_saveTo (S : Sorter) (idx : InvertedIndex) : idx.SameDocs (idx.saveTo S).1 := by
  unfold saveTo
  simp only
  split
  · exact ⟨rfl, fun _ => rfl, rfl, rfl⟩
  · exact sameDocs_finalize S idx

/-- `loaded` stands for `idx`, which `save_to` left behind as `saved`. -/
structure Restores (S : Sorter) (idx saved loaded : InvertedIndex) : Prop where
  docCount : loaded.docCount = idx.docCount
  maxDocId : loaded.maxDocId = idx.maxDocId
  sumDocLengths : loaded.sumDocLengths = idx.sumDocLengths
  docLength : ∀ docId, loaded.docLength docId = idx.docLength docId
  postings : ∀ t, (loaded.getPostings S t).2 = (saved.getPostings S t).2

/-- A fresh index accepts what `save_to` writes, stands for the index that was saved, and
writes the same bytes. -/
structure RoundTrips (S : Sorter) (idx : InvertedIndex) : Prop where
  accepted : (loadFrom {} (idx.saveTo S).2).2 = true
  restored : Restores S idx (idx.saveTo S).1 (loadFrom {} (idx.saveTo S).2).1
  resaved : ((loadFrom {} (idx.saveTo S).2).1.saveTo S).2 = (idx.saveTo S).2

theorem loadFrom_saveTo (S : Sorter) (h : idx.Recorded) (small : (idx.saveTo S).1.Small)
    (fresh : InvertedIndex) :
    fresh.loadFrom (idx.saveTo S).2 = ((idx.saveTo S).1.reloaded S, true) := by
  have hstored : ∀ seg ∈ (idx.saveTo S).1.segments, seg.Stored := by
    intro seg hseg
    exact h.saveTo S seg hseg (small.segment seg hseg).postings
  have hread : readBlob (idx.saveTo S).2 = some ((idx.saveTo S).1.reloaded S) :=
    readBlob_writeBlob S small hstored
  rw [loadFrom, hread]

theorem restores_reloaded (S : Sorter) (h : idx.CacheCurrent) :
    Restores S idx (idx.saveTo S).1 ((idx.saveTo S).1.reloaded S) where
  docCount := by
    rw [docCount, docCount, ← (idx.sameDocs_saveTo S).keys]
    exact congrArg _ ((idx.saveTo S).1.keys_storedDocs_perm S).length_eq
  maxDocId := (idx.sameDocs_saveTo S).maxDocId
  sumDocLengths := (idx.sameDocs_saveTo S).sumDocLengths
  docLength docId := by
    rw [docLength_reloaded, (idx.sameDocs_saveTo S).docLength]
  postings t := by
    have hloaded : ((idx.saveTo S).1.reloaded S).CacheCurrent := cacheCurrent_of_empty rfl
    rw [hloaded.getPostings_eq S (Table.find?_empty t),
      (h.saveTo S).getPostings_eq S (idx.find?_delta_saveTo S t)]
    rfl

theorem saveTo_reloaded (S : Sorter) (idx : InvertedIndex) :
    (idx.reloaded S).saveTo S = (idx.reloaded S, idx.writeBlob S) := by
  rw [← writeBlob_reloaded]
  rfl

theorem roundTrips (S : Sorter) (recorded : idx.Recorded) (current : idx.CacheCurrent)
    (small : (idx.saveTo S).1.Small) : idx.RoundTrips S := by
  have hload := loadFrom_saveTo S recorded small {}
  refine ⟨?_, ?_, ?_⟩
  · rw [hload]
  · rw [hload]
    exact restores_reloaded S current
  · rw [hload, saveTo_reloaded]
    rfl

/-! ## Lookups before the flush -/

theorem held_finalize (S : Sorter) (fits : idx.Fits) (t : Term) :
    ((idx.finalize S).held t).Perm (idx.held t) := by
  have hdelta : rowPostings (idx.deltaRows S) < 2 ^ 32 := by
    have := idx.rowPostings_deltaRows S
    have := fits.2
    omega
  have hflushed := idx.held_buildSegmentFromDelta S hdelta t
  unfold finalize
  split
  · exact .refl _
  · simp only
    split
    · exact ((idx.buildSegmentFromDelta S).held_compact S (fits.flushed S).2 t).trans hflushed
    · exact hflushed

theorem held_saveTo (S : Sorter) (fits : idx.Fits) (t : Term) :
    ((idx.saveTo S).1.held t).Perm (idx.held t) := by
  unfold saveTo
  simp only
  split
  · exact .refl _
  · exact held_finalize S fits t

/-- A flush may reorder the postings of one document, and nothing else. -/
theorem Sound.getPostings_saveTo (h : idx.Sound) (S : Sorter) (fits : idx.Fits) {t : Term}
    (distinct : ((idx.held t).map PostingsEntry.docId).Nodup) :
    ((idx.saveTo S).1.getPostings S t).2 = (idx.getPostings S t).2 := by
  obtain ⟨-, hsorted, hperm⟩ := h.getPostings S t
  obtain ⟨-, hsorted', hperm'⟩ := (h.saveTo S fits).getPostings S t
  have hheld := hperm'.trans (held_saveTo S fits t)
  refine List.Perm.eq_of_pairwise ?_ hsorted' hsorted (hheld.trans hperm.symm)
  intro a b ha hb hab hba
  refine List.inj_on_of_nodup_map distinct (hheld.mem_iff.mp ha) (hperm.mem_iff.mp hb) ?_
  exact BitVec.eq_of_toNat_eq (le_antisymm hab hba)

end InvertedIndex

end KimixNative.Index
