import KimixNative.Index.Contents
import KimixNative.Lib.Run

/-!
# Lookup is current

A lookup should return, sorted by document, exactly the postings the index holds. The
delta and the segments are read afresh each time; the merge cache is not. A flush, a
compaction, a load and a reset clear it, but `add_document` does not, so a document that
brings postings of a cached term is not seen until the next flush. `LookupStepOk` is the
condition on a call that keeps the cache true; it also excludes blobs with repeated terms
or unsorted rows, which `load_from` accepts, and sizes past 32 bits.
-/

namespace KimixNative.Index

namespace InvertedIndex

/-- The terms whose delta postings `add_document` would first remove. -/
def pendingTerms (idx : InvertedIndex) (docId : DocId) : List Term :=
  match idx.docMeta.find? docId with
  | none => []
  | some m => if m.inSegment then [] else m.terms

/-- Rows and postings of a rebuilt segment are numbered in 32 bits. -/
def Fits (idx : InvertedIndex) : Prop :=
  idx.delta.toList.length + (idx.segments.flatMap Segment.rows).length < 2 ^ 32 ∧
  rowPostings (idx.delta.toList.map fun e => (e.1, e.2.postings)) +
    rowPostings (idx.segments.flatMap Segment.rows) < 2 ^ 32

/-- The condition on one call: a document touches no term whose merge is cached, what is
rebuilt fits 32 bits, and a blob that is accepted has distinct terms and sorted rows. -/
def LookupStepOk (idx : InvertedIndex) : IndexOp → Prop
  | .addDocument docId tokens =>
    ∀ t ∈ idx.mergeCache.keys, t ∉ tokens ∧ t ∉ idx.pendingTerms docId
  | .finalize => idx.Fits
  | .compact => idx.Fits
  | .saveTo => idx.Fits
  | .loadFrom blob =>
    ∀ loaded ∈ (readBlob blob).toList, ∀ seg ∈ loaded.segments,
      seg.termKeys.Nodup ∧ ∀ r ∈ seg.rows, DocSorted r.2
  | .reset => True
  | .getPostings _ => True

instance (idx : InvertedIndex) : Decidable idx.Fits := inferInstanceAs (Decidable (_ ∧ _))

instance (idx : InvertedIndex) (op : IndexOp) : Decidable (idx.LookupStepOk op) := by
  induction op using IndexOp.casesOn <;> dsimp only [LookupStepOk] <;> infer_instance

/-- What a lookup relies on. -/
structure Sound (idx : InvertedIndex) : Prop where
  delta : ∀ t e, idx.delta.find? t = some e → e.sorted = true → DocSorted e.postings
  segments : ∀ seg ∈ idx.segments, seg.Ordered
  cache : ∀ t pl, idx.mergeCache.find? t = some pl → DocSorted pl ∧ pl.Perm (idx.held t)

/-! ## Reading -/

theorem sort_sorted (S : Sorter) {e : DeltaEntry} (h : e.sorted = true → DocSorted e.postings) :
    DocSorted (e.sort S).postings := by
  unfold DeltaEntry.sort
  split
  · next hs => exact h hs
  · simp only
    split
    · exact S.sorted PostingsEntry.key (fun a b => decide_eq_true_iff) _
    · next hlen =>
        have : e.postings.length ≤ 1 := by omega
        match hp : e.postings, this with
        | [], _ => exact .nil
        | [p], _ => exact List.pairwise_singleton _ _

/-- Entries flagged as sorted are sorted. -/
def FlagsTrue (delta : Table Term DeltaEntry) : Prop :=
  ∀ t e, delta.find? t = some e → e.sorted = true → DocSorted e.postings

variable {delta : Table Term DeltaEntry}

theorem FlagsTrue.modifySort (h : FlagsTrue delta) (S : Sorter) (term : Term) :
    FlagsTrue (delta.modify term (·.sort S)) := by
  intro t e he hs
  rw [Table.find?_modify] at he
  split at he
  · obtain ⟨e₀, he₀, rfl⟩ := Option.map_eq_some_iff.mp he
    exact sort_sorted S (h _ _ he₀)
  · exact h t e he hs

theorem deltaHeld_sortDelta (S : Sorter) (idx : InvertedIndex) (term t : Term) :
    ((idx.sortDelta S term).deltaHeld t).Perm (idx.deltaHeld t) := by
  unfold deltaHeld sortDelta
  simp only [Table.find?_modify]
  split
  · next ht =>
      subst ht
      cases idx.delta.find? t with
      | none => exact .refl _
      | some e => exact sort_perm S e
  · exact .refl _

theorem held_sortDelta (S : Sorter) (idx : InvertedIndex) (term t : Term) :
    ((idx.sortDelta S term).held t).Perm (idx.held t) :=
  (idx.deltaHeld_sortDelta S term t).append_right _

section Sound

variable {idx : InvertedIndex} (h : idx.Sound)
include h

/-- The rows a lookup finds are all the segments hold. -/
theorem Sound.flatten_lookups (t : Term) :
    idx.segments.flatMap (·.held t) = (idx.segments.filterMap (·.lookup t)).flatten := by
  have hseg := h.segments
  generalize idx.segments = segments at hseg
  induction segments with
  | nil => rfl
  | cons seg rest ih =>
    have hrest := ih fun s hs => hseg s (List.mem_cons_of_mem _ hs)
    rw [List.flatMap_cons, hrest, (hseg seg List.mem_cons_self).held_eq]
    cases hl : seg.lookup t with
    | none => simp [hl]
    | some pl => simp [hl]

theorem Sound.lookups_sorted (t : Term) :
    ∀ pl ∈ idx.segments.filterMap (·.lookup t), DocSorted pl := by
  intro pl hpl
  obtain ⟨seg, hseg, hl⟩ := List.mem_filterMap.mp hpl
  exact (h.segments seg hseg).lookup_sorted hl

theorem Sound.sortDelta (S : Sorter) (term : Term) : (idx.sortDelta S term).Sound where
  delta := FlagsTrue.modifySort h.delta S term
  segments := h.segments
  cache t pl hpl := by
    obtain ⟨hsorted, hperm⟩ := h.cache t pl hpl
    exact ⟨hsorted, hperm.trans (idx.held_sortDelta S term t).symm⟩

/-- The merge of a term is the cached one or is made afresh; either way it is current. -/
theorem Sound.mergePostings (S : Sorter) (term : Term) :
    (idx.mergePostings S term).1.Sound ∧ DocSorted (idx.mergePostings S term).2 ∧
      (idx.mergePostings S term).2.Perm (idx.held term) := by
  unfold InvertedIndex.mergePostings
  cases hc : idx.mergeCache.find? term with
  | some cached => exact ⟨h, h.cache term cached hc⟩
  | none =>
    have hd := h.sortDelta S term
    generalize hi : idx.sortDelta S term = idx' at hd
    have hheld : (idx'.held term).Perm (idx.held term) := hi ▸ idx.held_sortDelta S term term
    let sources := ((idx'.delta.find? term).map DeltaEntry.postings).toList ++
      idx'.segments.filterMap (·.lookup term)
    have hsources : sources.flatten = idx'.held term := by
      simp only [sources, List.flatten_append, InvertedIndex.held, deltaHeld, hd.flatten_lookups]
      cases idx'.delta.find? term with
      | none => rfl
      | some e => simp
    have hsorted : ∀ src ∈ sources, DocSorted src := by
      intro src hsrc
      obtain hdelta | hlookup := List.mem_append.mp hsrc
      · cases he : idx'.delta.find? term with
        | none => simp [he] at hdelta
        | some e =>
          have hflag : e.sorted = true := by
            subst hi
            simp only [InvertedIndex.sortDelta, Table.find?_modify, if_true] at he
            obtain ⟨e₀, -, rfl⟩ := Option.map_eq_some_iff.mp he
            unfold DeltaEntry.sort
            split
            · next hs => exact hs
            · rfl
          have : src = e.postings := by simpa [he] using hdelta
          exact this ▸ hd.delta term e he hflag
      · exact hd.lookups_sorted term src hlookup
    have hmerged : (kWayMerge PostingsEntry.key sources).Perm (idx'.held term) :=
      hsources ▸ kWayMerge_perm sources
    refine ⟨⟨hd.delta, hd.segments, fun t pl hpl => ?_⟩, kWayMerge_sorted hsorted,
      hmerged.trans hheld⟩
    rw [Table.find?_insert] at hpl
    split at hpl
    · next ht =>
        obtain rfl := Option.some.inj hpl
        subst ht
        exact ⟨kWayMerge_sorted hsorted, hmerged⟩
    · exact hd.cache t pl hpl

/-- A lookup in a sound index is sorted and returns what is held, and leaves the index
sound. -/
theorem Sound.getPostings (S : Sorter) (term : Term) :
    (idx.getPostings S term).1.Sound ∧ DocSorted (idx.getPostings S term).2 ∧
      (idx.getPostings S term).2.Perm (idx.held term) := by
  have hrows := h.flatten_lookups term
  have hsorted := h.lookups_sorted term
  unfold InvertedIndex.getPostings
  split
  · next hdelta hnone =>
      refine ⟨h, .nil, ?_⟩
      simp [InvertedIndex.held, deltaHeld, hdelta, hrows, hnone]
  · next e hdelta hnone =>
      refine ⟨h.sortDelta S term, sort_sorted S (h.delta term e hdelta), ?_⟩
      simpa [InvertedIndex.held, deltaHeld, hdelta, hrows, hnone] using sort_perm S e
  · next pl hdelta hone =>
      refine ⟨h, hsorted pl (by simp [hone]), ?_⟩
      simp [InvertedIndex.held, deltaHeld, hdelta, hrows, hone]
  · exact h.mergePostings S term

end Sound

/-! ## Writing -/

variable {t : Term} {tokens : List Term} {blob : Bytes}

theorem find?_countTerms_eq_none (h : t ∉ tokens) : (countTerms tokens).find? t = none := by
  have loop : ∀ (tokens : List Term) (counter : Table Term (BitVec 32)), t ∉ tokens →
      counter.find? t = none →
      (tokens.foldl (fun counter t => counter.insert t ((counter.find? t).getD 0 + 1))
        counter).find? t = none := by
    intro tokens
    induction tokens with
    | nil => exact fun counter _ hnone => hnone
    | cons a rest ih =>
      intro counter hnot hnone
      obtain ⟨hne, hrest⟩ := not_or.mp (List.mem_cons.not.mp hnot)
      exact ih _ hrest (by rw [Table.find?_insert, if_neg hne, hnone])
  exact loop tokens ∅ h (by simp)

theorem pushPosting_frame (docId : DocId) (kvs : List (Term × BitVec 32))
    (delta : Table Term DeltaEntry) (h : ∀ n, (t, n) ∉ kvs) :
    (kvs.foldl (pushPosting docId) delta).find? t = delta.find? t := by
  induction kvs generalizing delta with
  | nil => rfl
  | cons kv rest ih =>
    have hne : t ≠ kv.1 := fun heq => h kv.2 (by simp [heq])
    rw [List.foldl_cons, ih _ fun n hn => h n (List.mem_cons_of_mem _ hn), pushPosting,
      Table.find?_insert, if_neg hne]

theorem dropPosting_frame (docId : DocId) (terms : List Term) (delta : Table Term DeltaEntry)
    (h : t ∉ terms) : (terms.foldl (dropPosting docId) delta).find? t = delta.find? t := by
  induction terms generalizing delta with
  | nil => rfl
  | cons a rest ih =>
    obtain ⟨hne, hrest⟩ := not_or.mp (List.mem_cons.not.mp h)
    rw [List.foldl_cons, ih _ hrest, dropPosting]
    split
    · rfl
    · simp only
      split
      · rw [Table.find?_erase, if_neg hne]
      · rw [Table.find?_insert, if_neg hne]

theorem FlagsTrue.pushPosting (h : FlagsTrue delta) (docId : DocId) (kvs : List (Term × BitVec 32)) :
    FlagsTrue (kvs.foldl (pushPosting docId) delta) := by
  induction kvs generalizing delta with
  | nil => exact h
  | cons kv rest ih =>
    refine ih fun t e he hs => ?_
    rw [InvertedIndex.pushPosting, Table.find?_insert] at he
    split at he
    · obtain rfl := Option.some.inj he
      cases hs
    · exact h t e he hs

theorem FlagsTrue.dropPosting (h : FlagsTrue delta) (docId : DocId) (terms : List Term) :
    FlagsTrue (terms.foldl (dropPosting docId) delta) := by
  induction terms generalizing delta with
  | nil => exact h
  | cons a rest ih =>
    refine ih fun t e he hs => ?_
    unfold InvertedIndex.dropPosting at he
    split at he
    · exact h t e he hs
    next entry hentry =>
    simp only at he
    split at he
    · rw [Table.find?_erase] at he
      split at he
      · cases he
      · exact h t e he hs
    · rw [Table.find?_insert] at he
      split at he
      · obtain rfl := Option.some.inj he
        exact (h a entry hentry hs).filter _
      · exact h t e he hs

/-- What `add_document` may do: it changes the delta of the terms it names, and of the
pending terms of a document it replaces, and no other postings. -/
theorem addDocument_frame (idx : InvertedIndex) (docId : DocId) (tokens : List Term) :
    (idx.addDocument docId tokens).segments = idx.segments ∧
    (idx.addDocument docId tokens).mergeCache = idx.mergeCache ∧
    (FlagsTrue idx.delta → FlagsTrue (idx.addDocument docId tokens).delta) ∧
    ∀ t, t ∉ tokens → t ∉ idx.pendingTerms docId →
      (idx.addDocument docId tokens).delta.find? t = idx.delta.find? t := by
  have hcount : ∀ t, t ∉ tokens → ∀ n, (t, n) ∉ (countTerms tokens).toList := by
    intro t ht n hn
    rw [Table.mem_toList, find?_countTerms_eq_none ht] at hn
    cases hn
  unfold addDocument pendingTerms
  cases hm : idx.docMeta.find? docId with
  | none =>
    exact ⟨rfl, rfl, fun hf => hf.pushPosting _ _,
      fun t ht _ => pushPosting_frame _ _ _ (hcount t ht)⟩
  | some m =>
    simp only
    cases hs : m.inSegment with
    | true =>
      exact ⟨rfl, rfl, fun hf => hf.pushPosting _ _,
        fun t ht _ => pushPosting_frame _ _ _ (hcount t ht)⟩
    | false =>
      refine ⟨rfl, rfl, fun hf => (hf.dropPosting _ _).pushPosting _ _, fun t ht hp => ?_⟩
      exact (pushPosting_frame _ _ _ (hcount t ht)).trans
        (dropPosting_frame _ _ _ (by simpa using hp))

/-- A flush moves rows, so what fits before it fits after it. -/
theorem Fits.flushed {idx : InvertedIndex} (fits : idx.Fits) (S : Sorter) :
    ((idx.buildSegmentFromDelta S).segments.flatMap Segment.rows).length < 2 ^ 32 ∧
      rowPostings ((idx.buildSegmentFromDelta S).segments.flatMap Segment.rows) < 2 ^ 32 := by
  obtain ⟨hterms, hpostings⟩ := fits
  have hcount := idx.rowPostings_deltaRows S
  have hlen : (idx.deltaRows S).length = idx.delta.toList.length := List.length_map _
  have hrows : (buildSegmentFromRows S (idx.deltaRows S)).rows =
      S.sort (fun a b => decide (termKey a.1 < termKey b.1)) (idx.deltaRows S) :=
    rows_buildSegmentFromRows S (by omega)
  have hsegs : (idx.buildSegmentFromDelta S).segments.flatMap Segment.rows =
      idx.segments.flatMap Segment.rows ++
        S.sort (fun a b => decide (termKey a.1 < termKey b.1)) (idx.deltaRows S) := by
    rw [← hrows]
    simp only [buildSegmentFromDelta, List.flatMap_append, List.flatMap_singleton]
  rw [hsegs, List.length_append, rowPostings_append, (S.perm _ _).length_eq,
    rowPostings_perm (S.perm _ _)]
  omega

section Writing

variable {idx : InvertedIndex} (h : idx.Sound)
include h

theorem Sound.addDocument {docId : DocId} (ok : idx.LookupStepOk (.addDocument docId tokens)) :
    (idx.addDocument docId tokens).Sound := by
  obtain ⟨hseg, hcache, hflags, hframe⟩ := idx.addDocument_frame docId tokens
  refine ⟨hflags h.delta, hseg ▸ h.segments, fun t pl hpl => ?_⟩
  rw [hcache] at hpl
  obtain ⟨htokens, hpending⟩ := ok t (Table.mem_keys.mpr ⟨pl, hpl⟩)
  obtain ⟨hsorted, hperm⟩ := h.cache t pl hpl
  refine ⟨hsorted, ?_⟩
  rwa [held, deltaHeld, hframe t htokens hpending, hseg]

theorem Sound.buildSegmentFromDelta (S : Sorter) (fits : idx.Fits) :
    (idx.buildSegmentFromDelta S).Sound := by
  have hcount := idx.rowPostings_deltaRows S
  have hsorted : ∀ r ∈ idx.deltaRows S, DocSorted r.2 := by
    intro r hr
    obtain ⟨⟨t, e⟩, he, rfl⟩ := List.mem_map.mp hr
    exact sort_sorted S (h.delta t e (Table.mem_toList.mp he))
  obtain ⟨hterms, hpostings⟩ := fits
  refine ⟨fun t e he => by simp [InvertedIndex.buildSegmentFromDelta] at he, ?_,
    fun t pl hpl => by simp [InvertedIndex.buildSegmentFromDelta] at hpl⟩
  intro seg hseg
  obtain hold | hnew := List.mem_append.mp hseg
  · exact h.segments seg hold
  · obtain rfl := List.mem_singleton.mp hnew
    have hlen : (idx.deltaRows S).length = idx.delta.toList.length := List.length_map _
    exact ordered_buildSegmentFromRows S (by omega) (by omega) (idx.nodup_deltaRows S) hsorted

theorem Sound.compact (S : Sorter)
    (fits : (idx.segments.flatMap Segment.rows).length < 2 ^ 32 ∧
      rowPostings (idx.segments.flatMap Segment.rows) < 2 ^ 32) : (idx.compact S).Sound := by
  unfold InvertedIndex.compact
  split
  · exact h
  · refine ⟨h.delta, ?_, fun t pl hpl => by simp at hpl⟩
    intro seg hseg
    obtain rfl := List.mem_singleton.mp hseg
    refine ordered_buildSegmentFromRows S ?_ ?_ (nodup_compactedRows S _)
      (sorted_compactedRows S _ fun seg hseg => (h.segments seg hseg).sorted)
    · rw [rowPostings_compactedRows]
      exact fits.2
    · exact (length_compactedRows_le S _).trans_lt fits.1

theorem Sound.setFinalized : ({ idx with finalized := true } : InvertedIndex).Sound :=
  ⟨h.delta, h.segments, h.cache⟩

theorem Sound.finalize (S : Sorter) (fits : idx.Fits) : (idx.finalize S).Sound := by
  unfold InvertedIndex.finalize
  split
  · exact h.setFinalized
  · have hflushed := h.buildSegmentFromDelta S fits
    simp only
    split
    · exact (hflushed.compact S (fits.flushed S)).setFinalized
    · exact hflushed.setFinalized

theorem Sound.saveTo (S : Sorter) (fits : idx.Fits) : (idx.saveTo S).1.Sound := by
  unfold InvertedIndex.saveTo
  simp only
  split
  · exact h
  · exact h.finalize S fits

end Writing

/-! ## Loading -/

theorem sound_empty : Sound {} where
  delta t e he := by simp at he
  segments seg hseg := by simp at hseg
  cache t pl hpl := by simp at hpl

/-- A segment that was read is numbered within 32 bits, and its index is that of its
terms. -/
theorem readSegment_index {input rest : Bytes} {seg : Segment}
    (h : readSegment input = some (seg, rest)) :
    seg.termKeys.length < 2 ^ 32 ∧
      seg.termIndex = Table.ofList
        (seg.termKeys.zipIdx.map fun p => (p.1, BitVec.ofNat 32 p.2)) := by
  simp only [readSegment, Option.bind_eq_bind, Option.bind_eq_some_iff, Option.pure_def,
    Option.some.injEq, Prod.mk.injEq] at h
  obtain ⟨⟨termCount, input₁⟩, hcount, -, -, ⟨termKeys, input₂⟩, hkeys, _, -, -, -, _, -, -, -,
    _, -, rfl, -⟩ := h
  refine ⟨?_, rfl⟩
  rw [Reader.length_times hkeys]
  exact Reader.field_lt hcount

theorem readBlob_segments {loaded : InvertedIndex} (h : readBlob blob = some loaded) :
    loaded.delta = ∅ ∧ loaded.mergeCache = ∅ ∧
      ∀ seg ∈ loaded.segments, ∃ before after, readSegment before = some (seg, after) := by
  simp only [readBlob, Option.bind_eq_bind, Option.bind_eq_some_iff, Option.pure_def,
    Option.some.injEq] at h
  obtain ⟨_, -, -, -, _, -, _, -, _, -, _, -, -, -, _, -, _, -, ⟨segments, _⟩, hsegs, rfl⟩ := h
  exact ⟨rfl, rfl, fun seg hseg => Reader.mem_times hsegs hseg⟩

theorem Sound.loadFrom {idx : InvertedIndex} (h : idx.Sound)
    (ok : idx.LookupStepOk (.loadFrom blob)) : (idx.loadFrom blob).1.Sound := by
  unfold InvertedIndex.loadFrom
  cases hblob : readBlob blob with
  | none => exact h
  | some loaded =>
    obtain ⟨hdelta, hcache, hsegs⟩ := readBlob_segments hblob
    refine ⟨fun t e he => by simp [hdelta] at he, fun seg hseg => ?_,
      fun t pl hpl => by simp [hcache] at hpl⟩
    obtain ⟨before, after, hread⟩ := hsegs seg hseg
    obtain ⟨hsmall, hindex⟩ := readSegment_index hread
    obtain ⟨hnodup, hsorted⟩ := ok loaded (by simp [hblob]) seg hseg
    refine ⟨hnodup, hsmall, fun t r => ?_, hsorted⟩
    rw [hindex]
    refine Table.find?_ofList_eq_some ?_
    simpa [List.map_map, Function.comp_def, List.zipIdx_map_fst] using hnodup

/-! ## Runs -/

theorem Sound.step {idx : InvertedIndex} (h : idx.Sound) (S : Sorter) {op : IndexOp}
    (ok : idx.LookupStepOk op) : (idx.step S op).Sound := by
  cases op with
  | addDocument docId tokens => exact h.addDocument ok
  | finalize => exact h.finalize S ok
  | compact =>
    obtain ⟨hterms, hpostings⟩ := ok
    exact h.compact S ⟨by omega, by omega⟩
  | saveTo => exact h.saveTo S ok
  | loadFrom blob => exact h.loadFrom ok
  | reset => exact sound_empty
  | getPostings term => exact (h.getPostings S term).1

/-- After every run whose calls meet the condition, a lookup returns exactly the postings
that are held, sorted by document. -/
theorem getPostings_run (S : Sorter) (ops : List IndexOp)
    (ok : Meets (step S) LookupStepOk {} ops) (t : Term) :
    let idx := run (step S) {} ops
    DocSorted (idx.getPostings S t).2 ∧ (idx.getPostings S t).2.Perm (idx.held t) :=
  ((ok.invariant (fun _ _ h hok => h.step S hok) sound_empty).getPostings S t).2

/-- A run over both kinds of source that meets the condition. -/
theorem getPostings_run_flushed :
    let ops : List IndexOp :=
      [.addDocument 7 [[65], [66]], .finalize, .addDocument 3 [[65], [65]], .getPostings [65],
        .addDocument 4 [[66]], .finalize, .addDocument 3 [[65]], .compact, .getPostings [65]]
    Meets (step .insertion) LookupStepOk {} ops ∧
      ((run (step .insertion) {} ops).getPostings .insertion [65]).2.Perm
        ((run (step .insertion) {} ops).held [65]) := by
  intro ops
  have ok : Meets (step .insertion) LookupStepOk {} ops := by decide
  exact ⟨ok, (getPostings_run .insertion ops ok [65]).2⟩

/-- A document added after its term was looked up is missing from the next lookup. -/
theorem getPostings_misses_document :
    let idx := run (step .insertion) {}
      [.addDocument 1 [[65]], .finalize, .addDocument 2 [[65]], .getPostings [65],
        .addDocument 3 [[65]]]
    ¬(idx.getPostings .insertion [65]).2.Perm (idx.held [65]) := by
  decide

end InvertedIndex

end KimixNative.Index
