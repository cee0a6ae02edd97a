import KimixNative.Index.InvertedIndex

/-!
# What an index holds

`held t` is every posting of `t` in the delta and in the rows of the segments, whether or
not a lookup finds it. A segment is `Ordered` when its index names the one row of each
term and every row is sorted by document; the segments built by a flush or a compaction
are, as long as their sizes fit 32 bits.
-/

namespace KimixNative.Index

/-! ## Rows -/

/-- The postings of a term among rows. -/
def heldRows (rows : List (Term × Postings)) (t : Term) : Postings :=
  (rows.filter fun r => r.1 = t).flatMap Prod.snd

@[simp] theorem heldRows_nil (t : Term) : heldRows [] t = [] := rfl

theorem heldRows_cons (r : Term × Postings) (rows : List (Term × Postings)) (t : Term) :
    heldRows (r :: rows) t = (if r.1 = t then r.2 else []) ++ heldRows rows t := by
  by_cases h : r.1 = t <;> simp [heldRows, h]

theorem heldRows_append (rows rows' : List (Term × Postings)) (t : Term) :
    heldRows (rows ++ rows') t = heldRows rows t ++ heldRows rows' t := by
  simp [heldRows]

theorem heldRows_perm {rows rows' : List (Term × Postings)} (h : rows.Perm rows') (t : Term) :
    (heldRows rows t).Perm (heldRows rows' t) :=
  (h.filter _).flatMap_right _

theorem heldRows_flatMap {ι : Type} (f : ι → List (Term × Postings)) (l : List ι) (t : Term) :
    heldRows (l.flatMap f) t = l.flatMap fun i => heldRows (f i) t := by
  induction l with
  | nil => rfl
  | cons i rest ih => simp [heldRows_append, ih]

variable {t : Term} {pl : Postings}

theorem heldRows_eq_nil {rows : List (Term × Postings)} (h : ∀ pl, (t, pl) ∉ rows) :
    heldRows rows t = [] := by
  induction rows with
  | nil => rfl
  | cons r rest ih =>
    rw [heldRows_cons, ih fun pl hpl => h pl (List.mem_cons_of_mem r hpl)]
    have hr : r.1 ≠ t := fun heq => h r.2 (by simp [← heq])
    simp [hr]

/-- With distinct terms a row holds all there is of its term. -/
theorem heldRows_of_mem {rows : List (Term × Postings)} (nodup : (rows.map Prod.fst).Nodup)
    (h : (t, pl) ∈ rows) : heldRows rows t = pl := by
  induction rows with
  | nil => simp at h
  | cons r rest ih =>
    rw [List.map_cons, List.nodup_cons] at nodup
    rw [heldRows_cons]
    obtain rfl | hmem := List.mem_cons.mp h
    · rw [heldRows_eq_nil]
      · simp
      · exact fun pl' hpl' => nodup.1 (List.mem_map.mpr ⟨_, hpl', rfl⟩)
    · have hr : r.1 ≠ t := fun heq => nodup.1 (heq ▸ List.mem_map.mpr ⟨_, hmem, rfl⟩)
      rw [if_neg hr, ih nodup.2 hmem, List.nil_append]

/-- The postings a term has in a segment. -/
def Segment.held (seg : Segment) (t : Term) : Postings := heldRows seg.rows t

namespace InvertedIndex

/-- The postings a term has in the delta. -/
def deltaHeld (idx : InvertedIndex) (t : Term) : Postings :=
  ((idx.delta.find? t).map DeltaEntry.postings).getD []

/-- The postings a term has in the delta and in all segments. -/
def held (idx : InvertedIndex) (t : Term) : Postings :=
  idx.deltaHeld t ++ idx.segments.flatMap (·.held t)

end InvertedIndex

/-! ## Ordered segments -/

/-- The index of the segment names the one row of each term, and the rows are sorted. -/
structure Segment.Ordered (seg : Segment) : Prop where
  nodup : seg.termKeys.Nodup
  small : seg.termKeys.length < 2 ^ 32
  index : ∀ t r, seg.termIndex.find? t = some r ↔
    (t, r) ∈ seg.termKeys.zipIdx.map fun p => (p.1, BitVec.ofNat 32 p.2)
  sorted : ∀ r ∈ seg.rows, DocSorted r.2

namespace Segment

theorem mem_rows {seg : Segment} :
    (t, pl) ∈ seg.rows ↔ ∃ i, seg.termKeys[i]? = some t ∧ seg.row i = pl := by
  simp only [rows, List.mem_map, Prod.mk.injEq, Prod.exists, List.mem_zipIdx_iff_getElem?]
  constructor
  · rintro ⟨key, i, hi, rfl, rfl⟩
    exact ⟨i, hi, rfl⟩
  · rintro ⟨i, hi, rfl⟩
    exact ⟨t, i, hi, rfl, rfl⟩

@[simp] theorem map_fst_rows (seg : Segment) : seg.rows.map Prod.fst = seg.termKeys := by
  simp [rows, List.map_map, Function.comp_def, List.zipIdx_map_fst]

variable {seg : Segment} (h : seg.Ordered)
include h

theorem Ordered.lookup_eq_some : seg.lookup t = some pl ↔ (t, pl) ∈ seg.rows := by
  rw [mem_rows, lookup, Option.map_eq_some_iff]
  have hsmall := h.small
  constructor
  · rintro ⟨r, hr, rfl⟩
    obtain ⟨⟨key, i⟩, hi, heq⟩ := List.mem_map.mp ((h.index t r).mp hr)
    obtain ⟨rfl, rfl⟩ := Prod.mk.inj heq
    have hget := List.mem_zipIdx_iff_getElem?.mp hi
    have hlt : i < seg.termKeys.length := (List.getElem?_eq_some_iff.mp hget).1
    have htn : (BitVec.ofNat 32 i).toNat = i := by
      rw [BitVec.toNat_ofNat]
      omega
    exact ⟨i, hget, by rw [htn]⟩
  · rintro ⟨i, hi, rfl⟩
    have hlt : i < seg.termKeys.length := (List.getElem?_eq_some_iff.mp hi).1
    refine ⟨BitVec.ofNat 32 i, (h.index t _).mpr ?_, ?_⟩
    · exact List.mem_map.mpr ⟨(t, i), List.mem_zipIdx_iff_getElem?.mpr hi, rfl⟩
    · rw [BitVec.toNat_ofNat]
      congr
      omega

/-- A lookup finds all the segment holds. -/
theorem Ordered.held_eq (t : Term) : seg.held t = (seg.lookup t).getD [] := by
  cases hl : seg.lookup t with
  | some pl =>
    exact heldRows_of_mem (by simpa using h.nodup) (h.lookup_eq_some.mp hl)
  | none =>
    refine heldRows_eq_nil fun pl hpl => ?_
    rw [h.lookup_eq_some.mpr hpl] at hl
    cases hl

theorem Ordered.lookup_sorted (hl : seg.lookup t = some pl) : DocSorted pl :=
  h.sorted _ (h.lookup_eq_some.mp hl)

end Segment

/-! ## Built segments -/

/-- The number of postings in rows. -/
def rowPostings (rows : List (Term × Postings)) : Nat := (rows.flatMap Prod.snd).length

theorem rowPostings_cons (r : Term × Postings) (rows : List (Term × Postings)) :
    rowPostings (r :: rows) = r.2.length + rowPostings rows := by
  simp [rowPostings]

theorem rowPostings_append (rows rows' : List (Term × Postings)) :
    rowPostings (rows ++ rows') = rowPostings rows + rowPostings rows' := by
  simp [rowPostings]

theorem rowPostings_perm {rows rows' : List (Term × Postings)} (h : rows.Perm rows') :
    rowPostings rows = rowPostings rows' :=
  (h.flatMap_right _).length_eq

/-- What the building loop has laid out after some rows. -/
structure Segment.Built (seg : Segment) (rows : List (Term × Postings)) : Prop where
  keys : seg.termKeys = rows.map Prod.fst
  postings : seg.postings = rows.flatMap Prod.snd
  offsets : ∀ i ≤ rows.length,
    seg.termOffsets[i]? = some (BitVec.ofNat 32 (rowPostings (rows.take i)))
  offsets_length : seg.termOffsets.length = rows.length + 1
  index : ∀ t, seg.termIndex.find? t =
    (Table.ofList ((rows.map Prod.fst).zipIdx.map fun p => (p.1, BitVec.ofNat 32 p.2))).find? t

namespace Segment

theorem built_nil : Built { termOffsets := [0] } [] where
  keys := rfl
  postings := rfl
  offsets i hi := by
    obtain rfl : i = 0 := Nat.le_zero.mp hi
    rfl
  offsets_length := rfl
  index t := rfl

variable {rows : List (Term × Postings)}

variable {seg : Segment}

theorem Built.appendRow (h : seg.Built rows) (r : Term × Postings) :
    (seg.appendRow r).Built (rows ++ [r]) where
  keys := by simp [Segment.appendRow, h.keys]
  postings := by simp [Segment.appendRow, h.postings]
  offsets i hi := by
    rw [List.length_append, List.length_singleton] at hi
    by_cases hlast : i ≤ rows.length
    · have hlt : i < seg.termOffsets.length := by
        rw [h.offsets_length]
        omega
      simp only [Segment.appendRow]
      rw [List.getElem?_append_left hlt, h.offsets i hlast, List.take_append_of_le_length hlast]
    · obtain rfl : i = rows.length + 1 := by omega
      simp only [Segment.appendRow]
      rw [← h.offsets_length, List.getElem?_concat_length, h.offsets_length,
        List.take_of_length_le (by simp), rowPostings_append, h.postings]
      simp [rowPostings]
  offsets_length := by simp [Segment.appendRow, h.offsets_length]
  index t := by
    simp only [Segment.appendRow]
    rw [Table.find?_emplaceAll, h.index, h.keys, Table.find?_ofList, Table.find?_ofList]
    simp only [List.map_append, List.map_cons, List.map_nil, List.zipIdx_append, List.length_map,
      List.lookup_append, List.zipIdx_singleton, Nat.zero_add]

theorem built_foldl (h : seg.Built rows) (more : List (Term × Postings)) :
    (more.foldl appendRow seg).Built (rows ++ more) := by
  induction more generalizing seg rows with
  | nil => simpa using h
  | cons r rest ih => simpa using ih (h.appendRow r)

/-- As long as the offsets fit, a row reads back what was laid out. -/
theorem Built.row_eq (h : seg.Built rows) (fits : rowPostings rows < 2 ^ 32) {i : Nat}
    {r : Term × Postings} (hr : rows[i]? = some r) : seg.row i = r.2 := by
  obtain ⟨hi, hget⟩ := List.getElem?_eq_some_iff.mp hr
  have hsplit : rows = rows.take i ++ r :: rows.drop (i + 1) := by
    rw [← hget, ← List.drop_eq_getElem_cons hi, List.take_append_drop]
  have htake : rows.take (i + 1) = rows.take i ++ [r] := by
    rw [List.take_add_one, hr]
    rfl
  have hsum : rowPostings rows =
      rowPostings (rows.take i) + (r.2.length + rowPostings (rows.drop (i + 1))) := by
    conv_lhs => rw [hsplit]
    rw [rowPostings_append, rowPostings_cons]
  have hstart : (seg.termOffsets.getD i 0).toNat = rowPostings (rows.take i) := by
    rw [List.getD_eq_getElem?_getD, h.offsets i hi.le, Option.getD_some, BitVec.toNat_ofNat]
    omega
  have hstop : (seg.termOffsets.getD (i + 1) 0).toNat =
      rowPostings (rows.take i) + r.2.length := by
    rw [List.getD_eq_getElem?_getD, h.offsets (i + 1) hi, Option.getD_some, BitVec.toNat_ofNat,
      htake, rowPostings_append]
    have : rowPostings [r] = r.2.length := by simp [rowPostings]
    omega
  have hpost : seg.postings =
      (rows.take i).flatMap Prod.snd ++ (r.2 ++ (rows.drop (i + 1)).flatMap Prod.snd) := by
    rw [h.postings]
    conv_lhs => rw [hsplit]
    simp
  rw [row, hstart, hstop, hpost, Nat.add_sub_cancel_left, rowPostings, List.drop_left,
    List.take_left]

theorem Built.rows_eq (h : seg.Built rows) (fits : rowPostings rows < 2 ^ 32) :
    seg.rows = rows := by
  have hlen : seg.termKeys.length = rows.length := by simp [h.keys]
  refine List.ext_getElem? fun i => ?_
  simp only [Segment.rows, List.getElem?_map, List.getElem?_zipIdx]
  cases hr : rows[i]? with
  | none =>
    have : seg.termKeys[i]? = none := by
      rw [List.getElem?_eq_none_iff] at hr ⊢
      omega
    simp [this]
  | some r =>
    have : seg.termKeys[i]? = some r.1 := by simp [h.keys, hr]
    simp [this, h.row_eq fits hr]

end Segment

section Build

variable (S : Sorter) {rows : List (Term × Postings)}

/-- The rows of a built segment are those it was built from, in the order of their terms. -/
theorem rows_buildSegmentFromRows (fits : rowPostings rows < 2 ^ 32) :
    (buildSegmentFromRows S rows).rows =
      S.sort (fun a b => decide (termKey a.1 < termKey b.1)) rows := by
  have hb := Segment.built_foldl Segment.built_nil
    (S.sort (fun a b => decide (termKey a.1 < termKey b.1)) rows)
  rw [List.nil_append] at hb
  exact hb.rows_eq (by rwa [rowPostings_perm (S.perm _ _)])

theorem held_buildSegmentFromRows (fits : rowPostings rows < 2 ^ 32) (t : Term) :
    ((buildSegmentFromRows S rows).held t).Perm (heldRows rows t) := by
  rw [Segment.held, rows_buildSegmentFromRows S fits]
  exact heldRows_perm (S.perm _ _) t

/-- A segment built from sorted rows of distinct terms is ordered. -/
theorem ordered_buildSegmentFromRows (fits : rowPostings rows < 2 ^ 32)
    (small : rows.length < 2 ^ 32) (nodup : (rows.map Prod.fst).Nodup)
    (sorted : ∀ r ∈ rows, DocSorted r.2) : (buildSegmentFromRows S rows).Ordered := by
  have hb := Segment.built_foldl Segment.built_nil
    (S.sort (fun a b => decide (termKey a.1 < termKey b.1)) rows)
  rw [List.nil_append] at hb
  have hperm := S.perm (fun a b => decide (termKey a.1 < termKey b.1)) rows
  have hnodup : (buildSegmentFromRows S rows).termKeys.Nodup := by
    rw [buildSegmentFromRows, hb.keys]
    exact (hperm.map Prod.fst).nodup_iff.mpr nodup
  refine ⟨hnodup, ?_, fun t r => ?_, fun r hr => ?_⟩
  · rw [buildSegmentFromRows, hb.keys, List.length_map, hperm.length_eq]
    exact small
  · have hfst : (((buildSegmentFromRows S rows).termKeys.zipIdx.map
        fun p => (p.1, BitVec.ofNat 32 p.2)).map Prod.fst).Nodup := by
      simpa [List.map_map, Function.comp_def, List.zipIdx_map_fst] using hnodup
    rw [← Table.find?_ofList_eq_some hfst, buildSegmentFromRows, hb.index, hb.keys]
  · rw [rows_buildSegmentFromRows S fits] at hr
    exact sorted r (S.mem_sort.mp hr)

end Build

/-! ## Grouping and merging rows -/

theorem termKey_injective : Function.Injective termKey :=
  List.map_injective_iff.mpr fun _ _ h => BitVec.eq_of_toNat_eq h

variable {g : Term × List Postings} {refs : List (Term × Postings)}

/-- Every list in a group is the row of that term. -/
theorem mem_groupRuns (hg : g ∈ groupRuns refs) : g.2 ≠ [] ∧ ∀ pl ∈ g.2, (g.1, pl) ∈ refs := by
  induction refs generalizing g with
  | nil => simp [groupRuns] at hg
  | cons ref rest ih =>
    obtain ⟨key, pl⟩ := ref
    have lift : ∀ g ∈ groupRuns rest, g.2 ≠ [] ∧ ∀ pl' ∈ g.2, (g.1, pl') ∈ (key, pl) :: rest :=
      fun g hg => ⟨(ih hg).1, fun pl' hpl' => List.mem_cons_of_mem _ ((ih hg).2 pl' hpl')⟩
    rw [groupRuns] at hg
    cases hrest : groupRuns rest with
    | nil =>
      rw [hrest] at hg
      obtain rfl := List.mem_singleton.mp hg
      simp
    | cons g' groups =>
      obtain ⟨key', pls⟩ := g'
      rw [hrest] at lift hg
      simp only at hg
      split at hg
      · next heq =>
          subst heq
          obtain rfl | hg := List.mem_cons.mp hg
          · refine ⟨by simp, fun pl' hpl' => ?_⟩
            obtain rfl | hpl' := List.mem_cons.mp hpl'
            · exact List.mem_cons_self
            · exact (lift (key, pls) List.mem_cons_self).2 pl' hpl'
          · exact lift g (List.mem_cons_of_mem _ hg)
      · obtain rfl | hg := List.mem_cons.mp hg
        · simp
        · exact lift g hg

/-- On sorted references the groups have increasing terms. -/
theorem groupRuns_increasing (h : refs.Pairwise fun a b => termKey a.1 ≤ termKey b.1) :
    (groupRuns refs).Pairwise fun a b => termKey a.1 < termKey b.1 := by
  induction refs with
  | nil => simp [groupRuns]
  | cons ref rest ih =>
    obtain ⟨key, pl⟩ := ref
    obtain ⟨hle, hrest⟩ := List.pairwise_cons.mp h
    have ihr := ih hrest
    have hkeys : ∀ g ∈ groupRuns rest, termKey key ≤ termKey g.1 := by
      intro g hg
      obtain ⟨hne, hmem⟩ := mem_groupRuns hg
      obtain ⟨pl', hpl'⟩ := List.exists_mem_of_ne_nil _ hne
      exact hle _ (hmem pl' hpl')
    rw [groupRuns]
    cases hg : groupRuns rest with
    | nil => simp
    | cons g' groups =>
      obtain ⟨key', pls⟩ := g'
      rw [hg] at ihr hkeys
      obtain ⟨hlt, hpair⟩ := List.pairwise_cons.mp ihr
      simp only
      split
      · next heq =>
          subst heq
          exact List.pairwise_cons.mpr ⟨hlt, hpair⟩
      · next hne =>
          have hfirst : termKey key < termKey key' :=
            lt_of_le_of_ne (hkeys _ List.mem_cons_self) fun heq =>
              hne (termKey_injective heq)
          refine List.pairwise_cons.mpr ⟨fun g hg' => ?_, ihr⟩
          obtain rfl | hg' := List.mem_cons.mp hg'
          · exact hfirst
          · exact hfirst.trans (hlt g hg')

theorem mergeRun_fst (g : Term × List Postings) : (mergeRun g).1 = g.1 := by
  unfold mergeRun
  split <;> rfl

theorem mergeRun_perm (g : Term × List Postings) : (mergeRun g).2.Perm g.2.flatten := by
  unfold mergeRun
  split
  · next pl hpl => simp [hpl]
  · exact kWayMerge_perm _

theorem mergeRun_sorted (h : ∀ pl ∈ g.2, DocSorted pl) : DocSorted (mergeRun g).2 := by
  unfold mergeRun
  split
  · next pl hpl => exact h pl (by simp [hpl])
  · exact kWayMerge_sorted h

/-- Grouping and merging keeps the postings of every term. -/
theorem heldRows_groupRuns (refs : List (Term × Postings)) (t : Term) :
    (heldRows ((groupRuns refs).map mergeRun) t).Perm (heldRows refs t) := by
  have groups : ∀ gs : List (Term × List Postings),
      (heldRows (gs.map mergeRun) t).Perm
        ((gs.filter fun g => g.1 = t).flatMap fun g => g.2.flatten) := by
    intro gs
    induction gs with
    | nil => simp
    | cons g gs ih =>
      rw [List.map_cons, heldRows_cons, mergeRun_fst]
      by_cases hg : g.1 = t
      · simpa [hg] using (mergeRun_perm g).append ih
      · simpa [hg] using ih
  refine (groups _).trans (List.Perm.of_eq ?_)
  induction refs with
  | nil => rfl
  | cons ref rest ih =>
    obtain ⟨key, pl⟩ := ref
    rw [heldRows_cons, ← ih, groupRuns]
    cases groupRuns rest with
    | nil => by_cases hk : key = t <;> simp [hk]
    | cons g' gs =>
      obtain ⟨key', pls⟩ := g'
      simp only
      split
      · next heq =>
          subst heq
          by_cases hk : key = t <;> simp [hk]
      · by_cases hk : key = t <;> simp [hk]

theorem rowPostings_groupRuns (refs : List (Term × Postings)) :
    rowPostings ((groupRuns refs).map mergeRun) = rowPostings refs := by
  have groups : ∀ gs : List (Term × List Postings),
      rowPostings (gs.map mergeRun) = (gs.flatMap fun g => g.2.flatten).length := by
    intro gs
    induction gs with
    | nil => rfl
    | cons g gs ih =>
      rw [List.map_cons, rowPostings_cons, ih, (mergeRun_perm g).length_eq]
      simp
  rw [groups]
  induction refs with
  | nil => rfl
  | cons ref rest ih =>
    obtain ⟨key, pl⟩ := ref
    rw [rowPostings_cons, ← ih, groupRuns]
    cases groupRuns rest with
    | nil => simp
    | cons g' gs =>
      obtain ⟨key', pls⟩ := g'
      simp only
      split <;> simp

theorem length_groupRuns_le (refs : List (Term × Postings)) :
    (groupRuns refs).length ≤ refs.length := by
  induction refs with
  | nil => simp [groupRuns]
  | cons ref rest ih =>
    obtain ⟨key, pl⟩ := ref
    rw [groupRuns]
    cases hg : groupRuns rest with
    | nil => simp
    | cons g' gs =>
      rw [hg, List.length_cons] at ih
      simp only
      split <;> simp only [List.length_cons] <;> omega

section Compaction

variable (S : Sorter) (segments : List Segment)

/-- Compaction keeps the postings of every term. -/
theorem heldRows_compactedRows (t : Term) :
    (heldRows (InvertedIndex.compactedRows S segments) t).Perm
      (segments.flatMap (·.held t)) := by
  refine (heldRows_groupRuns _ t).trans ((heldRows_perm (S.perm _ _) t).trans ?_)
  rw [heldRows_flatMap]
  exact .refl _

theorem rowPostings_compactedRows :
    rowPostings (InvertedIndex.compactedRows S segments) =
      rowPostings (segments.flatMap Segment.rows) :=
  (rowPostings_groupRuns _).trans (rowPostings_perm (S.perm _ _))

theorem length_compactedRows_le :
    (InvertedIndex.compactedRows S segments).length ≤ (segments.flatMap Segment.rows).length := by
  rw [InvertedIndex.compactedRows, List.length_map]
  exact (length_groupRuns_le _).trans (S.perm _ _).length_eq.le

theorem nodup_compactedRows :
    ((InvertedIndex.compactedRows S segments).map Prod.fst).Nodup := by
  have hsorted : (S.sort (fun a b => decide (termKey a.1 < termKey b.1))
      (segments.flatMap Segment.rows)).Pairwise fun a b => termKey a.1 ≤ termKey b.1 :=
    S.sorted (fun r : Term × Postings => termKey r.1) (fun a b => decide_eq_true_iff) _
  have hfst : Prod.fst ∘ mergeRun = Prod.fst := funext mergeRun_fst
  rw [InvertedIndex.compactedRows, List.map_map, hfst, List.Nodup, List.pairwise_map]
  refine (groupRuns_increasing hsorted).imp ?_
  intro a b hlt heq
  exact hlt.ne (congrArg termKey heq)

theorem sorted_compactedRows (h : ∀ seg ∈ segments, ∀ r ∈ seg.rows, DocSorted r.2) :
    ∀ r ∈ InvertedIndex.compactedRows S segments, DocSorted r.2 := by
  intro r hr
  obtain ⟨g, hg, rfl⟩ := List.mem_map.mp hr
  refine mergeRun_sorted fun pl hpl => ?_
  have hmem := S.mem_sort.mp ((mem_groupRuns hg).2 pl hpl)
  obtain ⟨seg, hseg, hrow⟩ := List.mem_flatMap.mp hmem
  exact h seg hseg _ hrow

end Compaction

/-! ## Flushes and compactions keep what is held -/

theorem sort_perm (S : Sorter) (e : DeltaEntry) : (e.sort S).postings.Perm e.postings := by
  unfold DeltaEntry.sort
  split
  · exact .refl _
  · simp only
    split
    · exact S.perm _ _
    · exact .refl _

namespace InvertedIndex

variable (S : Sorter) (idx : InvertedIndex)

theorem rowPostings_deltaRows :
    rowPostings (idx.deltaRows S) =
      rowPostings (idx.delta.toList.map fun e => (e.1, e.2.postings)) := by
  unfold deltaRows
  induction idx.delta.toList with
  | nil => rfl
  | cons e rest ih => simp [rowPostings_cons, ih, (sort_perm S e.2).length_eq]

theorem nodup_deltaRows : ((idx.deltaRows S).map Prod.fst).Nodup := by
  have := idx.delta.keys_nodup
  rw [Table.keys_eq_map] at this
  simpa [deltaRows, List.map_map, Function.comp_def] using this

theorem heldRows_deltaRows (t : Term) :
    (heldRows (idx.deltaRows S) t).Perm (idx.deltaHeld t) := by
  unfold deltaHeld
  cases he : idx.delta.find? t with
  | none =>
    rw [heldRows_eq_nil]
    · exact .refl _
    · intro pl hpl
      obtain ⟨⟨t', e⟩, hmem, heq⟩ := List.mem_map.mp hpl
      obtain ⟨rfl, -⟩ := Prod.mk.inj heq
      rw [Table.mem_toList, he] at hmem
      cases hmem
  | some e =>
    have hmem : (t, (e.sort S).postings) ∈ idx.deltaRows S :=
      List.mem_map.mpr ⟨(t, e), Table.mem_toList.mpr he, rfl⟩
    rw [heldRows_of_mem (idx.nodup_deltaRows S) hmem]
    exact sort_perm S e

/-- A flush moves postings from the delta to a segment and loses none. -/
theorem held_buildSegmentFromDelta (fits : rowPostings (idx.deltaRows S) < 2 ^ 32) (t : Term) :
    ((idx.buildSegmentFromDelta S).held t).Perm (idx.held t) := by
  have hseg := (held_buildSegmentFromRows S fits t).trans (idx.heldRows_deltaRows S t)
  simp only [held, buildSegmentFromDelta, deltaHeld, Table.find?_empty, List.flatMap_append,
    List.flatMap_singleton]
  exact (hseg.append_left _).trans List.perm_append_comm

/-- A compaction merges rows and loses no posting. -/
theorem held_compact (fits : rowPostings (idx.segments.flatMap Segment.rows) < 2 ^ 32)
    (t : Term) : ((idx.compact S).held t).Perm (idx.held t) := by
  unfold compact
  split
  · exact .refl _
  · have hrows : rowPostings (compactedRows S idx.segments) < 2 ^ 32 := by
      rwa [rowPostings_compactedRows]
    have hseg := (held_buildSegmentFromRows S hrows t).trans
      (heldRows_compactedRows S idx.segments t)
    simp only [held, deltaHeld, List.flatMap_singleton]
    exact hseg.append_left _

end InvertedIndex

end KimixNative.Index
