import KimixNative.Diff.Hunks
import Mathlib.Data.List.DropRight

/-!
# Inline ranges

`inline_diff_ranges` compares two lines code point by code point and returns the changed ranges as
offsets into the lines with their tabs expanded. The offsets come from the column that
`expand_tabs` counts for its tab stops, and that column starts again behind a line break. So the
ranges are in order where no line break stands between their ends, or where the column has caught up
again behind it.
-/

namespace KimixNative.Diff

/-! ### Code points -/

/-- The byte continues a sequence. -/
def isContinuation (b : Byte) : Bool := decide (b.toNat / 0x40 = 0x02)

/-- One round of the decoder: the code point, and how many bytes behind the first belong to it. A
sequence that breaks off counts for one byte. -/
def codePointAt (c : Byte) (rest : Bytes) : Nat × Nat :=
  if c.toNat < 0x80 then (c.toNat, 0)
  else if c.toNat / 0x20 = 0x06 then
    match rest with
    | c1 :: _ =>
      if isContinuation c1 then (c.toNat % 0x20 * 0x40 + c1.toNat % 0x40, 1) else (0xFFFD, 0)
    | _ => (0xFFFD, 0)
  else if c.toNat / 0x10 = 0x0E then
    match rest with
    | c1 :: c2 :: _ =>
      if isContinuation c1 ∧ isContinuation c2 then
        (c.toNat % 0x10 * 0x1000 + c1.toNat % 0x40 * 0x40 + c2.toNat % 0x40, 2)
      else (0xFFFD, 0)
    | _ => (0xFFFD, 0)
  else if c.toNat / 0x08 = 0x1E then
    match rest with
    | c1 :: c2 :: c3 :: _ =>
      if isContinuation c1 ∧ isContinuation c2 ∧ isContinuation c3 then
        (c.toNat % 0x08 * 0x40000 + c1.toNat % 0x40 * 0x1000 + c2.toNat % 0x40 * 0x40 +
          c3.toNat % 0x40, 3)
      else (0xFFFD, 0)
    | _ => (0xFFFD, 0)
  else (0xFFFD, 0)

/-- The loop of the decoder, `skip` bytes having been read already. -/
def decodeFrom : Nat → Bytes → List Nat
  | _, [] => []
  | skip + 1, _ :: rest => decodeFrom skip rest
  | 0, c :: rest => (codePointAt c rest).1 :: decodeFrom (codePointAt c rest).2 rest

/-- `decode_utf8_surrogatepass`. -/
def decodeUtf8Surrogatepass (s : Bytes) : List Nat := decodeFrom 0 s

/-- `'\n'` or `'\r'`. -/
def isBreak (cp : Nat) : Bool := decide (cp = 0x0A ∨ cp = 0x0D)

/-! ### Tabs -/

/-- The locals of `expand_tabs`. -/
structure TabState where
  out : List Nat := []
  offsetMap : List Nat := []
  col : Nat := 0

/-- The loop body. -/
def TabState.push (tabSize : Nat) (st : TabState) (cp : Nat) : TabState :=
  let offsetMap := st.offsetMap ++ [st.col]
  if cp = 0x09 then
    let spaces := tabSize - st.col % tabSize
    ⟨st.out ++ List.replicate spaces 0x20, offsetMap, st.col + spaces⟩
  else if isBreak cp then ⟨st.out ++ [cp], offsetMap, 0⟩
  else ⟨st.out ++ [cp], offsetMap, st.col + 1⟩

/-- `expand_tabs`: the expanded code points and `offset_map`. -/
def expandTabs (cps : List Nat) (tabSize : Nat) : List Nat × List Nat :=
  let st := cps.foldl (TabState.push tabSize) {}
  (st.out, st.offsetMap ++ [st.col])

/-! ### Ranges -/

/-- `offset_range`. -/
structure OffsetRange where
  start : Nat
  stop : Nat
  deriving DecidableEq

/-- The code points that opcodes keep. -/
def matchCount (opcodes : List Opcode) : Nat :=
  opcodes.foldl (fun n op => if op.tag = .equal then n + (op.i2 - op.i1) else n) 0

/-- The ranges that are pushed onto `deletes`, by their places in the old line. -/
def deletedRanges (opcodes : List Opcode) : List OffsetRange :=
  (opcodes.filter fun op => op.tag = .delete ∨ op.tag = .replace).map fun op => ⟨op.i1, op.i2⟩

/-- The ranges that are pushed onto `inserts`, by their places in the new line. -/
def insertedRanges (opcodes : List Opcode) : List OffsetRange :=
  (opcodes.filter fun op => op.tag = .insert ∨ op.tag = .replace).map fun op => ⟨op.j1, op.j2⟩

/-- A range looked up in an offset map. -/
def OffsetRange.through (map : List Nat) (r : OffsetRange) : OffsetRange :=
  ⟨map.getD r.start 0, map.getD r.stop 0⟩

/-- `inline_diff_ranges`. Whether the ratio of so many matches among so many code points is below
`min_ratio` is a comparison of doubles, and left to `belowRatio`. -/
def inlineDiffRanges (belowRatio : Nat → Nat → Bool) (oldLine newLine : Bytes) (tabSize : Nat) :
    List OffsetRange × List OffsetRange :=
  let oldCps := decodeUtf8Surrogatepass oldLine
  let newCps := decodeUtf8Surrogatepass newLine
  let opcodes := computeOpcodes oldCps newCps
  if belowRatio (matchCount opcodes) (oldCps.length + newCps.length) then ([], [])
  else
    ((deletedRanges opcodes).map (OffsetRange.through (expandTabs oldCps tabSize).2),
      (insertedRanges opcodes).map (OffsetRange.through (expandTabs newCps tabSize).2))

/-- The ranges are in order, apart, and inside a text of the length. -/
def WellFormedRanges (length : Nat) (ranges : List OffsetRange) : Prop :=
  (∀ r ∈ ranges, r.start ≤ r.stop ∧ r.stop ≤ length) ∧
    ranges.Pairwise fun r r' => r.stop ≤ r'.start

/-! ### Columns -/

/-- The column behind a code point. -/
def nextColumn (tabSize col cp : Nat) : Nat :=
  if cp = 0x09 then col + (tabSize - col % tabSize) else if isBreak cp then 0 else col + 1

/-- The column behind code points. -/
def column (tabSize : Nat) (cps : List Nat) : Nat := cps.foldl (nextColumn tabSize) 0

/-- What stands behind the last line break. -/
def currentLine (cps : List Nat) : List Nat := cps.rtakeWhile fun cp => !isBreak cp

theorem column_concat (tabSize : Nat) (cps : List Nat) (cp : Nat) :
    column tabSize (cps ++ [cp]) = nextColumn tabSize (column tabSize cps) cp := by
  rw [column, List.foldl_append]
  rfl

/-- The column is the width of the current line. -/
theorem column_eq_currentLine (tabSize : Nat) (cps : List Nat) :
    column tabSize cps = column tabSize (currentLine cps) := by
  induction cps using List.reverseRecOn with
  | nil => rfl
  | append_singleton cps cp ih =>
    rw [column_concat, currentLine]
    cases hbreak : isBreak cp with
    | true =>
      have htab : cp ≠ 0x09 := by
        rintro rfl
        exact absurd hbreak (by decide)
      rw [List.rtakeWhile_concat_neg _ _ _ (by simp [hbreak]), nextColumn, if_neg htab,
        if_pos hbreak]
      rfl
    | false =>
      rw [List.rtakeWhile_concat_pos _ _ _ (by simp [hbreak]), column_concat, ← currentLine, ih]

variable {tabSize : Nat} {cps : List Nat} {ops : List Opcode}

/-- Without a line break the column does not fall. -/
theorem column_le_append (cps : List Nat) {more : List Nat} (h : ∀ cp ∈ more, isBreak cp = false) :
    column tabSize cps ≤ column tabSize (cps ++ more) := by
  induction more using List.reverseRecOn with
  | nil => rw [List.append_nil]
  | append_singleton more cp ih =>
    have hcp := h cp (List.mem_append_right more List.mem_cons_self)
    have hstep : column tabSize (cps ++ more) ≤
        nextColumn tabSize (column tabSize (cps ++ more)) cp := by
      rw [nextColumn, hcp]
      split <;> simp
    rw [← List.append_assoc, column_concat]
    exact le_trans (ih fun c hc => h c (List.mem_append_left _ hc)) hstep

/-- What the loop of `expand_tabs` has done: the map holds the columns, and the expanded text is at
least as long as the column. -/
structure TabState.Counts (tabSize : Nat) (cps : List Nat) (st : TabState) : Prop where
  col : st.col = column tabSize cps
  width : st.col ≤ st.out.length
  map : st.offsetMap = (List.range cps.length).map fun i => column tabSize (cps.take i)

theorem TabState.Counts.push {tabSize : Nat} {cps : List Nat} {st : TabState}
    (h : st.Counts tabSize cps) (cp : Nat) : (st.push tabSize cp).Counts tabSize (cps ++ [cp]) := by
  have hmap : st.offsetMap ++ [st.col] = (List.range (cps ++ [cp]).length).map fun i =>
      column tabSize ((cps ++ [cp]).take i) := by
    rw [List.length_append, List.length_singleton, List.range_succ, List.map_append, h.map, h.col,
      List.map_singleton, List.take_left']
    · congr 1
      refine List.map_congr_left fun i hi => ?_
      rw [List.take_append_of_le_length (List.mem_range.mp hi).le]
    · rfl
  have hcol := column_concat tabSize cps cp
  rw [← h.col] at hcol
  have hwidth := h.width
  rw [nextColumn] at hcol
  rw [TabState.push]
  split
  · next htab =>
      rw [if_pos htab] at hcol
      exact ⟨hcol.symm, by simp; omega, hmap⟩
  · next htab =>
      rw [if_neg htab] at hcol
      split
      · next hbreak =>
          rw [if_pos hbreak] at hcol
          exact ⟨hcol.symm, Nat.zero_le _, hmap⟩
      · next hbreak =>
          rw [if_neg hbreak] at hcol
          exact ⟨hcol.symm, by simp; omega, hmap⟩

theorem counts_foldl (tabSize : Nat) (cps : List Nat) :
    (cps.foldl (TabState.push tabSize) {}).Counts tabSize cps := by
  induction cps using List.reverseRecOn with
  | nil => exact ⟨rfl, Nat.le_refl 0, rfl⟩
  | append_singleton cps cp ih =>
    rw [List.foldl_append]
    exact ih.push cp

theorem TabState.length_out_le_foldl (tabSize : Nat) (st : TabState) (cps : List Nat) :
    st.out.length ≤ (cps.foldl (TabState.push tabSize) st).out.length := by
  induction cps generalizing st with
  | nil => exact Nat.le_refl _
  | cons cp cps ih =>
    refine le_trans ?_ (ih (st.push tabSize cp))
    rw [TabState.push]
    split
    · simp
    · split <;> simp

/-- The offset map tells the column in front of every code point, and behind the last. -/
theorem getD_offsetMap {i : Nat} (hi : i ≤ cps.length) :
    (expandTabs cps tabSize).2.getD i 0 = column tabSize (cps.take i) := by
  obtain ⟨hcol, -, hmap⟩ := counts_foldl tabSize cps
  have hwhole : (expandTabs cps tabSize).2 =
      (List.range (cps.length + 1)).map fun i => column tabSize (cps.take i) := by
    rw [List.range_succ, List.map_append, List.map_singleton, List.take_length, ← hmap, ← hcol]
    rfl
  rw [hwhole, List.getD_eq_getElem?_getD, List.getElem?_map, List.getElem?_range (by omega)]
  rfl

/-- No column lies outside the expanded text. -/
theorem column_take_le (tabSize : Nat) (cps : List Nat) (i : Nat) :
    column tabSize (cps.take i) ≤ (expandTabs cps tabSize).1.length := by
  obtain ⟨hcol, hwidth, -⟩ := counts_foldl tabSize (cps.take i)
  have hgrows := TabState.length_out_le_foldl tabSize
    ((cps.take i).foldl (TabState.push tabSize) {}) (cps.drop i)
  rw [← List.foldl_append, List.take_append_drop] at hgrows
  rw [← hcol]
  exact le_trans hwidth hgrows

/-! ### The ranges of the opcodes -/

/-- The opcodes climb through both lines. -/
theorem Covers.climbs {i j i' j' : Nat} (h : Covers i j ops i' j') :
    (∀ op ∈ ops, (i ≤ op.i1 ∧ op.i1 ≤ op.i2 ∧ op.i2 ≤ i') ∧
        (j ≤ op.j1 ∧ op.j1 ≤ op.j2 ∧ op.j2 ≤ j')) ∧
      ops.Pairwise fun op op' => op.i2 ≤ op'.i1 ∧ op.j2 ≤ op'.j1 := by
  induction h with
  | nil => exact ⟨fun op hop => absurd hop List.not_mem_nil, .nil⟩
  | cons op hi hj h ih =>
    obtain ⟨hinside, hpairwise⟩ := ih
    have hle := h.le
    refine ⟨List.forall_mem_cons.mpr ⟨by omega, fun op' hop' => ?_⟩,
      List.pairwise_cons.mpr ⟨fun op' hop' => ?_, hpairwise⟩⟩
    · have := hinside op' hop'
      omega
    · have := hinside op' hop'
      omega

theorem wellFormed_deletedRanges {i' j' : Nat} (h : Covers 0 0 ops i' j') :
    WellFormedRanges i' (deletedRanges ops) := by
  obtain ⟨hinside, hpairwise⟩ := h.climbs
  refine ⟨fun r hr => ?_, List.pairwise_map.mpr ((hpairwise.filter _).imp fun hle => hle.1)⟩
  obtain ⟨op, hop, rfl⟩ := List.mem_map.mp hr
  have := hinside op (List.mem_of_mem_filter hop)
  exact ⟨this.1.2.1, this.1.2.2⟩

theorem wellFormed_insertedRanges {i' j' : Nat} (h : Covers 0 0 ops i' j') :
    WellFormedRanges j' (insertedRanges ops) := by
  obtain ⟨hinside, hpairwise⟩ := h.climbs
  refine ⟨fun r hr => ?_, List.pairwise_map.mpr ((hpairwise.filter _).imp fun hle => hle.2)⟩
  obtain ⟨op, hop, rfl⟩ := List.mem_map.mp hr
  have := hinside op (List.mem_of_mem_filter hop)
  exact ⟨this.2.2.1, this.2.2.2⟩

/-! ### When the offsets climb -/

/-- From one place to a later one: no line break stands between them, or the line at the second
is no narrower than the line at the first. -/
def Rising (tabSize : Nat) (cps : List Nat) (i j : Nat) : Prop :=
  (∀ cp ∈ stretch cps i j, isBreak cp = false) ∨
    column tabSize (currentLine (cps.take i)) ≤ column tabSize (currentLine (cps.take j))

/-- From end to end of the ranges. -/
def RisingRanges (tabSize : Nat) (cps : List Nat) (ranges : List OffsetRange) : Prop :=
  (∀ r ∈ ranges, Rising tabSize cps r.start r.stop) ∧
    ranges.IsChain fun r r' => Rising tabSize cps r.stop r'.start

theorem rising_iff {i j : Nat} (hij : i ≤ j) :
    Rising tabSize cps i j ↔ column tabSize (cps.take i) ≤ column tabSize (cps.take j) := by
  rw [Rising, ← column_eq_currentLine, ← column_eq_currentLine]
  refine or_iff_right_of_imp fun hflat => ?_
  have htake : cps.take i ++ stretch cps i j = cps.take j := by
    rw [stretch, ← List.take_add, Nat.add_sub_of_le hij]
  rw [← htake]
  exact column_le_append (cps.take i) hflat

variable {ranges : List OffsetRange}

/-- Ranges of which each ends before the next begins are apart. -/
theorem pairwise_of_isChain (hle : ∀ r ∈ ranges, r.start ≤ r.stop)
    (h : ranges.IsChain fun r r' => r.stop ≤ r'.start) :
    ranges.Pairwise fun r r' => r.stop ≤ r'.start := by
  induction ranges with
  | nil => exact .nil
  | cons r ranges ih =>
    obtain ⟨hr, hranges⟩ := List.forall_mem_cons.mp hle
    obtain ⟨hnext, hrest⟩ := List.isChain_cons.mp h
    have hpairwise := ih hranges hrest
    refine List.pairwise_cons.mpr ⟨fun r' hr' => ?_, hpairwise⟩
    cases ranges with
    | nil => cases hr'
    | cons first rest =>
      have hfirst := hnext first rfl
      rcases List.mem_cons.mp hr' with rfl | hmem
      · exact hfirst
      · have := hranges first List.mem_cons_self
        have := List.rel_of_pairwise_cons hpairwise hmem
        omega

/-- Ranges of a line keep their order through the offset map if and only if the columns of their
ends rise. They never leave the expanded line. -/
theorem wellFormed_through_iff (h : WellFormedRanges cps.length ranges) :
    WellFormedRanges (expandTabs cps tabSize).1.length
        (ranges.map (OffsetRange.through (expandTabs cps tabSize).2)) ↔
      RisingRanges tabSize cps ranges := by
  obtain ⟨hinside, hapart⟩ := h
  have hthrough : ∀ r ∈ ranges, r.through (expandTabs cps tabSize).2 =
      ⟨column tabSize (cps.take r.start), column tabSize (cps.take r.stop)⟩ := by
    intro r hr
    have := hinside r hr
    rw [OffsetRange.through, getD_offsetMap (by omega), getD_offsetMap this.2]
  have hmap : ranges.map (OffsetRange.through (expandTabs cps tabSize).2) =
      ranges.map fun r => ⟨column tabSize (cps.take r.start), column tabSize (cps.take r.stop)⟩ :=
    List.map_congr_left hthrough
  rw [hmap]
  constructor
  · rintro ⟨hrange, hpairwise⟩
    refine ⟨fun r hr => ?_, ?_⟩
    · exact (rising_iff (hinside r hr).1).mpr (hrange _ (List.mem_map_of_mem hr)).1
    · have hboth := (List.pairwise_map.mp hpairwise).and hapart
      exact hboth.isChain.imp fun r r' hle => (rising_iff hle.2).mpr hle.1
  · rintro ⟨hrange, hchain⟩
    have hle : ∀ r ∈ ranges,
        column tabSize (cps.take r.start) ≤ column tabSize (cps.take r.stop) :=
      fun r hr => (rising_iff (hinside r hr).1).mp (hrange r hr)
    refine ⟨fun r hr => ?_, pairwise_of_isChain (fun r hr => ?_) ?_⟩
    · obtain ⟨r', hr', rfl⟩ := List.mem_map.mp hr
      exact ⟨hle r' hr', column_take_le tabSize cps r'.stop⟩
    · obtain ⟨r', hr', rfl⟩ := List.mem_map.mp hr
      exact hle r' hr'
    · rw [List.isChain_map]
      refine List.isChain_iff_getElem.mpr fun i hi => ?_
      have hnext := List.pairwise_iff_getElem.mp hapart i (i + 1) (by omega) hi (by omega)
      exact (rising_iff hnext).mp (List.isChain_iff_getElem.mp hchain i hi)

/-- The highlighted ranges of two lines are in order, apart and inside the expanded lines if and
only if there are none, the lines being too different, or the columns of their ends rise in both
lines. -/
theorem inlineDiffRanges_wellFormed_iff (belowRatio : Nat → Nat → Bool) (oldLine newLine : Bytes)
    (tabSize : Nat) :
    let oldCps := decodeUtf8Surrogatepass oldLine
    let newCps := decodeUtf8Surrogatepass newLine
    let opcodes := computeOpcodes oldCps newCps
    let ranges := inlineDiffRanges belowRatio oldLine newLine tabSize
    WellFormedRanges (expandTabs oldCps tabSize).1.length ranges.1 ∧
        WellFormedRanges (expandTabs newCps tabSize).1.length ranges.2 ↔
      belowRatio (matchCount opcodes) (oldCps.length + newCps.length) = true ∨
        RisingRanges tabSize oldCps (deletedRanges opcodes) ∧
          RisingRanges tabSize newCps (insertedRanges opcodes) := by
  intro oldCps newCps opcodes ranges
  have hcovers := (computeOpcodes_normalForm oldCps newCps).1
  have hempty : ∀ length, WellFormedRanges length [] :=
    fun length => ⟨fun r hr => absurd hr List.not_mem_nil, .nil⟩
  by_cases hbelow : belowRatio (matchCount opcodes) (oldCps.length + newCps.length) = true
  · have hranges : ranges = ([], []) := if_pos hbelow
    rw [hranges]
    exact iff_of_true ⟨hempty _, hempty _⟩ (Or.inl hbelow)
  · have hranges : ranges =
        ((deletedRanges opcodes).map (OffsetRange.through (expandTabs oldCps tabSize).2),
          (insertedRanges opcodes).map (OffsetRange.through (expandTabs newCps tabSize).2)) :=
      if_neg hbelow
    rw [hranges, or_iff_right hbelow,
      ← wellFormed_through_iff (wellFormed_deletedRanges hcovers),
      ← wellFormed_through_iff (wellFormed_insertedRanges hcovers)]

/-- A deleted line break: the range ends in front of its start. -/
theorem inlineDiffRanges_line_break :
    ¬ WellFormedRanges (expandTabs (decodeUtf8Surrogatepass [0x61#8, 0x62#8, 0x0A#8, 0x63#8]) 4).1.length
      (inlineDiffRanges (fun _ _ => false) [0x61#8, 0x62#8, 0x0A#8, 0x63#8] [0x61#8, 0x62#8] 4).1 := by
  have hranges :
      (inlineDiffRanges (fun _ _ => false) [0x61#8, 0x62#8, 0x0A#8, 0x63#8] [0x61#8, 0x62#8] 4).1 =
        [⟨2, 1⟩] := by
    decide +kernel
  rw [hranges]
  rintro ⟨hrange, -⟩
  exact absurd (hrange _ List.mem_cons_self).1 (by decide)

end KimixNative.Diff
