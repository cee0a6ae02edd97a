import KimixNative.Stream.LineRuns

/-!
# Repeated blocks

The block mode looks at every position for the tallest block that repeats more often than
the threshold, keeps one copy of it with the number of repeats, and goes on behind the last
repeat. Its marks are only ever set behind the position it is at, so they never stop it,
and the output is a list of pieces that partition the lines.
-/

namespace KimixNative.Stream

/-! ## Copies of a block -/

section Copies

variable {α : Type}

/-- `n` copies of a block, one after the other. -/
def copies (n : Nat) (block : List α) : List α := (List.replicate n block).flatten

@[simp] theorem copies_zero (block : List α) : copies 0 block = [] := rfl

theorem copies_succ (n : Nat) (block : List α) : copies (n + 1) block = block ++ copies n block := by
  rw [copies, List.replicate_succ, List.flatten_cons, copies]

theorem length_copies (n : Nat) (block : List α) : (copies n block).length = block.length * n := by
  rw [copies, List.length_flatten, List.map_replicate, List.sum_replicate_nat, Nat.mul_comm]

/-- In front of something that does not start with the block, `n` copies are `n` copies. -/
theorem copies_prefix_iff {block rest : List α} (h : ¬block <+: rest) (m n : Nat) :
    copies m block <+: copies n block ++ rest ↔ m ≤ n := by
  induction m generalizing n with
  | zero => simp
  | succ m ih =>
    cases n with
    | zero =>
      refine iff_of_false ?_ (by omega)
      rw [copies_zero, List.nil_append, copies_succ]
      exact fun hcopies => h ((List.prefix_append _ _).trans hcopies)
    | succ n =>
      rw [copies_succ, copies_succ, List.append_assoc, List.prefix_append_right_inj, ih]
      omega

end Copies

/-! ## Counting -/

theorem blockEq_iff {lines : List Bytes} {i j h : Nat} :
    blockEq lines i j h = true ↔ (lines.drop i).take h = (lines.drop j).take h := by
  rw [blockEq, List.all_eq_true]
  constructor
  · intro hall
    refine List.ext_getElem? fun k => ?_
    rw [List.getElem?_take, List.getElem?_take, List.getElem?_drop, List.getElem?_drop]
    by_cases hk : k < h
    · rw [if_pos hk, if_pos hk]
      exact beq_iff_eq.mp (hall k (List.mem_range.mpr hk))
    · rw [if_neg hk, if_neg hk]
  · intro heq k hk
    have hk := List.mem_range.mp hk
    have hget := congrArg (·[k]?) heq
    simp only [List.getElem?_take, List.getElem?_drop, if_pos hk] at hget
    exact beq_iff_eq.mpr hget

/-- No mark stands at or behind the position. -/
def Clear (consumed : List Bool) (i : Nat) : Prop := ∀ k, i ≤ k → consumed[k]? ≠ some true

theorem Clear.any_eq_false {consumed : List Bool} {i j : Nat} (h : Clear consumed i) (hij : i ≤ j)
    (n : Nat) : ((List.range n).any fun k => consumed[j + k]? == some true) = false := by
  rw [List.any_eq_false]
  intro k _
  rw [beq_iff_eq]
  exact h (j + k) (by omega)

theorem Clear.consume {consumed : List Bool} {i : Nat} (h : Clear consumed i) (count : Nat) :
    Clear (Stream.consume consumed i count) (i + count) := by
  have hmarks : ∀ k, i + count ≤ k → (Stream.consume consumed i count)[k]? = consumed[k]? := by
    induction count with
    | zero => exact fun k _ => rfl
    | succ count ih =>
      intro k hk
      rw [Stream.consume, List.range_succ, List.foldl_append, List.foldl_cons, List.foldl_nil,
        List.getElem?_set_ne (by omega)]
      exact ih k (by omega)
  intro k hk
  rw [hmarks k hk]
  exact h k (by omega)

/-- The count is the number of copies of the block in front of what follows. -/
theorem countRepeats_spec {lines : List Bytes} {consumed : List Bool} {i h : Nat}
    (clear : Clear consumed i) (pos : 0 < h) (fits : i + h ≤ lines.length) {j : Nat} (hij : i ≤ j) :
    ∃ rest, lines.drop j =
        copies (countRepeats lines consumed i h j) ((lines.drop i).take h) ++ rest ∧
      ¬(lines.drop i).take h <+: rest := by
  have hlen : ((lines.drop i).take h).length = h := by
    rw [List.length_take, List.length_drop]
    omega
  induction hn : lines.length - j using Nat.strong_induction_on generalizing j with
  | _ n ih =>
    have hstop : ¬(lines.drop i).take h <+: lines.drop j → ∃ rest, lines.drop j =
        copies 0 ((lines.drop i).take h) ++ rest ∧ ¬(lines.drop i).take h <+: rest :=
      fun hnot => ⟨lines.drop j, rfl, hnot⟩
    rw [countRepeats, if_neg pos.ne']
    split
    · next hfit =>
        rw [clear.any_eq_false hij, Bool.not_false, Bool.and_true]
        split
        · next heq =>
            obtain ⟨rest, hrest, hnot⟩ := ih (lines.length - (j + h)) (by omega)
              (show i ≤ j + h by omega) rfl
            refine ⟨rest, ?_, hnot⟩
            rw [copies_succ, List.append_assoc, ← hrest, blockEq_iff.mp heq, ← List.drop_drop]
            exact (List.take_append_drop h _).symm
        · next hne =>
            refine hstop fun hpre => hne (blockEq_iff.mpr ?_)
            rw [List.prefix_iff_eq_take, hlen] at hpre
            exact hpre
    · next hfit =>
        refine hstop fun hpre => ?_
        have hle := hpre.length_le
        rw [hlen, List.length_drop] at hle
        omega

theorem tallestBlock_eq_some {threshold : Nat} {lines : List Bytes} {consumed : List Bool}
    {i hMax h repeats : Nat}
    (hblock : tallestBlock threshold lines consumed i hMax = some (h, repeats)) :
    0 < h ∧ h ≤ hMax ∧ threshold < repeats ∧ repeats = countRepeats lines consumed i h i := by
  induction hMax with
  | zero => cases hblock
  | succ hMax ih =>
    rw [tallestBlock] at hblock
    split at hblock
    · next hmany =>
        obtain ⟨rfl, rfl⟩ := Prod.mk.inj (Option.some.inj hblock)
        exact ⟨Nat.succ_pos _, le_refl _, hmany, rfl⟩
    · obtain ⟨hpos, hle, hmany, heq⟩ := ih hblock
      exact ⟨hpos, Nat.le_succ_of_le hle, hmany, heq⟩

theorem tallestBlock_eq_none {threshold : Nat} {lines : List Bytes} {consumed : List Bool}
    {i hMax : Nat} (hblock : tallestBlock threshold lines consumed i hMax = none) :
    ∀ h, 0 < h → h ≤ hMax → countRepeats lines consumed i h i ≤ threshold := by
  induction hMax with
  | zero => exact fun h hpos hle => absurd hle (by omega)
  | succ hMax ih =>
    rw [tallestBlock] at hblock
    split at hblock
    · cases hblock
    · next hfew =>
        intro h hpos hle
        obtain hlt | rfl := Nat.lt_or_eq_of_le hle
        · exact ih hblock h hpos (Nat.le_of_lt_succ hlt)
        · exact Nat.le_of_not_lt hfew

/-! ## Pieces -/

/-- A line that is kept, or a block with its repeats. -/
inductive Piece where
  | line (line : Bytes)
  | run (block : List Bytes) (repeats : Nat)
  deriving DecidableEq, Repr

namespace Piece

/-- The lines a piece stands for. -/
def source : Piece → List Bytes
  | line l => [l]
  | run block repeats => copies repeats block

/-- What is output for a piece: a block once, its last line annotated. -/
def shown : Piece → List Bytes
  | line l => [l]
  | run block repeats => block.dropLast ++ [annotate (block.getLastD []) repeats]

/-- What holds of a piece in front of the lines `rest`. A run repeats its block more often
than the threshold and as often as it can; at a kept line no block repeats so often. -/
def Settled (threshold window : Nat) (rest : List Bytes) : Piece → Prop
  | line l => ∀ block, block ≠ [] → block.length ≤ window →
      ¬copies (threshold + 1) block <+: l :: rest
  | run block repeats => block ≠ [] ∧ block.length ≤ window ∧ threshold < repeats ∧
      ¬block <+: rest

end Piece

/-- The pieces cover the lines in order, and each is settled. -/
inductive Partition (threshold window : Nat) : List Piece → List Bytes → Prop
  | nil : Partition threshold window [] []
  | cons {piece : Piece} {pieces : List Piece} {rest : List Bytes} :
      piece.Settled threshold window rest → Partition threshold window pieces rest →
      Partition threshold window (piece :: pieces) (piece.source ++ rest)

theorem Partition.flatMap_source {threshold window : Nat} {pieces : List Piece}
    {lines : List Bytes} (h : Partition threshold window pieces lines) :
    pieces.flatMap Piece.source = lines := by
  induction h with
  | nil => rfl
  | cons _ _ ih => rw [List.flatMap_cons, ih]

section Step

variable {threshold window : Nat} {lines : List Bytes} {consumed : List Bool} {i : Nat}

/-- A block that is collapsed. -/
theorem run_settled (clear : Clear consumed i) {h repeats : Nat}
    (hblock : tallestBlock threshold lines consumed i (min window (lines.length - i)) =
      some (h, repeats)) :
    lines.drop i = copies repeats ((lines.drop i).take h) ++ lines.drop (i + h * repeats) ∧
      Piece.Settled threshold window (lines.drop (i + h * repeats))
        (.run ((lines.drop i).take h) repeats) := by
  obtain ⟨hpos, hle, hmany, hcount⟩ := tallestBlock_eq_some hblock
  have hfits : i + h ≤ lines.length := by omega
  obtain ⟨rest, hrest, hnot⟩ := countRepeats_spec clear hpos hfits (le_refl i)
  rw [← hcount] at hrest
  have hlen : ((lines.drop i).take h).length = h := by
    rw [List.length_take, List.length_drop]
    omega
  have hdrop : lines.drop (i + h * repeats) = rest := by
    rw [← List.drop_drop, hrest]
    refine List.drop_left' ?_
    rw [length_copies, hlen]
  rw [hdrop]
  refine ⟨hrest, ?_, ?_, hmany, hnot⟩
  · rw [← List.length_pos_iff_ne_nil, hlen]
    exact hpos
  · rw [hlen]
    omega

/-- A line that is kept: a block that repeats too often would have been found. -/
theorem line_settled (clear : Clear consumed i) (hi : i < lines.length)
    (hblock : tallestBlock threshold lines consumed i (min window (lines.length - i)) = none) :
    Piece.Settled threshold window (lines.drop (i + 1)) (.line lines[i]) := by
  intro block hne hwindow hcopies
  rw [← List.drop_eq_getElem_cons hi] at hcopies
  have hpos : 0 < block.length := List.length_pos_iff_ne_nil.mpr hne
  have hpre : block <+: lines.drop i := by
    rw [copies_succ] at hcopies
    exact (List.prefix_append _ _).trans hcopies
  have hle := hpre.length_le
  rw [List.length_drop] at hle
  have hfew := tallestBlock_eq_none hblock block.length hpos (by omega)
  obtain ⟨rest, hrest, hnot⟩ :=
    countRepeats_spec clear hpos (show i + block.length ≤ lines.length by omega) (le_refl i)
  rw [← List.prefix_iff_eq_take.mp hpre] at hrest hnot
  rw [hrest, copies_prefix_iff hnot] at hcopies
  omega

/-- The lines output for a block. -/
theorem shown_run {h repeats : Nat} (pos : 0 < h) (fits : i + h ≤ lines.length) :
    (lines.drop i).take (h - 1) ++ [annotate (lines[i + h - 1]?.getD []) repeats] =
      (Piece.run ((lines.drop i).take h) repeats).shown := by
  have hlen : ((lines.drop i).take h).length = h := by
    rw [List.length_take, List.length_drop]
    omega
  have hlast : ((lines.drop i).take h).getLastD [] = lines[i + h - 1]?.getD [] := by
    rw [List.getLastD_eq_getLast?, List.getLast?_eq_getElem?, hlen, List.getElem?_take,
      if_pos (by omega), List.getElem?_drop, Nat.add_sub_assoc pos]
  have hinit : ((lines.drop i).take h).dropLast = (lines.drop i).take (h - 1) := by
    rw [List.dropLast_eq_take, hlen, List.take_take, Nat.min_eq_left (Nat.sub_le h 1)]
  rw [Piece.shown, hlast, hinit]

end Step

/-- The loop from a position without marks on. -/
theorem blockLoop_pieces (threshold window : Nat) (lines : List Bytes) {consumed : List Bool}
    {i : Nat} (clear : Clear consumed i) : ∃ pieces,
    Partition threshold window pieces (lines.drop i) ∧
      blockLoop threshold window lines consumed i = pieces.flatMap Piece.shown := by
  induction hn : lines.length - i using Nat.strong_induction_on generalizing i consumed with
  | _ n ih =>
    rw [blockLoop]
    split
    · next hi =>
        rw [if_neg (clear i (le_refl i))]
        split
        · next h repeats hblock =>
            obtain ⟨hpos, hle, hmany, -⟩ := tallestBlock_eq_some hblock
            have hmul : 0 < h * repeats := Nat.mul_pos hpos (by omega)
            obtain ⟨pieces, hpieces, hloop⟩ := ih _ (by omega) (clear.consume (h * repeats)) rfl
            obtain ⟨hsource, hsettled⟩ := run_settled clear hblock
            refine ⟨.run ((lines.drop i).take h) repeats :: pieces, ?_, ?_⟩
            · have hcons := Partition.cons hsettled hpieces
              rwa [Piece.source, ← hsource] at hcons
            · rw [hloop, List.flatMap_cons, shown_run hpos (by omega)]
        · next hblock =>
            obtain ⟨pieces, hpieces, hloop⟩ := ih _ (by omega) (clear.consume 1) rfl
            refine ⟨.line lines[i] :: pieces, ?_, ?_⟩
            · rw [List.drop_eq_getElem_cons hi]
              exact .cons (line_settled clear hi hblock) hpieces
            · rw [hloop]
              rfl
    · next hi =>
        rw [List.drop_eq_nil_of_le (Nat.le_of_not_lt hi)]
        exact ⟨[], .nil, rfl⟩

theorem dedupLines_blocks {opts : ProcessOptions} (mode : opts.dedupMode ≠ 1)
    (window : 1 < opts.blockWindow) (lines : List Bytes) : ∃ pieces,
    Partition opts.threshold opts.blockWindow pieces lines ∧
      dedupLines opts lines = pieces.flatMap Piece.shown := by
  have clear : Clear (List.replicate lines.length false) 0 := by
    intro k _
    rw [List.getElem?_replicate]
    split <;> simp
  obtain ⟨pieces, hpieces, hloop⟩ := blockLoop_pieces opts.threshold opts.blockWindow lines clear
  rw [List.drop_zero] at hpieces
  refine ⟨pieces, hpieces, ?_⟩
  rw [dedupLines, if_neg (by omega), hloop]

/-- In block mode what is folded and emitted are the pieces of a partition of the lines, and
writing out the repeats gives the lines back. -/
theorem emitDeduped_blocks {opts : ProcessOptions} (mode : opts.dedupMode ≠ 1)
    (window : 1 < opts.blockWindow) (s : Sink) : ∃ pieces,
    Partition opts.threshold opts.blockWindow pieces s.lines ∧
      pieces.flatMap Piece.source = s.lines ∧
      (emitDeduped opts s).2 = ((emitSegments opts).feed s
        ((pieces.flatMap Piece.shown).flatMap (segments opts.foldCol))).2 := by
  obtain ⟨pieces, hpieces, hlines⟩ := dedupLines_blocks mode window s.lines
  refine ⟨pieces, hpieces, hpieces.flatMap_source, ?_⟩
  rw [emitDeduped, hlines]

/-- Two periods that overlap, at threshold one. -/
theorem emitDeduped_blocks_overlap :
    let opts : ProcessOptions := { dedupMode := 2, threshold := 1, blockWindow := 2 }
    let s : Sink := { lines := [[1], [2], [1], [2], [1], [1], [3]] }
    (dedupLines opts s.lines = [[1], annotate [2] 2, annotate [1] 2, [3]]) ∧
      ∃ pieces, Partition opts.threshold opts.blockWindow pieces s.lines ∧
        pieces.flatMap Piece.source = s.lines ∧
        (emitDeduped opts s).2 = ((emitSegments opts).feed s
          ((pieces.flatMap Piece.shown).flatMap (segments opts.foldCol))).2 := by
  intro opts s
  exact ⟨by decide +kernel, emitDeduped_blocks (by decide) (by decide) s⟩

end KimixNative.Stream
