import KimixNative.Tools.FuzzyReplace

/-!
# Fuzzy blocks

The range of the best block is counted from the lengths of the lines, with one byte for what ends
each of them. It is the range of the block as long as nothing longer ends a line in front.
-/

namespace KimixNative.Tools

open Text

variable {S : Type} [LinearOrder S]

/-- The loop of `find_fuzzy_block`: the best score so far and where it was found. -/
def bestBlockLoop (score : Nat → Option S) : S × Nat → List Nat → Option (S × Nat)
  | best, [] => some best
  | best, i :: rest =>
    match score i with
    | none => none
    | some s => bestBlockLoop score (if best.1 < s then (s, i) else best) rest

/-- The score of the window at line `i`. -/
def blockScore (fuzzRatio : Bytes → Bytes → Option S) (content : Bytes) (blockLines : List Bytes)
    (i : Nat) : Option S :=
  fuzzRatio (joinLf (((splitLines content).drop i).take blockLines.length)) (joinLf blockLines)

/-- The lengths of lines, each with one byte for its end. -/
def countedLength (lines : List Bytes) : Nat := (lines.map fun line => line.length + 1).sum

/-- `find_fuzzy_block`; `fuzzRatio` gives the score divided by 100 and refuses texts that are too
long. -/
def findFuzzyBlock [Zero S] (fuzzRatio : Bytes → Bytes → Option S) (content : Bytes)
    (blockLines : List Bytes) (threshold : S) : Except ToolError (Option (Nat × Nat)) :=
  if blockLines = [] then .ok none
  else
    let contentLines := splitLines content
    let windowSize := blockLines.length
    if windowSize > contentLines.length then .ok none
    else
      match bestBlockLoop (blockScore fuzzRatio content blockLines) (0, 0)
          (List.range (contentLines.length + 1 - windowSize)) with
      | none =>
        .error { status := .tooLarge
                 message := ascii "fuzz_ratio input exceeds the native length cap" }
      | some (bestScore, bestIdx) =>
        if bestScore < threshold then .ok none
        else
          let startChar := countedLength (contentLines.take bestIdx)
          .ok (some (startChar,
            startChar + countedLength ((contentLines.drop bestIdx).take windowSize) - 1))

/-! ### The best window -/

/-- The earliest of the first `m` windows with the highest score. -/
structure BestWindow (score : Nat → Option S) (m i : Nat) (s : S) : Prop where
  lt : i < m
  scored : score i = some s
  highest : ∀ j < m, ∀ t, score j = some t → t ≤ s
  earliest : ∀ j < i, ∀ t, score j = some t → t < s

variable {score : Nat → Option S}

theorem exists_bestWindow {m : Nat} (h : ∀ j < m + 1, ∃ t, score j = some t) :
    ∃ i s, BestWindow score (m + 1) i s := by
  induction m with
  | zero =>
    obtain ⟨s, hs⟩ := h 0 Nat.one_pos
    refine ⟨0, s, Nat.one_pos, hs, fun j hj t ht => ?_, fun j hj => absurd hj (Nat.not_lt_zero j)⟩
    obtain rfl : j = 0 := by omega
    exact (Option.some.inj (hs.symm.trans ht)).ge
  | succ m ih =>
    obtain ⟨i, s, hi, hs, hhigh, hearly⟩ := ih fun j hj => h j (by omega)
    obtain ⟨t, ht⟩ := h (m + 1) (Nat.lt_succ_self _)
    by_cases hlt : s < t
    · refine ⟨m + 1, t, Nat.lt_succ_self _, ht, fun j hj u hu => ?_,
        fun j hj u hu => (hhigh j hj u hu).trans_lt hlt⟩
      rcases Nat.lt_succ_iff_lt_or_eq.mp hj with hj | rfl
      · exact (hhigh j hj u hu).trans hlt.le
      · exact (Option.some.inj (ht.symm.trans hu)).ge
    · refine ⟨i, s, Nat.lt_succ_of_lt hi, hs, fun j hj u hu => ?_, hearly⟩
      rcases Nat.lt_succ_iff_lt_or_eq.mp hj with hj | rfl
      · exact hhigh j hj u hu
      · exact Option.some.inj (ht.symm.trans hu) ▸ not_lt.mp hlt

theorem bestBlockLoop_scored {rest : List Nat} {best found : S × Nat}
    (hrun : bestBlockLoop score best rest = some found) : ∀ j ∈ rest, ∃ t, score j = some t := by
  induction rest generalizing best with
  | nil => exact fun j hj => absurd hj List.not_mem_nil
  | cons i rest ih =>
    rw [bestBlockLoop] at hrun
    split at hrun
    · cases hrun
    · rename_i t ht
      exact List.forall_mem_cons.mpr ⟨⟨t, ht⟩, ih hrun⟩

/-- Scores that do not beat the best so far leave it. -/
theorem bestBlockLoop_keeps {rest : List Nat} {best found : S × Nat}
    (h : ∀ j ∈ rest, ∀ t, score j = some t → t ≤ best.1)
    (hrun : bestBlockLoop score best rest = some found) : found = best := by
  induction rest with
  | nil => exact (Option.some.inj hrun).symm
  | cons i rest ih =>
    obtain ⟨hi, hrest⟩ := List.forall_mem_cons.mp h
    rw [bestBlockLoop] at hrun
    split at hrun
    · cases hrun
    · rename_i t ht
      rw [if_neg (not_lt.mpr (hi t ht))] at hrun
      exact ih hrest hrun

/-- A best window that beats the start is found. -/
theorem bestBlockLoop_best {m i n : Nat} {s : S} {best found : S × Nat} (h : BestWindow score m i s)
    (hni : n ≤ i) (hlow : best.1 < s)
    (hrun : bestBlockLoop score best (List.range' n (m - n)) = some found) : found = (s, i) := by
  induction hk : i - n generalizing n best with
  | zero =>
    obtain rfl : n = i := by omega
    rw [show m - n = m - (n + 1) + 1 by have := h.lt; omega, List.range'_succ, bestBlockLoop,
      h.scored] at hrun
    dsimp only at hrun
    rw [if_pos hlow] at hrun
    refine bestBlockLoop_keeps (fun j hj => h.highest j ?_) hrun
    have hj := (List.mem_range'_1.mp hj).2
    have hlt := h.lt
    omega
  | succ k ih =>
    rw [show m - n = m - (n + 1) + 1 by have := h.lt; omega, List.range'_succ, bestBlockLoop] at hrun
    split at hrun
    · cases hrun
    · rename_i t ht
      refine ih (n := n + 1) (by omega) ?_ hrun (by omega)
      split
      · exact h.earliest n (by omega) t ht
      · exact hlow

/-! ### Lengths of lines -/

/-- Every line in front of the last one has an end. -/
theorem length_splitLinesKeepends (rest : Bytes) (skip : Nat) (line : Bytes) :
    List.Forall₂ (fun l k : Bytes => l.length + 1 ≤ k.length)
      (splitLinesFrom skip line rest).dropLast (splitLinesKeependsFrom skip line rest).dropLast := by
  induction rest generalizing skip line with
  | nil =>
    simp only [splitLinesKeependsFrom, splitLinesFrom]
    split
    · exact .nil
    · exact .nil
  | cons c rest ih =>
    cases skip with
    | succ skip => exact ih skip line
    | zero =>
      rw [splitLinesKeependsFrom, splitLinesFrom]
      cases separatorLength c rest with
      | zero => exact ih 0 (line ++ [c])
      | succ term =>
        have hlen := (splitLinesKeependsFrom_spec rest term []).2.length_eq
        dsimp only
        cases hlines : splitLinesFrom term [] rest with
        | nil =>
          rw [hlines, List.length_nil] at hlen
          rw [List.eq_nil_of_length_eq_zero hlen.symm]
          exact .nil
        | cons l lines =>
          have hne : splitLinesKeependsFrom term [] rest ≠ [] := fun hnil => by
            rw [hlines, hnil] at hlen
            cases hlen
          rw [List.dropLast_cons_of_ne_nil (List.cons_ne_nil l lines), ← hlines,
            List.dropLast_cons_of_ne_nil hne]
          refine .cons ?_ (ih term [])
          rw [List.length_append, List.length_cons]
          omega

theorem countedLength_eq_iff {lines keepends : List Bytes}
    (h : List.Forall₂ (fun l k : Bytes => l.length + 1 ≤ k.length) lines keepends) :
    countedLength lines ≤ keepends.flatten.length ∧
      (countedLength lines = keepends.flatten.length ↔
        List.Forall₂ (fun l k : Bytes => k.length = l.length + 1) lines keepends) := by
  induction h with
  | nil => exact ⟨Nat.le_refl 0, fun _ => .nil, fun _ => rfl⟩
  | @cons l k lines keepends hl _ ih =>
    obtain ⟨hle, hiff⟩ := ih
    rw [countedLength, List.map_cons, List.sum_cons, List.flatten_cons, List.length_append,
      List.forall₂_cons, ← hiff]
    rw [countedLength] at hle ⊢
    exact ⟨by omega, fun h => ⟨by omega, by omega⟩, fun h => by omega⟩

/-- Each of the first lines has an end of one byte. -/
def EndsInOneByte (content : Bytes) (count : Nat) : Prop :=
  List.Forall₂ (fun l k : Bytes => k.length = l.length + 1) ((splitLines content).take count)
    ((splitLinesKeepends content).take count)

theorem countedLength_spec {content : Bytes} {count : Nat}
    (hcount : count < (splitLines content).length) :
    countedLength ((splitLines content).take count) ≤ (windowFront content count).length ∧
      (countedLength ((splitLines content).take count) = (windowFront content count).length ↔
        EndsInOneByte content count) := by
  have hlen : (splitLinesKeepends content).length = (splitLines content).length :=
    (splitLinesKeependsFrom_spec content 0 []).2.length_eq.symm
  have hends := List.forall₂_take count (length_splitLinesKeepends content 0 [])
  rw [List.dropLast_eq_take, List.dropLast_eq_take, List.take_take, List.take_take] at hends
  have hmin : min count ((splitLines content).length - 1) = count := by omega
  have hmin' : min count ((splitLinesKeepends content).length - 1) = count := by omega
  rw [show (splitLinesFrom 0 [] content) = splitLines content from rfl, hmin,
    show (splitLinesKeependsFrom 0 [] content) = splitLinesKeepends content from rfl, hmin'] at hends
  exact countedLength_eq_iff hends

/-! ### The range -/

/-- The range from the first byte of line `i` to the end of the last of `count` lines, without what
ends that line. -/
def BlockRange (content : Bytes) (i count : Nat) (range : Nat × Nat) : Prop :=
  range.1 = (windowFront content i).length ∧
    range.2 = range.1 + (windowSpan content i count).length ∧ range.2 ≤ content.length

theorem countedLength_take_succ {lines : List Bytes} {m : Nat} (hm : m < lines.length) :
    countedLength (lines.take (m + 1)) = countedLength (lines.take m) + (lines.getD m []).length + 1 := by
  rw [countedLength, countedLength, List.take_add_one, List.getElem?_eq_getElem hm,
    List.getD_eq_getElem?_getD, List.getElem?_eq_getElem hm, Option.toList_some, List.map_append,
    List.sum_append, List.map_singleton, List.sum_singleton]
  rfl

/-- Counting gives the range of the window exactly behind ends of one byte. -/
theorem blockRange_iff {content : Bytes} {i count : Nat} (hcount : 0 < count)
    (hi : i + count ≤ (splitLines content).length) :
    BlockRange content i count (countedLength ((splitLines content).take i),
        countedLength ((splitLines content).take i) +
          countedLength (((splitLines content).drop i).take count) - 1) ↔
      EndsInOneByte content (i + count - 1) := by
  have hsplit : countedLength ((splitLines content).take i) +
      countedLength (((splitLines content).drop i).take count) =
        countedLength ((splitLines content).take (i + count)) := by
    rw [List.take_add, countedLength, countedLength, countedLength, List.map_append, List.sum_append]
  have hlast := @countedLength_take_succ (splitLines content) (i + count - 1) (by omega)
  rw [show i + count - 1 + 1 = i + count by omega] at hlast
  have hspan : (windowFront content i).length + (windowSpan content i count).length =
      (windowFront content (i + count - 1)).length +
        ((splitLines content).getD (i + count - 1) []).length := by
    rw [windowSpan, List.length_append, ← Nat.add_assoc, windowFront, windowFront,
      ← List.length_append, ← List.flatten_append, ← List.take_add,
      show i + (count - 1) = i + count - 1 by omega]
  have hall := congrArg List.length (window_eq hcount hi)
  rw [List.length_append, List.length_append] at hall
  rw [BlockRange, hsplit, hlast, ← (countedLength_spec (by omega)).2]
  dsimp only
  refine ⟨fun h => by omega, fun h => ?_⟩
  have hfront : EndsInOneByte content i := by
    have hmore := List.forall₂_take i ((countedLength_spec (by omega)).2.mp h)
    rwa [List.take_take, List.take_take, Nat.min_eq_left (by omega)] at hmore
  have hstart := (countedLength_spec (by omega)).2.mpr hfront
  omega

/-- The range that is returned is that of the earliest window with the highest score exactly when
this score is positive, or the window the first one, and each line in front of the last line of the
window has an end of one byte. -/
theorem findFuzzyBlock_range [Zero S] (fuzzRatio : Bytes → Bytes → Option S) (content : Bytes)
    (blockLines : List Bytes) (threshold : S) (range : Nat × Nat)
    (h : findFuzzyBlock fuzzRatio content blockLines threshold = .ok (some range)) :
    ∃ i s, BestWindow (blockScore fuzzRatio content blockLines)
        ((splitLines content).length + 1 - blockLines.length) i s ∧
      (BlockRange content i blockLines.length range ↔
        (i = 0 ∨ 0 < s) ∧ EndsInOneByte content (i + blockLines.length - 1)) := by
  unfold findFuzzyBlock at h
  split at h
  · cases h
  · rename_i hne
    have hcount := List.length_pos_of_ne_nil hne
    dsimp only at h
    split at h
    · cases h
    · rename_i hfits
      split at h
      · cases h
      · rename_i bestScore bestIdx hrun
        obtain ⟨m, hm⟩ : ∃ m, (splitLines content).length + 1 - blockLines.length = m + 1 :=
          ⟨(splitLines content).length - blockLines.length, by omega⟩
        rw [hm] at hrun ⊢
        obtain ⟨i, s, hbest⟩ := exists_bestWindow fun j hj =>
          bestBlockLoop_scored hrun j (List.mem_range.mpr hj)
        refine ⟨i, s, hbest, ?_⟩
        have hi := hbest.lt
        split at h
        · cases h
        · obtain rfl := Option.some.inj (Except.ok.inj h)
          have hrange := @blockRange_iff content i blockLines.length hcount (by omega)
          by_cases hpos : 0 < s
          · obtain ⟨-, rfl⟩ := Prod.mk.inj (bestBlockLoop_best hbest (Nat.zero_le i) hpos
              (by rwa [List.range_eq_range'] at hrun))
            rw [hrange]
            exact ⟨fun h => ⟨.inr hpos, h⟩, And.right⟩
          · obtain ⟨-, rfl⟩ := Prod.mk.inj (bestBlockLoop_keeps (fun j hj t ht =>
              (hbest.highest j (List.mem_range.mp hj) t ht).trans (not_lt.mp hpos)) hrun)
            by_cases hzero : i = 0
            · subst hzero
              rw [hrange]
              exact ⟨fun h => ⟨.inl rfl, h⟩, And.right⟩
            · refine ⟨fun hblock => ?_, fun h => absurd h.1 (by simp [hzero, hpos])⟩
              -- the window is not the first one, and the range begins at the first byte
              have hle := (@countedLength_spec content i (by omega)).1
              have hfirst := @countedLength_take_succ (splitLines content) (i - 1) (by omega)
              rw [Nat.sub_add_cancel (Nat.pos_of_ne_zero hzero)] at hfirst
              have hstart : 0 = (windowFront content i).length := hblock.1
              omega

/-- Texts of one length score one, and others zero. -/
def sameLength (a b : Bytes) : Option Nat := some (if a.length = b.length then 1 else 0)

theorem findFuzzyBlock_range_second :
    ∃ i s, BestWindow (blockScore sameLength (ascii "aaa\nbb\nc") [ascii "xx"]) 3 i s ∧
      (BlockRange (ascii "aaa\nbb\nc") i 1 (4, 6) ↔
        (i = 0 ∨ 0 < s) ∧ EndsInOneByte (ascii "aaa\nbb\nc") (i + 1 - 1)) :=
  findFuzzyBlock_range sameLength (ascii "aaa\nbb\nc") [ascii "xx"] 1 (4, 6) (by rfl)

/-- Behind a line that ends in two bytes the range is off by one. -/
theorem not_blockRange_crlf :
    findFuzzyBlock sameLength (ascii "aaa\r\nbb\nc") [ascii "xx"] 1 = .ok (some (4, 6)) ∧
      (∃ s, BestWindow (blockScore sameLength (ascii "aaa\r\nbb\nc") [ascii "xx"]) 3 1 s) ∧
      ¬BlockRange (ascii "aaa\r\nbb\nc") 1 1 (4, 6) := by
  refine ⟨rfl, ⟨1, by decide, rfl, ?_, ?_⟩, fun h => absurd h.1 (by decide)⟩
  · intro j hj t ht
    obtain rfl := Option.some.inj ht
    split
    · exact Nat.le_refl 1
    · exact Nat.zero_le 1
  · intro j hj t ht
    obtain rfl : j = 0 := by omega
    obtain rfl := Option.some.inj ht
    decide

end KimixNative.Tools
