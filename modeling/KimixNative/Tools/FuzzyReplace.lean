import KimixNative.Tools.LiteralReplace

/-!
# The fuzzy fallback

Where the old text does not occur, `apply_fuzzy_fallback` tries the old text without the blanks
around it on single lines and then takes the lines that score best against it. It keeps the chosen
lines as text only and searches this text from the start of the file. How texts are scored, and how
a score is shown, are parameters.
-/

namespace KimixNative.Tools

open Text

/-- `replace_first`. -/
def replaceFirst (text oldText newText : Bytes) : Bytes :=
  match firstOccurrence oldText text with
  | none => text
  | some idx => replaceAt text oldText newText idx

/-- The loop of `split_lines_keepends`. -/
def splitLinesKeependsFrom : Nat → Bytes → Bytes → List Bytes
  | _, line, [] => if line = [] then [] else [line]
  | skip + 1, line, _ :: rest => splitLinesKeependsFrom skip line rest
  | 0, line, c :: rest =>
    match separatorLength c rest with
    | 0 => splitLinesKeependsFrom 0 (line ++ [c]) rest
    | term + 1 => (line ++ c :: rest.take term) :: splitLinesKeependsFrom term [] rest

/-- `split_lines_keepends`. -/
def splitLinesKeepends (text : Bytes) : List Bytes := splitLinesKeependsFrom 0 [] text

def chop (b : Byte) (line : Bytes) : Bytes :=
  if line.getLast? = some b then line.dropLast else line

def lineEnding (line : Bytes) : Bytes :=
  if [carriageReturn, newline] <:+ line then [carriageReturn, newline]
  else if [newline] <:+ line then [newline]
  else if [carriageReturn] <:+ line then [carriageReturn]
  else []

/-- `try_strip_match`, which does not fail. -/
def tryStripMatch (content oldText newText : Bytes) : Option Bytes :=
  let oldStripped := pyStrip oldText
  if oldStripped = [] then none
  else
    (splitLinesKeepends content).findSome? fun line =>
      let core := chop carriageReturn (chop newline line)
      (firstOccurrence oldStripped core).map fun idx =>
        replaceFirst content line (replaceAt core oldStripped newText idx ++ lineEnding line)

/-- The functions on scores: `fuzz_ratio`, which refuses texts that are too long, the cutoff, and
what is said about a match. -/
structure Scoring (S : Type) where
  fuzzRatio : Bytes → Bytes → Option S
  cutoff : S
  describe : S → Bytes → Bytes
  findSimilar : Bytes → Bytes → OptionalTextResult

/-- A match, with the line it starts at, which the code does not keep. -/
structure FuzzyMatch (S : Type) where
  score : S
  start : Nat
  matchedOriginal : Bytes

variable {S : Type} [LinearOrder S] [Zero S]

namespace Scoring

/-- The loops of `best_fuzzy_match`: a window replaces the best so far when it scores more. `none`
where a text is too long. -/
def bestWindow (f : Scoring S) (target : Bytes) :
    S × Option (FuzzyMatch S) → List (Nat × Bytes × Bytes) → Option (S × Option (FuzzyMatch S))
  | best, [] => some best
  | best, (i, window, original) :: rest =>
    match f.fuzzRatio target window with
    | none => none
    | some score =>
      if best.1 < score then bestWindow f target (score, some ⟨score, i, original⟩) rest
      else bestWindow f target best rest

/-- The windows of `count` lines that are scored, with the original text of each. -/
def windows (count : Nat) (originalLines normLines : List Bytes) : List (Nat × Bytes × Bytes) :=
  if count = 1 then
    (List.range (min originalLines.length normLines.length)).map fun i =>
      (i, normLines.getD i [], originalLines.getD i [])
  else
    ((List.range (normLines.length + 1 - count)).filter (· + count ≤ originalLines.length)).map
      fun i => (i, joinLf ((normLines.drop i).take count), joinLf ((originalLines.drop i).take count))

/-- `best_fuzzy_match`; `none` where it fails. -/
def bestFuzzyMatch (f : Scoring S) (target content : Bytes) : Option (Option (FuzzyMatch S)) :=
  let normTarget := normalizeNewlines target
  let count := (splitLines normTarget).length
  (f.bestWindow normTarget (0, none)
    (windows count (splitLines content) (splitLines (normalizeNewlines content)))).map fun best =>
      if f.cutoff ≤ best.1 then best.2 else none

/-- `apply_fuzzy_fallback`. -/
def applyFuzzyFallback (f : Scoring S) (content : Bytes) (edit : ReplaceEditItem) : ReplaceResult :=
  match tryStripMatch content edit.oldText edit.newText with
  | some text => { content := text, replacements := 1 }
  | none =>
    match f.bestFuzzyMatch edit.oldText content with
    | none =>
      { error := { status := .tooLarge
                   message := ascii "fuzz_ratio input exceeds the native length cap" } }
    | some (some m) =>
      { content := replaceFirst (normalizeNewlines content) (normalizeNewlines m.matchedOriginal)
          (normalizeNewlines edit.newText)
        replacements := 1
        suggestion := some (f.describe m.score m.matchedOriginal) }
    | some none =>
      let sim := f.findSimilar edit.oldText content
      if sim.error.failed then { error := sim.error }
      else { content := content, suggestion := sim.text }

def similarity (f : Scoring S) : Similarity := ⟨f.findSimilar, f.applyFuzzyFallback⟩

end Scoring

/-! ## Lines with their ends -/

theorem splitLinesFrom_ne_nil {line : Bytes} (hline : line ≠ []) (skip : Nat) (rest : Bytes) :
    splitLinesFrom skip line rest ≠ [] := by
  induction rest generalizing skip line with
  | nil => simp [splitLinesFrom, hline]
  | cons c rest ih =>
    cases skip with
    | succ skip => exact ih hline skip
    | zero =>
      rw [splitLinesFrom]
      split
      · exact ih (by simp) 0
      · exact List.cons_ne_nil _ _

theorem splitLines_ne_nil {text : Bytes} (h : text ≠ []) : splitLines text ≠ [] := by
  obtain ⟨c, rest, rfl⟩ := List.exists_cons_of_ne_nil h
  rw [splitLines, splitLinesFrom]
  split
  · exact splitLinesFrom_ne_nil (List.cons_ne_nil _ _) 0 rest
  · exact List.cons_ne_nil _ _

theorem normalizeNewlines_ne_nil {text : Bytes} (h : text ≠ []) : normalizeNewlines text ≠ [] := by
  induction text with
  | nil => exact absurd rfl h
  | cons b rest ih =>
    rw [normalizeNewlines]
    split
    · rename_i hpair
      refine ih fun hnil => ?_
      rw [hnil] at hpair
      cases hpair.2
    · exact List.cons_ne_nil _ _

/-- Lines with their ends make up the text, and each begins with the line itself. -/
theorem splitLinesKeependsFrom_spec (rest : Bytes) (skip : Nat) (line : Bytes) :
    (splitLinesKeependsFrom skip line rest).flatten = line ++ rest.drop skip ∧
      List.Forall₂ (· <+: ·) (splitLinesFrom skip line rest)
        (splitLinesKeependsFrom skip line rest) := by
  induction rest generalizing skip line with
  | nil =>
    simp only [splitLinesKeependsFrom, splitLinesFrom]
    by_cases hline : line = []
    · simp [hline]
    · simp [hline]
  | cons c rest ih =>
    cases skip with
    | succ skip => exact ih skip line
    | zero =>
      rw [splitLinesKeependsFrom, splitLinesFrom]
      cases separatorLength c rest with
      | zero =>
        obtain ⟨hflat, hlines⟩ := ih 0 (line ++ [c])
        refine ⟨?_, hlines⟩
        rw [hflat, List.append_assoc]
        rfl
      | succ term =>
        obtain ⟨hflat, hlines⟩ := ih term []
        refine ⟨?_, .cons (List.prefix_append _ _) hlines⟩
        rw [List.flatten_cons, hflat, List.append_assoc, List.cons_append, List.nil_append,
          List.take_append_drop, List.drop_zero]

theorem flatten_splitLinesKeepends (text : Bytes) : (splitLinesKeepends text).flatten = text :=
  (splitLinesKeependsFrom_spec text 0 []).1

/-- The text in front of line `i`. -/
def windowFront (content : Bytes) (i : Nat) : Bytes := ((splitLinesKeepends content).take i).flatten

/-- The text from the start of line `i` to the end of the last of `count` lines, without what ends
that line. -/
def windowSpan (content : Bytes) (i count : Nat) : Bytes :=
  (((splitLinesKeepends content).drop i).take (count - 1)).flatten ++
    (splitLines content).getD (i + count - 1) []

/-- What follows it. -/
def windowBack (content : Bytes) (i count : Nat) : Bytes :=
  ((splitLinesKeepends content).getD (i + count - 1) []).drop
      ((splitLines content).getD (i + count - 1) []).length ++
    ((splitLinesKeepends content).drop (i + count)).flatten

theorem window_eq {content : Bytes} {i count : Nat} (hcount : 0 < count)
    (hi : i + count ≤ (splitLines content).length) :
    windowFront content i ++ (windowSpan content i count ++ windowBack content i count) = content := by
  obtain ⟨hlen, hlines⟩ :=
    List.forall₂_iff_get.mp (splitLinesKeependsFrom_spec content 0 []).2
  have hlast : i + count - 1 < (splitLines content).length := by omega
  have hkeep : i + count - 1 < (splitLinesKeepends content).length := hlen ▸ hlast
  obtain ⟨ending, hending⟩ := hlines (i + count - 1) hlast hkeep
  have hsplit : (splitLinesKeepends content).drop i =
      ((splitLinesKeepends content).drop i).take (count - 1) ++
        ((splitLinesKeepends content)[i + count - 1] ::
          (splitLinesKeepends content).drop (i + count)) := by
    conv_lhs => rw [← List.take_append_drop (count - 1) ((splitLinesKeepends content).drop i)]
    rw [List.drop_drop, show i + (count - 1) = i + count - 1 by omega,
      List.drop_eq_getElem_cons hkeep, show i + count - 1 + 1 = i + count by omega]
  have hline : (splitLines content).getD (i + count - 1) [] ++
      ((splitLinesKeepends content).getD (i + count - 1) []).drop
        ((splitLines content).getD (i + count - 1) []).length =
      (splitLinesKeepends content)[i + count - 1] := by
    simp only [List.getD_eq_getElem?_getD, List.getElem?_eq_getElem hlast,
      List.getElem?_eq_getElem hkeep, Option.getD_some]
    rw [List.get_eq_getElem, List.get_eq_getElem] at hending
    exact hending ▸ congrArg _ (List.drop_left)
  conv_rhs => rw [← flatten_splitLinesKeepends content, ← List.take_append_drop i
    (splitLinesKeepends content), List.flatten_append, hsplit, List.flatten_append, List.flatten_cons,
    ← hline]
  simp only [windowFront, windowSpan, windowBack, List.append_assoc]

/-! ## The lines that are replaced -/

/-- The edit replaces the text of the window, and nothing else. -/
def ReplacesWindow (similarity : Similarity) (content : Bytes) (edit : ReplaceEditItem)
    (i count : Nat) : Prop :=
  (applyEdit similarity content edit).content =
    windowFront content i ++ (normalizeNewlines edit.newText ++ windowBack content i count)

/-- The lines of the window are ended by newlines, up to the last one, and their text does not start
earlier in the content. -/
def FoundInPlace (content : Bytes) (i count : Nat) : Prop :=
  windowSpan content i count = joinLf (((splitLines content).drop i).take count) ∧
    ∀ p < (windowFront content i).length, ¬ windowSpan content i count <+: content.drop p

theorem replaceFirst_in_place {content front span back new : Bytes} (hne : content ≠ [])
    (hcontent : front ++ (span ++ back) = content)
    (hbefore : ∀ p < front.length, ¬ span <+: content.drop p) :
    replaceFirst content span new = front ++ (new ++ back) := by
  have hlt : front.length < content.length := by
    by_contra hle
    have hspan : span ++ back = [] := by
      rw [← hcontent, List.length_append] at hle
      exact List.length_eq_zero_iff.mp (by omega)
    obtain ⟨rfl, rfl⟩ := List.append_eq_nil_iff.mp hspan
    cases front with
    | nil => exact hne hcontent.symm
    | cons b front => exact hbefore 0 (Nat.succ_pos _) List.nil_prefix
  have hfirst : firstOccurrence span content = some front.length := by
    refine firstOccurrence_eq_some.mpr ⟨hlt, ?_, hbefore⟩
    rw [← hcontent, List.drop_left]
    exact List.prefix_append span back
  rw [replaceFirst, hfirst]
  dsimp only
  rw [replaceAt, ← hcontent, List.take_left, ← List.drop_drop, List.drop_left, List.drop_left,
    List.append_assoc]

/-- A byte of the new text that the content does not have shows where the new text was put. -/
theorem in_place_of_replaceFirst {content front span back new matched : Bytes} {b : Byte}
    (hcontent : front ++ (span ++ back) = content) (hb : b ∈ new) (hfresh : b ∉ content)
    (h : replaceFirst content matched new = front ++ (new ++ back)) :
    span = matched ∧ ∀ p < front.length, ¬ span <+: content.drop p := by
  have hfront : b ∉ front := fun hmem => hfresh (hcontent ▸ List.mem_append_left _ hmem)
  rw [replaceFirst] at h
  split at h
  · refine absurd ?_ hfresh
    rw [h]
    exact List.mem_append_right _ (List.mem_append_left _ hb)
  · rename_i p hfirst
    obtain ⟨hlt, ⟨rest, hrest⟩, hbefore⟩ := firstOccurrence_eq_some.mp hfirst
    have htake : b ∉ content.take p := fun hmem => hfresh (List.mem_of_mem_take hmem)
    rw [replaceAt, List.append_assoc] at h
    have hplace := congrArg (List.idxOf b) h
    rw [List.idxOf_append_of_notMem htake, List.idxOf_append_of_notMem hfront,
      List.idxOf_append_of_mem hb, List.idxOf_append_of_mem hb, List.length_take] at hplace
    obtain rfl : p = front.length := by omega
    rw [← hcontent, List.drop_left] at hrest
    rw [← List.drop_drop, ← hcontent, List.take_left, List.drop_left, List.append_cancel_left_eq,
      List.append_cancel_left_eq, ← hrest, List.drop_left] at h
    rw [h] at hrest
    obtain rfl := List.append_cancel_right hrest
    exact ⟨rfl, hbefore⟩

theorem carriageReturn_notMem_joinLf {lines : List Bytes} (h : ∀ line ∈ lines, carriageReturn ∉ line) :
    carriageReturn ∉ joinLf lines := by
  induction lines with
  | nil => exact List.not_mem_nil
  | cons line rest ih =>
    obtain ⟨hline, hrest⟩ := List.forall_mem_cons.mp h
    cases rest with
    | nil => rwa [joinLf, List.intercalate_singleton]
    | cons next rest =>
      rw [joinLf, List.intercalate_cons_cons, List.mem_append, List.mem_append, not_or, not_or]
      exact ⟨⟨hline, by decide⟩, ih hrest⟩

theorem carriageReturn_notMem_line {content line : Bytes} (h : carriageReturn ∉ content)
    (hline : line ∈ splitLines content) : carriageReturn ∉ line := by
  obtain ⟨hflat, hlines⟩ := splitLinesKeependsFrom_spec content 0 []
  obtain ⟨hlen, hlines⟩ := List.forall₂_iff_get.mp hlines
  obtain ⟨j, hj, rfl⟩ := List.mem_iff_getElem.mp hline
  intro hmem
  have hkeep := (hlines j hj (hlen ▸ hj)).subset hmem
  refine h ?_
  rw [List.drop_zero, List.nil_append] at hflat
  rw [← hflat]
  exact List.mem_flatten_of_mem (List.get_mem _ _) hkeep

namespace Scoring

variable {f : Scoring S} {content : Bytes} {edit : ReplaceEditItem} {m : FuzzyMatch S}

omit [Zero S] in
theorem bestWindow_mem {target : Bytes} {best : S × Option (FuzzyMatch S)} {score : S}
    {windows : List (Nat × Bytes × Bytes)}
    (h : f.bestWindow target best windows = some (score, some m)) :
    best.2 = some m ∨ ∃ window, (m.start, window, m.matchedOriginal) ∈ windows := by
  induction windows generalizing best with
  | nil =>
    rw [bestWindow, Option.some.injEq] at h
    exact .inl (congrArg Prod.snd h)
  | cons w rest ih =>
    obtain ⟨i, window, original⟩ := w
    rw [bestWindow] at h
    split at h
    · cases h
    · split at h
      · rcases ih h with hfirst | ⟨window', hmem⟩
        · obtain rfl := Option.some.inj hfirst
          exact .inr ⟨window, List.mem_cons_self⟩
        · exact .inr ⟨window', List.mem_cons_of_mem _ hmem⟩
      · rcases ih h with hfirst | ⟨window', hmem⟩
        · exact .inl hfirst
        · exact .inr ⟨window', List.mem_cons_of_mem _ hmem⟩

theorem mem_windows {count i : Nat} {originalLines normLines : List Bytes} {window original : Bytes}
    (h : (i, window, original) ∈ windows count originalLines normLines) :
    i + count ≤ originalLines.length ∧ original = joinLf ((originalLines.drop i).take count) := by
  rw [windows] at h
  split at h
  · rename_i hone
    subst hone
    obtain ⟨j, hj, heq⟩ := List.mem_map.mp h
    cases heq
    have hlt : i < originalLines.length := (Nat.lt_min.mp (List.mem_range.mp hj)).1
    refine ⟨hlt, ?_⟩
    rw [List.drop_eq_getElem_cons hlt, List.take_succ_cons, List.take_zero, joinLf,
      List.intercalate_singleton, List.getD_eq_getElem?_getD, List.getElem?_eq_getElem hlt,
      Option.getD_some]
  · obtain ⟨j, hj, heq⟩ := List.mem_map.mp h
    cases heq
    exact ⟨of_decide_eq_true (List.mem_filter.mp hj).2, rfl⟩

/-- The text that was matched is that of the lines from its start. -/
theorem matchedOriginal_eq (h : f.bestFuzzyMatch edit.oldText content = some (some m)) :
    m.start + (splitLines (normalizeNewlines edit.oldText)).length ≤ (splitLines content).length ∧
      m.matchedOriginal = joinLf (((splitLines content).drop m.start).take
        (splitLines (normalizeNewlines edit.oldText)).length) := by
  obtain ⟨⟨score, found⟩, hbest, hcut⟩ := Option.map_eq_some_iff.mp h
  dsimp only at hcut
  split at hcut
  · subst hcut
    rcases bestWindow_mem hbest with hnone | ⟨window, hmem⟩
    · cases hnone
    · exact mem_windows hmem
  · cases hcut

/-- An edit that comes to a fuzzy match in a content without carriage returns. -/
structure Reaches (f : Scoring S) (content : Bytes) (edit : ReplaceEditItem) (m : FuzzyMatch S) :
    Prop where
  plain : carriageReturn ∉ content
  old_ne : edit.oldText ≠ []
  new_ne : edit.oldText ≠ edit.newText
  once : edit.replaceAll = false
  fuzzy : edit.matchMode = .fuzzy
  literal : firstOccurrence (normalizeNewlines edit.oldText) content = none
  strip : tryStripMatch content edit.oldText edit.newText = none
  selects : f.bestFuzzyMatch edit.oldText content = some (some m)

theorem Reaches.applyEdit (h : Reaches f content edit m) :
    (applyEdit f.similarity content edit).content =
      replaceFirst content m.matchedOriginal (normalizeNewlines edit.newText) := by
  have hmode : ¬ edit.matchMode = .exact := by
    rw [h.fuzzy]
    decide
  have hmatched : carriageReturn ∉ m.matchedOriginal := by
    rw [(matchedOriginal_eq h.selects).2]
    exact carriageReturn_notMem_joinLf fun line hline =>
      carriageReturn_notMem_line h.plain (List.mem_of_mem_drop (List.mem_of_mem_take hline))
  rw [Tools.applyEdit, if_neg (not_or.mpr ⟨h.old_ne, h.new_ne⟩)]
  simp only [normalizeNewlines_eq_self h.plain, h.once, Bool.false_eq_true, if_false, h.literal,
    if_neg hmode, similarity, applyFuzzyFallback, h.strip, h.selects,
    normalizeNewlines_eq_self hmatched]

theorem Reaches.window (h : Reaches f content edit m) :
    0 < (splitLines (normalizeNewlines edit.oldText)).length :=
  List.length_pos_iff.mpr (splitLines_ne_nil (normalizeNewlines_ne_nil h.old_ne))

/-- The lines that were scored are replaced where their text is found in its place; and only there,
when the new text has a byte that the content does not have. -/
theorem replacesWindow_iff (f : Scoring S) (content : Bytes) (edit : ReplaceEditItem)
    (m : FuzzyMatch S) (h : Reaches f content edit m) :
    (FoundInPlace content m.start (splitLines (normalizeNewlines edit.oldText)).length →
      ReplacesWindow f.similarity content edit m.start
        (splitLines (normalizeNewlines edit.oldText)).length) ∧
    ((∃ b ∈ normalizeNewlines edit.newText, b ∉ content) →
      ReplacesWindow f.similarity content edit m.start
        (splitLines (normalizeNewlines edit.oldText)).length →
      FoundInPlace content m.start (splitLines (normalizeNewlines edit.oldText)).length) := by
  have hpos := h.window
  obtain ⟨hi, hmatched⟩ := matchedOriginal_eq h.selects
  have hwindow := window_eq hpos hi
  rw [ReplacesWindow, h.applyEdit]
  generalize (splitLines (normalizeNewlines edit.oldText)).length = count at hpos hi hmatched hwindow ⊢
  generalize normalizeNewlines edit.newText = new
  have hlines : splitLines content ≠ [] := List.ne_nil_of_length_pos (by omega)
  rw [FoundInPlace, ← hmatched]
  generalize windowFront content m.start = front at hwindow ⊢
  generalize windowSpan content m.start count = span at hwindow ⊢
  generalize windowBack content m.start count = back at hwindow ⊢
  constructor
  · rintro ⟨rfl, hbefore⟩
    refine replaceFirst_in_place (fun hnil => hlines ?_) hwindow hbefore
    rw [hnil]
    rfl
  · rintro ⟨b, hb, hfresh⟩ hreplaced
    exact in_place_of_replaceFirst hwindow hb hfresh hreplaced

/-- The line bc scores. -/
def bcScores : Scoring Nat where
  fuzzRatio _ window := some (if window = ascii "bc" then 90 else 0)
  cutoff := 85
  describe _ original := original
  findSimilar _ _ := {}

theorem replacesWindow_bc : ReplacesWindow bcScores.similarity (ascii "a\nbc\n")
    { oldText := ascii "bd", newText := ascii "z" } 1 1 := by
  refine (replacesWindow_iff bcScores (ascii "a\nbc\n") { oldText := ascii "bd", newText := ascii "z" }
    ⟨90, 1, ascii "bc"⟩ ⟨by decide, by decide, by decide, rfl, rfl, by decide, by decide, rfl⟩).1
    ⟨by decide, ?_⟩
  decide

/-- The line is found as a part of the line in front of it. -/
theorem not_replacesWindow_inside : ¬ ∀ (f : Scoring Nat) (content : Bytes) (edit : ReplaceEditItem)
    (m : FuzzyMatch Nat), Reaches f content edit m → ReplacesWindow f.similarity content edit m.start
      (splitLines (normalizeNewlines edit.oldText)).length := by
  intro h
  have hreplaced := h bcScores (ascii "abc\nbc\n") { oldText := ascii "bd", newText := ascii "z" }
    ⟨90, 1, ascii "bc"⟩ ⟨by decide, by decide, by decide, rfl, rfl, by decide, by decide, rfl⟩
  exact absurd hreplaced (by unfold ReplacesWindow; decide)

end Scoring

end KimixNative.Tools
