import KimixNative.Tools.EditText

/-!
# Reading a file page by page

A window of a file ends at the number of lines asked for, at the cap on lines, at the byte budget or
at the end of the file. The flag for the end of the file only compares the window with the number of
lines asked for, so it is the three flags together that say whether there is more to read.
-/

namespace KimixNative.Tools

open Text

def kMaxLines : Nat := 5000
def kMaxLineLength : Nat := 4000
def kMaxBytes : Nat := 102400

/-- The loop of `utf8_byte_offset_of_code_point`. -/
def byteOffsetLoop : Nat → Bytes → Nat
  | 0, _ => 0
  | _, [] => 0
  | codePoints + 1, b0 :: rest =>
    let len := (decodeCodePoint b0 rest).2
    len + byteOffsetLoop codePoints ((b0 :: rest).drop len)

/-- `utf8_byte_offset_of_code_point`. -/
def byteOffsetOfCodePoint (bytes : Bytes) (codePoints : Nat) : Nat :=
  if codePoints = 0 then 0
  else if isAscii bytes then min codePoints bytes.length
  else byteOffsetLoop codePoints bytes

def isLineBreak (c : Byte) : Bool := c == 0x0D#8 || c == 0x0A#8

/-- `truncate_line_read`. -/
def truncateLineRead (text : Bytes) (maxLen : Nat) : Bytes :=
  if codePointCount text ≤ maxLen then text
  else
    let lineBreak := (text.reverse.takeWhile isLineBreak).reverse
    let endLength := 3 + lineBreak.length
    let budget := max maxLen endLength
    text.take (byteOffsetOfCodePoint text (budget - endLength)) ++ ascii "..." ++ lineBreak

/-- `rd_rstrip_eol`. -/
def rdRstripEol (line : Bytes) : Bytes := (line.reverse.dropWhile isLineBreak).reverse

structure RenderedLine where
  lineNo : Nat
  text : Bytes
  wasTruncated : Bool
  deriving DecidableEq, Repr

structure RenderResult where
  output : Bytes
  message : Bytes
  windowLines : List Bytes
  startLine : Nat
  totalLines : Option Nat
  maxLinesReached : Bool
  maxBytesReached : Bool
  endOfFile : Bool
  truncatedLineNumbers : List Nat
  deriving DecidableEq, Repr

/-- A line of the output, with its number in a column of six. -/
def outputLine (showLineNumbers : Bool) (entry : RenderedLine) : Bytes :=
  (if showLineNumbers then
    List.replicate (6 - (decimal entry.lineNo).length) 0x20#8 ++ decimal entry.lineNo ++ [0x09#8]
  else []) ++ entry.text

/-- `rd_render_result`. -/
def rdRenderResult (candidates : List RenderedLine) (windowLines : List Bytes)
    (displayPath : Bytes) (startLine : Nat) (showLineNumbers : Bool) (totalLines : Option Nat)
    (maxLinesReached maxBytesReached endOfFile : Bool) (note : Bytes) : RenderResult :=
  let truncated := (candidates.filter RenderedLine.wasTruncated).map RenderedLine.lineNo
  { output := candidates.flatMap (outputLine showLineNumbers)
    message :=
      (if candidates.length > 0 then
        decimal candidates.length ++ ascii " lines read from file starting from line " ++
          decimal startLine ++ ascii "."
      else ascii "No lines read from file.") ++
      (match totalLines with
        | some total => ascii " Total lines in file: " ++ decimal total ++ ascii "."
        | none => []) ++
      (if maxLinesReached then ascii " Max " ++ decimal kMaxLines ++ ascii " lines reached."
      else if maxBytesReached then ascii " Max " ++ decimal kMaxBytes ++ ascii " bytes reached."
      else if endOfFile then ascii " End of file reached."
      else []) ++
      (if truncated.isEmpty then []
      else ascii " Lines [" ++ (ascii ", ").intercalate (truncated.map decimal) ++
        ascii "] were truncated.") ++
      note ++ ascii " Path: " ++ displayPath
    windowLines, startLine, totalLines, maxLinesReached, maxBytesReached, endOfFile
    truncatedLineNumbers := truncated }

/-- The variables of the loop of `render_forward`. -/
structure Forward where
  entries : List RenderedLine := []
  rawCollected : List Bytes := []
  nBytes : Nat := 0
  maxLinesReached : Bool := false
  maxBytesReached : Bool := false
  currentLineNo : Nat := 0
  eofReached : Bool := true
  deriving DecidableEq, Repr

def renderedLine (line : Bytes) (lineNo : Nat) : RenderedLine where
  lineNo := lineNo
  text := truncateLineRead line kMaxLineLength
  wasTruncated := truncateLineRead line kMaxLineLength != line

/-- The loop of `render_forward`. -/
def forwardLoop (lineOffset targetLines : Nat) : Forward → List Bytes → Forward
  | s, [] => s
  | s, line :: rest =>
    let s := { s with currentLineNo := s.currentLineNo + 1 }
    if s.currentLineNo < lineOffset then forwardLoop lineOffset targetLines s rest
    else
      let entry := renderedLine line s.currentLineNo
      let s := { s with
        entries := s.entries ++ [entry]
        rawCollected := s.rawCollected ++ [rdRstripEol line]
        nBytes := s.nBytes + entry.text.length }
      if s.entries.length ≥ targetLines then
        { s with maxLinesReached := decide (targetLines ≥ kMaxLines), eofReached := false }
      else if s.nBytes ≥ kMaxBytes then { s with maxBytesReached := true, eofReached := false }
      else forwardLoop lineOffset targetLines s rest

/-- `render_forward`. -/
def renderForward (lines : List Bytes) (displayPath : Bytes) (lineOffset nLines : Nat)
    (showLineNumbers : Bool) (note : Bytes) : RenderResult :=
  let s := forwardLoop lineOffset (min nLines kMaxLines) {} lines
  rdRenderResult s.entries s.rawCollected displayPath lineOffset showLineNumbers
    (if s.eofReached then some s.currentLineNo else none) s.maxLinesReached s.maxBytesReached
    (decide (s.entries.length < nLines)) note

/-! ### One window -/

/-- What the loop adds for the first `k` of some lines, which are numbered from `first`. -/
structure Collected (s f : Forward) (lines : List Bytes) (first targetLines k : Nat) : Prop where
  le : k ≤ lines.length
  pos : lines ≠ [] → 0 < k
  entries : f.entries =
    s.entries ++ ((lines.take k).zipIdx first).map fun line => renderedLine line.1 line.2
  raw : f.rawCollected = s.rawCollected ++ (lines.take k).map rdRstripEol
  idle : lines = [] →
    f.maxLinesReached = s.maxLinesReached ∧ f.maxBytesReached = s.maxBytesReached
  stopped : k < lines.length → f.maxBytesReached = true ∨
    targetLines ≤ f.entries.length ∧ f.maxLinesReached = decide (targetLines ≥ kMaxLines)

theorem forwardLoop_collected {lineOffset targetLines : Nat} (lines : List Bytes) (s : Forward) :
    (∃ k, Collected s (forwardLoop lineOffset targetLines s lines)
      (lines.drop (lineOffset - 1 - s.currentLineNo))
      (s.currentLineNo + 1 + (lineOffset - 1 - s.currentLineNo)) targetLines k) ∧
    ((forwardLoop lineOffset targetLines s lines).eofReached = true →
      (forwardLoop lineOffset targetLines s lines).currentLineNo = s.currentLineNo + lines.length) := by
  induction lines generalizing s with
  | nil =>
    rw [forwardLoop, List.drop_nil]
    exact ⟨⟨0, Nat.le_refl 0, fun h => absurd rfl h, (List.append_nil _).symm,
      (List.append_nil _).symm, fun _ => ⟨rfl, rfl⟩, fun h => absurd h (Nat.lt_irrefl 0)⟩,
      fun _ => rfl⟩
  | cons line lines ih =>
    rw [forwardLoop]
    dsimp only
    by_cases hskip : s.currentLineNo + 1 < lineOffset
    · obtain ⟨d, hd⟩ := Nat.exists_eq_add_of_lt hskip
      obtain ⟨⟨k, hk⟩, heof⟩ := ih { s with currentLineNo := s.currentLineNo + 1 }
      rw [if_pos hskip]
      dsimp only at hk heof
      rw [show lineOffset - 1 - s.currentLineNo = d + 1 by omega, List.drop_succ_cons,
        show s.currentLineNo + 1 + (d + 1) = s.currentLineNo + 1 + 1 + d by omega]
      rw [show lineOffset - 1 - (s.currentLineNo + 1) = d by omega] at hk
      obtain ⟨hle, hpos, hentries, hraw, hidle, hstopped⟩ := hk
      exact ⟨⟨k, hle, hpos, hentries, hraw, hidle, hstopped⟩,
        fun h => (heof h).trans (by rw [List.length_cons]; omega)⟩
    · rw [if_neg hskip, show lineOffset - 1 - s.currentLineNo = 0 by omega, List.drop_zero,
        Nat.add_zero]
      have hlast : ∀ f : Forward, f.entries = s.entries ++ [renderedLine line (s.currentLineNo + 1)] →
          f.rawCollected = s.rawCollected ++ [rdRstripEol line] →
          (f.maxBytesReached = true ∨
            targetLines ≤ f.entries.length ∧ f.maxLinesReached = decide (targetLines ≥ kMaxLines)) →
          Collected s f (line :: lines) (s.currentLineNo + 1) targetLines 1 :=
        fun f hentries hraw hstopped =>
          ⟨by simp, fun _ => Nat.one_pos, hentries, hraw, fun h => absurd h (List.cons_ne_nil _ _),
            fun _ => hstopped⟩
      split
      · rename_i hfull
        exact ⟨⟨1, hlast _ rfl rfl (.inr ⟨hfull, rfl⟩)⟩, fun h => absurd h Bool.false_ne_true⟩
      · split
        · exact ⟨⟨1, hlast _ rfl rfl (.inl rfl)⟩, fun h => absurd h Bool.false_ne_true⟩
        · obtain ⟨⟨k, hk⟩, heof⟩ := ih
            { s with
              currentLineNo := s.currentLineNo + 1
              entries := s.entries ++ [renderedLine line (s.currentLineNo + 1)]
              rawCollected := s.rawCollected ++ [rdRstripEol line]
              nBytes := s.nBytes + (renderedLine line (s.currentLineNo + 1)).text.length }
          dsimp only at hk heof
          rw [show lineOffset - 1 - (s.currentLineNo + 1) = 0 by omega, List.drop_zero,
            Nat.add_zero] at hk
          obtain ⟨hle, -, hentries, hraw, -, hstopped⟩ := hk
          refine ⟨⟨k + 1, ?_, fun _ => Nat.succ_pos k, ?_, ?_, fun h => absurd h (List.cons_ne_nil _ _),
            fun hlt => ?_⟩, fun h => ?_⟩
          · rw [List.length_cons]
            omega
          · rw [hentries, List.take_succ_cons, List.zipIdx_cons, List.map_cons, List.append_assoc]
            rfl
          · rw [hraw, List.take_succ_cons, List.map_cons, List.append_assoc]
            rfl
          · rw [List.length_cons] at hlt
            exact hstopped (by omega)
          · rw [heof h, List.length_cons]
            omega

/-- Nothing stopped the window before the end of the file. -/
def RenderResult.last (r : RenderResult) : Bool :=
  r.endOfFile && !r.maxLinesReached && !r.maxBytesReached

/-- A call that shows some of the lines that are numbered from `lineOffset`. -/
structure ShowsWindow (lines : List Bytes) (lineOffset nLines : Nat) (showLineNumbers : Bool)
    (r : RenderResult) (k : Nat) : Prop where
  le : k ≤ (lines.drop (lineOffset - 1)).length
  pos : lineOffset ≤ lines.length → 0 < k
  window : r.windowLines = ((lines.drop (lineOffset - 1)).take k).map rdRstripEol
  output : r.output = (((lines.drop (lineOffset - 1)).take k).zipIdx lineOffset).flatMap
    fun line => outputLine showLineNumbers (renderedLine line.1 line.2)
  endOfFile : r.endOfFile = decide (k < nLines)
  last : r.last = true → k = (lines.drop (lineOffset - 1)).length
  past : lines.length < lineOffset → 0 < nLines → r.last = true
  total : ∀ total, r.totalLines = some total → total = lines.length

theorem renderForward_window (lines : List Bytes) (displayPath : Bytes) {lineOffset : Nat}
    (hoffset : 1 ≤ lineOffset) (nLines : Nat) (showLineNumbers : Bool) (note : Bytes) :
    ∃ k, ShowsWindow lines lineOffset nLines showLineNumbers
      (renderForward lines displayPath lineOffset nLines showLineNumbers note) k := by
  obtain ⟨⟨k, hle, hpos, hentries, hraw, hidle, hstopped⟩, heof⟩ :=
    @forwardLoop_collected lineOffset (min nLines kMaxLines) lines {}
  rw [Nat.sub_zero, Nat.zero_add, show 1 + (lineOffset - 1) = lineOffset by omega] at hentries
  rw [Nat.sub_zero] at hle hpos hraw hidle hstopped
  have hlen : (forwardLoop lineOffset (min nLines kMaxLines) {} lines).entries.length = k := by
    rw [hentries, List.nil_append, List.length_map, List.length_zipIdx, List.length_take]
    omega
  refine ⟨k, hle, fun h => hpos ?_, hraw.trans (List.nil_append _), ?_, ?_, fun h => ?_,
    fun hpast hn => ?_, fun total h => ?_⟩
  · rw [Ne, List.drop_eq_nil_iff]
    omega
  · refine (congrArg (List.flatMap (outputLine showLineNumbers)) hentries).trans ?_
    rw [List.nil_append, List.flatMap_map]
  · exact congrArg (fun n => decide (n < nLines)) hlen
  · by_contra hne
    simp only [RenderResult.last, renderForward, rdRenderResult, hlen, Bool.and_eq_true,
      Bool.not_eq_true', decide_eq_true_eq] at h
    rcases hstopped (by omega) with hbytes | ⟨hfull, hlines⟩
    · rw [hbytes] at h
      exact Bool.false_ne_true h.2.symm
    · rw [hlines, decide_eq_false_iff_not] at h
      rw [hlen] at hfull
      omega
  · have hnone : lines.drop (lineOffset - 1) = [] := List.drop_eq_nil_of_le (by omega)
    rw [hnone, List.length_nil, Nat.le_zero] at hle
    obtain ⟨hlines, hbytes⟩ := hidle hnone
    simp only [RenderResult.last, renderForward, rdRenderResult, hlen, hle, hlines, hbytes,
      decide_eq_true hn]
    rfl
  · change (if (forwardLoop lineOffset (min nLines kMaxLines) {} lines).eofReached then
      some (forwardLoop lineOffset (min nLines kMaxLines) {} lines).currentLineNo else none) =
        some total at h
    split at h
    · rename_i hreached
      rw [← Option.some.inj h, heof hreached]
      exact Nat.zero_add _
    · cases h

/-! ### Page after page -/

/-- Reads on behind each window up to one that nothing stopped before the end of the file. -/
def readPages (lines : List Bytes) (displayPath : Bytes) (nLines : Nat) (showLineNumbers : Bool)
    (note : Bytes) : Nat → Nat → List RenderResult
  | 0, _ => []
  | fuel + 1, lineOffset =>
    let r := renderForward lines displayPath lineOffset nLines showLineNumbers note
    if r.last then [r]
    else r :: readPages lines displayPath nLines showLineNumbers note fuel
      (lineOffset + r.windowLines.length)

theorem readPages_shows (lines : List Bytes) (displayPath : Bytes) {nLines : Nat} (hn : 1 ≤ nLines)
    (showLineNumbers : Bool) (note : Bytes) {fuel lineOffset : Nat} (hoffset : 1 ≤ lineOffset)
    (hfuel : (lines.drop (lineOffset - 1)).length < fuel) :
    (readPages lines displayPath nLines showLineNumbers note fuel lineOffset).flatMap
        RenderResult.output = ((lines.drop (lineOffset - 1)).zipIdx lineOffset).flatMap
          (fun line => outputLine showLineNumbers (renderedLine line.1 line.2)) ∧
      ∃ r, (readPages lines displayPath nLines showLineNumbers note fuel lineOffset).getLast? =
        some r ∧ r.last = true := by
  induction fuel generalizing lineOffset with
  | zero => exact absurd hfuel (Nat.not_lt_zero _)
  | succ fuel ih =>
    obtain ⟨k, hk⟩ := renderForward_window lines displayPath hoffset nLines showLineNumbers note
    rw [readPages]
    split
    · rename_i hlast
      refine ⟨?_, _, rfl, hlast⟩
      rw [List.flatMap_singleton, hk.output, hk.last hlast, List.take_length]
    · rename_i hmore
      have hinside : lineOffset ≤ lines.length := by
        by_contra hpast
        exact hmore (hk.past (by omega) hn)
      have hpos := hk.pos hinside
      have hle := hk.le
      have hlen : ((lines.drop (lineOffset - 1)).take k).length = k := by
        rw [List.length_take]
        exact Nat.min_eq_left hk.le
      have hnext : lines.drop (lineOffset + k - 1) = (lines.drop (lineOffset - 1)).drop k := by
        rw [List.drop_drop]
        exact congrArg (List.drop · lines) (by omega)
      obtain ⟨hrest, r, hr, hlast⟩ :=
        @ih (lineOffset + k) (by omega) (by rw [hnext, List.length_drop]; omega)
      have hwindow : (renderForward lines displayPath lineOffset nLines showLineNumbers
          note).windowLines.length = k := by
        rw [hk.window, List.length_map, hlen]
      rw [hwindow]
      refine ⟨?_, r, by rw [List.getLast?_cons, hr, Option.getD_some], hlast⟩
      rw [List.flatMap_cons, hrest, hk.output, hnext,
        ← List.flatMap_append, ← List.take_append_drop k (lines.drop (lineOffset - 1)),
        List.zipIdx_append, hlen]
      simp only [List.take_append_drop]

/-- Every window begins at its offset and, read up to a last one, the windows show every line once. -/
structure PagedReading (lines : List Bytes) (displayPath : Bytes) (nLines : Nat)
    (showLineNumbers : Bool) (note : Bytes) : Prop where
  window : ∀ lineOffset, 1 ≤ lineOffset → ∃ k, ShowsWindow lines lineOffset nLines showLineNumbers
    (renderForward lines displayPath lineOffset nLines showLineNumbers note) k
  output : (readPages lines displayPath nLines showLineNumbers note (lines.length + 1) 1).flatMap
    RenderResult.output = (lines.zipIdx 1).flatMap
      fun line => outputLine showLineNumbers (renderedLine line.1 line.2)
  ends : ∃ r, (readPages lines displayPath nLines showLineNumbers note
    (lines.length + 1) 1).getLast? = some r ∧ r.last = true

theorem renderForward_pages (lines : List Bytes) (displayPath : Bytes) (nLines : Nat)
    (hn : 1 ≤ nLines) (showLineNumbers : Bool) (note : Bytes) :
    PagedReading lines displayPath nLines showLineNumbers note := by
  obtain ⟨houtput, hends⟩ := @readPages_shows lines displayPath nLines hn showLineNumbers note
    (lines.length + 1) 1 (Nat.le_refl 1) (Nat.lt_succ_self _)
  exact ⟨fun lineOffset hoffset =>
    renderForward_window lines displayPath hoffset nLines showLineNumbers note, houtput, hends⟩

theorem renderForward_pages_single :
    PagedReading [ascii "a\n", ascii "b"] (ascii "f.txt") 1 true [] :=
  renderForward_pages [ascii "a\n", ascii "b"] (ascii "f.txt") 1 (Nat.le_refl 1) true []

/-- The byte budget ends the window, and the flag for the end of the file is set. -/
theorem renderForward_budget :
    (renderForward (List.replicate 27 (List.replicate 4000 0x61#8)) [] 1 5000 true []).endOfFile =
        true ∧
      (renderForward (List.replicate 27 (List.replicate 4000 0x61#8)) [] 1 5000 true
        []).windowLines.length = 26 := by
  decide +kernel

end KimixNative.Tools
