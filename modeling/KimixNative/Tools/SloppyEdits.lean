import KimixNative.Lib.Run
import KimixNative.Tools.FuzzyBlocks

/-!
# Sloppy edits

An edit of all matches goes on behind each match, and ends because a match takes it further. The
one text that is found without that is the empty one, the match block of a single blank line.
-/

namespace KimixNative.Tools

open Text

/-! ## The input -/

structure SloppyInline where
  oldText : Bytes
  newText : Bytes

structure SloppyInlineLine where
  line : Bytes
  selections : List SloppyInline

structure SloppyOp where
  path : Bytes
  allMatch : Bool
  matchLines : List Bytes := []
  rewriteLines : Option (List Bytes) := none
  inlineLines : List SloppyInlineLine := []

def sectionSign : Bytes := [0xC2#8, 0xA7#8]
def blockSeparator : Bytes := [0xC2#8, 0xBB#8]
def openMark : Bytes := [0xE2#8, 0x9F#8, 0xAA#8]
def barMark : Bytes := [0xE2#8, 0x94#8, 0x82#8]
def closeMark : Bytes := [0xE2#8, 0x9F#8, 0xAB#8]

/-- `normalize_breaks`. -/
def normalizeBreaks (text : Bytes) : Bytes :=
  (normalizeNewlines text).map fun c => if c = carriageReturn then newline else c

/-- The sections: a header and the lines behind it. -/
def sloppySections : Option (Bytes × List Bytes) → List Bytes → List (Bytes × List Bytes)
  | current, [] => current.toList
  | current, line :: rest =>
    if sectionSign.isPrefixOf (pyStrip line) then
      current.toList ++ sloppySections (some (line, [])) rest
    else sloppySections (current.map fun (header, body) => (header, body ++ [line])) rest

/-- The text in front of the first bar, unless a closing mark comes before it. -/
def beforeBar : Bytes → Option Bytes
  | [] => none
  | c :: rest =>
    if barMark.isPrefixOf (c :: rest) then some []
    else if closeMark.isPrefixOf (c :: rest) then none
    else (beforeBar rest).map (c :: ·)

/-- The selections of an inline line: a pair is taken out of `remaining` before the next search. -/
def selectionsOf (remaining : Bytes) : List SloppyInline :=
  match _hopen : firstOccurrence openMark remaining with
  | none => []
  | some openPos =>
    match beforeBar (remaining.drop (openPos + 3)) with
    | none => selectionsOf (remaining.drop (openPos + 3))
    | some [] => selectionsOf (remaining.drop (openPos + 3))
    | some (c :: oldText) =>
      let barPos := openPos + 3 + (c :: oldText).length
      match firstOccurrence closeMark (remaining.drop (barPos + 3)) with
      | none => []
      | some length =>
        ⟨c :: oldText, (remaining.drop (barPos + 3)).take length⟩ ::
          selectionsOf (remaining.take openPos ++ remaining.drop (barPos + 3 + length + 3))
termination_by remaining.length
decreasing_by
  all_goals
    have := (firstOccurrence_eq_some.mp _hopen).1
    simp only [List.length_append, List.length_take, List.length_drop]
    omega

def noOperations : ToolError where
  status := .invalidInput
  message := ascii "No sloppy operations found. Input must start with `" ++ sectionSign ++
    ascii "path`."

/-- The path of a header, or the one before. -/
def sectionPath (currentPath : Option Bytes) (header : Bytes) (allMatch : Bool) : Bytes :=
  let path := pyStrip (header.drop (if allMatch then 3 else 2))
  if path = [] then currentPath.getD [] else path

/-- A block rewrite if a line of the body is the separator, or else an inline operation. -/
def sectionOp (path : Bytes) (allMatch : Bool) (body : List Bytes) : SloppyOp :=
  match body.findIdx? (pyStrip · == blockSeparator) with
  | some sepIdx =>
    { path, allMatch, matchLines := body.take sepIdx, rewriteLines := some (body.drop (sepIdx + 1)) }
  | none =>
    { path, allMatch
      inlineLines := (body.filter (pyStrip · != [])).map fun line => ⟨line, selectionsOf line⟩ }

/-- The operation of a section. -/
def parseSection (currentPath : Option Bytes) (front : Bytes) (lines : List Bytes) :
    Except ToolError SloppyOp :=
  let header := pyStrip front
  if !sectionSign.isPrefixOf header then .error noOperations
  else
    let allMatch := header[2]? == some 0x2A#8
    let path := sectionPath currentPath header allMatch
    if path = [] then
      .error { status := .invalidInput
               message := ascii "Bare `" ++ sectionSign ++
                 ascii "` requires a previous section with a path." }
    else
      .ok (sectionOp path allMatch
        (lines.map (List.rdropWhile fun c => c == carriageReturn || c == newline)))

def parseSections : Option Bytes → List (Bytes × List Bytes) → Except ToolError (List SloppyOp)
  | _, [] => .ok []
  | currentPath, (front, lines) :: rest =>
    match parseSection currentPath front lines with
    | .error e => .error e
    | .ok op => (parseSections (some op.path) rest).map (op :: ·)

/-- `parse_sloppy_input`. -/
def parseSloppyInput (input : Bytes) : Except ToolError (List SloppyOp) :=
  let sections := sloppySections none (splitLines (normalizeBreaks input))
  if sections = [] then .error noOperations else parseSections none sections

/-! ## The edit -/

structure SloppyApplyResult where
  error : ToolError := {}
  content : Bytes := []

/-- `find`: the empty text is found everywhere, also at the end. -/
def findText (needle text : Bytes) : Option Nat :=
  if needle = [] then some 0 else firstOccurrence needle text

/-- At most `bound` rounds of a loop that replaces matches and goes on at `behind` of what follows. -/
def replaceMatches (needle replacement : Bytes) (behind : Bytes → Bytes) : Nat → Bytes → Option Bytes
  | 0, _ => none
  | bound + 1, text =>
    match findText needle text with
    | none => some text
    | some pos =>
      (replaceMatches needle replacement behind bound (behind (text.drop (pos + needle.length)))).map
        (text.take pos ++ replacement ++ ·)

/-- A newline goes with a match that is replaced by nothing. -/
def swallowNewline (replacement rest : Bytes) : Bytes :=
  if replacement = [] ∧ rest.head? = some newline then rest.tail else rest

/-- `find_exact_block`. -/
def findExactBlock (content : Bytes) (blockLines : List Bytes) : Option (Nat × Nat) :=
  if blockLines = [] then none
  else
    let needle := joinLf blockLines
    (findText needle content).map fun start => (start, start + needle.length)

section

variable {S : Type} [LinearOrder S] [Zero S]

/-- Where the block is, or else what is closest to it. -/
def locateBlock (fuzzRatio : Bytes → Bytes → Option S) (threshold : S) (content : Bytes)
    (blockLines : List Bytes) : Except ToolError (Option (Nat × Nat)) :=
  match findExactBlock content blockLines with
  | some found => .ok (some found)
  | none => findFuzzyBlock fuzzRatio content blockLines threshold

/-- `apply_block_op`, for at most `bound` matches. -/
def applyBlockOp (fuzzRatio : Bytes → Bytes → Option S) (threshold : S) (content : Bytes)
    (op : SloppyOp) (rewriteLines : List Bytes) (bound : Nat) : Option SloppyApplyResult :=
  if op.matchLines = [] then
    some { error := { status := .invalidInput, message := ascii "MATCH block is empty." } }
  else
    let replacement := joinLf rewriteLines
    let needle := joinLf op.matchLines
    match locateBlock fuzzRatio threshold content op.matchLines with
    | .error error => some { error }
    | .ok none =>
      some { error := { status := .invalidInput
                        message := ascii "Could not locate MATCH block:\n" ++ needle } }
    | .ok (some (start, stop)) =>
      if op.allMatch then
        (replaceMatches needle replacement (swallowNewline replacement) bound content).map
          fun content => { content }
      else
        some { content := content.take start ++ replacement ++
                 swallowNewline replacement (content.drop stop) }

/-- `py_repr`. -/
def pyRepr (text : Bytes) : Bytes :=
  let quote : Byte := if 0x27#8 ∈ text ∧ 0x22#8 ∉ text then 0x22#8 else 0x27#8
  let hex (n : Nat) : Byte := BitVec.ofNat 8 (if n < 10 then 0x30 + n else 0x57 + n)
  let escape (c : Byte) : Bytes :=
    if c = 0x5C#8 then [0x5C#8, c]
    else if c = newline then [0x5C#8, 0x6E#8]
    else if c = carriageReturn then [0x5C#8, 0x72#8]
    else if c = tab then [0x5C#8, 0x74#8]
    else if c = 0x27#8 ∧ quote = c then [0x5C#8, c]
    else if c.toNat < 0x20 ∨ c = 0x7F#8 then [0x5C#8, 0x78#8, hex (c.toNat / 16), hex (c.toNat % 16)]
    else [c]
  quote :: text.flatMap escape ++ [quote]

/-- The selections one after the other, each at its first match. -/
def replaceOnce : Bytes → List SloppyInline → SloppyApplyResult
  | result, [] => { content := result }
  | result, sel :: rest =>
    if findText sel.oldText result = none then
      { error := { status := .invalidInput
                   message := ascii "Could not locate inline selection: " ++ pyRepr sel.oldText } }
    else replaceOnce (replaceFirst result sel.oldText sel.newText) rest

/-- The selections one after the other, each by `replace_all`. -/
def replaceEach (bound : Nat) : Bytes → List SloppyInline → Option Bytes
  | result, [] => some result
  | result, sel :: rest =>
    (replaceMatches sel.oldText sel.newText id bound result).bind (replaceEach bound · rest)

/-- `apply_inline_op`. -/
def applyInlineOp (content : Bytes) (op : SloppyOp) (bound : Nat) : Option SloppyApplyResult :=
  let selections := op.inlineLines.flatMap (·.selections)
  if op.inlineLines = [] ∨ selections = [] then some { content }
  else if op.allMatch then (replaceEach bound content selections).map fun content => { content }
  else some (replaceOnce content selections)

/-- `apply_sloppy_op`. -/
def applySloppyOp (fuzzRatio : Bytes → Bytes → Option S) (threshold : S) (content : Bytes)
    (op : SloppyOp) : Nat → Option SloppyApplyResult :=
  match op.rewriteLines with
  | some rewriteLines => applyBlockOp fuzzRatio threshold content op rewriteLines
  | none => applyInlineOp content op

end

/-! ## What ends -/

theorem replaceMatches_yields {needle : Bytes} (hne : needle ≠ []) (replacement : Bytes)
    {behind : Bytes → Bytes} (hbehind : ∀ text, (behind text).length ≤ text.length) (text : Bytes) :
    ∃ result, Yields (fun bound => replaceMatches needle replacement behind bound text) result := by
  induction hn : text.length using Nat.strong_induction_on generalizing text with
  | _ n ih =>
    cases hfind : firstOccurrence needle text with
    | none =>
      refine ⟨text, (yields_some text).later rfl fun bound => ?_⟩
      rw [replaceMatches, findText, if_neg hne, hfind]
    | some pos =>
      have hlt := (firstOccurrence_eq_some.mp hfind).1
      have hpos := List.length_pos_iff.mpr hne
      have hrest := hbehind (text.drop (pos + needle.length))
      rw [List.length_drop] at hrest
      obtain ⟨result, hresult⟩ := ih _ (by omega) (behind (text.drop (pos + needle.length))) rfl
      refine ⟨_, (hresult.map (text.take pos ++ replacement ++ ·)).later rfl fun bound => ?_⟩
      rw [replaceMatches, findText, if_neg hne, hfind]

/-- The search for the empty text never stops. -/
theorem replaceMatches_diverges (replacement : Bytes) (behind : Bytes → Bytes) (text : Bytes) :
    Diverges fun bound => replaceMatches [] replacement behind bound text := by
  intro bound
  induction bound generalizing text with
  | zero => rfl
  | succ bound ih =>
    dsimp only
    rw [replaceMatches, findText, if_pos rfl]
    exact Option.map_eq_none_iff.mpr (ih _)

theorem length_swallowNewline_le (replacement rest : Bytes) :
    (swallowNewline replacement rest).length ≤ rest.length := by
  rw [swallowNewline]
  split
  · rw [List.length_tail]
    exact Nat.sub_le _ _
  · exact Nat.le_refl _

theorem replaceEach_yields {selections : List SloppyInline}
    (h : ∀ sel ∈ selections, sel.oldText ≠ []) (content : Bytes) :
    ∃ result, Yields (fun bound => replaceEach bound content selections) result := by
  induction selections generalizing content with
  | nil => exact ⟨content, yields_some content⟩
  | cons sel rest ih =>
    obtain ⟨hsel, hrest⟩ := List.forall_mem_cons.mp h
    obtain ⟨result, hresult⟩ :=
      replaceMatches_yields hsel sel.newText (fun text => Nat.le_refl text.length) content
    obtain ⟨last, hlast⟩ := ih hrest result
    exact ⟨last, hresult.bind hlast⟩

/-- The parser takes no selection with an empty old text. -/
theorem oldText_ne_nil {remaining : Bytes} {sel : SloppyInline}
    (h : sel ∈ selectionsOf remaining) : sel.oldText ≠ [] := by
  fun_induction selectionsOf remaining with
  | case1 => cases h
  | case2 _ _ _ _ ih => exact ih h
  | case3 _ _ _ _ ih => exact ih h
  | case4 => cases h
  | case5 _ _ _ c oldText _ _ _ _ ih =>
    rcases List.mem_cons.mp h with rfl | h
    · exact List.cons_ne_nil c oldText
    · exact ih h

variable {op : SloppyOp}

variable {currentPath : Option Bytes} {lines : List Bytes}

theorem parseSection_oldText {front : Bytes} (h : parseSection currentPath front lines = .ok op) :
    ∀ sel ∈ op.inlineLines.flatMap (·.selections), sel.oldText ≠ [] := by
  unfold parseSection at h
  dsimp only at h
  split at h
  · cases h
  · split at h
    · cases h
    · obtain rfl := Except.ok.inj h
      intro sel hsel
      rw [sectionOp] at hsel
      split at hsel
      · cases hsel
      · obtain ⟨entry, hentry, hsel⟩ := List.mem_flatMap.mp hsel
        obtain ⟨line, -, rfl⟩ := List.mem_map.mp hentry
        exact oldText_ne_nil hsel

theorem exists_parseSection {sections : List (Bytes × List Bytes)} {ops : List SloppyOp}
    (h : parseSections currentPath sections = .ok ops) (hop : op ∈ ops) :
    ∃ currentPath front lines, parseSection currentPath front lines = .ok op := by
  induction sections generalizing currentPath ops with
  | nil =>
    obtain rfl := Except.ok.inj h
    cases hop
  | cons front rest ih =>
    rw [parseSections] at h
    split at h
    · cases h
    · rename_i first hfirst
      cases hrest : parseSections (some first.path) rest with
      | error e =>
        rw [hrest] at h
        cases h
      | ok others =>
        rw [hrest] at h
        obtain rfl := Except.ok.inj h
        rcases List.mem_cons.mp hop with rfl | hop
        · exact ⟨_, _, _, hfirst⟩
        · exact ih hrest hop

/-- Only a single blank line joins to the empty text. -/
theorem joinLf_eq_nil (hne : lines ≠ []) : joinLf lines = [] ↔ lines = [[]] := by
  cases lines with
  | nil => exact absurd rfl hne
  | cons line rest =>
    cases rest with
    | nil =>
      rw [joinLf, List.intercalate_singleton]
      exact ⟨fun h => h ▸ rfl, fun h => (List.cons.inj h).1⟩
    | cons next rest =>
      rw [joinLf, List.intercalate_cons_of_ne_nil (List.cons_ne_nil next rest)]
      simp

section

variable {S : Type} [LinearOrder S] [Zero S] (fuzzRatio : Bytes → Bytes → Option S) (threshold : S)

theorem applyBlockOp_yields (content : Bytes) (rewriteLines : List Bytes)
    (h : ¬(op.allMatch = true ∧ op.matchLines = [[]])) :
    ∃ result, Yields (applyBlockOp fuzzRatio threshold content op rewriteLines) result := by
  unfold applyBlockOp
  by_cases hempty : op.matchLines = []
  · simp only [if_pos hempty]
    exact ⟨_, yields_some _⟩
  · simp only [if_neg hempty]
    split
    · exact ⟨_, yields_some _⟩
    · exact ⟨_, yields_some _⟩
    · by_cases hall : op.allMatch = true
      · have hne : joinLf op.matchLines ≠ [] := fun hnil => h ⟨hall, (joinLf_eq_nil hempty).mp hnil⟩
        obtain ⟨result, hresult⟩ := replaceMatches_yields hne (joinLf rewriteLines)
          (length_swallowNewline_le (joinLf rewriteLines)) content
        simp only [if_pos hall]
        exact ⟨_, hresult.map _⟩
      · simp only [if_neg hall]
        exact ⟨_, yields_some _⟩

theorem applyBlockOp_diverges (content : Bytes) (rewriteLines : List Bytes)
    (hall : op.allMatch = true) (hblank : op.matchLines = [[]]) :
    Diverges (applyBlockOp fuzzRatio threshold content op rewriteLines) := by
  intro bound
  rw [applyBlockOp, hblank, if_neg (List.cons_ne_nil _ _)]
  exact (if_pos hall).trans (Option.map_eq_none_iff.mpr (replaceMatches_diverges _ _ content bound))

theorem applyInlineOp_yields (content : Bytes)
    (h : ∀ sel ∈ op.inlineLines.flatMap (·.selections), sel.oldText ≠ []) :
    ∃ result, Yields (applyInlineOp content op) result := by
  unfold applyInlineOp
  dsimp only
  split
  · exact ⟨_, yields_some _⟩
  · split
    · obtain ⟨result, hresult⟩ := replaceEach_yields h content
      exact ⟨_, hresult.map _⟩
    · exact ⟨_, yields_some _⟩

/-- An operation ends on a content unless it rewrites all matches of a block that is one blank
line. -/
theorem applySloppyOp_ends_iff (input : Bytes) (ops : List SloppyOp)
    (hparse : parseSloppyInput input = .ok ops) (op : SloppyOp) (hop : op ∈ ops) (content : Bytes) :
    (∃ result, Yields (applySloppyOp fuzzRatio threshold content op) result) ↔
      ¬(op.allMatch = true ∧ op.rewriteLines.isSome = true ∧ op.matchLines = [[]]) := by
  unfold applySloppyOp
  cases hrewrite : op.rewriteLines with
  | none =>
    have hold : ∀ sel ∈ op.inlineLines.flatMap (·.selections), sel.oldText ≠ [] := by
      rw [parseSloppyInput] at hparse
      split at hparse
      · cases hparse
      · obtain ⟨_, _, _, hsection⟩ := exists_parseSection hparse hop
        exact parseSection_oldText hsection
    exact ⟨fun _ hblank => Bool.noConfusion hblank.2.1, fun _ => applyInlineOp_yields content hold⟩
  | some rewriteLines =>
    refine ⟨fun ⟨_, hyields⟩ hblank => ?_, fun h => ?_⟩
    · exact hyields.not_diverges
        (applyBlockOp_diverges fuzzRatio threshold content rewriteLines hblank.1 hblank.2.2)
    · exact applyBlockOp_yields fuzzRatio threshold content rewriteLines
        fun hblank => h ⟨hblank.1, rfl, hblank.2⟩

end

/-- A block of one blank line is rewritten to another line, everywhere if `allMatch`. -/
def blankBlock (allMatch : Bool) : SloppyOp where
  path := ascii "p"
  allMatch := allMatch
  matchLines := [[]]
  rewriteLines := some [ascii "x"]

theorem applySloppyOp_ends_iff_once :
    (∃ result, Yields (applySloppyOp sameLength 1 (ascii "a") (blankBlock false)) result) ↔
      ¬((blankBlock false).allMatch = true ∧ (blankBlock false).rewriteLines.isSome = true ∧
        (blankBlock false).matchLines = [[]]) :=
  applySloppyOp_ends_iff sameLength 1 (sectionSign ++ ascii "p\n\n" ++ blockSeparator ++ ascii "\nx")
    [blankBlock false] rfl (blankBlock false) (List.mem_singleton_self _) (ascii "a")

/-- With the all-match flag that operation goes on forever. -/
theorem blankBlock_diverges :
    parseSloppyInput (sectionSign ++ ascii "*p\n\n" ++ blockSeparator ++ ascii "\nx") =
        .ok [blankBlock true] ∧
      Diverges (applySloppyOp sameLength 1 (ascii "a") (blankBlock true)) :=
  ⟨rfl, applyBlockOp_diverges sameLength 1 (ascii "a") [ascii "x"] rfl rfl⟩

end KimixNative.Tools
