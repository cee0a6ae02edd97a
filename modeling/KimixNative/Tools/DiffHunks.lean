import KimixNative.Tools.EditText
import Mathlib.Data.List.Sort

/-!
# Applying the hunks of a diff

`apply_diff_hunks` takes the hunks bottom up and looks for the old lines of each in the whole
text as it stands; the line a hunk says it begins at only orders the hunks. A hunk without old
lines matches at the top of the text.
-/

namespace KimixNative.Tools

open Text

inductive HunkLineKind where
  | context
  | add
  | deleted
  deriving DecidableEq, Repr

structure HunkLine where
  kind : HunkLineKind := .context
  text : Bytes
  deriving DecidableEq, Repr

structure DiffHunk where
  startLine : Option Int := none
  changeContext : Option Bytes := none
  lines : List HunkLine
  deriving DecidableEq, Repr

/-- `hunk_pattern`: the lines that stand in the old text. -/
def hunkPattern (hunk : DiffHunk) : List Bytes :=
  (hunk.lines.filter fun l => l.kind != .add).map HunkLine.text

/-- The pattern stands in the lines at index `i`. -/
def matchesAt (originalLines pattern : List Bytes) (i : Nat) : Bool :=
  decide ((originalLines.drop i).take pattern.length = pattern)

/-- `find_exact_matches`. -/
def findExactMatches (originalLines pattern : List Bytes) : List Nat :=
  if pattern = [] then [0]
  else
    (List.range (originalLines.length + 1 - pattern.length)).filter
      (matchesAt originalLines pattern)

/-! ## Indentation -/

/-- `count_leading_whitespace`: blanks and tabs. -/
def countLeadingWhitespace (line : Bytes) : Nat × Nat :=
  let lead := line.takeWhile fun ch => ch == space || ch == tab
  (lead.count space, lead.count tab)

/-- What a line of the pattern and the line it stands for say about the indentation. -/
def indentVote (p a : Bytes) : Option (Int × Byte) :=
  if pyStrip p = [] ∨ pyStrip a = [] then none
  else
    let (pSpaces, pTabs) := countLeadingWhitespace p
    let (aSpaces, aTabs) := countLeadingWhitespace a
    if pTabs ≠ 0 ∧ aTabs = 0 ∧ aSpaces ≠ 0 then
      if aSpaces % pTabs = 0 then some ((aSpaces : Int) - (pTabs * (aSpaces / pTabs) : Nat), space)
      else some ((aSpaces : Int) - pSpaces, space)
    else if pSpaces ≠ 0 ∧ pSpaces = 0 ∧ aTabs ≠ 0 then some ((aTabs : Int) - pSpaces, tab)
    else some ((aSpaces : Int) - pSpaces, space)

/-- `max(set(votes), key=votes.count)`: of the votes cast most often the one with the least
slot key. -/
def mostVoted {V : Type} [DecidableEq V] (slotKey : V → Nat) (default : V) (votes : List V) : V :=
  (votes.foldl
    (fun (best : Nat × V × Nat) v =>
      let c := votes.count v
      if c > best.1 ∨ (c = best.1 ∧ slotKey v < best.2.2) then (c, v, slotKey v) else best)
    (0, default, 2 ^ 64 - 1)).2.1

/-- `infer_indent_adjustment`: the shift and the character to indent with. -/
def inferIndentAdjustment (patternLines actualLines : List Bytes) : Int × Byte :=
  let votes := (patternLines.zip actualLines).filterMap fun pair => indentVote pair.1 pair.2
  if votes = [] then (0, space)
  else
    (mostVoted (fun d : Int => (d % 8).toNat) 0 (votes.map Prod.fst),
      mostVoted (fun ch : Byte => ch.toNat % 8) space (votes.map Prod.snd))

/-- `apply_indent`. -/
def applyIndent (line : Bytes) (delta : Int) (indentChar : Byte) : Bytes :=
  if pyStrip line = [] then line
  else
    let (spaces, tabs) := countLeadingWhitespace line
    List.replicate (max 0 (((spaces + tabs : Nat) : Int) + delta)).toNat indentChar ++
      line.drop (leadingSpaceLen line)

/-- `adjust_added_lines`. -/
def adjustAddedLines (hunk : DiffHunk) (patternLines actualLines : List Bytes) : List HunkLine :=
  let (delta, indentChar) := inferIndentAdjustment patternLines actualLines
  if delta = 0 then hunk.lines
  else
    hunk.lines.map fun l =>
      if l.kind = .add then { l with text := applyIndent l.text delta indentChar } else l

/-! ## The hunks -/

/-- The text that is being rewritten and the first line that changed. -/
structure DiffState where
  working : List Bytes
  firstChanged : Option Nat := none
  deriving DecidableEq, Repr

structure DiffApplyResult where
  content : Bytes := []
  firstChangedLine : Option Nat := none
  error : ToolError := {}
  deriving DecidableEq, Repr

def DiffHunk.orderKey (hunk : DiffHunk) : Int := hunk.startLine.getD 0

/-- `std::stable_sort`: bottom up. -/
def sortHunks (hunks : List DiffHunk) : List DiffHunk :=
  hunks.insertionSort fun x y => y.orderKey ≤ x.orderKey

/-- The stated line of a hunk in a message. -/
def lineDescription (hunk : DiffHunk) : Bytes := (hunk.startLine.map formatInt).getD (ascii "?")

def multipleMatches (hunk : DiffHunk) : ToolError :=
  { status := .invalidInput
    message := ascii "Found multiple matches for hunk at line " ++ lineDescription hunk ++
      ascii "; add more context lines to disambiguate." }

def noMatch (hunk : DiffHunk) : ToolError :=
  { status := .invalidInput
    message := ascii "No match found for hunk anchored at " ++
      hunk.changeContext.getD (ascii "line " ++ lineDescription hunk) ++ ascii "." }

/-- What stands in the place of a hunk: its context as it is in the text, and the added lines. -/
def replacementLines : List HunkLine → List Bytes → List Bytes
  | [], _ => []
  | line :: rest, actual =>
    match line.kind with
    | .context => (actual.head?.getD []) :: replacementLines rest actual.tail
    | .deleted => replacementLines rest actual.tail
    | .add => line.text :: replacementLines rest actual

/-- The place a hunk is applied at. `findFuzzyMatch` is the fallback of the fuzzy mode. -/
def placeHunk (findFuzzyMatch : List Bytes → List Bytes → Except ToolError (Option Nat))
    (allowFuzzy : Bool) (working : List Bytes) (hunk : DiffHunk) : Except ToolError Nat :=
  match findExactMatches working (hunkPattern hunk) with
  | [mi] => .ok mi
  | _ :: _ :: _ => .error (multipleMatches hunk)
  | [] =>
    if allowFuzzy then
      match findFuzzyMatch working (hunkPattern hunk) with
      | .error e => .error e
      | .ok (some mi) => .ok mi
      | .ok none => .error (noMatch hunk)
    else .error (noMatch hunk)

/-- The turn of the loop that rewrites the text at the place found. -/
def rewriteAt (st : DiffState) (hunk : DiffHunk) (mi : Nat) : DiffState :=
  let pattern := hunkPattern hunk
  let actual := (st.working.drop mi).take pattern.length
  let adjusted := adjustAddedLines hunk pattern actual
  let lineNum := mi + 1
  { working := st.working.take mi ++ replacementLines adjusted actual ++
      st.working.drop (mi + pattern.length)
    firstChanged :=
      if adjusted.any fun line => line.kind != .context then
        match st.firstChanged with
        | none => some lineNum
        | some first => some (if lineNum < first then lineNum else first)
      else st.firstChanged }

/-- The loop of `apply_diff_hunks` over the sorted hunks. -/
def applySorted (findFuzzyMatch : List Bytes → List Bytes → Except ToolError (Option Nat))
    (allowFuzzy : Bool) : DiffState → List DiffHunk → Except ToolError DiffState
  | st, [] => .ok st
  | st, hunk :: rest =>
    match placeHunk findFuzzyMatch allowFuzzy st.working hunk with
    | .error e => .error e
    | .ok mi => applySorted findFuzzyMatch allowFuzzy (rewriteAt st hunk mi) rest

/-- `apply_diff_hunks`. -/
def applyDiffHunks (findFuzzyMatch : List Bytes → List Bytes → Except ToolError (Option Nat))
    (hunks : List DiffHunk) (content : Bytes) (allowFuzzy : Bool) : DiffApplyResult :=
  match applySorted findFuzzyMatch allowFuzzy { working := splitLf content } (sortHunks hunks) with
  | .error e => { error := e }
  | .ok st =>
    { content := restoreTrailingNewline (joinLf st.working) (endsWithNewline content)
      firstChangedLine := st.firstChanged }

end KimixNative.Tools
