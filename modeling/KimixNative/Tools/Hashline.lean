import KimixNative.Tools.LineHash
import Mathlib.Data.List.Sort

/-!
# Hashline edits

`apply_hashline_edits` checks the anchors of the edits against the hashes of the file's lines,
drops edits that repeat another, refuses edits that overlap and applies the rest bottom up to
one list of lines.
-/

namespace KimixNative.Tools

open Text

structure AnchorRef where
  line : Int
  hash : Bytes
  deriving DecidableEq, Repr

inductive HashlineEdit where
  | replace (pos : AnchorRef) (last : Option AnchorRef) (lines : List Bytes)
  | delete (pos : AnchorRef)
  | append (pos : Option AnchorRef) (lines : List Bytes)
  | prepend (pos : Option AnchorRef) (lines : List Bytes)
  deriving DecidableEq, Repr

/-- An edit after deletions have become replacements by nothing. -/
inductive LineEdit where
  | replace (pos : AnchorRef) (last : Option AnchorRef) (lines : List Bytes)
  | append (pos : Option AnchorRef) (lines : List Bytes)
  | prepend (pos : Option AnchorRef) (lines : List Bytes)
  deriving DecidableEq, Repr

def HashlineEdit.normalize : HashlineEdit → LineEdit
  | .replace pos last lines => .replace pos last lines
  | .delete pos => .replace pos none []
  | .append pos lines => .append pos lines
  | .prepend pos lines => .prepend pos lines

structure HashMismatch where
  line : Int
  expected : Bytes
  actual : Bytes
  deriving DecidableEq, Repr

structure ApplyHashlineResult where
  content : Bytes := []
  firstChangedLine : Option Int := none
  mismatches : List HashMismatch := []
  fileLines : List Bytes := []
  error : ToolError := {}
  deriving DecidableEq, Repr

/-! ## Anchors -/

structure Validation where
  mismatches : List HashMismatch := []
  errors : List Bytes := []
  deriving DecidableEq, Repr

/-- The hashes of the lines without carriage returns, where there are any. -/
def fuzzyHashes (fileLines : List Bytes) : Option (List Bytes) :=
  if fileLines.any fun line => line.any (· == carriageReturn) then
    some (computeLineHashes (fileLines.map fun line => line.filter (· != carriageReturn)))
  else none

/-- `validate_anchor_ref`. -/
def validateAnchorRef (anchor : AnchorRef) (fileLines : List Bytes) (v : Validation) : Validation :=
  if anchor.line < 1 then
    { v with errors := v.errors ++ [ascii "Line " ++ formatInt anchor.line ++ ascii " must be >= 1"] }
  else if anchor.line > fileLines.length then
    { v with errors := v.errors ++ [ascii "Line " ++ formatInt anchor.line ++
        ascii " does not exist (file has " ++ decimal fileLines.length ++ ascii " lines)"] }
  else
    let actualHash := (computeLineHashes fileLines).getD (anchor.line - 1).toNat []
    if actualHash = anchor.hash then v
    else if (fuzzyHashes fileLines).any fun hashes =>
        hashes.getD (anchor.line - 1).toNat [] == anchor.hash then v
    else { v with mismatches := v.mismatches ++ [⟨anchor.line, anchor.hash, actualHash⟩] }

/-- The anchors of an edit are validated; a range must not end before it starts. -/
def LineEdit.validate (fileLines : List Bytes) (v : Validation) : LineEdit → Validation
  | .replace pos last _ =>
    let v :=
      match last with
      | some last =>
        if pos.line > last.line then
          { v with errors := v.errors ++ [ascii "Range start line " ++ formatInt pos.line ++
              ascii " must be <= end line " ++ formatInt last.line] }
        else v
      | none => v
    let v := validateAnchorRef pos fileLines v
    match last with
    | some last => validateAnchorRef last fileLines v
    | none => v
  | .append pos _ | .prepend pos _ =>
    match pos with
    | some pos => validateAnchorRef pos fileLines v
    | none => v

def validateEdits (fileLines : List Bytes) (edits : List LineEdit) : Validation :=
  edits.foldl (fun v e => e.validate fileLines v) {}

/-- `hashline_mismatch_message`: two lines around each line that changed. -/
def hashlineMismatchMessage (mismatches : List HashMismatch) (fileLines : List Bytes) : Bytes :=
  let displayed := (List.range fileLines.length).filter fun i : Nat =>
    mismatches.any fun m => decide (m.line - 2 ≤ (i : Int) + 1 ∧ (i : Int) + 1 ≤ m.line + 2)
  let shown := displayed.map fun i : Nat =>
    (if 0 < i ∧ i - 1 ∉ displayed ∧ displayed.head? ≠ some i then ascii "    ...\n" else []) ++
      (if mismatches.any fun m => decide (m.line = (i : Int) + 1) then ascii ">>> " else ascii "    ") ++
      decimal (i + 1) ++ ascii "#" ++ (computeLineHashes fileLines).getD i [] ++ ascii ":" ++
      fileLines.getD i []
  decimal mismatches.length ++ ascii (if mismatches.length > 1 then " lines" else " line") ++
    ascii " have changed since last read. Use the updated LINE#ID references shown below " ++
    ascii "(>>> marks changed lines).\n\n" ++ joinLf shown

/-! ## Repeated and overlapping edits -/

def LineEdit.lines : LineEdit → List Bytes
  | .replace _ _ lines => lines
  | .append _ lines => lines
  | .prepend _ lines => lines

/-- `edit_key`. -/
def editKey (e : LineEdit) : Bytes :=
  (match e with
    | .replace pos (some last) _ =>
      ascii "r:" ++ formatInt pos.line ++ ascii ":" ++ formatInt last.line
    | .replace pos none _ => ascii "s:" ++ formatInt pos.line
    | .append (some pos) _ => ascii "i:" ++ formatInt pos.line
    | .append none _ => ascii "ieof"
    | .prepend (some pos) _ => ascii "ib:" ++ formatInt pos.line
    | .prepend none _ => ascii "ibef") ++ ascii ":" ++ joinLf e.lines

/-- The loop that drops edits whose key has been seen. -/
def dedupeFrom : List Bytes → List LineEdit → List LineEdit
  | _, [] => []
  | seenKeys, e :: rest =>
    if seenKeys.any (· == editKey e) then dedupeFrom seenKeys rest
    else e :: dedupeFrom (seenKeys ++ [editKey e]) rest

def dedupe (edits : List LineEdit) : List LineEdit := dedupeFrom [] edits

/-- The line that a replacement ends at. -/
def endLine (pos : AnchorRef) (last : Option AnchorRef) : Int :=
  match last with
  | some last => last.line
  | none => pos.line

/-- The lines that an edit is said to take up: those it replaces, or those that its own lines
would get. -/
def LineEdit.range (fileLen : Nat) : LineEdit → Int × Int
  | .replace pos last _ => (pos.line, endLine pos last)
  | .append pos lines =>
    let ref := (pos.map AnchorRef.line).getD fileLen
    (ref + 1, ref + lines.length)
  | .prepend pos lines =>
    let ref := (pos.map AnchorRef.line).getD 1
    (ref, ref + lines.length - 1)

/-- An insertion of nothing. -/
def LineEdit.isIdle : LineEdit → Bool
  | .replace _ _ _ => false
  | .append _ lines => lines.isEmpty
  | .prepend _ lines => lines.isEmpty

/-- Both insert at one line, one before and one behind it. -/
def sameRefLine : LineEdit → LineEdit → Bool
  | .append (some a) _, .prepend (some b) _ => decide (a.line = b.line)
  | .prepend (some a) _, .append (some b) _ => decide (b.line = a.line)
  | _, _ => false

/-- `edit_ranges_overlap`. -/
def editRangesOverlap (fileLen : Nat) (a b : LineEdit) : Bool :=
  if a.isIdle || b.isIdle then false
  else
    let ra := a.range fileLen
    let rb := b.range fileLen
    !decide (ra.2 < rb.1 ∨ rb.2 < ra.1) || sameRefLine a b

/-- `op_name`. -/
def LineEdit.opName : LineEdit → Bytes
  | .replace _ _ _ => ascii "replace"
  | .append _ _ => ascii "append"
  | .prepend _ _ => ascii "prepend"

def overlapLine (fileLen : Nat) (a b : LineEdit) : Bytes :=
  ascii "  - " ++ a.opName ++ ascii " at lines " ++ formatInt (a.range fileLen).1 ++ ascii "-" ++
    formatInt (a.range fileLen).2 ++ ascii " overlaps with " ++ b.opName ++ ascii " at lines " ++
    formatInt (b.range fileLen).1 ++ ascii "-" ++ formatInt (b.range fileLen).2

/-- The pairs of edits that overlap, the earlier one first. -/
def overlapping (fileLen : Nat) : List LineEdit → List Bytes
  | [] => []
  | a :: rest =>
    (rest.filter (editRangesOverlap fileLen a)).map (overlapLine fileLen a) ++
      overlapping fileLen rest

/-! ## Applying the edits -/

/-- `sort_line`. -/
def LineEdit.sortLine (fileLen : Nat) : LineEdit → Int
  | .replace pos last _ => endLine pos last
  | .append pos _ => (pos.map AnchorRef.line).getD fileLen
  | .prepend pos _ => (pos.map AnchorRef.line).getD 0

/-- The order of application: from the last line up, at one line the edit that is listed last. -/
def bottomUp (fileLen : Nat) (edits : List LineEdit) : List LineEdit :=
  (edits.zipIdx.insertionSort fun x y =>
    y.1.sortLine fileLen < x.1.sortLine fileLen ∨
      (y.1.sortLine fileLen = x.1.sortLine fileLen ∧ y.2 ≤ x.2)).map Prod.fst

/-- `erase` and `insert` on the vector of lines; outside of it they are undefined. -/
def splice (fileLines : List Bytes) (start count : Nat) (lines : List Bytes) : Option (List Bytes) :=
  if start + count ≤ fileLines.length then
    some (fileLines.take start ++ lines ++ fileLines.drop (start + count))
  else none

/-- A file of one empty line gives way to what is inserted without an anchor. -/
def clearEmpty (fileLines : List Bytes) : List Bytes := if fileLines = [[]] then [] else fileLines

/-- One turn of the loop that applies the edits; the line it changes first. -/
def LineEdit.apply (fileLines : List Bytes) : LineEdit → Option (List Bytes × Option Int)
  | .replace pos last lines =>
    (splice fileLines (pos.line - 1).toNat (endLine pos last - pos.line + 1).toNat lines).map
      fun fileLines => (fileLines, some pos.line)
  | .append pos lines =>
    if lines = [] then some (fileLines, none)
    else
      match pos with
      | some pos =>
        (splice fileLines pos.line.toNat 0 lines).map fun fileLines =>
          (fileLines, some (pos.line + 1))
      | none =>
        let fileLines := clearEmpty fileLines
        some (fileLines ++ lines, some (fileLines.length + 1))
  | .prepend pos lines =>
    if lines = [] then some (fileLines, none)
    else
      match pos with
      | some pos =>
        (splice fileLines (pos.line - 1).toNat 0 lines).map fun fileLines =>
          (fileLines, some pos.line)
      | none => some (lines ++ clearEmpty fileLines, some 1)

/-- `track`. -/
def trackFirst (firstChanged line : Option Int) : Option Int :=
  match firstChanged, line with
  | none, line => line
  | some first, none => some first
  | some first, some line => some (if line < first then line else first)

/-- The loop that applies the edits. -/
def applyInOrder : List Bytes → Option Int → List LineEdit → Option (List Bytes × Option Int)
  | fileLines, firstChanged, [] => some (fileLines, firstChanged)
  | fileLines, firstChanged, e :: rest =>
    (e.apply fileLines).bind fun (fileLines, line) =>
      applyInOrder fileLines (trackFirst firstChanged line) rest

/-- `apply_hashline_edits`; `none` where the code leaves the vector of lines. -/
def applyHashlineEdits (content : Bytes) (edits : List HashlineEdit) : Option ApplyHashlineResult :=
  if edits = [] then some { content := content }
  else
    let norm := normalizeNewlines content
    let fileLines := splitLines norm
    let normalized := edits.map HashlineEdit.normalize
    let v := validateEdits fileLines normalized
    if v.errors ≠ [] then
      some { error := { status := .invalidInput, message := joinLf v.errors } }
    else if v.mismatches ≠ [] then
      some { mismatches := v.mismatches, fileLines := fileLines
             error := { status := .invalidInput
                        message := hashlineMismatchMessage v.mismatches fileLines } }
    else
      let deduped := dedupe normalized
      let overlaps := overlapping fileLines.length deduped
      if overlaps ≠ [] then
        some { error := { status := .invalidInput
                          message := ascii "Overlapping edits detected. " ++
                            ascii "Combine overlapping edits into a single operation:\n" ++
                            joinLf overlaps } }
      else
        (applyInOrder fileLines none (bottomUp fileLines.length deduped)).map
          fun (fileLines, firstChanged) =>
            { content := restoreTrailingNewlineNonempty (joinLf fileLines) (endsWithNewline norm)
              firstChangedLine := firstChanged }

end KimixNative.Tools
