import Mathlib.Algebra.Ring.Int.Defs
import KimixNative.Tools.HashlineOnePass

/-!
# Positions of hashline edits

Edits as they come from the request have any operation, and anchors that may be absent. The
anchors are checked against the file as it was read; the lines are erased and inserted in a list
that the edits before have changed.
-/

namespace KimixNative.Tools

open Text

/-- `hashline_edit`, as `parse_hashline_edit` makes it. -/
structure ParsedEdit where
  op : Bytes
  pos : Option AnchorRef := none
  last : Option AnchorRef := none
  lines : List Bytes := []
  deriving DecidableEq, Repr

namespace ParsedEdit

/-- Deletions become replacements by nothing; an end is dropped. -/
def normalize (e : ParsedEdit) : ParsedEdit :=
  if e.op = ascii "delete" then { op := ascii "replace", pos := e.pos } else e

/-- The anchors that are present are validated; an unknown operation has none that count. -/
def validate (fileLines : List Bytes) (v : Validation) (e : ParsedEdit) : Validation :=
  let check (v : Validation) (anchor : Option AnchorRef) : Validation :=
    match anchor with
    | some anchor => validateAnchorRef anchor fileLines v
    | none => v
  if e.op = ascii "replace" then
    let v :=
      match e.pos, e.last with
      | some pos, some last =>
        if pos.line > last.line then
          { v with errors := v.errors ++ [ascii "Range start line " ++ formatInt pos.line ++
              ascii " must be <= end line " ++ formatInt last.line] }
        else v
      | _, _ => v
    check (check v e.pos) e.last
  else if e.op = ascii "append" ∨ e.op = ascii "prepend" then check v e.pos
  else v

/-- What the later stages make of an edit; `none` where they read an anchor that is absent. An
unknown operation takes up no lines, is sorted as line 0 and changes nothing. -/
def lineEdit (e : ParsedEdit) : Option LineEdit :=
  if e.op = ascii "replace" then e.pos.map fun pos => .replace pos e.last e.lines
  else if e.op = ascii "append" then some (.append e.pos e.lines)
  else if e.op = ascii "prepend" then some (.prepend e.pos e.lines)
  else some (.prepend none [])

/-- `edit_key`. -/
def key (e : ParsedEdit) : Option Bytes :=
  if e.op = ascii "replace" ∨ e.op = ascii "append" ∨ e.op = ascii "prepend" then
    e.lineEdit.map editKey
  else
    some (ascii "unknown:" ++ formatInt ((e.pos.map AnchorRef.line).getD 0) ++ ascii ":" ++
      joinLf e.lines)

end ParsedEdit

/-- The loop that drops edits whose key has been seen. -/
def dedupeParsed : List Bytes → List ParsedEdit → Option (List LineEdit)
  | _, [] => some []
  | seenKeys, e :: rest =>
    e.key.bind fun key =>
      if seenKeys.any (· == key) then dedupeParsed seenKeys rest
      else
        e.lineEdit.bind fun edit =>
          (dedupeParsed (seenKeys ++ [key]) rest).map fun kept => edit :: kept

/-- The faults of the anchors. -/
def faults (content : Bytes) (edits : List ParsedEdit) : Validation :=
  (edits.map ParsedEdit.normalize).foldl
    (fun v e => e.validate (splitLines (normalizeNewlines content)) v) {}

/-- `apply_hashline_edits` on edits of a request; `none` where the code reads an anchor that is
absent or leaves the vector of lines. -/
def applyParsedEdits (content : Bytes) (edits : List ParsedEdit) : Option ApplyHashlineResult :=
  if edits = [] then some { content := content }
  else
    let norm := normalizeNewlines content
    let fileLines := splitLines norm
    let v := faults content edits
    if v.errors ≠ [] then
      some { error := { status := .invalidInput, message := joinLf v.errors } }
    else if v.mismatches ≠ [] then
      some { mismatches := v.mismatches, fileLines := fileLines
             error := { status := .invalidInput
                        message := hashlineMismatchMessage v.mismatches fileLines } }
    else
      (dedupeParsed [] (edits.map ParsedEdit.normalize)).bind fun deduped =>
        let overlaps := overlapping fileLines.length deduped
        if overlaps ≠ [] then
          some { error := { status := .invalidInput
                            message := ascii "Overlapping edits detected. " ++
                              ascii "Combine overlapping edits into a single operation:\n" ++
                              joinLf overlaps } }
        else
          (applyInOrder fileLines none (bottomUp fileLines.length deduped)).map
            fun (fileLines, firstChanged) =>
              { content := restoreTrailingNewlineNonempty (joinLf fileLines) (endsWithNewline norm)
                firstChangedLine := firstChanged }

/-! ## Room for an edit -/

/-- How many lines an edit needs in front of the place where it ends. -/
def LineEdit.needs : LineEdit → Int
  | .replace pos last _ => endLine pos last
  | .append pos lines => if lines = [] then 0 else (pos.map AnchorRef.line).getD 0
  | .prepend pos lines => if lines = [] then 0 else (pos.map (·.line - 1)).getD 0

/-- By how much an edit makes the file longer. -/
def LineEdit.growth : LineEdit → Int
  | .replace pos last lines => lines.length - (endLine pos last - pos.line + 1)
  | .append _ lines => lines.length
  | .prepend _ lines => lines.length

/-- An edit that makes the file shorter leaves what the other one needs. -/
def Spares (n : Nat) (x e : LineEdit) : Prop := x.growth < 0 → e.needs < (x.range n).1

theorem length_clearEmpty_le (fileLines : List Bytes) :
    (clearEmpty fileLines).length ≤ fileLines.length ∧
      fileLines.length ≤ (clearEmpty fileLines).length + 1 := by
  rw [clearEmpty]
  split
  · rename_i h
    simp [h]
  · exact ⟨Nat.le_refl _, Nat.le_succ _⟩

variable {fileLines : List Bytes} {n : Nat} {edits : List LineEdit}

theorem splice_length {lines result : List Bytes} {start count : Nat}
    (h : splice fileLines start count lines = some result) :
    start + count ≤ fileLines.length ∧ result.length + count = fileLines.length + lines.length := by
  rw [splice] at h
  split at h
  · rename_i hle
    obtain rfl := Option.some.inj h
    simp only [List.length_append, List.length_take, List.length_drop]
    omega
  · exact absurd h.symm (Option.some_ne_none _)

variable {e : LineEdit}

/-- An edit runs where it has room, and leaves the lines in front of it. -/
theorem apply_isSome (he : e.Anchored n) (hneeds : e.needs ≤ fileLines.length) :
    ∃ result line, e.apply fileLines = some (result, line) ∧
      (0 ≤ e.growth → fileLines.length ≤ result.length) ∧
      (e.growth < 0 → (e.range n).1 ≤ result.length + 1) := by
  have hspliced : ∀ start count lines, start + count ≤ fileLines.length →
      ∃ result, splice fileLines start count lines = some result ∧
        result.length + count = fileLines.length + lines.length := by
    intro start count lines hle
    refine ⟨_, if_pos hle, ?_⟩
    simp only [List.length_append, List.length_take, List.length_drop]
    omega
  cases e with
  | replace pos last lines =>
    obtain ⟨hpos, hle, hlast⟩ := he
    obtain ⟨result, hsplice, hlength⟩ := hspliced (pos.line - 1).toNat
      (endLine pos last - pos.line + 1).toNat lines (by simp only [LineEdit.needs] at hneeds; omega)
    refine ⟨result, some pos.line, by rw [LineEdit.apply, hsplice, Option.map_some], ?_, ?_⟩
    · simp only [LineEdit.growth]
      omega
    · simp only [LineEdit.range, LineEdit.needs] at hneeds ⊢
      omega
  | append pos lines =>
    have hgrowth : ¬(LineEdit.append pos lines).growth < 0 :=
      Int.not_lt.mpr (Int.natCast_nonneg lines.length)
    by_cases hlines : lines = []
    · exact ⟨fileLines, none, if_pos hlines, fun _ => Nat.le_refl _, fun h => absurd h hgrowth⟩
    · have hlength := List.length_pos_of_ne_nil hlines
      cases pos with
      | none =>
        refine ⟨_, _, if_neg hlines, fun _ => ?_, fun h => absurd h hgrowth⟩
        have hclear := length_clearEmpty_le fileLines
        simp only [List.length_append]
        omega
      | some pos =>
        simp only [LineEdit.needs, if_neg hlines, Option.map_some, Option.getD_some] at hneeds
        obtain ⟨result, hsplice, hresult⟩ := hspliced pos.line.toNat 0 lines (by omega)
        refine ⟨result, some (pos.line + 1), ?_, fun _ => by omega, fun h => absurd h hgrowth⟩
        simp only [LineEdit.apply, if_neg hlines, hsplice, Option.map_some]
  | prepend pos lines =>
    have hgrowth : ¬(LineEdit.prepend pos lines).growth < 0 :=
      Int.not_lt.mpr (Int.natCast_nonneg lines.length)
    by_cases hlines : lines = []
    · exact ⟨fileLines, none, if_pos hlines, fun _ => Nat.le_refl _, fun h => absurd h hgrowth⟩
    · have hlength := List.length_pos_of_ne_nil hlines
      cases pos with
      | none =>
        refine ⟨_, _, if_neg hlines, fun _ => ?_, fun h => absurd h hgrowth⟩
        have hclear := length_clearEmpty_le fileLines
        simp only [List.length_append]
        omega
      | some pos =>
        simp only [LineEdit.needs, if_neg hlines, Option.map_some, Option.getD_some] at hneeds
        obtain ⟨result, hsplice, hresult⟩ := hspliced (pos.line - 1).toNat 0 lines (by omega)
        refine ⟨result, some pos.line, ?_, fun _ => by omega, fun h => absurd h hgrowth⟩
        simp only [LineEdit.apply, if_neg hlines, hsplice, Option.map_some]

/-- An edit that ran had room, and made the file longer by its growth at most. -/
theorem growth_of_apply {result : List Bytes} {line : Option Int} (he : e.Anchored n)
    (h : e.apply fileLines = some (result, line)) :
    e.needs ≤ fileLines.length ∧ (result.length : Int) ≤ fileLines.length + e.growth := by
  cases e with
  | replace pos last lines =>
    obtain ⟨hpos, hle, hlast⟩ := he
    obtain ⟨spliced, hsplice, heq⟩ := Option.map_eq_some_iff.mp h
    obtain ⟨rfl, -⟩ := Prod.mk.inj heq
    have hlength := splice_length hsplice
    simp only [LineEdit.needs, LineEdit.growth]
    omega
  | append pos lines | prepend pos lines =>
    by_cases hlines : lines = []
    · simp only [LineEdit.apply, if_pos hlines, Option.some.injEq, Prod.mk.injEq] at h
      simp only [LineEdit.needs, LineEdit.growth, hlines, ← h.1]
      simp
    · simp only [LineEdit.apply, if_neg hlines] at h
      simp only [LineEdit.needs, LineEdit.growth, if_neg hlines]
      cases pos with
      | none =>
        obtain ⟨rfl, -⟩ := Prod.mk.inj (Option.some.inj h)
        have hclear := length_clearEmpty_le fileLines
        simp only [Option.map_none, Option.getD_none, List.length_append]
        omega
      | some pos =>
        have hpos := he pos rfl
        obtain ⟨spliced, hsplice, heq⟩ := Option.map_eq_some_iff.mp h
        obtain ⟨rfl, -⟩ := Prod.mk.inj heq
        have hlength := splice_length hsplice
        simp only [Option.map_some, Option.getD_some]
        omega

/-- Edits run one after the other when each leaves what the later ones need. -/
theorem applyInOrder_isSome (hanchored : ∀ e ∈ edits, e.Anchored n)
    (hspares : edits.Pairwise (Spares n)) (hneeds : ∀ e ∈ edits, e.needs ≤ fileLines.length)
    (firstChanged : Option Int) : (applyInOrder fileLines firstChanged edits).isSome := by
  induction edits generalizing fileLines firstChanged with
  | nil => rfl
  | cons x rest ih =>
    obtain ⟨hx, hrest⟩ := List.pairwise_cons.mp hspares
    obtain ⟨result, line, happly, hlonger, hshorter⟩ :=
      apply_isSome (hanchored x List.mem_cons_self) (hneeds x List.mem_cons_self)
    rw [applyInOrder, happly, Option.bind_some]
    refine ih (fun e he => hanchored e (List.mem_cons_of_mem x he)) hrest ?_ _
    intro e he
    have hroom := hneeds e (List.mem_cons_of_mem x he)
    rcases Int.lt_or_le x.growth 0 with hgrowth | hgrowth
    · have hleft := hx e he hgrowth
      have hend := hshorter hgrowth
      omega
    · have hlength := hlonger hgrowth
      omega

/-- No edit that ran needed more lines than the file and the growth so far come to. -/
theorem needs_of_applyInOrder (hanchored : ∀ e ∈ edits, e.Anchored n) {firstChanged : Option Int}
    (h : (applyInOrder fileLines firstChanged edits).isSome) {before after : List LineEdit}
    (hsplit : edits = before ++ e :: after) :
    e.needs ≤ fileLines.length + (before.map LineEdit.growth).sum := by
  induction before generalizing edits fileLines firstChanged with
  | nil =>
    subst hsplit
    rw [List.nil_append, applyInOrder] at h
    rcases happly : e.apply fileLines with _ | ⟨result, line⟩
    · rw [happly] at h
      exact absurd h Bool.false_ne_true
    · have hgrowth := growth_of_apply (hanchored e List.mem_cons_self) happly
      simpa using hgrowth.1
  | cons x before ih =>
    subst hsplit
    rw [List.cons_append, applyInOrder] at h
    rcases happly : x.apply fileLines with _ | ⟨result, line⟩
    · rw [happly] at h
      exact absurd h Bool.false_ne_true
    · rw [happly] at h
      have hgrowth := growth_of_apply (hanchored x List.mem_cons_self) happly
      have hrest := ih (fun y hy => hanchored y (List.mem_cons_of_mem x hy)) h rfl
      rw [List.map_cons, List.sum_cons]
      omega

/-! ## Edits that do not overlap -/

/-- Behind no append a replacement is listed that ends at its line and makes the file shorter. -/
def Roomy (edits : List LineEdit) : Prop :=
  edits.Pairwise fun e x => e.appendsBehind x = true → 0 ≤ x.growth

theorem needs_le (he : e.Anchored n) : e.needs ≤ n := by
  cases e with
  | replace pos last lines => exact he.2.2
  | append pos lines | prepend pos lines =>
    rw [LineEdit.needs]
    split
    · exact Int.natCast_nonneg n
    · cases pos with
      | none => exact Int.natCast_nonneg n
      | some pos =>
        have hpos := he pos rfl
        simp only [Option.map_some, Option.getD_some]
        omega

/-- Of two edits that do not overlap the lower one, applied first, leaves what the other needs. -/
theorem spares_of_sortedFree {x : LineEdit} (hx : x.Anchored n) (he : e.Anchored n)
    (h : SortedFree n x e) (hroomy : e.appendsBehind x = true → 0 ≤ x.growth) : Spares n x e := by
  intro hgrowth
  cases x with
  | append pos lines | prepend pos lines => exact absurd (Int.natCast_nonneg _) (Int.not_le.mpr hgrowth)
  | replace p last body =>
    obtain ⟨hp, hle, hlast⟩ := hx
    obtain ⟨hsort, hfree⟩ := h
    cases e with
    | replace pos last' lines =>
      have hr := (ranges_of_free rfl rfl hfree).1
      have hordered := he.2.1
      simp only [LineEdit.range, LineEdit.sortLine, LineEdit.needs] at hr hsort ⊢
      omega
    | append pos lines | prepend pos lines =>
      rw [LineEdit.needs]
      split
      · exact hp
      · rename_i hlines
        have hidle : lines.isEmpty = false := List.isEmpty_eq_false_iff.mpr hlines
        obtain ⟨hr, -⟩ := ranges_of_free rfl (by exact hidle) hfree
        have hlength := List.length_pos_of_ne_nil hlines
        cases pos with
        | none => exact hp
        | some pos =>
          simp only [LineEdit.appendsBehind, hidle, Bool.not_false, Bool.true_and, decide_eq_true_eq, Bool.false_eq_true] at hroomy
          simp only [LineEdit.range, LineEdit.sortLine, Option.map_some,
            Option.getD_some] at hr hsort ⊢
          omega

theorem anchored_bottomUp (h : ∀ e ∈ edits, e.Anchored n) : ∀ e ∈ bottomUp n edits, e.Anchored n :=
  fun e he => h e ((perm_bottomUp n edits).mem_iff.mp he)

theorem bottomUp_spares (hedits : Compatible n edits) (hroomy : Roomy edits) :
    (bottomUp n edits).Pairwise (Spares n) := by
  have hbehind : (bottomUp n edits).Pairwise fun x e =>
      e.appendsBehind x = true → 0 ≤ x.growth := by
    refine bottomUp_pairwise fun i j hi hj hsooner hbehind => ?_
    rcases hsooner with h | h
    · exact absurd (sortLine_of_appendsBehind (n := n) hbehind) (Int.ne_of_lt h)
    · exact List.pairwise_iff_getElem.mp hroomy i j hi hj h.2 hbehind
  have hmem := anchored_bottomUp hedits.anchored
  refine ((bottomUp_sortedFree hedits).and hbehind).imp_of_mem fun {x e} hx he h => ?_
  exact spares_of_sortedFree (hmem x hx) (hmem e he) h.1 h.2

/-! ## Edits of a request -/

/-- A replacement or deletion has the anchor that it starts at. -/
def ParsedEdit.Present (e : ParsedEdit) : Prop :=
  e.op = ascii "replace" ∨ e.op = ascii "delete" → e.pos ≠ none

theorem ParsedEdit.lineEdit_isSome_iff {e : ParsedEdit} :
    e.normalize.lineEdit.isSome = true ↔ e.Present := by
  have hdelete : ascii "replace" ≠ ascii "delete" := by decide
  have hreplace : ∀ e : ParsedEdit, e.op = ascii "replace" →
      (e.lineEdit.isSome = true ↔ e.pos ≠ none) := by
    intro e he
    rw [lineEdit, if_pos he, Option.isSome_map, Option.isSome_iff_ne_none]
  by_cases hop : e.op = ascii "delete"
  · rw [normalize, if_pos hop, hreplace _ rfl]
    simp [Present, hop]
  · rw [normalize, if_neg hop]
    by_cases hrep : e.op = ascii "replace"
    · rw [hreplace e hrep]
      simp [Present, hrep]
    · have hother : e.lineEdit.isSome = true := by
        rw [lineEdit, if_neg hrep]
        split
        · rfl
        · split <;> rfl
      simp [hother, Present, hop, hrep]

theorem ParsedEdit.key_isSome (e : ParsedEdit) : e.key.isSome = e.lineEdit.isSome := by
  rw [key]
  split
  · exact Option.isSome_map
  · rename_i hop
    rw [not_or, not_or] at hop
    rw [lineEdit, if_neg hop.1, if_neg hop.2.1, if_neg hop.2.2]
    rfl

theorem dedupeParsed_isSome (edits : List ParsedEdit) (seenKeys : List Bytes) :
    (dedupeParsed seenKeys edits).isSome = true ↔ ∀ e ∈ edits, e.lineEdit.isSome = true := by
  induction edits generalizing seenKeys with
  | nil => simp [dedupeParsed]
  | cons e rest ih =>
    have hkey := e.key_isSome
    rw [dedupeParsed, List.forall_mem_cons]
    rcases hedit : e.lineEdit with _ | edit
    · rw [hedit, Option.isSome_none, Option.isSome_eq_false_iff, Option.isNone_iff_eq_none] at hkey
      simp [hkey]
    · rw [hedit, Option.isSome_some] at hkey
      obtain ⟨key, hkey⟩ := Option.isSome_iff_exists.mp hkey
      rw [hkey, Option.bind_some, ← ih (seenKeys ++ [key])]
      split
      · simp [ih]
      · simp

variable {edit : LineEdit} {kept : List LineEdit} {content : Bytes}

theorem mem_of_dedupeParsed {edits : List ParsedEdit} {seenKeys : List Bytes}
    (h : dedupeParsed seenKeys edits = some kept) (hmem : edit ∈ kept) :
    ∃ e ∈ edits, e.lineEdit = some edit := by
  induction edits generalizing seenKeys kept with
  | nil =>
    obtain rfl := Option.some.inj h
    exact absurd hmem List.not_mem_nil
  | cons e rest ih =>
    rw [dedupeParsed] at h
    obtain ⟨key, -, h⟩ := Option.bind_eq_some_iff.mp h
    split at h
    · obtain ⟨x, hx, heq⟩ := ih h hmem
      exact ⟨x, List.mem_cons_of_mem e hx, heq⟩
    · obtain ⟨first, hfirst, h⟩ := Option.bind_eq_some_iff.mp h
      obtain ⟨others, hothers, rfl⟩ := Option.map_eq_some_iff.mp h
      rcases List.mem_cons.mp hmem with rfl | hmem
      · exact ⟨e, List.mem_cons_self, hfirst⟩
      · obtain ⟨x, hx, heq⟩ := ih hothers hmem
        exact ⟨x, List.mem_cons_of_mem e hx, heq⟩

theorem ParsedEdit.validate_eq {e : ParsedEdit} (h : e.lineEdit = some edit)
    (fileLines : List Bytes) (v : Validation) :
    e.validate fileLines v = edit.validate fileLines v := by
  obtain ⟨op, pos, last, lines⟩ := e
  simp only [lineEdit] at h
  simp only [ParsedEdit.validate]
  split at h
  · rename_i hop
    obtain ⟨p, hp, rfl⟩ := Option.map_eq_some_iff.mp h
    obtain rfl : pos = some p := hp
    rw [if_pos hop]
    cases last <;> rfl
  · rename_i hreplace
    rw [if_neg hreplace]
    split at h
    · rename_i hop
      obtain rfl := Option.some.inj h
      rw [if_pos (Or.inl hop)]
      cases pos <;> rfl
    · rename_i happend
      split at h
      · rename_i hop
        obtain rfl := Option.some.inj h
        rw [if_pos (Or.inr hop)]
        cases pos <;> rfl
      · rename_i hprepend
        obtain rfl := Option.some.inj h
        rw [if_neg (not_or_intro happend hprepend)]
        rfl

/-- Without faults every edit that is kept has its anchors in the file. -/
theorem anchored_of_faults {edits : List ParsedEdit} (h : faults content edits = {})
    (hkept : dedupeParsed [] (edits.map ParsedEdit.normalize) = some kept) :
    ∀ e ∈ kept, e.Anchored (splitLines (normalizeNewlines content)).length := by
  have hfold : ∀ (list : List ParsedEdit) (v : Validation),
      (∀ e ∈ list, e.lineEdit.isSome = true) →
      list.foldl (fun v e => e.validate (splitLines (normalizeNewlines content)) v) v =
        (list.filterMap ParsedEdit.lineEdit).foldl
          (fun v e => e.validate (splitLines (normalizeNewlines content)) v) v := by
    intro list
    induction list with
    | nil => exact fun v _ => rfl
    | cons e list ih =>
      intro v hlist
      obtain ⟨edit, hedit⟩ := Option.isSome_iff_exists.mp (hlist e List.mem_cons_self)
      rw [List.foldl_cons, List.filterMap_cons_some hedit, List.foldl_cons, e.validate_eq hedit]
      exact ih _ fun x hx => hlist x (List.mem_cons_of_mem e hx)
  have hsome : (dedupeParsed [] (edits.map ParsedEdit.normalize)).isSome = true := by
    rw [hkept, Option.isSome_some]
  rw [faults, hfold _ _ ((dedupeParsed_isSome _ _).mp hsome)] at h
  have hsound := (validateEdits_eq_nil _ _).mp h
  intro e he
  obtain ⟨x, hx, hedit⟩ := mem_of_dedupeParsed hkept he
  exact (hsound e (List.mem_filterMap.mpr ⟨x, hx, hedit⟩)).anchored

/-- The edits keep to the list of lines: a fault is found, or every replacement and deletion has
an anchor and, where the edits that are kept do not overlap, none is inserted behind a replacement
that is listed later and makes the file shorter. -/
def KeepsInRange (content : Bytes) (edits : List ParsedEdit) : Prop :=
  faults content edits ≠ {} ∨
    (∀ e ∈ edits, e.Present) ∧ ∀ kept, dedupeParsed [] (edits.map ParsedEdit.normalize) = some kept →
      overlapping (splitLines (normalizeNewlines content)).length kept = [] → Roomy kept

/-- What edits that stay in range have in common: where no fault is found every replacement and
deletion has an anchor, and no edit needs more lines than there are with those applied before. -/
def RunsInRange (content : Bytes) (edits : List ParsedEdit) : Prop :=
  faults content edits ≠ {} ∨
    (∀ e ∈ edits, e.Present) ∧ ∀ kept, dedupeParsed [] (edits.map ParsedEdit.normalize) = some kept →
      overlapping (splitLines (normalizeNewlines content)).length kept = [] →
      ∀ (before : List LineEdit) (e : LineEdit) (after : List LineEdit),
        bottomUp (splitLines (normalizeNewlines content)).length kept = before ++ e :: after →
        e.needs ≤ ((splitLines (normalizeNewlines content)).length : Int) +
          (before.map LineEdit.growth).sum

/-- Without faults the edits are refused for overlapping or applied. -/
theorem applyParsedEdits_isSome {edits : List ParsedEdit} (hne : edits ≠ [])
    (h : faults content edits = {}) :
    (applyParsedEdits content edits).isSome = true ↔
      ∃ kept, dedupeParsed [] (edits.map ParsedEdit.normalize) = some kept ∧
        (overlapping (splitLines (normalizeNewlines content)).length kept = [] →
          (applyInOrder (splitLines (normalizeNewlines content)) none
            (bottomUp (splitLines (normalizeNewlines content)).length kept)).isSome = true) := by
  simp only [applyParsedEdits, if_neg hne, h, ne_eq, not_true_eq_false, if_false]
  rcases dedupeParsed [] (edits.map ParsedEdit.normalize) with _ | kept
  · simp
  · rw [Option.bind_some]
    by_cases hover : overlapping (splitLines (normalizeNewlines content)).length kept = []
    · simp [hover]
    · simp [hover]

theorem applyParsedEdits_keepsInRange (content : Bytes) (edits : List ParsedEdit) :
    (KeepsInRange content edits → (applyParsedEdits content edits).isSome = true) ∧
      ((applyParsedEdits content edits).isSome = true → RunsInRange content edits) := by
  by_cases hne : edits = []
  · subst hne
    refine ⟨fun _ => rfl, fun _ => Or.inr ⟨fun e he => absurd he List.not_mem_nil, ?_⟩⟩
    intro kept hkept _ before e after hsplit
    obtain rfl : kept = [] := (Option.some.inj hkept).symm
    exact absurd hsplit.symm (List.append_ne_nil_of_right_ne_nil before (List.cons_ne_nil e after))
  by_cases hfaults : faults content edits = {}
  · rw [applyParsedEdits_isSome hne hfaults]
    have hpresent : (dedupeParsed [] (edits.map ParsedEdit.normalize)).isSome = true ↔
        ∀ e ∈ edits, e.Present := by
      rw [dedupeParsed_isSome, List.forall_mem_map]
      exact forall₂_congr fun e _ => e.lineEdit_isSome_iff
    constructor
    · rintro (h | ⟨hall, hroomy⟩)
      · exact absurd hfaults h
      · obtain ⟨kept, hkept⟩ := Option.isSome_iff_exists.mp (hpresent.mpr hall)
        refine ⟨kept, hkept, fun hover => ?_⟩
        have hanchored := anchored_of_faults hfaults hkept
        have hmem := anchored_bottomUp hanchored
        have hspares := bottomUp_spares ⟨hanchored, (overlapping_eq_nil _ _).mp hover⟩
          (hroomy kept hkept hover)
        exact applyInOrder_isSome hmem hspares (fun e he => needs_le (hmem e he)) none
    · rintro ⟨kept, hkept, hrun⟩
      refine Or.inr ⟨hpresent.mp (by rw [hkept, Option.isSome_some]), ?_⟩
      intro others hothers hover before e after hsplit
      obtain rfl := Option.some.inj (hkept.symm.trans hothers)
      have hanchored := anchored_of_faults hfaults hkept
      exact needs_of_applyInOrder (anchored_bottomUp hanchored) (hrun hover) hsplit
  · refine ⟨fun _ => ?_, fun _ => Or.inl hfaults⟩
    simp only [applyParsedEdits, if_neg hne]
    by_cases herrors : (faults content edits).errors = []
    · have hmismatches : (faults content edits).mismatches ≠ [] := fun h =>
        hfaults (validation_eq_nil.mpr ⟨herrors, h⟩)
      simp [herrors, hmismatches]
    · simp [herrors]

/-- A replacement without an anchor reads it all the same; a line is inserted behind the end of
the list when its own line was deleted before. -/
theorem not_inRange_absent_or_shrunk :
    ¬(∀ content edits, (applyParsedEdits content edits).isSome = true) ∧
    applyParsedEdits (ascii "a\n") [{ op := ascii "replace", lines := [ascii "x"] }] = none ∧
    faults (ascii "a\n") [{ op := ascii "append", pos := some ⟨1, ascii "RW"⟩, lines := [ascii "x"] },
      { op := ascii "delete", pos := some ⟨1, ascii "RW"⟩ }] = {} ∧
    applyParsedEdits (ascii "a\n") [{ op := ascii "append", pos := some ⟨1, ascii "RW"⟩
                                      lines := [ascii "x"] },
      { op := ascii "delete", pos := some ⟨1, ascii "RW"⟩ }] = none := by
  refine ⟨fun h => ?_, by decide, by decide, by decide⟩
  exact absurd (h (ascii "a\n") [{ op := ascii "replace", lines := [ascii "x"] }]) (by decide)

end KimixNative.Tools
