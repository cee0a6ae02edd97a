import KimixNative.Lib.Cells
import KimixNative.Tools.Hashline

/-!
# One pass over the lines

What hashline edits are for: each edit says what becomes of a line of the file as it was read,
and all of them are made at once. The lines and the gaps between them are the cells of the file.
-/

namespace KimixNative.Tools

open Text Cells

/-! ## What an edit says about a line -/

/-- The lines are numbered from one. -/
def LineEdit.bodyBefore (i : Nat) : LineEdit → List Bytes
  | .prepend (some pos) lines => if pos.line = i then lines else []
  | _ => []

def LineEdit.bodyInstead (i : Nat) : LineEdit → List Bytes
  | .replace pos _ lines => if pos.line = i then lines else []
  | _ => []

def LineEdit.coversLine (i : Nat) : LineEdit → Bool
  | .replace pos last _ => decide (pos.line ≤ i ∧ (i : Int) ≤ endLine pos last)
  | _ => false

def LineEdit.bodyAfter (i : Nat) : LineEdit → List Bytes
  | .append (some pos) lines => if pos.line = i then lines else []
  | _ => []

def LineEdit.bodyFirst : LineEdit → List Bytes
  | .prepend none lines => lines
  | _ => []

def LineEdit.bodyLast : LineEdit → List Bytes
  | .append none lines => lines
  | _ => []

/-- What becomes of a line. -/
def passLine (edits : List LineEdit) (line : Bytes) (i : Nat) : List Bytes :=
  edits.flatMap (·.bodyBefore i) ++ edits.flatMap (·.bodyInstead i) ++
    (if edits.any (·.coversLine i) then [] else [line]) ++ edits.flatMap (·.bodyAfter i)

/-- The edits made all at once, in one pass over the lines. -/
def onePass (fileLines : List Bytes) (edits : List LineEdit) : List Bytes :=
  edits.flatMap LineEdit.bodyFirst ++
    ((fileLines.zipIdx 1).flatMap fun (line, i) => passLine edits line i) ++
      edits.flatMap LineEdit.bodyLast

/-! ## Lines and gaps as cells -/

/-- The anchors of an edit lie in the file. -/
def LineEdit.Anchored (fileLen : Nat) : LineEdit → Prop
  | .replace pos last _ =>
    1 ≤ pos.line ∧ pos.line ≤ endLine pos last ∧ endLine pos last ≤ fileLen
  | .append pos _ | .prepend pos _ => ∀ p ∈ pos, 1 ≤ p.line ∧ p.line ≤ fileLen

/-- Line `i` is cell `3 * i - 1`; the cells next to it are the gaps before and after it. -/
def LineEdit.change (fileLen : Nat) : LineEdit → Option (Change Bytes)
  | .replace pos last lines =>
    some ⟨3 * pos.line.toNat - 1, 3 * pos.line.toNat - 1 + 3 * (endLine pos last - pos.line).toNat,
      lines, Nat.le_add_right _ _⟩
  | .append pos lines =>
    if lines = [] then none
    else
      let cell := (pos.map fun pos => 3 * pos.line.toNat).getD (3 * fileLen + 1)
      some ⟨cell, cell, lines, Nat.le_refl _⟩
  | .prepend pos lines =>
    if lines = [] then none
    else
      let cell := (pos.map fun pos => 3 * pos.line.toNat - 2).getD 0
      some ⟨cell, cell, lines, Nat.le_refl _⟩

def changes (fileLen : Nat) (edits : List LineEdit) : List (Change Bytes) :=
  edits.filterMap (LineEdit.change fileLen)

/-- The file before the edits. -/
def ownLine (fileLines : List Bytes) (k : Nat) : List Bytes :=
  if k % 3 = 2 then (fileLines[k / 3]?).toList else []

theorem changes_concat (fileLen : Nat) (edits : List LineEdit) (e : LineEdit) :
    changes fileLen (edits ++ [e]) = changes fileLen edits ++ (e.change fileLen).toList := by
  rw [changes, List.filterMap_append, List.filterMap_cons, List.filterMap_nil]
  cases e.change fileLen <;> rfl

variable {edits : List LineEdit} {fileLines : List Bytes}

theorem mem_changes {fileLen : Nat} {c : Change Bytes} :
    c ∈ changes fileLen edits ↔ ∃ e ∈ edits, e.change fileLen = some c :=
  List.mem_filterMap

/-! ### The untouched file -/

theorem cellAt_nil (fileLines : List Bytes) (k : Nat) :
    cellAt (ownLine fileLines) [] k = ownLine fileLines k :=
  cellAt_eq_own fun _ hd => absurd hd List.not_mem_nil

/-- The first cells hold the first lines. -/
theorem segment_own (fileLines : List Bytes) (k : Nat) :
    segment (ownLine fileLines) [] 0 k = fileLines.take (k / 3) := by
  induction k with
  | zero => rfl
  | succ k ih =>
    rw [← segment_append (Nat.zero_le k) (Nat.le_succ k), ih, segment_single, cellAt_nil, ownLine]
    split
    · rw [show (k + 1) / 3 = k / 3 + 1 by omega, List.take_add_one]
    · rw [show (k + 1) / 3 = k / 3 by omega, List.append_nil]

theorem length_segment_own {fileLines : List Bytes} {i j : Nat} (hij : i ≤ j)
    (hj : j ≤ 3 * fileLines.length + 2) :
    (segment (ownLine fileLines) [] i j).length = j / 3 - i / 3 := by
  have hsplit := congrArg List.length
    (@segment_append _ (ownLine fileLines) [] 0 i j (Nat.zero_le i) hij)
  rw [List.length_append, segment_own, segment_own, List.length_take, List.length_take] at hsplit
  omega

/-! ### The pass in cells -/

/-- What an edit puts into a cell. -/
def LineEdit.bodyAt (fileLen k : Nat) (e : LineEdit) : List Bytes :=
  (e.change fileLen).elim [] fun c => if c.first = k then c.body else []

theorem bodyAt_insertion (lines : List Bytes) (cell k : Nat) :
    ((if lines = [] then none else some (⟨cell, cell, lines, Nat.le_refl _⟩ : Change Bytes)).elim []
      fun c => if c.first = k then c.body else []) = if cell = k then lines else [] := by
  by_cases hlines : lines = []
  · rw [if_pos hlines, hlines, ite_self]
    rfl
  · rw [if_neg hlines]
    rfl

theorem bodyAt_replace (fileLen k : Nat) (pos : AnchorRef) (last : Option AnchorRef)
    (lines : List Bytes) :
    (LineEdit.replace pos last lines).bodyAt fileLen k =
      if 3 * pos.line.toNat - 1 = k then lines else [] := rfl

theorem bodyAt_append (fileLen k : Nat) (pos : Option AnchorRef) (lines : List Bytes) :
    (LineEdit.append pos lines).bodyAt fileLen k =
      if (pos.map fun pos => 3 * pos.line.toNat).getD (3 * fileLen + 1) = k then lines else [] :=
  bodyAt_insertion lines _ k

theorem bodyAt_prepend (fileLen k : Nat) (pos : Option AnchorRef) (lines : List Bytes) :
    (LineEdit.prepend pos lines).bodyAt fileLen k =
      if (pos.map fun pos => 3 * pos.line.toNat - 2).getD 0 = k then lines else [] :=
  bodyAt_insertion lines _ k

section

variable {fileLen i : Nat} {e : LineEdit}

theorem bodyAt_before (he : e.Anchored fileLen) (hi : i < fileLen) :
    e.bodyAt fileLen (3 * i + 1) = e.bodyBefore (i + 1) := by
  cases e with
  | replace pos last lines =>
    rw [bodyAt_replace]
    exact if_neg (by omega)
  | append pos lines =>
    rw [bodyAt_append]
    cases pos with
    | none => exact if_neg (by simp; omega)
    | some pos => exact if_neg (by simp; omega)
  | prepend pos lines =>
    rw [bodyAt_prepend]
    cases pos with
    | none => exact if_neg (by simp)
    | some pos =>
      have hpos := he pos rfl
      exact if_congr (by simp; omega) rfl rfl

theorem bodyAt_instead (he : e.Anchored fileLen) (hi : i < fileLen) :
    e.bodyAt fileLen (3 * i + 2) = e.bodyInstead (i + 1) := by
  cases e with
  | replace pos last lines =>
    rw [bodyAt_replace]
    have hpos := he.1
    exact if_congr (by omega) rfl rfl
  | append pos lines =>
    rw [bodyAt_append]
    cases pos with
    | none => exact if_neg (by simp; omega)
    | some pos => exact if_neg (by simp; omega)
  | prepend pos lines =>
    rw [bodyAt_prepend]
    cases pos with
    | none => exact if_neg (by simp)
    | some pos => exact if_neg (by simp; omega)

theorem bodyAt_after (he : e.Anchored fileLen) (hi : i < fileLen) :
    e.bodyAt fileLen (3 * i + 3) = e.bodyAfter (i + 1) := by
  cases e with
  | replace pos last lines =>
    rw [bodyAt_replace]
    exact if_neg (by omega)
  | append pos lines =>
    rw [bodyAt_append]
    cases pos with
    | none => exact if_neg (by simp; omega)
    | some pos =>
      have hpos := he pos rfl
      exact if_congr (by simp; omega) rfl rfl
  | prepend pos lines =>
    rw [bodyAt_prepend]
    cases pos with
    | none => exact if_neg (by simp)
    | some pos => exact if_neg (by simp; omega)

theorem bodyAt_first (he : e.Anchored fileLen) : e.bodyAt fileLen 0 = e.bodyFirst := by
  cases e with
  | replace pos last lines =>
    rw [bodyAt_replace]
    have hpos := he.1
    exact if_neg (by omega)
  | append pos lines =>
    rw [bodyAt_append]
    cases pos with
    | none => exact if_neg (by simp)
    | some pos =>
      have hpos := he pos rfl
      exact if_neg (by simp; omega)
  | prepend pos lines =>
    rw [bodyAt_prepend]
    cases pos with
    | none => exact if_pos rfl
    | some pos =>
      have hpos := he pos rfl
      exact if_neg (by simp; omega)

theorem bodyAt_last (he : e.Anchored fileLen) :
    e.bodyAt fileLen (3 * fileLen + 1) = e.bodyLast := by
  cases e with
  | replace pos last lines =>
    rw [bodyAt_replace]
    obtain ⟨hpos, hle, hlast⟩ := he
    exact if_neg (by omega)
  | append pos lines =>
    rw [bodyAt_append]
    cases pos with
    | none => exact if_pos rfl
    | some pos =>
      have hpos := he pos rfl
      exact if_neg (by simp; omega)
  | prepend pos lines =>
    rw [bodyAt_prepend]
    cases pos with
    | none => exact if_neg (by simp)
    | some pos =>
      have hpos := he pos rfl
      exact if_neg (by simp; omega)

theorem covers_line (he : e.Anchored fileLen) (hi : i < fileLen) :
    (e.change fileLen).any (·.covers (3 * i + 2)) = e.coversLine (i + 1) := by
  cases e with
  | replace pos last lines =>
    obtain ⟨hpos, hle, hlast⟩ := he
    refine decide_eq_decide.mpr ?_
    constructor
    · rintro ⟨h1, h2⟩
      change 3 * pos.line.toNat - 1 ≤ 3 * i + 2 at h1
      change 3 * i + 2 ≤ 3 * pos.line.toNat - 1 + 3 * (endLine pos last - pos.line).toNat at h2
      omega
    · intro h
      change 3 * pos.line.toNat - 1 ≤ 3 * i + 2 ∧
        3 * i + 2 ≤ 3 * pos.line.toNat - 1 + 3 * (endLine pos last - pos.line).toNat
      omega
  | append pos lines =>
    change Option.any _ (if lines = [] then none else _) = false
    split
    · rfl
    · refine decide_eq_false fun h => ?_
      cases pos with
      | none => simp at h; omega
      | some pos => simp at h; omega
  | prepend pos lines =>
    change Option.any _ (if lines = [] then none else _) = false
    split
    · rfl
    · refine decide_eq_false fun h => ?_
      cases pos with
      | none => simp at h
      | some pos => simp at h; omega

end

variable {f : LineEdit → List Bytes} {k : Nat}

theorem flatMap_changes {fileLen : Nat} (h : ∀ e ∈ edits, e.bodyAt fileLen k = f e) :
    ((changes fileLen edits).flatMap fun c => if c.first = k then c.body else []) =
      edits.flatMap f := by
  induction edits with
  | nil => rfl
  | cons e edits ih =>
    have hhead := h e List.mem_cons_self
    have hrest := ih fun e he => h e (List.mem_cons_of_mem _ he)
    rw [changes, List.filterMap_cons, List.flatMap_cons, ← hhead, LineEdit.bodyAt]
    cases hc : e.change fileLen with
    | none => exact hrest
    | some c => exact congrArg _ hrest

/-- In a gap there is nothing but what is put there. -/
theorem cellAt_gap (hgap : k % 3 ≠ 2) (h : ∀ e ∈ edits, e.bodyAt fileLines.length k = f e) :
    cellAt (ownLine fileLines) (changes fileLines.length edits) k = edits.flatMap f := by
  have hown : ownLine fileLines k = [] := if_neg hgap
  rw [cellAt, flatMap_changes h, hown, ite_self, List.append_nil]

theorem any_covers {fileLen : Nat} {f : LineEdit → Bool}
    (h : ∀ e ∈ edits, (e.change fileLen).any (·.covers k) = f e) :
    (changes fileLen edits).any (·.covers k) = edits.any f := by
  rw [Bool.eq_iff_iff, List.any_eq_true, List.any_eq_true]
  constructor
  · rintro ⟨c, hc, hcov⟩
    obtain ⟨e, he, hchange⟩ := mem_changes.mp hc
    refine ⟨e, he, ?_⟩
    rw [← h e he, hchange]
    exact hcov
  · rintro ⟨e, he, hfe⟩
    rw [← h e he] at hfe
    obtain ⟨c, hc, hcov⟩ := (Option.any_eq_true _ _).mp hfe
    exact ⟨c, mem_changes.mpr ⟨e, he, hc⟩, hcov⟩

/-- The three cells of a line. -/
theorem segment_line (hedits : ∀ e ∈ edits, e.Anchored fileLines.length) {i : Nat}
    (hi : i < fileLines.length) :
    segment (ownLine fileLines) (changes fileLines.length edits) (3 * i + 1)
        (3 * (i + 1) + 1) =
      passLine edits fileLines[i] (i + 1) := by
  have hmod : (3 * i + 2) % 3 = 2 := by omega
  have hdiv : (3 * i + 2) / 3 = i := by omega
  have hown : ownLine fileLines (3 * i + 2) = [fileLines[i]] := by
    rw [ownLine, if_pos hmod, hdiv, List.getElem?_eq_getElem hi, Option.toList_some]
  rw [Nat.mul_add_one,
    ← segment_append (by omega : 3 * i + 1 ≤ 3 * i + 2) (by omega : 3 * i + 2 ≤ 3 * i + 3 + 1),
    ← segment_append (by omega : 3 * i + 2 ≤ 3 * i + 3) (by omega : 3 * i + 3 ≤ 3 * i + 3 + 1),
    segment_single, segment_single, segment_single,
    cellAt_gap (by omega) fun e he => bodyAt_before (hedits e he) hi,
    cellAt_gap (by omega) fun e he => bodyAt_after (hedits e he) hi, cellAt, hown,
    flatMap_changes fun e he => bodyAt_instead (hedits e he) hi,
    any_covers fun e he => covers_line (hedits e he) hi, passLine]
  simp only [List.append_assoc]

/-- The pass reads the cells in their order. -/
theorem segment_lines (hedits : ∀ e ∈ edits, e.Anchored fileLines.length) {m : Nat}
    (hm : m ≤ fileLines.length) :
    segment (ownLine fileLines) (changes fileLines.length edits) 1 (3 * m + 1) =
      ((fileLines.take m).zipIdx 1).flatMap fun (line, i) => passLine edits line i := by
  induction m with
  | zero => exact segment_self
  | succ m ih =>
    have hlt : m < fileLines.length := hm
    rw [← segment_append (by omega : 1 ≤ 3 * m + 1) (by omega : 3 * m + 1 ≤ 3 * (m + 1) + 1),
      ih (by omega), segment_line hedits hlt, List.take_add_one, List.getElem?_eq_getElem hlt,
      Option.toList_some, List.zipIdx_append, List.flatMap_append,
      List.length_take_of_le (Nat.le_of_lt hlt), Nat.add_comm 1 m]
    exact congrArg _ (List.append_nil _).symm

theorem onePass_eq_segment (hedits : ∀ e ∈ edits, e.Anchored fileLines.length) :
    onePass fileLines edits = segment (ownLine fileLines) (changes fileLines.length edits) 0
      (3 * fileLines.length + 2) := by
  rw [← segment_append (Nat.zero_le (3 * fileLines.length + 1)) (Nat.le_succ _),
    ← segment_append (Nat.zero_le 1) (by omega : 1 ≤ 3 * fileLines.length + 1), segment_single,
    segment_single, segment_lines hedits (Nat.le_refl _), List.take_length,
    cellAt_gap (by omega) fun e he => bodyAt_first (hedits e he),
    cellAt_gap (by omega) fun e he => bodyAt_last (hedits e he), onePass]

end KimixNative.Tools
