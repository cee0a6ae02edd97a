import KimixNative.Lib.Search
import KimixNative.Tools.HashlineOnePass

/-!
# Replace mode

`apply_edit` replaces occurrences of one text by another in a copy of the content without carriage
returns before newlines, and the file mode of the edit tool applies a list of edits one after the
other and writes the result back. The search for similar text and the fuzzy fallback are
parameters.
-/

namespace KimixNative.Tools

open Text

inductive MatchMode where
  | fuzzy
  | exact
  deriving DecidableEq, Repr

structure ReplaceEditItem where
  oldText : Bytes
  newText : Bytes
  replaceAll : Bool := false
  maxReplacements : Option Nat := none
  matchMode : MatchMode := .fuzzy
  deriving DecidableEq, Repr

structure ReplaceResult where
  content : Bytes := []
  replacements : Nat := 0
  suggestion : Option Bytes := none
  error : ToolError := {}
  deriving DecidableEq, Repr

structure OptionalTextResult where
  text : Option Bytes := none
  error : ToolError := {}
  deriving DecidableEq, Repr

def ToolError.failed (e : ToolError) : Bool := e.status != .ok

/-- What the edit does besides exact replacements: `find_similar` on the old text and the content,
and `apply_fuzzy_fallback`. -/
structure Similarity where
  findSimilar : Bytes → Bytes → OptionalTextResult
  fuzzyFallback : Bytes → ReplaceEditItem → ReplaceResult

/-- `result.replace(idx, ...)` at the first occurrence. -/
def replaceAt (text oldText newText : Bytes) (idx : Nat) : Bytes :=
  text.take idx ++ newText ++ text.drop (idx + oldText.length)

/-- `replace_all`, with the number of replacements that `count_occurrences` finds. -/
def replaceAllLoop (oldText newText : Bytes) : Nat → Bytes → Bytes × Nat
  | 0, text => (text, 0)
  | fuel + 1, text =>
    match firstOccurrence oldText text with
    | none => (text, 0)
    | some idx =>
      let (rest, count) := replaceAllLoop oldText newText fuel (text.drop (idx + oldText.length))
      (text.take idx ++ newText ++ rest, count + 1)

/-- The loop of `apply_replace_all` under `max_replacements`: each search starts over. -/
def replaceLimited (oldText newText : Bytes) : Nat → Bytes → Bytes × Nat
  | 0, text => (text, 0)
  | left + 1, text =>
    match firstOccurrence oldText text with
    | none => (text, 0)
    | some idx =>
      let (result, count) := replaceLimited oldText newText left
        (replaceAt text oldText newText idx)
      (result, count + 1)

/-- `apply_replace_all`. -/
def applyReplaceAll (normContent normOld normNew : Bytes) (edit : ReplaceEditItem) : Bytes × Nat :=
  match edit.maxReplacements with
  | some limit => replaceLimited normOld normNew limit normContent
  | none => replaceAllLoop normOld normNew normContent.length normContent

/-- The content stays as it is; similar text is suggested. -/
def missed (similarity : Similarity) (content : Bytes) (edit : ReplaceEditItem) : ReplaceResult :=
  let sim := similarity.findSimilar edit.oldText content
  if sim.error.failed then { error := sim.error }
  else { content := content, suggestion := sim.text }

/-- `apply_edit`. -/
def applyEdit (similarity : Similarity) (content : Bytes) (edit : ReplaceEditItem) :
    ReplaceResult :=
  if edit.oldText = [] ∨ edit.oldText = edit.newText then { content := content }
  else
    let normContent := normalizeNewlines content
    let normOld := normalizeNewlines edit.oldText
    let normNew := normalizeNewlines edit.newText
    if edit.replaceAll then
      let all := applyReplaceAll normContent normOld normNew edit
      if all.2 = 0 then missed similarity content edit
      else { content := all.1, replacements := all.2 }
    else
      match firstOccurrence normOld normContent with
      | some idx => { content := replaceAt normContent normOld normNew idx, replacements := 1 }
      | none =>
        if edit.matchMode = .exact then missed similarity content edit
        else similarity.fuzzyFallback content edit

/-! ## The file mode -/

structure FileEditResult where
  error : ToolError := {}
  replacements : Nat := 0
  suggestion : Option Bytes := none
  /-- What is written back. -/
  written : Option Bytes := none
  deriving DecidableEq, Repr

/-- The loop over the edits. -/
def applyEdits (similarity : Similarity) :
    Bytes → Nat → Option Bytes → List ReplaceEditItem → FileEditResult
  | text, total, suggestion, [] =>
    { replacements := total, suggestion := suggestion, written := some text }
  | text, total, suggestion, edit :: rest =>
    let rr := applyEdit similarity text edit
    if rr.error.failed then { error := rr.error, replacements := total, suggestion := suggestion }
    else
      applyEdits similarity rr.content (total + rr.replacements) (rr.suggestion <|> suggestion) rest

def noReplacementsMessage (suggestion : Option Bytes) : Bytes :=
  ascii "No replacements were made. The old string was not found in the file." ++
    match suggestion with
    | some suggestion =>
      if suggestion = [] then [] else ascii "\n\nDid you mean:\n  " ++ suggestion
    | none => []

/-- `run_file_mode` in replace mode, from the content that was read on. -/
def runFileMode (similarity : Similarity) (content : Bytes) (edits : List ReplaceEditItem) :
    FileEditResult :=
  let result := applyEdits similarity content 0 none edits
  if result.written = some content then
    { error := { status := .invalidInput, message := noReplacementsMessage result.suggestion } }
  else result

end KimixNative.Tools

/-!
## What edits leave alone

Both kinds of edits work on a copy of the content in which a newline has no carriage return in
front of it. Of this copy replace mode keeps everything outside the occurrences that it replaces;
hashline edits keep the lines that are not covered, in their order, and end them with newlines.
-/

namespace KimixNative.Tools

open Text Cells

/-! ## Replaced occurrences -/

/-- The texts agree outside the occurrences of `old` that have become `new`. -/
def Rewritten (old new s t : Bytes) : Prop :=
  ∃ pieces, pieces ≠ [] ∧ s = old.intercalate pieces ∧ t = new.intercalate pieces

theorem intercalate_cons_of_ne {sep piece : Bytes} {pieces : List Bytes} (h : pieces ≠ []) :
    sep.intercalate (piece :: pieces) = piece ++ sep ++ sep.intercalate pieces := by
  obtain ⟨next, rest, rfl⟩ := List.exists_cons_of_ne_nil h
  rw [List.intercalate_cons_cons]

theorem Rewritten.refl (old new s : Bytes) : Rewritten old new s s :=
  ⟨[s], List.cons_ne_nil _ _, List.intercalate_singleton.symm, List.intercalate_singleton.symm⟩

/-- One more occurrence in front. -/
theorem Rewritten.cons {old new s t : Bytes} (h : Rewritten old new s t) (piece : Bytes) :
    Rewritten old new (piece ++ old ++ s) (piece ++ new ++ t) := by
  obtain ⟨pieces, hne, rfl, rfl⟩ := h
  exact ⟨piece :: pieces, List.cons_ne_nil _ _, (intercalate_cons_of_ne hne).symm,
    (intercalate_cons_of_ne hne).symm⟩

variable {text : Bytes} {edit : ReplaceEditItem} {edits : List ReplaceEditItem}

theorem eq_of_firstOccurrence {old : Bytes} {idx : Nat} (h : firstOccurrence old text = some idx) :
    text = text.take idx ++ old ++ text.drop (idx + old.length) := by
  obtain ⟨-, ⟨rest, hrest⟩, -⟩ := firstOccurrence_eq_some.mp h
  have hdrop : text.drop (idx + old.length) = rest := by
    rw [← List.drop_drop, ← hrest, List.drop_left]
  rw [hdrop, List.append_assoc, hrest, List.take_append_drop]

theorem rewritten_replaceAt {old new : Bytes} {idx : Nat} (h : firstOccurrence old text = some idx) :
    Rewritten old new text (replaceAt text old new idx) := by
  have hcons := (Rewritten.refl old new (text.drop (idx + old.length))).cons (text.take idx)
  rwa [← eq_of_firstOccurrence h] at hcons

theorem rewritten_replaceAllLoop (old new : Bytes) (fuel : Nat) (text : Bytes) :
    Rewritten old new text (replaceAllLoop old new fuel text).1 := by
  induction fuel generalizing text with
  | zero => exact Rewritten.refl old new text
  | succ fuel ih =>
    rw [replaceAllLoop]
    cases hfind : firstOccurrence old text with
    | none => exact Rewritten.refl old new text
    | some idx =>
      have hcons := (ih (text.drop (idx + old.length))).cons (text.take idx)
      rwa [← eq_of_firstOccurrence hfind] at hcons

/-- Under a limit each replacement is one of an occurrence in the text as it has become. -/
theorem rewritten_replaceLimited (old new : Bytes) (left : Nat) (text : Bytes) :
    Relation.ReflTransGen (Rewritten old new) text (replaceLimited old new left text).1 := by
  induction left generalizing text with
  | zero => exact Relation.ReflTransGen.refl
  | succ left ih =>
    rw [replaceLimited]
    cases hfind : firstOccurrence old text with
    | none => exact Relation.ReflTransGen.refl
    | some idx => exact Relation.ReflTransGen.head (rewritten_replaceAt hfind) (ih _)

/-- What an edit with exact matches makes of a text. -/
inductive ExactStep (edit : ReplaceEditItem) (text : Bytes) : Bytes → Prop
  | kept : ExactStep edit text text
  | replaced {text' : Bytes}
      (h : Rewritten (normalizeNewlines edit.oldText) (normalizeNewlines edit.newText)
        (normalizeNewlines text) text') : ExactStep edit text text'
  | limited {text' : Bytes} (hlimit : edit.replaceAll = true ∧ edit.maxReplacements ≠ none)
      (h : Relation.ReflTransGen
        (Rewritten (normalizeNewlines edit.oldText) (normalizeNewlines edit.newText))
        (normalizeNewlines text) text') : ExactStep edit text text'

/-- The fuzzy fallback has no part in the edit. -/
def ReplaceEditItem.MatchesExactly (edit : ReplaceEditItem) (text : Bytes) : Prop :=
  edit.matchMode = .exact ∨ edit.replaceAll = true ∨ edit.oldText = [] ∨
    edit.oldText = edit.newText ∨
    firstOccurrence (normalizeNewlines edit.oldText) (normalizeNewlines text) ≠ none

variable {similarity : Similarity}

theorem missed_content (h : (missed similarity text edit).error.failed = false) :
    (missed similarity text edit).content = text := by
  simp only [missed] at h ⊢
  split at h
  · rename_i hfailed
    exact Bool.noConfusion (hfailed.symm.trans h)
  · rename_i hfailed
    rw [if_neg hfailed]

theorem exactStep_applyEdit (hexact : edit.MatchesExactly text)
    (h : (applyEdit similarity text edit).error.failed = false) :
    ExactStep edit text (applyEdit similarity text edit).content := by
  simp only [applyEdit] at h ⊢
  split
  · exact .kept
  · rename_i hidle
    rw [if_neg hidle] at h
    split
    · rename_i hall
      rw [if_pos hall] at h
      split
      · rename_i hzero
        rw [if_pos hzero] at h
        rw [missed_content h]
        exact .kept
      · simp only [applyReplaceAll]
        cases hmax : edit.maxReplacements with
        | some limit =>
          exact .limited ⟨hall, by rw [hmax]; exact Option.some_ne_none limit⟩
            (rewritten_replaceLimited _ _ limit _)
        | none => exact .replaced (rewritten_replaceAllLoop _ _ _ _)
    · rename_i hall
      rw [if_neg hall] at h
      cases hfind : firstOccurrence (normalizeNewlines edit.oldText) (normalizeNewlines text) with
      | some idx => exact .replaced (rewritten_replaceAt hfind)
      | none =>
        have hmode : edit.matchMode = .exact := by
          rcases hexact with hmode | hall' | hnil | hsame | hfound
          · exact hmode
          · exact absurd hall' hall
          · exact absurd (Or.inl hnil) hidle
          · exact absurd (Or.inr hsame) hidle
          · exact absurd hfind hfound
        simp only [hfind, if_pos hmode] at h ⊢
        rw [missed_content h]
        exact .kept

/-- The texts between which the edits lead. -/
inductive ExactRun : List ReplaceEditItem → Bytes → Bytes → Prop
  | done (text : Bytes) : ExactRun [] text text
  | step {edit : ReplaceEditItem} {rest : List ReplaceEditItem} {text text' final : Bytes}
      (hstep : ExactStep edit text text') (hrest : ExactRun rest text' final) :
      ExactRun (edit :: rest) text final

/-- Each edit in turn matches exactly in the text it is applied to. -/
def MatchExactly (similarity : Similarity) : Bytes → List ReplaceEditItem → Prop
  | _, [] => True
  | text, edit :: rest =>
    edit.MatchesExactly text ∧
      MatchExactly similarity (applyEdit similarity text edit).content rest

theorem exactRun_applyEdits {final : Bytes} {total : Nat} {suggestion : Option Bytes}
    (hexact : MatchExactly similarity text edits)
    (h : (applyEdits similarity text total suggestion edits).written = some final) :
    ExactRun edits text final := by
  induction edits generalizing text total suggestion with
  | nil =>
    obtain rfl := Option.some.inj h
    exact .done text
  | cons edit rest ih =>
    simp only [applyEdits] at h
    split at h
    · exact absurd h (Option.some_ne_none final).symm
    · rename_i hfailed
      exact .step (exactStep_applyEdit hexact.1 (Bool.eq_false_iff.mpr hfailed))
        (ih hexact.2 h)

theorem exactRun_runFileMode {content final : Bytes}
    (hexact : MatchExactly similarity content edits)
    (h : (runFileMode similarity content edits).written = some final) :
    ExactRun edits content final := by
  simp only [runFileMode] at h
  split at h
  · exact absurd h (Option.some_ne_none final).symm
  · exact exactRun_applyEdits hexact h

/-! ## Lines that are not covered -/

/-- The lines, numbered from `i`, that no edit covers. -/
def uncoveredFrom (edits : List LineEdit) : Nat → List Bytes → List Bytes
  | _, [] => []
  | i, line :: rest =>
    if edits.any (·.coversLine i) then uncoveredFrom edits (i + 1) rest
    else line :: uncoveredFrom edits (i + 1) rest

def uncoveredLines (edits : List LineEdit) (fileLines : List Bytes) : List Bytes :=
  uncoveredFrom edits 1 fileLines

theorem uncoveredFrom_append (edits : List LineEdit) (i : Nat) (xs ys : List Bytes) :
    uncoveredFrom edits i (xs ++ ys) =
      uncoveredFrom edits i xs ++ uncoveredFrom edits (i + xs.length) ys := by
  induction xs generalizing i with
  | nil => rfl
  | cons line rest ih =>
    rw [List.cons_append, uncoveredFrom, uncoveredFrom, ih, List.length_cons,
      Nat.add_right_comm, Nat.add_assoc]
    split <;> rfl

theorem uncoveredFrom_sublist (edits : List LineEdit) (i : Nat) (lines : List Bytes) :
    (uncoveredFrom edits i lines).Sublist lines := by
  induction lines generalizing i with
  | nil => exact List.Sublist.slnil
  | cons line rest ih =>
    rw [uncoveredFrom]
    split
    · exact (ih (i + 1)).cons line
    · exact (ih (i + 1)).cons_cons line

theorem uncoveredFrom_eq_nil {edits : List LineEdit} {i : Nat} {lines : List Bytes}
    (h : ∀ j, i ≤ j → j < i + lines.length → edits.any (·.coversLine j) = true) :
    uncoveredFrom edits i lines = [] := by
  induction lines generalizing i with
  | nil => rfl
  | cons line rest ih =>
    rw [List.length_cons] at h
    rw [uncoveredFrom, if_pos (h i (Nat.le_refl i) (by omega))]
    exact ih fun j hj hlt => h j (by omega) (by omega)

/-- The lines behind the first `k` that are not covered. -/
def survivors (fileLines : List Bytes) (edits : List LineEdit) (k : Nat) : List Bytes :=
  uncoveredFrom edits (k + 1) (fileLines.drop k)

/-- Where the lines from `a` to `b` are covered, those before and behind them survive apart. -/
theorem survivors_split {fileLines : List Bytes} {edits : List LineEdit} {k a b : Nat} (hka : k ≤ a)
    (hab : a ≤ b) (hb : b ≤ fileLines.length)
    (hcovered : ∀ i, a < i → i ≤ b → edits.any (·.coversLine i) = true) :
    (survivors fileLines edits k).Sublist
      ((fileLines.take a).drop k ++ survivors fileLines edits b) := by
  have hsplit : fileLines.drop k =
      (fileLines.take a).drop k ++ ((fileLines.take b).drop a ++ fileLines.drop b) := by
    rw [List.drop_take, List.drop_take]
    have hrest : (fileLines.drop a).take (b - a) ++ fileLines.drop b = fileLines.drop a := by
      rw [show b = a + (b - a) by omega, ← List.drop_drop, Nat.add_sub_cancel_left,
        List.take_append_drop]
    rw [hrest, show a = k + (a - k) by omega, ← List.drop_drop, Nat.add_sub_cancel_left,
      List.take_append_drop]
  have hlen : ((fileLines.take a).drop k).length = a - k := by
    rw [List.length_drop, List.length_take]
    omega
  have hmid : ((fileLines.take b).drop a).length = b - a := by
    rw [List.length_drop, List.length_take]
    omega
  have hnil : uncoveredFrom edits (k + 1 + (a - k)) ((fileLines.take b).drop a) = [] :=
    uncoveredFrom_eq_nil fun j hj hlt => hcovered j (by omega) (by omega)
  rw [survivors, survivors, hsplit, uncoveredFrom_append, uncoveredFrom_append, hlen, hmid, hnil,
    List.nil_append, show k + 1 + (a - k) + (b - a) = b + 1 by omega]
  exact (uncoveredFrom_sublist edits (k + 1) _).append_right _

/-- Behind the lines that no edit has touched yet the uncovered ones survive. -/
def Keeps (fileLines : List Bytes) (all applied : List LineEdit) (lines : List Bytes) : Prop :=
  ∀ k ≤ fileLines.length, (∀ c ∈ changes fileLines.length applied, 3 * k ≤ c.first) →
    ∃ rest, lines = fileLines.take k ++ rest ∧ (survivors fileLines all k).Sublist rest

section

variable {fileLines lines lines' : List Bytes} {all applied : List LineEdit} {e : LineEdit}
  {c : Change Bytes}

theorem keeps_nil (fileLines : List Bytes) (all : List LineEdit) : Keeps fileLines all [] fileLines :=
  fun k _ _ => ⟨fileLines.drop k, (List.take_append_drop k fileLines).symm,
    uncoveredFrom_sublist all (k + 1) _⟩

theorem Keeps.idle (h : Keeps fileLines all applied lines) (hc : e.change fileLines.length = none) :
    Keeps fileLines all (applied ++ [e]) lines := by
  intro k hk hfirst
  rw [changes_concat, hc, Option.toList_none, List.append_nil] at hfirst
  exact h k hk hfirst

/-- Lines that are put in push others back. -/
theorem Keeps.insert (h : Keeps fileLines all applied lines) (hc : e.change fileLines.length = some c)
    {start : Nat} (hstart : c.first / 3 ≤ start ∨ lines.length ≤ start) (body : List Bytes) :
    Keeps fileLines all (applied ++ [e]) (lines.take start ++ body ++ lines.drop start) := by
  intro k hk hfirst
  rw [changes_concat, hc, Option.toList_some] at hfirst
  have hkc := hfirst c List.mem_concat_self
  obtain ⟨rest, rfl, hsub⟩ := h k hk fun d hd => hfirst d (List.mem_append_left _ hd)
  have hlen : (fileLines.take k).length = k := List.length_take_of_le hk
  have hk : k ≤ start := by
    rw [List.length_append, hlen] at hstart
    omega
  refine ⟨rest.take (start - k) ++ body ++ rest.drop (start - k), ?_, ?_⟩
  · rw [List.take_append, List.drop_append, hlen, List.take_of_length_le (by rw [hlen]; omega),
      List.drop_of_length_le (by rw [hlen]; omega), List.nil_append]
    simp only [List.append_assoc]
  · refine hsub.trans ?_
    have hparts := (List.sublist_append_left (rest.take (start - k)) body).append_right
      (rest.drop (start - k))
    rwa [List.take_append_drop] at hparts

/-- Lines are replaced where the file had them. -/
theorem Keeps.replace {pos : AnchorRef} {last : Option AnchorRef} {body : List Bytes}
    (h : Keeps fileLines all applied lines) (hpos : 1 ≤ pos.line) (hle : pos.line ≤ endLine pos last)
    (hlast : endLine pos last ≤ fileLines.length)
    (hbehind : ∀ d ∈ changes fileLines.length applied, 3 * (endLine pos last).toNat ≤ d.first)
    (hcovered : ∀ i : Nat, pos.line ≤ i → (i : Int) ≤ endLine pos last →
      all.any (·.coversLine i) = true) :
    ∃ lines', splice lines (pos.line - 1).toNat (endLine pos last - pos.line + 1).toNat body =
      some lines' ∧ Keeps fileLines all (applied ++ [.replace pos last body]) lines' := by
  obtain ⟨rest, rfl, hsub⟩ := h (endLine pos last).toNat (by omega) hbehind
  have hlen : (fileLines.take (endLine pos last).toNat).length = (endLine pos last).toNat :=
    List.length_take_of_le (by omega)
  have hend : (pos.line - 1).toNat + (endLine pos last - pos.line + 1).toNat =
      (endLine pos last).toNat := by omega
  refine ⟨_, if_pos (by rw [hend, List.length_append, hlen]; omega), ?_⟩
  rw [hend, List.drop_left' hlen, List.take_append_of_le_length (by rw [hlen]; omega),
    List.take_take, Nat.min_eq_left (by omega)]
  intro k hk hfirst
  rw [changes_concat] at hfirst
  have hkc : 3 * k ≤ 3 * pos.line.toNat - 1 := hfirst _ List.mem_concat_self
  refine ⟨(fileLines.take (pos.line - 1).toNat).drop k ++ body ++ rest, ?_, ?_⟩
  · have hk' : k ≤ (pos.line - 1).toNat := by omega
    have htake : fileLines.take k = (fileLines.take (pos.line - 1).toNat).take k := by
      rw [List.take_take, Nat.min_eq_left hk']
    rw [htake, List.append_assoc, List.append_assoc, ← List.append_assoc (List.take k _),
      List.take_append_drop]
  · refine (survivors_split (by omega) (by omega : (pos.line - 1).toNat ≤ (endLine pos last).toNat)
      (by omega) fun i hlow hhigh => hcovered i (by omega) (by omega)).trans ?_
    exact (List.sublist_append_left _ body).append hsub

/-- One edit keeps what is not covered. -/
theorem keeps_apply (hedits : Compatible fileLines.length (applied ++ [e]))
    (hpre : ∀ x ∈ applied, SortedFree fileLines.length x e)
    (hcovered : ∀ i, e.coversLine i = true → all.any (·.coversLine i) = true)
    (hlines : lines ≠ [[]]) (h : Keeps fileLines all applied lines) {line : Option Int}
    (happly : e.apply lines = some (lines', line)) : Keeps fileLines all (applied ++ [e]) lines' := by
  have he := hedits.anchored e List.mem_concat_self
  rcases hc : e.change fileLines.length with _ | c
  · rw [apply_idle hc] at happly
    obtain ⟨rfl, -⟩ := Prod.mk.inj (Option.some.inj happly)
    exact h.idle hc
  · have hclear : clearEmpty lines = lines := if_neg hlines
    have hplaced := he.placed hc
    cases hplaced with
    | @replaced pos last body hpos hle hlast hfirst hend =>
      have hbehind : ∀ d ∈ changes fileLines.length applied,
          3 * (endLine pos last).toNat ≤ d.first := by
        intro d hd
        obtain ⟨x, hx, hchange⟩ := mem_changes.mp hd
        have hx' := hedits.anchored x (List.mem_append_left _ hx)
        rcases behind_or (hx'.placed hchange) (he.placed hc) (hpre x hx).free (hpre x hx).sorted
          with hbehind | ⟨-, hend' | hlate⟩
        · omega
        · omega
        · exact absurd hlate.1 Bool.false_ne_true
      obtain ⟨lines'', (hsplice : splice _ _ _ body = _), hkeeps⟩ := h.replace hpos hle hlast hbehind
        fun i hlow hhigh => hcovered i (decide_eq_true ⟨hlow, hhigh⟩)
      rw [LineEdit.apply, hsplice, Option.map_some] at happly
      obtain ⟨rfl, -⟩ := Prod.mk.inj (Option.some.inj happly)
      exact hkeeps
    | @behind pos body hne hpos hlast hfirst hend =>
      simp only [LineEdit.apply, if_neg hne, splice, Nat.add_zero] at happly
      split at happly
      · obtain ⟨rfl, -⟩ := Prod.mk.inj (Option.some.inj happly)
        exact h.insert hc (Or.inl (by omega)) body
      · exact absurd happly (Option.some_ne_none _).symm
    | @atEnd body hne hfirst hend =>
      simp only [LineEdit.apply, if_neg hne, hclear] at happly
      obtain ⟨rfl, -⟩ := Prod.mk.inj (Option.some.inj happly)
      have hinsert := h.insert hc (Or.inr (Nat.le_refl lines.length)) body
      rwa [List.take_length, List.drop_length, List.append_nil] at hinsert
    | @before pos body hne hpos hlast hfirst hend =>
      simp only [LineEdit.apply, if_neg hne, splice, Nat.add_zero] at happly
      split at happly
      · obtain ⟨rfl, -⟩ := Prod.mk.inj (Option.some.inj happly)
        exact h.insert hc (Or.inl (by omega)) body
      · exact absurd happly (Option.some_ne_none _).symm
    | @atStart body hne hfirst hend =>
      simp only [LineEdit.apply, if_neg hne, hclear] at happly
      obtain ⟨rfl, -⟩ := Prod.mk.inj (Option.some.inj happly)
      have hinsert := h.insert hc (Or.inl (by omega : c.first / 3 ≤ 0)) body
      rwa [List.take_zero, List.drop_zero, List.nil_append] at hinsert

/-- More than one line, or one that is not empty, survives. -/
theorem Keeps.ne_singleton (h : Keeps fileLines all applied lines)
    (hne : uncoveredLines all fileLines ≠ []) (hlone : uncoveredLines all fileLines ≠ [[]]) :
    lines ≠ [[]] := by
  rintro rfl
  obtain ⟨rest, hrest, hsub⟩ := h 0 (Nat.zero_le _) fun _ _ => Nat.zero_le _
  rw [List.take_zero, List.nil_append] at hrest
  rw [← hrest] at hsub
  rcases List.sublist_singleton.mp hsub with hnil | hone
  · exact hne hnil
  · exact hlone hone

theorem keeps_applyInOrder {before after : List LineEdit} {final : List Bytes}
    {firstChanged line : Option Int} (hedits : Compatible fileLines.length (before ++ after))
    (hsorted : (before ++ after).Pairwise (SortedFree fileLines.length))
    (hcovered : ∀ e ∈ after, ∀ i, e.coversLine i = true → all.any (·.coversLine i) = true)
    (hne : uncoveredLines all fileLines ≠ []) (hlone : uncoveredLines all fileLines ≠ [[]])
    (h : Keeps fileLines all before lines)
    (hrun : applyInOrder lines firstChanged after = some (final, line)) :
    Keeps fileLines all (before ++ after) final := by
  induction after generalizing before lines firstChanged with
  | nil =>
    obtain ⟨rfl, -⟩ := Prod.mk.inj (Option.some.inj hrun)
    rwa [List.append_nil]
  | cons e after ih =>
    rw [List.append_cons] at hedits hsorted ⊢
    obtain ⟨⟨lines', line'⟩, happly, hrest⟩ := Option.bind_eq_some_iff.mp hrun
    have hpre := (List.pairwise_append.mp (List.pairwise_append.mp hsorted).1).2.2
    refine ih hedits hsorted (fun x hx => hcovered x (List.mem_cons_of_mem e hx)) ?_ hrest
    exact keeps_apply (hedits.sublist (List.sublist_append_left _ _))
      (fun x hx => hpre x hx e List.mem_cons_self) (hcovered e List.mem_cons_self)
      (h.ne_singleton hne hlone) h happly

end

theorem Admitted.keeps {content : Bytes} {edits : List HashlineEdit} {r : ApplyHashlineResult}
    (hne : edits ≠ [])
    (h : Admitted (splitLines (normalizeNewlines content)) (edits.map HashlineEdit.normalize))
    (hr : applyHashlineEdits content edits = some r)
    (hlone : uncoveredLines (edits.map HashlineEdit.normalize)
      (splitLines (normalizeNewlines content)) ≠ [[]]) :
    ∃ lines, (uncoveredLines (edits.map HashlineEdit.normalize)
        (splitLines (normalizeNewlines content))).Sublist lines ∧
      r.content = restoreTrailingNewlineNonempty (joinLf lines)
        (endsWithNewline (normalizeNewlines content)) := by
  rw [h.apply hne] at hr
  obtain ⟨⟨lines, line⟩, hrun, rfl⟩ := Option.map_eq_some_iff.mp hr
  refine ⟨lines, ?_, rfl⟩
  by_cases hnil : uncoveredLines (edits.map HashlineEdit.normalize)
      (splitLines (normalizeNewlines content)) = []
  · rw [hnil]
    exact List.nil_sublist lines
  · have hperm := perm_bottomUp (splitLines (normalizeNewlines content)).length
      (dedupe (edits.map HashlineEdit.normalize))
    have hcovered : ∀ e ∈ bottomUp (splitLines (normalizeNewlines content)).length
        (dedupe (edits.map HashlineEdit.normalize)), ∀ i, e.coversLine i = true →
          (edits.map HashlineEdit.normalize).any (·.coversLine i) = true := fun e he i hi =>
      List.any_eq_true.mpr ⟨e, (mem_of_mem_dedupeFrom (hperm.mem_iff.mp he)).1, hi⟩
    have hkeeps := @keeps_applyInOrder _ _ _ [] _ _ _ _ (h.compatible.perm hperm.symm)
      (bottomUp_sortedFree h.compatible) hcovered hnil hlone (keeps_nil _ _) hrun
    obtain ⟨rest, hrest, hsub⟩ := hkeeps 0 (Nat.zero_le _) fun _ _ => Nat.zero_le _
    rw [List.take_zero, List.nil_append] at hrest
    rw [hrest]
    exact hsub

/-! ## Both kinds of edits -/

/-- Replace mode keeps what is outside the replaced occurrences, and hashline edits keep the lines
that are not covered, up to the carriage returns and separators that newlines stand for. -/
theorem edits_keep_rest :
    (∀ (similarity : Similarity) (content final : Bytes) (edits : List ReplaceEditItem),
      MatchExactly similarity content edits →
      (runFileMode similarity content edits).written = some final →
        ExactRun edits content final) ∧
    ∀ (content : Bytes) (edits : List HashlineEdit) (r : ApplyHashlineResult),
      edits ≠ [] → Accepts content edits → applyHashlineEdits content edits = some r →
      uncoveredLines (edits.map HashlineEdit.normalize)
        (splitLines (normalizeNewlines content)) ≠ [[]] →
      ∃ lines, (uncoveredLines (edits.map HashlineEdit.normalize)
          (splitLines (normalizeNewlines content))).Sublist lines ∧
        (r.content = joinLf lines ∨ r.content = joinLf lines ++ [newline]) ∧
        ((endsWithNewline (normalizeNewlines content) = true → ∀ last,
            lines.getLast? = some last → last ≠ [] ∧ endsWithNewline last = false) →
          r.content = textOf lines (endsWithNewline (normalizeNewlines content))) := by
  refine ⟨fun _ _ _ _ hexact hwritten => exactRun_runFileMode hexact hwritten, ?_⟩
  intro content edits r hne haccepts hr hlone
  obtain ⟨lines, hsub, hcontent⟩ := ((accepts_iff hne).mp haccepts).keeps hne hr hlone
  refine ⟨lines, hsub, ?_, fun hlast => ?_⟩
  · rw [hcontent, restoreTrailingNewlineNonempty]
    split
    · exact Or.inr rfl
    · exact Or.inl rfl
  · rw [hcontent, restoreTrailingNewlineNonempty_joinLf hlast]

/-- Nothing similar is found. -/
def noSimilarity : Similarity := ⟨fun _ _ => {}, fun content _ => { content := content }⟩

theorem edits_keep_rest_crlf :
    ExactRun [⟨ascii "a", ascii "c", false, none, .exact⟩] (ascii "a\r\nb\r\n") (ascii "c\nb\n") ∧
    ∃ lines, (uncoveredLines [.replace ⟨1, ascii "RW"⟩ none [ascii "c"]]
        (splitLines (normalizeNewlines (ascii "a\r\nb\r\n")))).Sublist lines ∧
      (ascii "c\nb\n" = joinLf lines ∨ ascii "c\nb\n" = joinLf lines ++ [newline]) ∧
      ((endsWithNewline (normalizeNewlines (ascii "a\r\nb\r\n")) = true → ∀ last,
          lines.getLast? = some last → last ≠ [] ∧ endsWithNewline last = false) →
        ascii "c\nb\n" =
          textOf lines (endsWithNewline (normalizeNewlines (ascii "a\r\nb\r\n")))) := by
  refine ⟨edits_keep_rest.1 noSimilarity _ _ _ ⟨Or.inl rfl, trivial⟩ (by decide),
    edits_keep_rest.2 (ascii "a\r\nb\r\n") [.replace ⟨1, ascii "RW"⟩ none [ascii "c"]]
      { content := ascii "c\nb\n", firstChangedLine := some 1 } (List.cons_ne_nil _ _) ?_
      (by decide) (by decide +kernel)⟩
  refine (accepts_iff (List.cons_ne_nil _ _)).mpr ⟨?_, ?_⟩
  · unfold LineEdit.Sound
    decide
  · decide

/-- A line that neither edit is about loses its carriage return. -/
theorem edits_drop_carriageReturn :
    (runFileMode noSimilarity (ascii "a\r\nb\r\n")
      [⟨ascii "a", ascii "c", false, none, .exact⟩]).written = some (ascii "c\nb\n") ∧
    (applyHashlineEdits (ascii "a\r\nb\r\n")
      [.replace ⟨1, ascii "RW"⟩ none [ascii "c"]]).map ApplyHashlineResult.content =
        some (ascii "c\nb\n") ∧
    ascii "b\r\n" <:+ ascii "a\r\nb\r\n" ∧ ¬ascii "b\r\n" <:+ ascii "c\nb\n" := by
  decide

end KimixNative.Tools
