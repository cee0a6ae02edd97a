import KimixNative.Tools.HashlineRuns

/-!
# Hashline edits as one pass

Edits that are accepted have anchors in the file and do not overlap. Applied one after the other
they make the pass over the lines of the file, unless one of them is taken for a repetition of
another, is moved by a replacement listed behind it, or meets a file of one empty line or an
empty line at the end.
-/

namespace KimixNative.Tools

open Text Cells

/-! ## Validation -/

def Validation.append (v w : Validation) : Validation :=
  ⟨v.mismatches ++ w.mismatches, v.errors ++ w.errors⟩

theorem Validation.append_nil (v : Validation) : v.append {} = v := by
  simp only [Validation.append, List.append_nil]

theorem validateAnchorRef_append (anchor : AnchorRef) (fileLines : List Bytes) (v w : Validation) :
    validateAnchorRef anchor fileLines (v.append w) =
      v.append (validateAnchorRef anchor fileLines w) := by
  simp only [validateAnchorRef]
  split
  · simp only [Validation.append, List.append_assoc]
  · split
    · simp only [Validation.append, List.append_assoc]
    · split
      · rfl
      · split
        · rfl
        · simp only [Validation.append, List.append_assoc]

/-- An edit adds its own faults to those found so far. -/
theorem validate_append (fileLines : List Bytes) (v w : Validation) (e : LineEdit) :
    e.validate fileLines (v.append w) = v.append (e.validate fileLines w) := by
  cases e with
  | replace pos last lines =>
    cases last with
    | none => exact validateAnchorRef_append pos fileLines v w
    | some last =>
      simp only [LineEdit.validate]
      split
      · have hrange : (⟨(v.append w).mismatches, (v.append w).errors ++ [ascii "Range start line " ++
            formatInt pos.line ++ ascii " must be <= end line " ++ formatInt last.line]⟩ :
            Validation) = v.append ⟨w.mismatches, w.errors ++ [ascii "Range start line " ++
            formatInt pos.line ++ ascii " must be <= end line " ++ formatInt last.line]⟩ := by
          simp only [Validation.append, List.append_assoc]
        rw [hrange, validateAnchorRef_append, validateAnchorRef_append]
      · rw [validateAnchorRef_append, validateAnchorRef_append]
  | append pos lines | prepend pos lines =>
    cases pos with
    | none => rfl
    | some pos => exact validateAnchorRef_append pos fileLines v w

/-- An edit is found without fault. -/
def LineEdit.Sound (fileLines : List Bytes) (e : LineEdit) : Prop := e.validate fileLines {} = {}

theorem validation_eq_nil {v : Validation} : v = {} ↔ v.errors = [] ∧ v.mismatches = [] := by
  cases v
  simp [and_comm]

theorem validateEdits_eq_nil (fileLines : List Bytes) (edits : List LineEdit) :
    validateEdits fileLines edits = {} ↔ ∀ e ∈ edits, e.Sound fileLines := by
  have hfold : ∀ v : Validation, edits.foldl (fun v e => e.validate fileLines v) v = {} ↔
      v = {} ∧ ∀ e ∈ edits, e.Sound fileLines := by
    induction edits with
    | nil => simp
    | cons e edits ih =>
      intro v
      have hhead : e.validate fileLines v = {} ↔ v = {} ∧ e.Sound fileLines := by
        have happend := validate_append fileLines v {} e
        rw [Validation.append_nil] at happend
        rw [happend, LineEdit.Sound, validation_eq_nil, validation_eq_nil,
          @validation_eq_nil (e.validate fileLines {})]
        simp only [Validation.append, List.append_eq_nil_iff]
        tauto
      rw [List.foldl_cons, ih, hhead]
      simp only [List.mem_cons, forall_eq_or_imp, and_assoc]
  rw [validateEdits, hfold]
  exact and_iff_right rfl

variable {fileLines : List Bytes} {edits : List LineEdit} {content : Bytes}

variable {anchor : AnchorRef} {v : Validation}

theorem anchor_of_sound (h : (validateAnchorRef anchor fileLines v).errors = []) :
    1 ≤ anchor.line ∧ anchor.line ≤ fileLines.length := by
  rw [validateAnchorRef] at h
  split at h
  · exact absurd h (by simp)
  · split at h
    · exact absurd h (by simp)
    · omega

theorem errors_eq_nil (h : (validateAnchorRef anchor fileLines v).errors = []) : v.errors = [] := by
  have happend := validateAnchorRef_append anchor fileLines v {}
  rw [Validation.append_nil] at happend
  rw [happend] at h
  exact (List.append_eq_nil_iff.mp h).1

variable {e : LineEdit} {lines : List Bytes}

theorem LineEdit.Sound.anchored (h : e.Sound fileLines) : e.Anchored fileLines.length := by
  have herrors : (e.validate fileLines {}).errors = [] := congrArg Validation.errors h
  cases e with
  | replace pos last lines =>
    cases last with
    | none =>
      have hpos := anchor_of_sound herrors
      exact ⟨hpos.1, Int.le_refl _, hpos.2⟩
    | some last =>
      have hlast := anchor_of_sound herrors
      simp only [LineEdit.validate] at herrors
      have hfirst := errors_eq_nil herrors
      have hpos := anchor_of_sound hfirst
      have hrange := errors_eq_nil hfirst
      split at hrange
      · exact absurd hrange (by simp)
      · rename_i hle
        exact ⟨hpos.1, Int.not_lt.mp hle, hlast.2⟩
  | append pos lines | prepend pos lines =>
    rintro p hp
    obtain rfl := Option.mem_def.mp hp
    exact anchor_of_sound herrors

/-! ## Edits without hashes -/

def AnchorRef.bare (anchor : AnchorRef) : AnchorRef := { anchor with hash := [] }

/-- What an edit does does not depend on the hashes of its anchors. -/
def LineEdit.bare : LineEdit → LineEdit
  | .replace pos last lines => .replace pos.bare (last.map AnchorRef.bare) lines
  | .append pos lines => .append (pos.map AnchorRef.bare) lines
  | .prepend pos lines => .prepend (pos.map AnchorRef.bare) lines

/-- The edits in the order of their first listing. -/
def distinctEdits (edits : List HashlineEdit) : List LineEdit :=
  (edits.map fun e => e.normalize.bare).eraseDups

theorem endLine_bare (pos : AnchorRef) (last : Option AnchorRef) :
    endLine pos.bare (last.map AnchorRef.bare) = endLine pos last := by
  cases last <;> rfl

@[simp] theorem editKey_bare (e : LineEdit) : editKey e.bare = editKey e := by
  rcases e with ⟨_, _ | _, _⟩ | ⟨_ | _, _⟩ | ⟨_ | _, _⟩ <;> rfl

@[simp] theorem sortLine_bare (n : Nat) (e : LineEdit) : e.bare.sortLine n = e.sortLine n := by
  rcases e with ⟨_, _ | _, _⟩ | ⟨_ | _, _⟩ | ⟨_ | _, _⟩ <;> rfl

theorem range_bare (n : Nat) (e : LineEdit) : e.bare.range n = e.range n := by
  rcases e with ⟨_, _ | _, _⟩ | ⟨_ | _, _⟩ | ⟨_ | _, _⟩ <;> rfl

theorem isIdle_bare (e : LineEdit) : e.bare.isIdle = e.isIdle := by
  cases e <;> rfl

theorem sameRefLine_bare (x e : LineEdit) : sameRefLine x.bare e.bare = sameRefLine x e := by
  rcases x with _ | ⟨_ | _, _⟩ | ⟨_ | _, _⟩ <;> rcases e with _ | ⟨_ | _, _⟩ | ⟨_ | _, _⟩ <;> rfl

theorem editRangesOverlap_bare (n : Nat) (x e : LineEdit) :
    editRangesOverlap n x.bare e.bare = editRangesOverlap n x e := by
  simp only [editRangesOverlap, range_bare, isIdle_bare, sameRefLine_bare]

theorem appendsBehind_bare (e x : LineEdit) :
    e.bare.appendsBehind x.bare = e.appendsBehind x := by
  rcases e with _ | ⟨_ | _, _⟩ | _ <;> rcases x with ⟨_, _ | _, _⟩ | _ | _ <;> rfl

theorem keepsLength_bare (e : LineEdit) : e.bare.keepsLength = e.keepsLength := by
  rcases e with ⟨_, _ | _, _⟩ | _ | _ <;> rfl

theorem unanchored_bare (e : LineEdit) : e.bare.unanchored = e.unanchored := by
  rcases e with _ | ⟨_ | _, _⟩ | ⟨_ | _, _⟩ <;> rfl

theorem change_bare (n : Nat) (e : LineEdit) : e.bare.change n = e.change n := by
  rcases e with ⟨_, _ | _, _⟩ | ⟨_ | _, _⟩ | ⟨_ | _, _⟩ <;> rfl

theorem changes_bare (n : Nat) (edits : List LineEdit) :
    changes n (edits.map LineEdit.bare) = changes n edits := by
  rw [changes, changes, List.filterMap_map]
  exact List.filterMap_congr fun e _ => change_bare n e

theorem LineEdit.Anchored.bare {n : Nat} (h : e.Anchored n) : e.bare.Anchored n := by
  cases e with
  | replace pos last lines =>
    change 1 ≤ pos.line ∧ pos.line ≤ endLine pos.bare (last.map AnchorRef.bare) ∧
      endLine pos.bare (last.map AnchorRef.bare) ≤ n
    rw [endLine_bare]
    exact h
  | append pos lines | prepend pos lines =>
    rintro p hp
    obtain ⟨q, hq, rfl⟩ := Option.map_eq_some_iff.mp hp
    exact h q hq

theorem onePass_bare (h : ∀ e ∈ edits, e.Anchored fileLines.length) :
    onePass fileLines (edits.map LineEdit.bare) = onePass fileLines edits := by
  have hbare : ∀ e ∈ edits.map LineEdit.bare, e.Anchored fileLines.length := by
    intro e he
    obtain ⟨x, hx, rfl⟩ := List.mem_map.mp he
    exact (h x hx).bare
  rw [onePass_eq_segment hbare, onePass_eq_segment h, changes_bare]

theorem Compatible.bare {n : Nat} (h : Compatible n edits) :
    Compatible n (edits.map LineEdit.bare) where
  anchored e he := by
    obtain ⟨x, hx, rfl⟩ := List.mem_map.mp he
    exact (h.anchored x hx).bare
  free := List.pairwise_map.mpr (h.free.imp fun hfree => (editRangesOverlap_bare n _ _).trans hfree)

theorem OrderSafe.of_bare (h : OrderSafe (edits.map LineEdit.bare)) : OrderSafe edits := by
  refine (List.pairwise_map.mp h).imp fun {e x} hsafe => ?_
  rwa [appendsBehind_bare, keepsLength_bare] at hsafe

theorem appliedBefore_bare (n : Nat) (edits : List LineEdit) (p : LineEdit × Nat) :
    appliedBefore n (edits.map LineEdit.bare) (p.1.bare, p.2) =
      (appliedBefore n edits p).map LineEdit.bare := by
  rw [appliedBefore, appliedBefore, List.zipIdx_map, List.filter_map, List.map_map, List.map_map]
  refine congrArg₂ List.map rfl (List.filter_congr fun y _ => decide_eq_decide.mpr ?_)
  simp only [Sooner, Prod.map_fst, Prod.map_snd, sortLine_bare, id_eq]

theorem ClearSafe.of_bare (hedits : ∀ e ∈ edits, e.Anchored fileLines.length)
    (h : ClearSafe fileLines (edits.map LineEdit.bare)) : ClearSafe fileLines edits := by
  intro p hp hun
  have hbare : (p.1.bare, p.2) ∈ (edits.map LineEdit.bare).zipIdx := by
    rw [List.zipIdx_map]
    exact List.mem_map.mpr ⟨p, hp, rfl⟩
  have hne := h _ hbare ((unanchored_bare p.1).trans hun)
  rw [appliedBefore_bare, onePass_bare] at hne
  · exact hne
  · intro e he
    obtain ⟨y, hy, rfl⟩ := List.mem_map.mp he
    exact hedits y.1 (List.fst_mem_of_mem_zipIdx (List.mem_filter.mp hy).1)

/-! ## Repeated edits -/

/-- Different edits have different keys. -/
def KeysApart (edits : List LineEdit) : Prop :=
  ∀ x ∈ edits, ∀ y ∈ edits, editKey x = editKey y → x.bare = y.bare

theorem dedupeFrom_cons (seenKeys : List Bytes) (e : LineEdit) (rest : List LineEdit) :
    dedupeFrom seenKeys (e :: rest) =
      if editKey e ∈ seenKeys then dedupeFrom seenKeys rest
      else e :: dedupeFrom (seenKeys ++ [editKey e]) rest := by
  simp only [dedupeFrom, List.any_beq', List.contains_iff_mem]

theorem dedupeFrom_bare (h : KeysApart edits) (seenKeys : List Bytes) :
    (dedupeFrom seenKeys edits).map LineEdit.bare =
      ((edits.filter fun e => decide (editKey e ∉ seenKeys)).map LineEdit.bare).eraseDups := by
  induction edits generalizing seenKeys with
  | nil => rfl
  | cons e rest ih =>
    have hrest : KeysApart rest := fun x hx y hy =>
      h x (List.mem_cons_of_mem e hx) y (List.mem_cons_of_mem e hy)
    by_cases hseen : editKey e ∈ seenKeys
    · rw [dedupeFrom_cons, if_pos hseen, ih hrest, List.filter_cons_of_neg (by simpa using hseen)]
    · rw [dedupeFrom_cons, if_neg hseen, List.map_cons, ih hrest,
        List.filter_cons_of_pos (by simpa using hseen), List.map_cons, List.eraseDups_cons,
        List.filter_map, List.filter_filter]
      refine congrArg _ (congrArg List.eraseDups (congrArg _ (List.filter_congr fun x hx => ?_)))
      have hkey : editKey x = editKey e ↔ x.bare = e.bare := by
        constructor
        · exact h x (List.mem_cons_of_mem e hx) e List.mem_cons_self
        · intro heq
          rw [← editKey_bare x, heq, editKey_bare]
      simp only [List.mem_append, List.mem_singleton, hkey, Function.comp_apply]
      by_cases hx : x.bare = e.bare <;> simp [hx]

/-- The edits that are kept are the different ones. -/
theorem dedupe_bare (h : KeysApart edits) :
    (dedupe edits).map LineEdit.bare = (edits.map LineEdit.bare).eraseDups := by
  rw [dedupe, dedupeFrom_bare h, List.filter_eq_self.mpr fun e _ => by simp]

theorem mem_of_mem_dedupeFrom {seenKeys : List Bytes} (h : e ∈ dedupeFrom seenKeys edits) :
    e ∈ edits ∧ editKey e ∉ seenKeys := by
  induction edits generalizing seenKeys with
  | nil => exact absurd h List.not_mem_nil
  | cons x rest ih =>
    by_cases hseen : editKey x ∈ seenKeys
    · rw [dedupeFrom_cons, if_pos hseen] at h
      exact ⟨List.mem_cons_of_mem x (ih h).1, (ih h).2⟩
    · rw [dedupeFrom_cons, if_neg hseen] at h
      rcases List.mem_cons.mp h with rfl | h
      · exact ⟨List.mem_cons_self, hseen⟩
      · exact ⟨List.mem_cons_of_mem x (ih h).1, fun hin => (ih h).2 (List.mem_append_left _ hin)⟩

theorem nodup_dedupe (edits : List LineEdit) : ((dedupe edits).map LineEdit.bare).Nodup := by
  have hfrom : ∀ seenKeys, ((dedupeFrom seenKeys edits).map LineEdit.bare).Nodup := by
    induction edits with
    | nil => exact fun _ => List.nodup_nil
    | cons e rest ih =>
      intro seenKeys
      rw [dedupeFrom_cons]
      split
      · exact ih seenKeys
      · refine List.nodup_cons.mpr ⟨fun hin => ?_, ih _⟩
        obtain ⟨x, hx, heq⟩ := List.mem_map.mp hin
        refine (mem_of_mem_dedupeFrom hx).2 (List.mem_append_right _ (List.mem_singleton.mpr ?_))
        rw [← editKey_bare x, heq, editKey_bare]
  exact hfrom []

/-! ## What is accepted -/

/-- The edits are not refused. -/
def Accepts (content : Bytes) (edits : List HashlineEdit) : Prop :=
  ∀ r, applyHashlineEdits content edits = some r → r.error.status = .ok

theorem overlapping_eq_nil (n : Nat) (edits : List LineEdit) :
    overlapping n edits = [] ↔ edits.Pairwise fun x e => editRangesOverlap n x e = false := by
  induction edits with
  | nil => exact ⟨fun _ => List.Pairwise.nil, fun _ => rfl⟩
  | cons x rest ih =>
    rw [overlapping, List.append_eq_nil_iff, List.map_eq_nil_iff, List.filter_eq_nil_iff, ih,
      List.pairwise_cons]
    simp only [Bool.not_eq_true]

/-- All edits are sound and those that are kept do not overlap. -/
structure Admitted (fileLines : List Bytes) (edits : List LineEdit) : Prop where
  sound : ∀ e ∈ edits, e.Sound fileLines
  free : (dedupe edits).Pairwise fun x e => editRangesOverlap fileLines.length x e = false

theorem accepts_iff {edits : List HashlineEdit} (hne : edits ≠ []) :
    Accepts content edits ↔
      Admitted (splitLines (normalizeNewlines content)) (edits.map HashlineEdit.normalize) := by
  constructor
  · intro h
    have hvalid : validateEdits (splitLines (normalizeNewlines content))
        (edits.map HashlineEdit.normalize) = {} := by
      by_cases herrors : (validateEdits (splitLines (normalizeNewlines content))
          (edits.map HashlineEdit.normalize)).errors = []
      · refine validation_eq_nil.mpr ⟨herrors, ?_⟩
        by_contra hmismatches
        simp only [Accepts, applyHashlineEdits, if_neg hne, if_neg (not_not_intro herrors), ne_eq,
          if_pos hmismatches] at h
        exact nomatch (show ToolStatus.invalidInput = ToolStatus.ok from h _ rfl)
      · simp only [Accepts, applyHashlineEdits, if_neg hne, ne_eq, if_pos herrors] at h
        exact nomatch (show ToolStatus.invalidInput = ToolStatus.ok from h _ rfl)
    refine ⟨(validateEdits_eq_nil _ _).mp hvalid, (overlapping_eq_nil _ _).mp ?_⟩
    by_contra hover
    simp only [Accepts, applyHashlineEdits, if_neg hne, hvalid, ne_eq, not_true_eq_false, if_false,
      if_pos hover] at h
    exact nomatch (show ToolStatus.invalidInput = ToolStatus.ok from h _ rfl)
  · rintro ⟨hsound, hfree⟩ r hr
    simp only [applyHashlineEdits, if_neg hne, (validateEdits_eq_nil _ _).mpr hsound,
      (overlapping_eq_nil _ _).mpr hfree, ne_eq, not_true_eq_false, if_false] at hr
    obtain ⟨_, -, rfl⟩ := Option.map_eq_some_iff.mp hr
    rfl

theorem Admitted.apply {edits : List HashlineEdit} (hne : edits ≠ [])
    (h : Admitted (splitLines (normalizeNewlines content)) (edits.map HashlineEdit.normalize)) :
    applyHashlineEdits content edits =
      (applyInOrder (splitLines (normalizeNewlines content)) none
        (bottomUp (splitLines (normalizeNewlines content)).length
          (dedupe (edits.map HashlineEdit.normalize)))).map fun (fileLines, firstChanged) =>
            { content := restoreTrailingNewlineNonempty (joinLf fileLines)
                (endsWithNewline (normalizeNewlines content))
              firstChangedLine := firstChanged } := by
  simp only [applyHashlineEdits, if_neg hne, (validateEdits_eq_nil _ _).mpr h.sound,
    (overlapping_eq_nil _ _).mpr h.free, ne_eq, not_true_eq_false, if_false]

theorem Admitted.compatible (h : Admitted fileLines edits) :
    Compatible fileLines.length (dedupe edits) :=
  ⟨fun e he => (h.sound e (mem_of_mem_dedupeFrom he).1).anchored, h.free⟩

/-- Another order of the edits is accepted as well. -/
theorem Admitted.perm {others : List LineEdit} (h : Admitted fileLines edits)
    (hkeys : KeysApart edits) (hperm : edits.Perm others) : Admitted fileLines others := by
  have hkeys' : KeysApart others := fun x hx y hy =>
    hkeys x (hperm.mem_iff.mpr hx) y (hperm.mem_iff.mpr hy)
  have hfree := h.compatible.bare.free
  have hsymm : Std.Symm fun x e => editRangesOverlap fileLines.length x e = false :=
    ⟨fun x e hxe => (editRangesOverlap_comm _ e x).trans hxe⟩
  refine ⟨fun e he => h.sound e (hperm.mem_iff.mpr he), ?_⟩
  have hall : ((dedupe others).map LineEdit.bare).Pairwise fun x e =>
      editRangesOverlap fileLines.length x e = false := by
    have hmem : ∀ e ∈ (dedupe others).map LineEdit.bare, e ∈ (dedupe edits).map LineEdit.bare := by
      intro e he
      rw [dedupe_bare hkeys', List.mem_eraseDups] at he
      rw [dedupe_bare hkeys, List.mem_eraseDups]
      exact (hperm.map LineEdit.bare).mem_iff.mpr he
    exact (nodup_dedupe others).pairwise_of_forall_ne fun x hx e he hne =>
      hfree.forall (hmem x hx) (hmem e he) hne
  exact (List.pairwise_map.mp hall).imp fun hxe => (editRangesOverlap_bare _ _ _).symm.trans hxe

/-! ## Texts of lines -/

/-- No byte begins a separator other than the newline. -/
def NewlineOnly (content : Bytes) : Prop :=
  ∀ before c after, content = before ++ c :: after → separatorLength c after = 0 ∨ c = newline

/-- Lines as the text of a file. -/
def textOf (lines : List Bytes) (endedWithNewline : Bool) : Bytes :=
  joinLf lines ++ if endedWithNewline && !lines.isEmpty then [newline] else []

theorem NewlineOnly.tail {c : Byte} {rest : Bytes} (h : NewlineOnly (c :: rest)) : NewlineOnly rest :=
  fun before c' after heq => h (c :: before) c' after (by rw [heq]; rfl)

theorem NewlineOnly.normalizeNewlines_eq (h : NewlineOnly content) :
    normalizeNewlines content = content := by
  induction content with
  | nil => rfl
  | cons b rest ih =>
    have hcr : ¬(b = carriageReturn ∧ rest.head? = some newline) := by
      rintro ⟨rfl, hhead⟩
      rcases h [] carriageReturn rest rfl with hzero | heq
      · rw [separatorLength, if_neg (by decide), if_pos rfl, if_pos hhead] at hzero
        exact absurd hzero (by decide)
      · exact absurd heq (by decide)
    rw [normalizeNewlines, if_neg hcr, ih h.tail]

theorem joinLf_cons_of_ne {line : Bytes} (h : lines ≠ []) :
    joinLf (line :: lines) = line ++ newline :: joinLf lines := by
  obtain ⟨next, rest, rfl⟩ := List.exists_cons_of_ne_nil h
  simp [joinLf, List.intercalate_cons_cons]

/-- The lines of a text make up the text again. -/
theorem textOf_splitLines (h : NewlineOnly content) :
    textOf (splitLines content) (endsWithNewline content) = content := by
  have hfrom : ∀ (rest line : Bytes), NewlineOnly rest → newline ∉ line →
      textOf (splitLinesFrom 0 line rest) (endsWithNewline (line ++ rest)) = line ++ rest := by
    intro rest
    induction rest with
    | nil =>
      intro line _ hline
      rw [List.append_nil, splitLinesFrom]
      have hend : endsWithNewline line = false := by
        refine Bool.eq_false_iff.mpr fun hend => hline ?_
        exact List.mem_of_getLast? (beq_iff_eq.mp hend)
      by_cases hnil : line = []
      · rw [if_pos hnil, hnil]
        rfl
      · rw [if_neg hnil, textOf, hend, Bool.false_and, if_neg Bool.false_ne_true, List.append_nil]
        exact List.intercalate_singleton
    | cons c rest ih =>
      intro line hrest hline
      rcases hrest [] c rest rfl with hzero | rfl
      · have hne : c ≠ newline := by
          rintro rfl
          rw [separatorLength, if_pos rfl] at hzero
          exact absurd hzero (by decide)
        have hstep := ih (line ++ [c]) hrest.tail (by simp [hline, hne.symm])
        rw [splitLinesFrom, hzero]
        rwa [List.append_assoc, List.singleton_append] at hstep
      · have hstep := ih [] hrest.tail List.not_mem_nil
        have hsplit : splitLinesFrom 0 line (newline :: rest) = line :: splitLinesFrom 0 [] rest :=
          rfl
        rw [List.nil_append] at hstep
        rw [hsplit, textOf]
        by_cases hlines : splitLinesFrom 0 [] rest = []
        · have hnil : rest = [] := by
            rw [hlines] at hstep
            simpa [textOf, joinLf] using hstep.symm
          rw [hlines, hnil]
          simp [joinLf, endsWithNewline]
        · have hne : rest ≠ [] := by
            rintro rfl
            exact hlines rfl
          have hend : endsWithNewline (line ++ newline :: rest) = endsWithNewline rest := by
            rw [endsWithNewline, endsWithNewline, List.getLast?_append,
              List.getLast?_cons, List.getLast?_eq_some_getLast hne]
            rfl
          rw [textOf] at hstep
          have hempty : (splitLinesFrom 0 [] rest).isEmpty = false :=
            List.isEmpty_eq_false_iff.mpr hlines
          rw [hempty] at hstep
          rw [joinLf_cons_of_ne hlines, hend, List.isEmpty_cons, List.append_assoc,
            List.cons_append, hstep]
  exact hfrom content [] h List.not_mem_nil

/-- The text of some lines ends as the last of them does. -/
theorem joinLf_eq_append_last {last : Bytes} (h : lines.getLast? = some last) :
    ∃ before, joinLf lines = before ++ last := by
  induction lines with
  | nil => exact absurd h (Option.some_ne_none last).symm
  | cons line rest ih =>
    by_cases hrest : rest = []
    · subst hrest
      obtain rfl := Option.some.inj h
      exact ⟨[], List.intercalate_singleton⟩
    · rw [List.getLast?_cons, List.getLast?_eq_some_getLast hrest, Option.getD_some,
        ← List.getLast?_eq_some_getLast hrest] at h
      obtain ⟨before, hbefore⟩ := ih h
      refine ⟨line ++ newline :: before, ?_⟩
      rw [joinLf_cons_of_ne hrest, hbefore, List.append_assoc, List.cons_append]

theorem restoreTrailingNewlineNonempty_joinLf {endedWithNewline : Bool}
    (h : endedWithNewline = true → ∀ last, lines.getLast? = some last → last ≠ [] ∧ endsWithNewline
      last = false) :
    restoreTrailingNewlineNonempty (joinLf lines) endedWithNewline =
      textOf lines endedWithNewline := by
  cases endedWithNewline with
  | false => simp [restoreTrailingNewlineNonempty, textOf]
  | true =>
    by_cases hlines : lines = []
    · subst hlines
      rfl
    · have hlast := List.getLast?_eq_some_getLast hlines
      obtain ⟨hne, hend⟩ := h rfl _ hlast
      obtain ⟨before, hjoin⟩ := joinLf_eq_append_last hlast
      have hempty : (joinLf lines).isEmpty = false := by simp [hjoin, hne]
      have hnewline : endsWithNewline (joinLf lines) = false := by
        rw [hjoin, endsWithNewline, List.getLast?_append_of_ne_nil _ hne]
        exact hend
      rw [restoreTrailingNewlineNonempty, textOf, hempty, hnewline,
        List.isEmpty_eq_false_iff.mpr hlines]
      rfl

/-! ## The pass -/

/-- No edit is taken for another, moved by a later replacement, put into a file that is cleared
for it, or followed by an empty line at the end that is lost. -/
structure SafeToApply (content : Bytes) (edits : List HashlineEdit) : Prop where
  keys : KeysApart (edits.map HashlineEdit.normalize)
  order : OrderSafe (distinctEdits edits)
  clear : ClearSafe (splitLines content) (distinctEdits edits)
  ending : edits ≠ [] → endsWithNewline content = true → ∀ last,
    (onePass (splitLines content) (distinctEdits edits)).getLast? = some last →
      last ≠ [] ∧ endsWithNewline last = false

theorem distinctEdits_eq {edits : List HashlineEdit}
    (h : KeysApart (edits.map HashlineEdit.normalize)) :
    distinctEdits edits = (dedupe (edits.map HashlineEdit.normalize)).map LineEdit.bare := by
  rw [dedupe_bare h, List.map_map]
  rfl

theorem SafeToApply.apply {edits : List HashlineEdit} (hne : edits ≠ [])
    (hadmitted : Admitted (splitLines content) (edits.map HashlineEdit.normalize))
    (hnorm : normalizeNewlines content = content) (hsafe : SafeToApply content edits) :
    ∃ r, applyHashlineEdits content edits = some r ∧ r.error.status = .ok ∧
      r.content = textOf (onePass (splitLines content) (distinctEdits edits))
        (endsWithNewline content) := by
  obtain ⟨hkeys, horder, hclear, hending⟩ := hsafe
  have hdistinct := distinctEdits_eq hkeys
  have hcompatible := hadmitted.compatible
  rw [hdistinct] at horder hclear hending ⊢
  rw [onePass_bare hcompatible.anchored] at hending ⊢
  obtain ⟨line, hrun⟩ := applyInOrder_bottomUp hcompatible horder.of_bare
    (hclear.of_bare hcompatible.anchored)
  have hnormalized : Admitted (splitLines (normalizeNewlines content))
      (edits.map HashlineEdit.normalize) := by rwa [hnorm]
  have happly := hnormalized.apply hne
  rw [hnorm, hrun, Option.map_some] at happly
  exact ⟨_, happly, rfl, restoreTrailingNewlineNonempty_joinLf (hending hne)⟩

/-- Safe edits that are accepted are made in one pass over the lines of the file, and in every
safe order to the same effect. -/
theorem applyHashlineEdits_onePass {content : Bytes} {edits : List HashlineEdit}
    (hcontent : NewlineOnly content) (haccepts : Accepts content edits)
    (hsafe : SafeToApply content edits) :
    (∃ r, applyHashlineEdits content edits = some r ∧ r.error.status = .ok ∧
      r.content = textOf (onePass (splitLines content) (distinctEdits edits))
        (endsWithNewline content)) ∧
    ∀ others, edits.Perm others → SafeToApply content others → Accepts content others ∧
      (applyHashlineEdits content others).map ApplyHashlineResult.content =
        (applyHashlineEdits content edits).map ApplyHashlineResult.content := by
  have hnorm := hcontent.normalizeNewlines_eq
  by_cases hne : edits = []
  · subst hne
    refine ⟨⟨_, rfl, rfl, ?_⟩, ?_⟩
    · change content = textOf (onePass (splitLines content) []) (endsWithNewline content)
      rw [onePass_nil, textOf_splitLines hcontent]
    · intro others hperm _
      obtain rfl := hperm.nil_eq
      exact ⟨haccepts, rfl⟩
  · have hadmitted := (accepts_iff hne).mp haccepts
    rw [hnorm] at hadmitted
    have hresult := hsafe.apply hne hadmitted hnorm
    refine ⟨hresult, ?_⟩
    intro others hperm hothers
    have hne' : others ≠ [] := by
      rintro rfl
      exact hne hperm.eq_nil
    have hadmitted' := hadmitted.perm hsafe.keys (hperm.map HashlineEdit.normalize)
    refine ⟨(accepts_iff hne').mpr (by rwa [hnorm]), ?_⟩
    obtain ⟨r, hr, -, hcontentr⟩ := hresult
    obtain ⟨r', hr', -, hcontentr'⟩ := hothers.apply hne' hadmitted' hnorm
    have hpass : onePass (splitLines content) (distinctEdits others) =
        onePass (splitLines content) (distinctEdits edits) := by
      refine onePass_eq_of_mem_iff ?_ ?_ fun e => ?_
      · rw [distinctEdits_eq hothers.keys]
        exact hadmitted'.compatible.bare
      · rw [distinctEdits_eq hsafe.keys]
        exact hadmitted.compatible.bare
      · rw [distinctEdits, distinctEdits, List.mem_eraseDups, List.mem_eraseDups]
        exact (hperm.map fun e => e.normalize.bare).symm.mem_iff
    rw [hr, hr', Option.map_some, Option.map_some, hcontentr, hcontentr', hpass]

/-- Text of printable bytes and newlines. -/
theorem newlineOnly_of_all
    (h : content.all (fun b => b == newline || decide (0x20 ≤ b.toNat ∧ b.toNat < 0x80)) = true) :
    NewlineOnly content := by
  rintro before c after rfl
  have hc := List.all_eq_true.mp h c (List.mem_append_right _ List.mem_cons_self)
  rw [Bool.or_eq_true, beq_iff_eq, decide_eq_true_eq] at hc
  refine hc.symm.imp_left fun ⟨hlow, hhigh⟩ => ?_
  have hne : ∀ b : Byte, (b.toNat < 0x20 ∨ 0x80 ≤ b.toNat) → c ≠ b := by
    rintro b hb rfl
    omega
  simp only [separatorLength, hne newline (by decide), hne carriageReturn (by decide),
    hne 0x0B#8 (by decide), hne 0x0C#8 (by decide), hne 0x1C#8 (by decide), hne 0x1D#8 (by decide),
    hne 0x1E#8 (by decide), hne 0xC2#8 (by decide), hne 0xE2#8 (by decide), if_false, false_and,
    or_self]

/-- Behind a deletion that is listed first, a line is put where the deleted one was. -/
theorem applyHashlineEdits_onePass_abc :
    (∃ r, applyHashlineEdits (ascii "a\nb\nc\n")
        [.delete ⟨1, ascii "RW"⟩, .append (some ⟨1, ascii "RW"⟩) [ascii "x"]] = some r ∧
      r.error.status = .ok ∧
      r.content = textOf (onePass (splitLines (ascii "a\nb\nc\n")) (distinctEdits
        [.delete ⟨1, ascii "RW"⟩, .append (some ⟨1, ascii "RW"⟩) [ascii "x"]]))
          (endsWithNewline (ascii "a\nb\nc\n"))) ∧
    ∀ others, [HashlineEdit.delete ⟨1, ascii "RW"⟩,
        .append (some ⟨1, ascii "RW"⟩) [ascii "x"]].Perm others →
      SafeToApply (ascii "a\nb\nc\n") others → Accepts (ascii "a\nb\nc\n") others ∧
      (applyHashlineEdits (ascii "a\nb\nc\n") others).map ApplyHashlineResult.content =
        (applyHashlineEdits (ascii "a\nb\nc\n")
          [.delete ⟨1, ascii "RW"⟩, .append (some ⟨1, ascii "RW"⟩) [ascii "x"]]).map
          ApplyHashlineResult.content := by
  refine applyHashlineEdits_onePass (newlineOnly_of_all (by decide)) ?_ ⟨?_, ?_, ?_, ?_⟩
  · refine (accepts_iff (List.cons_ne_nil _ _)).mpr ⟨?_, ?_⟩
    · unfold LineEdit.Sound
      decide
    · decide
  · unfold KeysApart
    decide
  · unfold OrderSafe
    decide
  · unfold ClearSafe
    decide
  · intro _ _ last hlast
    have hvalue : (onePass (splitLines (ascii "a\nb\nc\n")) (distinctEdits
        [.delete ⟨1, ascii "RW"⟩, .append (some ⟨1, ascii "RW"⟩) [ascii "x"]])).getLast? =
        some (ascii "c") := by decide
    obtain rfl := Option.some.inj (hvalue.symm.trans hlast)
    decide

/-- Listed before the deletion of its line, an insertion behind this line ends up behind the next
one. -/
theorem applyHashlineEdits_appendFirst :
    NewlineOnly (ascii "a\nb\nc\n") ∧
    Accepts (ascii "a\nb\nc\n") [.append (some ⟨1, ascii "RW"⟩) [ascii "x"], .delete ⟨1, ascii "RW"⟩] ∧
    textOf (onePass (splitLines (ascii "a\nb\nc\n")) (distinctEdits
      [.append (some ⟨1, ascii "RW"⟩) [ascii "x"], .delete ⟨1, ascii "RW"⟩]))
        (endsWithNewline (ascii "a\nb\nc\n")) = ascii "x\nb\nc\n" ∧
    (applyHashlineEdits (ascii "a\nb\nc\n")
      [.append (some ⟨1, ascii "RW"⟩) [ascii "x"], .delete ⟨1, ascii "RW"⟩]).map
        ApplyHashlineResult.content = some (ascii "b\nx\nc\n") ∧
    (applyHashlineEdits (ascii "a\nb\nc\n")
      [.delete ⟨1, ascii "RW"⟩, .append (some ⟨1, ascii "RW"⟩) [ascii "x"]]).map
        ApplyHashlineResult.content = some (ascii "x\nb\nc\n") := by
  refine ⟨newlineOnly_of_all (by decide), ?_, by decide, by decide +kernel,
    by decide⟩
  refine (accepts_iff (List.cons_ne_nil _ _)).mpr ⟨?_, ?_⟩
  · unfold LineEdit.Sound
    decide
  · decide

end KimixNative.Tools
