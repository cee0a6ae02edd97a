import KimixNative.Tools.DiffHunks

/-!
# Diffs that describe a change

A script lists the lines of the old text in order, each kept or part of a hunk. Its hunks carry
their true places. Applied to the old text, they are refused because the old lines of one occur
a second time in the text it is searched in, or yield the new text except that the blocks of
the hunks without old lines stand at the top.
-/

namespace KimixNative.Tools

open Text

/-! ### One hunk -/

/-- The lines of a hunk that stand in the new text. -/
def hunkNew (hunk : DiffHunk) : List Bytes :=
  (hunk.lines.filter fun l => l.kind != .deleted).map HunkLine.text

theorem indentVote_self {p : Bytes} {vote : Int × Byte} (h : indentVote p p = some vote) :
    vote.1 = 0 := by
  simp only [indentVote] at h
  split at h
  · cases h
  · split at h
    · rename_i htabs
      exact absurd htabs.2.1 htabs.1
    · split at h
      · rename_i hspaces
        exact absurd hspaces.2.1 hspaces.1
      · obtain rfl := Option.some.inj h
        exact Int.sub_self _

theorem mostVoted_const {V : Type} [DecidableEq V] {slotKey : V → Nat} {v : V} {votes : List V}
    (h : ∀ w ∈ votes, w = v) : mostVoted slotKey v votes = v := by
  have hfold : ∀ (l : List V) (best : Nat × V × Nat), (∀ w ∈ l, w = v) → best.2.1 = v →
      (l.foldl (fun (best : Nat × V × Nat) w =>
        if votes.count w > best.1 ∨ (votes.count w = best.1 ∧ slotKey w < best.2.2) then
          (votes.count w, w, slotKey w) else best) best).2.1 = v := by
    intro l
    induction l with
    | nil => exact fun best _ hbest => hbest
    | cons w rest ih =>
      intro best hl hbest
      refine ih _ (fun x hx => hl x (List.mem_cons_of_mem w hx)) ?_
      dsimp only
      split
      · exact hl w List.mem_cons_self
      · exact hbest
  exact hfold votes _ h rfl

/-- Lines that stand in the text as they are ask for no other indentation. -/
theorem inferIndentAdjustment_self (lines : List Bytes) : (inferIndentAdjustment lines lines).1 = 0 := by
  simp only [inferIndentAdjustment]
  split
  · rfl
  · refine mostVoted_const ?_
    intro d hd
    obtain ⟨vote, hvote, rfl⟩ := List.mem_map.mp hd
    obtain ⟨⟨p, a⟩, hpair, hcast⟩ := List.mem_filterMap.mp hvote
    obtain rfl : p = a := by
      rw [List.zip_eq_zipWith, List.zipWith_self] at hpair
      obtain ⟨line, -, heq⟩ := List.mem_map.mp hpair
      cases heq
      rfl
    exact indentVote_self hcast

theorem adjustAddedLines_self (hunk : DiffHunk) (lines : List Bytes) :
    adjustAddedLines hunk lines lines = hunk.lines := by
  have hzero := inferIndentAdjustment_self lines
  simp only [adjustAddedLines, hzero, if_true]

theorem replacementLines_pattern (lines : List HunkLine) :
    replacementLines lines ((lines.filter fun l => l.kind != .add).map HunkLine.text) =
      (lines.filter fun l => l.kind != .deleted).map HunkLine.text := by
  induction lines with
  | nil => rfl
  | cons line rest ih =>
    obtain ⟨kind, text⟩ := line
    cases kind with
    | context => exact congrArg (text :: ·) ih
    | add => exact congrArg (text :: ·) ih
    | deleted => exact ih

variable {hunk : DiffHunk} {i : Nat}

/-- Where the old lines stand the new ones are put. -/
theorem rewriteAt_working {st : DiffState} {before after : List Bytes}
    (h : st.working = before ++ hunkPattern hunk ++ after) :
    (rewriteAt st hunk before.length).working = before ++ hunkNew hunk ++ after := by
  have hactual : ((st.working.drop before.length).take (hunkPattern hunk).length) =
      hunkPattern hunk := by
    rw [h, List.append_assoc, List.drop_left, List.take_left]
  have htake : st.working.take before.length = before := by
    rw [h, List.append_assoc, List.take_left]
  have hdrop : st.working.drop (before.length + (hunkPattern hunk).length) = after := by
    rw [h, ← List.length_append, List.drop_left]
  simp only [rewriteAt, hactual, adjustAddedLines_self, htake, hdrop]
  rw [hunkPattern, replacementLines_pattern, hunkNew]

/-- The pattern between `before` and `after` stands at another place of the text too. -/
def OccursElsewhere (before pattern after : List Bytes) : Prop :=
  ∃ pre post, pre ++ pattern ++ post = before ++ pattern ++ after ∧ pre.length ≠ before.length

theorem mem_findExactMatches {text pattern : List Bytes} (hne : pattern ≠ []) :
    i ∈ findExactMatches text pattern ↔ ∃ pre post, text = pre ++ pattern ++ post ∧ pre.length = i := by
  rw [findExactMatches, if_neg hne, List.mem_filter, List.mem_range, matchesAt, decide_eq_true_eq]
  constructor
  · rintro ⟨hi, hmatch⟩
    have hpos := List.length_pos_iff.mpr hne
    refine ⟨text.take i, text.drop (i + pattern.length), ?_, List.length_take_of_le (by omega)⟩
    calc text = text.take i ++ text.drop i := (List.take_append_drop i text).symm
      _ = text.take i ++ ((text.drop i).take pattern.length ++
            (text.drop i).drop pattern.length) := by
            rw [List.take_append_drop pattern.length (text.drop i)]
      _ = text.take i ++ pattern ++ text.drop (i + pattern.length) := by
            rw [hmatch, List.drop_drop, List.append_assoc]
  · rintro ⟨pre, post, rfl, rfl⟩
    refine ⟨?_, by rw [List.append_assoc, List.drop_left, List.take_left]⟩
    simp only [List.length_append]
    omega

theorem findExactMatches_nodup (text pattern : List Bytes) :
    (findExactMatches text pattern).Nodup := by
  simp only [findExactMatches]
  split
  · exact List.nodup_singleton 0
  · exact List.nodup_range.filter _

section Loop

variable {f : List Bytes → List Bytes → Except ToolError (Option Nat)}

theorem placeHunk_insert {working : List Bytes} (h : hunkPattern hunk = []) :
    placeHunk f false working hunk = .ok 0 := by
  simp only [placeHunk, findExactMatches, h, if_true]

/-- Old lines that stand nowhere else are found where they are. -/
theorem placeHunk_unique {before after : List Bytes} (hne : hunkPattern hunk ≠ [])
    (honce : ¬OccursElsewhere before (hunkPattern hunk) after) :
    placeHunk f false (before ++ hunkPattern hunk ++ after) hunk =
      .ok before.length := by
  have hone : findExactMatches (before ++ hunkPattern hunk ++ after) (hunkPattern hunk) =
      [before.length] := by
    refine List.perm_singleton.mp ((List.perm_ext_iff_of_nodup (findExactMatches_nodup _ _)
      (List.nodup_singleton _)).mpr fun i => ?_)
    rw [mem_findExactMatches hne, List.mem_singleton]
    constructor
    · rintro ⟨pre, post, heq, rfl⟩
      by_contra hlen
      exact honce ⟨pre, post, heq.symm, hlen⟩
    · rintro rfl
      exact ⟨before, after, rfl, rfl⟩
  simp only [placeHunk, hone]

/-- Old lines that stand at another place too are refused. -/
theorem placeHunk_refused {before after : List Bytes} (hne : hunkPattern hunk ≠ [])
    (htwice : OccursElsewhere before (hunkPattern hunk) after) :
    placeHunk f false (before ++ hunkPattern hunk ++ after) hunk =
      .error (multipleMatches hunk) := by
  obtain ⟨pre, post, heq, hlen⟩ := htwice
  have hfirst := (mem_findExactMatches hne).mpr ⟨before, after, rfl, rfl⟩
  have hsecond := (mem_findExactMatches hne).mpr ⟨pre, post, heq.symm, rfl⟩
  simp only [placeHunk]
  split
  · rename_i mi hone
    rw [hone, List.mem_singleton] at hfirst hsecond
    exact absurd (hsecond.trans hfirst.symm) hlen
  · rfl
  · rename_i hnone
    rw [hnone] at hfirst
    exact absurd hfirst List.not_mem_nil

theorem applySorted_append (st : DiffState) (xs ys : List DiffHunk) :
    applySorted f false st (xs ++ ys) =
      (applySorted f false st xs).bind fun st' =>
        applySorted f false st' ys := by
  induction xs generalizing st with
  | nil => rfl
  | cons hunk rest ih =>
    simp only [List.cons_append, applySorted]
    cases placeHunk f false st.working hunk with
    | error e => rfl
    | ok mi => exact ih _

/-- What hunks without old lines leave at the top, applied one after the other. -/
def frontBlocks : List DiffHunk → List Bytes
  | [] => []
  | hunk :: rest => frontBlocks rest ++ if hunkPattern hunk = [] then hunkNew hunk else []

@[simp] theorem frontBlocks_append (xs ys : List DiffHunk) :
    frontBlocks (xs ++ ys) = frontBlocks ys ++ frontBlocks xs := by
  induction xs with
  | nil => simp [frontBlocks]
  | cons hunk rest ih => simp only [List.cons_append, frontBlocks, ih, List.append_assoc]

variable {hunks : List DiffHunk}

/-- Hunks without old lines go on top of the text. -/
theorem applySorted_inserts (h : ∀ hunk ∈ hunks, hunkPattern hunk = []) (st : DiffState) :
    ∃ fc, applySorted f false st hunks =
      .ok { working := frontBlocks hunks ++ st.working, firstChanged := fc } := by
  induction hunks generalizing st with
  | nil => exact ⟨st.firstChanged, rfl⟩
  | cons hunk rest ih =>
    have hpattern := h hunk List.mem_cons_self
    obtain ⟨fc, hrest⟩ := ih (fun x hx => h x (List.mem_cons_of_mem hunk hx)) (rewriteAt st hunk 0)
    have htop : st.working = [] ++ hunkPattern hunk ++ st.working := by
      rw [hpattern]
      rfl
    have hworking : (rewriteAt st hunk 0).working = hunkNew hunk ++ st.working :=
      rewriteAt_working htop
    refine ⟨fc, ?_⟩
    simp only [applySorted, placeHunk_insert hpattern, hrest, hworking, frontBlocks,
      if_pos hpattern, List.append_assoc]

end Loop

/-! ### Scripts -/

inductive Piece where
  | keep (line : Bytes)
  | hunk (hunk : DiffHunk)
  deriving DecidableEq, Repr

/-- The old text, piece by piece. -/
abbrev Script := List Piece

namespace Script

def oldLines : Script → List Bytes
  | [] => []
  | .keep line :: s => line :: oldLines s
  | .hunk h :: s => hunkPattern h ++ oldLines s

def newLines : Script → List Bytes
  | [] => []
  | .keep line :: s => line :: newLines s
  | .hunk h :: s => hunkNew h ++ newLines s

def hunks : Script → List DiffHunk
  | [] => []
  | .keep _ :: s => hunks s
  | .hunk h :: s => h :: hunks s

/-- Each hunk states its place: the first of its old lines, or the line it inserts after. -/
def Located : Nat → Script → Prop
  | _, [] => True
  | i, .keep _ :: s => Located (i + 1) s
  | i, .hunk h :: s =>
    h.startLine = some (if hunkPattern h = [] then (i : Int) else i + 1) ∧
      Located (i + (hunkPattern h).length) s

/-- The new text without the blocks of the hunks that have no old lines. -/
def rewritten : Script → List Bytes
  | [] => []
  | .keep line :: s => line :: rewritten s
  | .hunk h :: s => (if hunkPattern h = [] then [] else hunkNew h) ++ rewritten s

/-- The new text with those blocks at the top. -/
def insertsOnTop (s : Script) : List Bytes := frontBlocks (sortHunks s.hunks) ++ s.rewritten

/-- The old lines of a hunk stand a second time in the text it is searched in: the old text up
to its own lines, the rest as the later hunks leave it, and the blocks they put on top. -/
def Refused : List Bytes → Script → Prop
  | _, [] => False
  | before, .keep line :: s => Refused (before ++ [line]) s
  | before, .hunk h :: s =>
    (hunkPattern h ≠ [] ∧
      OccursElsewhere
        (frontBlocks ((sortHunks (hunks s)).filter fun x => h.orderKey < x.orderKey) ++ before)
        (hunkPattern h) (rewritten s ++ [[]])) ∨
    Refused (before ++ hunkPattern h) s

variable {s : Script}

theorem Located.le_orderKey (hs : Located i s) :
    ∀ h ∈ s.hunks, (i : Int) ≤ h.orderKey ∧ (hunkPattern h ≠ [] → (i : Int) < h.orderKey) := by
  induction s generalizing i with
  | nil => exact fun h hh => absurd hh List.not_mem_nil
  | cons piece s ih =>
    cases piece with
    | keep line =>
      intro h hh
      have := ih hs h hh
      exact ⟨by omega, fun hne => by have := this.2 hne; omega⟩
    | hunk x =>
      obtain ⟨hstart, hrest⟩ := hs
      intro h hh
      rcases List.mem_cons.mp hh with rfl | hh
      · rw [DiffHunk.orderKey, hstart, Option.getD_some]
        split
        · rename_i hnil
          exact ⟨le_rfl, fun hne => absurd hnil hne⟩
        · exact ⟨by omega, fun _ => by omega⟩
      · have := ih hrest h hh
        exact ⟨by omega, fun hne => by have := this.2 hne; omega⟩

/-- Of the hunks behind one, those that are not taken before it insert only. -/
theorem Located.inserts_of_le {h : DiffHunk} (hs : Located i (.hunk h :: s)) {x : DiffHunk}
    (hx : x ∈ s.hunks) (hle : x.orderKey ≤ h.orderKey) : hunkPattern x = [] := by
  obtain ⟨hstart, hrest⟩ := hs
  have hlater := hrest.le_orderKey x hx
  rw [DiffHunk.orderKey, DiffHunk.orderKey, hstart, Option.getD_some] at hle
  by_contra hne
  have hlt := hlater.2 hne
  rw [DiffHunk.orderKey] at hlt
  split at hle
  · omega
  · rename_i hpattern
    have := List.length_pos_iff.mpr hpattern
    omega

/-- The hunks behind one: those taken before it, then those that insert at its end. -/
theorem sortHunks_hunk {h : DiffHunk} (hs : Located i (.hunk h :: s)) :
    ∃ ahead behind, sortHunks (Script.hunks (.hunk h :: s)) = ahead ++ h :: behind ∧
      sortHunks s.hunks = ahead ++ behind ∧
      ahead = (sortHunks s.hunks).filter (fun x => h.orderKey < x.orderKey) ∧
      ∀ x ∈ behind, hunkPattern x = [] := by
  let later : DiffHunk → Bool := fun x => decide ¬x.orderKey ≤ h.orderKey
  have hsplit : sortHunks s.hunks =
      (sortHunks s.hunks).takeWhile later ++ (sortHunks s.hunks).dropWhile later :=
    List.takeWhile_append_dropWhile.symm
  have hsorted : (sortHunks s.hunks).Pairwise fun x y => y.orderKey ≤ x.orderKey :=
    List.pairwise_insertionSort _ _
  have hbehind : ∀ x ∈ (sortHunks s.hunks).dropWhile later, x.orderKey ≤ h.orderKey := by
    intro x hx
    cases hdrop : (sortHunks s.hunks).dropWhile later with
    | nil =>
      rw [hdrop] at hx
      exact absurd hx List.not_mem_nil
    | cons first rest =>
      have hfirst : later first = false := by
        have hhead := List.head?_dropWhile_not later (sortHunks s.hunks)
        rw [hdrop] at hhead
        simpa using hhead
      have hfirst : first.orderKey ≤ h.orderKey := by
        simpa only [later, decide_eq_false_iff_not, not_not] using hfirst
      have htail : (first :: rest).Pairwise fun x y => y.orderKey ≤ x.orderKey := by
        rw [← hdrop]
        exact hsorted.sublist (List.dropWhile_sublist later)
      rw [hdrop] at hx
      rcases List.mem_cons.mp hx with rfl | hx
      · exact hfirst
      · exact ((List.pairwise_cons.mp htail).1 x hx).trans hfirst
  refine ⟨_, _, List.insertionSort_cons_eq_take_drop _ h s.hunks, hsplit, ?_, ?_⟩
  · have hahead : ((sortHunks s.hunks).takeWhile later).filter (fun x => h.orderKey < x.orderKey) =
        (sortHunks s.hunks).takeWhile later := by
      refine List.filter_eq_self.mpr fun x hx => decide_eq_true ?_
      have : later x = true := List.mem_takeWhile_imp hx
      exact not_le.mp (of_decide_eq_true this)
    have hnone : ((sortHunks s.hunks).dropWhile later).filter (fun x => h.orderKey < x.orderKey) =
        [] := by
      refine List.filter_eq_nil_iff.mpr fun x hx => ?_
      rw [decide_eq_true_eq]
      exact not_lt.mpr (hbehind x hx)
    calc (sortHunks s.hunks).takeWhile later =
        ((sortHunks s.hunks).takeWhile later).filter (fun x => h.orderKey < x.orderKey) ++
          ((sortHunks s.hunks).dropWhile later).filter (fun x => h.orderKey < x.orderKey) := by
          rw [hahead, hnone, List.append_nil]
      _ = (sortHunks s.hunks).filter (fun x => h.orderKey < x.orderKey) := by
          rw [← List.filter_append, List.takeWhile_append_dropWhile]
  · intro x hx
    have hmem : x ∈ s.hunks :=
      (List.mem_insertionSort _).mp ((List.dropWhile_sublist later).subset hx)
    exact hs.inserts_of_le hmem (hbehind x hx)

variable {f : List Bytes → List Bytes → Except ToolError (Option Nat)}

/-- What the loop makes of the hunks of a script behind the lines `before`. -/
def Outcome (before : List Bytes) (s : Script) (result : Except ToolError DiffState) : Prop :=
  match result with
  | .error e => Refused before s ∧ ∃ h, e = multipleMatches h
  | .ok st => ¬Refused before s ∧
      st.working = frontBlocks (sortHunks s.hunks) ++ before ++ s.rewritten ++ [[]]

theorem applySorted_outcome {s : Script} {before : List Bytes} (hs : Located before.length s)
    (fc : Option Nat) :
    Outcome before s (applySorted f false
      { working := before ++ s.oldLines ++ [[]], firstChanged := fc } (sortHunks s.hunks)) := by
  induction s generalizing before with
  | nil => exact ⟨not_false, rfl⟩
  | cons piece s ih =>
    cases piece with
    | keep line =>
      have hrest := @ih (before ++ [line]) (by simpa [Located] using hs)
      simp only [List.append_assoc, List.singleton_append] at hrest
      simpa only [Outcome, Refused, oldLines, hunks, rewritten, List.append_assoc,
        List.cons_append, List.nil_append] using hrest
    | hunk h =>
      obtain ⟨ahead, behind, hsorted, hrestSorted, hahead, hbehind⟩ := sortHunks_hunk hs
      have hrest := @ih (before ++ hunkPattern h) (by
        rw [List.length_append]
        exact hs.2)
      have hworking : before ++ oldLines (.hunk h :: s) ++ [[]] =
          before ++ hunkPattern h ++ oldLines s ++ [[]] := by
        simp only [oldLines, List.append_assoc]
      rw [hrestSorted, applySorted_append] at hrest
      rw [hworking, hsorted, applySorted_append]
      cases hfirst : applySorted f false
          { working := before ++ hunkPattern h ++ oldLines s ++ [[]], firstChanged := fc }
          ahead with
      | error e =>
        rw [hfirst] at hrest
        exact ⟨Or.inr hrest.1, hrest.2⟩
      | ok st =>
        rw [hfirst] at hrest
        obtain ⟨fc', hlast⟩ := applySorted_inserts (f := f) hbehind st
        simp only [Except.bind, hlast, Outcome, hrestSorted, frontBlocks_append,
          List.append_assoc, List.append_cancel_left_eq] at hrest
        obtain ⟨hnot, hst⟩ := hrest
        simp only [Except.bind]
        by_cases hpattern : hunkPattern h = []
        · obtain ⟨fc'', hlast⟩ := applySorted_inserts (f := f)
            (List.forall_mem_cons.mpr ⟨hpattern, hbehind⟩) st
          rw [hlast]
          refine ⟨not_or.mpr ⟨fun hrefused => hrefused.1 hpattern, hnot⟩, ?_⟩
          simp only [hsorted, hst, frontBlocks_append, rewritten, hpattern, if_true,
            List.nil_append, List.append_assoc]
        · have hplace : st.working = frontBlocks ahead ++ before ++ hunkPattern h ++
              (rewritten s ++ [[]]) := by
            simpa only [List.append_assoc] using hst
          by_cases htwice : OccursElsewhere (frontBlocks ahead ++ before) (hunkPattern h)
              (rewritten s ++ [[]])
          · have hrefused := placeHunk_refused (f := f) hpattern htwice
            simp only [applySorted, hplace, hrefused]
            exact ⟨Or.inl ⟨hpattern, hahead ▸ htwice⟩, h, rfl⟩
          · have hfound := placeHunk_unique (f := f) hpattern htwice
            obtain ⟨fc'', hlast⟩ := applySorted_inserts (f := f)
              hbehind (rewriteAt st h (frontBlocks ahead ++ before).length)
            simp only [applySorted, hplace, hfound, hlast]
            refine ⟨not_or.mpr ⟨fun hrefused => htwice (hahead ▸ hrefused.2), hnot⟩, ?_⟩
            rw [rewriteAt_working hplace, hsorted, frontBlocks_append]
            simp only [frontBlocks, rewritten, if_neg hpattern, List.append_assoc,
              List.nil_append]

/-! ### The whole text -/

/-- The block a hunk without old lines puts on top. -/
def insertedBlock (h : DiffHunk) : List Bytes := if hunkPattern h = [] then hunkNew h else []

theorem frontBlocks_perm (hs : List DiffHunk) : (frontBlocks hs).Perm (hs.flatMap insertedBlock) := by
  induction hs with
  | nil => exact List.Perm.refl _
  | cons h rest ih =>
    rw [frontBlocks, List.flatMap_cons]
    exact List.perm_append_comm.trans (ih.append_left _)

/-- Moving the blocks to the top keeps the lines. -/
theorem insertsOnTop_perm (s : Script) : s.insertsOnTop.Perm s.newLines := by
  have hblocks : (s.hunks.flatMap insertedBlock ++ s.rewritten).Perm s.newLines := by
    induction s with
    | nil => exact List.Perm.refl _
    | cons piece s ih =>
      cases piece with
      | keep line => exact List.perm_middle.trans (ih.cons line)
      | hunk h =>
        simp only [hunks, rewritten, newLines, List.flatMap_cons, insertedBlock]
        by_cases hpattern : hunkPattern h = []
        · rw [if_pos hpattern, if_pos hpattern, List.nil_append, List.append_assoc]
          exact ih.append_left _
        · rw [if_neg hpattern, if_neg hpattern, List.nil_append]
          exact (List.perm_append_comm_assoc _ _ _).trans (ih.append_left _)
  have hsorted : (frontBlocks (sortHunks s.hunks)).Perm (s.hunks.flatMap insertedBlock) :=
    (frontBlocks_perm _).trans ((List.perm_insertionSort _ s.hunks).flatMap_right _)
  exact (hsorted.append_right _).trans hblocks

end Script

/-- The hunks describe the change of one text into another: ascending and disjoint, each at its
place with its old lines, and together they turn the old lines into the new ones. Both texts end
with a newline. -/
structure Describes (s : Script) (hunks : List DiffHunk) (old new : Bytes) : Prop where
  hunks_eq : s.hunks = hunks
  old_ends : endsWithNewline old = true
  new_ends : endsWithNewline new = true
  old_lines : s.oldLines = linesOf old
  new_lines : s.newLines = linesOf new
  located : s.Located 0

section Correct

variable {f : List Bytes → List Bytes → Except ToolError (Option Nat)}

theorem Describes.newLines_ne_nil {old new : Bytes} (h : Describes s hunks old new) :
    s.newLines ≠ [] := by
  rw [h.new_lines]
  exact linesOf_ne_nil h.new_ends

theorem Describes.insertsOnTop_ne_nil {old new : Bytes} (h : Describes s hunks old new) :
    s.insertsOnTop ≠ [] := by
  intro hnil
  have hperm := s.insertsOnTop_perm
  rw [hnil] at hperm
  exact h.newLines_ne_nil hperm.nil_eq.symm

/-- The text is the old one as the loop sees it. -/
theorem Describes.outcome {old new : Bytes} (h : Describes s hunks old new) :
    s.Outcome [] (applySorted f false { working := splitLf old } (sortHunks hunks)) := by
  rw [← h.hunks_eq, splitLf_of_endsWithNewline h.old_ends, ← h.old_lines]
  exact @Script.applySorted_outcome f s [] h.located none

/-- A described change is refused where the old lines of a hunk stand twice. -/
theorem Describes.apply_refused {old new : Bytes} (h : Describes s hunks old new)
    (hrefused : s.Refused []) : (applyDiffHunks f hunks old false).error.status ≠ .ok := by
  have houtcome := h.outcome (f := f)
  simp only [applyDiffHunks]
  cases hresult : applySorted f false { working := splitLf old } (sortHunks hunks) with
  | error e =>
    rw [hresult] at houtcome
    obtain ⟨hunk, rfl⟩ := houtcome.2
    exact fun hok => nomatch hok
  | ok st =>
    rw [hresult] at houtcome
    exact absurd hrefused houtcome.1

/-- Elsewhere it is applied, with its insertions on top. -/
theorem Describes.apply_ok {old new : Bytes} (h : Describes s hunks old new) (hnot : ¬s.Refused []) :
    (applyDiffHunks f hunks old false).error = {} ∧
      (applyDiffHunks f hunks old false).content =
        joinLf s.insertsOnTop ++ [newline] := by
  have houtcome := h.outcome (f := f)
  have hne := h.insertsOnTop_ne_nil
  simp only [applyDiffHunks]
  cases hresult : applySorted f false { working := splitLf old } (sortHunks hunks) with
  | error e =>
    rw [hresult] at houtcome
    exact absurd houtcome.1 hnot
  | ok st =>
    rw [hresult] at houtcome
    refine ⟨rfl, ?_⟩
    have hworking : st.working = s.insertsOnTop ++ [[]] := by
      rw [houtcome.2, h.hunks_eq, Script.insertsOnTop, h.hunks_eq, List.append_nil]
    simp only [hworking, joinLf_concat_nil hne, restoreTrailingNewline]
    rw [if_neg (by simp [endsWithNewline])]

/-- Applied to the old text, hunks that describe a change are refused or yield the new text
exactly when the old lines of one stand twice where it is searched, or the blocks of those
without old lines may as well stand at the top. -/
theorem Describes.apply_correct_iff {s : Script} {hunks : List DiffHunk} {old new : Bytes}
    (h : Describes s hunks old new) :
    ((applyDiffHunks f hunks old false).error.status ≠ .ok ∨
      (applyDiffHunks f hunks old false).content = new) ↔
      s.Refused [] ∨ s.insertsOnTop = s.newLines := by
  by_cases hrefused : s.Refused []
  · exact iff_of_true (Or.inl (h.apply_refused hrefused)) (Or.inl hrefused)
  · obtain ⟨herror, hcontent⟩ := h.apply_ok (f := f) hrefused
    have hnew : new = joinLf s.newLines ++ [newline] := by
      rw [h.new_lines, ← joinLf_concat_nil (linesOf_ne_nil h.new_ends),
        ← splitLf_of_endsWithNewline h.new_ends, joinLf_splitLf]
    have hfree : ∀ line ∈ s.newLines, newline ∉ line := by
      rw [h.new_lines]
      exact fun line hline => newline_notMem_splitLf (List.dropLast_subset _ hline)
    rw [herror, hcontent, hnew]
    constructor
    · rintro (hstatus | heq)
      · exact absurd rfl hstatus
      · refine Or.inr ?_
        have hjoin := congrArg splitLf (List.append_cancel_right heq)
        rwa [splitLf_joinLf h.newLines_ne_nil hfree, splitLf_joinLf h.insertsOnTop_ne_nil] at hjoin
        exact fun line hline => hfree line (s.insertsOnTop_perm.mem_iff.mp hline)
    · rintro (hrefused' | heq)
      · exact absurd hrefused' hrefused
      · exact Or.inr (by rw [heq])

end Correct

/-- A line is replaced: the change is described by one hunk, which is applied in its place. -/
def replaceLine : Script :=
  [.keep (ascii "a"),
    .hunk { startLine := some 2, lines := [⟨.deleted, ascii "b"⟩, ⟨.add, ascii "c"⟩] }]

theorem replaceLine_describes :
    Describes replaceLine replaceLine.hunks (ascii "a\nb\n") (ascii "a\nc\n") := by
  refine ⟨rfl, by decide, by decide, by decide, by decide, ?_⟩
  exact ⟨by decide, trivial⟩

theorem replaceLine_correct :
    (applyDiffHunks (fun _ _ => .ok none) replaceLine.hunks (ascii "a\nb\n") false).error.status ≠ .ok ∨
      (applyDiffHunks (fun _ _ => .ok none) replaceLine.hunks (ascii "a\nb\n") false).content =
        ascii "a\nc\n" :=
  replaceLine_describes.apply_correct_iff.mpr (Or.inr (by decide))

/-- A line is inserted after the first. -/
def insertAfterFirst : Script :=
  [.keep (ascii "a"), .hunk { startLine := some 1, lines := [⟨.add, ascii "x"⟩] }, .keep (ascii "b")]

/-- The insertion goes on top instead. -/
theorem insertAfterFirst_wrong :
    Describes insertAfterFirst insertAfterFirst.hunks (ascii "a\nb\n") (ascii "a\nx\nb\n") ∧
      ¬((applyDiffHunks (fun _ _ => .ok none) insertAfterFirst.hunks (ascii "a\nb\n")
          false).error.status ≠ .ok ∨
        (applyDiffHunks (fun _ _ => .ok none) insertAfterFirst.hunks (ascii "a\nb\n")
          false).content = ascii "a\nx\nb\n") := by
  refine ⟨⟨rfl, by decide, by decide, by decide, by decide, by decide, trivial⟩, by decide⟩

end KimixNative.Tools
