import KimixNative.Tools.ReplaceEdits

/-!
# Literal replacement

What `apply_edit` makes of a text in which the old text occurs, compared with the occurrences of
the text as it was given. The loop under `max_replacements` searches its own output, so it keeps to
these occurrences as long as no search finds the old text in front of what is left of the original.
-/

namespace KimixNative.Tools

open Text

theorem normalizeNewlines_eq_self {text : Bytes} (h : carriageReturn ∉ text) :
    normalizeNewlines text = text := by
  induction text with
  | nil => rfl
  | cons b rest ih =>
    obtain ⟨hb, hrest⟩ := List.ne_and_not_mem_of_not_mem_cons h
    have hpair : ¬ (b = carriageReturn ∧ rest.head? = some newline) := fun heq => hb heq.1.symm
    rw [normalizeNewlines, if_neg hpair, ih hrest]

/-- The pieces in front of the first `k` occurrences, each with the new text behind it. -/
def rewrittenFront (new : Bytes) (k : Nat) (pieces : List Bytes) : Bytes :=
  ((pieces.take k).map (· ++ new)).flatten

/-- The text of the pieces with the new text for the first `k` occurrences. -/
def replacedFirst (old new : Bytes) (k : Nat) (pieces : List Bytes) : Bytes :=
  rewrittenFront new k pieces ++ old.intercalate (pieces.drop k)

/-- With `j` occurrences replaced the old text does not start in front of what is left; `done` is
the text in front of the pieces. -/
def LooksAhead (old new done : Bytes) (pieces : List Bytes) (j : Nat) : Prop :=
  ∀ p < (done ++ rewrittenFront new j pieces).length,
    ¬ old <+: (done ++ replacedFirst old new j pieces).drop p

/-- How many occurrences are to be replaced, of the `pieces.length - 1` there are. -/
def wanted (edit : ReplaceEditItem) (pieces : List Bytes) : Nat :=
  if edit.replaceAll then
    match edit.maxReplacements with
    | some limit => min limit (pieces.length - 1)
    | none => pieces.length - 1
  else 1

/-- The edit replaces the wanted occurrences, keeps everything else and reports their number. -/
structure ReplacesOriginal (similarity : Similarity) (content : Bytes) (edit : ReplaceEditItem)
    (pieces : List Bytes) : Prop where
  ok : (applyEdit similarity content edit).error.failed = false
  text : (applyEdit similarity content edit).content =
    replacedFirst edit.oldText edit.newText (wanted edit pieces) pieces
  replacements : (applyEdit similarity content edit).replacements = wanted edit pieces

/-- Every search under a limit looks ahead; with a limit of zero the search for similar text, whose
result is not used, does not fail. -/
def SearchesAhead (similarity : Similarity) (content : Bytes) (edit : ReplaceEditItem)
    (pieces : List Bytes) : Prop :=
  ∀ limit, edit.replaceAll = true → edit.maxReplacements = some limit →
    (∀ j < limit, j < pieces.length → LooksAhead edit.oldText edit.newText [] pieces j) ∧
    (limit = 0 → (similarity.findSimilar edit.oldText content).error.failed = false)

/-! ## The loops -/

variable {old new s : Bytes} {pieces : List Bytes}

@[simp] theorem rewrittenFront_zero (new : Bytes) (pieces : List Bytes) :
    rewrittenFront new 0 pieces = [] := rfl

@[simp] theorem rewrittenFront_cons (new : Bytes) (k : Nat) (piece : Bytes) (pieces : List Bytes) :
    rewrittenFront new (k + 1) (piece :: pieces) = piece ++ new ++ rewrittenFront new k pieces := rfl

@[simp] theorem replacedFirst_cons (old new : Bytes) (k : Nat) (piece : Bytes)
    (pieces : List Bytes) :
    replacedFirst old new (k + 1) (piece :: pieces) =
      piece ++ new ++ replacedFirst old new k pieces := by
  simp only [replacedFirst, rewrittenFront_cons, List.drop_succ_cons, List.append_assoc]

theorem replacedFirst_zero (h : Cuts old s pieces) : replacedFirst old new 0 pieces = s :=
  h.intercalate

theorem replaceAllLoop_eq (h : Cuts old s pieces) {fuel : Nat} (hfuel : pieces.length ≤ fuel + 1) :
    replaceAllLoop old new fuel s =
      (replacedFirst old new (pieces.length - 1) pieces, pieces.length - 1) := by
  induction h generalizing fuel with
  | last hnone =>
    rw [List.length_singleton, Nat.sub_self, replacedFirst_zero (.last hnone)]
    cases fuel with
    | zero => rfl
    | succ fuel => rw [replaceAllLoop, hnone]
  | @hit u i pieces hsome hrest ih =>
    have hne := List.length_pos_iff.mpr hrest.ne_nil
    cases fuel with
    | zero =>
      rw [List.length_cons] at hfuel
      omega
    | succ fuel =>
      rw [replaceAllLoop, hsome]
      dsimp only
      rw [ih (by simpa using hfuel), List.length_cons, Nat.add_sub_cancel,
        show pieces.length = pieces.length - 1 + 1 by omega, replacedFirst_cons]
      rfl

theorem looksAhead_cons {done piece : Bytes} {j : Nat} :
    LooksAhead old new done (piece :: pieces) (j + 1) ↔
      LooksAhead old new (done ++ piece ++ new) pieces j := by
  simp only [LooksAhead, rewrittenFront_cons, replacedFirst_cons, List.append_assoc]

theorem LooksAhead.firstOccurrence {done : Bytes} (h : LooksAhead old new done pieces 0)
    (hcuts : Cuts old s pieces) :
    firstOccurrence old (done ++ s) = (KimixNative.firstOccurrence old s).map (done.length + ·) := by
  rw [LooksAhead, replacedFirst_zero hcuts, rewrittenFront_zero, List.append_nil] at h
  exact firstOccurrence_append h

/-- One turn of the loop under a limit, with `done` in front of what is left of the original. -/
theorem replaceLimited_succ {done : Bytes} {i : Nat} (left : Nat)
    (h : firstOccurrence old (done ++ s) = some (done.length + i)) :
    replaceLimited old new (left + 1) (done ++ s) =
      ((replaceLimited old new left (done ++ s.take i ++ new ++ s.drop (i + old.length))).1,
        (replaceLimited old new left (done ++ s.take i ++ new ++ s.drop (i + old.length))).2 + 1) := by
  have htext : replaceAt (done ++ s) old new (done.length + i) =
      done ++ s.take i ++ new ++ s.drop (i + old.length) := by
    rw [replaceAt, List.take_length_add_append, Nat.add_assoc, List.drop_length_add_append]
  rw [replaceLimited, h]
  dsimp only
  rw [htext]

/-- As long as its searches look ahead the loop takes the occurrences of the original in turn. -/
theorem replaceLimited_eq (h : Cuts old s pieces) (done : Bytes) (left : Nat)
    (hahead : ∀ j < left, j < pieces.length → LooksAhead old new done pieces j) :
    replaceLimited old new left (done ++ s) =
      (done ++ replacedFirst old new (min left (pieces.length - 1)) pieces,
        min left (pieces.length - 1)) := by
  induction h generalizing done left with
  | last hnone =>
    rw [List.length_singleton, Nat.sub_self, Nat.min_zero, replacedFirst_zero (.last hnone)]
    cases left with
    | zero => rfl
    | succ left =>
      have hfront := (hahead 0 (Nat.succ_pos left) Nat.one_pos).firstOccurrence (.last hnone)
      rw [replaceLimited, hfront, hnone]
      rfl
  | @hit u i pieces hsome hrest ih =>
    have hne := List.length_pos_iff.mpr hrest.ne_nil
    cases left with
    | zero =>
      rw [Nat.zero_min, replacedFirst_zero (.hit hsome hrest)]
      rfl
    | succ left =>
      have hfront := (hahead 0 (Nat.succ_pos left) (Nat.succ_pos _)).firstOccurrence
        (.hit hsome hrest)
      rw [hsome, Option.map_some] at hfront
      rw [replaceLimited_succ left hfront, ih _ left fun j hj hlt =>
        looksAhead_cons.mp (hahead (j + 1) (by omega) (by rw [List.length_cons]; omega))]
      have hmin : min (left + 1) ((u.take i :: pieces).length - 1) =
          min left (pieces.length - 1) + 1 := by
        rw [List.length_cons]
        omega
      rw [hmin, replacedFirst_cons]
      simp only [List.append_assoc]

/-- A search behind the last occurrence that does not look ahead replaces one too many. -/
theorem lt_replaceLimited (h : Cuts old s pieces) (done : Bytes) (left : Nat)
    (hahead : ∀ j, j + 1 < pieces.length → LooksAhead old new done pieces j)
    (hleft : pieces.length ≤ left)
    (hbehind : ¬ LooksAhead old new done pieces (pieces.length - 1)) :
    pieces.length ≤ (replaceLimited old new left (done ++ s)).2 := by
  induction h generalizing done left with
  | @last u hnone =>
    obtain ⟨left, rfl⟩ := Nat.exists_eq_add_of_le' hleft
    rw [List.length_singleton, Nat.sub_self, LooksAhead, replacedFirst_zero (.last hnone),
      rewrittenFront_zero, List.append_nil] at hbehind
    push Not at hbehind
    obtain ⟨p, hp, hstart⟩ := hbehind
    cases hfind : firstOccurrence old (done ++ u) with
    | none =>
      have hnot := firstOccurrence_eq_none.mp hfind p (by rw [List.length_append]; omega)
      exact absurd hstart hnot
    | some idx =>
      rw [List.length_singleton, replaceLimited, hfind]
      exact Nat.succ_pos _
  | @hit u i pieces hsome hrest ih =>
    have hne := List.length_pos_iff.mpr hrest.ne_nil
    obtain ⟨left, rfl⟩ := Nat.exists_eq_add_of_le' (Nat.le_trans (Nat.succ_pos _) hleft)
    have hfront := (hahead 0 (by rw [List.length_cons]; omega)).firstOccurrence (.hit hsome hrest)
    rw [hsome, Option.map_some] at hfront
    rw [replaceLimited_succ left hfront, List.length_cons]
    refine Nat.succ_le_succ (ih _ left (fun j hj => looksAhead_cons.mp
      (hahead (j + 1) (by rw [List.length_cons]; omega))) (by simpa using hleft) fun hlast => ?_)
    rw [List.length_cons, Nat.add_sub_cancel, show pieces.length = pieces.length - 1 + 1 by omega,
      looksAhead_cons] at hbehind
    exact hbehind hlast

/-! ## The edit -/

section

variable {similarity : Similarity} {content : Bytes} {edit : ReplaceEditItem}

/-- An edit whose texts and content have no carriage return. -/
structure Plain (content : Bytes) (edit : ReplaceEditItem) : Prop where
  old_ne : edit.oldText ≠ []
  new_ne : edit.oldText ≠ edit.newText
  content : carriageReturn ∉ content
  oldText : carriageReturn ∉ edit.oldText
  newText : carriageReturn ∉ edit.newText

theorem Plain.applyEdit_limited (h : Plain content edit) (hall : edit.replaceAll = true)
    {limit : Nat} (hlimit : edit.maxReplacements = some limit) :
    applyEdit similarity content edit =
      if (replaceLimited edit.oldText edit.newText limit content).2 = 0 then
        missed similarity content edit
      else
        { content := (replaceLimited edit.oldText edit.newText limit content).1
          replacements := (replaceLimited edit.oldText edit.newText limit content).2 } := by
  rw [applyEdit, if_neg (not_or.mpr ⟨h.old_ne, h.new_ne⟩)]
  simp only [normalizeNewlines_eq_self h.content, normalizeNewlines_eq_self h.oldText,
    normalizeNewlines_eq_self h.newText, hall, if_true, applyReplaceAll, hlimit]

theorem Plain.applyEdit_all (h : Plain content edit) (hall : edit.replaceAll = true)
    (hlimit : edit.maxReplacements = none) (hcuts : Cuts edit.oldText content pieces)
    (hoccurs : 2 ≤ pieces.length) : ReplacesOriginal similarity content edit pieces := by
  have hwanted : wanted edit pieces = pieces.length - 1 := by
    simp only [wanted, hall, if_true, hlimit]
  have hedit : applyEdit similarity content edit =
      { content := replacedFirst edit.oldText edit.newText (pieces.length - 1) pieces
        replacements := pieces.length - 1 } := by
    rw [applyEdit, if_neg (not_or.mpr ⟨h.old_ne, h.new_ne⟩)]
    simp only [normalizeNewlines_eq_self h.content, normalizeNewlines_eq_self h.oldText,
      normalizeNewlines_eq_self h.newText, hall, if_true, applyReplaceAll, hlimit,
      replaceAllLoop_eq hcuts (hcuts.length_le h.old_ne)]
    rw [if_neg (by omega)]
  rw [← hwanted] at hedit
  exact ⟨by rw [hedit]; rfl, by rw [hedit], by rw [hedit]⟩

theorem Plain.applyEdit_first (h : Plain content edit) (hall : edit.replaceAll = false)
    (hcuts : Cuts edit.oldText content pieces) (hoccurs : 2 ≤ pieces.length) :
    ReplacesOriginal similarity content edit pieces := by
  have hwanted : wanted edit pieces = 1 := by
    simp only [wanted, hall, Bool.false_eq_true, if_false]
  cases hcuts with
  | last => exact absurd hoccurs (Nat.not_succ_le_self 1)
  | @hit _ i rest hsome hrest =>
    have htext : replacedFirst edit.oldText edit.newText 1 (content.take i :: rest) =
        replaceAt content edit.oldText edit.newText i := by
      rw [replacedFirst_cons, replacedFirst_zero hrest]
      rfl
    have hedit : applyEdit similarity content edit =
        { content := replaceAt content edit.oldText edit.newText i, replacements := 1 } := by
      rw [applyEdit, if_neg (not_or.mpr ⟨h.old_ne, h.new_ne⟩)]
      simp only [normalizeNewlines_eq_self h.content, normalizeNewlines_eq_self h.oldText,
        normalizeNewlines_eq_self h.newText, hall, Bool.false_eq_true, if_false, hsome]
    rw [← htext, ← hwanted] at hedit
    exact ⟨by rw [hedit]; rfl, by rw [hedit], by rw [hedit]⟩

theorem missed_ok_iff : (missed similarity content edit).error.failed = false ↔
    (similarity.findSimilar edit.oldText content).error.failed = false := by
  rw [missed]
  cases h : (similarity.findSimilar edit.oldText content).error.failed with
  | true => simp [h]
  | false => simp [ToolError.failed]

theorem Plain.replaces_of_searchesAhead (h : Plain content edit)
    (hcuts : Cuts edit.oldText content pieces) (hoccurs : 2 ≤ pieces.length)
    (hahead : SearchesAhead similarity content edit pieces) :
    ReplacesOriginal similarity content edit pieces := by
  cases hall : edit.replaceAll with
  | false => exact h.applyEdit_first hall hcuts hoccurs
  | true =>
    cases hlimit : edit.maxReplacements with
    | none => exact h.applyEdit_all hall hlimit hcuts hoccurs
    | some limit =>
      obtain ⟨hlook, hzero⟩ := hahead limit hall hlimit
      have hwanted : wanted edit pieces = min limit (pieces.length - 1) := by
        simp only [wanted, hall, if_true, hlimit]
      have hloop := replaceLimited_eq hcuts [] limit hlook
      rw [List.nil_append, List.nil_append, ← hwanted] at hloop
      have hedit := @Plain.applyEdit_limited similarity _ _ h hall _ hlimit
      rw [hloop] at hedit
      cases limit with
      | zero =>
        rw [Nat.zero_min] at hwanted
        have hmissed := missed_ok_iff.mpr (hzero rfl)
        rw [hwanted, if_pos rfl] at hedit
        refine ⟨by rw [hedit]; exact hmissed, ?_, ?_⟩
        · rw [hedit, hwanted, missed_content hmissed, replacedFirst_zero hcuts]
        · rw [hedit, hwanted, missed, if_neg (by rw [hzero rfl]; exact Bool.false_ne_true)]
      | succ limit =>
        rw [if_neg (by omega)] at hedit
        exact ⟨by rw [hedit]; rfl, by rw [hedit], by rw [hedit]⟩

/-- The other way round, provided that the searches for the occurrences themselves look ahead. -/
theorem Plain.searchesAhead_of_replaces (h : Plain content edit)
    (hcuts : Cuts edit.oldText content pieces) (hoccurs : 2 ≤ pieces.length)
    (hinside : ∀ j, j + 1 < pieces.length → LooksAhead edit.oldText edit.newText [] pieces j)
    (hreplaces : ReplacesOriginal similarity content edit pieces) :
    SearchesAhead similarity content edit pieces := by
  intro limit hall hlimit
  have hwanted : wanted edit pieces = min limit (pieces.length - 1) := by
    simp only [wanted, hall, if_true, hlimit]
  have hedit := @Plain.applyEdit_limited similarity _ _ h hall _ hlimit
  refine ⟨fun j hj hlt => ?_, fun hzero => ?_⟩
  · by_cases hlast : j + 1 < pieces.length
    · exact hinside j hlast
    · by_contra hbehind
      obtain rfl : j = pieces.length - 1 := by omega
      have hmany := lt_replaceLimited hcuts [] limit hinside (by omega) hbehind
      rw [List.nil_append] at hmany
      rw [if_neg (by omega)] at hedit
      have hcount := hreplaces.replacements
      rw [hedit, hwanted] at hcount
      dsimp only at hcount
      omega
  · subst hzero
    have hok := hreplaces.ok
    rw [hedit, replaceLimited, if_pos rfl] at hok
    exact missed_ok_iff.mp hok

/-- Under a limit, the occurrences of the original are the ones replaced when every search looks
ahead; and only then, as far as the searches for them do. -/
theorem applyEdit_replacesOriginal (similarity : Similarity) (content : Bytes)
    (edit : ReplaceEditItem) (h : Plain content edit)
    (hoccurs : firstOccurrence edit.oldText content ≠ none) :
    ∃ pieces, Cuts edit.oldText content pieces ∧
      (SearchesAhead similarity content edit pieces →
        ReplacesOriginal similarity content edit pieces) ∧
      ((∀ j, j + 1 < pieces.length → LooksAhead edit.oldText edit.newText [] pieces j) →
        ReplacesOriginal similarity content edit pieces →
          SearchesAhead similarity content edit pieces) := by
  obtain ⟨pieces, hcuts⟩ := exists_cuts h.old_ne content
  have htwo : 2 ≤ pieces.length := by
    cases hcuts with
    | last hnone => exact absurd hnone hoccurs
    | hit _ hrest =>
      have hpos := List.length_pos_iff.mpr hrest.ne_nil
      rw [List.length_cons]
      omega
  exact ⟨pieces, hcuts, h.replaces_of_searchesAhead hcuts htwo,
    h.searchesAhead_of_replaces hcuts htwo⟩

end

theorem applyEdit_replacesOriginal_once :
    ∃ pieces, Cuts (ascii "x") (ascii "axbx") pieces ∧
      ReplacesOriginal noSimilarity (ascii "axbx")
        { oldText := ascii "x", newText := ascii "xx" } pieces := by
  obtain ⟨pieces, hcuts, hreplaces, -⟩ := applyEdit_replacesOriginal noSimilarity (ascii "axbx")
    { oldText := ascii "x", newText := ascii "xx" } ⟨by decide, by decide, by decide, by decide,
      by decide⟩ (by decide)
  exact ⟨pieces, hcuts, hreplaces fun limit hall => absurd hall Bool.false_ne_true⟩

/-- The second search finds the letter in the text that the first one has put in. -/
theorem not_replacesOriginal_limited :
    ¬ ∀ (similarity : Similarity) (content : Bytes) (edit : ReplaceEditItem) (pieces : List Bytes),
      Plain content edit → Cuts edit.oldText content pieces → 2 ≤ pieces.length →
        ReplacesOriginal similarity content edit pieces := by
  intro h
  have hcuts : Cuts (ascii "a") (ascii "aa") [[], [], []] := by
    have hlast : Cuts (ascii "a") [] [[]] := .last (by decide)
    have hsecond : Cuts (ascii "a") (ascii "a") [[], []] := .hit (by decide : _ = some 0) hlast
    exact .hit (by decide : _ = some 0) hsecond
  have hreplaces := h noSimilarity (ascii "aa")
    { oldText := ascii "a", newText := ascii "ba", replaceAll := true, maxReplacements := some 2 }
    _ ⟨by decide, by decide, by decide, by decide, by decide⟩ hcuts (by decide)
  exact absurd hreplaces.text (by decide)

end KimixNative.Tools
