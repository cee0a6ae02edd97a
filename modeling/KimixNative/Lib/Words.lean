import Mathlib.Data.List.Infix
import Mathlib.Data.List.DropRight

/-!
# Words of a text

A text is cut into words at its blanks. Two texts are `Respaced` when they differ only in
how wide the gaps between the words are: a reader that looks at letters, and at gaps only to
know that there is one, cannot tell them apart. A text is respaced to its words written with
one blank between them.
-/

namespace KimixNative

variable {α : Type*} (blank : α → Bool)

/-- A word that has ended; a gap after a gap ends no word. -/
def closeWord (word : List α) : List (List α) := if word.isEmpty then [] else [word]

/-- The words of a text that goes on inside a word. -/
def wordsAfter : List α → List α → List (List α)
  | word, [] => closeWord word
  | word, a :: rest =>
    if blank a then closeWord word ++ wordsAfter [] rest else wordsAfter (word ++ [a]) rest

/-- The words of a text, as long as possible and none of them empty. -/
def words (text : List α) : List (List α) := wordsAfter blank [] text

/-- Words written with one blank between them. -/
def unwords (b : α) : List (List α) → List α
  | [] => []
  | [word] => word
  | word :: next :: rest => word ++ b :: unwords b (next :: rest)

variable {word : List α} {b : α} {ws : List (List α)}

theorem closeWord_of_ne_nil (h : word ≠ []) : closeWord word = [word] := by
  rw [closeWord, if_neg (by simpa using h)]

@[simp] theorem words_nil : words blank ([] : List α) = [] := rfl

theorem wordsAfter_nil (word : List α) : wordsAfter blank word [] = closeWord word := rfl

variable {blank}

variable {a : α}

theorem wordsAfter_blank (h : blank a = true) (word rest : List α) :
    wordsAfter blank word (a :: rest) = closeWord word ++ words blank rest := by
  rw [wordsAfter, if_pos h]
  rfl

theorem wordsAfter_letter (h : blank a = false) (word rest : List α) :
    wordsAfter blank word (a :: rest) = wordsAfter blank (word ++ [a]) rest := by
  rw [wordsAfter, if_neg (by simp [h])]

/-- A blank cuts the words before it from those after it. -/
theorem wordsAfter_append (h : blank b = true) (word text rest : List α) :
    wordsAfter blank word (text ++ b :: rest) = wordsAfter blank word text ++ words blank rest := by
  induction text generalizing word with
  | nil => exact wordsAfter_blank h word rest
  | cons a text ih =>
    cases ha : blank a with
    | true =>
      rw [List.cons_append, wordsAfter_blank ha, wordsAfter_blank ha, words, ih,
        List.append_assoc]
      rfl
    | false => rw [List.cons_append, wordsAfter_letter ha, wordsAfter_letter ha, ih]

theorem words_append (h : blank b = true) (text rest : List α) :
    words blank (text ++ b :: rest) = words blank text ++ words blank rest :=
  wordsAfter_append h [] text rest

theorem words_cons_blank (h : blank b = true) (rest : List α) :
    words blank (b :: rest) = words blank rest := words_append h [] rest

theorem words_append_of_blanks {gap : List α} (h : ∀ a ∈ gap, blank a = true) (rest : List α) :
    words blank (gap ++ rest) = words blank rest := by
  induction gap with
  | nil => rfl
  | cons a gap ih =>
    obtain ⟨ha, hgap⟩ := List.forall_mem_cons.mp h
    rw [List.cons_append, words_cons_blank ha, ih hgap]

theorem wordsAfter_letters {text : List α} (h : ∀ a ∈ text, blank a = false) (word : List α) :
    wordsAfter blank word text = closeWord (word ++ text) := by
  induction text generalizing word with
  | nil => rw [wordsAfter_nil, List.append_nil]
  | cons a text ih =>
    obtain ⟨ha, htext⟩ := List.forall_mem_cons.mp h
    rw [wordsAfter_letter ha, ih htext, List.append_assoc, List.singleton_append]

theorem wordsAfter_ne_nil (h : word ≠ []) (text : List α) : wordsAfter blank word text ≠ [] := by
  induction text generalizing word with
  | nil => simp [wordsAfter_nil, closeWord_of_ne_nil h]
  | cons a text ih =>
    cases ha : blank a with
    | true => simp [wordsAfter_blank ha, closeWord_of_ne_nil h]
    | false =>
      rw [wordsAfter_letter ha]
      exact ih (by simp)

theorem words_letters {text : List α} (h : ∀ a ∈ text, blank a = false) :
    words blank text = closeWord text := wordsAfter_letters h []

theorem words_word (h : ∀ a ∈ word, blank a = false) (hne : word ≠ []) :
    words blank word = [word] := by
  rw [words_letters h, closeWord_of_ne_nil hne]

/-- A word of a text consists of its letters. -/
theorem mem_wordsAfter {text w : List α} (h : w ∈ wordsAfter blank word text) :
    w ≠ [] ∧ ∀ a ∈ w, a ∈ word ∨ a ∈ text ∧ blank a = false := by
  have hclose : ∀ word : List α, w ∈ closeWord word → w = word ∧ w ≠ [] := by
    intro word hw
    rw [closeWord] at hw
    split at hw
    · cases hw
    · next hne =>
        obtain rfl := List.mem_singleton.mp hw
        exact ⟨rfl, by simpa using hne⟩
  induction text generalizing word with
  | nil =>
    obtain ⟨rfl, hne⟩ := hclose word h
    exact ⟨hne, fun a ha => .inl ha⟩
  | cons c text ih =>
    cases hc : blank c with
    | true =>
      rw [wordsAfter_blank hc] at h
      obtain h | h := List.mem_append.mp h
      · obtain ⟨rfl, hne⟩ := hclose word h
        exact ⟨hne, fun a ha => .inl ha⟩
      · obtain ⟨hne, hall⟩ := ih h
        refine ⟨hne, fun a ha => .inr ?_⟩
        obtain hnil | ⟨hmem, hletter⟩ := hall a ha
        · cases hnil
        · exact ⟨List.mem_cons_of_mem c hmem, hletter⟩
    | false =>
      rw [wordsAfter_letter hc] at h
      obtain ⟨hne, hall⟩ := ih h
      refine ⟨hne, fun a ha => ?_⟩
      obtain hword | ⟨hmem, hletter⟩ := hall a ha
      · obtain hword | hlast := List.mem_append.mp hword
        · exact .inl hword
        · obtain rfl := List.mem_singleton.mp hlast
          exact .inr ⟨List.mem_cons_self, hc⟩
      · exact .inr ⟨List.mem_cons_of_mem c hmem, hletter⟩

theorem mem_of_mem_words {text w : List α} (h : w ∈ words blank text) (ha : a ∈ w) :
    a ∈ text ∧ blank a = false := by
  obtain hnil | hmem := (mem_wordsAfter h).2 a ha
  · cases hnil
  · exact hmem

/-- A map that keeps the blanks acts on the words. -/
theorem words_map {f : α → α} (hf : ∀ a, blank (f a) = blank a) (text : List α) :
    words blank (text.map f) = (words blank text).map (List.map f) := by
  have hclose : ∀ word : List α, closeWord (word.map f) = (closeWord word).map (List.map f) := by
    intro word
    cases word <;> rfl
  have hafter : ∀ word : List α, wordsAfter blank (word.map f) (text.map f) =
      (wordsAfter blank word text).map (List.map f) := by
    induction text with
    | nil => exact hclose
    | cons a text ih =>
      intro word
      cases ha : blank a with
      | true =>
        rw [List.map_cons, wordsAfter_blank ((hf a).trans ha), wordsAfter_blank ha,
          List.map_append, hclose]
        exact congrArg _ (ih [])
      | false =>
        rw [List.map_cons, wordsAfter_letter ((hf a).trans ha), wordsAfter_letter ha, ← ih,
          List.map_append]
        rfl
  exact hafter []

theorem words_unwords (hb : blank b = true) (h : ∀ w ∈ ws, w ≠ [] ∧ ∀ a ∈ w, blank a = false) :
    words blank (unwords b ws) = ws := by
  induction ws with
  | nil => rfl
  | cons w ws ih =>
    obtain ⟨⟨hne, hletters⟩, hws⟩ := List.forall_mem_cons.mp h
    cases ws with
    | nil => exact words_word hletters hne
    | cons next rest =>
      rw [unwords, words_append hb, words_word hletters hne, ih hws, List.singleton_append]

theorem unwords_concat (b : α) (h : ws ≠ []) (w : List α) :
    unwords b (ws ++ [w]) = unwords b ws ++ b :: w := by
  induction ws with
  | nil => exact absurd rfl h
  | cons first ws ih =>
    cases ws with
    | nil => rfl
    | cons next rest =>
      have hrest := ih (List.cons_ne_nil next rest)
      rw [List.cons_append] at hrest
      rw [List.cons_append, List.cons_append, unwords, hrest, unwords, List.append_assoc]
      rfl

theorem mem_unwords (h : a ∈ unwords b ws) : a = b ∨ ∃ w ∈ ws, a ∈ w := by
  induction ws with
  | nil => cases h
  | cons w ws ih =>
    cases ws with
    | nil => exact .inr ⟨w, List.mem_singleton_self w, h⟩
    | cons next rest =>
      obtain hword | hrest := List.mem_append.mp h
      · exact .inr ⟨w, List.mem_cons_self, hword⟩
      · obtain rfl | hrest := List.mem_cons.mp hrest
        · exact .inl rfl
        · obtain heq | ⟨w', hw', hmem⟩ := ih hrest
          · exact .inl heq
          · exact .inr ⟨w', List.mem_cons_of_mem w hw', hmem⟩

/-! ## Texts with the same words -/

variable (blank) in
/-- Texts that differ in the width of the gaps only. -/
inductive Respaced : List α → List α → Prop
  | ending {gap gap' : List α} (h : ∀ a ∈ gap, blank a = true) (h' : ∀ a ∈ gap', blank a = true) :
      Respaced gap gap'
  | letter {a : α} {text text' : List α} (h : blank a = false) (rest : Respaced text text') :
      Respaced (a :: text) (a :: text')
  | gap {gap gap' text text' : List α} (hne : gap ≠ []) (hne' : gap' ≠ [])
      (h : ∀ a ∈ gap, blank a = true) (h' : ∀ a ∈ gap', blank a = true)
      (rest : Respaced text text') : Respaced (gap ++ text) (gap' ++ text')

namespace Respaced

variable {text text' : List α}

theorem symm (h : Respaced blank text text') : Respaced blank text' text := by
  induction h with
  | ending h h' => exact .ending h' h
  | letter h _ ih => exact .letter h ih
  | gap hne hne' h h' _ ih => exact .gap hne' hne h' h ih

theorem wordsAfter_eq (h : Respaced blank text text') (word : List α) :
    wordsAfter blank word text = wordsAfter blank word text' := by
  have hgap : ∀ gap rest : List α, gap ≠ [] → (∀ a ∈ gap, blank a = true) →
      ∀ word, wordsAfter blank word (gap ++ rest) = closeWord word ++ words blank rest := by
    intro gap rest hne hgap word
    obtain ⟨a, gap, rfl⟩ := List.exists_cons_of_ne_nil hne
    obtain ⟨ha, hgap⟩ := List.forall_mem_cons.mp hgap
    rw [List.cons_append, wordsAfter_blank ha, words_append_of_blanks hgap]
  have hending : ∀ gap : List α, (∀ a ∈ gap, blank a = true) →
      ∀ word, wordsAfter blank word gap = closeWord word := by
    intro gap h word
    by_cases hne : gap = []
    · rw [hne, wordsAfter_nil]
    · have hall := hgap gap [] hne h word
      rwa [List.append_nil, words_nil, List.append_nil] at hall
  induction h generalizing word with
  | ending h h' => rw [hending _ h, hending _ h']
  | letter h _ ih => rw [wordsAfter_letter h, wordsAfter_letter h, ih]
  | gap hne hne' h h' _ ih => rw [hgap _ _ hne h, hgap _ _ hne' h', words, ih, words]

theorem words_eq (h : Respaced blank text text') : words blank text = words blank text' :=
  h.wordsAfter_eq []

/-- A text of letters stands at the front of both or of neither. -/
theorem of_append {front text : List α} (hfront : ∀ a ∈ front, blank a = false)
    (h : Respaced blank (front ++ text) text') :
    ∃ rest', text' = front ++ rest' ∧ Respaced blank text rest' := by
  generalize htext : front ++ text = whole at h
  induction h generalizing front with
  | @ending gap gap' hblank hblank' =>
    cases front with
    | nil =>
      obtain rfl : text = gap := htext
      exact ⟨gap', rfl, .ending hblank hblank'⟩
    | cons a front =>
      subst htext
      have hletter := hfront a List.mem_cons_self
      rw [hblank a (by simp)] at hletter
      cases hletter
  | @letter a rest rest' hletter hrest ih =>
    cases front with
    | nil =>
      obtain rfl : text = a :: rest := htext
      exact ⟨a :: rest', rfl, .letter hletter hrest⟩
    | cons c front =>
      rw [List.cons_append, List.cons.injEq] at htext
      obtain ⟨rfl, htext⟩ := htext
      obtain ⟨tail', rfl, htail⟩ := ih (List.forall_mem_cons.mp hfront).2 htext
      exact ⟨tail', rfl, htail⟩
  | @gap gap gap' rest rest' hne hne' hblank hblank' hrest ih =>
    cases front with
    | nil =>
      obtain rfl : text = gap ++ rest := htext
      exact ⟨gap' ++ rest', rfl, .gap hne hne' hblank hblank' hrest⟩
    | cons c front =>
      obtain ⟨b, gap, rfl⟩ := List.exists_cons_of_ne_nil hne
      obtain ⟨rfl, -⟩ := List.cons.inj htext
      have hletter := hfront c List.mem_cons_self
      rw [hblank c List.mem_cons_self] at hletter
      cases hletter

/-- What comes next, if it is a letter, is the same. -/
theorem head_iff {p : α → Bool} (hp : ∀ a, p a = true → blank a = false)
    (h : Respaced blank text text') : text.head?.any p = text'.head?.any p := by
  have hgap : ∀ gap rest : List α, gap ≠ [] → (∀ a ∈ gap, blank a = true) →
      (gap ++ rest).head?.any p = false := by
    intro gap rest hne hgap
    obtain ⟨a, gap, rfl⟩ := List.exists_cons_of_ne_nil hne
    have ha := hgap a List.mem_cons_self
    rw [List.cons_append, List.head?_cons, Option.any_some]
    by_contra htrue
    rw [Bool.not_eq_false] at htrue
    rw [hp a htrue] at ha
    cases ha
  have hending : ∀ gap : List α, (∀ a ∈ gap, blank a = true) → gap.head?.any p = false := by
    intro gap hall
    by_cases hne : gap = []
    · rw [hne]
      rfl
    · simpa using hgap gap [] hne hall
  cases h with
  | ending h h' => rw [hending _ h, hending _ h']
  | letter h _ => rfl
  | gap hne hne' h h' _ => rw [hgap _ _ hne h, hgap _ _ hne' h']

end Respaced

variable (blank) in
theorem dropWhile_blank_eq (text : List α) :
    ∃ gap, (∀ a ∈ gap, blank a = true) ∧ text = gap ++ text.dropWhile blank :=
  ⟨text.takeWhile blank, fun _ ha => List.mem_takeWhile_imp ha, List.takeWhile_append_dropWhile.symm⟩

/-- A text and its words written with one blank between them. -/
theorem respaced_unwords (hb : blank b = true) (text : List α) :
    Respaced blank (text.dropWhile blank) (unwords b (words blank text)) ∧
      ∀ word : List α, word ≠ [] → ∃ rest,
        unwords b (wordsAfter blank word text) = word ++ rest ∧ Respaced blank text rest := by
  induction text with
  | nil =>
    refine ⟨.ending (by simp) (by simp [unwords]), fun word hne => ⟨[], ?_, .ending ?_ ?_⟩⟩
    · rw [wordsAfter_nil, closeWord_of_ne_nil hne, unwords, List.append_nil]
    · simp
    · simp
  | cons a text ih =>
    obtain ⟨ihgap, ihword⟩ := ih
    cases ha : blank a with
    | true =>
      refine ⟨?_, fun word hne => ?_⟩
      · rwa [List.dropWhile_cons_of_pos ha, words_cons_blank ha]
      obtain ⟨gap, hgap, htext⟩ := dropWhile_blank_eq blank text
      have hall : ∀ c ∈ a :: gap, blank c = true := List.forall_mem_cons.mpr ⟨ha, hgap⟩
      rw [wordsAfter_blank ha, closeWord_of_ne_nil hne]
      cases hwords : words blank text with
      | nil =>
        refine ⟨[], by simp [unwords], ?_⟩
        have hrest : text.dropWhile blank = [] := by
          cases hdrop : text.dropWhile blank with
          | nil => rfl
          | cons c rest =>
            have hc : blank c = false := by
              have hhead := List.head?_dropWhile_not blank text
              rw [hdrop] at hhead
              simpa using hhead
            rw [htext, hdrop, words_append_of_blanks hgap, words, wordsAfter_letter hc]
              at hwords
            exact absurd hwords (wordsAfter_ne_nil (by simp) rest)
        rw [hrest, List.append_nil] at htext
        rw [htext]
        exact .ending hall (by simp)
      | cons next rest =>
        refine ⟨b :: unwords b (next :: rest), rfl, ?_⟩
        rw [htext]
        rw [hwords] at ihgap
        exact .gap (List.cons_ne_nil a gap) (List.cons_ne_nil b []) hall (by simpa using hb)
          ihgap
    | false =>
      have hword : ∀ word : List α, ∃ rest, unwords b (wordsAfter blank word (a :: text)) =
          word ++ rest ∧ Respaced blank (a :: text) rest := by
        intro word
        obtain ⟨rest, hrest, hspaced⟩ := ihword (word ++ [a]) (by simp)
        refine ⟨a :: rest, ?_, .letter ha hspaced⟩
        rw [wordsAfter_letter ha, hrest, List.append_assoc, List.singleton_append]
      refine ⟨?_, fun word _ => hword word⟩
      obtain ⟨rest, hrest, hspaced⟩ := hword []
      rw [List.dropWhile_cons_of_neg (by simp [ha]), words, hrest]
      exact hspaced

end KimixNative

/-!
## Groups between separators

The groups of a list are its maximal nonempty runs of elements that are not separators. The
last run is open: an element put behind the list extends it. The runs before it are closed.
-/

namespace KimixNative

variable {α : Type*}

/-- The maximal nonempty runs without a separator. -/
def groups (sep : α → Bool) (l : List α) : List (List α) :=
  (l.splitOnP sep).filter fun run => !run.isEmpty

/-- The run that the list ends with; it may be empty. -/
def openRun (sep : α → Bool) (l : List α) : List α := l.rtakeWhile fun a => !sep a

/-- The groups before the run that the list ends with. -/
def closedGroups (sep : α → Bool) (l : List α) : List (List α) :=
  groups sep (l.rdropWhile fun a => !sep a)

variable {sep : α → Bool}

/-- A run counts as a group unless it is empty. -/
def asGroup (run : List α) : List (List α) := if run = [] then [] else [run]

@[simp] theorem asGroup_nil : asGroup ([] : List α) = [] := if_pos rfl

variable {run : List α}

theorem asGroup_of_ne (h : run ≠ []) : asGroup run = [run] := if_neg h

theorem groups_run (h : ∀ a ∈ run, sep a = false) : groups sep run = asGroup run := by
  rw [groups, List.splitOnP_eq_singleton h]
  cases run <;> rfl

@[simp] theorem groups_nil : groups sep [] = [] := rfl

variable {a : α}

theorem groups_append_sep (xs ys : List α) (ha : sep a = true) :
    groups sep (xs ++ a :: ys) = groups sep xs ++ groups sep ys := by
  rw [groups, List.splitOnP_append_cons xs ys ha, List.filter_append]
  rfl

/-- A separator at the end closes the last run. -/
theorem groups_concat_sep (xs : List α) (ha : sep a = true) :
    groups sep (xs ++ [a]) = groups sep xs := by
  rw [groups_append_sep xs [] ha, groups_nil, List.append_nil]

theorem openRun_free {l : List α} (h : a ∈ openRun sep l) : sep a = false := by
  simpa using List.mem_rtakeWhile_imp h

/-- Behind the closed groups only the last run is left, whatever it goes on with. -/
theorem groups_append_run (l : List α) (h : ∀ a ∈ run, sep a = false) :
    groups sep (l ++ run) = closedGroups sep l ++ asGroup (openRun sep l ++ run) := by
  have hfree : ∀ a ∈ openRun sep l ++ run, sep a = false := by
    intro a ha
    rcases List.mem_append.mp ha with ha | ha
    · exact openRun_free ha
    · exact h a ha
  have hsplit : l ++ run =
      (l.rdropWhile fun a => !sep a) ++ (openRun sep l ++ run) := by
    rw [← List.append_assoc, openRun, List.rdropWhile_append_rtakeWhile]
  rw [hsplit, closedGroups]
  by_cases hnil : (l.rdropWhile fun a => !sep a) = []
  · rw [hnil, List.nil_append, groups_run hfree]
    rfl
  · have hlast := List.rdropWhile_last_not _ l hnil
    generalize (l.rdropWhile fun a => !sep a) = front at *
    obtain ⟨xs, a, rfl⟩ := (List.eq_nil_or_concat' front).resolve_left hnil
    have ha : sep a = true := by simpa using hlast
    rw [List.append_assoc, List.singleton_append, groups_append_sep _ _ ha, groups_run hfree,
      groups_concat_sep _ ha]

theorem groups_eq (l : List α) : groups sep l = closedGroups sep l ++ asGroup (openRun sep l) := by
  have hnone : ∀ a ∈ ([] : List α), sep a = false := fun _ ha => by cases ha
  have h := groups_append_run l hnone
  rwa [List.append_nil, List.append_nil] at h

end KimixNative
