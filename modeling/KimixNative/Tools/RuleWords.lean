import KimixNative.Tools.ShellSafety

/-!
# Where a rule word stands

The loop over the rule words skips over each match, but no rule word starts inside another
one: it stops as soon as any position has a match with tokens to stop at. Positions, matches
and tokens are read off the letters and do not depend on how wide the gaps are, as long as no
newline is left in them.
-/

namespace KimixNative.Tools.ShellSafety

open Text (ascii)

/-! ## Bytes -/

variable {c : Byte} {text word : Bytes}

variable {d : Byte} {behindWord : Bool} {after : Nat} {rest : Bytes}

theorem beq_eq_false {p : Byte → Bool} (h : p c = true) (hd : p d = false) : (c == d) = false := by
  rw [beq_eq_false_iff_ne]
  rintro rfl
  rw [h] at hd
  cases hd

theorem isSpace_of_isWord (h : isWord c = true) : isSpace c = false := by
  simp (disch := decide) only [isSpace, beq_eq_false h, Bool.or_self]

theorem splitsSegment_of_isWord (h : isWord c = true) (rest : Bytes) :
    splitsSegment c rest = false := by
  simp (disch := decide) only [splitsSegment, beq_eq_false h, Bool.or_self, Bool.false_and]

/-- The bytes that are no letters have one case. -/
theorem lowerAscii_eq_iff (h : isAlpha d = false) (c : Byte) : lowerAscii c = d ↔ c = d := by
  rw [lowerAscii]
  split
  · next hupper =>
      refine iff_of_false ?_ ?_
      · rintro rfl
        have halpha : isAlpha (c + 32) = true := by
          simp only [BitVec.le_def] at hupper
          simp [isAlpha, BitVec.le_def]
          simp at hupper
          omega
        rw [h] at halpha
        cases halpha
      · rintro rfl
        have halpha : isAlpha c = true := by
          simp only [isAlpha, hupper, decide_true, Bool.and_self, Bool.or_true]
        rw [h] at halpha
        cases halpha
  · rfl

theorem lowerAscii_beq (h : isAlpha d = false) (c : Byte) : (lowerAscii c == d) = (c == d) := by
  rw [Bool.eq_iff_iff, beq_iff_eq, beq_iff_eq, lowerAscii_eq_iff h]

theorem isSpace_lowerAscii (c : Byte) : isSpace (lowerAscii c) = isSpace c := by
  simp (disch := decide) only [isSpace, lowerAscii_beq]

/-- Bytes that never split stay in the segment. -/
theorem segment_append {front : Bytes} (h : ∀ c ∈ front, ∀ rest, splitsSegment c rest = false)
    (rest : Bytes) : segment (front ++ rest) = front ++ segment rest := by
  induction front with
  | nil => rfl
  | cons c front ih =>
    obtain ⟨hc, hfront⟩ := List.forall_mem_cons.mp h
    rw [List.cons_append, segment_cons, hc, ih hfront]
    rfl

/-! ## Searches at a boundary -/

theorem searchAtBoundary_iff {matchesAt : Bytes → Bool} :
    searchAtBoundary matchesAt behindWord text = true ↔
      ∃ before rest, text = before ++ rest ∧ rest ≠ [] ∧
        before.getLast?.elim behindWord isWord = false ∧ matchesAt rest = true := by
  induction text generalizing behindWord with
  | nil =>
    refine iff_of_false (by simp [searchAtBoundary]) ?_
    rintro ⟨before, rest, htext, hne, -⟩
    exact hne (List.append_eq_nil_iff.mp htext.symm).2
  | cons c text ih =>
    have hlast : ∀ before : Bytes, (c :: before).getLast?.elim behindWord isWord =
        before.getLast?.elim (isWord c) isWord := by
      intro before
      rw [List.getLast?_cons]
      cases before.getLast? <;> rfl
    rw [searchAtBoundary, Bool.or_eq_true, ih]
    constructor
    · rintro (hhere | ⟨before, rest, rfl, hne, hboundary, hmatch⟩)
      · obtain ⟨hboundary, hmatch⟩ := Bool.and_eq_true_iff.mp hhere
        exact ⟨[], c :: text, rfl, List.cons_ne_nil c text, by simpa using hboundary, hmatch⟩
      · exact ⟨c :: before, rest, rfl, hne, (hlast before).trans hboundary, hmatch⟩
    · rintro ⟨before, rest, htext, hne, hboundary, hmatch⟩
      cases before with
      | nil =>
        obtain rfl : c :: text = rest := htext
        have hfront : behindWord = false := hboundary
        exact .inl (by simp [hfront, hmatch])
      | cons d before =>
        rw [List.cons_append, List.cons.injEq] at htext
        obtain ⟨rfl, rfl⟩ := htext
        exact .inr ⟨before, rest, rfl, hne, (hlast before).symm.trans hboundary, hmatch⟩

/-! ## Rule words -/

/-- The words of the rules: letters, and none of them starts like `exe`. -/
structure RuleWord (word : Bytes) : Prop where
  ne_nil : word ≠ []
  letters : ∀ c ∈ word, isWord c = true
  not_exe : word.head? ≠ some 0x65

instance (word : Bytes) : Decidable (RuleWord word) :=
  decidable_of_iff (_ ∧ _ ∧ _) ⟨fun ⟨a, b, c⟩ => ⟨a, b, c⟩, fun ⟨a, b, c⟩ => ⟨a, b, c⟩⟩

theorem endOfWord_append (word tail : Bytes) :
    ∃ suffix rest, (suffix = [] ∨ suffix = ascii ".exe") ∧ tail = suffix ++ rest ∧
      endOfWord word (word ++ tail) = word.length + suffix.length := by
  rw [endOfWord, List.drop_left]
  split
  · next hexe =>
      obtain ⟨rest, rfl⟩ := List.isPrefixOf_iff_prefix.mp hexe
      exact ⟨ascii ".exe", rest, .inr rfl, rfl, rfl⟩
  · exact ⟨[], tail, .inl rfl, rfl, rfl⟩

/-- A rule word stands in front of a text alone or with `.exe`. -/
theorem tryWord_eq_some (h : tryWord word text = some after) :
    ∃ suffix rest, (suffix = [] ∨ suffix = ascii ".exe") ∧ text = word ++ (suffix ++ rest) ∧
      after = word.length + suffix.length ∧ rest.head?.any isWord = false := by
  rw [tryWord] at h
  split at h
  · next hmatch =>
      obtain ⟨hword, hbehind⟩ := hmatch
      obtain ⟨tail, rfl⟩ := List.isPrefixOf_iff_prefix.mp hword
      obtain ⟨suffix, rest, hsuffix, rfl, hend⟩ := endOfWord_append word tail
      rw [hend, ← List.append_assoc, ← List.length_append, List.drop_left] at hbehind
      exact ⟨suffix, rest, hsuffix, rfl, (Option.some.inj h).symm.trans hend, hbehind⟩
  · cases h

theorem matchWord_eq_some {ruleWords : List Bytes}
    (h : matchWord ruleWords text = some (word, after)) :
    word ∈ ruleWords ∧ tryWord word text = some after := by
  obtain ⟨w, hw, hmatch⟩ := List.exists_of_findSome?_eq_some h
  obtain ⟨n, hn, heq⟩ := Option.map_eq_some_iff.mp hmatch
  obtain ⟨rfl, rfl⟩ := Prod.mk.inj heq
  exact ⟨hw, hn⟩

/-- A match starts with a word byte. -/
theorem isWord_of_matchWord {ruleWords : List Bytes} (hwords : ∀ w ∈ ruleWords, RuleWord w)
    (h : matchWord ruleWords (c :: rest) ≠ none) : isWord c = true ∧ c ≠ 0x65 := by
  obtain ⟨⟨word, after⟩, hmatch⟩ := Option.ne_none_iff_exists'.mp h
  obtain ⟨hword, htry⟩ := matchWord_eq_some hmatch
  obtain ⟨suffix, tail, -, htext, -⟩ := tryWord_eq_some htry
  have hrule := hwords word hword
  obtain ⟨d, word, rfl⟩ := List.exists_cons_of_ne_nil hrule.ne_nil
  obtain ⟨rfl, -⟩ := List.cons.inj htext
  refine ⟨hrule.letters c List.mem_cons_self, ?_⟩
  rintro rfl
  exact hrule.not_exe rfl

/-! ## Skipping a match -/

/-- A rule stops at the tokens behind a match at the front of a text. -/
def stopsAt (ruleWords : List Bytes) (on : Bytes → List Bytes → Option Bytes) (text : Bytes) :
    Bool :=
  match matchWord ruleWords text with
  | none => false
  | some (word, after) => (on word (segmentTokens (text.drop after))).isSome

theorem stopsAt_iff {ruleWords : List Bytes} {on : Bytes → List Bytes → Option Bytes} :
    stopsAt ruleWords on text = true ↔
      ∃ word after, matchWord ruleWords text = some (word, after) ∧
        (on word (segmentTokens (text.drop after))).isSome := by
  rw [stopsAt]
  cases matchWord ruleWords text with
  | none => simp
  | some found => simp [Prod.ext_iff]

/-- No rule word starts at the next `skip` positions. -/
def Inside (ruleWords : List Bytes) : (behindWord : Bool) → (skip : Nat) → Bytes → Prop
  | _, 0, _ => True
  | _, _ + 1, [] => True
  | behindWord, skip + 1, c :: rest =>
    (behindWord = true ∨ matchWord ruleWords (c :: rest) = none) ∧
      Inside ruleWords (isWord c) skip rest

theorem inside_word (ruleWords : List Bytes) (h : ∀ c ∈ word, isWord c = true) {skip : Nat}
    (hrest : Inside ruleWords true skip rest) :
    Inside ruleWords true (word.length + skip) (word ++ rest) := by
  induction word with
  | nil => simpa using hrest
  | cons c word ih =>
    obtain ⟨hc, hword⟩ := List.forall_mem_cons.mp h
    rw [List.length_cons, Nat.succ_add, List.cons_append]
    refine ⟨.inl rfl, ?_⟩
    rw [hc]
    exact ih hword

theorem inside_exe {ruleWords : List Bytes} (hwords : ∀ w ∈ ruleWords, RuleWord w) (rest : Bytes) :
    Inside ruleWords true (ascii ".exe").length (ascii ".exe" ++ rest) := by
  refine ⟨.inl rfl, .inr ?_, .inl (by decide), .inl (by decide), trivial⟩
  by_contra hmatch
  exact (isWord_of_matchWord hwords hmatch).2 rfl

theorem inside_of_match {ruleWords : List Bytes} (hwords : ∀ w ∈ ruleWords, RuleWord w)
    (h : matchWord ruleWords (c :: text) = some (word, after)) :
    Inside ruleWords (isWord c) (after - 1) text := by
  obtain ⟨hword, htry⟩ := matchWord_eq_some h
  obtain ⟨suffix, rest, hsuffix, htext, rfl, -⟩ := tryWord_eq_some htry
  have hrule := hwords word hword
  obtain ⟨d, word, rfl⟩ := List.exists_cons_of_ne_nil hrule.ne_nil
  obtain ⟨rfl, rfl⟩ := List.cons.inj htext
  obtain ⟨hc, hletters⟩ := List.forall_mem_cons.mp hrule.letters
  have hskip : (c :: word).length + suffix.length - 1 = word.length + suffix.length := by
    rw [List.length_cons]
    omega
  rw [hc, hskip]
  refine inside_word ruleWords hletters ?_
  obtain rfl | rfl := hsuffix
  · exact trivial
  · exact inside_exe hwords rest

/-- The loop stops if some position stops it. -/
theorem isSome_eachWordWithExe {ruleWords : List Bytes} (hwords : ∀ w ∈ ruleWords, RuleWord w)
    (on : Bytes → List Bytes → Option Bytes) {skip : Nat}
    (h : Inside ruleWords behindWord skip text) :
    (eachWordWithExe ruleWords on behindWord skip text).isSome =
      searchAtBoundary (stopsAt ruleWords on) behindWord text := by
  induction text generalizing behindWord skip with
  | nil => simp [eachWordWithExe, searchAtBoundary]
  | cons c rest ih =>
    rw [searchAtBoundary]
    cases skip with
    | succ skip =>
      obtain ⟨hinside, hrest⟩ := h
      have hhere : (!behindWord && stopsAt ruleWords on (c :: rest)) = false := by
        obtain rfl | hnone := hinside
        · rfl
        · rw [stopsAt, hnone, Bool.and_false]
      rw [eachWordWithExe, ih hrest, hhere, Bool.false_or]
    | zero =>
      have hnext : Inside ruleWords (isWord c) 0 rest := trivial
      cases behindWord with
      | true =>
        rw [eachWordWithExe, ih hnext]
        rfl
      | false =>
        cases hmatch : matchWord ruleWords (c :: rest) with
        | none =>
          have hhere : stopsAt ruleWords on (c :: rest) = false := by
            rw [stopsAt, hmatch]
          rw [eachWordWithExe, hmatch, ih hnext, hhere, Bool.and_false, Bool.false_or]
        | some found =>
          obtain ⟨word, after⟩ := found
          have hhere : stopsAt ruleWords on (c :: rest) =
              (on word (segmentTokens ((c :: rest).drop after))).isSome := by
            rw [stopsAt, hmatch]
          rw [eachWordWithExe, hmatch, Option.isSome_or, ih (inside_of_match hwords hmatch),
            hhere]
          rfl

/-! ## Texts that read alike -/

/-- The bytes of rule words and of `.exe`. -/
def IsLetter (c : Byte) : Prop := isWord c = true ∨ c = 0x2E

theorem IsLetter.isSpace (h : IsLetter c) : isSpace c = false := by
  obtain hword | rfl := h
  · exact isSpace_of_isWord hword
  · rfl

theorem IsLetter.splitsSegment (h : IsLetter c) (rest : Bytes) : splitsSegment c rest = false := by
  obtain hword | rfl := h
  · exact splitsSegment_of_isWord hword rest
  · rfl

/-- `.exe` is spelled with letters. -/
theorem isLetter_exe : ∀ c ∈ ascii ".exe", IsLetter c := by
  unfold IsLetter
  decide

theorem RuleWord.isLetter (h : RuleWord word) : ∀ c ∈ word, IsLetter c :=
  fun c hc => .inl (h.letters c hc)

/-- Related texts start with the same letter, or with none of them. -/
structure ReadsAlike (R : Bytes → Bytes → Prop) : Prop where
  front {c : Byte} {s t : Bytes} (hc : IsLetter c) (h : R (c :: s) t) : ∃ t', t = c :: t' ∧ R s t'
  back {c : Byte} {s t : Bytes} (hc : IsLetter c) (h : R s (c :: t)) : ∃ s', s = c :: s' ∧ R s' t

namespace ReadsAlike

variable {R : Bytes → Bytes → Prop} (alike : ReadsAlike R) {s t : Bytes}

include alike

theorem symm : ReadsAlike fun s t => R t s :=
  ⟨fun hc h => alike.back hc h, fun hc h => alike.front hc h⟩

theorem append {lit : Bytes} (hlit : ∀ c ∈ lit, IsLetter c) (h : R (lit ++ s) t) :
    ∃ t', t = lit ++ t' ∧ R s t' := by
  induction lit generalizing t with
  | nil => exact ⟨t, rfl, h⟩
  | cons c lit ih =>
    obtain ⟨hc, hlit⟩ := List.forall_mem_cons.mp hlit
    obtain ⟨t', rfl, htail⟩ := alike.front hc h
    obtain ⟨t'', rfl, hrest⟩ := ih hlit htail
    exact ⟨t'', rfl, hrest⟩

variable (h : R s t)

include h

theorem matchLit_eq {lit : Bytes} (hlit : ∀ c ∈ lit, IsLetter c) :
    matchLit s lit = matchLit t lit := by
  refine Bool.eq_iff_iff.mpr ⟨fun hs => ?_, fun ht => ?_⟩
  · obtain ⟨rest, rfl⟩ := List.isPrefixOf_iff_prefix.mp hs
    obtain ⟨rest', rfl, -⟩ := alike.append hlit h
    exact List.isPrefixOf_iff_prefix.mpr (List.prefix_append lit rest')
  · obtain ⟨rest, rfl⟩ := List.isPrefixOf_iff_prefix.mp ht
    obtain ⟨rest', rfl, -⟩ := alike.symm.append hlit h
    exact List.isPrefixOf_iff_prefix.mpr (List.prefix_append lit rest')

theorem drop {lit : Bytes} (hlit : ∀ c ∈ lit, IsLetter c) (hmatch : matchLit s lit = true) :
    R (s.drop lit.length) (t.drop lit.length) := by
  obtain ⟨rest, rfl⟩ := List.isPrefixOf_iff_prefix.mp hmatch
  obtain ⟨rest', rfl, hrest⟩ := alike.append hlit h
  rwa [List.drop_left, List.drop_left]

theorem head_isWord : s.head?.any isWord = t.head?.any isWord := by
  have hone : ∀ {R : Bytes → Bytes → Prop} {s t : Bytes}, ReadsAlike R → R s t →
      s.head?.any isWord = true → t.head?.any isWord = true := by
    intro R s t alike h hs
    cases s with
    | nil => cases hs
    | cons c s =>
      obtain ⟨t', rfl, -⟩ := alike.front (.inl hs) h
      exact hs
  exact Bool.eq_iff_iff.mpr ⟨hone alike h, hone alike.symm h⟩

theorem endOfWord_eq (hword : RuleWord word) (hmatch : matchLit s word = true) :
    endOfWord word s = endOfWord word t ∧
      R (s.drop (endOfWord word s)) (t.drop (endOfWord word s)) := by
  have hbehind := alike.drop h hword.isLetter hmatch
  rw [endOfWord, endOfWord, ← alike.matchLit_eq hbehind isLetter_exe]
  refine ⟨rfl, ?_⟩
  split
  · next hexe =>
      have hrest := alike.drop hbehind isLetter_exe hexe
      rwa [List.drop_drop, List.drop_drop] at hrest
  · exact hbehind

theorem tryWord_eq (hword : RuleWord word) : tryWord word s = tryWord word t := by
  have hsame := alike.matchLit_eq h hword.isLetter
  rw [tryWord, tryWord, ← hsame]
  cases hmatch : matchLit s word with
  | false => rfl
  | true =>
    obtain ⟨hend, hrest⟩ := alike.endOfWord_eq h hword hmatch
    rw [← hend, alike.head_isWord hrest]

variable {ruleWords : List Bytes} (hwords : ∀ w ∈ ruleWords, RuleWord w)

include hwords

theorem matchWord_eq : matchWord ruleWords s = matchWord ruleWords t := by
  induction ruleWords with
  | nil => rfl
  | cons word ruleWords ih =>
    obtain ⟨hword, hrest⟩ := List.forall_mem_cons.mp hwords
    have htail := ih hrest
    rw [matchWord, matchWord] at htail ⊢
    rw [List.findSome?_cons, List.findSome?_cons, alike.tryWord_eq h hword, htail]

/-- What comes after a match is related. -/
theorem behind {word : Bytes} {after : Nat} (hmatch : matchWord ruleWords s = some (word, after)) :
    R (s.drop after) (t.drop after) := by
  obtain ⟨hword, htry⟩ := matchWord_eq_some hmatch
  rw [tryWord] at htry
  split at htry
  · next hfront =>
      obtain rfl := Option.some.inj htry
      exact (alike.endOfWord_eq h (hwords word hword) hfront.1).2
  · cases htry

theorem stopsAt_eq (htokens : ∀ {s t}, R s t → segmentTokens s = segmentTokens t)
    (on : Bytes → List Bytes → Option Bytes) :
    stopsAt ruleWords on s = stopsAt ruleWords on t := by
  rw [stopsAt, stopsAt, ← alike.matchWord_eq h hwords]
  cases hmatch : matchWord ruleWords s with
  | none => rfl
  | some found =>
    obtain ⟨word, after⟩ := found
    dsimp only
    rw [htokens (alike.behind h hwords hmatch)]

end ReadsAlike

/-! ## Gaps -/

theorem splitsSegment_of_isSpace (h : isSpace c = true) (hne : c ≠ 0x0A) (rest : Bytes) :
    splitsSegment c rest = false := by
  simp (disch := decide) only [splitsSegment, beq_eq_false h, beq_eq_false_iff_ne.mpr hne,
    Bool.or_self, Bool.false_and]

/-- No rule word starts at a blank. -/
theorem stopsAt_blank {ruleWords : List Bytes} (hwords : ∀ w ∈ ruleWords, RuleWord w)
    (on : Bytes → List Bytes → Option Bytes) (hc : isWord c = false) (rest : Bytes) :
    stopsAt ruleWords on (c :: rest) = false := by
  have hnone : matchWord ruleWords (c :: rest) = none := by
    by_contra hmatch
    rw [(isWord_of_matchWord hwords hmatch).1] at hc
    cases hc
  rw [stopsAt, hnone]

/-- A gap is not searched, and what comes after it is at a boundary. -/
theorem searchAtBoundary_gap {ruleWords : List Bytes} (hwords : ∀ w ∈ ruleWords, RuleWord w)
    (on : Bytes → List Bytes → Option Bytes) {gap : Bytes} (hgap : ∀ c ∈ gap, isSpace c = true)
    (rest : Bytes) (behindWord : Bool) :
    searchAtBoundary (stopsAt ruleWords on) behindWord (gap ++ rest) =
      searchAtBoundary (stopsAt ruleWords on) (gap.isEmpty && behindWord) rest := by
  induction gap generalizing behindWord with
  | nil => rw [List.nil_append, List.isEmpty_nil, Bool.true_and]
  | cons c gap ih =>
    obtain ⟨hc, hrest⟩ := List.forall_mem_cons.mp hgap
    have hword : isWord c = false := by
      by_contra hword
      rw [isSpace_of_isWord (by simpa using hword)] at hc
      cases hc
    rw [List.cons_append, searchAtBoundary, stopsAt_blank hwords on hword, Bool.and_false,
      Bool.false_or, ih hrest, hword, Bool.and_false, List.isEmpty_cons, Bool.false_and]

/-- Texts without newlines that differ in the width of their gaps. -/
structure SameLine (text text' : Bytes) : Prop where
  respaced : Respaced isSpace text text'
  line : 0x0A ∉ text
  line' : 0x0A ∉ text'

theorem readsAlike_sameLine : ReadsAlike SameLine where
  front {c s t} hc h := by
    have hfront : ∀ d ∈ [c], isSpace d = false := by simpa using hc.isSpace
    obtain ⟨t', rfl, hrest⟩ := Respaced.of_append hfront h.respaced
    exact ⟨t', rfl, hrest, fun hmem => h.line (List.mem_cons_of_mem c hmem),
      fun hmem => h.line' (List.mem_cons_of_mem c hmem)⟩
  back {c s t} hc h := by
    have hfront : ∀ d ∈ [c], isSpace d = false := by simpa using hc.isSpace
    obtain ⟨s', rfl, hrest⟩ := Respaced.of_append hfront h.respaced.symm
    exact ⟨s', rfl, hrest.symm, fun hmem => h.line (List.mem_cons_of_mem c hmem),
      fun hmem => h.line' (List.mem_cons_of_mem c hmem)⟩

variable {text' : Bytes}

theorem splitsSegment_respaced (h : Respaced isSpace text text') (c : Byte) :
    splitsSegment c text = splitsSegment c text' := by
  have hand := h.head_iff (p := fun d => d == 0x26) (by decide)
  have hhead : ∀ s : Bytes, (s.head? == some 0x26) = s.head?.any fun d => d == 0x26 := by
    intro s
    cases s <;> rfl
  rw [splitsSegment, splitsSegment, hhead, hhead, hand]

/-- Without newlines the segments agree as well. -/
theorem segment_respaced (h : Respaced isSpace text text') (hline : 0x0A ∉ text)
    (hline' : 0x0A ∉ text') : Respaced isSpace (segment text) (segment text') := by
  have hgap : ∀ gap : Bytes, (∀ c ∈ gap, isSpace c = true) → 0x0A ∉ gap →
      ∀ rest : Bytes, segment (gap ++ rest) = gap ++ segment rest := by
    intro gap hblank hnewline rest
    refine segment_append (fun c hc rest => ?_) rest
    exact splitsSegment_of_isSpace (hblank c hc) (ne_of_mem_of_not_mem hc hnewline) rest
  induction h with
  | @ending gap gap' hblank hblank' =>
    have hall := hgap gap hblank hline []
    have hall' := hgap gap' hblank' hline' []
    rw [List.append_nil, segment_nil, List.append_nil] at hall hall'
    rw [hall, hall']
    exact .ending hblank hblank'
  | @letter c rest rest' hletter hrest ih =>
    obtain ⟨-, hline⟩ := List.ne_and_not_mem_of_not_mem_cons hline
    obtain ⟨-, hline'⟩ := List.ne_and_not_mem_of_not_mem_cons hline'
    rw [segment_cons, segment_cons, splitsSegment_respaced hrest c]
    split
    · exact .ending (by simp) (by simp)
    · exact .letter hletter (ih hline hline')
  | @gap gap gap' rest rest' hne hne' hblank hblank' hrest ih =>
    rw [List.mem_append, not_or] at hline hline'
    rw [hgap gap hblank hline.1, hgap gap' hblank' hline'.1]
    exact .gap hne hne' hblank hblank' (ih hline.2 hline'.2)

theorem segmentTokens_sameLine (h : SameLine text text') :
    segmentTokens text = segmentTokens text' :=
  (segment_respaced h.respaced h.line h.line').words_eq

theorem searchAtBoundary_respaced {ruleWords : List Bytes} (hwords : ∀ w ∈ ruleWords, RuleWord w)
    (on : Bytes → List Bytes → Option Bytes) (h : Respaced isSpace text text') (hline : 0x0A ∉ text)
    (hline' : 0x0A ∉ text') (behindWord : Bool) :
    searchAtBoundary (stopsAt ruleWords on) behindWord text =
      searchAtBoundary (stopsAt ruleWords on) behindWord text' := by
  induction h generalizing behindWord with
  | @ending gap gap' hblank hblank' =>
    have hall := searchAtBoundary_gap hwords on hblank [] behindWord
    have hall' := searchAtBoundary_gap hwords on hblank' [] behindWord
    rw [List.append_nil] at hall hall'
    rw [hall, hall']
    rfl
  | @letter c rest rest' hletter hrest ih =>
    have hhere := readsAlike_sameLine.stopsAt_eq ⟨.letter hletter hrest, hline, hline'⟩ hwords
      segmentTokens_sameLine on
    obtain ⟨-, hline⟩ := List.ne_and_not_mem_of_not_mem_cons hline
    obtain ⟨-, hline'⟩ := List.ne_and_not_mem_of_not_mem_cons hline'
    rw [searchAtBoundary, searchAtBoundary, hhere, ih hline hline']
  | @gap gap gap' rest rest' hne hne' hblank hblank' hrest ih =>
    rw [List.mem_append, not_or] at hline hline'
    rw [searchAtBoundary_gap hwords on hblank, searchAtBoundary_gap hwords on hblank',
      List.isEmpty_eq_false_iff.mpr hne, List.isEmpty_eq_false_iff.mpr hne',
      ih hline.2 hline'.2]

end KimixNative.Tools.ShellSafety
