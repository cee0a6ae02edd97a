import KimixNative.Tools.RuleWords

/-!
# Rules and segments

Three of the rules look at the tokens between a rule word and the end of its segment. They
are compared with the same rules on the segments of the command alone. The detector collapses
the newlines of a command before it cuts segments, so it sees as one segment what runs over
several lines; apart from that, segment by segment and all at once are the same.
-/

namespace KimixNative.Tools.ShellSafety

open Text (ascii)

/-! ## The rules -/

inductive Rule
  | recursiveDelete
  | kill
  | format
  deriving DecidableEq, Repr

namespace Rule

def words : Rule → List Bytes
  | recursiveDelete => deleteWords
  | kill => [wordKill]
  | format => [wordFormat]

def on : Rule → Bytes → List Bytes → Option Bytes
  | recursiveDelete => deleteTarget
  | kill => killTarget
  | format => formatTarget

def detect : Rule → Bytes → Option Bytes
  | recursiveDelete => detectRecursiveDelete
  | kill => killInit
  | format => formatDrive

/-- The detector blocks the command by this rule. -/
def blocks (rule : Rule) (command : Bytes) : Bool := (rule.detect (collapseLower command)).isSome

theorem detect_eq (rule : Rule) (text : Bytes) :
    rule.detect text = eachWordWithExe rule.words rule.on false 0 text := by
  cases rule <;> rfl

theorem ruleWord_of_mem (rule : Rule) : ∀ w ∈ rule.words, RuleWord w := by
  cases rule <;> decide

theorem collectFlags_mono {tokens tokens' : List Bytes} (h : tokens <+: tokens') {flag : Byte}
    (hflag : collectFlags tokens flag = true) : collectFlags tokens' flag = true := by
  obtain ⟨token, hmem, htoken⟩ := List.any_eq_true.mp hflag
  exact List.any_eq_true.mpr ⟨token, h.subset hmem, htoken⟩

theorem armed_mono {cmd : Bytes} {flags flags' : Byte → Bool}
    (h : ∀ flag, flags flag = true → flags' flag = true) (harmed : armed cmd flags = true) :
    armed cmd flags' = true := by
  rw [armed] at harmed ⊢
  split at harmed <;> grind

theorem isSome_findSome_mono {f : Bytes → Option Bytes} {tokens tokens' : List Bytes}
    (h : tokens <+: tokens') (hsome : (tokens.findSome? f).isSome = true) :
    (tokens'.findSome? f).isSome = true := by
  rw [List.findSome?_isSome_iff] at hsome ⊢
  obtain ⟨token, hmem, htoken⟩ := hsome
  exact ⟨token, h.subset hmem, htoken⟩

/-- More tokens behind the ones that stop a rule do not hide them. -/
theorem on_mono (rule : Rule) (word : Bytes) {tokens tokens' : List Bytes}
    (h : tokens <+: tokens') (hstop : (rule.on word tokens).isSome = true) :
    (rule.on word tokens').isSome = true := by
  cases rule with
  | recursiveDelete =>
    change (deleteTarget word tokens).isSome = true at hstop
    change (deleteTarget word tokens').isSome = true
    rw [deleteTarget] at hstop ⊢
    split at hstop
    · next harmed =>
        rw [if_pos (armed_mono (fun _ => collectFlags_mono h) harmed)]
        exact isSome_findSome_mono h hstop
    · cases hstop
  | kill => exact isSome_findSome_mono h hstop
  | format => exact isSome_findSome_mono h hstop

end Rule

/-! ## Segments -/

/-- A separator of two bytes. -/
def isDouble (c : Byte) (rest : Bytes) : Bool :=
  (c == 0x26 && rest.head? == some 0x26) || (c == 0x7C && rest.head? == some 0x7C)

/-- The split of a text at `;`, `|`, `||`, `&&` and newline. `skip` tells that the text starts
with the second byte of a separator. -/
def segmentsAfter : (skip : Bool) → Bytes → List Bytes
  | _, [] => [[]]
  | true, _ :: rest => segmentsAfter false rest
  | false, c :: rest =>
    if splitsSegment c rest then
      [] :: segmentsAfter (isDouble c rest) rest
    else (segmentsAfter false rest).modifyHead (c :: ·)

def segments (command : Bytes) : List Bytes := segmentsAfter false command

/-- The rule stops at the tokens of a rule word in the text. -/
def Fires (rule : Rule) (text : Bytes) : Prop :=
  ∃ before rest word after, text = before ++ rest ∧ before.getLast?.any isWord = false ∧
    matchWord rule.words rest = some (word, after) ∧
    (rule.on word (segmentTokens (rest.drop after))).isSome

def joinByte (c : Byte) : Byte := if c = 0x0A then 0x20 else c

/-- The newlines of a text read as spaces. -/
def joinLines (text : Bytes) : Bytes := text.map joinByte

/-- A rule blocks a command iff it blocks one of its segments alone. -/
def SegmentWise (rule : Rule) (command : Bytes) : Prop :=
  rule.blocks command = true ↔ ∃ segment ∈ segments command, rule.blocks segment = true

/-! ## One segment -/

theorem segment_segment (text : Bytes) : segment (segment text) = segment text := by
  induction text with
  | nil => rfl
  | cons c rest ih =>
    rw [segment_cons]
    split
    · rfl
    · next hsplit =>
        have hhead : splitsSegment c (segment rest) = false := by
          cases rest with
          | nil => simpa using hsplit
          | cons d rest =>
            rw [segment_cons]
            split
            · simp only [splitsSegment, List.head?_nil] at hsplit ⊢
              grind
            · simpa [splitsSegment] using hsplit
        rw [segment_cons, hhead, ih]
        rfl

theorem readsAlike_segment : ReadsAlike fun s t => s = segment t where
  front {c s t} hc h := by
    cases t with
    | nil => cases h
    | cons d t =>
      rw [segment_cons] at h
      split at h
      · cases h
      · obtain ⟨rfl, hrest⟩ := List.cons.inj h
        exact ⟨t, rfl, hrest⟩
  back {c s t} hc h := by
    rw [segment_cons, hc.splitsSegment] at h
    exact ⟨segment t, h, rfl⟩

/-- A rule looks at the rest of its segment only. -/
theorem stopsAt_segment (rule : Rule) (text : Bytes) :
    stopsAt rule.words rule.on (segment text) = stopsAt rule.words rule.on text := by
  refine readsAlike_segment.stopsAt_eq rfl rule.ruleWord_of_mem (fun {s t} h => ?_) rule.on
  rw [h, segmentTokens, segment_segment]
  rfl

theorem segmentsAfter_eq_cons (text : Bytes) :
    ∃ others, segmentsAfter false text = segment text :: others := by
  induction text with
  | nil => exact ⟨[], rfl⟩
  | cons c rest ih =>
    rw [segmentsAfter, segment_cons]
    split
    · exact ⟨_, rfl⟩
    · obtain ⟨others, hothers⟩ := ih
      exact ⟨others, by rw [hothers, List.modifyHead_cons]⟩

/-- The rule stops in one of the segments; the first may go on behind a word byte. -/
def stopsIn (rule : Rule) (behindWord : Bool) : List Bytes → Bool
  | [] => false
  | seg :: others =>
    searchAtBoundary (stopsAt rule.words rule.on) behindWord seg ||
      others.any (searchAtBoundary (stopsAt rule.words rule.on) false)

theorem stopsIn_false (rule : Rule) (segs : List Bytes) :
    stopsIn rule false segs = segs.any (searchAtBoundary (stopsAt rule.words rule.on) false) := by
  cases segs <;> rfl

variable {c : Byte} {text : Bytes}

variable {rest : Bytes} {rule : Rule}

theorem isWord_eq_false_of_splits (h : splitsSegment c rest = true) : isWord c = false := by
  by_contra hword
  rw [splitsSegment_of_isWord (by simpa using hword)] at h
  cases h

theorem head_isWord_of_isDouble (h : isDouble c rest = true) : rest.head?.any isWord = false := by
  obtain hand | hpipe := Bool.or_eq_true_iff.mp h
  · rw [eq_of_beq (Bool.and_eq_true_iff.mp hand).2]
    rfl
  · rw [eq_of_beq (Bool.and_eq_true_iff.mp hpipe).2]
    rfl

theorem searchAtBoundary_of_not_isWord (rule : Rule) (hc : isWord c = false) (behindWord : Bool)
    (rest : Bytes) :
    searchAtBoundary (stopsAt rule.words rule.on) behindWord (c :: rest) =
      searchAtBoundary (stopsAt rule.words rule.on) false rest := by
  rw [searchAtBoundary, stopsAt_blank rule.ruleWord_of_mem rule.on hc, Bool.and_false,
    Bool.false_or, hc]

/-- A text is searched by searching its segments. -/
theorem searchAtBoundary_eq_stopsIn (rule : Rule) {skip behindWord : Bool}
    (h : skip = true → behindWord = false ∧ text.head?.any isWord = false) :
    searchAtBoundary (stopsAt rule.words rule.on) behindWord text =
      stopsIn rule behindWord (segmentsAfter skip text) := by
  induction text generalizing skip behindWord with
  | nil => simp [segmentsAfter, stopsIn, searchAtBoundary]
  | cons c rest ih =>
    have hnext : ∀ b, searchAtBoundary (stopsAt rule.words rule.on) b rest =
        stopsIn rule b (segmentsAfter false rest) :=
      fun b => ih fun hskip => absurd hskip Bool.false_ne_true
    cases skip with
    | true =>
      obtain ⟨rfl, hhead⟩ := h rfl
      rw [searchAtBoundary_of_not_isWord rule hhead, hnext, segmentsAfter]
    | false =>
      rw [segmentsAfter]
      split
      · next hsplit =>
          have hc := isWord_eq_false_of_splits hsplit
          rw [searchAtBoundary_of_not_isWord rule hc, stopsIn, searchAtBoundary, Bool.false_or,
            ← stopsIn_false]
          refine ih fun hdouble => ⟨rfl, ?_⟩
          exact head_isWord_of_isDouble hdouble
      · next hsplit =>
          obtain ⟨others, hothers⟩ := segmentsAfter_eq_cons rest
          have hhere : stopsAt rule.words rule.on (c :: segment rest) =
              stopsAt rule.words rule.on (c :: rest) := by
            rw [← stopsAt_segment rule (c :: rest), segment_cons, if_neg hsplit]
          rw [searchAtBoundary, hnext, hothers, List.modifyHead_cons, stopsIn, stopsIn,
            searchAtBoundary, hhere, Bool.or_assoc]

theorem exists_segment_iff (rule : Rule) (text : Bytes) :
    (∃ seg ∈ segments text, searchAtBoundary (stopsAt rule.words rule.on) false seg = true) ↔
      searchAtBoundary (stopsAt rule.words rule.on) false text = true := by
  rw [searchAtBoundary_eq_stopsIn rule (fun hskip => absurd hskip Bool.false_ne_true), stopsIn_false,
    List.any_eq_true]
  rfl

/-! ## Lines -/

theorem joinByte_of_ne (h : c ≠ 0x0A) : joinByte c = c := if_neg h

theorem joinLines_cons_of_ne (h : c ≠ 0x0A) (rest : Bytes) :
    joinLines (c :: rest) = c :: joinLines rest := by
  rw [joinLines, List.map_cons, joinByte_of_ne h]
  rfl

theorem isSpace_joinByte (c : Byte) : isSpace (joinByte c) = isSpace c := by
  by_cases h : c = 0x0A
  · rw [h]
    rfl
  · rw [joinByte_of_ne h]

theorem isWord_joinByte (h : isWord c = false) : isWord (joinByte c) = false := by
  by_cases hnewline : c = 0x0A
  · rw [hnewline]
    rfl
  · rwa [joinByte_of_ne hnewline]

theorem joinLines_of_notMem (h : 0x0A ∉ text) : joinLines text = text := by
  refine (List.map_congr_left fun c hc => ?_).trans (List.map_id text)
  exact joinByte_of_ne (ne_of_mem_of_not_mem hc h)

theorem newline_notMem_joinLines (text : Bytes) : 0x0A ∉ joinLines text := by
  intro h
  obtain ⟨c, -, hc⟩ := List.mem_map.mp h
  by_cases hnewline : c = 0x0A
  · rw [hnewline] at hc
    cases hc
  · exact hnewline ((joinByte_of_ne hnewline).symm.trans hc)

theorem words_joinLines (text : Bytes) : words isSpace (joinLines text) = words isSpace text := by
  rw [joinLines, words_map isSpace_joinByte]
  refine (List.map_congr_left fun w hw => ?_).trans (List.map_id _)
  refine joinLines_of_notMem fun hnewline => ?_
  have hblank := (mem_of_mem_words hw hnewline).2
  cases hblank

/-- The collapsed text is the text with its lines joined, up to gaps. -/
theorem sameLine_collapseLower (command : Bytes) :
    SameLine ((joinLines (command.map lowerAscii)).dropWhile isSpace) (collapseLower command) := by
  have hwords : (words isSpace command).map (List.map lowerAscii) =
      words isSpace (joinLines (command.map lowerAscii)) := by
    rw [words_joinLines, words_map isSpace_lowerAscii]
  refine ⟨?_, fun hmem => ?_, fun hmem => ?_⟩
  · rw [collapseLower, hwords]
    exact (respaced_unwords (b := 0x20) rfl _).1
  · exact newline_notMem_joinLines _ ((List.dropWhile_sublist _).subset hmem)
  · rw [collapseLower, hwords] at hmem
    obtain heq | ⟨w, hw, hmem⟩ := mem_unwords hmem
    · cases heq
    · exact newline_notMem_joinLines _ (mem_of_mem_words hw hmem).1

/-- The detector reads the newlines of a command as spaces. -/
theorem blocks_eq (rule : Rule) (command : Bytes) :
    rule.blocks command =
      searchAtBoundary (stopsAt rule.words rule.on) false (joinLines (command.map lowerAscii)) := by
  have hline := sameLine_collapseLower command
  obtain ⟨gap, hgap, htext⟩ := dropWhile_blank_eq isSpace (joinLines (command.map lowerAscii))
  rw [htext, searchAtBoundary_gap rule.ruleWord_of_mem rule.on hgap, Bool.and_false,
    searchAtBoundary_respaced rule.ruleWord_of_mem rule.on hline.respaced hline.line hline.line',
    Rule.blocks, Rule.detect_eq]
  exact isSome_eachWordWithExe rule.ruleWord_of_mem rule.on trivial

theorem head_lowerAscii_beq {d : Byte} (h : isAlpha d = false) (text : Bytes) :
    ((text.map lowerAscii).head? == some d) = (text.head? == some d) := by
  cases text with
  | nil => rfl
  | cons c rest => exact lowerAscii_beq h c

theorem splitsSegment_lowerAscii (c : Byte) (rest : Bytes) :
    splitsSegment (lowerAscii c) (rest.map lowerAscii) = splitsSegment c rest := by
  simp only [splitsSegment]
  rw [lowerAscii_beq (by decide), lowerAscii_beq (by decide), lowerAscii_beq (by decide),
    lowerAscii_beq (by decide), head_lowerAscii_beq (by decide)]

theorem isDouble_lowerAscii (c : Byte) (rest : Bytes) :
    isDouble (lowerAscii c) (rest.map lowerAscii) = isDouble c rest := by
  simp only [isDouble]
  rw [lowerAscii_beq (by decide), lowerAscii_beq (by decide), head_lowerAscii_beq (by decide),
    head_lowerAscii_beq (by decide)]

theorem segmentsAfter_lowerAscii (skip : Bool) (text : Bytes) :
    segmentsAfter skip (text.map lowerAscii) =
      (segmentsAfter skip text).map (List.map lowerAscii) := by
  induction text generalizing skip with
  | nil => cases skip <;> rfl
  | cons c rest ih =>
    cases skip with
    | true => exact ih false
    | false =>
      rw [List.map_cons, segmentsAfter, segmentsAfter, splitsSegment_lowerAscii,
        isDouble_lowerAscii, ih, ih]
      split
      · rfl
      · obtain ⟨others, hothers⟩ := segmentsAfter_eq_cons rest
        rw [hothers]
        rfl

theorem newline_notMem_segment {skip : Bool} {seg : Bytes} (h : seg ∈ segmentsAfter skip text) :
    0x0A ∉ seg := by
  induction text generalizing skip seg with
  | nil => simp [List.mem_singleton.mp h]
  | cons c rest ih =>
    cases skip with
    | true => exact ih h
    | false =>
      rw [segmentsAfter] at h
      split at h
      · obtain rfl | hrest := List.mem_cons.mp h
        · exact List.not_mem_nil
        · exact ih hrest
      · next hsplit =>
          obtain ⟨others, hothers⟩ := segmentsAfter_eq_cons rest
          rw [hothers, List.modifyHead_cons] at h
          obtain rfl | hrest := List.mem_cons.mp h
          · rw [List.mem_cons, not_or]
            refine ⟨?_, ih (hothers ▸ List.mem_cons_self)⟩
            rintro rfl
            exact hsplit rfl
          · exact ih (hothers ▸ List.mem_cons_of_mem _ hrest)

/-- The segments alone are blocked where the text itself is searched, newlines and all. -/
theorem exists_blocks_iff (rule : Rule) (command : Bytes) :
    (∃ seg ∈ segments command, rule.blocks seg = true) ↔
      searchAtBoundary (stopsAt rule.words rule.on) false (command.map lowerAscii) = true := by
  have hone : ∀ seg ∈ segments command, rule.blocks seg =
      searchAtBoundary (stopsAt rule.words rule.on) false (seg.map lowerAscii) := by
    intro seg hseg
    have hlower : seg.map lowerAscii ∈ segmentsAfter false (command.map lowerAscii) := by
      rw [segmentsAfter_lowerAscii]
      exact List.mem_map_of_mem hseg
    rw [blocks_eq, joinLines_of_notMem (newline_notMem_segment hlower)]
  have hsegments : segments (command.map lowerAscii) =
      (segments command).map (List.map lowerAscii) := segmentsAfter_lowerAscii false command
  rw [← exists_segment_iff, hsegments]
  constructor
  · rintro ⟨seg, hseg, hblocks⟩
    exact ⟨seg.map lowerAscii, List.mem_map_of_mem hseg, (hone seg hseg).symm.trans hblocks⟩
  · rintro ⟨lower, hlower, hstop⟩
    obtain ⟨seg, hseg, rfl⟩ := List.mem_map.mp hlower
    exact ⟨seg, hseg, (hone seg hseg).trans hstop⟩

/-! ## What a line break hides -/

theorem readsAlike_joinLines : ReadsAlike fun s t => t = joinLines s where
  front {c s t} hc h := by
    have hne : c ≠ 0x0A := by
      rintro rfl
      exact absurd hc.isSpace (by decide)
    exact ⟨joinLines s, h.trans (joinLines_cons_of_ne hne s), rfl⟩
  back {c s t} hc h := by
    cases s with
    | nil => cases h
    | cons d s =>
      obtain ⟨hd, rfl⟩ := List.cons.inj h
      refine ⟨s, ?_, rfl⟩
      by_cases hnewline : d = 0x0A
      · rw [hd, hnewline] at hc
        exact absurd hc.isSpace (by decide)
      · rw [hd, joinByte_of_ne hnewline]

theorem splitsSegment_joinLines (c : Byte) (rest : Bytes) :
    splitsSegment c (joinLines rest) = splitsSegment c rest := by
  have hhead : ((joinLines rest).head? == some 0x26) = (rest.head? == some 0x26) := by
    cases rest with
    | nil => rfl
    | cons d rest =>
      by_cases hnewline : d = 0x0A
      · rw [hnewline]
        rfl
      · rw [joinLines_cons_of_ne hnewline]
        rfl
  rw [splitsSegment, splitsSegment, hhead]

/-- The tokens up to the end of the line come first. -/
theorem segmentTokens_prefix_joinLines (text : Bytes) :
    segmentTokens text <+: segmentTokens (joinLines text) := by
  have hafter : ∀ word : Bytes, wordsAfter isSpace word (segment text) <+:
      wordsAfter isSpace word (segment (joinLines text)) := by
    induction text with
    | nil => exact fun _ => List.prefix_rfl
    | cons c rest ih =>
      intro word
      by_cases hnewline : c = 0x0A
      · subst hnewline
        have hline : segment (0x0A :: rest) = [] := segment_cons 0x0A rest
        have hjoined : segment (joinLines (0x0A :: rest)) = 0x20 :: segment (joinLines rest) :=
          segment_cons 0x20 (joinLines rest)
        rw [hline, hjoined, wordsAfter_nil, wordsAfter_blank rfl]
        exact List.prefix_append _ _
      · rw [segment_cons, joinLines_cons_of_ne hnewline, segment_cons, splitsSegment_joinLines]
        split
        · exact List.prefix_rfl
        · cases hblank : isSpace c with
          | true =>
            rw [wordsAfter_blank hblank, wordsAfter_blank hblank]
            exact (List.prefix_append_right_inj _).mpr (ih [])
          | false =>
            rw [wordsAfter_letter hblank, wordsAfter_letter hblank]
            exact ih (word ++ [c])
  exact hafter []

/-- What a rule stops at, it also stops at with the lines joined. -/
theorem stopsAt_joinLines (h : stopsAt rule.words rule.on text = true) :
    stopsAt rule.words rule.on (joinLines text) = true := by
  rw [stopsAt, ← readsAlike_joinLines.matchWord_eq rfl rule.ruleWord_of_mem]
  rw [stopsAt] at h
  cases hmatch : matchWord rule.words text with
  | none =>
    rw [hmatch] at h
    cases h
  | some found =>
    obtain ⟨word, after⟩ := found
    rw [hmatch] at h
    dsimp only at h ⊢
    rw [readsAlike_joinLines.behind rfl rule.ruleWord_of_mem hmatch]
    exact rule.on_mono word (segmentTokens_prefix_joinLines _) h

theorem fires_iff :
    Fires rule text ↔ searchAtBoundary (stopsAt rule.words rule.on) false text = true := by
  have hboundary : ∀ before : Bytes,
      before.getLast?.elim false isWord = before.getLast?.any isWord := by
    intro before
    cases before.getLast? <;> rfl
  rw [searchAtBoundary_iff]
  constructor
  · rintro ⟨before, rest, word, after, rfl, hlast, hmatch, hstop⟩
    refine ⟨before, rest, rfl, ?_, (hboundary before).trans hlast,
      stopsAt_iff.mpr ⟨word, after, hmatch, hstop⟩⟩
    rintro rfl
    obtain ⟨hword, htry⟩ := matchWord_eq_some hmatch
    obtain ⟨suffix, tail, -, htext, -⟩ := tryWord_eq_some htry
    exact (rule.ruleWord_of_mem word hword).ne_nil (List.append_eq_nil_iff.mp htext.symm).1
  · rintro ⟨before, rest, rfl, -, hlast, hstop⟩
    obtain ⟨word, after, hmatch, hstop⟩ := stopsAt_iff.mp hstop
    exact ⟨before, rest, word, after, rfl, (hboundary before).symm.trans hlast, hmatch, hstop⟩

theorem fires_joinLines (h : Fires rule text) : Fires rule (joinLines text) := by
  rw [fires_iff, searchAtBoundary_iff] at h ⊢
  obtain ⟨before, rest, rfl, hne, hlast, hstop⟩ := h
  refine ⟨joinLines before, joinLines rest, List.map_append, mt List.map_eq_nil_iff.mp hne, ?_,
    stopsAt_joinLines hstop⟩
  rw [joinLines, List.getLast?_map]
  cases hbefore : before.getLast? with
  | none => rfl
  | some c =>
    rw [hbefore] at hlast
    exact isWord_joinByte hlast

/-- Two harmless lines: the `1` of the second is taken for a target of `kill`. -/
def killThenEcho : Bytes := ascii "kill 5\necho 1"

end KimixNative.Tools.ShellSafety
