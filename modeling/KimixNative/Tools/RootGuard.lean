import KimixNative.Tools.RuleWords

/-!
# Deleting the root

`rm_target_is_protected` takes a path for a spelling of the root when its components other
than the dots are nothing or a star. A path can also lead back to the root: its `..` may
remove named components. The guard is compared with the resolution of the path.
-/

namespace KimixNative.Tools.ShellSafety

open Text (ascii)

/-! ## Resolution -/

/-- `..` removes the last component, or nothing at the root. -/
def resolveStep (stack : List Bytes) (part : Bytes) : List Bytes :=
  if part = [] ∨ part = [0x2E] then stack
  else if part = [0x2E, 0x2E] then stack.dropLast
  else stack ++ [part]

/-- The components of a path after lexical normalisation. -/
def resolve (path : Bytes) : List Bytes := (components path).foldl resolveStep []

/-- A path that normalises to `/` or `/*`. -/
def IsRoot (path : Bytes) : Prop := resolve path = [] ∨ resolve path = [[0x2A]]

instance (path : Bytes) : Decidable (IsRoot path) := inferInstanceAs (Decidable (_ ∨ _))

/-- A path without components but dots and at most one star. -/
def RootSpelled (path : Bytes) : Prop :=
  ((components path).filter fun part => !isDots part) = [] ∨
    ((components path).filter fun part => !isDots part) = [[0x2A]]

instance (path : Bytes) : Decidable (RootSpelled path) := inferInstanceAs (Decidable (_ ∨ _))

variable {stack parts : List Bytes} {text target token : Bytes}

theorem resolveStep_dots {part : Bytes} (h : isDots part = true)
    (hstack : stack = [] ∨ stack = [[0x2A]]) :
    resolveStep stack part = [] ∨ resolveStep stack part = [[0x2A]] := by
  rw [resolveStep]
  split
  · exact hstack
  · split
    · obtain rfl | rfl := hstack
      · exact .inl rfl
      · exact .inl rfl
    · simp only [isDots, Bool.or_eq_true, beq_iff_eq] at h
      tauto

theorem foldl_resolveStep_dots (h : ∀ part ∈ parts, isDots part = true)
    (hstack : stack = [] ∨ stack = [[0x2A]]) :
    parts.foldl resolveStep stack = [] ∨ parts.foldl resolveStep stack = [[0x2A]] := by
  induction parts generalizing stack with
  | nil => exact hstack
  | cons part parts ih =>
    obtain ⟨hpart, hparts⟩ := List.forall_mem_cons.mp h
    exact ih hparts (resolveStep_dots hpart hstack)

theorem foldl_resolveStep_nil (h : ∀ part ∈ parts, isDots part = true) :
    parts.foldl resolveStep [] = [] := by
  induction parts with
  | nil => rfl
  | cons part parts ih =>
    obtain ⟨hpart, hparts⟩ := List.forall_mem_cons.mp h
    have hstep : resolveStep [] part = [] := by
      simp only [isDots, Bool.or_eq_true, beq_iff_eq] at hpart
      obtain (rfl | rfl) | rfl := hpart <;> rfl
    rw [List.foldl_cons, hstep, ih hparts]

variable {path : Bytes}

/-- Every spelling of the root leads to the root. -/
theorem RootSpelled.isRoot (h : RootSpelled path) : IsRoot path := by
  obtain hnone | hstar := h
  · refine .inl (foldl_resolveStep_nil fun part hpart => ?_)
    simpa using List.filter_eq_nil_iff.mp hnone part hpart
  · obtain ⟨before, after, hparts, hbefore, -, hafter⟩ := List.filter_eq_cons_iff.mp hstar
    have hfront := foldl_resolveStep_nil fun part hpart => by simpa using hbefore part hpart
    have hone : resolveStep [] [0x2A] = [[0x2A]] := rfl
    rw [IsRoot, resolve, hparts, List.foldl_append, hfront, List.foldl_cons, hone]
    refine foldl_resolveStep_dots (fun part hpart => ?_) (.inr rfl)
    simpa using List.filter_eq_nil_iff.mp hafter part hpart

variable {c : Byte} {rest : Bytes}

theorem mem_components (h : c ∈ path) : c = 0x2F ∨ ∃ part ∈ components path, c ∈ part := by
  induction path with
  | nil => cases h
  | cons d path ih =>
    rw [components, List.splitOn_cons_eq_if_modifyHead]
    obtain ⟨first, others, hparts⟩ := List.exists_cons_of_ne_nil (List.splitOn_ne_nil 0x2F path)
    split
    · next hslash =>
        obtain rfl | hmem := List.mem_cons.mp h
        · exact .inl (eq_of_beq hslash)
        · obtain heq | ⟨part, hpart, hc⟩ := ih hmem
          · exact .inl heq
          · exact .inr ⟨part, List.mem_cons_of_mem [] hpart, hc⟩
    · rw [hparts, List.modifyHead_cons]
      obtain rfl | hmem := List.mem_cons.mp h
      · exact .inr ⟨c :: first, List.mem_cons_self, List.mem_cons_self⟩
      · obtain heq | ⟨part, hpart, hc⟩ := ih hmem
        · exact .inl heq
        · rw [components, hparts] at hpart
          obtain rfl | hother := List.mem_cons.mp hpart
          · exact .inr ⟨d :: part, List.mem_cons_self, List.mem_cons_of_mem d hc⟩
          · exact .inr ⟨part, List.mem_cons_of_mem _ hother, hc⟩

/-- A spelling of the root is made of slashes, dots and stars. -/
theorem RootSpelled.bytes (h : RootSpelled path) : ∀ c ∈ path, c = 0x2F ∨ c = 0x2E ∨ c = 0x2A := by
  have hdots : ∀ part : Bytes, isDots part = true → ∀ c ∈ part, c = 0x2E := by
    intro part hpart c hc
    simp only [isDots, Bool.or_eq_true, beq_iff_eq] at hpart
    obtain (rfl | rfl) | rfl := hpart <;> simp at hc <;> exact hc
  intro c hc
  obtain hslash | ⟨part, hpart, hmem⟩ := mem_components hc
  · exact .inl hslash
  right
  cases hkind : isDots part with
  | true => exact .inl (hdots part hkind c hmem)
  | false =>
    have hfilter : part ∈ (components path).filter fun part => !isDots part :=
      List.mem_filter.mpr ⟨hpart, by rw [hkind]; rfl⟩
    obtain hnone | hstar := h
    · rw [hnone] at hfilter
      cases hfilter
    · rw [hstar, List.mem_singleton] at hfilter
      rw [hfilter, List.mem_singleton] at hmem
      exact .inr hmem

/-! ## The target as it is compared -/

theorem map_lowerAscii_of_bytes (h : ∀ c ∈ path, c = 0x2F ∨ c = 0x2E ∨ c = 0x2A) :
    path.map lowerAscii = path := by
  refine (List.map_congr_left fun c hc => ?_).trans (List.map_id path)
  obtain rfl | rfl | rfl := h c hc <;> rfl

theorem map_lowerAscii_eq_self_of_rootSpelled (h : RootSpelled (path.map lowerAscii)) :
    path.map lowerAscii = path := by
  refine map_lowerAscii_of_bytes fun c hc => ?_
  have hlower := h.bytes (lowerAscii c) (List.mem_map_of_mem hc)
  rwa [lowerAscii_eq_iff (by decide), lowerAscii_eq_iff (by decide), lowerAscii_eq_iff (by decide)]
    at hlower

theorem rootSpelled_map_lowerAscii : RootSpelled (path.map lowerAscii) ↔ RootSpelled path := by
  constructor
  · intro h
    rwa [map_lowerAscii_eq_self_of_rootSpelled h] at h
  · intro h
    rwa [map_lowerAscii_of_bytes h.bytes]

/-- Replacing `${home}` does nothing, or leaves an `h` where there was one. -/
theorem replaceAll_home (text : Bytes) :
    replaceAll (ascii "$\x7bhome\x7d") (ascii "$home") text = text ∨
      0x68 ∈ text ∧ 0x68 ∈ replaceAll (ascii "$\x7bhome\x7d") (ascii "$home") text := by
  induction text with
  | nil => exact .inl (replaceAll_nil _ _)
  | cons c text ih =>
    rw [replaceAll_cons]
    split
    · next hfound =>
        have hold : 0x68 ∈ ascii "$\x7bhome\x7d" := by decide
        have hnew : 0x68 ∈ ascii "$home" := by decide
        exact .inr ⟨hfound.subset hold, List.mem_append_left _ hnew⟩
    · obtain hsame | ⟨hmem, hmem'⟩ := ih
      · exact .inl (by rw [hsame])
      · exact .inr ⟨List.mem_cons_of_mem c hmem, List.mem_cons_of_mem c hmem'⟩

theorem rootSpelled_replaceAll_home :
    RootSpelled (replaceAll (ascii "$\x7bhome\x7d") (ascii "$home") text) ↔ RootSpelled text := by
  have hplain : ∀ {path : Bytes}, RootSpelled path → 0x68 ∉ path := by
    intro path hpath hmem
    obtain heq | heq | heq := hpath.bytes _ hmem <;> cases heq
  obtain hsame | ⟨hmem, hmem'⟩ := replaceAll_home text
  · rw [hsame]
  · exact iff_of_false (fun h => hplain h hmem') fun h => hplain h hmem

theorem strip_eq_self {p : Byte → Bool} (h : ∀ c ∈ text, p c = false) :
    (text.dropWhile p).rdropWhile p = text := by
  have hfront : text.dropWhile p = text := by
    cases text with
    | nil => rfl
    | cons c text => rw [List.dropWhile_cons_of_neg (by simp [h c List.mem_cons_self])]
  rw [hfront, List.rdropWhile_eq_self_iff]
  intro hne
  simp [h _ (List.getLast_mem hne)]

theorem protectedForm_of_unquoted (h : ∀ c ∈ target, isSpace c = false ∧ isQuote c = false) :
    protectedForm target =
      replaceAll (ascii "$\x7bhome\x7d") (ascii "$home") (target.map lowerAscii) := by
  rw [protectedForm, stripView, strip_eq_self fun c hc => (h c hc).1,
    strip_eq_self fun c hc => (h c hc).2]

theorem isRootSpelling_iff (rest : Bytes) :
    isRootSpelling (0x2F :: rest) = true ↔ RootSpelled (0x2F :: rest) := by
  have hparts : components (0x2F :: rest) = [] :: components rest := by
    rw [components, List.splitOn_cons_eq_if_modifyHead]
    rfl
  have hfilter : ((components (0x2F :: rest)).filter fun part => !isDots part) =
      (components rest).filter fun part => !isDots part := by
    rw [hparts]
    exact List.filter_cons_of_neg (by decide)
  have hspelling : isRootSpelling (0x2F :: rest) =
      (((components rest).filter fun part => !isDots part) == [] ||
        ((components rest).filter fun part => !isDots part) == [[0x2A]]) := rfl
  rw [RootSpelled, hfilter, hspelling, Bool.or_eq_true, beq_iff_eq, beq_iff_eq]

/-- An absolute path is neither a home directory nor a drive. -/
theorem isDriveRoot_slash (rest : Bytes) : isDriveRoot (0x2F :: rest) = false := by
  rw [isDriveRoot.eq_def]
  split
  · next heq =>
      obtain ⟨rfl, -⟩ := List.cons.inj heq
      rfl
  · rfl

theorem rdropWhile_isSep_slash {home : Bytes} (hc : c ≠ 0x2F) :
    ((0x2F :: rest : Bytes).rdropWhile isSep == c :: home) = false := by
  refine beq_eq_false_iff_ne.mpr fun heq => hc ?_
  have hpre := List.rdropWhile_prefix isSep (0x2F :: rest)
  rw [heq] at hpre
  exact (List.cons_prefix_cons.mp hpre).1

/-- An absolute path is protected if it spells the root. -/
theorem rmTargetIsProtected_iff
    (h : ∀ c ∈ (0x2F :: rest : Bytes), isSpace c = false ∧ isQuote c = false) :
    rmTargetIsProtected (0x2F :: rest) = true ↔ RootSpelled (0x2F :: rest) := by
  have hform : ∃ rest', protectedForm (0x2F :: rest) = 0x2F :: rest' := by
    refine ⟨replaceAll (ascii "$\x7bhome\x7d") (ascii "$home") (rest.map lowerAscii), ?_⟩
    rw [protectedForm_of_unquoted h, List.map_cons, replaceAll_cons, if_neg]
    · rfl
    · exact fun hpre => absurd (List.cons_prefix_cons.mp hpre).1 (by decide)
  have hspelled : RootSpelled (protectedForm (0x2F :: rest)) ↔ RootSpelled (0x2F :: rest) := by
    rw [protectedForm_of_unquoted h, rootSpelled_replaceAll_home, rootSpelled_map_lowerAscii]
  obtain ⟨rest', hform⟩ := hform
  have hhome : ascii "$home" = 0x24 :: ascii "home" := rfl
  rw [← hspelled, hform, ← isRootSpelling_iff, rmTargetIsProtected, hform, hhome]
  simp only [isDriveRoot_slash, rdropWhile_isSep_slash (show (0x7E : Byte) ≠ 0x2F by decide),
    rdropWhile_isSep_slash (show (0x24 : Byte) ≠ 0x2F by decide), Bool.false_or]

/-! ## Words that are no targets -/

theorem colon_mem_of_isDriveRoot {t : Bytes} (h : isDriveRoot t = true) : 0x3A ∈ t := by
  rw [isDriveRoot.eq_def] at h
  split at h
  · simp
  · cases h

theorem slash_mem_of_isRootSpelling {t : Bytes} (h : isRootSpelling t = true) : 0x2F ∈ t := by
  rw [isRootSpelling.eq_def] at h
  split at h
  · simp
  · cases h

/-- The bytes without which nothing is protected. -/
def targetBytes : Bytes := [0x2F, 0x7E, 0x24, 0x3A]

theorem exists_targetByte (h : rmTargetIsProtected token = true) :
    ∃ c ∈ token, c ∈ targetBytes := by
  by_contra hnone
  have hbytes : ∀ c ∈ (((stripView token).dropWhile isQuote).rdropWhile isQuote).map lowerAscii,
      c ∉ targetBytes := by
    intro c hc hspecial
    obtain ⟨d, hd, rfl⟩ := List.mem_map.mp hc
    have hmem : d ∈ token := by
      have hd := (List.dropWhile_sublist _).subset ((List.rdropWhile_prefix _ _).subset hd)
      exact (List.dropWhile_sublist _).subset ((List.rdropWhile_prefix _ _).subset hd)
    refine hnone ⟨d, hmem, ?_⟩
    simp only [targetBytes, List.mem_cons, List.not_mem_nil, or_false] at hspecial ⊢
    rwa [lowerAscii_eq_iff (by decide), lowerAscii_eq_iff (by decide), lowerAscii_eq_iff (by decide),
      lowerAscii_eq_iff (by decide)] at hspecial
  generalize hform : (((stripView token).dropWhile isQuote).rdropWhile isQuote).map lowerAscii = t
    at hbytes
  have hdollar : 0x24 ∉ t := fun hmem => hbytes _ hmem (by simp [targetBytes])
  have hsame : protectedForm token = t := by
    rw [protectedForm, hform]
    exact replaceAll_of_notMem hdollar _ _
  rw [rmTargetIsProtected, hsame] at h
  simp only [Bool.or_eq_true, beq_iff_eq] at h
  have hpre := (List.rdropWhile_prefix isSep t).subset
  obtain ((hhome | hhome) | hdrive) | hroot := h
  · rw [hhome] at hpre
    exact hbytes 0x7E (hpre (by simp)) (by simp [targetBytes])
  · rw [hhome] at hpre
    exact hdollar (hpre (by decide))
  · exact hbytes 0x3A (colon_mem_of_isDriveRoot hdrive) (by simp [targetBytes])
  · exact hbytes 0x2F (slash_mem_of_isRootSpelling hroot) (by simp [targetBytes])

/-! ## The commands -/

/-- The bytes of option words. -/
def isOptionByte (c : Byte) : Bool := isWord c || c == 0x2D || c == 0x3D

/-- A word such as `-rf`, `--force` or `--interactive=never`. -/
def IsOption (word : Bytes) : Prop :=
  word.head? = some 0x2D ∧ 2 ≤ word.length ∧ ∀ c ∈ word, isOptionByte c = true

instance (word : Bytes) : Decidable (IsOption word) := inferInstanceAs (Decidable (_ ∧ _))

/-- A byte that ends a command. -/
def isSeparator (c : Byte) : Bool := c == 0x3B || c == 0x7C || c == 0x0A || c == 0x26

/-- An `rm` of an absolute path, written without quotes. -/
structure RmCommand where
  text : Bytes
  flags : List Bytes
  target : Bytes
  spelled : words isSpace text = wordRm :: (flags ++ [target])
  options : ∀ w ∈ flags, IsOption w
  armed : ∃ w ∈ flags, ∃ c ∈ w, lowerAscii c = 0x72 ∨ lowerAscii c = 0x66
  absolute : target.head? = some 0x2F
  unquoted : ∀ c ∈ target, isQuote c = false ∧ isSeparator c = false

/-- The command is blocked if it deletes the root, and no other path is protected. -/
def GuardsRoot (cmd : RmCommand) : Prop :=
  (IsRoot cmd.target → (detectHardlineCommand cmd.text).blocked = true) ∧
    (¬IsRoot cmd.target → rmTargetIsProtected cmd.target = false)

theorem blocked_iff {command : Bytes} (h : words isSpace command ≠ []) :
    (detectHardlineCommand command).blocked = true ↔
      (detectRecursiveDelete (collapseLower command)).isSome = true ∨
        ∃ rule ∈ laterRules, (rule (collapseLower command)).isSome = true := by
  have hspace : ¬command.all isSpace = true := by
    intro hall
    have hgap := words_append_of_blanks (List.all_eq_true.mp hall) []
    rw [List.append_nil, words_nil] at hgap
    exact h hgap
  have hfound : (detectHardlineCommand command).blocked = true ↔
      ((detectRecursiveDelete :: laterRules).findSome? (· (collapseLower command))).isSome := by
    rw [detectHardlineCommand, if_neg hspace]
    cases (detectRecursiveDelete :: laterRules).findSome? (· (collapseLower command)) <;> simp
  rw [hfound, List.findSome?_isSome_iff, List.exists_mem_cons_iff]

namespace RmCommand

variable (cmd : RmCommand)

/-- The words of the collapsed command in front of the target. -/
def frontWords : List Bytes := wordRm :: cmd.flags.map (List.map lowerAscii)

theorem frontWords_ne_nil : cmd.frontWords ≠ [] := List.cons_ne_nil _ _

def loweredTarget : Bytes := cmd.target.map lowerAscii

theorem target_ne_nil : cmd.target ≠ [] := by
  intro hnil
  have habsolute := cmd.absolute
  rw [hnil] at habsolute
  cases habsolute

theorem isSpace_target : ∀ c ∈ cmd.target, isSpace c = false := by
  have hmem : cmd.target ∈ words isSpace cmd.text := by simp [cmd.spelled]
  exact fun c hc => (mem_of_mem_words hmem hc).2

theorem collapseLower_eq :
    collapseLower cmd.text = unwords 0x20 cmd.frontWords ++ 0x20 :: cmd.loweredTarget := by
  have hwords : (words isSpace cmd.text).map (List.map lowerAscii) =
      cmd.frontWords ++ [cmd.loweredTarget] := by
    rw [cmd.spelled]
    simp [frontWords, loweredTarget, wordRm, lowerAscii, ascii]
  rw [collapseLower, hwords, unwords_concat 0x20 cmd.frontWords_ne_nil]

theorem isOptionByte_lowerAscii (h : isOptionByte c = true) :
    isOptionByte (lowerAscii c) = true := by
  revert c
  decide

theorem isOptionByte_of_mem_frontWords {w : Bytes} (hw : w ∈ cmd.frontWords) :
    ∀ c ∈ w, isOptionByte c = true := by
  obtain rfl | hflag := List.mem_cons.mp hw
  · decide
  · obtain ⟨flag, hmem, rfl⟩ := List.mem_map.mp hflag
    intro c hc
    obtain ⟨d, hd, rfl⟩ := List.mem_map.mp hc
    exact isOptionByte_lowerAscii ((cmd.options flag hmem).2.2 d hd)

theorem mem_front (h : c ∈ unwords 0x20 cmd.frontWords) : c = 0x20 ∨ isOptionByte c = true := by
  obtain heq | ⟨w, hw, hc⟩ := mem_unwords h
  · exact .inl heq
  · exact .inr (cmd.isOptionByte_of_mem_frontWords hw c hc)

theorem isSpace_loweredTarget : ∀ c ∈ cmd.loweredTarget, isSpace c = false := by
  intro c hc
  obtain ⟨d, hd, rfl⟩ := List.mem_map.mp hc
  rw [isSpace_lowerAscii, cmd.isSpace_target d hd]

/-- The collapsed command is one segment. -/
theorem splitsSegment_collapseLower :
    ∀ c ∈ collapseLower cmd.text, ∀ rest, splitsSegment c rest = false := by
  have hsplit : ∀ c : Byte, isSeparator c = false → ∀ rest, splitsSegment c rest = false := by
    intro c hc rest
    simp only [isSeparator, Bool.or_eq_false_iff] at hc
    simp only [splitsSegment, hc, Bool.or_self, Bool.false_and]
  have hlower : ∀ c : Byte, isSeparator (lowerAscii c) = isSeparator c := fun c => by
    simp (disch := decide) only [isSeparator, lowerAscii_beq]
  have hoption : ∀ c : Byte, isOptionByte c = true → isSeparator c = false := fun c hc => by
    simp (disch := decide) only [isSeparator, beq_eq_false hc, Bool.or_self]
  intro c hc
  refine hsplit c ?_
  rw [cmd.collapseLower_eq] at hc
  obtain hfront | htarget := List.mem_append.mp hc
  · obtain rfl | hbyte := cmd.mem_front hfront
    · rfl
    · exact hoption c hbyte
  · obtain rfl | hmem := List.mem_cons.mp htarget
    · rfl
    · obtain ⟨d, hd, rfl⟩ := List.mem_map.mp hmem
      rw [hlower]
      exact (cmd.unquoted d hd).2

theorem segmentTokens_of_suffix (h : rest <:+ collapseLower cmd.text) :
    segmentTokens rest = words isSpace rest := by
  have hone := segment_append
    (fun c hc => cmd.splitsSegment_collapseLower c (h.subset hc)) []
  rw [List.append_nil, segment_nil, List.append_nil] at hone
  rw [segmentTokens, hone]

theorem rmTargetIsProtected_target :
    rmTargetIsProtected cmd.target = true ↔ RootSpelled cmd.target := by
  have hbytes : ∀ c ∈ cmd.target, isSpace c = false ∧ isQuote c = false :=
    fun c hc => ⟨cmd.isSpace_target c hc, (cmd.unquoted c hc).1⟩
  obtain ⟨rest, htarget⟩ := List.head?_eq_some_iff.mp cmd.absolute
  rw [htarget] at hbytes ⊢
  exact rmTargetIsProtected_iff hbytes

theorem rmTargetIsProtected_loweredTarget :
    rmTargetIsProtected cmd.loweredTarget = true ↔ RootSpelled cmd.target := by
  have hquote : ∀ d : Byte, isQuote (lowerAscii d) = isQuote d := fun d => by
    simp (disch := decide) only [isQuote, lowerAscii_beq]
  have hbytes : ∀ c ∈ cmd.loweredTarget, isSpace c = false ∧ isQuote c = false := by
    intro c hc
    refine ⟨cmd.isSpace_loweredTarget c hc, ?_⟩
    obtain ⟨d, hd, rfl⟩ := List.mem_map.mp hc
    rw [hquote, (cmd.unquoted d hd).1]
  obtain ⟨rest, htarget⟩ := List.head?_eq_some_iff.mp cmd.absolute
  have hlower : cmd.loweredTarget = 0x2F :: rest.map lowerAscii := by
    rw [loweredTarget, htarget]
    rfl
  rw [← rootSpelled_map_lowerAscii]
  change _ ↔ RootSpelled cmd.loweredTarget
  rw [hlower] at hbytes ⊢
  exact rmTargetIsProtected_iff hbytes

theorem looksLikeFlag_option {word : Bytes} (h : IsOption word) :
    looksLikeFlag (word.map lowerAscii) = true := by
  obtain ⟨hhead, hlen, -⟩ := h
  match word with
  | [] => cases hhead
  | [_] => simp at hlen
  | c :: d :: rest =>
    obtain rfl := Option.some.inj hhead
    rfl

variable {tokens : List Bytes}

theorem collectFlags_of_mem (hmem : token ∈ tokens) (hflag : looksLikeFlag token = true)
    {flag : Byte} (hbyte : flag ∈ token) (hkind : flag = 0x72 ∨ flag = 0x66) :
    collectFlags tokens flag = true := by
  refine List.any_eq_true.mpr ⟨token, hmem, ?_⟩
  have hcore : flag ∈ token.dropWhile fun c => c == 0x2D || c == 0x2F := by
    rw [← List.takeWhile_append_dropWhile (p := fun c => c == 0x2D || c == 0x2F) (l := token)]
      at hbyte
    obtain hdash | hcore := List.mem_append.mp hbyte
    · have hdash := List.mem_takeWhile_imp hdash
      obtain rfl | rfl := hkind <;> cases hdash
    · exact hcore
  simp only [hflag, Bool.true_and, List.contains_iff_mem.mpr hcore, Bool.and_true,
    Bool.or_eq_true, beq_iff_eq]
  tauto

/-- A spelling of the root is no flag. -/
theorem looksLikeFlag_of_rootSpelled (habsolute : target.head? = some 0x2F) (h : RootSpelled target) :
    looksLikeFlag target = false := by
  match target with
  | [] => rfl
  | [_] => rfl
  | c :: d :: rest =>
    obtain rfl := Option.some.inj habsolute
    have hd := h.bytes d (by simp)
    obtain rfl | rfl | rfl := hd <;> rfl

theorem deleteTarget_isSome_iff {cmd : Bytes} :
    (deleteTarget cmd tokens).isSome = true ↔
      ShellSafety.armed cmd (collectFlags tokens) = true ∧
        ∃ token ∈ tokens, looksLikeFlag token = false ∧ rmTargetIsProtected token = true := by
  rw [deleteTarget]
  split
  · next harmed =>
      rw [List.findSome?_isSome_iff]
      refine ⟨fun h => ⟨harmed, ?_⟩, fun h => ?_⟩
      · obtain ⟨token, hmem, hsome⟩ := h
        refine ⟨token, hmem, ?_⟩
        split at hsome
        · cases hsome
        · next hflag =>
            split at hsome
            · next hprotected => exact ⟨by simpa using hflag, hprotected⟩
            · cases hsome
      · obtain ⟨-, token, hmem, hflag, hprotected⟩ := h
        refine ⟨token, hmem, ?_⟩
        rw [if_neg (by simp [hflag]), if_pos hprotected]
        rfl
  · next harmed => simp [harmed]

theorem exists_flag_of_armed {cmd : Bytes} (h : ShellSafety.armed cmd (collectFlags tokens) = true) :
    ∃ token ∈ tokens, looksLikeFlag token = true := by
  have hflag : ∃ flag, collectFlags tokens flag = true := by
    rw [ShellSafety.armed] at h
    split at h <;> grind
  obtain ⟨flag, hflag⟩ := hflag
  obtain ⟨token, hmem, htoken⟩ := List.any_eq_true.mp hflag
  exact ⟨token, hmem, (Bool.and_eq_true_iff.mp htoken).1⟩

theorem isSpace_of_isOptionByte (h : isOptionByte c = true) : isSpace c = false := by
  simp (disch := decide) only [isSpace, beq_eq_false h, Bool.or_self]

/-- A spelling of the root stops the rule. -/
theorem stopsAt_of_rootSpelled (h : RootSpelled cmd.target) :
    stopsAt deleteWords deleteTarget (collapseLower cmd.text) = true := by
  have hlower : cmd.loweredTarget = cmd.target := map_lowerAscii_of_bytes h.bytes
  have hprotected := cmd.rmTargetIsProtected_target.mpr h
  obtain ⟨flag, hflag, c, hc, hkind⟩ := cmd.armed
  have hfront : ∀ w ∈ cmd.flags.map (List.map lowerAscii),
      w ≠ [] ∧ ∀ a ∈ w, isSpace a = false := by
    intro w hw
    refine ⟨?_, fun a ha => isSpace_of_isOptionByte
      (cmd.isOptionByte_of_mem_frontWords (List.mem_cons_of_mem _ hw) a ha)⟩
    obtain ⟨v, hv, rfl⟩ := List.mem_map.mp hw
    have hlen := (cmd.options v hv).2.1
    exact List.ne_nil_of_length_pos (by rw [List.length_map]; omega)
  -- the text is the word, a blank and the words of the tokens
  have hsplit : ∃ tail, collapseLower cmd.text = wordRm ++ 0x20 :: tail ∧
      words isSpace tail = cmd.flags.map (List.map lowerAscii) ++ [cmd.target] := by
    refine ⟨unwords 0x20 (cmd.flags.map (List.map lowerAscii)) ++ 0x20 :: cmd.target, ?_, ?_⟩
    · rw [cmd.collapseLower_eq, hlower, frontWords]
      obtain ⟨f, fs, hflags⟩ := List.exists_cons_of_ne_nil (List.ne_nil_of_mem hflag)
      rw [hflags, List.map_cons, unwords, List.append_assoc, List.cons_append]
    · rw [words_append rfl, words_unwords rfl hfront,
        words_word cmd.isSpace_target cmd.target_ne_nil]
  obtain ⟨tail, htext, hwords⟩ := hsplit
  have htokens : segmentTokens (0x20 :: tail) =
      cmd.flags.map (List.map lowerAscii) ++ [cmd.target] := by
    rw [cmd.segmentTokens_of_suffix (htext ▸ List.suffix_append _ _), words_cons_blank rfl, hwords]
  have harmed : collectFlags (cmd.flags.map (List.map lowerAscii) ++ [cmd.target])
      (lowerAscii c) = true := by
    have hmem : flag.map lowerAscii ∈ cmd.flags.map (List.map lowerAscii) ++ [cmd.target] :=
      List.mem_append_left _ (List.mem_map_of_mem hflag)
    exact collectFlags_of_mem hmem (looksLikeFlag_option (cmd.options flag hflag))
      (List.mem_map_of_mem hc) hkind
  rw [stopsAt_iff]
  refine ⟨wordRm, 2, by rw [htext]; rfl, ?_⟩
  have hdrop : (collapseLower cmd.text).drop 2 = 0x20 :: tail := by
    rw [htext]
    rfl
  rw [hdrop, htokens, deleteTarget_isSome_iff]
  refine ⟨?_, cmd.target, by simp, looksLikeFlag_of_rootSpelled cmd.absolute h, hprotected⟩
  rw [ShellSafety.armed, if_pos rfl, Bool.or_eq_true]
  obtain hr | hf := hkind
  · exact .inl (hr ▸ harmed)
  · exact .inr (hf ▸ harmed)

/-- Only the target can stop the rule. -/
theorem rootSpelled_of_stopsAt (hrest : rest <:+ collapseLower cmd.text)
    (h : stopsAt deleteWords deleteTarget rest = true) : RootSpelled cmd.target := by
  obtain ⟨word, after, -, hsome⟩ := stopsAt_iff.mp h
  have hsuffix := (List.drop_suffix after rest).trans hrest
  rw [cmd.segmentTokens_of_suffix hsuffix] at hsome
  obtain ⟨harmed, token, hmem, hflag, hprotected⟩ := deleteTarget_isSome_iff.mp hsome
  rw [cmd.collapseLower_eq] at hsuffix
  generalize rest.drop after = tail at *
  -- a match in front of the target: no token but the target has the bytes it takes
  have hfrontMatch : ∀ middle : Bytes, (∀ c ∈ middle, c ∈ unwords 0x20 cmd.frontWords) →
      tail = middle ++ 0x20 :: cmd.loweredTarget → RootSpelled cmd.target := by
    intro middle hmiddle htail
    have hne : cmd.loweredTarget ≠ [] := mt List.map_eq_nil_iff.mp cmd.target_ne_nil
    rw [htail, words_append rfl, words_word cmd.isSpace_loweredTarget hne] at hmem
    obtain hmem | hmem := List.mem_append.mp hmem
    · obtain ⟨c, hc, htarget⟩ := exists_targetByte hprotected
      obtain ⟨hc, hletter⟩ := mem_of_mem_words hmem hc
      have hbytes : ∀ c ∈ targetBytes, isSpace c = false → c ≠ 0x20 ∧ isOptionByte c = false := by
        decide
      obtain ⟨hblank, hoption⟩ := hbytes c htarget hletter
      obtain heq | heq := cmd.mem_front (hmiddle c hc)
      · exact absurd heq hblank
      · rw [hoption] at heq
        cases heq
    · rw [List.mem_singleton.mp hmem] at hprotected
      exact cmd.rmTargetIsProtected_loweredTarget.mp hprotected
  obtain ⟨front, hfront⟩ := hsuffix
  obtain ⟨middle, hmiddle, htail⟩ | ⟨middle, -, htail⟩ := List.append_eq_append_iff.mp hfront
  · exact hfrontMatch middle (fun c hc => hmiddle ▸ List.mem_append_right front hc) htail
  · cases middle with
    | nil => exact hfrontMatch [] (fun c hc => absurd hc List.not_mem_nil) htail.symm
    | cons d middle =>
      -- a match inside the target: its only token is no flag
      obtain ⟨-, htarget⟩ := List.cons.inj htail
      have hletters : ∀ c ∈ tail, isSpace c = false :=
        fun c hc => cmd.isSpace_loweredTarget c (htarget ▸ List.mem_append_right middle hc)
      rw [words_letters hletters] at hmem harmed
      obtain ⟨other, hother, hotherFlag⟩ := exists_flag_of_armed harmed
      rw [closeWord] at hmem hother
      split at hmem
      · cases hmem
      · rw [List.mem_singleton.mp hmem] at hflag
        rw [if_neg ‹_›, List.mem_singleton] at hother
        rw [hother, hflag] at hotherFlag
        cases hotherFlag

/-- The rule stops at a command exactly if its target spells the root. -/
theorem blocked_iff_rootSpelled :
    (detectHardlineCommand cmd.text).blocked = true ↔ RootSpelled cmd.target ∨
      ∃ rule ∈ laterRules, (rule (collapseLower cmd.text)).isSome = true := by
  have hwords : words isSpace cmd.text ≠ [] := by
    rw [cmd.spelled]
    exact List.cons_ne_nil _ _
  have hrules : ∀ w ∈ deleteWords, RuleWord w := by decide
  have hstart : Inside deleteWords false 0 (collapseLower cmd.text) := trivial
  rw [blocked_iff hwords, detectRecursiveDelete,
    isSome_eachWordWithExe hrules deleteTarget hstart, searchAtBoundary_iff]
  refine or_congr_left ⟨?_, fun h => ?_⟩
  · rintro ⟨before, rest, htext, -, -, hstop⟩
    exact cmd.rootSpelled_of_stopsAt (htext ▸ List.suffix_append before rest) hstop
  · refine ⟨[], collapseLower cmd.text, rfl, ?_, rfl, cmd.stopsAt_of_rootSpelled h⟩
    rw [cmd.collapseLower_eq]
    simp

end RmCommand

/-- The guard is right about a command exactly if the target is no detour to the root, or
another rule blocks the command. -/
theorem guardsRoot_iff (cmd : RmCommand) :
    GuardsRoot cmd ↔ (IsRoot cmd.target → RootSpelled cmd.target ∨
      ∃ rule ∈ laterRules, (rule (collapseLower cmd.text)).isSome = true) := by
  rw [GuardsRoot, cmd.blocked_iff_rootSpelled]
  refine ⟨And.left, fun h => ⟨h, fun hother => ?_⟩⟩
  rw [← Bool.not_eq_true, cmd.rmTargetIsProtected_target]
  exact fun hspelled => hother hspelled.isRoot

/-- `rm -rf /a/..`. -/
def rmDetour : RmCommand where
  text := ascii "rm -rf /a/.."
  flags := [ascii "-rf"]
  target := ascii "/a/.."
  spelled := by decide
  options := by decide
  armed := by decide
  absolute := by decide
  unquoted := by decide

/-- It deletes the root and is not blocked. -/
theorem not_guardsRoot_rmDetour : ¬GuardsRoot rmDetour := by
  have hspelled : ¬RootSpelled rmDetour.target := by decide
  have hlater : ¬∃ rule ∈ laterRules, (rule (collapseLower rmDetour.text)).isSome = true := by
    decide
  rintro ⟨hblocks, -⟩
  obtain h | h := rmDetour.blocked_iff_rootSpelled.mp (hblocks (by decide))
  · exact hspelled h
  · exact hlater h

end KimixNative.Tools.ShellSafety
