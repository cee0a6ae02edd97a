import KimixNative.Lib.Search
import KimixNative.Tools.LineHash
import Mathlib.Data.List.GetD

/-!
# Finding a text in the lines of a file

`find_in_file` searches each line, its terminator included, with the shifts of Boyer, Moore and
Horspool on folded bytes. It reports every place of every line at which the folded needle occurs.
-/

namespace KimixNative.Tools

open Text

/-- `fold_ascii`. -/
def foldAscii (c : Byte) : Byte := if 0x41 ≤ c.toNat ∧ c.toNat ≤ 0x5A then c + 32 else c

/-- A byte as the search compares it. -/
def foldByte (caseInsensitive : Bool) (c : Byte) : Byte :=
  if caseInsensitive then foldAscii c else c

/-- `find_match`. -/
structure FindMatch where
  lineIndex : Nat
  col : Nat
  length : Nat
  deriving DecidableEq, Repr

/-- The table of bad characters after the first places of the folded needle: a later place
overwrites an earlier one. -/
def badcharUpTo (nf : Bytes) : Nat → Byte → Nat
  | 0 => fun _ => nf.length % 2 ^ 32
  | i + 1 => Function.update (badcharUpTo nf i) (nf.getD i 0) ((nf.length - 1 - i) % 2 ^ 32)

/-- `badchar`, which leaves out the last place. -/
def badchar (nf : Bytes) : Byte → Nat := badcharUpTo nf (nf.length - 1)

/-- The comparison from the end: how many bytes are left when it stops. -/
def compareLoop (base nf : Bytes) (pos : Nat) : Nat → Nat
  | 0 => 0
  | k + 1 => if base.getD (pos + k) 0 ≠ nf.getD k 0 then k + 1 else compareLoop base nf pos k

/-- The search for the next occurrence from `pos` on, over the folded line. -/
def scanFrom (base nf : Bytes) : Nat → Nat → Option Nat
  | fuel + 1, pos =>
    if pos + nf.length ≤ base.length then
      if compareLoop base nf pos nf.length = 0 then some pos
      else
        let shift := badchar nf (base.getD (pos + nf.length - 1) 0)
        scanFrom base nf fuel (pos + if shift = 0 then 1 else shift)
    else none
  | 0, _ => none

/-- The loop over the occurrences in a line, resumed one place behind each. -/
def occurrencesFrom (base nf : Bytes) : Nat → Nat → List Nat
  | fuel + 1, start =>
    if start + nf.length ≤ base.length then
      match scanFrom base nf (base.length + 1) start with
      | some pos => pos :: occurrencesFrom base nf fuel (pos + 1)
      | none => []
    else []
  | 0, _ => []

/-- The matches in one line. -/
def lineMatches (caseInsensitive : Bool) (nf : Bytes) (lineIndex : Nat) (line : Bytes) :
    List FindMatch :=
  if nf.length = 0 then
    (List.range (line.length + 1)).map fun c =>
      { lineIndex, col := c % 2 ^ 32, length := 0 }
  else
    (occurrencesFrom (line.map (foldByte caseInsensitive)) nf (line.length + 1) 0).map fun pos =>
      { lineIndex, col := pos % 2 ^ 32, length := nf.length % 2 ^ 32 }

/-- The lines of a file with their terminators; `line` has been read. -/
def fileLinesFrom : Bytes → Bytes → List Bytes
  | line, [] => if line = [] then [] else [line]
  | line, c :: rest =>
    if c = newline then (line ++ [c]) :: fileLinesFrom [] rest
    else fileLinesFrom (line ++ [c]) rest

def fileLines (content : Bytes) : List Bytes := fileLinesFrom [] content

/-- The loop over the lines. -/
def findInLines (caseInsensitive : Bool) (nf : Bytes) : Nat → List Bytes → List FindMatch
  | _, [] => []
  | lineIndex, line :: rest =>
    lineMatches caseInsensitive nf lineIndex line ++
      findInLines caseInsensitive nf ((lineIndex + 1) % 2 ^ 32) rest

/-- `find_in_file`. -/
def findInFile (content needle : Bytes) (caseInsensitive : Bool) : List FindMatch :=
  findInLines caseInsensitive (needle.map (foldByte caseInsensitive)) 0 (fileLines content)

/-! ### The lines of a file -/

theorem flatten_fileLinesFrom (line content : Bytes) :
    (fileLinesFrom line content).flatten = line ++ content := by
  induction content generalizing line with
  | nil =>
    rw [fileLinesFrom]
    split
    · rename_i hnil
      rw [hnil]
      rfl
    · simp
  | cons c rest ih =>
    rw [fileLinesFrom]
    split
    · rw [List.flatten_cons, ih, List.nil_append, List.append_assoc, List.singleton_append]
    · rw [ih, List.append_assoc, List.singleton_append]

/-- No line is empty, and a newline stands at the end of a line only. -/
theorem line_of_mem_fileLinesFrom {line content l : Bytes} (hline : newline ∉ line)
    (h : l ∈ fileLinesFrom line content) :
    l ≠ [] ∧ newline ∉ l.dropLast := by
  induction content generalizing line with
  | nil =>
    rw [fileLinesFrom] at h
    split at h
    · cases h
    · rename_i hne
      obtain rfl := List.mem_singleton.mp h
      exact ⟨hne, fun hmem => hline (List.mem_of_mem_dropLast hmem)⟩
  | cons c rest ih =>
    rw [fileLinesFrom] at h
    split at h
    · rcases List.mem_cons.mp h with rfl | h
      · rw [List.dropLast_concat]
        exact ⟨List.append_ne_nil_of_right_ne_nil _ (List.cons_ne_nil _ _), hline⟩
      · exact ih List.not_mem_nil h
    · rename_i hc
      refine ih ?_ h
      rw [List.mem_append, List.mem_singleton]
      rintro (hmem | heq)
      · exact hline hmem
      · exact hc heq.symm

theorem length_fileLines_le (content : Bytes) : (fileLines content).length ≤ content.length := by
  have hsum : ∀ lines : List Bytes, (∀ l ∈ lines, l ≠ []) → lines.length ≤ lines.flatten.length := by
    intro lines
    induction lines with
    | nil => exact fun _ => Nat.le_refl 0
    | cons line rest ih =>
      intro h
      obtain ⟨hline, hrest⟩ := List.forall_mem_cons.mp h
      have := List.length_pos_iff.mpr hline
      have := ih hrest
      rw [List.length_cons, List.flatten_cons, List.length_append]
      omega
  have hlines := hsum (fileLines content)
    fun l hl => (line_of_mem_fileLinesFrom List.not_mem_nil hl).1
  rw [fileLines, flatten_fileLinesFrom, List.nil_append] at hlines
  exact hlines

theorem length_le_of_mem_fileLines {content l : Bytes} (h : l ∈ fileLines content) :
    l.length ≤ content.length := by
  have hsub := List.sublist_flatten_of_mem h
  rw [fileLines, flatten_fileLinesFrom, List.nil_append] at hsub
  exact hsub.length_le

/-! ### One search -/

variable {base nf : Bytes}

theorem compareLoop_eq_zero {pos k : Nat} :
    compareLoop base nf pos k = 0 ↔ ∀ j < k, base.getD (pos + j) 0 = nf.getD j 0 := by
  induction k with
  | zero => exact ⟨fun _ j hj => absurd hj (Nat.not_lt_zero j), fun _ => rfl⟩
  | succ k ih =>
    rw [compareLoop]
    by_cases hk : base.getD (pos + k) 0 = nf.getD k 0
    · rw [if_neg (not_not.mpr hk), ih]
      constructor
      · intro h j hj
        rcases Nat.lt_succ_iff_lt_or_eq.mp hj with hlt | rfl
        · exact h j hlt
        · exact hk
      · exact fun h j hj => h j (Nat.lt_succ_of_lt hj)
    · rw [if_pos hk]
      exact ⟨fun h => absurd h (Nat.succ_ne_zero k), fun h => absurd (h k (Nat.lt_succ_self k)) hk⟩

/-- The comparison succeeds exactly where the needle occurs. -/
theorem compareLoop_iff {pos : Nat} (hfit : pos + nf.length ≤ base.length) :
    compareLoop base nf pos nf.length = 0 ↔ nf <+: base.drop pos := by
  rw [compareLoop_eq_zero, List.prefix_iff_getElem?]
  refine forall₂_congr ?_
  intro j hj
  have hbase : pos + j < base.length := by omega
  rw [List.getElem?_drop, List.getElem?_eq_getElem hbase, List.getD_eq_getElem _ _ hbase,
    List.getD_eq_getElem _ _ hj, Option.some.injEq]

theorem badchar_le (nf : Bytes) (c : Byte) : badchar nf c ≤ nf.length := by
  have htable : ∀ k, badcharUpTo nf k c ≤ nf.length := by
    intro k
    induction k with
    | zero => exact Nat.mod_le _ _
    | succ k ih =>
      rw [badcharUpTo]
      by_cases hc : c = nf.getD k 0
      · rw [hc, Function.update_self]
        have := Nat.mod_le (nf.length - 1 - k) (2 ^ 32)
        omega
      · rw [Function.update_of_ne hc]
        exact ih
  exact htable _

theorem shiftTable_badchar (hlen : nf.length < 2 ^ 32) : ShiftTable nf (badchar nf) := by
  have htable : ∀ k ≤ nf.length - 1, ∀ j < k, (hj : j < nf.length) →
      badcharUpTo nf k nf[j] ≤ nf.length - 1 - j := by
    intro k hk j hjk hj
    induction k with
    | zero => exact absurd hjk (Nat.not_lt_zero j)
    | succ k ih =>
      have hklen : k < nf.length := by omega
      rw [badcharUpTo, List.getD_eq_getElem _ _ hklen]
      by_cases hsame : nf[j] = nf[k]
      · rw [hsame, Function.update_self, Nat.mod_eq_of_lt (by omega)]
        omega
      · rw [Function.update_of_ne hsame]
        have hne : j ≠ k := by
          rintro rfl
          exact hsame rfl
        exact ih (by omega) (by omega)
  intro j hj
  exact htable _ le_rfl j (by omega) (by omega)

theorem prefix_drop_fits (hne : nf ≠ []) {q : Nat} (hq : nf <+: base.drop q) :
    q + nf.length ≤ base.length := by
  have hlength := hq.length_le
  have hpos := List.length_pos_iff.mpr hne
  rw [List.length_drop] at hlength
  omega

/-- The search finds the next occurrence, and none only where there is none. -/
theorem scanFrom_spec (hne : nf ≠ []) (hlen : base.length < 2 ^ 32) (fuel pos : Nat)
    (hfuel : base.length < pos + fuel) :
    match scanFrom base nf fuel pos with
    | some r => pos ≤ r ∧ nf <+: base.drop r ∧ ∀ q, pos ≤ q → q < r → ¬nf <+: base.drop q
    | none => ∀ q, pos ≤ q → ¬nf <+: base.drop q := by
  induction fuel generalizing pos with
  | zero =>
    rw [scanFrom]
    intro q hpq hq
    have := prefix_drop_fits hne hq
    omega
  | succ fuel ih =>
    rw [scanFrom]
    by_cases hfit : pos + nf.length ≤ base.length
    · rw [if_pos hfit]
      by_cases hhere : compareLoop base nf pos nf.length = 0
      · rw [if_pos hhere]
        exact ⟨le_rfl, (compareLoop_iff hfit).mp hhere, fun q hpq hq => absurd hpq (by omega)⟩
      · rw [if_neg hhere]
        rw [compareLoop_iff hfit] at hhere
        have hpos := List.length_pos_iff.mpr hne
        have hlast : pos + nf.length - 1 < base.length := by omega
        have htable : ShiftTable nf (badchar nf) := shiftTable_badchar (by omega)
        rw [List.getD_eq_getElem _ _ hlast]
        -- what the shift leaves out holds no occurrence
        have hskip : ∀ q, pos ≤ q →
            q < pos + (if badchar nf base[pos + nf.length - 1] = 0 then 1
              else badchar nf base[pos + nf.length - 1]) → ¬nf <+: base.drop q := by
          intro q hpq hq
          rcases Nat.eq_or_lt_of_le hpq with rfl | hlt
          · exact hhere
          · by_cases hzero : badchar nf base[pos + nf.length - 1] = 0
            · rw [if_pos hzero] at hq
              omega
            · rw [if_neg hzero] at hq
              have hlong := badchar_le nf base[pos + nf.length - 1]
              exact htable.skip hlast hlt hq (by omega)
        have hnext := ih (pos + if badchar nf base[pos + nf.length - 1] = 0 then 1
          else badchar nf base[pos + nf.length - 1]) (by split <;> omega)
        dsimp only
        generalize scanFrom base nf fuel _ = result at hnext
        cases result with
        | some r =>
          obtain ⟨hle, hprefix, hbefore⟩ := hnext
          refine ⟨by omega, hprefix, ?_⟩
          intro q hpq hq
          by_cases hq' : q < pos + (if badchar nf base[pos + nf.length - 1] = 0 then 1
            else badchar nf base[pos + nf.length - 1])
          · exact hskip q hpq hq'
          · exact hbefore q (Nat.le_of_not_lt hq') hq
        | none =>
          intro q hpq
          by_cases hq' : q < pos + (if badchar nf base[pos + nf.length - 1] = 0 then 1
            else badchar nf base[pos + nf.length - 1])
          · exact hskip q hpq hq'
          · exact hnext q (Nat.le_of_not_lt hq')
    · rw [if_neg hfit]
      intro q hpq hq
      have := prefix_drop_fits hne hq
      omega

/-- The places of a line come in order, each once, and are all there are. -/
theorem occurrencesFrom_spec (hne : nf ≠ []) (hlen : base.length < 2 ^ 32) (fuel start : Nat)
    (hfuel : base.length < start + fuel) :
    (occurrencesFrom base nf fuel start).Pairwise (· < ·) ∧
      ∀ q, q ∈ occurrencesFrom base nf fuel start ↔ start ≤ q ∧ nf <+: base.drop q := by
  induction fuel generalizing start with
  | zero =>
    refine ⟨.nil, ?_⟩
    intro q
    refine ⟨fun h => absurd h List.not_mem_nil, ?_⟩
    rintro ⟨hstart, hq⟩
    have := prefix_drop_fits hne hq
    omega
  | succ fuel ih =>
    rw [occurrencesFrom]
    by_cases hfit : start + nf.length ≤ base.length
    · rw [if_pos hfit]
      have hscan := scanFrom_spec hne hlen (base.length + 1) start (by omega)
      cases hnext : scanFrom base nf (base.length + 1) start with
      | none =>
        rw [hnext] at hscan
        refine ⟨.nil, ?_⟩
        intro q
        exact ⟨fun h => absurd h List.not_mem_nil, fun h => absurd h.2 (hscan q h.1)⟩
      | some r =>
        rw [hnext] at hscan
        obtain ⟨hle, hprefix, hbefore⟩ := hscan
        obtain ⟨hsorted, hmem⟩ := ih (r + 1) (by omega)
        refine ⟨List.pairwise_cons.mpr ⟨fun q hq => ((hmem q).mp hq).1, hsorted⟩, ?_⟩
        intro q
        rw [List.mem_cons, hmem]
        constructor
        · rintro (rfl | ⟨hq, hocc⟩)
          · exact ⟨hle, hprefix⟩
          · exact ⟨by omega, hocc⟩
        · rintro ⟨hq, hocc⟩
          rcases Nat.lt_trichotomy q r with hlt | rfl | hgt
          · exact absurd hocc (hbefore q hq hlt)
          · exact .inl rfl
          · exact .inr ⟨hgt, hocc⟩
    · rw [if_neg hfit]
      refine ⟨.nil, ?_⟩
      intro q
      refine ⟨fun h => absurd h List.not_mem_nil, ?_⟩
      rintro ⟨hstart, hq⟩
      have := prefix_drop_fits hne hq
      omega

/-! ### All lines -/

/-- The folded needle occurs at this column of the line. -/
def Occurs (caseInsensitive : Bool) (needle line : Bytes) (col : Nat) : Prop :=
  col ≤ line.length ∧
    needle.map (foldByte caseInsensitive) <+: (line.map (foldByte caseInsensitive)).drop col

/-- By line, then by column. -/
def FindMatch.Before (a b : FindMatch) : Prop :=
  a.lineIndex < b.lineIndex ∨ a.lineIndex = b.lineIndex ∧ a.col < b.col

theorem lineMatches_spec (caseInsensitive : Bool) (needle : Bytes) {line : Bytes} (i : Nat)
    (hlen : line.length < 2 ^ 32) :
    (lineMatches caseInsensitive (needle.map (foldByte caseInsensitive)) i line).Pairwise
        FindMatch.Before ∧
      ∀ m, m ∈ lineMatches caseInsensitive (needle.map (foldByte caseInsensitive)) i line ↔
        m.lineIndex = i ∧ Occurs caseInsensitive needle line m.col ∧ m.length = needle.length := by
  -- the places are given as a list that is sorted and holds exactly the occurrences
  have hplaces : ∀ cols : List Nat, cols.Pairwise (· < ·) →
      (∀ c, c ∈ cols ↔ Occurs caseInsensitive needle line c) → ∀ n,
        (cols ≠ [] → n = needle.length) →
        (cols.map fun c => ({ lineIndex := i, col := c % 2 ^ 32, length := n } : FindMatch)).Pairwise
            FindMatch.Before ∧
          ∀ m, m ∈ cols.map (fun c => ({ lineIndex := i, col := c % 2 ^ 32, length := n } :
              FindMatch)) ↔
            m.lineIndex = i ∧ Occurs caseInsensitive needle line m.col ∧
              m.length = needle.length := by
    intro cols hsorted hmem n hn
    have hmod : ∀ c ∈ cols, c % 2 ^ 32 = c := by
      intro c hc
      have := ((hmem c).mp hc).1
      exact Nat.mod_eq_of_lt (by omega)
    constructor
    · rw [List.pairwise_map]
      refine hsorted.imp_of_mem ?_
      intro c d hc hd hcd
      refine .inr ⟨rfl, ?_⟩
      rw [hmod c hc, hmod d hd]
      exact hcd
    · intro m
      rw [List.mem_map]
      constructor
      · rintro ⟨c, hc, rfl⟩
        dsimp only
        rw [hmod c hc]
        exact ⟨rfl, (hmem c).mp hc, hn (List.ne_nil_of_mem hc)⟩
      · rintro ⟨hindex, hocc, hlength⟩
        have hc := (hmem m.col).mpr hocc
        refine ⟨m.col, hc, ?_⟩
        rw [hmod _ hc, hn (List.ne_nil_of_mem hc), ← hindex, ← hlength]
  rw [lineMatches]
  by_cases hempty : (needle.map (foldByte caseInsensitive)).length = 0
  · rw [if_pos hempty]
    have hnil := List.eq_nil_of_length_eq_zero hempty
    refine hplaces _ List.pairwise_lt_range ?_ 0 fun _ => by
      rw [List.length_map] at hempty
      exact hempty.symm
    intro c
    rw [List.mem_range, Occurs, hnil]
    exact ⟨fun h => ⟨Nat.le_of_lt_succ h, List.nil_prefix⟩, fun h => Nat.lt_succ_of_le h.1⟩
  · rw [if_neg hempty]
    have hne : needle.map (foldByte caseInsensitive) ≠ [] := fun h => hempty (by rw [h]; rfl)
    obtain ⟨hsorted, hmem⟩ := @occurrencesFrom_spec (line.map (foldByte caseInsensitive)) _ hne
      (by rw [List.length_map]; exact hlen) (line.length + 1) 0 (by rw [List.length_map]; omega)
    have hfits : ∀ c, needle.map (foldByte caseInsensitive) <+:
        (line.map (foldByte caseInsensitive)).drop c → c + needle.length ≤ line.length := by
      intro c hc
      have hlength := hc.length_le
      rw [List.length_drop, List.length_map, List.length_map] at hlength
      rw [List.length_map] at hempty
      omega
    refine hplaces _ hsorted ?_ _ ?_
    · intro c
      rw [hmem, Occurs]
      exact ⟨fun h => ⟨by have := hfits c h.2; omega, h.2⟩, fun h => ⟨Nat.zero_le _, h.2⟩⟩
    · intro hcols
      obtain ⟨c, hc⟩ := List.exists_mem_of_ne_nil _ hcols
      have := hfits c ((hmem c).mp hc).2
      rw [List.length_map]
      exact Nat.mod_eq_of_lt (by omega)

theorem findInLines_spec (caseInsensitive : Bool) (needle : Bytes) {lines : List Bytes} (i : Nat)
    (hlen : ∀ line ∈ lines, line.length < 2 ^ 32) (hcount : i + lines.length < 2 ^ 32) :
    (findInLines caseInsensitive (needle.map (foldByte caseInsensitive)) i lines).Pairwise
        FindMatch.Before ∧
      ∀ m, m ∈ findInLines caseInsensitive (needle.map (foldByte caseInsensitive)) i lines ↔
        i ≤ m.lineIndex ∧ ∃ line, lines[m.lineIndex - i]? = some line ∧
          Occurs caseInsensitive needle line m.col ∧ m.length = needle.length := by
  induction lines generalizing i with
  | nil =>
    refine ⟨.nil, ?_⟩
    intro m
    refine ⟨fun h => absurd h List.not_mem_nil, ?_⟩
    rintro ⟨-, line, hline, -⟩
    cases hline
  | cons line rest ih =>
    obtain ⟨hline, hrest⟩ := List.forall_mem_cons.mp hlen
    rw [List.length_cons] at hcount
    obtain ⟨hsorted, hmem⟩ := lineMatches_spec caseInsensitive needle i hline
    obtain ⟨hsorted', hmem'⟩ := ih (i + 1) hrest (by omega)
    have hnext : (i + 1) % 2 ^ 32 = i + 1 := Nat.mod_eq_of_lt (by omega)
    rw [findInLines, hnext]
    constructor
    · refine List.pairwise_append.mpr ⟨hsorted, hsorted', ?_⟩
      intro a ha b hb
      have hindex := ((hmem a).mp ha).1
      have hindex' := ((hmem' b).mp hb).1
      exact .inl (by omega)
    · intro m
      rw [List.mem_append, hmem, hmem']
      constructor
      · rintro (⟨rfl, hocc⟩ | ⟨hle, hocc⟩)
        · refine ⟨le_rfl, line, ?_, hocc⟩
          rw [Nat.sub_self, List.getElem?_cons_zero]
        · refine ⟨by omega, ?_⟩
          rw [show m.lineIndex - i = m.lineIndex - (i + 1) + 1 by omega, List.getElem?_cons_succ]
          exact hocc
      · rintro ⟨hle, l, hl, hocc⟩
        rcases Nat.eq_or_lt_of_le hle with heq | hlt
        · rw [← heq, Nat.sub_self, List.getElem?_cons_zero] at hl
          obtain rfl := Option.some.inj hl
          exact .inl ⟨heq.symm, hocc⟩
        · rw [show m.lineIndex - i = m.lineIndex - (i + 1) + 1 by omega,
            List.getElem?_cons_succ] at hl
          exact .inr ⟨hlt, l, hl, hocc⟩

/-- The matches are the places in the lines at which the folded needle occurs, by line and column,
each once. -/
theorem findInFile_correct {content : Bytes} (needle : Bytes) (caseInsensitive : Bool)
    (hlen : content.length < 2 ^ 32) :
    (findInFile content needle caseInsensitive).Pairwise FindMatch.Before ∧
      ∀ m, m ∈ findInFile content needle caseInsensitive ↔
        ∃ line, (fileLines content)[m.lineIndex]? = some line ∧
          Occurs caseInsensitive needle line m.col ∧ m.length = needle.length := by
  have hlines := length_fileLines_le content
  obtain ⟨hsorted, hmem⟩ := findInLines_spec caseInsensitive needle 0
    (fun line hline => lt_of_le_of_lt (length_le_of_mem_fileLines hline) hlen)
    (show 0 + (fileLines content).length < 2 ^ 32 by omega)
  refine ⟨hsorted, ?_⟩
  intro m
  rw [findInFile, hmem]
  exact ⟨fun h => h.2, fun h => ⟨Nat.zero_le _, h⟩⟩

theorem findInFile_correct_overlap :
    (findInFile (ascii "xAaA\naa\n") (ascii "aa") true).Pairwise FindMatch.Before ∧
      ∀ m, m ∈ findInFile (ascii "xAaA\naa\n") (ascii "aa") true ↔
        ∃ line, (fileLines (ascii "xAaA\naa\n"))[m.lineIndex]? = some line ∧
          Occurs true (ascii "aa") line m.col ∧ m.length = (ascii "aa").length :=
  findInFile_correct (ascii "aa") true (by decide)

example : findInFile (ascii "xAaA\naa\n") (ascii "aa") true = [⟨0, 1, 2⟩, ⟨0, 2, 2⟩, ⟨1, 0, 2⟩] := by
  decide +kernel

end KimixNative.Tools
