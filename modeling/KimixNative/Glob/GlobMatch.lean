import KimixNative.Lib.LittleEndian
import KimixNative.Lib.Wildcard

/-!
# Globs

`glob_match` reads a pattern byte by byte while it matches, and goes back to the last star when it
is stuck. Where a bracket expression ends does not depend on the byte it is matched against, so a
pattern is a list of tokens, and the loop is the one of the wildcard library on these tokens.
-/

namespace KimixNative.Glob

open Wildcard

def starByte : Byte := 0x2A#8
def questionMark : Byte := 0x3F#8
def openBracket : Byte := 0x5B#8
def closeBracket : Byte := 0x5D#8
def exclamationMark : Byte := 0x21#8
def caret : Byte := 0x5E#8
def hyphen : Byte := 0x2D#8

/-- `fold_ascii`. -/
def foldAscii (c : Byte) : Byte := if 0x41#8 ≤ c ∧ c ≤ 0x5A#8 then c + 32#8 else c

/-- `ci ? fold_ascii(c) : c`. -/
def foldIf (ci : Bool) (c : Byte) : Byte := if ci then foldAscii c else c

/-- The loop of `match_bracket`, which ends in front of the closing bracket. -/
def bracketLoop (ci : Bool) (foldedCh : Byte) : Bytes → Bool → Bool × Bytes
  | [], matched => (matched, [])
  | lo :: dash :: hi :: rest, matched =>
    if lo = closeBracket then (matched, lo :: dash :: hi :: rest)
    else if dash = hyphen ∧ hi ≠ closeBracket then
      bracketLoop ci foldedCh rest
        (if foldIf ci lo ≤ foldedCh ∧ foldedCh ≤ foldIf ci hi then true else matched)
    else
      bracketLoop ci foldedCh (dash :: hi :: rest)
        (if foldedCh = foldIf ci lo then true else matched)
  | lo :: rest, matched =>
    if lo = closeBracket then (matched, lo :: rest)
    else bracketLoop ci foldedCh rest (if foldedCh = foldIf ci lo then true else matched)

/-- Step over the closing bracket, if there is one. -/
def skipClose (pat : Bytes) : Bytes := if pat.head? = some closeBracket then pat.tail else pat

/-- The expression begins with `!` or `^`. -/
def isNegated (pat : Bytes) : Bool :=
  decide (pat.head? = some exclamationMark ∨ pat.head? = some caret)

/-- `match_bracket`: whether the byte is matched, and the pattern behind the expression. -/
def matchBracket (ci : Bool) (pat : Bytes) (ch : Byte) : Bool × Bytes :=
  if pat = [] then (ch = openBracket, [])
  else
    let negated := isNegated pat
    let loop := bracketLoop ci (foldIf ci ch) (if negated then pat.tail else pat) false
    (if negated then !loop.1 else loop.1, skipClose loop.2)

/-- `match_one` on a pattern that begins with `pc`: whether the byte is matched, and the pattern
behind what it was matched with. -/
def matchOne (ci : Bool) (pc : Byte) (pat : Bytes) (ch : Byte) : Bool × Bytes :=
  if pc = questionMark then (true, pat)
  else if pc = openBracket then matchBracket ci pat ch
  else if ci then (foldAscii pc = foldAscii ch, pat)
  else (pc = ch, pat)

/-- The loop of `glob_match`. `starPat` is the pattern behind the last star, and `consumed` is the
text between `star_ti` and `ti`. -/
def globLoop (ci : Bool) (pat text consumed : Bytes) (starPat : Option Bytes) : Bool :=
  match text with
  | [] => pat.all fun c => c = starByte
  | ch :: rest =>
    match pat with
    | pc :: pat =>
      if pc = starByte then globLoop ci pat (ch :: rest) [] (some pat)
      else if (matchOne ci pc pat ch).1 then
        globLoop ci (matchOne ci pc pat ch).2 rest (consumed ++ [ch]) starPat
      else
        match starPat with
        | some back => globLoop ci back (consumed ++ ch :: rest).tail [] (some back)
        | none => false
    | [] =>
      match starPat with
      | some back => globLoop ci back (consumed ++ ch :: rest).tail [] (some back)
      | none => false
termination_by (consumed.length + text.length, text.length, pat.length)
decreasing_by
  · simp only [List.length_nil, List.length_cons, Prod.lex_def, true_and]
    omega
  · simp only [List.length_append, List.length_cons, List.length_nil, Prod.lex_def]
    omega
  · simp only [List.length_tail, List.length_append, List.length_cons, List.length_nil,
      Prod.lex_def]
    omega
  · simp only [List.length_tail, List.length_append, List.length_cons, List.length_nil,
      Prod.lex_def]
    omega

/-- `glob_match`. -/
def globMatch (pat text : Bytes) (ci : Bool) : Bool := globLoop ci pat text [] none

/-! ### Tokens -/

/-- The members of a bracket expression up to its closing bracket, each as a range. -/
def bracketMembers : Bytes → List (Byte × Byte)
  | [] => []
  | lo :: dash :: hi :: rest =>
    if lo = closeBracket then []
    else if dash = hyphen ∧ hi ≠ closeBracket then (lo, hi) :: bracketMembers rest
    else (lo, lo) :: bracketMembers (dash :: hi :: rest)
  | lo :: rest => if lo = closeBracket then [] else (lo, lo) :: bracketMembers rest

/-- The pattern from the closing bracket on. -/
def bracketEnd : Bytes → Bytes
  | [] => []
  | lo :: dash :: hi :: rest =>
    if lo = closeBracket then lo :: dash :: hi :: rest
    else if dash = hyphen ∧ hi ≠ closeBracket then bracketEnd rest
    else bracketEnd (dash :: hi :: rest)
  | lo :: rest => if lo = closeBracket then lo :: rest else bracketEnd rest

/-- The byte is in the set of a bracket expression. -/
def inBracket (ci : Bool) (pat : Bytes) (ch : Byte) : Bool :=
  (bracketMembers (if isNegated pat then pat.tail else pat)).any (fun range =>
    foldIf ci range.1 ≤ foldIf ci ch ∧ foldIf ci ch ≤ foldIf ci range.2) != isNegated pat

/-- The pattern behind a bracket expression. -/
def behindBracket (pat : Bytes) : Bytes :=
  skipClose (bracketEnd (if isNegated pat then pat.tail else pat))

theorem length_bracketEnd_le (pat : Bytes) : (bracketEnd pat).length ≤ pat.length := by
  fun_induction bracketEnd pat with
  | case1 => exact Nat.le_refl _
  | case2 => exact Nat.le_refl _
  | case3 => simp only [List.length_cons]; omega
  | case4 => simp only [List.length_cons] at *; omega
  | case5 => exact Nat.le_refl _
  | case6 => simp only [List.length_cons]; omega

theorem length_behindBracket_le (pat : Bytes) : (behindBracket pat).length ≤ pat.length := by
  have hskip : ∀ pat : Bytes, (skipClose pat).length ≤ pat.length := by
    intro pat
    rw [skipClose]
    split
    · rw [List.length_tail]
      omega
    · exact Nat.le_refl _
  refine le_trans (hskip _) (le_trans (length_bracketEnd_le _) ?_)
  split
  · rw [List.length_tail]
    omega
  · exact Nat.le_refl _

/-- The tokens of a pattern. A bracket that opens at the very end stands for itself. -/
def tokens (ci : Bool) : Bytes → List (Wildcard Byte)
  | [] => []
  | pc :: pat =>
    if pc = starByte then .star :: tokens ci pat
    else if pc = questionMark then .one (fun _ => true) :: tokens ci pat
    else if pc = openBracket ∧ pat ≠ [] then .one (inBracket ci pat) :: tokens ci (behindBracket pat)
    else .one (fun ch => foldIf ci pc = foldIf ci ch) :: tokens ci pat
termination_by pat => pat.length
decreasing_by
  · exact Nat.lt_succ_self _
  · exact Nat.lt_succ_self _
  · exact Nat.lt_succ_of_le (length_behindBracket_le pat)
  · exact Nat.lt_succ_self _

/-! ### The loop on tokens -/

theorem foldIf_eq_iff_le (ci : Bool) (c ch : Byte) :
    (foldIf ci c ≤ foldIf ci ch ∧ foldIf ci ch ≤ foldIf ci c) ↔ foldIf ci ch = foldIf ci c := by
  constructor
  · rintro ⟨hle, hge⟩
    exact BitVec.le_antisymm hge hle
  · intro h
    rw [h]
    exact ⟨BitVec.le_refl _, BitVec.le_refl _⟩

/-- Whether a byte is a member does not change where the expression ends. -/
theorem bracketLoop_eq (ci : Bool) (ch : Byte) (pat : Bytes) (matched : Bool) :
    bracketLoop ci (foldIf ci ch) pat matched =
      (matched || (bracketMembers pat).any (fun range =>
        foldIf ci range.1 ≤ foldIf ci ch ∧ foldIf ci ch ≤ foldIf ci range.2), bracketEnd pat) := by
  fun_induction bracketLoop ci (foldIf ci ch) pat matched with
  | case1 matched => simp [bracketMembers, bracketEnd]
  | case2 matched dash hi rest => simp [bracketMembers, bracketEnd]
  | case3 lo dash hi rest matched hlo hrange ih =>
    rw [ih, bracketMembers, bracketEnd, if_neg hlo, if_pos hrange, if_neg hlo, if_pos hrange,
      List.any_cons]
    by_cases hin : foldIf ci lo ≤ foldIf ci ch ∧ foldIf ci ch ≤ foldIf ci hi
    · simp only [if_pos hin, decide_eq_true hin, Bool.true_or, Bool.or_true]
    · simp only [if_neg hin, decide_eq_false hin, Bool.false_or]
  | case4 lo dash hi rest matched hlo hrange ih =>
    rw [ih, bracketMembers, bracketEnd, if_neg hlo, if_neg hrange, if_neg hlo, if_neg hrange,
      List.any_cons]
    by_cases hin : foldIf ci ch = foldIf ci lo
    · simp [hin]
    · simp only [foldIf_eq_iff_le, if_neg hin, decide_eq_false hin, Bool.false_or]
  | case5 matched rest hshort => simp_all [bracketMembers, bracketEnd]
  | case6 lo rest matched hshort hlo ih =>
    rw [ih, bracketMembers, bracketEnd, if_neg hlo, if_neg hlo, List.any_cons]
    · by_cases hin : foldIf ci ch = foldIf ci lo
      · simp [hin]
      · simp only [foldIf_eq_iff_le, if_neg hin, decide_eq_false hin, Bool.false_or]
    · exact hshort
    · exact hshort

theorem matchBracket_eq (ci : Bool) {pat : Bytes} (hpat : pat ≠ []) (ch : Byte) :
    matchBracket ci pat ch = (inBracket ci pat ch, behindBracket pat) := by
  rw [matchBracket, if_neg hpat]
  simp only [bracketLoop_eq, Bool.false_or]
  rw [inBracket, behindBracket]
  cases isNegated pat <;> simp

theorem foldAscii_eq_openBracket (ch : Byte) : foldAscii ch = openBracket ↔ ch = openBracket := by
  revert ch
  decide

/-- A pattern that does not begin with a star begins with a token for one byte. -/
theorem tokens_cons (ci : Bool) {pc : Byte} (hpc : pc ≠ starByte) (pat : Bytes) :
    ∃ p : Byte → Bool, ∀ ch,
      tokens ci (pc :: pat) = .one p :: tokens ci (matchOne ci pc pat ch).2 ∧
        (matchOne ci pc pat ch).1 = p ch := by
  rw [tokens, if_neg hpc]
  split
  · next hquestion =>
      refine ⟨fun _ => true, fun ch => ?_⟩
      rw [matchOne, if_pos hquestion]
      exact ⟨rfl, rfl⟩
  · next hquestion =>
      split
      · next hbracket =>
          obtain ⟨hopen, hpat⟩ := hbracket
          refine ⟨inBracket ci pat, fun ch => ?_⟩
          rw [matchOne, if_neg hquestion, if_pos hopen, matchBracket_eq ci hpat]
          exact ⟨rfl, rfl⟩
      · next hplain =>
          refine ⟨fun ch => foldIf ci pc = foldIf ci ch, fun ch => ?_⟩
          rw [matchOne, if_neg hquestion]
          split
          · next hopen =>
              -- a bracket that opens at the end
              have hpat : pat = [] := by
                by_contra hpat
                exact hplain ⟨hopen, hpat⟩
              subst hopen hpat
              rw [matchBracket, if_pos rfl]
              refine ⟨rfl, ?_⟩
              cases ci with
              | true =>
                have hfold : foldAscii openBracket = openBracket := by decide
                simp only [foldIf, if_true, hfold, eq_comm (a := openBracket),
                  foldAscii_eq_openBracket]
              | false => simp [foldIf, eq_comm]
          · cases ci with
            | true => exact ⟨rfl, rfl⟩
            | false => exact ⟨rfl, rfl⟩

theorem tokens_star (ci : Bool) (pat : Bytes) :
    tokens ci (starByte :: pat) = .star :: tokens ci pat := by
  rw [tokens, if_pos rfl]

/-- The empty text is matched by stars only. -/
theorem matches_tokens_empty (ci : Bool) (pat : Bytes) :
    Matches (tokens ci pat) [] ↔ ∀ c ∈ pat, c = starByte := by
  induction pat with
  | nil => simp [tokens]
  | cons pc pat ih =>
    by_cases hpc : pc = starByte
    · subst hpc
      rw [tokens_star, List.forall_mem_cons, ← ih, matches_star]
      simp
    · obtain ⟨p, hp⟩ := tokens_cons ci hpc pat
      rw [(hp 0#8).1, List.forall_mem_cons]
      simp [hpc]

/-- The matcher runs the loop of the library on the tokens. -/
theorem globLoop_eq (ci : Bool) (pat text consumed : Bytes) (starPat : Option Bytes) :
    globLoop ci pat text consumed starPat =
      wildcardLoop (tokens ci pat) text consumed (starPat.map (tokens ci)) := by
  induction pat, text, consumed, starPat using globLoop.induct ci with
  | case1 pat consumed starPat =>
    rw [globLoop, wildcardLoop, Bool.eq_iff_iff, all_star_iff, List.all_eq_true]
    simp only [decide_eq_true_eq]
    exact (matches_tokens_empty ci pat).symm
  | case2 consumed starPat ch rest pat ih =>
    rw [globLoop.eq_def, tokens_star, wildcardLoop]
    dsimp only
    rw [if_pos rfl, ih, Option.map_some]
  | case3 consumed starPat ch rest pc pat hpc hmatch ih =>
    obtain ⟨p, hp⟩ := tokens_cons ci hpc pat
    obtain ⟨htokens, haccepts⟩ := hp ch
    rw [globLoop.eq_def, htokens, wildcardLoop.eq_def]
    dsimp only
    rw [if_neg hpc, if_pos hmatch, if_pos (haccepts ▸ hmatch), ih]
  | case4 consumed ch rest pc pat hpc hmatch back ih =>
    obtain ⟨p, hp⟩ := tokens_cons ci hpc pat
    obtain ⟨htokens, haccepts⟩ := hp ch
    rw [globLoop.eq_def, htokens, wildcardLoop.eq_def]
    dsimp only [Option.map_some]
    rw [if_neg hpc, if_neg hmatch, if_neg (haccepts ▸ hmatch), ih, Option.map_some]
  | case5 consumed ch rest pc pat hpc hmatch =>
    obtain ⟨p, hp⟩ := tokens_cons ci hpc pat
    obtain ⟨htokens, haccepts⟩ := hp ch
    rw [globLoop.eq_def, htokens, wildcardLoop.eq_def]
    dsimp only [Option.map_none]
    rw [if_neg hpc, if_neg hmatch, if_neg (haccepts ▸ hmatch)]
  | case6 consumed ch rest back ih =>
    rw [globLoop.eq_def, tokens, wildcardLoop.eq_def]
    dsimp only [Option.map_some]
    rw [ih, Option.map_some]
  | case7 consumed ch rest =>
    rw [globLoop.eq_def, tokens, wildcardLoop.eq_def]
    rfl

theorem globMatch_eq (pat text : Bytes) (ci : Bool) :
    globMatch pat text ci = wildcardLoop (tokens ci pat) text [] none :=
  globLoop_eq ci pat text [] none

/-- `glob_match` decides whether the text splits along the tokens of the pattern. -/
theorem globMatch_iff (pat text : Bytes) (ci : Bool) :
    globMatch pat text ci = true ↔ Matches (tokens ci pat) text := by
  rw [globMatch_eq]
  exact wildcardLoop_start (tokens ci pat) text

end KimixNative.Glob
