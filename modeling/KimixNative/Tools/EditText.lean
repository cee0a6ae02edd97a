import KimixNative.Text.Utf8
import Mathlib.Data.List.DropRight

/-!
# The text helpers of the edit tool

Bytes, code points and lines as the tools read them. `decode_code_point` is the reader of the
built-in tools: unlike the runtime's it lets overlong sequences through and refuses surrogates.
-/

namespace KimixNative.Tools

open Text

def newline : Byte := 0x0A#8
def carriageReturn : Byte := 0x0D#8
def space : Byte := 0x20#8
def tab : Byte := 0x09#8

inductive ToolStatus where
  | ok
  | invalidInput
  | notFound
  | noChange
  | ambiguous
  | blocked
  | tooLarge
  | unsupported
  | externalLibrary
  deriving DecidableEq, Repr

structure ToolError where
  status : ToolStatus := .ok
  message : Bytes := []
  deriving DecidableEq, Repr

/-- The continuation bytes that a lead byte announces and the bits it brings. -/
def leadBits (b0 : Nat) : Option (Nat × Nat) :=
  if 0xC2 ≤ b0 ∧ b0 ≤ 0xDF then some (1, b0 % 0x20)
  else if 0xE0 ≤ b0 ∧ b0 ≤ 0xEF then some (2, b0 % 0x10)
  else if 0xF0 ≤ b0 ∧ b0 ≤ 0xF4 then some (3, b0 % 0x08)
  else none

/-- `decode_code_point` at a byte and what follows it: the code point and by how much it
advances. -/
def decodeCodePoint (b0 : Byte) (rest : Bytes) : Nat × Nat :=
  if b0.toNat < 0x80 then (b0.toNat, 1)
  else
    ((leadBits b0.toNat).bind fun (extra, lead) =>
      if rest.length < extra then none
      else
        (continuation lead (rest.take extra)).bind fun cp =>
          if (0xD800 ≤ cp ∧ cp ≤ 0xDFFF) ∨ cp > 0x10FFFF then none
          else some (cp, extra + 1)).getD (0xFFFD, 1)

/-- The loop of `utf8_code_point_count`. -/
def codePointLoop : Nat → Bytes → Nat
  | 0, _ => 0
  | _, [] => 0
  | fuel + 1, b0 :: rest =>
    1 + codePointLoop fuel ((b0 :: rest).drop (decodeCodePoint b0 rest).2)

/-- `utf8_code_point_count`. -/
def codePointCount (bytes : Bytes) : Nat :=
  if isAscii bytes then bytes.length else codePointLoop bytes.length bytes

/-- `ed_py_space_ranges`. -/
def pySpaceRanges : List (Nat × Nat) :=
  [(0x0085, 0x0085), (0x00A0, 0x00A0), (0x1680, 0x1680), (0x2000, 0x200A), (0x2028, 0x2029),
    (0x202F, 0x202F), (0x205F, 0x205F), (0x3000, 0x3000)]

/-- `is_py_space_cp`; the four words of the ASCII bitmap are one number. -/
def isPySpaceCp (cp : Nat) : Bool :=
  if cp < 0x80 then Nat.testBit 0x1F0003E00 cp
  else pySpaceRanges.any fun range => decide (range.1 ≤ cp ∧ cp ≤ range.2)

/-- The loop of `leading_space_len`. -/
def leadingSpaceLoop : Nat → Bytes → Nat
  | 0, _ => 0
  | _, [] => 0
  | fuel + 1, b0 :: rest =>
    let (cp, len) := decodeCodePoint b0 rest
    if isPySpaceCp cp then len + leadingSpaceLoop fuel ((b0 :: rest).drop len) else 0

/-- `leading_space_len`. -/
def leadingSpaceLen (s : Bytes) : Nat := leadingSpaceLoop s.length s

/-- A byte of the form `10xxxxxx`. -/
def isContinuation (b : Byte) : Bool := b.toNat / 0x40 == 2

/-- Where the code point that ends at `i` is read from: back over its continuation bytes. -/
def codePointStart (s : Bytes) : Nat → Nat
  | 0 => 0
  | start + 1 =>
    match s[start + 1]? with
    | some b => if isContinuation b then codePointStart s start else start + 1
    | none => start + 1

/-- The loop of `trailing_space_len`: how much is left in front of the trailing blanks. -/
def trailingSpaceLoop (s : Bytes) : Nat → Nat → Nat
  | 0, i => i
  | _, 0 => 0
  | fuel + 1, i + 1 =>
    let start := codePointStart s i
    match (s.take (i + 1)).drop start with
    | [] => i + 1
    | b0 :: rest =>
      if isPySpaceCp (decodeCodePoint b0 rest).1 then trailingSpaceLoop s fuel start else i + 1

/-- `trailing_space_len`. -/
def trailingSpaceLen (s : Bytes) : Nat := s.length - trailingSpaceLoop s s.length s.length

/-- `py_strip`. -/
def pyStrip (text : Bytes) : Bytes :=
  let lead := leadingSpaceLen text
  let trail := trailingSpaceLen text
  if lead + trail ≥ text.length then [] else (text.take (text.length - trail)).drop lead

/-! ## Lines -/

/-- `split_lf`. -/
def splitLf (text : Bytes) : List Bytes := text.splitOn newline

/-- `join_lf`. -/
def joinLf (lines : List Bytes) : Bytes := [newline].intercalate lines

/-- `normalize_newlines`: the carriage return in front of a newline goes. -/
def normalizeNewlines : Bytes → Bytes
  | [] => []
  | b :: rest =>
    if b = carriageReturn ∧ rest.head? = some newline then normalizeNewlines rest
    else b :: normalizeNewlines rest

/-- The length of the line separator at a byte and what follows it, or zero. -/
def separatorLength (c : Byte) (rest : Bytes) : Nat :=
  if c = newline then 1
  else if c = carriageReturn then if rest.head? = some newline then 2 else 1
  else if c = 0x0B#8 ∨ c = 0x0C#8 ∨ c = 0x1C#8 ∨ c = 0x1D#8 ∨ c = 0x1E#8 then 1
  else if c = 0xC2#8 ∧ rest.head? = some 0x85#8 then 2
  else if c = 0xE2#8 ∧ rest.head? = some 0x80#8 ∧ (rest[1]? = some 0xA8#8 ∨ rest[1]? = some 0xA9#8)
  then 3
  else 0

/-- The loop of `split_lines`: `skip` bytes of a separator are left, `line` has been read. -/
def splitLinesFrom : Nat → Bytes → Bytes → List Bytes
  | _, line, [] => if line = [] then [] else [line]
  | skip + 1, line, _ :: rest => splitLinesFrom skip line rest
  | 0, line, c :: rest =>
    match separatorLength c rest with
    | 0 => splitLinesFrom 0 (line ++ [c]) rest
    | term + 1 => line :: splitLinesFrom term [] rest

/-- `split_lines`: at any of eleven separators. -/
def splitLines (text : Bytes) : List Bytes := splitLinesFrom 0 [] text

/-- `ends_with("\n")`. -/
def endsWithNewline (text : Bytes) : Bool := text.getLast? == some newline

/-- `restore_trailing_newline`. -/
def restoreTrailingNewline (result : Bytes) (endedWithNewline : Bool) : Bytes :=
  if endedWithNewline && !endsWithNewline result then result ++ [newline] else result

/-- `restore_trailing_newline_nonempty`. -/
def restoreTrailingNewlineNonempty (result : Bytes) (endedWithNewline : Bool) : Bytes :=
  if endedWithNewline && !result.isEmpty && !endsWithNewline result then result ++ [newline]
  else result

/-- A number of type `int32_t` in a message. -/
def formatInt : Int → Bytes
  | .ofNat n => decimal n
  | .negSucc n => ascii "-" ++ decimal (n + 1)

@[simp] theorem joinLf_splitLf (text : Bytes) : joinLf (splitLf text) = text :=
  List.intercalate_splitOn newline

variable {lines : List Bytes} {text : Bytes}

/-- Lines without a newline are what their text splits into. -/
theorem splitLf_joinLf (hne : lines ≠ []) (hfree : ∀ line ∈ lines, newline ∉ line) :
    splitLf (joinLf lines) = lines :=
  List.splitOn_intercalate newline hfree hne

/-- The lines of a text that ends with a newline, without the empty piece behind it. -/
def linesOf (text : Bytes) : List Bytes := (splitLf text).dropLast

theorem splitLf_of_endsWithNewline (h : endsWithNewline text = true) :
    splitLf text = linesOf text ++ [[]] := by
  obtain ⟨before, rfl⟩ := List.getLast?_eq_some_iff.mp (beq_iff_eq.mp h)
  rw [linesOf, splitLf, List.splitOn_append_cons_self, List.splitOn_nil, List.dropLast_concat]

theorem linesOf_ne_nil (h : endsWithNewline text = true) : linesOf text ≠ [] := by
  obtain ⟨before, rfl⟩ := List.getLast?_eq_some_iff.mp (beq_iff_eq.mp h)
  rw [linesOf, splitLf, List.splitOn_append_cons_self, List.splitOn_nil, List.dropLast_concat]
  exact List.splitOn_ne_nil newline before

theorem newline_notMem_splitLf {line : Bytes} (h : line ∈ splitLf text) : newline ∉ line := by
  induction text generalizing line with
  | nil =>
    obtain rfl := List.mem_singleton.mp h
    exact List.not_mem_nil
  | cons b rest ih =>
    rw [splitLf, List.splitOn_cons_eq_if_modifyHead] at h
    split at h
    · rcases List.mem_cons.mp h with rfl | h
      · exact List.not_mem_nil
      · exact ih h
    · rename_i hb
      cases hsplit : rest.splitOn newline with
      | nil => exact absurd hsplit (List.splitOn_ne_nil newline rest)
      | cons first others =>
        rw [hsplit, List.modifyHead_cons] at h
        rcases List.mem_cons.mp h with rfl | h
        · rintro hin
          rcases List.mem_cons.mp hin with rfl | hin
          · exact hb (beq_self_eq_true _)
          · exact ih (by rw [splitLf, hsplit]; exact List.mem_cons_self) hin
        · exact ih (by rw [splitLf, hsplit]; exact List.mem_cons_of_mem first h)

theorem joinLf_concat_nil (hne : lines ≠ []) :
    joinLf (lines ++ [[]]) = joinLf lines ++ [newline] := by
  induction lines with
  | nil => exact absurd rfl hne
  | cons line rest ih =>
    cases rest with
    | nil => simp [joinLf]
    | cons next rest =>
      have hrest := ih (List.cons_ne_nil _ _)
      simp only [joinLf, List.cons_append, List.intercalate_cons_cons] at hrest ⊢
      rw [hrest]
      simp only [List.append_assoc]

end KimixNative.Tools
