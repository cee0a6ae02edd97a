import KimixNative.Lib.JsonText
import KimixNative.Text.Utf8

/-!
# The JSON repairer

`kimix::repair` reads a damaged JSON text with a tolerant parser that writes canonical JSON as
it goes. The parser is a machine of three states over an explicit stack of open containers.
A position in the input is the byte before it, which only the quote and prologue tests look at,
and what follows it.

Whether `strtod` reads a decimal text to its end as a finite number that did not underflow is
a parameter, `accepts`.
-/

namespace KimixNative.Core

open Json

/-! ### Characters -/

def lower (b : Byte) : Byte :=
  if 0x41 ≤ b.toNat ∧ b.toNat ≤ 0x5A then BitVec.ofNat 8 (b.toNat + 0x20) else b

/-- `ieq`: equality with a lower-case word, in any case. -/
def ieq (tok : Bytes) (word : String) : Bool := tok.map lower == Text.ascii word

/-- `starts_value`. -/
def startsValue (b : Byte) : Bool :=
  b == 0x7B#8 || b == 0x5B#8 || isDigit b || b == 0x2B#8 || b == 0x2D#8 || b == 0x2E#8

/-- `utf8_valid_len` at a byte and what follows it. -/
def utf8ValidLen (b : Byte) (rest : Bytes) : Nat :=
  if b.toNat < 0x80 then 1
  else
    match Text.leadByte b.toNat with
    | none => 0
    | some (n, lead, minCp) =>
      if rest.length + 1 < n then 0
      else
        match Text.continuation lead (rest.take (n - 1)) with
        | none => 0
        | some cp =>
          if cp < minCp then 0
          else if 0xD800 ≤ cp ∧ cp ≤ 0xDFFF then 0
          else if cp > 0x10FFFF then 0
          else n

def hexDigit (n : Nat) : Byte := BitVec.ofNat 8 (if n < 10 then 0x30 + n else 0x61 + (n - 10))

/-- A byte as `\u00XX`. -/
def byteEscape (b : Byte) : Bytes :=
  [0x5C#8, 0x75#8, 0x30#8, 0x30#8, hexDigit (b.toNat / 16), hexDigit (b.toNat % 16)]

/-- `emit_raw_utf8` at a byte and what follows it: what is written and how far it advances. -/
def emitRawUtf8 (b : Byte) (rest : Bytes) : Bytes × Nat :=
  if b.toNat < 0x80 then ([b], 1)
  else
    let n := utf8ValidLen b rest
    if 0 < n then ((b :: rest).take n, n) else (byteEscape b, 1)

/-- The kinds of quotes: double, single and backtick. -/
inductive Quote
  | d
  | s
  | t
  deriving DecidableEq

/-- `at_quote`: the kind of the quote and its length. -/
def atQuote (prev : Option Byte) (rest : Bytes) : Option (Quote × Nat) :=
  match rest with
  | [] => none
  | c :: after =>
    if c = 0x22#8 then some (.d, 1)
    else if c = 0x27#8 then some (.s, 1)
    else if c = 0x60#8 then
      -- two or more backticks are a fence
      if prev = some 0x60#8 ∨ after.head? = some 0x60#8 then none else some (.t, 1)
    else if c = 0xE2#8 then
      if after.take 2 = [0x80#8, 0x9C#8] ∨ after.take 2 = [0x80#8, 0x9D#8] then some (.d, 3)
      else if after.take 2 = [0x80#8, 0x98#8] ∨ after.take 2 = [0x80#8, 0x99#8] then some (.s, 3)
      else none
    else none

/-- `at_fw_punct`. -/
def atFwPunct (rest : Bytes) (third : Byte) : Bool := rest.take 3 == [0xEF#8, 0xBC#8, third]

/-- `at_fw_sep`: a full-width comma or colon. -/
def atFwSep (rest : Bytes) : Bool := atFwPunct rest 0x8C#8 || atFwPunct rest 0x9A#8

/-- `at_uws`: the length of the invisible or typographic white space, or zero. -/
def atUws (rest : Bytes) : Nat :=
  if rest.take 2 = [0xC2#8, 0xA0#8] then 2
  else if rest.take 3 = [0xE2#8, 0x80#8, 0x89#8] then 3
  else if rest.take 3 = [0xE2#8, 0x80#8, 0x8B#8] then 3
  else if rest.take 3 = [0xE2#8, 0x80#8, 0x8C#8] then 3
  else if rest.take 3 = [0xE2#8, 0x80#8, 0x8D#8] then 3
  else if rest.take 3 = [0xE2#8, 0x80#8, 0xAF#8] then 3
  else if rest.take 3 = [0xE3#8, 0x80#8, 0x80#8] then 3
  else if rest.take 3 = [0xEF#8, 0xBB#8, 0xBF#8] then 3
  else 0

/-! ### Scalars -/

/-- What the loop of `emit_escaped` writes for one character, and how far it advances. -/
def escapeRound (b : Byte) (rest : Bytes) : Bytes × Nat :=
  if b = 0x22#8 then ([0x5C#8, 0x22#8], 1)
  else if b = 0x5C#8 then ([0x5C#8, 0x5C#8], 1)
  else if b = 0x0A#8 then ([0x5C#8, 0x6E#8], 1)
  else if b = 0x09#8 then ([0x5C#8, 0x74#8], 1)
  else if b = 0x0D#8 then ([0x5C#8, 0x72#8], 1)
  else if b = 0x08#8 then ([0x5C#8, 0x62#8], 1)
  else if b = 0x0C#8 then ([0x5C#8, 0x66#8], 1)
  else if b.toNat < 0x20 then (byteEscape b, 1)
  else emitRawUtf8 b rest

/-- The loop of `emit_escaped`. -/
def escapeLoop (raw : Bytes) : Bytes :=
  match raw with
  | [] => []
  | b :: rest => (escapeRound b rest).1 ++ escapeLoop ((b :: rest).drop (max 1 (escapeRound b rest).2))
termination_by raw.length
decreasing_by
  simp only [List.length_drop, List.length_cons]
  omega

/-- `emit_escaped`. -/
def emitEscaped (raw : Bytes) : Bytes := quoted (escapeLoop raw)

/-- The mantissa of `normalize_number`: the text so far, the numbers of integer and fraction
digits, and what is left. -/
def normalizeMantissa (r : Bytes) : Option (Bytes × Nat × Nat × Bytes) :=
  match r with
  | [] => none
  | c :: after =>
    if c = 0x2E#8 then
      let digits := after.takeWhile isDigit
      if digits = [] then none
      else some (0x30#8 :: 0x2E#8 :: digits, 0, digits.length, after.dropWhile isDigit)
    else if isDigit c then
      let sig := r.dropWhile (· == 0x30#8)
      let digits := sig.takeWhile isDigit
      some (if digits = [] then [0x30#8] else digits, digits.length, 0, sig.dropWhile isDigit)
    else none

/-- The fraction of `normalize_number`: the text, the number of digits, and what is left. -/
def normalizeFraction (r : Bytes) : Option (Bytes × Nat × Bytes) :=
  match r with
  | [] => some ([], 0, [])
  | c :: after =>
    if c = 0x2E#8 then
      let digits := after.takeWhile isDigit
      let left := after.dropWhile isDigit
      if digits = [] then
        if left = [] ∨ left.head? = some 0x65#8 ∨ left.head? = some 0x45#8 then
          some ([0x2E#8, 0x30#8], 0, left)
        else none
      else some (0x2E#8 :: digits, digits.length, left)
    else some ([], 0, r)

/-- The loop that reads the digits of an exponent. -/
def exponentDigits (digits : Bytes) : Nat :=
  digits.foldl (fun e b => if e < 1000000 then e * 10 + (b.toNat - 0x30) else e) 0

/-- The exponent of `normalize_number`, kept inside the range of doubles. -/
def clampExponent (intDigits fracDigits : Nat) (e : ℤ) : ℤ :=
  let cap := max 0 (300 - (intDigits : ℤ))
  let floor := (fracDigits : ℤ) - 300
  max (min e cap) floor

def exponentText (e : ℤ) : Bytes :=
  if e = 0 then []
  else 0x65#8 :: ((if e < 0 then [0x2D#8] else []) ++ Text.decimal e.natAbs)

/-- The exponent of `normalize_number`: the text, and what is left. -/
def normalizeExponent (intDigits fracDigits : Nat) (r : Bytes) : Option (Bytes × Bytes) :=
  match r with
  | [] => some ([], [])
  | c :: after =>
    if c = 0x65#8 ∨ c = 0x45#8 then
      let signed := after.head? = some 0x2B#8 ∨ after.head? = some 0x2D#8
      let body := if signed then after.drop 1 else after
      let digits := body.takeWhile isDigit
      let left := body.dropWhile isDigit
      let e : ℤ :=
        if after.head? = some 0x2D#8 then -(exponentDigits digits : ℤ) else exponentDigits digits
      if left ≠ [] then none
      else if digits = [] then some ([], [])
      else some (exponentText (clampExponent intDigits fracDigits e), [])
    else some ([], r)

/-- The decimal reading of `normalize_number`, before the test of `strtod`. -/
def normalizeDecimal (r : Bytes) : Option Bytes :=
  (normalizeMantissa r).bind fun (mantissa, intDigits, leadDigits, r) =>
    (normalizeFraction r).bind fun (fraction, fracDigits, r) =>
      (normalizeExponent intDigits (leadDigits + fracDigits) r).bind fun (exponent, left) =>
        if left = [] then some (mantissa ++ fraction ++ exponent) else none

/-- The hexadecimal integer of `normalize_number`, in 64 bits. -/
def hexInteger (digits : Bytes) : Nat :=
  digits.foldl (fun v b => (v * 16 + hexVal b) % 2 ^ 64) 0

/-- `normalize_number` behind the sign: what it writes when it returns true. -/
def normalizeUnsigned (accepts : Bytes → Bool) (neg : Bool) (r : Bytes) : Option Bytes :=
  let sign := if neg then [0x2D#8] else []
  if r = [] then none
  else if 2 < r.length ∧ (r.take 2 = [0x30#8, 0x78#8] ∨ r.take 2 = [0x30#8, 0x58#8]) then
    if (r.drop 2).all isHexDigit then some (sign ++ Text.decimal (hexInteger (r.drop 2))) else none
  else
    (normalizeDecimal r).bind fun norm => if accepts (sign ++ norm) then some (sign ++ norm) else none

/-- `normalize_number`. -/
def normalizeNumber (accepts : Bytes → Bool) (t : Bytes) : Option Bytes :=
  if t.head? = some 0x2B#8 then normalizeUnsigned accepts false (t.drop 1)
  else if t.head? = some 0x2D#8 then normalizeUnsigned accepts true (t.drop 1)
  else normalizeUnsigned accepts false t

/-- A token that may be a number. -/
def looksNumeric (tok : Bytes) : Bool :=
  match tok with
  | [] => false
  | c :: _ => isDigit c || c == 0x2B#8 || c == 0x2D#8 || c == 0x2E#8

/-- The words that `emit_bare_value` writes as `null`. -/
def isNullWord (tok : Bytes) : Bool :=
  ieq tok "null" || ieq tok "none" || ieq tok "nan" || ieq tok "undefined"

def isInfinity (tok : Bytes) : Bool := ieq tok "infinity" || ieq tok "inf"

/-- An infinity, with or without a sign. -/
def isSignedInfinity (tok : Bytes) : Bool :=
  if tok.head? = some 0x2B#8 ∨ tok.head? = some 0x2D#8 then isInfinity (tok.drop 1)
  else isInfinity tok

/-- `emit_bare_value`. -/
def emitBareValue (accepts : Bytes → Bool) (tok : Bytes) : Bytes :=
  if ieq tok "true" then Text.ascii "true"
  else if ieq tok "false" then Text.ascii "false"
  else if isNullWord tok then Text.ascii "null"
  else if isSignedInfinity tok then Text.ascii "null"
  else if looksNumeric tok then (normalizeNumber accepts tok).getD (emitEscaped tok)
  else emitEscaped tok

/-! ### Positions -/

/-- A position: the byte before it and what follows. -/
structure Cursor where
  prev : Option Byte
  rest : Bytes

namespace Cursor

def skip (c : Cursor) (n : Nat) : Cursor := ⟨(c.rest.take n).getLast?.or c.prev, c.rest.drop n⟩

@[simp] theorem rest_skip (c : Cursor) (n : Nat) : (c.skip n).rest = c.rest.drop n := rfl

def atQuote (c : Cursor) : Option (Quote × Nat) := Core.atQuote c.prev c.rest

end Cursor

/-- From behind the `/*` of a comment to behind its end. -/
def blockLength : Bytes → Nat
  | [] => 0
  | b :: rest => if b = 0x2A#8 ∧ rest.head? = some 0x2F#8 then 2 else blockLength rest + 1

/-- What one round of `skip_ws` passes over; zero where it stops. -/
def blankLength (rest : Bytes) : Nat :=
  match rest with
  | [] => 0
  | c :: after =>
    if isBlank c then 1
    else if 0 < atUws rest then atUws rest
    else if c = 0x2F#8 ∧ after.head? = some 0x2F#8 then
      2 + ((after.drop 1).takeWhile (· != 0x0A#8)).length
    else if c = 0x2F#8 ∧ after.head? = some 0x2A#8 then 2 + blockLength (after.drop 1)
    else 0

/-- `skip_ws`. -/
def skipWs (c : Cursor) : Cursor :=
  if c.rest = [] ∨ blankLength c.rest = 0 then c else skipWs (c.skip (blankLength c.rest))
termination_by c.rest.length
decreasing_by
  rename_i h
  push Not at h
  have hpos := List.length_pos_iff.mpr h.1
  simp only [Cursor.rest_skip, List.length_drop]
  omega

/-- `bare_terminator`. -/
def bareTerminator (b : Byte) : Bool :=
  isBlank b || b == 0x2C#8 || b == 0x3A#8 || b == 0x3B#8 || b == 0x7B#8 || b == 0x7D#8 ||
    b == 0x5B#8 || b == 0x5D#8 || b == 0x2F#8

/-- The length of the bare token at a position. -/
def bareLength : Option Byte → Bytes → Nat
  | _, [] => 0
  | prev, b :: rest =>
    if bareTerminator b || (atQuote prev (b :: rest)).isSome || atFwSep (b :: rest) ||
        decide (0 < atUws (b :: rest)) then 0
    else bareLength (some b) rest + 1

/-! ### Strings -/

/-- The `\u` escape, from behind the `u`: what is written and how far it advances. -/
def unicodeEscape (rest : Bytes) : Bytes × Nat :=
  let ds := rest.take 4
  if IsHex4 ds then
    let lo := (rest.drop 6).take 4
    if isHigh (hexNat ds) ∧ (rest.drop 4).take 2 = [0x5C#8, 0x75#8] ∧ IsHex4 lo ∧
        isLow (hexNat lo) then
      (0x5C#8 :: 0x75#8 :: (ds ++ 0x5C#8 :: 0x75#8 :: lo), 10)
    else if isHigh (hexNat ds) ∨ isLow (hexNat ds) then (Text.ascii "\\uFFFD", 4)
    else (0x5C#8 :: 0x75#8 :: ds, 4)
  else ([0x5C#8, 0x5C#8, 0x75#8], 0)

/-- The `\x` escape, from behind the `x`. -/
def byteEscapeRead (rest : Bytes) : Bytes × Nat :=
  let ds := rest.take 2
  if ds.length = 2 ∧ ds.all isHexDigit then
    let v : Byte := BitVec.ofNat 8 (hexNat ds)
    if v.toNat < 0x20 ∨ 0x80 ≤ v.toNat ∨ v = 0x22#8 ∨ v = 0x5C#8 then (byteEscape v, 2) else ([v], 2)
  else ([0x5C#8, 0x5C#8, 0x78#8], 0)

/-- An escape, from behind the backslash: what is written and how far it advances. -/
def escape (e : Byte) (rest : Bytes) : Bytes × Nat :=
  if e = 0x6E#8 ∨ e = 0x74#8 ∨ e = 0x72#8 ∨ e = 0x62#8 ∨ e = 0x66#8 ∨ e = 0x22#8 ∨ e = 0x5C#8 ∨
      e = 0x2F#8 then
    ([0x5C#8, e], 1)
  else if e = 0x27#8 ∨ e = 0x60#8 then ([e], 1)
  else if e = 0x75#8 then ((unicodeEscape rest).1, 1 + (unicodeEscape rest).2)
  else if e = 0x78#8 then ((byteEscapeRead rest).1, 1 + (byteEscapeRead rest).2)
  else if e.toNat < 0x20 then (0x5C#8 :: 0x5C#8 :: byteEscape e, 1)
  else (0x5C#8 :: 0x5C#8 :: (emitRawUtf8 e rest).1, (emitRawUtf8 e rest).2)

/-- What a character of a string becomes that neither closes it nor begins an escape. -/
def rawCharacter (b : Byte) (rest : Bytes) : Bytes × Nat :=
  if b = 0x22#8 then ([0x5C#8, 0x22#8], 1)
  else if b = 0x27#8 then ([b], 1)
  else if b.toNat < 0x20 then
    if b = 0x0A#8 then ([0x5C#8, 0x6E#8], 1)
    else if b = 0x09#8 then ([0x5C#8, 0x74#8], 1)
    else if b = 0x0D#8 then ([0x5C#8, 0x72#8], 1)
    else (byteEscape b, 1)
  else if 0x80 ≤ b.toNat then emitRawUtf8 b rest
  else ([b], 1)

/-- One round of `scan_quoted`: what is written, how far it advances and whether the string
goes on. -/
def quotedRound (kind : Quote) (prev : Option Byte) (b : Byte) (rest : Bytes) : Bytes × Nat × Bool :=
  match atQuote prev (b :: rest) with
  | some (k, n) => if k = kind then ([], n, false) else plain b rest
  | none => plain b rest
where
  plain (b : Byte) (rest : Bytes) : Bytes × Nat × Bool :=
    if b = 0x5C#8 then
      match rest with
      | [] => ([], 1, false)
      | e :: after => ((escape e after).1, 1 + (escape e after).2, true)
    else ((rawCharacter b rest).1, (rawCharacter b rest).2, true)

/-- The loop of `scan_quoted`. -/
def quotedLoop (kind : Quote) (c : Cursor) : Bytes × Cursor :=
  match h : c.rest with
  | [] => ([], c)
  | b :: rest =>
    let (piece, n, more) := quotedRound kind c.prev b rest
    if more then
      let (body, c') := quotedLoop kind (c.skip (max 1 n))
      (piece ++ body, c')
    else (piece, c.skip n)
termination_by c.rest.length
decreasing_by
  simp only [Cursor.rest_skip, List.length_drop, h, List.length_cons]
  omega

/-- `scan_quoted`: the string that is written, and the position behind it. -/
def scanQuoted (c : Cursor) : Bytes × Cursor :=
  let (kind, n) := c.atQuote.getD (.d, 0)
  let (body, c') := quotedLoop kind (c.skip n)
  (quoted body, c')

/-! ### The machine -/

/-- An open container: an object or an array, and whether it has a member or an element. -/
structure Frame where
  obj     : Bool
  hasPrev : Bool

inductive St
  | value
  | key
  | colon
  deriving DecidableEq

/-- `Repairer`; the innermost container is the head of the stack. -/
structure Repairer where
  cur           : Cursor
  out           : Bytes := []
  stk           : List Frame := []
  st            : St := .value
  valueRequired : Bool := false
  done          : Bool := false

namespace Repairer

/-- `finish_value`. -/
def finishValue (r : Repairer) : Repairer :=
  match r.stk with
  | [] => { r with done := true }
  | f :: stk =>
    { r with
      stk           := { f with hasPrev := true } :: stk
      st            := if f.obj then .key else .value
      valueRequired := false }

def emit (r : Repairer) (t : Bytes) : Repairer := { r with out := r.out ++ t }

/-- The closing bracket of a container. -/
def closer (f : Frame) : Byte := if f.obj then 0x7D#8 else 0x5D#8

/-- `close_top`. -/
def closeTop (r : Repairer) : Repairer :=
  match r.stk with
  | [] => r
  | f :: stk => { r.emit [closer f] with stk }.finishValue

/-- `while (close_top()) {}`: one round for each open container. -/
def closeAll (r : Repairer) : Repairer := closeTop^[r.stk.length] r

/-- `maybe_comma`. -/
def maybeComma (r : Repairer) : Repairer :=
  match r.stk with
  | [] => r
  | f :: _ => if f.hasPrev then r.emit [0x2C#8] else r

/-- The comma before an element of an array. -/
def elemComma (r : Repairer) : Repairer :=
  match r.stk with
  | [] => r
  | f :: _ => if !f.obj && !r.valueRequired then r.maybeComma else r

/-- Moves the position to `c`. -/
def move (r : Repairer) (c : Cursor) : Repairer := { r with cur := c }

/-- The null of a member whose value is missing. -/
def emitMissing (r : Repairer) : Repairer :=
  if r.valueRequired then { r.emit (Text.ascii "null") with valueRequired := false } else r

end Repairer

/-- The look-ahead for groups of three digits: the digits read, and the end of the last group
that is well formed. -/
def groupLoop (digits : Bytes) (c : Cursor) : Bytes × Cursor :=
  let sep := if c.rest.head? = some 0x2C#8 then 1 else atUws c.rest
  if sep = 0 then (digits, c)
  else
    let group := ((c.rest.drop sep).take 3).takeWhile isDigit
    let after := c.rest.drop (sep + 3)
    if h : group.length ≠ 3 ∨ after.head?.any isDigit then (digits ++ group, c)
    else groupLoop (digits ++ group) (c.skip (sep + 3))
termination_by c.rest.length
decreasing_by
  push Not at h
  have hinitial : ((c.rest.drop sep).take 3).takeWhile isDigit <+: (c.rest.drop sep).take 3 :=
    List.takeWhile_prefix isDigit
  have hgroup := hinitial.length_le
  have hlen : (((c.rest.drop sep).take 3).takeWhile isDigit).length = 3 := h.1
  simp only [List.length_take, List.length_drop, Cursor.rest_skip] at hgroup hlen ⊢
  omega

/-- A thousands-separated integer behind the token `tok`: its digits and its end. -/
def thousands (tok : Bytes) (c : Cursor) : Option (Bytes × Cursor) :=
  if tok.length ≤ 3 ∧ tok.head?.any isDigit ∧ tok.all isDigit then
    let (digits, stop) := groupLoop tok c
    let next := stop.rest.head?
    if stop.rest.length < c.rest.length ∧
        ¬(next = some 0x2E#8 ∨ next = some 0x65#8 ∨ next = some 0x45#8) then
      some (digits, stop)
    else none
  else none

/-- The gap between two words: spaces, tabs and typographic white space. -/
def skipGap (c : Cursor) : Cursor :=
  if c.rest.head? = some 0x20#8 ∨ c.rest.head? = some 0x09#8 then skipGap (c.skip 1)
  else if 0 < atUws c.rest then skipGap (c.skip (atUws c.rest))
  else c
termination_by c.rest.length
decreasing_by
  · rename_i h
    have hpos : c.rest ≠ [] := by
      rintro hnil
      simp [hnil] at h
    have hlen := List.length_pos_iff.mpr hpos
    simp only [Cursor.rest_skip, List.length_drop]
    omega
  · rename_i h
    have hpos : c.rest ≠ [] := by
      rintro hnil
      simp [hnil, atUws] at h
    have hlen := List.length_pos_iff.mpr hpos
    simp only [Cursor.rest_skip, List.length_drop]
    omega

theorem length_skipGap (c : Cursor) : (skipGap c).rest.length ≤ c.rest.length := by
  fun_induction skipGap c with
  | case1 c h ih =>
    simp only [Cursor.rest_skip, List.length_drop] at ih
    omega
  | case2 c h hu ih =>
    simp only [Cursor.rest_skip, List.length_drop] at ih
    omega
  | case3 c h hu => exact le_rfl

/-- The look-ahead for further words of an unquoted string: the words joined and where they
end, unless the run of words is refused. -/
def wordsLoop (cand : Bytes) (pieces : Nat) (c : Cursor) : Option (Bytes × Cursor) :=
  let q := skipGap c
  let commit := if 0 < pieces then some (cand, c) else none
  if q.rest = [] then none
  else if q.rest.length = c.rest.length then
    -- the run ended on the last terminator
    if c.rest.head? = some 0x2C#8 ∨ c.rest.head? = some 0x3B#8 then commit else none
  else if q.atQuote.isSome then commit
  else if q.rest.take 2 = [0x2F#8, 0x2F#8] ∨ q.rest.take 2 = [0x2F#8, 0x2A#8] then none
  else
    let n := bareLength q.prev q.rest
    let w := q.skip n
    if n = 0 then none
    else if w.rest = [] then none
    else if w.rest.head? = some 0x3A#8 ∨ w.rest.head? = some 0x3D#8 then none
    else wordsLoop (cand ++ 0x20#8 :: q.rest.take n) (pieces + 1) w
termination_by c.rest.length
decreasing_by
  have hgap := length_skipGap c
  have hpos : 0 < (skipGap c).rest.length := List.length_pos_iff.mpr ‹_›
  have hn : bareLength (skipGap c).prev (skipGap c).rest ≠ 0 := ‹_›
  simp only [Cursor.rest_skip, List.length_drop]
  omega

/-- Several words behind the token `tok` that make one string. -/
def words (tok : Bytes) (c : Cursor) : Option (Bytes × Cursor) :=
  if tok ≠ [] ∧ looksNumeric tok = false ∧ ieq tok "true" = false ∧ ieq tok "false" = false ∧
      isNullWord tok = false ∧ isInfinity tok = false then
    wordsLoop tok 0 c
  else none

namespace Repairer

variable (accepts : Bytes → Bool)

/-- The bare token at the position. -/
def token (r : Repairer) : Bytes := r.cur.rest.take (bareLength r.cur.prev r.cur.rest)

/-- The position behind the bare token. -/
def behindToken (r : Repairer) : Cursor := r.cur.skip (bareLength r.cur.prev r.cur.rest)

/-- The look-ahead for a thousands-separated integer, right after a colon only. -/
def thousandsAhead (r : Repairer) : Option (Bytes × Cursor) :=
  if r.valueRequired then thousands r.token r.behindToken else none

/-- The look-ahead for a string of several words, right after a colon only. -/
def wordsAhead (r : Repairer) : Option (Bytes × Cursor) :=
  if r.valueRequired then words r.token r.behindToken else none

/-- A bare token in the place of a value. -/
def bareStep (r : Repairer) : Repairer :=
  if bareLength r.cur.prev r.cur.rest = 0 then r.move (r.cur.skip 1)
  else
    match r.thousandsAhead with
    | some (digits, stop) =>
      -- what `normalize_number` returns is not looked at
      ((r.elemComma.emit ((normalizeNumber accepts digits).getD [])).move stop).finishValue
    | none =>
      match r.wordsAhead with
      | some (text, stop) => ((r.elemComma.emit (emitEscaped text)).move stop).finishValue
      | none => ((r.elemComma.emit (emitBareValue accepts r.token)).move r.behindToken).finishValue

/-- An opening brace. -/
def openObject (r : Repairer) : Repairer :=
  { (r.emit [0x7B#8]).move (r.cur.skip 1) with stk := ⟨true, false⟩ :: r.stk, st := .key }

/-- An opening bracket. -/
def openArray (r : Repairer) : Repairer :=
  { (r.emit [0x5B#8]).move (r.cur.skip 1) with
    stk := ⟨false, false⟩ :: r.stk, st := .value, valueRequired := false }

/-- A stray separator in the place of a value. -/
def straySeparator (r : Repairer) : Repairer :=
  let n := if atFwSep r.cur.rest then 3 else 1
  if r.valueRequired then r.emitMissing.finishValue.move (r.cur.skip n) else r.move (r.cur.skip n)

/-- The value state, at a byte. -/
def valueByte (r : Repairer) (c : Byte) : Repairer :=
  if c = 0x7B#8 then r.elemComma.openObject
  else if c = 0x5B#8 then r.elemComma.openArray
  else if r.cur.atQuote.isSome then
    ((r.elemComma.emit (scanQuoted r.cur).1).move (scanQuoted r.cur).2).finishValue
  else if c = 0x2C#8 ∨ c = 0x3A#8 ∨ c = 0x3B#8 ∨ atFwSep r.cur.rest then r.straySeparator
  else if c = 0x7D#8 ∨ c = 0x5D#8 then
    -- closes whichever container is open
    (r.emitMissing.closeTop).move (r.cur.skip 1)
  else if c = 0x2F#8 then r.move (r.cur.skip 1)
  else r.bareStep accepts

/-- `St::Value`. -/
def valueStep (r : Repairer) : Repairer :=
  let r := r.move (skipWs r.cur)
  match r.cur.rest with
  | [] => { r.emitMissing.closeAll with done := true }
  | c :: _ => r.valueByte accepts c

/-- An unquoted key: its text, and the position behind it. -/
def bareKey (r : Repairer) : Bytes × Cursor := (emitEscaped r.token, r.behindToken)

/-- `St::Key`. -/
def keyStep (r : Repairer) : Repairer :=
  let r := r.move (skipWs r.cur)
  match r.cur.rest with
  | [] => r.closeTop
  | c :: _ =>
    if c = 0x7D#8 ∨ c = 0x5D#8 then (r.move (r.cur.skip 1)).closeTop
    else if c = 0x2C#8 ∨ c = 0x3A#8 ∨ c = 0x3B#8 then r.move (r.cur.skip 1)
    else if atFwSep r.cur.rest then r.move (r.cur.skip 3)
    else
      let (text, c') := if r.cur.atQuote.isSome then scanQuoted r.cur else r.bareKey
      { (r.maybeComma.emit text).move c' with st := .colon }

end Repairer

/-- A colon, in ASCII or full width. -/
def atColon (c : Cursor) : Bool := c.rest.head? == some 0x3A#8 || atFwPunct c.rest 0x9A#8

/-- Over a colon, where there is one. -/
def skipColon (c : Cursor) : Cursor :=
  if c.rest.head? = some 0x3A#8 then c.skip 1
  else if atFwPunct c.rest 0x9A#8 then c.skip 3
  else c

theorem length_skipWs (c : Cursor) : (skipWs c).rest.length ≤ c.rest.length := by
  fun_induction skipWs c with
  | case1 c h => exact le_rfl
  | case2 c h ih =>
    simp only [Cursor.rest_skip, List.length_drop] at ih
    omega

theorem atColon_pos {c : Cursor} (h : atColon c) : 0 < c.rest.length := by
  rw [List.length_pos_iff]
  rintro hnil
  simp [atColon, atFwPunct, hnil] at h

/-- The loop over a run of colons. -/
def colonLoop (c : Cursor) : Cursor :=
  if h : atColon c then colonLoop (skipColon c)
  else if h' : atColon (skipWs c) then
    -- one byte only, also at a full-width colon
    colonLoop ((skipWs c).skip 1)
  else c
termination_by c.rest.length
decreasing_by
  · have hpos := atColon_pos h
    unfold skipColon
    split_ifs with h1 h2
    · simp only [Cursor.rest_skip, List.length_drop]
      omega
    · simp only [Cursor.rest_skip, List.length_drop]
      omega
    · simp [atColon, h1, h2] at h
  · have hpos := atColon_pos h'
    have hle := length_skipWs c
    simp only [Cursor.rest_skip, List.length_drop]
    omega

/-- Over the arrows and equals signs that stand for a colon. -/
def skipColonAlias (c : Cursor) : Cursor :=
  if c.rest.head? = some 0x3D#8 then
    if (c.skip 1).rest.head? = some 0x3E#8 then c.skip 2 else c.skip 1
  else if c.rest.take 2 = [0x2D#8, 0x3E#8] then c.skip 2
  else c

namespace Repairer

variable (accepts : Bytes → Bool)

/-- `St::Colon`. -/
def colonStep (r : Repairer) : Repairer :=
  let r := r.move (skipWs r.cur)
  if r.cur.rest = [] then (r.emit (0x3A#8 :: Text.ascii "null")).closeTop
  else
    { (r.emit [0x3A#8]).move (skipColonAlias (skipWs (colonLoop (skipColon r.cur)))) with
      st := .value, valueRequired := true }

/-- One round of the loop of `run`. -/
def step (r : Repairer) : Repairer :=
  if r.done then r
  else
    match r.st with
    | .value => r.valueStep accepts
    | .key => r.keyStep
    | .colon => r.colonStep

end Repairer

/-! ### The prologue -/

/-- A character glued to a word. -/
def glued (c : Cursor) : Bool :=
  c.prev.any fun b =>
    b == 0x5F#8 || (decide (0x61 ≤ b.toNat) && decide (b.toNat ≤ 0x7A)) ||
      (decide (0x41 ≤ b.toNat) && decide (b.toNat ≤ 0x5A)) || isDigit b

/-- Where the body of the JSON text may begin. -/
def isAnchor (c : Cursor) : Bool :=
  c.rest.head? == some 0x7B#8 || c.rest.head? == some 0x5B#8 || (c.atQuote.isSome && !glued c) ||
    (c.rest.head?.any startsValue && !glued c)

/-- The loop over the chatter in front of the JSON text. -/
def prologueLoop (c : Cursor) : Cursor :=
  let c' := skipWs c
  if h : c'.rest = [] then c'
  else if isAnchor c' then c'
  else prologueLoop (c'.skip 1)
termination_by c.rest.length
decreasing_by
  have hle := length_skipWs c
  have hpos : 0 < (skipWs c).rest.length := List.length_pos_iff.mpr h
  simp only [Cursor.rest_skip, List.length_drop]
  omega

/-- Where the machine of `run` starts. -/
def prologue (input : Bytes) : Cursor :=
  let c : Cursor := ⟨none, input⟩
  let c := if input.take 3 = [0xEF#8, 0xBB#8, 0xBF#8] then c.skip 3 else c
  let start := skipWs c
  if start.rest = [] ∨ start.rest.head?.any startsValue then start
  else
    let anchor := skipWs (prologueLoop start)
    -- without an anchor the text is parsed from its beginning
    if anchor.rest = [] then start else anchor

def start (input : Bytes) : Repairer := { cur := prologue input }

/-- A bound on the rounds of `run`, after which the machine is done. -/
def rounds (input : Bytes) : Nat := 5 * input.length + 1

/-- `Repairer::run`. -/
def run (accepts : Bytes → Bool) (input : Bytes) : Bytes :=
  let r := (Repairer.step accepts)^[rounds input] (start input)
  if r.out = [] then Text.ascii "null" else r.out

/-- `kimix::repair`, with the strict reader's check `isValidJson`. -/
def repair (isValidJson accepts : Bytes → Bool) (json : Bytes) : Bytes :=
  if isValidJson json then []
  else
    let res := run accepts json
    if isValidJson res then res ++ [0x00#8] else []

end KimixNative.Core
