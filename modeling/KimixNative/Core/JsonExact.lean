import Mathlib.Data.List.Induction
import KimixNative.Lib.JsonNumber
import KimixNative.Core.JsonRuns

/-!
# The repairer leaves JSON as it is

Tokens first. A string without curly double quotes is written back byte by byte, and a number
whose exponent stays inside the range that `normalize_number` keeps is written with the same
value.
-/

namespace KimixNative.Core

open Json

/-! ### Strings -/

/-- The encodings of the curly double quotes, which also close a string. -/
def curlyQuotes : List Bytes := [[0xE2#8, 0x80#8, 0x9C#8], [0xE2#8, 0x80#8, 0x9D#8]]

/-- No curly double quote occurs in the text. -/
def NoCurly (t : Bytes) : Prop := ∀ q ∈ curlyQuotes, ¬ q <:+: t

variable {t rest : Bytes} {b : Byte} {c : Cursor} {prev : Option Byte}

variable {u body : Bytes} {n : Nat} {cs : List Nat}

theorem NoCurly.mono (h : NoCurly u) (htu : t <:+: u) : NoCurly t := by
  intro q hq hqt
  exact h q hq (hqt.trans htu)

theorem NoCurly.left (h : NoCurly (t ++ u)) : NoCurly t :=
  h.mono (List.prefix_append t u).isInfix

theorem NoCurly.right (h : NoCurly (t ++ u)) : NoCurly u :=
  h.mono (List.suffix_append t u).isInfix

theorem NoCurly.tail (h : NoCurly (b :: t)) : NoCurly t :=
  h.mono (List.suffix_cons b t).isInfix

/-- One round of the loop of `scan_quoted` that goes on. -/
theorem quotedLoop_more {kind : Quote} {piece : Bytes} (hrest : c.rest = b :: rest)
    (hround : quotedRound kind c.prev b rest = (piece, n, true)) :
    quotedLoop kind c = (piece ++ (quotedLoop kind (c.skip (max 1 n))).1,
      (quotedLoop kind (c.skip (max 1 n))).2) := by
  rw [quotedLoop]
  split
  · rename_i h
    rw [hrest] at h
    cases h
  · rename_i b' rest' h
    rw [hrest] at h
    obtain ⟨rfl, rfl⟩ := List.cons.inj h
    simp only [hround, if_true]

/-- A quotation mark closes a string that began with one. -/
theorem quotedLoop_close (hrest : c.rest = 0x22#8 :: rest) : quotedLoop .d c = ([], c.skip 1) := by
  rw [quotedLoop]
  split
  · rename_i h
    rw [hrest] at h
    cases h
  · rename_i b' rest' h
    rw [hrest] at h
    obtain ⟨rfl, rfl⟩ := List.cons.inj h
    simp [quotedRound, atQuote]

theorem quotedRound_back {e : Byte} :
    quotedRound .d prev 0x5C#8 (e :: rest) =
      ((escape e rest).1, 1 + (escape e rest).2, true) := by
  simp [quotedRound, atQuote, quotedRound.plain]

theorem escape_simple {e : Byte} {cp : Nat} (h : escapeValue e = some cp) (rest : Bytes) :
    escape e rest = ([0x5C#8, e], 1) := by
  unfold escapeValue at h
  unfold escape
  refine if_pos ?_
  split_ifs at h <;> simp_all

theorem take_append_length (h : t.length = n) (u : Bytes) : (t ++ u).take n = t := by
  rw [← h, List.take_left]

theorem drop_append_length (h : t.length = n) (u : Bytes) : (t ++ u).drop n = u := by
  rw [← h, List.drop_left]

theorem escape_unicode {ds : Bytes} (hds : IsHex4 ds) (hhigh : isHigh (hexNat ds) = false)
    (hlow : isLow (hexNat ds) = false) (rest : Bytes) :
    escape 0x75#8 (ds ++ rest) = (0x5C#8 :: 0x75#8 :: ds, 5) := by
  have htake := take_append_length hds.1 rest
  simp [escape, unicodeEscape, htake, hds, hhigh, hlow]

theorem escape_pair {hi lo : Bytes} (hhi : IsHex4 hi) (hlo : IsHex4 lo)
    (hhigh : isHigh (hexNat hi) = true) (hlow : isLow (hexNat lo) = true) (rest : Bytes) :
    escape 0x75#8 (hi ++ 0x5C#8 :: 0x75#8 :: (lo ++ rest)) =
      (0x5C#8 :: 0x75#8 :: (hi ++ 0x5C#8 :: 0x75#8 :: lo), 11) := by
  have htake := take_append_length hhi.1 (0x5C#8 :: 0x75#8 :: (lo ++ rest))
  have hdrop := drop_append_length hhi.1 (0x5C#8 :: 0x75#8 :: (lo ++ rest))
  have hdrop6 : (hi ++ 0x5C#8 :: 0x75#8 :: (lo ++ rest)).drop 6 = lo ++ rest := by
    rw [show 6 = 4 + 2 from rfl, ← List.drop_drop, hdrop]
    rfl
  have htake6 := take_append_length hlo.1 rest
  simp [escape, unicodeEscape, htake, hdrop, hdrop6, htake6, hhi, hlo, hhigh, hlow]

/-- A raw character of ASCII other than the quotation mark and the backslash. -/
theorem quotedRound_ascii (hlow : 0x20 ≤ b.toNat) (hhigh : b.toNat < 0x80) (hquote : b ≠ 0x22#8)
    (hback : b ≠ 0x5C#8) : quotedRound .d prev b rest = ([b], 1, true) := by
  have hplain : quotedRound.plain b rest = ([b], 1, true) := by
    simp only [quotedRound.plain, if_neg hback, rawCharacter, if_neg hquote]
    by_cases hsingle : b = 0x27#8
    · simp [hsingle]
    · rw [if_neg hsingle, if_neg (by omega), if_neg (by omega)]
  have hlead : b ≠ 0xE2#8 := by
    rintro rfl
    simp at hhigh
  unfold quotedRound
  cases hat : atQuote prev (b :: rest) with
  | none => exact hplain
  | some q =>
    obtain ⟨k, n⟩ := q
    have hkind : k ≠ .d := by
      simp only [atQuote, if_neg hquote, if_neg hlead] at hat
      rintro rfl
      split_ifs at hat <;> simp at hat
    dsimp only
    rw [if_neg hkind]
    exact hplain

/-- A raw character beyond ASCII other than the curly double quotes. -/
theorem quotedRound_large {cp : Nat} (hscalar : IsScalar cp) (hlarge : 0x80 ≤ cp)
    (hcurly : NoCurly (utf8 cp)) (hutf8 : utf8 cp = b :: t) (rest : Bytes) :
    quotedRound .d prev b (t ++ rest) = (utf8 cp, (utf8 cp).length, true) := by
  obtain ⟨b', t', hutf8', hb, hlen⟩ := utf8_accepted hscalar hlarge
  obtain ⟨rfl, rfl⟩ := List.cons.inj (hutf8.symm.trans hutf8')
  have hbytes : ∀ a : Byte, a.toNat < 0x80 → b ≠ a := by
    rintro a ha rfl
    omega
  have hplain : quotedRound.plain b (t ++ rest) = (utf8 cp, (utf8 cp).length, true) := by
    simp only [quotedRound.plain, if_neg (hbytes 0x5C#8 (by decide)), rawCharacter,
      if_neg (hbytes 0x22#8 (by decide)), if_neg (hbytes 0x27#8 (by decide)),
      if_neg (show ¬ b.toNat < 0x20 by omega), if_pos hb, emitRawUtf8,
      if_neg (show ¬ b.toNat < 0x80 by omega), hlen rest]
    rw [if_pos (by omega)]
    simp [hutf8]
  unfold quotedRound
  cases hat : atQuote prev (b :: (t ++ rest)) with
  | none => exact hplain
  | some q =>
    obtain ⟨k, n⟩ := q
    have hkind : k ≠ .d := by
      rintro rfl
      simp only [atQuote, if_neg (hbytes 0x22#8 (by decide)), if_neg (hbytes 0x27#8 (by decide)),
        if_neg (hbytes 0x60#8 (by decide))] at hat
      split_ifs at hat with hlead hcurly' hsingle
      · -- the encoding would be that of a curly double quote
        have hpos : 0 < utf8ValidLen b (t ++ rest) := by
          rw [hlen rest]
          omega
        obtain ⟨n, lead, minCp, cp', hn, -, -, -, -, hvalid⟩ := utf8ValidLen_cases hb hpos
        have hthree : 3 = n := by
          rw [hlead] at hn
          have hdata : some (3, 0x02, 0x800) = some (n, lead, minCp) := hn
          simp only [Option.some.injEq, Prod.mk.injEq] at hdata
          exact hdata.1
        rw [hlen rest] at hvalid
        rw [List.take_append_of_le_length (by omega), List.take_of_length_le (by omega)] at hcurly'
        refine absurd (List.infix_refl (utf8 cp)) (hcurly (utf8 cp) ?_)
        rw [hutf8, hlead]
        obtain h | h := hcurly' <;> simp [curlyQuotes, h]
      · simp at hat
    dsimp only
    rw [if_neg hkind]
    exact hplain

/-- One round on a raw character. -/
theorem quotedRound_plain {prev : Option Byte} {cp : Nat} (h : IsPlain cp)
    (hcurly : NoCurly (utf8 cp)) :
    ∃ b t, utf8 cp = b :: t ∧
      ∀ rest, quotedRound .d prev b (t ++ rest) = (utf8 cp, (utf8 cp).length, true) := by
  obtain ⟨hscalar, hcontrol, hquote, hback⟩ := h
  rcases Nat.lt_or_ge cp 0x80 with hsmall | hlarge
  · have hutf8 : utf8 cp = [BitVec.ofNat 8 cp] := by rw [utf8, if_pos hsmall]
    have hval := toNat_lead (show cp < 0x100 by omega)
    refine ⟨_, _, hutf8, ?_⟩
    intro rest
    rw [hutf8]
    refine quotedRound_ascii (by omega) (by omega) ?_ ?_
    · intro heq
      rw [heq] at hval
      exact hquote hval.symm
    · intro heq
      rw [heq] at hval
      exact hback hval.symm
  · obtain ⟨b, t, hutf8, -, -⟩ := utf8_accepted hscalar hlarge
    exact ⟨b, t, hutf8, quotedRound_large hscalar hlarge hcurly hutf8⟩

/-- The body of a string without curly double quotes is written as it is. -/
theorem quotedLoop_exact (h : StringBody body cs) (hcurly : NoCurly body) (rest : Bytes)
    (hrest : c.rest = body ++ 0x22#8 :: rest) :
    (quotedLoop .d c).1 = body ∧ (quotedLoop .d c).2.rest = rest := by
  induction h generalizing c with
  | nil =>
    rw [List.nil_append] at hrest
    rw [quotedLoop_close hrest]
    simp [hrest]
  | @char cp t cs hcp _ ih =>
    obtain ⟨b, t', hutf8, hround⟩ := @quotedRound_plain c.prev cp hcp hcurly.left
    have hrest' : c.rest = b :: (t' ++ (t ++ 0x22#8 :: rest)) := by simp [hrest, hutf8]
    rw [quotedLoop_more hrest' (hround _)]
    have hskip : (c.skip (max 1 (utf8 cp).length)).rest = t ++ 0x22#8 :: rest := by
      have hmax : max 1 (utf8 cp).length = (utf8 cp).length := by simp [hutf8]
      rw [hmax, Cursor.rest_skip, hrest, List.append_assoc, List.drop_left]
    obtain ⟨hpiece, hleft⟩ := ih hcurly.right hskip
    exact ⟨by simp [hpiece], hleft⟩
  | @escape e cp t cs he _ ih =>
    rw [quotedLoop_more hrest quotedRound_back, escape_simple he]
    have hskip : (c.skip (max 1 (1 + 1))).rest = t ++ 0x22#8 :: rest := by simp [hrest]
    obtain ⟨hpiece, hleft⟩ := ih hcurly.tail.tail hskip
    refine ⟨?_, hleft⟩
    dsimp only
    rw [hpiece]
    simp
  | @unicode ds t cs hds hhigh hlow _ ih =>
    have hrest' : c.rest = 0x5C#8 :: 0x75#8 :: (ds ++ (t ++ 0x22#8 :: rest)) := by simp [hrest]
    rw [quotedLoop_more hrest' quotedRound_back, escape_unicode hds hhigh hlow]
    have hskip : (c.skip (max 1 (1 + 5))).rest = t ++ 0x22#8 :: rest := by
      have hdrop := drop_append_length hds.1 (t ++ 0x22#8 :: rest)
      simp [hrest', hdrop]
    obtain ⟨hpiece, hleft⟩ := ih hcurly.tail.tail.right hskip
    refine ⟨?_, hleft⟩
    dsimp only
    rw [hpiece]
    simp
  | @pair hi lo t cs hhi hlo hhigh hlow _ ih =>
    have hrest' : c.rest =
        0x5C#8 :: 0x75#8 :: (hi ++ 0x5C#8 :: 0x75#8 :: (lo ++ (t ++ 0x22#8 :: rest))) := by
      simp [hrest]
    rw [quotedLoop_more hrest' quotedRound_back, escape_pair hhi hlo hhigh hlow]
    have hskip : (c.skip (max 1 (1 + 11))).rest = t ++ 0x22#8 :: rest := by
      have hdrop := drop_append_length hhi.1 (0x5C#8 :: 0x75#8 :: (lo ++ (t ++ 0x22#8 :: rest)))
      have hdrop' := drop_append_length hlo.1 (t ++ 0x22#8 :: rest)
      rw [Cursor.rest_skip, hrest', show max 1 (1 + 11) = 4 + 6 + 2 from rfl]
      rw [List.drop_succ_cons, List.drop_succ_cons, ← List.drop_drop, hdrop]
      exact hdrop'
    obtain ⟨hpiece, hleft⟩ := ih hcurly.tail.tail.right.tail.tail.right hskip
    refine ⟨?_, hleft⟩
    dsimp only
    rw [hpiece]
    simp

/-- `scan_quoted` on a string without curly double quotes. -/
theorem scanQuoted_exact (h : StringBody body cs) (hcurly : NoCurly body)
    (hrest : c.rest = quoted body ++ rest) :
    (scanQuoted c).1 = quoted body ∧ (scanQuoted c).2.rest = rest := by
  have hrest' : c.rest = 0x22#8 :: (body ++ 0x22#8 :: rest) := by simp [hrest, quoted]
  have hat : c.atQuote = some (.d, 1) := by simp [Cursor.atQuote, hrest', atQuote]
  have hskip : (c.skip 1).rest = body ++ 0x22#8 :: rest := by simp [hrest']
  obtain ⟨hpiece, hleft⟩ := quotedLoop_exact h hcurly rest hskip
  simp only [scanQuoted, hat, Option.getD_some]
  exact ⟨by rw [hpiece], hleft⟩

/-! ### Numbers -/

/-- The significant integer digits that `normalize_number` counts. -/
def intDigits (n : Number) : Nat := if n.int = [0x30#8] then 0 else n.int.length

theorem normalizeMantissa_exact (n : Number) {r : Bytes} (hr : NoDigit r) :
    normalizeMantissa (n.int ++ r) = some (n.int, intDigits n, 0, r) := by
  obtain ⟨b, t, hint, hb⟩ := int_head n
  have hpoint : b ≠ 0x2E#8 := by
    rintro rfl
    cases hb
  have hsplit := digits_split n.int_ok hr
  by_cases hzero : b = 0x30#8
  · have hone : n.int = [0x30#8] := n.int_lead (by rw [hint, hzero]; rfl)
    have hdrop : (0x30#8 :: r).dropWhile (· == 0x30#8) = r := by
      cases r with
      | nil => rfl
      | cons c r =>
        have hc : (c == 0x30#8) = false := by
          rw [beq_eq_false_iff_ne]
          rintro rfl
          cases hr 0x30#8 rfl
        simp [List.dropWhile, hc]
    obtain ⟨htake, hdrop'⟩ := @digits_split [] r rfl hr
    simp only [List.nil_append] at htake hdrop'
    have hdigit : isDigit 0x30#8 = true := rfl
    simp [hone, normalizeMantissa, hdigit, hdrop, htake, hdrop', intDigits]
  · have hdrop : (n.int ++ r).dropWhile (· == 0x30#8) = n.int ++ r := by
      simp [hint, hzero]
    have hmany : n.int ≠ [0x30#8] := by
      rw [hint]
      intro heq
      exact hzero (List.cons.inj heq).1
    have hstart : n.int ++ r = b :: (t ++ r) := by rw [hint, List.cons_append]
    rw [hstart, normalizeMantissa, if_neg hpoint, if_pos hb, ← hstart]
    simp only [hdrop, hsplit.1, hsplit.2, if_neg n.int_ne, intDigits, if_neg hmany]

theorem normalizeFraction_exact (n : Number) :
    normalizeFraction (n.fracText ++ n.expText) = some (n.fracText, n.frac.length, n.expText) := by
  by_cases hfrac : n.frac = []
  · have htext : n.fracText = [] := if_pos hfrac
    rw [htext, List.nil_append, hfrac]
    unfold Number.expText
    cases n.exp with
    | none => rfl
    | some e =>
      have hpoint : e.mark ≠ 0x2E#8 := by
        obtain h | h := e.mark_ok <;> rw [h] <;> decide
      simp [normalizeFraction, Exponent.text, hpoint]
  · have htext : n.fracText = 0x2E#8 :: n.frac := if_neg hfrac
    obtain ⟨htake, hdrop⟩ := digits_split n.frac_ok (noDigit_expText n)
    simp [htext, normalizeFraction, htake, hdrop, hfrac]

/-- The exponent that `normalize_number` reads. -/
def readExponent (e : Exponent) : ℤ :=
  if e.sign = some 0x2D#8 then -(exponentDigits e.digits : ℤ) else exponentDigits e.digits

/-- An exponent as `normalize_number` writes it. -/
def shortExponent (e : ℤ) : Option Exponent :=
  if e = 0 then none
  else
    some {
      mark := 0x65#8
      sign := if e < 0 then some 0x2D#8 else none
      digits := Text.decimal e.natAbs
      mark_ok := Or.inl rfl
      sign_ok := by
        intro b hb
        split_ifs at hb
        exact Or.inr (Option.some.inj hb).symm
      digits_ok := decimal_isDigit _
      digits_ne := decimal_ne _ }

/-- The number that `normalize_number` writes. -/
def normalized (n : Number) : Number :=
  { n with
    exp := n.exp.bind fun e =>
      shortExponent (clampExponent (intDigits n) n.frac.length (readExponent e)) }

theorem exponentText_eq (n : Number) (e : ℤ) :
    ({ n with exp := shortExponent e } : Number).expText = exponentText e := by
  unfold exponentText
  split_ifs with hzero hneg
  · simp [Number.expText, shortExponent, hzero]
  · simp [Number.expText, shortExponent, Exponent.text, hzero, hneg]
  · simp [Number.expText, shortExponent, Exponent.text, hzero, hneg]

theorem normalizeExponent_exact (n : Number) :
    normalizeExponent (intDigits n) n.frac.length n.expText =
      some ((normalized n).expText, []) := by
  cases hexp : n.exp with
  | none => simp [Number.expText, normalized, hexp, normalizeExponent]
  | some e =>
    have hnormal : (normalized n).expText =
        exponentText (clampExponent (intDigits n) n.frac.length (readExponent e)) := by
      rw [← exponentText_eq n]
      simp only [normalized, hexp, Option.bind_some]
    rw [hnormal]
    have htext : n.expText = e.mark :: (e.sign.toList ++ e.digits) := by
      simp [Number.expText, hexp, Exponent.text]
    have hmark : e.mark = 0x65#8 ∨ e.mark = 0x45#8 := e.mark_ok
    obtain ⟨htake, hdrop⟩ := digits_split e.digits_ok noDigit_nil
    rw [List.append_nil] at htake hdrop
    rw [htext, normalizeExponent, if_pos hmark]
    obtain ⟨d, t, hdigits, hplus, hminus⟩ := e.exists_digit
    cases hsign : e.sign with
    | none =>
      have hhead : e.digits.head? = some d := by rw [hdigits]; rfl
      simp [htake, hdrop, hhead, hplus, hminus, e.digits_ne, readExponent, hsign]
    | some b =>
      obtain rfl | rfl := e.sign_ok b hsign
      · simp [htake, hdrop, e.digits_ne, readExponent, hsign]
      · simp [htake, hdrop, e.digits_ne, readExponent, hsign]

theorem normalizeDecimal_exact (n : Number) :
    normalizeDecimal (n.int ++ (n.fracText ++ n.expText)) =
      some (n.int ++ n.fracText ++ (normalized n).expText) := by
  simp [normalizeDecimal, normalizeMantissa_exact n (noDigit_fraction n),
    normalizeFraction_exact n, normalizeExponent_exact n]

theorem normalizeUnsigned_exact (accepts : Bytes → Bool) (n : Number) :
    normalizeUnsigned accepts n.neg (n.int ++ (n.fracText ++ n.expText)) =
      if accepts (normalized n).text then some (normalized n).text else none := by
  have hne : n.int ++ (n.fracText ++ n.expText) ≠ [] := by simp [n.int_ne]
  have hhex : ∀ b : Byte, b = 0x78#8 ∨ b = 0x58#8 →
      (n.int ++ (n.fracText ++ n.expText)).take 2 ≠ [0x30#8, b] := by
    intro b hb htake
    obtain ⟨d, t, hint, hd⟩ := int_head n
    rw [hint, List.cons_append, List.take_succ_cons] at htake
    obtain ⟨rfl, htail⟩ := List.cons.inj htake
    have hone : n.int = [0x30#8] := n.int_lead (by rw [hint]; rfl)
    obtain rfl : t = [] := by
      rw [hint] at hone
      exact (List.cons.inj hone).2
    rw [List.nil_append] at htail
    unfold Number.fracText Number.expText at htail
    split_ifs at htail
    · split at htail
      · simp at htail
      · rename_i e he
        have hmark := e.mark_ok
        simp only [List.nil_append, Exponent.text, List.take_succ_cons, List.take_zero,
          List.cons.injEq, and_true] at htail
        rw [htail] at hmark
        obtain rfl | rfl := hb <;> simp at hmark
    · simp only [List.cons_append, List.take_succ_cons, List.take_zero, List.cons.injEq,
        and_true] at htail
      obtain rfl | rfl := hb <;> simp at htail
  have htext : (if n.neg then [0x2D#8] else []) ++ (n.int ++ n.fracText ++ (normalized n).expText) =
      (normalized n).text := by
    rw [Number.text, List.append_assoc]
    rfl
  rw [normalizeUnsigned, if_neg hne, if_neg (by simp [hhex 0x78#8 (Or.inl rfl), hhex 0x58#8 (Or.inr rfl)]),
    normalizeDecimal_exact, Option.bind_some, htext]

/-- `normalize_number` on a number of the grammar. -/
theorem normalizeNumber_exact (accepts : Bytes → Bool) (n : Number) :
    normalizeNumber accepts n.text =
      if accepts (normalized n).text then some (normalized n).text else none := by
  rw [← normalizeUnsigned_exact]
  obtain ⟨d, t, hint, hd⟩ := int_head n
  have hplus : d ≠ 0x2B#8 := by
    rintro rfl
    cases hd
  have hminus : d ≠ 0x2D#8 := by
    rintro rfl
    cases hd
  cases hneg : n.neg with
  | true => simp [normalizeNumber, Number.text, Number.signText, hneg]
  | false =>
    have hhead : n.text.head? = some d := by
      simp [Number.text, Number.signText, hneg, hint]
    have hbody : n.text = n.int ++ (n.fracText ++ n.expText) := by
      simp [Number.text, Number.signText, hneg]
    rw [normalizeNumber, hhead, if_neg (by simpa using hplus), if_neg (by simpa using hminus), hbody]

/-- The range of exponents that `normalize_number` does not clamp. -/
def InRange (n : Number) (e : Exponent) : Prop :=
  (n.frac.length : ℤ) - 300 ≤ e.value ∧ e.value ≤ max 0 (300 - (intDigits n : ℤ))

/-- A number in the range of doubles whose exponent is not clamped, or zero. -/
def Kept (accepts : Bytes → Bool) (n : Number) : Prop :=
  accepts n.text = true ∧
    ∀ e, n.exp = some e → InRange n e ∨ digitsNat (n.int ++ n.frac) = 0

theorem digitsNat_append (ds : Bytes) (b : Byte) :
    digitsNat (ds ++ [b]) = digitsNat ds * 10 + (b.toNat - 0x30) := by
  simp [digitsNat]

/-- The saturating loop over the digits of an exponent, below its bound. -/
theorem exponentDigits_eq {ds : Bytes} (h : digitsNat ds < 1000000) :
    exponentDigits ds = digitsNat ds := by
  induction ds using List.reverseRecOn with
  | nil => rfl
  | append_singleton ds b ih =>
    rw [digitsNat_append] at h ⊢
    have hds := ih (by omega)
    simp only [exponentDigits, List.foldl_append, List.foldl_cons, List.foldl_nil] at hds ⊢
    rw [hds, if_pos (by omega)]

theorem expValue_shortExponent (n : Number) (e : ℤ) :
    ({ n with exp := shortExponent e } : Number).expValue = e := by
  unfold shortExponent
  split_ifs with hzero hneg
  · simp [Number.expValue, hzero]
  · simp only [Number.expValue, Exponent.value, digitsNat_decimal, if_true]
    omega
  · simp only [Number.expValue, Exponent.value, digitsNat_decimal]
    rw [if_neg (by simp)]
    omega

theorem readExponent_eq {n : Number} {e : Exponent} (h : InRange n e) :
    clampExponent (intDigits n) n.frac.length (readExponent e) = e.value := by
  obtain ⟨hlow, hhigh⟩ := h
  have hread : readExponent e = e.value := by
    unfold Exponent.value at hlow hhigh
    unfold readExponent Exponent.value
    split_ifs at hlow hhigh ⊢
    · rw [exponentDigits_eq (by omega)]
    · rw [exponentDigits_eq (by omega)]
  rw [hread]
  simp only [clampExponent]
  omega

theorem value_eq {n m : Number} (hneg : m.neg = n.neg) (hint : m.int = n.int)
    (hfrac : m.frac = n.frac) (hexp : m.expValue = n.expValue) : m.value = n.value := by
  simp [Number.value, hneg, hint, hfrac, hexp]

/-- What `normalize_number` writes for a kept number has the same value. -/
theorem normalized_value {accepts : Bytes → Bool} {n : Number} (h : Kept accepts n) :
    (normalized n).value = n.value := by
  cases hexp : n.exp with
  | none =>
    refine value_eq rfl rfl rfl ?_
    simp [normalized, Number.expValue, hexp]
  | some e =>
    obtain hrange | hzero := h.2 e hexp
    · refine value_eq rfl rfl rfl ?_
      have hclamped := expValue_shortExponent n
        (clampExponent (intDigits n) n.frac.length (readExponent e))
      simp only [normalized, hexp, Option.bind_some]
      rw [hclamped, readExponent_eq hrange]
      simp [Number.expValue, hexp]
    · have hzero' : digitsNat ((normalized n).int ++ (normalized n).frac) = 0 := hzero
      simp [Number.value, hzero, hzero']

end KimixNative.Core
