import KimixNative.Core.JsonExact

/-!
# The value of a repaired number

A token is read the way its writer meant it: a sign, a hexadecimal integer or decimal digits with
a point and an exponent. What `normalize_number` writes is compared with this reading, and what is
written for an integer in groups of three digits with the digits of the groups.
-/

namespace KimixNative.Core

open Json

/-! ## What a token means -/

/-- The exponent, with its mark; zero without digits. -/
def exponentOf (x : Bytes) : ℤ :=
  if (splitExponent (x.drop 1)).1 = some 0x2D#8 then -(digitsNat (splitExponent (x.drop 1)).2 : ℤ)
  else digitsNat (splitExponent (x.drop 1)).2

/-- The token behind its sign. -/
def unsignedOf (t : Bytes) : Bytes :=
  if t.head? = some 0x2B#8 ∨ t.head? = some 0x2D#8 then t.drop 1 else t

def isHexToken (r : Bytes) : Bool :=
  decide (2 < r.length) && (r.take 2 == [0x30#8, 0x78#8] || r.take 2 == [0x30#8, 0x58#8])

def decimalValue (r : Bytes) : ℚ :=
  let (_, int, frac, x) := splitNumber r
  digitsNat (int ++ frac) * 10 ^ (exponentOf x - frac.length)

/-- The number that a token means. -/
def tokenValue (t : Bytes) : ℚ :=
  (if t.head? = some 0x2D#8 then -1 else 1) *
    if isHexToken (unsignedOf t) then (hexNat ((unsignedOf t).drop 2) : ℚ)
    else decimalValue (unsignedOf t)

/-- The digits without the zeros in front. -/
def significant (r : Bytes) : Bytes := (r.dropWhile (· == 0x30#8)).takeWhile isDigit

/-- The exponent of a decimal text has no digits, or lies between the bounds of
`normalize_number`. -/
def DecimalUnclamped (r : Bytes) : Prop :=
  let (_, _, frac, x) := splitNumber r
  (splitExponent (x.drop 1)).2 = [] ∨
    ((frac.length : ℤ) - 300 ≤ exponentOf x ∧ exponentOf x ≤ max 0 (300 - ((significant r).length : ℤ)))

def Unclamped (t : Bytes) : Prop :=
  isHexToken (unsignedOf t) = false → DecimalUnclamped (unsignedOf t)

/-- A hexadecimal integer fits in 64 bits. -/
def HexFits (t : Bytes) : Prop :=
  isHexToken (unsignedOf t) = true → hexNat ((unsignedOf t).drop 2) < 2 ^ 64

/-! ## Digits -/

theorem digitsNat_append_all (a b : Bytes) :
    digitsNat (a ++ b) = digitsNat a * 10 ^ b.length + digitsNat b := by
  induction b using List.reverseRecOn with
  | nil => simp [digitsNat]
  | append_singleton b c ih =>
    rw [← List.append_assoc, digitsNat_append, ih, digitsNat_append, List.length_append,
      List.length_singleton, pow_succ, Nat.add_mul, Nat.mul_assoc, Nat.add_assoc]

theorem digitsNat_zeros {zeros : Bytes} (h : ∀ b ∈ zeros, b = 0x30#8) : digitsNat zeros = 0 := by
  obtain ⟨n, rfl⟩ : ∃ n, zeros = List.replicate n 0x30#8 := ⟨_, List.eq_replicate_of_mem h⟩
  induction n with
  | zero => rfl
  | succ n ih =>
    rw [List.replicate_succ', digitsNat_append, ih fun b hb => List.eq_of_mem_replicate hb]
    rfl

/-- The zeros in front of a run of digits. -/
theorem digits_strip (r : Bytes) :
    ∃ zeros : Bytes, (∀ b ∈ zeros, b = 0x30#8) ∧ r.takeWhile isDigit = zeros ++ significant r ∧
      r.dropWhile isDigit = (r.dropWhile (· == 0x30#8)).dropWhile isDigit := by
  induction r with
  | nil => exact ⟨[], fun b hb => absurd hb List.not_mem_nil, rfl, rfl⟩
  | cons b r ih =>
    by_cases hb : b = 0x30#8
    · obtain ⟨zeros, hzeros, htake, hdrop⟩ := ih
      subst hb
      refine ⟨0x30#8 :: zeros, List.forall_mem_cons.mpr ⟨rfl, hzeros⟩, ?_, hdrop⟩
      change 0x30#8 :: r.takeWhile isDigit = _
      rw [htake]
      rfl
    · have hkeep : (b :: r).dropWhile (· == 0x30#8) = b :: r :=
        List.dropWhile_cons_of_neg (by simpa using hb)
      refine ⟨[], fun b hb => absurd hb List.not_mem_nil, ?_, ?_⟩
      · rw [List.nil_append, significant, hkeep]
      · rw [hkeep]

/-- The integer digits that are written. -/
def intText (r : Bytes) : Bytes := if significant r = [] then [0x30#8] else significant r

theorem significant_isDigit (r : Bytes) : (significant r).all isDigit :=
  List.all_takeWhile

theorem intText_isDigit (r : Bytes) : (intText r).all isDigit := by
  rw [intText]
  split
  · rfl
  · exact significant_isDigit r

theorem intText_ne (r : Bytes) : intText r ≠ [] := by
  rw [intText]
  split
  · exact List.cons_ne_nil _ _
  · assumption

theorem intText_lead (r : Bytes) (h : (intText r).head? = some 0x30#8) : intText r = [0x30#8] := by
  rw [intText] at h ⊢
  split at h
  · rename_i hnil
    rw [if_pos hnil]
  · exfalso
    rcases hsig : r.dropWhile (· == 0x30#8) with _ | ⟨b, sig⟩
    · rw [significant, hsig] at h
      cases h
    · have hne := List.head?_dropWhile_not (· == 0x30#8) r
      rw [hsig] at hne
      rw [significant, hsig, List.takeWhile_cons] at h
      split at h
      · obtain rfl := Option.some.inj h
        exact absurd hne (by simp)
      · cases h

theorem digitsNat_intText (r frac : Bytes) :
    digitsNat (intText r ++ frac) = digitsNat (r.takeWhile isDigit ++ frac) := by
  obtain ⟨zeros, hzeros, htake, -⟩ := digits_strip r
  have hint : digitsNat (intText r) = digitsNat (significant r) := by
    rw [intText]
    split
    · rename_i hnil
      rw [hnil]
      rfl
    · rfl
  rw [htake, List.append_assoc, digitsNat_append_all zeros, digitsNat_zeros hzeros, zero_mul, zero_add,
    digitsNat_append_all, digitsNat_append_all, hint]

/-! ## Decimal tokens -/

/-- The number that is written for a decimal token. -/
def repaired (neg : Bool) (r frac : Bytes) (e : ℤ) (hfrac : frac.all isDigit) : Number where
  neg := neg
  int := intText r
  frac := frac
  exp := shortExponent e
  int_ok := intText_isDigit r
  int_ne := intText_ne r
  int_lead := intText_lead r
  frac_ok := hfrac

section

variable {neg : Bool} {r frac : Bytes} {e : ℤ} {hfrac : frac.all isDigit}

theorem repaired_text : (repaired neg r frac e hfrac).text =
    (if neg then [0x2D#8] else []) ++
      (intText r ++ ((if frac = [] then [] else 0x2E#8 :: frac) ++ exponentText e)) := by
  rw [← exponentText_eq (repaired neg r frac e hfrac)]
  rfl

theorem repaired_value : (repaired neg r frac e hfrac).value =
    (if neg then -1 else 1) * (digitsNat (r.takeWhile isDigit ++ frac) * 10 ^ (e - frac.length)) := by
  have hexp : (repaired neg r frac e hfrac).expValue = e :=
    expValue_shortExponent (repaired neg r frac e hfrac) e
  rw [Number.value, hexp, mul_assoc]
  change _ * ((digitsNat (intText r ++ frac) : ℚ) * _) = _
  rw [digitsNat_intText]
  rfl

end

theorem normalizeExponent_spec {i f : Nat} {x text : Bytes}
    (h : normalizeExponent i f x = some (text, []))
    (hun : (splitExponent (x.drop 1)).2 = [] ∨
      ((f : ℤ) - 300 ≤ exponentOf x ∧ exponentOf x ≤ max 0 (300 - (i : ℤ)))) :
    text = exponentText (exponentOf x) := by
  cases x with
  | nil =>
    obtain ⟨rfl, -⟩ := Prod.mk.inj (Option.some.inj h)
    rfl
  | cons c after =>
    simp only [normalizeExponent] at h
    split at h
    · rw [List.drop_one, List.tail_cons] at hun
      have hsign : (splitExponent after).1 = some 0x2D#8 ↔ after.head? = some 0x2D#8 := by
        rw [splitExponent]
        split
        · rfl
        · rename_i hhead
          rw [not_or] at hhead
          exact iff_of_false (Option.some_ne_none _).symm hhead.2
      have hbody : (splitExponent after).2 =
          if after.head? = some 0x2B#8 ∨ after.head? = some 0x2D#8 then after.drop 1 else after := by
        rw [splitExponent]
        split <;> rfl
      rw [← hbody] at h
      split at h
      · cases h
      · rename_i hleft
        rw [not_not] at hleft
        have hdigits : (splitExponent after).2.takeWhile isDigit = (splitExponent after).2 := by
          have hparts := List.takeWhile_append_dropWhile (p := isDigit) (l := (splitExponent after).2)
          rwa [hleft, List.append_nil] at hparts
        rw [hdigits] at h
        by_cases hnil : (splitExponent after).2 = []
        · rw [if_pos hnil] at h
          obtain ⟨rfl, -⟩ := Prod.mk.inj (Option.some.inj h)
          rw [exponentOf, List.drop_one, List.tail_cons, hnil]
          split <;> rfl
        · rw [if_neg hnil] at h
          obtain ⟨rfl, -⟩ := Prod.mk.inj (Option.some.inj h)
          obtain ⟨hlow, hhigh⟩ := hun.resolve_left hnil
          have hread : (if after.head? = some 0x2D#8 then
              -(exponentDigits (splitExponent after).2 : ℤ)
              else exponentDigits (splitExponent after).2) = exponentOf (c :: after) := by
            rw [exponentOf, List.drop_one, List.tail_cons] at hlow hhigh ⊢
            simp only [hsign] at hlow hhigh ⊢
            split_ifs at hlow hhigh ⊢
            · rw [exponentDigits_eq (by omega)]
            · rw [exponentDigits_eq (by omega)]
          rw [hread]
          refine congrArg exponentText ?_
          rw [clampExponent]
          omega
    · exact absurd (Prod.mk.inj (Option.some.inj h)).2 (List.cons_ne_nil c after)

/-- The fraction digits of a text from behind its integer digits, and what follows them. -/
def fractionOf (left : Bytes) : Bytes × Bytes :=
  if left.head? = some 0x2E#8 then ((left.drop 1).takeWhile isDigit, (left.drop 1).dropWhile isDigit)
  else ([], left)

theorem splitNumber_eq {r : Bytes} (h : r.head? ≠ some 0x2D#8) :
    splitNumber r = (false, r.takeWhile isDigit, fractionOf (r.dropWhile isDigit)) := by
  simp only [splitNumber, h, decide_false, Bool.false_eq_true, if_false, fractionOf]
  split <;> rfl

/-- A point without digits behind it is written with a zero. -/
theorem normalizeFraction_spec {left fraction x : Bytes} {fracDigits : Nat}
    (h : normalizeFraction left = some (fraction, fracDigits, x)) :
    fracDigits = (fractionOf left).1.length ∧ x = (fractionOf left).2 ∧ ∃ frac : Bytes,
      frac.all isDigit = true ∧ fraction = (if frac = [] then [] else 0x2E#8 :: frac) ∧
      (left.head? = some 0x2E#8 → frac ≠ []) ∧ ∀ (int : Bytes) (e : ℤ), (digitsNat (int ++ frac) * 10 ^ (e - frac.length) : ℚ) =
        digitsNat (int ++ (fractionOf left).1) * 10 ^ (e - (fractionOf left).1.length) := by
  rcases left with _ | ⟨c, after⟩
  · simp only [normalizeFraction, Option.some.injEq, Prod.mk.injEq] at h
    obtain ⟨rfl, rfl, rfl⟩ := h
    exact ⟨rfl, rfl, [], rfl, rfl, fun h => absurd h (Option.some_ne_none _).symm, fun _ _ => rfl⟩
  · simp only [normalizeFraction] at h
    split at h
    · rename_i hc
      subst hc
      have hfraction : fractionOf (0x2E#8 :: after) =
          (after.takeWhile isDigit, after.dropWhile isDigit) := rfl
      rw [hfraction]
      split at h
      · rename_i hnil
        split at h
        · simp only [Option.some.injEq, Prod.mk.injEq] at h
          obtain ⟨rfl, rfl, rfl⟩ := h
          refine ⟨by rw [hnil]; rfl, rfl, [0x30#8], rfl, rfl, fun _ => List.cons_ne_nil _ _,
            fun int e => ?_⟩
          rw [hnil, List.append_nil, digitsNat_append]
          simp [zpow_sub₀, mul_assoc, mul_div_cancel₀]
        · cases h
      · rename_i hne
        simp only [Option.some.injEq, Prod.mk.injEq] at h
        obtain ⟨rfl, rfl, rfl⟩ := h
        exact ⟨rfl, rfl, _, List.all_takeWhile, (if_neg hne).symm, fun _ => hne, fun _ _ => rfl⟩
    · rename_i hc
      have hfraction : fractionOf (c :: after) = ([], c :: after) :=
        if_neg fun h => hc (Option.some.inj h)
      simp only [Option.some.injEq, Prod.mk.injEq] at h
      obtain ⟨rfl, rfl, rfl⟩ := h
      rw [hfraction]
      exact ⟨rfl, rfl, [], rfl, rfl, fun h => absurd (Option.some.inj h) hc, fun _ _ => rfl⟩

/-- What is written for a decimal token whose exponent is not clamped has its value. -/
theorem normalizeDecimal_value {r norm : Bytes} (h : normalizeDecimal r = some norm)
    (hpoint : norm.count 0x2E#8 ≤ 1) (hun : DecimalUnclamped r) (neg : Bool) :
    ∃ n : Number, n.text = (if neg then [0x2D#8] else []) ++ norm ∧
      n.value = (if neg then -1 else 1) * decimalValue r := by
  obtain ⟨⟨mantissa, intDigits, leadDigits, left⟩, hmantissa, h⟩ := Option.bind_eq_some_iff.mp h
  obtain ⟨⟨fraction, fracDigits, x⟩, hfraction, h⟩ := Option.bind_eq_some_iff.mp h
  obtain ⟨⟨exponent, rest⟩, hexponent, h⟩ := Option.bind_eq_some_iff.mp h
  simp only at hfraction hexponent h
  split at h
  · rename_i hrest
    subst hrest
    obtain rfl := Option.some.inj h
    obtain ⟨rfl, rfl, frac, hall, rfl, hfew, hvalue⟩ := normalizeFraction_spec hfraction
    rcases r with _ | ⟨c, after⟩
    · cases hmantissa
    · simp only [normalizeMantissa] at hmantissa
      split at hmantissa
      · rename_i hc
        subst hc
        split at hmantissa
        · cases hmantissa
        · rename_i hne
          simp only [Option.some.injEq, Prod.mk.injEq] at hmantissa
          obtain ⟨rfl, rfl, rfl, rfl⟩ := hmantissa
          -- a second point would be left to `strtod`
          have hfrac : frac = [] := by
            by_contra hfrac
            rw [if_neg hfrac] at hpoint
            simp only [List.count_append, List.count_cons_self, List.cons_append,
              List.count_cons_of_ne (show (0x30#8 : Byte) ≠ 0x2E#8 by decide)] at hpoint
            omega
          have hleft : fractionOf (after.dropWhile isDigit) = ([], after.dropWhile isDigit) :=
            if_neg fun h => hfew h hfrac
          have hsplit : splitNumber (0x2E#8 :: after) =
              (false, [], after.takeWhile isDigit, after.dropWhile isDigit) := rfl
          have hlen : (significant (0x2E#8 :: after)).length = 0 := rfl
          simp only [DecimalUnclamped, hsplit, hlen] at hun
          rw [hleft] at hexponent
          have htext := normalizeExponent_spec hexponent hun
          refine ⟨repaired neg (0x2E#8 :: after) (after.takeWhile isDigit)
            (exponentOf (after.dropWhile isDigit)) List.all_takeWhile, ?_, repaired_value.trans ?_⟩
          · rw [repaired_text, if_neg hne, htext, hfrac]
            have hint : intText (0x2E#8 :: after) = [0x30#8] := rfl
            simp [hint]
          · simp only [decimalValue, hsplit]
            rfl
      · split at hmantissa
        · rename_i hc hdigit
          simp only [Option.some.injEq, Prod.mk.injEq] at hmantissa
          obtain ⟨rfl, rfl, rfl, rfl⟩ := hmantissa
          have hhead : (c :: after).head? ≠ some 0x2D#8 := by
            intro h
            obtain rfl := Option.some.inj h
            cases hdigit
          have hsplit := splitNumber_eq hhead
          obtain ⟨zeros, -, -, hdrop⟩ := digits_strip (c :: after)
          rw [hdrop] at hsplit
          simp only [DecimalUnclamped, hsplit] at hun
          rw [Nat.zero_add] at hexponent
          have htext := normalizeExponent_spec hexponent hun
          refine ⟨repaired neg (c :: after) frac (exponentOf (fractionOf
            (((c :: after).dropWhile (· == 0x30#8)).dropWhile isDigit)).2) hall, ?_,
            repaired_value.trans ?_⟩
          · rw [repaired_text, htext, ← List.append_assoc (intText (c :: after))]
            rfl
          · simp only [decimalValue, hsplit, hvalue]
        · cases hmantissa
  · cases h

/-! ## All tokens -/

theorem hexInteger_eq (digits : Bytes) : hexInteger digits = hexNat digits % 2 ^ 64 := by
  induction digits using List.reverseRecOn with
  | nil => rfl
  | append_singleton digits b ih =>
    rw [hexInteger, hexNat] at *
    rw [List.foldl_append, List.foldl_append, ih]
    simp only [List.foldl_cons, List.foldl_nil]
    omega

theorem integer_value (neg : Bool) (v : Nat) :
    (integer neg v).value = (if neg then -1 else 1) * (v : ℚ) := by
  have hexp : (integer neg v).expValue = 0 := rfl
  have hdigits : digitsNat ((integer neg v).int ++ (integer neg v).frac) = v := by
    change digitsNat (Text.decimal v ++ []) = v
    rw [List.append_nil, digitsNat_decimal]
  rw [Number.value, hexp, hdigits]
  change _ * 10 ^ ((0 : ℤ) - ((0 : Nat) : ℤ)) = _
  rw [Nat.cast_zero, sub_zero, zpow_zero, mul_one]
  rfl

theorem normalizeNumber_eq (accepts : Bytes → Bool) (t : Bytes) :
    normalizeNumber accepts t =
      normalizeUnsigned accepts (decide (t.head? = some 0x2D#8)) (unsignedOf t) := by
  rw [normalizeNumber, unsignedOf]
  by_cases hplus : t.head? = some 0x2B#8
  · simp [hplus]
  · by_cases hminus : t.head? = some 0x2D#8
    · simp [hminus]
    · simp [hplus, hminus]

variable {accepts : Bytes → Bool} {digits : Bytes} {stop : Cursor}

/-- An accepted token whose exponent is not clamped keeps its value, unless it is hexadecimal and
does not fit in 64 bits. No text with two points is read by `strtod`. -/
theorem normalizeNumber_value (hstrtod : ∀ t, accepts t = true → t.count 0x2E#8 ≤ 1) {t out : Bytes}
    (h : normalizeNumber accepts t = some out) (hun : Unclamped t) :
    (∃ n : Number, n.text = out ∧ n.value = tokenValue t) ↔ HexFits t := by
  rw [normalizeNumber_eq, normalizeUnsigned] at h
  have hsign : ((if decide (t.head? = some 0x2D#8) = true then -1 else 1) : ℚ) =
      if t.head? = some 0x2D#8 then -1 else 1 := by
    simp only [decide_eq_true_eq]
  split at h
  · cases h
  · by_cases hhex : isHexToken (unsignedOf t) = true
    · have hmark : 2 < (unsignedOf t).length ∧ ((unsignedOf t).take 2 = [0x30#8, 0x78#8] ∨
          (unsignedOf t).take 2 = [0x30#8, 0x58#8]) := by
        simpa only [isHexToken, Bool.and_eq_true, Bool.or_eq_true, decide_eq_true_eq,
          beq_iff_eq] using hhex
      rw [if_pos hmark] at h
      split at h
      · obtain rfl := Option.some.inj h
        have htoken : tokenValue t = (if t.head? = some 0x2D#8 then -1 else 1) *
            (hexNat ((unsignedOf t).drop 2) : ℚ) := by
          rw [tokenValue, if_pos hhex]
        have hne : (if t.head? = some 0x2D#8 then -1 else 1 : ℚ) ≠ 0 := by
          split <;> norm_num
        constructor
        · rintro ⟨n, htext, hvalue⟩ -
          rw [Number.value_of_text (htext.trans (text_integer _ _).symm), integer_value, hsign,
            htoken] at hvalue
          have hv : hexInteger ((unsignedOf t).drop 2) = hexNat ((unsignedOf t).drop 2) := by
            exact_mod_cast mul_left_cancel₀ hne hvalue
          rw [← hv]
          exact hexInteger_lt _
        · intro hfits
          refine ⟨_, text_integer _ _, ?_⟩
          rw [integer_value, hsign, htoken, hexInteger_eq, Nat.mod_eq_of_lt (hfits hhex)]
      · cases h
    · have hmark : ¬(2 < (unsignedOf t).length ∧ ((unsignedOf t).take 2 = [0x30#8, 0x78#8] ∨
          (unsignedOf t).take 2 = [0x30#8, 0x58#8])) := by
        simpa only [isHexToken, Bool.and_eq_true, Bool.or_eq_true, decide_eq_true_eq,
          beq_iff_eq] using hhex
      rw [if_neg hmark] at h
      obtain ⟨norm, hnorm, h⟩ := Option.bind_eq_some_iff.mp h
      by_cases haccepts : accepts ((if decide (t.head? = some 0x2D#8) = true then [0x2D#8]
          else []) ++ norm) = true
      · rw [if_pos haccepts] at h
        obtain rfl := Option.some.inj h
        have hpoint := hstrtod _ haccepts
        rw [List.count_append] at hpoint
        obtain ⟨n, htext, hvalue⟩ := normalizeDecimal_value hnorm (by omega)
          (hun (Bool.eq_false_of_not_eq_true hhex)) (decide (t.head? = some 0x2D#8))
        refine iff_of_true ⟨n, htext, ?_⟩ fun h => absurd h hhex
        rw [hvalue, hsign, tokenValue, if_neg hhex]
      · rw [if_neg haccepts] at h
        cases h

/-! ## Groups of three digits -/

/-- The digits of the group behind a position that is not well formed. -/
def strayDigits (c : Cursor) : Bytes :=
  let sep := if c.rest.head? = some 0x2C#8 then 1 else atUws c.rest
  if sep = 0 then [] else ((c.rest.drop sep).take 3).takeWhile isDigit

theorem strayDigits_isDigit (c : Cursor) : (strayDigits c).all isDigit = true := by
  unfold strayDigits
  generalize (if c.rest.head? = some 0x2C#8 then 1 else atUws c.rest) = sep
  dsimp only
  split
  · rfl
  · exact List.all_takeWhile

theorem filter_separator (rest : Bytes) :
    (rest.take (if rest.head? = some 0x2C#8 then 1 else atUws rest)).filter isDigit = [] := by
  split
  · rename_i hcomma
    obtain ⟨after, rfl⟩ := List.head?_eq_some_iff.mp hcomma
    rfl
  · unfold atUws
    split_ifs with h h h h h h h h
    all_goals first | (rw [h]; rfl) | rfl

/-- The digits that the look-ahead reads are those of the groups it passes and those of the group
that it stops at. -/
theorem groupLoop_spec (digits : Bytes) (c : Cursor) :
    ∃ span, c.rest = span ++ (groupLoop digits c).2.rest ∧
      (groupLoop digits c).1 = digits ++ span.filter isDigit ++ strayDigits (groupLoop digits c).2 := by
  fun_induction groupLoop digits c with
  | case1 digits c sep hsep =>
    refine ⟨[], rfl, ?_⟩
    have hstray : strayDigits c = [] := if_pos hsep
    rw [hstray, List.filter_nil, List.append_nil, List.append_nil]
  | case2 digits c sep hsep group after hstop =>
    refine ⟨[], rfl, ?_⟩
    have hstray : strayDigits c = group := if_neg hsep
    rw [hstray, List.filter_nil, List.append_nil]
  | case3 digits c sep hsep group after hgo ih =>
    obtain ⟨span, hspan, hdigits⟩ := ih
    rw [not_or, not_not] at hgo
    have hinitial : group <+: (c.rest.drop sep).take 3 := List.takeWhile_prefix isDigit
    have hgroup : (c.rest.drop sep).take 3 = group := by
      refine (hinitial.eq_of_length_le ?_).symm
      rw [hgo.1]
      exact List.length_take_le 3 _
    have hall : group.filter isDigit = group :=
      List.filter_eq_self.mpr (List.all_eq_true.mp List.all_takeWhile)
    have hfilter : (c.rest.take (sep + 3)).filter isDigit = group := by
      rw [List.take_add, List.filter_append, hgroup, hall]
      exact congrArg (· ++ group) (filter_separator c.rest)
    refine ⟨c.rest.take (sep + 3) ++ span, ?_, ?_⟩
    · rw [List.append_assoc, ← hspan]
      exact (List.take_append_drop (sep + 3) c.rest).symm
    · rw [hdigits, List.filter_append, hfilter, List.append_assoc digits group]

/-- The bytes between the position and the end of the groups. -/
def groupSpan (r : Repairer) (stop : Cursor) : Bytes :=
  r.cur.rest.take (r.cur.rest.length - stop.rest.length)

theorem thousandsAhead_spec {r : Repairer} (h : r.thousandsAhead = some (digits, stop)) :
    r.cur.rest = groupSpan r stop ++ stop.rest ∧ digits.all isDigit = true ∧ digits ≠ [] ∧
      digits = (groupSpan r stop).filter isDigit ++ strayDigits stop := by
  have hrequired := Repairer.thousandsAhead_required (by rw [h]; rfl)
  rw [Repairer.thousandsAhead, if_pos hrequired] at h
  unfold thousands at h
  split_ifs at h with hpure
  obtain ⟨-, hhead, hall⟩ := hpure
  obtain ⟨span, hspan, hdigits⟩ := groupLoop_spec r.token r.behindToken
  dsimp only at h
  split_ifs at h
  obtain ⟨rfl, rfl⟩ := Prod.mk.inj (Option.some.inj h)
  have hrest : r.cur.rest = (r.token ++ span) ++ (groupLoop r.token r.behindToken).2.rest := by
    rw [List.append_assoc, ← hspan]
    exact (List.take_append_drop _ _).symm
  have hgroups : groupSpan r (groupLoop r.token r.behindToken).2 = r.token ++ span := by
    rw [groupSpan, hrest, List.length_append, Nat.add_sub_cancel, List.take_left]
  have htoken : r.token.filter isDigit = r.token := List.filter_eq_self.mpr (List.all_eq_true.mp hall)
  rw [hgroups, List.filter_append, htoken, hdigits]
  refine ⟨hrest, ?_, ?_, rfl⟩
  · have hfilter : (span.filter isDigit).all isDigit = true :=
      List.all_eq_true.mpr fun b hb => (List.mem_filter.mp hb).2
    rw [List.all_append, List.all_append, hall, hfilter, strayDigits_isDigit]
    rfl
  · intro hnil
    rw [List.append_eq_nil_iff, List.append_eq_nil_iff] at hnil
    rw [hnil.1.1] at hhead
    cases hhead

theorem normalizeNumber_digits (accepts : Bytes → Bool) (hall : digits.all isDigit = true)
    (hne : digits ≠ []) :
    normalizeNumber accepts digits =
      if accepts (intText digits) then some (intText digits) else none := by
  obtain ⟨d, rest, rfl⟩ := List.exists_cons_of_ne_nil hne
  have hmem := List.all_eq_true.mp hall
  have hd := hmem d List.mem_cons_self
  have hnot : ∀ b : Byte, isDigit b = false → d ≠ b := by
    rintro b hb rfl
    rw [hb] at hd
    cases hd
  have hunsigned : unsignedOf (d :: rest) = d :: rest := by
    rw [unsignedOf, if_neg]
    rintro (h | h) <;> exact absurd (Option.some.inj h) (hnot _ rfl)
  have hneg : decide ((d :: rest).head? = some 0x2D#8) = false :=
    decide_eq_false fun h => hnot 0x2D#8 rfl (Option.some.inj h)
  have hhex : ¬(2 < (d :: rest).length ∧ ((d :: rest).take 2 = [0x30#8, 0x78#8] ∨
      (d :: rest).take 2 = [0x30#8, 0x58#8])) := by
    have hmark : ∀ b : Byte, isDigit b = false → (d :: rest).take 2 ≠ [0x30#8, b] := by
      intro b hb htake
      have hin : b ∈ (d :: rest).take 2 := by
        rw [htake]
        exact List.mem_cons_of_mem _ (List.mem_singleton_self b)
      have hdigit := hmem b (List.mem_of_mem_take hin)
      rw [hb] at hdigit
      cases hdigit
    rintro ⟨-, h | h⟩
    · exact hmark _ rfl h
    · exact hmark _ rfl h
  have hdrop : ((d :: rest).dropWhile (· == 0x30#8)).dropWhile isDigit = [] := by
    obtain ⟨zeros, -, -, hdrop⟩ := digits_strip (d :: rest)
    have hend := (digits_split hall noDigit_nil).2
    rwa [List.append_nil, hdrop] at hend
  have hdecimal : normalizeDecimal (d :: rest) = some (intText (d :: rest)) := by
    simp only [normalizeDecimal, normalizeMantissa, if_neg (hnot 0x2E#8 rfl), if_pos hd, hdrop,
      Option.bind_some, normalizeFraction, normalizeExponent, if_true, List.append_nil]
    rfl
  rw [normalizeNumber_eq, hneg, hunsigned, normalizeUnsigned, if_neg (List.cons_ne_nil d rest),
    if_neg hhex, hdecimal, Option.bind_some]
  rfl

/-- What is written for the groups is the number of the digits in their span, and the rest of the
text follows the span. -/
def EmitsSpan (accepts : Bytes → Bool) (r : Repairer) (stop : Cursor) : Prop :=
  ∃ n : Number, n.text.all isDigit = true ∧
    digitsNat n.text = digitsNat ((groupSpan r stop).filter isDigit) ∧
    r.cur.rest = groupSpan r stop ++ stop.rest ∧
    r.bareStep accepts = ((r.emit n.text).move stop).finishValue

/-- The digits of the span are written when `strtod` reads them and no digits of a group that is
not well formed come behind them, unless all of them are zeros. -/
theorem emitsSpan_iff {r : Repairer} (h : r.thousandsAhead = some (digits, stop)) :
    EmitsSpan accepts r stop ↔ accepts (intText digits) = true ∧ (strayDigits stop = [] ∨
      digitsNat ((groupSpan r stop).filter isDigit) = 0 ∧ digitsNat (strayDigits stop) = 0) := by
  obtain ⟨hrest, hall, hne, hdigits⟩ := thousandsAhead_spec h
  have hrequired := Repairer.thousandsAhead_required (by rw [h]; rfl)
  have htoken : bareLength r.cur.prev r.cur.rest ≠ 0 := by
    intro hzero
    rw [Repairer.thousandsAhead, if_pos hrequired, thousands] at h
    simp [Repairer.token, hzero] at h
  have hlead : r.lead = [] := if_pos hrequired
  have hstep : r.bareStep accepts =
      ((r.emit ((normalizeNumber accepts digits).getD [])).move stop).finishValue := by
    simp only [Repairer.bareStep, if_neg htoken, h, Repairer.elemComma_eq, Repairer.emit_emit, hlead,
      List.nil_append]
  have hint : digitsNat (intText digits) = digitsNat digits := by
    have hvalue := digitsNat_intText digits []
    have htake := (digits_split hall noDigit_nil).1
    rw [List.append_nil] at htake
    rwa [List.append_nil, List.append_nil, htake] at hvalue
  have hsplit := digitsNat_append_all ((groupSpan r stop).filter isDigit) (strayDigits stop)
  rw [← hdigits] at hsplit
  rw [normalizeNumber_digits accepts hall hne] at hstep
  constructor
  · rintro ⟨n, -, hvalue, -, hn⟩
    have hout : r.out ++ (if accepts (intText digits) then some (intText digits) else none).getD [] =
        r.out ++ n.text := by
      have hsame := congrArg Repairer.out (hstep.symm.trans hn)
      rwa [Repairer.finishValue_out, Repairer.finishValue_out] at hsame
    have htext := List.append_cancel_left hout
    by_cases haccepts : accepts (intText digits) = true
    · rw [if_pos haccepts, Option.getD_some] at htext
      refine ⟨haccepts, ?_⟩
      rw [← htext, hint, hsplit] at hvalue
      by_cases hnil : strayDigits stop = []
      · exact Or.inl hnil
      · have hpow : 10 ≤ 10 ^ (strayDigits stop).length :=
          Nat.le_self_pow (mt List.length_eq_zero_iff.mp hnil) 10
        have hmul := Nat.mul_le_mul_left (digitsNat ((groupSpan r stop).filter isDigit)) hpow
        exact Or.inr ⟨by omega, by omega⟩
    · rw [if_neg haccepts, Option.getD_none] at htext
      exact absurd htext.symm n.text_ne
  · rintro ⟨haccepts, hstray⟩
    have htext : (repaired false digits [] 0 List.all_nil).text = intText digits := by
      rw [repaired_text]
      simp [exponentText]
    rw [if_pos haccepts, Option.getD_some, ← htext] at hstep
    refine ⟨repaired false digits [] 0 List.all_nil, ?_, ?_, hrest, hstep⟩
    · rw [htext]
      exact intText_isDigit digits
    · rw [htext, hint, hsplit]
      rcases hstray with hnil | ⟨hzero, hzero'⟩
      · rw [hnil]
        simp [digitsNat]
      · rw [hzero, hzero', Nat.zero_mul]

/-- A repaired number keeps its value: exactly so for tokens that are not hexadecimal or fit in 64
bits, and for groups behind which no digits of a malformed group stand. -/
theorem numbers_kept {accepts : Bytes → Bool}
    (hstrtod : ∀ t, accepts t = true → t.count 0x2E#8 ≤ 1) :
    (∀ t out, normalizeNumber accepts t = some out → Unclamped t →
      ((∃ n : Number, n.text = out ∧ n.value = tokenValue t) ↔ HexFits t)) ∧
    ∀ r digits stop, r.thousandsAhead = some (digits, stop) →
      (EmitsSpan accepts r stop ↔ accepts (intText digits) = true ∧ (strayDigits stop = [] ∨
        digitsNat ((groupSpan r stop).filter isDigit) = 0 ∧ digitsNat (strayDigits stop) = 0)) :=
  ⟨fun _ _ h hun => normalizeNumber_value hstrtod h hun, fun _ _ _ h => emitsSpan_iff h⟩

/-- A reader of number texts without a bound on their size. -/
def pointReader (t : Bytes) : Bool := isNumberText t && decide (t.count 0x2E#8 ≤ 1)

theorem pointReader_count (t : Bytes) (h : pointReader t = true) : t.count 0x2E#8 ≤ 1 :=
  of_decide_eq_true (Bool.and_eq_true_iff.mp h).2

theorem numbers_kept_fraction : ∃ n : Number, n.text = Text.ascii "-0.50e2" ∧
    n.value = tokenValue (Text.ascii "-00.50e+2") := by
  refine ((numbers_kept pointReader_count).1 _ _ (by decide) fun _ => ?_).mpr fun h => ?_
  · exact Or.inr (by decide)
  · exact absurd h (by decide)

/-- A member's value behind its colon. -/
def behindColon (rest : Bytes) : Repairer :=
  { cur := ⟨some 0x3A#8, rest⟩, stk := [⟨true, false⟩], valueRequired := true }

/-- 2^64 in hexadecimal becomes 0, and of a malformed group the digits are written although they
are read again. -/
theorem not_numbers_kept :
    (normalizeNumber pointReader (Text.ascii "0x10000000000000000") = some (Text.ascii "0") ∧
      ¬∃ n : Number, n.text = Text.ascii "0" ∧
        n.value = tokenValue (Text.ascii "0x10000000000000000")) ∧
    ∃ digits stop, (behindColon (Text.ascii "1,234,56\x7d")).thousandsAhead = some (digits, stop) ∧
      digits = Text.ascii "123456" ∧ stop.rest = Text.ascii ",56\x7d" ∧
      ¬EmitsSpan pointReader (behindColon (Text.ascii "1,234,56\x7d")) stop := by
  have hhex : normalizeNumber pointReader (Text.ascii "0x10000000000000000") =
      some (Text.ascii "0") := by decide
  refine ⟨⟨hhex, fun h => ?_⟩, ?_⟩
  · have hun : Unclamped (Text.ascii "0x10000000000000000") := fun h => absurd h (by decide)
    have hfits := (normalizeNumber_value pointReader_count hhex hun).mp h (by decide)
    exact absurd hfits (by decide)
  · have hlast : groupLoop (Text.ascii "1234") ⟨some 0x34#8, Text.ascii ",56\x7d"⟩ =
        (Text.ascii "123456", ⟨some 0x34#8, Text.ascii ",56\x7d"⟩) := by
      unfold groupLoop
      rfl
    have hgroups : groupLoop (Text.ascii "1") ⟨some 0x31#8, Text.ascii ",234,56\x7d"⟩ =
        (Text.ascii "123456", ⟨some 0x34#8, Text.ascii ",56\x7d"⟩) := by
      unfold groupLoop
      exact hlast
    have htoken : (behindColon (Text.ascii "1,234,56\x7d")).token = Text.ascii "1" := rfl
    have hbehind : (behindColon (Text.ascii "1,234,56\x7d")).behindToken =
        ⟨some 0x31#8, Text.ascii ",234,56\x7d"⟩ := rfl
    have hahead : (behindColon (Text.ascii "1,234,56\x7d")).thousandsAhead =
        some (Text.ascii "123456", ⟨some 0x34#8, Text.ascii ",56\x7d"⟩) := by
      rw [Repairer.thousandsAhead, htoken, hbehind, thousands, hgroups]
      rfl
    refine ⟨_, _, hahead, rfl, rfl, fun h => ?_⟩
    rcases ((emitsSpan_iff hahead).mp h).2 with hnil | hzero
    · exact absurd hnil (by decide)
    · exact absurd hzero.2 (by decide)

end KimixNative.Core
