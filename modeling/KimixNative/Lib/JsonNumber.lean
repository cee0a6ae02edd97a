import KimixNative.Lib.JsonText

/-!
# The parts of a JSON number

A number text has one reading: the sign, the integer digits, the fraction digits and the
exponent are found by splitting the text at the first byte that is not a digit. So its value is
determined by the text, and whether a text is a number can be decided.
-/

namespace KimixNative.Json

/-- The text does not go on with a digit. -/
def NoDigit (r : Bytes) : Prop := ∀ b, r.head? = some b → isDigit b = false

theorem digits_split {ds r : Bytes} (hds : ds.all isDigit) (hr : NoDigit r) :
    (ds ++ r).takeWhile isDigit = ds ∧ (ds ++ r).dropWhile isDigit = r := by
  induction ds with
  | nil =>
    cases r with
    | nil => exact ⟨rfl, rfl⟩
    | cons b r =>
      have hb := hr b rfl
      simp [hb]
  | cons b ds ih =>
    simp only [List.all_cons, Bool.and_eq_true] at hds
    obtain ⟨htake, hdrop⟩ := ih hds.2
    simp [hds.1, htake, hdrop]

theorem noDigit_nil : NoDigit [] := by
  intro b hb
  cases hb

theorem noDigit_cons {b : Byte} (hb : isDigit b = false) (r : Bytes) : NoDigit (b :: r) := by
  intro b' hb'
  obtain rfl := Option.some.inj hb'
  exact hb

theorem Exponent.mark_noDigit (e : Exponent) : isDigit e.mark = false := by
  obtain h | h := e.mark_ok <;> rw [h] <;> rfl

theorem noDigit_expText (n : Number) : NoDigit n.expText := by
  unfold Number.expText
  split
  · exact noDigit_nil
  · exact noDigit_cons (Exponent.mark_noDigit _) _

theorem noDigit_fraction (n : Number) : NoDigit (n.fracText ++ n.expText) := by
  unfold Number.fracText
  split_ifs
  · exact noDigit_expText n
  · exact noDigit_cons rfl _

theorem int_head (n : Number) : ∃ b t, n.int = b :: t ∧ isDigit b := by
  obtain ⟨b, t, hint⟩ := List.exists_cons_of_ne_nil n.int_ne
  have hall := n.int_ok
  rw [hint] at hall
  simp only [List.all_cons, Bool.and_eq_true] at hall
  exact ⟨b, t, hint, hall.1⟩

/-- Sign, integer digits, fraction digits and exponent of a number text. -/
def splitNumber (t : Bytes) : Bool × Bytes × Bytes × Bytes :=
  let neg := decide (t.head? = some 0x2D#8)
  let r := if neg then t.drop 1 else t
  let left := r.dropWhile isDigit
  if left.head? = some 0x2E#8 then
    (neg, r.takeWhile isDigit, (left.drop 1).takeWhile isDigit, (left.drop 1).dropWhile isDigit)
  else (neg, r.takeWhile isDigit, [], left)

theorem splitNumber_text (n : Number) :
    splitNumber n.text = (n.neg, n.int, n.frac, n.expText) := by
  obtain ⟨d, t, hint, hd⟩ := int_head n
  have hminus : d ≠ 0x2D#8 := by
    rintro rfl
    cases hd
  have hhead : decide (n.text.head? = some 0x2D#8) = n.neg := by
    cases hneg : n.neg with
    | true => simp [Number.text, Number.signText, hneg]
    | false => simp [Number.text, Number.signText, hneg, hint, hminus]
  have hbody : (if n.neg then n.text.drop 1 else n.text) = n.int ++ (n.fracText ++ n.expText) := by
    cases hneg : n.neg with
    | true => simp [Number.text, Number.signText, hneg]
    | false => simp [Number.text, Number.signText, hneg]
  obtain ⟨htake, hdrop⟩ := digits_split n.int_ok (noDigit_fraction n)
  simp only [splitNumber, hhead, hbody, htake, hdrop]
  by_cases hfrac : n.frac = []
  · have htext : n.fracText = [] := if_pos hfrac
    have hpoint : n.expText.head? ≠ some 0x2E#8 := by
      unfold Number.expText
      split
      · simp
      · rename_i e he
        have hmark : e.mark ≠ 0x2E#8 := by
          obtain h | h := e.mark_ok <;> rw [h] <;> decide
        simpa [Exponent.text] using hmark
    rw [htext, List.nil_append, if_neg hpoint, hfrac]
  · have htext : n.fracText = 0x2E#8 :: n.frac := if_neg hfrac
    obtain ⟨htake', hdrop'⟩ := digits_split n.frac_ok (noDigit_expText n)
    simp [htext, htake', hdrop']

/-- The sign and the digits of an exponent, from behind its mark. -/
def splitExponent (t : Bytes) : Option Byte × Bytes :=
  if t.head? = some 0x2B#8 ∨ t.head? = some 0x2D#8 then (t.head?, t.drop 1) else (none, t)

/-- The digits do not begin with a sign. -/
theorem Exponent.exists_digit (e : Exponent) :
    ∃ d t, e.digits = d :: t ∧ d ≠ 0x2B#8 ∧ d ≠ 0x2D#8 := by
  obtain ⟨d, t, hdigits⟩ := List.exists_cons_of_ne_nil e.digits_ne
  have hd : isDigit d := by
    have hall := e.digits_ok
    rw [hdigits] at hall
    simp only [List.all_cons, Bool.and_eq_true] at hall
    exact hall.1
  refine ⟨d, t, hdigits, ?_, ?_⟩ <;>
    · rintro rfl
      cases hd

theorem splitExponent_text (e : Exponent) :
    splitExponent (e.sign.toList ++ e.digits) = (e.sign, e.digits) := by
  obtain ⟨d, t, hdigits, hplus, hminus⟩ := e.exists_digit
  cases hsign : e.sign with
  | none => simp [splitExponent, hdigits, hplus, hminus]
  | some b => obtain rfl | rfl := e.sign_ok b hsign <;> simp [splitExponent]

theorem expValue_of_text {n m : Number} (h : n.expText = m.expText) : n.expValue = m.expValue := by
  unfold Number.expText at h
  unfold Number.expValue
  cases hn : n.exp with
  | none =>
    cases hm : m.exp with
    | none => rfl
    | some e => simp [hn, hm, Exponent.text] at h
  | some e =>
    cases hm : m.exp with
    | none => simp [hn, hm, Exponent.text] at h
    | some e' =>
      simp only [hn, hm, Exponent.text, List.cons.injEq] at h
      have hsplit := congrArg splitExponent h.2
      rw [splitExponent_text, splitExponent_text, Prod.mk.injEq] at hsplit
      simp [Exponent.value, hsplit.1, hsplit.2]

/-- A number text has one value. -/
theorem Number.value_of_text {n m : Number} (h : n.text = m.text) : n.value = m.value := by
  have hsplit := congrArg splitNumber h
  rw [splitNumber_text, splitNumber_text] at hsplit
  simp only [Prod.mk.injEq] at hsplit
  obtain ⟨hneg, hint, hfrac, hexp⟩ := hsplit
  simp [Number.value, hneg, hint, hfrac, expValue_of_text hexp]

/-- Whether a text is empty or an exponent. -/
def isExponentText (t : Bytes) : Bool :=
  match t with
  | [] => true
  | mark :: t =>
    (mark == 0x65#8 || mark == 0x45#8) && (splitExponent t).2 != [] &&
      (splitExponent t).2.all isDigit

theorem isExponentText_sound {t : Bytes} (h : isExponentText t) :
    ∃ e : Option Exponent, (match e with | none => [] | some e => e.text) = t := by
  cases t with
  | nil => exact ⟨none, rfl⟩
  | cons mark t =>
    simp only [isExponentText, Bool.and_eq_true, Bool.or_eq_true, beq_iff_eq, bne_iff_ne] at h
    obtain ⟨⟨hmark, hne⟩, hdigits⟩ := h
    have hsign : ∀ b, (splitExponent t).1 = some b → b = 0x2B#8 ∨ b = 0x2D#8 := by
      intro b hb
      unfold splitExponent at hb
      split_ifs at hb with hhead
      dsimp only at hb
      rw [hb] at hhead
      simpa using hhead
    have htext : (splitExponent t).1.toList ++ (splitExponent t).2 = t := by
      unfold splitExponent
      split_ifs with hhead
      · cases t with
        | nil => simp at hhead
        | cons b t => rfl
      · rfl
    refine ⟨some ⟨mark, _, _, hmark, hsign, hdigits, hne⟩, ?_⟩
    simp [Exponent.text, htext]

theorem isExponentText_text (n : Number) : isExponentText n.expText := by
  unfold Number.expText
  split
  · rfl
  · rename_i e he
    have hmark : e.mark = 0x65#8 ∨ e.mark = 0x45#8 := e.mark_ok
    simp [isExponentText, Exponent.text, splitExponent_text, hmark, e.digits_ne, e.digits_ok]

/-- Whether a text is a number, by taking it apart and putting it together again. -/
def isNumberText (t : Bytes) : Bool :=
  let (neg, int, frac, exp) := splitNumber t
  int.all isDigit && int != [] && (int.head? != some 0x30#8 || int == [0x30#8]) &&
    frac.all isDigit && isExponentText exp &&
    ((if neg then [0x2D#8] else []) ++ (int ++ ((if frac = [] then [] else 0x2E#8 :: frac) ++ exp)) ==
      t)

theorem isNumber_iff (t : Bytes) : IsNumber t ↔ isNumberText t = true := by
  constructor
  · rintro ⟨n, rfl⟩
    have hlead : n.int.head? ≠ some 0x30#8 ∨ n.int = [0x30#8] := by
      by_cases hzero : n.int.head? = some 0x30#8
      · exact Or.inr (n.int_lead hzero)
      · exact Or.inl hzero
    simp only [isNumberText, splitNumber_text, Bool.and_eq_true, Bool.or_eq_true, bne_iff_ne,
      beq_iff_eq]
    exact ⟨⟨⟨⟨⟨n.int_ok, n.int_ne⟩, hlead⟩, n.frac_ok⟩, isExponentText_text n⟩, rfl⟩
  · intro h
    obtain ⟨⟨neg, int, frac, exp⟩, hsplit⟩ : ∃ parts, splitNumber t = parts := ⟨_, rfl⟩
    simp only [isNumberText, hsplit, Bool.and_eq_true, Bool.or_eq_true, bne_iff_ne,
      beq_iff_eq] at h
    obtain ⟨⟨⟨⟨⟨hint, hne⟩, hlead⟩, hfrac⟩, hexp⟩, htext⟩ := h
    obtain ⟨e, he⟩ := isExponentText_sound hexp
    refine ⟨⟨neg, int, frac, e, hint, hne, ?_, hfrac⟩, ?_⟩
    · intro hzero
      exact hlead.resolve_left (by simp [hzero])
    · rw [← htext, ← he]
      rfl

instance : DecidablePred IsNumber := fun t => decidable_of_iff' _ (isNumber_iff t)

end KimixNative.Json
