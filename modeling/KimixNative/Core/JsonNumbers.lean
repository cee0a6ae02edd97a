import KimixNative.Core.JsonStrings

/-!
# The scalars of the repairer

A strict reader of JSON reads all numbers that `strtod` accepts and all integers of 64 bits,
which is what `normalize_number` writes. So every bare token becomes a literal, a number or a
string of that reader.
-/

namespace KimixNative.Core

open Json

/-! ### Decimal integers -/

theorem digitChar_byte {d : Nat} (h : d < 10) :
    BitVec.ofNat 8 (Nat.digitChar d).toNat = BitVec.ofNat 8 (0x30 + d) := by
  have h' : ∀ d : Fin 10, BitVec.ofNat 8 (Nat.digitChar d).toNat = BitVec.ofNat 8 (0x30 + d) := by
    decide
  exact h' ⟨d, h⟩

theorem decimal_of_lt {n : Nat} (h : n < 10) : Text.decimal n = [BitVec.ofNat 8 (0x30 + n)] := by
  rw [Text.decimal, Nat.toDigits_of_lt_base h, List.map_singleton, digitChar_byte h]

theorem decimal_of_le {n : Nat} (h : 10 ≤ n) :
    Text.decimal n = Text.decimal (n / 10) ++ [BitVec.ofNat 8 (0x30 + n % 10)] := by
  rw [Text.decimal, Nat.toDigits_of_base_le (by omega) h, List.map_append, List.map_singleton,
    digitChar_byte (by omega), ← Text.decimal]

theorem decimal_ne (n : Nat) : Text.decimal n ≠ [] := by
  rw [Text.decimal, Ne, List.map_eq_nil_iff]
  exact Nat.toDigits_ne_nil

theorem isDigit_byte {d : Nat} (h : d < 10) : isDigit (BitVec.ofNat 8 (0x30 + d)) := by
  have hval : (BitVec.ofNat 8 (0x30 + d)).toNat = 0x30 + d := toNat_lead (by omega)
  simp only [isDigit, hval, Bool.and_eq_true, decide_eq_true_eq]
  omega

theorem decimal_isDigit (n : Nat) : (Text.decimal n).all isDigit := by
  induction n using Nat.strong_induction_on with
  | _ n ih =>
    rcases Nat.lt_or_ge n 10 with h | h
    · simp [decimal_of_lt h, isDigit_byte h]
    · rw [decimal_of_le h, List.all_append, ih (n / 10) (by omega)]
      simp [isDigit_byte (show n % 10 < 10 by omega)]

theorem digitsNat_append_digit (ds : Bytes) {d : Nat} (h : d < 10) :
    digitsNat (ds ++ [BitVec.ofNat 8 (0x30 + d)]) = digitsNat ds * 10 + d := by
  have hval : (BitVec.ofNat 8 (0x30 + d)).toNat = 0x30 + d := toNat_lead (by omega)
  simp only [digitsNat, List.foldl_append, List.foldl_cons, List.foldl_nil, hval]
  omega

theorem digitsNat_decimal (n : Nat) : digitsNat (Text.decimal n) = n := by
  induction n using Nat.strong_induction_on with
  | _ n ih =>
    rcases Nat.lt_or_ge n 10 with h | h
    · have hdigit := digitsNat_append_digit [] h
      rw [List.nil_append] at hdigit
      rw [decimal_of_lt h, hdigit]
      simp [digitsNat]
    · rw [decimal_of_le h, digitsNat_append_digit _ (by omega), ih (n / 10) (by omega)]
      omega

/-- A decimal integer has no leading zero. -/
theorem decimal_lead (n : Nat) (h : (Text.decimal n).head? = some 0x30#8) :
    Text.decimal n = [0x30#8] := by
  have hzero : n = 0 := by
    by_contra hne
    revert h hne
    induction n using Nat.strong_induction_on with
    | _ n ih =>
      intro h hne
      rcases Nat.lt_or_ge n 10 with hlt | hge
      · rw [decimal_of_lt hlt, List.head?_cons, Option.some.injEq] at h
        have hval := congrArg BitVec.toNat h
        rw [toNat_lead (by omega)] at hval
        simp at hval
        omega
      · refine ih (n / 10) (by omega) ?_ (by omega)
        rwa [decimal_of_le hge, List.head?_append_of_ne_nil _ (decimal_ne _)] at h
  rw [hzero]
  rfl

/-- An integer as a number of the grammar. -/
def integer (neg : Bool) (n : Nat) : Number where
  neg      := neg
  int      := Text.decimal n
  frac     := []
  exp      := none
  int_ok   := decimal_isDigit n
  int_ne   := decimal_ne n
  int_lead := decimal_lead n
  frac_ok  := rfl

theorem text_integer (neg : Bool) (n : Nat) :
    (integer neg n).text = (if neg then [0x2D#8] else []) ++ Text.decimal n := by
  cases neg <;> simp [integer, Number.text, Number.signText, Number.fracText, Number.expText]

/-! ### Numbers -/

/-- A strict reader of JSON, as far as the repairer depends on it: which numbers it reads. It
reads those that `strtod` accepts, and the integers of 64 bits. -/
structure StrictReader (accepts : Bytes → Bool) where
  reads : Number → Prop
  accepted : ∀ t, accepts t = true → ∃ n : Number, n.text = t ∧ reads n
  integers : ∀ neg v, v < 2 ^ 64 → reads (integer neg v)

theorem foldl_hexInteger_lt {v : Nat} (hv : v < 2 ^ 64) (digits : Bytes) :
    digits.foldl (fun v b => (v * 16 + hexVal b) % 2 ^ 64) v < 2 ^ 64 := by
  induction digits generalizing v with
  | nil => exact hv
  | cons b digits ih => exact ih (Nat.mod_lt _ (by decide))

theorem hexInteger_lt (digits : Bytes) : hexInteger digits < 2 ^ 64 :=
  foldl_hexInteger_lt (by decide) digits

variable {accepts : Bytes → Bool}

/-- What `normalize_number` writes is a number that the reader reads. -/
theorem StrictReader.normalizeNumber (reader : StrictReader accepts) {t out : Bytes}
    (h : Core.normalizeNumber accepts t = some out) : ∃ n : Number, n.text = out ∧ reader.reads n := by
  have hunsigned : ∀ neg r, normalizeUnsigned accepts neg r = some out →
      ∃ n : Number, n.text = out ∧ reader.reads n := by
    intro neg r h
    simp only [normalizeUnsigned] at h
    by_cases hnil : r = []
    · rw [if_pos hnil] at h
      cases h
    rw [if_neg hnil] at h
    split at h
    · split at h
      · have hlt := hexInteger_lt (r.drop 2)
        exact ⟨_, (text_integer neg _).trans (Option.some.inj h), reader.integers neg _ hlt⟩
      · cases h
    · obtain ⟨norm, -, hnorm⟩ := Option.bind_eq_some_iff.mp h
      by_cases haccepts : accepts ((if neg then [0x2D#8] else []) ++ norm) = true
      · rw [if_pos haccepts] at hnorm
        obtain ⟨n, htext, hn⟩ := reader.accepted _ haccepts
        exact ⟨n, htext.trans (Option.some.inj hnorm), hn⟩
      · rw [if_neg haccepts] at hnorm
        cases hnorm
  unfold Core.normalizeNumber at h
  split_ifs at h
  · exact hunsigned _ _ h
  · exact hunsigned _ _ h
  · exact hunsigned _ _ h

/-! ### Bare tokens -/

/-- `t` is one value, without blanks around it. -/
def IsValueText (reads : Number → Prop) (t : Bytes) : Prop := ∃ v, Denotes reads t (.value v)

theorem isValueText_null (reads : Number → Prop) : IsValueText reads (Text.ascii "null") :=
  ⟨_, .litNull⟩

theorem isValueText_string {reads : Number → Prop} {t : Bytes} (h : IsString t) :
    IsValueText reads t := by
  obtain ⟨body, cs, hbody, rfl⟩ := h
  exact ⟨_, .string hbody⟩

theorem StrictReader.isValueText_number (reader : StrictReader accepts) {t out : Bytes}
    (h : Core.normalizeNumber accepts t = some out) : IsValueText reader.reads out := by
  obtain ⟨n, rfl, hn⟩ := reader.normalizeNumber h
  exact ⟨_, .number hn⟩

/-- What `emit_bare_value` writes is one value. -/
theorem StrictReader.isValueText_bare (reader : StrictReader accepts) (tok : Bytes) :
    IsValueText reader.reads (emitBareValue accepts tok) := by
  unfold emitBareValue
  split_ifs
  · exact ⟨_, .litTrue⟩
  · exact ⟨_, .litFalse⟩
  · exact isValueText_null _
  · exact isValueText_null _
  · cases h : Core.normalizeNumber accepts tok with
    | none => exact isValueText_string (isString_emitEscaped tok)
    | some out => exact reader.isValueText_number h
  · exact isValueText_string (isString_emitEscaped tok)

end KimixNative.Core
