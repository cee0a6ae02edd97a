import Mathlib.Tactic.Linarith
import KimixNative.Lib.LittleEndian

/-!
# JSON texts

The grammar of JSON as one inductive relation between byte strings and what they denote.
Strings denote lists of Unicode scalar values, numbers denote rational numbers, and an object
denotes its members in order. Raw characters are written as the UTF-8 encoding of a scalar
value, so a text of the grammar is valid UTF-8.

The relation takes as a parameter which number texts are read, because readers differ in the
range of numbers that they accept.
-/

namespace KimixNative.Json

/-! ### Characters -/

def isBlank (b : Byte) : Bool := b == 0x20#8 || b == 0x09#8 || b == 0x0A#8 || b == 0x0D#8

def isDigit (b : Byte) : Bool := decide (0x30 ≤ b.toNat) && decide (b.toNat ≤ 0x39)

def isHexDigit (b : Byte) : Bool :=
  isDigit b || (decide (0x61 ≤ b.toNat) && decide (b.toNat ≤ 0x66)) ||
    (decide (0x41 ≤ b.toNat) && decide (b.toNat ≤ 0x46))

def hexVal (b : Byte) : Nat :=
  if isDigit b then b.toNat - 0x30
  else if 0x61 ≤ b.toNat ∧ b.toNat ≤ 0x66 then b.toNat - 0x61 + 10
  else b.toNat - 0x41 + 10

/-- Four hexadecimal digits. -/
def IsHex4 (ds : Bytes) : Prop := ds.length = 4 ∧ ds.all isHexDigit

instance (ds : Bytes) : Decidable (IsHex4 ds) := inferInstanceAs (Decidable (_ ∧ _))

def hexNat (ds : Bytes) : Nat := ds.foldl (fun n b => n * 16 + hexVal b) 0

def isHigh (cp : Nat) : Bool := decide (0xD800 ≤ cp) && decide (cp ≤ 0xDBFF)

def isLow (cp : Nat) : Bool := decide (0xDC00 ≤ cp) && decide (cp ≤ 0xDFFF)

/-- A Unicode scalar value: a code point that is not a surrogate. -/
def IsScalar (cp : Nat) : Prop := cp < 0xD800 ∨ 0xDFFF < cp ∧ cp ≤ 0x10FFFF

/-- The UTF-8 encoding of a scalar value. -/
def utf8 (cp : Nat) : Bytes :=
  if cp < 0x80 then [BitVec.ofNat 8 cp]
  else if cp < 0x800 then [BitVec.ofNat 8 (0xC0 + cp / 0x40), BitVec.ofNat 8 (0x80 + cp % 0x40)]
  else if cp < 0x10000 then
    [BitVec.ofNat 8 (0xE0 + cp / 0x1000), BitVec.ofNat 8 (0x80 + cp / 0x40 % 0x40),
      BitVec.ofNat 8 (0x80 + cp % 0x40)]
  else
    [BitVec.ofNat 8 (0xF0 + cp / 0x40000), BitVec.ofNat 8 (0x80 + cp / 0x1000 % 0x40),
      BitVec.ofNat 8 (0x80 + cp / 0x40 % 0x40), BitVec.ofNat 8 (0x80 + cp % 0x40)]

/-- A character that stands for itself in a string. -/
def IsPlain (cp : Nat) : Prop := IsScalar cp ∧ 0x20 ≤ cp ∧ cp ≠ 0x22 ∧ cp ≠ 0x5C

/-- The two-character escapes. -/
def escapeValue (e : Byte) : Option Nat :=
  if e = 0x22#8 then some 0x22 -- quotation mark
  else if e = 0x5C#8 then some 0x5C -- backslash
  else if e = 0x2F#8 then some 0x2F -- slash
  else if e = 0x62#8 then some 0x08
  else if e = 0x66#8 then some 0x0C
  else if e = 0x6E#8 then some 0x0A
  else if e = 0x72#8 then some 0x0D
  else if e = 0x74#8 then some 0x09
  else none

/-- What stands between the quotation marks of a string, with the characters it denotes. -/
inductive StringBody : Bytes → List Nat → Prop
  | nil : StringBody [] []
  | char {cp t cs} (hcp : IsPlain cp) (hrest : StringBody t cs) :
      StringBody (utf8 cp ++ t) (cp :: cs)
  | escape {e cp t cs} (he : escapeValue e = some cp) (hrest : StringBody t cs) :
      StringBody (0x5C#8 :: e :: t) (cp :: cs)
  | unicode {ds t cs} (hds : IsHex4 ds) (hhigh : isHigh (hexNat ds) = false)
      (hlow : isLow (hexNat ds) = false) (hrest : StringBody t cs) :
      StringBody (0x5C#8 :: 0x75#8 :: (ds ++ t)) (hexNat ds :: cs)
  | pair {hi lo t cs} (hhi : IsHex4 hi) (hlo : IsHex4 lo) (hhigh : isHigh (hexNat hi))
      (hlow : isLow (hexNat lo)) (hrest : StringBody t cs) :
      StringBody (0x5C#8 :: 0x75#8 :: (hi ++ 0x5C#8 :: 0x75#8 :: (lo ++ t)))
        ((0x10000 + (hexNat hi - 0xD800) * 0x400 + (hexNat lo - 0xDC00)) :: cs)

variable {cs : List Nat} {t : Bytes} {b : Byte}

theorem StringBody.append {a b : Bytes} {ds : List Nat} (ha : StringBody a cs)
    (hb : StringBody b ds) : StringBody (a ++ b) (cs ++ ds) := by
  induction ha with
  | nil => exact hb
  | char hcp hrest ih =>
    rw [List.append_assoc]
    exact .char hcp ih
  | escape he hrest ih => exact .escape he ih
  | unicode hds hhigh hlow hrest ih =>
    have h := StringBody.unicode hds hhigh hlow ih
    simpa only [List.cons_append, List.append_assoc] using h
  | pair hhi hlo hhigh hlow hrest ih =>
    have h := StringBody.pair hhi hlo hhigh hlow ih
    simpa only [List.cons_append, List.append_assoc] using h

theorem utf8_ne_nil (cp : Nat) : utf8 cp ≠ [] := by
  unfold utf8
  split_ifs <;> exact List.cons_ne_nil _ _

/-- The empty body writes no character. -/
theorem StringBody.of_nil (h : StringBody [] cs) : cs = [] := by
  generalize hempty : ([] : Bytes) = b at h
  cases h with
  | nil => rfl
  | char hcp hrest => exact absurd (List.append_eq_nil_iff.mp hempty.symm).1 (utf8_ne_nil _)
  | escape | unicode | pair => cases hempty

/-- A string with its quotation marks. -/
def quoted (body : Bytes) : Bytes := 0x22#8 :: (body ++ [0x22#8])

def IsString (t : Bytes) : Prop := ∃ body cs, StringBody body cs ∧ t = quoted body

/-! ### Numbers -/

/-- The number that decimal digits spell. -/
def digitsNat (ds : Bytes) : Nat := ds.foldl (fun n b => n * 10 + (b.toNat - 0x30)) 0

structure Exponent where
  mark   : Byte
  sign   : Option Byte
  digits : Bytes
  mark_ok : mark = 0x65#8 ∨ mark = 0x45#8
  sign_ok : ∀ b, sign = some b → b = 0x2B#8 ∨ b = 0x2D#8
  digits_ok : digits.all isDigit
  digits_ne : digits ≠ []

namespace Exponent

def text (e : Exponent) : Bytes := e.mark :: (e.sign.toList ++ e.digits)

def value (e : Exponent) : ℤ :=
  if e.sign = some 0x2D#8 then -(digitsNat e.digits : ℤ) else digitsNat e.digits

end Exponent

/-- The parts of a number: sign, integer digits without leading zeros, fraction digits
(none when there is no point) and exponent. -/
structure Number where
  neg  : Bool
  int  : Bytes
  frac : Bytes
  exp  : Option Exponent
  int_ok : int.all isDigit
  int_ne : int ≠ []
  int_lead : int.head? = some 0x30#8 → int = [0x30#8]
  frac_ok : frac.all isDigit

namespace Number

def signText (n : Number) : Bytes := if n.neg then [0x2D#8] else []

def fracText (n : Number) : Bytes := if n.frac = [] then [] else 0x2E#8 :: n.frac

def expText (n : Number) : Bytes :=
  match n.exp with
  | none => []
  | some e => e.text

def text (n : Number) : Bytes := n.signText ++ (n.int ++ (n.fracText ++ n.expText))

def expValue (n : Number) : ℤ :=
  match n.exp with
  | none => 0
  | some e => e.value

def value (n : Number) : ℚ :=
  (if n.neg then -1 else 1) * digitsNat (n.int ++ n.frac) * 10 ^ (n.expValue - n.frac.length)

end Number

/-- `t` is a number text. -/
def IsNumber (t : Bytes) : Prop := ∃ n : Number, n.text = t

/-! ### Texts -/

inductive Value
  | null
  | bool (b : Bool)
  | num (q : ℚ)
  | str (chars : List Nat)
  | arr (items : List Value)
  | obj (members : List (List Nat × Value))

/-- What a phrase of the grammar denotes: a value, a value between blanks, a member of an
object between blanks, and the contents of an array or an object that is not empty. -/
inductive Phrase
  | value (v : Value)
  | text (v : Value)
  | member (key : List Nat) (v : Value)
  | elements (items : List Value)
  | members (members : List (List Nat × Value))

/-- `t` denotes the phrase, for a reader of the numbers `reads`. -/
inductive Denotes (reads : Number → Prop) : Bytes → Phrase → Prop
  | litNull : Denotes reads [0x6E#8, 0x75#8, 0x6C#8, 0x6C#8] (.value .null)
  | litTrue : Denotes reads [0x74#8, 0x72#8, 0x75#8, 0x65#8] (.value (.bool true))
  | litFalse : Denotes reads [0x66#8, 0x61#8, 0x6C#8, 0x73#8, 0x65#8] (.value (.bool false))
  | number {n : Number} (hn : reads n) : Denotes reads n.text (.value (.num n.value))
  | string {body cs} (hbody : StringBody body cs) : Denotes reads (quoted body) (.value (.str cs))
  | emptyArray {ws : Bytes} (hws : ws.all isBlank) :
      Denotes reads (0x5B#8 :: (ws ++ [0x5D#8])) (.value (.arr []))
  | array {ts vs} (hts : Denotes reads ts (.elements vs)) :
      Denotes reads (0x5B#8 :: (ts ++ [0x5D#8])) (.value (.arr vs))
  | emptyObject {ws : Bytes} (hws : ws.all isBlank) :
      Denotes reads (0x7B#8 :: (ws ++ [0x7D#8])) (.value (.obj []))
  | object {ts ms} (hts : Denotes reads ts (.members ms)) :
      Denotes reads (0x7B#8 :: (ts ++ [0x7D#8])) (.value (.obj ms))
  | text {before t after : Bytes} {v} (hbefore : before.all isBlank)
      (ht : Denotes reads t (.value v)) (hafter : after.all isBlank) :
      Denotes reads (before ++ (t ++ after)) (.text v)
  | member {before body after t : Bytes} {key v} (hbefore : before.all isBlank)
      (hkey : StringBody body key) (hafter : after.all isBlank) (ht : Denotes reads t (.text v)) :
      Denotes reads (before ++ (quoted body ++ (after ++ 0x3A#8 :: t))) (.member key v)
  | element {t v} (ht : Denotes reads t (.text v)) : Denotes reads t (.elements [v])
  | moreElements {ts t vs v} (hts : Denotes reads ts (.elements vs))
      (ht : Denotes reads t (.text v)) :
      Denotes reads (ts ++ 0x2C#8 :: t) (.elements (vs ++ [v]))
  | oneMember {t key v} (ht : Denotes reads t (.member key v)) :
      Denotes reads t (.members [(key, v)])
  | moreMembers {ts t ms key v} (hts : Denotes reads ts (.members ms))
      (ht : Denotes reads t (.member key v)) :
      Denotes reads (ts ++ 0x2C#8 :: t) (.members (ms ++ [(key, v)]))

/-- `t` is a JSON text. -/
def IsJson (reads : Number → Prop) (t : Bytes) : Prop := ∃ v, Denotes reads t (.text v)

variable {reads : Number → Prop}

/-- A value without blanks around it is a text. -/
theorem Denotes.bare {v : Value} (h : Denotes reads t (.value v)) : Denotes reads t (.text v) := by
  simpa using @Denotes.text reads [] t [] v rfl h rfl

/-- A text that neither begins nor ends with a blank is a value. -/
theorem Denotes.tight {w : Bytes} {v : Value} (h : Denotes reads w (.text v))
    (hfirst : ∀ b, w.head? = some b → isBlank b = false)
    (hlast : ∀ b, w.getLast? = some b → isBlank b = false) : Denotes reads w (.value v) := by
  cases h with
  | @text before t after _ hbefore ht hafter =>
    have hnone : before = [] := by
      cases before with
      | nil => rfl
      | cons b before =>
        simp only [List.all_cons, Bool.and_eq_true] at hbefore
        rw [hfirst b rfl] at hbefore
        cases hbefore.1
    have hnone' : after = [] := by
      rcases List.eq_nil_or_concat after with hnil | ⟨after', b, rfl⟩
      · exact hnil
      · simp only [List.concat_eq_append, List.all_append, List.all_cons, Bool.and_eq_true] at hafter
        have hb := hlast b (by simp)
        rw [hb] at hafter
        cases hafter.2.1
    rw [hnone, hnone', List.nil_append, List.append_nil]
    exact ht

/-! ### A colon is followed by a value -/

/-- Where a byte of a text stands: outside strings, with or without a colon just before it, in
a string, behind a backslash in a string, or behind a colon that no value follows. -/
inductive Lex
  | outside (afterColon : Bool)
  | inString
  | escaped
  | lost
  deriving DecidableEq

namespace Lex

def step (s : Lex) (b : Byte) : Lex :=
  match s with
  | outside afterColon =>
    if b = 0x22#8 then inString
    else if b = 0x3A#8 then outside true
    else if isBlank b then outside afterColon
    else if b = 0x2C#8 ∨ b = 0x5D#8 ∨ b = 0x7D#8 then if afterColon then lost else outside false
    else outside false
  | inString => if b = 0x22#8 then outside false else if b = 0x5C#8 then escaped else inString
  | escaped => inString
  | lost => lost

def scan (s : Lex) (t : Bytes) : Lex := t.foldl step s

@[simp] theorem scan_nil (s : Lex) : s.scan [] = s := rfl

@[simp] theorem scan_cons (s : Lex) (b : Byte) (t : Bytes) : s.scan (b :: t) = (s.step b).scan t :=
  rfl

theorem scan_append (s : Lex) (t u : Bytes) : s.scan (t ++ u) = (s.scan t).scan u :=
  List.foldl_append

@[simp] theorem scan_lost (t : Bytes) : lost.scan t = lost := by
  induction t with
  | nil => rfl
  | cons b t ih => exact ih

theorem scan_blank {ws : Bytes} (hws : ws.all isBlank) (c : Bool) :
    (outside c).scan ws = outside c := by
  induction ws with
  | nil => rfl
  | cons b ws ih =>
    simp only [List.all_cons, Bool.and_eq_true] at hws
    have hquote : b ≠ 0x22#8 := by
      rintro rfl
      simp [isBlank] at hws
    have hcolon : b ≠ 0x3A#8 := by
      rintro rfl
      simp [isBlank] at hws
    rw [scan_cons, step, if_neg hquote, if_neg hcolon, if_pos hws.1]
    exact ih hws.2

/-- A byte of a number. -/
def isNumeric (b : Byte) : Bool :=
  isDigit b || b == 0x2B#8 || b == 0x2D#8 || b == 0x2E#8 || b == 0x45#8 || b == 0x65#8

theorem step_numeric (hb : isNumeric b) (c : Bool) : (outside c).step b = outside false := by
  revert b c
  decide

theorem scan_numeric (ht : t.all isNumeric) (hne : t ≠ []) (c : Bool) :
    (outside c).scan t = outside false := by
  induction t generalizing c with
  | nil => exact absurd rfl hne
  | cons b t ih =>
    simp only [List.all_cons, Bool.and_eq_true] at ht
    rw [scan_cons, step_numeric ht.1]
    by_cases hnil : t = []
    · rw [hnil, scan_nil]
    · exact ih ht.2 hnil false

/-- A byte that a string can hold raw. -/
theorem step_raw (hquote : b ≠ 0x22#8) (hback : b ≠ 0x5C#8) : inString.step b = inString := by
  rw [step, if_neg hquote, if_neg hback]

theorem scan_raw (ht : ∀ b ∈ t, b ≠ 0x22#8 ∧ b ≠ 0x5C#8) : inString.scan t = inString := by
  induction t with
  | nil => rfl
  | cons b t ih =>
    have hb := ht b (List.mem_cons_self ..)
    rw [scan_cons, step_raw hb.1 hb.2]
    exact ih fun b' hb' => ht b' (List.mem_cons_of_mem _ hb')

end Lex

theorem isNumeric_of_isDigit (h : isDigit b) : Lex.isNumeric b := by
  simp [Lex.isNumeric, h]

theorem all_isNumeric {ds : Bytes} (h : ds.all isDigit) : ds.all Lex.isNumeric := by
  rw [List.all_eq_true] at h ⊢
  intro b hb
  exact isNumeric_of_isDigit (h b hb)

theorem Exponent.text_numeric (e : Exponent) : e.text.all Lex.isNumeric := by
  have hmark : Lex.isNumeric e.mark := by
    obtain h | h := e.mark_ok <;> rw [h] <;> rfl
  have hsign : e.sign.toList.all Lex.isNumeric := by
    cases hs : e.sign with
    | none => rfl
    | some b => obtain rfl | rfl := e.sign_ok b hs <;> rfl
  simp [Exponent.text, hmark, hsign, all_isNumeric e.digits_ok]

theorem Number.text_numeric (n : Number) : n.text.all Lex.isNumeric := by
  have hsign : n.signText.all Lex.isNumeric := by
    unfold signText
    split <;> rfl
  have hfrac : n.fracText.all Lex.isNumeric := by
    unfold fracText
    split
    · rfl
    · simp only [List.all_cons, all_isNumeric n.frac_ok, Bool.and_true]
      rfl
  have hexp : n.expText.all Lex.isNumeric := by
    unfold expText
    split
    · rfl
    · exact Exponent.text_numeric _
  simp [text, hsign, hfrac, hexp, all_isNumeric n.int_ok]

theorem Number.text_ne (n : Number) : n.text ≠ [] := by
  simp [text, n.int_ne]

theorem utf8_raw {cp : Nat} (h : IsPlain cp) : ∀ b ∈ utf8 cp, b ≠ 0x22#8 ∧ b ≠ 0x5C#8 := by
  have hlarge : ∀ n, 0x80 ≤ n → n < 0x100 →
      BitVec.ofNat 8 n ≠ 0x22#8 ∧ BitVec.ofNat 8 n ≠ 0x5C#8 := by
    intro n hlow hhigh
    constructor <;> intro heq <;> have := congrArg BitVec.toNat heq <;> simp at this <;> omega
  obtain ⟨hscalar, hcontrol, hquote, hback⟩ := h
  have hmax : cp ≤ 0x10FFFF := by
    unfold IsScalar at hscalar
    omega
  intro b hb
  unfold utf8 at hb
  split_ifs at hb <;> simp only [List.mem_cons, List.not_mem_nil, or_false] at hb
  · subst hb
    constructor <;> intro heq <;> have := congrArg BitVec.toNat heq <;> simp at this <;> omega
  · rcases hb with rfl | rfl <;> apply hlarge <;> omega
  · rcases hb with rfl | rfl | rfl <;> apply hlarge <;> omega
  · rcases hb with rfl | rfl | rfl | rfl <;> apply hlarge <;> omega

theorem isHexDigit_raw (h : isHexDigit b) : b ≠ 0x22#8 ∧ b ≠ 0x5C#8 := by
  constructor <;> rintro rfl <;> simp [isHexDigit, isDigit] at h

theorem IsHex4.raw {ds : Bytes} (h : IsHex4 ds) : ∀ b ∈ ds, b ≠ 0x22#8 ∧ b ≠ 0x5C#8 := by
  intro b hb
  exact isHexDigit_raw (List.all_eq_true.mp h.2 b hb)

theorem StringBody.scan {body : Bytes} (h : StringBody body cs) :
    Lex.inString.scan body = .inString := by
  induction h with
  | nil => rfl
  | char hcp hrest ih =>
    rw [Lex.scan_append, Lex.scan_raw (utf8_raw hcp)]
    exact ih
  | escape he hrest ih => exact ih
  | unicode hds hhigh hlow hrest ih =>
    change Lex.inString.scan (_ ++ _) = _
    rw [Lex.scan_append, Lex.scan_raw hds.raw]
    exact ih
  | pair hhi hlo hhigh hlow hrest ih =>
    change Lex.inString.scan (_ ++ _) = _
    rw [Lex.scan_append, Lex.scan_raw hhi.raw]
    change Lex.inString.scan (_ ++ _) = _
    rw [Lex.scan_append, Lex.scan_raw hlo.raw]
    exact ih

theorem StringBody.scan_quoted {body : Bytes} (h : StringBody body cs) (c : Bool) :
    (Lex.outside c).scan (quoted body) = .outside false := by
  change Lex.inString.scan (body ++ [0x22#8]) = _
  rw [Lex.scan_append, h.scan]
  rfl

/-- Whether a phrase may stand right behind a colon. -/
def Phrase.IsValue : Phrase → Prop
  | value _ | text _ => True
  | _ => False

/-- A phrase of the grammar never leaves a colon without a value. -/
theorem Denotes.scan {p : Phrase} (h : Denotes reads t p) :
    (Lex.outside false).scan t = .outside false ∧
      (p.IsValue → (Lex.outside true).scan t = .outside false) := by
  induction h with
  | litNull => exact ⟨rfl, fun _ => rfl⟩
  | litTrue => exact ⟨rfl, fun _ => rfl⟩
  | litFalse => exact ⟨rfl, fun _ => rfl⟩
  | @number n hn =>
    have hscan := Lex.scan_numeric n.text_numeric n.text_ne
    exact ⟨hscan false, fun _ => hscan true⟩
  | string hbody => exact ⟨hbody.scan_quoted false, fun _ => hbody.scan_quoted true⟩
  | emptyArray hws | emptyObject hws =>
    refine ⟨?_, fun _ => ?_⟩ <;> change (Lex.outside false).scan (_ ++ _) = _ <;>
      rw [Lex.scan_append, Lex.scan_blank hws] <;> rfl
  | array _ ih | object _ ih =>
    refine ⟨?_, fun _ => ?_⟩ <;> change (Lex.outside false).scan (_ ++ _) = _ <;>
      rw [Lex.scan_append, ih.1] <;> rfl
  | text hbefore _ hafter ih =>
    refine ⟨?_, fun _ => ?_⟩
    · rw [Lex.scan_append, Lex.scan_blank hbefore, Lex.scan_append, ih.1, Lex.scan_blank hafter]
    · rw [Lex.scan_append, Lex.scan_blank hbefore, Lex.scan_append, ih.2 trivial,
        Lex.scan_blank hafter]
  | member hbefore hkey hafter _ ih =>
    refine ⟨?_, fun h => h.elim⟩
    rw [Lex.scan_append, Lex.scan_blank hbefore, Lex.scan_append, hkey.scan_quoted,
      Lex.scan_append, Lex.scan_blank hafter]
    exact ih.2 trivial
  | element _ ih | oneMember _ ih => exact ⟨ih.1, fun h => h.elim⟩
  | moreElements _ _ ihs ih | moreMembers _ _ ihs ih =>
    refine ⟨?_, fun h => h.elim⟩
    rw [Lex.scan_append, ihs.1]
    exact ih.1

theorem IsJson.scan (h : IsJson reads t) : (Lex.outside false).scan t = .outside false := by
  obtain ⟨v, hv⟩ := h
  exact hv.scan.1

end KimixNative.Json
