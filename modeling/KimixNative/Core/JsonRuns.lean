import KimixNative.Core.JsonTurns

/-!
# The repairer writes JSON

At every round the output is a JSON text that is cut off where the open containers of the stack
are: each of them is a container with its first members or elements, and those below the top
go on to the place of their next value. A round keeps this, unless it takes a thousands group
whose digits `normalize_number` refuses; then nothing is written behind a colon, and no later
round can make up for it.
-/

namespace KimixNative.Core

open Json

variable {reads : Number → Prop}

/-! ### Cut off texts -/

def opener (obj : Bool) : Byte := if obj then 0x7B#8 else 0x5B#8

/-- The text of an open container up to the end of its last member or element. -/
inductive Body (reads : Number → Prop) : Frame → Bytes → Prop
  | fresh (obj : Bool) : Body reads ⟨obj, false⟩ [opener obj]
  | elements {ts vs} (hts : Denotes reads ts (.elements vs)) :
      Body reads ⟨false, true⟩ (0x5B#8 :: ts)
  | members {ts ms} (hts : Denotes reads ts (.members ms)) : Body reads ⟨true, true⟩ (0x7B#8 :: ts)

/-- The comma behind the last member or element. -/
def separator (f : Frame) : Bytes := if f.hasPrev then [0x2C#8] else []

theorem Body.element {hp : Bool} {b t : Bytes} (hb : Body reads ⟨false, hp⟩ b)
    (ht : IsValueText reads t) : Body reads ⟨false, true⟩ (b ++ (separator ⟨false, hp⟩ ++ t)) := by
  obtain ⟨v, ht⟩ := ht
  cases hb with
  | fresh => exact .elements (.element ht.bare)
  | elements hts => exact .elements (.moreElements hts ht.bare)

theorem Body.member {hp : Bool} {b key t : Bytes} (hb : Body reads ⟨true, hp⟩ b)
    (hkey : IsString key) (ht : IsValueText reads t) :
    Body reads ⟨true, true⟩ (b ++ (separator ⟨true, hp⟩ ++ (key ++ 0x3A#8 :: t))) := by
  obtain ⟨v, ht⟩ := ht
  obtain ⟨body, cs, hbody, rfl⟩ := hkey
  have hmember := @Denotes.member reads [] body [] t cs v rfl hbody rfl ht.bare
  cases hb with
  | fresh => exact .members (.oneMember hmember)
  | members hts => exact .members (.moreMembers hts hmember)

variable {f : Frame} {out input : Bytes} {r' : Repairer} {refused : Prop}

theorem Body.closed {b : Bytes} (hb : Body reads f b) :
    IsValueText reads (b ++ [Repairer.closer f]) := by
  cases hb with
  | fresh obj =>
    cases obj
    · exact ⟨_, @Denotes.emptyArray reads [] rfl⟩
    · exact ⟨_, @Denotes.emptyObject reads [] rfl⟩
  | elements hts => exact ⟨_, .array hts⟩
  | members hts => exact ⟨_, .object hts⟩

/-- The output where a value may come: each open container stands before its next value. -/
inductive Slots (reads : Number → Prop) : List Frame → Bytes → Prop
  | top : Slots reads [] []
  | element {stk out hp b} (hout : Slots reads stk out) (hb : Body reads ⟨false, hp⟩ b) :
      Slots reads (⟨false, hp⟩ :: stk) (out ++ (b ++ separator ⟨false, hp⟩))
  | member {stk out hp b key} (hout : Slots reads stk out) (hb : Body reads ⟨true, hp⟩ b)
      (hkey : IsString key) :
      Slots reads (⟨true, hp⟩ :: stk) (out ++ (b ++ (separator ⟨true, hp⟩ ++ (key ++ [0x3A#8]))))

/-- The output behind a member or an element of the innermost container. -/
def Inside (reads : Number → Prop) : List Frame → Bytes → Prop
  | [], _ => False
  | f :: stk, out => ∃ pre b, Slots reads stk pre ∧ Body reads f b ∧ out = pre ++ b

/-- The output behind a key. -/
def AwaitsColon (reads : Number → Prop) : List Frame → Bytes → Prop
  | [], _ => False
  | f :: stk, out =>
    f.obj = true ∧ ∃ pre b key, Slots reads stk pre ∧ Body reads f b ∧ IsString key ∧
      out = pre ++ (b ++ (separator f ++ key))

/-- The output where the innermost container may be closed. -/
def Closable (reads : Number → Prop) : List Frame → Bytes → Prop
  | [], _ => False
  | f :: stk, out =>
    ∃ pre b, Slots reads stk pre ∧ IsValueText reads (b ++ [Repairer.closer f]) ∧ out = pre ++ b

variable {stk : List Frame} {r : Repairer}

theorem Inside.closable (h : Inside reads stk out) : Closable reads stk out := by
  cases stk with
  | nil => exact h
  | cons f stk =>
    obtain ⟨pre, b, hslots, hb, hout⟩ := h
    exact ⟨pre, b, hslots, hb.closed, hout⟩

/-- The colon behind a key. -/
theorem AwaitsColon.slots (h : AwaitsColon reads stk out) :
    ∃ f stk', stk = f :: stk' ∧ f.obj = true ∧ Slots reads (f :: stk') (out ++ [0x3A#8]) := by
  cases stk with
  | nil => exact h.elim
  | cons f stk =>
    obtain ⟨hobj, pre, b, key, hslots, hb, hkey, rfl⟩ := h
    obtain ⟨obj, hp⟩ := f
    obtain rfl : obj = true := hobj
    refine ⟨_, _, rfl, rfl, ?_⟩
    have h := Slots.member hslots hb hkey
    simpa only [List.append_assoc] using h

/-- A value in its place. -/
theorem Slots.fill {t : Bytes} (h : Slots reads (f :: stk) out) (ht : IsValueText reads t) :
    Inside reads ({ f with hasPrev := true } :: stk) (out ++ t) := by
  cases h with
  | element hout hb =>
    exact ⟨_, _, hout, hb.element ht, by simp⟩
  | member hout hb hkey =>
    exact ⟨_, _, hout, hb.member hkey ht, by simp⟩

theorem Slots.fill_closable {t : Bytes} (h : Slots reads (f :: stk) out) (ht : IsValueText reads t) :
    Closable reads (f :: stk) (out ++ t) := by
  obtain ⟨pre, b, hslots, hb, hout⟩ := h.fill ht
  exact ⟨pre, b, hslots, hb.closed, hout⟩

namespace Repairer

/-! ### The invariant -/

def topIs (obj : Bool) (stk : List Frame) : Prop := ∃ f stk', stk = f :: stk' ∧ f.obj = obj

/-- The output in the value state: right after a colon, at the top level, or in an array. -/
def HoldsValue (reads : Number → Prop) (r : Repairer) : Prop :=
  if r.valueRequired then topIs true r.stk ∧ Slots reads r.stk r.out
  else r.stk = [] ∧ r.out = [] ∨ topIs false r.stk ∧ Inside reads r.stk r.out

/-- What the output is at every round. -/
def Holds (reads : Number → Prop) (r : Repairer) : Prop :=
  if r.done then r.stk = [] ∧ (r.out = [] ∨ IsValueText reads r.out)
  else
    match r.st with
    | .value => r.HoldsValue reads
    | .key => topIs true r.stk ∧ Inside reads r.stk r.out
    | .colon => AwaitsColon reads r.stk r.out

theorem Holds.move (h : r.Holds reads) (c : Cursor) : (r.move c).Holds reads := h

theorem Holds.value (h : r.Holds reads) (hdone : r.done = false) (hst : r.st = .value) :
    r.HoldsValue reads := by
  simpa [Holds, hdone, hst] using h

/-- The comma in front of a value leads to its place. -/
theorem HoldsValue.slots (h : r.HoldsValue reads) : Slots reads r.stk (r.out ++ r.lead) := by
  unfold HoldsValue at h
  split_ifs at h with hrequired
  · simpa [lead, hrequired] using h.2
  · obtain ⟨hstk, hout⟩ | ⟨⟨f, stk', hstk, hobj⟩, hinside⟩ := h
    · simpa [lead, hstk, hout, hrequired] using Slots.top
    · obtain ⟨obj, hp⟩ := f
      obtain rfl : obj = false := hobj
      rw [hstk] at hinside
      obtain ⟨pre, b, hslots, hb, hout⟩ := hinside
      simp only [lead, hrequired, hstk, comma, Bool.false_eq_true, if_false, hout, List.append_assoc]
      exact .element hslots hb

/-- A finished value. -/
theorem holds_finishValue {pre t : Bytes} (hdone : r.done = false) (hslots : Slots reads r.stk pre)
    (ht : IsValueText reads t) (hout : r.out = pre ++ t) : r.finishValue.Holds reads := by
  unfold finishValue
  split
  · rename_i hstk
    rw [hstk] at hslots
    cases hslots
    simp only [Holds, if_true]
    exact ⟨hstk, Or.inr (by simpa [hout] using ht)⟩
  · rename_i f stk hstk
    rw [hstk] at hslots
    have hinside := hslots.fill ht
    rw [← hout] at hinside
    obtain ⟨obj, hp⟩ := f
    cases obj with
    | true =>
      simp only [Holds, hdone, Bool.false_eq_true, if_false, if_true]
      exact ⟨⟨_, _, rfl, rfl⟩, hinside⟩
    | false =>
      simp only [Holds, HoldsValue, hdone, Bool.false_eq_true, if_false]
      exact Or.inr ⟨⟨_, _, rfl, rfl⟩, hinside⟩

theorem holds_closeTop (hdone : r.done = false) (h : Closable reads r.stk r.out) :
    r.closeTop.Holds reads := by
  obtain ⟨cur, out, stk, st, vr, done⟩ := r
  cases stk with
  | nil => exact h.elim
  | cons f stk =>
    obtain ⟨pre, b, hslots, hb, hout⟩ := h
    refine holds_finishValue hdone hslots hb ?_
    simp only [emit_out, show out = pre ++ b from hout, List.append_assoc]

/-- A value that is missing is written as null. -/
theorem HoldsValue.closable (h : r.HoldsValue reads) (hne : r.stk ≠ []) :
    Closable reads r.emitMissing.stk r.emitMissing.out := by
  unfold HoldsValue at h
  unfold emitMissing
  split_ifs at h ⊢ with hrequired
  · obtain ⟨⟨f, stk', hstk, -⟩, hslots⟩ := h
    rw [hstk] at hslots
    simp only [emit_stk, emit_out, hstk]
    exact hslots.fill_closable (isValueText_null reads)
  · obtain ⟨hstk, -⟩ | ⟨-, hinside⟩ := h
    · exact absurd hstk hne
    · exact hinside.closable

/-- Finishing a value leaves the frame closable. -/
theorem closable_finishValue {r : Repairer} {pre t : Bytes} (hslots : Slots reads r.stk pre)
    (ht : IsValueText reads t) (hout : r.out = pre ++ t) :
    r.stk = [] ∧ IsValueText reads r.out ∨
      Closable reads r.finishValue.stk r.finishValue.out := by
  unfold finishValue
  split
  · rename_i hstk
    rw [hstk] at hslots
    cases hslots
    exact Or.inl ⟨hstk, by simpa [hout] using ht⟩
  · rename_i f stk hstk
    rw [hstk] at hslots
    have hinside := hslots.fill ht
    rw [← hout] at hinside
    exact Or.inr hinside.closable

theorem length_finishValue (r : Repairer) : r.finishValue.stk.length = r.stk.length := by
  unfold finishValue
  split
  · rfl
  · rename_i f stk hstk
    simp [hstk]

/-- Closing all open containers completes the text. -/
theorem closeAll_spec (h : Closable reads r.stk r.out) :
    r.closeAll.stk = [] ∧ IsValueText reads r.closeAll.out := by
  unfold closeAll
  generalize hn : r.stk.length = n
  induction n generalizing r with
  | zero =>
    rw [List.length_eq_zero_iff.mp hn] at h
    exact h.elim
  | succ n ih =>
    obtain ⟨cur, out, stk, st, vr, done⟩ := r
    cases stk with
    | nil => exact h.elim
    | cons f stk =>
      obtain ⟨pre, b, hslots, hb, hout⟩ := h
      rw [Function.iterate_succ_apply]
      simp only [List.length_cons, Nat.add_right_cancel_iff] at hn
      have hstep := @closable_finishValue reads ⟨cur, out ++ [closer f], stk, st, vr, done⟩ pre _
        hslots hb (by simp only [show out = pre ++ b from hout, List.append_assoc])
      obtain ⟨hstk, hvalue⟩ | hclosable := hstep
      · obtain rfl : stk = [] := hstk
        obtain rfl : 0 = n := by simpa using hn
        exact ⟨rfl, hvalue⟩
      · refine ih hclosable ?_
        exact (length_finishValue _).trans hn

/-- One round keeps the invariant. -/
theorem Turn.holds (h : Turn reads refused r r') (hrefused : ¬ refused) (hdone : r.done = false)
    (hr : r.Holds reads) : r'.Holds reads := by
  cases h with
  | refusal hr' => exact absurd hr' hrefused
  | stray hc => exact hr
  | @missing c hst hvr hc =>
    have hvalue := hr.value hdone hst
    simp only [HoldsValue, hvr, if_true] at hvalue
    obtain ⟨hstk, -, hdone', -⟩ := emitMissing_frame r
    have hslots : Slots reads r.emitMissing.stk r.out := by
      rw [hstk]
      exact hvalue.2
    have hout : r.emitMissing.out = r.out ++ Text.ascii "null" := by
      simp [emitMissing, hvr]
    exact (holds_finishValue (hdone'.trans hdone) hslots (isValueText_null reads) hout).move c
  | @opens c obj vr hst hvr hc =>
    have hslots := (hr.value hdone hst).slots
    have hinside : Inside reads (⟨obj, false⟩ :: r.stk) (r.out ++ r.lead ++ [opener obj]) :=
      ⟨_, _, hslots, .fresh obj, rfl⟩
    cases obj with
    | true =>
      simp only [Holds, move_done, emit_done, hdone, Bool.false_eq_true, if_false, if_true,
        move_out, emit_out, ← List.append_assoc]
      exact ⟨⟨_, _, rfl, rfl⟩, hinside⟩
    | false =>
      simp only [Holds, HoldsValue, move_done, emit_done, hdone, Bool.false_eq_true, if_false,
        move_out, emit_out, ← List.append_assoc, hvr rfl]
      exact Or.inr ⟨⟨_, _, rfl, rfl⟩, hinside⟩
  | @scalar c t hst ht hc =>
    refine holds_finishValue hdone (hr.value hdone hst).slots ht ?_
    simp
  | @closes c hst hc =>
    have hvalue := hr.value hdone hst
    obtain ⟨hstk, hst', hdone', -⟩ := emitMissing_frame r
    by_cases hnil : r.stk = []
    · have hsame : r.emitMissing.closeTop = r.emitMissing := by
        simp [closeTop, hstk, hnil]
      have hmissing : r.emitMissing = r := by
        have hrequired : r.valueRequired ≠ true := by
          intro hrequired
          simp only [HoldsValue, hrequired, if_true] at hvalue
          obtain ⟨⟨f, stk', hstk', -⟩, -⟩ := hvalue
          simp [hnil] at hstk'
        simp [emitMissing, hrequired]
      rw [hsame, hmissing]
      exact hr
    · exact (holds_closeTop (hdone'.trans hdone) (hvalue.closable hnil)).move c
  | ends hst =>
    have hvalue := hr.value hdone hst
    simp only [Holds, if_true]
    by_cases hnil : r.stk = []
    · have hout : r.out = [] ∧ r.valueRequired ≠ true := by
        unfold HoldsValue at hvalue
        split_ifs at hvalue with hrequired
        · obtain ⟨⟨f, stk', hstk', -⟩, -⟩ := hvalue
          simp [hnil] at hstk'
        · obtain ⟨-, hout⟩ | ⟨⟨f, stk', hstk', -⟩, -⟩ := hvalue
          · exact ⟨hout, hrequired⟩
          · simp [hnil] at hstk'
      have hsame : r.emitMissing.closeAll = r := by
        simp [emitMissing, hout.2, closeAll, hnil]
      rw [hsame]
      exact ⟨hnil, Or.inl hout.1⟩
    · obtain ⟨hstk, htext⟩ := closeAll_spec (hvalue.closable hnil)
      exact ⟨hstk, Or.inr htext⟩
  | @keyEnds c hst hc =>
    simp only [Holds, hdone, hst, Bool.false_eq_true, if_false] at hr
    exact holds_closeTop hdone hr.2.closable
  | @key c t hst ht hc =>
    simp only [Holds, hdone, hst, Bool.false_eq_true, if_false] at hr
    obtain ⟨⟨f, stk', hstk, hobj⟩, hinside⟩ := hr
    simp only [Holds, move_done, emit_done, hdone, Bool.false_eq_true, if_false, move_stk,
      emit_stk, move_out, emit_out]
    rw [hstk] at hinside ⊢
    obtain ⟨pre, b, hslots, hb, hout⟩ := hinside
    exact ⟨hobj, pre, b, t, hslots, hb, ht, by simp [hout, comma, separator]⟩
  | colonEnds hst =>
    simp only [Holds, hdone, hst, Bool.false_eq_true, if_false] at hr
    refine holds_closeTop hdone ?_
    obtain ⟨f, stk', hstk, -, hslots⟩ := hr.slots
    have hclosable := hslots.fill_closable (isValueText_null reads)
    simp only [emit_stk, emit_out, hstk]
    simpa only [List.append_assoc, List.singleton_append] using hclosable
  | @colon c hst hc =>
    simp only [Holds, hdone, hst, Bool.false_eq_true, if_false] at hr
    obtain ⟨f, stk', hstk, hobj, hslots⟩ := hr.slots
    simp only [Holds, HoldsValue, move_done, emit_done, hdone, Bool.false_eq_true, if_false,
      if_true, move_stk, emit_stk, move_out, emit_out, hstk]
    exact ⟨⟨_, _, rfl, hobj⟩, hslots⟩

end Repairer

/-! ### A refused group is lost -/

theorem scan_separator (f : Frame) : (Lex.outside false).scan (separator f) = .outside false := by
  unfold separator
  split <;> rfl

theorem Body.scan {b : Bytes} (h : Body reads f b) (c : Bool) :
    (Lex.outside c).scan b = .outside false := by
  cases h with
  | fresh obj => cases obj <;> rfl
  | elements hts =>
    change (Lex.outside false).scan _ = _
    exact hts.scan.1
  | members hts =>
    change (Lex.outside false).scan _ = _
    exact hts.scan.1

theorem IsString.scan {key : Bytes} (h : IsString key) (c : Bool) :
    (Lex.outside c).scan key = .outside false := by
  obtain ⟨body, cs, hbody, rfl⟩ := h
  exact hbody.scan_quoted c

/-- Where a value may come, the output ends outside strings. -/
theorem Slots.scan (h : Slots reads stk out) : ∃ c, (Lex.outside false).scan out = .outside c := by
  induction h with
  | top => exact ⟨false, rfl⟩
  | element hout hb ih =>
    obtain ⟨c, hc⟩ := ih
    refine ⟨false, ?_⟩
    rw [Lex.scan_append, hc, Lex.scan_append, Body.scan hb, scan_separator]
  | member hout hb hkey ih =>
    obtain ⟨c, hc⟩ := ih
    refine ⟨true, ?_⟩
    rw [Lex.scan_append, hc, Lex.scan_append, Body.scan hb, Lex.scan_append, scan_separator,
      Lex.scan_append, IsString.scan hkey]
    rfl

/-- In the place of a member's value, the output ends with a colon. -/
theorem Slots.scan_colon (h : Slots reads (f :: stk) out) (hobj : f.obj = true) :
    (Lex.outside false).scan out = .outside true := by
  cases h with
  | element hout hb => cases hobj
  | member hout hb hkey =>
    obtain ⟨c, hc⟩ := hout.scan
    rw [Lex.scan_append, hc, Lex.scan_append, Body.scan hb, Lex.scan_append, scan_separator,
      Lex.scan_append, IsString.scan hkey]
    rfl

namespace Repairer

/-- Nothing was written behind a colon, and the output goes on or is about to. -/
def Lost (r : Repairer) : Prop :=
  (Lex.outside false).scan r.out = .lost ∨
    (Lex.outside false).scan r.out = .outside true ∧ r.done = false ∧ r.st = .key ∧
      ∃ stk', r.stk = ⟨true, true⟩ :: stk'

theorem finishValue_out (r : Repairer) : r.finishValue.out = r.out := by
  unfold finishValue
  split <;> rfl

theorem closeTop_out (r : Repairer) : ∃ t, r.closeTop.out = r.out ++ t := by
  obtain ⟨cur, out, stk, st, vr, done⟩ := r
  cases stk with
  | nil => exact ⟨[], (List.append_nil _).symm⟩
  | cons f stk => exact ⟨_, finishValue_out _⟩

theorem emitMissing_out (r : Repairer) : ∃ t, r.emitMissing.out = r.out ++ t := by
  unfold emitMissing
  split
  · exact ⟨_, rfl⟩
  · exact ⟨[], (List.append_nil _).symm⟩

theorem closeAll_out (r : Repairer) : ∃ t, r.closeAll.out = r.out ++ t := by
  unfold closeAll
  generalize r.stk.length = n
  induction n generalizing r with
  | zero => exact ⟨[], (List.append_nil _).symm⟩
  | succ n ih =>
    obtain ⟨t, ht⟩ := closeTop_out r
    obtain ⟨u, hu⟩ := ih r.closeTop
    exact ⟨t ++ u, by rw [Function.iterate_succ_apply, hu, ht, List.append_assoc]⟩

/-- The output is only added to. -/
theorem Turn.out_append (h : Turn reads refused r r') : ∃ t, r'.out = r.out ++ t := by
  cases h with
  | stray hc => exact ⟨[], (List.append_nil _).symm⟩
  | refusal hrefused hst hvr hc => exact ⟨_, finishValue_out _⟩
  | missing hst hvr hc =>
    obtain ⟨t, ht⟩ := emitMissing_out r
    exact ⟨t, (finishValue_out _).trans ht⟩
  | opens hst hvr hc => exact ⟨_, rfl⟩
  | scalar hst ht hc => exact ⟨_, finishValue_out _⟩
  | closes hst hc =>
    obtain ⟨t, ht⟩ := emitMissing_out r
    obtain ⟨u, hu⟩ := closeTop_out r.emitMissing
    exact ⟨t ++ u, by rw [move_out, hu, ht, List.append_assoc]⟩
  | ends hst =>
    obtain ⟨t, ht⟩ := emitMissing_out r
    obtain ⟨u, hu⟩ := closeAll_out r.emitMissing
    exact ⟨t ++ u, by rw [hu, ht, List.append_assoc]⟩
  | keyEnds hst hc => exact closeTop_out _
  | key hst ht hc => exact ⟨_, rfl⟩
  | colonEnds hst =>
    obtain ⟨u, hu⟩ := closeTop_out (r.emit (0x3A#8 :: Text.ascii "null"))
    exact ⟨_, by rw [hu, emit_out, List.append_assoc]⟩
  | colon hst hc => exact ⟨_, rfl⟩

/-- No round makes up for a lost value. -/
theorem Turn.lost (h : Turn reads refused r r') (hlost : r.Lost) : r'.Lost := by
  obtain hlost | ⟨hscan, hdone, hkey, stk', hstk⟩ := hlost
  · obtain ⟨t, ht⟩ := h.out_append
    exact Or.inl (by rw [ht, Lex.scan_append, hlost, Lex.scan_lost])
  · cases h with
    | stray hc => exact Or.inr ⟨hscan, hdone, hkey, stk', hstk⟩
    | @keyEnds c hst hc =>
      refine Or.inl ?_
      have hout : (r.move c).closeTop.out = r.out ++ [0x7D#8] := by
        simp only [closeTop, move_stk, hstk]
        exact finishValue_out _
      rw [hout, Lex.scan_append, hscan]
      rfl
    | @key c t hst ht hc =>
      refine Or.inl ?_
      have hcomma : comma r.stk = [0x2C#8] := by simp [comma, hstk]
      simp only [move_out, emit_out, hcomma]
      rw [Lex.scan_append, hscan]
      exact Lex.scan_lost t
    | refusal _ hst | missing hst | opens hst | scalar hst | closes hst | ends hst
    | colonEnds hst | colon hst =>
      rw [hkey] at hst
      cases hst

/-- A refused group behind a colon is lost. -/
theorem lost_refusal (hr : r.HoldsValue reads) (hrequired : r.valueRequired = true)
    (hdone : r.done = false) (c : Cursor) : ((r.emit r.lead).move c).finishValue.Lost := by
  simp only [HoldsValue, hrequired, if_true] at hr
  obtain ⟨⟨f, stk', hstk, hobj⟩, hslots⟩ := hr
  obtain ⟨obj, hp⟩ := f
  obtain rfl : obj = true := hobj
  rw [hstk] at hslots
  have hlead : r.lead = [] := by simp [lead, hrequired]
  refine Or.inr ?_
  rw [finishValue_out]
  simp only [move_out, emit_out, hlead, List.append_nil]
  refine ⟨hslots.scan_colon rfl, ?_⟩
  simp only [finishValue, move_stk, emit_stk, hstk]
  exact ⟨hdone, rfl, stk', rfl⟩

/-- The first byte of a thousands group. -/
theorem thousandsAhead_digit (h : r.thousandsAhead.isSome) :
    ∃ c rest, r.cur.rest = c :: rest ∧ isDigit c ∧ bareLength r.cur.prev r.cur.rest ≠ 0 := by
  obtain ⟨d, hd⟩ := Option.isSome_iff_exists.mp h
  unfold thousandsAhead thousands at hd
  split_ifs at hd with hrequired hpure
  obtain ⟨-, hhead, -⟩ := hpure
  cases hrest : r.cur.rest with
  | nil => simp [token, hrest, bareLength] at hhead
  | cons c rest =>
    by_cases hlen : bareLength r.cur.prev (c :: rest) = 0
    · simp [token, hrest, hlen] at hhead
    · obtain ⟨n, hn⟩ := Nat.exists_eq_succ_of_ne_zero hlen
      refine ⟨c, rest, rfl, ?_, hlen⟩
      simpa [token, hrest, hn] using hhead

/-- A round with a refused group writes nothing for it. -/
theorem step_of_refuses {accepts : Bytes → Bool} (h : r.refuses accepts = true) :
    r.done = false ∧ r.st = .value ∧ r.valueRequired = true ∧
      ∃ c c', r.step accepts =
        (((r.move c).emit (r.move c).lead).move c').finishValue := by
  simp only [refuses, Bool.and_eq_true, Bool.not_eq_true', beq_iff_eq] at h
  obtain ⟨⟨hdone, hst⟩, hrefused⟩ := h
  set r' := r.move (skipWs r.cur) with hr'
  cases hthousands : r'.thousandsAhead with
  | none => simp [refusedAhead, hthousands] at hrefused
  | some d =>
    obtain ⟨digits, stop⟩ := d
    have hsome : r'.thousandsAhead.isSome := by rw [hthousands]; rfl
    have hrequired := thousandsAhead_required hsome
    obtain ⟨c, rest, hrest, hdigit, hlen⟩ := thousandsAhead_digit hsome
    refine ⟨hdone, hst, hrequired, skipWs r.cur, stop, ?_⟩
    have hnumber : normalizeNumber accepts digits = none := by
      simpa [refusedAhead, hthousands] using hrefused
    have hbare : bareTerminator c = false ∧ r'.cur.atQuote.isSome = false ∧
        atFwSep r'.cur.rest = false := by
      rw [hrest] at hlen ⊢
      simp only [bareLength] at hlen
      split_ifs at hlen with hstop
      · exact absurd rfl hlen
      · simp only [Bool.or_eq_true, not_or, Bool.not_eq_true] at hstop
        refine ⟨hstop.1.1.1, ?_, hstop.1.2⟩
        rw [Cursor.atQuote, hrest]
        exact hstop.1.1.2
    obtain ⟨hterminator, hquote, hfw⟩ := hbare
    have hbytes : ∀ b : Byte, isDigit b = false → c ≠ b := by
      rintro b hb rfl
      rw [hb] at hdigit
      cases hdigit
    have hbyte : r'.valueByte accepts c = r'.bareStep accepts := by
      simp only [valueByte, hquote, hfw, hbytes 0x7B#8 rfl, hbytes 0x5B#8 rfl,
        hbytes 0x2C#8 rfl, hbytes 0x3A#8 rfl, hbytes 0x3B#8 rfl, hbytes 0x7D#8 rfl,
        hbytes 0x5D#8 rfl, hbytes 0x2F#8 rfl, if_false, or_self, Bool.false_eq_true]
    have hstep : r.step accepts = r'.bareStep accepts := by
      rw [step, if_neg (by simp [hdone])]
      simp only [hst, valueStep, ← hr', hrest]
      exact hbyte
    rw [hstep, bareStep, if_neg hlen]
    simp only [hthousands, hnumber, Option.getD_none, elemComma_eq, emit_emit, List.append_nil]
    rw [hr']

end Repairer

/-! ### Runs -/

theorem holds_start (input : Bytes) : (start input).Holds reads := by
  simp [Repairer.Holds, Repairer.HoldsValue, start]

variable {accepts : Bytes → Bool}

/-- The invariant over the rounds before a refused group. -/
theorem holds_run (reader : StrictReader accepts) {n : Nat}
    (hok : ∀ m < n, ((Repairer.step accepts)^[m] (start input)).refuses accepts = false) :
    ((Repairer.step accepts)^[n] (start input)).Holds reader.reads := by
  induction n with
  | zero => exact holds_start input
  | succ n ih =>
    have hn := ih fun m hm => hok m (by omega)
    rw [Function.iterate_succ_apply']
    set r := (Repairer.step accepts)^[n] (start input) with hr
    by_cases hdone : r.done = true
    · rw [Repairer.step_of_done hdone]
      exact hn
    · have hdone' : r.done = false := by simpa using hdone
      have hrefuses : ¬ r.refuses accepts = true := by
        rw [hok n (by omega)]
        simp
      exact (Repairer.turn_step reader hdone').holds hrefuses hdone' (hn.move _)

theorem lost_run (reader : StrictReader accepts) (h : r.Lost) (n : Nat) :
    ((Repairer.step accepts)^[n] r).Lost := by
  induction n with
  | zero => exact h
  | succ n ih =>
    rw [Function.iterate_succ_apply']
    set r' := (Repairer.step accepts)^[n] r
    by_cases hdone : r'.done = true
    · rw [Repairer.step_of_done hdone]
      exact ih
    · have hdone' : r'.done = false := by simpa using hdone
      exact (Repairer.turn_step reader hdone').lost ih

/-- A run without refused groups writes JSON. -/
theorem isJson_run (reader : StrictReader accepts)
    (hok : ∀ n, ((Repairer.step accepts)^[n] (start input)).refuses accepts = false) :
    IsJson reader.reads (run accepts input) := by
  have hholds := holds_run reader (fun m (_ : m < rounds input) => hok m)
  have hdone := run_done reader input
  simp only [run]
  set r := (Repairer.step accepts)^[rounds input] (start input)
  simp only [Repairer.Holds, hdone, if_true] at hholds
  obtain ⟨-, hout | ⟨v, hv⟩⟩ := hholds
  · rw [if_pos hout]
    exact ⟨_, Denotes.litNull.bare⟩
  · split
    · exact ⟨_, Denotes.litNull.bare⟩
    · exact ⟨v, hv.bare⟩

theorem run_done_add (reader : StrictReader accepts) (input : Bytes) (k : Nat) :
    ((Repairer.step accepts)^[rounds input + k] (start input)).done = true := by
  induction k with
  | zero => exact run_done reader input
  | succ k ih =>
    rw [← Nat.add_assoc, Function.iterate_succ_apply', Repairer.step_of_done ih]
    exact ih

/-- A run with a refused group does not. -/
theorem not_isJson_run (reader : StrictReader accepts)
    (hbad : ∃ n, ((Repairer.step accepts)^[n] (start input)).refuses accepts = true) :
    ¬ IsJson reader.reads (run accepts input) := by
  classical
  obtain ⟨hrefuses, hfirst⟩ := And.intro (Nat.find_spec hbad) fun m => @Nat.find_min _ _ hbad m
  set n := Nat.find hbad
  have hholds := holds_run reader fun m hm => by simpa using hfirst m hm
  set r := (Repairer.step accepts)^[n] (start input) with hr
  obtain ⟨hdone, hst, hrequired, c, c', hstep⟩ := Repairer.step_of_refuses hrefuses
  have hlost : (r.step accepts).Lost := by
    rw [hstep]
    exact Repairer.lost_refusal ((hholds.move c).value hdone hst) hrequired hdone c'
  -- the refused round is one of the rounds of the run
  have hmore : n < rounds input := by
    by_contra hle
    obtain ⟨k, hk⟩ := Nat.exists_eq_add_of_le (not_lt.mp hle)
    have hend := run_done_add reader input k
    rw [← hk, ← hr, hdone] at hend
    cases hend
  obtain ⟨k, hk⟩ := Nat.exists_eq_add_of_le hmore
  have hfinal := lost_run reader hlost k
  have hsplit : (Repairer.step accepts)^[rounds input] (start input) =
      (Repairer.step accepts)^[k] (r.step accepts) := by
    rw [hk, Nat.add_comm, Function.iterate_add_apply, Function.iterate_succ_apply', hr]
  rw [← hsplit] at hfinal
  have hend := run_done reader input
  set final := (Repairer.step accepts)^[rounds input] (start input) with hf
  have hscan : (Lex.outside false).scan final.out = .lost := by
    obtain hscan | ⟨-, hopen, -⟩ := hfinal
    · exact hscan
    · rw [hend] at hopen
      cases hopen
  intro hjson
  have hrun : run accepts input = final.out := by
    simp only [run, ← hf]
    refine if_neg ?_
    intro hnil
    rw [hnil] at hscan
    cases hscan
  rw [hrun] at hjson
  rw [hjson.scan] at hscan
  cases hscan

/-- The reader of all numbers of the grammar. -/
def StrictReader.all (haccepts : ∀ t, accepts t = true → IsNumber t) : StrictReader accepts where
  reads    := fun _ => True
  accepted := by
    intro t ht
    obtain ⟨n, hn⟩ := haccepts t ht
    exact ⟨n, hn, trivial⟩
  integers := fun _ _ _ => trivial

theorem isJson_run_iff (reader : StrictReader accepts) (input : Bytes) :
    IsJson reader.reads (run accepts input) ↔
      ∀ n, ((Repairer.step accepts)^[n] (start input)).refuses accepts = false := by
  constructor
  · intro hjson n
    by_contra hrefuses
    exact not_isJson_run reader ⟨n, by simpa using hrefuses⟩ hjson
  · exact isJson_run reader

/-- The repairer ends, and it writes a JSON text unless it takes, right after a colon, a
thousands group whose digits `normalize_number` refuses; with such a group it never does. The
result of `repair` is empty for a text that is not JSON in that case only. -/
theorem repair_valid_iff (haccepts : ∀ t, accepts t = true → IsNumber t) (input : Bytes) :
    ((Repairer.step accepts)^[rounds input] (start input)).done = true ∧
      (IsJson (fun _ => True) (run accepts input) ↔
        ∀ n, ((Repairer.step accepts)^[n] (start input)).refuses accepts = false) ∧
      ∀ (reader : StrictReader accepts) (isValidJson : Bytes → Bool),
        (∀ t, isValidJson t = true ↔ IsJson reader.reads t) → isValidJson input = false →
          (repair isValidJson accepts input ≠ [] ↔
            ∀ n, ((Repairer.step accepts)^[n] (start input)).refuses accepts = false) := by
  refine ⟨run_done (.all haccepts) input, isJson_run_iff (.all haccepts) input, ?_⟩
  intro reader isValidJson hvalid hinput
  rw [← isJson_run_iff reader input, ← hvalid]
  simp [repair, hinput]

/-- `strtod` on plain decimal integers: finite below the least magnitude that rounds to
infinity. -/
def integerFinite (t : Bytes) : Bool :=
  t.all isDigit && t != [] && (t.head? != some 0x30#8 || t == [0x30#8]) &&
    decide (digitsNat t < 2 ^ 1024 - 2 ^ 970)

theorem integerFinite_isNumber (t : Bytes) (h : integerFinite t = true) : IsNumber t := by
  simp only [integerFinite, Bool.and_eq_true, Bool.or_eq_true, bne_iff_ne, beq_iff_eq] at h
  obtain ⟨⟨⟨hdigits, hne⟩, hlead⟩, -⟩ := h
  refine ⟨⟨false, t, [], none, hdigits, hne, ?_, rfl⟩, ?_⟩
  · intro hzero
    exact hlead.resolve_left (by simp [hzero])
  · simp [Number.text, Number.signText, Number.fracText, Number.expText]

theorem repair_valid_iff_grouped :
    IsJson (fun _ => True) (run integerFinite (Text.ascii "\x7b\"a\": 1,000\x7d")) := by
  refine (repair_valid_iff integerFinite_isNumber _).2.1.mpr ?_
  have hearly : ∀ n < 61, ((Repairer.step integerFinite)^[n]
      (start (Text.ascii "\x7b\"a\": 1,000\x7d"))).refuses integerFinite = false := by
    decide +kernel
  intro n
  rcases Nat.lt_or_ge n 61 with hn | hn
  · exact hearly n hn
  · obtain ⟨k, rfl⟩ := Nat.exists_eq_add_of_le hn
    have hdone := run_done_add (.all integerFinite_isNumber) (Text.ascii "\x7b\"a\": 1,000\x7d") k
    rw [show rounds (Text.ascii "\x7b\"a\": 1,000\x7d") = 61 by decide] at hdone
    simp [Repairer.refuses, hdone]

/-- A member whose value is a thousands-separated integer of 310 digits. -/
def groupedInput : Bytes :=
  Text.ascii "\x7b\"a\":1" ++ ((List.replicate 103 (Text.ascii ",000")).flatten ++ Text.ascii "\x7d")

theorem grouped_not_json : (∀ t, integerFinite t = true → IsNumber t) ∧
    ¬ IsJson (fun _ => True) (run integerFinite groupedInput) := by
  refine ⟨integerFinite_isNumber, ?_⟩
  refine not_isJson_run (.all integerFinite_isNumber) ⟨3, ?_⟩
  decide +kernel

end KimixNative.Core
