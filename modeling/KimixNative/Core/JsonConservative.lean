import KimixNative.Core.ColonRuns
import KimixNative.Core.JsonExact

/-!
# The repairer on a JSON text

The machine reads a phrase of the grammar by as many rounds as it has tokens and separators,
and writes a phrase with the same value: blanks are left out, exponents are written in short.
The statements are about a phrase and what follows it in the input.
-/

namespace KimixNative.Core

open Json

/-! ### Runs of the machine -/

section
variable (accepts : Bytes → Bool)

/-- The machine gets from one state to another. -/
def Reaches (r r' : Repairer) : Prop := ∃ n, (Repairer.step accepts)^[n] r = r'

end

variable {accepts : Bytes → Bool}

theorem Reaches.refl (r : Repairer) : Reaches accepts r r := ⟨0, rfl⟩

variable {r : Repairer} {t : Bytes}

variable {r' : Repairer}

theorem Reaches.trans {r'' : Repairer} (h : Reaches accepts r r') (h' : Reaches accepts r' r'') :
    Reaches accepts r r'' := by
  obtain ⟨n, rfl⟩ := h
  obtain ⟨m, rfl⟩ := h'
  exact ⟨m + n, Function.iterate_add_apply _ m n r⟩

theorem reaches_step (h : r.step accepts = r') : Reaches accepts r r' := ⟨1, h⟩

variable {c : Cursor} {v : Value}

namespace Repairer

/-- The input goes on with `rest` behind blanks. -/
def Behind (rest : Bytes) (r : Repairer) : Prop := ∃ ws : Bytes, ws.all isBlank ∧ r.cur.rest = ws ++ rest

variable {rest : Bytes} {b : Byte}

theorem behind_of_eq (h : r.cur.rest = rest) : r.Behind rest :=
  ⟨[], rfl, h⟩

theorem Behind.blank {ws rest : Bytes} {r : Repairer} (h : r.Behind (ws ++ rest))
    (hws : ws.all isBlank) : r.Behind rest := by
  obtain ⟨ws', hws', hrest⟩ := h
  exact ⟨ws' ++ ws, by simp [hws', hws], by rw [hrest, List.append_assoc]⟩

theorem Behind.skip (h : r.Behind rest) (hsolid : Solid rest) : (skipWs r.cur).rest = rest := by
  obtain ⟨ws, hws, hrest⟩ := h
  exact (skipWs_blank hws hrest hsolid).1

/-- `r'` is `r` after a value written as `t`. -/
def Finished (r : Repairer) (t : Bytes) (r' : Repairer) : Prop :=
  r'.out = r.out ++ t ∧
    match r.stk with
    | [] => r'.done = true
    | f :: stk =>
      r'.done = false ∧ r'.stk = { f with hasPrev := true } :: stk ∧
        r'.st = (if f.obj then .key else .value) ∧ r'.valueRequired = false

theorem finished_finishValue (hstk : r'.stk = r.stk) (hdone : r'.done = false)
    (hout : r'.out = r.out ++ t) : Finished r t r'.finishValue := by
  refine ⟨(finishValue_out r').trans hout, ?_⟩
  unfold finishValue
  cases hcase : r.stk with
  | nil => simp [hstk, hcase]
  | cons f stk => simp [hstk, hcase, hdone]

theorem finishValue_cur (r : Repairer) : r.finishValue.cur = r.cur := by
  unfold finishValue
  split <;> rfl

/-- Closing the container that was opened in the place of a value. -/
theorem finished_closeTop {r r' : Repairer} {f : Frame} {t : Bytes} (hstk : r'.stk = f :: r.stk)
    (hdone : r'.done = false) (hout : r'.out = r.out ++ t) :
    Finished r (t ++ [closer f]) r'.closeTop ∧ r'.closeTop.cur = r'.cur := by
  have hclose : r'.closeTop = ({ r'.emit [closer f] with stk := r.stk } : Repairer).finishValue := by
    simp [closeTop, hstk]
  rw [hclose]
  refine ⟨finished_finishValue rfl hdone ?_, finishValue_cur _⟩
  simp [hout]

/-- The machine reads a value, up to `rest`, and writes `t` for it. -/
def ReadsAs (accepts : Bytes → Bool) (r : Repairer) (t rest : Bytes) : Prop :=
  ∃ r', Reaches accepts r r' ∧ Finished r (r.lead ++ t) r' ∧ r'.Behind rest

/-- A value that takes one round. -/
theorem readsAs_round (c c' : Cursor) (hdone : r.done = false)
    (hstep : r.step accepts = (((r.move c).emit ((r.move c).lead ++ t)).move c').finishValue)
    (hrest : c'.rest = rest) : ReadsAs accepts r t rest := by
  refine ⟨_, reaches_step hstep, finished_finishValue rfl hdone rfl, behind_of_eq ?_⟩
  rw [finishValue_cur]
  exact hrest

/-! ### Bare tokens -/

theorem atFwSep_ascii (hb : b.toNat < 0x80) (rest : Bytes) : atFwSep (b :: rest) = false := by
  have hlead : b ≠ 0xEF#8 := by
    rintro rfl
    simp at hb
  simp [atFwSep, atFwPunct, hlead]

/-- A byte of a bare token that is not part of any wider sequence. -/
def isBare (b : Byte) : Bool :=
  decide (b.toNat < 0x80) && !bareTerminator b && b != 0x22#8 && b != 0x27#8 && b != 0x60#8

theorem atQuote_bare (hb : isBare b) (prev : Option Byte) (rest : Bytes) :
    Core.atQuote prev (b :: rest) = none := by
  simp only [isBare, Bool.and_eq_true, decide_eq_true_eq, bne_iff_ne] at hb
  obtain ⟨⟨⟨⟨hascii, -⟩, hdouble⟩, hsingle⟩, htick⟩ := hb
  have hlead : b ≠ 0xE2#8 := by
    rintro rfl
    simp at hascii
  simp [Core.atQuote, hdouble, hsingle, htick, hlead]

theorem isBare_ascii (hb : isBare b) : b.toNat < 0x80 ∧ bareTerminator b = false := by
  simp only [isBare, Bool.and_eq_true, decide_eq_true_eq, Bool.not_eq_true'] at hb
  exact hb.1.1.1

/-- What may follow a value: the end or a terminator, and behind a member's value no digit
after a comma. -/
structure Follows (required : Bool) (rest : Bytes) : Prop where
  ends : ∀ b, rest.head? = some b → bareTerminator b = true
  comma : required = true → ∀ u, rest = 0x2C#8 :: u → u.head?.any isDigit = false

theorem bareTerminator_ascii (h : bareTerminator b = true) : b.toNat < 0x80 := by
  revert h
  revert b
  decide

variable {tok : Bytes}

theorem bareLength_token (htok : tok.all isBare) {required : Bool}
    (hfollows : Follows required rest) (prev : Option Byte) :
    bareLength prev (tok ++ rest) = tok.length := by
  induction tok generalizing prev with
  | nil =>
    cases rest with
    | nil => rfl
    | cons b rest => simp [bareLength, hfollows.ends b rfl]
  | cons b tok ih =>
    simp only [List.all_cons, Bool.and_eq_true] at htok
    obtain ⟨hascii, hterminator⟩ := isBare_ascii htok.1
    simp [bareLength, hterminator, atQuote_bare htok.1, atFwSep_ascii hascii,
      atUws_ascii hascii, ih htok.2]

theorem solid_bare (htok : tok.all isBare) (hne : tok ≠ []) : Solid (tok ++ rest) := by
  intro b hb
  cases tok with
  | nil => exact absurd rfl hne
  | cons b' tok =>
    obtain rfl := Option.some.inj hb
    simp only [List.all_cons, Bool.and_eq_true] at htok
    obtain ⟨hascii, hterminator⟩ := isBare_ascii htok.1
    simp only [bareTerminator, Bool.or_eq_false_iff, beq_eq_false_iff_ne] at hterminator
    simp [isSolid, hascii, hterminator]

/-- A digit group cannot be joined to what follows a value. -/
theorem groupLoop_follows (hfollows : Follows true c.rest) (tok : Bytes) :
    (groupLoop tok c).2 = c := by
  by_cases hhead : c.rest.head? = some 0x2C#8
  · obtain ⟨u, hu⟩ := List.head?_eq_some_iff.mp hhead
    have hdigit := hfollows.comma rfl u hu
    have hgroup : ((u.take 3).takeWhile isDigit) = [] := by
      cases u with
      | nil => rfl
      | cons d u =>
        have hd : isDigit d = false := by simpa using hdigit
        simp [hd]
    rw [groupLoop]
    simp [hu, hgroup]
  · have hnone : atUws c.rest = 0 := by
      cases hrest : c.rest with
      | nil => simp [atUws]
      | cons b rest =>
        exact atUws_ascii (bareTerminator_ascii (hfollows.ends b (by rw [hrest]; rfl))) rest
    rw [groupLoop]
    simp [hhead, hnone]

/-- One round on a bare token. -/
theorem step_bare (hst : r.st = .value) (hdone : r.done = false) (hbehind : r.Behind (tok ++ rest))
    (htok : tok.all isBare) (hne : tok ≠ []) (hfollows : Follows r.valueRequired rest)
    (hwords : looksNumeric tok = true ∨ ieq tok "true" = true ∨ ieq tok "false" = true ∨ isNullWord
      tok = true) (ht : emitBareValue accepts tok = t) : ReadsAs accepts r t rest := by
  have hskip := hbehind.skip (solid_bare htok hne)
  set c := skipWs r.cur with hc
  have hlen := bareLength_token htok hfollows c.prev
  have htoken : (r.move c).token = tok := by
    simp [token, hskip, hlen]
  have hleft : (r.move c).behindToken.rest = rest := by
    simp [behindToken, hskip, hlen]
  have hthousands : (r.move c).thousandsAhead = none := by
    unfold thousandsAhead
    split_ifs with hrequired
    · have hgroup : (groupLoop tok (r.move c).behindToken).2 = (r.move c).behindToken := by
        refine groupLoop_follows ?_ tok
        rw [hleft]
        rwa [show r.valueRequired = true from hrequired] at hfollows
      rw [htoken]
      simp [thousands, hgroup]
    · rfl
  have hnowords : (r.move c).wordsAhead = none := by
    unfold wordsAhead
    split_ifs
    · rw [htoken, words, if_neg]
      rintro ⟨-, h1, h2, h3, h4, -⟩
      simp [h1, h2, h3, h4] at hwords
    · rfl
  obtain ⟨b, tok', rfl⟩ := List.exists_cons_of_ne_nil hne
  have hbare : isBare b := by
    simp only [List.all_cons, Bool.and_eq_true] at htok
    exact htok.1
  obtain ⟨hascii, hterminator⟩ := isBare_ascii hbare
  simp only [bareTerminator, Bool.or_eq_false_iff, beq_eq_false_iff_ne] at hterminator
  obtain ⟨⟨⟨⟨⟨⟨⟨⟨-, h1⟩, h2⟩, h3⟩, h4⟩, h5⟩, h6⟩, h7⟩, h8⟩ := hterminator
  have hquote : c.atQuote = none := by
    rw [Cursor.atQuote, hskip, List.cons_append]
    exact atQuote_bare hbare _ _
  have hfw : atFwSep c.rest = false := by
    rw [hskip, List.cons_append]
    exact atFwSep_ascii hascii _
  have hbyte : (r.move c).valueByte accepts b = (r.move c).bareStep accepts := by
    simp [valueByte, h1, h2, h3, h4, h5, h6, h7, h8, hquote, hfw]
  have hstep : r.step accepts = (r.move c).bareStep accepts := by
    rw [step, if_neg (by simp [hdone])]
    simp only [hst, valueStep, ← hc, move_cur, hskip, List.cons_append]
    exact hbyte
  have hlen' : bareLength (r.move c).cur.prev (r.move c).cur.rest ≠ 0 := by
    rw [move_cur, hskip, hlen]
    simp
  refine readsAs_round c (r.move c).behindToken hdone ?_ hleft
  rw [hstep, bareStep, if_neg hlen']
  simp only [hthousands, hnowords, elemComma_eq, emit_emit, htoken, ht]

/-! ### Scalars -/

theorem numeric_isBare (h : Lex.isNumeric b) : isBare b := by
  revert h
  revert b
  decide

theorem number_head (n : Number) :
    ∃ b t, n.text = b :: t ∧ b.toNat < 0x41 ∧ (isDigit b = true ∨
      b = 0x2D#8 ∧ ∃ d u, t = d :: u ∧ isDigit d) := by
  obtain ⟨d, t, hint, hd⟩ := int_head n
  have hsmall : ∀ b : Byte, isDigit b → b.toNat < 0x41 := by
    intro b hb
    simp only [isDigit, Bool.and_eq_true, decide_eq_true_eq] at hb
    omega
  cases hneg : n.neg with
  | true =>
    refine ⟨0x2D#8, n.int ++ (n.fracText ++ n.expText), ?_, by decide,
      Or.inr ⟨rfl, d, t ++ (n.fracText ++ n.expText), ?_, hd⟩⟩
    · simp [Number.text, Number.signText, hneg]
    · rw [hint, List.cons_append]
  | false =>
    refine ⟨d, t ++ (n.fracText ++ n.expText), ?_, hsmall d hd, Or.inl hd⟩
    simp [Number.text, Number.signText, hneg, hint]

/-- A token that does not begin with a letter is none of the words. -/
theorem ieq_of_head {b : Byte} (hb : b.toNat < 0x41) (t : Bytes) {w : Byte} {ws : Bytes}
    (hw : 0x61 ≤ w.toNat) {word : String} (hword : Text.ascii word = w :: ws) :
    ieq (b :: t) word = false := by
  have hlower : lower b = b := if_neg (by omega)
  have hne : b ≠ w := by
    rintro rfl
    omega
  simp [ieq, hword, hlower, hne]

theorem emitBareValue_number {n : Number} (h : accepts (normalized n).text = true) :
    emitBareValue accepts n.text = (normalized n).text := by
  obtain ⟨b, t, htext, hb, hkind⟩ := number_head n
  have hnumber := normalizeNumber_exact accepts n
  rw [if_pos h] at hnumber
  have hwords : ∀ u : Bytes, isInfinity (b :: u) = false := by
    intro u
    simp [isInfinity, @ieq_of_head b hb u 0x69#8 _ (by decide) "infinity" rfl,
      @ieq_of_head b hb u 0x69#8 _ (by decide) "inf" rfl]
  have hinfinity : isSignedInfinity n.text = false := by
    rw [isSignedInfinity, htext]
    split
    · obtain hdigit | ⟨rfl, d, u, rfl, hd⟩ := hkind
      · rename_i hsign
        simp only [List.head?_cons, Option.some.injEq] at hsign
        obtain rfl | rfl := hsign <;> cases hdigit
      · have hsmall : d.toNat < 0x41 := by
          simp only [isDigit, Bool.and_eq_true, decide_eq_true_eq] at hd
          omega
        simp [isInfinity, @ieq_of_head d hsmall u 0x69#8 _ (by decide) "infinity" rfl,
          @ieq_of_head d hsmall u 0x69#8 _ (by decide) "inf" rfl]
    · exact hwords t
  have hnumeric : looksNumeric n.text = true := by
    rw [htext]
    obtain hdigit | ⟨rfl, -⟩ := hkind
    · simp [looksNumeric, hdigit]
    · rfl
  have hnull : isNullWord n.text = false := by
    rw [htext]
    simp [isNullWord, @ieq_of_head b hb t 0x6E#8 _ (by decide) "null" rfl,
      @ieq_of_head b hb t 0x6E#8 _ (by decide) "none" rfl,
      @ieq_of_head b hb t 0x6E#8 _ (by decide) "nan" rfl,
      @ieq_of_head b hb t 0x75#8 _ (by decide) "undefined" rfl]
  have htrue : ieq n.text "true" = false := by
    rw [htext]
    exact @ieq_of_head b hb t 0x74#8 _ (by decide) "true" rfl
  have hfalse : ieq n.text "false" = false := by
    rw [htext]
    exact @ieq_of_head b hb t 0x66#8 _ (by decide) "false" rfl
  simp [emitBareValue, htrue, hfalse, hnull, hinfinity, hnumeric, hnumber]

/-- A number is read in one round. -/
theorem readsAs_number {n : Number} (hst : r.st = .value) (hdone : r.done = false)
    (hbehind : r.Behind (n.text ++ rest)) (hfollows : Follows r.valueRequired rest)
    (h : accepts (normalized n).text = true) : ReadsAs accepts r (normalized n).text rest := by
  obtain ⟨b, t, htext, hb, hkind⟩ := number_head n
  have htok : n.text.all isBare := by
    have hnumeric := n.text_numeric
    rw [List.all_eq_true] at hnumeric ⊢
    intro b hb
    exact numeric_isBare (hnumeric b hb)
  refine step_bare hst hdone hbehind htok n.text_ne hfollows (Or.inl ?_) (emitBareValue_number h)
  rw [htext]
  obtain hdigit | ⟨rfl, -⟩ := hkind
  · simp [looksNumeric, hdigit]
  · rfl

/-- A string is read in one round. -/
theorem readsAs_string {body : Bytes} {cs : List Nat} (hst : r.st = .value) (hdone : r.done = false)
    (hbehind : r.Behind (quoted body ++ rest)) (hbody : StringBody body cs) (hcurly : NoCurly body) :
    ReadsAs accepts r (quoted body) rest := by
  have hskip := hbehind.skip (by
    intro b hb
    obtain rfl := Option.some.inj hb
    rfl)
  set c := skipWs r.cur with hc
  obtain ⟨htext, hleft⟩ := scanQuoted_exact hbody hcurly hskip
  have hrest : c.rest = 0x22#8 :: (body ++ [0x22#8] ++ rest) := hskip
  have hquote : c.atQuote.isSome = true := by simp [Cursor.atQuote, hrest, Core.atQuote]
  have hbyte : (r.move c).valueByte accepts 0x22#8 =
      (((r.move c).elemComma.emit (scanQuoted c).1).move (scanQuoted c).2).finishValue := by
    simp [valueByte, hquote]
  have hstep : r.step accepts = (r.move c).valueByte accepts 0x22#8 := by
    rw [step, if_neg (by simp [hdone])]
    simp only [hst, valueStep, ← hc, move_cur, hrest]
  refine readsAs_round c (scanQuoted c).2 hdone ?_ hleft
  rw [hstep, hbyte, elemComma_eq, emit_emit, htext]

/-! ### Containers -/

/-- The machine is inside a container, behind a member or an element or at its start. -/
structure In (obj hasPrev : Bool) (stk : List Frame) (out : Bytes) (r : Repairer) : Prop where
  stk : r.stk = ⟨obj, hasPrev⟩ :: stk
  out : r.out = out
  done : r.done = false
  st : r.st = if obj then .key else .value
  required : obj = false → r.valueRequired = false

variable {hp : Bool}

theorem Finished.inside {obj : Bool} {stk : List Frame} (h : Finished r t r')
    (hstk : r.stk = ⟨obj, hp⟩ :: stk) : In obj true stk (r.out ++ t) r' := by
  obtain ⟨hout, h⟩ := h
  rw [hstk] at h
  exact ⟨h.2.1, hout, h.1, h.2.2.1, fun _ => h.2.2.2⟩

/-- One round in the value state, at a solid byte. -/
theorem step_value {r : Repairer} {b : Byte} {rest : Bytes} (hst : r.st = .value)
    (hdone : r.done = false) (hbehind : r.Behind (b :: rest)) (hb : isSolid b) :
    r.step accepts = (r.move (skipWs r.cur)).valueByte accepts b ∧
      (skipWs r.cur).rest = b :: rest := by
  have hskip := hbehind.skip (solid_cons hb rest)
  refine ⟨?_, hskip⟩
  rw [step, if_neg (by simp [hdone])]
  simp only [hst, valueStep, move_cur, hskip]

theorem step_key {r : Repairer} {b : Byte} {rest : Bytes} (hst : r.st = .key)
    (hdone : r.done = false) (hbehind : r.Behind (b :: rest)) (hb : isSolid b) :
    r.step accepts = r.keyStep ∧ (skipWs r.cur).rest = b :: rest := by
  refine ⟨?_, hbehind.skip (solid_cons hb rest)⟩
  rw [step, if_neg (by simp [hdone])]
  simp only [hst]

/-- The brackets of a container. -/
def opening (obj : Bool) : Byte := if obj then 0x7B#8 else 0x5B#8

def closing (obj : Bool) : Byte := if obj then 0x7D#8 else 0x5D#8

theorem reaches_open (obj : Bool) {r : Repairer} {rest : Bytes} (hst : r.st = .value)
    (hdone : r.done = false) (hbehind : r.Behind (opening obj :: rest)) :
    ∃ r', Reaches accepts r r' ∧ In obj false r.stk (r.out ++ (r.lead ++ [opening obj])) r' ∧
      r'.cur.rest = rest := by
  have hsolid : isSolid (opening obj) := by cases obj <;> rfl
  obtain ⟨hstep, hskip⟩ := @step_value accepts _ _ _ hst hdone hbehind hsolid
  refine ⟨_, reaches_step hstep, ?_⟩
  have hbyte : (r.move (skipWs r.cur)).valueByte accepts (opening obj) =
      if obj then ((r.move (skipWs r.cur)).emit r.lead).openObject
      else ((r.move (skipWs r.cur)).emit r.lead).openArray := by
    cases obj <;> simp [valueByte, opening, elemComma_eq] <;> rfl
  rw [hbyte]
  cases obj with
  | false =>
    refine ⟨⟨rfl, ?_, hdone, rfl, fun _ => rfl⟩, ?_⟩
    · simp [openArray, opening]
    · simp [openArray, hskip]
  | true =>
    refine ⟨⟨rfl, ?_, hdone, rfl, by simp⟩, ?_⟩
    · simp [openObject, opening]
    · simp [openObject, hskip]

/-- The end of an array that was opened in the place of a value. -/
theorem reaches_closeArray (hin : In false hp r.stk (r.out ++ t) r')
    (hbehind : r'.Behind (0x5D#8 :: rest)) :
    ∃ r'', Reaches accepts r' r'' ∧ Finished r (t ++ [0x5D#8]) r'' ∧ r''.Behind rest := by
  obtain ⟨hstep, hskip⟩ := @step_value accepts _ _ _ hin.st hin.done hbehind rfl
  refine ⟨_, reaches_step hstep, ?_⟩
  have hmissing : (r'.move (skipWs r'.cur)).emitMissing = r'.move (skipWs r'.cur) := by
    simp [emitMissing, hin.required rfl]
  have hbyte : (r'.move (skipWs r'.cur)).valueByte accepts 0x5D#8 =
      (r'.move (skipWs r'.cur)).closeTop.move ((skipWs r'.cur).skip 1) := by
    simp [valueByte, hmissing, Cursor.atQuote, hskip, Core.atQuote, atFwSep_ascii]
  rw [hbyte]
  obtain ⟨hfinished, -⟩ := @finished_closeTop r (r'.move (skipWs r'.cur)) _ t hin.stk hin.done hin.out
  refine ⟨hfinished, behind_of_eq ?_⟩
  simp [hskip]

/-- The end of an object that was opened in the place of a value. -/
theorem reaches_closeObject (hin : In true hp r.stk (r.out ++ t) r')
    (hbehind : r'.Behind (0x7D#8 :: rest)) :
    ∃ r'', Reaches accepts r' r'' ∧ Finished r (t ++ [0x7D#8]) r'' ∧ r''.Behind rest := by
  obtain ⟨hstep, hskip⟩ := @step_key accepts _ _ _ hin.st hin.done hbehind rfl
  refine ⟨_, reaches_step hstep, ?_⟩
  have hkey : r'.keyStep = (r'.move ((skipWs r'.cur).skip 1)).closeTop := by
    simp only [keyStep, move_cur, hskip]
    rfl
  rw [hkey]
  obtain ⟨hfinished, hcur⟩ :=
    @finished_closeTop r (r'.move ((skipWs r'.cur).skip 1)) _ t hin.stk hin.done hin.out
  refine ⟨hfinished, behind_of_eq ?_⟩
  rw [hcur]
  simp [hskip]

theorem reaches_close (obj : Bool) {r r' : Repairer} {hp : Bool} {t rest : Bytes}
    (hin : In obj hp r.stk (r.out ++ t) r') (hbehind : r'.Behind (closing obj :: rest)) :
    ∃ r'', Reaches accepts r' r'' ∧ Finished r (t ++ [closing obj]) r'' ∧ r''.Behind rest := by
  cases obj with
  | false => exact reaches_closeArray hin hbehind
  | true => exact reaches_closeObject hin hbehind

/-- The comma between two elements or two members. -/
theorem reaches_comma (obj : Bool) {r : Repairer} {hp : Bool} {stk : List Frame} {out rest : Bytes}
    (hin : In obj hp stk out r) (hbehind : r.Behind (0x2C#8 :: rest)) :
    ∃ r', Reaches accepts r r' ∧ In obj hp stk out r' ∧ r'.cur.rest = rest := by
  have hstep : r.step accepts = r.move ((skipWs r.cur).skip 1) ∧
      (skipWs r.cur).rest = 0x2C#8 :: rest := by
    cases obj with
    | false =>
      obtain ⟨hstep, hskip⟩ := @step_value accepts _ _ _ hin.st hin.done hbehind rfl
      have hstray : (r.move (skipWs r.cur)).straySeparator = r.move ((skipWs r.cur).skip 1) := by
        simp only [straySeparator, move_valueRequired, hin.required rfl, move_cur, hskip,
          atFwSep_ascii (show (0x2C#8 : Byte).toNat < 0x80 by decide)]
        rfl
      rw [hstep]
      exact ⟨by simp [valueByte, hstray, Cursor.atQuote, hskip, Core.atQuote], hskip⟩
    | true =>
      obtain ⟨hstep, hskip⟩ := @step_key accepts _ _ _ hin.st hin.done hbehind rfl
      rw [hstep]
      refine ⟨?_, hskip⟩
      simp only [keyStep, move_cur, hskip]
      rfl
  refine ⟨_, reaches_step hstep.1, ⟨hin.stk, hin.out, hin.done, hin.st, hin.required⟩, ?_⟩
  simp [hstep.2]

/-! ### Keys -/

/-- A key and its colons. -/
theorem reaches_key (run : ColonRun) (htight : run.Tight) {r : Repairer} {hp : Bool}
    {stk : List Frame} {out body t : Bytes} {cs : List Nat} (hin : In true hp stk out r)
    (hbehind : r.Behind (quoted body ++ (run.text ++ t))) (hbody : StringBody body cs)
    (hcurly : NoCurly body) (ht : ValueHead t) :
    ∃ r', Reaches accepts r r' ∧ r'.st = .value ∧ r'.done = false ∧ r'.valueRequired = true ∧
      r'.stk = ⟨true, hp⟩ :: stk ∧
      r'.out = out ++ (separator ⟨true, hp⟩ ++ (quoted body ++ [0x3A#8])) ∧ r'.cur.rest = t := by
  obtain ⟨hstep, hskip⟩ := @step_key accepts _ _ _ hin.st hin.done hbehind rfl
  set c := skipWs r.cur with hc
  obtain ⟨htext, hleft⟩ := scanQuoted_exact hbody hcurly hskip
  have hquote : c.atQuote.isSome = true := by simp [Cursor.atQuote, hskip, Core.atQuote]
  have hcomma : comma r.stk = separator ⟨true, hp⟩ := by
    rw [hin.stk]
    rfl
  set r1 : Repairer :=
    { (r.emit (separator ⟨true, hp⟩ ++ quoted body)).move (scanQuoted c).2 with st := .colon }
      with hr1
  have hkey : r.keyStep = r1 := by
    simp only [keyStep, ← hc, move_cur, hskip]
    rw [if_neg (by decide), if_neg (by decide), if_neg (by simp [atFwSep_ascii])]
    simp only [hquote, if_true, maybeComma_eq, emit_emit, htext, move_stk, hcomma]
    rfl
  have hstep1 : r1.step accepts = r1.colonStep := by
    rw [step, if_neg (by simp [hr1, hin.done])]
  refine ⟨r1.colonStep, (reaches_step (hstep.trans hkey)).trans (reaches_step hstep1), ?_⟩
  obtain ⟨hnonempty, hvalue⟩ := skipColon_run run htight hleft ht
  rw [colonStep]
  dsimp only
  rw [if_neg (show (r1.move (skipWs r1.cur)).cur.rest ≠ [] from hnonempty)]
  refine ⟨rfl, hin.done, rfl, hin.stk, ?_, hvalue⟩
  simp [hr1, hin.out]

/-! ### Phrases -/

/-- The numbers that the double-range reader accepts. -/
def Accepted (accepts : Bytes → Bool) (n : Number) : Prop := accepts n.text = true

theorem Follows.blank {required : Bool} {rest : Bytes} (h : Follows required rest) {ws : Bytes}
    (hws : ws.all isBlank) : Follows required (ws ++ rest) := by
  cases ws with
  | nil => exact h
  | cons w ws =>
    simp only [List.all_cons, Bool.and_eq_true] at hws
    constructor
    · intro b hb
      obtain rfl := Option.some.inj hb
      simp [bareTerminator, hws.1]
    · rintro - u hu
      obtain rfl := (List.cons.inj hu).1
      cases hws.1

/-- A value is read and written back with the same value. -/
structure ValueReads (accepts : Bytes → Bool) (v : Value) (t : Bytes) : Prop where
  head : ValueHead t
  reads : ∃ t', Denotes (Accepted accepts) t' (.value v) ∧
    ∀ r rest, r.st = .value → r.done = false → Behind (t ++ rest) r → Follows r.valueRequired rest →
      ReadsAs accepts r t' rest

/-- Inside a container, the machine reads on over `t` and writes `t'` for it. -/
def ReadsOn (accepts : Bytes → Bool) (obj hp : Bool) (t t' : Bytes) : Prop :=
  ∀ r stk out rest, In obj hp stk out r → r.Behind (t ++ rest) → Follows obj rest →
    ∃ r', Reaches accepts r r' ∧ In obj true stk (out ++ t') r' ∧ r'.Behind rest

/-- What is claimed of the phrases of the grammar. -/
def PhraseReads (accepts : Bytes → Bool) (t : Bytes) : Phrase → Prop
  | .value v => ValueReads accepts v t
  | .text v =>
    ∃ before t' after : Bytes, t = before ++ (t' ++ after) ∧ before.all isBlank ∧
      after.all isBlank ∧ ValueReads accepts v t'
  | .member key v =>
    (∃ ws u : Bytes, ws.all isBlank ∧ t = ws ++ 0x22#8 :: u) ∧
      ∃ t', Denotes (Accepted accepts) t' (.member key v) ∧
        ∀ hp, ReadsOn accepts true hp t (separator ⟨true, hp⟩ ++ t')
  | .elements vs =>
    ∃ t', Denotes (Accepted accepts) t' (.elements vs) ∧ ReadsOn accepts false false t t'
  | .members ms =>
    ∃ t', Denotes (Accepted accepts) t' (.members ms) ∧ ReadsOn accepts true false t t'

theorem follows_cons (hb : bareTerminator b = true) (hcomma : b ≠ 0x2C#8) (required : Bool)
    (rest : Bytes) : Follows required (b :: rest) := by
  constructor
  · intro b' hb'
    obtain rfl := Option.some.inj hb'
    exact hb
  · rintro - u hu
    exact absurd (List.cons.inj hu).1 hcomma

theorem follows_comma_array (rest : Bytes) : Follows false (0x2C#8 :: rest) := by
  constructor
  · intro b' hb'
    obtain rfl := Option.some.inj hb'
    rfl
  · intro h
    cases h

theorem follows_comma_object {ws u : Bytes} (hws : ws.all isBlank) (rest : Bytes) :
    Follows true (0x2C#8 :: (ws ++ 0x22#8 :: u ++ rest)) := by
  constructor
  · intro b' hb'
    obtain rfl := Option.some.inj hb'
    rfl
  · rintro - u' hu'
    obtain ⟨-, rfl⟩ := List.cons.inj hu'
    cases ws with
    | nil => rfl
    | cons w ws =>
      simp only [List.all_cons, Bool.and_eq_true, isBlank, Bool.or_eq_true, beq_iff_eq] at hws
      obtain ⟨((rfl | rfl) | rfl) | rfl, -⟩ := hws <;> rfl

/-- An element of an array. -/
theorem reads_element (h : PhraseReads accepts t (.text v)) :
    ∃ t', Denotes (Accepted accepts) t' (.value v) ∧
      ∀ hp, ReadsOn accepts false hp t (separator ⟨false, hp⟩ ++ t') := by
  obtain ⟨before, t', after, rfl, hbefore, hafter, -, t'', ht'', hreads⟩ := h
  refine ⟨t'', ht'', ?_⟩
  intro hp r stk out rest hin hbehind hfollows
  simp only [List.append_assoc] at hbehind
  obtain ⟨r', hreaches, hfinished, hleft⟩ := hreads r (after ++ rest) hin.st hin.done
    (hbehind.blank hbefore) (by rw [hin.required rfl]; exact hfollows.blank hafter)
  refine ⟨r', hreaches, ?_, hleft.blank hafter⟩
  have hlead : r.lead = separator ⟨false, hp⟩ := by
    simp [lead, hin.required rfl, hin.stk, comma, separator]
  rw [hlead] at hfinished
  rw [← hin.out]
  exact hfinished.inside hin.stk

/-- What stands in a container, and one more behind a comma. -/
theorem ReadsOn.more {obj : Bool} {ts u u' : Bytes} (hs : ReadsOn accepts obj false ts u)
    (h : ReadsOn accepts obj true t u') (hcomma : ∀ rest, Follows obj (0x2C#8 :: (t ++ rest))) :
    ReadsOn accepts obj false (ts ++ 0x2C#8 :: t) (u ++ u') := by
  intro r stk out rest hin hbehind hfollows
  rw [List.append_assoc, List.cons_append] at hbehind
  obtain ⟨r1, hreaches1, hin1, hleft1⟩ := hs r stk out _ hin hbehind (hcomma rest)
  obtain ⟨r2, hreaches2, hin2, hrest2⟩ := @reaches_comma accepts obj _ _ _ _ _ hin1 hleft1
  obtain ⟨r3, hreaches3, hin3, hleft3⟩ := h r2 stk _ rest hin2 (behind_of_eq hrest2) hfollows
  rw [List.append_assoc] at hin3
  exact ⟨r3, (hreaches1.trans hreaches2).trans hreaches3, hin3, hleft3⟩

/-- A literal is read in one round. -/
theorem valueReads_literal (htok : tok.all isBare) (hhead : ValueHead tok)
    (hword : ieq tok "true" = true ∨ ieq tok "false" = true ∨ isNullWord tok = true)
    (htext : emitBareValue accepts tok = tok) (hv : Denotes (Accepted accepts) tok (.value v)) :
    ValueReads accepts v tok where
  head := hhead
  reads := by
    refine ⟨tok, hv, ?_⟩
    intro r rest hst hdone hbehind hfollows
    have hne : tok ≠ [] := by
      obtain ⟨b, u, rfl, -⟩ := hhead
      exact List.cons_ne_nil b u
    exact step_bare hst hdone hbehind htok hne hfollows (Or.inr hword) htext

theorem valueHead_bracket (u : Bytes) (hb : isSolid b) (hcolon : b ≠ 0x3A#8) (hequals : b ≠ 0x3D#8)
    (hminus : b ≠ 0x2D#8) : ValueHead (b :: u) :=
  ⟨b, u, rfl, hb, hcolon, hequals, fun h => absurd h hminus⟩

theorem valueHead_number (n : Number) : ValueHead n.text := by
  obtain ⟨b, t, htext, hb, hkind⟩ := number_head n
  rw [htext]
  obtain hdigit | ⟨rfl, d, u, rfl, hd⟩ := hkind
  · have hfacts : ∀ b : Byte, isDigit b = true →
        isSolid b = true ∧ b ≠ 0x3A#8 ∧ b ≠ 0x3D#8 ∧ b ≠ 0x2D#8 := by decide
    obtain ⟨hsolid, hcolon, hequals, hminus⟩ := hfacts b hdigit
    exact valueHead_bracket t hsolid hcolon hequals hminus
  · refine ⟨0x2D#8, d :: u, rfl, rfl, by decide, by decide, fun _ => ⟨d, u, rfl, ?_⟩⟩
    rintro rfl
    cases hd

/-- A container, from what its contents are written as. -/
theorem reads_container (obj : Bool) {inner t' : Bytes} (hst : r.st = .value)
    (hdone : r.done = false) (hbehind : r.Behind (opening obj :: (inner ++ [closing obj]) ++ rest))
    (hinner : inner.all isBlank ∧ t' = [] ∨ ReadsOn accepts obj false inner t') :
    ReadsAs accepts r (opening obj :: (t' ++ [closing obj])) rest := by
  simp only [List.cons_append, List.append_assoc, List.nil_append] at hbehind
  obtain ⟨r1, hopen, hin1, hrest1⟩ := @reaches_open accepts obj r _ hst hdone hbehind
  have hcontents : ∃ hp r2, Reaches accepts r1 r2 ∧
      In obj hp r.stk (r.out ++ (r.lead ++ [opening obj]) ++ t') r2 ∧
      r2.Behind (closing obj :: rest) := by
    obtain ⟨hblank, rfl⟩ | hreads := hinner
    · exact ⟨false, r1, .refl r1, by simpa using hin1, ⟨inner, hblank, hrest1⟩⟩
    · obtain ⟨r2, hread, hin2, hleft⟩ := hreads r1 _ _ _ hin1 (behind_of_eq hrest1)
        (follows_cons (by cases obj <;> rfl) (by cases obj <;> decide) _ _)
      exact ⟨true, r2, hread, hin2, hleft⟩
  obtain ⟨hp, r2, hread, hin2, hleft⟩ := hcontents
  rw [List.append_assoc] at hin2
  obtain ⟨r3, hclose, hfinished, hbehind3⟩ := @reaches_close accepts obj r r2 _ _ _ hin2 hleft
  refine ⟨r3, (hopen.trans hread).trans hclose, ?_, hbehind3⟩
  simpa using hfinished

theorem noCurly_inner {a : Byte} (h : NoCurly (a :: (t ++ [b]))) : NoCurly t :=
  h.tail.left

/-- Every phrase of the grammar without curly double quotes is read and written back. -/
theorem denotes_reads
    (hstrtod : ∀ n m : Number, n.value = m.value → accepts n.text = accepts m.text) {p : Phrase}
    (h : Denotes (Kept accepts) t p) (hcurly : NoCurly t) : PhraseReads accepts t p := by
  induction h with
  | litNull =>
    exact valueReads_literal rfl (valueHead_bracket _ rfl (by decide) (by decide) (by decide))
      (by decide) rfl .litNull
  | litTrue =>
    exact valueReads_literal rfl (valueHead_bracket _ rfl (by decide) (by decide) (by decide))
      (by decide) rfl .litTrue
  | litFalse =>
    exact valueReads_literal rfl (valueHead_bracket _ rfl (by decide) (by decide) (by decide))
      (by decide) rfl .litFalse
  | @number n hn =>
    have hvalue := normalized_value hn
    have haccepted : accepts (normalized n).text = true := (hstrtod _ _ hvalue).trans hn.1
    refine ⟨valueHead_number n, (normalized n).text, ?_, ?_⟩
    · rw [← hvalue]
      exact .number haccepted
    · intro r rest hst hdone hbehind hfollows
      exact readsAs_number hst hdone hbehind hfollows haccepted
  | @string body cs hbody =>
    refine ⟨valueHead_bracket _ rfl (by decide) (by decide) (by decide), _, .string hbody, ?_⟩
    intro r rest hst hdone hbehind _
    exact readsAs_string hst hdone hbehind hbody (noCurly_inner hcurly)
  | @emptyArray ws hws =>
    refine ⟨valueHead_bracket _ rfl (by decide) (by decide) (by decide), _,
      @Denotes.emptyArray _ [] rfl, ?_⟩
    intro r rest hst hdone hbehind _
    exact reads_container false hst hdone hbehind (Or.inl ⟨hws, rfl⟩)
  | @array ts vs hts ih =>
    obtain ⟨t', ht', hreads⟩ := ih (noCurly_inner hcurly)
    refine ⟨valueHead_bracket _ rfl (by decide) (by decide) (by decide), _, .array ht', ?_⟩
    intro r rest hst hdone hbehind _
    exact reads_container false hst hdone hbehind (Or.inr hreads)
  | @emptyObject ws hws =>
    refine ⟨valueHead_bracket _ rfl (by decide) (by decide) (by decide), _,
      @Denotes.emptyObject _ [] rfl, ?_⟩
    intro r rest hst hdone hbehind _
    exact reads_container true hst hdone hbehind (Or.inl ⟨hws, rfl⟩)
  | @object ts ms hts ih =>
    obtain ⟨t', ht', hreads⟩ := ih (noCurly_inner hcurly)
    refine ⟨valueHead_bracket _ rfl (by decide) (by decide) (by decide), _, .object ht', ?_⟩
    intro r rest hst hdone hbehind _
    exact reads_container true hst hdone hbehind (Or.inr hreads)
  | text hbefore _ hafter ih =>
    exact ⟨_, _, _, rfl, hbefore, hafter, ih hcurly.right.left⟩
  | @member before body after t key v hbefore hkey hafter _ ih =>
    obtain ⟨before', t1, after', rfl, hbefore', hafter', hhead, t', ht', hreads⟩ :=
      ih hcurly.right.right.right.tail
    refine ⟨⟨before, _, hbefore, rfl⟩, quoted body ++ 0x3A#8 :: t',
      @Denotes.member _ [] body [] t' key v rfl hkey rfl ht'.bare, ?_⟩
    intro hp r stk out rest hin hbehind hfollows
    have hkeyBehind : r.Behind (quoted body ++
        ((ColonRun.single (gap_of_blank hafter) (gap_of_blank hbefore')).text ++
          (t1 ++ (after' ++ rest)))) := by
      refine Behind.blank ?_ hbefore
      simpa [ColonRun.single, ColonRun.text, colonsText, colonText] using hbehind
    obtain ⟨r1, hreaches1, hst, hdone, hrequired, hstk, hout, hrest⟩ :=
      @reaches_key accepts _ (by simp [ColonRun.Tight, ColonRun.single]) r hp stk out body _ key hin
        hkeyBehind hkey (noCurly_inner hcurly.right.left) (hhead.append _)
    obtain ⟨r2, hreaches2, hfinished, hleft⟩ := hreads r1 (after' ++ rest) hst hdone
      (behind_of_eq hrest) (by rw [hrequired]; exact hfollows.blank hafter')
    refine ⟨r2, hreaches1.trans hreaches2, ?_, hleft.blank hafter'⟩
    have hlead : r1.lead = [] := by simp [lead, hrequired]
    have hinside := hfinished.inside hstk
    rw [hlead, hout] at hinside
    simpa using hinside
  | element _ ih =>
    obtain ⟨t', ht', hreads⟩ := reads_element (ih hcurly)
    exact ⟨t', .element ht'.bare, hreads false⟩
  | @moreElements ts t vs v _ _ ihs ih =>
    obtain ⟨ts', hts', hread⟩ := ihs hcurly.left
    obtain ⟨t', ht', hreads⟩ := reads_element (ih hcurly.right.tail)
    exact ⟨_, .moreElements hts' ht'.bare, hread.more (hreads true) fun _ => follows_comma_array _⟩
  | oneMember _ ih =>
    obtain ⟨-, t', ht', hreads⟩ := ih hcurly
    exact ⟨t', .oneMember ht', hreads false⟩
  | @moreMembers ts t ms key v _ _ ihs ih =>
    obtain ⟨ts', hts', hread⟩ := ihs hcurly.left
    obtain ⟨⟨ws, u, hws, rfl⟩, t', ht', hreads⟩ := ih hcurly.right.tail
    exact ⟨_, .moreMembers hts' ht', hread.more (hreads true) (follows_comma_object hws)⟩

end Repairer

open Repairer (Follows)

/-! ### The prologue -/

/-- A byte of a literal, or a blank. -/
def isFiller (b : Byte) : Bool := isBlank b || (decide (0x61 ≤ b.toNat) && decide (b.toNat ≤ 0x7A))

theorem skipWs_filler (h : c.rest.all isFiller) : (skipWs c).rest.all isFiller := by
  fun_induction skipWs c with
  | case1 c hstop => exact h
  | case2 c hstop ih =>
    refine ih ?_
    rw [Cursor.rest_skip, List.all_eq_true]
    intro b hb
    exact List.all_eq_true.mp h b (List.mem_of_mem_drop hb)

/-- The prologue finds no anchor in a literal. -/
theorem prologueLoop_filler (h : c.rest.all isFiller) : (prologueLoop c).rest = [] := by
  fun_induction prologueLoop c with
  | case1 c c' hend => exact hend
  | case2 c c' hmore hanchor =>
    have hfiller := skipWs_filler h
    obtain ⟨b, t, hrest⟩ := List.exists_cons_of_ne_nil hmore
    have hrest' : (skipWs c).rest = b :: t := hrest
    rw [hrest', List.all_cons, Bool.and_eq_true] at hfiller
    have hfacts : ∀ b : Byte, isFiller b = true → startsValue b = false ∧ b ≠ 0x7B#8 ∧
        b ≠ 0x5B#8 ∧ b ≠ 0x22#8 ∧ b ≠ 0x27#8 ∧ b ≠ 0x60#8 ∧ b ≠ 0xE2#8 := by decide
    obtain ⟨h1, h2, h3, h4, h5, h6, h7⟩ := hfacts b hfiller.1
    simp [isAnchor, Cursor.atQuote, atQuote, hrest, h1, h2, h3, h4, h5, h6, h7] at hanchor
  | case3 c c' hmore hanchor ih =>
    refine ih ?_
    rw [Cursor.rest_skip, List.all_eq_true]
    intro b hb
    exact List.all_eq_true.mp (skipWs_filler h) b (List.mem_of_mem_drop hb)

/-- The prologue leaves a JSON text at its value. -/
theorem prologue_exact {reads : Number → Prop} {before after : Bytes} (hbefore : before.all isBlank)
    (ht : Denotes reads t (.value v)) (hhead : ValueHead t) (hafter : after.all isBlank) :
    (prologue (before ++ (t ++ after))).rest = t ++ after := by
  obtain ⟨b, u, rfl, hb, -⟩ := hhead
  have hascii := solid_ascii hb
  have hsolid : Solid (b :: u ++ after) := solid_cons hb _
  have hbom : ¬ (before ++ (b :: u ++ after)).take 3 = [0xEF#8, 0xBB#8, 0xBF#8] := by
    intro htake
    cases before with
    | nil =>
      obtain rfl := (List.cons.inj htake).1
      simp at hascii
    | cons w before =>
      obtain rfl := (List.cons.inj htake).1
      simp only [List.all_cons, Bool.and_eq_true] at hbefore
      cases hbefore.1
  obtain ⟨hstart, hglued⟩ := @skipWs_blank ⟨none, before ++ (b :: u ++ after)⟩ before _ hbefore rfl
    hsolid
  simp only [prologue, if_neg hbom]
  set start := skipWs ⟨none, before ++ (b :: u ++ after)⟩
  by_cases hvalue : startsValue b = true
  · rw [if_pos (Or.inr (by simpa [hstart] using hvalue))]
    exact hstart
  · have hnot : ¬ (start.rest = [] ∨ start.rest.head?.any startsValue = true) := by
      simpa [hstart] using hvalue
    rw [if_neg hnot]
    have hskip : skipWs start = start := skipWs_solid (by rw [hstart]; exact hsolid)
    by_cases hquote : b = 0x22#8
    · subst hquote
      have hanchor : isAnchor start = true := by
        simp [isAnchor, Cursor.atQuote, atQuote, hstart, hglued rfl]
      have hloop : prologueLoop start = start := by
        rw [prologueLoop]
        simp [hskip, hstart, hanchor]
      rw [hloop, hskip, if_neg (by simp [hstart])]
      exact hstart
    · have hfiller : (b :: u).all isFiller := by
        generalize htext : b :: u = text at ht
        cases ht with
        | litNull | litTrue | litFalse => rfl
        | @number n hn =>
          obtain ⟨b', t', hn', -, hkind⟩ := Repairer.number_head n
          rw [hn'] at htext
          obtain ⟨rfl, -⟩ := List.cons.inj htext
          obtain hdigit | ⟨rfl, -⟩ := hkind
          · simp [startsValue, hdigit] at hvalue
          · exact absurd rfl hvalue
        | string hbody => exact absurd (List.cons.inj htext).1 hquote
        | emptyArray hws | array hws | emptyObject hws | object hws =>
          obtain rfl := (List.cons.inj htext).1
          exact absurd rfl hvalue
      have hall : start.rest.all isFiller := by
        have hblank : after.all isFiller := by
          rw [List.all_eq_true] at hafter ⊢
          intro b' hb'
          simp [isFiller, hafter b' hb']
        rw [hstart, List.all_append, hfiller, hblank]
        rfl
      have hloop := prologueLoop_filler hall
      have hend : skipWs (prologueLoop start) = prologueLoop start :=
        skipWs_solid (by rw [hloop]; intro b' hb'; cases hb')
      rw [hend, if_pos hloop]
      exact hstart

/-! ### The whole text -/

theorem Reaches.done (reader : StrictReader accepts) {input : Bytes}
    (h : Reaches accepts (start input) r) (hdone : r.done = true) :
    (Repairer.step accepts)^[rounds input] (start input) = r := by
  obtain ⟨n, rfl⟩ := h
  have hend := run_done reader input
  have h1 := @Repairer.iterate_of_done accepts _ hdone (rounds input)
  have h2 := @Repairer.iterate_of_done accepts _ hend n
  rw [← Function.iterate_add_apply] at h1 h2
  rw [← h2, Nat.add_comm, h1]

/-- A text of the grammar whose strings hold no raw curly double quotes, and whose numbers are
in the range of doubles with an exponent that is not clamped, is written as a text with the
same value. -/
theorem run_conservative (hnumber : ∀ t, accepts t = true → IsNumber t)
    (hstrtod : ∀ n m : Number, n.value = m.value → accepts n.text = accepts m.text) {text : Bytes}
    {v : Value} (htext : Denotes (Kept accepts) text (.text v)) (hcurly : NoCurly text) :
    Denotes (Repairer.Accepted accepts) (run accepts text) (.text v) := by
  cases htext with
  | @text before t after _ hbefore ht hafter =>
    obtain ⟨hhead, t', ht', hreads⟩ := Repairer.denotes_reads hstrtod ht hcurly.right.left
    have hprologue := prologue_exact hbefore ht hhead hafter
    have hfollows : Follows false (after ++ []) := by
      refine Follows.blank ?_ hafter
      constructor
      · intro b hb
        cases hb
      · intro h
        cases h
    rw [List.append_nil] at hfollows
    obtain ⟨r', hreaches, ⟨hout, hdone⟩, -⟩ :=
      hreads (start (before ++ (t ++ after))) after rfl rfl
        (Repairer.behind_of_eq hprologue) hfollows
    have hrun := hreaches.done (.all hnumber) hdone
    have hlead : (start (before ++ (t ++ after))).lead = [] := rfl
    rw [hlead, List.nil_append] at hout
    simp only [run, hrun, hout]
    change Denotes _ (if [] ++ t' = [] then _ else [] ++ t') _
    rw [List.nil_append, if_neg]
    · exact ht'.bare
    · rintro rfl
      have hscan := ht'.scan.2 trivial
      cases hscan

/-! ### Inputs -/

/-- A reader of all numbers of the grammar. -/
def anyNumber (t : Bytes) : Bool := decide (IsNumber t)

theorem anyNumber_isNumber (t : Bytes) (h : anyNumber t = true) : IsNumber t := of_decide_eq_true h

theorem anyNumber_text (n : Number) : anyNumber n.text = true := decide_eq_true ⟨n, rfl⟩

theorem anyNumber_value (n m : Number) (_ : n.value = m.value) :
    anyNumber n.text = anyNumber m.text := by
  rw [anyNumber_text, anyNumber_text]

/-- `1.50`. -/
def decimalNumber : Number where
  neg      := false
  int      := [0x31#8]
  frac     := [0x35#8, 0x30#8]
  exp      := none
  int_ok   := rfl
  int_ne   := by decide
  int_lead := by decide
  frac_ok  := rfl

theorem run_conservative_document :
    Denotes (Repairer.Accepted anyNumber)
      (run anyNumber (Text.ascii "\x7b\"a\":[1.50, \"b\"]\x7d"))
      (.text (.obj [([0x61], .arr [.num decimalNumber.value, .str [0x62]])])) := by
  refine run_conservative anyNumber_isNumber anyNumber_value ?_ (by unfold NoCurly; decide +kernel)
  have hstring : ∀ b : Byte, ∀ cp, IsPlain cp → utf8 cp = [b] → StringBody [b] [cp] := by
    intro b cp hcp hutf8
    have h := StringBody.char hcp .nil
    rwa [hutf8] at h
  have hkey : StringBody [0x61#8] [0x61] := hstring _ _ ⟨Or.inl (by decide), by decide⟩ (by decide)
  have hitem : StringBody [0x62#8] [0x62] := hstring _ _ ⟨Or.inl (by decide), by decide⟩ (by decide)
  have hnumber : Denotes (Kept anyNumber) decimalNumber.text (.value (.num decimalNumber.value)) :=
    .number ⟨anyNumber_text _, fun e he => by cases he⟩
  have hspace := @Denotes.text (Kept anyNumber) [0x20#8] _ [] _ rfl (.string hitem) rfl
  have harray := Denotes.array (.moreElements (.element hnumber.bare) hspace)
  have hmember := @Denotes.member (Kept anyNumber) [] _ [] _ _ _ rfl hkey rfl harray.bare
  exact (Denotes.object (.oneMember hmember)).bare

theorem exponentMark : (0x65#8 : Byte) = 0x65#8 ∨ (0x65#8 : Byte) = 0x45#8 := Or.inl rfl

/-- A power of ten. -/
def powerOfTen (digits : Bytes) (hdigits : digits.all isDigit) (hne : digits ≠ []) : Number :=
  { decimalNumber with
    int      := [0x31#8]
    frac     := []
    exp      := some ⟨0x65#8, none, digits, exponentMark,
      fun b h => absurd h.symm (Option.some_ne_none b), hdigits, hne⟩
    frac_ok  := List.all_nil }

theorem value_powerOfTen (digits : Bytes) (hdigits : digits.all isDigit) (hne : digits ≠ []) :
    (powerOfTen digits hdigits hne).value = 10 ^ digitsNat digits := by
  simp [powerOfTen, decimalNumber, Number.value, Number.expValue, Exponent.value, digitsNat]

/-- The exponent of a number inside the range of doubles is clamped, and a curly quotation mark
closes a string. -/
theorem conservative_fails :
    (∃ v, Denotes (Repairer.Accepted anyNumber) (Text.ascii "1e305") (.text v) ∧
      ¬ Denotes (Repairer.Accepted anyNumber) (run anyNumber (Text.ascii "1e305")) (.text v)) ∧
    ∃ v, Denotes (Repairer.Accepted anyNumber) (quoted [0xE2#8, 0x80#8, 0x9C#8]) (.text v) ∧
      ¬ Denotes (Repairer.Accepted anyNumber) (run anyNumber (quoted [0xE2#8, 0x80#8, 0x9C#8]))
        (.text v) := by
  constructor
  · have hsource : (powerOfTen (Text.ascii "305") (by decide) (by decide)).text = Text.ascii "1e305" := rfl
    have htarget : (powerOfTen (Text.ascii "299") (by decide) (by decide)).text = Text.ascii "1e299" := rfl
    have hrun : run anyNumber (Text.ascii "1e305") = Text.ascii "1e299" := by decide +kernel
    refine ⟨.num (powerOfTen (Text.ascii "305") (by decide) (by decide)).value, ?_, ?_⟩
    · rw [← hsource]
      exact (Denotes.number (anyNumber_text _)).bare
    · rw [hrun]
      intro h
      have hvalue := h.tight (by decide) (by decide)
      generalize htext : Text.ascii "1e299" = t at hvalue
      generalize hq : (powerOfTen (Text.ascii "305") (by decide) (by decide)).value = q at hvalue
      cases hvalue with
      | @number n _ =>
        have hsame := Number.value_of_text (htarget.trans htext)
        rw [← hq, value_powerOfTen, value_powerOfTen] at hsame
        have hexp := pow_right_injective₀ (show (0 : ℚ) < 10 by norm_num) (by norm_num) hsame
        revert hexp
        decide
  · have hrun : run anyNumber (quoted [0xE2#8, 0x80#8, 0x9C#8]) = quoted [] := by decide +kernel
    refine ⟨.str [0x201C], ?_, ?_⟩
    · have hplain : IsPlain 0x201C := ⟨Or.inl (by decide), by decide⟩
      have hbody := StringBody.char hplain .nil
      exact (Denotes.string hbody).bare
    · rw [hrun]
      intro h
      have hvalue := h.tight (by decide) (by decide)
      generalize htext : quoted [] = t at hvalue
      cases hvalue with
      | @string body _ hbody =>
        have hnil : body = [] := by
          simpa [quoted] using htext
        rw [hnil] at hbody
        cases hbody.of_nil

end KimixNative.Core
