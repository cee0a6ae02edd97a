import KimixNative.Core.JsonNumbers

/-!
# What one round of the repairer does

A round of `run` does one of eleven things to the stack and the output. Each of them either consumes input or closes a container, or goes on from a key to
its colon and from there to its value, so a potential bounds the number of rounds.
-/

namespace KimixNative.Core

open Json

namespace Repairer

variable {accepts : Bytes → Bool}

@[simp] theorem move_cur (r : Repairer) (c : Cursor) : (r.move c).cur = c := rfl
@[simp] theorem move_out (r : Repairer) (c : Cursor) : (r.move c).out = r.out := rfl
@[simp] theorem move_stk (r : Repairer) (c : Cursor) : (r.move c).stk = r.stk := rfl
@[simp] theorem move_st (r : Repairer) (c : Cursor) : (r.move c).st = r.st := rfl
@[simp] theorem move_done (r : Repairer) (c : Cursor) : (r.move c).done = r.done := rfl
@[simp] theorem move_valueRequired (r : Repairer) (c : Cursor) :
    (r.move c).valueRequired = r.valueRequired := rfl

@[simp] theorem emit_cur (r : Repairer) (t : Bytes) : (r.emit t).cur = r.cur := rfl
@[simp] theorem emit_out (r : Repairer) (t : Bytes) : (r.emit t).out = r.out ++ t := rfl
@[simp] theorem emit_stk (r : Repairer) (t : Bytes) : (r.emit t).stk = r.stk := rfl
@[simp] theorem emit_st (r : Repairer) (t : Bytes) : (r.emit t).st = r.st := rfl
@[simp] theorem emit_done (r : Repairer) (t : Bytes) : (r.emit t).done = r.done := rfl
@[simp] theorem emit_valueRequired (r : Repairer) (t : Bytes) :
    (r.emit t).valueRequired = r.valueRequired := rfl

/-- The comma that `maybe_comma` writes. -/
def comma (stk : List Frame) : Bytes :=
  match stk with
  | [] => []
  | f :: _ => if f.hasPrev then [0x2C#8] else []

theorem maybeComma_eq (r : Repairer) : r.maybeComma = r.emit (comma r.stk) := by
  obtain ⟨cur, out, stk, st, vr, done⟩ := r
  cases stk with
  | nil => simp [maybeComma, comma, emit]
  | cons f stk =>
    simp only [maybeComma, comma]
    split_ifs
    · rfl
    · simp [emit]

/-- The comma in front of a value. -/
def lead (r : Repairer) : Bytes := if r.valueRequired then [] else
  match r.stk with
  | [] => []
  | f :: _ => if f.obj then [] else comma r.stk

theorem elemComma_eq (r : Repairer) : r.elemComma = r.emit r.lead := by
  obtain ⟨cur, out, stk, st, vr, done⟩ := r
  cases stk with
  | nil => simp [elemComma, lead, emit]
  | cons f stk =>
    cases hobj : f.obj <;> cases vr <;>
      simp [elemComma, lead, hobj, maybeComma_eq, emit]

/-- One round, from the position behind the white space; `refused` says that the round takes a
refused thousands group. -/
inductive Turn (reads : Number → Prop) (refused : Prop) : Repairer → Repairer → Prop
  | stray {r c} (hc : c.rest.length < r.cur.rest.length) : Turn reads refused r (r.move c)
  | refusal {r c} (hrefused : refused) (hst : r.st = .value) (hvr : r.valueRequired)
      (hc : c.rest.length < r.cur.rest.length) :
      Turn reads refused r ((r.emit r.lead).move c).finishValue
  | missing {r c} (hst : r.st = .value) (hvr : r.valueRequired)
      (hc : c.rest.length < r.cur.rest.length) : Turn reads refused r (r.emitMissing.finishValue.move c)
  | opens {r c obj vr} (hst : r.st = .value) (hvr : obj = false → vr = false)
      (hc : c.rest.length < r.cur.rest.length) :
      Turn reads refused r
        { (r.emit (r.lead ++ [if obj then 0x7B#8 else 0x5B#8])).move c with
          stk := ⟨obj, false⟩ :: r.stk, st := if obj then .key else .value, valueRequired := vr }
  | scalar {r c t} (hst : r.st = .value) (ht : IsValueText reads t)
      (hc : c.rest.length < r.cur.rest.length) :
      Turn reads refused r ((r.emit (r.lead ++ t)).move c).finishValue
  | closes {r c} (hst : r.st = .value) (hc : c.rest.length < r.cur.rest.length) :
      Turn reads refused r (r.emitMissing.closeTop.move c)
  | ends {r} (hst : r.st = .value) : Turn reads refused r { r.emitMissing.closeAll with done := true }
  | keyEnds {r c} (hst : r.st = .key) (hc : c.rest.length ≤ r.cur.rest.length) :
      Turn reads refused r (r.move c).closeTop
  | key {r c t} (hst : r.st = .key) (ht : IsString t) (hc : c.rest.length ≤ r.cur.rest.length) :
      Turn reads refused r { (r.emit (comma r.stk ++ t)).move c with st := .colon }
  | colonEnds {r} (hst : r.st = .colon) :
      Turn reads refused r (r.emit (0x3A#8 :: Text.ascii "null")).closeTop
  | colon {r c} (hst : r.st = .colon) (hc : c.rest.length ≤ r.cur.rest.length) :
      Turn reads refused r { (r.emit [0x3A#8]).move c with st := .value, valueRequired := true }

theorem emit_emit (r : Repairer) (t u : Bytes) : (r.emit t).emit u = r.emit (t ++ u) := by
  simp [emit]

variable {c stop : Cursor}

theorem length_skip_lt {n : Nat} (hne : c.rest ≠ []) (hn : 0 < n) :
    (c.skip n).rest.length < c.rest.length := by
  have hpos := List.length_pos_iff.mpr hne
  simp only [Cursor.rest_skip, List.length_drop]
  omega

theorem thousands_lt {tok : Bytes} {digits : Bytes} (h : thousands tok c = some (digits, stop)) :
    stop.rest.length < c.rest.length := by
  unfold thousands at h
  split_ifs at h with hpure
  dsimp only at h
  split_ifs at h with hgroup
  simp only [Option.some.injEq, Prod.mk.injEq] at h
  rw [← h.2]
  exact hgroup.1

variable {text : Bytes} {r' : Repairer}

theorem wordsLoop_le {cand : Bytes} {pieces : Nat} (h : wordsLoop cand pieces c = some (text, stop)) :
    stop.rest.length ≤ c.rest.length := by
  revert h
  fun_induction wordsLoop cand pieces c with
  | case1 => simp
  | case2 cand pieces c q commit hq hlen hsep =>
    simp only [commit]
    split_ifs
    · simp only [Option.some.injEq, Prod.mk.injEq]
      rintro ⟨-, rfl⟩
      exact le_rfl
    · simp
  | case3 => simp
  | case4 cand pieces c q commit hq hlen hquote =>
    simp only [commit]
    split_ifs
    · simp only [Option.some.injEq, Prod.mk.injEq]
      rintro ⟨-, rfl⟩
      exact le_rfl
    · simp
  | case5 => simp
  | case6 => simp
  | case7 => simp
  | case8 => simp
  | case9 cand pieces c q hq hlen hquote hcomment n w hn hw hcolon ih =>
    intro h
    have hgap := length_skipGap c
    have hle := ih h
    simp only [w, q, Cursor.rest_skip, List.length_drop] at hle
    omega

theorem words_le {tok : Bytes} (h : words tok c = some (text, stop)) :
    stop.rest.length ≤ c.rest.length := by
  unfold words at h
  split_ifs at h
  exact wordsLoop_le h

variable {r : Repairer} {reads : Number → Prop} {refused : Prop}

theorem token_behind (h : bareLength r.cur.prev r.cur.rest ≠ 0) (hne : r.cur.rest ≠ []) :
    r.behindToken.rest.length < r.cur.rest.length :=
  length_skip_lt hne (Nat.pos_of_ne_zero h)

/-- The thousands group at the position is refused by `normalize_number`. -/
def refusedAhead (accepts : Bytes → Bool) (r : Repairer) : Bool :=
  r.thousandsAhead.any fun d => (normalizeNumber accepts d.1).isNone

theorem thousandsAhead_required (h : r.thousandsAhead.isSome) : r.valueRequired = true := by
  unfold thousandsAhead at h
  split_ifs at h with hrequired
  · exact hrequired
  · cases h

/-- A bare token in the place of a value. -/
theorem turn_bareStep (reader : StrictReader accepts) (hst : r.st = .value) (hne : r.cur.rest ≠ []) :
    Turn reader.reads (r.refusedAhead accepts) r (r.bareStep accepts) := by
  unfold bareStep
  rw [elemComma_eq]
  by_cases hlen : bareLength r.cur.prev r.cur.rest = 0
  · rw [if_pos hlen]
    exact .stray (length_skip_lt hne (by decide))
  · rw [if_neg hlen]
    have hbehind := token_behind hlen hne
    cases hthousands : r.thousandsAhead with
    | some d =>
      obtain ⟨digits, stop⟩ := d
      have hrequired := thousandsAhead_required (by rw [hthousands]; rfl)
      have hstop : stop.rest.length < r.behindToken.rest.length := by
        unfold thousandsAhead at hthousands
        split_ifs at hthousands
        exact thousands_lt hthousands
      cases htext : normalizeNumber accepts digits with
      | none =>
        have hrefused : r.refusedAhead accepts = true := by
          simp [refusedAhead, hthousands, htext]
        simp only [htext, Option.getD_none, emit_emit, List.append_nil]
        exact .refusal hrefused hst hrequired (by omega)
      | some text =>
        simp only [htext, Option.getD_some, emit_emit]
        exact .scalar hst (reader.isValueText_number htext) (by omega)
    | none =>
      cases hwords : r.wordsAhead with
      | some d =>
        obtain ⟨text, stop⟩ := d
        have hstop : stop.rest.length ≤ r.behindToken.rest.length := by
          unfold wordsAhead at hwords
          split_ifs at hwords
          exact words_le hwords
        simp only [emit_emit]
        exact .scalar hst (isValueText_string (isString_emitEscaped text)) (by omega)
      | none =>
        simp only [emit_emit]
        exact .scalar hst (reader.isValueText_bare r.token) hbehind

theorem turn_straySeparator (hst : r.st = .value) (hne : r.cur.rest ≠ []) :
    Turn reads refused r r.straySeparator := by
  have hpos : 0 < if atFwSep r.cur.rest then 3 else 1 := by split <;> decide
  have hskip := length_skip_lt hne hpos
  simp only [straySeparator]
  by_cases hrequired : r.valueRequired = true
  · rw [if_pos hrequired]
    exact .missing hst hrequired hskip
  · rw [if_neg hrequired]
    exact .stray hskip

/-- The value state at a byte. -/
theorem turn_valueByte (reader : StrictReader accepts) {c : Byte} {rest : Bytes}
    (hst : r.st = .value) (hrest : r.cur.rest = c :: rest) :
    Turn reader.reads (r.refusedAhead accepts) r (r.valueByte accepts c) := by
  have hne : r.cur.rest ≠ [] := by simp [hrest]
  have hskip := length_skip_lt hne (show 0 < 1 by decide)
  unfold valueByte
  split_ifs with hbrace hbracket hquote hsep hclose hslash
  · simp only [elemComma_eq, openObject, emit_emit]
    exact @Turn.opens _ _ _ _ true _ hst (by simp) hskip
  · simp only [elemComma_eq, openArray, emit_emit]
    exact @Turn.opens _ _ _ _ false _ hst (fun _ => rfl) hskip
  · obtain ⟨hstring, hlt⟩ := scanQuoted_spec hquote
    simp only [elemComma_eq, emit_emit]
    exact .scalar hst (isValueText_string hstring) hlt
  · exact turn_straySeparator hst hne
  · exact .closes hst hskip
  · exact .stray hskip
  · exact turn_bareStep reader hst hne

theorem turn_keyStep (hst : r.st = .key) :
    Turn reads refused (r.move (skipWs r.cur)) r.keyStep := by
  unfold keyStep
  dsimp only
  generalize hr : r.move (skipWs r.cur) = r'
  have hst' : r'.st = .key := by rw [← hr]; exact hst
  cases hrest : r'.cur.rest with
  | nil => exact @Turn.keyEnds _ _ _ r'.cur hst' le_rfl
  | cons c rest =>
    have hne : r'.cur.rest ≠ [] := by simp [hrest]
    have hskip := length_skip_lt hne (show 0 < 1 by decide)
    dsimp only
    split_ifs with hclose hsep hfw hquote
    · exact .keyEnds hst' hskip.le
    · exact .stray hskip
    · exact .stray (length_skip_lt hne (by decide))
    · obtain ⟨hstring, hlt⟩ := scanQuoted_spec hquote
      simp only [maybeComma_eq, emit_emit]
      exact .key hst' hstring hlt.le
    · simp only [maybeComma_eq, emit_emit]
      refine .key hst' (isString_emitEscaped _) ?_
      simp only [bareKey, behindToken, Cursor.rest_skip, List.length_drop]
      omega

theorem length_skipColon (c : Cursor) : (skipColon c).rest.length ≤ c.rest.length := by
  unfold skipColon
  split_ifs <;> simp

theorem length_colonLoop (c : Cursor) : (colonLoop c).rest.length ≤ c.rest.length := by
  fun_induction colonLoop c with
  | case1 c h ih => exact ih.trans (length_skipColon c)
  | case2 c h h' ih =>
    have hle := length_skipWs c
    simp only [Cursor.rest_skip, List.length_drop] at ih
    omega
  | case3 c h h' => exact le_rfl

theorem length_skipColonAlias (c : Cursor) : (skipColonAlias c).rest.length ≤ c.rest.length := by
  unfold skipColonAlias
  split_ifs <;> simp

theorem turn_colonStep (hst : r.st = .colon) :
    Turn reads refused (r.move (skipWs r.cur)) r.colonStep := by
  unfold colonStep
  dsimp only
  split_ifs with hnil
  · exact .colonEnds hst
  · refine .colon hst ?_
    have h1 := length_skipColonAlias (skipWs (colonLoop (skipColon (skipWs r.cur))))
    have h2 := length_skipWs (colonLoop (skipColon (skipWs r.cur)))
    have h3 := length_colonLoop (skipColon (skipWs r.cur))
    have h4 := length_skipColon (skipWs r.cur)
    simp only [move_cur]
    omega

/-- The round takes a thousands group, right after a colon, whose digits `normalize_number`
refuses. -/
def refuses (accepts : Bytes → Bool) (r : Repairer) : Bool :=
  !r.done && r.st == .value && (r.move (skipWs r.cur)).refusedAhead accepts

/-- One round of `run`. -/
theorem turn_step (reader : StrictReader accepts) (hdone : r.done = false) :
    Turn reader.reads (r.refuses accepts) (r.move (skipWs r.cur)) (r.step accepts) := by
  unfold step
  rw [if_neg (by simp [hdone])]
  cases hst : r.st with
  | value =>
    have hrefuses : r.refuses accepts = (r.move (skipWs r.cur)).refusedAhead accepts := by
      simp [refuses, hdone, hst]
    rw [hrefuses]
    simp only [valueStep]
    cases hrest : (r.move (skipWs r.cur)).cur.rest with
    | nil => exact .ends hst
    | cons c rest => exact turn_valueByte reader hst hrest
  | key => exact turn_keyStep hst
  | colon => exact turn_colonStep hst

/-- A round that is over leaves the state as it is. -/
theorem step_of_done (h : r.done = true) : r.step accepts = r := if_pos h

theorem iterate_of_done {r : Repairer} (h : r.done = true) (n : Nat) : (step accepts)^[n] r = r :=
  Function.iterate_fixed (step_of_done h) n

/-! ### The number of rounds -/

def rank : St → Nat
  | .value => 0
  | .colon => 1
  | .key => 2

/-- A bound on the rounds that are left. -/
def patience (r : Repairer) : Nat :=
  if r.done then 0 else 1 + 5 * r.cur.rest.length + 2 * r.stk.length + rank r.st

theorem rank_le (st : St) : rank st ≤ 2 := by
  cases st <;> decide

theorem patience_move (hdone : r.done = false) :
    (r.move c).patience = 1 + 5 * c.rest.length + 2 * r.stk.length + rank r.st := by
  simp [patience, hdone]

theorem patience_finishValue (r : Repairer) :
    r.finishValue.patience ≤ 3 + 5 * r.cur.rest.length + 2 * r.stk.length := by
  unfold finishValue
  split
  · simp [patience]
  · rename_i f stk hstk
    have hrank := rank_le (if f.obj then .key else .value)
    simp only [patience, hstk, List.length_cons]
    split
    · omega
    · omega

theorem finishValue_move (r : Repairer) (c : Cursor) :
    r.finishValue.move c = (r.move c).finishValue := by
  obtain ⟨cur, out, stk, st, vr, done⟩ := r
  cases stk <;> rfl

theorem emitMissing_frame (r : Repairer) :
    r.emitMissing.stk = r.stk ∧ r.emitMissing.st = r.st ∧ r.emitMissing.done = r.done ∧
      r.emitMissing.cur = r.cur := by
  unfold emitMissing
  split_ifs <;> exact ⟨rfl, rfl, rfl, rfl⟩

theorem patience_closeTop {r : Repairer} (hne : r.stk ≠ []) :
    r.closeTop.patience ≤ 1 + 5 * r.cur.rest.length + 2 * r.stk.length := by
  obtain ⟨cur, out, stk, st, vr, done⟩ := r
  cases stk with
  | nil => exact absurd rfl hne
  | cons f stk =>
    refine (patience_finishValue _).trans ?_
    simp only [emit_cur, List.length_cons]
    omega

theorem closeTop_move (r : Repairer) (c : Cursor) : r.closeTop.move c = (r.move c).closeTop := by
  obtain ⟨cur, out, stk, st, vr, done⟩ := r
  cases stk with
  | nil => rfl
  | cons f stk => exact finishValue_move _ c

/-- In the key and colon states an object is open. -/
def Opened (r : Repairer) : Prop := r.st ≠ .value → r.stk ≠ []

theorem opened_finishValue (r : Repairer) : r.finishValue.done = true ∨ r.finishValue.Opened := by
  unfold finishValue
  split
  · exact Or.inl rfl
  · refine Or.inr ?_
    intro _
    simp

theorem opened_closeTop (hne : r.stk ≠ []) : r.closeTop.done = true ∨ r.closeTop.Opened := by
  obtain ⟨cur, out, stk, st, vr, done⟩ := r
  cases stk with
  | nil => exact absurd rfl hne
  | cons f stk => exact opened_finishValue _

theorem Turn.opened (h : Turn reads refused r r') (hopened : r.Opened) :
    r'.done = true ∨ r'.Opened := by
  cases h with
  | stray hc => exact Or.inr hopened
  | refusal hrefused hst hvr hc => exact opened_finishValue _
  | @missing c hst hvr hc =>
    rw [finishValue_move]
    exact opened_finishValue _
  | opens hst hvr hc =>
    refine Or.inr ?_
    intro _
    simp
  | scalar hst ht hc => exact opened_finishValue _
  | @closes c hst hc =>
    obtain ⟨hstk, hst', -, -⟩ := emitMissing_frame r
    rw [closeTop_move]
    by_cases hnil : r.stk = []
    · have hsame : (r.emitMissing.move c).closeTop = r.emitMissing.move c := by
        simp [closeTop, hstk, hnil]
      rw [hsame]
      refine Or.inr ?_
      intro hne
      exact absurd (hst'.trans hst) hne
    · exact opened_closeTop (by simpa [hstk] using hnil)
  | ends hst => exact Or.inl rfl
  | keyEnds hst hc => exact opened_closeTop (hopened (by simp [hst]))
  | key hst ht hc =>
    refine Or.inr ?_
    intro _
    exact hopened (by simp [hst])
  | colonEnds hst => exact opened_closeTop (hopened (by simp [hst]))
  | colon hst hc =>
    refine Or.inr ?_
    intro hne
    exact absurd rfl hne

/-- Every round brings the end closer. -/
theorem Turn.patience_lt (h : Turn reads refused r r') (hdone : r.done = false) (hopened : r.Opened) :
    r'.patience < r.patience := by
  have hbefore : r.patience = 1 + 5 * r.cur.rest.length + 2 * r.stk.length + rank r.st := by
    simp [patience, hdone]
  rw [hbefore]
  cases h with
  | stray hc =>
    rw [patience_move hdone]
    omega
  | @refusal c hrefused hst hvr hc =>
    have hle := patience_finishValue ((r.emit r.lead).move c)
    simp only [move_cur, move_stk, emit_stk] at hle
    omega
  | @missing c hst hvr hc =>
    obtain ⟨hstk, -, -, -⟩ := emitMissing_frame r
    have hle := patience_finishValue (r.emitMissing.move c)
    rw [finishValue_move]
    simp only [move_cur, move_stk, hstk] at hle
    omega
  | @opens c obj vr hst hvr hc =>
    have hrank := rank_le (if obj then .key else .value)
    simp only [patience, move_done, emit_done, hdone, move_cur, List.length_cons,
      Bool.false_eq_true, if_false]
    omega
  | @scalar c t hst ht hc =>
    have hle := patience_finishValue ((r.emit (r.lead ++ t)).move c)
    simp only [move_cur, move_stk, emit_stk] at hle
    omega
  | @closes c hst hc =>
    obtain ⟨hstk, hst', hdone', -⟩ := emitMissing_frame r
    rw [closeTop_move]
    by_cases hnil : r.stk = []
    · have hsame : (r.emitMissing.move c).closeTop = r.emitMissing.move c := by
        simp [closeTop, hstk, hnil]
      rw [hsame, patience_move (hdone'.trans hdone), hstk, hst']
      omega
    · have hle := @patience_closeTop (r.emitMissing.move c) (by simpa [hstk] using hnil)
      simp only [move_cur, move_stk, hstk] at hle
      omega
  | ends hst =>
    simp only [patience, if_true]
    omega
  | @keyEnds c hst hc =>
    have hle := @patience_closeTop (r.move c) (hopened (by simp [hst]))
    simp only [move_cur, move_stk] at hle
    simp only [hst, rank]
    omega
  | key hst ht hc =>
    simp only [patience, move_done, emit_done, hdone, move_cur, move_stk, emit_stk,
      Bool.false_eq_true, if_false, hst, rank]
    omega
  | colonEnds hst =>
    have hle := @patience_closeTop (r.emit (0x3A#8 :: Text.ascii "null"))
      (hopened (by simp [hst]))
    simp only [emit_cur, emit_stk] at hle
    simp only [hst, rank]
    omega
  | colon hst hc =>
    simp only [patience, move_done, emit_done, hdone, move_cur, move_stk, emit_stk,
      Bool.false_eq_true, if_false, hst, rank]
    omega

/-- The machine is done after as many rounds as its patience says. -/
theorem done_of_patience (reader : StrictReader accepts) (hopened : r.Opened) {n : Nat}
    (hn : r.patience ≤ n) : ((step accepts)^[n] r).done = true := by
  induction n generalizing r with
  | zero =>
    have hzero : r.patience = 0 := by omega
    by_contra hdone
    rw [Function.iterate_zero_apply] at hdone
    simp [patience, hdone] at hzero
  | succ n ih =>
    rw [Function.iterate_succ_apply]
    by_cases hdone : r.done = true
    · rw [step_of_done hdone]
      refine ih hopened ?_
      simp [patience, hdone]
    · have hdone' : r.done = false := by simpa using hdone
      have hturn := turn_step reader hdone'
      have hlt := hturn.patience_lt hdone' hopened
      have hmove : (r.move (skipWs r.cur)).patience ≤ r.patience := by
        have hle := length_skipWs r.cur
        simp only [patience, move_done, move_cur, move_stk, move_st, hdone', Bool.false_eq_true,
          if_false]
        omega
      obtain hend | hnext := hturn.opened hopened
      · have hpatience : (r.step accepts).patience = 0 := by simp [patience, hend]
        rw [iterate_of_done hend]
        exact hend
      · exact ih hnext (by omega)

end Repairer

/-! ### The start -/

theorem length_prologueLoop (c : Cursor) : (prologueLoop c).rest.length ≤ c.rest.length := by
  fun_induction prologueLoop c with
  | case1 c c' h => exact length_skipWs c
  | case2 c c' h hanchor => exact length_skipWs c
  | case3 c c' h hanchor ih =>
    have hle := length_skipWs c
    simp only [c', Cursor.rest_skip, List.length_drop] at ih ⊢
    omega

theorem length_prologue (input : Bytes) : (prologue input).rest.length ≤ input.length := by
  have hbom : ∀ c : Cursor, c.rest.length ≤ input.length →
      (if (skipWs c).rest = [] ∨ (skipWs c).rest.head?.any startsValue then skipWs c
      else if (skipWs (prologueLoop (skipWs c))).rest = [] then skipWs c
      else skipWs (prologueLoop (skipWs c))).rest.length ≤ input.length := by
    intro c hc
    have h1 := length_skipWs c
    have h2 := length_prologueLoop (skipWs c)
    have h3 := length_skipWs (prologueLoop (skipWs c))
    split_ifs <;> omega
  refine hbom _ ?_
  split
  · simp
  · exact le_rfl

/-- `run` ends. -/
theorem run_done {accepts : Bytes → Bool} (reader : StrictReader accepts) (input : Bytes) :
    ((Repairer.step accepts)^[rounds input] (start input)).done = true := by
  refine Repairer.done_of_patience reader ?_ ?_
  · intro hne
    exact absurd rfl hne
  · have hle := length_prologue input
    simp only [Repairer.patience, start, Bool.false_eq_true, if_false, Repairer.rank,
      List.length_nil, rounds]
    omega

end KimixNative.Core
