import KimixNative.Core.JsonConservative

/-!
# Runs of colons collapse

A run of colons between a key and its value is read as one colon, unless a full-width colon of
the run other than its first stands behind white space.
-/

namespace KimixNative.Core

open Json

namespace Repairer

variable {accepts : Bytes → Bool}

/-- A value begins neither with what stands for a colon nor with a backtick. -/
theorem value_head {reads : Number → Prop} {t : Bytes} {v : Value}
    (h : Denotes reads t (.value v)) : ValueHead t ∧ t.head? ≠ some 0x60#8 := by
  cases h with
  | @number n hn =>
    refine ⟨valueHead_number n, ?_⟩
    obtain ⟨b, u, htext, hb, -⟩ := number_head n
    rw [htext]
    intro htick
    obtain rfl := Option.some.inj htick
    exact absurd hb (by decide)
  | _ =>
    exact ⟨valueHead_bracket _ rfl (by decide) (by decide) (by decide), by simp [quoted]⟩

/-- The byte in front of a value is not looked at. -/
theorem step_move {r : Repairer} {c c' : Cursor} {b : Byte} {t : Bytes} (hst : r.st = .value)
    (hdone : r.done = false) (hrest : c.rest = b :: t) (hrest' : c'.rest = b :: t) (hb : isSolid b)
    (htick : b ≠ 0x60#8) : (r.move c).step accepts = (r.move c').step accepts := by
  have hskip : ∀ n, 0 < n → c.skip n = c'.skip n := by
    intro n hn
    obtain ⟨m, rfl⟩ := Nat.exists_eq_succ_of_ne_zero hn.ne'
    simp [Cursor.skip, hrest, hrest', List.getLast?_cons]
  have hone := hskip 1 one_pos
  have hquote : c.atQuote = c'.atQuote := by
    simp [Cursor.atQuote, Core.atQuote, hrest, hrest', htick]
  have hscan : c.atQuote.isSome → scanQuoted c = scanQuoted c' := by
    intro hsome
    obtain ⟨⟨kind, n⟩, hkind⟩ := Option.isSome_iff_exists.mp hsome
    simp only [scanQuoted, ← hquote, hkind, Option.getD_some, hskip n (atQuote_pos hkind).1]
  have hlen : bareLength c.prev (b :: t) = bareLength c'.prev (b :: t) := by
    simp [bareLength, Core.atQuote, htick]
  have hwritten : ∀ (c d : Cursor) (text : Bytes), ((r.move c).elemComma.emit text).move d =
      (r.elemComma.emit text).move d := by
    intro c d text
    rw [elemComma_eq, elemComma_eq]
    rfl
  have hbare : (r.move c).bareStep accepts = (r.move c').bareStep accepts := by
    simp only [bareStep, thousandsAhead, wordsAhead, token, behindToken, move_cur, hlen, hrest, hrest',
      move_valueRequired, hwritten]
    split_ifs with hzero hrequired
    · rw [hone]
      rfl
    all_goals rw [hskip _ (Nat.pos_of_ne_zero hzero)]
  have hstray : (r.move c).straySeparator = (r.move c').straySeparator := by
    have hpos : 0 < if atFwSep (b :: t) then 3 else 1 := by split <;> decide
    simp only [straySeparator, move_cur, hrest, hrest', hskip _ hpos]
    obtain ⟨cur, out, stk, st, vr, done⟩ := r
    cases vr <;> cases stk <;> rfl
  have hclose : (r.move c).emitMissing.closeTop.move (c'.skip 1) =
      (r.move c').emitMissing.closeTop.move (c'.skip 1) := by
    obtain ⟨cur, out, stk, st, vr, done⟩ := r
    cases vr <;> rcases stk with _ | ⟨f, _ | ⟨g, stk⟩⟩ <;> rfl
  rw [step, step, if_neg (by simp [hdone]), if_neg (by simp [hdone])]
  simp only [move_st, hst, valueStep, move_cur, hrest, hrest',
    skipWs_solid (show Solid c.rest by rw [hrest]; exact solid_cons hb t),
    skipWs_solid (show Solid c'.rest by rw [hrest']; exact solid_cons hb t)]
  have hobject : (r.move c).elemComma.openObject = (r.move c').elemComma.openObject := by
    simp only [elemComma_eq, openObject, emit_cur, move_cur, hone]
    rfl
  have harray : (r.move c).elemComma.openArray = (r.move c').elemComma.openArray := by
    simp only [elemComma_eq, openArray, emit_cur, move_cur, hone]
    rfl
  change (r.move c).valueByte accepts b = (r.move c').valueByte accepts b
  simp only [valueByte, move_cur, hrest, hrest', ← hquote, hone, hobject, harray, hstray, hclose,
    hbare, hwritten]
  split_ifs with _ _ hsome
  all_goals first | rfl | rw [hscan hsome]

/-- Two texts that bring the machine to one state are written alike. -/
theorem run_eq_of_reaches (reader : StrictReader accepts) {i j : Bytes} {r : Repairer}
    (hi : Reaches accepts (start i) r) (hj : Reaches accepts (start j) r) :
    Core.run accepts i = Core.run accepts j := by
  have hon : Reaches accepts r ((step accepts)^[rounds i] r) := ⟨_, rfl⟩
  have hdone : ((step accepts)^[rounds i] r).done = true := by
    obtain ⟨n, rfl⟩ := hi
    have hend := run_done reader i
    rw [← Function.iterate_add_apply, Nat.add_comm, Function.iterate_add_apply,
      iterate_of_done hend]
    exact hend
  simp only [Core.run, (hi.trans hon).done reader hdone, (hj.trans hon).done reader hdone]

end Repairer

open Repairer

/-- What stands in an object in front of a member: nothing, or members and a comma. -/
inductive Front (accepts : Bytes → Bool) : Bytes → Prop
  | first : Front accepts []
  | later {ts ms} (hts : Denotes (Kept accepts) ts (.members ms)) : Front accepts (ts ++ [0x2C#8])

/-- A member of an object: what stands in front of it, the body of its key, and its value. -/
structure IsMember (accepts : Bytes → Bool) (front key v : Bytes) : Prop where
  front : Front accepts front
  key   : ∃ cs, StringBody key cs
  value : ∃ x, Denotes (fun _ => True) v (.value x)

/-- The object with `sep` between the key and the value. -/
def memberText (front key sep v after : Bytes) : Bytes :=
  0x7B#8 :: (front ++ (quoted key ++ (sep ++ (v ++ after))))

/-- The run of colons is written as the single colon is. -/
def Collapses (accepts : Bytes → Bool) (front key v after : Bytes) (colons : ColonRun) : Prop :=
  run accepts (memberText front key colons.text v after) =
    run accepts (memberText front key [0x3A#8] v after)

variable {accepts : Bytes → Bool} {front key v : Bytes}

/-- What the machine has done in front of a key does not depend on what follows. -/
theorem reaches_front
    (hstrtod : ∀ n m : Number, n.value = m.value → accepts n.text = accepts m.text)
    (hfront : Front accepts front) (hcurly : NoCurly front) :
    ∃ hp out, ∀ u, ∃ r, Reaches accepts (start (0x7B#8 :: (front ++ (quoted key ++ u)))) r ∧
      In true hp [] out r ∧ r.Behind (quoted key ++ u) := by
  have hopen : ∀ t, ∃ r, Reaches accepts (start (0x7B#8 :: t)) r ∧ In true false [] [0x7B#8] r ∧
      r.cur.rest = t := by
    intro t
    have hprologue : prologue (0x7B#8 :: t) = ⟨none, 0x7B#8 :: t⟩ := by
      have hskip : skipWs ⟨none, 0x7B#8 :: t⟩ = ⟨none, 0x7B#8 :: t⟩ :=
        skipWs_solid (solid_cons rfl t)
      simp [prologue, hskip, startsValue]
    exact @reaches_open accepts true (start (0x7B#8 :: t)) t rfl rfl
      (behind_of_eq (congrArg Cursor.rest hprologue))
  cases hfront with
  | first =>
    refine ⟨false, [0x7B#8], fun u => ?_⟩
    obtain ⟨r, hreaches, hin, hrest⟩ := hopen (quoted key ++ u)
    exact ⟨r, hreaches, hin, behind_of_eq hrest⟩
  | @later ts ms hts =>
    obtain ⟨t', -, hreads⟩ := denotes_reads hstrtod hts hcurly.left
    refine ⟨true, [0x7B#8] ++ t', fun u => ?_⟩
    obtain ⟨r, hreaches, hin, hrest⟩ := hopen (ts ++ [0x2C#8] ++ (quoted key ++ u))
    obtain ⟨r1, hreaches1, hin1, hleft1⟩ := hreads r [] _ (0x2C#8 :: (quoted key ++ u)) hin
      (behind_of_eq (by simp [hrest])) (@follows_comma_object [] _ rfl u)
    obtain ⟨r2, hreaches2, hin2, hrest2⟩ := @reaches_comma accepts true _ _ _ _ _ hin1 hleft1
    exact ⟨r2, (hreaches.trans hreaches1).trans hreaches2, hin2, behind_of_eq hrest2⟩

/-- Full-width colons in a row, a colon of ASCII behind a blank, and a comment in front of the
value. -/
def wideRun : ColonRun where
  gap     := []
  wide    := true
  more    := [([], true), ([0x20#8], false)]
  last    := Text.ascii "/**/"
  gap_ok  := .nil
  more_ok := by simpa using ⟨Gap.nil, Gap.blank rfl .nil⟩
  last_ok := @Gap.block [] [] (by decide) .nil

theorem stringBody_a : StringBody [0x61#8] [0x61] := by
  have h := StringBody.char (show IsPlain 0x61 from ⟨Or.inl (by decide), by decide⟩) .nil
  rwa [show utf8 0x61 = [0x61#8] from rfl] at h

/-- A full-width colon behind a blank: its last two bytes are read as a value. -/
def looseRun : ColonRun where
  gap     := []
  wide    := false
  more    := [([0x20#8], true)]
  last    := []
  gap_ok  := .nil
  more_ok := by simpa using Gap.blank rfl .nil
  last_ok := .nil

end KimixNative.Core
