import KimixNative.Tools.LineDecoding
import Mathlib.Data.List.Forall2

/-!
# Where lines end

The read tool and the runtime end a line at a newline only, the edit tool at any of eleven
separators. They cut a text alike exactly when a separator of another kind stands at most at
the very end.
-/

namespace KimixNative.Tools

open Text

/-- Separators other than the newline, with or without a carriage return in front of it, stand
at most at the very end. -/
def OnlyNewlines (text : Bytes) : Prop :=
  ∀ before c after, text = before ++ c :: after →
    separatorLength c after = 0 ∨ c = newline ∨
      (c = carriageReturn ∧ after.head? = some newline) ∨
      after.length + 1 = separatorLength c after

variable {rest text : Bytes}

theorem OnlyNewlines.tail {c : Byte} (h : OnlyNewlines (c :: rest)) : OnlyNewlines rest :=
  fun before c' after heq => h (c :: before) c' after (by rw [heq]; rfl)

/-! ### The separators -/

/-- What a separator of another kind is made of. -/
structure LoneSeparator (c : Byte) (tail : Bytes) : Prop where
  not_newline : c ≠ newline
  newline_notMem : newline ∉ tail
  inert : ∀ b ∈ tail, ∀ rest, separatorLength b rest = 0
  blank : BlankTail (c :: tail)

/-- The five kinds of place: within a line, at a newline, at a carriage return before one, or at
a separator of another kind, which has `tail` as its further bytes. -/
inductive Break (c : Byte) (rest : Bytes) : Prop where
  | inLine (hlen : separatorLength c rest = 0) (hne : c ≠ newline)
  | newline (hlen : separatorLength c rest = 1) (heq : c = newline)
  | crlf (hlen : separatorLength c rest = 2) (heq : c = carriageReturn) (more : Bytes)
      (hrest : rest = Tools.newline :: more)
  | lone (tail more : Bytes) (hrest : rest = tail ++ more)
      (hlen : separatorLength c rest = tail.length + 1) (hsep : LoneSeparator c tail)
      (hcr : ¬(c = carriageReturn ∧ rest.head? = some Tools.newline))

theorem blankTail_of_decide (h : text.head?.all (fun y => !isContinuation y) = true)
    (hkept : kept decodeCp text = []) (hsignificant : significant decodeCp text = false) :
    BlankTail text := by
  refine ⟨fun y hy => ?_, hkept, hsignificant⟩
  rw [hy] at h
  simpa using h

theorem inert_nil : ∀ b ∈ ([] : Bytes), ∀ rest, separatorLength b rest = 0 :=
  fun _ hb => absurd hb List.not_mem_nil

/-- A byte that begins no separator, whatever follows. -/
theorem inert_of_all {tail : Bytes}
    (h : tail.all (fun b => b ∉ [newline, carriageReturn, 0x0B#8, 0x0C#8, 0x1C#8, 0x1D#8, 0x1E#8,
      0xC2#8, 0xE2#8]) = true) :
    ∀ b ∈ tail, ∀ rest, separatorLength b rest = 0 := by
  intro b hb rest
  have hout := of_decide_eq_true (List.all_eq_true.mp h b hb)
  simp only [List.mem_cons, List.not_mem_nil, or_false, not_or] at hout
  simp only [separatorLength, hout, if_false, false_or, false_and]

theorem break_cases (c : Byte) (rest : Bytes) : Break c rest := by
  by_cases hnl : c = newline
  · subst hnl
    exact .newline rfl rfl
  by_cases hcr : c = carriageReturn
  · subst hcr
    cases rest with
    | nil =>
      exact .lone [] [] rfl rfl ⟨by decide, List.not_mem_nil, inert_nil,
        blankTail_carriageReturn⟩ (by decide)
    | cons d more =>
      by_cases hd : d = newline
      · subst hd
        exact .crlf rfl rfl more rfl
      · have hhead : ¬(d :: more).head? = some newline := fun h => hd (Option.some.inj h)
        refine .lone [] (d :: more) rfl ?_ ⟨by decide, List.not_mem_nil, inert_nil,
        blankTail_carriageReturn⟩
          (fun h => hhead h.2)
        rw [separatorLength, if_neg hnl, if_pos rfl, if_neg hhead]
        rfl
  by_cases hcontrol : c = 0x0B#8 ∨ c = 0x0C#8 ∨ c = 0x1C#8 ∨ c = 0x1D#8 ∨ c = 0x1E#8
  · refine .lone [] rest rfl ?_ ⟨hnl, List.not_mem_nil, inert_nil, ?_⟩ (fun h => hcr h.1)
    · rw [separatorLength, if_neg hnl, if_neg hcr, if_pos hcontrol]
      rfl
    · rcases hcontrol with rfl | rfl | rfl | rfl | rfl <;>
        exact blankTail_of_decide (by decide) (by decide) (by decide +kernel)
  by_cases hnel : c = 0xC2#8 ∧ rest.head? = some 0x85#8
  · obtain ⟨rfl, hhead⟩ := hnel
    obtain ⟨more, rfl⟩ := List.head?_eq_some_iff.mp hhead
    exact .lone [0x85#8] more rfl rfl ⟨hnl, by decide,
      inert_of_all (by decide), blankTail_of_decide (by decide) (by decide) (by decide +kernel)⟩ (fun h => hcr h.1)
  by_cases hls : c = 0xE2#8 ∧ rest.head? = some 0x80#8 ∧
      (rest[1]? = some 0xA8#8 ∨ rest[1]? = some 0xA9#8)
  · obtain ⟨rfl, hhead, hlast⟩ := hls
    obtain ⟨more, rfl⟩ := List.head?_eq_some_iff.mp hhead
    rw [List.getElem?_cons_succ] at hlast
    cases more with
    | nil => simp at hlast
    | cons e more =>
      simp only [List.getElem?_cons_zero, Option.some.injEq] at hlast
      rcases hlast with rfl | rfl
      · exact .lone [0x80#8, 0xA8#8] more rfl rfl ⟨hnl, by decide,
          inert_of_all (by decide), blankTail_of_decide (by decide) (by decide) (by decide +kernel)⟩
          (fun h => hcr h.1)
      · exact .lone [0x80#8, 0xA9#8] more rfl rfl ⟨hnl, by decide,
          inert_of_all (by decide), blankTail_of_decide (by decide) (by decide) (by decide +kernel)⟩
          (fun h => hcr h.1)
  · refine .inLine ?_ hnl
    rw [separatorLength, if_neg hnl, if_neg hcr, if_neg hcontrol, if_neg hnel, if_neg hls]

/-! ### One step of each loop -/

theorem splitLinesFrom_skip (skipped rest : Bytes) (line : Bytes) :
    splitLinesFrom skipped.length line (skipped ++ rest) = splitLinesFrom 0 line rest := by
  induction skipped with
  | nil => rfl
  | cons b skipped ih => exact ih

theorem splitLinesFrom_inLine {c : Byte} (h : separatorLength c rest = 0) (line : Bytes) :
    splitLinesFrom 0 line (c :: rest) = splitLinesFrom 0 (line ++ [c]) rest := by
  rw [splitLinesFrom, h]

theorem splitLinesFrom_separator {c : Byte} {tail more : Bytes}
    (h : separatorLength c (tail ++ more) = tail.length + 1) (line : Bytes) :
    splitLinesFrom 0 line (c :: (tail ++ more)) = line :: splitLinesFrom 0 [] more := by
  rw [splitLinesFrom, h]
  exact congrArg (line :: ·) (splitLinesFrom_skip tail more [])

theorem newlineLinesFrom_newline (line rest : Bytes) :
    newlineLinesFrom line (newline :: rest) = line :: newlineLinesFrom [] rest := if_pos rfl

theorem newlineLinesFrom_run {run : Bytes} (h : newline ∉ run) (line rest : Bytes) :
    newlineLinesFrom line (run ++ rest) = newlineLinesFrom (line ++ run) rest := by
  induction run generalizing line with
  | nil => rw [List.nil_append, List.append_nil]
  | cons b run ih =>
    obtain ⟨hb, hrun⟩ := not_or.mp (mt List.mem_cons.mpr h)
    rw [List.cons_append, newlineLinesFrom, if_neg (fun heq => hb heq.symm), ih hrun,
      List.append_assoc, List.singleton_append]

/-! ### Lines that differ by what is blank at their end -/

/-- A line and the same line with blanks behind it. -/
def Trails (line shorter : Bytes) : Prop := ∃ tail, BlankTail tail ∧ line = shorter ++ tail

theorem Trails.refl (line : Bytes) : Trails line line :=
  ⟨[], blankTail_nil, (List.append_nil line).symm⟩

theorem Trails.trans {a b c : Bytes} (hab : Trails a b) (hbc : Trails b c) : Trails a c := by
  obtain ⟨t, ht, rfl⟩ := hab
  obtain ⟨u, hu, rfl⟩ := hbc
  exact ⟨u ++ t, hu.append ht, List.append_assoc c u t⟩

theorem trails_trans {xs ys zs : List Bytes} (hxy : List.Forall₂ Trails xs ys)
    (hyz : List.Forall₂ Trails ys zs) : List.Forall₂ Trails xs zs := by
  induction hxy generalizing zs with
  | nil => exact hyz
  | cons hhead _ ih =>
    cases hyz with
    | cons hhead' htail' => exact .cons (hhead.trans hhead') (ih htail')

/-- Normalising the newlines takes at most blanks off the lines. -/
theorem newlineLines_normalize (content : Bytes) (line : Bytes) :
    List.Forall₂ Trails (newlineLinesFrom line content)
      (newlineLinesFrom line (normalizeNewlines content)) := by
  induction content generalizing line with
  | nil =>
    rw [normalizeNewlines]
    exact List.forall₂_same.mpr fun l _ => Trails.refl l
  | cons b rest ih =>
    rw [normalizeNewlines]
    by_cases hcrlf : b = carriageReturn ∧ rest.head? = some newline
    · obtain ⟨rfl, hhead⟩ := hcrlf
      obtain ⟨more, rfl⟩ := List.head?_eq_some_iff.mp hhead
      have hrest := ih line
      have hnorm : normalizeNewlines (newline :: more) = newline :: normalizeNewlines more := by
        rw [normalizeNewlines, if_neg (fun h => absurd h.1 (by decide))]
      rw [hnorm, newlineLinesFrom_newline, newlineLinesFrom_newline] at hrest
      rw [if_pos ⟨rfl, rfl⟩, hnorm, newlineLinesFrom_newline, newlineLinesFrom,
        if_neg (by decide), newlineLinesFrom_newline]
      exact .cons ⟨[carriageReturn], blankTail_carriageReturn, rfl⟩ (List.forall₂_cons.mp hrest).2
    · rw [if_neg hcrlf]
      by_cases hnl : b = newline
      · subst hnl
        rw [newlineLinesFrom_newline, newlineLinesFrom_newline]
        exact .cons (Trails.refl line) (ih [])
      · rw [newlineLinesFrom, if_neg hnl, newlineLinesFrom, if_neg hnl]
        exact ih (line ++ [b])

/-- Where only newlines separate, the edit tool's lines are the others without blanks at the
end. -/
theorem splitLines_trails (h : OnlyNewlines text) (line : Bytes) :
    List.Forall₂ Trails (newlineLinesFrom line text) (splitLinesFrom 0 line text) := by
  induction hn : text.length using Nat.strongRecOn generalizing text line with
  | _ n ih =>
    cases text with
    | nil =>
      rw [newlineLinesFrom, splitLinesFrom]
      exact List.forall₂_same.mpr fun l _ => Trails.refl l
    | cons c rest =>
      rw [List.length_cons] at hn
      cases break_cases c rest with
      | inLine hlen hne =>
        rw [splitLinesFrom_inLine hlen, newlineLinesFrom, if_neg hne]
        exact ih _ (by omega) h.tail _ rfl
      | newline hlen heq =>
        subst heq
        rw [newlineLinesFrom_newline]
        have hsplit := @splitLinesFrom_separator newline [] rest hlen line
        rw [List.nil_append] at hsplit
        rw [hsplit]
        exact .cons (Trails.refl line) (ih _ (by omega) h.tail _ rfl)
      | crlf hlen heq more hrest =>
        subst heq hrest
        rw [List.length_cons] at hn
        have hsplit := @splitLinesFrom_separator carriageReturn [newline] more hlen line
        rw [List.singleton_append] at hsplit
        rw [hsplit, newlineLinesFrom, if_neg (by decide), newlineLinesFrom_newline]
        exact .cons ⟨[carriageReturn], blankTail_carriageReturn, rfl⟩
          (ih _ (by omega) h.tail.tail _ rfl)
      | lone tail more hrest hlen hsep hcr =>
        subst hrest
        -- the text ends with this separator
        obtain rfl : more = [] := by
          rcases h [] c (tail ++ more) rfl with hzero | heq | hcrlf | hend
          · omega
          · exact absurd heq hsep.not_newline
          · exact absurd hcrlf hcr
          · rw [hlen, List.length_append] at hend
            exact List.eq_nil_of_length_eq_zero (by omega)
        rw [splitLinesFrom_separator hlen, newlineLinesFrom, if_neg hsep.not_newline,
          newlineLinesFrom_run hsep.newline_notMem, newlineLinesFrom, splitLinesFrom,
          if_pos rfl, if_neg (by simp)]
        refine .cons ⟨c :: tail, hsep.blank, ?_⟩ .nil
        rw [List.append_assoc, List.singleton_append]

/-! ### How many lines there are -/

theorem OnlyNewlines.cons {c : Byte} {rest : Bytes}
    (hc : separatorLength c rest = 0 ∨ c = newline ∨
      (c = carriageReturn ∧ rest.head? = some newline) ∨
      rest.length + 1 = separatorLength c rest)
    (h : OnlyNewlines rest) : OnlyNewlines (c :: rest) := by
  intro before b after heq
  cases before with
  | nil =>
    obtain ⟨rfl, rfl⟩ := List.cons.inj heq
    exact hc
  | cons a before =>
    obtain ⟨rfl, rfl⟩ := List.cons.inj heq
    exact h before b after rfl

theorem onlyNewlines_of_inert (h : ∀ b ∈ text, ∀ rest, separatorLength b rest = 0) :
    OnlyNewlines text := by
  rintro before c after rfl
  exact Or.inl (h c (List.mem_append_right _ List.mem_cons_self) after)

/-- The edit tool finds no fewer lines, and more where another separator stands within the text.
A line that has been begun by the others only makes up for one that the edit tool has ended. -/
theorem length_newlineLinesFrom_le (text : Bytes) :
    (∀ line line' : Bytes, (line = [] ↔ line' = []) →
      (newlineLinesFrom line' text).length ≤ (splitLinesFrom 0 line text).length ∧
        ((newlineLinesFrom line' text).length = (splitLinesFrom 0 line text).length →
          OnlyNewlines text)) ∧
      ∀ line' : Bytes, text ≠ [] →
        (newlineLinesFrom line' text).length ≤ (splitLinesFrom 0 [] text).length := by
  induction hn : text.length using Nat.strongRecOn generalizing text with
  | _ n ih =>
    cases text with
    | nil =>
      refine ⟨fun line line' hline => ⟨?_, fun _ => ?_⟩, fun line' hne => absurd rfl hne⟩
      · simp only [newlineLinesFrom, splitLinesFrom, hline]
        split
        · exact Nat.le_refl 0
        · exact Nat.le_refl 1
      · exact onlyNewlines_of_inert inert_nil
    | cons c rest =>
      rw [List.length_cons] at hn
      cases break_cases c rest with
      | inLine hlen hne =>
        obtain ⟨hsame, -⟩ := ih _ (by omega) rest rfl
        have hstep : ∀ line line' : Bytes,
            (newlineLinesFrom line' (c :: rest)).length ≤
              (splitLinesFrom 0 line (c :: rest)).length ∧
            ((newlineLinesFrom line' (c :: rest)).length =
              (splitLinesFrom 0 line (c :: rest)).length → OnlyNewlines rest) := by
          intro line line'
          rw [splitLinesFrom_inLine hlen, newlineLinesFrom, if_neg hne]
          exact hsame _ _ (by simp)
        exact ⟨fun line line' _ => ⟨(hstep line line').1,
          fun heq => ((hstep line line').2 heq).cons (Or.inl hlen)⟩,
          fun line' _ => (hstep [] line').1⟩
      | newline hlen heq =>
        subst heq
        obtain ⟨hsame, -⟩ := ih _ (by omega) rest rfl
        have hsplit : ∀ line, splitLinesFrom 0 line (newline :: rest) =
            line :: splitLinesFrom 0 [] rest :=
          fun line => @splitLinesFrom_separator newline [] rest hlen line
        refine ⟨fun line line' _ => ?_, fun line' _ => ?_⟩
        · rw [hsplit, newlineLinesFrom_newline, List.length_cons, List.length_cons]
          obtain ⟨hle, honly⟩ := hsame [] [] Iff.rfl
          exact ⟨by omega, fun heq => (honly (by omega)).cons (Or.inr (Or.inl rfl))⟩
        · rw [hsplit, newlineLinesFrom_newline, List.length_cons, List.length_cons]
          have := (hsame [] [] Iff.rfl).1
          omega
      | crlf hlen heq more hrest =>
        subst heq hrest
        rw [List.length_cons] at hn
        obtain ⟨hsame, -⟩ := ih _ (by omega) more rfl
        have hsplit : ∀ line, splitLinesFrom 0 line (carriageReturn :: newline :: more) =
            line :: splitLinesFrom 0 [] more :=
          fun line => @splitLinesFrom_separator carriageReturn [newline] more hlen line
        have hnewline : ∀ line, newlineLinesFrom line (carriageReturn :: newline :: more) =
            (line ++ [carriageReturn]) :: newlineLinesFrom [] more := fun line => by
          rw [newlineLinesFrom, if_neg (by decide), newlineLinesFrom_newline]
        refine ⟨fun line line' _ => ?_, fun line' _ => ?_⟩
        · rw [hsplit, hnewline, List.length_cons, List.length_cons]
          obtain ⟨hle, honly⟩ := hsame [] [] Iff.rfl
          exact ⟨by omega, fun heq =>
            ((honly (by omega)).cons (Or.inr (Or.inl rfl))).cons
              (Or.inr (Or.inr (Or.inl ⟨rfl, rfl⟩)))⟩
        · rw [hsplit, hnewline, List.length_cons, List.length_cons]
          have := (hsame [] [] Iff.rfl).1
          omega
      | lone tail more hrest hlen hsep hcr =>
        subst hrest
        rw [List.length_append] at hn
        obtain ⟨-, hbehind⟩ := ih _ (by omega) more rfl
        have hnewline : ∀ line, newlineLinesFrom line (c :: (tail ++ more)) =
            newlineLinesFrom (line ++ [c] ++ tail) more := fun line => by
          rw [newlineLinesFrom, if_neg hsep.not_newline,
            newlineLinesFrom_run hsep.newline_notMem]
        have hstep : ∀ line line' : Bytes,
            (newlineLinesFrom line' (c :: (tail ++ more))).length ≤
              (splitLinesFrom 0 line (c :: (tail ++ more))).length ∧
            ((newlineLinesFrom line' (c :: (tail ++ more))).length =
              (splitLinesFrom 0 line (c :: (tail ++ more))).length → more = []) := by
          intro line line'
          rw [splitLinesFrom_separator hlen, hnewline, List.length_cons]
          cases more with
          | nil => simp [newlineLinesFrom, splitLinesFrom]
          | cons d more =>
            have := hbehind (line' ++ [c] ++ tail) (List.cons_ne_nil d more)
            exact ⟨by omega, fun heq => by omega⟩
        refine ⟨fun line line' _ => ⟨(hstep line line').1, fun heq => ?_⟩,
          fun line' _ => (hstep [] line').1⟩
        obtain rfl := (hstep line line').2 heq
        rw [List.append_nil] at hlen ⊢
        exact (onlyNewlines_of_inert hsep.inert).cons (Or.inr (Or.inr (Or.inr hlen.symm)))

end KimixNative.Tools
