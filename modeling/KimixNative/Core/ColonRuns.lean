import KimixNative.Core.JsonRepair

/-!
# Blanks and runs of colons

What `skip_ws` goes over, and how the colon state takes a run of colons as one. A full-width
colon behind white space is part of the run too, but the loop goes over its first byte only,
unless it is the first of the run.
-/

namespace KimixNative.Core

open Json

/-! ### Blanks -/

/-- A byte at which `skip_ws` stops. -/
def isSolid (b : Byte) : Bool := decide (b.toNat < 0x80) && !isBlank b && b != 0x2F#8

theorem atUws_ascii {b : Byte} (hb : b.toNat < 0x80) (rest : Bytes) : atUws (b :: rest) = 0 := by
  have hbytes : ∀ a : Byte, 0x80 ≤ a.toNat → b ≠ a := by
    rintro a ha rfl
    omega
  simp [atUws, hbytes 0xC2#8 (by decide), hbytes 0xE2#8 (by decide), hbytes 0xE3#8 (by decide),
    hbytes 0xEF#8 (by decide)]

theorem blankLength_solid {b : Byte} (hb : isSolid b) (rest : Bytes) :
    blankLength (b :: rest) = 0 := by
  simp only [isSolid, Bool.and_eq_true, decide_eq_true_eq, Bool.not_eq_true', bne_iff_ne] at hb
  obtain ⟨⟨hascii, hblank⟩, hslash⟩ := hb
  simp [blankLength, hblank, atUws_ascii hascii, hslash]

/-- The text is over, or goes on with a byte that is neither blank nor a slash. -/
def Solid (t : Bytes) : Prop := ∀ b, t.head? = some b → isSolid b

theorem solid_cons {b : Byte} (hb : isSolid b) (t : Bytes) : Solid (b :: t) := by
  intro b' hb'
  obtain rfl := Option.some.inj hb'
  exact hb

theorem solid_ascii {b : Byte} (h : isSolid b) : b.toNat < 0x80 := by
  simp only [isSolid, Bool.and_eq_true, decide_eq_true_eq] at h
  exact h.1.1

variable {c : Cursor}

theorem skipWs_stop (h : blankLength c.rest = 0) : skipWs c = c := by
  rw [skipWs, if_pos (Or.inr h)]

theorem skipWs_round {n : Nat} (hlen : blankLength c.rest = n) (hn : 0 < n) :
    skipWs c = skipWs (c.skip n) := by
  rw [skipWs, hlen, if_neg]
  rintro (hnil | hzero)
  · simp [hnil, blankLength] at hlen
    omega
  · omega

theorem skipWs_solid (h : Solid c.rest) : skipWs c = c := by
  refine skipWs_stop ?_
  cases hrest : c.rest with
  | nil => rfl
  | cons b t => exact blankLength_solid (h b (by rw [hrest]; rfl)) t

/-- `skip_ws` goes over blanks and no further, and leaves no word in front. -/
theorem skipWs_blank {c : Cursor} {ws t : Bytes} (hws : ws.all isBlank) (hrest : c.rest = ws ++ t)
    (ht : Solid t) : (skipWs c).rest = t ∧ (glued c = false → glued (skipWs c) = false) := by
  induction ws generalizing c with
  | nil =>
    rw [List.nil_append] at hrest
    rw [skipWs_solid (by rw [hrest]; exact ht)]
    exact ⟨hrest, id⟩
  | cons b ws ih =>
    simp only [List.all_cons, Bool.and_eq_true] at hws
    rw [List.cons_append] at hrest
    obtain ⟨hleft, hglued⟩ := @ih (c.skip 1) hws.2 (by simp [hrest])
    rw [skipWs_round (n := 1) (by simp [hrest, blankLength, hws.1]) (by decide)]
    refine ⟨hleft, fun _ => hglued ?_⟩
    have hb := hws.1
    simp only [isBlank, Bool.or_eq_true, beq_iff_eq] at hb
    obtain ((rfl | rfl) | rfl) | rfl := hb <;> simp [glued, Cursor.skip, hrest, isDigit]

/-- The encodings of the invisible and typographic white space. -/
def invisibleSpaces : List Bytes :=
  [[0xC2#8, 0xA0#8], [0xE2#8, 0x80#8, 0x89#8], [0xE2#8, 0x80#8, 0x8B#8], [0xE2#8, 0x80#8, 0x8C#8],
    [0xE2#8, 0x80#8, 0x8D#8], [0xE2#8, 0x80#8, 0xAF#8], [0xE3#8, 0x80#8, 0x80#8],
    [0xEF#8, 0xBB#8, 0xBF#8]]

/-- White space of any kind and comments; the line break behind a line comment is a blank. -/
inductive Gap : Bytes → Prop
  | nil : Gap []
  | blank {b t} (hb : isBlank b) (ht : Gap t) : Gap (b :: t)
  | space {s t} (hs : s ∈ invisibleSpaces) (ht : Gap t) : Gap (s ++ t)
  | line {body t} (hbody : 0x0A#8 ∉ body) (ht : Gap (0x0A#8 :: t)) :
      Gap (0x2F#8 :: 0x2F#8 :: (body ++ 0x0A#8 :: t))
  | block {body t} (hbody : ¬ [0x2A#8, 0x2F#8] <:+: body) (ht : Gap t) :
      Gap (0x2F#8 :: 0x2A#8 :: (body ++ 0x2A#8 :: 0x2F#8 :: t))

theorem gap_of_blank {ws : Bytes} (h : ws.all isBlank) : Gap ws := by
  induction ws with
  | nil => exact .nil
  | cons b ws ih =>
    simp only [List.all_cons, Bool.and_eq_true] at h
    exact .blank h.1 (ih h.2)

theorem blockLength_body {body : Bytes} (h : ¬ [0x2A#8, 0x2F#8] <:+: body) (t : Bytes) :
    blockLength (body ++ 0x2A#8 :: 0x2F#8 :: t) = body.length + 2 := by
  induction body with
  | nil => rfl
  | cons b body ih =>
    have hopen : ¬ (b = 0x2A#8 ∧
        (body ++ 0x2A#8 :: 0x2F#8 :: t).head? = some 0x2F#8) := by
      rintro ⟨rfl, hnext⟩
      cases body with
      | nil => cases hnext
      | cons d body =>
        obtain rfl := Option.some.inj hnext
        exact h (List.prefix_append [0x2A#8, 0x2F#8] body).isInfix
    rw [List.cons_append, blockLength, if_neg hopen,
      ih (fun hin => h (hin.trans (List.suffix_cons b body).isInfix))]
    rfl

/-- One piece of a gap. -/
theorem skipWs_piece {c : Cursor} {s t : Bytes} (hrest : c.rest = s ++ t)
    (hlen : blankLength (s ++ t) = s.length) (hne : s ≠ []) :
    skipWs c = skipWs (c.skip s.length) ∧ (c.skip s.length).rest = t :=
  ⟨skipWs_round (by rw [hrest, hlen]) (List.length_pos_iff.mpr hne), by simp [hrest]⟩

/-- `skip_ws` goes over a gap, and on from what is behind it. -/
theorem skipWs_gap {g : Bytes} (hg : Gap g) {t : Bytes} (hrest : c.rest = g ++ t) :
    ∃ prev, skipWs c = skipWs ⟨prev, t⟩ := by
  induction hg generalizing c with
  | nil => exact ⟨c.prev, by rw [← List.nil_append t, ← hrest]⟩
  | @blank b u hb _ ih =>
    obtain ⟨hskip, hleft⟩ := @skipWs_piece c [b] (u ++ t) hrest (by simp [blankLength, hb]) (by simp)
    rw [hskip]
    exact ih hleft
  | @space s u hs _ ih =>
    rw [List.append_assoc] at hrest
    have hlen : blankLength (s ++ (u ++ t)) = s.length ∧ s ≠ [] := by
      simp only [invisibleSpaces, List.mem_cons, List.not_mem_nil, or_false] at hs
      obtain rfl | rfl | rfl | rfl | rfl | rfl | rfl | rfl := hs <;>
        simp [blankLength, atUws, isBlank]
    obtain ⟨hskip, hleft⟩ := skipWs_piece hrest hlen.1 hlen.2
    rw [hskip]
    exact ih hleft
  | @line body u hbody _ ih =>
    have hsplit : c.rest = (0x2F#8 :: 0x2F#8 :: body) ++ (0x0A#8 :: u ++ t) := by simp [hrest]
    have hline : (body ++ 0x0A#8 :: (u ++ t)).takeWhile (· != 0x0A#8) = body := by
      rw [List.takeWhile_append_of_pos]
      · simp
      · intro b hb
        rw [bne_iff_ne]
        rintro rfl
        exact hbody hb
    obtain ⟨hskip, hleft⟩ := skipWs_piece hsplit
      (by simp [blankLength, isBlank, atUws, hline]; omega) (by simp)
    rw [hskip]
    exact ih hleft
  | @block body u hbody _ ih =>
    have hsplit : c.rest = (0x2F#8 :: 0x2A#8 :: (body ++ [0x2A#8, 0x2F#8])) ++ (u ++ t) := by
      simp [hrest]
    obtain ⟨hskip, hleft⟩ := skipWs_piece hsplit
      (by simp [blankLength, isBlank, atUws, blockLength_body hbody]; omega) (by simp)
    rw [hskip]
    exact ih hleft

/-- A gap does not begin with a colon. -/
theorem Gap.atColon {g : Bytes} (hg : Gap g) (hne : g ≠ []) {c : Cursor} {t : Bytes}
    (hrest : c.rest = g ++ t) : Core.atColon c = false := by
  unfold Core.atColon atFwPunct
  rw [hrest]
  cases hg with
  | nil => exact absurd rfl hne
  | blank hb _ =>
    simp only [isBlank, Bool.or_eq_true, beq_iff_eq] at hb
    obtain ((rfl | rfl) | rfl) | rfl := hb <;> rfl
  | space hs _ =>
    simp only [invisibleSpaces, List.mem_cons, List.not_mem_nil, or_false] at hs
    obtain rfl | rfl | rfl | rfl | rfl | rfl | rfl | rfl := hs <;> rfl
  | line _ _ => rfl
  | block _ _ => rfl

/-! ### Colons -/

/-- How a value begins: with nothing that stands for a colon. -/
def ValueHead (t : Bytes) : Prop :=
  ∃ b u, t = b :: u ∧ isSolid b ∧ b ≠ 0x3A#8 ∧ b ≠ 0x3D#8 ∧
    (b = 0x2D#8 → ∃ d w, u = d :: w ∧ d ≠ 0x3E#8)

theorem ValueHead.solid {t : Bytes} (h : ValueHead t) (rest : Bytes) : Solid (t ++ rest) := by
  obtain ⟨b, u, rfl, hb, -⟩ := h
  exact solid_cons hb _

theorem ValueHead.append {t : Bytes} (h : ValueHead t) (rest : Bytes) : ValueHead (t ++ rest) := by
  obtain ⟨b, u, rfl, hb, hcolon, hequals, hminus⟩ := h
  refine ⟨b, u ++ rest, rfl, hb, hcolon, hequals, ?_⟩
  intro hb'
  obtain ⟨d, w, rfl, hd⟩ := hminus hb'
  exact ⟨d, w ++ rest, rfl, hd⟩

theorem ValueHead.atColon {c : Cursor} (h : ValueHead c.rest) : Core.atColon c = false := by
  obtain ⟨b, u, hrest, hb, hcolon, -⟩ := h
  have hlead : b ≠ 0xEF#8 := by
    rintro rfl
    cases hb
  simp [Core.atColon, atFwPunct, hrest, hcolon, hlead]

theorem ValueHead.skipColonAlias (h : ValueHead c.rest) : Core.skipColonAlias c = c := by
  obtain ⟨b, u, hrest, -, -, hequals, hminus⟩ := h
  rw [Core.skipColonAlias, hrest, if_neg (by simpa using hequals), if_neg ?_]
  intro harrow
  simp only [List.take_succ_cons] at harrow
  obtain ⟨d, w, rfl, hd⟩ := hminus (List.cons.inj harrow).1
  exact hd (List.cons.inj (List.cons.inj harrow).2).1

/-- A colon, full-width or of ASCII. -/
def colonText (wide : Bool) : Bytes := if wide then [0xEF#8, 0xBC#8, 0x9A#8] else [0x3A#8]

/-- Colons, each behind its gap, and the gap behind them. -/
def colonsText (last : Bytes) : List (Bytes × Bool) → Bytes
  | [] => last
  | (g, wide) :: more => g ++ (colonText wide ++ colonsText last more)

/-- A run of colons between a key and its value. -/
structure ColonRun where
  gap     : Bytes
  wide    : Bool
  more    : List (Bytes × Bool)
  last    : Bytes
  gap_ok  : Gap gap
  more_ok : ∀ i ∈ more, Gap i.1
  last_ok : Gap last

def ColonRun.text (run : ColonRun) : Bytes := colonsText run.last ((run.gap, run.wide) :: run.more)

/-- One colon of ASCII. -/
def ColonRun.single {gap last : Bytes} (hgap : Gap gap) (hlast : Gap last) : ColonRun :=
  ⟨gap, false, [], last, hgap, by simp, hlast⟩

/-- Every full-width colon but the first of the run stands right behind a colon. -/
def ColonRun.Tight (run : ColonRun) : Prop := ∀ i ∈ run.more, i.2 = true → i.1 = []

theorem skipWs_colon {c : Cursor} {wide : Bool} {t : Bytes} (hrest : c.rest = colonText wide ++ t) :
    skipWs c = c := by
  refine skipWs_stop ?_
  rw [hrest]
  cases wide <;> rfl

theorem skipColon_colon {c : Cursor} {wide : Bool} {t : Bytes}
    (hrest : c.rest = colonText wide ++ t) : atColon c = true ∧ (skipColon c).rest = t := by
  cases wide <;> simp [atColon, atFwPunct, skipColon, colonText, hrest]

/-- The loop goes over what is left of a run. -/
theorem colonLoop_run {last t : Bytes} {more : List (Bytes × Bool)} (hmore : ∀ i ∈ more, Gap i.1)
    (htight : ∀ i ∈ more, i.2 = true → i.1 = []) (hlast : Gap last) (ht : ValueHead t)
    (hrest : c.rest = colonsText last more ++ t) : (skipWs (colonLoop c)).rest = t := by
  induction more generalizing c with
  | nil =>
    obtain ⟨prev, hskip⟩ := skipWs_gap hlast hrest
    have hvalue : skipWs c = ⟨prev, t⟩ := hskip.trans (skipWs_solid (by simpa using ht.solid []))
    have hnear : atColon c = false := by
      by_cases hnil : last = []
      · refine ValueHead.atColon ?_
        rw [hrest, hnil]
        exact ht
      · exact hlast.atColon hnil hrest
    rw [colonLoop, dif_neg (by simp [hnear]),
      dif_neg (by rw [hvalue]; simp [@ValueHead.atColon ⟨prev, t⟩ ht]), hvalue]
  | cons i more ih =>
    obtain ⟨g, wide⟩ := i
    rw [List.forall_mem_cons] at hmore htight
    have hsplit : c.rest = g ++ (colonText wide ++ (colonsText last more ++ t)) := by
      simp [hrest, colonsText]
    by_cases hg : g = []
    · rw [hg, List.nil_append] at hsplit
      obtain ⟨hat, hleft⟩ := skipColon_colon hsplit
      rw [colonLoop, dif_pos hat]
      exact ih hmore.2 htight.2 hleft
    · -- only a colon of ASCII is taken whole behind a gap
      obtain rfl : wide = false := by simpa [hg] using htight.1
      obtain ⟨prev, hskip⟩ := skipWs_gap hmore.1 hsplit
      rw [@skipWs_colon ⟨prev, _⟩ false _ rfl] at hskip
      rw [colonLoop, dif_neg (by simp [hmore.1.atColon hg hsplit]), hskip,
        dif_pos (skipColon_colon rfl).1]
      exact ih hmore.2 htight.2 rfl

/-- From behind a key to its value. -/
theorem skipColon_run (run : ColonRun) (htight : run.Tight) {t : Bytes}
    (hrest : c.rest = run.text ++ t) (ht : ValueHead t) : (skipWs c).rest ≠ [] ∧
      (skipColonAlias (skipWs (colonLoop (skipColon (skipWs c))))).rest = t := by
  have hsplit : c.rest =
      run.gap ++ (colonText run.wide ++ (colonsText run.last run.more ++ t)) := by
    simp [hrest, ColonRun.text, colonsText]
  obtain ⟨prev, hskip⟩ := skipWs_gap run.gap_ok hsplit
  rw [@skipWs_colon ⟨prev, _⟩ run.wide _ rfl] at hskip
  obtain ⟨hat, hleft⟩ := @skipColon_colon (skipWs c) run.wide _ (by rw [hskip])
  have hvalue := colonLoop_run run.more_ok htight run.last_ok ht hleft
  refine ⟨List.length_pos_iff.mp (atColon_pos hat), ?_⟩
  rw [ValueHead.skipColonAlias (by rw [hvalue]; exact ht)]
  exact hvalue

end KimixNative.Core
