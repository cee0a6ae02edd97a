import KimixNative.Stream.Ansi

/-!
# The escapes that are removed

The expression the stripper stands for, as a function and as a relation. `deleteEscapes` tries
the alternatives at an ESC in their order: a terminated string, a two-byte sequence, a complete
control sequence. `Deletes` removes from left to right the longest escape at each ESC. The
machine computes both, for every way of cutting the input into chunks.
-/

namespace KimixNative.Stream

/-! ## The alternatives -/

/-- What follows the end of a string, BEL or ESC `\`, if it has one. -/
def afterTerminator (text : Bytes) : Option Bytes :=
  match text.dropWhile isContent with
  | [] => none
  | b :: rest =>
    if b = BEL then some rest
    else
      match rest with
      | [] => none
      | c :: rest' => if c = 0x5C#8 then some rest' else none

/-- What follows the string that the bytes after an ESC begin with. -/
def afterString : Bytes → Option Bytes
  | [] => none
  | i :: rest => if isIntroducer i then afterTerminator rest else none

/-- What follows the two-byte sequence. -/
def afterFe : Bytes → Option Bytes
  | [] => none
  | b :: rest => if isFeByte b then some rest else none

/-- What follows the control sequence. -/
def afterCsi : Bytes → Option Bytes
  | [] => none
  | b :: rest =>
    if b = 0x5B#8 then
      match (rest.dropWhile isParam).dropWhile isIntermediate with
      | [] => none
      | f :: rest' => if isFinal f then some rest' else none
    else none

def afterEscape (rest : Bytes) : Option Bytes :=
  afterString rest <|> afterFe rest <|> afterCsi rest

/-- A terminated string. -/
inductive IsString : Bytes → Prop
  | bel {i content} (hi : isIntroducer i) (hcontent : content.all isContent) :
      IsString (ESC :: i :: (content ++ [BEL]))
  | st {i content} (hi : isIntroducer i) (hcontent : content.all isContent) :
      IsString (ESC :: i :: (content ++ [ESC, 0x5C#8]))

/-- A two-byte sequence. -/
inductive IsFe : Bytes → Prop
  | mk {b} (hb : isFeByte b) : IsFe [ESC, b]

/-- A complete control sequence. -/
inductive IsCsi : Bytes → Prop
  | mk {params inter f} (hparams : params.all isParam) (hinter : inter.all isIntermediate)
      (hfinal : isFinal f) : IsCsi (ESC :: 0x5B#8 :: (params ++ (inter ++ [f])))

def IsEscape (e : Bytes) : Prop := IsString e ∨ IsFe e ∨ IsCsi e

variable {e content : Bytes}

theorem IsEscape.head (h : IsEscape e) : ∃ b e', e = ESC :: b :: e' := by
  obtain h | h | h := h <;> cases h <;> exact ⟨_, _, rfl⟩

theorem dropWhile_all_append {p : Byte → Bool} {xs : Bytes} (hxs : xs.all p) (ys : Bytes) :
    (xs ++ ys).dropWhile p = ys.dropWhile p :=
  List.dropWhile_append_of_pos (by simpa using hxs)

theorem afterTerminator_bel (h : content.all isContent) (rest : Bytes) :
    afterTerminator (content ++ BEL :: rest) = some rest := by
  simp [afterTerminator, dropWhile_all_append h, isContent]

theorem afterTerminator_st (h : content.all isContent) (rest : Bytes) :
    afterTerminator (content ++ ESC :: 0x5C#8 :: rest) = some rest := by
  simp [afterTerminator, dropWhile_all_append h, isContent,
    show ESC ≠ BEL by decide]

variable {b : Byte} {text : Bytes}

/-- A string interrupted by an ESC that does not end it. -/
theorem afterTerminator_interrupted (h : content.all isContent) (hb : b ≠ 0x5C#8) (rest : Bytes) :
    afterTerminator (content ++ ESC :: b :: rest) = none := by
  simp only [afterTerminator, dropWhile_all_append h]
  simp [isContent, show ESC ≠ BEL by decide]
  exact hb

theorem afterTerminator_open (h : content.all isContent) : afterTerminator content = none := by
  have hdrop := dropWhile_all_append h []
  rw [List.append_nil] at hdrop
  simp [afterTerminator, hdrop]

theorem afterTerminator_cut (h : content.all isContent) :
    afterTerminator (content ++ [ESC]) = none := by
  simp [afterTerminator, dropWhile_all_append h, isContent,
    show ESC ≠ BEL by decide]

theorem split_dropWhile (p : Byte → Bool) (text : Bytes) :
    ∃ run : Bytes, run.all p ∧ text = run ++ text.dropWhile p :=
  ⟨text.takeWhile p, List.all_takeWhile, (List.takeWhile_append_dropWhile).symm⟩

variable {rest : Bytes}

theorem string_of_afterString (h : afterString text = some rest) :
    ∃ e, IsString (ESC :: e) ∧ text = e ++ rest := by
  cases text with
  | nil => cases h
  | cons i text =>
    simp only [afterString, Option.ite_none_right_eq_some] at h
    obtain ⟨hi, h⟩ := h
    obtain ⟨content, hcontent, hsplit⟩ := split_dropWhile isContent text
    have hhead := List.head?_dropWhile_not isContent text
    unfold afterTerminator at h
    cases hdrop : text.dropWhile isContent with
    | nil => simp [hdrop] at h
    | cons b tail =>
      rw [hdrop] at h hsplit hhead
      by_cases hb : b = BEL
      · simp only [hb, if_true, Option.some_inj] at h
        exact ⟨_, .bel hi hcontent, by simp [hsplit, hb, h]⟩
      · have hesc : b = ESC := by simpa [isContent, hb] using hhead
        cases tail with
        | nil => simp [hb] at h
        | cons c tail =>
          simp only [hb, if_false, Option.ite_none_right_eq_some, Option.some_inj] at h
          exact ⟨_, .st hi hcontent, by simp [hsplit, hesc, h.1, h.2]⟩

theorem afterString_of_string (h : IsString (ESC :: e)) (rest : Bytes) :
    afterString (e ++ rest) = some rest := by
  cases h with
  | bel hi hcontent =>
    simpa [afterString, hi] using afterTerminator_bel hcontent rest
  | st hi hcontent =>
    simpa [afterString, hi] using afterTerminator_st hcontent rest

theorem fe_of_afterFe (h : afterFe text = some rest) : ∃ e, IsFe (ESC :: e) ∧ text = e ++ rest := by
  cases text with
  | nil => cases h
  | cons b text =>
    simp only [afterFe, Option.ite_none_right_eq_some, Option.some_inj] at h
    exact ⟨[b], .mk h.1, by simp [h.2]⟩

theorem afterFe_of_fe (h : IsFe (ESC :: e)) (rest : Bytes) : afterFe (e ++ rest) = some rest := by
  cases h with
  | mk hb => simp [afterFe, hb]

theorem csi_of_afterCsi (h : afterCsi text = some rest) :
    ∃ e, IsCsi (ESC :: e) ∧ text = e ++ rest := by
  cases text with
  | nil => cases h
  | cons b text =>
    simp only [afterCsi, Option.ite_none_right_eq_some] at h
    obtain ⟨rfl, h⟩ := h
    obtain ⟨params, hparams, hsplit⟩ := split_dropWhile isParam text
    obtain ⟨inter, hinter, hsplit'⟩ := split_dropWhile isIntermediate (text.dropWhile isParam)
    cases hdrop : (text.dropWhile isParam).dropWhile isIntermediate with
    | nil => simp [hdrop] at h
    | cons f tail =>
      simp only [hdrop, Option.ite_none_right_eq_some, Option.some_inj] at h
      obtain ⟨hfinal, rfl⟩ := h
      rw [hdrop] at hsplit'
      rw [hsplit'] at hsplit
      exact ⟨_, .mk hparams hinter hfinal, by simp [hsplit]⟩

theorem final_class {f : Byte} (h : isFinal f = true) :
    isParam f = false ∧ isIntermediate f = false := by
  simp only [isFinal, isParam, isIntermediate, Bool.and_eq_true, Bool.and_eq_false_iff,
    decide_eq_true_eq, decide_eq_false_iff_not, BitVec.le_def, BitVec.reduceToNat,
    BitVec.ofNat_eq_ofNat] at *
  omega

theorem intermediate_not_param (h : isIntermediate b = true) : isParam b = false := by
  simp only [isParam, isIntermediate, Bool.and_eq_true, Bool.and_eq_false_iff,
    decide_eq_true_eq, decide_eq_false_iff_not, BitVec.le_def, BitVec.reduceToNat,
    BitVec.ofNat_eq_ofNat] at *
  omega

/-- The first byte that is neither a parameter nor an intermediate in its place. -/
theorem dropWhile_csi {params inter : Bytes} (hparams : params.all isParam)
    (hinter : inter.all isIntermediate) (hb : inter = [] → isParam b = false)
    (hb' : isIntermediate b = false) (rest : Bytes) :
    ((params ++ (inter ++ b :: rest)).dropWhile isParam).dropWhile isIntermediate = b :: rest := by
  have hhead : (inter ++ b :: rest).dropWhile isParam = inter ++ b :: rest := by
    cases inter with
    | nil => exact List.dropWhile_cons_of_neg (by simp [hb rfl])
    | cons c inter =>
      have hc : isIntermediate c = true := by
        simp only [List.all_cons, Bool.and_eq_true] at hinter
        exact hinter.1
      exact List.dropWhile_cons_of_neg (by simp [intermediate_not_param hc])
  rw [dropWhile_all_append hparams, hhead, dropWhile_all_append hinter]
  exact List.dropWhile_cons_of_neg (by simp [hb'])

theorem afterCsi_of_csi (h : IsCsi (ESC :: e)) (rest : Bytes) :
    afterCsi (e ++ rest) = some rest := by
  cases h with
  | mk hparams hinter hfinal =>
    obtain ⟨hparam, hintermediate⟩ := final_class hfinal
    have hdrop := dropWhile_csi hparams hinter (fun _ => hparam) hintermediate rest
    simp [afterCsi, List.append_assoc, hdrop, hfinal]

/-- A control sequence that breaks off at `b`. -/
theorem afterCsi_broken {params inter : Bytes} (hparams : params.all isParam)
    (hinter : inter.all isIntermediate) (hb : inter = [] → isParam b = false)
    (hb' : isIntermediate b = false) (hfinal : isFinal b = false) (rest : Bytes) :
    afterCsi (0x5B#8 :: (params ++ (inter ++ b :: rest))) = none := by
  have hdrop := dropWhile_csi hparams hinter hb hb' rest
  simp [afterCsi, hdrop, hfinal]

theorem afterCsi_open {params inter : Bytes} (hparams : params.all isParam)
    (hinter : inter.all isIntermediate) : afterCsi (0x5B#8 :: (params ++ inter)) = none := by
  have hhead : inter.dropWhile isParam = inter := by
    cases inter with
    | nil => rfl
    | cons c inter =>
      have hc : isIntermediate c = true := by
        simp only [List.all_cons, Bool.and_eq_true] at hinter
        exact hinter.1
      exact List.dropWhile_cons_of_neg (by simp [intermediate_not_param hc])
  have hdrop : inter.dropWhile isIntermediate = [] := by
    simpa using dropWhile_all_append hinter []
  simp [afterCsi, dropWhile_all_append hparams, hhead, hdrop]

/-! ## The choice at an ESC -/

theorem introducer_isFe {i : Byte} (h : isIntroducer i = true) : isFeByte i = true := by
  simp only [isIntroducer, isDcsLike, Bool.or_eq_true, beq_iff_eq] at h
  obtain rfl | (rfl | rfl) | rfl := h <;> decide

theorem afterString_csi (text : Bytes) : afterString (0x5B#8 :: text) = none := by
  simp [afterString, isIntroducer, isDcsLike]

theorem afterFe_csi (text : Bytes) : afterFe (0x5B#8 :: text) = none := by
  simp [afterFe, isFeByte]

theorem afterEscape_of_string (h : IsString (ESC :: e)) (rest : Bytes) :
    afterEscape (e ++ rest) = some rest := by
  simp [afterEscape, afterString_of_string h]

theorem afterEscape_of_csi (h : IsCsi (ESC :: e)) (rest : Bytes) :
    afterEscape (e ++ rest) = some rest := by
  have hcsi := afterCsi_of_csi h rest
  cases h with
  | mk =>
    simpa [afterEscape, afterString_csi, afterFe_csi] using hcsi

theorem escape_of_afterEscape (h : afterEscape text = some rest) :
    ∃ e, IsEscape (ESC :: e) ∧ text = e ++ rest := by
  rw [afterEscape, Option.orElse_eq_some, Option.orElse_eq_some] at h
  obtain h | ⟨-, h | ⟨-, h⟩⟩ := h
  · obtain ⟨e, he, htext⟩ := string_of_afterString h
    exact ⟨e, .inl he, htext⟩
  · obtain ⟨e, he, htext⟩ := fe_of_afterFe h
    exact ⟨e, .inr (.inl he), htext⟩
  · obtain ⟨e, he, htext⟩ := csi_of_afterCsi h
    exact ⟨e, .inr (.inr he), htext⟩

/-- No escape at an ESC is longer than the one that is found. -/
theorem length_le_of_afterEscape {e' : Bytes} (h : afterEscape (e ++ rest) = some rest)
    (he : IsEscape (ESC :: e)) (he' : IsEscape (ESC :: e')) (hinitial : e' <+: e ++ rest) :
    e'.length ≤ e.length := by
  obtain ⟨rest', hrest'⟩ := hinitial
  have hlength := congrArg List.length hrest'
  simp only [List.length_append] at hlength
  have hsame : afterEscape (e' ++ rest') = some rest' → e'.length ≤ e.length := by
    intro h'
    rw [hrest', h, Option.some_inj] at h'
    rw [h'] at hlength
    omega
  obtain hstring | hfe | hcsi := he'
  · exact hsame (afterEscape_of_string hstring rest')
  · cases hfe
    obtain ⟨b, t, ht⟩ := he.head
    rw [List.cons.injEq] at ht
    simp [ht.2]
  · exact hsame (afterEscape_of_csi hcsi rest')

theorem afterEscape_isSome (he : IsEscape (ESC :: e)) (rest : Bytes) :
    (afterEscape (e ++ rest)).isSome := by
  obtain hstring | hfe | hcsi := he
  · rw [afterEscape_of_string hstring]
    rfl
  · have hfe' := afterFe_of_fe hfe rest
    cases hs : afterString (e ++ rest) with
    | none => simp [afterEscape, hs, hfe']
    | some r => simp [afterEscape, hs]
  · rw [afterEscape_of_csi hcsi]
    rfl

/-! ## What is left of a text -/

theorem afterEscape_length (h : afterEscape text = some rest) : rest.length ≤ text.length := by
  obtain ⟨e, -, rfl⟩ := escape_of_afterEscape h
  simp

/-- The text without the escapes that are found from left to right. -/
def deleteEscapes : Bytes → Bytes
  | [] => []
  | b :: text =>
    if b = ESC then
      match h : afterEscape text with
      | some rest => deleteEscapes rest
      | none => ESC :: deleteEscapes text
    else b :: deleteEscapes text
termination_by text => text.length
decreasing_by
  · have hle := afterEscape_length h
    simp only [List.length_cons]
    omega
  · simp
  · simp

/-- Deletion of the longest escape at each ESC, from left to right. -/
inductive Deletes : Bytes → Bytes → Prop
  | nil : Deletes [] []
  | escape {e rest out} (he : IsEscape e)
      (longest : ∀ e', IsEscape e' → e' <+: e ++ rest → e'.length ≤ e.length)
      (h : Deletes rest out) : Deletes (e ++ rest) out
  | keep {b rest out} (none : ∀ e, IsEscape e → ¬ e <+: b :: rest) (h : Deletes rest out) :
      Deletes (b :: rest) (b :: out)

theorem deleteEscapes_plain (hb : b ≠ ESC) (text : Bytes) :
    deleteEscapes (b :: text) = b :: deleteEscapes text := by
  rw [deleteEscapes, if_neg hb]

theorem deleteEscapes_escape (h : afterEscape text = some rest) :
    deleteEscapes (ESC :: text) = deleteEscapes rest := by
  rw [deleteEscapes, if_pos rfl]
  split
  · rename_i h'
    rw [h, Option.some_inj] at h'
    rw [h']
  · rename_i h'
    rw [h] at h'
    cases h'

theorem deleteEscapes_keep (h : afterEscape text = none) :
    deleteEscapes (ESC :: text) = ESC :: deleteEscapes text := by
  rw [deleteEscapes, if_pos rfl]
  split
  · rename_i h'
    rw [h] at h'
    cases h'
  · rfl

theorem deletes_deleteEscapes (text : Bytes) : Deletes text (deleteEscapes text) := by
  induction text using deleteEscapes.induct with
  | case1 => 
    rw [deleteEscapes]
    exact .nil
  | case2 text rest h ih =>
    rw [deleteEscapes_escape h]
    obtain ⟨e, he, rfl⟩ := escape_of_afterEscape h
    refine .escape (e := ESC :: e) he ?_ ih
    intro e' he' hinitial
    obtain ⟨b, t, rfl⟩ := he'.head
    rw [List.cons_append, List.cons_prefix_cons] at hinitial
    simpa using length_le_of_afterEscape h he he' hinitial.2
  | case3 text h ih =>
    rw [deleteEscapes_keep h]
    refine .keep ?_ ih
    rintro e he ⟨rest, hrest⟩
    obtain ⟨b, t, rfl⟩ := he.head
    rw [List.cons_append, List.cons.injEq] at hrest
    have hsome := afterEscape_isSome he rest
    rw [hrest.2, h] at hsome
    cases hsome
  | case4 b text hb ih =>
    rw [deleteEscapes_plain hb]
    refine .keep ?_ ih
    rintro e he ⟨rest, hrest⟩
    obtain ⟨c, t, rfl⟩ := he.head
    rw [List.cons_append, List.cons.injEq] at hrest
    exact hb hrest.1.symm

/-- There is one way to delete. -/
theorem deletes_iff {out : Bytes} : Deletes text out ↔ out = deleteEscapes text := by
  constructor
  · intro h
    induction h with
    | nil => rw [deleteEscapes]
    | @escape e rest out he longest h ih =>
      obtain ⟨b, t, rfl⟩ := he.head
      obtain ⟨r, hr⟩ := Option.isSome_iff_exists.mp (afterEscape_isSome he rest)
      rw [ih, List.cons_append, deleteEscapes_escape hr]
      obtain ⟨e', he', htext⟩ := escape_of_afterEscape hr
      have hle := longest _ he' (by rw [List.cons_append, htext]; exact ⟨r, rfl⟩)
      rw [htext] at hr
      have hle' := length_le_of_afterEscape hr he' he (by rw [← htext]; exact ⟨rest, rfl⟩)
      simp only [List.length_cons] at hle hle'
      have hsplit := List.append_inj htext (by simp only [List.length_cons]; omega)
      rw [hsplit.2]
    | @keep b rest out none h ih =>
      by_cases hb : b = ESC
      · subst hb
        rw [ih, deleteEscapes_keep]
        by_contra hsome
        obtain ⟨r, hr⟩ := Option.ne_none_iff_exists'.mp hsome
        obtain ⟨e, he, htext⟩ := escape_of_afterEscape hr
        exact none _ he ⟨r, by rw [htext]; rfl⟩
      · rw [ih, deleteEscapes_plain hb]
  · rintro rfl
    exact deletes_deleteEscapes text

theorem deleteEscapes_sublist (text : Bytes) : (deleteEscapes text).Sublist text := by
  have h := deletes_deleteEscapes text
  generalize deleteEscapes text = out at h
  induction h with
  | nil => exact .slnil
  | escape he longest h ih => exact ih.trans (List.sublist_append_right _ _)
  | keep none h ih => exact ih.cons_cons _

/-! ## The machine deletes them -/

theorem deleteEscapes_run {run : Bytes} (hrun : ∀ b ∈ run, b ≠ ESC) (text : Bytes) :
    deleteEscapes (run ++ text) = run ++ deleteEscapes text := by
  induction run with
  | nil => rfl
  | cons b run ih =>
    simp only [List.mem_cons, forall_eq_or_imp] at hrun
    rw [List.cons_append, deleteEscapes_plain hrun.1, ih hrun.2, List.cons_append]

theorem content_ne_esc (h : content.all isContent) : ∀ b ∈ content, b ≠ ESC := by
  intro b hb
  have hcontent := List.all_eq_true.mp h b hb
  simp only [isContent, Bool.and_eq_true, bne_iff_ne] at hcontent
  exact hcontent.2

/-- A string that does not end is taken for a two-byte sequence, and its content stays. -/
theorem deleteEscapes_unterminated {i : Byte} (hi : isIntroducer i = true)
    (hcontent : content.all isContent) (h : afterTerminator (content ++ text) = none) :
    deleteEscapes (ESC :: i :: (content ++ text)) = content ++ deleteEscapes text := by
  have hafter : afterEscape (i :: (content ++ text)) = some (content ++ text) := by
    simp [afterEscape, afterString, afterFe, hi, h, introducer_isFe hi]
  rw [deleteEscapes_escape hafter, deleteEscapes_run (content_ne_esc hcontent)]

/-- A control sequence that breaks off stays. -/
theorem deleteEscapes_broken {params inter text : Bytes} (hparams : params.all isParam)
    (hinter : inter.all isIntermediate)
    (h : afterCsi (0x5B#8 :: (params ++ (inter ++ text))) = none) :
    deleteEscapes (ESC :: 0x5B#8 :: (params ++ (inter ++ text))) =
      ESC :: 0x5B#8 :: (params ++ (inter ++ deleteEscapes text)) := by
  have hafter : afterEscape (0x5B#8 :: (params ++ (inter ++ text))) = none := by
    simp [afterEscape, afterString_csi, afterFe_csi, h]
  have hplain : ∀ b ∈ 0x5B#8 :: (params ++ inter), b ≠ ESC := by
    rintro b hb rfl
    simp only [List.mem_cons, List.mem_append] at hb
    obtain hb | hb | hb := hb
    · revert hb
      decide
    · exact absurd (List.all_eq_true.mp hparams _ hb) (by decide)
    · exact absurd (List.all_eq_true.mp hinter _ hb) (by decide)
  have hrun := deleteEscapes_run hplain text
  rw [deleteEscapes_keep hafter]
  simp only [List.cons_append, List.append_assoc] at hrun
  rw [hrun]

namespace AnsiStripper

/-- What a state stands for: the bytes it holds back, followed by the rest of the input. -/
def meaning (s : AnsiStripper) (rest : Bytes) : Bytes := deleteEscapes (s.pending ++ rest)

theorem meaning_plain (b : Byte) (rest : Bytes) :
    deleteEscapes (b :: rest) = (plain b).2 ++ (plain b).1.meaning rest := by
  unfold plain meaning
  split
  · rename_i hb
    rw [hb]
    rfl
  · rename_i hb
    exact deleteEscapes_plain hb rest

theorem meaning_afterEsc (b : Byte) (rest : Bytes) :
    deleteEscapes (ESC :: b :: rest) = (afterEsc b).2 ++ (afterEsc b).1.meaning rest := by
  by_cases hi : isIntroducer b = true
  · simp [afterEsc, hi, meaning]
  · by_cases hcsi : b = 0x5B#8
    · subst hcsi
      simp [afterEsc, show isIntroducer 0x5B#8 = false by decide, meaning]
    · by_cases hfe : isFeByte b = true
      · have hafter : afterEscape (b :: rest) = some rest := by
          simp [afterEscape, afterString, afterFe, hi, hfe]
        rw [deleteEscapes_escape hafter]
        simp [afterEsc, hi, hcsi, hfe, meaning]
      · have hafter : afterEscape (b :: rest) = none := by
          simp [afterEscape, afterString, afterFe, afterCsi, hi, hcsi, hfe]
        rw [deleteEscapes_keep hafter, meaning_plain]
        simp [afterEsc, hi, hcsi, hfe]

variable {s : AnsiStripper}

theorem meaning_step (h : Holds s) (b : Byte) (rest : Bytes) :
    s.meaning (b :: rest) = (s.stepByte b).2 ++ (s.stepByte b).1.meaning rest := by
  cases h with
  | normal => exact meaning_plain b rest
  | afterEsc => exact meaning_afterEsc b rest
  | @osclike i content hi hcontent =>
    simp only [stepByte]
    split_ifs with hbel hesc
    · subst hbel
      have hafter : afterEscape (i :: (content ++ BEL :: rest)) = some rest := by
        simp [afterEscape, afterString, hi, afterTerminator_bel hcontent]
      simpa [meaning] using deleteEscapes_escape hafter
    · simp [meaning]
    · simp [meaning]
  | @osclikeEsc i content hi hcontent =>
    by_cases hb : b = 0x5C#8
    · have hafter : afterEscape (i :: (content ++ ESC :: 0x5C#8 :: rest)) = some rest := by
        simp [afterEscape, afterString, hi, afterTerminator_st hcontent]
      simpa [meaning, stepByte, hb] using deleteEscapes_escape hafter
    · have hunterminated := deleteEscapes_unterminated hi hcontent
        (afterTerminator_interrupted hcontent hb rest)
      rw [meaning_afterEsc b] at hunterminated
      simp only [stepByte, if_neg hb]
      simpa [meaning, failEscape] using hunterminated
  | @csiParams params hparams =>
    have hnone : ([] : Bytes).all isIntermediate := rfl
    simp only [stepByte]
    split_ifs with hparam hinter hfinal
    · simp [meaning]
    · simp [meaning]
    · have hafter := afterEscape_of_csi (.mk hparams hnone hfinal) rest
      simpa [meaning] using deleteEscapes_escape hafter
    · have hbroken := deleteEscapes_broken hparams hnone
        (afterCsi_broken hparams hnone (fun _ => by simpa using hparam)
          (by simpa using hinter) (by simpa using hfinal) rest)
      rw [meaning_plain b] at hbroken
      simpa [meaning, giveUp] using hbroken
  | @csiInter params inter hparams hinter hne =>
    simp only [stepByte]
    split_ifs with hb hfinal
    · simp [meaning]
    · have hafter := afterEscape_of_csi (.mk hparams hinter hfinal) rest
      simpa [meaning] using deleteEscapes_escape hafter
    · have hbroken := deleteEscapes_broken hparams hinter
        (afterCsi_broken hparams hinter (fun h => absurd h hne) (by simpa using hb)
          (by simpa using hfinal) rest)
      rw [meaning_plain b] at hbroken
      simpa [meaning, giveUp] using hbroken

theorem meaning_flush (h : Holds s) : s.meaning [] = s.flush.2 := by
  have hesc : deleteEscapes [ESC] = [ESC] := by
    rw [deleteEscapes_keep rfl, deleteEscapes]
  have hnormal : ∀ pending, flush ⟨.normal, pending⟩ = (⟨.normal, pending⟩, []) := by
    intro pending
    rw [flush, dif_pos rfl]
  cases h with
  | normal =>
    rw [hnormal]
    simp [meaning, deleteEscapes]
  | afterEsc =>
    rw [flush, dif_neg (by simp)]
    simp [flushRound, hnormal, meaning, hesc]
  | @osclike i content hi hcontent =>
    have hopen := deleteEscapes_unterminated hi hcontent
      (by rw [List.append_nil]; exact afterTerminator_open hcontent)
    rw [flush, dif_neg (by simp)]
    simp only [List.append_nil] at hopen
    simp [flushRound, failEscape, hnormal, meaning, hopen, deleteEscapes]
  | @osclikeEsc i content hi hcontent =>
    have hcut := deleteEscapes_unterminated hi hcontent (afterTerminator_cut hcontent)
    rw [flush, dif_neg (by simp)]
    simp only [flushRound, failEscape]
    rw [flush, dif_neg (by simp)]
    simp [flushRound, hnormal, meaning, hcut, hesc]
  | @csiParams params hparams =>
    have hnone : ([] : Bytes).all isIntermediate := rfl
    have hopen := @deleteEscapes_broken params [] [] hparams hnone
      (by simpa using afterCsi_open hparams hnone)
    rw [flush, dif_neg (by simp)]
    simpa [flushRound, hnormal, meaning, deleteEscapes] using hopen
  | @csiInter params inter hparams hinter hne =>
    have hopen := @deleteEscapes_broken params inter [] hparams hinter
      (by simpa using afterCsi_open hparams hinter)
    rw [flush, dif_neg (by simp)]
    simpa [flushRound, hnormal, meaning, deleteEscapes] using hopen

theorem output_eq_deleteEscapes (text : Bytes) : machine.output {} text = deleteEscapes text :=
  Transducer.output_eq (T := machine) (I := Holds) meaning
    (fun _ b h => holds_stepByte h b) (fun _ b rest h => meaning_step h b rest)
    (fun _ h => meaning_flush h) .normal text

end AnsiStripper

theorem stripAnsi_eq_deleteEscapes (text : Bytes) : stripAnsi text = deleteEscapes text := by
  rw [stripAnsi_eq_output, AnsiStripper.output_eq_deleteEscapes]

/-- Cut into chunks in any way, a text is stripped to what `strip_ansi` makes of it, and that
is what is left when the longest escape at each ESC is deleted. -/
theorem strip_chunks (chunks : List Bytes) :
    let s : AnsiStripper := {}
    (s.feedAll chunks).2 ++ (s.feedAll chunks).1.flush.2 = stripAnsi chunks.flatten ∧
      stripAnsi chunks.flatten = deleteEscapes chunks.flatten ∧
      (∀ out, Deletes chunks.flatten out ↔ out = stripAnsi chunks.flatten) ∧
      (stripAnsi chunks.flatten).Sublist chunks.flatten := by
  intro s
  have hstrip := stripAnsi_eq_deleteEscapes chunks.flatten
  refine ⟨?_, hstrip, ?_, ?_⟩
  · rw [AnsiStripper.feedAll_eq_machine .normal, Transducer.feedAll_eq, stripAnsi_eq_output]
    rfl
  · intro out
    rw [hstrip]
    exact deletes_iff
  · rw [hstrip]
    exact deleteEscapes_sublist chunks.flatten

end KimixNative.Stream
