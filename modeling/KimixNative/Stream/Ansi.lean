import KimixNative.Lib.Transducer
import KimixNative.Lib.LittleEndian

/-!
# The streaming escape stripper

`AnsiStripper` removes terminal escapes from a byte stream that arrives in chunks. From an
ESC on it holds bytes back until the escape is complete, or until a byte comes that cannot
continue it. The code scans runs of plain bytes at once and reads a byte again after a failed
escape; `machine` does the same one byte at a time.

What a state stands for is the text it holds back: from every state the machine emits what
`deleteEscapes` leaves of the held bytes and the rest of the input.
-/

namespace KimixNative.Stream

def ESC : Byte := 0x1B

def BEL : Byte := 0x07

/-- `is_fe_byte`: `@` to `Z` and `\` to `_`. -/
def isFeByte (b : Byte) : Bool := (0x40 ≤ b && b ≤ 0x5A) || (0x5C ≤ b && b ≤ 0x5F)

/-- `is_dcs_like`: `P`, `^` and `_`. -/
def isDcsLike (b : Byte) : Bool := b == 0x50 || b == 0x5E || b == 0x5F

/-- The bytes that open a string: `]` and the three of `is_dcs_like`. -/
def isIntroducer (b : Byte) : Bool := b == 0x5D || isDcsLike b

def isParam (b : Byte) : Bool := 0x30 ≤ b && b ≤ 0x3F

def isIntermediate (b : Byte) : Bool := 0x20 ≤ b && b ≤ 0x2F

def isFinal (b : Byte) : Bool := 0x40 ≤ b && b ≤ 0x7E

def isPlain (b : Byte) : Bool := b != ESC

/-- What a string may hold before its end. -/
def isContent (b : Byte) : Bool := b != BEL && b != ESC

inductive State
  | normal
  | afterEsc
  | osclike
  | osclikeEsc
  | csiParams
  | csiInter
  deriving DecidableEq, Repr

structure AnsiStripper where
  state : State := .normal
  pending : Bytes := []
  deriving DecidableEq, Repr

namespace AnsiStripper

/-- `fail_escape`. -/
def failEscape (s : AnsiStripper) : AnsiStripper × Bytes :=
  if s.state = .osclike ∨ s.state = .osclikeEsc then
    let trailing := if s.state = .osclikeEsc then 1 else 0
    let content := (s.pending.drop 2).take (s.pending.length - 2 - trailing)
    if s.state = .osclikeEsc then (⟨.afterEsc, [ESC]⟩, content) else (⟨.normal, []⟩, content)
  else (⟨.normal, []⟩, s.pending)

/-- One round of the loop of `flush`. -/
def flushRound (s : AnsiStripper) : AnsiStripper × Bytes :=
  match s.state with
  | .normal => (s, [])
  | .afterEsc | .csiParams | .csiInter => (⟨.normal, []⟩, s.pending)
  | .osclike | .osclikeEsc => s.failEscape

/-- One round of the loop of `feed`, at a byte and the rest of the chunk: the state, what is
left of the chunk, and what was emitted. -/
def feedRound (s : AnsiStripper) (b : Byte) (rest : Bytes) : AnsiStripper × Bytes × Bytes :=
  match s.state with
  | .normal =>
    if b = ESC then (⟨.afterEsc, [ESC]⟩, rest, [])
    else
      match (b :: rest).dropWhile isPlain with
      | [] => (s, [], (b :: rest).takeWhile isPlain)
      | _ :: rest' => (⟨.afterEsc, [ESC]⟩, rest', (b :: rest).takeWhile isPlain)
  | .afterEsc =>
    if b = 0x5D then (⟨.osclike, s.pending ++ [b]⟩, rest, [])
    else if isDcsLike b then (⟨.osclike, s.pending ++ [b]⟩, rest, [])
    else if b = 0x5B#8 then (⟨.csiParams, s.pending ++ [b]⟩, rest, [])
    else if isFeByte b then (⟨.normal, []⟩, rest, [])
    else (⟨.normal, []⟩, b :: rest, s.pending)
  | .osclike =>
    if b = BEL then (⟨.normal, []⟩, rest, [])
    else if b = ESC then (⟨.osclikeEsc, s.pending ++ [b]⟩, rest, [])
    else
      (⟨.osclike, s.pending ++ (b :: rest).takeWhile isContent⟩,
        (b :: rest).dropWhile isContent, [])
  | .osclikeEsc =>
    if b = 0x5C#8 then (⟨.normal, []⟩, rest, [])
    else (s.failEscape.1, b :: rest, s.failEscape.2)
  | .csiParams =>
    if isParam b then (⟨.csiParams, s.pending ++ [b]⟩, rest, [])
    else if isIntermediate b then (⟨.csiInter, s.pending ++ [b]⟩, rest, [])
    else if isFinal b then (⟨.normal, []⟩, rest, [])
    else (⟨.normal, []⟩, b :: rest, s.pending)
  | .csiInter =>
    if isIntermediate b then (⟨.csiInter, s.pending ++ [b]⟩, rest, [])
    else if isFinal b then (⟨.normal, []⟩, rest, [])
    else (⟨.normal, []⟩, b :: rest, s.pending)

/-- Rounds that may pass before a byte is consumed. -/
def patience (s : AnsiStripper) : Nat :=
  match s.state with
  | .normal => 0
  | .osclikeEsc => 2
  | _ => 1

theorem flushRound_decreases (s : AnsiStripper) (h : s.state ≠ .normal) :
    s.flushRound.1.patience < s.patience := by
  obtain ⟨state, pending⟩ := s
  cases state <;> simp_all [flushRound, failEscape, patience]

/-- `flush`: the loop of rounds until the state is `normal`. -/
def flush (s : AnsiStripper) : AnsiStripper × Bytes :=
  if h : s.state = .normal then (s, [])
  else ((flush s.flushRound.1).1, s.flushRound.2 ++ (flush s.flushRound.1).2)
termination_by s.patience
decreasing_by all_goals exact flushRound_decreases s h

theorem length_dropWhile_plain {p : Byte → Bool} {b : Byte} (hb : p b = true) (rest : Bytes) :
    ((b :: rest).dropWhile p).length ≤ rest.length := by
  rw [List.dropWhile_cons_of_pos hb]
  exact (List.dropWhile_suffix p).length_le

theorem feedRound_decreases (s : AnsiStripper) (b : Byte) (rest : Bytes) :
    3 * (s.feedRound b rest).2.1.length + (s.feedRound b rest).1.patience <
      3 * (b :: rest).length + s.patience := by
  obtain ⟨state, pending⟩ := s
  cases state with
  | normal =>
    by_cases hb : b = ESC
    · simp [feedRound, patience, hb]
      omega
    · have hle := length_dropWhile_plain (p := isPlain) (b := b) (by simp [isPlain, hb]) rest
      simp only [feedRound, hb, if_false]
      cases hrest : (b :: rest).dropWhile isPlain with
      | nil => simp [patience]
      | cons e rest' =>
        rw [hrest] at hle
        simp only [List.length_cons, patience] at hle ⊢
        omega
  | afterEsc =>
    simp only [feedRound, patience]
    split_ifs <;> simp only [List.length_cons] <;> omega
  | osclike =>
    by_cases hb : b = BEL
    · simp only [feedRound, if_pos hb, patience, List.length_cons]
      omega
    · by_cases hb' : b = ESC
      · simp only [feedRound, if_neg hb, if_pos hb', patience, List.length_cons]
        omega
      · have hle := length_dropWhile_plain (p := isContent) (b := b)
          (by simp [isContent, hb, hb']) rest
        simp only [feedRound, hb, hb', if_false, patience, List.length_cons]
        omega
  | osclikeEsc =>
    simp only [feedRound, patience, failEscape]
    split_ifs <;> simp only [List.length_cons] <;> omega
  | csiParams =>
    simp only [feedRound, patience]
    split_ifs <;> simp only [List.length_cons] <;> omega
  | csiInter =>
    simp only [feedRound, patience]
    split_ifs <;> simp only [List.length_cons] <;> omega

/-- `feed`: the state after a chunk and the bytes appended to `out`. -/
def feed (s : AnsiStripper) : Bytes → AnsiStripper × Bytes
  | [] => (s, [])
  | b :: rest =>
    ((feed (s.feedRound b rest).1 (s.feedRound b rest).2.1).1,
      (s.feedRound b rest).2.2 ++ (feed (s.feedRound b rest).1 (s.feedRound b rest).2.1).2)
termination_by chunk => 3 * chunk.length + s.patience
decreasing_by all_goals exact feedRound_decreases s b rest

/-! ## One byte at a time -/

/-- A byte outside an escape. -/
def plain (b : Byte) : AnsiStripper × Bytes :=
  if b = ESC then (⟨.afterEsc, [ESC]⟩, []) else (⟨.normal, []⟩, [b])

/-- The byte after an ESC. -/
def afterEsc (b : Byte) : AnsiStripper × Bytes :=
  if isIntroducer b then (⟨.osclike, [ESC, b]⟩, [])
  else if b = 0x5B#8 then (⟨.csiParams, [ESC, b]⟩, [])
  else if isFeByte b then (⟨.normal, []⟩, [])
  else ((plain b).1, ESC :: (plain b).2)

/-- What is held back is given up, and the byte is read again. -/
def giveUp (s : AnsiStripper) (b : Byte) : AnsiStripper × Bytes :=
  ((plain b).1, s.pending ++ (plain b).2)

def stepByte (s : AnsiStripper) (b : Byte) : AnsiStripper × Bytes :=
  match s.state with
  | .normal => plain b
  | .afterEsc => afterEsc b
  | .osclike =>
    if b = BEL then (⟨.normal, []⟩, [])
    else if b = ESC then (⟨.osclikeEsc, s.pending ++ [b]⟩, [])
    else (⟨.osclike, s.pending ++ [b]⟩, [])
  | .osclikeEsc =>
    if b = 0x5C#8 then (⟨.normal, []⟩, [])
    else ((afterEsc b).1, s.failEscape.2 ++ (afterEsc b).2)
  | .csiParams =>
    if isParam b then (⟨.csiParams, s.pending ++ [b]⟩, [])
    else if isIntermediate b then (⟨.csiInter, s.pending ++ [b]⟩, [])
    else if isFinal b then (⟨.normal, []⟩, [])
    else s.giveUp b
  | .csiInter =>
    if isIntermediate b then (⟨.csiInter, s.pending ++ [b]⟩, [])
    else if isFinal b then (⟨.normal, []⟩, [])
    else s.giveUp b

@[simp] theorem stepByte_normal (pending : Bytes) (b : Byte) :
    stepByte ⟨.normal, pending⟩ b = plain b := rfl

def machine : Transducer AnsiStripper Byte Byte := ⟨stepByte, flush⟩

/-- What is held back in each state. -/
inductive Holds : AnsiStripper → Prop
  | normal : Holds ⟨.normal, []⟩
  | afterEsc : Holds ⟨.afterEsc, [ESC]⟩
  | osclike {i content} (hi : isIntroducer i) (hcontent : content.all isContent) :
      Holds ⟨.osclike, ESC :: i :: content⟩
  | osclikeEsc {i content} (hi : isIntroducer i) (hcontent : content.all isContent) :
      Holds ⟨.osclikeEsc, ESC :: i :: (content ++ [ESC])⟩
  | csiParams {params} (hparams : params.all isParam) : Holds ⟨.csiParams, ESC :: 0x5B#8 :: params⟩
  | csiInter {params inter} (hparams : params.all isParam) (hinter : inter.all isIntermediate)
      (hne : inter ≠ []) : Holds ⟨.csiInter, ESC :: 0x5B#8 :: (params ++ inter)⟩

theorem holds_plain (b : Byte) : Holds (plain b).1 := by
  unfold plain
  split
  · exact .afterEsc
  · exact .normal

theorem holds_afterEsc (b : Byte) : Holds (afterEsc b).1 := by
  unfold afterEsc
  split_ifs with hi hcsi
  · exact .osclike hi rfl
  · obtain rfl := hcsi
    exact .csiParams rfl
  · exact .normal
  · exact holds_plain b

variable {s : AnsiStripper}

theorem holds_stepByte (h : Holds s) (b : Byte) : Holds (s.stepByte b).1 := by
  cases h with
  | normal => exact holds_plain b
  | afterEsc => exact holds_afterEsc b
  | @osclike i content hi hcontent =>
    simp only [stepByte]
    split_ifs with hbel hesc
    · exact .normal
    · obtain rfl := hesc
      exact .osclikeEsc hi hcontent
    · refine .osclike hi ?_
      simp_all [isContent]
  | osclikeEsc hi hcontent =>
    simp only [stepByte]
    split_ifs
    · exact .normal
    · exact holds_afterEsc b
  | @csiParams params hparams =>
    simp only [stepByte]
    split_ifs with hparam hinter
    · exact .csiParams (by simp_all)
    · exact .csiInter hparams (by simp_all) (by simp)
    · exact .normal
    · exact holds_plain b
  | @csiInter params inter hparams hinter hne =>
    simp only [stepByte]
    split_ifs with hb
    · rw [List.cons_append, List.cons_append, List.append_assoc]
      exact .csiInter hparams (by simp_all) (by simp)
    · exact .normal
    · exact holds_plain b

theorem feed_plain_run {run : Bytes} (hrun : run.all isPlain) :
    machine.feed ⟨.normal, []⟩ run = (⟨.normal, []⟩, run) := by
  induction run with
  | nil => rfl
  | cons b run ih =>
    simp only [List.all_cons, Bool.and_eq_true, isPlain, bne_iff_ne] at hrun
    simp only [Transducer.feed_cons, machine, stepByte, plain, hrun.1, if_false]
    exact congrArg (fun r : AnsiStripper × Bytes => (r.1, b :: r.2)) (ih hrun.2)

theorem feed_content_run {pending run : Bytes} (hrun : run.all isContent) :
    machine.feed ⟨.osclike, pending⟩ run = (⟨.osclike, pending ++ run⟩, []) := by
  induction run generalizing pending with
  | nil => simp
  | cons b run ih =>
    simp only [List.all_cons, Bool.and_eq_true, isContent, bne_iff_ne] at hrun
    simp only [Transducer.feed_cons, machine, stepByte, hrun.1.1, hrun.1.2, if_false]
    have hrest := @ih (pending ++ [b]) (by simpa [isContent] using hrun.2)
    simp only [machine] at hrest
    rw [hrest, List.append_assoc]
    rfl

/-- One round of the loop is a run of the machine. -/
theorem feedRound_machine (h : Holds s) (b : Byte) (rest : Bytes) :
    machine.feed s (b :: rest) =
      ((machine.feed (s.feedRound b rest).1 (s.feedRound b rest).2.1).1,
        (s.feedRound b rest).2.2 ++
          (machine.feed (s.feedRound b rest).1 (s.feedRound b rest).2.1).2) := by
  cases h with
  | normal =>
    by_cases hb : b = ESC
    · simp [feedRound, hb, machine, stepByte, plain]
    · have hsplit := List.takeWhile_append_dropWhile (p := isPlain) (l := b :: rest)
      have hrun : ((b :: rest).takeWhile isPlain).all isPlain := List.all_takeWhile
      simp only [feedRound, hb, if_false]
      cases hrest : (b :: rest).dropWhile isPlain with
      | nil =>
        rw [hrest, List.append_nil] at hsplit
        rw [hsplit] at hrun ⊢
        rw [feed_plain_run hrun]
        simp
      | cons e rest' =>
        have he : e = ESC := by
          have hhead := List.head?_dropWhile_not isPlain (b :: rest)
          rw [hrest] at hhead
          simpa [isPlain] using hhead
        obtain rfl := he
        rw [hrest] at hsplit
        conv_lhs => rw [← hsplit, Transducer.feed_append, feed_plain_run hrun]
        simp [machine, stepByte, plain]
  | afterEsc =>
    simp only [feedRound, Transducer.feed_cons, machine, stepByte, afterEsc, isIntroducer]
    by_cases h5D : b = 0x5D
    · simp [h5D]
    · simp only [h5D, beq_eq_false_iff_ne.mpr h5D, Bool.false_or, if_false]
      split_ifs <;> simp
  | osclike hi hcontent =>
    by_cases hbel : b = BEL
    · simp [feedRound, machine, stepByte, hbel]
    · by_cases hesc : b = ESC
      · simp [feedRound, machine, stepByte, hesc, show ESC ≠ BEL by decide]
      · have hsplit := List.takeWhile_append_dropWhile (p := isContent) (l := b :: rest)
        simp only [feedRound, hbel, hesc, if_false]
        conv_lhs =>
          rw [← hsplit, Transducer.feed_append, feed_content_run List.all_takeWhile]
  | osclikeEsc hi hcontent =>
    by_cases hb : b = 0x5C#8
    · simp [feedRound, machine, stepByte, hb]
    · simp only [feedRound, Transducer.feed_cons, machine, stepByte, hb, if_false]
      simp [failEscape]
  | csiParams hparams =>
    simp only [feedRound, Transducer.feed_cons, machine, stepByte]
    split_ifs <;> simp [giveUp]
  | csiInter hparams hinter hne =>
    simp only [feedRound, Transducer.feed_cons, machine, stepByte]
    split_ifs <;> simp [giveUp]

theorem holds_feedRound (h : Holds s) (b : Byte) (rest : Bytes) : Holds (s.feedRound b rest).1 := by
  cases h with
  | normal =>
    simp only [feedRound]
    split
    · exact .afterEsc
    · split
      · exact .normal
      · exact .afterEsc
  | afterEsc =>
    simp only [feedRound]
    split_ifs with h5D hdcs hcsi
    · exact .osclike (by simp [isIntroducer, h5D]) rfl
    · exact .osclike (by simp [isIntroducer, hdcs]) rfl
    · obtain rfl := hcsi
      exact .csiParams rfl
    · exact .normal
    · exact .normal
  | @osclike i content hi hcontent =>
    simp only [feedRound]
    split_ifs with hbel hesc
    · exact .normal
    · obtain rfl := hesc
      exact .osclikeEsc hi hcontent
    · refine .osclike hi ?_
      change (_ ++ (b :: rest).takeWhile isContent).all isContent = true
      rw [List.all_append, hcontent, List.all_takeWhile]
      rfl
  | osclikeEsc hi hcontent =>
    simp only [feedRound]
    split
    · exact .normal
    · exact .afterEsc
  | csiParams hparams =>
    have hstep := holds_stepByte (.csiParams hparams) b
    simp only [stepByte] at hstep
    simp only [feedRound]
    split_ifs at hstep ⊢
    · exact hstep
    · exact hstep
    · exact .normal
    · exact .normal
  | csiInter hparams hinter hne =>
    have hstep := holds_stepByte (.csiInter hparams hinter hne) b
    simp only [stepByte] at hstep
    simp only [feedRound]
    split_ifs at hstep ⊢
    · exact hstep
    · exact .normal
    · exact .normal

/-- The loop of `feed` is the machine. -/
theorem feed_eq_machine (h : Holds s) (chunk : Bytes) : s.feed chunk = machine.feed s chunk := by
  induction s, chunk using feed.induct with
  | case1 s => rw [feed, Transducer.feed_nil]
  | case2 s b rest ih =>
    rw [feed, feedRound_machine h, ih (holds_feedRound h b rest)]

theorem holds_feed (h : Holds s) (chunk : Bytes) : Holds (s.feed chunk).1 := by
  rw [feed_eq_machine h]
  exact Transducer.feed_invariant (I := Holds) (fun _ b hs => holds_stepByte hs b) h chunk

theorem feed_append (h : Holds s) (xs ys : Bytes) :
    s.feed (xs ++ ys) = (((s.feed xs).1.feed ys).1, (s.feed xs).2 ++ ((s.feed xs).1.feed ys).2) := by
  rw [feed_eq_machine (holds_feed h xs), feed_eq_machine h, feed_eq_machine h,
    Transducer.feed_append]

/-- Chunk after chunk through `feed`. -/
def feedAll (s : AnsiStripper) : List Bytes → AnsiStripper × Bytes
  | [] => (s, [])
  | chunk :: chunks =>
    ((feedAll (s.feed chunk).1 chunks).1, (s.feed chunk).2 ++ (feedAll (s.feed chunk).1 chunks).2)

theorem feedAll_eq_machine (h : Holds s) (chunks : List Bytes) :
    s.feedAll chunks = machine.feedAll s chunks := by
  induction chunks generalizing s with
  | nil => rfl
  | cons chunk chunks ih =>
    have hnext := holds_feed h chunk
    rw [feed_eq_machine h] at hnext
    simp only [feedAll, Transducer.feedAll, feed_eq_machine h, ih hnext]

end AnsiStripper

/-- `strip_ansi`. -/
def stripAnsi (utf8 : Bytes) : Bytes :=
  (({} : AnsiStripper).feed utf8).2 ++ (({} : AnsiStripper).feed utf8).1.flush.2

theorem stripAnsi_eq_output (utf8 : Bytes) :
    stripAnsi utf8 = AnsiStripper.machine.output {} utf8 := by
  simp only [stripAnsi, AnsiStripper.feed_eq_machine .normal]
  rfl

end KimixNative.Stream
