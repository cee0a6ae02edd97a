import KimixNative.Lib.Words
import KimixNative.Lib.Transducer
import KimixNative.Text.Utf8

/-!
# The parsers of event streams

`SseParser` of the OpenAI provider and `StreamParser` of the Anthropic provider: bytes wait in
a line buffer, lines in an event buffer, and an empty line ends an event. The two classes
differ in what they make of the lines of an event, which is a parameter here.

Fed in any chunks, a parser yields one event for each group of complete lines; what stands
behind the last newline is never read.
-/

namespace KimixNative.Llm

open Text

def CR : Byte := 0x0D#8
def LF : Byte := 0x0A#8

variable {E : Type}

/-- The two buffers. -/
structure SseParser where
  buffer : Bytes := []
  eventLines : List Bytes := []
  deriving DecidableEq, Repr

namespace SseParser

variable (parseEventLines : List Bytes → E)

/-- A line that `drain_` takes off the buffer. -/
def takeLine (p : SseParser) (line : Bytes) : SseParser × List E :=
  if line = [] then
    if p.eventLines = [] then (p, []) else ({ p with eventLines := [] }, [parseEventLines p.eventLines])
  else ({ p with eventLines := p.eventLines ++ [line] }, [])

theorem takeLine_buffer (p : SseParser) (line : Bytes) :
    (takeLine parseEventLines p line).1.buffer = p.buffer := by
  unfold takeLine
  split_ifs <;> rfl

/-- `drain_`. -/
def drain (p : SseParser) : SseParser × List E :=
  if LF ∈ p.buffer then
    let line := p.buffer.takeWhile (· != LF)
    let rest := p.buffer.drop (line.length + 1)
    let (p', events) := takeLine parseEventLines { p with buffer := rest } line
    let (q, more) := drain { p' with buffer := rest }
    (q, events ++ more)
  else (p, [])
termination_by p.buffer.length
decreasing_by
  rename_i h
  have hpos := List.length_pos_of_mem h
  simp only [List.length_drop]
  omega

/-- `feed`. -/
def feed (p : SseParser) (data : Bytes) : SseParser × List E :=
  drain parseEventLines { p with buffer := p.buffer ++ data.filter (· != CR) }

/-- `finish`. -/
def finish (p : SseParser) : SseParser × List E :=
  let (p, out) := drain parseEventLines p
  if p.eventLines = [] then (p, out)
  else ({ p with eventLines := [] }, out ++ [parseEventLines p.eventLines])

def feedAll (p : SseParser) : List Bytes → SseParser × List E
  | [] => (p, [])
  | chunk :: chunks =>
    let (p, out) := feed parseEventLines p chunk
    let (p, more) := feedAll p chunks
    (p, out ++ more)

/-- All events of a stream that arrives in chunks. -/
def events (chunks : List Bytes) : List E :=
  let (p, out) := feedAll parseEventLines {} chunks
  out ++ (finish parseEventLines p).2

/-! ### One byte at a time -/

/-- The parser as a machine that reads single bytes. -/
def machine : Transducer SseParser Byte E where
  step p b :=
    if b = CR then (p, [])
    else if b = LF then takeLine parseEventLines { p with buffer := [] } p.buffer
    else ({ p with buffer := p.buffer ++ [b] }, [])
  flush p :=
    if p.eventLines = [] then (p, [])
    else ({ p with eventLines := [] }, [parseEventLines p.eventLines])

/-- Between calls the buffer holds no newline. -/
def Drained (p : SseParser) : Prop := LF ∉ p.buffer

variable {p : SseParser}

theorem drain_of_drained (h : Drained p) : drain parseEventLines p = (p, []) := by
  rw [drain, if_neg h]

theorem drained_step (h : Drained p) (b : Byte) :
    Drained ((machine parseEventLines).step p b).1 := by
  simp only [machine]
  split_ifs with hcr hlf
  · exact h
  · simp [Drained, takeLine_buffer]
  · simp only [Drained, List.mem_append, List.mem_singleton, not_or]
    exact ⟨h, fun hb => hlf hb.symm⟩

theorem drain_line {line rest : Bytes} (hline : LF ∉ line) (h : p.buffer = line ++ LF :: rest) :
    drain parseEventLines p =
      ((drain parseEventLines
          { (takeLine parseEventLines { p with buffer := [] } line).1 with buffer := rest }).1,
        (takeLine parseEventLines { p with buffer := [] } line).2 ++
          (drain parseEventLines
            { (takeLine parseEventLines { p with buffer := [] } line).1 with buffer := rest }).2) := by
  have hmem : LF ∈ p.buffer := by
    rw [h]
    simp
  have htake : p.buffer.takeWhile (· != LF) = line := by
    rw [h, List.takeWhile_append_of_pos]
    · simp
    · intro b hb
      refine bne_iff_ne.mpr ?_
      rintro rfl
      exact hline hb
  have hdrop : p.buffer.drop (line.length + 1) = rest := by
    rw [h, List.drop_append]
    simp
  rw [drain, if_pos hmem]
  simp only [htake, hdrop]
  unfold takeLine
  split_ifs <;> rfl

/-- `feed` does what the machine does. -/
theorem feed_eq_machine (h : Drained p) (data : Bytes) :
    feed parseEventLines p data = (machine parseEventLines).feed p data := by
  induction data generalizing p with
  | nil =>
    rw [feed, List.filter_nil, List.append_nil]
    exact drain_of_drained parseEventLines h
  | cons b data ih =>
    have hrest := ih (drained_step parseEventLines h b)
    rw [Transducer.feed_cons, ← hrest]
    by_cases hcr : b = CR
    · have hstep : (machine parseEventLines).step p b = (p, []) := if_pos hcr
      rw [hstep, List.nil_append, feed, feed, hcr, List.filter_cons_of_neg (by simp)]
    · have hkeep : (b :: data).filter (· != CR) = b :: data.filter (· != CR) :=
        List.filter_cons_of_pos (by simpa using hcr)
      by_cases hlf : b = LF
      · have hstep : (machine parseEventLines).step p b =
            takeLine parseEventLines { p with buffer := [] } p.buffer := by
          simp only [machine, if_neg hcr, if_pos hlf]
        rw [hstep, feed, hkeep, hlf, drain_line parseEventLines h rfl, feed,
          takeLine_buffer, List.nil_append]
      · have hstep : (machine parseEventLines).step p b =
            ({ p with buffer := p.buffer ++ [b] }, []) := by
          simp only [machine, if_neg hcr, if_neg hlf]
        rw [hstep, List.nil_append, feed, hkeep, feed, List.append_assoc, List.singleton_append]

theorem feedAll_eq_machine (h : Drained p) (chunks : List Bytes) :
    feedAll parseEventLines p chunks = (machine parseEventLines).feedAll p chunks := by
  induction chunks generalizing p with
  | nil => rfl
  | cons chunk chunks ih =>
    have hdrained := (machine parseEventLines).feed_invariant (I := Drained)
      (fun s a hs => drained_step parseEventLines hs a) h chunk
    simp only [feedAll, Transducer.feedAll, feed_eq_machine parseEventLines h, ih hdrained]

theorem finish_drained (h : Drained p) :
    (finish parseEventLines p).2 = ((machine parseEventLines).flush p).2 := by
  simp only [finish, drain_of_drained parseEventLines h, machine]
  split_ifs <;> rfl

/-- The events depend on the bytes only, not on the chunks. -/
theorem events_eq_output (chunks : List Bytes) :
    events parseEventLines chunks = (machine parseEventLines).output {} chunks.flatten := by
  have hempty : Drained {} := List.not_mem_nil
  have hdrained := (machine parseEventLines).feed_invariant (I := Drained)
    (fun s a hs => drained_step parseEventLines hs a) hempty chunks.flatten
  rw [events, feedAll_eq_machine parseEventLines hempty, Transducer.feedAll_eq]
  exact congrArg (((machine parseEventLines).feed {} chunks.flatten).2 ++ ·)
    (finish_drained parseEventLines hdrained)

/-! ### Lines and groups -/

/-- The lines of a text that a newline ends. -/
def completeLines (text : Bytes) : List Bytes := (text.splitOn LF).dropLast

/-- What stands behind the last newline. -/
def unfinished (text : Bytes) : Bytes := (text.splitOn LF).getLastD []

/-- The bytes that are read. -/
def clean (stream : Bytes) : Bytes := stream.filter (· != CR)

theorem completeLines_free {text : Bytes} (h : LF ∉ text) : completeLines text = [] := by
  rw [completeLines, List.splitOn_eq_singleton h]
  rfl

theorem completeLines_line {line : Bytes} (h : LF ∉ line) (rest : Bytes) :
    completeLines (line ++ LF :: rest) = line :: completeLines rest := by
  rw [completeLines, List.splitOn_append_cons_self, List.splitOn_eq_singleton h,
    List.singleton_append, List.dropLast_cons_of_ne_nil (List.splitOn_ne_nil LF rest), completeLines]

/-- Blank lines separate events. -/
def isBlankLine (line : Bytes) : Bool := line.isEmpty

theorem blank_nil : isBlankLine [] = true := rfl

/-- What a parser state stands for. -/
def meaning (p : SseParser) (rest : Bytes) : List E :=
  (groups isBlankLine (p.eventLines ++ completeLines (p.buffer ++ clean rest))).map parseEventLines

/-- The invariant of the machine. -/
structure Ready (p : SseParser) : Prop where
  drained : Drained p
  lines : ∀ line ∈ p.eventLines, isBlankLine line = false

theorem ready_step (h : Ready p) (b : Byte) : Ready ((machine parseEventLines).step p b).1 := by
  refine ⟨drained_step parseEventLines h.drained b, ?_⟩
  simp only [machine, takeLine]
  split_ifs with hcr hlf hline hpending
  · exact h.lines
  · exact h.lines
  · intro line hmem
    cases hmem
  · intro line hmem
    rcases List.mem_append.mp hmem with hmem | hmem
    · exact h.lines line hmem
    · rw [List.mem_singleton.mp hmem]
      exact List.isEmpty_eq_false_iff.mpr hline
  · exact h.lines

theorem meaning_step (h : Ready p) (b : Byte) (rest : Bytes) :
    meaning parseEventLines p (b :: rest) =
      ((machine parseEventLines).step p b).2 ++
        meaning parseEventLines ((machine parseEventLines).step p b).1 rest := by
  simp only [machine, takeLine]
  split_ifs with hcr hlf hline hpending
  · have hclean : clean (b :: rest) = clean rest := List.filter_cons_of_neg (by simpa using hcr)
    rw [meaning, hclean, List.nil_append, meaning]
  · have hclean : clean (b :: rest) = LF :: clean rest := by
      rw [hlf]
      exact List.filter_cons_of_pos (by decide)
    have hlines : completeLines (LF :: clean rest) = [] :: completeLines (clean rest) :=
      completeLines_line (List.not_mem_nil (a := LF)) (clean rest)
    have hgroups := groups_append_sep [] (completeLines (clean rest)) blank_nil
    rw [List.nil_append, groups_nil, List.nil_append] at hgroups
    simp only [meaning, hclean, hpending, hline, List.nil_append, hlines, hgroups]
  · have hclean : clean (b :: rest) = LF :: clean rest := by
      rw [hlf]
      exact List.filter_cons_of_pos (by decide)
    rw [meaning, hclean, completeLines_line h.drained, hline,
      groups_append_sep p.eventLines _ blank_nil, groups_run h.lines, asGroup_of_ne hpending,
      List.map_append, meaning]
    rfl
  · have hclean : clean (b :: rest) = LF :: clean rest := by
      rw [hlf]
      exact List.filter_cons_of_pos (by decide)
    rw [meaning, hclean, completeLines_line h.drained, List.nil_append, meaning,
      List.append_assoc, List.singleton_append, List.nil_append]
  · have hclean : clean (b :: rest) = b :: clean rest :=
      List.filter_cons_of_pos (by simpa using hcr)
    rw [meaning, hclean, List.nil_append, meaning, List.append_assoc, List.singleton_append]

theorem meaning_flush (h : Ready p) :
    meaning parseEventLines p [] = ((machine parseEventLines).flush p).2 := by
  have hclean : clean [] = [] := rfl
  rw [meaning, hclean, List.append_nil, completeLines_free h.drained, List.append_nil,
    groups_run h.lines]
  simp only [machine]
  split_ifs with hpending
  · rw [hpending]
    rfl
  · rw [asGroup_of_ne hpending]
    rfl

/-- A parser yields one event for each group of complete lines. -/
theorem events_eq (chunks : List Bytes) :
    events parseEventLines chunks =
      (groups isBlankLine (completeLines (clean chunks.flatten))).map parseEventLines := by
  have hready : Ready {} := ⟨List.not_mem_nil, fun _ h => by cases h⟩
  rw [events_eq_output, Transducer.output_eq (meaning parseEventLines)
    (fun s a hs => ready_step parseEventLines hs a)
    (fun s a rest hs => meaning_step parseEventLines hs a rest)
    (fun s hs => meaning_flush parseEventLines hs) hready]
  rfl

end SseParser

end KimixNative.Llm
