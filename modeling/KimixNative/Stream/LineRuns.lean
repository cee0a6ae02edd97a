import KimixNative.Stream.LineProcessor

/-!
# Runs of the line processor

The processor is three machines in a row: the stripper, the splitter that emits finished
lines, and the sink that collapses, folds and counts them. Chunk boundaries do not matter to
any of them, and what the three emit is computed here one stage at a time.
-/

namespace KimixNative.Stream

open Text

variable {opts : ProcessOptions}

/-! ## The three stages -/

namespace Splitter

def fresh (s : Splitter) (b : Byte) : Splitter × List Bytes :=
  if b = CR then ({ s with pendingCr := true }, [])
  else if b = LF then ({ s with lineBuf := [] }, [s.lineBuf])
  else ({ s with lineBuf := s.lineBuf ++ [b] }, [])

def stepByte (s : Splitter) (b : Byte) : Splitter × List Bytes :=
  if s.pendingCr then
    if b = LF then (⟨[], false⟩, [s.lineBuf])
    else ((fresh ⟨[], false⟩ b).1, s.lineBuf :: (fresh ⟨[], false⟩ b).2)
  else s.fresh b

def flush (s : Splitter) : Splitter × List Bytes :=
  (⟨[], false⟩,
    if s.pendingCr then [s.lineBuf] else if s.lineBuf = [] then [] else [s.lineBuf])

/-- Bytes in, finished lines out. -/
def machine : Transducer Splitter Byte Bytes := ⟨stepByte, flush⟩

theorem feed_text_run {run : Bytes} (hrun : run.all (!isTerminator ·)) (buf : Bytes) :
    machine.feed ⟨buf, false⟩ run = (⟨buf ++ run, false⟩, []) := by
  induction run generalizing buf with
  | nil => simp
  | cons b run ih =>
    simp only [List.all_cons, Bool.and_eq_true, isTerminator, Bool.not_eq_true',
      Bool.or_eq_false_iff, beq_eq_false_iff_ne] at hrun
    have hstep : stepByte ⟨buf, false⟩ b = (⟨buf ++ [b], false⟩, []) := by
      simp [stepByte, fresh, hrun.1.1, hrun.1.2]
    have hrest := ih (by simpa [isTerminator] using hrun.2) (buf ++ [b])
    rw [List.append_assoc] at hrest
    simp [Transducer.feed_cons, machine, hstep] at hrest ⊢
    rw [hrest]

end Splitter

namespace Sink

def flush (opts : ProcessOptions) (s : Sink) : Sink × List Bytes :=
  if opts.dedupMode ≠ 0 ∧ s.lines ≠ [] then emitDeduped opts s else (s, [])

/-- Finished lines in, output lines out. -/
def machine (opts : ProcessOptions) : Transducer Sink Bytes Bytes :=
  ⟨finalizeLine opts, flush opts⟩

end Sink

/-- From cleaned bytes to output lines. -/
def lineMachine (opts : ProcessOptions) : Transducer (Splitter × Sink) Byte Bytes :=
  Splitter.machine.comp (Sink.machine opts)

/-- A round of the loop is a run of the splitter whose lines the sink reads. -/
theorem freshByte_machine (buf : Bytes) (s : Sink) (b : Byte) (rest : Bytes) :
    ∃ lines, (Sink.machine opts).feed s lines =
        ((freshByte opts ⟨buf, false⟩ s b rest).1.2, (freshByte opts ⟨buf, false⟩ s b rest).2.2) ∧
      Splitter.machine.feed ⟨buf, false⟩ (b :: rest) =
        ((Splitter.machine.feed (freshByte opts ⟨buf, false⟩ s b rest).1.1
            (freshByte opts ⟨buf, false⟩ s b rest).2.1).1,
          lines ++ (Splitter.machine.feed (freshByte opts ⟨buf, false⟩ s b rest).1.1
            (freshByte opts ⟨buf, false⟩ s b rest).2.1).2) := by
  by_cases hcr : b = CR
  · refine ⟨[], by simp [freshByte, hcr], ?_⟩
    simp [freshByte, hcr, Transducer.feed_cons, Splitter.machine, Splitter.stepByte, Splitter.fresh]
  · by_cases hlf : b = LF
    · refine ⟨[buf], ?_, ?_⟩
      · simp [freshByte, hlf, Sink.machine, show LF ≠ CR by decide]
      · simp [freshByte, hlf, Transducer.feed_cons, Splitter.machine, Splitter.stepByte,
          Splitter.fresh, show LF ≠ CR by decide]
    · have hsplit :=
        List.takeWhile_append_dropWhile (p := (!isTerminator ·)) (l := b :: rest)
      refine ⟨[], by simp [freshByte, hcr, hlf], ?_⟩
      simp only [freshByte, if_neg hcr, if_neg hlf]
      conv_lhs =>
        rw [← hsplit, Transducer.feed_append, Splitter.feed_text_run List.all_takeWhile]

theorem cleanedRound_machine (split : Splitter) (s : Sink) (b : Byte) (rest : Bytes) :
    ∃ lines, (Sink.machine opts).feed s lines =
        ((cleanedRound opts split s b rest).1.2, (cleanedRound opts split s b rest).2.2) ∧
      Splitter.machine.feed split (b :: rest) =
        ((Splitter.machine.feed (cleanedRound opts split s b rest).1.1
            (cleanedRound opts split s b rest).2.1).1,
          lines ++ (Splitter.machine.feed (cleanedRound opts split s b rest).1.1
            (cleanedRound opts split s b rest).2.1).2) := by
  obtain ⟨buf, cr⟩ := split
  cases cr with
  | false => exact freshByte_machine buf s b rest
  | true =>
    by_cases hlf : b = LF
    · refine ⟨[buf], ?_, ?_⟩
      · simp [cleanedRound, hlf, Sink.machine]
      · simp [cleanedRound, hlf, Transducer.feed_cons, Splitter.machine, Splitter.stepByte]
    · obtain ⟨lines, hsink, hfeed⟩ :=
        @freshByte_machine opts [] (finalizeLine opts s buf).1 b rest
      refine ⟨buf :: lines, ?_, ?_⟩
      · rw [Transducer.feed_cons]
        simp only [Sink.machine] at hsink ⊢
        simp [cleanedRound, hlf, hsink]
      · have hstep : Splitter.machine.feed ⟨buf, true⟩ (b :: rest) =
            ((Splitter.machine.feed ⟨[], false⟩ (b :: rest)).1,
              buf :: (Splitter.machine.feed ⟨[], false⟩ (b :: rest)).2) := by
          simp [Transducer.feed_cons, Splitter.machine, Splitter.stepByte, hlf]
        rw [hstep, hfeed]
        simp [cleanedRound, hlf]

/-- The loop of `process_cleaned` is the machine. -/
theorem processCleaned_eq (split : Splitter) (s : Sink) (cleaned : Bytes) :
    processCleaned opts split s cleaned = (lineMachine opts).feed (split, s) cleaned := by
  induction split, s, cleaned using processCleaned.induct opts with
  | case1 split s => rw [processCleaned, Transducer.feed_nil]
  | case2 split s b rest round ih =>
    obtain ⟨lines, hsink, hfeed⟩ := @cleanedRound_machine opts split s b rest
    rw [processCleaned]
    simp only [round] at ih
    simp only [ih, lineMachine, Transducer.feed_comp, hfeed, Transducer.feed_append, hsink]

namespace LineProcessor

theorem closeLine_eq (split : Splitter) (s : Sink) :
    closeLine opts split s =
      ((split.flush.1, ((Sink.machine opts).feed s split.flush.2).1),
        ((Sink.machine opts).feed s split.flush.2).2) := by
  obtain ⟨buf, cr⟩ := split
  cases cr with
  | true => simp [closeLine, Splitter.flush, Sink.machine]
  | false =>
    by_cases hbuf : buf = [] <;> simp [closeLine, Splitter.flush, Sink.machine, hbuf]

/-- The bytes the splitter reads. -/
def cleaned (opts : ProcessOptions) (text : Bytes) : Bytes :=
  if opts.stripAnsi then stripAnsi text else text

/-- What the stripper's state may be. -/
def Ready (opts : ProcessOptions) (p : LineProcessor) : Prop :=
  if opts.stripAnsi then p.ansi.Holds else p.ansi = {}

theorem feed_append {p : LineProcessor} (h : p.Ready opts) (xs ys : Bytes) :
    p.feed opts (xs ++ ys) =
      (((p.feed opts xs).1.feed opts ys).1,
        (p.feed opts xs).2 ++ ((p.feed opts xs).1.feed opts ys).2) := by
  cases hstrip : opts.stripAnsi with
  | false => simp [feed, hstrip, processCleaned_eq, Transducer.feed_append]
  | true =>
    simp only [Ready, hstrip, if_true] at h
    have hansi := AnsiStripper.feed_append h xs ys
    simp [feed, hstrip, processCleaned_eq, hansi, Transducer.feed_append]

theorem ready_feed {p : LineProcessor} (h : p.Ready opts) (chunk : Bytes) :
    (p.feed opts chunk).1.Ready opts := by
  unfold Ready at h ⊢
  cases hstrip : opts.stripAnsi with
  | false =>
    simp only [hstrip] at h ⊢
    simpa [feed, hstrip] using h
  | true =>
    simp only [hstrip, if_true] at h ⊢
    simp only [feed, hstrip, reduceCtorEq, if_false]
    exact AnsiStripper.holds_feed h chunk

theorem feed_nil (p : LineProcessor) : p.feed opts [] = (p, []) := by
  have hansi : p.ansi.feed [] = (p.ansi, []) := by rw [AnsiStripper.feed]
  cases hstrip : opts.stripAnsi <;> simp [feed, hstrip, hansi, processCleaned]

theorem feedAll_eq {p : LineProcessor} (h : p.Ready opts) (chunks : List Bytes) :
    p.feedAll opts chunks = p.feed opts chunks.flatten := by
  induction chunks generalizing p with
  | nil => rw [List.flatten_nil, feed_nil, feedAll]
  | cons chunk chunks ih =>
    rw [feedAll, List.flatten_cons, feed_append h, ih (ready_feed h chunk)]

theorem ready_new : ({} : LineProcessor).Ready opts := by
  unfold Ready
  split
  · exact .normal
  · rfl

/-- `flush` reads what the stripper held back and ends the line. -/
theorem flush_output (p : LineProcessor) :
    (p.flush opts).2 = (lineMachine opts).output (p.split, p.sink) p.ansi.flush.2 := by
  simp only [flush, processCleaned_eq, closeLine_eq, Transducer.output]
  rw [List.append_assoc]
  rfl

/-- The output of a whole run, stage after stage. -/
theorem process_output (chunks : List Bytes) :
    (process opts chunks).2 =
      (Sink.machine opts).output {} (Splitter.machine.output {} (cleaned opts chunks.flatten)) := by
  have hfed : ({} : LineProcessor).feedAll opts chunks =
      ({} : LineProcessor).feed opts chunks.flatten := feedAll_eq ready_new chunks
  rw [← Transducer.output_comp]
  simp only [process, hfed, flush_output]
  cases hstrip : opts.stripAnsi with
  | false =>
    have hheld : AnsiStripper.flush {} = ({}, []) := by rw [AnsiStripper.flush, dif_pos rfl]
    simp only [feed, hstrip, if_true, cleaned, hheld, processCleaned_eq]
    rw [← Transducer.output_append, List.append_nil]
    rfl
  | true =>
    simp only [feed, hstrip, Bool.true_eq_false, if_false, if_true, cleaned, processCleaned_eq,
      stripAnsi]
    rw [← lineMachine, Transducer.output_append]

end LineProcessor

/-! ## The lines of a text -/

/-- The lines that LF separates; a LF at the end begins no further one. -/
def newlineSeparated (text : Bytes) : List Bytes :=
  let lines := text.splitOn LF
  if lines.getLast? = some [] then lines.dropLast else lines

/-- The lines that LF ends or the end of the text does, in front of which `buf` was read. -/
def linesFrom (buf : Bytes) : Bytes → List Bytes
  | [] => if buf = [] then [] else [buf]
  | b :: rest => if b = LF then buf :: linesFrom [] rest else linesFrom (buf ++ [b]) rest

theorem splitOn_linesFrom (buf text : Bytes) (hbuf : LF ∉ buf) :
    linesFrom buf text =
      if ((buf ++ text).splitOn LF).getLast? = some [] then ((buf ++ text).splitOn LF).dropLast
      else (buf ++ text).splitOn LF := by
  induction text generalizing buf with
  | nil =>
    have hsplit : buf.splitOn LF = [buf] := List.splitOn_eq_singleton hbuf
    simp only [List.append_nil, hsplit, linesFrom]
    by_cases h : buf = [] <;> simp [h]
  | cons b text ih =>
    by_cases hb : b = LF
    · have hsplit : (buf ++ b :: text).splitOn LF = buf :: text.splitOn LF := by
        rw [hb]
        exact List.splitOn_append_cons_self_of_not_mem hbuf text
      have hne : text.splitOn LF ≠ [] := List.splitOn_ne_nil LF text
      have hrest := ih [] (by simp)
      rw [List.nil_append] at hrest
      rw [linesFrom, if_pos hb, hsplit, hrest]
      rw [List.getLast?_cons, List.dropLast_cons_of_ne_nil hne]
      cases hlast : (text.splitOn LF).getLast? with
      | none => exact absurd (List.getLast?_eq_none_iff.mp hlast) hne
      | some l => by_cases hl : l = [] <;> simp [hl]
    · have hrest := ih (buf ++ [b]) (by simp [hbuf, Ne.symm hb])
      rw [linesFrom, if_neg hb, hrest, List.append_assoc]
      rfl

theorem newlineSeparated_eq (text : Bytes) : newlineSeparated text = linesFrom [] text := by
  rw [splitOn_linesFrom [] text (by simp)]
  rfl

theorem crlfNormalize_cons {b : Byte} (hb : b ≠ CR) (rest : Bytes) :
    crlfNormalize (b :: rest) = b :: crlfNormalize rest := by
  cases rest with
  | nil => simp [crlfNormalize, hb]
  | cons c rest => simp [crlfNormalize, hb]

theorem crlfNormalize_crlf (rest : Bytes) :
    crlfNormalize (CR :: LF :: rest) = LF :: crlfNormalize rest := by
  simp [crlfNormalize]

theorem crlfNormalize_cr {b : Byte} (hb : b ≠ LF) (rest : Bytes) :
    crlfNormalize (CR :: b :: rest) = LF :: crlfNormalize (b :: rest) := by
  simp [crlfNormalize, hb]

namespace Splitter

/-- What a state stands for: the line it is on and the CR it holds back. -/
def meaning (s : Splitter) (rest : Bytes) : List Bytes :=
  linesFrom s.lineBuf (crlfNormalize (if s.pendingCr then CR :: rest else rest))

theorem meaning_fresh (buf : Bytes) (b : Byte) (rest : Bytes) :
    linesFrom buf (crlfNormalize (b :: rest)) =
      (fresh ⟨buf, false⟩ b).2 ++ (fresh ⟨buf, false⟩ b).1.meaning rest := by
  by_cases hcr : b = CR
  · simp [fresh, hcr, meaning]
  · rw [crlfNormalize_cons hcr]
    by_cases hlf : b = LF
    · simp [fresh, hlf, meaning, linesFrom, show LF ≠ CR by decide]
    · simp [fresh, hcr, hlf, meaning, linesFrom]

theorem meaning_step (s : Splitter) (b : Byte) (rest : Bytes) :
    s.meaning (b :: rest) = (s.stepByte b).2 ++ (s.stepByte b).1.meaning rest := by
  obtain ⟨buf, cr⟩ := s
  cases cr with
  | false => exact meaning_fresh buf b rest
  | true =>
    by_cases hlf : b = LF
    · simp [meaning, stepByte, hlf, crlfNormalize_crlf, linesFrom]
    · have hfresh := meaning_fresh [] b rest
      simp [meaning, stepByte, hlf, crlfNormalize_cr hlf, linesFrom, hfresh]

theorem meaning_flush (s : Splitter) : s.meaning [] = s.flush.2 := by
  obtain ⟨buf, cr⟩ := s
  cases cr with
  | false => simp [meaning, flush, crlfNormalize, linesFrom]
  | true => simp [meaning, flush, crlfNormalize, linesFrom]

/-- The splitter emits the lines of the normalised text. -/
theorem output_eq (text : Bytes) : machine.output {} text = newlineSeparated (crlfNormalize text) := by
  have h := Transducer.output_eq (T := machine) (I := fun _ => True) meaning
    (fun _ _ _ => trivial) (fun s b rest _ => meaning_step s b rest)
    (fun s _ => meaning_flush s) (s := {}) trivial text
  rw [h, newlineSeparated_eq]
  rfl

end Splitter

/-! ## Collapsing -/

/-- The lines that are folded and emitted. -/
def collapsed (opts : ProcessOptions) (lines : List Bytes) : List Bytes :=
  if opts.dedupMode = 0 then lines else dedupLines opts lines

namespace Sink

theorem feed_buffered (h : opts.dedupMode ≠ 0) (s : Sink) (lines : List Bytes) :
    (machine opts).feed s lines = ({ s with lines := s.lines ++ lines }, []) := by
  induction lines generalizing s with
  | nil => simp
  | cons line lines ih =>
    have hstep : finalizeLine opts s line = ({ s with lines := s.lines ++ [line] }, []) := if_pos h
    rw [Transducer.feed_cons, ih]
    simp [machine, hstep]

theorem feed_streaming (h : opts.dedupMode = 0) (s : Sink) (lines : List Bytes) :
    (machine opts).feed s lines =
      (emitSegments opts).feed s (lines.flatMap (segments opts.foldCol)) := by
  induction lines generalizing s with
  | nil => simp
  | cons line lines ih =>
    rw [List.flatMap_cons, Transducer.feed_append, Transducer.feed_cons, ih]
    simp [machine, finalizeLine, h, foldAndEmit]

/-- The budgets do not look at the buffered lines. -/
theorem feed_segments_lines (s : Sink) (lines segs : List Bytes) :
    (emitSegments opts).feed { s with lines } segs =
      ({ ((emitSegments opts).feed s segs).1 with lines }, ((emitSegments opts).feed s segs).2) := by
  induction segs generalizing s with
  | nil => rfl
  | cons seg segs ih =>
    have hstep : emitSegment opts { s with lines } seg =
        ({ (emitSegment opts s seg).1 with lines }, (emitSegment opts s seg).2) := by
      unfold emitSegment
      split_ifs <;> rfl
    rw [Transducer.feed_cons, Transducer.feed_cons]
    simp only [emitSegments, hstep] at ih ⊢
    simp only [ih]

theorem dedupLines_nil (opts : ProcessOptions) : dedupLines opts [] = [] := by
  unfold dedupLines
  split
  · rfl
  · rw [blockLoop]
    simp

/-- The sink emits the folded segments of the collapsed lines, as far as the budgets go. -/
theorem output_eq (lines : List Bytes) :
    (machine opts).output {} lines =
      ((emitSegments opts).feed {} ((collapsed opts lines).flatMap (segments opts.foldCol))).2 := by
  by_cases h : opts.dedupMode = 0
  · simp only [Transducer.output, feed_streaming h, collapsed, if_pos h]
    simp [machine, flush, h]
  · simp only [Transducer.output, feed_buffered h, collapsed, if_neg h]
    cases lines with
    | nil => simp [machine, flush, dedupLines_nil]
    | cons line lines =>
      have hlines := @feed_segments_lines opts {} (line :: lines)
        ((dedupLines opts (line :: lines)).flatMap (segments opts.foldCol))
      simp only [machine, flush, h, emitDeduped, List.nil_append, ne_eq, not_false_eq_true,
        reduceCtorEq, and_self, if_true, hlines]

end Sink

/-! ## Folding -/

/-- The loop, on the walk of a text whose pieces before `rest` begin the current segment. -/
theorem foldLoop_spec {foldCol : Nat} {text : Bytes} {pieces : List Bytes} {rest : Bytes}
    (hwalk : codePoints text = pieces ++ codePoints rest) (hlen : pieces.length < foldCol) :
    (foldLoop foldCol pieces.flatten pieces.length rest).flatten = pieces.flatten ++ rest ∧
      ∀ seg ∈ foldLoop foldCol pieces.flatten pieces.length rest,
        utf8CodePointCount seg ≤ foldCol := by
  induction hn : rest.length using Nat.strong_induction_on generalizing text pieces rest with
  | _ n ih =>
  cases rest with
  | nil =>
    have hcount : utf8CodePointCount pieces.flatten = pieces.length := by
      rw [utf8CodePointCount_eq]
      exact congrArg List.length (cuts_of_initial cpLength_local hwalk)
    rw [foldLoop]
    split
    · rename_i hnil
      simp [hnil]
    · refine ⟨by simp, ?_⟩
      intro seg hseg
      rw [List.mem_singleton.mp hseg, hcount]
      omega
  | cons b rest =>
    have hbounds := cpLength_bounds b rest
    rw [codePoints_cons] at hwalk
    have hsplit := List.take_append_drop (cpLength (b :: rest)) (b :: rest)
    have hshort : ((b :: rest).drop (cpLength (b :: rest))).length < n := by
      rw [List.length_drop, ← hn]
      omega
    rw [foldLoop]
    generalize (b :: rest).take (cpLength (b :: rest)) = piece at hwalk hsplit ⊢
    generalize (b :: rest).drop (cpLength (b :: rest)) = rest' at hwalk hsplit hshort ⊢
    have hgrown : codePoints text = (pieces ++ [piece]) ++ codePoints rest' := by simp [hwalk]
    have hflat : pieces.flatten ++ piece = (pieces ++ [piece]).flatten := by simp
    split
    · rename_i hfull
      -- the segment is full: the walk starts afresh behind it
      obtain ⟨hcat, hsegs⟩ := @ih _ hshort rest' [] rest' rfl
        (by simp; omega) rfl
      simp only [List.flatten_nil, List.length_nil, List.nil_append] at hcat hsegs
      refine ⟨?_, ?_⟩
      · rw [List.flatten_cons, hcat, List.append_assoc, hsplit]
      · intro seg hseg
        obtain rfl | hseg := List.mem_cons.mp hseg
        · rw [utf8CodePointCount_eq, hflat, codePoints, cuts_of_initial cpLength_local hgrown]
          simp only [List.length_append, List.length_singleton]
          omega
        · exact hsegs seg hseg
    · rename_i hmore
      have hnext := ih _ hshort hgrown (by simp; omega) rfl
      rw [← hflat, List.length_append, List.length_singleton, List.append_assoc, hsplit] at hnext
      exact hnext

/-- The segments of a line are that line, and none of them is longer than the column. -/
theorem segments_spec {foldCol : Nat} (hpos : 0 < foldCol) (line : Bytes) :
    (segments foldCol line).flatten = line ∧
      ∀ seg ∈ segments foldCol line, utf8CodePointCount seg ≤ foldCol := by
  unfold segments
  rw [if_neg (by omega)]
  split
  · rename_i hline
    simp [hline, utf8CodePointCount_eq, codePoints]
  · have h := @foldLoop_spec foldCol line [] line rfl hpos
    simpa using h

/-! ## Budgets -/

/-- The lines fit the budgets. -/
structure Fits (opts : ProcessOptions) (lines : List Bytes) : Prop where
  count : 0 < opts.maxLines → lines.length ≤ opts.maxLines
  bytes : 0 < opts.maxBytes → (lines.map List.length).sum ≤ opts.maxBytes

theorem feed_exhausted {s : Sink} (h : s.budgetExhausted = true) (segs : List Bytes) :
    (emitSegments opts).feed s segs = (s, []) := by
  induction segs with
  | nil => rfl
  | cons seg segs ih =>
    have hstep : emitSegment opts s seg = (s, []) := by simp [emitSegment, h]
    rw [Transducer.feed_cons]
    simp only [emitSegments, hstep] at ih ⊢
    simp [ih]

/-- The counters say what was emitted so far. -/
structure Counts (s : Sink) (done : List Bytes) : Prop where
  lines : s.linesWritten = done.length
  bytes : s.bytesWritten = (done.map List.length).sum

theorem emitSegment_open {s : Sink} {seg : Bytes} (hopen : s.budgetExhausted = false)
    (hline : ¬(0 < opts.maxLines ∧ opts.maxLines ≤ s.linesWritten))
    (hbyte : ¬(0 < opts.maxBytes ∧ opts.maxBytes < s.bytesWritten + seg.length)) :
    emitSegment opts s seg =
      ({ s with
          bytesWritten      := s.bytesWritten + seg.length
          codePointsWritten := s.codePointsWritten + utf8CodePointCount seg
          linesWritten      := s.linesWritten + 1 },
        [seg]) := by
  simp [emitSegment, hopen, hline, hbyte]

theorem Counts.snoc {s : Sink} {done : List Bytes} (h : Counts s done) (seg : Bytes) :
    Counts
      { s with
          bytesWritten      := s.bytesWritten + seg.length
          codePointsWritten := s.codePointsWritten + utf8CodePointCount seg
          linesWritten      := s.linesWritten + 1 }
      (done ++ [seg]) where
  lines := by simp [h.lines]
  bytes := by simp [h.bytes]

/-- A budget that has no room for the next segment lets nothing through. -/
theorem stopped {done segs out : List Bytes} {seg : Bytes} (hfits : Fits opts done)
    (hout : out = []) (hfull : ¬Fits opts (done ++ [seg])) :
    out <+: seg :: segs ∧ Fits opts (done ++ out) ∧
      ∀ p, p <+: seg :: segs → Fits opts (done ++ p) → p <+: out := by
  subst hout
  refine ⟨List.nil_prefix, by simpa using hfits, ?_⟩
  intro p hp hfit
  cases p with
  | nil => exact List.nil_prefix
  | cons first p =>
    obtain ⟨rfl, -⟩ := List.cons_prefix_cons.mp hp
    refine absurd ⟨?_, ?_⟩ hfull
    · intro hpos
      have hcount := hfit.count hpos
      simp only [List.length_append, List.length_cons, List.length_nil] at hcount ⊢
      omega
    · intro hpos
      have hbytes := hfit.bytes hpos
      simp only [List.map_append, List.map_cons, List.map_nil, List.sum_append, List.sum_cons,
        List.sum_nil] at hbytes ⊢
      omega

/-- From counters that count `done`, the emitted lines are the longest continuation that
fits. -/
theorem feed_longest {s : Sink} {done : List Bytes} (hopen : s.budgetExhausted = false)
    (hcounts : Counts s done) (hfits : Fits opts done) (segs : List Bytes) :
    let out := ((emitSegments opts).feed s segs).2
    out <+: segs ∧ Fits opts (done ++ out) ∧
      ∀ p, p <+: segs → Fits opts (done ++ p) → p <+: out := by
  induction segs generalizing s done with
  | nil =>
    refine ⟨List.nil_prefix, by simpa using hfits, ?_⟩
    intro p hp _
    exact hp
  | cons seg segs ih =>
    by_cases hline : 0 < opts.maxLines ∧ opts.maxLines ≤ s.linesWritten
    · have hstep : emitSegment opts s seg = ({ s with budgetExhausted := true }, []) := by
        simp [emitSegment, hopen, hline]
      refine stopped hfits ?_ ?_
      · rw [Transducer.feed_cons]
        simp only [emitSegments, hstep]
        exact congrArg Prod.snd (@feed_exhausted opts _ rfl segs)
      · intro hnext
        have hcount := hnext.count hline.1
        rw [List.length_append, List.length_singleton, ← hcounts.lines] at hcount
        omega
    · by_cases hbyte : 0 < opts.maxBytes ∧ opts.maxBytes < s.bytesWritten + seg.length
      · have hstep : emitSegment opts s seg = ({ s with budgetExhausted := true }, []) := by
          simp [emitSegment, hopen, hline, hbyte]
        refine stopped hfits ?_ ?_
        · rw [Transducer.feed_cons]
          simp only [emitSegments, hstep]
          exact congrArg Prod.snd (@feed_exhausted opts _ rfl segs)
        · intro hnext
          have hbytes := hnext.bytes hbyte.1
          rw [List.map_append, List.sum_append, ← hcounts.bytes] at hbytes
          simp only [List.map_cons, List.map_nil, List.sum_cons, List.sum_nil] at hbytes
          omega
      · have hstep := emitSegment_open hopen hline hbyte
        have hcounts' := hcounts.snoc seg
        have hfits' : Fits opts (done ++ [seg]) := by
          refine ⟨?_, ?_⟩
          · intro hpos
            rw [List.length_append, List.length_singleton, ← hcounts.lines]
            omega
          · intro hpos
            rw [List.map_append, List.sum_append, ← hcounts.bytes]
            simp only [List.map_cons, List.map_nil, List.sum_cons, List.sum_nil]
            omega
        obtain ⟨hinitial, hout, hlongest⟩ := ih (s := (emitSegment opts s seg).1)
          (by rw [hstep]; exact hopen) (by rw [hstep]; exact hcounts') hfits'
        have hfeed : ((emitSegments opts).feed s (seg :: segs)).2 =
            seg :: ((emitSegments opts).feed (emitSegment opts s seg).1 segs).2 := by
          rw [Transducer.feed_cons]
          simp [emitSegments, hstep]
        simp only [hfeed]
        refine ⟨List.cons_prefix_cons.mpr ⟨rfl, hinitial⟩, ?_, ?_⟩
        · simpa using hout
        · intro p hp hfit
          cases p with
          | nil => exact List.nil_prefix
          | cons first p =>
            obtain ⟨rfl, hrest⟩ := List.cons_prefix_cons.mp hp
            exact List.cons_prefix_cons.mpr ⟨rfl, hlongest p hrest (by simpa using hfit)⟩

/-- Without budgets every segment is emitted. -/
theorem feed_unbudgeted (hlines : opts.maxLines = 0) (hbytes : opts.maxBytes = 0) {s : Sink}
    (hopen : s.budgetExhausted = false) (segs : List Bytes) :
    ((emitSegments opts).feed s segs).2 = segs := by
  induction segs generalizing s with
  | nil => rfl
  | cons seg segs ih =>
    have hstep := @emitSegment_open opts _ seg hopen (by omega) (by omega)
    have hrest := ih (s := (emitSegment opts s seg).1) (by rw [hstep]; exact hopen)
    rw [Transducer.feed_cons]
    simp only [emitSegments] at hrest ⊢
    rw [hrest, hstep]
    rfl

/-! ## Whole runs -/

namespace LineProcessor

/-- The options without budgets. -/
def unbudgeted (opts : ProcessOptions) : ProcessOptions := { opts with maxBytes := 0, maxLines := 0 }

/-- The options without budgets and folding. -/
def unfolded (opts : ProcessOptions) : ProcessOptions := { unbudgeted opts with foldCol := 0 }

/-- The lines of a text after stripping and collapsing. -/
def finished (opts : ProcessOptions) (text : Bytes) : List Bytes :=
  collapsed opts (newlineSeparated (crlfNormalize (cleaned opts text)))

theorem process_finished (chunks : List Bytes) :
    (process opts chunks).2 =
      ((emitSegments opts).feed {}
        ((finished opts chunks.flatten).flatMap (segments opts.foldCol))).2 := by
  rw [process_output, Splitter.output_eq, Sink.output_eq]
  rfl

theorem process_unbudgeted (chunks : List Bytes) :
    (process (unbudgeted opts) chunks).2 =
      (finished opts chunks.flatten).flatMap (segments opts.foldCol) := by
  rw [process_finished, feed_unbudgeted rfl rfl rfl]
  rfl

theorem process_unfolded (chunks : List Bytes) :
    (process (unfolded opts) chunks).2 = finished opts chunks.flatten := by
  rw [process_finished, feed_unbudgeted rfl rfl rfl]
  change (finished opts chunks.flatten).flatMap (fun line => [line]) = _
  simp

/-- Chunk boundaries do not matter; plain lines are those of the filtered text; folded lines
are the lines cut into short segments; and budgets let the longest prefix through that fits. -/
theorem process_chunks (opts : ProcessOptions) (chunks : List Bytes) :
    process opts chunks = process opts [chunks.flatten] ∧
      (opts.dedupMode = 0 → opts.foldCol = 0 → opts.maxBytes = 0 → opts.maxLines = 0 →
        opts.stripAnsi = true →
        (process opts chunks).2 = newlineSeparated (filterOutput chunks.flatten)) ∧
      (process (unbudgeted opts) chunks).2 =
        (process (unfolded opts) chunks).2.flatMap (segments opts.foldCol) ∧
      (0 < opts.foldCol → ∀ line, (segments opts.foldCol line).flatten = line ∧
        ∀ seg ∈ segments opts.foldCol line, utf8CodePointCount seg ≤ opts.foldCol) ∧
      (process opts chunks).2 <+: (process (unbudgeted opts) chunks).2 ∧
      Fits opts (process opts chunks).2 ∧
      ∀ p, p <+: (process (unbudgeted opts) chunks).2 → Fits opts p →
        p <+: (process opts chunks).2 := by
  have hbudget := @feed_longest opts {} [] rfl ⟨rfl, rfl⟩
    ⟨by simp, by simp⟩ ((finished opts chunks.flatten).flatMap (segments opts.foldCol))
  rw [process_unbudgeted, process_unfolded, process_finished]
  simp only [List.nil_append] at hbudget
  refine ⟨?_, ?_, rfl, ?_, hbudget⟩
  · have hfed := @feedAll_eq opts _ ready_new chunks
    have hone := @feedAll_eq opts _ ready_new [chunks.flatten]
    rw [List.flatten_singleton] at hone
    simp only [process, hfed, hone]
  · intro hdedup hfold hbytes hlines hstrip
    rw [feed_unbudgeted hlines hbytes rfl, hfold]
    change (finished opts chunks.flatten).flatMap (fun line => [line]) = _
    simp [finished, collapsed, hdedup, cleaned, hstrip, filterOutput]
  · intro hpos line
    exact segments_spec hpos line

end LineProcessor

end KimixNative.Stream
