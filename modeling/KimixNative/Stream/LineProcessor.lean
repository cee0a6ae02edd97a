import KimixNative.Stream.AnsiEscapes
import KimixNative.Text.Utf8

/-!
# The line processor

`LineProcessor` turns a byte stream into output lines: escapes are stripped, CR, LF and CRLF
end a line, repeated lines are collapsed, long lines are folded, and two budgets cut the
output off. The fields of the class stand here by stage: the stripper, the splitter with the
line it is on, and the sink with the buffered lines, the budget latch and the counters.

The texts a processor reads are shorter than `2^64` bytes in all, so its counters do not wrap;
the count of a repeated line is a `uint32_t` and may.
-/

namespace KimixNative.Stream

open Text

def CR : Byte := 0x0D

def LF : Byte := 0x0A

/-- `process_options`. -/
structure ProcessOptions where
  stripAnsi : Bool := true
  dedupMode : Nat := 0
  threshold : Nat := 3
  blockWindow : Nat := 3
  maxBytes : Nat := 0
  maxLines : Nat := 0
  foldCol : Nat := 0
  deriving DecidableEq, Repr

structure Splitter where
  lineBuf : Bytes := []
  pendingCr : Bool := false
  deriving DecidableEq, Repr

structure Sink where
  lines : List Bytes := []
  budgetExhausted : Bool := false
  bytesWritten : Nat := 0
  codePointsWritten : Nat := 0
  linesWritten : Nat := 0
  deriving DecidableEq, Repr

structure LineProcessor where
  ansi : AnsiStripper := {}
  split : Splitter := {}
  sink : Sink := {}
  deriving DecidableEq, Repr

/-! ## Folding and budgets -/

/-- `emit_segment`: the sink and what is appended to `out_lines`. -/
def emitSegment (opts : ProcessOptions) (s : Sink) (segment : Bytes) : Sink × List Bytes :=
  if s.budgetExhausted then (s, [])
  else if 0 < opts.maxLines ∧ opts.maxLines ≤ s.linesWritten then
    ({ s with budgetExhausted := true }, [])
  else if 0 < opts.maxBytes ∧ opts.maxBytes < s.bytesWritten + segment.length then
    ({ s with budgetExhausted := true }, [])
  else
    ({ s with
        bytesWritten      := s.bytesWritten + segment.length
        codePointsWritten := s.codePointsWritten + utf8CodePointCount segment
        linesWritten      := s.linesWritten + 1 },
      [segment])

def emitSegments (opts : ProcessOptions) : Transducer Sink Bytes Bytes :=
  ⟨emitSegment opts, fun s => (s, [])⟩

/-- The loop of `fold_and_emit`: `seg` is the text from `seg_start` on, with `cps` code
points. -/
def foldLoop (foldCol : Nat) (seg : Bytes) (cps : Nat) : Bytes → List Bytes
  | [] => if seg = [] then [] else [seg]
  | b :: rest =>
    if cps + 1 = foldCol then
      (seg ++ (b :: rest).take (cpLength (b :: rest))) ::
        foldLoop foldCol [] 0 ((b :: rest).drop (cpLength (b :: rest)))
    else
      foldLoop foldCol (seg ++ (b :: rest).take (cpLength (b :: rest))) (cps + 1)
        ((b :: rest).drop (cpLength (b :: rest)))
termination_by rest => rest.length
decreasing_by
  all_goals
    have hbounds := cpLength_bounds b rest
    simp only [List.length_drop, List.length_cons] at hbounds ⊢
    omega

/-- The segments of a line, in the order they are emitted. -/
def segments (foldCol : Nat) (line : Bytes) : List Bytes :=
  if foldCol = 0 then [line] else if line = [] then [[]] else foldLoop foldCol [] 0 line

/-- `fold_and_emit`. -/
def foldAndEmit (opts : ProcessOptions) (s : Sink) (line : Bytes) : Sink × List Bytes :=
  (emitSegments opts).feed s (segments opts.foldCol line)

/-! ## Splitting -/

/-- `finalize_line`, given the line that `line_buf_` held. -/
def finalizeLine (opts : ProcessOptions) (s : Sink) (line : Bytes) : Sink × List Bytes :=
  if opts.dedupMode ≠ 0 then ({ s with lines := s.lines ++ [line] }, [])
  else foldAndEmit opts s line

def isTerminator (b : Byte) : Bool := b == CR || b == LF

/-- A byte that no pending CR waits for, with the rest of the chunk. -/
def freshByte (opts : ProcessOptions) (split : Splitter) (s : Sink) (b : Byte) (rest : Bytes) :
    (Splitter × Sink) × Bytes × List Bytes :=
  if b = CR then (({ split with pendingCr := true }, s), rest, [])
  else if b = LF then
    (({ split with lineBuf := [] }, (finalizeLine opts s split.lineBuf).1), rest,
      (finalizeLine opts s split.lineBuf).2)
  else
    (({ split with lineBuf := split.lineBuf ++ (b :: rest).takeWhile (!isTerminator ·) }, s),
      (b :: rest).dropWhile (!isTerminator ·), [])

/-- One round of the loop of `process_cleaned`. -/
def cleanedRound (opts : ProcessOptions) (split : Splitter) (s : Sink) (b : Byte) (rest : Bytes) :
    (Splitter × Sink) × Bytes × List Bytes :=
  if split.pendingCr then
    let closed := finalizeLine opts s split.lineBuf
    if b = LF then ((⟨[], false⟩, closed.1), rest, closed.2)
    else
      let round := freshByte opts ⟨[], false⟩ closed.1 b rest
      (round.1, round.2.1, closed.2 ++ round.2.2)
  else freshByte opts split s b rest

theorem freshByte_decreases (opts : ProcessOptions) (split : Splitter) (s : Sink) (b : Byte)
    (rest : Bytes) : (freshByte opts split s b rest).2.1.length ≤ rest.length := by
  unfold freshByte
  split_ifs with hcr hlf
  · exact le_rfl
  · exact le_rfl
  · have hb : (!isTerminator b) = true := by simp [isTerminator, hcr, hlf]
    exact AnsiStripper.length_dropWhile_plain (p := (!isTerminator ·)) hb rest

theorem cleanedRound_decreases (opts : ProcessOptions) (split : Splitter) (s : Sink) (b : Byte)
    (rest : Bytes) : (cleanedRound opts split s b rest).2.1.length < (b :: rest).length := by
  have hfresh := fun split s => freshByte_decreases opts split s b rest
  simp only [cleanedRound, List.length_cons]
  split_ifs
  · simp
  · exact Nat.lt_succ_of_le (hfresh _ _)
  · exact Nat.lt_succ_of_le (hfresh _ _)

/-- `process_cleaned`. -/
def processCleaned (opts : ProcessOptions) (split : Splitter) (s : Sink) :
    Bytes → (Splitter × Sink) × List Bytes
  | [] => ((split, s), [])
  | b :: rest =>
    let round := cleanedRound opts split s b rest
    let tail := processCleaned opts round.1.1 round.1.2 round.2.1
    (tail.1, round.2.2 ++ tail.2)
termination_by cleaned => cleaned.length
decreasing_by exact cleanedRound_decreases opts split s b rest

/-! ## Collapsing repeats -/

/-- `annotate`. -/
def annotate (line : Bytes) (cnt : Nat) : Bytes :=
  line ++ ascii "  (" ++ decimal cnt ++ ascii " repeats)"

/-- The second loop of the counter mode over the lines that are left. -/
def countedLoop (threshold : Nat) (all : List Bytes) (emitted : List Bytes) :
    List Bytes → List Bytes
  | [] => []
  | line :: rest =>
    let cnt := all.count line % 2 ^ 32
    if threshold < cnt then
      if line ∈ emitted then countedLoop threshold all emitted rest
      else annotate line cnt :: countedLoop threshold all (line :: emitted) rest
    else line :: countedLoop threshold all emitted rest

/-- `block_eq`. -/
def blockEq (lines : List Bytes) (a b h : Nat) : Bool :=
  (List.range h).all fun k => lines[a + k]? == lines[b + k]?

/-- The repeats of the block of height `h` at `i`, counted from `j` on. -/
def countRepeats (lines : List Bytes) (consumed : List Bool) (i h j : Nat) : Nat :=
  if h = 0 then 0
  else if hfit : j + h ≤ lines.length then
    if blockEq lines i j h && !((List.range h).any fun k => consumed[j + k]? == some true) then
      countRepeats lines consumed i h (j + h) + 1
    else 0
  else 0
termination_by lines.length - j

/-- The search for the tallest block at `i` that repeats often enough: its height and its
repeats. -/
def tallestBlock (threshold : Nat) (lines : List Bytes) (consumed : List Bool) (i : Nat) :
    Nat → Option (Nat × Nat)
  | 0 => none
  | h + 1 =>
    if threshold < countRepeats lines consumed i (h + 1) i then
      some (h + 1, countRepeats lines consumed i (h + 1) i)
    else tallestBlock threshold lines consumed i h

theorem tallestBlock_pos {threshold : Nat} {lines : List Bytes} {consumed : List Bool}
    {i : Nat} : ∀ {hMax : Nat} {block : Nat × Nat},
      tallestBlock threshold lines consumed i hMax = some block → 0 < block.1 * block.2
  | 0, _, h => by cases h
  | hMax + 1, block, h => by
      rw [tallestBlock] at h
      split at h
      · obtain rfl := Option.some_inj.mp h
        exact Nat.mul_pos (Nat.succ_pos hMax) (by omega)
      · exact tallestBlock_pos h

def consume (consumed : List Bool) (i count : Nat) : List Bool :=
  (List.range count).foldl (fun marks k => marks.set (i + k) true) consumed

/-- The loop of the block mode. -/
def blockLoop (threshold blockWindow : Nat) (lines : List Bytes) (consumed : List Bool) (i : Nat) :
    List Bytes :=
  if hi : i < lines.length then
    if consumed[i]? = some true then blockLoop threshold blockWindow lines consumed (i + 1)
    else
      match hblock : tallestBlock threshold lines consumed i (min blockWindow (lines.length - i)) with
      | some (h, repeats) =>
        (lines.drop i).take (h - 1) ++ [annotate (lines[i + h - 1]?.getD []) repeats] ++
          blockLoop threshold blockWindow lines (consume consumed i (h * repeats)) (i + h * repeats)
      | none => lines[i] :: blockLoop threshold blockWindow lines (consume consumed i 1) (i + 1)
  else []
termination_by lines.length - i
decreasing_by
  · omega
  · have hpos := tallestBlock_pos hblock
    simp only at hpos
    omega
  · omega

/-- The lines `emit_deduped` folds and emits. -/
def dedupLines (opts : ProcessOptions) (lines : List Bytes) : List Bytes :=
  if opts.dedupMode = 1 ∨ opts.blockWindow ≤ 1 then countedLoop opts.threshold lines [] lines
  else blockLoop opts.threshold opts.blockWindow lines (List.replicate lines.length false) 0

/-- `emit_deduped`. -/
def emitDeduped (opts : ProcessOptions) (s : Sink) : Sink × List Bytes :=
  let emitted := (emitSegments opts).feed s
    ((dedupLines opts s.lines).flatMap (segments opts.foldCol))
  ({ emitted.1 with lines := [] }, emitted.2)

/-! ## Chunks -/

namespace LineProcessor

/-- `feed`. -/
def feed (opts : ProcessOptions) (p : LineProcessor) (chunk : Bytes) :
    LineProcessor × List Bytes :=
  if opts.stripAnsi = false then
    let done := processCleaned opts p.split p.sink chunk
    (⟨p.ansi, done.1.1, done.1.2⟩, done.2)
  else
    let cleaned := p.ansi.feed chunk
    let done := processCleaned opts p.split p.sink cleaned.2
    (⟨cleaned.1, done.1.1, done.1.2⟩, done.2)

/-- The end of the line the splitter is on: a lone CR first, then what is left over. -/
def closeLine (opts : ProcessOptions) (split : Splitter) (s : Sink) :
    (Splitter × Sink) × List Bytes :=
  let cr := if split.pendingCr then finalizeLine opts s split.lineBuf else (s, [])
  let buf := if split.pendingCr then [] else split.lineBuf
  let last := if buf ≠ [] then finalizeLine opts cr.1 buf else (cr.1, [])
  ((⟨[], false⟩, last.1), cr.2 ++ last.2)

/-- `flush`. -/
def flush (opts : ProcessOptions) (p : LineProcessor) : LineProcessor × List Bytes :=
  let held := p.ansi.flush
  let cleaned := processCleaned opts p.split p.sink held.2
  let closed := closeLine opts cleaned.1.1 cleaned.1.2
  let deduped :=
    if opts.dedupMode ≠ 0 ∧ closed.1.2.lines ≠ [] then emitDeduped opts closed.1.2
    else (closed.1.2, [])
  (⟨held.1, closed.1.1, deduped.1⟩, cleaned.2 ++ closed.2 ++ deduped.2)

/-- Chunk after chunk through `feed`. -/
def feedAll (opts : ProcessOptions) (p : LineProcessor) : List Bytes → LineProcessor × List Bytes
  | [] => (p, [])
  | chunk :: chunks =>
    let rest := feedAll opts (p.feed opts chunk).1 chunks
    (rest.1, (p.feed opts chunk).2 ++ rest.2)

/-- The whole life of a processor: the chunks, then `flush`. -/
def process (opts : ProcessOptions) (chunks : List Bytes) : LineProcessor × List Bytes :=
  let fed := feedAll opts {} chunks
  ((fed.1.flush opts).1, fed.2 ++ (fed.1.flush opts).2)

end LineProcessor

/-! ## `filter_output` -/

/-- `crlf_normalize_in_place`; the write index never passes the read index. -/
def crlfNormalize : Bytes → Bytes
  | [] => []
  | [b] => if b = CR then [LF] else [b]
  | b :: c :: rest =>
    if b = CR then
      if c = LF then LF :: crlfNormalize rest else LF :: crlfNormalize (c :: rest)
    else b :: crlfNormalize (c :: rest)

def filterOutput (utf8 : Bytes) : Bytes := crlfNormalize (stripAnsi utf8)

end KimixNative.Stream
