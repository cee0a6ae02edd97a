import KimixNative.Text.Utf8

/-!
# The output ring

`OutputRing` keeps the head and the tail of a stream of text. Up to `cap` code points it holds
the text itself; the first chunk that passes the cap splits it, and from then on only the tail
moves. `bounded_append`, the reference it stands for, rebuilds the whole text at every chunk.

Offsets and lengths count code points. The lengths are of strings in memory, so neither the
64-bit counters nor their conversions wrap.
-/

namespace KimixNative.Tools

open Text

/-- The cap and the head length chosen at construction. -/
structure RingShape where
  cap : Nat
  headLen : Nat
  head_le : headLen ≤ cap
  deriving Repr

namespace RingShape

def tailLen (shape : RingShape) : Nat := shape.cap - shape.headLen

/-- `marker`. -/
def marker (shape : RingShape) : Bytes :=
  ascii "\n[... (output truncated, keeping first " ++ decimal shape.headLen ++ ascii " and last " ++
    decimal shape.tailLen ++ ascii " chars)]\n"

end RingShape

/-- `cp_count`. -/
def cpCount (s : Bytes) : Nat := if isAscii s then s.length else utf8CodePointCount s

/-- The loop of `byte_offset_at`. -/
def offsetLoop : Nat → Bytes → Nat
  | 0, _ => 0
  | _ + 1, [] => 0
  | n + 1, b :: rest =>
    cpLength (b :: rest) + offsetLoop n ((b :: rest).drop (cpLength (b :: rest)))

/-- `byte_offset_at`. -/
def byteOffsetAt (s : Bytes) (charIndex : Nat) : Nat :=
  if isAscii s then (if s.length < charIndex then s.length else charIndex)
  else offsetLoop charIndex s

/-- `trim_front_to`. -/
def trimFrontTo (s : Bytes) (keep : Nat) : Bytes :=
  if cpCount s ≤ keep then s else s.drop (byteOffsetAt s (cpCount s - keep))

structure OutputRing where
  buf : Bytes := []
  head : Bytes := []
  tail : Bytes := []
  chars : Nat := 0
  tailChars : Nat := 0
  truncated : Bool := false
  deriving DecidableEq, Repr

namespace OutputRing

variable (shape : RingShape)

/-- `build_truncated`. -/
def buildTruncated (ring : OutputRing) (full : Bytes) (totalChars : Nat) : OutputRing :=
  if totalChars ≤ shape.cap then { ring with buf := full, chars := totalChars }
  else
    let headBytes := byteOffsetAt full shape.headLen
    let tailBytes :=
      if 0 < shape.tailLen then byteOffsetAt full (totalChars - shape.tailLen) else full.length
    { ring with
      head      := full.take headBytes
      tail      := full.drop tailBytes
      tailChars := shape.tailLen
      truncated := true
      chars     := shape.headLen + cpCount shape.marker + shape.tailLen }

/-- `trim_tail`. -/
def trimTail (ring : OutputRing) : OutputRing :=
  if shape.tailLen = 0 then { ring with tail := [], tailChars := 0 }
  else if ring.tailChars ≤ shape.tailLen then ring
  else { ring with tail := trimFrontTo ring.tail shape.tailLen, tailChars := shape.tailLen }

/-- `append`: the ring, and whether this chunk truncated it. -/
def append (ring : OutputRing) (chunk : Bytes) : OutputRing × Bool :=
  if ring.truncated = false then
    if ring.chars + cpCount chunk ≤ shape.cap then
      ({ ring with buf := ring.buf ++ chunk, chars := ring.chars + cpCount chunk }, false)
    else
      (buildTruncated shape { ring with buf := [] } (ring.buf ++ chunk)
        (ring.chars + cpCount chunk), true)
  else
    (trimTail shape
      { ring with tail := ring.tail ++ chunk, tailChars := ring.tailChars + cpCount chunk }, true)

/-- `snapshot`. -/
def snapshot (ring : OutputRing) : Bytes :=
  if ring.truncated = false then ring.buf else ring.head ++ shape.marker ++ ring.tail

/-- `char_count`. -/
def charCount (ring : OutputRing) : Nat :=
  if ring.truncated = false then ring.chars
  else shape.headLen + cpCount shape.marker + shape.tailLen

/-- `byte_count`. -/
def byteCount (ring : OutputRing) : Nat :=
  if ring.truncated = false then ring.buf.length
  else ring.head.length + shape.marker.length + ring.tail.length

/-- `read`. -/
def read (ring : OutputRing) (charOffset maxChars : Nat) : Bytes :=
  if maxChars = 0 then []
  else if ring.charCount shape ≤ charOffset then []
  else
    let full := ring.snapshot shape
    let take :=
      if ring.charCount shape - charOffset < maxChars then ring.charCount shape - charOffset
      else maxChars
    (full.drop (byteOffsetAt full charOffset)).take
      (byteOffsetAt full (charOffset + take) - byteOffsetAt full charOffset)

/-- The ring after a sequence of appends. -/
def appendAll (chunks : List Bytes) : OutputRing :=
  chunks.foldl (fun ring chunk => (ring.append shape chunk).1) {}

end OutputRing

/-! ## The reference -/

/-- `slice_start`: a negative index counts from the end, and both ends clamp. -/
def sliceStart (s n : Int) : Int :=
  let fromEnd := if s < 0 then s + n else s
  let low := if fromEnd < 0 then 0 else fromEnd
  if n < low then n else low

/-- `slice_end`, the same function. -/
def sliceEnd (e n : Int) : Int := sliceStart e n

/-- `bounded_append`, with the head length it computes from the cap. -/
def boundedAppend (shape : RingShape) (content text : Bytes) : Bytes × Bool :=
  let full := content ++ text
  if full.length ≤ shape.cap then (full, false)
  else
    let n := utf8CodePointCount full
    if n ≤ shape.cap then (full, false)
    else
      let headEnd := (sliceEnd shape.headLen n).toNat
      let tailStart := (sliceStart (-shape.tailLen) n).toNat
      let headBytes := byteOffsetAt full headEnd
      let tailBytes := if shape.tailLen ≠ 0 then byteOffsetAt full tailStart else full.length
      (full.take headBytes ++ shape.marker ++ full.drop tailBytes, true)

/-- The reference iterated over the chunks. -/
def boundedAppendAll (shape : RingShape) (chunks : List Bytes) : Bytes :=
  chunks.foldl (fun content chunk => (boundedAppend shape content chunk).1) []

end KimixNative.Tools

/-!
## Runs of the output ring

A well-formed text is a list of characters, and on it every count, offset and cut of the ring
is one of lists. `kept` is what remains of a list of characters; the ring holds it after every
append, and so does the reference.
-/

namespace KimixNative.Tools

open Text

/-! ## Characters -/

/-- All characters of the list are well formed. -/
def Chars (cs : List Bytes) : Prop := ∀ c ∈ cs, IsChar c

variable {cs : List Bytes}

variable {ds : List Bytes}

theorem Chars.append (hcs : Chars cs) (hds : Chars ds) : Chars (cs ++ ds) := by
  intro c hc
  exact (List.mem_append.mp hc).elim (hcs c) (hds c)

theorem Chars.take (h : Chars cs) (n : Nat) : Chars (cs.take n) :=
  fun c hc => h c (List.mem_of_mem_take hc)

theorem Chars.drop {cs : List Bytes} (h : Chars cs) (n : Nat) : Chars (cs.drop n) :=
  fun c hc => h c (List.mem_of_mem_drop hc)

theorem chars_codePoints {text : Bytes} (h : ValidUtf8 text) :
    Chars (codePoints text) ∧ (codePoints text).flatten = text := by
  obtain ⟨cs, hcs, rfl⟩ := h
  rw [codePoints_chars hcs]
  exact ⟨hcs, rfl⟩

theorem cpCount_eq (s : Bytes) : cpCount s = (codePoints s).length := by
  unfold cpCount
  split
  · rename_i hascii
    rw [codePoints_ascii hascii, List.length_map]
  · exact utf8CodePointCount_eq s

@[simp] theorem cpCount_flatten (h : Chars cs) : cpCount cs.flatten = cs.length := by
  rw [cpCount_eq, codePoints_chars h]

theorem offsetLoop_eq (n : Nat) (s : Bytes) :
    offsetLoop n s = ((codePoints s).take n).flatten.length := by
  induction n generalizing s with
  | zero => simp [offsetLoop]
  | succ n ih =>
    cases s with
    | nil => simp [offsetLoop, codePoints]
    | cons b rest =>
      have hbounds := cpLength_bounds b rest
      rw [offsetLoop, ih, codePoints_cons, List.take_succ_cons, List.flatten_cons,
        List.length_append, List.length_take, min_eq_left hbounds.2]

theorem byteOffsetAt_eq (s : Bytes) (n : Nat) :
    byteOffsetAt s n = ((codePoints s).take n).flatten.length := by
  unfold byteOffsetAt
  split
  · rename_i hascii
    have hflat : ∀ m, ((s.map fun b => [b]).take m).flatten = s.take m := by
      intro m
      rw [← List.map_take]
      exact List.flatMap_singleton' _
    rw [codePoints_ascii hascii, hflat, List.length_take]
    split <;> omega
  · exact offsetLoop_eq n s

theorem flatten_take_append_drop (cs : List Bytes) (n : Nat) :
    cs.flatten = (cs.take n).flatten ++ (cs.drop n).flatten := by
  rw [← List.flatten_append, List.take_append_drop]

/-- Cutting the bytes at an offset is cutting the characters. -/
theorem take_byteOffsetAt (h : Chars cs) (n : Nat) :
    cs.flatten.take (byteOffsetAt cs.flatten n) = (cs.take n).flatten := by
  rw [byteOffsetAt_eq, codePoints_chars h]
  conv_lhs => rw [flatten_take_append_drop cs n]
  exact List.take_left

theorem drop_byteOffsetAt (h : Chars cs) (n : Nat) :
    cs.flatten.drop (byteOffsetAt cs.flatten n) = (cs.drop n).flatten := by
  rw [byteOffsetAt_eq, codePoints_chars h]
  conv_lhs => rw [flatten_take_append_drop cs n]
  exact List.drop_left

theorem trimFrontTo_flatten (h : Chars cs) (keep : Nat) :
    trimFrontTo cs.flatten keep = (cs.drop (cs.length - keep)).flatten := by
  unfold trimFrontTo
  rw [cpCount_flatten h]
  split
  · rename_i hle
    rw [Nat.sub_eq_zero_of_le hle, List.drop_zero]
  · exact drop_byteOffsetAt h _

/-- The last `n` elements. -/
def lastChars (n : Nat) (cs : List Bytes) : List Bytes := cs.drop (cs.length - n)

theorem length_lastChars {n : Nat} {cs : List Bytes} (h : n ≤ cs.length) :
    (lastChars n cs).length = n := by
  rw [lastChars, List.length_drop]
  omega

/-- What comes before the last `n` elements does not matter. -/
theorem lastChars_of_append {n : Nat} (h : n ≤ ds.length) (cs : List Bytes) :
    lastChars n (cs ++ ds) = lastChars n ds := by
  rw [lastChars, List.drop_append, List.drop_eq_nil_of_le (by simp; omega), List.nil_append,
    lastChars, List.length_append]
  congr 1
  omega

theorem lastChars_append {n : Nat} {cs : List Bytes} (h : n ≤ cs.length) (ds : List Bytes) :
    lastChars n (lastChars n cs ++ ds) = lastChars n (cs ++ ds) := by
  have hsplit : cs ++ ds = cs.take (cs.length - n) ++ (lastChars n cs ++ ds) := by
    rw [← List.append_assoc, lastChars, List.take_append_drop]
  have hlength : n ≤ (lastChars n cs ++ ds).length := by
    rw [List.length_append, length_lastChars h]
    omega
  rw [hsplit]
  exact (lastChars_of_append hlength _).symm

/-- Bytes between the offsets of two characters. -/
theorem take_flatten_length (cs : List Bytes) (n : Nat) :
    cs.flatten.take (cs.take n).flatten.length = (cs.take n).flatten := by
  conv_lhs => rw [flatten_take_append_drop cs n]
  exact List.take_left

/-! ## What is kept -/

namespace RingShape

variable (shape : RingShape)

theorem tailLen_le : shape.tailLen ≤ shape.cap := Nat.sub_le _ _

theorem isAscii_marker : isAscii shape.marker = true := by
  simp only [marker, isAscii_append]
  refine ⟨⟨⟨⟨?_, isAscii_decimal _⟩, ?_⟩, isAscii_decimal _⟩, ?_⟩ <;> decide

def markerChars : List Bytes := shape.marker.map fun b => [b]

theorem chars_markerChars : Chars shape.markerChars := isAscii_pieces shape.isAscii_marker

theorem flatten_markerChars : shape.markerChars.flatten = shape.marker :=
  List.flatMap_singleton' _

theorem markerChars_length : shape.markerChars.length = cpCount shape.marker := by
  rw [← flatten_markerChars, cpCount_flatten shape.chars_markerChars]

theorem markerChars_pos : 0 < shape.markerChars.length := by
  rw [markerChars, List.length_map, marker]
  simp [ascii]

/-- The text, or its head and tail around the marker. -/
def kept (cs : List Bytes) : List Bytes :=
  if cs.length ≤ shape.cap then cs
  else cs.take shape.headLen ++ shape.markerChars ++ lastChars shape.tailLen cs

variable {shape}

theorem chars_kept {cs : List Bytes} (h : Chars cs) : Chars (shape.kept cs) := by
  unfold kept
  split
  · exact h
  · exact ((h.take _).append shape.chars_markerChars).append (h.drop _)

theorem length_kept {cs : List Bytes} (h : shape.cap < cs.length) :
    (shape.kept cs).length = shape.headLen + shape.markerChars.length + shape.tailLen := by
  have hhead := shape.head_le
  have htail := shape.tailLen_le
  rw [kept, if_neg (by omega), List.length_append, List.length_append, List.length_take,
    length_lastChars (by omega), min_eq_left (by omega)]

end RingShape

/-! ## The ring -/

namespace OutputRing

variable {shape : RingShape}

/-- The ring holds what is kept of the characters. -/
inductive Holds (shape : RingShape) : OutputRing → List Bytes → Prop
  | whole {ring cs} (htruncated : ring.truncated = false) (hfit : cs.length ≤ shape.cap)
      (hbuf : ring.buf = cs.flatten) (hchars : ring.chars = cs.length) : Holds shape ring cs
  | split {ring cs} (htruncated : ring.truncated = true) (hlong : shape.cap < cs.length)
      (hhead : ring.head = (cs.take shape.headLen).flatten)
      (htail : ring.tail = (lastChars shape.tailLen cs).flatten)
      (hchars : ring.tailChars = shape.tailLen) : Holds shape ring cs

theorem holds_new : Holds shape {} [] := .whole rfl (Nat.zero_le _) rfl rfl

theorem holds_buildTruncated {ring : OutputRing} {cs : List Bytes} (hcs : Chars cs)
    (hlong : shape.cap < cs.length) :
    Holds shape (buildTruncated shape ring cs.flatten cs.length) cs := by
  unfold buildTruncated
  rw [if_neg (by omega)]
  refine .split rfl hlong ?_ ?_ rfl
  · exact take_byteOffsetAt hcs _
  · simp only
    split
    · exact drop_byteOffsetAt hcs _
    · rename_i hzero
      have htail : shape.tailLen = 0 := by omega
      simp [lastChars, htail]

variable {ring : OutputRing}

theorem holds_append (h : Holds shape ring cs) (hcs : Chars cs) (hds : Chars ds) :
    Holds shape (ring.append shape ds.flatten).1 (cs ++ ds) := by
  have hlength : (cs ++ ds).length = cs.length + ds.length := List.length_append
  cases h with
  | whole htruncated hfit hbuf hchars =>
    unfold append
    rw [if_pos htruncated, cpCount_flatten hds, hchars, hbuf]
    split
    · rename_i hle
      exact .whole htruncated (by omega) (by simp) (by simp)
    · rename_i hgt
      have hbuild := @holds_buildTruncated shape { ring with buf := [] } _
        (hcs.append hds) (by omega)
      rw [hlength, List.flatten_append] at hbuild
      exact hbuild
  | split htruncated hlong hhead htail hchars =>
    have htailLen := shape.tailLen_le
    have hheadLen := shape.head_le
    have hheads : (cs ++ ds).take shape.headLen = cs.take shape.headLen :=
      List.take_append_of_le_length (by omega)
    have hlasts := @lastChars_append shape.tailLen cs (by omega) ds
    have hlastLen := @length_lastChars shape.tailLen cs (by omega)
    have hlastChars : Chars (lastChars shape.tailLen cs ++ ds) := (hcs.drop _).append hds
    have hflat : ring.tail ++ ds.flatten = (lastChars shape.tailLen cs ++ ds).flatten := by
      rw [htail, List.flatten_append]
    unfold append
    rw [if_neg (by simp [htruncated])]
    simp only [cpCount_flatten hds, hchars, hflat]
    unfold trimTail
    split
    · rename_i hzero
      refine .split htruncated (by omega) (by rw [hhead, hheads]) ?_ (by simp [hzero])
      simp [lastChars, hzero]
    · split
      · rename_i hle
        have hnil : ds = [] := List.length_eq_zero_iff.mp (by simp only at hle; omega)
        subst hnil
        refine .split htruncated (by omega) (by rw [hhead, hheads]) ?_ (by simp)
        simp
      · refine .split htruncated (by omega) (by rw [hhead, hheads]) ?_ rfl
        rw [trimFrontTo_flatten hlastChars, ← hlasts]
        rfl

theorem snapshot_of_holds (h : Holds shape ring cs) :
    ring.snapshot shape = (shape.kept cs).flatten := by
  cases h with
  | whole htruncated hfit hbuf hchars =>
    rw [snapshot, if_pos htruncated, RingShape.kept, if_pos hfit, hbuf]
  | split htruncated hlong hhead htail hchars =>
    rw [snapshot, if_neg (by simp [htruncated]), RingShape.kept, if_neg (by omega), hhead, htail]
    simp only [List.flatten_append, RingShape.flatten_markerChars]

theorem charCount_of_holds (h : Holds shape ring cs) :
    ring.charCount shape = (shape.kept cs).length := by
  cases h with
  | whole htruncated hfit hbuf hchars =>
    rw [charCount, if_pos htruncated, RingShape.kept, if_pos hfit, hchars]
  | split htruncated hlong hhead htail hchars =>
    rw [charCount, if_neg (by simp [htruncated]), RingShape.length_kept hlong,
      RingShape.markerChars_length]

theorem byteCount_eq (ring : OutputRing) : ring.byteCount shape = (ring.snapshot shape).length := by
  unfold byteCount snapshot
  split <;> simp [Nat.add_assoc]

/-- A read is a slice of the characters. -/
theorem read_of_holds (h : Holds shape ring cs) (hcs : Chars cs) (charOffset maxChars : Nat) :
    ring.read shape charOffset maxChars =
      (((shape.kept cs).drop charOffset).take maxChars).flatten := by
  have hkept := @RingShape.chars_kept shape _ hcs
  unfold read
  rw [charCount_of_holds h, snapshot_of_holds h]
  generalize shape.kept cs = ks at hkept ⊢
  split
  · rename_i hzero
    simp [hzero]
  · split
    · rename_i hend
      simp [List.drop_eq_nil_of_le hend]
    · rename_i hoffset
      generalize htake : (if ks.length - charOffset < maxChars then ks.length - charOffset
        else maxChars) = take
      have hsame : (ks.drop charOffset).take take = (ks.drop charOffset).take maxChars := by
        rw [← htake]
        split
        · rename_i hless
          rw [List.take_of_length_le (by simp), List.take_of_length_le (by simp; omega)]
        · rfl
      have hlength : (ks.take (charOffset + take)).flatten.length -
          (ks.take charOffset).flatten.length = ((ks.drop charOffset).take take).flatten.length := by
        rw [List.take_add, List.flatten_append, List.length_append]
        omega
      simp only
      rw [drop_byteOffsetAt hkept, byteOffsetAt_eq, byteOffsetAt_eq, codePoints_chars hkept,
        hlength, take_flatten_length, hsame]

theorem holds_foldl {ring : OutputRing} {cs : List Bytes} (h : Holds shape ring cs)
    (hcs : Chars cs) {chunks : List (List Bytes)} (hchunks : ∀ ds ∈ chunks, Chars ds) :
    Holds shape ((chunks.map List.flatten).foldl (fun ring chunk => (ring.append shape chunk).1) ring)
      (cs ++ chunks.flatten) := by
  induction chunks generalizing ring cs with
  | nil => simpa using h
  | cons ds chunks ih =>
    have hds := hchunks ds (by simp)
    have hrest := ih (holds_append h hcs hds) (hcs.append hds)
      fun es hes => hchunks es (List.mem_cons_of_mem _ hes)
    simpa [List.append_assoc] using hrest

end OutputRing

/-! ## The reference -/

theorem sliceEnd_head {h n : Nat} (hle : h ≤ n) : (sliceEnd h n).toNat = h := by
  simp only [sliceEnd, sliceStart]
  split_ifs <;> omega

theorem sliceStart_tail {t n : Nat} (hpos : 0 < t) (hle : t ≤ n) :
    (sliceStart (-t) n).toNat = n - t := by
  simp only [sliceStart]
  split_ifs <;> omega

variable {shape : RingShape}

/-- One rebuild, on a list of characters. -/
theorem boundedAppend_chars (hcs : Chars cs) (hds : Chars ds) :
    (boundedAppend shape cs.flatten ds.flatten).1 = (shape.kept (cs ++ ds)).flatten := by
  have hall := hcs.append hds
  have hhead := shape.head_le
  have htail := shape.tailLen_le
  have hcount : utf8CodePointCount (cs ++ ds).flatten = (cs ++ ds).length := by
    rw [utf8CodePointCount_eq, codePoints_chars hall]
  have hbytes : (cs ++ ds).length ≤ (cs ++ ds).flatten.length := by
    have hle := @length_cuts_le Byte cpLength (cs ++ ds).flatten
    rwa [← codePoints, codePoints_chars hall] at hle
  unfold boundedAppend RingShape.kept
  simp only [← List.flatten_append, hcount]
  split
  · rename_i hshort
    rw [if_pos (by omega)]
  · split
    · rfl
    · rename_i hlong
      rw [sliceEnd_head (by omega), take_byteOffsetAt hall]
      split
      · rename_i hne
        rw [sliceStart_tail (by omega) (by omega), drop_byteOffsetAt hall]
        simp [RingShape.flatten_markerChars, lastChars]
      · rename_i hzero
        have htailZero : shape.tailLen = 0 := by omega
        simp [RingShape.flatten_markerChars, lastChars, htailZero]

/-- Rebuilding what is kept of a text keeps what is kept of the longer one. -/
theorem kept_kept_append (cs ds : List Bytes) :
    shape.kept (shape.kept cs ++ ds) = shape.kept (cs ++ ds) := by
  by_cases hfit : cs.length ≤ shape.cap
  · rw [RingShape.kept.eq_def shape cs, if_pos hfit]
  · have hhead := shape.head_le
    have htail := shape.tailLen_le
    have hlength := @RingShape.length_kept shape cs (by omega)
    have hmarker := shape.markerChars_pos
    have hcap : shape.cap = shape.headLen + shape.tailLen := by
      rw [RingShape.tailLen]
      omega
    have hlong : ¬(shape.kept cs ++ ds).length ≤ shape.cap := by
      rw [List.length_append]
      omega
    have hlong' : ¬(cs ++ ds).length ≤ shape.cap := by
      rw [List.length_append]
      omega
    have hlast := @length_lastChars shape.tailLen cs (by omega)
    have hheadChars : (cs.take shape.headLen).length = shape.headLen := by
      rw [List.length_take]
      omega
    rw [RingShape.kept.eq_def shape (shape.kept cs ++ ds), if_neg hlong,
      RingShape.kept.eq_def shape (cs ++ ds), if_neg hlong', RingShape.kept.eq_def shape cs,
      if_neg hfit]
    have htails : lastChars shape.tailLen
        (cs.take shape.headLen ++ shape.markerChars ++ lastChars shape.tailLen cs ++ ds) =
        lastChars shape.tailLen (cs ++ ds) := by
      rw [List.append_assoc (cs.take shape.headLen ++ shape.markerChars),
        lastChars_of_append (by rw [List.length_append]; omega), lastChars_append (by omega)]
    have hheads : (cs.take shape.headLen ++ shape.markerChars ++ lastChars shape.tailLen cs ++
        ds).take shape.headLen = (cs ++ ds).take shape.headLen := by
      rw [List.append_assoc, List.append_assoc, List.take_append_of_le_length (by omega),
        List.take_take, min_self, List.take_append_of_le_length (by omega)]
    rw [htails, hheads]

theorem boundedAppend_foldl {cs : List Bytes} (hcs : Chars cs) {chunks : List (List Bytes)}
    (hchunks : ∀ ds ∈ chunks, Chars ds) :
    (chunks.map List.flatten).foldl (fun content chunk => (boundedAppend shape content chunk).1)
        (shape.kept cs).flatten =
      (shape.kept (cs ++ chunks.flatten)).flatten := by
  induction chunks generalizing cs with
  | nil => simp
  | cons ds chunks ih =>
    have hds := hchunks ds (by simp)
    have hrest := ih (hcs.append hds) fun es hes => hchunks es (List.mem_cons_of_mem _ hes)
    rw [List.map_cons, List.foldl_cons, boundedAppend_chars (RingShape.chars_kept hcs) hds,
      kept_kept_append, hrest]
    simp [List.append_assoc]

/-- After any well-formed chunks the ring shows the text, or its first and last characters
around the marker; counts, sizes and reads are those of what it shows, and the reference,
iterated, has the same text. -/
theorem ring_run (shape : RingShape) {chunks : List Bytes} (h : ∀ chunk ∈ chunks, ValidUtf8 chunk) :
    let ring := OutputRing.appendAll shape chunks
    let T := codePoints chunks.flatten
    (ring.snapshot shape =
      if T.length ≤ shape.cap then chunks.flatten
      else (T.take shape.headLen).flatten ++ shape.marker ++
        (T.drop (T.length - (shape.cap - shape.headLen))).flatten) ∧
      ring.charCount shape = utf8CodePointCount (ring.snapshot shape) ∧
      ring.byteCount shape = (ring.snapshot shape).length ∧
      (∀ o m, ring.read shape o m =
        (((codePoints (ring.snapshot shape)).drop o).take m).flatten) ∧
      boundedAppendAll shape chunks = ring.snapshot shape := by
  intro ring T
  have hchunks : ∀ cs ∈ chunks.map codePoints, Chars cs := by
    intro cs hcs
    obtain ⟨chunk, hchunk, rfl⟩ := List.mem_map.mp hcs
    exact (chars_codePoints (h chunk hchunk)).1
  have hbytes : (chunks.map codePoints).map List.flatten = chunks := by
    rw [List.map_map]
    exact List.map_congr_left (fun chunk hchunk => (chars_codePoints (h chunk hchunk)).2)
      |>.trans (List.map_id _)
  have hflat : (chunks.map codePoints).flatten.flatten = chunks.flatten := by
    rw [List.flatten_flatten, hbytes]
  have hchars : Chars (chunks.map codePoints).flatten := by
    intro c hc
    obtain ⟨cs, hcs, hmem⟩ := List.mem_flatten.mp hc
    exact hchunks cs hcs c hmem
  have hT : T = (chunks.map codePoints).flatten := by
    change codePoints chunks.flatten = _
    rw [← hflat, codePoints_chars hchars]
  have hholds := @OutputRing.holds_foldl shape _ _ OutputRing.holds_new (by simp [Chars]) _ hchunks
  rw [hbytes, List.nil_append, ← hT] at hholds
  rw [← hT] at hchars hflat
  have hsnapshot := OutputRing.snapshot_of_holds hholds
  have hkept := @RingShape.chars_kept shape _ hchars
  refine ⟨?_, ?_, OutputRing.byteCount_eq ring, ?_, ?_⟩
  · refine hsnapshot.trans ?_
    unfold RingShape.kept
    split
    · exact hflat
    · simp [RingShape.flatten_markerChars, lastChars, RingShape.tailLen]
  · rw [show ring.snapshot shape = _ from hsnapshot, utf8CodePointCount_eq, codePoints_chars hkept]
    exact OutputRing.charCount_of_holds hholds
  · intro o m
    rw [show ring.snapshot shape = _ from hsnapshot, codePoints_chars hkept]
    exact OutputRing.read_of_holds hholds hchars o m
  · have href := @boundedAppend_foldl shape [] (by simp [Chars]) _ hchunks
    rw [hbytes, List.nil_append, ← hT] at href
    refine Eq.trans ?_ (href.trans hsnapshot.symm)
    simp [boundedAppendAll, RingShape.kept]

/-- Two three-byte characters pass a cap of four that leaves one character of head. -/
theorem ring_run_split :
    let shape : RingShape := ⟨4, 1, by decide⟩
    let chunks : List Bytes := [ascii "abc", [], [0xE2, 0x82, 0xAC, 0xE2, 0x82, 0xAC]]
    (∀ chunk ∈ chunks, ValidUtf8 chunk) ∧
      boundedAppendAll shape chunks = (OutputRing.appendAll shape chunks).snapshot shape ∧
      ((OutputRing.appendAll shape chunks).truncated = true) := by
  intro shape chunks
  have hvalid : ∀ chunk ∈ chunks, ValidUtf8 chunk := by
    intro chunk hchunk
    simp only [chunks, List.mem_cons, List.not_mem_nil, or_false] at hchunk
    obtain rfl | rfl | rfl := hchunk
    · exact ⟨[[0x61], [0x62], [0x63]], by
        simp only [List.mem_cons, List.not_mem_nil, or_false]
        rintro c (rfl | rfl | rfl) <;> exact .one (by decide), by decide⟩
    · exact .nil
    · exact ⟨[[0xE2, 0x82, 0xAC], [0xE2, 0x82, 0xAC]], by
        simp only [List.mem_cons, List.not_mem_nil, or_false]
        rintro c (rfl | rfl) <;>
          exact .three (by decide) (by decide) (by decide) (by decide) (by decide), by decide⟩
  exact ⟨hvalid, (ring_run shape hvalid).2.2.2.2, by decide +kernel⟩

end KimixNative.Tools
