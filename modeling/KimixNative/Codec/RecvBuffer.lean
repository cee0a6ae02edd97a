import KimixNative.Lib.Search
import KimixNative.Lib.Run
import KimixNative.Lib.LittleEndian

/-!
# The receive buffer

Bytes arrive by `append` and leave as frames, either behind a big-endian length header or
in front of a delimiter. A consumed prefix stays in the buffer until it is more than half
of it, and an unsuccessful delimiter search leaves the offset at which the next one goes on.

The buffer is compared with `Naive`, which keeps the unconsumed bytes only and searches
them from the start. The two agree as long as a resumed search does not skip an
occurrence of its own delimiter, which is what happens when the previous search was for
another one, and as long as `frame_start + length` does not wrap.
-/

namespace KimixNative.Codec

/-- One byte more than `size_t` can hold. -/
def sizeModulus : Nat := 2 ^ 64

/-- `kDefaultMaxFrame`, 10 MiB. -/
def kDefaultMaxFrame : Nat := 10 * 1024 * 1024

/-- What `max_frame` stands for: zero is the default. -/
def frameLimit (maxFrame : Nat) : Nat := if maxFrame = 0 then kDefaultMaxFrame else maxFrame

/-- Decoding of a big-endian header. -/
def beNat (header : Bytes) : Nat := header.foldl (fun length b => length * 256 + b.toNat) 0

/-- The answer to an operation. `overrun` is `out.assign` past the end of the buffer. -/
inductive Reply
  | done
  | refused
  | frame (payload : Bytes)
  | overrun
  deriving DecidableEq, Repr

inductive Op
  | append (bytes : Bytes)
  | takeFrameLengthPrefixed (headerSize maxFrame : Nat)
  | takeFrameDelimiter (delim : Bytes) (maxFrame : Nat)
  | compact
  | clear
  deriving DecidableEq, Repr

structure RecvBuffer where
  buf : Bytes := []
  consumed : Nat := 0
  delimScanPos : Nat := 0
  deriving DecidableEq, Repr

/-- How the delimiter search ends: at a match, at a first byte whose delimiter would cross
the end of the data, or at the end. -/
inductive Search
  | found (off : Nat)
  | crossing (off : Nat)
  | absent
  deriving DecidableEq, Repr

/-- The `memchr`/`memcmp` loop over `rest`, the bytes from offset `off` on. -/
def searchDelimiter (delim : Bytes) (avail : Nat) : Bytes → Nat → Search
  | [], _ => .absent
  | b :: rest, off =>
    if delim.head? = some b then
      if off + delim.length > avail then .crossing off
      else if delim <+: b :: rest then .found off
      else searchDelimiter delim avail rest (off + 1)
    else searchDelimiter delim avail rest (off + 1)

namespace RecvBuffer

/-- What has not been handed out. -/
def unconsumed (s : RecvBuffer) : Bytes := s.buf.drop s.consumed

def append (s : RecvBuffer) (bytes : Bytes) : RecvBuffer :=
  if bytes.isEmpty then s else { s with buf := s.buf ++ bytes }

def compact (s : RecvBuffer) : RecvBuffer :=
  if s.consumed = 0 then s else { s with buf := s.buf.drop s.consumed, consumed := 0 }

def maybeCompact (s : RecvBuffer) : RecvBuffer :=
  if s.consumed > 0 ∧ s.consumed > s.buf.length / 2 then s.compact else s

def clear (s : RecvBuffer) : RecvBuffer := { s with buf := [], consumed := 0, delimScanPos := 0 }

def takeFrameLengthPrefixed (s : RecvBuffer) (headerSize maxFrame : Nat) : Reply × RecvBuffer :=
  if headerSize = 0 ∨ headerSize > 8 then (.refused, s)
  else
    let s := { s with delimScanPos := 0 }
    if s.buf.length - s.consumed < headerSize then (.refused, s)
    else
      let length := beNat ((s.buf.drop s.consumed).take headerSize)
      if length = 0 then (.refused, s)
      else if length > frameLimit maxFrame then (.refused, s)
      else
        let frameStart := s.consumed + headerSize
        -- the sum is taken in 64 bits, the copy is not
        if s.buf.length < (frameStart + length) % sizeModulus then (.refused, s)
        else if s.buf.length < frameStart + length then (.overrun, s)
        else
          (.frame ((s.buf.drop frameStart).take length),
            { s with consumed := frameStart + length }.maybeCompact)

/-- Where the delimiter search of the next call starts. -/
def scanFrom (s : RecvBuffer) : Nat :=
  if s.delimScanPos ≥ s.buf.length - s.consumed then 0 else s.delimScanPos

/-- What a call does with the outcome of its search. -/
def afterSearch (s : RecvBuffer) (delim : Bytes) (maxFrame : Nat) : Search → Reply × RecvBuffer
  | .crossing off => (.refused, { s with delimScanPos := off })
  | .found off =>
    if off > frameLimit maxFrame then (.refused, s)
    else
      (.frame ((s.buf.drop s.consumed).take off),
        { s with consumed := s.consumed + (off + delim.length), delimScanPos := 0 }.maybeCompact)
  | .absent => (.refused, { s with delimScanPos := s.buf.length - s.consumed })

def takeFrameDelimiter (s : RecvBuffer) (delim : Bytes) (maxFrame : Nat) : Reply × RecvBuffer :=
  if delim.isEmpty then (.refused, s)
  else
    let start := s.buf.drop s.consumed
    let avail := s.buf.length - s.consumed
    s.afterSearch delim maxFrame
      (searchDelimiter delim avail (start.drop s.scanFrom) s.scanFrom)

def perform (s : RecvBuffer) : Op → Reply × RecvBuffer
  | .append bytes => (.done, s.append bytes)
  | .takeFrameLengthPrefixed headerSize maxFrame => s.takeFrameLengthPrefixed headerSize maxFrame
  | .takeFrameDelimiter delim maxFrame => s.takeFrameDelimiter delim maxFrame
  | .compact => (.done, s.compact)
  | .clear => (.done, s.clear)

def step (s : RecvBuffer) (op : Op) : RecvBuffer := (s.perform op).2

/-- The replies of a run. -/
def replies : RecvBuffer → List Op → List Reply
  | _, [] => []
  | s, op :: ops => (s.perform op).1 :: replies (s.step op) ops

end RecvBuffer

/-! ### The reference -/

namespace Naive

/-- One frame behind a length header: the payload and what follows it. -/
def takeLength (u : Bytes) (headerSize maxFrame : Nat) : Option (Bytes × Bytes) :=
  let length := beNat (u.take headerSize)
  if headerSize = 0 ∨ headerSize > 8 ∨ u.length < headerSize then none
  else if length = 0 ∨ length > frameLimit maxFrame ∨ u.length < headerSize + length then none
  else some ((u.drop headerSize).take length, u.drop (headerSize + length))

/-- One frame in front of the first occurrence of the delimiter. -/
def takeDelimiter (u delim : Bytes) (maxFrame : Nat) : Option (Bytes × Bytes) :=
  if delim = [] then none
  else
    match firstOccurrence delim u with
    | some off =>
      if off ≤ frameLimit maxFrame then some (u.take off, u.drop (off + delim.length)) else none
    | none => none

/-- A take hands out a frame, or keeps everything. -/
def answer (u : Bytes) : Option (Bytes × Bytes) → Reply × Bytes
  | some (payload, rest) => (.frame payload, rest)
  | none => (.refused, u)

def perform (u : Bytes) : Op → Reply × Bytes
  | .append bytes => (.done, u ++ bytes)
  | .takeFrameLengthPrefixed headerSize maxFrame => answer u (takeLength u headerSize maxFrame)
  | .takeFrameDelimiter delim maxFrame => answer u (takeDelimiter u delim maxFrame)
  | .compact => (.done, u)
  | .clear => (.done, [])

def step (u : Bytes) (op : Op) : Bytes := (perform u op).2

def replies : Bytes → List Op → List Reply
  | _, [] => []
  | u, op :: ops => (perform u op).1 :: replies (step u op) ops

end Naive

end KimixNative.Codec
