import KimixNative.Lib.Search
import KimixNative.Text.Utf8
import Mathlib.Data.List.DropRight

/-!
# Reading HTTP responses

The head and the body of a response are read from one buffer, which is filled from the transport
whenever it has been used up. `NetError.success` is the value that the error has until one is set.
-/

namespace KimixNative.Llm

open Text

inductive NetError where
  | success
  | timeout
  | read
  | canceled
  deriving DecidableEq, Repr

/-- What the transport has for a read. -/
inductive Delivery where
  | bytes (segment : Bytes)
  | timedOut
  | broken
  deriving DecidableEq, Repr

def Delivery.segment : Delivery → Bytes
  | .bytes segment => segment
  | _ => []

/-- `sizeof(buf)`. -/
def bufferSize : Nat := 16384

structure HttpReader where
  buf : Bytes := []
  pos : Nat := 0
  deliveries : List Delivery := []
  deriving DecidableEq, Repr

/-- `Transport::read` into the buffer; `none` at the end of the stream. -/
def HttpReader.refill (r : HttpReader) : Except NetError (Option HttpReader) :=
  match r.deliveries with
  | [] => .ok none
  | .timedOut :: _ => .error .timeout
  | .broken :: _ => .error .read
  | .bytes segment :: rest =>
    if segment = [] then .ok none
    else
      let left := segment.drop bufferSize
      .ok (some { buf := segment.take bufferSize, pos := 0
                  deliveries := if left = [] then rest else .bytes left :: rest })

/-- `Reader::get`. -/
def HttpReader.get (r : HttpReader) : Except NetError (Option (Byte × HttpReader)) :=
  match r.buf[r.pos]? with
  | some c => .ok (some (c, { r with pos := r.pos + 1 }))
  | none =>
    match r.refill with
    | .error e => .error e
    | .ok none => .ok none
    | .ok (some r) => .ok ((r.buf[r.pos]?).map fun c => (c, { r with pos := r.pos + 1 }))

/-- The carriage return in front of the newline goes. -/
def stripReturn (line : Bytes) : Bytes :=
  if line.getLast? = some 0x0D#8 then line.dropLast else line

/-- The loop of `Reader::read_line`. -/
def readLineLoop (cap : Nat) : Nat → Bytes → HttpReader →
    Except NetError (Option (Bytes × HttpReader))
  | 0, _, _ => .ok none
  | fuel + 1, line, r =>
    match r.get with
    | .error e => .error e
    | .ok none => .ok none
    | .ok (some (c, r)) =>
      if c = 0x0A#8 then .ok (some (stripReturn line, r))
      else if line.length + 1 > cap then .error .read
      else readLineLoop cap fuel (line ++ [c]) r

/-- `Reader::read_line`: at most one byte more than the cap is taken before the error. -/
def HttpReader.readLine (r : HttpReader) (cap : Nat) :
    Except NetError (Option (Bytes × HttpReader)) := readLineLoop cap (cap + 2) [] r

/-! ## The receiver -/

/-- A receiver of the body sees the pieces so far and the next one. -/
abbrev ContentReceiver := List Bytes → Bytes → Bool

/-- The body of the response, or the pieces that were handed to the receiver. -/
structure Sink where
  body : Bytes := []
  pieces : List Bytes := []
  deriving DecidableEq, Repr

def Sink.put (rc : Option ContentReceiver) (s : Sink) (piece : Bytes) : Except NetError Sink :=
  match rc with
  | some accepts =>
    if accepts s.pieces piece then .ok { s with pieces := s.pieces ++ [piece] }
    else .error .canceled
  | none => .ok { s with body := s.body ++ piece }

/-- How many bytes there are left to read. -/
def HttpReader.remaining (r : HttpReader) : Nat :=
  (r.buf.length - r.pos) + (r.deliveries.flatMap Delivery.segment).length

/-- A buffer with bytes to read; the end of the stream sets no error. -/
def HttpReader.filled (r : HttpReader) : Except NetError HttpReader :=
  if r.pos < r.buf.length then .ok r
  else
    match r.refill with
    | .error e => .error e
    | .ok none => .error .success
    | .ok (some r) => .ok r

/-- The loop of `Reader::read_full`. -/
def readFullLoop (rc : Option ContentReceiver) :
    Nat → Nat → Sink → HttpReader → Except NetError (Sink × HttpReader)
  | 0, n, s, r => if n = 0 then .ok (s, r) else .error .success
  | fuel + 1, n, s, r =>
    if n = 0 then .ok (s, r)
    else do
      let r ← r.filled
      let take := min (r.buf.length - r.pos) n
      let s ← s.put rc ((r.buf.drop r.pos).take take)
      readFullLoop rc fuel (n - take) s { r with pos := r.pos + take }

/-- `Reader::read_full`: each round takes a byte at least. -/
def HttpReader.readFull (r : HttpReader) (n : Nat) (rc : Option ContentReceiver) (s : Sink) :
    Except NetError (Sink × HttpReader) := readFullLoop rc n n s r

/-- The rest of the buffer goes to the sink. -/
def Sink.putBuffered (rc : Option ContentReceiver) (s : Sink) (r : HttpReader) :
    Except NetError Sink :=
  if r.pos < r.buf.length then s.put rc (r.buf.drop r.pos) else .ok s

/-- The loop of `Reader::read_to_eof`. -/
def readToEofLoop (rc : Option ContentReceiver) :
    Nat → Sink → HttpReader → Except NetError (Sink × HttpReader)
  | 0, s, r => .ok (s, r)
  | fuel + 1, s, r => do
      let s ← s.putBuffered rc r
      let r := { r with pos := r.buf.length }
      match ← r.refill with
      | none => .ok (s, r)
      | some r => readToEofLoop rc fuel s r

/-- `Reader::read_to_eof`. -/
def HttpReader.readToEof (r : HttpReader) (rc : Option ContentReceiver) (s : Sink) :
    Except NetError (Sink × HttpReader) := readToEofLoop rc (r.remaining + 1) s r

/-! ## The head -/

structure HttpResponse where
  status : Int := 0
  headers : List (Bytes × Bytes) := []
  deriving DecidableEq, Repr

def asciiLowerByte (c : Byte) : Byte :=
  if 0x41 ≤ c.toNat ∧ c.toNat ≤ 0x5A then c + 0x20#8 else c

/-- `ascii_lower`. -/
def asciiLower (s : Bytes) : Bytes := s.map asciiLowerByte

/-- `ci_equal`. -/
def ciEqual (a b : Bytes) : Bool := asciiLower a == asciiLower b

/-- `Headers::get`. -/
def headerValue (headers : List (Bytes × Bytes)) (name : Bytes) : Bytes :=
  ((headers.find? fun h => ciEqual h.1 name).map Prod.snd).getD []

def isDecimalDigit (c : Byte) : Bool := decide (0x30 ≤ c.toNat ∧ c.toNat ≤ 0x39)

/-- `std::atoi`; past the range of `int` it is undefined. -/
def atoi (text : Bytes) : Int :=
  let text := text.dropWhile fun c => c == 0x20#8 || decide (0x09 ≤ c.toNat ∧ c.toNat ≤ 0x0D)
  let digits := (if text.head? = some 0x2D#8 ∨ text.head? = some 0x2B#8 then text.drop 1
    else text).takeWhile isDecimalDigit
  let value : Nat := digits.foldl (fun n c => n * 10 + (c.toNat - 0x30)) 0
  if text.head? = some 0x2D#8 then -(value : Int) else value

/-- The loop over the status lines, which skips blank lines and interim responses. -/
def readStatusLoop : Nat → HttpReader → Except NetError (Int × HttpReader)
  | 0, _ => .error .success
  | fuel + 1, r =>
    match r.readLine (16 * 1024) with
    | .error e => .error e
    | .ok none => .error .success
    | .ok (some (line, r)) =>
      if line = [] then readStatusLoop fuel r
      else if line.take 5 ≠ ascii "HTTP/" then .error .read
      else
        match line.dropWhile (· != 0x20#8) with
        | [] => .error .read
        | _ :: after =>
          let status := atoi after
          if 100 ≤ status ∧ status < 200 then readStatusLoop fuel r else .ok (status, r)

/-- `kMaxHeaderBlock`. -/
def kMaxHeaderBlock : Nat := 64 * 1024

def isHeaderBlank (c : Byte) : Bool := c == 0x20#8 || c == 0x09#8

/-- Blanks around the value of a header go. -/
def trimValue (value : Bytes) : Bytes := (value.dropWhile isHeaderBlank).rdropWhile isHeaderBlank

/-- What a header line adds; lines without a name are passed over. -/
def headerOf (line : Bytes) : List (Bytes × Bytes) :=
  match line.dropWhile (· != 0x3A#8) with
  | [] => []
  | _ :: value =>
    let name := line.takeWhile (· != 0x3A#8)
    if name = [] then [] else [(name, trimValue value)]

/-- The loop over the header lines. -/
def readHeadersLoop : Nat → Nat → List (Bytes × Bytes) → HttpReader →
    Except NetError (List (Bytes × Bytes) × HttpReader)
  | 0, _, _, _ => .error .success
  | fuel + 1, total, headers, r =>
    match r.readLine kMaxHeaderBlock with
    | .error e => .error e
    | .ok none => .error .success
    | .ok (some (line, r)) =>
      if line = [] then .ok (headers, r)
      else if total + line.length > kMaxHeaderBlock then .error .read
      else readHeadersLoop fuel (total + line.length) (headers ++ headerOf line) r

/-- `read_response_head`. -/
def readResponseHead (r : HttpReader) : Except NetError (HttpResponse × HttpReader) := do
  let (status, r) ← readStatusLoop (r.remaining + 1) r
  let (headers, r) ← readHeadersLoop (r.remaining + 1) 0 [] r
  return ({ status := status, headers := headers }, r)

/-! ## The body -/

/-- `hex_value`. -/
def hexValue (c : Byte) : Option Nat :=
  if 0x30 ≤ c.toNat ∧ c.toNat ≤ 0x39 then some (c.toNat - 0x30)
  else if 0x61 ≤ c.toNat ∧ c.toNat ≤ 0x66 then some (c.toNat - 0x61 + 10)
  else if 0x41 ≤ c.toNat ∧ c.toNat ≤ 0x46 then some (c.toNat - 0x41 + 10)
  else none

/-- The digits of a chunk size, on a `size_t`. -/
def chunkSizeLoop : Nat → Bytes → Option Nat
  | chunk, [] => some chunk
  | chunk, c :: rest =>
    (hexValue c).bind fun d => chunkSizeLoop ((chunk * 16 + d) % 2 ^ 64) rest

/-- The size in a chunk's first line, in front of the extensions. -/
def chunkSize (line : Bytes) : Option Nat :=
  let sizeTxt := asciiLower (line.takeWhile (· != 0x3B#8))
  if sizeTxt = [] then none else chunkSizeLoop 0 sizeTxt

/-- The loop over the trailer section. -/
def readTrailersLoop : Nat → HttpReader → Except NetError HttpReader
  | 0, _ => .error .success
  | fuel + 1, r =>
    match r.readLine kMaxHeaderBlock with
    | .error e => .error e
    | .ok none => .error .success
    | .ok (some (line, r)) => if line = [] then .ok r else readTrailersLoop fuel r

/-- The loop of `read_chunked`. -/
def readChunkedLoop (rc : Option ContentReceiver) :
    Nat → Sink → HttpReader → Except NetError (Sink × HttpReader)
  | 0, _, _ => .error .success
  | fuel + 1, s, r =>
    match r.readLine (16 * 1024) with
    | .error e => .error e
    | .ok none => .error .success
    | .ok (some (line, r)) =>
      match chunkSize line with
      | none => .error .read
      | some 0 => (readTrailersLoop (r.remaining + 1) r).map fun r => (s, r)
      | some (n + 1) => do
          let (s, r) ← r.readFull (n + 1) rc s
          -- a missing line break behind the chunk is let through
          match r.readLine 1024 with
          | .error e => .error e
          | .ok none => readChunkedLoop rc fuel s r
          | .ok (some (_, r)) => readChunkedLoop rc fuel s r

/-- `read_chunked`. -/
def readChunked (r : HttpReader) (rc : Option ContentReceiver) (s : Sink) :
    Except NetError (Sink × HttpReader) := readChunkedLoop rc (r.remaining + 1) s r

/-- The digits that a `Content-Length` begins with, on a `size_t`. -/
def contentLength (value : Bytes) : Option Nat :=
  let digits := value.takeWhile isDecimalDigit
  if digits = [] then none
  else some (digits.foldl (fun n c => (n * 10 + (c.toNat - 0x30)) % 2 ^ 64) 0)

/-- `read_response_body`. -/
def readResponseBody (r : HttpReader) (res : HttpResponse) (rc : Option ContentReceiver) :
    Except NetError (Sink × HttpReader) :=
  if res.status = 204 ∨ res.status = 304 ∨ (100 ≤ res.status ∧ res.status < 200) then .ok ({}, r)
  else if firstOccurrence (ascii "chunked")
      (asciiLower (headerValue res.headers (ascii "Transfer-Encoding"))) ≠ none then
    readChunked r rc {}
  else
    match contentLength (headerValue res.headers (ascii "Content-Length")) with
    | some n => if n = 0 then .ok ({}, r) else r.readFull n rc {}
    | none => r.readToEof rc {}

end KimixNative.Llm
