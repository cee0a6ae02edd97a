import KimixNative.Core.JsonNumbers
import KimixNative.Llm.HttpDecoding

/-!
# Responses as they are written

A response with its head, its headers and its body in one of the three framings. The reader
returns these from the text of the response, in whatever segments the transport delivers it.
-/

namespace KimixNative.Llm

open Text

/-! ## The text of a response -/

/-- A header line, with blanks around the value. -/
structure HeaderLine where
  name : Bytes
  value : Bytes
  before : Bytes := []
  after : Bytes := []
  name_ne : name ≠ []
  name_plain : ∀ c ∈ name, c ≠ 0x3A#8 ∧ isHeaderBlank c = false ∧ c ≠ 0x0A#8 ∧ c ≠ 0x0D#8
  value_line : 0x0A#8 ∉ value ∧ 0x0D#8 ∉ value
  value_head : ∀ c, value.head? = some c → isHeaderBlank c = false
  value_last : ∀ c, value.getLast? = some c → isHeaderBlank c = false
  before_blank : ∀ c ∈ before, isHeaderBlank c = true
  after_blank : ∀ c ∈ after, isHeaderBlank c = true

def HeaderLine.text (h : HeaderLine) : Bytes := h.name ++ 0x3A#8 :: (h.before ++ h.value ++ h.after)

/-- The number that hexadecimal digits spell. -/
def hexNumber (digits : Bytes) : Nat := digits.foldl (fun n c => n * 16 + (hexValue c).getD 0) 0

/-- The first line of a chunk: the size in any spelling, and extensions. -/
structure ChunkLine (size : Nat) where
  digits : Bytes
  ext : Bytes := []
  digits_ne : digits ≠ []
  digits_hex : ∀ c ∈ digits, (hexValue c).isSome = true
  digits_value : hexNumber digits = size
  size_lt : size < 2 ^ 64
  ext_start : ext = [] ∨ ext.head? = some 0x3B#8
  ext_line : 0x0A#8 ∉ ext
  fits : (digits ++ ext).length < 16 * 1024

structure Chunk where
  data : Bytes
  data_ne : data ≠ []
  line : ChunkLine data.length

def Chunk.text (c : Chunk) : Bytes := c.line.digits ++ c.line.ext ++ crlf ++ (c.data ++ crlf)

/-- A line of the trailer section. -/
structure Trailer where
  text : Bytes
  text_ne : text ≠ []
  text_line : 0x0A#8 ∉ text
  fits : text.length < kMaxHeaderBlock

inductive Framing where
  | chunked (chunks : List Chunk) (last : ChunkLine 0) (trailers : List Trailer)
  | contentLength (body : Bytes)
  | untilClose (body : Bytes)

def Framing.body : Framing → Bytes
  | .chunked chunks _ _ => chunks.flatMap Chunk.data
  | .contentLength body | .untilClose body => body

def trailerText (trailers : List Trailer) : Bytes := trailers.flatMap fun t => t.text ++ crlf

def Framing.text : Framing → Bytes
  | .chunked chunks last trailers =>
    chunks.flatMap Chunk.text ++ (last.digits ++ last.ext ++ crlf ++ (trailerText trailers ++ crlf))
  | .contentLength body | .untilClose body => body

/-- A header that decides about the framing. -/
def HeaderLine.framing (h : HeaderLine) : Bool :=
  ciEqual h.name (ascii "Transfer-Encoding") || ciEqual h.name (ascii "Content-Length")

/-- The headers announce the framing, and no other. -/
def Framing.Announced (headers : List HeaderLine) : Framing → Prop
  | .chunked _ _ _ => ∃ h, headers.filter HeaderLine.framing = [h] ∧
      ciEqual h.name (ascii "Transfer-Encoding") = true ∧
      firstOccurrence (ascii "chunked") (asciiLower h.value) ≠ none
  | .contentLength body => ∃ h, headers.filter HeaderLine.framing = [h] ∧
      ciEqual h.name (ascii "Content-Length") = true ∧ h.value ≠ [] ∧
      h.value.all isDecimalDigit = true ∧
      h.value.foldl (fun n c => n * 10 + (c.toNat - 0x30)) 0 = body.length ∧ body.length < 2 ^ 64
  | .untilClose _ => headers.filter HeaderLine.framing = []

/-- A status line and header lines; the status line is within the limit of the reader. -/
structure ResponseHead where
  version : Bytes
  status : Nat
  reason : Bytes := []
  headers : List HeaderLine
  version_plain : 0x20#8 ∉ version ∧ 0x0A#8 ∉ version
  reason_start : ∀ c, reason.head? = some c → isDecimalDigit c = false
  reason_line : 0x0A#8 ∉ reason
  head_fits : (ascii "HTTP/" ++ version ++ 0x20#8 :: (decimal status ++ reason)).length < 16 * 1024

def ResponseHead.statusLine (head : ResponseHead) : Bytes :=
  ascii "HTTP/" ++ head.version ++ 0x20#8 :: (decimal head.status ++ head.reason)

/-- The header lines and the blank line behind them. -/
def headerText (headers : List HeaderLine) : Bytes :=
  (headers.flatMap fun h => h.text ++ crlf) ++ crlf

def ResponseHead.text (head : ResponseHead) : Bytes :=
  head.statusLine ++ crlf ++ headerText head.headers

/-- What the reader makes of a head. -/
def ResponseHead.response (head : ResponseHead) : HttpResponse :=
  { status := head.status, headers := head.headers.map fun h => (h.name, h.value) }

/-- A head such as `100 Continue`, with more to follow. -/
def ResponseHead.Interim (head : ResponseHead) : Prop := 100 ≤ head.status ∧ head.status < 200

instance (head : ResponseHead) : Decidable head.Interim := inferInstanceAs (Decidable (_ ∧ _))

/-- The header lines are within the limits of the reader. -/
def ResponseHead.Fits (head : ResponseHead) : Prop :=
  (head.headers.map fun h => h.text.length).sum ≤ kMaxHeaderBlock ∧
    ∀ h ∈ head.headers, h.text.length < kMaxHeaderBlock

instance (head : ResponseHead) : Decidable head.Fits := inferInstanceAs (Decidable (_ ∧ _))

/-- A response within the limits of the reader. -/
structure HttpMessage where
  version : Bytes
  status : Nat
  reason : Bytes := []
  headers : List HeaderLine
  framing : Framing
  version_plain : 0x20#8 ∉ version ∧ 0x0A#8 ∉ version
  reason_start : ∀ c, reason.head? = some c → isDecimalDigit c = false
  reason_line : 0x0A#8 ∉ reason
  status_final : ¬(100 ≤ status ∧ status < 200) ∧ status ≠ 204 ∧ status ≠ 304
  head_fits : (ascii "HTTP/" ++ version ++ 0x20#8 :: (decimal status ++ reason)).length < 16 * 1024
  headers_fit : (headers.map fun h => h.text.length).sum ≤ kMaxHeaderBlock ∧
    ∀ h ∈ headers, h.text.length < kMaxHeaderBlock
  announced : framing.Announced headers

def HttpMessage.statusLine (m : HttpMessage) : Bytes :=
  ascii "HTTP/" ++ m.version ++ 0x20#8 :: (decimal m.status ++ m.reason)

def HttpMessage.text (m : HttpMessage) : Bytes :=
  m.statusLine ++ crlf ++ ((m.headers.flatMap fun h => h.text ++ crlf) ++ crlf ++ m.framing.text)

/-- The response that the head of the text stands for. -/
def HttpMessage.response (m : HttpMessage) : HttpResponse :=
  { status := m.status, headers := m.headers.map fun h => (h.name, h.value) }

def HttpMessage.head (m : HttpMessage) : ResponseHead :=
  { m with }

/-! ## The head -/

theorem isDecimalDigit_eq : isDecimalDigit = Json.isDigit := by
  funext c
  rw [isDecimalDigit, Json.isDigit, Bool.decide_and]

theorem atoi_decimal {n : Nat} {rest : Bytes}
    (h : ∀ c, rest.head? = some c → isDecimalDigit c = false) :
    atoi (decimal n ++ rest) = n := by
  have hdigits : ∀ c ∈ decimal n, isDecimalDigit c = true := by
    rw [isDecimalDigit_eq]
    exact List.all_eq_true.mp (Core.decimal_isDigit n)
  obtain ⟨c, digits, hcons⟩ := List.exists_cons_of_ne_nil (Core.decimal_ne n)
  have hc := of_decide_eq_true (hdigits c (hcons ▸ List.mem_cons_self))
  have hblank : (c == 0x20#8 || decide (0x09 ≤ c.toNat ∧ c.toNat ≤ 0x0D)) = false := by
    have hne : c ≠ 0x20#8 := by
      rintro rfl
      exact absurd hc.1 (by decide)
    simp only [Bool.or_eq_false_iff, beq_eq_false_iff_ne, ne_eq, hne, not_false_eq_true,
      decide_eq_false_iff_not, true_and]
    omega
  have hdrop : (decimal n ++ rest).dropWhile
      (fun c => c == 0x20#8 || decide (0x09 ≤ c.toNat ∧ c.toNat ≤ 0x0D)) = decimal n ++ rest := by
    rw [hcons, List.cons_append]
    exact List.dropWhile_cons_of_neg (by rw [hblank]; exact Bool.false_ne_true)
  have hhead : (decimal n ++ rest).head? = some c := by
    rw [hcons]
    rfl
  have hminus : ¬some c = some 0x2D#8 := by
    rintro heq
    obtain rfl := Option.some.inj heq
    exact absurd hc.1 (by decide)
  have hplus : ¬some c = some 0x2B#8 := by
    rintro heq
    obtain rfl := Option.some.inj heq
    exact absurd hc.1 (by decide)
  simp only [atoi, hdrop, hhead, hminus, hplus, or_self, if_false,
    takeWhile_run hdigits h]
  exact congrArg Int.ofNat (Core.digitsNat_decimal n)

/-- The blanks around a value are not part of it. -/
theorem trimValue_text (h : HeaderLine) : trimValue (h.before ++ h.value ++ h.after) = h.value := by
  rw [trimValue, List.rdropWhile, List.append_assoc]
  by_cases hvalue : h.value = []
  · have hnil : (h.before ++ h.after).dropWhile isHeaderBlank = [] :=
      List.dropWhile_eq_nil_iff.mpr fun c hc =>
        (List.mem_append.mp hc).elim (h.before_blank c) (h.after_blank c)
    rw [hvalue, List.nil_append, hnil]
    rfl
  · have hhead : ∀ c, (h.value ++ h.after).head? = some c → isHeaderBlank c = false := by
      intro c hc
      rw [List.head?_append_of_ne_nil _ hvalue] at hc
      exact h.value_head c hc
    rw [dropWhile_run h.before_blank hhead, List.reverse_append, dropWhile_run, List.reverse_reverse]
    · exact fun c hc => h.after_blank c (List.mem_reverse.mp hc)
    · intro c hc
      rw [List.head?_reverse] at hc
      exact h.value_last c hc

theorem headerOf_text (h : HeaderLine) : headerOf h.text = [(h.name, h.value)] := by
  have hname : ∀ c ∈ h.name, (c != 0x3A#8) = true := fun c hc =>
    bne_iff_ne.mpr (h.name_plain c hc).1
  have hcolon : ∀ c, (0x3A#8 :: (h.before ++ h.value ++ h.after)).head? = some c →
      (c != 0x3A#8) = false := by
    intro c hc
    obtain rfl := Option.some.inj hc
    rfl
  rw [headerOf, HeaderLine.text, dropWhile_run hname hcolon, takeWhile_run hname hcolon]
  simp only [if_neg h.name_ne, trimValue_text]

theorem HeaderLine.text_ne (h : HeaderLine) : h.text ≠ [] := by
  rw [HeaderLine.text]
  exact List.append_ne_nil_of_right_ne_nil _ (List.cons_ne_nil _ _)

theorem HeaderLine.text_line (h : HeaderLine) : 0x0A#8 ∉ h.text := by
  have hblank : ∀ run : Bytes, (∀ c ∈ run, isHeaderBlank c = true) → 0x0A#8 ∉ run := fun run hrun hin =>
    absurd (hrun _ hin) (by decide)
  simp only [HeaderLine.text, List.mem_append, List.mem_cons, not_or]
  exact ⟨fun hin => (h.name_plain _ hin).2.2.1 rfl, by decide,
    ⟨hblank h.before h.before_blank, h.value_line.1⟩, hblank h.after h.after_blank⟩

/-- The header lines are read up to the blank line. -/
theorem readHeadersLoop_spec {headers : List HeaderLine} {tail : Bytes} {fuel total : Nat}
    {read : List (Bytes × Bytes)} {r : HttpReader}
    (h : r.Before ((headers.flatMap fun h => h.text ++ crlf) ++ crlf ++ tail))
    (hfuel : headers.length < fuel)
    (htotal : total + (headers.map fun h => h.text.length).sum ≤ kMaxHeaderBlock)
    (hfit : ∀ h ∈ headers, h.text.length < kMaxHeaderBlock) :
    ∃ r', readHeadersLoop fuel total read r =
        .ok (read ++ headers.map fun h => (h.name, h.value), r') ∧ r'.Before tail := by
  induction headers generalizing fuel total read r with
  | nil =>
    obtain ⟨fuel, rfl⟩ := Nat.exists_eq_add_one_of_ne_zero (Nat.ne_of_gt hfuel)
    obtain ⟨r', hread, hnext⟩ := @HttpReader.Before.readLine r [] tail kMaxHeaderBlock h
      List.not_mem_nil (by decide)
    refine ⟨r', ?_, hnext⟩
    rw [readHeadersLoop, hread]
    simp only [if_pos, List.map_nil, List.append_nil]
  | cons header headers ih =>
    rw [List.length_cons] at hfuel
    obtain ⟨fuel, rfl⟩ := Nat.exists_eq_add_one_of_ne_zero (show fuel ≠ 0 by omega)
    simp only [List.map_cons, List.sum_cons] at htotal
    rw [List.flatMap_cons, List.append_assoc, List.append_assoc, ← List.append_assoc _ crlf tail] at h
    obtain ⟨r₁, hread, hnext⟩ := h.readLine header.text_line (hfit header List.mem_cons_self)
    obtain ⟨r', hrun, hlast⟩ := @ih fuel (total + header.text.length)
      (read ++ [(header.name, header.value)]) r₁ hnext (by omega) (by omega)
      fun h hh => hfit h (List.mem_cons_of_mem _ hh)
    refine ⟨r', ?_, hlast⟩
    rw [readHeadersLoop, hread]
    simp only [if_neg header.text_ne, if_neg (show ¬total + header.text.length > kMaxHeaderBlock by
      omega), headerOf_text, hrun, List.map_cons, List.append_assoc, List.singleton_append]

theorem ResponseHead.statusLine_line (h : ResponseHead) : 0x0A#8 ∉ h.statusLine := by
  have hdigits : 0x0A#8 ∉ decimal h.status := fun hin =>
    absurd (List.all_eq_true.mp (Core.decimal_isDigit h.status) _ hin) (by decide)
  simp only [ResponseHead.statusLine, List.mem_append, List.mem_cons, not_or]
  exact ⟨⟨by decide, h.version_plain.2⟩, by decide, hdigits, h.reason_line⟩

theorem length_flatMap_ge {β : Type*} (items : List β) (f : β → Bytes) (h : ∀ b ∈ items, f b ≠ []) :
    items.length ≤ (items.flatMap f).length := by
  induction items with
  | nil => exact Nat.zero_le _
  | cons b items ih =>
    have hb := List.length_pos_of_ne_nil (h b List.mem_cons_self)
    have hrest := ih fun b hb => h b (List.mem_cons_of_mem _ hb)
    rw [List.flatMap_cons, List.length_append, List.length_cons]
    omega

/-- A status line is passed over if it is an interim one, and is the answer otherwise. -/
theorem readStatusLoop_line (head : ResponseHead) {tail : Bytes} {fuel : Nat} {r : HttpReader}
    (h : r.Before (head.statusLine ++ crlf ++ tail)) :
    ∃ r', r'.Before tail ∧
      (head.Interim → readStatusLoop (fuel + 1) r = readStatusLoop fuel r') ∧
      (¬head.Interim → readStatusLoop (fuel + 1) r = .ok (head.status, r')) := by
  obtain ⟨r', hread, hnext⟩ := h.readLine head.statusLine_line head.head_fits
  have hspace : ∀ c ∈ ascii "HTTP/" ++ head.version, (c != 0x20#8) = true := by
    intro c hc
    refine bne_iff_ne.mpr ?_
    rintro rfl
    rcases List.mem_append.mp hc with hc | hc
    · exact absurd hc (by decide)
    · exact head.version_plain.1 hc
  have hdrop : head.statusLine.dropWhile (· != 0x20#8) =
      0x20#8 :: (decimal head.status ++ head.reason) :=
    dropWhile_run hspace fun c hc => by
      obtain rfl := Option.some.inj hc
      rfl
  have htake : head.statusLine.take 5 = ascii "HTTP/" := by
    rw [ResponseHead.statusLine, List.append_assoc]
    exact List.take_left' rfl
  have hne : head.statusLine ≠ [] := by
    rintro hnil
    rw [hnil] at htake
    exact absurd htake (by decide)
  have hatoi := atoi_decimal (n := head.status) head.reason_start
  have hrun : readStatusLoop (fuel + 1) r =
      if 100 ≤ (head.status : Int) ∧ (head.status : Int) < 200 then readStatusLoop fuel r'
      else .ok (head.status, r') := by
    rw [readStatusLoop, hread]
    simp only [if_neg hne, htake, ne_eq, not_true_eq_false, if_false, hdrop, hatoi]
  refine ⟨r', hnext, fun hinterim => ?_, fun hfinal => ?_⟩
  · rw [ResponseHead.Interim] at hinterim
    rw [hrun, if_pos (by omega)]
  · rw [ResponseHead.Interim] at hfinal
    rw [hrun, if_neg (by omega)]

/-- The head is read to its end once its status line has been found. -/
theorem readResponseHead_of_status {head : ResponseHead} (hfits : head.Fits) {body : Bytes}
    {r r₁ : HttpReader} (hstatus : readStatusLoop (r.remaining + 1) r = .ok (head.status, r₁))
    (h : r₁.Before (headerText head.headers ++ body)) :
    ∃ r', readResponseHead r = .ok (head.response, r') ∧ r'.Before body := by
  have hfuel : head.headers.length < r₁.remaining + 1 := by
    have hlen := length_flatMap_ge head.headers (fun h => h.text ++ crlf) fun h _ =>
      List.append_ne_nil_of_left_ne_nil h.text_ne crlf
    rw [remaining_eq, h.rest_eq, headerText, List.length_append, List.length_append]
    omega
  obtain ⟨r', hheaders, hlast⟩ := @readHeadersLoop_spec head.headers body
    (r₁.remaining + 1) 0 [] r₁ h hfuel (by rw [Nat.zero_add]; exact hfits.1) hfits.2
  refine ⟨r', ?_, hlast⟩
  simp only [readResponseHead, hstatus, bind, Except.bind, hheaders, List.nil_append]
  rfl

/-- The head of a response is read as it was written. -/
theorem readResponseHead_spec (m : HttpMessage) {tail : Bytes} {r : HttpReader}
    (h : r.Before (m.head.text ++ tail)) :
    ∃ r', readResponseHead r = .ok (m.response, r') ∧ r'.Before tail := by
  rw [ResponseHead.text, List.append_assoc] at h
  obtain ⟨r₁, hnext, -, hfinal⟩ := @readStatusLoop_line m.head _ r.remaining r h
  exact @readResponseHead_of_status m.head m.headers_fit _ _ _ (hfinal m.status_final.1) hnext

theorem HttpMessage.text_eq (m : HttpMessage) : m.text = m.head.text ++ m.framing.text :=
  (List.append_assoc _ _ _).symm

/-! ## Chunks -/

theorem hexValue_lower (c : Byte) : hexValue (asciiLowerByte c) = hexValue c := by
  have hall : ∀ n : Fin 256, hexValue (asciiLowerByte (BitVec.ofFin n)) = hexValue (BitVec.ofFin n) := by
    decide +kernel
  exact hall c.toFin

/-- A sum that wraps in every round is the sum, wrapped once. -/
theorem foldl_wrap (digits : Bytes) (base m n : Nat) (value : Byte → Nat) :
    digits.foldl (fun n c => (n * base + value c) % m) (n % m) =
      digits.foldl (fun n c => n * base + value c) n % m :=
  List.foldl_hom (· % m) fun n c => by
    rw [Nat.add_mod, Nat.mod_mul_mod, ← Nat.add_mod]

/-- Digits in either case spell their number, on a `size_t`. -/
theorem chunkSizeLoop_digits {digits : Bytes} (hdigits : ∀ c ∈ digits, (hexValue c).isSome = true)
    (n : Nat) : chunkSizeLoop n (asciiLower digits) =
      some (digits.foldl (fun n c => (n * 16 + (hexValue c).getD 0) % 2 ^ 64) n) := by
  induction digits generalizing n with
  | nil => rfl
  | cons c digits ih =>
    obtain ⟨d, hd⟩ := Option.isSome_iff_exists.mp (hdigits c List.mem_cons_self)
    rw [asciiLower, List.map_cons, chunkSizeLoop, hexValue_lower, List.foldl_cons, hd,
      Option.bind_some, Option.getD_some]
    exact ih (fun c hc => hdigits c (List.mem_cons_of_mem _ hc)) _

/-- The size of a chunk, behind which extensions may stand. -/
theorem chunkSize_digits {digits ext : Bytes} (hne : digits ≠ [])
    (hdigits : ∀ c ∈ digits, (hexValue c).isSome = true)
    (hstart : ext = [] ∨ ext.head? = some 0x3B#8) :
    chunkSize (digits ++ ext) = some (hexNumber digits % 2 ^ 64) := by
  have hsemi : ∀ c ∈ digits, (c != 0x3B#8) = true := by
    intro c hc
    refine bne_iff_ne.mpr ?_
    rintro rfl
    exact absurd (hdigits _ hc) (by decide)
  have hext : ∀ c, ext.head? = some c → (c != 0x3B#8) = false := by
    intro c hc
    rcases hstart with hnil | hstart
    · rw [hnil] at hc
      exact absurd hc (Option.some_ne_none c).symm
    · obtain rfl := Option.some.inj (hstart.symm.trans hc)
      rfl
  have hlower : asciiLower digits ≠ [] := by
    rw [asciiLower, Ne, List.map_eq_nil_iff]
    exact hne
  simp only [chunkSize, takeWhile_run hsemi hext, if_neg hlower]
  rw [chunkSizeLoop_digits hdigits]
  exact congrArg some (foldl_wrap digits 16 (2 ^ 64) 0 _)

theorem chunkSize_line {size : Nat} (l : ChunkLine size) : chunkSize (l.digits ++ l.ext) = some size := by
  rw [chunkSize_digits l.digits_ne l.digits_hex l.ext_start, l.digits_value,
    Nat.mod_eq_of_lt l.size_lt]

theorem ChunkLine.text_line {size : Nat} (l : ChunkLine size) : 0x0A#8 ∉ l.digits ++ l.ext := by
  rw [List.mem_append, not_or]
  exact ⟨fun hin => absurd (l.digits_hex _ hin) (by decide), l.ext_line⟩

theorem readTrailersLoop_spec {trailers : List Trailer} {tail : Bytes} {fuel : Nat} {r : HttpReader}
    (h : r.Before (trailerText trailers ++ crlf ++ tail)) (hfuel : trailers.length < fuel) :
    ∃ r', readTrailersLoop fuel r = .ok r' ∧ r'.Before tail := by
  induction trailers generalizing fuel r with
  | nil =>
    obtain ⟨fuel, rfl⟩ := Nat.exists_eq_add_one_of_ne_zero (Nat.ne_of_gt hfuel)
    obtain ⟨r', hread, hnext⟩ := @HttpReader.Before.readLine r [] tail kMaxHeaderBlock h
      List.not_mem_nil (by decide)
    refine ⟨r', ?_, hnext⟩
    rw [readTrailersLoop, hread]
    rfl
  | cons trailer trailers ih =>
    rw [List.length_cons] at hfuel
    obtain ⟨fuel, rfl⟩ := Nat.exists_eq_add_one_of_ne_zero (show fuel ≠ 0 by omega)
    rw [trailerText, List.flatMap_cons, List.append_assoc, List.append_assoc,
      ← List.append_assoc _ crlf tail] at h
    obtain ⟨r₁, hread, hnext⟩ := h.readLine trailer.text_line trailer.fits
    obtain ⟨r', hrun, hlast⟩ := @ih fuel r₁ hnext (by omega)
    refine ⟨r', ?_, hlast⟩
    rw [readTrailersLoop, hread]
    simp only [if_neg trailer.text_ne, hrun]

theorem Chunk.text_ne (c : Chunk) : c.text ≠ [] := by
  rw [Chunk.text]
  exact List.append_ne_nil_of_right_ne_nil _ (List.append_ne_nil_of_left_ne_nil c.data_ne crlf)

theorem Framing.text_cons (chunk : Chunk) (chunks : List Chunk) (last : ChunkLine 0)
    (trailers : List Trailer) : Framing.text (.chunked (chunk :: chunks) last trailers) =
      chunk.line.digits ++ chunk.line.ext ++ crlf ++ (chunk.data ++ ([] ++ crlf ++
        Framing.text (.chunked chunks last trailers))) := by
  simp only [Framing.text, List.flatMap_cons, Chunk.text, List.append_assoc, List.nil_append]

/-- The chunks are read up to the end of the trailer section. -/
theorem readChunkedLoop_spec {rc : Option ContentReceiver} (hrc : Accepting rc) {chunks : List Chunk}
    {last : ChunkLine 0} {trailers : List Trailer} {fuel : Nat} {s : Sink} {r : HttpReader}
    (h : r.Before (Framing.text (.chunked chunks last trailers))) (hfuel : chunks.length < fuel) :
    ∃ s' r', readChunkedLoop rc fuel s r = .ok (s', r') ∧
      s.Grows rc s' (chunks.flatMap Chunk.data) := by
  induction chunks generalizing fuel s r with
  | nil =>
    obtain ⟨fuel, rfl⟩ := Nat.exists_eq_add_one_of_ne_zero (Nat.ne_of_gt hfuel)
    obtain ⟨r₁, hread, hnext⟩ := HttpReader.Before.readLine h last.text_line last.fits
    have htrailers : trailers.length < r₁.remaining + 1 := by
      have hlen := length_flatMap_ge trailers (fun t => t.text ++ crlf) fun t _ =>
        List.append_ne_nil_of_left_ne_nil t.text_ne crlf
      rw [remaining_eq, hnext.rest_eq, List.length_append, trailerText]
      omega
    rw [← List.append_nil (trailerText trailers ++ crlf)] at hnext
    obtain ⟨r', hrun, -⟩ := readTrailersLoop_spec hnext htrailers
    refine ⟨s, r', ?_, Sink.Grows.refl rc s⟩
    rw [readChunkedLoop, hread]
    simp only [chunkSize_line, hrun, Except.map]
  | cons chunk chunks ih =>
    rw [List.length_cons] at hfuel
    obtain ⟨fuel, rfl⟩ := Nat.exists_eq_add_one_of_ne_zero (show fuel ≠ 0 by omega)
    rw [Framing.text_cons] at h
    obtain ⟨n, hn⟩ := Nat.exists_eq_add_one_of_ne_zero
      (Nat.ne_of_gt (List.length_pos_of_ne_nil chunk.data_ne))
    obtain ⟨r₁, hread, hnext⟩ := h.readLine chunk.line.text_line chunk.line.fits
    obtain ⟨s₁, r₂, hdata, hgrows, hnext₂⟩ := hnext.readFull hrc s
    obtain ⟨r₃, hend, hnext₃⟩ := hnext₂.readLine List.not_mem_nil (show 0 < 1024 by decide)
    obtain ⟨s', r', hrun, hgrows'⟩ := @ih fuel s₁ r₃ hnext₃ (by omega)
    refine ⟨s', r', ?_, ?_⟩
    · rw [readChunkedLoop, hread]
      have hsize := (chunkSize_line chunk.line).trans (congrArg some hn)
      rw [hn] at hdata
      simp only [hsize, hdata, bind, Except.bind, hend]
      exact hrun
    · rw [List.flatMap_cons]
      exact hgrows.trans hgrows'

/-! ## The framing -/

theorem ciEqual_trans {a b c : Bytes} (h : ciEqual a b = true) (h' : ciEqual a c = true) :
    ciEqual b c = true := by
  rw [ciEqual, beq_iff_eq] at *
  exact h.symm.trans h'

theorem headerValue_map (headers : List HeaderLine) (name : Bytes) :
    headerValue (headers.map fun h => (h.name, h.value)) name =
      ((headers.find? fun h => ciEqual h.name name).map HeaderLine.value).getD [] := by
  rw [headerValue, List.find?_map, Option.map_map]
  rfl

/-- The only header about the framing is found by its name. -/
theorem find?_of_filter {headers : List HeaderLine} {h : HeaderLine} {name : Bytes}
    (hfilter : headers.filter HeaderLine.framing = [h]) (hname : ciEqual h.name name = true)
    (hframing : ∀ h : HeaderLine, ciEqual h.name name = true → h.framing = true) :
    (headers.find? fun h => ciEqual h.name name) = some h := by
  have hfind : headers.find? (fun h => ciEqual h.name name) =
      (headers.filter HeaderLine.framing).find? fun h => ciEqual h.name name := by
    rw [List.find?_filter]
    refine congrArg (List.find? · headers) (funext fun h => ?_)
    by_cases hh : ciEqual h.name name = true
    · simp [hh, hframing h hh]
    · simp [hh]
  rw [hfind, hfilter, List.find?_cons, hname]

/-- Without a header of the name the value is empty. -/
theorem headerValue_none {headers : List HeaderLine} {name : Bytes}
    (h : ∀ h ∈ headers, ciEqual h.name name = false) :
    headerValue (headers.map fun h => (h.name, h.value)) name = [] := by
  rw [headerValue_map, List.find?_eq_none.mpr fun x hx => by rw [h x hx]; exact Bool.false_ne_true]
  rfl

theorem framing_of_transferEncoding (h : HeaderLine)
    (hname : ciEqual h.name (ascii "Transfer-Encoding") = true) : h.framing = true := by
  rw [HeaderLine.framing, hname, Bool.true_or]

theorem framing_of_contentLength (h : HeaderLine)
    (hname : ciEqual h.name (ascii "Content-Length") = true) : h.framing = true := by
  rw [HeaderLine.framing, hname, Bool.or_true]

theorem contentLength_digits {value : Bytes} (hne : value ≠ [])
    (hdigits : value.all isDecimalDigit = true) :
    contentLength value =
      some (value.foldl (fun n c => n * 10 + (c.toNat - 0x30)) 0 % 2 ^ 64) := by
  have htake : value.takeWhile isDecimalDigit = value :=
    List.takeWhile_eq_self_iff.mpr (List.all_eq_true.mp hdigits)
  simp only [contentLength, htake, if_neg hne]
  exact congrArg some (foldl_wrap value 10 (2 ^ 64) 0 _)

/-- The framing decides how the body is read. -/
theorem readResponseBody_framing (m : HttpMessage) (r : HttpReader) (rc : Option ContentReceiver) :
    readResponseBody r m.response rc =
      match m.framing with
      | .chunked _ _ _ => readChunked r rc {}
      | .contentLength body => if body.length = 0 then .ok ({}, r) else r.readFull body.length rc {}
      | .untilClose _ => r.readToEof rc {} := by
  have hstatus : ¬((m.status : Int) = 204 ∨ (m.status : Int) = 304 ∨
      (100 ≤ (m.status : Int) ∧ (m.status : Int) < 200)) := by
    have := m.status_final
    omega
  have hannounced := m.announced
  rw [readResponseBody, HttpMessage.response, if_neg hstatus]
  cases hframing : m.framing with
  | chunked chunks last trailers =>
    rw [hframing] at hannounced
    obtain ⟨header, hfilter, hname, hchunked⟩ := hannounced
    have hvalue : headerValue (m.headers.map fun h => (h.name, h.value))
        (ascii "Transfer-Encoding") = header.value := by
      rw [headerValue_map, find?_of_filter hfilter hname framing_of_transferEncoding]
      rfl
    rw [hvalue, if_pos hchunked]
  | contentLength body =>
    rw [hframing] at hannounced
    obtain ⟨header, hfilter, hname, hne, hdigits, hsize, hlt⟩ := hannounced
    have hencoding : headerValue (m.headers.map fun h => (h.name, h.value))
        (ascii "Transfer-Encoding") = [] := by
      refine headerValue_none fun x hx => Bool.eq_false_iff.mpr fun hx' => ?_
      have hmem : x ∈ m.headers.filter HeaderLine.framing :=
        List.mem_filter.mpr ⟨hx, framing_of_transferEncoding x hx'⟩
      rw [hfilter] at hmem
      obtain rfl := List.mem_singleton.mp hmem
      exact absurd (ciEqual_trans hname hx') (by decide)
    have hvalue : headerValue (m.headers.map fun h => (h.name, h.value))
        (ascii "Content-Length") = header.value := by
      rw [headerValue_map, find?_of_filter hfilter hname framing_of_contentLength]
      rfl
    rw [hencoding, if_neg (by decide), hvalue, contentLength_digits hne hdigits, hsize,
      Nat.mod_eq_of_lt hlt]
  | untilClose body =>
    rw [hframing] at hannounced
    have hnone : ∀ x ∈ m.headers, x.framing = false := fun x hx =>
      Bool.eq_false_iff.mpr (List.filter_eq_nil_iff.mp hannounced x hx)
    have hencoding : headerValue (m.headers.map fun h => (h.name, h.value))
        (ascii "Transfer-Encoding") = [] :=
      headerValue_none fun x hx => (Bool.or_eq_false_iff.mp (hnone x hx)).1
    have hlength : headerValue (m.headers.map fun h => (h.name, h.value))
        (ascii "Content-Length") = [] :=
      headerValue_none fun x hx => (Bool.or_eq_false_iff.mp (hnone x hx)).2
    rw [hencoding, if_neg (by decide), hlength]
    rfl

/-- The body is read as it was framed. -/
theorem readResponseBody_spec (m : HttpMessage) {rc : Option ContentReceiver} (hrc : Accepting rc)
    {r : HttpReader} (h : r.Before m.framing.text) :
    ∃ s r', readResponseBody r m.response rc = .ok (s, r') ∧
      Sink.Grows rc {} s m.framing.body := by
  rw [readResponseBody_framing]
  cases hframing : m.framing with
  | chunked chunks last trailers =>
    rw [hframing] at h
    refine readChunkedLoop_spec hrc h ?_
    have hlen := length_flatMap_ge chunks Chunk.text fun c _ => c.text_ne
    rw [remaining_eq, h.rest_eq, Framing.text, List.length_append]
    omega
  | contentLength body =>
    simp only
    split
    · rename_i hzero
      obtain rfl := List.eq_nil_of_length_eq_zero hzero
      exact ⟨{}, r, rfl, Sink.Grows.refl rc {}⟩
    · rw [hframing, Framing.text, ← List.append_nil body] at h
      obtain ⟨s, r', hrun, hgrows, -⟩ := h.readFull hrc {}
      exact ⟨s, r', hrun, hgrows⟩
  | untilClose body =>
    rw [hframing] at h
    rcases @h.readToEof_spec _ _ rc {} with ⟨s, r', hrun, hgrows, -⟩ | ⟨-, hrefused⟩
    · exact ⟨s, r', hrun, hgrows⟩
    · exact absurd hrc hrefused

/-- `Transfer-Encoding: chunked`. -/
def chunkedHeader : HeaderLine where
  name := ascii "Transfer-Encoding"
  value := ascii "chunked"
  before := ascii " "
  name_ne := by decide
  name_plain := by decide
  value_line := by decide
  value_head c hc := by
    obtain rfl := Option.some.inj hc
    decide
  value_last c hc := by
    obtain rfl := Option.some.inj hc
    decide
  before_blank := by decide
  after_blank := by decide

/-- One chunk of two bytes with an extension, and a trailer. -/
def chunkedMessage : HttpMessage where
  version := ascii "1.1"
  status := 200
  reason := ascii " OK"
  headers := [chunkedHeader]
  framing := .chunked
    [{ data := ascii "hi", data_ne := by decide
       line := { digits := ascii "02", ext := ascii ";x", digits_ne := by decide
                 digits_hex := by decide, digits_value := by decide, size_lt := by decide
                 ext_start := by decide, ext_line := by decide, fits := by decide } }]
    { digits := ascii "0", digits_ne := by decide, digits_hex := by decide
      digits_value := by decide, size_lt := by decide, ext_start := by decide
      ext_line := by decide, fits := by decide }
    [{ text := ascii "a: b", text_ne := by decide, text_line := by decide, fits := by decide }]
  version_plain := by decide
  reason_start c hc := by
    obtain rfl := Option.some.inj hc
    decide
  reason_line := by decide
  status_final := by decide
  head_fits := by decide
  headers_fit := by decide
  announced := ⟨chunkedHeader, List.filter_cons_of_pos (by decide), by decide, by decide⟩

end KimixNative.Llm
