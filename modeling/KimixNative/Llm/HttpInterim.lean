import KimixNative.Llm.HttpMessage

/-!
# Interim responses

The loop over the status lines passes over an interim status line and then expects the next one.
A header line behind it is taken for a status line, and the exchange ends there.
-/

namespace KimixNative.Llm

open Text

/-- An interim response; a field name is a token, which has no slash. -/
structure InterimHead extends ResponseHead where
  interim : toResponseHead.Interim
  token : ∀ h ∈ headers, 0x2F#8 ∉ h.name

/-- The head of a final response. -/
structure FinalHead extends ResponseHead where
  final : ¬toResponseHead.Interim
  fits : toResponseHead.Fits

def interimText (interims : List InterimHead) : Bytes := interims.flatMap fun i => i.text

/-! ## Lines that are no status line -/

variable {r : HttpReader} {tail : Bytes}

/-- A header line does not begin as a status line does. -/
theorem HeaderLine.take_ne {h : HeaderLine} (htoken : 0x2F#8 ∉ h.name) :
    h.text.take 5 ≠ ascii "HTTP/" := by
  intro htake
  have hsplit : ascii "HTTP/" ++ h.text.drop 5 =
      h.name ++ 0x3A#8 :: (h.before ++ h.value ++ h.after) := by
    rw [← htake, List.take_append_drop, HeaderLine.text]
  rcases List.append_eq_append_iff.mp hsplit with ⟨more, hname, -⟩ | ⟨more, hhttp, hcolon⟩
  · rw [hname] at htoken
    exact htoken (List.mem_append_left _ (by decide))
  · cases more with
    | nil =>
      rw [List.append_nil] at hhttp
      rw [← hhttp] at htoken
      exact htoken (by decide)
    | cons c more =>
      obtain ⟨rfl, -⟩ := List.cons.inj hcolon
      have hin : 0x3A#8 ∈ ascii "HTTP/" := by
        rw [hhttp]
        exact List.mem_append_right _ List.mem_cons_self
      exact absurd hin (by decide)

/-- A header line ends the loop over the status lines. -/
theorem readStatusLoop_header {header : HeaderLine} (htoken : 0x2F#8 ∉ header.name)
    (h : r.Before (header.text ++ crlf ++ tail)) (fuel : Nat) :
    ∃ e, readStatusLoop fuel r = .error e := by
  have htext : header.text ++ crlf ++ tail = (header.text ++ [0x0D#8]) ++ 0x0A#8 :: tail := by
    rw [crlf, List.append_assoc, List.append_assoc]
    rfl
  have hfree : 0x0A#8 ∉ header.text ++ [0x0D#8] := by
    simp [header.text_line]
  rw [htext] at h
  cases fuel with
  | zero => exact ⟨_, rfl⟩
  | succ fuel =>
    have hread := h.readLine_spec (16 * 1024)
    rw [lineAt_newline hfree, stripReturn_concat] at hread
    rw [readStatusLoop]
    split at hread
    · rw [show r.readLine (16 * 1024) = .error .read from hread]
      exact ⟨_, rfl⟩
    · obtain ⟨r', hread, -⟩ := hread
      rw [hread]
      simp only [if_neg header.text_ne, if_pos (HeaderLine.take_ne htoken)]
      exact ⟨_, rfl⟩

theorem readStatusLoop_blank {tail : Bytes} {fuel : Nat} {r : HttpReader}
    (h : r.Before (crlf ++ tail)) :
    ∃ r', r'.Before tail ∧ readStatusLoop (fuel + 1) r = readStatusLoop fuel r' := by
  obtain ⟨r', hread, hnext⟩ := @HttpReader.Before.readLine r [] tail (16 * 1024) h
    List.not_mem_nil (by decide)
  refine ⟨r', hnext, ?_⟩
  rw [readStatusLoop, hread]
  simp only [if_pos]

/-! ## The responses in front of the final one -/

/-- An interim response without header lines is passed over in two rounds. -/
theorem readStatusLoop_interim {i : InterimHead} (hbare : i.headers = []) {tail : Bytes}
    {fuel : Nat} {r : HttpReader} (h : r.Before (i.text ++ tail)) :
    ∃ r', r'.Before tail ∧ readStatusLoop (fuel + 2) r = readStatusLoop fuel r' := by
  rw [ResponseHead.text, hbare, List.append_assoc] at h
  obtain ⟨r₁, hnext, hskip, -⟩ := @readStatusLoop_line i.toResponseHead _ (fuel + 1) r h
  obtain ⟨r', hlast, hblank⟩ := @readStatusLoop_blank tail fuel r₁ hnext
  exact ⟨r', hlast, (hskip i.interim).trans hblank⟩

theorem interimText_cons (i : InterimHead) (interims : List InterimHead) (tail : Bytes) :
    interimText (i :: interims) ++ tail = i.text ++ (interimText interims ++ tail) := by
  rw [interimText, List.flatMap_cons, List.append_assoc]
  rfl

variable {interims : List InterimHead}

theorem readStatusLoop_final {head : FinalHead} {fuel : Nat}
    (hbare : ∀ i ∈ interims, i.headers = [])
    (h : r.Before (interimText interims ++ (head.statusLine ++ crlf ++ tail)))
    (hfuel : 2 * interims.length < fuel) :
    ∃ r', readStatusLoop fuel r = .ok (head.status, r') ∧ r'.Before tail := by
  induction interims generalizing fuel r with
  | nil =>
    obtain ⟨fuel, rfl⟩ := Nat.exists_eq_add_one_of_ne_zero (Nat.ne_of_gt hfuel)
    obtain ⟨r', hnext, -, hfinal⟩ := @readStatusLoop_line head.toResponseHead tail fuel r h
    exact ⟨r', hfinal head.final, hnext⟩
  | cons i interims ih =>
    rw [List.length_cons] at hfuel
    obtain ⟨fuel, rfl⟩ := Nat.exists_eq_add_of_le' (show 2 ≤ fuel by omega)
    rw [interimText_cons] at h
    obtain ⟨r₁, hnext, hrun⟩ := @readStatusLoop_interim i (hbare i List.mem_cons_self) _ fuel r h
    rw [hrun]
    exact ih (fun i hi => hbare i (List.mem_cons_of_mem _ hi)) hnext (by omega)

/-- The first interim response with a header line ends the exchange. -/
theorem readStatusLoop_error {fuel : Nat} (hfull : ∃ i ∈ interims, i.headers ≠ [])
    (h : r.Before (interimText interims ++ tail)) : ∃ e, readStatusLoop fuel r = .error e := by
  induction interims generalizing fuel r with
  | nil => exact absurd hfull (by simp)
  | cons i interims ih =>
    rw [interimText_cons] at h
    match fuel with
    | 0 => exact ⟨_, rfl⟩
    | fuel + 1 =>
      have hstatus := h
      rw [ResponseHead.text, List.append_assoc] at hstatus
      obtain ⟨r₁, hnext, hskip, -⟩ := @readStatusLoop_line i.toResponseHead _ fuel r hstatus
      rw [hskip i.interim]
      cases hheaders : i.headers with
      | nil =>
        rw [hheaders] at hnext
        have hlater : ∃ i ∈ interims, i.headers ≠ [] := by
          obtain ⟨j, hj, hne⟩ := hfull
          rcases List.mem_cons.mp hj with rfl | hj
          · exact absurd hheaders hne
          · exact ⟨j, hj, hne⟩
        cases fuel with
        | zero => exact ⟨_, rfl⟩
        | succ fuel =>
          obtain ⟨r₂, hlast, hblank⟩ := @readStatusLoop_blank _ fuel r₁ hnext
          rw [hblank]
          exact ih hlater hlast
      | cons header headers =>
        rw [hheaders, headerText, List.flatMap_cons, List.append_assoc, List.append_assoc] at hnext
        exact readStatusLoop_header (i.token header (hheaders ▸ List.mem_cons_self)) hnext fuel

theorem interims_length (interims : List InterimHead) :
    2 * interims.length ≤ (interimText interims).length := by
  induction interims with
  | nil => exact Nat.zero_le _
  | cons i interims ih =>
    have hi : 2 ≤ i.text.length := by
      rw [ResponseHead.text, List.length_append, List.length_append]
      have hcrlf : crlf.length = 2 := rfl
      omega
    have hlen := congrArg List.length (interimText_cons i interims [])
    rw [List.append_nil, List.append_nil, List.length_append] at hlen
    rw [hlen, List.length_cons]
    omega

/-- The final head is read, with the reader in front of the body, just when no interim response
has a header line. -/
theorem readResponseHead_interim (interims : List InterimHead) (head : FinalHead) (body : Bytes)
    (segments : List Bytes) (hne : ∀ segment ∈ segments, segment ≠ [])
    (htext : segments.flatten = interimText interims ++ (head.text ++ body)) :
    (∃ r, readResponseHead { deliveries := segments.map .bytes } = .ok (head.response, r) ∧
      r.Before body) ↔ ∀ i ∈ interims, i.headers = [] := by
  have hstart := before_start hne
  rw [htext] at hstart
  refine ⟨?_, fun hbare => ?_⟩
  · rintro ⟨r, hread, -⟩
    by_contra hfull
    push Not at hfull
    obtain ⟨e, herror⟩ := readStatusLoop_error hfull hstart
    rw [readResponseHead, herror] at hread
    exact absurd hread (by simp [bind, Except.bind])
  · rw [ResponseHead.text, List.append_assoc] at hstart
    have hfuel : 2 * interims.length <
        HttpReader.remaining { deliveries := segments.map .bytes } + 1 := by
      have hlen := interims_length interims
      rw [remaining_eq, hstart.rest_eq, List.length_append]
      omega
    obtain ⟨r₁, hstatus, hnext⟩ := readStatusLoop_final hbare hstart hfuel
    exact readResponseHead_of_status head.fits hstatus hnext

/-- `Link: </a>`. -/
def linkHeader : HeaderLine where
  name := ascii "Link"
  value := ascii "</a>"
  before := ascii " "
  name_ne := by decide
  name_plain := by decide
  value_line := by decide
  value_head c hc := by
    obtain rfl := Option.some.inj hc
    decide
  value_last c hc := by
    obtain rfl := Option.some.inj hc
    decide
  before_blank := chunkedHeader.before_blank
  after_blank := chunkedHeader.after_blank

/-- A head with the reason `OK`. -/
def plainHead (status : Nat) (headers : List HeaderLine)
    (hfits : (ascii "HTTP/1.1 " ++ (decimal status ++ ascii " OK")).length < 16 * 1024) :
    ResponseHead where
  version := ascii "1.1"
  status := status
  reason := ascii " OK"
  headers := headers
  version_plain := chunkedMessage.version_plain
  reason_start := chunkedMessage.reason_start
  reason_line := chunkedMessage.reason_line
  head_fits := hfits

def continueHead : InterimHead where
  toResponseHead := plainHead 100 [] (by decide)
  interim := by decide
  token := fun _ h => absurd h List.not_mem_nil

def okHead : FinalHead where
  toResponseHead := plainHead 200 [linkHeader] (by decide)
  final := by decide
  fits := by decide

theorem readResponseHead_interim_twice :
    (∃ r, readResponseHead { deliveries := [
        .bytes (ascii "HTTP/1.1 100 OK\r\n\r\nHTTP/1.1 100 OK\r\n\r"),
        .bytes (ascii "\nHTTP/1.1 200 OK\r\nLink: </a>\r\n\r\nhi")] } =
          .ok (okHead.response, r) ∧ r.Before (ascii "hi")) ↔
      ∀ i ∈ [continueHead, continueHead], i.headers = [] :=
  readResponseHead_interim [continueHead, continueHead] okHead (ascii "hi")
    [ascii "HTTP/1.1 100 OK\r\n\r\nHTTP/1.1 100 OK\r\n\r",
      ascii "\nHTTP/1.1 200 OK\r\nLink: </a>\r\n\r\nhi"]
    (by decide) (by decide)

/-- Early hints end the exchange. -/
theorem readResponseHead_earlyHints :
    ¬∃ r, readResponseHead { deliveries := [.bytes (ascii
        "HTTP/1.1 103 OK\r\nLink: </a>\r\n\r\nHTTP/1.1 200 OK\r\nLink: </a>\r\n\r\nhi")] } =
          .ok (okHead.response, r) ∧ r.Before (ascii "hi") := by
  have herror : readResponseHead { deliveries := [.bytes (ascii
      "HTTP/1.1 103 OK\r\nLink: </a>\r\n\r\nHTTP/1.1 200 OK\r\nLink: </a>\r\n\r\nhi")] } =
        .error .read := by
    rfl
  rintro ⟨r, hread, -⟩
  rw [herror] at hread
  exact absurd hread (by simp)

end KimixNative.Llm
