import KimixNative.Llm.HttpMessage

/-!
# Responses that break off

At the end of the stream the reader fails and leaves the error as it was. This happens just when
the text ends inside the head, or inside a body that is chunked or has a length.
-/

namespace KimixNative.Llm

open Text

/-! ## Texts that end too early -/

section BreaksOff

variable {σ : Type} (cap : σ → Nat) (next : σ → Bytes → Bytes → Option (σ × Bytes))

/-- The text ends inside one of the lines that a loop reads. From a line and the text behind it
`next` has the state and the text that the loop goes on with. -/
inductive BreaksOff : σ → Bytes → Prop
  | inside {state : σ} {text : Bytes} (h : lineAt (cap state) text = some none) :
    BreaksOff state text
  | later {state state' : σ} {text line tail text' : Bytes}
    (h : lineAt (cap state) text = some (some (line, tail)))
    (hnext : next state line tail = some (state', text')) (hlater : BreaksOff state' text') :
    BreaksOff state text

variable {cap next} {state : σ} {text line tail : Bytes}

theorem not_breaksOff (h : lineAt (cap state) text = none) : ¬BreaksOff cap next state text := by
  intro hbreaks
  cases hbreaks with
  | inside h' => exact absurd (h.symm.trans h') nofun
  | later h' => exact absurd (h.symm.trans h') nofun

theorem breaksOff_line (h : lineAt (cap state) text = some (some (line, tail))) :
    BreaksOff cap next state text ↔
      ∃ state' text', next state line tail = some (state', text') ∧
        BreaksOff cap next state' text' := by
  constructor
  · intro hbreaks
    cases hbreaks with
    | inside h' => exact absurd (h.symm.trans h') nofun
    | later h' hnext hlater =>
      obtain ⟨rfl, rfl⟩ := Prod.mk.inj (Option.some.inj (Option.some.inj (h.symm.trans h')))
      exact ⟨_, _, hnext, hlater⟩
  · rintro ⟨state', text', hnext, hlater⟩
    exact .later h hnext hlater

theorem lineAt_length {limit : Nat} (h : lineAt limit text = some (some (line, tail))) :
    tail.length < text.length := by
  rw [lineAt, lineFrom] at h
  split at h
  · cases h
  · split at h
    · cases h
    · rename_i hdrop
      obtain ⟨-, rfl⟩ := Prod.mk.inj (Option.some.inj (Option.some.inj h))
      have hsuffix := (List.dropWhile_suffix (l := text) (· != 0x0A#8)).length_le
      rw [hdrop, List.length_cons] at hsuffix
      omega

/-- The three ways in which a loop reads its next line. -/
theorem readLine_cases {r : HttpReader} (h : r.Before text) {limit : Nat} (hcap : cap state = limit) :
    (r.readLine limit = .error .read ∧ ¬BreaksOff cap next state text) ∨
      (r.readLine limit = .ok none ∧ BreaksOff cap next state text) ∨
      ∃ line tail r', r.readLine limit = .ok (some (line, r')) ∧ r'.Before tail ∧
        tail.length < text.length ∧ (BreaksOff cap next state text ↔
          ∃ state' text', next state line tail = some (state', text') ∧
            BreaksOff cap next state' text') := by
  have hread := h.readLine_spec limit
  subst hcap
  match hline : lineAt (cap state) text with
  | none =>
    rw [hline] at hread
    exact .inl ⟨hread, not_breaksOff hline⟩
  | some none =>
    rw [hline] at hread
    exact .inr (.inl ⟨hread, .inside hline⟩)
  | some (some (line, tail)) =>
    rw [hline] at hread
    obtain ⟨r', hread, hnext⟩ := hread
    exact .inr (.inr ⟨line, tail, r', hread, hnext, lineAt_length hline, breaksOff_line hline⟩)

end BreaksOff

/-- A failure leaves the error unset just when the text breaks off; otherwise the text that is left
breaks off later if the whole does. -/
def Settles {α : Type} (breaks : Prop) (later : Bytes → Prop) :
    Except NetError (α × HttpReader) → Prop
  | .error e => e = .success ↔ breaks
  | .ok (_, r) => ∃ tail, r.Before tail ∧ (breaks ↔ later tail)

/-! ## The head -/

def headCap : Option Nat → Nat
  | none => 16 * 1024
  | some _ => kMaxHeaderBlock

/-- The state is the length of the header lines so far, after the final status line. -/
def headNext : Option Nat → Bytes → Bytes → Option (Option Nat × Bytes)
  | none, line, tail =>
    if line = [] then some (none, tail)
    else if line.take 5 ≠ ascii "HTTP/" then none
    else
      match line.dropWhile (· != 0x20#8) with
      | [] => none
      | _ :: after => some (if 100 ≤ atoi after ∧ atoi after < 200 then none else some 0, tail)
  | some total, line, tail =>
    if line = [] ∨ total + line.length > kMaxHeaderBlock then none
    else some (some (total + line.length), tail)

variable {text : Bytes} {fuel : Nat} {r : HttpReader}

theorem readHeadersLoop_settles {total : Nat} {read : List (Bytes × Bytes)} (h : r.Before text)
    (hfuel : text.length < fuel) :
    Settles (BreaksOff headCap headNext (some total) text) (fun _ => False)
      (readHeadersLoop fuel total read r) := by
  induction fuel generalizing text total read r with
  | zero => exact absurd hfuel (Nat.not_lt_zero _)
  | succ fuel ih =>
    rw [readHeadersLoop]
    rcases @readLine_cases _ headCap headNext (some total) _ _ h kMaxHeaderBlock rfl with
      ⟨hread, hbreaks⟩ | ⟨hread, hbreaks⟩ | ⟨line, tail, r', hread, hnext, hlen, hbreaks⟩
    · rw [hread]
      exact iff_of_false (by simp) hbreaks
    · rw [hread]
      exact iff_of_true rfl hbreaks
    · rw [hread, hbreaks]
      simp only [headNext]
      by_cases hend : line = []
      · rw [if_pos hend, if_pos (.inl hend)]
        exact ⟨tail, hnext, iff_of_false (by simp) id⟩
      · by_cases hlong : total + line.length > kMaxHeaderBlock
        · rw [if_neg hend, if_pos hlong, if_pos (.inr hlong)]
          exact iff_of_false (by simp) (by simp)
        · rw [if_neg hend, if_neg hlong, if_neg (not_or.mpr ⟨hend, hlong⟩)]
          simpa using @ih tail r' (total + line.length) (read ++ headerOf line) hnext (by omega)

theorem readStatusLoop_settles (h : r.Before text) (hfuel : text.length < fuel) :
    Settles (BreaksOff headCap headNext none text) (BreaksOff headCap headNext (some 0))
      (readStatusLoop fuel r) := by
  induction fuel generalizing text r with
  | zero => exact absurd hfuel (Nat.not_lt_zero _)
  | succ fuel ih =>
    rw [readStatusLoop]
    rcases @readLine_cases _ headCap headNext none _ _ h (16 * 1024) rfl with
      ⟨hread, hbreaks⟩ | ⟨hread, hbreaks⟩ | ⟨line, tail, r', hread, hnext, hlen, hbreaks⟩
    · rw [hread]
      exact iff_of_false (by simp) hbreaks
    · rw [hread]
      exact iff_of_true rfl hbreaks
    · have hlater := @ih tail r' hnext (by omega)
      rw [hread, hbreaks]
      simp only [headNext]
      by_cases hblank : line = []
      · rw [if_pos hblank, if_pos hblank]
        simpa using hlater
      · rw [if_neg hblank, if_neg hblank]
        by_cases hhttp : line.take 5 ≠ ascii "HTTP/"
        · rw [if_pos hhttp, if_pos hhttp]
          exact iff_of_false (by simp) (by simp)
        · rw [if_neg hhttp, if_neg hhttp]
          cases line.dropWhile (· != 0x20#8) with
          | nil => exact iff_of_false (by simp) (by simp)
          | cons c after =>
            simp only
            by_cases hinterim : 100 ≤ atoi after ∧ atoi after < 200
            · rw [if_pos hinterim, if_pos hinterim]
              simpa using hlater
            · rw [if_neg hinterim, if_neg hinterim]
              exact ⟨tail, hnext, by simp⟩

theorem readResponseHead_settles (h : r.Before text) :
    Settles (BreaksOff headCap headNext none text) (fun _ => False) (readResponseHead r) := by
  have hstatus := @readStatusLoop_settles text (r.remaining + 1) r h (by
    rw [remaining_eq, h.rest_eq]
    omega)
  rw [readResponseHead]
  cases hrun : readStatusLoop (r.remaining + 1) r with
  | error e =>
    rw [hrun] at hstatus
    exact hstatus
  | ok found =>
    obtain ⟨status, r₁⟩ := found
    rw [hrun] at hstatus
    obtain ⟨tail, hnext, hbreaks⟩ := hstatus
    have hheaders := @readHeadersLoop_settles tail (r₁.remaining + 1) r₁ 0 [] hnext (by
      rw [remaining_eq, hnext.rest_eq]
      omega)
    rw [hbreaks]
    simp only [bind, Except.bind]
    cases hread : readHeadersLoop (r₁.remaining + 1) 0 [] r₁ with
    | error e =>
      rw [hread] at hheaders
      exact hheaders
    | ok found =>
      rw [hread] at hheaders
      exact hheaders

/-! ## The body -/

/-- What follows the line break behind a chunk, which may be missing. -/
def behindChunk (text : Bytes) : Option Bytes :=
  match lineAt 1024 text with
  | none => none
  | some none => some text
  | some (some (_, tail)) => some tail

def chunkCap : Bool → Nat
  | false => 16 * 1024
  | true => kMaxHeaderBlock

/-- The state is whether the last chunk has been read. -/
def chunkNext : Bool → Bytes → Bytes → Option (Bool × Bytes)
  | false, line, tail =>
    match chunkSize line with
    | none => none
    | some 0 => some (true, tail)
    | some (n + 1) => (behindChunk (tail.drop (n + 1))).map fun text => (false, text)
  | true, line, tail => if line = [] then none else some (true, tail)

/-- The text ends inside a body that is chunked or has a length. -/
def BreaksOffInBody (res : HttpResponse) (text : Bytes) : Prop :=
  ¬(res.status = 204 ∨ res.status = 304 ∨ (100 ≤ res.status ∧ res.status < 200)) ∧
    if firstOccurrence (ascii "chunked")
        (asciiLower (headerValue res.headers (ascii "Transfer-Encoding"))) ≠ none then
      BreaksOff chunkCap chunkNext false text
    else
      ∃ n ∈ contentLength (headerValue res.headers (ascii "Content-Length")), text.length < n

theorem readTrailersLoop_settles (h : r.Before text) (hfuel : text.length < fuel) (s : Sink) :
    Settles (BreaksOff chunkCap chunkNext true text) (fun _ => False)
      ((readTrailersLoop fuel r).map fun r => (s, r)) := by
  induction fuel generalizing text r with
  | zero => exact absurd hfuel (Nat.not_lt_zero _)
  | succ fuel ih =>
    rw [readTrailersLoop]
    rcases @readLine_cases _ chunkCap chunkNext true _ _ h kMaxHeaderBlock rfl with
      ⟨hread, hbreaks⟩ | ⟨hread, hbreaks⟩ | ⟨line, tail, r', hread, hnext, hlen, hbreaks⟩
    · rw [hread]
      exact iff_of_false (by simp) hbreaks
    · rw [hread]
      exact iff_of_true rfl hbreaks
    · rw [hread, hbreaks]
      simp only [chunkNext]
      by_cases hend : line = []
      · rw [if_pos hend, if_pos hend]
        exact ⟨tail, hnext, by simp⟩
      · rw [if_neg hend, if_neg hend]
        simpa using @ih tail r' hnext (by omega)

/-- A reading that the receiver refuses aside, the error is set unless the text breaks off. -/
theorem readChunkedLoop_settles {rc : Option ContentReceiver} {s : Sink} (h : r.Before text)
    (hfuel : text.length < fuel) :
    Refused rc (readChunkedLoop rc fuel s r) ∨
      Settles (BreaksOff chunkCap chunkNext false text) (fun _ => False)
        (readChunkedLoop rc fuel s r) := by
  induction fuel generalizing text s r with
  | zero => exact absurd hfuel (Nat.not_lt_zero _)
  | succ fuel ih =>
    rw [readChunkedLoop]
    rcases @readLine_cases _ chunkCap chunkNext false _ _ h (16 * 1024) rfl with
      ⟨hread, hbreaks⟩ | ⟨hread, hbreaks⟩ | ⟨line, tail, r', hread, hnext, hlen, hbreaks⟩
    · rw [hread]
      exact .inr (iff_of_false (by simp) hbreaks)
    · rw [hread]
      exact .inr (iff_of_true rfl hbreaks)
    · rw [hread, hbreaks]
      simp only [chunkNext]
      match chunkSize line with
      | none => exact .inr (iff_of_false (by simp) (by simp))
      | some 0 =>
        have htrailers := @readTrailersLoop_settles tail (r'.remaining + 1) r' hnext (by
          rw [remaining_eq, hnext.rest_eq]
          omega) s
        exact .inr (by simpa using htrailers)
      | some (n + 1) =>
        rcases @hnext.readFull_spec _ _ rc (n + 1) s with
          ⟨-, s₁, r₁, hdata, -, hrest⟩ | ⟨hshort, hdata⟩ | ⟨hdata, hrc⟩
        · have hend := hrest.readLine_spec 1024
          have hdrop : (tail.drop (n + 1)).length ≤ tail.length := by
            rw [List.length_drop]
            exact Nat.sub_le _ _
          simp only [hdata, bind, Except.bind, behindChunk]
          match hline : lineAt 1024 (tail.drop (n + 1)) with
          | none =>
            rw [hline] at hend
            rw [show r₁.readLine 1024 = .error .read from hend]
            exact .inr (iff_of_false (by simp) (by simp))
          | some none =>
            rw [hline] at hend
            rw [show r₁.readLine 1024 = .ok none from hend]
            simpa using @ih _ r₁ s₁ hrest (by omega)
          | some (some (_, later)) =>
            rw [hline] at hend
            obtain ⟨r₂, hend, hlast⟩ := hend
            have hless := lineAt_length hline
            rw [hend]
            simpa using @ih _ r₂ s₁ hlast (by omega)
        · have hnil : tail.drop (n + 1) = [] := List.drop_eq_nil_of_le (by omega)
          simp only [hdata, bind, Except.bind, hnil]
          exact .inr (iff_of_true rfl ⟨false, [], rfl, .inside rfl⟩)
        · simp only [hdata, bind, Except.bind]
          exact .inl ⟨rfl, hrc⟩

theorem readResponseBody_settles (h : r.Before text) (res : HttpResponse)
    (rc : Option ContentReceiver) :
    Refused rc (readResponseBody r res rc) ∨
      Settles (BreaksOffInBody res text) (fun _ => False) (readResponseBody r res rc) := by
  rw [readResponseBody, BreaksOffInBody]
  by_cases hstatus : res.status = 204 ∨ res.status = 304 ∨ (100 ≤ res.status ∧ res.status < 200)
  · rw [if_pos hstatus]
    exact .inr ⟨text, h, iff_of_false (fun hbreaks => hbreaks.1 hstatus) id⟩
  · rw [if_neg hstatus, and_iff_right hstatus]
    split
    · exact readChunkedLoop_settles h (by rw [remaining_eq, h.rest_eq]; omega)
    · cases contentLength (headerValue res.headers (ascii "Content-Length")) with
      | none =>
        rcases @h.readToEof_spec _ _ rc {} with ⟨s, r', hrun, -, hend⟩ | hrefused
        · rw [hrun]
          exact .inr ⟨[], hend, by simp⟩
        · exact .inl hrefused
      | some n =>
        simp only [Option.mem_def, Option.some.injEq, exists_eq_left']
        by_cases hzero : n = 0
        · rw [if_pos hzero]
          exact .inr ⟨text, h, iff_of_false (by omega) id⟩
        · rw [if_neg hzero]
          rcases @h.readFull_spec _ _ rc n {} with
            ⟨hle, s', r', hrun, -, hrest⟩ | ⟨hshort, hrun⟩ | hrefused
          · rw [hrun]
            exact .inr ⟨text.drop n, hrest, iff_of_false (Nat.not_lt_of_le hle) id⟩
          · rw [hrun]
            exact .inr (iff_of_true rfl hshort)
          · exact .inl hrefused

/-! ## Texts that are cut short -/

variable {q more : Bytes} {c : Byte}

/-- A text that stops inside its first line or behind it. -/
theorem lineAt_cut {line tail : Bytes} (h : line ++ crlf ++ tail = q ++ c :: more)
    (hfree : 0x0A#8 ∉ line) :
    (∀ cap, line.length < cap → lineAt cap q = some none) ∨
      ∃ q', (∀ cap, line.length < cap → lineAt cap q = some (some (line, q'))) ∧
        tail = q' ++ c :: more := by
  rcases List.append_eq_append_iff.mp h with ⟨q', rfl, htail⟩ | ⟨left, hline, hmore⟩
  · exact .inr ⟨q', fun cap hcap => lineAt_crlf hfree hcap, htail⟩
  · rcases List.eq_nil_or_concat' left with rfl | ⟨left, d, rfl⟩
    · rw [List.append_nil] at hline
      refine .inr ⟨[], fun cap hcap => ?_, hmore.symm⟩
      rw [← hline, ← List.append_nil (line ++ crlf)]
      exact lineAt_crlf hfree hcap
    · -- the last byte of the line is missing
      have htext : line ++ [0x0D#8] ++ [0x0A#8] = q ++ left ++ [d] := by
        rw [List.append_assoc, List.append_assoc]
        exact hline
      have hinit := (List.append_inj' htext rfl).1
      have hq : ∀ b ∈ q, (b != 0x0A#8) = true := by
        rintro b hb
        refine bne_iff_ne.mpr ?_
        rintro rfl
        have hin : 0x0A#8 ∈ line ++ [0x0D#8] := hinit ▸ List.mem_append_left left hb
        simp [hfree] at hin
      have hlen := congrArg List.length hinit
      rw [List.length_append, List.length_append, List.length_singleton] at hlen
      refine .inl fun cap hcap => ?_
      rw [lineAt, lineFrom, List.takeWhile_eq_self_iff.mpr hq, List.dropWhile_eq_nil_iff.mpr hq,
        List.nil_append, if_neg (by omega)]

variable {trailers : List Trailer}

theorem breaksOff_trailers (h : trailerText trailers ++ crlf = q ++ c :: more) :
    BreaksOff chunkCap chunkNext true q := by
  induction trailers generalizing q with
  | nil =>
    rcases @lineAt_cut q more c [] [] h List.not_mem_nil with hcut | ⟨q', -, htail⟩
    · exact .inside (hcut _ (by decide))
    · exact absurd htail (by simp)
  | cons trailer trailers ih =>
    rw [trailerText, List.flatMap_cons, List.append_assoc] at h
    rcases lineAt_cut h trailer.text_line with hcut | ⟨q', hline, htail⟩
    · exact .inside (hcut _ trailer.fits)
    · exact .later (hline _ trailer.fits) (if_neg trailer.text_ne) (ih htail)

theorem breaksOff_chunks {chunks : List Chunk} {last : ChunkLine 0}
    (h : Framing.text (.chunked chunks last trailers) = q ++ c :: more) :
    BreaksOff chunkCap chunkNext false q := by
  induction chunks generalizing q with
  | nil =>
    rcases lineAt_cut h last.text_line with hcut | ⟨q', hline, htail⟩
    · exact .inside (hcut _ last.fits)
    · refine .later (hline _ last.fits) ?_ (breaksOff_trailers htail)
      rw [chunkNext, chunkSize_line]
  | cons chunk chunks ih =>
    rw [Framing.text_cons] at h
    rcases lineAt_cut h chunk.line.text_line with hcut | ⟨q', hline, htail⟩
    · exact .inside (hcut _ chunk.line.fits)
    · obtain ⟨n, hn⟩ := Nat.exists_eq_add_one_of_ne_zero
        (Nat.ne_of_gt (List.length_pos_of_ne_nil chunk.data_ne))
      have hlater : ∀ text, behindChunk (q'.drop chunk.data.length) = some text →
          BreaksOff chunkCap chunkNext false text → BreaksOff chunkCap chunkNext false q := by
        intro text hbehind hbreaks
        refine .later (hline _ chunk.line.fits) ?_ hbreaks
        have hsize := (chunkSize_line chunk.line).trans (congrArg some hn)
        rw [hn] at hbehind
        simp only [chunkNext, hsize, hbehind, Option.map_some]
      rcases List.append_eq_append_iff.mp htail with ⟨q₂, rfl, hrest⟩ | ⟨left, hdata, -⟩
      · rw [List.drop_left] at hlater
        rcases lineAt_cut hrest List.not_mem_nil with hcut | ⟨q₃, hbreak, hrest⟩
        · refine hlater q₂ ?_ (.inside (hcut _ (by decide)))
          rw [behindChunk, hcut 1024 (by decide)]
        · refine hlater q₃ ?_ (ih hrest)
          rw [behindChunk, hbreak 1024 (by decide)]
      · refine hlater [] ?_ (.inside rfl)
        rw [hdata, List.drop_eq_nil_of_le (by rw [List.length_append]; omega)]
        rfl

/-- A body that is cut short fails. -/
theorem readResponseBody_cut {m : HttpMessage} (hlimited : ∀ body, m.framing ≠ .untilClose body)
    (h : r.Before q) (hq : m.framing.text = q ++ c :: more) (rc : Option ContentReceiver) :
    ∃ e, readResponseBody r m.response rc = .error e := by
  rw [readResponseBody_framing]
  cases hframing : m.framing with
  | chunked chunks last trailers =>
    rw [hframing] at hq
    rcases @readChunkedLoop_settles q (r.remaining + 1) r rc {} h (by
      rw [remaining_eq, h.rest_eq]
      omega) with hrefused | hsettles
    · exact ⟨_, hrefused.1⟩
    · simp only [readChunked]
      cases hrun : readChunkedLoop rc (r.remaining + 1) {} r with
      | error e => exact ⟨e, rfl⟩
      | ok found =>
        rw [hrun] at hsettles
        obtain ⟨_, -, hbreaks⟩ := hsettles
        exact (hbreaks.mp (breaksOff_chunks hq)).elim
  | contentLength body =>
    rw [hframing, Framing.text] at hq
    have hlen := congrArg List.length hq
    rw [List.length_append, List.length_cons] at hlen
    simp only [if_neg (show body.length ≠ 0 by omega)]
    rcases @h.readFull_spec _ _ rc body.length {} with ⟨hle, -⟩ | ⟨-, hrun⟩ | hrefused
    · omega
    · exact ⟨_, hrun⟩
    · exact ⟨_, hrefused.1⟩
  | untilClose body => exact absurd hframing (hlimited body)

end KimixNative.Llm
