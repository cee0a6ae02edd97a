import KimixNative.Llm.HttpReader

/-!
# Responses in any segments

What the reader returns depends on the bytes that are still to come, not on where the buffer and
the segments of the transport end. So a response that is written in one of the three framings is
read back whatever the segments are.
-/

namespace KimixNative.Llm

open Text

/-! ## The bytes to come -/

/-- The bytes that have not been read yet. -/
def HttpReader.rest (r : HttpReader) : Bytes :=
  r.buf.drop r.pos ++ r.deliveries.flatMap Delivery.segment

/-- The transport delivers `text` and then ends. -/
structure HttpReader.Before (r : HttpReader) (text : Bytes) : Prop where
  live : ∀ d ∈ r.deliveries, ∃ segment, d = .bytes segment ∧ segment ≠ []
  rest_eq : r.rest = text

/-- What the transport delivers in segments is there to be read. -/
theorem before_start {segments : List Bytes} (hne : ∀ segment ∈ segments, segment ≠ []) :
    HttpReader.Before { deliveries := segments.map .bytes } segments.flatten := by
  refine ⟨?_, ?_⟩
  · intro d hd
    obtain ⟨segment, hsegment, rfl⟩ := List.mem_map.mp hd
    exact ⟨segment, rfl, hne segment hsegment⟩
  · rw [HttpReader.rest, List.flatMap_map, List.drop_zero, List.nil_append]
    exact List.flatMap_id'

theorem remaining_eq (r : HttpReader) : r.remaining = r.rest.length := by
  rw [HttpReader.remaining, HttpReader.rest, List.length_append, List.length_drop]

variable {r : HttpReader} {text : Bytes} {rc : Option ContentReceiver}

theorem HttpReader.Before.deliveries_cases (h : r.Before text) :
    r.deliveries = [] ∨ ∃ segment rest, r.deliveries = .bytes segment :: rest ∧ segment ≠ [] ∧
      ∀ d ∈ rest, ∃ segment, d = .bytes segment ∧ segment ≠ [] := by
  cases hd : r.deliveries with
  | nil => exact .inl rfl
  | cons d rest =>
    obtain ⟨segment, rfl, hsegment⟩ := h.live d (hd ▸ List.mem_cons_self)
    exact .inr ⟨segment, rest, rfl, hsegment, fun d hmem =>
      h.live d (hd ▸ List.mem_cons_of_mem _ hmem)⟩

theorem HttpReader.Before.refill_nil (h : r.Before []) : r.refill = .ok none := by
  have hdeliveries := (List.append_eq_nil_iff.mp h.rest_eq).2
  rcases h.deliveries_cases with hd | ⟨segment, rest, hd, hsegment, -⟩
  · rw [HttpReader.refill, hd]
  · rw [hd, List.flatMap_cons] at hdeliveries
    exact absurd (List.append_eq_nil_iff.mp hdeliveries).1 hsegment

theorem HttpReader.Before.refill (h : r.Before text) (hused : r.buf.length ≤ r.pos)
    (hne : text ≠ []) :
    ∃ r', r.refill = .ok (some r') ∧ r'.Before text ∧ r'.pos < r'.buf.length := by
  have hrest := h.rest_eq
  rw [HttpReader.rest, List.drop_eq_nil_of_le hused, List.nil_append] at hrest
  rcases h.deliveries_cases with hd | ⟨segment, rest, hd, hsegment, hlater⟩
  · rw [hd] at hrest
    exact absurd hrest.symm hne
  · rw [HttpReader.refill, hd]
    simp only [if_neg hsegment]
    have hfilled : 0 < (segment.take bufferSize).length := by
      rw [List.length_take]
      exact Nat.lt_min.mpr ⟨by decide, List.length_pos_of_ne_nil hsegment⟩
    refine ⟨_, rfl, ⟨?_, ?_⟩, hfilled⟩
    · intro d hmem
      simp only at hmem
      split at hmem
      · exact hlater d hmem
      · rename_i hleft
        rcases List.mem_cons.mp hmem with rfl | hmem
        · exact ⟨_, rfl, hleft⟩
        · exact hlater d hmem
    · rw [HttpReader.rest, List.drop_zero, ← hrest, hd, List.flatMap_cons]
      split
      · rename_i hleft
        rw [List.take_of_length_le (List.drop_eq_nil_iff.mp hleft)]
        rfl
      · rw [List.flatMap_cons]
        change _ ++ (segment.drop bufferSize ++ _) = segment ++ _
        rw [← List.append_assoc, List.take_append_drop]

theorem HttpReader.Before.deliveries_lt (h : r.Before text) (hlt : r.pos < r.buf.length) :
    (r.deliveries.flatMap Delivery.segment).length < text.length := by
  rw [← h.rest_eq, HttpReader.rest, List.length_append, List.length_drop]
  omega

theorem HttpReader.Before.get {c : Byte} (h : r.Before (c :: text)) :
    ∃ r', r.get = .ok (some (c, r')) ∧ r'.Before text := by
  -- one more byte of a buffer that is not used up
  have hstep : ∀ r : HttpReader, r.Before (c :: text) → r.pos < r.buf.length →
      r.buf[r.pos]? = some c ∧ ({ r with pos := r.pos + 1 } : HttpReader).Before text := by
    rintro r ⟨hlive, hrest⟩ hlt
    rw [HttpReader.rest, List.drop_eq_getElem_cons hlt, List.cons_append] at hrest
    obtain ⟨hc, htail⟩ := List.cons.inj hrest
    exact ⟨by rw [List.getElem?_eq_getElem hlt, hc], hlive, htail⟩
  rw [HttpReader.get]
  rcases Nat.lt_or_ge r.pos r.buf.length with hlt | hge
  · obtain ⟨hc, hnext⟩ := hstep r h hlt
    rw [hc]
    exact ⟨_, rfl, hnext⟩
  · obtain ⟨r', hrefill, hbefore, hlt⟩ := h.refill hge (List.cons_ne_nil c text)
    obtain ⟨hc, hnext⟩ := hstep r' hbefore hlt
    rw [List.getElem?_eq_none hge, hrefill]
    simp only [hc, Option.map_some]
    exact ⟨_, rfl, hnext⟩

theorem HttpReader.Before.get_nil (h : r.Before []) : r.get = .ok none := by
  have hused := (List.append_eq_nil_iff.mp h.rest_eq).1
  rw [HttpReader.get, List.getElem?_eq_none (List.drop_eq_nil_iff.mp hused), h.refill_nil]

/-! ## Lines -/

theorem dropWhile_run {p : Byte → Bool} {run rest : Bytes} (hrun : ∀ c ∈ run, p c = true)
    (hrest : ∀ c, rest.head? = some c → p c = false) : (run ++ rest).dropWhile p = rest := by
  rw [List.dropWhile_append_of_pos hrun]
  cases rest with
  | nil => rfl
  | cons c rest => exact List.dropWhile_cons_of_neg (by simp [hrest c rfl])

theorem takeWhile_run {p : Byte → Bool} {run rest : Bytes} (hrun : ∀ c ∈ run, p c = true)
    (hrest : ∀ c, rest.head? = some c → p c = false) : (run ++ rest).takeWhile p = run := by
  rw [List.takeWhile_append_of_pos hrun]
  cases rest with
  | nil => exact List.append_nil run
  | cons c rest =>
    rw [List.takeWhile_cons_of_neg (by simp [hrest c rfl]), List.append_nil]

/-- What a line that has begun with `acc` goes on to be, and what follows it: `none` for a line
over the limit, `some none` for a text that ends inside the line. -/
def lineFrom (cap : Nat) (acc text : Bytes) : Option (Option (Bytes × Bytes)) :=
  let line := acc ++ text.takeWhile (· != 0x0A#8)
  if line.length > cap then none
  else
    match text.dropWhile (· != 0x0A#8) with
    | [] => some none
    | _ :: tail => some (some (stripReturn line, tail))

/-- The first line of a text. -/
def lineAt (cap : Nat) (text : Bytes) : Option (Option (Bytes × Bytes)) := lineFrom cap [] text

/-- The reader returns what the text has. -/
def ReadsLine (x : Except NetError (Option (Bytes × HttpReader))) :
    Option (Option (Bytes × Bytes)) → Prop
  | none => x = .error .read
  | some none => x = .ok none
  | some (some (line, tail)) => ∃ r, x = .ok (some (line, r)) ∧ r.Before tail

theorem readLineLoop_spec {cap fuel : Nat} {acc : Bytes} {r : HttpReader} (h : r.Before text)
    (hacc : acc.length ≤ cap) (hfuel : cap + 1 < acc.length + fuel) :
    ReadsLine (readLineLoop cap fuel acc r) (lineFrom cap acc text) := by
  obtain ⟨fuel, rfl⟩ := Nat.exists_eq_add_one_of_ne_zero (show fuel ≠ 0 by omega)
  induction text generalizing acc r fuel with
  | nil =>
    rw [readLineLoop, h.get_nil, lineFrom, List.takeWhile_nil, List.append_nil,
      if_neg (Nat.not_lt_of_le hacc)]
    rfl
  | cons c text ih =>
    obtain ⟨r', hget, hnext⟩ := h.get
    rw [readLineLoop, hget]
    by_cases hc : c = 0x0A#8
    · subst hc
      rw [lineFrom, List.takeWhile_cons_of_neg (by decide), List.append_nil,
        if_neg (Nat.not_lt_of_le hacc), List.dropWhile_cons_of_neg (by decide)]
      exact ⟨r', rfl, hnext⟩
    · have hline : lineFrom cap acc (c :: text) = lineFrom cap (acc ++ [c]) text := by
        rw [lineFrom, lineFrom, List.takeWhile_cons_of_pos (by simp [hc]),
          List.dropWhile_cons_of_pos (by simp [hc]), List.append_assoc, List.singleton_append]
      have hlen : (acc ++ [c]).length = acc.length + 1 := List.length_append
      rw [hline]
      simp only [if_neg hc]
      by_cases hlong : acc.length + 1 > cap
      · rw [if_pos hlong, lineFrom, if_pos (by rw [List.length_append, hlen]; omega)]
        rfl
      · rw [if_neg hlong]
        obtain ⟨fuel, rfl⟩ := Nat.exists_eq_add_one_of_ne_zero (show fuel ≠ 0 by omega)
        exact ih hnext (by omega) fuel (by omega)

theorem HttpReader.Before.readLine_spec (h : r.Before text) (cap : Nat) :
    ReadsLine (r.readLine cap) (lineAt cap text) :=
  readLineLoop_spec h (Nat.zero_le cap) (by rw [List.length_nil]; omega)

theorem lineAt_newline {line tail : Bytes} (hfree : 0x0A#8 ∉ line) (cap : Nat) :
    lineAt cap (line ++ 0x0A#8 :: tail) =
      if line.length > cap then none else some (some (stripReturn line, tail)) := by
  have hline : ∀ c ∈ line, (c != 0x0A#8) = true := fun c hc =>
    bne_iff_ne.mpr fun heq => hfree (heq ▸ hc)
  have hend : ∀ c, (0x0A#8 :: tail).head? = some c → (c != 0x0A#8) = false := by
    intro c hc
    obtain rfl := Option.some.inj hc
    rfl
  simp only [lineAt, lineFrom, takeWhile_run hline hend, dropWhile_run hline hend, List.nil_append]

theorem stripReturn_concat (line : Bytes) : stripReturn (line ++ [0x0D#8]) = line := by
  rw [stripReturn, List.getLast?_concat, if_pos rfl, List.dropLast_concat]

/-- The end of a line. -/
def crlf : Bytes := [0x0D#8, 0x0A#8]

theorem lineAt_crlf {line tail : Bytes} {cap : Nat} (hfree : 0x0A#8 ∉ line)
    (hcap : line.length < cap) : lineAt cap (line ++ crlf ++ tail) = some (some (line, tail)) := by
  have htext : line ++ crlf ++ tail = (line ++ [0x0D#8]) ++ 0x0A#8 :: tail := by
    rw [crlf, List.append_assoc, List.append_assoc]
    rfl
  have hfree' : 0x0A#8 ∉ line ++ [0x0D#8] := by
    simp [hfree]
  have hlen : (line ++ [0x0D#8]).length = line.length + 1 := List.length_append
  rw [htext, lineAt_newline hfree', if_neg (by omega), stripReturn_concat]

/-- A line is read up to its end. -/
theorem HttpReader.Before.readLine {r : HttpReader} {line tail : Bytes} {cap : Nat}
    (h : r.Before (line ++ crlf ++ tail)) (hfree : 0x0A#8 ∉ line) (hcap : line.length < cap) :
    ∃ r', r.readLine cap = .ok (some (line, r')) ∧ r'.Before tail := by
  have hread := h.readLine_spec cap
  rwa [lineAt_crlf hfree hcap] at hread

/-! ## Bytes of the body -/

/-- The receiver, if there is one, accepts every piece. -/
def Accepting (rc : Option ContentReceiver) : Prop :=
  ∀ accepts, rc = some accepts → ∀ pieces piece, accepts pieces piece = true

/-- The body, or what has been handed on, has grown by some bytes. -/
def Sink.Grows (rc : Option ContentReceiver) (s s' : Sink) (text : Bytes) : Prop :=
  match rc with
  | some _ => s'.body = s.body ∧ s'.pieces.flatten = s.pieces.flatten ++ text
  | none => s'.body = s.body ++ text ∧ s'.pieces = s.pieces

theorem Sink.Grows.refl (rc : Option ContentReceiver) (s : Sink) : s.Grows rc s [] := by
  cases rc with
  | none => exact ⟨(List.append_nil _).symm, rfl⟩
  | some accepts => exact ⟨rfl, (List.append_nil _).symm⟩

theorem Sink.Grows.trans {s s' s'' : Sink} {text' : Bytes} (h : s.Grows rc s' text)
    (h' : s'.Grows rc s'' text') : s.Grows rc s'' (text ++ text') := by
  cases rc with
  | none => exact ⟨by rw [h'.1, h.1, List.append_assoc], h'.2.trans h.2⟩
  | some accepts => exact ⟨h'.1.trans h.1, by rw [h'.2, h.2, List.append_assoc]⟩

/-- The receiver has refused a piece. -/
def Refused {α : Type} (rc : Option ContentReceiver) (x : Except NetError α) : Prop :=
  x = .error .canceled ∧ ¬Accepting rc

theorem Sink.put_spec (rc : Option ContentReceiver) (s : Sink) (piece : Bytes) :
    (∃ s', s.put rc piece = .ok s' ∧ s.Grows rc s' piece) ∨ Refused rc (s.put rc piece) := by
  cases rc with
  | none => exact .inl ⟨_, rfl, rfl, rfl⟩
  | some accepts =>
    by_cases hpiece : accepts s.pieces piece = true
    · refine .inl ⟨_, if_pos hpiece, rfl, ?_⟩
      rw [List.flatten_append, List.flatten_singleton]
    · exact .inr ⟨if_neg hpiece, fun hrc => hpiece (hrc accepts rfl s.pieces piece)⟩

/-- The next `n` bytes of a text are read unless the text is too short or the receiver refuses. -/
def ReadsFull (rc : Option ContentReceiver) (n : Nat) (text : Bytes) (s : Sink)
    (x : Except NetError (Sink × HttpReader)) : Prop :=
  (n ≤ text.length ∧ ∃ s' r', x = .ok (s', r') ∧ s.Grows rc s' (text.take n) ∧
    r'.Before (text.drop n)) ∨ (text.length < n ∧ x = .error .success) ∨ Refused rc x

/-- The next bytes, whichever segments they are in. -/
theorem readFullLoop_spec {fuel n : Nat} {s : Sink} (h : r.Before text) (hfuel : n ≤ fuel) :
    ReadsFull rc n text s (readFullLoop rc fuel n s r) := by
  induction fuel generalizing n text s r with
  | zero =>
    obtain rfl : n = 0 := Nat.le_zero.mp hfuel
    exact .inl ⟨Nat.zero_le _, s, r, rfl, Sink.Grows.refl rc s, h⟩
  | succ fuel ih =>
    rw [readFullLoop]
    cases n with
    | zero => exact .inl ⟨Nat.zero_le _, s, r, rfl, Sink.Grows.refl rc s, h⟩
    | succ n =>
      rw [if_neg (Nat.succ_ne_zero n)]
      -- a buffer that is not used up
      have hround : ∀ r : HttpReader, r.Before text → r.pos < r.buf.length →
          ReadsFull rc (n + 1) text s (do
            let s ← s.put rc ((r.buf.drop r.pos).take (min (r.buf.length - r.pos) (n + 1)))
            readFullLoop rc fuel (n + 1 - min (r.buf.length - r.pos) (n + 1)) s
              { r with pos := r.pos + min (r.buf.length - r.pos) (n + 1) }) := by
        intro r h hlt
        obtain ⟨hlive, hrest⟩ := h
        have hdrop : (r.buf.drop r.pos).length = r.buf.length - r.pos := List.length_drop
        have hlong : r.buf.length - r.pos ≤ text.length := by
          rw [← hrest, HttpReader.rest, List.length_append]
          omega
        generalize htake : min (r.buf.length - r.pos) (n + 1) = take
        have hpiece : (r.buf.drop r.pos).take take = text.take take := by
          rw [← hrest, HttpReader.rest, List.take_append_of_le_length (by omega)]
        have hnext : ({ r with pos := r.pos + take } : HttpReader).Before (text.drop take) := by
          refine ⟨hlive, ?_⟩
          rw [← hrest, HttpReader.rest, HttpReader.rest, List.drop_append_of_le_length (by omega),
            List.drop_drop]
        have hsum : take + (n + 1 - take) = n + 1 := by omega
        have hleft : (text.drop take).length = text.length - take := List.length_drop
        rcases s.put_spec rc ((r.buf.drop r.pos).take take) with ⟨s₁, hput, hgrows₁⟩ | ⟨hput, hrc⟩
        · rw [hput]
          rw [hpiece] at hgrows₁
          rcases ih (n := n + 1 - take) (s := s₁) hnext (by omega) with
            ⟨hle, s', r', hrun, hgrows, hlast⟩ | ⟨hshort, hrun⟩ | hrefused
          · have hall := hgrows₁.trans hgrows
            rw [← List.take_add, hsum] at hall
            rw [List.drop_drop, hsum] at hlast
            exact .inl ⟨by omega, s', r', hrun, hall, hlast⟩
          · exact .inr (.inl ⟨by omega, hrun⟩)
          · exact .inr (.inr hrefused)
        · rw [hput]
          exact .inr (.inr ⟨rfl, hrc⟩)
      rw [HttpReader.filled]
      rcases Nat.lt_or_ge r.pos r.buf.length with hlt | hge
      · rw [if_pos hlt]
        exact hround r h hlt
      · rw [if_neg (Nat.not_lt_of_le hge)]
        cases text with
        | nil =>
          rw [h.refill_nil]
          exact .inr (.inl ⟨Nat.succ_pos n, rfl⟩)
        | cons c text =>
          obtain ⟨r₁, hrefill, hbefore, hlt⟩ := h.refill hge (List.cons_ne_nil c text)
          rw [hrefill]
          exact hround r₁ hbefore hlt

theorem HttpReader.Before.readFull_spec (h : r.Before text) (n : Nat) (s : Sink) :
    ReadsFull rc n text s (r.readFull n rc s) := readFullLoop_spec h (Nat.le_refl n)

theorem HttpReader.Before.readFull (hrc : Accepting rc) {data tail : Bytes}
    (h : r.Before (data ++ tail)) (s : Sink) :
    ∃ s' r', r.readFull data.length rc s = .ok (s', r') ∧ s.Grows rc s' data ∧ r'.Before tail := by
  rcases @h.readFull_spec _ _ rc data.length s with ⟨-, hread⟩ | ⟨hshort, -⟩ | ⟨-, hrefused⟩
  · rwa [List.take_left, List.drop_left] at hread
  · rw [List.length_append] at hshort
    omega
  · exact absurd hrc hrefused

/-- The rest of the buffer and then all that is delivered. -/
theorem readToEofLoop_spec {fuel : Nat} {s : Sink} (h : r.Before text)
    (hfuel : (r.deliveries.flatMap Delivery.segment).length < fuel) :
    (∃ s' r', readToEofLoop rc fuel s r = .ok (s', r') ∧ s.Grows rc s' text ∧ r'.Before []) ∨
      Refused rc (readToEofLoop rc fuel s r) := by
  induction fuel generalizing text s r with
  | zero => exact absurd hfuel (Nat.not_lt_zero _)
  | succ fuel ih =>
    obtain ⟨hlive, hrest⟩ := h
    have hbuffered : (∃ s₁, s.putBuffered rc r = .ok s₁ ∧ s.Grows rc s₁ (r.buf.drop r.pos)) ∨
        Refused rc (s.putBuffered rc r) := by
      rw [Sink.putBuffered]
      split
      · exact s.put_spec rc _
      · rename_i hused
        rw [List.drop_eq_nil_of_le (Nat.le_of_not_lt hused)]
        exact .inl ⟨s, rfl, Sink.Grows.refl rc s⟩
    have hused : ({ r with pos := r.buf.length } : HttpReader).Before
        (r.deliveries.flatMap Delivery.segment) := by
      refine ⟨hlive, ?_⟩
      rw [HttpReader.rest, List.drop_length, List.nil_append]
    rcases hbuffered with ⟨s₁, hput, hgrows⟩ | ⟨hput, hrc⟩
    · by_cases hmore : r.deliveries.flatMap Delivery.segment = []
      · rw [hmore] at hused
        refine .inl ⟨s₁, { r with pos := r.buf.length }, ?_, ?_, hused⟩
        · simp only [readToEofLoop, hput, bind, Except.bind, hused.refill_nil]
        · rw [← hrest, HttpReader.rest, hmore, List.append_nil]
          exact hgrows
      · obtain ⟨r₁, hrefill, hbefore, hlt⟩ := hused.refill (Nat.le_refl _) hmore
        have hless := hbefore.deliveries_lt hlt
        have hrun : readToEofLoop rc (fuel + 1) s r = readToEofLoop rc fuel s₁ r₁ := by
          simp only [readToEofLoop, hput, bind, Except.bind, hrefill]
        rw [hrun, ← hrest, HttpReader.rest]
        rcases ih (s := s₁) hbefore (by omega) with ⟨s', r', hlast, hgrows', hend⟩ | hrefused
        · exact .inl ⟨s', r', hlast, hgrows.trans hgrows', hend⟩
        · exact .inr hrefused
    · refine .inr ⟨?_, hrc⟩
      simp only [readToEofLoop, hput, bind, Except.bind]

theorem HttpReader.Before.readToEof_spec (h : r.Before text) (s : Sink) :
    (∃ s' r', r.readToEof rc s = .ok (s', r') ∧ s.Grows rc s' text ∧ r'.Before []) ∨
      Refused rc (r.readToEof rc s) :=
  readToEofLoop_spec h (by rw [HttpReader.remaining]; omega)

end KimixNative.Llm
