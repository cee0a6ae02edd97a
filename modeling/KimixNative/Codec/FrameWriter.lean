import KimixNative.Codec.Agreement

/-!
# Newline framing

`JsonRpcFrameWriter` ends every payload with a newline and the receive buffer cuts the
stream at newlines again. The stream may arrive in any chunks and the reader may try to
take a frame at any time: what it gets is a prefix of the payloads, and draining the
buffer at the end yields the rest and leaves it as it was made.
-/

namespace KimixNative.Codec

/-- The delimiter of JSON-RPC over stdio and of wire.jsonl. -/
def newline : Byte := 0x0a

/-- `frame` is cleared and receives the payload and a newline. -/
def JsonRpcFrameWriter.write (payload : Bytes) (_frame : Bytes) : Bytes :=
  let frame : Bytes := []
  let frame := if payload.isEmpty then frame else frame ++ payload
  frame ++ [newline]

/-- `JsonlRecorder::record`, the same line for a record. -/
def JsonlRecorder.record (envelopeFrame : Bytes) (_out : Bytes) : Bytes :=
  let out : Bytes := []
  let out := if envelopeFrame.isEmpty then out else out ++ envelopeFrame
  out ++ [newline]

@[simp] theorem JsonRpcFrameWriter.write_eq (payload frame : Bytes) :
    JsonRpcFrameWriter.write payload frame = payload ++ [newline] := by
  cases payload <;> rfl

/-- The stream of all payloads written one after the other. -/
def writeAll (payloads : List Bytes) : Bytes :=
  (payloads.map fun payload => JsonRpcFrameWriter.write payload []).flatten

@[simp] theorem writeAll_cons (payload : Bytes) (payloads : List Bytes) :
    writeAll (payload :: payloads) = payload ++ newline :: writeAll payloads := by
  simp [writeAll]

/-- What happens at the receiving end: a chunk arrives, or the reader tries to take a frame. -/
inductive Event
  | chunk (bytes : Bytes)
  | attempt
  deriving DecidableEq, Repr

def Event.op (maxFrame : Nat) : Event → Op
  | .chunk bytes => .append bytes
  | .attempt => .takeFrameDelimiter [newline] maxFrame

/-- The bytes that arrive in a run. -/
def arrived : List Event → Bytes
  | [] => []
  | .chunk bytes :: events => bytes ++ arrived events
  | .attempt :: events => arrived events

/-- The frames handed out by a run. -/
def received : List Reply → List Bytes
  | [] => []
  | .frame payload :: replies => payload :: received replies
  | _ :: replies => received replies

/-- Take frames until a take is refused, at most `n` times. -/
def drain (maxFrame : Nat) : Nat → RecvBuffer → List Bytes × RecvBuffer
  | 0, s => ([], s)
  | n + 1, s =>
    match s.takeFrameDelimiter [newline] maxFrame with
    | (.frame payload, s') =>
      let (payloads, t) := drain maxFrame n s'
      (payload :: payloads, t)
    | (_, s') => ([], s')

/-- A payload that can be framed: without a newline and within the limit. -/
def Framable (maxFrame : Nat) (payload : Bytes) : Prop :=
  newline ∉ payload ∧ payload.length ≤ maxFrame

variable {maxFrame : Nat} {payloads : List Bytes}

theorem Framable.length_le {payload : Bytes} (h : Framable maxFrame payload) :
    payload.length ≤ frameLimit maxFrame := by
  have := h.2
  unfold frameLimit
  split_ifs <;> omega

/-! ### One take from the stream -/

/-- The reader holds `u`, the rest of the stream is `x`: a take hands out the next payload,
or the newline behind it has not arrived. -/
theorem takeDelimiter_stream {u x : Bytes} (hp : ∀ p ∈ payloads, Framable maxFrame p)
    (h : u ++ x = writeAll payloads) :
    (Naive.takeDelimiter u [newline] maxFrame = none ∧ newline ∉ u) ∨
      ∃ payload rest u', payloads = payload :: rest ∧
        Naive.takeDelimiter u [newline] maxFrame = some (payload, u') ∧
        u' ++ x = writeAll rest := by
  have absent : newline ∉ u → Naive.takeDelimiter u [newline] maxFrame = none := by
    intro hu
    simp only [Naive.takeDelimiter, firstOccurrence_singleton_eq_none hu]
    rfl
  cases payloads with
  | nil =>
    obtain ⟨rfl, -⟩ := List.append_eq_nil_iff.mp h
    exact .inl ⟨absent List.not_mem_nil, List.not_mem_nil⟩
  | cons payload rest =>
    have hpayload := hp payload List.mem_cons_self
    rw [writeAll_cons] at h
    by_cases hu : newline ∈ u
    · -- the newline in `u` is the one behind the payload
      obtain ⟨a, rfl, hx⟩ | ⟨c, rfl, hc⟩ := List.append_eq_append_iff.mp h
      · exact absurd (List.mem_append_left _ hu) hpayload.1
      · cases c with
        | nil => exact absurd (by simpa using hu) hpayload.1
        | cons b c =>
          rw [List.cons_append] at hc
          obtain ⟨hb, htail⟩ := List.cons.inj hc
          subst hb
          refine .inr ⟨payload, rest, c, rfl, ?_, htail.symm⟩
          simp only [Naive.takeDelimiter, firstOccurrence_singleton_append hpayload.1,
            if_pos hpayload.length_le, List.take_left, List.length_singleton,
            ← List.drop_drop, List.drop_left]
          rfl
    · exact .inl ⟨absent hu, hu⟩

/-- The naive reader over a run: what it has handed out and what it still holds. -/
theorem naive_stream {u : Bytes} {events : List Event} (hp : ∀ p ∈ payloads, Framable maxFrame p)
    (h : u ++ arrived events = writeAll payloads) :
    ∃ rest, payloads = received (Naive.replies u (events.map (Event.op maxFrame))) ++ rest ∧
      run Naive.step u (events.map (Event.op maxFrame)) = writeAll rest := by
  induction events generalizing u payloads with
  | nil => exact ⟨payloads, rfl, by simpa [arrived] using h⟩
  | cons event events ih =>
    cases event with
    | chunk bytes =>
      refine ih hp ?_
      rw [← h, Naive.step, Event.op, Naive.perform, List.append_assoc, arrived]
    | attempt =>
      obtain ⟨hnone, -⟩ | ⟨payload, rest, u', rfl, hsome, hrest⟩ := takeDelimiter_stream hp h
      · have hstep : Naive.perform u (Event.op maxFrame .attempt) = (.refused, u) := by
          rw [Event.op, Naive.perform, hnone]
          rfl
        obtain ⟨rest, hsplit, hheld⟩ := ih hp h
        refine ⟨rest, ?_, ?_⟩
        · rw [List.map_cons, Naive.replies, Naive.step, hstep]
          exact hsplit
        · rw [List.map_cons, run_cons, Naive.step, hstep]
          exact hheld
      · have hstep : Naive.perform u (Event.op maxFrame .attempt) = (.frame payload, u') := by
          rw [Event.op, Naive.perform, hsome]
          rfl
        obtain ⟨rest', hsplit, hheld⟩ :=
          ih (fun p hmem => hp p (List.mem_cons_of_mem _ hmem)) hrest
        refine ⟨rest', ?_, ?_⟩
        · rw [List.map_cons, Naive.replies, Naive.step, hstep]
          exact congrArg (payload :: ·) hsplit
        · rw [List.map_cons, run_cons, Naive.step, hstep]
          exact hheld

/-! ### The receive buffer -/

namespace RecvBuffer

/-- What the newline reader keeps: a valid buffer, compacted, whose scan position is right. -/
structure Reading (s : RecvBuffer) : Prop where
  valid : s.Valid
  scanned : s.Scanned [newline]
  compacted : s.consumed ≤ s.buf.length / 2

theorem reading_fresh : Reading {} where
  valid := le_rfl
  scanned := settled_zero _ _
  compacted := le_rfl

variable {s : RecvBuffer}

theorem Reading.agreeable (h : s.Reading) (maxFrame : Nat) (event : Event) :
    s.Agreeable (event.op maxFrame) := by
  cases event with
  | chunk bytes => trivial
  | attempt => exact h.scanned.skipsNothing maxFrame

theorem compacted_maybeCompact (s : RecvBuffer) :
    s.maybeCompact.consumed ≤ s.maybeCompact.buf.length / 2 := by
  unfold maybeCompact compact
  split_ifs with hhalf hzero
  · omega
  · exact Nat.zero_le _
  · show s.consumed ≤ s.buf.length / 2
    omega

theorem compacted_takeFrameDelimiter (h : s.consumed ≤ s.buf.length / 2) (delim : Bytes)
    (maxFrame : Nat) :
    (s.takeFrameDelimiter delim maxFrame).2.consumed ≤
      (s.takeFrameDelimiter delim maxFrame).2.buf.length / 2 := by
  by_cases hd : delim = []
  · subst hd
    exact h
  rw [s.takeFrameDelimiter_eq hd]
  cases searchDelimiter delim s.unconsumed.length (s.unconsumed.drop s.scanFrom) s.scanFrom with
  | crossing p => exact h
  | absent => exact h
  | found p =>
    rw [afterSearch]
    split_ifs
    · exact h
    · exact compacted_maybeCompact _

theorem Reading.step (h : s.Reading) (maxFrame : Nat) (event : Event) :
    (s.step (event.op maxFrame)).Reading where
  valid := (agrees_of_agreeable h.valid (h.agreeable maxFrame event)).valid
  scanned := by
    refine scanned_step h.valid h.scanned ?_
    intro d n hop
    cases event with
    | chunk bytes => cases hop
    | attempt => cases hop; rfl
  compacted := by
    cases event with
    | chunk bytes =>
      have hbuf : (s.append bytes).consumed = s.consumed ∧
          s.buf.length ≤ (s.append bytes).buf.length := by
        unfold append
        split_ifs
        · exact ⟨rfl, le_rfl⟩
        · exact ⟨rfl, by rw [List.length_append]; omega⟩
      have := h.compacted
      show (s.append bytes).consumed ≤ (s.append bytes).buf.length / 2
      omega
    | attempt => exact compacted_takeFrameDelimiter h.compacted [newline] maxFrame

theorem Reading.run (h : s.Reading) (maxFrame : Nat) (events : List Event) :
    (KimixNative.run RecvBuffer.step s (events.map (Event.op maxFrame))).Reading ∧
      Meets RecvBuffer.step Agreeable s (events.map (Event.op maxFrame)) := by
  induction events generalizing s with
  | nil => exact ⟨h, trivial⟩
  | cons event events ih =>
    obtain ⟨hrun, hmeets⟩ := ih (h.step maxFrame event)
    exact ⟨hrun, h.agreeable maxFrame event, hmeets⟩

/-- A refused take from an empty buffer leaves it as it was made. -/
theorem Reading.eq_fresh (h : s.Reading) (hempty : s.unconsumed = []) (maxFrame : Nat) :
    s.takeFrameDelimiter [newline] maxFrame = (.refused, {}) := by
  have hlen := s.length_unconsumed
  rw [hempty, List.length_nil] at hlen
  have hcompacted := h.compacted
  have hbuf : s.buf = [] := List.length_eq_zero_iff.mp (by omega)
  have hconsumed : s.consumed = 0 := by
    rw [hbuf, List.length_nil] at hcompacted
    omega
  have hscan : s.delimScanPos = 0 := by
    by_contra hpos
    have := (h.scanned 0 (Nat.pos_of_ne_zero hpos)).1
    rw [hempty, List.length_nil] at this
    omega
  cases s
  simp only at hbuf hconsumed hscan
  subst hbuf hconsumed hscan
  rfl

end RecvBuffer

open RecvBuffer in
/-- Draining a buffer that holds whole frames returns their payloads and empties it. -/
theorem drain_stream (hs : s.Reading) (hp : ∀ p ∈ payloads, Framable maxFrame p)
    (h : s.unconsumed = writeAll payloads) {n : Nat} (hn : payloads.length < n) :
    drain maxFrame n s = (payloads, {}) := by
  induction payloads generalizing s n with
  | nil =>
    obtain ⟨n, rfl⟩ := Nat.exists_eq_add_of_lt hn
    rw [List.length_nil, Nat.zero_add, drain, hs.eq_fresh h]
  | cons payload payloads ih =>
    obtain ⟨n, rfl⟩ : ∃ m, n = m + 1 := ⟨n - 1, by omega⟩
    have hagree := agrees_of_agreeable hs.valid (hs.agreeable maxFrame .attempt)
    obtain ⟨-, habsent⟩ | ⟨p, rest, u', heq, hsome, hrest⟩ :=
      takeDelimiter_stream (u := s.unconsumed) (x := []) hp (by rw [List.append_nil, h])
    · rw [h, writeAll_cons] at habsent
      exact absurd (List.mem_append_right _ List.mem_cons_self) habsent
    obtain ⟨rfl, rfl⟩ := List.cons.inj heq
    have hperform : Naive.perform s.unconsumed (Event.op maxFrame .attempt) =
        (.frame payload, u') := by
      rw [Event.op, Naive.perform, hsome]
      rfl
    have hreply : (s.takeFrameDelimiter [newline] maxFrame).1 = .frame payload := by
      have := hagree.reply
      rwa [hperform] at this
    have hkept : (s.takeFrameDelimiter [newline] maxFrame).2.unconsumed = writeAll payloads := by
      have := hagree.kept
      rw [Naive.step, hperform] at this
      rw [← hrest, List.append_nil]
      exact this
    have hrec := ih (hs.step maxFrame .attempt) (fun p hmem => hp p (List.mem_cons_of_mem _ hmem))
      hkept (n := n) (by simpa using hn)
    obtain ⟨r, t, ht⟩ : ∃ r t, s.takeFrameDelimiter [newline] maxFrame = (r, t) := ⟨_, _, rfl⟩
    have hstep : s.step (Event.op maxFrame .attempt) = t := congrArg Prod.snd ht
    rw [ht] at hreply
    rw [hstep] at hrec
    obtain rfl : r = .frame payload := hreply
    simp only [drain, ht, hrec]

/-- However the written stream is cut into chunks and whenever the reader tries, it gets a
prefix of the payloads; draining at the end returns all the rest and leaves no byte. -/
theorem newline_round_trip {maxFrame : Nat} (payloads : List Bytes)
    (hp : ∀ p ∈ payloads, newline ∉ p ∧ p.length ≤ maxFrame) (events : List Event)
    (h : arrived events = writeAll payloads) :
    received (({} : RecvBuffer).replies (events.map (Event.op maxFrame))) <+: payloads ∧
      ∀ n, payloads.length < n →
        received (({} : RecvBuffer).replies (events.map (Event.op maxFrame))) ++
            (drain maxFrame n (run RecvBuffer.step {} (events.map (Event.op maxFrame)))).1 =
          payloads ∧
        (drain maxFrame n (run RecvBuffer.step {} (events.map (Event.op maxFrame)))).2 = {} := by
  obtain ⟨hreading, hmeets⟩ := RecvBuffer.reading_fresh.run maxFrame events
  obtain ⟨hreplies, hkept⟩ := RecvBuffer.run_agrees RecvBuffer.reading_fresh.valid hmeets
  obtain ⟨rest, hsplit, hheld⟩ := naive_stream (u := []) hp h
  rw [show ({} : RecvBuffer).unconsumed = [] from rfl] at hreplies hkept
  rw [hreplies]
  refine ⟨⟨rest, hsplit.symm⟩, ?_⟩
  intro n hn
  have hrest : ∀ p ∈ rest, Framable maxFrame p := by
    intro p hmem
    exact hp p (hsplit ▸ List.mem_append_right _ hmem)
  have hlen : rest.length < n := by
    have := congrArg List.length hsplit
    rw [List.length_append] at this
    omega
  rw [drain_stream hreading hrest (hkept.trans hheld) hlen]
  exact ⟨hsplit.symm, rfl⟩

/-- Two payloads in three chunks that split neither at a newline. -/
theorem newline_round_trip_split :
    arrived [.chunk [0x61], .attempt, .chunk [0x0a, 0x62], .attempt, .chunk [0x63, 0x0a]] =
        writeAll [[0x61], [0x62, 0x63]] ∧
      (drain 2 3 (run RecvBuffer.step {} ([.chunk [0x61], .attempt, .chunk [0x0a, 0x62], .attempt,
        .chunk [0x63, 0x0a]].map (Event.op 2)))).2 = {} := by
  refine ⟨by decide, ?_⟩
  exact ((@newline_round_trip 2 [[0x61], [0x62, 0x63]] (by decide)
    [.chunk [0x61], .attempt, .chunk [0x0a, 0x62], .attempt, .chunk [0x63, 0x0a]]
    (by decide)).2 3 (by decide)).2

end KimixNative.Codec
