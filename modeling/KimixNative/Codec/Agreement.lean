import KimixNative.Codec.RecvBuffer

/-!
# The receive buffer against the naive one

`Agreeable` is the condition on a take. Of a delimiter take: the offsets it skips hold no
occurrence of its delimiter within the frame limit. Of a length-prefixed take: the end of
the declared frame is a 64-bit number. In a run whose operations all meet it the two
buffers answer alike and hold the same unconsumed bytes. Takes for one delimiter meet the
condition by themselves: what an unsuccessful search leaves behind is `Settled`.
-/

namespace KimixNative.Codec

/-! ### The delimiter search -/

/-- What a search from offset `off` of `u` tells about `u`. -/
def Search.Sound (delim u : Bytes) (off : Nat) : Search → Prop
  | .found p =>
    off ≤ p ∧ delim <+: u.drop p ∧ ∀ q, off ≤ q → q < p → Clash delim (u.drop q)
  | .crossing p =>
    off ≤ p ∧ p < u.length ∧ u.length < p + delim.length ∧
      ∀ q, off ≤ q → q < p → Clash delim (u.drop q)
  | .absent => ∀ q, off ≤ q → q < u.length → Clash delim (u.drop q)

variable {delim : Bytes} {s : RecvBuffer}

variable {u : Bytes} {op : Op} {maxFrame : Nat}

/-- One more clashing offset in front. -/
theorem Search.Sound.extend {off : Nat} {r : Search} (hclash : Clash delim (u.drop off))
    (h : r.Sound delim u (off + 1)) : r.Sound delim u off := by
  have front : ∀ {n : Nat}, (∀ q, off + 1 ≤ q → q < n → Clash delim (u.drop q)) →
      ∀ q, off ≤ q → q < n → Clash delim (u.drop q) := by
    intro n hn q hq hqn
    obtain rfl | hlt := Nat.eq_or_lt_of_le hq
    · exact hclash
    · exact hn q hlt hqn
  cases r with
  | found p => exact ⟨Nat.le_of_succ_le h.1, h.2.1, front h.2.2⟩
  | crossing p => exact ⟨Nat.le_of_succ_le h.1, h.2.1, h.2.2.1, front h.2.2.2⟩
  | absent => exact front h

theorem searchDelimiter_sound (hd : delim ≠ []) (rest : Bytes) (off : Nat)
    (hrest : u.drop off = rest) : (searchDelimiter delim u.length rest off).Sound delim u off := by
  induction rest generalizing off with
  | nil =>
    intro q hq hlt
    have := List.drop_eq_nil_iff.mp hrest
    omega
  | cons b rest ih =>
    obtain ⟨a, d, rfl⟩ := List.exists_cons_of_ne_nil hd
    have hnext : u.drop (off + 1) = rest := by
      rw [← List.drop_drop, hrest, List.drop_one, List.tail_cons]
    have hlen : off + rest.length + 1 = u.length := by
      have := congrArg List.length hrest
      rw [List.length_drop, List.length_cons] at this
      omega
    simp only [searchDelimiter, List.head?_cons, Option.some.injEq]
    split_ifs with hab hcross hmatch
    · exact ⟨le_rfl, by omega, hcross, fun q hq hlt => by omega⟩
    · exact ⟨le_rfl, hrest ▸ hmatch, fun q hq hlt => by omega⟩
    · refine (ih (off + 1) hnext).extend ?_
      rw [hrest]
      refine clash_of_not_prefix ?_ hmatch
      simp only [List.length_cons] at hcross ⊢
      omega
    · refine (ih (off + 1) hnext).extend ?_
      rw [hrest]
      exact clash_of_head_ne hab

namespace RecvBuffer

/-- The consumed prefix is inside the buffer. -/
def Valid (s : RecvBuffer) : Prop := s.consumed ≤ s.buf.length

theorem length_unconsumed (s : RecvBuffer) :
    s.unconsumed.length = s.buf.length - s.consumed := List.length_drop

theorem scanFrom_le (s : RecvBuffer) : s.scanFrom ≤ s.delimScanPos := by
  unfold scanFrom
  split_ifs <;> omega

@[simp] theorem unconsumed_compact (s : RecvBuffer) : s.compact.unconsumed = s.unconsumed := by
  unfold compact unconsumed
  split_ifs <;> simp

theorem valid_compact (h : s.Valid) : s.compact.Valid := by
  unfold compact
  split_ifs
  · exact h
  · exact Nat.zero_le _

@[simp] theorem unconsumed_maybeCompact (s : RecvBuffer) :
    s.maybeCompact.unconsumed = s.unconsumed := by
  unfold maybeCompact
  split_ifs <;> simp

theorem valid_maybeCompact (h : s.Valid) : s.maybeCompact.Valid := by
  unfold maybeCompact
  split_ifs
  · exact valid_compact h
  · exact h

theorem unconsumed_append (h : s.Valid) (bytes : Bytes) :
    (s.append bytes).unconsumed = s.unconsumed ++ bytes := by
  unfold append unconsumed
  split_ifs with hempty
  · rw [List.isEmpty_iff.mp hempty, List.append_nil]
  · exact List.drop_append_of_le_length h

theorem valid_append (h : s.Valid) (bytes : Bytes) : (s.append bytes).Valid := by
  unfold append
  split_ifs
  · exact h
  · refine le_trans h ?_
    rw [List.length_append]
    exact Nat.le_add_right _ _

/-! ### One take -/

/-- The declared frame, once its header has arrived and its length is admitted, ends at a
64-bit offset. -/
def SumFits (s : RecvBuffer) (headerSize maxFrame : Nat) : Prop :=
  headerSize ≤ 8 → headerSize ≤ s.unconsumed.length →
    beNat (s.unconsumed.take headerSize) ≤ frameLimit maxFrame →
    s.consumed + headerSize + beNat (s.unconsumed.take headerSize) < sizeModulus

/-- The skipped offsets hold no occurrence of the delimiter within the frame limit. -/
def SkipsNothing (s : RecvBuffer) (delim : Bytes) (maxFrame : Nat) : Prop :=
  ∀ off < s.scanFrom, delim <+: s.unconsumed.drop off → frameLimit maxFrame < off

/-- The condition under which the next operation answers as the naive buffer does. -/
def Agreeable (s : RecvBuffer) : Op → Prop
  | .takeFrameLengthPrefixed headerSize maxFrame => s.SumFits headerSize maxFrame
  | .takeFrameDelimiter delim maxFrame => s.SkipsNothing delim maxFrame
  | _ => True

instance (s : RecvBuffer) (headerSize maxFrame : Nat) : Decidable (s.SumFits headerSize maxFrame) :=
  inferInstanceAs (Decidable (_ → _))

instance (s : RecvBuffer) (delim : Bytes) (maxFrame : Nat) :
    Decidable (s.SkipsNothing delim maxFrame) :=
  inferInstanceAs (Decidable (∀ off < s.scanFrom, _ → _))

instance (s : RecvBuffer) (op) : Decidable (s.Agreeable op) := by
  induction op using Op.casesOn <;> dsimp only [Agreeable] <;> infer_instance

/-- Both buffers answer alike and keep the same bytes. -/
structure Agrees (s : RecvBuffer) (op : Op) : Prop where
  reply : (s.perform op).1 = (Naive.perform s.unconsumed op).1
  kept : (s.step op).unconsumed = Naive.step s.unconsumed op
  valid : (s.step op).Valid

theorem Agrees.of_eq {t : RecvBuffer} {r : Reply} (code : s.perform op = (r, t))
    (naive : Naive.perform s.unconsumed op = (r, t.unconsumed)) (valid : t.Valid) :
    s.Agrees op where
  reply := by rw [code, naive]
  kept := by rw [step, Naive.step, code, naive]
  valid := by rw [step, code]; exact valid

theorem agrees_takeFrameLengthPrefixed (hs : s.Valid) {headerSize : Nat}
    (h : s.SumFits headerSize maxFrame) :
    s.Agrees (.takeFrameLengthPrefixed headerSize maxFrame) := by
  have hlen := s.length_unconsumed
  have refuse : ∀ t : RecvBuffer, t.unconsumed = s.unconsumed → t.Valid →
      s.takeFrameLengthPrefixed headerSize maxFrame = (.refused, t) →
      Naive.takeLength s.unconsumed headerSize maxFrame = none →
      s.Agrees (.takeFrameLengthPrefixed headerSize maxFrame) := by
    intro t hu ht hc hn
    refine .of_eq hc ?_ ht
    rw [Naive.perform, hn, hu]
    rfl
  by_cases hwidth : headerSize = 0 ∨ headerSize > 8
  · exact refuse s rfl hs (if_pos hwidth) (if_pos (by omega))
  by_cases hheader : s.buf.length - s.consumed < headerSize
  · refine refuse { s with delimScanPos := 0 } rfl hs ?_ (if_pos (by omega))
    simp only [takeFrameLengthPrefixed, if_neg hwidth, if_pos hheader]
  have hnaive : ¬ (headerSize = 0 ∨ headerSize > 8 ∨ s.unconsumed.length < headerSize) := by omega
  have hfits := h (by omega) (by omega)
  obtain ⟨length, hlength⟩ : ∃ n, beNat (s.unconsumed.take headerSize) = n := ⟨_, rfl⟩
  rw [hlength] at hfits
  have hdecode : beNat (List.take headerSize (List.drop s.consumed s.buf)) = length := hlength
  by_cases hadmit : length = 0 ∨ length > frameLimit maxFrame
  · refine refuse { s with delimScanPos := 0 } rfl hs ?_ ?_
    · simp only [takeFrameLengthPrefixed, if_neg hwidth, if_neg hheader, hdecode]
      split_ifs <;> first | rfl | omega
    · simp only [Naive.takeLength, if_neg hnaive, hlength]
      exact if_pos (by omega)
  have hsum : (s.consumed + headerSize + length) % sizeModulus = s.consumed + headerSize + length :=
    Nat.mod_eq_of_lt (hfits (by omega))
  by_cases harrived : s.buf.length < s.consumed + headerSize + length
  · refine refuse { s with delimScanPos := 0 } rfl hs ?_ ?_
    · simp only [takeFrameLengthPrefixed, if_neg hwidth, if_neg hheader, hdecode, hsum,
        if_pos harrived]
      split_ifs <;> rfl
    · simp only [Naive.takeLength, if_neg hnaive, hlength]
      exact if_pos (by omega)
  -- the frame is there: both hand it out and go on behind it
  refine .of_eq (r := .frame ((s.unconsumed.drop headerSize).take length))
    (t := { s with consumed := s.consumed + headerSize + length, delimScanPos := 0 }.maybeCompact)
    ?_ ?_ (valid_maybeCompact (Nat.le_of_not_lt harrived))
  · simp only [perform, takeFrameLengthPrefixed, if_neg hwidth, if_neg hheader, hdecode, hsum,
      if_neg harrived, unconsumed, List.drop_drop]
    rw [if_neg (by omega), if_neg (by omega)]
  · simp only [Naive.perform, Naive.takeLength, if_neg hnaive, hlength, unconsumed_maybeCompact]
    rw [if_neg (by omega)]
    simp only [Naive.answer, unconsumed, List.drop_drop, Nat.add_assoc]

end RecvBuffer

/-- The reference refuses when every occurrence is beyond the limit. -/
theorem takeDelimiter_eq_none (h : ∀ off, delim <+: u.drop off → frameLimit maxFrame < off) :
    Naive.takeDelimiter u delim maxFrame = none := by
  unfold Naive.takeDelimiter
  split_ifs
  · rfl
  · cases hfirst : firstOccurrence delim u with
    | none => rfl
    | some off =>
      have := h off (firstOccurrence_eq_some.mp hfirst).2.1
      exact if_neg (Nat.not_le_of_lt this)

/-- What a take hands out after its search, and what is left then. -/
def Search.outcome (u delim : Bytes) (maxFrame : Nat) : Search → Option (Bytes × Bytes)
  | .found p =>
    if p > frameLimit maxFrame then none else some (u.take p, u.drop (p + delim.length))
  | _ => none

/-- The reference agrees with every sound search that skipped nothing. -/
theorem takeDelimiter_of_sound {first : Nat} {r : Search} (hd : delim ≠ [])
    (hr : r.Sound delim u first)
    (hskip : ∀ off < first, delim <+: u.drop off → frameLimit maxFrame < off) :
    Naive.takeDelimiter u delim maxFrame = r.outcome u delim maxFrame := by
  -- an occurrence the search passed over is among the skipped offsets
  have beyond : ∀ n, (∀ q, first ≤ q → q < n → Clash delim (u.drop q)) →
      ∀ off < n, delim <+: u.drop off → frameLimit maxFrame < off := by
    intro n hclash off hoff hocc
    by_cases hlow : off < first
    · exact hskip off hlow hocc
    · exact absurd hocc (hclash off (Nat.le_of_not_lt hlow) hoff).1
  cases r with
  | crossing p =>
    obtain ⟨-, hp, hcross, hclash⟩ := hr
    refine takeDelimiter_eq_none fun off hocc => beyond p hclash off ?_ hocc
    have := hocc.length_le
    rw [List.length_drop] at this
    omega
  | absent =>
    exact takeDelimiter_eq_none fun off hocc =>
      beyond _ hr off (lt_length_of_prefix_drop hd hocc) hocc
  | found p =>
    obtain ⟨-, hmatch, hclash⟩ := hr
    by_cases hlimit : p > frameLimit maxFrame
    · rw [Search.outcome, if_pos hlimit]
      refine takeDelimiter_eq_none fun off hocc => ?_
      by_cases hoff : off < p
      · exact beyond p hclash off hoff hocc
      · omega
    · have hfirst : firstOccurrence delim u = some p := by
        refine firstOccurrence_eq_some.mpr ⟨lt_length_of_prefix_drop hd hmatch, hmatch, ?_⟩
        intro q hq hocc
        have := beyond p hclash q hq hocc
        omega
      simp only [Naive.takeDelimiter, if_neg hd, hfirst, Search.outcome, if_neg hlimit,
        if_pos (Nat.le_of_not_lt hlimit)]

namespace RecvBuffer

theorem takeFrameDelimiter_eq (s : RecvBuffer) (hd : delim ≠ []) (maxFrame : Nat) :
    s.takeFrameDelimiter delim maxFrame = s.afterSearch delim maxFrame
      (searchDelimiter delim s.unconsumed.length (s.unconsumed.drop s.scanFrom) s.scanFrom) := by
  have hempty : delim.isEmpty = false := by simpa using hd
  rw [length_unconsumed]
  simp only [takeFrameDelimiter, hempty, Bool.false_eq_true, if_false]
  rfl

theorem agrees_takeFrameDelimiter (hs : s.Valid) (h : s.SkipsNothing delim maxFrame) :
    s.Agrees (.takeFrameDelimiter delim maxFrame) := by
  by_cases hd : delim = []
  · subst hd
    exact .of_eq (r := .refused) (t := s) rfl rfl hs
  have hsound := searchDelimiter_sound hd (s.unconsumed.drop s.scanFrom) s.scanFrom rfl
  have hnaive : Naive.takeDelimiter s.unconsumed delim maxFrame = _ :=
    takeDelimiter_of_sound hd hsound h
  have hcode := s.takeFrameDelimiter_eq hd maxFrame
  cases hsearch : searchDelimiter delim s.unconsumed.length (s.unconsumed.drop s.scanFrom)
      s.scanFrom with
  | crossing p =>
    rw [hsearch] at hcode hnaive
    refine .of_eq hcode ?_ hs
    rw [Naive.perform, hnaive]
    rfl
  | absent =>
    rw [hsearch] at hcode hnaive
    refine .of_eq hcode ?_ hs
    rw [Naive.perform, hnaive]
    rfl
  | found p =>
    rw [hsearch] at hcode hnaive hsound
    rw [afterSearch] at hcode
    rw [Search.outcome] at hnaive
    by_cases hlimit : p > frameLimit maxFrame
    · rw [if_pos hlimit] at hcode hnaive
      refine .of_eq hcode ?_ hs
      rw [Naive.perform, hnaive]
      rfl
    · rw [if_neg hlimit] at hcode hnaive
      refine .of_eq hcode ?_ (valid_maybeCompact ?_)
      · rw [Naive.perform, hnaive, unconsumed_maybeCompact]
        simp only [Naive.answer, unconsumed, List.drop_drop]
      · have hle := hsound.2.1.length_le
        have hlt := lt_length_of_prefix_drop hd hsound.2.1
        rw [List.length_drop, length_unconsumed] at hle
        rw [length_unconsumed] at hlt
        show s.consumed + (p + delim.length) ≤ s.buf.length
        omega

/-- Every operation that meets the condition agrees with the naive buffer. -/
theorem agrees_of_agreeable (hs : s.Valid) (h : s.Agreeable op) : s.Agrees op := by
  cases op with
  | append bytes =>
    refine .of_eq (r := .done) rfl ?_ (valid_append hs bytes)
    rw [unconsumed_append hs]
    rfl
  | takeFrameLengthPrefixed headerSize maxFrame => exact agrees_takeFrameLengthPrefixed hs h
  | takeFrameDelimiter delim maxFrame => exact agrees_takeFrameDelimiter hs h
  | compact =>
    refine .of_eq (r := .done) rfl ?_ (valid_compact hs)
    rw [unconsumed_compact]
    rfl
  | clear => exact .of_eq (r := .done) (t := s.clear) rfl rfl le_rfl

/-- A refused take keeps every unconsumed byte, whatever the condition says. -/
theorem unconsumed_of_refused (h : (s.perform op).1 = .refused) :
    (s.step op).unconsumed = s.unconsumed := by
  cases op with
  | append bytes => cases h
  | compact => cases h
  | clear => cases h
  | takeFrameLengthPrefixed headerSize maxFrame =>
    simp only [step, perform, takeFrameLengthPrefixed] at h ⊢
    split_ifs at h ⊢ <;> rfl
  | takeFrameDelimiter delim maxFrame =>
    by_cases hd : delim = []
    · subst hd
      rfl
    simp only [step, perform, s.takeFrameDelimiter_eq hd] at h ⊢
    cases hsearch : searchDelimiter delim s.unconsumed.length (s.unconsumed.drop s.scanFrom)
        s.scanFrom with
    | crossing p => rfl
    | absent => rfl
    | found p =>
      rw [hsearch] at h
      simp only [afterSearch] at h ⊢
      split_ifs at h ⊢
      · rfl

/-- Step by step agreement of a run from any state. -/
theorem run_agrees (hs : s.Valid) {ops : List Op} (h : Meets step Agreeable s ops) :
    s.replies ops = Naive.replies s.unconsumed ops ∧
      (run step s ops).unconsumed = run Naive.step s.unconsumed ops := by
  induction ops generalizing s with
  | nil => exact ⟨rfl, rfl⟩
  | cons op ops ih =>
    have hop := agrees_of_agreeable hs h.1
    obtain ⟨hreplies, hkept⟩ := ih hop.valid h.2
    rw [hop.kept] at hreplies hkept
    exact ⟨by rw [replies, Naive.replies, hop.reply, hreplies], hkept⟩

/-- In a run whose takes skip nothing and whose frame ends are 64-bit numbers, the buffer
answers every operation as the naive one does and holds the same unconsumed bytes, and a
take that is refused consumes nothing. -/
theorem replies_eq_naive (ops : List Op) (h : Meets step Agreeable {} ops) :
    ({} : RecvBuffer).replies ops = Naive.replies [] ops ∧
      (run step {} ops).unconsumed = run Naive.step [] ops ∧
      ∀ before op after, ops = before ++ op :: after →
        ((run step {} before).perform op).1 = .refused →
        ((run step {} before).step op).unconsumed = (run step {} before).unconsumed := by
  obtain ⟨hreplies, hkept⟩ := run_agrees (s := {}) (Nat.zero_le _) h
  refine ⟨hreplies, hkept, ?_⟩
  intro before op after _ hrefused
  exact unconsumed_of_refused hrefused

/-- Two delimiters and a length header in one run. -/
def mixedRun : List Op :=
  [.append [0x61, 0x62], .takeFrameDelimiter [0x0a] 0, .append [0x0a, 0x00, 0x01, 0x63],
    .takeFrameDelimiter [0x0a] 0, .takeFrameLengthPrefixed 2 0, .append [0x64, 0x3b],
    .takeFrameDelimiter [0x3b] 0, .compact]

theorem replies_mixedRun :
    Meets step Agreeable {} mixedRun ∧
      ({} : RecvBuffer).replies mixedRun =
        [.done, .refused, .done, .frame [0x61, 0x62], .frame [0x63], .done, .frame [0x64],
          .done] ∧
      ({} : RecvBuffer).replies mixedRun = Naive.replies [] mixedRun := by
  have hmeets : Meets step Agreeable {} mixedRun := by decide
  refine ⟨hmeets, by decide, ?_⟩
  exact (replies_eq_naive mixedRun hmeets).1

/-- Searching for `z` in `ab` lets the next search, for `b` in `abc`, start behind the `b`;
and an eight-byte length near 2^64 wraps, so the copy runs past the buffer. -/
theorem replies_ne_naive :
    ({} : RecvBuffer).replies
        [.append [0x61, 0x62], .takeFrameDelimiter [0x7a] 0, .append [0x63],
          .takeFrameDelimiter [0x62] 0] = [.done, .refused, .done, .refused] ∧
      Naive.replies []
        [.append [0x61, 0x62], .takeFrameDelimiter [0x7a] 0, .append [0x63],
          .takeFrameDelimiter [0x62] 0] = [.done, .refused, .done, .frame [0x61]] ∧
      ({} : RecvBuffer).replies
        [.append (List.replicate 8 0xff), .takeFrameLengthPrefixed 8 (2 ^ 64 - 1)] =
          [.done, .overrun] ∧
      Naive.replies []
        [.append (List.replicate 8 0xff), .takeFrameLengthPrefixed 8 (2 ^ 64 - 1)] =
          [.done, .refused] := by
  decide

/-! ### Takes for one delimiter -/

/-- What an unsuccessful search for `delim` may have left behind. -/
def Scanned (delim : Bytes) (s : RecvBuffer) : Prop :=
  Settled delim s.unconsumed s.delimScanPos

theorem Scanned.skipsNothing (h : s.Scanned delim) (maxFrame : Nat) :
    s.SkipsNothing delim maxFrame := by
  intro off hoff hocc
  exact absurd hocc (h off (lt_of_lt_of_le hoff s.scanFrom_le)).2.1

theorem scanned_maybeCompact (h : s.delimScanPos = 0) : s.maybeCompact.Scanned delim := by
  have hpos : s.maybeCompact.delimScanPos = 0 := by
    unfold maybeCompact compact
    split_ifs <;> exact h
  unfold Scanned
  rw [hpos]
  exact settled_zero _ _

theorem scanned_takeFrameDelimiter (h : s.Scanned delim) (maxFrame : Nat) :
    (s.takeFrameDelimiter delim maxFrame).2.Scanned delim := by
  by_cases hd : delim = []
  · subst hd
    exact h
  have hsound := searchDelimiter_sound hd (s.unconsumed.drop s.scanFrom) s.scanFrom rfl
  -- below the start of the search the old scan position speaks, above it the search
  have settle : ∀ n ≤ s.unconsumed.length,
      (∀ q, s.scanFrom ≤ q → q < n → Clash delim (s.unconsumed.drop q)) →
      Settled delim s.unconsumed n := by
    intro n hn hclash p hp
    by_cases hlow : p < s.scanFrom
    · exact h p (lt_of_lt_of_le hlow s.scanFrom_le)
    · exact ⟨lt_of_lt_of_le hp hn, hclash p (Nat.le_of_not_lt hlow) hp⟩
  rw [s.takeFrameDelimiter_eq hd]
  cases hsearch : searchDelimiter delim s.unconsumed.length (s.unconsumed.drop s.scanFrom)
      s.scanFrom with
  | crossing p =>
    rw [hsearch] at hsound
    exact settle p (Nat.le_of_lt hsound.2.1) hsound.2.2.2
  | absent =>
    rw [hsearch] at hsound
    have := settle _ le_rfl hsound
    rwa [length_unconsumed] at this
  | found p =>
    rw [afterSearch]
    split_ifs
    · exact h
    · exact scanned_maybeCompact rfl

/-- The scan position stays right as long as nothing else is searched for. -/
theorem scanned_step (hs : s.Valid) (h : s.Scanned delim)
    (hop : ∀ d maxFrame, op = .takeFrameDelimiter d maxFrame → d = delim) :
    (s.step op).Scanned delim := by
  cases op with
  | append bytes =>
    have hpos : (s.append bytes).delimScanPos = s.delimScanPos := by
      unfold append
      split_ifs <;> rfl
    show Settled delim (s.append bytes).unconsumed (s.append bytes).delimScanPos
    rw [unconsumed_append hs, hpos]
    exact Settled.append h bytes
  | takeFrameLengthPrefixed headerSize maxFrame =>
    simp only [step, perform, takeFrameLengthPrefixed]
    split_ifs
    · exact h
    all_goals first | exact settled_zero _ _ | exact scanned_maybeCompact rfl
  | takeFrameDelimiter d maxFrame =>
    obtain rfl := hop d maxFrame rfl
    exact scanned_takeFrameDelimiter h maxFrame
  | compact =>
    have hpos : s.compact.delimScanPos = s.delimScanPos := by
      unfold compact
      split_ifs <;> rfl
    show Settled delim s.compact.unconsumed s.compact.delimScanPos
    rw [unconsumed_compact, hpos]
    exact h
  | clear => exact settled_zero _ _

end RecvBuffer

end KimixNative.Codec
