import KimixNative.Soul.Kmb2

/-!
# What an accepted KMB2 pair gives

The parser checks every record once; `Accepted` says what it has checked. From it every
later access succeeds, and the messages read through the view are those of the tables the
pair spells out, except that a null history makes every text a null view.
-/

namespace KimixNative.Soul

theorem allRecords_eq_true {α : Type} {get : Nat → Option α} {ok : α → Prop} [DecidablePred ok]
    {n : Nat} :
    allRecords get ok n = true ↔ ∀ i < n, ∃ r, get i = some r ∧ ok r := by
  rw [allRecords, List.all_eq_true]
  refine ⟨fun h i hi => ?_, fun h i hi => ?_⟩
  · have := h i (List.mem_range.mpr hi)
    cases hget : get i with
    | none => simp [hget] at this
    | some r => exact ⟨r, rfl, by simpa [hget] using this⟩
  · obtain ⟨r, hr, hok⟩ := h i (List.mem_range.mp hi)
    simp [hr, hok]

namespace Kmb2View

/-- What the parser has checked. -/
structure Accepted (v : Kmb2View) : Prop where
  room : tableBytes v.msgCount v.partTotal v.callTotal ≤ v.struct.length
  parts : ∀ i < v.partTotal.toNat, ∃ r, v.part i = some r ∧ r.Ok v.historySize
  calls : ∀ i < v.callTotal.toNat, ∃ r, v.call i = some r ∧ r.Ok v.historySize
  messages : ∀ i < v.msgCount.toNat, ∃ r, v.message i = some r ∧ v.MessageOk r

end Kmb2View

theorem kmb2Parse_eq_some {struct : Bytes} {history : StringView} {v : Kmb2View} :
    kmb2Parse struct history = some v ↔
      kmb2IsPacked struct = true ∧ v = kmb2Header struct history ∧ v.Accepted := by
  have hsize : ∀ v : Kmb2View, tableBytes v.msgCount v.partTotal v.callTotal ≤ sizeMax := by
    intro v
    have h1 := v.msgCount.isLt
    have h2 := v.partTotal.isLt
    have h3 := v.callTotal.isLt
    simp only [tableBytes, kKmb2HeaderBytes, kKmb2MessageBytes, kKmb2PartBytes, kKmb2CallBytes,
      sizeMax]
    omega
  unfold kmb2Parse
  simp only [Bool.eq_false_iff, ne_eq, ite_not]
  constructor
  · intro h
    split_ifs at h with hpacked hroom hparts hcalls hmessages
    obtain rfl := Option.some.inj h
    refine ⟨hpacked, rfl, ?_, allRecords_eq_true.mp hparts, allRecords_eq_true.mp hcalls,
      allRecords_eq_true.mp hmessages⟩
    have hlen : (kmb2Header struct history).struct.length = struct.length := rfl
    omega
  · rintro ⟨hpacked, rfl, hv⟩
    have hroom : ¬ (tableBytes (kmb2Header struct history).msgCount
        (kmb2Header struct history).partTotal (kmb2Header struct history).callTotal > sizeMax ∨
        struct.length < tableBytes (kmb2Header struct history).msgCount
          (kmb2Header struct history).partTotal (kmb2Header struct history).callTotal) := by
      have h1 := hsize (kmb2Header struct history)
      have h2 : _ ≤ struct.length := hv.room
      omega
    rw [if_pos hpacked, if_neg hroom, if_pos (allRecords_eq_true.mpr hv.parts),
      if_pos (allRecords_eq_true.mpr hv.calls), if_pos (allRecords_eq_true.mpr hv.messages)]

variable {text : Bytes} {r : MessageRecord}

namespace Kmb2View

/-- The tables the pair spells out. -/
def tables (v : Kmb2View) : Tables where
  arena := v.history.getD []
  parts := partCodec.readAll v.partTable v.partTotal.toNat
  calls := callCodec.readAll v.callTable v.callTotal.toNat

theorem part_eq (v : Kmb2View) (i : Nat) : v.part i = v.tables.parts[i]? := by
  unfold part tables
  split_ifs with h
  · rw [List.getElem?_eq_none]
    rw [FixedCodec.length_readAll]
    exact h
  · rw [FixedCodec.getElem?_readAll _ _ (Nat.lt_of_not_le h)]

theorem call_eq (v : Kmb2View) (i : Nat) : v.call i = v.tables.calls[i]? := by
  unfold call tables
  split_ifs with h
  · rw [List.getElem?_eq_none]
    rw [FixedCodec.length_readAll]
    exact h
  · rw [FixedCodec.getElem?_readAll _ _ (Nat.lt_of_not_le h)]

/-- The message an accepted pair has at an index. -/
def denote (v : Kmb2View) (i : Nat) : Option Message := (v.message i).bind v.tables.readMessage

/-- The messages of an accepted pair. -/
def messages (v : Kmb2View) : Option (List Message) := readRange v.denote 0 v.msgCount.toNat

section Reading

variable {v : Kmb2View} {h : Bytes}

theorem span_of_readSpan (hv : v.history = some h) {start stop : BitVec 32}
    (hr : v.tables.readSpan start stop = some text) : v.span start stop = some text := by
  unfold Tables.readSpan at hr
  split_ifs at hr with hok
  have hnonneg : ¬ (start.toInt < 0 ∨ stop.toInt < start.toInt) := by
    have h1 := hok.1
    have h2 := hok.2.1
    omega
  rw [span, if_neg hnonneg, hv, Option.map_some, ← hr, tables, hv]
  rfl

variable {i : Nat}

theorem partView_of_readPart (hv : v.history = some h) {p : Part}
    (hr : v.tables.readPart i = some p) : v.partView i = some ⟨p.kind, some p.text⟩ := by
  obtain ⟨r, hget, hr⟩ := Option.bind_eq_some_iff.mp hr
  obtain ⟨text, htext, rfl⟩ := Option.map_eq_some_iff.mp hr
  rw [partView, part_eq, hget, Option.map_some, span_of_readSpan hv htext]

theorem callView_of_readCall (hv : v.history = some h) {c : Call}
    (hr : v.tables.readCall i = some c) :
    v.callView i = some ⟨some c.id, some c.name, c.arguments⟩ := by
  obtain ⟨r, hget, hr⟩ := Option.bind_eq_some_iff.mp hr
  obtain ⟨id, hid, hr⟩ := Option.bind_eq_some_iff.mp hr
  obtain ⟨name, hname, hr⟩ := Option.bind_eq_some_iff.mp hr
  obtain ⟨args, hargs, rfl⟩ := Option.map_eq_some_iff.mp hr
  have hspan : (if 0 ≤ r.argsS.toInt then v.span r.argsS r.argsE else none) = args := by
    unfold Tables.readOptional at hargs
    split_ifs at hargs ⊢
    · obtain ⟨text, htext, rfl⟩ := Option.map_eq_some_iff.mp hargs
      exact span_of_readSpan hv htext
    · exact Option.some.inj hargs
  rw [callView, call_eq, hget, Option.map_some, span_of_readSpan hv hid, span_of_readSpan hv hname,
    hspan]

end Reading

end Kmb2View

namespace Kmb2View

variable {v : Kmb2View}

/-- The presence of a tool-call id, by flag and by sign. -/
theorem MessageOk.hasToolCallId_iff (h : v.MessageOk r) :
    hasToolCallId r = true ↔ 0 ≤ r.tcidStart.toInt := by
  constructor
  · intro hflag
    exact (h.2.2.1 hflag).1
  · intro hnonneg
    by_contra hflag
    rw [(h.2.2.2 (by simpa using hflag)).1] at hnonneg
    exact absurd hnonneg (by decide)

variable {m : Message}

theorem messageView_of_denote {h : Bytes} (hv : v.history = some h) (ha : v.Accepted)
    (hm : v.denote i = some m) : v.messageView i = some m.view := by
  obtain ⟨r, hr, hm⟩ := Option.bind_eq_some_iff.mp hm
  have hlt : i < v.msgCount.toNat := by
    by_contra hge
    rw [message, if_pos (Nat.le_of_not_lt hge)] at hr
    cases hr
  obtain ⟨r', hr', hok⟩ := ha.messages i hlt
  obtain rfl : r = r' := Option.some.inj (hr.symm.trans hr')
  obtain ⟨parts, hparts, hm⟩ := Option.bind_eq_some_iff.mp hm
  obtain ⟨calls, hcalls, hm⟩ := Option.bind_eq_some_iff.mp hm
  obtain ⟨tcid, htcid, rfl⟩ := Option.map_eq_some_iff.mp hm
  have hspan : (if hasToolCallId r then v.span r.tcidStart r.tcidEnd else none) = tcid := by
    unfold Tables.readOptional at htcid
    by_cases hflag : hasToolCallId r = true
    · rw [if_pos (hok.hasToolCallId_iff.mp hflag)] at htcid
      obtain ⟨text, htext, rfl⟩ := Option.map_eq_some_iff.mp htcid
      rw [if_pos hflag, span_of_readSpan hv htext]
    · rw [if_neg fun hnonneg => hflag (hok.hasToolCallId_iff.mpr hnonneg)] at htcid
      rw [if_neg hflag, Option.some.inj htcid]
  rw [messageView, hr, Option.bind_some,
    readRange_map (f := fun p => ⟨p.kind, some p.text⟩)
      (fun j p hp => partView_of_readPart hv hp) hparts, Option.bind_some,
    readRange_map (f := fun c => ⟨some c.id, some c.name, c.arguments⟩)
      (fun j c hc => callView_of_readCall hv hc) hcalls, Option.map_some, hspan]
  rfl

/-- Through a view whose history is not null the messages of the pair are read. -/
theorem messageViews_eq {h : Bytes} (hv : v.history = some h) (ha : v.Accepted)
    {ms : List Message} (hms : v.messages = some ms) :
    v.messageViews = some (ms.map Message.view) :=
  readRange_map (fun _ _ hm => messageView_of_denote hv ha hm) hms

/-! ### A null history -/

section Null

variable (hv : v.history = none)

include hv

/-- Every text of a null history is empty, and its view is null. -/
theorem span_null {start stop : BitVec 32} (hr : v.tables.readSpan start stop = some text) :
    v.span start stop = none ∧ text = [] := by
  constructor
  · rw [span, hv]
    split <;> rfl
  · unfold Tables.readSpan at hr
    split_ifs at hr
    obtain rfl := Option.some.inj hr
    simp [slice, tables, hv]

theorem partView_null {p : Part} (hr : v.tables.readPart i = some p) :
    v.partView i = some ⟨p.kind, none⟩ ∧ p.text = [] := by
  obtain ⟨r, hget, hr⟩ := Option.bind_eq_some_iff.mp hr
  obtain ⟨text, htext, rfl⟩ := Option.map_eq_some_iff.mp hr
  obtain ⟨hspan, hnil⟩ := span_null hv htext
  exact ⟨by rw [partView, part_eq, hget, Option.map_some, hspan], hnil⟩

theorem callView_null {c : Call} (hr : v.tables.readCall i = some c) :
    v.callView i = some ⟨none, none, none⟩ ∧ c.id = [] ∧ c.name = [] := by
  obtain ⟨r, hget, hr⟩ := Option.bind_eq_some_iff.mp hr
  obtain ⟨id, hid, hr⟩ := Option.bind_eq_some_iff.mp hr
  obtain ⟨name, hname, hr⟩ := Option.bind_eq_some_iff.mp hr
  obtain ⟨args, -, rfl⟩ := Option.map_eq_some_iff.mp hr
  have hargs : v.span r.argsS r.argsE = none := by
    rw [span, hv]
    split <;> rfl
  refine ⟨?_, (span_null hv hid).2, (span_null hv hname).2⟩
  rw [callView, call_eq, hget, Option.map_some, (span_null hv hid).1, (span_null hv hname).1, hargs,
    ite_self]

/-- Through a null history only messages without optional texts are read as they are. -/
theorem messageView_null (hm : v.denote i = some m) (hplain : m.Plain) :
    ∃ mv, v.messageView i = some mv ∧ mv.message = m := by
  obtain ⟨r, hr, hm⟩ := Option.bind_eq_some_iff.mp hm
  obtain ⟨parts, hparts, hm⟩ := Option.bind_eq_some_iff.mp hm
  obtain ⟨calls, hcalls, hm⟩ := Option.bind_eq_some_iff.mp hm
  obtain ⟨tcid, -, rfl⟩ := Option.map_eq_some_iff.mp hm
  obtain ⟨rfl, hargs⟩ := hplain
  have hspan : v.span r.tcidStart r.tcidEnd = none := by
    rw [span, hv]
    split <;> rfl
  refine ⟨⟨r.role, none, parts.map fun p => ⟨p.kind, none⟩,
    calls.map fun _ => ⟨none, none, none⟩⟩, ?_, ?_⟩
  · rw [messageView, hr, Option.bind_some,
      readRange_map (fun j p hp => (partView_null hv hp).1) hparts, Option.bind_some,
      readRange_map (fun j c hc => (callView_null hv hc).1) hcalls, Option.map_some, hspan, ite_self]
  · have hpartEq : ∀ p ∈ parts, PartView.part ⟨p.kind, none⟩ = p := by
      intro p hp
      obtain ⟨j, hj⟩ := mem_readRange hparts hp
      rw [PartView.part, Option.getD_none, ← (partView_null hv hj).2]
    have hcallEq : ∀ c ∈ calls, ToolCallView.call ⟨none, none, none⟩ = c := by
      intro c hc
      obtain ⟨j, hj⟩ := mem_readRange hcalls hc
      obtain ⟨-, hid, hname⟩ := callView_null hv hj
      obtain ⟨id, name, args⟩ := c
      obtain rfl : id = [] := hid
      obtain rfl : name = [] := hname
      obtain rfl : args = none := hargs _ hc
      rfl
    simp only [MessageView.message, List.map_map, Message.mk.injEq, true_and, and_true]
    exact ⟨(List.map_congr_left hpartEq).trans (List.map_id' _),
      (List.map_congr_left hcallEq).trans (List.map_id' _)⟩

end Null

/-- What is read through the view of an accepted pair stands for the message the pair spells
out, unless a null history hides an optional text. -/
theorem messageView_message (ha : v.Accepted) (hm : v.denote i = some m)
    (hnull : v.history = none → m.Plain) : ∃ mv, v.messageView i = some mv ∧ mv.message = m := by
  cases hv : v.history with
  | none => exact messageView_null hv hm (hnull hv)
  | some h => exact ⟨m.view, messageView_of_denote hv ha hm, m.message_view⟩

/-! ### Every access succeeds -/

theorem Accepted.valid (ha : v.Accepted) : v.tables.Valid := by
  constructor
  · intro r hr
    obtain ⟨i, hi, hget⟩ := List.getElem_of_mem hr
    have hi' : i < v.partTotal.toNat := by simpa [tables] using hi
    obtain ⟨r', hr', hok⟩ := ha.parts i hi'
    rw [part_eq, List.getElem?_eq_getElem hi, Option.some.injEq, hget] at hr'
    exact hr' ▸ hok
  · intro r hr
    obtain ⟨i, hi, hget⟩ := List.getElem_of_mem hr
    have hi' : i < v.callTotal.toNat := by simpa [tables] using hi
    obtain ⟨r', hr', hok⟩ := ha.calls i hi'
    rw [call_eq, List.getElem?_eq_getElem hi, Option.some.injEq, hget] at hr'
    exact hr' ▸ hok

end Kmb2View

namespace Tables

variable {t : Tables}

/-- In valid tables every record in range can be read. -/
theorem Valid.readPart (h : t.Valid) (hi : i < t.parts.length) : ∃ p, t.readPart i = some p := by
  have hok := h.parts _ (List.getElem_mem hi)
  rw [Tables.readPart, List.getElem?_eq_getElem hi, Option.bind_some, readSpan, if_pos hok.1]
  exact ⟨_, rfl⟩

theorem Valid.readCall (h : t.Valid) (hi : i < t.calls.length) : ∃ c, t.readCall i = some c := by
  obtain ⟨hid, hname, hargs⟩ := h.calls _ (List.getElem_mem hi)
  rw [Tables.readCall, List.getElem?_eq_getElem hi, Option.bind_some, readSpan, if_pos hid,
    Option.bind_some, readSpan, if_pos hname, Option.bind_some, readOptional]
  split_ifs with hnonneg
  · rw [readSpan, if_pos (hargs hnonneg)]
    exact ⟨_, rfl⟩
  · exact ⟨_, rfl⟩

/-- A message record whose ranges and tool-call id are in order. -/
structure Readable (t : Tables) (r : MessageRecord) : Prop where
  ranges : r.InTables t.parts.length t.calls.length
  tcid : 0 ≤ r.tcidStart.toInt → SpanOk r.tcidStart r.tcidEnd t.arena.length

theorem Valid.readMessage (h : t.Valid) (hr : t.Readable r) (hparts : t.parts.length ≤ 2 ^ 32)
    (hcalls : t.calls.length ≤ 2 ^ 32) : ∃ m, t.readMessage r = some m := by
  obtain ⟨hp, hc⟩ := hr.ranges
  obtain ⟨parts, hparts⟩ : ∃ parts, readRange (fun i => t.readPart (i % 2 ^ 32))
      r.partFirst.toNat r.partCount.toNat = some parts := by
    refine readRange_isSome fun i hi => ?_
    rw [Nat.mod_eq_of_lt (by omega)]
    exact h.readPart (by omega)
  obtain ⟨calls, hcalls⟩ : ∃ calls, readRange (fun i => t.readCall (i % 2 ^ 32))
      r.callFirst.toNat r.callCount.toNat = some calls := by
    refine readRange_isSome fun i hi => ?_
    rw [Nat.mod_eq_of_lt (by omega)]
    exact h.readCall (by omega)
  obtain ⟨tcid, htcid⟩ : ∃ tcid, t.readOptional r.tcidStart r.tcidEnd = some tcid := by
    unfold readOptional
    split_ifs with hnonneg
    · rw [readSpan, if_pos (hr.tcid hnonneg)]
      exact ⟨_, rfl⟩
    · exact ⟨_, rfl⟩
  exact ⟨⟨r.role, parts, calls, tcid⟩, by
    rw [Tables.readMessage, hparts, Option.bind_some, hcalls, Option.bind_some, htcid,
      Option.map_some]⟩

end Tables

namespace Kmb2View

variable {v : Kmb2View}

/-- Every message of an accepted pair can be read. -/
theorem Accepted.denote (ha : v.Accepted) (hi : i < v.msgCount.toNat) :
    ∃ m, v.denote i = some m := by
  obtain ⟨r, hr, -, ⟨hp, hc⟩, hid⟩ := ha.messages i hi
  have hparts : v.tables.parts.length = v.partTotal.toNat := FixedCodec.length_readAll _ _ _
  have hcalls : v.tables.calls.length = v.callTotal.toNat := FixedCodec.length_readAll _ _ _
  have hread : v.tables.Readable r := by
    refine ⟨⟨hparts ▸ hp, hcalls ▸ hc⟩, fun hnonneg => ?_⟩
    by_contra hbad
    have hflag : hasToolCallId r = false := by
      rw [← Bool.not_eq_true]
      exact fun hflag => hbad (hid.1 hflag)
    rw [(hid.2 hflag).1] at hnonneg
    exact absurd hnonneg (by decide)
  obtain ⟨m, hm⟩ := ha.valid.readMessage hread (hparts ▸ Nat.le_of_lt v.partTotal.isLt)
    (hcalls ▸ Nat.le_of_lt v.callTotal.isLt)
  exact ⟨m, by rw [Kmb2View.denote, hr, Option.bind_some, hm]⟩

theorem Accepted.messages_eq (ha : v.Accepted) : ∃ ms, v.messages = some ms :=
  readRange_isSome fun i hi => by
    rw [Nat.zero_add]
    exact ha.denote hi

end Kmb2View

end KimixNative.Soul
