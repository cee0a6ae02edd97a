import KimixNative.Soul.Kmb2Parse

/-!
# The KMB2 round trip

As long as the texts stay within `INT32_MAX` bytes the writer emits every message into its
tables. With fewer than 2^32 messages, parts and calls the structure it writes is accepted
and reads back as the messages. With more, the counts in the header are truncated and
`finish` writes its records past the structure it has allocated.
-/

namespace KimixNative.Soul

namespace Kmb2Writer

/-- The tables a writer has filled. -/
def tables (w : Kmb2Writer) : Tables := ⟨w.history, w.parts, w.calls⟩

/-- Nothing has been refused, and the counters count. -/
structure Counting (w : Kmb2Writer) : Prop where
  overflow : w.overflow = false
  partTotal : w.partTotal = BitVec.ofNat 32 w.parts.length
  callTotal : w.callTotal = BitVec.ofNat 32 w.calls.length

theorem counting_empty : Counting {} := ⟨rfl, rfl, rfl⟩

variable {w : Kmb2Writer}

theorem put_eq (ho : w.overflow = false) {v : StringView}
    (hfit : w.history.length + (v.getD []).length ≤ int32Max) :
    w.put v = (BitVec.ofNat 32 w.history.length, { w with history := w.history ++ v.getD [] }) := by
  unfold put
  by_cases hempty : v.getD [] = []
  · rw [if_pos hempty, hempty, List.append_nil, if_neg (by rw [ho]; decide)]
  · rw [if_neg hempty, if_neg (by omega)]

/-- The end of a span that has been put. -/
theorem spanEnd_ofNat {n : Nat} {v : StringView} (hfit : n + (v.getD []).length ≤ int32Max) :
    spanEnd (BitVec.ofNat 32 n) v = BitVec.ofNat 32 (n + (v.getD []).length) := by
  have hnonneg : 0 ≤ (BitVec.ofNat 32 n).toInt := by
    rw [toInt_ofNat (by omega)]
    omega
  rw [spanEnd, if_pos hnonneg, viewLength, BitVec.ofNat_add]

theorem addPart_eq (ho : w.overflow = false) {p : PartView}
    (hfit : w.history.length + (p.text.getD []).length ≤ int32Max) :
    w.addPart p = { w with history := w.history ++ p.part.text,
                           parts := w.parts ++ [Tables.partRecord w.history p.part],
                           partTotal := w.partTotal + 1 } := by
  simp only [addPart, put_eq ho hfit, spanEnd_ofNat hfit]
  rfl

theorem addCall_eq (ho : w.overflow = false) {c : ToolCallView}
    (hfit : w.history.length + c.call.size ≤ int32Max) :
    w.addCall c =
      { w with history := w.history ++ c.call.id ++ c.call.name ++ c.call.arguments.getD [],
               calls := w.calls ++ [Tables.callRecord w.history c.call],
               callTotal := w.callTotal + 1 } := by
  have hsize : c.call.size =
      (c.id.getD []).length + (c.name.getD []).length + (c.arguments.getD []).length := rfl
  have hid := put_eq ho (v := c.id) (by omega)
  have hname := put_eq (w := { w with history := w.history ++ c.id.getD [] }) ho (v := c.name)
    (by simp only [List.length_append]; omega)
  have hidEnd := spanEnd_ofNat (n := w.history.length) (v := c.id) (by omega)
  have hnameEnd := spanEnd_ofNat (n := (w.history ++ c.id.getD []).length) (v := c.name)
    (by simp only [List.length_append]; omega)
  cases hargs : c.arguments with
  | none =>
    simp only [addCall, hid, hname, hidEnd, hnameEnd, hargs]
    simp only [Tables.callRecord, ToolCallView.call, hargs, Tables.optionalSpan,
      List.length_append, Option.getD_none, List.append_nil]
  | some args =>
    have hput := put_eq (w := { w with history := w.history ++ c.id.getD [] ++ c.name.getD [] })
      ho (v := some args) (by rw [hargs] at hsize; simp only [List.length_append]; omega)
    have hargsEnd := spanEnd_ofNat
      (n := (w.history ++ c.id.getD [] ++ c.name.getD []).length) (v := some args)
      (by rw [hargs] at hsize; simp only [List.length_append]; omega)
    simp only [addCall, hid, hname, hidEnd, hnameEnd, hargs, hput, hargsEnd]
    simp only [Tables.callRecord, ToolCallView.call, hargs, Tables.optionalSpan,
      List.length_append, Option.getD_some]

theorem foldl_addPart (h : Counting w) (parts : List PartView)
    (hfit : w.history.length + (parts.map fun p => p.part.text.length).sum ≤ int32Max) :
    (parts.foldl addPart w).tables = (parts.map PartView.part).foldl Tables.emitPart w.tables ∧
      (parts.foldl addPart w).msgs = w.msgs ∧ Counting (parts.foldl addPart w) := by
  induction parts generalizing w with
  | nil => exact ⟨rfl, rfl, h⟩
  | cons p parts ih =>
    rw [List.map_cons, List.sum_cons] at hfit
    have heq := addPart_eq h.overflow (p := p) (show _ + p.part.text.length ≤ _ by omega)
    have hnext : Counting (w.addPart p) := by
      rw [heq]
      refine ⟨h.overflow, ?_, h.callTotal⟩
      simp only [h.partTotal, List.length_append, List.length_singleton, BitVec.ofNat_add]
      rfl
    have hfit' : (w.addPart p).history.length +
        (parts.map fun p => p.part.text.length).sum ≤ int32Max := by
      rw [heq]
      simp only [List.length_append]
      omega
    obtain ⟨htables, hmsgs, hcount⟩ := ih hnext hfit'
    refine ⟨?_, ?_, hcount⟩
    · rw [List.foldl_cons, htables, heq]
      rfl
    · rw [List.foldl_cons, hmsgs, heq]

theorem foldl_addCall (h : Counting w) (calls : List ToolCallView)
    (hfit : w.history.length + (calls.map fun c => c.call.size).sum ≤ int32Max) :
    (calls.foldl addCall w).tables = (calls.map ToolCallView.call).foldl Tables.emitCall w.tables ∧
      (calls.foldl addCall w).msgs = w.msgs ∧ Counting (calls.foldl addCall w) := by
  induction calls generalizing w with
  | nil => exact ⟨rfl, rfl, h⟩
  | cons c calls ih =>
    rw [List.map_cons, List.sum_cons] at hfit
    have heq := addCall_eq h.overflow (c := c) (by omega)
    have hnext : Counting (w.addCall c) := by
      rw [heq]
      refine ⟨h.overflow, h.partTotal, ?_⟩
      simp only [h.callTotal, List.length_append, List.length_singleton, BitVec.ofNat_add]
      rfl
    have hfit' : (w.addCall c).history.length +
        (calls.map fun c => c.call.size).sum ≤ int32Max := by
      rw [heq]
      simp only [List.length_append]
      have : c.call.size = c.call.id.length + c.call.name.length +
        (c.call.arguments.getD []).length := rfl
      omega
    obtain ⟨htables, hmsgs, hcount⟩ := ih hnext hfit'
    refine ⟨?_, ?_, hcount⟩
    · rw [List.foldl_cons, htables, heq]
      rfl
    · rw [List.foldl_cons, hmsgs, heq]

/-- Adding a message emits it. -/
theorem add_spec (h : Counting w) {m : MessageView}
    (hfit : w.history.length + m.message.size ≤ int32Max) :
    (w.add m).tables = w.tables.emit m.message ∧
      (w.add m).msgs = w.msgs ++ [w.tables.messageRecord m.message] ∧ Counting (w.add m) := by
  have hsize : m.message.size = (m.toolCallId.getD []).length +
      (m.parts.map fun p => p.part.text.length).sum +
      (m.toolCalls.map fun c => c.call.size).sum := by
    simp only [Message.size, MessageView.message, List.map_map]
    rfl
  let w₁ : Kmb2Writer := { w with history := w.history ++ m.toolCallId.getD [] }
  have hw₁ : w₁.history.length = w.history.length + (m.toolCallId.getD []).length :=
    List.length_append
  obtain ⟨htables₂, hmsgs₂, hcount₂⟩ := foldl_addPart (w := w₁)
    ⟨h.overflow, h.partTotal, h.callTotal⟩ m.parts (by omega)
  have hlen₂ : (m.parts.foldl addPart w₁).history.length = w₁.history.length +
      (m.parts.map fun p => p.part.text.length).sum := by
    have := Tables.length_arena_foldl_emitPart w₁.tables (m.parts.map PartView.part)
    rw [← htables₂, List.map_map] at this
    exact this
  obtain ⟨htables₃, hmsgs₃, hcount₃⟩ := foldl_addCall hcount₂ m.toolCalls (by omega)
  -- the span and the flag of the tool-call id
  have htcid : w.add m =
      { m.toolCalls.foldl addCall (m.parts.foldl addPart w₁) with
        msgs := w.msgs ++ [w.tables.messageRecord m.message] } := by
    have hmsgs : (m.toolCalls.foldl addCall (m.parts.foldl addPart w₁)).msgs = w.msgs :=
      hmsgs₃.trans hmsgs₂
    have hpartTotal : w.partTotal = BitVec.ofNat 32 w.tables.parts.length := h.partTotal
    have hcallTotal : w.callTotal = BitVec.ofNat 32 w.tables.calls.length := h.callTotal
    have hthink : (m.parts.map PartView.part).any (·.kind = .think) =
        m.parts.any (·.kind = .think) := by
      rw [List.any_map]
      rfl
    cases hid : m.toolCallId with
    | none =>
      have hw : w₁ = w := by
        show { w with history := w.history ++ m.toolCallId.getD [] } = w
        rw [hid, Option.getD_none, List.append_nil]
      rw [hw] at hmsgs ⊢
      simp only [add, hid, hmsgs, Tables.messageRecord, MessageView.message,
        Tables.optionalSpan, Tables.messageFlags, hthink, hpartTotal, hcallTotal,
        List.length_map, List.isEmpty_map, Option.isSome_none, Bool.false_eq_true, if_false]
    | some text =>
      have hput : w.put (some text) = (BitVec.ofNat 32 w.history.length, w₁) := by
        rw [put_eq h.overflow (by rw [hid] at hsize; omega)]
        simp only [w₁, hid]
      have hnonneg : 0 ≤ (BitVec.ofNat 32 w.history.length).toInt := by
        rw [toInt_ofNat (by omega)]
        omega
      simp only [add, hid, hput, if_pos hnonneg, hmsgs, Tables.messageRecord,
        MessageView.message, Tables.optionalSpan, Tables.messageFlags, hthink, hpartTotal,
        hcallTotal, List.length_map, List.isEmpty_map, Option.isSome_some, if_true, viewLength,
        Option.getD_some, BitVec.ofNat_add]
      rfl
  refine ⟨?_, by rw [htcid], ?_⟩
  · have : (w.add m).tables = (m.toolCalls.foldl addCall (m.parts.foldl addPart w₁)).tables := by
      rw [htcid]
      rfl
    rw [this, htables₃, htables₂]
    rfl
  · rw [htcid]
    exact ⟨hcount₃.overflow, hcount₃.partTotal, hcount₃.callTotal⟩

/-- Adding a list of messages. -/
theorem foldl_add (h : Counting w) (msgs : List MessageView)
    (hfit : w.history.length + (msgs.map fun m => m.message.size).sum ≤ int32Max) :
    (msgs.foldl add w).tables = w.tables.emitAll (msgs.map MessageView.message) ∧
      (msgs.foldl add w).msgs =
        w.msgs ++ Tables.records w.tables (msgs.map MessageView.message) := by
  induction msgs generalizing w with
  | nil => exact ⟨rfl, (List.append_nil _).symm⟩
  | cons m msgs ih =>
    rw [List.map_cons, List.sum_cons] at hfit
    obtain ⟨htables, hmsgs, hcount⟩ := add_spec h (m := m) (by omega)
    have hlen : (w.add m).history.length = w.history.length + m.message.size := by
      have := Tables.length_arena_emit w.tables m.message
      rwa [← htables] at this
    obtain ⟨htables', hmsgs'⟩ := ih hcount (by omega)
    refine ⟨?_, ?_⟩
    · rw [List.foldl_cons, htables', htables]
      rfl
    · rw [List.foldl_cons, hmsgs', hmsgs, htables, List.append_assoc]
      rfl

/-! ### The structure -/

theorem length_written (w : Kmb2Writer) :
    w.written.length = kKmb2HeaderBytes + w.msgs.length * kKmb2MessageBytes +
      w.parts.length * kKmb2PartBytes + w.calls.length * kKmb2CallBytes := by
  simp only [written, List.length_append, FixedCodec.length_encodeAll, width_messageCodec,
    width_partCodec, width_callCodec]
  rfl

/-- `finish` stays inside the structure exactly when no count is truncated. -/
theorem finish_eq (w : Kmb2Writer) :
    (w.msgs.length < 2 ^ 32 ∧ w.parts.length < 2 ^ 32 ∧ w.calls.length < 2 ^ 32 →
        w.finish = some w.written) ∧
      (¬ (w.msgs.length < 2 ^ 32 ∧ w.parts.length < 2 ^ 32 ∧ w.calls.length < 2 ^ 32) →
        w.finish = none) := by
  have hlen := w.length_written
  have hmod : ∀ n : Nat, (BitVec.ofNat 32 n).toNat = n % 2 ^ 32 := fun n => BitVec.toNat_ofNat ..
  have h1 := Nat.mod_le w.msgs.length (2 ^ 32)
  have h2 := Nat.mod_le w.parts.length (2 ^ 32)
  have h3 := Nat.mod_le w.calls.length (2 ^ 32)
  have hl1 := Nat.mod_lt w.msgs.length (show 2 ^ 32 > 0 by decide)
  have hl2 := Nat.mod_lt w.parts.length (show 2 ^ 32 > 0 by decide)
  have hl3 := Nat.mod_lt w.calls.length (show 2 ^ 32 > 0 by decide)
  unfold kKmb2HeaderBytes kKmb2MessageBytes kKmb2PartBytes kKmb2CallBytes at hlen
  have htotal : ∀ a b c : BitVec 32, tableBytes a b c =
      32 + a.toNat * 32 + b.toNat * 12 + c.toNat * 24 := fun _ _ _ => rfl
  unfold finish
  simp only [htotal, hmod]
  rw [if_neg (by unfold sizeMax; omega)]
  constructor
  · rintro ⟨hm, hp, hc⟩
    rw [Nat.mod_eq_of_lt hm, Nat.mod_eq_of_lt hp, Nat.mod_eq_of_lt hc, if_neg (by omega), hlen]
    simp
  · intro hmany
    rw [if_pos]
    omega

/-- The header as a table of fields. -/
theorem headerBytes_eq (w : Kmb2Writer) :
    w.headerBytes = u32.encodeAll [kKmb2Magic, kKmb2Version, BitVec.ofNat 32 w.msgs.length,
      BitVec.ofNat 32 w.parts.length, BitVec.ofNat 32 w.calls.length, kKmb2FlagUtf8, 0, 0] := by
  simp only [headerBytes, FixedCodec.encodeAll, List.flatMap_cons, List.flatMap_nil,
    List.append_nil, List.append_assoc]

/-- The view of the structure that `finish` writes. -/
def view (w : Kmb2Writer) : Kmb2View := kmb2Header w.written (some w.history)

section View

variable (hm : w.msgs.length < 2 ^ 32) (hp : w.parts.length < 2 ^ 32)
variable (hc : w.calls.length < 2 ^ 32)

/-- A field of the header. -/
theorem header_field (w : Kmb2Writer) {i : Nat} {a : BitVec 32}
    (h : [kKmb2Magic, kKmb2Version, BitVec.ofNat 32 w.msgs.length,
      BitVec.ofNat 32 w.parts.length, BitVec.ofNat 32 w.calls.length, kKmb2FlagUtf8, 0, 0][i]? =
        some a) : u32.read w.written i = a := by
  rw [written, headerBytes_eq, List.append_assoc, List.append_assoc]
  exact u32.read_encodeAll _ h

theorem isPacked_written (w : Kmb2Writer) : kmb2IsPacked w.written = true := by
  have hlen : ¬ w.written.length < kKmb2HeaderBytes := by
    rw [length_written]
    omega
  have hmagic : u32.decode w.written = kKmb2Magic := w.header_field (i := 0) rfl
  have hversion : u32.decode (w.written.drop 4) = kKmb2Version := w.header_field (i := 1) rfl
  simp [kmb2IsPacked, hlen, hmagic, hversion]

include hm in
theorem msgCount_view : w.view.msgCount.toNat = w.msgs.length := by
  have : w.view.msgCount = BitVec.ofNat 32 w.msgs.length := w.header_field (i := 2) rfl
  rw [this, toNat_ofNat hm]

include hp in
theorem partTotal_view : w.view.partTotal.toNat = w.parts.length := by
  have : w.view.partTotal = BitVec.ofNat 32 w.parts.length := w.header_field (i := 3) rfl
  rw [this, toNat_ofNat hp]

include hc in
theorem callTotal_view : w.view.callTotal.toNat = w.calls.length := by
  have : w.view.callTotal = BitVec.ofNat 32 w.calls.length := w.header_field (i := 4) rfl
  rw [this, toNat_ofNat hc]

theorem messageTable_view (w : Kmb2Writer) : w.view.messageTable =
    messageCodec.encodeAll w.msgs ++ (partCodec.encodeAll w.parts ++
      callCodec.encodeAll w.calls) := by
  show w.written.drop kKmb2HeaderBytes = _
  rw [written, List.append_assoc, List.append_assoc]
  refine List.drop_left' ?_
  rw [headerBytes_eq, FixedCodec.length_encodeAll]
  rfl

include hm in
theorem partTable_view : w.view.partTable =
    partCodec.encodeAll w.parts ++ callCodec.encodeAll w.calls := by
  rw [Kmb2View.partTable, messageTable_view, msgCount_view hm]
  exact List.drop_left' (FixedCodec.length_encodeAll _ _)

include hm hp in
theorem callTable_view : w.view.callTable = callCodec.encodeAll w.calls := by
  rw [Kmb2View.callTable, partTable_view hm, partTotal_view hp]
  exact List.drop_left' (FixedCodec.length_encodeAll _ _)

include hm hp hc in
/-- The tables of the view are the tables of the writer. -/
theorem tables_view : w.view.tables = w.tables := by
  have hparts : partCodec.readAll w.view.partTable w.view.partTotal.toNat = w.parts := by
    rw [partTable_view hm, partTotal_view hp, FixedCodec.readAll_encodeAll]
  have hcalls : callCodec.readAll w.view.callTable w.view.callTotal.toNat = w.calls := by
    rw [callTable_view hm hp, callTotal_view hc]
    have := callCodec.readAll_encodeAll w.calls []
    rwa [List.append_nil] at this
  rw [Kmb2View.tables, hparts, hcalls]
  rfl

include hm in
theorem message_view {i : Nat} {r : MessageRecord} (h : w.msgs[i]? = some r) :
    w.view.message i = some r := by
  have hlt := (List.getElem?_eq_some_iff.mp h).1
  rw [Kmb2View.message, msgCount_view hm, if_neg (Nat.not_le_of_lt hlt), messageTable_view,
    messageCodec.read_encodeAll _ h]

end View

end Kmb2Writer

/-- The flag of an emitted record. -/
theorem hasToolCallId_messageRecord (t : Tables) (m : Message) :
    Kmb2View.hasToolCallId (t.messageRecord m) = m.toolCallId.isSome := by
  have hflags : ∀ a b c : Bool,
      decide (((if a then kKmb2MsgHasToolCallId else 0) ||| (if b then kKmb2MsgHasThink else 0) |||
        (if c then 0 else kKmb2MsgHasToolCalls)) &&& kKmb2MsgHasToolCallId ≠ 0) = a := by
    decide
  exact hflags m.toolCallId.isSome (m.parts.any (·.kind = .think)) m.calls.isEmpty

/-! ### The round trip -/

/-- The pair that `kmb2_build` produces is accepted, and reading it through the view gives
the messages back. -/
def kmb2RoundTrips (msgs : List MessageView) : Prop :=
  ∃ struct history v, kmb2Build msgs = some (struct, history) ∧
    kmb2Parse struct (some history) = some v ∧
    v.messageViews.map (List.map MessageView.message) = some (msgs.map MessageView.message)

/-- Texts within `INT32_MAX` bytes. -/
def TextFits (msgs : List MessageView) : Prop :=
  (msgs.map fun m => m.message.size).sum ≤ int32Max

/-- Counts that a 32-bit header can hold. -/
def CountsFit (msgs : List MessageView) : Prop :=
  msgs.length < 2 ^ 32 ∧ (msgs.map fun m => m.parts.length).sum < 2 ^ 32 ∧
    (msgs.map fun m => m.toolCalls.length).sum < 2 ^ 32

section RoundTrip

variable {msgs : List MessageView} (htext : TextFits msgs)

include htext

theorem writer_spec :
    (msgs.foldl Kmb2Writer.add {}).tables =
        Tables.emitAll {} (msgs.map MessageView.message) ∧
      (msgs.foldl Kmb2Writer.add {}).msgs =
        Tables.records {} (msgs.map MessageView.message) := by
  obtain ⟨htables, hmsgs⟩ := Kmb2Writer.foldl_add (w := {}) Kmb2Writer.counting_empty msgs
    (by simpa [TextFits] using htext)
  exact ⟨htables, hmsgs.trans (List.nil_append _)⟩

theorem length_writer :
    (msgs.foldl Kmb2Writer.add {}).msgs.length = msgs.length ∧
      (msgs.foldl Kmb2Writer.add {}).parts.length = (msgs.map fun m => m.parts.length).sum ∧
      (msgs.foldl Kmb2Writer.add {}).calls.length =
        (msgs.map fun m => m.toolCalls.length).sum := by
  obtain ⟨htables, hmsgs⟩ := writer_spec htext
  refine ⟨by rw [hmsgs, Tables.length_records, List.length_map], ?_, ?_⟩
  · have := Tables.length_parts_emitAll {} (msgs.map MessageView.message)
    rw [← htables, List.map_map] at this
    refine this.trans ?_
    simp [MessageView.message, Function.comp_def]
  · have := Tables.length_calls_emitAll {} (msgs.map MessageView.message)
    rw [← htables, List.map_map] at this
    refine this.trans ?_
    simp [MessageView.message, Function.comp_def]

/-- The counts in the header are those of the list exactly when they fit; otherwise
`finish` writes past the structure. -/
theorem not_roundTrips_of_counts (hcounts : ¬ CountsFit msgs) : ¬ kmb2RoundTrips msgs := by
  rintro ⟨struct, history, v, hbuild, -⟩
  obtain ⟨hm, hp, hc⟩ := length_writer htext
  have hnone := (msgs.foldl Kmb2Writer.add {}).finish_eq.2 (by
    rw [hm, hp, hc]
    exact hcounts)
  rw [kmb2Build, hnone] at hbuild
  cases hbuild

theorem roundTrips_of_counts (hrole : ∀ m ∈ msgs, m.role.toNat ≤ kRoleTool.toNat)
    (hcounts : CountsFit msgs) : kmb2RoundTrips msgs := by
  obtain ⟨hlm, hlp, hlc⟩ := length_writer htext
  obtain ⟨htables, hmsgs⟩ := writer_spec htext
  obtain ⟨w, hw⟩ : ∃ w, msgs.foldl Kmb2Writer.add {} = w := ⟨_, rfl⟩
  rw [hw] at hlm hlp hlc htables hmsgs
  have hm : w.msgs.length < 2 ^ 32 := hlm ▸ hcounts.1
  have hp : w.parts.length < 2 ^ 32 := hlp ▸ hcounts.2.1
  have hc : w.calls.length < 2 ^ 32 := hlc ▸ hcounts.2.2
  have harena : w.tables.arena.length ≤ int32Max := by
    rw [htables, Tables.length_arena_emitAll, List.map_map]
    simpa [TextFits, Function.comp_def] using htext
  have hfit : w.tables.Fits := ⟨harena, hp, hc⟩
  have hextends : (Tables.emitAll {} (msgs.map MessageView.message)).Extends w.tables :=
    htables ▸ .refl _
  have hvtables := Kmb2Writer.tables_view hm hp hc
  have hvsize : w.view.historySize = w.tables.arena.length := rfl
  -- every record the parser looks at is one the writer has emitted
  have hvalid : w.tables.Valid := by
    rw [htables]
    exact Tables.valid_empty.emitAll (by rw [← htables]; exact harena)
  have hrecord : ∀ (i : Nat) m, (msgs.map MessageView.message)[i]? = some m →
      ∃ r, w.msgs[i]? = some r ∧ (w.view.MessageOk r ∧ w.tables.readMessage r = some m) := by
    intro i m hget
    rw [hmsgs]
    refine Tables.records_spec (P := fun r m => w.view.MessageOk r ∧ w.tables.readMessage r = some m)
      ?_ hextends hget
    intro t m hmem hemit
    refine ⟨⟨?_, ?_, ?_, ?_⟩, Tables.readMessage_emit hemit hfit⟩
    · obtain ⟨mv, hmv, rfl⟩ := List.mem_map.mp hmem
      exact hrole mv hmv
    · rw [Kmb2Writer.partTotal_view hp, Kmb2Writer.callTotal_view hc]
      exact Tables.messageRecord_inTables hemit hfit
    · intro hflag
      rw [hasToolCallId_messageRecord] at hflag
      refine (Tables.messageRecord_tcid hemit harena).2 ?_
      intro hnone
      rw [hnone] at hflag
      cases hflag
    · intro hflag
      rw [hasToolCallId_messageRecord] at hflag
      refine (Tables.messageRecord_tcid hemit harena).1 ?_
      simpa using hflag
  have hcount : w.view.msgCount.toNat = (msgs.map MessageView.message).length := by
    rw [Kmb2Writer.msgCount_view hm, hlm, List.length_map]
  have haccepted : w.view.Accepted := by
    refine ⟨?_, ?_, ?_, ?_⟩
    · rw [tableBytes, Kmb2Writer.msgCount_view hm, Kmb2Writer.partTotal_view hp,
        Kmb2Writer.callTotal_view hc]
      exact le_of_eq w.length_written.symm
    · intro i hi
      rw [Kmb2Writer.partTotal_view hp] at hi
      rw [Kmb2View.part_eq, hvtables]
      exact ⟨_, List.getElem?_eq_getElem hi, hvalid.parts _ (List.getElem_mem hi)⟩
    · intro i hi
      rw [Kmb2Writer.callTotal_view hc] at hi
      rw [Kmb2View.call_eq, hvtables]
      exact ⟨_, List.getElem?_eq_getElem hi, hvalid.calls _ (List.getElem_mem hi)⟩
    · intro i hi
      rw [hcount] at hi
      obtain ⟨r, hr, hok, -⟩ := hrecord i _ (List.getElem?_eq_getElem hi)
      exact ⟨r, Kmb2Writer.message_view hm hr, hok⟩
  have hmessages : w.view.messages = some (msgs.map MessageView.message) := by
    rw [Kmb2View.messages, hcount]
    refine readRange_eq_some ?_
    intro i m hget
    obtain ⟨r, hr, -, hread⟩ := hrecord i m hget
    rw [Nat.zero_add, Kmb2View.denote, Kmb2Writer.message_view hm hr, Option.bind_some, hvtables,
      hread]
  refine ⟨w.written, w.history, w.view, ?_, ?_, ?_⟩
  · rw [kmb2Build, hw, w.finish_eq.1 ⟨hm, hp, hc⟩]
    rfl
  · exact kmb2Parse_eq_some.mpr ⟨w.isPacked_written, rfl, haccepted⟩
  · rw [Kmb2View.messageViews_eq rfl haccepted hmessages, Option.map_some, List.map_map]
    simp

end RoundTrip

/-- For messages with known roles and texts within `INT32_MAX` bytes the round trip holds
exactly when messages, parts and calls each number fewer than 2^32. -/
theorem kmb2Build_roundTrips_iff (msgs : List MessageView)
    (hrole : ∀ m ∈ msgs, m.role.toNat ≤ kRoleTool.toNat) (htext : TextFits msgs) :
    kmb2RoundTrips msgs ↔ CountsFit msgs := by
  constructor
  · intro hround
    by_contra hcounts
    exact not_roundTrips_of_counts htext hcounts hround
  · exact roundTrips_of_counts htext hrole

/-- Empty and absent texts side by side. -/
def sparseViews : List MessageView :=
  [⟨2, none, [⟨.text, some []⟩, ⟨.think, none⟩],
      [⟨some [0x61], some [0x62], none⟩, ⟨some [], some [0x63], some []⟩]⟩,
    ⟨3, some [], [], []⟩]

theorem roundTrips_sparseViews : kmb2RoundTrips sparseViews :=
  (kmb2Build_roundTrips_iff sparseViews (by decide) (show _ ≤ _ by decide)).mpr
    ⟨by decide, by decide, by decide⟩

theorem not_roundTrips_replicate {n : Nat} (hn : 2 ^ 32 ≤ n) :
    (∀ m ∈ List.replicate n (⟨1, none, [], []⟩ : MessageView), m.role.toNat ≤ kRoleTool.toNat) ∧
      TextFits (List.replicate n ⟨1, none, [], []⟩) ∧
      ¬ kmb2RoundTrips (List.replicate n ⟨1, none, [], []⟩) := by
  have htext : TextFits (List.replicate n ⟨1, none, [], []⟩) := by
    rw [TextFits, List.map_replicate, List.sum_replicate_nat]
    exact Nat.zero_le _
  refine ⟨?_, htext, ?_⟩
  · intro m hm
    rw [List.eq_of_mem_replicate hm]
    decide
  · refine not_roundTrips_of_counts htext ?_
    intro hcounts
    have := hcounts.1
    rw [List.length_replicate] at this
    omega

/-- 2^32 user messages without parts: the header says zero messages, and the records are
written behind its 32 bytes. -/
theorem kmb2Build_overruns :
    (∀ m ∈ List.replicate (2 ^ 32) (⟨1, none, [], []⟩ : MessageView),
        m.role.toNat ≤ kRoleTool.toNat) ∧
      TextFits (List.replicate (2 ^ 32) ⟨1, none, [], []⟩) ∧
      ¬ kmb2RoundTrips (List.replicate (2 ^ 32) ⟨1, none, [], []⟩) :=
  not_roundTrips_replicate le_rfl

end KimixNative.Soul
