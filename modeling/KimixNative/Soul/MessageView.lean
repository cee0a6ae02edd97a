import KimixNative.Lib.FixedCodec
import Mathlib.Tactic.IntervalCases

/-!
# Messages, views and records

A message as a consumer sees it is a `MessageView`. In storage it is a record: part and call
ranges into two tables, whose records in turn hold spans of one byte arena. The records are
those of the KMB2 wire format; the history store keeps the same ones in memory.

A string view is `none` when its pointer is null, which is how an absent tool-call id or
absent arguments are told from empty ones.
-/

namespace KimixNative.Soul

/-- `part_kind`. -/
inductive PartKind
  | text
  | think
  | toolCall
  | image
  | audio
  | file
  | other
  deriving DecidableEq, Repr

namespace PartKind

/-- The byte of a kind. -/
def toByte : PartKind → BitVec 8
  | .text => 0
  | .think => 1
  | .toolCall => 2
  | .image => 3
  | .audio => 4
  | .file => 5
  | .other => 6

/-- The cast of a record's byte; every reader has checked it against `OTHER`. -/
def ofByte (b : BitVec 8) : PartKind :=
  match b.toNat with
  | 0 => .text
  | 1 => .think
  | 2 => .toolCall
  | 3 => .image
  | 4 => .audio
  | 5 => .file
  | _ => .other

@[simp] theorem ofByte_toByte (k : PartKind) : ofByte k.toByte = k := by
  cases k <;> rfl

theorem toByte_le (k : PartKind) : k.toByte.toNat ≤ PartKind.other.toByte.toNat := by
  cases k <;> decide

theorem toByte_ofByte {b : BitVec 8} (h : b.toNat ≤ PartKind.other.toByte.toNat) :
    (ofByte b).toByte = b := by
  have hle : b.toNat ≤ 6 := h
  refine BitVec.eq_of_toNat_eq ?_
  unfold ofByte
  interval_cases b.toNat <;> rfl

end PartKind

/-- A view that may be null. -/
abbrev StringView := Option Bytes

structure PartView where
  kind : PartKind
  text : StringView
  deriving DecidableEq, Repr

structure ToolCallView where
  id : StringView
  name : StringView
  arguments : StringView
  deriving DecidableEq, Repr

/-- `kRoleTool`, the last role: 0 system, 1 user, 2 assistant, 3 tool. -/
def kRoleTool : BitVec 8 := 3

structure MessageView where
  role : BitVec 8
  toolCallId : StringView
  parts : List PartView
  toolCalls : List ToolCallView
  deriving DecidableEq, Repr

/-! ### What a view stands for -/

structure Part where
  kind : PartKind
  text : Bytes
  deriving DecidableEq, Repr

structure Call where
  id : Bytes
  name : Bytes
  arguments : Option Bytes
  deriving DecidableEq, Repr

/-- A message: only the tool-call id and the arguments of a call may be absent. -/
structure Message where
  role : BitVec 8
  parts : List Part
  calls : List Call
  toolCallId : Option Bytes
  deriving DecidableEq, Repr

def PartView.part (p : PartView) : Part := ⟨p.kind, p.text.getD []⟩

def ToolCallView.call (c : ToolCallView) : Call := ⟨c.id.getD [], c.name.getD [], c.arguments⟩

def MessageView.message (m : MessageView) : Message :=
  ⟨m.role, m.parts.map PartView.part, m.toolCalls.map ToolCallView.call, m.toolCallId⟩

/-- The view of a stored message. -/
def Message.view (m : Message) : MessageView :=
  ⟨m.role, m.toolCallId, m.parts.map fun p => ⟨p.kind, some p.text⟩,
    m.calls.map fun c => ⟨some c.id, some c.name, c.arguments⟩⟩

@[simp] theorem Message.message_view (m : Message) : m.view.message = m := by
  simp [Message.view, MessageView.message, PartView.part, ToolCallView.call, Function.comp_def]

/-- No optional text is present. -/
def Message.Plain (m : Message) : Prop :=
  m.toolCallId = none ∧ ∀ c ∈ m.calls, c.arguments = none

instance (m : Message) : Decidable m.Plain := inferInstanceAs (Decidable (_ ∧ _))

/-- Bytes of text in a call. -/
def Call.size (c : Call) : Nat :=
  c.id.length + c.name.length + (c.arguments.getD []).length

/-- Bytes of text in a message. -/
def Message.size (m : Message) : Nat :=
  (m.toolCallId.getD []).length + (m.parts.map fun p => p.text.length).sum +
    (m.calls.map Call.size).sum

/-! ### Records -/

/-- `kmb2_message_record` without its reserved fields, which nothing reads. -/
structure MessageRecord where
  role : BitVec 8
  flags : BitVec 8
  partFirst : BitVec 32
  partCount : BitVec 32
  callFirst : BitVec 32
  callCount : BitVec 32
  tcidStart : BitVec 32
  tcidEnd : BitVec 32
  deriving DecidableEq, Repr

structure PartRecord where
  start : BitVec 32
  stop : BitVec 32
  kind : BitVec 8
  flags : BitVec 8
  deriving DecidableEq, Repr

structure CallRecord where
  idS : BitVec 32
  idE : BitVec 32
  nameS : BitVec 32
  nameE : BitVec 32
  argsS : BitVec 32
  argsE : BitVec 32
  deriving DecidableEq, Repr

def kKmb2MsgHasToolCallId : BitVec 8 := 1
def kKmb2MsgHasToolCalls : BitVec 8 := 2
def kKmb2MsgHasThink : BitVec 8 := 4

/-- A byte. -/
def u8 : FixedCodec (BitVec 8) := FixedCodec.uint 1

/-- A 32-bit field, signed or not. -/
def u32 : FixedCodec (BitVec 32) := FixedCodec.uint 4

/-- Four 32-bit fields: the part and call ranges of a message. -/
def rangesCodec : FixedCodec (BitVec 32 × BitVec 32 × BitVec 32 × BitVec 32) :=
  u32.prod (u32.prod (u32.prod u32))

/-- The 32 bytes of a message record. -/
def messageCodec : FixedCodec MessageRecord :=
  (((u8.prod u8).pad 2).prod (rangesCodec.prod ((u32.prod u32).pad 4))).map
    (fun x => ⟨x.1.1, x.1.2, x.2.1.1, x.2.1.2.1, x.2.1.2.2.1, x.2.1.2.2.2, x.2.2.1, x.2.2.2⟩)
    (fun r => ((r.role, r.flags), (r.partFirst, r.partCount, r.callFirst, r.callCount),
      (r.tcidStart, r.tcidEnd)))
    (fun _ => rfl)

/-- The 12 bytes of a part record. -/
def partCodec : FixedCodec PartRecord :=
  ((u32.prod u32).prod ((u8.prod u8).pad 2)).map
    (fun x => ⟨x.1.1, x.1.2, x.2.1, x.2.2⟩) (fun r => ((r.start, r.stop), (r.kind, r.flags)))
    (fun _ => rfl)

/-- The 24 bytes of a call record. -/
def callCodec : FixedCodec CallRecord :=
  (u32.prod (u32.prod (u32.prod (u32.prod (u32.prod u32))))).map
    (fun x => ⟨x.1, x.2.1, x.2.2.1, x.2.2.2.1, x.2.2.2.2.1, x.2.2.2.2.2⟩)
    (fun r => (r.idS, r.idE, r.nameS, r.nameE, r.argsS, r.argsE)) (fun _ => rfl)

def kKmb2MessageBytes : Nat := 32
def kKmb2PartBytes : Nat := 12
def kKmb2CallBytes : Nat := 24

theorem width_messageCodec : messageCodec.width = kKmb2MessageBytes := rfl

theorem width_partCodec : partCodec.width = kKmb2PartBytes := rfl

theorem width_callCodec : callCodec.width = kKmb2CallBytes := rfl

/-! ### Spans -/

/-- `INT32_MAX`. -/
def int32Max : Nat := 2 ^ 31 - 1

/-- `le_span_ok`: signed bounds of a span inside a buffer of `len` bytes. -/
def SpanOk (start stop : BitVec 32) (len : Nat) : Prop :=
  0 ≤ start.toInt ∧ start.toInt ≤ stop.toInt ∧ stop.toInt ≤ len

instance (start stop : BitVec 32) (len : Nat) : Decidable (SpanOk start stop len) :=
  inferInstanceAs (Decidable (_ ∧ _))

/-- A part record that both loaders accept: a span of the buffer and a known kind. -/
def PartRecord.Ok (len : Nat) (r : PartRecord) : Prop :=
  SpanOk r.start r.stop len ∧ r.kind.toNat ≤ PartKind.other.toByte.toNat

/-- A call record that both loaders accept: id and name are spans, arguments are optional. -/
def CallRecord.Ok (len : Nat) (r : CallRecord) : Prop :=
  SpanOk r.idS r.idE len ∧ SpanOk r.nameS r.nameE len ∧
    (0 ≤ r.argsS.toInt → SpanOk r.argsS r.argsE len)

instance (len : Nat) (r : PartRecord) : Decidable (r.Ok len) :=
  inferInstanceAs (Decidable (_ ∧ _))

instance (len : Nat) (r : CallRecord) : Decidable (r.Ok len) :=
  inferInstanceAs (Decidable (_ ∧ _ ∧ (_ → _)))

/-- The ranges of a message record lie inside tables of the given sizes. -/
def MessageRecord.InTables (parts calls : Nat) (r : MessageRecord) : Prop :=
  r.partFirst.toNat + r.partCount.toNat ≤ parts ∧ r.callFirst.toNat + r.callCount.toNat ≤ calls

instance (parts calls : Nat) (r : MessageRecord) : Decidable (r.InTables parts calls) :=
  inferInstanceAs (Decidable (_ ∧ _))

/-- The bytes of a span that lies inside the buffer. -/
def slice (buffer : Bytes) (start stop : BitVec 32) : Bytes :=
  (buffer.drop start.toNat).take (stop.toNat - start.toNat)

theorem toInt_ofNat {n : Nat} (h : n ≤ int32Max) : (BitVec.ofNat 32 n).toInt = n := by
  unfold int32Max at h
  rw [BitVec.toInt_eq_toNat_bmod, BitVec.toNat_ofNat, Nat.mod_eq_of_lt (by omega), Int.bmod_def]
  omega

theorem toNat_ofNat {n : Nat} (h : n < 2 ^ 32) : (BitVec.ofNat 32 n).toNat = n := by
  rw [BitVec.toNat_ofNat, Nat.mod_eq_of_lt h]

/-- A span that is nonnegative in the signed reading is the same number unsigned. -/
theorem toInt_eq_toNat {v : BitVec 32} (h : 0 ≤ v.toInt) : v.toInt = v.toNat := by
  have := v.isLt
  rw [BitVec.toInt_eq_toNat_bmod, Int.bmod_def] at *
  omega

theorem SpanOk.le {start stop : BitVec 32} {len : Nat} (h : SpanOk start stop len) :
    start.toNat ≤ stop.toNat ∧ stop.toNat ≤ len := by
  have hstart := toInt_eq_toNat h.1
  have hstop := toInt_eq_toNat (le_trans h.1 h.2.1)
  have h1 := h.2.1
  have h2 := h.2.2
  omega

theorem SpanOk.mono {start stop : BitVec 32} {len len' : Nat} (h : SpanOk start stop len)
    (hle : len ≤ len') : SpanOk start stop len' :=
  ⟨h.1, h.2.1, le_trans h.2.2 (by exact_mod_cast hle)⟩

theorem PartRecord.Ok.mono {r : PartRecord} {len len' : Nat} (h : r.Ok len) (hle : len ≤ len') :
    r.Ok len' := ⟨h.1.mono hle, h.2⟩

theorem CallRecord.Ok.mono {r : CallRecord} {len len' : Nat} (h : r.Ok len) (hle : len ≤ len') :
    r.Ok len' := ⟨h.1.mono hle, h.2.1.mono hle, fun hargs => (h.2.2 hargs).mono hle⟩

theorem spanOk_ofNat {a b len : Nat} (hab : a ≤ b) (hb : b ≤ len) (hlen : len ≤ int32Max) :
    SpanOk (BitVec.ofNat 32 a) (BitVec.ofNat 32 b) len := by
  refine ⟨?_, ?_, ?_⟩
  · rw [toInt_ofNat (by omega)]
    omega
  · rw [toInt_ofNat (by omega), toInt_ofNat (by omega)]
    omega
  · rw [toInt_ofNat (by omega)]
    omega

theorem slice_of_prefix {buffer buffer' : Bytes} {start stop : BitVec 32}
    (h : SpanOk start stop buffer.length) (hp : buffer <+: buffer') :
    slice buffer' start stop = slice buffer start stop := by
  obtain ⟨rest, rfl⟩ := hp
  obtain ⟨h1, h2⟩ := h.le
  rw [slice, slice, List.drop_append_of_le_length (by omega), List.take_append_of_le_length]
  rw [List.length_drop]
  omega

/-- Text that has just been appended. -/
theorem slice_append {buffer text : Bytes} (h : buffer.length + text.length ≤ int32Max) :
    slice (buffer ++ text) (BitVec.ofNat 32 buffer.length)
      (BitVec.ofNat 32 (buffer.length + text.length)) = text := by
  unfold int32Max at h
  rw [slice, toNat_ofNat (by omega), toNat_ofNat (by omega), List.drop_left, Nat.add_sub_cancel_left,
    List.take_length]

end KimixNative.Soul
