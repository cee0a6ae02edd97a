import KimixNative.Soul.Arena

/-!
# The packed message format KMB2

A pair of byte strings: `history` holds the texts, `structure` a header and three tables of
records. `kmb2Parse` validates a pair and hands out a view with bounds-checked accessors;
the writer accumulates records and writes the structure in one go. Counts are 32-bit, in
the header and in the writer, and the writer allocates what the truncated counts ask for.
-/

namespace KimixNative.Soul

/-- `KMB2`, little-endian. -/
def kKmb2Magic : BitVec 32 := 0x32424D4B

def kKmb2Version : BitVec 32 := 1

def kKmb2HeaderBytes : Nat := 32

def kKmb2FlagUtf8 : BitVec 32 := 1

/-- `SIZE_MAX`. -/
def sizeMax : Nat := 2 ^ 64 - 1

/-- `table_bytes`, before the comparison with `SIZE_MAX`. -/
def tableBytes (msgs parts calls : BitVec 32) : Nat :=
  kKmb2HeaderBytes + msgs.toNat * kKmb2MessageBytes + parts.toNat * kKmb2PartBytes +
    calls.toNat * kKmb2CallBytes

/-! ### The view -/

structure Kmb2View where
  struct : Bytes
  history : StringView
  msgCount : BitVec 32
  partTotal : BitVec 32
  callTotal : BitVec 32
  flags : BitVec 32
  deriving DecidableEq, Repr

namespace Kmb2View

def messageTable (v : Kmb2View) : Bytes := v.struct.drop kKmb2HeaderBytes

def partTable (v : Kmb2View) : Bytes :=
  v.messageTable.drop (v.msgCount.toNat * kKmb2MessageBytes)

def callTable (v : Kmb2View) : Bytes :=
  v.partTable.drop (v.partTotal.toNat * kKmb2PartBytes)

def message (v : Kmb2View) (index : Nat) : Option MessageRecord :=
  if index ≥ v.msgCount.toNat then none else some (messageCodec.read v.messageTable index)

def part (v : Kmb2View) (index : Nat) : Option PartRecord :=
  if index ≥ v.partTotal.toNat then none else some (partCodec.read v.partTable index)

def call (v : Kmb2View) (index : Nat) : Option CallRecord :=
  if index ≥ v.callTotal.toNat then none else some (callCodec.read v.callTable index)

/-- `span`: null for a negative start, and null again in a null history. -/
def span (v : Kmb2View) (start stop : BitVec 32) : StringView :=
  if start.toInt < 0 ∨ stop.toInt < start.toInt then none
  else v.history.map fun history => slice history start stop

/-- Size of the history. -/
def historySize (v : Kmb2View) : Nat := (v.history.getD []).length

/-- The flag of a present tool-call id. -/
def hasToolCallId (r : MessageRecord) : Bool := r.flags &&& kKmb2MsgHasToolCallId ≠ 0

/-- A message record passes the checks of the parser. -/
def MessageOk (v : Kmb2View) (r : MessageRecord) : Prop :=
  r.role.toNat ≤ kRoleTool.toNat ∧ r.InTables v.partTotal.toNat v.callTotal.toNat ∧
    (hasToolCallId r = true → SpanOk r.tcidStart r.tcidEnd v.historySize) ∧
    (hasToolCallId r = false → r.tcidStart = -1 ∧ r.tcidEnd = -1)

instance (v : Kmb2View) (r : MessageRecord) : Decidable (v.MessageOk r) :=
  inferInstanceAs (Decidable (_ ∧ _ ∧ (_ → _) ∧ (_ → _)))

end Kmb2View

/-! ### The parser -/

def kmb2IsPacked (struct : Bytes) : Bool :=
  ¬ struct.length < kKmb2HeaderBytes ∧ u32.decode struct = kKmb2Magic ∧
    u32.decode (struct.drop 4) = kKmb2Version

/-- The view a header describes. -/
def kmb2Header (struct : Bytes) (history : StringView) : Kmb2View where
  struct := struct
  history := history
  msgCount := u32.decode (struct.drop 8)
  partTotal := u32.decode (struct.drop 12)
  callTotal := u32.decode (struct.drop 16)
  flags := u32.decode (struct.drop 20)

/-- Every record that an accessor returns below a count passes a check. -/
def allRecords {α : Type} (get : Nat → Option α) (ok : α → Prop) [DecidablePred ok] (n : Nat) :
    Bool :=
  (List.range n).all fun i => match get i with
    | none => false
    | some r => decide (ok r)

def kmb2Parse (struct : Bytes) (history : StringView) : Option Kmb2View :=
  if kmb2IsPacked struct = false then none
  else
    let v := kmb2Header struct history
    let required := tableBytes v.msgCount v.partTotal v.callTotal
    if required > sizeMax ∨ struct.length < required then none
    else if allRecords v.part (PartRecord.Ok v.historySize) v.partTotal.toNat = false then none
    else if allRecords v.call (CallRecord.Ok v.historySize) v.callTotal.toNat = false then none
    else if allRecords v.message v.MessageOk v.msgCount.toNat = false then none
    else some v

/-! ### The writer -/

structure Kmb2Writer where
  history : Bytes := []
  msgs : List MessageRecord := []
  parts : List PartRecord := []
  calls : List CallRecord := []
  partTotal : BitVec 32 := 0
  callTotal : BitVec 32 := 0
  overflow : Bool := false
  deriving DecidableEq, Repr

/-- The length of a view as a signed 32-bit number. -/
def viewLength (v : StringView) : BitVec 32 := BitVec.ofNat 32 (v.getD []).length

/-- The end of a span that starts at `s`, or -1. -/
def spanEnd (s : BitVec 32) (v : StringView) : BitVec 32 :=
  if 0 ≤ s.toInt then s + viewLength v else -1

namespace Kmb2Writer

def put (w : Kmb2Writer) (v : StringView) : BitVec 32 × Kmb2Writer :=
  if v.getD [] = [] then (if w.overflow then -1 else BitVec.ofNat 32 w.history.length, w)
  else if w.history.length + (v.getD []).length > int32Max then (-1, { w with overflow := true })
  else (BitVec.ofNat 32 w.history.length, { w with history := w.history ++ v.getD [] })

/-- One round of the loop over the parts. -/
def addPart (w : Kmb2Writer) (p : PartView) : Kmb2Writer :=
  let (s, w) := w.put p.text
  { w with parts := w.parts ++ [⟨s, spanEnd s p.text, p.kind.toByte, 0⟩],
           partTotal := w.partTotal + 1 }

/-- One round of the loop over the calls. -/
def addCall (w : Kmb2Writer) (c : ToolCallView) : Kmb2Writer :=
  let (idS, w) := w.put c.id
  let (nameS, w) := w.put c.name
  let (argsS, w) := match c.arguments with
    | none => (-1, w)
    | some _ => w.put c.arguments
  let argsE := match c.arguments with
    | none => -1
    | some _ => spanEnd argsS c.arguments
  { w with
    calls := w.calls ++ [⟨idS, spanEnd idS c.id, nameS, spanEnd nameS c.name, argsS, argsE⟩],
    callTotal := w.callTotal + 1 }

/-- `add`, called by `kmb2_encode_message` with `has_tool_call_id` the non-null test. -/
def add (w : Kmb2Writer) (m : MessageView) : Kmb2Writer :=
  let partFirst := w.partTotal
  let callFirst := w.callTotal
  let ((tcidStart, tcidEnd, tcidFlag), w) : (BitVec 32 × BitVec 32 × BitVec 8) × Kmb2Writer :=
    match m.toolCallId with
    | none => ((-1, -1, 0), w)
    | some _ =>
      let (s, w) := w.put m.toolCallId
      if 0 ≤ s.toInt then ((s, s + viewLength m.toolCallId, kKmb2MsgHasToolCallId), w)
      else ((-1, -1, 0), w)
  let w := m.parts.foldl addPart w
  let w := m.toolCalls.foldl addCall w
  let flags := tcidFlag ||| (if m.parts.any (·.kind = .think) then kKmb2MsgHasThink else 0) |||
    (if m.toolCalls.isEmpty then 0 else kKmb2MsgHasToolCalls)
  { w with
    msgs := w.msgs ++ [⟨m.role, flags, partFirst, BitVec.ofNat 32 m.parts.length, callFirst,
      BitVec.ofNat 32 m.toolCalls.length, tcidStart, tcidEnd⟩] }

/-- The header `finish` writes. -/
def headerBytes (w : Kmb2Writer) : Bytes :=
  u32.encode kKmb2Magic ++ u32.encode kKmb2Version ++
    u32.encode (BitVec.ofNat 32 w.msgs.length) ++ u32.encode (BitVec.ofNat 32 w.parts.length) ++
    u32.encode (BitVec.ofNat 32 w.calls.length) ++ u32.encode kKmb2FlagUtf8 ++ u32.encode 0 ++
    u32.encode 0

/-- Everything `finish` writes. -/
def written (w : Kmb2Writer) : Bytes :=
  w.headerBytes ++ messageCodec.encodeAll w.msgs ++ partCodec.encodeAll w.parts ++
    callCodec.encodeAll w.calls

/-- `finish`; `none` when the records run past the allocated structure. -/
def finish (w : Kmb2Writer) : Option Bytes :=
  let total := tableBytes (BitVec.ofNat 32 w.msgs.length) (BitVec.ofNat 32 w.parts.length)
    (BitVec.ofNat 32 w.calls.length)
  if total > sizeMax then some []
  else if total < w.written.length then none
  else some (w.written ++ List.replicate (total - w.written.length) 0)

end Kmb2Writer

/-- `kmb2_build`: the structure and the history. -/
def kmb2Build (msgs : List MessageView) : Option (Bytes × Bytes) :=
  let w := msgs.foldl Kmb2Writer.add {}
  w.finish.map fun struct => (struct, w.history)

/-! ### Reading a message through the view -/

namespace Kmb2View

def partView (v : Kmb2View) (i : Nat) : Option PartView :=
  (v.part i).map fun r => ⟨PartKind.ofByte r.kind, v.span r.start r.stop⟩

def callView (v : Kmb2View) (i : Nat) : Option ToolCallView :=
  (v.call i).map fun r =>
    ⟨v.span r.idS r.idE, v.span r.nameS r.nameE,
      if 0 ≤ r.argsS.toInt then v.span r.argsS r.argsE else none⟩

/-- The loop body shared by `append_packed` and `replace_packed`; indices are 32-bit sums. -/
def messageView (v : Kmb2View) (i : Nat) : Option MessageView :=
  (v.message i).bind fun r =>
    (readRange (fun j => v.partView (j % 2 ^ 32)) r.partFirst.toNat r.partCount.toNat).bind
      fun parts =>
        (readRange (fun j => v.callView (j % 2 ^ 32)) r.callFirst.toNat r.callCount.toNat).map
          fun calls =>
            ⟨r.role, if hasToolCallId r then v.span r.tcidStart r.tcidEnd else none, parts, calls⟩

/-- All messages of the view. -/
def messageViews (v : Kmb2View) : Option (List MessageView) :=
  readRange v.messageView 0 v.msgCount.toNat

end Kmb2View

end KimixNative.Soul
