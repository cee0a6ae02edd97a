import KimixNative.Soul.Kmb2Parse
import KimixNative.Lib.Run

/-!
# The history store

Messages live in slots; a slot's record points into the part and call tables, whose records
point into one arena. `order` lists the live slots in conversation order, and the public
indices are positions in it. Dropped and replaced texts stay until `compact` copies the live
ones into fresh tables. Capacities, and with them the return value of `compact`, are left
out.

A read outside the arena or a table is `none`.
-/

namespace KimixNative.Soul

/-- `slot_state`. -/
structure Slot where
  record : MessageRecord
  live : BitVec 8
  deriving DecidableEq, Repr

structure HistoryStore where
  arena : Bytes := []
  slots : List Slot := []
  parts : List PartRecord := []
  calls : List CallRecord := []
  order : List Nat := []
  gen : Nat := 0
  /-- The generation of the cached views. -/
  viewsGen : Option Nat := none
  cachedViews : List MessageView := []
  deriving DecidableEq, Repr

namespace HistoryStore

/-- `UINT32_MAX`, which `push_slot` returns on failure. -/
def noOrdinal : Nat := 2 ^ 32 - 1

def tables (s : HistoryStore) : Tables := ⟨s.arena, s.parts, s.calls⟩

def withTables (s : HistoryStore) (t : Tables) : HistoryStore :=
  { s with arena := t.arena, parts := t.parts, calls := t.calls }

def size (s : HistoryStore) : Nat := s.order.length % 2 ^ 32

def invalidate (s : HistoryStore) : HistoryStore := { s with gen := s.gen + 1 }

/-! ### Writing a message -/

/-- `append_bytes`: start, arena and `ok` afterwards. -/
def appendBytes (arena : Bytes) (ok : Bool) : StringView → BitVec 32 × Bytes × Bool
  | none => (-1, arena, ok)
  | some v =>
    if arena.length + v.length > int32Max then (-1, arena, false)
    else (BitVec.ofNat 32 arena.length, arena ++ v, ok)

/-- The span of a mandatory text: an absent one is stored as an empty span. -/
def appendSpan (arena : Bytes) (ok : Bool) (v : StringView) :
    (BitVec 32 × BitVec 32) × Bytes × Bool :=
  let (s, arena, ok) := appendBytes arena ok v
  if s.toInt < 0 then ((BitVec.ofNat 32 arena.length, BitVec.ofNat 32 arena.length), arena, ok)
  else ((s, s + viewLength v), arena, ok)

/-- The loop over the parts; it breaks off when a text does not fit. -/
def writeParts : List PartView → Tables → Bool → Tables × Bool
  | [], t, ok => (t, ok)
  | p :: rest, t, ok =>
    let ((start, stop), arena, ok) := appendSpan t.arena ok p.text
    if ok = false then ({ t with arena }, false)
    else
      writeParts rest { t with arena, parts := t.parts ++ [⟨start, stop, p.kind.toByte, 0⟩] } ok

/-- The loop over the calls. -/
def writeCalls : List ToolCallView → Tables → Bool → Tables × Bool
  | [], t, ok => (t, ok)
  | c :: rest, t, ok =>
    let ((idS, idE), arena, ok) := appendSpan t.arena ok c.id
    if ok = false then ({ t with arena }, false)
    else
      let ((nameS, nameE), arena, ok) := appendSpan arena ok c.name
      if ok = false then ({ t with arena }, false)
      else
        let ((argsS, argsE), arena, ok) : (BitVec 32 × BitVec 32) × Bytes × Bool :=
          match c.arguments with
          | none => ((-1, -1), arena, ok)
          | some _ =>
            let (s, arena, ok) := appendBytes arena ok c.arguments
            ((s, s + viewLength c.arguments), arena, ok)
        if ok = false then ({ t with arena }, false)
        else
          writeCalls rest
            { t with arena, calls := t.calls ++ [⟨idS, idE, nameS, nameE, argsS, argsE⟩] } ok

/-- The tool-call id: its span, the flag, and whether it fitted. -/
def writeToolCallId (arena : Bytes) : StringView → (BitVec 32 × BitVec 32 × BitVec 8) × Bytes × Bool
  | none => ((-1, -1, 0), arena, true)
  | some v =>
    let (s, arena, ok) := appendBytes arena true (some v)
    if ok then ((s, s + viewLength (some v), kKmb2MsgHasToolCallId), arena, true)
    else ((-1, -1, 0), arena, false)

/-- `write_message` into a slot; on failure the tables may have grown. -/
def writeMessage (s : HistoryStore) (slot : Nat) (m : MessageView) : Bool × HistoryStore :=
  if slot ≥ s.slots.length then (false, s)
  else
    let ((tcidStart, tcidEnd, tcidFlag), arena, ok) := writeToolCallId s.arena m.toolCallId
    let (t, ok) := writeParts m.parts { s.tables with arena } ok
    if ok = false then (false, s.withTables t)
    else
      let (t, ok) := writeCalls m.toolCalls t ok
      if ok = false then (false, s.withTables t)
      else
        let flags := tcidFlag |||
          (if m.parts.any (·.kind = .think) then kKmb2MsgHasThink else 0) |||
          (if m.toolCalls.isEmpty then 0 else kKmb2MsgHasToolCalls)
        let record : MessageRecord :=
          ⟨m.role, flags, BitVec.ofNat 32 s.parts.length, BitVec.ofNat 32 m.parts.length,
            BitVec.ofNat 32 s.calls.length, BitVec.ofNat 32 m.toolCalls.length, tcidStart, tcidEnd⟩
        (true, { s.withTables t with slots := s.slots.set slot ⟨record, 1⟩ })

/-- A slot before it is written. -/
def blankSlot (role : BitVec 8) : Slot := ⟨⟨role, 0, 0, 0, 0, 0, 0, 0⟩, 0⟩

def pushSlot (s : HistoryStore) (m : MessageView) : Nat × HistoryStore :=
  let slot := s.slots.length % 2 ^ 32
  let (ok, s) := { s with slots := s.slots ++ [blankSlot m.role] }.writeMessage slot m
  if ok then
    let s := { s with order := s.order ++ [slot] }.invalidate
    ((s.order.length - 1) % 2 ^ 32, s)
  else (noOrdinal, s)

/-! ### Operations -/

def append (s : HistoryStore) (m : MessageView) : Nat × HistoryStore := s.pushSlot m

/-- The loop of `append_packed` over `n` messages from index `i` on. -/
def appendMessages (v : Kmb2View) (before : Nat) : Nat → Nat → HistoryStore → Nat × HistoryStore
  | 0, _, s => (s.size - before, s)
  | n + 1, i, s =>
    match v.messageView i with
    | none => (0, s)
    | some m =>
      let (ordinal, s) := s.pushSlot m
      if ordinal = noOrdinal then (s.size - before, s) else appendMessages v before n (i + 1) s

def appendPacked (s : HistoryStore) (struct : Bytes) (history : StringView) : Nat × HistoryStore :=
  match kmb2Parse struct history with
  | none => (0, s)
  | some v => appendMessages v s.size v.msgCount.toNat 0 s

def replace (s : HistoryStore) (index : Nat) (m : MessageView) : Bool × HistoryStore :=
  match s.order[index]? with
  | none => (false, s)
  | some slot =>
    let (ok, s) := s.writeMessage slot m
    if ok then (true, s.invalidate) else (false, s)

def replacePacked (s : HistoryStore) (index : Nat) (struct : Bytes) (history : StringView) :
    Bool × HistoryStore :=
  match kmb2Parse struct history with
  | none => (false, s)
  | some v =>
    if v.msgCount.toNat = 0 then (false, s)
    else
      match v.messageView 0 with
      | none => (false, s)
      | some m => s.replace index m

/-- Mark a slot dead. -/
def bury (slots : List Slot) (i : Nat) : List Slot := slots.modify i fun slot => { slot with live := 0 }

def drop (s : HistoryStore) (index : Nat) : Bool × HistoryStore :=
  match s.order[index]? with
  | none => (false, s)
  | some slot =>
    (true, { s with slots := bury s.slots slot, order := s.order.eraseIdx index }.invalidate)

def truncate (s : HistoryStore) (count : Nat) : HistoryStore :=
  if count ≥ s.order.length then s
  else
    { s with slots := (s.order.drop count).foldl bury s.slots,
             order := s.order.take count }.invalidate

def clear (s : HistoryStore) : HistoryStore :=
  if s.slots = [] ∧ s.arena = [] ∧ s.parts = [] ∧ s.calls = [] then s.invalidate
  else { s with arena := [], slots := [], parts := [], calls := [], order := [] }.invalidate

/-! ### Compaction -/

/-- Copy one part into the new tables. -/
def copyPart (old t : Tables) (i : Nat) : Option Tables :=
  (old.parts[i]?).bind fun r =>
    (old.readSpan r.start r.stop).map fun text =>
      { t with arena := t.arena ++ text,
               parts := t.parts ++ [{ r with start := BitVec.ofNat 32 t.arena.length,
                                             stop := BitVec.ofNat 32 (t.arena ++ text).length }] }

/-- Copy one call into the new tables. -/
def copyCall (old t : Tables) (i : Nat) : Option Tables :=
  (old.calls[i]?).bind fun r =>
    (old.readSpan r.idS r.idE).bind fun id =>
      (old.readSpan r.nameS r.nameE).bind fun name =>
        let named := t.arena ++ id
        let arena := named ++ name
        let r := { r with idS := BitVec.ofNat 32 t.arena.length,
                          idE := BitVec.ofNat 32 named.length,
                          nameS := BitVec.ofNat 32 named.length,
                          nameE := BitVec.ofNat 32 arena.length }
        if 0 ≤ r.argsS.toInt then
          (old.readSpan r.argsS r.argsE).map fun args =>
            { t with arena := arena ++ args,
                     calls := t.calls ++ [{ r with argsS := BitVec.ofNat 32 arena.length,
                                                   argsE := BitVec.ofNat 32 (arena ++ args).length }] }
        else some { t with arena, calls := t.calls ++ [r] }

/-- Copy `count` records from `first` on. -/
def copyRange (copy : Tables → Nat → Option Tables) : Nat → Nat → Tables → Option Tables
  | _, 0, t => some t
  | first, count + 1, t => (copy t (first % 2 ^ 32)).bind (copyRange copy (first + 1) count)

/-- Copy a tool-call id, if there is one: the arena and the new span. -/
def copyToolCallId (old : Tables) (arena : Bytes) (r : MessageRecord) :
    Option (Bytes × BitVec 32 × BitVec 32) :=
  if 0 ≤ r.tcidStart.toInt then
    (old.readSpan r.tcidStart r.tcidEnd).map fun text =>
      (arena ++ text, BitVec.ofNat 32 arena.length, BitVec.ofNat 32 (arena ++ text).length)
  else some (arena, r.tcidStart, r.tcidEnd)

/-- Copy one message; the record keeps its role, flags and counts. -/
def copySlot (old t : Tables) (slot : Slot) : Option (Tables × Slot) :=
  let r := slot.record
  (copyToolCallId old t.arena r).bind fun x =>
    (copyRange (copyPart old) r.partFirst.toNat r.partCount.toNat { t with arena := x.1 }).bind
      fun t₁ =>
        (copyRange (copyCall old) r.callFirst.toNat r.callCount.toNat t₁).map fun t₂ =>
          (t₂, ⟨{ r with partFirst := BitVec.ofNat 32 t.parts.length,
                         callFirst := BitVec.ofNat 32 t.calls.length,
                         tcidStart := x.2.1, tcidEnd := x.2.2 }, 1⟩)

/-- The loop of `compact` over the live slots. -/
def copySlots (s : HistoryStore) : List Nat → Tables → List Slot → Option (Tables × List Slot)
  | [], t, slots => some (t, slots)
  | i :: rest, t, slots =>
    (s.slots[i]?).bind fun slot =>
      (copySlot s.tables t slot).bind fun x => copySlots s rest x.1 (slots ++ [x.2])

def compact (s : HistoryStore) : Option HistoryStore :=
  (s.copySlots s.order {} []).map fun x =>
    { s.withTables x.1 with slots := x.2,
                            order := (List.range x.2.length).map (· % 2 ^ 32) }.invalidate

/-! ### Views -/

/-- `build_views` over some slots. -/
def buildViews (s : HistoryStore) : List Nat → Option (List MessageView)
  | [] => some []
  | i :: rest =>
    (s.slots[i]?).bind fun slot =>
      (s.tables.readMessage slot.record).bind fun m =>
        (buildViews s rest).map (m.view :: ·)

/-- `views`, with the cache it leaves. -/
def views (s : HistoryStore) : Option (List MessageView × HistoryStore) :=
  if s.viewsGen = some s.gen then some (s.cachedViews, s)
  else
    (s.buildViews s.order).map fun views =>
      (views, { s with viewsGen := some s.gen, cachedViews := views })

/-- `bytes_live` over some slots: the sum of the spans. -/
def bytesLive (s : HistoryStore) : List Nat → Option Nat
  | [] => some 0
  | i :: rest =>
    (s.slots[i]?).bind fun slot =>
      (s.tables.readMessage slot.record).bind fun m => (bytesLive s rest).map (m.size + ·)

/-! ### Persistence -/

/-- `KMSH1`, padded to eight bytes. -/
def kSaveMagic : Bytes := [0x4b, 0x4d, 0x53, 0x48, 0x31, 0x00, 0x00, 0x00]

def kSaveHeaderBytes : Nat := 32

/-- The 32 bytes of a saved slot. -/
def slotCodec : FixedCodec Slot :=
  ((u8.prod (u8.prod (u8.pad 1))).prod (rangesCodec.prod ((u32.prod u32).pad 4))).map
    (fun x => ⟨⟨x.1.1, x.1.2.2, x.2.1.1, x.2.1.2.1, x.2.1.2.2.1, x.2.1.2.2.2, x.2.2.1, x.2.2.2⟩,
      x.1.2.1⟩)
    (fun s => ((s.record.role, s.live, s.record.flags),
      (s.record.partFirst, s.record.partCount, s.record.callFirst, s.record.callCount),
      (s.record.tcidStart, s.record.tcidEnd)))
    (fun _ => rfl)

def kSaveSlotBytes : Nat := 32

theorem width_slotCodec : slotCodec.width = kSaveSlotBytes := rfl

def save (s : HistoryStore) : Bytes :=
  kSaveMagic ++ u32.encodeAll [BitVec.ofNat 32 s.size, BitVec.ofNat 32 s.slots.length,
      BitVec.ofNat 32 s.arena.length, BitVec.ofNat 32 s.parts.length,
      BitVec.ofNat 32 s.calls.length, 0] ++
    s.arena ++ slotCodec.encodeAll s.slots ++ partCodec.encodeAll s.parts ++
    callCodec.encodeAll s.calls

/-- The check of `load` on a slot. -/
def SlotOk (arenaLen partTotal callTotal : Nat) (slot : Slot) : Prop :=
  slot.record.role.toNat ≤ kRoleTool.toNat ∧ slot.record.InTables partTotal callTotal ∧
    (0 ≤ slot.record.tcidStart.toInt → SpanOk slot.record.tcidStart slot.record.tcidEnd arenaLen) ∧
    (¬ 0 ≤ slot.record.tcidStart.toInt → slot.record.tcidStart = -1 ∧ slot.record.tcidEnd = -1)

instance (arenaLen partTotal callTotal : Nat) (slot : Slot) :
    Decidable (SlotOk arenaLen partTotal callTotal slot) :=
  inferInstanceAs (Decidable (_ ∧ _ ∧ (_ → _) ∧ (_ → _)))

/-- The indices of the live slots. -/
def liveOrder (slots : List Slot) : List Nat :=
  (List.range slots.length).filter fun i => (slots[i]?).any (·.live ≠ 0)

/-- The contents `load` decodes, before any check: arena, slots and tables. -/
def decode (blob : Bytes) : Tables × List Slot :=
  let slotCount := (u32.decode (blob.drop 12)).toNat
  let arenaLen := (u32.decode (blob.drop 16)).toNat
  let partTotal := (u32.decode (blob.drop 20)).toNat
  let callTotal := (u32.decode (blob.drop 24)).toNat
  let p := blob.drop kSaveHeaderBytes
  let slotTable := p.drop arenaLen
  let partTable := slotTable.drop (slotCount * kSaveSlotBytes)
  let callTable := partTable.drop (partTotal * kKmb2PartBytes)
  (⟨p.take arenaLen, partCodec.readAll partTable partTotal, callCodec.readAll callTable callTotal⟩,
    slotCodec.readAll slotTable slotCount)

/-- The size the header asks for. -/
def requiredBytes (blob : Bytes) : Nat :=
  kSaveHeaderBytes + (u32.decode (blob.drop 16)).toNat +
    (u32.decode (blob.drop 12)).toNat * kSaveSlotBytes +
    (u32.decode (blob.drop 20)).toNat * kKmb2PartBytes +
    (u32.decode (blob.drop 24)).toNat * kKmb2CallBytes

/-- `load`; only seven bytes of the magic are compared. -/
def load (s : HistoryStore) (blob : Bytes) : Bool × HistoryStore :=
  if blob.length < kSaveHeaderBytes then (false, s)
  else if blob.take 7 ≠ kSaveMagic.take 7 then (false, s)
  else if requiredBytes blob > blob.length then (false, s)
  else
    let t := (decode blob).1
    let slots := (decode blob).2
    if ¬ slots.all (SlotOk t.arena.length t.parts.length t.calls.length) then (false, s)
    else if ¬ t.parts.all (PartRecord.Ok t.arena.length) then (false, s)
    else if ¬ t.calls.all (CallRecord.Ok t.arena.length) then (false, s)
    else if (liveOrder slots).length ≠ (u32.decode (blob.drop 8)).toNat then (false, s)
    else (true, { s.withTables t with slots, order := liveOrder slots }.invalidate)

end HistoryStore

end KimixNative.Soul
