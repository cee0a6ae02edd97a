import KimixNative.Soul.MessageView
import KimixNative.Lib.Run

/-!
# The session store

Sessions own rings of parts whose texts live in one arena. Appending drops the oldest parts
of the session beyond its budget and then evicts whole sessions, the least recently used
first, beyond the total budget. Dropped texts stay in the arena as dead bytes until it is
compacted, which closing and appending do when a quarter of its capacity is dead. Byte counts
have 64 bits.

The capacity of the arena is the allocator's choice: `capacity n` is what it answers when it
is asked for the `n`-th time. Rendering and the capacities of the other containers are left
out. `none` stands for a loop that never ends (a 32-bit index that runs
up to a larger size) and for a read outside the arena.
-/

namespace KimixNative.Soul

/-- The twelve texts of a part, in the order in which they are stored. -/
structure PartFields (α : Type) where
  sessionId : α
  messageId : α
  partId : α
  callId : α
  tool : α
  text : α
  stateJson : α
  promptJson : α
  tokensJson : α
  timeJson : α
  snapshot : α
  reason : α
  deriving DecidableEq, Repr

namespace PartFields

variable {α β σ : Type}

def toList (x : PartFields α) : List α :=
  [x.sessionId, x.messageId, x.partId, x.callId, x.tool, x.text, x.stateJson, x.promptJson,
    x.tokensJson, x.timeJson, x.snapshot, x.reason]

/-- Handle some texts one after the other, with a state. -/
def mapListM (f : α → σ → Option (β × σ)) : List α → σ → Option (List β × σ)
  | [], s => some ([], s)
  | a :: rest, s => (f a s).bind fun x => (mapListM f rest x.2).map fun y => (x.1 :: y.1, y.2)

def ofList : List α → Option (PartFields α)
  | [sessionId, messageId, partId, callId, tool, text, stateJson, promptJson, tokensJson, timeJson,
      snapshot, reason] =>
      some ⟨sessionId, messageId, partId, callId, tool, text, stateJson, promptJson, tokensJson,
        timeJson, snapshot, reason⟩
  | _ => none

/-- Handle the texts one after the other. -/
def mapM (f : α → σ → Option (β × σ)) (x : PartFields α) (s : σ) : Option (PartFields β × σ) :=
  (mapListM f x.toList s).bind fun y => (ofList y.1).map fun fields => (fields, y.2)

end PartFields

/-- Offsets into the arena. -/
structure Span where
  start : BitVec 32
  stop : BitVec 32
  deriving DecidableEq, Repr

/-- `part_record`. -/
structure SessionPartRecord where
  seq : BitVec 32 := 0
  kind : BitVec 8 := 0
  role : BitVec 8 := 1
  /-- The bits of a double. -/
  cost : BitVec 64 := 0
  fields : PartFields StringView
  deriving DecidableEq, Repr

/-- `part_slot`. -/
structure PartSlot where
  seq : BitVec 32
  kind : BitVec 8
  role : BitVec 8
  cost : BitVec 64
  fields : PartFields Span
  deriving DecidableEq, Repr

/-- `session_slot`. -/
structure SessionSlot where
  id : Bytes := []
  parts : List PartSlot := []
  status : BitVec 8 := 0
  nextSeq : BitVec 32 := 1
  bytes : Nat := 0
  dropped : Nat := 0
  gen : Nat := 0
  lru : Nat := 0
  live : Bool := false
  deriving DecidableEq, Repr

structure SessionStore where
  perSessionBudget : Nat
  totalBudget : Nat
  arena : Bytes := []
  deadBytes : Nat := 0
  sessions : List SessionSlot := []
  /-- A stack; the top is at the end. -/
  freeSlots : List Nat := []
  lruCounter : Nat := 0
  liveSessions : Nat := 0
  /-- How often the capacity of the arena has been asked for. -/
  asked : Nat := 0
  deriving DecidableEq, Repr

namespace SessionStore

/-- `UINT32_MAX`, the handle of no session. -/
def noSession : Nat := 2 ^ 32 - 1

/-- `UINT64_MAX`. -/
def maxLru : Nat := 2 ^ 64 - 1

/-! ### Lookups -/

def find (s : SessionStore) (session : Nat) : Option SessionSlot :=
  (s.sessions[session]?).filter (·.live)

/-- `find_by_id`; the loop index has 32 bits. -/
def findById (s : SessionStore) (id : Bytes) : Option Nat :=
  match s.sessions.findIdx? fun x => x.live ∧ x.id = id with
  | some i => if i < 2 ^ 32 then some i else none
  | none => if s.sessions.length < 2 ^ 32 then some noSession else none

/-- The counter after a `touch`. -/
def nextLru (s : SessionStore) : Nat := (s.lruCounter + 1) % 2 ^ 64

/-- Put a slot in place and `touch` it. -/
def touchSlot (s : SessionStore) (session : Nat) (slot : SessionSlot) : SessionStore :=
  { s with sessions := s.sessions.set session { slot with lru := s.nextLru },
           lruCounter := s.nextLru }

/-! ### The arena -/

/-- `put` and the span of the text. -/
def place (v : StringView) (arena : Bytes) : Option (Span × Bytes) :=
  let start := BitVec.ofNat 32 arena.length
  some (⟨start, start + BitVec.ofNat 32 (v.getD []).length⟩, arena ++ v.getD [])

/-- The length of a span, a signed difference widened to 64 bits. -/
def spanBytes (x : Span) : Nat := ((x.stop - x.start).signExtend 64).toNat

def slotBytes (p : PartSlot) : Nat := (p.fields.toList.map spanBytes).sum % 2 ^ 64

/-- `move_span`, out of the old arena. -/
def moveSpan (old : Bytes) (x : Span) (arena : Bytes) : Option (Span × Bytes) :=
  let start := BitVec.ofNat 32 arena.length
  if spanBytes x = 0 then some (⟨start, start⟩, arena)
  else if SpanOk x.start x.stop old.length then
    let arena := arena ++ slice old x.start x.stop
    some (⟨start, BitVec.ofNat 32 arena.length⟩, arena)
  else none

def movePart (old : Bytes) (p : PartSlot) (arena : Bytes) : Option (PartSlot × Bytes) :=
  (p.fields.mapM (moveSpan old) arena).map fun x => ({ p with fields := x.1 }, x.2)

def moveParts (old : Bytes) : List PartSlot → Bytes → Option (List PartSlot × Bytes)
  | [], arena => some ([], arena)
  | p :: rest, arena =>
    (movePart old p arena).bind fun x =>
      (moveParts old rest x.2).map fun y => (x.1 :: y.1, y.2)

/-- The loop of `compact_arena`. -/
def moveSessions (old : Bytes) : List SessionSlot → Bytes → Option (List SessionSlot × Bytes)
  | [], arena => some ([], arena)
  | x :: rest, arena =>
    if x.live then
      (moveParts old x.parts arena).bind fun y =>
        (moveSessions old rest y.2).map fun z => ({ x with parts := y.1 } :: z.1, z.2)
    else (moveSessions old rest arena).map fun z => (x :: z.1, z.2)

def compactArena (s : SessionStore) : Option SessionStore :=
  (moveSessions s.arena s.sessions []).map fun x =>
    { s with sessions := x.1, arena := x.2, deadBytes := 0 }

/-- Compact when a quarter of the capacity is dead. -/
def maybeCompact (capacity : Nat → Nat) (s : SessionStore) : Option SessionStore :=
  let asked := { s with asked := s.asked + 1 }
  if s.deadBytes * 4 % 2 ^ 64 > capacity s.asked then asked.compactArena else some asked

def bytesLive (s : SessionStore) : Nat :=
  (s.sessions.map fun x => if x.live then x.bytes else 0).sum % 2 ^ 64

def sessionCount (s : SessionStore) : Nat := s.liveSessions

/-! ### Sessions -/

/-- The slot for a new session: a free one, or one pushed at the end. -/
def takeSlot (s : SessionStore) : Nat × SessionStore :=
  match s.freeSlots.getLast? with
  | some handle => (handle, { s with freeSlots := s.freeSlots.dropLast })
  | none => (s.sessions.length % 2 ^ 32, { s with sessions := s.sessions ++ [{}] })

def create (s : SessionStore) (id : Bytes) : Option (Nat × SessionStore) :=
  (s.findById id).map fun existing =>
    if existing ≠ noSession then
      (existing, s.touchSlot existing (s.sessions.getD existing {}))
    else
      let (handle, s) := s.takeSlot
      (handle, { s.touchSlot handle { id, live := true } with
                 liveSessions := (s.liveSessions + 1) % 2 ^ 32 })

/-- What `close` does to its slot. -/
def closedSlot (slot : SessionSlot) : SessionSlot :=
  { slot with parts := [], live := false, bytes := 0, id := [] }

def close (capacity : Nat → Nat) (s : SessionStore) (session : Nat) :
    Option (Bool × SessionStore) :=
  match s.find session with
  | none => some (false, s)
  | some slot =>
    let s := { s with
      deadBytes := (s.deadBytes + (slot.parts.map slotBytes).sum) % 2 ^ 64,
      sessions := s.sessions.set session (closedSlot slot),
      freeSlots := s.freeSlots ++ [session],
      liveSessions := s.liveSessions - 1 }
    (s.maybeCompact capacity).map fun s => (true, s)

/-- The loop of `clear`. -/
def closeAll (capacity : Nat → Nat) : List Nat → SessionStore → Option SessionStore
  | [], s => some s
  | i :: rest, s =>
    match s.find i with
    | none => closeAll capacity rest s
    | some _ => (s.close capacity i).bind fun x => closeAll capacity rest x.2

def clear (capacity : Nat → Nat) (s : SessionStore) : Option SessionStore :=
  if s.sessions.length < 2 ^ 32 then
    (closeAll capacity (List.range s.sessions.length) s).map fun s =>
      { s with arena := [], deadBytes := 0, freeSlots := [], sessions := [], liveSessions := 0 }
  else none

/-- The search for the least recently used live session, from index `i` on. -/
def oldestFrom : Nat → List SessionSlot → Nat → Nat → Nat
  | _, [], victim, _ => victim
  | i, x :: rest, victim, oldest =>
    if x.live ∧ x.lru < oldest then oldestFrom (i + 1) rest i x.lru
    else oldestFrom (i + 1) rest victim oldest

/-- The loop of `evict_to_budget`; every round closes a session. -/
def evictLoop (capacity : Nat → Nat) : Nat → SessionStore → Nat → Option (Nat × SessionStore)
  | 0, _, _ => none
  | fuel + 1, s, evicted =>
    if s.bytesLive ≤ s.totalBudget then some (evicted, s)
    else if 2 ^ 32 ≤ s.sessions.length then none
    else
      let victim := oldestFrom 0 s.sessions noSession maxLru
      if victim = noSession then some (evicted, s)
      else (s.close capacity victim).bind fun x =>
        evictLoop capacity fuel x.2 ((evicted + 1) % 2 ^ 32)

def evictToBudget (capacity : Nat → Nat) (s : SessionStore) : Option (Nat × SessionStore) :=
  if s.totalBudget = 0 then some (0, s) else evictLoop capacity (s.sessions.length + 1) s 0

/-! ### Appending -/

/-- The bytes of a record. -/
def incoming (record : SessionPartRecord) : Nat :=
  (record.fields.toList.map fun v => (v.getD []).length).sum

/-- The ring: parts and bytes of a session, dead bytes, dropped parts. -/
def dropOldest (budget : Nat) : List PartSlot → Nat → Nat → Nat → List PartSlot × Nat × Nat × Nat
  | [], bytes, dead, dropped => ([], bytes, dead, dropped)
  | p :: rest, bytes, dead, dropped =>
    if budget ≠ 0 ∧ bytes > budget then
      dropOldest budget rest ((bytes + 2 ^ 64 - slotBytes p) % 2 ^ 64)
        ((dead + slotBytes p) % 2 ^ 64) (dropped + 1)
    else (p :: rest, bytes, dead, dropped)

/-- The part is placed, the ring trimmed; eviction comes after. -/
def pushPart (s : SessionStore) (session : Nat) (slot : SessionSlot) (record : SessionPartRecord) :
    Option SessionStore :=
  let seq := if record.seq ≠ 0 then record.seq else slot.nextSeq
  (record.fields.mapM place s.arena).map fun x =>
    let p : PartSlot := ⟨seq, record.kind, record.role, record.cost, x.1⟩
    let ring := dropOldest s.perSessionBudget (slot.parts ++ [p])
      ((slot.bytes + slotBytes p) % 2 ^ 64) s.deadBytes slot.dropped
    let slot := { slot with parts := ring.1, bytes := ring.2.1, dropped := ring.2.2.2,
                            nextSeq := seq + 1, gen := slot.gen + 1 }
    { s.touchSlot session slot with arena := x.2, deadBytes := ring.2.2.1 }

def append (capacity : Nat → Nat) (s : SessionStore) (session : Nat) (record : SessionPartRecord) :
    Option (Bool × SessionStore) :=
  match s.find session with
  | none => some (false, s)
  | some slot =>
    if s.perSessionBudget ≠ 0 ∧ incoming record > s.perSessionBudget then some (false, s)
    else
      (s.pushPart session slot record).bind fun s =>
        (s.evictToBudget capacity).bind fun x =>
          (x.2.maybeCompact capacity).map fun s => (true, s)

def setStatus (s : SessionStore) (session : Nat) (status : BitVec 8) : SessionStore :=
  match s.find session with
  | none => s
  | some slot => s.touchSlot session { slot with status, gen := slot.gen + 1 }

/-- What `snapshot` does to the store. -/
def snapshot (s : SessionStore) (session : Nat) : SessionStore :=
  match s.find session with
  | none => s
  | some slot => s.touchSlot session slot

end SessionStore

end KimixNative.Soul
