import KimixNative.Soul.MessageView

/-!
# Writing messages into an arena

Three writers of this library lay messages out in the same way: the KMB2 encoder, the
history store and its compaction. `emit` is what they have in common: the texts of a message
are appended to the arena and records of their spans to the tables. `readMessage` is what
they share on the other side. A message that has been emitted is read back from any tables
that extend the ones it was emitted into, as long as the arena is within the signed 32-bit
range and the tables within the unsigned one.
-/

namespace KimixNative.Soul

/-- Run a reader at `count` consecutive indices. -/
def readRange {α : Type} (read : Nat → Option α) : Nat → Nat → Option (List α)
  | _, 0 => some []
  | first, count + 1 =>
    (read first).bind fun a => (readRange read (first + 1) count).map (a :: ·)

variable {α : Type}

variable {as : List α} {first i : Nat} {read : Nat → Option α}

variable {count : Nat}

/-- A reader that answers with the image of another one's answers. -/
theorem readRange_map {β : Type} {read' : Nat → Option β} {f : α → β}
    (h : ∀ i a, read i = some a → read' i = some (f a)) (hr : readRange read first count = some as) :
    readRange read' first count = some (as.map f) := by
  induction count generalizing first as with
  | zero =>
    obtain rfl := Option.some.inj hr
    rfl
  | succ count ih =>
    obtain ⟨a, ha, hrest⟩ := Option.bind_eq_some_iff.mp hr
    obtain ⟨as', has', rfl⟩ := Option.map_eq_some_iff.mp hrest
    rw [readRange, h first a ha, Option.bind_some, ih has', Option.map_some, List.map_cons]

/-- Reading on the larger side gives what reading on the smaller side gave. -/
theorem readRange_mono {read' : Nat → Option α} (h : ∀ i a, read i = some a → read' i = some a)
    (hr : readRange read first count = some as) : readRange read' first count = some as := by
  have hmap := readRange_map (f := id) h hr
  rwa [List.map_id] at hmap

theorem readRange_isSome (h : ∀ i < count, ∃ a, read (first + i) = some a) :
    ∃ as, readRange read first count = some as := by
  induction count generalizing first with
  | zero => exact ⟨[], rfl⟩
  | succ count ih =>
    obtain ⟨a, ha⟩ := h 0 (Nat.succ_pos count)
    obtain ⟨as, has⟩ := @ih (first + 1) fun i hi => by
      have := h (i + 1) (Nat.succ_lt_succ hi)
      rwa [← Nat.add_assoc, Nat.add_right_comm] at this
    rw [Nat.add_zero] at ha
    exact ⟨a :: as, by rw [readRange, ha, Option.bind_some, has, Option.map_some]⟩

theorem readRange_eq_some (h : ∀ (i : Nat) a, as[i]? = some a → read (first + i) = some a) :
    readRange read first as.length = some as := by
  induction as generalizing first with
  | nil => rfl
  | cons a as ih =>
    have hhead := h 0 a rfl
    rw [Nat.add_zero] at hhead
    have hrest := @ih (first + 1) fun i b hb => by
      have := h (i + 1) b (by simpa using hb)
      rwa [← Nat.add_assoc, Nat.add_right_comm] at this
    rw [List.length_cons, readRange, hhead, Option.bind_some, hrest, Option.map_some]

theorem length_readRange (h : readRange read first count = some as) : as.length = count := by
  induction count generalizing first as with
  | zero =>
    obtain rfl := Option.some.inj h
    rfl
  | succ count ih =>
    obtain ⟨a, -, hrest⟩ := Option.bind_eq_some_iff.mp h
    obtain ⟨as', has', rfl⟩ := Option.map_eq_some_iff.mp hrest
    rw [List.length_cons, ih has']

theorem mem_readRange (h : readRange read first count = some as) {a : α} (ha : a ∈ as) :
    ∃ i, read i = some a := by
  induction count generalizing first as with
  | zero =>
    obtain rfl := Option.some.inj h
    cases ha
  | succ count ih =>
    obtain ⟨b, hb, hrest⟩ := Option.bind_eq_some_iff.mp h
    obtain ⟨as', has', rfl⟩ := Option.map_eq_some_iff.mp hrest
    obtain rfl | ha := List.mem_cons.mp ha
    · exact ⟨first, hb⟩
    · exact ih has' ha

theorem getElem?_of_prefix {l l' : List α} (h : l <+: l') {a : α} (hget : l[i]? = some a) :
    l'[i]? = some a := by
  obtain ⟨rest, rfl⟩ := h
  rw [List.getElem?_append_left (List.getElem?_eq_some_iff.mp hget).1, hget]

/-- An arena and the part and call tables over it. -/
structure Tables where
  arena : Bytes := []
  parts : List PartRecord := []
  calls : List CallRecord := []
  deriving DecidableEq, Repr

namespace Tables

/-! ### Reading -/

/-- The text of a span, if the span lies inside the arena. -/
def readSpan (t : Tables) (start stop : BitVec 32) : Option Bytes :=
  if SpanOk start stop t.arena.length then some (slice t.arena start stop) else none

def readPart (t : Tables) (i : Nat) : Option Part :=
  (t.parts[i]?).bind fun r =>
    (t.readSpan r.start r.stop).map fun text => ⟨PartKind.ofByte r.kind, text⟩

/-- An optional text: absent when the start is negative. -/
def readOptional (t : Tables) (start stop : BitVec 32) : Option (Option Bytes) :=
  if 0 ≤ start.toInt then (t.readSpan start stop).map some else some none

def readCall (t : Tables) (i : Nat) : Option Call :=
  (t.calls[i]?).bind fun r =>
    (t.readSpan r.idS r.idE).bind fun id =>
      (t.readSpan r.nameS r.nameE).bind fun name =>
        (t.readOptional r.argsS r.argsE).map fun args => ⟨id, name, args⟩

/-- The message of a record; indices are 32-bit sums. -/
def readMessage (t : Tables) (r : MessageRecord) : Option Message :=
  (readRange (fun i => t.readPart (i % 2 ^ 32)) r.partFirst.toNat r.partCount.toNat).bind
    fun parts =>
      (readRange (fun i => t.readCall (i % 2 ^ 32)) r.callFirst.toNat r.callCount.toNat).bind
        fun calls =>
          (t.readOptional r.tcidStart r.tcidEnd).map fun tcid => ⟨r.role, parts, calls, tcid⟩

/-- The second tables have everything of the first, in the same places. -/
structure Extends (t t' : Tables) : Prop where
  arena : t.arena <+: t'.arena
  parts : t.parts <+: t'.parts
  calls : t.calls <+: t'.calls

theorem Extends.refl (t : Tables) : t.Extends t :=
  ⟨List.prefix_rfl, List.prefix_rfl, List.prefix_rfl⟩

theorem Extends.trans {t₁ t₂ t₃ : Tables} (h : t₁.Extends t₂) (h' : t₂.Extends t₃) :
    t₁.Extends t₃ := ⟨h.arena.trans h'.arena, h.parts.trans h'.parts, h.calls.trans h'.calls⟩

section Mono

variable {t t' : Tables} (h : t.Extends t')

include h

theorem Extends.readSpan {start stop : BitVec 32} {text : Bytes}
    (hr : t.readSpan start stop = some text) : t'.readSpan start stop = some text := by
  unfold Tables.readSpan at hr ⊢
  split_ifs at hr with hok
  rw [if_pos (hok.mono h.arena.length_le), slice_of_prefix hok h.arena, hr]

theorem Extends.readPart {part : Part} (hr : t.readPart i = some part) :
    t'.readPart i = some part := by
  obtain ⟨r, hget, hspan⟩ := Option.bind_eq_some_iff.mp hr
  obtain ⟨text, htext, rfl⟩ := Option.map_eq_some_iff.mp hspan
  rw [Tables.readPart, getElem?_of_prefix h.parts hget, Option.bind_some, h.readSpan htext,
    Option.map_some]

theorem Extends.readOptional {start stop : BitVec 32} {text : Option Bytes}
    (hr : t.readOptional start stop = some text) : t'.readOptional start stop = some text := by
  unfold Tables.readOptional at hr ⊢
  split_ifs at hr ⊢
  · obtain ⟨bytes, hbytes, rfl⟩ := Option.map_eq_some_iff.mp hr
    rw [h.readSpan hbytes, Option.map_some]
  · exact hr

theorem Extends.readCall {call : Call} (hr : t.readCall i = some call) :
    t'.readCall i = some call := by
  obtain ⟨r, hget, hr⟩ := Option.bind_eq_some_iff.mp hr
  obtain ⟨id, hid, hr⟩ := Option.bind_eq_some_iff.mp hr
  obtain ⟨name, hname, hr⟩ := Option.bind_eq_some_iff.mp hr
  obtain ⟨args, hargs, rfl⟩ := Option.map_eq_some_iff.mp hr
  rw [Tables.readCall, getElem?_of_prefix h.calls hget, Option.bind_some, h.readSpan hid,
    Option.bind_some, h.readSpan hname, Option.bind_some, h.readOptional hargs, Option.map_some]

variable {m : Message}

/-- Messages stay readable when the tables grow. -/
theorem Extends.readMessage {r : MessageRecord} (hr : t.readMessage r = some m) :
    t'.readMessage r = some m := by
  obtain ⟨parts, hparts, hr⟩ := Option.bind_eq_some_iff.mp hr
  obtain ⟨calls, hcalls, hr⟩ := Option.bind_eq_some_iff.mp hr
  obtain ⟨tcid, htcid, rfl⟩ := Option.map_eq_some_iff.mp hr
  rw [Tables.readMessage, readRange_mono (fun i _ => h.readPart) hparts, Option.bind_some,
    readRange_mono (fun i _ => h.readCall) hcalls, Option.bind_some, h.readOptional htcid,
    Option.map_some]

end Mono

/-! ### Writing -/

/-- The record of a text that is appended next. -/
def partRecord (arena : Bytes) (p : Part) : PartRecord :=
  ⟨BitVec.ofNat 32 arena.length, BitVec.ofNat 32 (arena.length + p.text.length), p.kind.toByte, 0⟩

def emitPart (t : Tables) (p : Part) : Tables :=
  { t with arena := t.arena ++ p.text, parts := t.parts ++ [partRecord t.arena p] }

/-- The span of an optional text, `-1` to `-1` when it is absent. -/
def optionalSpan (arena : Bytes) : Option Bytes → BitVec 32 × BitVec 32
  | none => (-1, -1)
  | some text => (BitVec.ofNat 32 arena.length, BitVec.ofNat 32 (arena.length + text.length))

def callRecord (arena : Bytes) (c : Call) : CallRecord :=
  let named := arena.length + c.id.length
  let args := optionalSpan (arena ++ c.id ++ c.name) c.arguments
  ⟨BitVec.ofNat 32 arena.length, BitVec.ofNat 32 named, BitVec.ofNat 32 named,
    BitVec.ofNat 32 (named + c.name.length), args.1, args.2⟩

def emitCall (t : Tables) (c : Call) : Tables :=
  { t with arena := t.arena ++ c.id ++ c.name ++ c.arguments.getD [],
           calls := t.calls ++ [callRecord t.arena c] }

/-- The flags of a message record. -/
def messageFlags (m : Message) : BitVec 8 :=
  (if m.toolCallId.isSome then kKmb2MsgHasToolCallId else 0) |||
    (if m.parts.any (·.kind = .think) then kKmb2MsgHasThink else 0) |||
    (if m.calls.isEmpty then 0 else kKmb2MsgHasToolCalls)

/-- The record of a message that is written next. -/
def messageRecord (t : Tables) (m : Message) : MessageRecord :=
  let tcid := optionalSpan t.arena m.toolCallId
  ⟨m.role, messageFlags m, BitVec.ofNat 32 t.parts.length, BitVec.ofNat 32 m.parts.length,
    BitVec.ofNat 32 t.calls.length, BitVec.ofNat 32 m.calls.length, tcid.1, tcid.2⟩

/-- The tables after a message has been written: its id, its parts, its calls. -/
def emit (t : Tables) (m : Message) : Tables :=
  m.calls.foldl emitCall
    (m.parts.foldl emitPart { t with arena := t.arena ++ m.toolCallId.getD [] })

/-- The signed spans and the unsigned indices hold what they are given. -/
structure Fits (t : Tables) : Prop where
  arena : t.arena.length ≤ int32Max
  parts : t.parts.length < 2 ^ 32
  calls : t.calls.length < 2 ^ 32

theorem Extends.fits {t t' : Tables} (h : t.Extends t') (hf : t'.Fits) : t.Fits :=
  ⟨le_trans h.arena.length_le hf.arena, lt_of_le_of_lt h.parts.length_le hf.parts,
    lt_of_le_of_lt h.calls.length_le hf.calls⟩

theorem extends_emitPart (t : Tables) (p : Part) : t.Extends (t.emitPart p) :=
  ⟨List.prefix_append _ _, List.prefix_append _ _, List.prefix_rfl⟩

theorem extends_emitCall (t : Tables) (c : Call) : t.Extends (t.emitCall c) := by
  refine ⟨?_, List.prefix_rfl, List.prefix_append _ _⟩
  rw [emitCall, List.append_assoc, List.append_assoc]
  exact List.prefix_append _ _

variable {f : Tables → α → Tables}

theorem extends_foldl (hf : ∀ t a, Extends t (f t a)) (t : Tables) (as : List α) :
    t.Extends (as.foldl f t) := by
  induction as generalizing t with
  | nil => exact .refl t
  | cons a as ih => exact (hf t a).trans (ih (f t a))

theorem extends_emit (t : Tables) (m : Message) : t.Extends (t.emit m) := by
  refine Extends.trans ?_ ((extends_foldl extends_emitPart _ m.parts).trans
    (extends_foldl extends_emitCall _ m.calls))
  exact ⟨List.prefix_append _ _, List.prefix_rfl, List.prefix_rfl⟩

/-! ### Reading back -/

theorem readSpan_append {t : Tables} {a b c : Bytes} (h : t.arena = a ++ b ++ c)
    (hfit : t.arena.length ≤ int32Max) :
    t.readSpan (BitVec.ofNat 32 a.length) (BitVec.ofNat 32 (a.length + b.length)) = some b := by
  have hlen : a.length + b.length ≤ t.arena.length := by
    rw [h]
    simp only [List.length_append]
    omega
  rw [readSpan, if_pos (spanOk_ofNat (Nat.le_add_right _ _) hlen hfit), h,
    slice_of_prefix (spanOk_ofNat (Nat.le_add_right _ _) (by simp) (by
      simp only [List.length_append]; omega)) (List.prefix_append _ _),
    slice_append (le_trans hlen hfit)]

theorem readOptional_append {t : Tables} {a c : Bytes} {b : Option Bytes}
    (h : t.arena = a ++ b.getD [] ++ c) (hfit : t.arena.length ≤ int32Max) :
    t.readOptional (optionalSpan a b).1 (optionalSpan a b).2 = some b := by
  cases b with
  | none => rfl
  | some text =>
    have hlen : a.length ≤ t.arena.length := by
      rw [h]
      simp only [List.length_append]
      omega
    have hspan : t.readSpan (BitVec.ofNat 32 a.length)
        (BitVec.ofNat 32 (a.length + text.length)) = some text := readSpan_append h hfit
    have hstart : 0 ≤ (BitVec.ofNat 32 a.length).toInt := by
      rw [toInt_ofNat (le_trans hlen hfit)]
      omega
    simp only [optionalSpan, readOptional, if_pos hstart, hspan, Option.map_some]

variable {T : Tables} {ms : List Message}

theorem readPart_emitPart {t : Tables} {p : Part} (h : (t.emitPart p).Extends T)
    (hfit : T.arena.length ≤ int32Max) : T.readPart t.parts.length = some p := by
  refine h.readPart ?_
  have hget : (t.emitPart p).parts[t.parts.length]? = some (partRecord t.arena p) := by
    simp [emitPart]
  rw [readPart, hget, Option.bind_some, partRecord,
    readSpan_append (a := t.arena) (b := p.text) (c := []) (by simp [emitPart])
      (le_trans h.arena.length_le hfit), Option.map_some, PartKind.ofByte_toByte]

theorem readCall_emitCall {t : Tables} {c : Call} (h : (t.emitCall c).Extends T)
    (hfit : T.arena.length ≤ int32Max) : T.readCall t.calls.length = some c := by
  refine h.readCall ?_
  have hfit' := le_trans h.arena.length_le hfit
  have hget : (t.emitCall c).calls[t.calls.length]? = some (callRecord t.arena c) := by
    simp [emitCall]
  have hid := readSpan_append (t := t.emitCall c) (a := t.arena) (b := c.id)
    (c := c.name ++ c.arguments.getD []) (by simp [emitCall]) hfit'
  have hname := readSpan_append (t := t.emitCall c) (a := t.arena ++ c.id) (b := c.name)
    (c := c.arguments.getD []) (by simp [emitCall]) hfit'
  have hargs := readOptional_append (t := t.emitCall c) (a := t.arena ++ c.id ++ c.name)
    (b := c.arguments) (c := []) (by simp [emitCall]) hfit'
  rw [List.length_append] at hname
  rw [readCall, hget, Option.bind_some]
  simp only [callRecord, hid, hname, hargs, Option.bind_some, Option.map_some]

/-- Records written one after the other by `f` at the index `k` are read back by `g`. -/
theorem readRange_foldl {g : Tables → Nat → Option α} {k : Tables → Nat}
    (hindex : ∀ t a, k (f t a) = k t + 1) (hextends : ∀ t a, Extends t (f t a))
    (hbound : ∀ t, Extends t T → k t < 2 ^ 32)
    (hread : ∀ t a, (f t a).Extends T → g T (k t) = some a) {t : Tables}
    (h : (as.foldl f t).Extends T) :
    readRange (fun i => g T (i % 2 ^ 32)) (k t) as.length = some as := by
  induction as generalizing t with
  | nil => rfl
  | cons a as ih =>
    have hstep : (f t a).Extends T := (extends_foldl hextends (f t a) as).trans h
    have hlt := hbound t ((hextends t a).trans hstep)
    have hrest := ih h
    rw [hindex] at hrest
    rw [List.length_cons, readRange, Nat.mod_eq_of_lt hlt, hread t a hstep, Option.bind_some,
      hrest, Option.map_some]

theorem parts_foldl_emitCall (t : Tables) (calls : List Call) :
    (calls.foldl emitCall t).parts = t.parts := by
  induction calls generalizing t with
  | nil => rfl
  | cons c calls ih => exact ih (t.emitCall c)

theorem calls_foldl_emitPart (t : Tables) (parts : List Part) :
    (parts.foldl emitPart t).calls = t.calls := by
  induction parts generalizing t with
  | nil => rfl
  | cons p parts ih => exact ih (t.emitPart p)

theorem length_parts_foldl (t : Tables) (parts : List Part) :
    (parts.foldl emitPart t).parts.length = t.parts.length + parts.length := by
  induction parts generalizing t with
  | nil => rfl
  | cons p parts ih =>
    rw [List.foldl_cons, ih, List.length_cons, emitPart, List.length_append,
      List.length_singleton]
    omega

theorem length_calls_foldl (t : Tables) (calls : List Call) :
    (calls.foldl emitCall t).calls.length = t.calls.length + calls.length := by
  induction calls generalizing t with
  | nil => rfl
  | cons c calls ih =>
    rw [List.foldl_cons, ih, List.length_cons, emitCall, List.length_append,
      List.length_singleton]
    omega

theorem length_parts_emit (t : Tables) (m : Message) :
    (t.emit m).parts.length = t.parts.length + m.parts.length := by
  rw [emit, parts_foldl_emitCall, length_parts_foldl]

theorem length_calls_emit (t : Tables) (m : Message) :
    (t.emit m).calls.length = t.calls.length + m.calls.length := by
  rw [emit, length_calls_foldl, calls_foldl_emitPart]

theorem length_arena_foldl_emitPart (t : Tables) (parts : List Part) :
    (parts.foldl emitPart t).arena.length =
      t.arena.length + (parts.map fun p => p.text.length).sum := by
  induction parts generalizing t with
  | nil => rfl
  | cons p parts ih =>
    rw [List.foldl_cons, ih, List.map_cons, List.sum_cons, emitPart, List.length_append]
    omega

theorem length_arena_foldl_emitCall (t : Tables) (calls : List Call) :
    (calls.foldl emitCall t).arena.length = t.arena.length + (calls.map Call.size).sum := by
  induction calls generalizing t with
  | nil => rfl
  | cons c calls ih =>
    rw [List.foldl_cons, ih, List.map_cons, List.sum_cons, emitCall, Call.size]
    simp only [List.length_append]
    omega

theorem length_arena_emit (t : Tables) (m : Message) :
    (t.emit m).arena.length = t.arena.length + m.size := by
  rw [emit, length_arena_foldl_emitCall, length_arena_foldl_emitPart, Message.size,
    List.length_append]
  omega

/-- A message that has been emitted is read back. -/
theorem readMessage_emit {t : Tables} (h : (t.emit m).Extends T) (hfit : T.Fits) :
    T.readMessage (t.messageRecord m) = some m := by
  have hemit := h.fits hfit
  have hparts := length_parts_emit t m
  have hcalls := length_calls_emit t m
  have hboundp := hemit.parts
  have hboundc := hemit.calls
  let t₁ : Tables := { t with arena := t.arena ++ m.toolCallId.getD [] }
  have hcallsT : (m.calls.foldl emitCall (m.parts.foldl emitPart t₁)).Extends T := h
  have hpartsT : (m.parts.foldl emitPart t₁).Extends T :=
    (extends_foldl extends_emitCall _ m.calls).trans hcallsT
  have readParts := readRange_foldl (k := fun t => t.parts.length) (g := readPart)
    (fun t p => by simp [emitPart]) extends_emitPart
    (fun t ht => (ht.fits hfit).parts) (fun t p hp => readPart_emitPart hp hfit.arena) hpartsT
  have readCalls := readRange_foldl (k := fun t => t.calls.length) (g := readCall)
    (fun t c => by simp [emitCall]) extends_emitCall
    (fun t ht => (ht.fits hfit).calls) (fun t c hc => readCall_emitCall hc hfit.arena) hcallsT
  rw [calls_foldl_emitPart] at readCalls
  have hinitial : t₁.arena <+: T.arena :=
    ((extends_foldl extends_emitPart t₁ m.parts).trans hpartsT).arena
  obtain ⟨after, hafter⟩ := hinitial
  have readTcid := readOptional_append (t := T) (a := t.arena) (b := m.toolCallId)
    (c := after) hafter.symm hfit.arena
  rw [readMessage, messageRecord]
  simp only
  rw [toNat_ofNat (by omega), toNat_ofNat (by omega), toNat_ofNat (by omega),
    toNat_ofNat (by omega), readParts, Option.bind_some, readCalls, Option.bind_some, readTcid,
    Option.map_some]

/-! ### Valid tables -/

/-- Every record of the tables can be read. -/
structure Valid (t : Tables) : Prop where
  parts : ∀ r ∈ t.parts, r.Ok t.arena.length
  calls : ∀ r ∈ t.calls, r.Ok t.arena.length

theorem valid_empty : Valid {} where
  parts := fun _ h => absurd h List.not_mem_nil
  calls := fun _ h => absurd h List.not_mem_nil

/-- Tables over a longer arena. -/
theorem Valid.append {t : Tables} (h : t.Valid) (text : Bytes) :
    Valid { t with arena := t.arena ++ text } where
  parts := by
    intro r hr
    exact (h.parts r hr).mono (by simp)
  calls := by
    intro r hr
    exact (h.calls r hr).mono (by simp)

theorem partRecord_ok (arena : Bytes) (p : Part) (hfit : arena.length + p.text.length ≤ int32Max) :
    (partRecord arena p).Ok (arena.length + p.text.length) :=
  ⟨spanOk_ofNat (Nat.le_add_right _ _) le_rfl hfit, p.kind.toByte_le⟩

theorem callRecord_ok (arena : Bytes) (c : Call) (hfit : arena.length + c.size ≤ int32Max) :
    (callRecord arena c).Ok (arena.length + c.size) := by
  unfold Call.size at hfit ⊢
  refine ⟨spanOk_ofNat (Nat.le_add_right _ _) (by omega) hfit,
    spanOk_ofNat (Nat.le_add_right _ _) (by omega) hfit, ?_⟩
  intro hargs
  cases hc : c.arguments with
  | none =>
    simp only [callRecord, hc, optionalSpan] at hargs
    exact absurd hargs (by decide)
  | some args =>
    rw [hc] at hfit
    simp only [callRecord, hc, optionalSpan, List.length_append]
    exact spanOk_ofNat (Nat.le_add_right _ _)
      (by simp only [Option.getD_some]; omega) (by simpa using hfit)

theorem Valid.emitPart {t : Tables} (h : t.Valid) {p : Part}
    (hfit : (t.emitPart p).arena.length ≤ int32Max) : (t.emitPart p).Valid := by
  have hold := h.append p.text
  have hlen : (t.emitPart p).arena.length = t.arena.length + p.text.length := List.length_append
  refine ⟨?_, hold.calls⟩
  intro r hr
  obtain hr | hr := List.mem_append.mp hr
  · exact hold.parts r hr
  · obtain rfl := List.mem_singleton.mp hr
    rw [hlen]
    exact partRecord_ok t.arena p (hlen ▸ hfit)

theorem Valid.emitCall {t : Tables} (h : t.Valid) {c : Call}
    (hfit : (t.emitCall c).arena.length ≤ int32Max) : (t.emitCall c).Valid := by
  have hlen : (t.emitCall c).arena.length = t.arena.length + c.size := by
    rw [Tables.emitCall, Call.size]
    simp only [List.length_append]
    omega
  have hgrow : t.arena.length ≤ (t.emitCall c).arena.length := by omega
  refine ⟨fun r hr => (h.parts r hr).mono hgrow, ?_⟩
  intro r hr
  obtain hr | hr := List.mem_append.mp hr
  · exact (h.calls r hr).mono hgrow
  · obtain rfl := List.mem_singleton.mp hr
    rw [hlen]
    exact callRecord_ok t.arena c (hlen ▸ hfit)

/-- What every step keeps that fits, a fold keeps that fits. -/
theorem foldl_keeps {P : Tables → Prop} (hextends : ∀ t a, Extends t (f t a))
    (hf : ∀ t a, P t → (f t a).arena.length ≤ int32Max → P (f t a)) {t : Tables} (h : P t)
    (as : List α) (hfit : (as.foldl f t).arena.length ≤ int32Max) : P (as.foldl f t) := by
  induction as generalizing t with
  | nil => exact h
  | cons a as ih =>
    refine ih (hf t a h ?_) hfit
    exact le_trans (extends_foldl hextends (f t a) as).arena.length_le hfit

/-- Emitting keeps the tables valid. -/
theorem Valid.emit {t : Tables} (h : t.Valid) (hfit : (t.emit m).arena.length ≤ int32Max) :
    (t.emit m).Valid := by
  have hparts := le_trans (extends_foldl extends_emitCall _ m.calls).arena.length_le hfit
  exact foldl_keeps extends_emitCall (fun _ _ ht => ht.emitCall)
    (foldl_keeps extends_emitPart (fun _ _ ht => ht.emitPart) (h.append _) m.parts hparts)
    m.calls hfit

/-! ### A list of messages -/

/-- The tables after several messages. -/
def emitAll (t : Tables) (ms : List Message) : Tables := ms.foldl emit t

/-- Their records. -/
def records : Tables → List Message → List MessageRecord
  | _, [] => []
  | t, m :: ms => t.messageRecord m :: records (t.emit m) ms

theorem extends_emitAll (t : Tables) (ms : List Message) : t.Extends (t.emitAll ms) :=
  extends_foldl extends_emit t ms

theorem length_arena_emitAll (t : Tables) (ms : List Message) :
    (t.emitAll ms).arena.length = t.arena.length + (ms.map Message.size).sum := by
  induction ms generalizing t with
  | nil => rfl
  | cons m ms ih =>
    rw [emitAll, List.foldl_cons, ← emitAll, ih, length_arena_emit, List.map_cons, List.sum_cons]
    omega

theorem length_parts_emitAll (t : Tables) (ms : List Message) :
    (t.emitAll ms).parts.length = t.parts.length + (ms.map fun m => m.parts.length).sum := by
  induction ms generalizing t with
  | nil => rfl
  | cons m ms ih =>
    rw [emitAll, List.foldl_cons, ← emitAll, ih, length_parts_emit, List.map_cons, List.sum_cons]
    omega

theorem length_calls_emitAll (t : Tables) (ms : List Message) :
    (t.emitAll ms).calls.length = t.calls.length + (ms.map fun m => m.calls.length).sum := by
  induction ms generalizing t with
  | nil => rfl
  | cons m ms ih =>
    rw [emitAll, List.foldl_cons, ← emitAll, ih, length_calls_emit, List.map_cons, List.sum_cons]
    omega

@[simp] theorem length_records (t : Tables) (ms : List Message) :
    (records t ms).length = ms.length := by
  induction ms generalizing t with
  | nil => rfl
  | cons m ms ih => rw [records, List.length_cons, ih, List.length_cons]

theorem Valid.emitAll {t : Tables} (h : t.Valid) (hfit : (t.emitAll ms).arena.length ≤ int32Max) :
    (t.emitAll ms).Valid :=
  foldl_keeps extends_emit (fun _ _ ht => ht.emit) h ms hfit

/-- What holds of the record of every message in a list, from what holds of one. -/
theorem records_spec {P : MessageRecord → Message → Prop} {t : Tables}
    (hP : ∀ t, ∀ m ∈ ms, (emit t m).Extends T → P (t.messageRecord m) m)
    (h : (t.emitAll ms).Extends T) (hm : ms[i]? = some m) :
    ∃ r, (records t ms)[i]? = some r ∧ P r m := by
  induction ms generalizing t i with
  | nil => cases hm
  | cons m' ms ih =>
    have hrest : ((t.emit m').emitAll ms).Extends T := h
    cases i with
    | zero =>
      obtain rfl : m' = m := by simpa using hm
      exact ⟨_, rfl, hP t m' List.mem_cons_self ((extends_emitAll _ ms).trans hrest)⟩
    | succ i =>
      exact ih (fun t m hmem => hP t m (List.mem_cons_of_mem _ hmem)) hrest (by simpa using hm)

/-- The ranges of an emitted record lie inside the tables. -/
theorem messageRecord_inTables {t : Tables} (h : (t.emit m).Extends T) (hfit : T.Fits) :
    (t.messageRecord m).InTables T.parts.length T.calls.length := by
  have hparts := length_parts_emit t m
  have hcalls := length_calls_emit t m
  have h1 := h.parts.length_le
  have h2 := h.calls.length_le
  have h3 := hfit.parts
  have h4 := hfit.calls
  constructor
  · show (BitVec.ofNat 32 t.parts.length).toNat + (BitVec.ofNat 32 m.parts.length).toNat ≤ _
    rw [toNat_ofNat (by omega), toNat_ofNat (by omega)]
    omega
  · show (BitVec.ofNat 32 t.calls.length).toNat + (BitVec.ofNat 32 m.calls.length).toNat ≤ _
    rw [toNat_ofNat (by omega), toNat_ofNat (by omega)]
    omega

/-- The span of an emitted tool-call id. -/
theorem messageRecord_tcid {t : Tables} (h : (t.emit m).Extends T)
    (hfit : T.arena.length ≤ int32Max) :
    (m.toolCallId = none → (t.messageRecord m).tcidStart = -1 ∧ (t.messageRecord m).tcidEnd = -1) ∧
      (m.toolCallId ≠ none →
        SpanOk (t.messageRecord m).tcidStart (t.messageRecord m).tcidEnd T.arena.length) := by
  cases hid : m.toolCallId with
  | none =>
    refine ⟨fun _ => ?_, fun hne => absurd rfl hne⟩
    simp [messageRecord, hid, optionalSpan]
  | some text =>
    refine ⟨fun hnone => absurd hnone (Option.some_ne_none text), fun _ => ?_⟩
    have hlen := length_arena_emit t m
    have hle := h.arena.length_le
    have hsize : text.length ≤ m.size := by
      unfold Message.size
      rw [hid]
      simp only [Option.getD_some]
      omega
    simp only [messageRecord, hid, optionalSpan]
    exact spanOk_ofNat (Nat.le_add_right _ _) (by omega) hfit

end Tables

end KimixNative.Soul
