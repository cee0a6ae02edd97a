import KimixNative.Soul.HistoryLoad

/-!
# What the writers of the history store write

`write_message` and `compact` both lay messages out as `Tables.emit` does: the first as long
as the texts fit into the arena, the second from tables that this library has written. A
saved store is loaded back table by table.
-/

namespace KimixNative.Soul

variable {t : Tables}

namespace HistoryStore

open Tables

/-! ### Writing a message -/

section Write

variable {arena : Bytes}

theorem appendBytes_some {v : Bytes} (hfit : arena.length + v.length ≤ int32Max) (ok : Bool) :
    appendBytes arena ok (some v) = (BitVec.ofNat 32 arena.length, arena ++ v, ok) := by
  rw [appendBytes, if_neg (Nat.not_lt.mpr hfit)]

variable {v : StringView}

theorem appendSpan_eq (hfit : arena.length + (v.getD []).length ≤ int32Max) (ok : Bool) :
    appendSpan arena ok v =
      ((BitVec.ofNat 32 arena.length, BitVec.ofNat 32 (arena.length + (v.getD []).length)),
        arena ++ v.getD [], ok) := by
  cases v with
  | none => simp [appendSpan, appendBytes]
  | some v =>
    have hnonneg : ¬ (BitVec.ofNat 32 arena.length).toInt < 0 := by
      rw [toInt_ofNat (le_trans (Nat.le_add_right _ _) hfit)]
      omega
    rw [appendSpan, appendBytes_some (v := v) hfit]
    simp only [if_neg hnonneg, viewLength, BitVec.ofNat_add, Option.getD_some]

theorem writeParts_eq {parts : List PartView}
    (hfit : ((parts.map PartView.part).foldl emitPart t).arena.length ≤ int32Max) :
    writeParts parts t true = ((parts.map PartView.part).foldl emitPart t, true) := by
  induction parts generalizing t with
  | nil => rfl
  | cons p parts ih =>
    have hstep := le_trans (extends_foldl extends_emitPart _ (parts.map PartView.part)).arena.length_le
      hfit
    have htext : t.arena.length + (p.text.getD []).length ≤ int32Max := by
      simpa [emitPart, PartView.part] using hstep
    rw [writeParts, appendSpan_eq htext]
    exact ih hfit

theorem writeCalls_eq {calls : List ToolCallView}
    (hfit : ((calls.map ToolCallView.call).foldl emitCall t).arena.length ≤ int32Max) :
    writeCalls calls t true = ((calls.map ToolCallView.call).foldl emitCall t, true) := by
  induction calls generalizing t with
  | nil => rfl
  | cons c calls ih =>
    have hstep := le_trans
      (extends_foldl extends_emitCall _ (calls.map ToolCallView.call)).arena.length_le hfit
    have htext : t.arena.length + (c.id.getD []).length + (c.name.getD []).length +
        (c.arguments.getD []).length ≤ int32Max := by
      simpa [emitCall, ToolCallView.call, Nat.add_assoc] using hstep
    have hid : appendSpan t.arena true c.id = _ := appendSpan_eq (by omega) true
    have hname : appendSpan (t.arena ++ c.id.getD []) true c.name = _ :=
      appendSpan_eq (by rw [List.length_append]; omega) true
    rw [List.length_append] at hname
    rw [writeCalls]
    simp only [hid, hname, Bool.true_eq_false, if_false]
    rw [List.map_cons, List.foldl_cons, ← ih hfit]
    cases hargs : c.arguments with
    | none => simp [emitCall, callRecord, ToolCallView.call, optionalSpan, hargs]
    | some args =>
      rw [hargs, Option.getD_some] at htext
      have happend : appendBytes (t.arena ++ c.id.getD [] ++ c.name.getD []) true (some args) = _ :=
        appendBytes_some (by simp only [List.length_append]; omega) true
      simp only [happend]
      simp [emitCall, callRecord, ToolCallView.call, optionalSpan, hargs, viewLength,
        BitVec.ofNat_add]

theorem writeToolCallId_eq (hfit : arena.length + (v.getD []).length ≤ int32Max) :
    writeToolCallId arena v =
      (((optionalSpan arena v).1, (optionalSpan arena v).2,
        if v.isSome then kKmb2MsgHasToolCallId else 0), arena ++ v.getD [], true) := by
  cases v with
  | none => simp [writeToolCallId, optionalSpan]
  | some v =>
    rw [writeToolCallId, appendBytes_some (v := v) hfit]
    simp [optionalSpan, viewLength, BitVec.ofNat_add]

end Write

/-- The store with a message written into a slot. -/
def written (s : HistoryStore) (slot : Nat) (m : Message) : HistoryStore :=
  { s.withTables (s.tables.emit m) with
    slots := s.slots.set slot ⟨s.tables.messageRecord m, 1⟩ }

theorem writeMessage_eq {s : HistoryStore} {slot : Nat} (hslot : slot < s.slots.length)
    {m : MessageView} (hfit : s.arena.length + m.message.size ≤ int32Max) :
    s.writeMessage slot m = (true, s.written slot m.message) := by
  have hemit : (s.tables.emit m.message).arena.length ≤ int32Max := by
    rw [length_arena_emit]
    exact hfit
  have hparts := le_trans (extends_foldl extends_emitCall _ m.message.calls).arena.length_le hemit
  have hid : s.arena.length + (m.toolCallId.getD []).length ≤ int32Max := by
    have := le_trans (extends_foldl extends_emitPart _ m.message.parts).arena.length_le hparts
    simpa [tables, MessageView.message] using this
  have hany : m.message.parts.any (·.kind = .think) = m.parts.any (·.kind = .think) := by
    rw [MessageView.message, List.any_map]
    rfl
  have hcalls : m.message.calls.isEmpty = m.toolCalls.isEmpty := List.isEmpty_map
  have hwriteParts : writeParts m.parts
      { s.tables with arena := s.arena ++ m.toolCallId.getD [] } true =
        (m.message.parts.foldl emitPart
          { s.tables with arena := s.arena ++ m.toolCallId.getD [] }, true) := writeParts_eq hparts
  have hwriteCalls : writeCalls m.toolCalls (m.message.parts.foldl emitPart
      { s.tables with arena := s.arena ++ m.toolCallId.getD [] }) true =
        (s.tables.emit m.message, true) := writeCalls_eq hemit
  rw [writeMessage, if_neg (Nat.not_le.mpr hslot)]
  simp only [writeToolCallId_eq hid, hwriteParts, hwriteCalls, Bool.true_eq_false, if_false]
  rw [written, messageRecord, messageFlags, hany, hcalls]
  simp only [MessageView.message, List.length_map]
  rfl

end HistoryStore

/-! ### Tables this library has written -/

namespace Tables

/-- Besides being readable: no part has flags, and absent arguments are `-1` to `-1`. -/
structure Clean (t : Tables) : Prop where
  valid : t.Valid
  flags : ∀ r ∈ t.parts, r.flags = 0
  args : ∀ r ∈ t.calls, ¬ 0 ≤ r.argsS.toInt → r.argsS = -1 ∧ r.argsE = -1

theorem clean_empty : Clean {} where
  valid := valid_empty
  flags := fun _ h => absurd h List.not_mem_nil
  args := fun _ h => absurd h List.not_mem_nil

theorem Clean.append (h : t.Clean) (text : Bytes) :
    Clean { t with arena := t.arena ++ text } := ⟨h.valid.append text, h.flags, h.args⟩

theorem Clean.emitPart (h : t.Clean) {p : Part} (hfit : (t.emitPart p).arena.length ≤ int32Max) :
    (t.emitPart p).Clean := by
  refine ⟨h.valid.emitPart hfit, ?_, h.args⟩
  intro r hr
  obtain hr | hr := List.mem_append.mp hr
  · exact h.flags r hr
  · obtain rfl := List.mem_singleton.mp hr
    rfl

theorem Clean.emitCall (h : t.Clean) {c : Call} (hfit : (t.emitCall c).arena.length ≤ int32Max) :
    (t.emitCall c).Clean := by
  refine ⟨h.valid.emitCall hfit, h.flags, ?_⟩
  intro r hr hneg
  obtain hr | hr := List.mem_append.mp hr
  · exact h.args r hr hneg
  · obtain rfl := List.mem_singleton.mp hr
    cases hargs : c.arguments with
    | none => simp [callRecord, hargs, optionalSpan]
    | some args =>
      have hlen : (t.arena ++ c.id ++ c.name).length ≤ int32Max := by
        refine le_trans ?_ hfit
        simp only [Tables.emitCall, List.length_append]
        omega
      simp only [callRecord, hargs, optionalSpan, toInt_ofNat hlen] at hneg
      omega

/-- Emitting keeps the tables clean. -/
theorem Clean.emit (h : t.Clean) {m : Message} (hfit : (t.emit m).arena.length ≤ int32Max) :
    (t.emit m).Clean := by
  have hparts := le_trans (extends_foldl extends_emitCall _ m.calls).arena.length_le hfit
  exact foldl_keeps extends_emitCall (fun _ _ ht => ht.emitCall)
    (foldl_keeps extends_emitPart (fun _ _ ht => ht.emitPart) (h.append _) m.parts hparts)
    m.calls hfit

theorem Clean.emitAll (h : t.Clean) {ms : List Message}
    (hfit : (t.emitAll ms).arena.length ≤ int32Max) : (t.emitAll ms).Clean :=
  foldl_keeps extends_emit (fun _ _ ht => ht.emit) h ms hfit

end Tables

/-! ### Compaction -/

namespace HistoryStore

open Tables

variable {i : Nat}

section Copy

variable {old : Tables} (h : old.Clean)

include h

theorem copyPart_eq {p : Part} (hr : old.readPart i = some p) (t : Tables) :
    copyPart old t i = some (t.emitPart p) := by
  obtain ⟨r, hget, hr⟩ := Option.bind_eq_some_iff.mp hr
  obtain ⟨text, htext, rfl⟩ := Option.map_eq_some_iff.mp hr
  have hmem := List.mem_of_getElem? hget
  rw [copyPart, hget, Option.bind_some, htext, Option.map_some, Tables.emitPart, partRecord,
    PartKind.toByte_ofByte (h.valid.parts r hmem).2, List.length_append, ← h.flags r hmem]

theorem copyCall_eq {c : Call} (hr : old.readCall i = some c) (t : Tables) :
    copyCall old t i = some (t.emitCall c) := by
  obtain ⟨r, hget, hr⟩ := Option.bind_eq_some_iff.mp hr
  obtain ⟨id, hid, hr⟩ := Option.bind_eq_some_iff.mp hr
  obtain ⟨name, hname, hr⟩ := Option.bind_eq_some_iff.mp hr
  obtain ⟨args, hargs, rfl⟩ := Option.map_eq_some_iff.mp hr
  rw [copyCall, hget, Option.bind_some, hid, Option.bind_some, hname, Option.bind_some]
  unfold readOptional at hargs
  split_ifs at hargs with hnonneg
  · obtain ⟨text, htext, rfl⟩ := Option.map_eq_some_iff.mp hargs
    simp [if_pos hnonneg, htext, Tables.emitCall, callRecord, optionalSpan, Nat.add_assoc]
  · obtain rfl := Option.some.inj hargs
    obtain ⟨hs, he⟩ := h.args r (List.mem_of_getElem? hget) hnonneg
    dsimp only
    rw [if_neg hnonneg]
    simp [Tables.emitCall, callRecord, optionalSpan, hs, he, Nat.add_assoc]

omit h in
/-- Records copied one by one, each as it is emitted. -/
theorem copyRange_eq {α : Type} {copy : Tables → Nat → Option Tables} {read : Nat → Option α}
    {emit : Tables → α → Tables}
    (hcopy : ∀ i a, read i = some a → ∀ t, copy t i = some (emit t a)) {first count : Nat}
    {as : List α} (hr : readRange (fun i => read (i % 2 ^ 32)) first count = some as) (t : Tables) :
    copyRange copy first count t = some (as.foldl emit t) := by
  induction count generalizing first as t with
  | zero =>
    obtain rfl := Option.some.inj hr
    rfl
  | succ count ih =>
    obtain ⟨a, ha, hrest⟩ := Option.bind_eq_some_iff.mp hr
    obtain ⟨as', has', rfl⟩ := Option.map_eq_some_iff.mp hrest
    rw [copyRange, hcopy _ a ha t, Option.bind_some, ih has', List.foldl_cons]

/-- A slot is copied as its message is emitted. -/
theorem copySlot_eq {slot : Slot} {m : Message} (hr : old.readMessage slot.record = some m)
    (hflags : slot.record.flags = messageFlags m)
    (htcid : ¬ 0 ≤ slot.record.tcidStart.toInt →
      slot.record.tcidStart = -1 ∧ slot.record.tcidEnd = -1) (t : Tables) :
    copySlot old t slot = some (t.emit m, ⟨t.messageRecord m, 1⟩) := by
  obtain ⟨parts, hparts, hr⟩ := Option.bind_eq_some_iff.mp hr
  obtain ⟨calls, hcalls, hr⟩ := Option.bind_eq_some_iff.mp hr
  obtain ⟨tcid, hopt, rfl⟩ := Option.map_eq_some_iff.mp hr
  have hid : copyToolCallId old t.arena slot.record =
      some (t.arena ++ tcid.getD [], optionalSpan t.arena tcid) := by
    unfold copyToolCallId
    unfold readOptional at hopt
    split_ifs at hopt ⊢ with hnonneg
    · obtain ⟨text, htext, rfl⟩ := Option.map_eq_some_iff.mp hopt
      simp [htext, optionalSpan]
    · obtain rfl := Option.some.inj hopt
      simp [htcid hnonneg, optionalSpan]
  have hpartCount : BitVec.ofNat 32 parts.length = slot.record.partCount := by
    rw [length_readRange hparts, BitVec.ofNat_toNat, BitVec.setWidth_eq]
  have hcallCount : BitVec.ofNat 32 calls.length = slot.record.callCount := by
    rw [length_readRange hcalls, BitVec.ofNat_toNat, BitVec.setWidth_eq]
  rw [copySlot, hid, Option.bind_some,
    copyRange_eq (fun i p hp => copyPart_eq h hp) hparts, Option.bind_some,
    copyRange_eq (fun i c hc => copyCall_eq h hc) hcalls, Option.map_some]
  simp only [messageRecord, hpartCount, hcallCount, ← hflags]
  rfl

end Copy

/-! ### Saving and loading -/

section Save

variable (s : HistoryStore)

/-- The counts in the header of a saved store. -/
def saveCounts : List (BitVec 32) :=
  [BitVec.ofNat 32 s.size, BitVec.ofNat 32 s.slots.length, BitVec.ofNat 32 s.arena.length,
    BitVec.ofNat 32 s.parts.length, BitVec.ofNat 32 s.calls.length, 0]

/-- A saved store after the header. -/
def saveBody : Bytes :=
  s.arena ++ (slotCodec.encodeAll s.slots ++ (partCodec.encodeAll s.parts ++
    (callCodec.encodeAll s.calls ++ [])))

theorem length_kSaveMagic : kSaveMagic.length = 8 := rfl

theorem save_eq : s.save = kSaveMagic ++ (u32.encodeAll s.saveCounts ++ s.saveBody) := by
  simp only [save, saveBody, saveCounts, List.append_assoc, List.append_nil]

theorem decode_save_count {n : BitVec 32} (h : s.saveCounts[i]? = some n) :
    u32.decode (s.save.drop (8 + i * 4)) = n := by
  rw [save_eq, ← List.drop_drop, List.drop_left' length_kSaveMagic]
  exact u32.read_encodeAll _ h

theorem drop_save : s.save.drop kSaveHeaderBytes = s.saveBody := by
  have hwidth : (u32.encodeAll s.saveCounts).length = 24 := by
    rw [FixedCodec.length_encodeAll]
    rfl
  rw [save_eq, show kSaveHeaderBytes = 8 + 24 from rfl, ← List.drop_drop,
    List.drop_left' length_kSaveMagic, List.drop_left' hwidth]

variable {s} (hfit : s.tables.Fits) (hslots : s.slots.length < 2 ^ 32)

include hfit hslots

theorem save_counts :
    (u32.decode (s.save.drop 12)).toNat = s.slots.length ∧
      (u32.decode (s.save.drop 16)).toNat = s.arena.length ∧
      (u32.decode (s.save.drop 20)).toNat = s.parts.length ∧
      (u32.decode (s.save.drop 24)).toNat = s.calls.length := by
  have harena : s.arena.length < 2 ^ 32 := by
    have h : s.arena.length ≤ int32Max := hfit.arena
    unfold int32Max at h
    omega
  refine ⟨?_, ?_, ?_, ?_⟩
  · rw [s.decode_save_count (i := 1) rfl, toNat_ofNat hslots]
  · rw [s.decode_save_count (i := 2) rfl, toNat_ofNat harena]
  · rw [s.decode_save_count (i := 3) rfl]
    exact toNat_ofNat hfit.parts
  · rw [s.decode_save_count (i := 4) rfl]
    exact toNat_ofNat hfit.calls

theorem decode_save : decode s.save = (s.tables, s.slots) := by
  obtain ⟨h1, h2, h3, h4⟩ := save_counts hfit hslots
  unfold decode
  dsimp only
  rw [h1, h2, h3, h4, drop_save, saveBody, List.take_left' rfl, List.drop_left' rfl,
    List.drop_left' (by rw [FixedCodec.length_encodeAll, width_slotCodec]),
    List.drop_left' (by rw [FixedCodec.length_encodeAll, width_partCodec]),
    FixedCodec.readAll_encodeAll, FixedCodec.readAll_encodeAll, FixedCodec.readAll_encodeAll]
  rfl

theorem requiredBytes_save : requiredBytes s.save = s.save.length := by
  obtain ⟨h1, h2, h3, h4⟩ := save_counts hfit hslots
  have hlength : s.save.length = kSaveHeaderBytes + s.saveBody.length := by
    rw [save_eq, List.length_append, List.length_append, FixedCodec.length_encodeAll,
      ← Nat.add_assoc]
    rfl
  rw [requiredBytes, h1, h2, h3, h4, hlength, saveBody]
  simp only [List.length_append, FixedCodec.length_encodeAll, width_slotCodec, width_partCodec,
    width_callCodec, List.length_nil]
  omega

/-- A store in order is loaded back from what it saves. -/
theorem load_save (hload : Loadable s.tables s.slots) (horder : s.order = liveOrder s.slots)
    (t : HistoryStore) :
    t.load s.save = (true, { t.withTables s.tables with
      slots := s.slots, order := s.order }.invalidate) := by
  have hlength : s.save.length = requiredBytes s.save := (requiredBytes_save hfit hslots).symm
  have hheader : ¬ s.save.length < kSaveHeaderBytes := by
    rw [hlength, requiredBytes]
    omega
  have hlive : (liveOrder s.slots).length < 2 ^ 32 := by
    refine lt_of_le_of_lt ?_ hslots
    rw [liveOrder]
    exact le_trans (List.length_filter_le _ _) (le_of_eq List.length_range)
  have hcount : (liveOrder s.slots).length = (u32.decode (s.save.drop 8)).toNat := by
    rw [s.decode_save_count (i := 0) rfl, size, horder, Nat.mod_eq_of_lt hlive, toNat_ofNat hlive]
  have hmagic : s.save.take 7 = kSaveMagic.take 7 := by
    rw [save_eq, List.take_append_of_le_length (by decide)]
  rw [load, if_neg hheader, if_neg (not_not.mpr hmagic), if_neg (by omega),
    decode_save hfit hslots]
  dsimp only
  rw [if_neg (not_not.mpr (by simpa using hload.slots)),
    if_neg (not_not.mpr (by simpa using hload.valid.parts)),
    if_neg (not_not.mpr (by simpa using hload.valid.calls)), if_neg (not_not.mpr hcount), horder]

end Save

end HistoryStore

end KimixNative.Soul
