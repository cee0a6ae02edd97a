import KimixNative.Soul.HistoryStore

/-!
# Untrusted input of the history store

Both formats the store reads, KMB2 pairs and saved blobs, come from outside. What the
loaders check is enough: an accepted KMB2 pair can be read to its last span, and in a
loaded store no view, no byte count and no compaction reads outside the arena or the
tables. A refused input changes nothing.
-/

namespace KimixNative.Soul

namespace HistoryStore

/-! ### Reading a store that is in order -/

/-- Every live slot can be read. -/
structure Sound (s : HistoryStore) : Prop where
  valid : s.tables.Valid
  parts : s.parts.length ≤ 2 ^ 32
  calls : s.calls.length ≤ 2 ^ 32
  live : ∀ i ∈ s.order, ∃ slot, s.slots[i]? = some slot ∧ s.tables.Readable slot.record

variable {i : Nat} {old : Tables}

section Sound

variable {s : HistoryStore} (h : s.Sound)

include h

theorem Sound.readMessage (hi : i ∈ s.order) :
    ∃ slot m, s.slots[i]? = some slot ∧ s.tables.readMessage slot.record = some m := by
  obtain ⟨slot, hslot, hread⟩ := h.live i hi
  obtain ⟨m, hm⟩ := h.valid.readMessage hread h.parts h.calls
  exact ⟨slot, m, hslot, hm⟩

theorem Sound.buildViews_bytesLive {order : List Nat} (hsub : ∀ i ∈ order, i ∈ s.order) :
    (s.buildViews order).isSome = true ∧ (s.bytesLive order).isSome = true := by
  induction order with
  | nil => exact ⟨rfl, rfl⟩
  | cons i order ih =>
    obtain ⟨slot, m, hslot, hm⟩ := h.readMessage (hsub i List.mem_cons_self)
    have hrest := ih fun j hj => hsub j (List.mem_cons_of_mem _ hj)
    rw [HistoryStore.buildViews, HistoryStore.bytesLive, hslot, Option.bind_some, Option.bind_some,
      hm, Option.bind_some, Option.bind_some, Option.isSome_map, Option.isSome_map]
    exact hrest

end Sound

/-! ### Compaction of a store that is in order -/

theorem copyRange_isSome {copy : Tables → Nat → Option Tables} {first count : Nat}
    (h : ∀ i < count, ∀ t, ∃ t', copy t ((first + i) % 2 ^ 32) = some t') (t : Tables) :
    ∃ t', copyRange copy first count t = some t' := by
  induction count generalizing first t with
  | zero => exact ⟨t, rfl⟩
  | succ count ih =>
    obtain ⟨t₁, ht₁⟩ := h 0 (Nat.succ_pos count) t
    rw [Nat.add_zero] at ht₁
    obtain ⟨t₂, ht₂⟩ := @ih (first + 1) (fun i hi t => by
      have := h (i + 1) (Nat.succ_lt_succ hi) t
      rwa [← Nat.add_assoc, Nat.add_right_comm] at this) t₁
    exact ⟨t₂, by rw [copyRange, ht₁, Option.bind_some, ht₂]⟩

theorem copyPart_isSome (h : old.Valid) (hi : i < old.parts.length) (t : Tables) :
    ∃ t', copyPart old t i = some t' := by
  have hok := h.parts _ (List.getElem_mem hi)
  rw [copyPart, List.getElem?_eq_getElem hi, Option.bind_some, Tables.readSpan, if_pos hok.1]
  exact ⟨_, rfl⟩

theorem copyCall_isSome (h : old.Valid) (hi : i < old.calls.length) (t : Tables) :
    ∃ t', copyCall old t i = some t' := by
  obtain ⟨hid, hname, hargs⟩ := h.calls _ (List.getElem_mem hi)
  rw [copyCall, List.getElem?_eq_getElem hi, Option.bind_some, Tables.readSpan, if_pos hid,
    Option.bind_some, Tables.readSpan, if_pos hname, Option.bind_some]
  dsimp only
  split_ifs with hnonneg
  · rw [Tables.readSpan, if_pos (hargs hnonneg)]
    exact ⟨_, rfl⟩
  · exact ⟨_, rfl⟩

theorem copySlot_isSome (h : old.Valid) (hparts : old.parts.length ≤ 2 ^ 32)
    (hcalls : old.calls.length ≤ 2 ^ 32) {slot : Slot} (hread : old.Readable slot.record)
    (t : Tables) : ∃ x, copySlot old t slot = some x := by
  obtain ⟨hp, hc⟩ := hread.ranges
  have copyParts : ∀ t, ∃ t', copyRange (copyPart old) slot.record.partFirst.toNat
      slot.record.partCount.toNat t = some t' := copyRange_isSome fun i hi t => by
    rw [Nat.mod_eq_of_lt (by omega)]
    exact copyPart_isSome h (by omega) t
  have copyCalls : ∀ t, ∃ t', copyRange (copyCall old) slot.record.callFirst.toNat
      slot.record.callCount.toNat t = some t' := copyRange_isSome fun i hi t => by
    rw [Nat.mod_eq_of_lt (by omega)]
    exact copyCall_isSome h (by omega) t
  obtain ⟨x, hx⟩ : ∃ x, copyToolCallId old t.arena slot.record = some x := by
    unfold copyToolCallId
    split_ifs with hnonneg
    · rw [Tables.readSpan, if_pos (hread.tcid hnonneg)]
      exact ⟨_, rfl⟩
    · exact ⟨_, rfl⟩
  obtain ⟨t₁, ht₁⟩ := copyParts { t with arena := x.1 }
  obtain ⟨t₂, ht₂⟩ := copyCalls t₁
  exact ⟨_, by rw [copySlot, hx, Option.bind_some, ht₁, Option.bind_some, ht₂, Option.map_some]⟩

theorem Sound.copySlots {s : HistoryStore} (h : s.Sound) {order : List Nat}
    (hsub : ∀ i ∈ order, i ∈ s.order) (t : Tables) (slots : List Slot) :
    ∃ x, s.copySlots order t slots = some x := by
  induction order generalizing t slots with
  | nil => exact ⟨_, rfl⟩
  | cons i order ih =>
    obtain ⟨slot, hslot, hread⟩ := h.live i (hsub i List.mem_cons_self)
    obtain ⟨⟨t', slot'⟩, hcopy⟩ := copySlot_isSome h.valid h.parts h.calls hread t
    obtain ⟨x, hx⟩ := ih (fun j hj => hsub j (List.mem_cons_of_mem _ hj)) t' (slots ++ [slot'])
    exact ⟨x, by
      rw [HistoryStore.copySlots, hslot, Option.bind_some, hcopy, Option.bind_some, hx]⟩

theorem Sound.compact {s : HistoryStore} (h : s.Sound) : s.compact.isSome = true := by
  obtain ⟨x, hx⟩ := h.copySlots (fun _ hi => hi) {} []
  rw [HistoryStore.compact, hx]
  rfl

/-! ### Loading a blob -/

/-- What `load` has checked when it commits. -/
structure Loadable (t : Tables) (slots : List Slot) : Prop where
  slots : ∀ slot ∈ slots, SlotOk t.arena.length t.parts.length t.calls.length slot
  valid : t.Valid

/-- Either nothing happens, or everything has been checked and is taken over. -/
theorem load_cases (s : HistoryStore) (blob : Bytes) :
    s.load blob = (false, s) ∨
      Loadable (decode blob).1 (decode blob).2 ∧
        s.load blob = (true, { s.withTables (decode blob).1 with
          slots := (decode blob).2, order := liveOrder (decode blob).2 }.invalidate) := by
  unfold load
  dsimp only
  split
  · exact .inl rfl
  split
  · exact .inl rfl
  split
  · exact .inl rfl
  split
  · exact .inl rfl
  next hslots =>
  split
  · exact .inl rfl
  next hparts =>
  split
  · exact .inl rfl
  next hcalls =>
  split
  · exact .inl rfl
  simp only [not_not, List.all_eq_true, decide_eq_true_eq] at hslots hparts hcalls
  exact .inr ⟨⟨hslots, hparts, hcalls⟩, rfl⟩

theorem mem_liveOrder {slots : List Slot} :
    i ∈ liveOrder slots ↔ ∃ slot, slots[i]? = some slot ∧ slot.live ≠ 0 := by
  rw [liveOrder, List.mem_filter, List.mem_range]
  constructor
  · rintro ⟨hi, hlive⟩
    rw [List.getElem?_eq_getElem hi] at hlive ⊢
    exact ⟨_, rfl, by simpa using hlive⟩
  · rintro ⟨slot, hslot, hlive⟩
    refine ⟨(List.getElem?_eq_some_iff.mp hslot).1, ?_⟩
    rw [hslot]
    simpa using hlive

theorem length_decode_parts (blob : Bytes) : (decode blob).1.parts.length < 2 ^ 32 := by
  show (partCodec.readAll _ (u32.decode (blob.drop 20)).toNat).length < 2 ^ 32
  rw [FixedCodec.length_readAll]
  exact (u32.decode (blob.drop 20)).isLt

theorem length_decode_calls (blob : Bytes) : (decode blob).1.calls.length < 2 ^ 32 := by
  show (callCodec.readAll _ (u32.decode (blob.drop 24)).toNat).length < 2 ^ 32
  rw [FixedCodec.length_readAll]
  exact (u32.decode (blob.drop 24)).isLt

end HistoryStore

/-! ### Accepting a KMB2 pair -/

/-- In an accepted pair every message, every part and every call of a message is there, the
tables lie inside the structure, and every span handed out lies inside the history; a pair
that is refused leaves the history store as it was. -/
theorem kmb2Parse_complete (struct : Bytes) (history : StringView) :
    (∀ v, kmb2Parse struct history = some v →
      tableBytes v.msgCount v.partTotal v.callTotal ≤ struct.length ∧
      ∀ i < v.msgCount.toNat, ∃ r, v.message i = some r ∧
        (∀ j < r.partCount.toNat, ∃ p,
          v.part (r.partFirst + BitVec.ofNat 32 j).toNat = some p ∧
            SpanOk p.start p.stop (history.getD []).length) ∧
        (∀ k < r.callCount.toNat, ∃ c,
          v.call (r.callFirst + BitVec.ofNat 32 k).toNat = some c ∧
            SpanOk c.idS c.idE (history.getD []).length ∧
            SpanOk c.nameS c.nameE (history.getD []).length ∧
            (0 ≤ c.argsS.toInt → SpanOk c.argsS c.argsE (history.getD []).length)) ∧
        (Kmb2View.hasToolCallId r = true →
          SpanOk r.tcidStart r.tcidEnd (history.getD []).length)) ∧
      (kmb2Parse struct history = none →
        ∀ s : HistoryStore, s.appendPacked struct history = (0, s)) := by
  refine ⟨fun v hv => ?_, fun hnone s => by rw [HistoryStore.appendPacked, hnone]⟩
  obtain ⟨-, rfl, ha⟩ := kmb2Parse_eq_some.mp hv
  -- an index sum inside a table does not wrap
  have index : ∀ (a b : BitVec 32) (j n : Nat), a.toNat + b.toNat ≤ n → j < b.toNat →
      n < 2 ^ 32 → (a + BitVec.ofNat 32 j).toNat < n := by
    intro a b j n hsum hj hn
    rw [BitVec.toNat_add, BitVec.toNat_ofNat, Nat.mod_eq_of_lt (show j < 2 ^ 32 by omega),
      Nat.mod_eq_of_lt (by omega)]
    omega
  refine ⟨ha.room, fun i hi => ?_⟩
  obtain ⟨r, hr, -, ⟨hp, hc⟩, htcid, -⟩ := ha.messages i hi
  refine ⟨r, hr, fun j hj => ?_, fun k hk => ?_, htcid⟩
  · obtain ⟨p, hpart, hok⟩ := ha.parts _
      (index r.partFirst r.partCount j _ hp hj (kmb2Header struct history).partTotal.isLt)
    exact ⟨p, hpart, hok.1⟩
  · obtain ⟨c, hcall, hok⟩ := ha.calls _
      (index r.callFirst r.callCount k _ hc hk (kmb2Header struct history).callTotal.isLt)
    exact ⟨c, hcall, hok⟩

end KimixNative.Soul
