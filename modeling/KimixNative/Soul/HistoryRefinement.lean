import KimixNative.Soul.HistoryWrite
import Mathlib.Algebra.Order.BigOperators.Group.List
import Mathlib.Data.List.Nodup

/-!
# The history store is a list of messages

`Refines s l` relates a store to the list it stands for: reading the slots of `order` gives
the list, `order` is what `load` would rebuild from the live flags, and the tables hold no
less text than the list has. Every operation keeps it while the texts fit into the arena and
the tables into 32-bit counts. One more condition is on the packed operations: from a null
history the texts come back as null views, and a null view is an absent text.
-/

namespace KimixNative.Soul

namespace HistoryStore

open Tables

/-! ### The order of the live slots -/

theorem nodup_liveOrder (slots : List Slot) : (liveOrder slots).Nodup :=
  List.nodup_range.filter _

theorem length_liveOrder_le (slots : List Slot) : (liveOrder slots).length ≤ slots.length := by
  rw [liveOrder]
  exact le_trans (List.length_filter_le _ _) (le_of_eq List.length_range)

variable {slot : Slot} {order : List Nat}

theorem liveOrder_append (slots : List Slot) (hlive : slot.live ≠ 0) :
    liveOrder (slots ++ [slot]) = liveOrder slots ++ [slots.length] := by
  have hold : ∀ i ∈ List.range slots.length,
      ((slots ++ [slot])[i]?).any (·.live ≠ 0) = (slots[i]?).any (·.live ≠ 0) := by
    intro i hi
    rw [List.getElem?_append_left (List.mem_range.mp hi)]
  rw [liveOrder, List.length_append, List.length_singleton, List.range_succ, List.filter_append,
    List.filter_congr hold, liveOrder]
  simpa using hlive

variable {i : Nat} {t : Tables} {l' : List Message}

theorem liveOrder_set {slots : List Slot} (hi : i ∈ liveOrder slots) (hlive : slot.live ≠ 0) :
    liveOrder (slots.set i slot) = liveOrder slots := by
  obtain ⟨old, hold, hwas⟩ := mem_liveOrder.mp hi
  have hlt := (List.getElem?_eq_some_iff.mp hold).1
  rw [liveOrder, liveOrder, List.length_set]
  refine List.filter_congr fun j _ => ?_
  obtain rfl | hne := eq_or_ne i j
  · rw [List.getElem?_set_self hlt, hold, Option.any_some, Option.any_some, decide_eq_decide]
    exact iff_of_true hlive hwas
  · rw [List.getElem?_set_ne hne]

theorem liveOrder_bury (slots : List Slot) (i : Nat) :
    liveOrder (bury slots i) = (liveOrder slots).filter (· ≠ i) := by
  rw [liveOrder, liveOrder, bury, List.length_modify, List.filter_filter]
  refine List.filter_congr fun j _ => ?_
  rw [List.getElem?_modify]
  obtain rfl | hne := eq_or_ne i j
  · cases slots[i]? <;> simp
  · simp [hne, hne.symm]

theorem liveOrder_foldl_bury (slots : List Slot) (is : List Nat) :
    liveOrder (is.foldl bury slots) = (liveOrder slots).filter (· ∉ is) := by
  induction is generalizing slots with
  | nil => simp
  | cons i is ih =>
    rw [List.foldl_cons, ih, liveOrder_bury, List.filter_filter]
    refine List.filter_congr fun j _ => ?_
    simp [Bool.and_comm]

theorem liveOrder_all_live (records : List MessageRecord) :
    liveOrder (records.map (⟨·, 1⟩)) = List.range records.length := by
  rw [liveOrder, List.length_map, List.filter_eq_self]
  intro i hi
  rw [List.getElem?_map, List.getElem?_eq_getElem (List.mem_range.mp hi)]
  rfl

/-! ### The relation -/

/-- The message of a slot, if its record can be read and its flags are those of the message. -/
def messageAt (s : HistoryStore) (i : Nat) : Option Message :=
  (s.slots[i]?).bind fun slot =>
    (s.tables.readMessage slot.record).bind fun m =>
      if slot.record.flags = messageFlags m then some m else none

variable {m : Message}

theorem messageAt_eq_some {s : HistoryStore} :
    s.messageAt i = some m ↔ ∃ slot, s.slots[i]? = some slot ∧
      s.tables.readMessage slot.record = some m ∧ slot.record.flags = messageFlags m := by
  rw [messageAt, Option.bind_eq_some_iff]
  refine exists_congr fun slot => and_congr_right fun _ => ?_
  rw [Option.bind_eq_some_iff]
  constructor
  · rintro ⟨m', hm', hif⟩
    split_ifs at hif with hflags
    obtain rfl := Option.some.inj hif
    exact ⟨hm', hflags⟩
  · rintro ⟨hm, hflags⟩
    exact ⟨m, hm, if_pos hflags⟩

/-- What a list of messages takes up is there. -/
structure Covers (t : Tables) (l : List Message) : Prop where
  arena : (l.map Message.size).sum ≤ t.arena.length
  parts : (l.map fun m => m.parts.length).sum ≤ t.parts.length
  calls : (l.map fun m => m.calls.length).sum ≤ t.calls.length

/-- The cached views, if they count as current, are those of the list. -/
def Cached (s : HistoryStore) (l : List Message) : Prop :=
  ∀ g, s.viewsGen = some g → g ≤ s.gen ∧ (g = s.gen → s.cachedViews = l.map Message.view)

/-- The store stands for the list. -/
structure Refines (s : HistoryStore) (l : List Message) : Prop where
  clean : s.tables.Clean
  fits : s.tables.Fits
  count : s.slots.length < 2 ^ 32
  slots : ∀ slot ∈ s.slots, SlotOk s.arena.length s.parts.length s.calls.length slot
  order : s.order = liveOrder s.slots
  messages : s.order.map s.messageAt = l.map some
  covers : Covers s.tables l
  cached : s.Cached l

theorem refines_empty : Refines {} [] where
  clean := clean_empty
  fits := ⟨by decide, by decide, by decide⟩
  count := by decide
  slots := fun _ h => absurd h List.not_mem_nil
  order := rfl
  messages := rfl
  covers := ⟨le_rfl, le_rfl, le_rfl⟩
  cached := fun _ h => absurd h (by simp)

/-- After a mutation no cached view counts as current. -/
theorem Cached.invalidate {s s' : HistoryStore} {l : List Message} (h : s.Cached l)
    (hviews : s'.viewsGen = s.viewsGen) (hgen : s'.gen = s.gen + 1) (l' : List Message) :
    s'.Cached l' := by
  intro g hg
  have hle := (h g (hviews ▸ hg)).1
  omega

section Refines

variable {s : HistoryStore} {l : List Message} (h : s.Refines l)

include h

theorem Refines.length : s.order.length = l.length := by
  simpa using congrArg List.length h.messages

theorem Refines.order_lt : s.order.length < 2 ^ 32 :=
  lt_of_le_of_lt (h.order ▸ length_liveOrder_le s.slots) h.count

theorem Refines.nodup : s.order.Nodup := h.order ▸ nodup_liveOrder s.slots

theorem Refines.mem_order (hi : i ∈ s.order) : i < s.slots.length := by
  rw [h.order] at hi
  obtain ⟨slot, hslot, -⟩ := mem_liveOrder.mp hi
  exact (List.getElem?_eq_some_iff.mp hslot).1

/-- The message at a position of the order. -/
theorem Refines.messageAt {k : Nat} (hk : s.order[k]? = some i) :
    ∃ m, l[k]? = some m ∧ s.messageAt i = some m := by
  have hget := congrArg (·[k]?) h.messages
  simp only [List.getElem?_map, hk, Option.map_some] at hget
  obtain ⟨m, hm, heq⟩ := Option.map_eq_some_iff.mp hget.symm
  exact ⟨m, hm, heq.symm⟩

theorem Refines.buildViews : s.buildViews s.order = some (l.map Message.view) := by
  have hbuild : ∀ {order : List Nat} {l : List Message}, order.map s.messageAt = l.map some →
      s.buildViews order = some (l.map Message.view) := by
    intro order
    induction order with
    | nil =>
      intro l hl
      obtain rfl : l = [] := by simpa using hl.symm
      rfl
    | cons i order ih =>
      intro l hl
      cases l with
      | nil => cases hl
      | cons m l =>
        obtain ⟨hm, hrest⟩ := List.cons.inj hl
        obtain ⟨slot, hslot, hread, -⟩ := messageAt_eq_some.mp hm
        rw [HistoryStore.buildViews, hslot, Option.bind_some, hread, Option.bind_some, ih hrest,
          Option.map_some, List.map_cons]
  exact hbuild h.messages

/-- The views are those of the list, and taking them keeps the relation. -/
theorem Refines.views : ∃ s', s.views = some (l.map Message.view, s') ∧ s'.Refines l := by
  rw [HistoryStore.views]
  split_ifs with hcached
  · rw [(h.cached s.gen hcached).2 rfl]
    exact ⟨s, rfl, h⟩
  · rw [h.buildViews]
    refine ⟨_, rfl, h.clean, h.fits, h.count, h.slots, h.order, h.messages, h.covers, ?_⟩
    intro g hg
    obtain rfl : s.gen = g := Option.some.inj hg
    exact ⟨le_rfl, fun _ => rfl⟩

end Refines

/-! ### Writing keeps the relation -/

theorem SlotOk.mono {a p c a' p' c' : Nat} (h : SlotOk a p c slot) (ha : a ≤ a') (hp : p ≤ p')
    (hc : c ≤ c') : SlotOk a' p' c' slot :=
  ⟨h.1, ⟨le_trans h.2.1.1 hp, le_trans h.2.1.2 hc⟩, fun hid => (h.2.2.1 hid).mono ha, h.2.2.2⟩

/-- The slot of a message that has just been written. -/
theorem slotOk_messageRecord (hfit : (t.emit m).Fits) (hrole : m.role.toNat ≤ kRoleTool.toNat) :
    SlotOk (t.emit m).arena.length (t.emit m).parts.length (t.emit m).calls.length
      ⟨t.messageRecord m, 1⟩ := by
  obtain ⟨habsent, hpresent⟩ := messageRecord_tcid (.refl (t.emit m)) hfit.arena
  refine ⟨hrole, messageRecord_inTables (.refl _) hfit, fun hnonneg => hpresent fun hnone => ?_,
    fun hneg => habsent ?_⟩
  · rw [show (⟨t.messageRecord m, 1⟩ : Slot).record.tcidStart = -1 from (habsent hnone).1] at hnonneg
    exact absurd hnonneg (by decide)
  · by_contra hsome
    exact hneg (hpresent hsome).1

theorem messageAt_mono {s s' : HistoryStore} (ht : s.tables.Extends s'.tables)
    (hslot : s'.slots[i]? = s.slots[i]?) (h : s.messageAt i = some m) :
    s'.messageAt i = some m := by
  obtain ⟨slot, hget, hread, hflags⟩ := messageAt_eq_some.mp h
  exact messageAt_eq_some.mpr ⟨slot, hslot.trans hget, ht.readMessage hread, hflags⟩

theorem messageAt_messageRecord {s : HistoryStore} (ht : (t.emit m).Extends s.tables)
    (hfit : s.tables.Fits) (hslot : s.slots[i]? = some ⟨t.messageRecord m, 1⟩) :
    s.messageAt i = some m :=
  messageAt_eq_some.mpr ⟨_, hslot, readMessage_emit ht hfit, rfl⟩

theorem Covers.emit {l : List Message} (h : Covers t l) (m : Message)
    (hsize : (l'.map Message.size).sum ≤ (l.map Message.size).sum + m.size)
    (hparts : (l'.map fun m => m.parts.length).sum ≤ (l.map fun m => m.parts.length).sum +
      m.parts.length)
    (hcalls : (l'.map fun m => m.calls.length).sum ≤ (l.map fun m => m.calls.length).sum +
      m.calls.length) : Covers (t.emit m) l' := by
  have h1 := h.arena
  have h2 := h.parts
  have h3 := h.calls
  refine ⟨?_, ?_, ?_⟩
  · rw [length_arena_emit]
    omega
  · rw [length_parts_emit]
    omega
  · rw [length_calls_emit]
    omega

/-- The store after a message has been pushed. -/
def pushed (s : HistoryStore) (m : Message) : HistoryStore :=
  { s.withTables (s.tables.emit m) with
    slots := s.slots ++ [⟨s.tables.messageRecord m, 1⟩],
    order := s.order ++ [s.slots.length],
    gen := s.gen + 1 }

section Write

variable {s : HistoryStore} {l : List Message} (h : s.Refines l)

include h

theorem Refines.pushSlot {m : MessageView} (hfit : (s.tables.emit m.message).Fits) :
    s.pushSlot m = (s.order.length, s.pushed m.message) := by
  have hroom : s.arena.length + m.message.size ≤ int32Max := by
    have := hfit.arena
    rwa [length_arena_emit] at this
  have hwrite := @writeMessage_eq { s with slots := s.slots ++ [blankSlot m.role] }
    s.slots.length (by simp) m hroom
  have hslot : s.slots.length % 2 ^ 32 = s.slots.length := Nat.mod_eq_of_lt h.count
  have hset : (s.slots ++ [blankSlot m.role]).set s.slots.length
      ⟨s.tables.messageRecord m.message, 1⟩ =
        s.slots ++ [⟨s.tables.messageRecord m.message, 1⟩] := by
    rw [List.set_append_right _ _ le_rfl, Nat.sub_self, List.set_cons_zero]
  have hordinal : ((s.order ++ [s.slots.length]).length - 1) % 2 ^ 32 = s.order.length := by
    rw [List.length_append, List.length_singleton, Nat.add_sub_cancel, Nat.mod_eq_of_lt h.order_lt]
  rw [HistoryStore.pushSlot]
  simp only [hslot, hwrite, if_true]
  exact Prod.ext hordinal (congrArg (fun slots => { s.withTables (s.tables.emit m.message) with
    slots, order := s.order ++ [s.slots.length], gen := s.gen + 1 }) hset)

theorem Refines.pushed (hfit : (s.tables.emit m).Fits) (hrole : m.role.toNat ≤ kRoleTool.toNat)
    (hcount : s.slots.length + 1 < 2 ^ 32) : (s.pushed m).Refines (l ++ [m]) := by
  have hgrow := extends_emit s.tables m
  have hsum : ∀ f : Message → Nat, ((l ++ [m]).map f).sum = (l.map f).sum + f m := by
    intro f
    simp
  constructor
  case clean => exact h.clean.emit hfit.arena
  case fits => exact hfit
  case count => simpa [HistoryStore.pushed] using hcount
  case slots =>
    intro slot hslot
    obtain hslot | hslot := List.mem_append.mp hslot
    · exact (h.slots slot hslot).mono hgrow.arena.length_le hgrow.parts.length_le
        hgrow.calls.length_le
    · obtain rfl := List.mem_singleton.mp hslot
      exact slotOk_messageRecord hfit hrole
  case order =>
    show s.order ++ [s.slots.length] = liveOrder (s.slots ++ [_])
    rw [liveOrder_append _ (show (1 : BitVec 8) ≠ 0 by decide), ← h.order]
  case messages =>
    have hold : s.order.map (s.pushed m).messageAt = s.order.map s.messageAt := by
      refine List.map_congr_left fun i hi => ?_
      obtain ⟨k, hk⟩ := List.getElem?_of_mem hi
      obtain ⟨m', -, hm'⟩ := h.messageAt hk
      rw [hm']
      exact messageAt_mono hgrow (List.getElem?_append_left (h.mem_order hi)) hm'
    have hnew : (s.pushed m).messageAt s.slots.length = some m :=
      messageAt_messageRecord (t := s.tables) (.refl _) hfit (by simp [HistoryStore.pushed])
    show (s.order ++ [s.slots.length]).map (s.pushed m).messageAt = _
    rw [List.map_append, hold, h.messages, List.map_append]
    simp [hnew]
  case covers =>
    exact h.covers.emit m (hsum _).le (hsum _).le (hsum _).le
  case cached => exact h.cached.invalidate (by rfl) (by rfl) _

omit h in
theorem sum_set_le (f : Message → Nat) (l : List Message) (k : Nat) (m : Message) :
    ((l.set k m).map f).sum ≤ (l.map f).sum + f m := by
  induction l generalizing k with
  | nil => exact Nat.zero_le _
  | cons a l ih =>
    cases k with
    | zero =>
      simp only [List.set_cons_zero, List.map_cons, List.sum_cons]
      omega
    | succ k =>
      have := ih k
      simp only [List.set_cons_succ, List.map_cons, List.sum_cons]
      omega

/-- Overwriting a live slot sets the message at its position. -/
theorem Refines.written {k slot : Nat} (hk : s.order[k]? = some slot)
    (hfit : (s.tables.emit m).Fits) (hrole : m.role.toNat ≤ kRoleTool.toNat) :
    (s.written slot m).invalidate.Refines (l.set k m) := by
  have hgrow := extends_emit s.tables m
  have hmem := List.mem_of_getElem? hk
  have hlt := h.mem_order hmem
  constructor
  case clean => exact h.clean.emit hfit.arena
  case fits => exact hfit
  case count => simpa [HistoryStore.written, invalidate] using h.count
  case slots =>
    intro other hother
    obtain hother | rfl := List.mem_or_eq_of_mem_set hother
    · exact (h.slots other hother).mono hgrow.arena.length_le hgrow.parts.length_le
        hgrow.calls.length_le
    · exact slotOk_messageRecord hfit hrole
  case order =>
    show s.order = liveOrder (s.slots.set slot ⟨_, 1⟩)
    rw [liveOrder_set (h.order ▸ hmem) (show (1 : BitVec 8) ≠ 0 by decide), ← h.order]
  case messages =>
    refine List.ext_getElem? fun j => ?_
    show (s.order.map (s.written slot m).messageAt)[j]? = _
    rw [List.getElem?_map, List.getElem?_map]
    obtain rfl | hne := eq_or_ne k j
    · have hnew : (s.written slot m).messageAt slot = some m :=
        messageAt_messageRecord (t := s.tables) (.refl _) hfit (List.getElem?_set_self hlt)
      have hkl : k < l.length := h.length ▸ (List.getElem?_eq_some_iff.mp hk).1
      rw [hk, List.getElem?_set_self hkl, Option.map_some, hnew, Option.map_some]
    · rw [List.getElem?_set_ne hne]
      cases hj : s.order[j]? with
      | none =>
        have hget := congrArg (·[j]?) h.messages
        simpa [hj] using hget
      | some i =>
        obtain ⟨m', hl, hm'⟩ := h.messageAt hj
        -- no other position of the order has this slot
        have hother : slot ≠ i := by
          rintro rfl
          exact hne ((List.getElem?_inj (List.getElem?_eq_some_iff.mp hk).1 h.nodup).mp
            (hk.trans hj.symm))
        rw [hl, Option.map_some, Option.map_some,
          messageAt_mono hgrow (List.getElem?_set_ne hother) hm']
  case covers => exact h.covers.emit m (sum_set_le _ l k m) (sum_set_le _ l k m) (sum_set_le _ l k m)
  case cached => exact h.cached.invalidate (by rfl) (by rfl) _

end Write

/-! ### Dropping keeps the relation -/

section Bury

theorem getElem?_bury (slots : List Slot) (i j : Nat) :
    ((bury slots i)[j]?).map Slot.record = (slots[j]?).map Slot.record := by
  rw [bury, List.getElem?_modify]
  split <;> cases slots[j]? <;> rfl

theorem getElem?_foldl_bury (slots : List Slot) (is : List Nat) (j : Nat) :
    ((is.foldl bury slots)[j]?).map Slot.record = (slots[j]?).map Slot.record := by
  induction is generalizing slots with
  | nil => rfl
  | cons i is ih => rw [List.foldl_cons, ih, getElem?_bury]

theorem length_foldl_bury (slots : List Slot) (is : List Nat) :
    (is.foldl bury slots).length = slots.length := by
  induction is generalizing slots with
  | nil => rfl
  | cons i is ih => rw [List.foldl_cons, ih, bury, List.length_modify]

variable {s : HistoryStore} {l : List Message}

/-- Only the record of a slot matters for its message. -/
theorem messageAt_congr {s' : HistoryStore} (ht : s'.tables = s.tables)
    (hslot : (s'.slots[i]?).map Slot.record = (s.slots[i]?).map Slot.record) :
    s'.messageAt i = s.messageAt i := by
  rw [messageAt, messageAt, ht]
  cases hs : s.slots[i]? with
  | none =>
    rw [hs] at hslot
    rw [Option.map_eq_none_iff.mp hslot]
  | some slot =>
    rw [hs, Option.map_some] at hslot
    obtain ⟨slot', hslot', hrecord⟩ := Option.map_eq_some_iff.mp hslot
    rw [hslot', Option.bind_some, Option.bind_some, hrecord]

theorem Covers.sublist (h : Covers t l) (hsub : l'.Sublist l) : Covers t l' := by
  have hle : ∀ f : Message → Nat, (l'.map f).sum ≤ (l.map f).sum := fun f =>
    (hsub.map f).sum_le_sum fun _ _ => Nat.zero_le _
  exact ⟨le_trans (hle _) h.arena, le_trans (hle _) h.parts, le_trans (hle _) h.calls⟩

/-- Marking slots dead keeps the rest of the list. -/
theorem Refines.bury (h : s.Refines l) (is : List Nat) (horder : order = s.order.filter (· ∉ is))
    (hmessages : order.map s.messageAt = l'.map some) (hsub : l'.Sublist l) :
    { s with slots := is.foldl HistoryStore.bury s.slots, order }.invalidate.Refines l' := by
  constructor
  case clean => exact h.clean
  case fits => exact h.fits
  case count => exact (length_foldl_bury s.slots is).symm ▸ h.count
  case slots =>
    intro slot hslot
    obtain ⟨j, hj⟩ := List.getElem?_of_mem hslot
    have hrecord := getElem?_foldl_bury s.slots is j
    rw [show (is.foldl HistoryStore.bury s.slots)[j]? = some slot from hj, Option.map_some] at hrecord
    obtain ⟨old, hold, heq⟩ := Option.map_eq_some_iff.mp hrecord.symm
    have hok := h.slots old (List.mem_of_getElem? hold)
    unfold SlotOk at hok ⊢
    rwa [heq] at hok
  case order =>
    show order = liveOrder (is.foldl HistoryStore.bury s.slots)
    rw [liveOrder_foldl_bury, ← h.order, horder]
  case messages =>
    refine Eq.trans (List.map_congr_left fun i _ => ?_) hmessages
    refine messageAt_congr ?_ ?_
    · rfl
    · exact getElem?_foldl_bury s.slots is i
  case covers => exact h.covers.sublist hsub
  case cached => exact h.cached.invalidate (by rfl) (by rfl) _

theorem Refines.drop {s : HistoryStore} {l : List Message} (h : s.Refines l) (k : Nat) :
    (s.drop k).2.Refines (l.eraseIdx k) := by
  rw [HistoryStore.drop]
  cases hk : s.order[k]? with
  | none =>
    have hle := List.getElem?_eq_none_iff.mp hk
    have hl : l.eraseIdx k = l := List.eraseIdx_of_length_le (h.length ▸ hle)
    exact hl.symm ▸ h
  | some slot =>
    obtain ⟨hlt, rfl⟩ := List.getElem?_eq_some_iff.mp hk
    refine h.bury [s.order[k]] ?_ ?_ (List.eraseIdx_sublist _ _)
    · rw [← h.nodup.erase_getElem k hlt, h.nodup.erase_eq_filter]
      exact List.filter_congr fun j _ => by simp [bne, beq_eq_decide]
    · rw [← List.eraseIdx_map, h.messages, List.eraseIdx_map]

theorem Refines.truncate (h : s.Refines l) (count : Nat) :
    (s.truncate count).Refines (l.take count) := by
  rw [HistoryStore.truncate]
  split_ifs with hlt
  · rw [List.take_of_length_le (h.length ▸ hlt)]
    exact h
  · refine h.bury (s.order.drop count) ?_ ?_ (List.take_sublist _ _)
    · have hsplit := List.take_append_drop count s.order
      have hdisjoint := List.disjoint_of_nodup_append (hsplit.symm ▸ h.nodup)
      have hkept : (s.order.take count).filter (· ∉ s.order.drop count) = s.order.take count := by
        rw [List.filter_eq_self]
        intro i hi
        simpa using fun hdrop => hdisjoint hi hdrop
      have hgone : (s.order.drop count).filter (· ∉ s.order.drop count) = [] := by
        rw [List.filter_eq_nil_iff]
        intro i hi
        simpa using hi
      calc s.order.take count
          = (s.order.take count ++ s.order.drop count).filter (· ∉ s.order.drop count) := by
            rw [List.filter_append, hkept, hgone, List.append_nil]
        _ = s.order.filter (· ∉ s.order.drop count) := by rw [hsplit]
    · rw [List.map_take, h.messages, List.map_take]

theorem Refines.clear {s : HistoryStore} {l : List Message} (h : s.Refines l) :
    s.clear.Refines [] := by
  rw [HistoryStore.clear]
  split_ifs with hempty
  · obtain ⟨hslots, -⟩ := hempty
    have horder : s.order = [] := by
      rw [h.order, hslots]
      rfl
    refine ⟨h.clean, h.fits, h.count, h.slots, h.order, ?_, ?_,
      h.cached.invalidate (by rfl) (by rfl) _⟩
    · show s.order.map _ = _
      rw [horder]
      rfl
    · exact h.covers.sublist (List.nil_sublist l)
  · exact ⟨clean_empty, refines_empty.fits, refines_empty.count, fun _ hslot => absurd hslot List.not_mem_nil,
      rfl, rfl, refines_empty.covers, h.cached.invalidate (by rfl) (by rfl) _⟩

end Bury

/-! ### Compaction and reloading keep the relation -/

section Rebuild

variable {s : HistoryStore} {l : List Message} (h : s.Refines l)

include h

theorem Refines.copySlots {ms : List Message} (hms : order.map s.messageAt = ms.map some)
    (t : Tables) (slots : List Slot) :
    s.copySlots order t slots = some (t.emitAll ms, slots ++ (records t ms).map (⟨·, 1⟩)) := by
  induction order generalizing ms t slots with
  | nil =>
    obtain rfl : ms = [] := by simpa using hms.symm
    simp [HistoryStore.copySlots, records, Tables.emitAll]
  | cons i order ih =>
    cases ms with
    | nil => cases hms
    | cons m ms =>
      obtain ⟨hm, hrest⟩ := List.cons.inj hms
      obtain ⟨slot, hslot, hread, hflags⟩ := messageAt_eq_some.mp hm
      have hok := h.slots slot (List.mem_of_getElem? hslot)
      rw [HistoryStore.copySlots, hslot, Option.bind_some,
        copySlot_eq h.clean hread hflags hok.2.2.2, Option.bind_some, ih hrest, records,
        List.map_cons, List.append_assoc]
      rfl

theorem Refines.role (hm : m ∈ l) : m.role.toNat ≤ kRoleTool.toNat := by
  have hmem : some m ∈ s.order.map s.messageAt := h.messages ▸ List.mem_map_of_mem hm
  obtain ⟨i, -, hi⟩ := List.mem_map.mp hmem
  obtain ⟨slot, hslot, hread, -⟩ := messageAt_eq_some.mp hi
  obtain ⟨parts, -, hread⟩ := Option.bind_eq_some_iff.mp hread
  obtain ⟨calls, -, hread⟩ := Option.bind_eq_some_iff.mp hread
  obtain ⟨tcid, -, rfl⟩ := Option.map_eq_some_iff.mp hread
  exact (h.slots slot (List.mem_of_getElem? hslot)).1

/-- The live messages fit where the store fitted. -/
theorem Refines.fits_emitAll : (Tables.emitAll {} l).Fits := by
  have h1 := h.covers.arena
  have h2 := h.covers.parts
  have h3 := h.covers.calls
  refine ⟨?_, ?_, ?_⟩
  · rw [length_arena_emitAll]
    exact le_trans (by simpa using h1) h.fits.arena
  · rw [length_parts_emitAll]
    exact lt_of_le_of_lt (by simpa using h2) h.fits.parts
  · rw [length_calls_emitAll]
    exact lt_of_le_of_lt (by simpa using h3) h.fits.calls

theorem Refines.compact : ∃ s', s.compact = some s' ∧ s'.Refines l := by
  have hfit := h.fits_emitAll
  have hlength : l.length < 2 ^ 32 := h.length ▸ h.order_lt
  -- what holds of the record of each message in the new tables
  have hrecord : ∀ {j : Nat} {m : Message}, l[j]? = some m → ∃ r, (records {} l)[j]? = some r ∧
      (Tables.emitAll {} l).readMessage r = some m ∧ r.flags = messageFlags m ∧
      SlotOk (Tables.emitAll {} l).arena.length (Tables.emitAll {} l).parts.length
        (Tables.emitAll {} l).calls.length ⟨r, 1⟩ := by
    intro j m hm
    refine records_spec (P := fun r m => (Tables.emitAll {} l).readMessage r = some m ∧
      r.flags = messageFlags m ∧ SlotOk _ _ _ ⟨r, 1⟩) ?_ (.refl _) hm
    intro t m hm hext
    exact ⟨readMessage_emit hext hfit, rfl,
      (slotOk_messageRecord (hext.fits hfit) (h.role hm)).mono hext.arena.length_le
        hext.parts.length_le hext.calls.length_le⟩
  have horder : (List.range ((records {} l).map fun r => (⟨r, 1⟩ : Slot)).length).map (· % 2 ^ 32) =
      List.range l.length := by
    rw [List.length_map, length_records]
    refine (List.map_congr_left fun i hi => ?_).trans (List.map_id _)
    exact Nat.mod_eq_of_lt (lt_trans (List.mem_range.mp hi) hlength)
  rw [HistoryStore.compact, h.copySlots h.messages {} [], Option.map_some, List.nil_append, horder]
  refine ⟨_, rfl, ?_⟩
  constructor
  case clean => exact clean_empty.emitAll hfit.arena
  case fits => exact hfit
  case count => simpa [invalidate] using hlength
  case slots =>
    intro slot hslot
    obtain ⟨r, hr, rfl⟩ := List.mem_map.mp hslot
    obtain ⟨j, hj, hget⟩ := List.getElem_of_mem hr
    have hm := List.getElem?_eq_getElem (l := l) (i := j) (by simpa using hj)
    obtain ⟨r', hr', -, -, hok⟩ := hrecord hm
    rw [List.getElem?_eq_getElem hj, hget] at hr'
    exact Option.some.inj hr' ▸ hok
  case order =>
    show List.range l.length = liveOrder ((records {} l).map (⟨·, 1⟩))
    rw [liveOrder_all_live, length_records]
  case messages =>
    refine List.ext_getElem? fun j => ?_
    show ((List.range l.length).map _)[j]? = _
    rw [List.getElem?_map, List.getElem?_map]
    obtain hj | hj := Nat.lt_or_ge j l.length
    · have hm := List.getElem?_eq_getElem hj
      obtain ⟨r, hr, hread, hflags, -⟩ := hrecord hm
      rw [List.getElem?_range hj, hm, Option.map_some, Option.map_some, Option.some.injEq]
      refine messageAt_eq_some.mpr ⟨⟨r, 1⟩, ?_, hread, hflags⟩
      show ((records {} l).map (fun r => (⟨r, 1⟩ : Slot)))[j]? = _
      rw [List.getElem?_map, hr, Option.map_some]
    · rw [List.getElem?_eq_none hj, List.getElem?_eq_none (by simpa using hj)]
      rfl
  case covers =>
    refine ⟨?_, ?_, ?_⟩
    · show _ ≤ (Tables.emitAll {} l).arena.length
      rw [length_arena_emitAll]
      exact Nat.le_add_left _ _
    · show _ ≤ (Tables.emitAll {} l).parts.length
      rw [length_parts_emitAll]
      exact Nat.le_add_left _ _
    · show _ ≤ (Tables.emitAll {} l).calls.length
      rw [length_calls_emitAll]
      exact Nat.le_add_left _ _
  case cached => exact h.cached.invalidate (by rfl) (by rfl) _

/-- A store is loaded back from what it saves, into itself or into any other store. -/
theorem Refines.load_save {t : HistoryStore} (ht : t.Cached l') :
    ∃ s', t.load s.save = (true, s') ∧ s'.Refines l := by
  refine ⟨_, HistoryStore.load_save h.fits h.count ⟨h.slots, h.clean.valid⟩ h.order t, h.clean,
    h.fits, h.count, h.slots, h.order, ?_, h.covers, ht.invalidate (by rfl) (by rfl) _⟩
  refine Eq.trans (List.map_congr_left fun i _ => ?_) h.messages
  refine messageAt_congr ?_ ?_
  · rfl
  · rfl

end Rebuild

end HistoryStore

end KimixNative.Soul
