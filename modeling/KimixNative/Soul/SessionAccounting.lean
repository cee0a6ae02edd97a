import KimixNative.Soul.SessionStore
import Mathlib.Algebra.Order.BigOperators.Group.List

/-!
# The books of the session store

Every byte of the arena is either a byte of a live session or counted as dead, a session has
the bytes of its parts, and no two live sessions share an id. Each operation keeps the books,
also where they call each other: appending trims its own ring, closes other sessions and may
compact, and the session that was appended to may itself be closed.
-/

namespace KimixNative.Soul

namespace PartFields

variable {α β σ : Type}

variable {f : α → σ → Option (β × σ)} {y : List β × σ}

theorem length_mapListM {l : List α} {s : σ} (h : mapListM f l s = some y) :
    y.1.length = l.length := by
  induction l generalizing s y with
  | nil =>
    obtain rfl := Option.some.inj h
    rfl
  | cons a l ih =>
    obtain ⟨x, -, hrest⟩ := Option.bind_eq_some_iff.mp h
    obtain ⟨z, hz, rfl⟩ := Option.map_eq_some_iff.mp hrest
    rw [List.length_cons, ih hz, List.length_cons]

theorem ofList_of_length {l : List α} (h : l.length = 12) :
    ∃ x, ofList l = some x ∧ x.toList = l := by
  match l, h with
  | [_, _, _, _, _, _, _, _, _, _, _, _], _ => exact ⟨_, rfl, rfl⟩

theorem mapM_eq_some {x : PartFields α} {s : σ} (h : mapListM f x.toList s = some y) :
    ∃ z, x.mapM f s = some (z, y.2) ∧ z.toList = y.1 := by
  obtain ⟨z, hz, hlist⟩ := ofList_of_length ((length_mapListM h).trans rfl)
  exact ⟨z, by rw [mapM, h, Option.bind_some, hz, Option.map_some], hlist⟩

end PartFields

namespace SessionStore

/-! ### Spans -/

/-- The bound under which signed offsets are what they should be. -/
def arenaLimit : Nat := 2 ^ 31

theorem spanBytes_eq {x : Span} {len : Nat} (h : SpanOk x.start x.stop len) :
    spanBytes x = x.stop.toNat - x.start.toNat := by
  have hstop := toInt_eq_toNat (le_trans h.1 h.2.1)
  have hlt : x.stop.toNat < 2 ^ 31 := by
    have h1 := BitVec.toInt_lt (x := x.stop)
    rw [hstop] at h1
    exact_mod_cast h1
  have hdiff : (x.stop - x.start).toNat = x.stop.toNat - x.start.toNat :=
    BitVec.toNat_sub_of_le (BitVec.le_def.mpr h.le.1)
  have hmsb : (x.stop - x.start).msb = false := by
    rw [BitVec.msb_eq_false_iff_two_mul_lt, hdiff]
    omega
  rw [spanBytes, BitVec.signExtend_eq_setWidth_of_msb_false hmsb, BitVec.toNat_setWidth, hdiff,
    Nat.mod_eq_of_lt (by omega)]

/-- A span at the end of the arena. -/
theorem spanOk_append (arena text : Bytes) (h : (arena ++ text).length < arenaLimit) :
    SpanOk (BitVec.ofNat 32 arena.length) (BitVec.ofNat 32 (arena.length + text.length))
        (arena ++ text).length ∧
      spanBytes ⟨BitVec.ofNat 32 arena.length, BitVec.ofNat 32 (arena.length + text.length)⟩ =
        text.length := by
  unfold arenaLimit at h
  have hlen : (arena ++ text).length = arena.length + text.length := List.length_append
  have hok := spanOk_ofNat (Nat.le_add_right arena.length text.length) hlen.ge
    (by unfold int32Max; omega)
  refine ⟨hok, ?_⟩
  rw [spanBytes_eq hok, toNat_ofNat (by omega), toNat_ofNat (by omega)]
  omega

/-- What storing one text does: the arena grows by the text, and the span is that of the
text. -/
structure Stored (size : Nat) (arena : Bytes) (x : Span) (arena' : Bytes) : Prop where
  length : arena'.length = arena.length + size
  ok : SpanOk x.start x.stop arena'.length
  bytes : spanBytes x = size

variable {arena : Bytes}

theorem place_stored {v : StringView} (h : arena.length + (v.getD []).length < arenaLimit) :
    ∃ x arena', place v arena = some (x, arena') ∧ Stored (v.getD []).length arena x arena' := by
  obtain ⟨hok, hbytes⟩ := spanOk_append arena (v.getD [])
    (by rw [List.length_append]; exact h)
  refine ⟨_, _, rfl, List.length_append, ?_, ?_⟩
  · rwa [BitVec.ofNat_add] at hok
  · rwa [BitVec.ofNat_add] at hbytes

variable {old : Bytes} {p : PartSlot} {s : SessionStore}

theorem moveSpan_stored {x : Span} (hx : SpanOk x.start x.stop old.length)
    (h : arena.length + spanBytes x < arenaLimit) :
    ∃ y arena', moveSpan old x arena = some (y, arena') ∧ Stored (spanBytes x) arena y arena' := by
  have htext : (slice old x.start x.stop).length = spanBytes x := by
    obtain ⟨h1, h2⟩ := hx.le
    rw [spanBytes_eq hx, slice, List.length_take, List.length_drop]
    omega
  obtain ⟨hok, hbytes⟩ := spanOk_append arena (slice old x.start x.stop)
    (by rw [List.length_append, htext]; exact h)
  rw [moveSpan]
  split_ifs with hzero
  · obtain ⟨hok', hbytes'⟩ := spanOk_append arena [] (by
      rw [List.append_nil]; exact lt_of_le_of_lt (Nat.le_add_right _ _) h)
    rw [List.append_nil] at hok'
    exact ⟨_, _, rfl, by rw [hzero, Nat.add_zero], hok', by rw [hzero]; exact hbytes'⟩
  · refine ⟨_, _, rfl, by rw [List.length_append, htext], ?_, ?_⟩
    · rw [← List.length_append] at hok
      exact hok
    · rw [← List.length_append, htext] at hbytes
      exact hbytes

/-- Storing texts one after the other. -/
theorem mapListM_stored {α : Type} {f : α → Bytes → Option (Span × Bytes)} {size : α → Nat}
    {l : List α}
    (hf : ∀ a ∈ l, ∀ arena, arena.length + size a < arenaLimit → ∃ x arena', f a arena = some (x,
      arena') ∧ Stored (size a) arena x arena') (h : arena.length + (l.map size).sum < arenaLimit) :
    ∃ xs arena', PartFields.mapListM f l arena = some (xs, arena') ∧
      arena'.length = arena.length + (l.map size).sum ∧
      (∀ x ∈ xs, SpanOk x.start x.stop arena'.length) ∧
      (xs.map spanBytes).sum = (l.map size).sum := by
  induction l generalizing arena with
  | nil => exact ⟨[], arena, rfl, rfl, fun _ hx => absurd hx List.not_mem_nil, rfl⟩
  | cons a l ih =>
    rw [List.map_cons, List.sum_cons] at h
    obtain ⟨x, arena₁, hx, hstored⟩ := hf a List.mem_cons_self arena (by omega)
    have hlen := hstored.length
    obtain ⟨xs, arena₂, hxs, hlen', hok, hsum⟩ := ih
      (fun b hb => hf b (List.mem_cons_of_mem _ hb)) (by omega : arena₁.length + _ < arenaLimit)
    refine ⟨x :: xs, arena₂, ?_, ?_, ?_, ?_⟩
    · rw [PartFields.mapListM, hx, Option.bind_some, hxs, Option.map_some]
    · rw [List.map_cons, List.sum_cons]
      omega
    · intro y hy
      obtain rfl | hy := List.mem_cons.mp hy
      · exact hstored.ok.mono (by omega)
      · exact hok y hy
    · rw [List.map_cons, List.sum_cons, hsum, hstored.bytes, List.map_cons, List.sum_cons]

/-- The spans of a part lie inside the arena. -/
def PartOk (len : Nat) (p : PartSlot) : Prop := ∀ x ∈ p.fields.toList, SpanOk x.start x.stop len

theorem PartOk.mono {len len' : Nat} (h : PartOk len p) (hle : len ≤ len') :
    PartOk len' p := fun x hx => (h x hx).mono hle

theorem spanBytes_lt {x : Span} {len : Nat} (h : SpanOk x.start x.stop len) :
    spanBytes x < 2 ^ 31 := by
  have hstop := toInt_eq_toNat (le_trans h.1 h.2.1)
  have hlt := BitVec.toInt_lt (x := x.stop)
  rw [hstop] at hlt
  have hlt' : x.stop.toNat < 2 ^ 31 := by exact_mod_cast hlt
  rw [spanBytes_eq h]
  omega

/-- The count of a part inside the arena does not wrap. -/
theorem PartOk.slotBytes_eq {len : Nat} (h : PartOk len p) :
    slotBytes p = (p.fields.toList.map spanBytes).sum := by
  have hsum : (p.fields.toList.map spanBytes).sum ≤ (p.fields.toList.map spanBytes).length • 2 ^ 31 := by
    refine List.sum_le_card_nsmul _ _ fun n hn => ?_
    obtain ⟨x, hx, rfl⟩ := List.mem_map.mp hn
    exact Nat.le_of_lt (spanBytes_lt (h x hx))
  have hlength : (p.fields.toList.map spanBytes).length = 12 := List.length_map ..
  rw [hlength] at hsum
  exact Nat.mod_eq_of_lt (lt_of_le_of_lt hsum (by decide))

theorem place_fields {fields : PartFields StringView}
    (h : arena.length + (fields.toList.map fun v => (v.getD []).length).sum < arenaLimit) :
    ∃ spans arena', fields.mapM place arena = some (spans, arena') ∧
      arena'.length = arena.length + (fields.toList.map fun v => (v.getD []).length).sum ∧
      (∀ x ∈ spans.toList, SpanOk x.start x.stop arena'.length) ∧
      (spans.toList.map spanBytes).sum = (fields.toList.map fun v => (v.getD []).length).sum := by
  obtain ⟨xs, arena', hxs, hlen, hok, hsum⟩ := mapListM_stored (l := fields.toList)
    (fun v _ arena => place_stored) h
  obtain ⟨spans, hspans, rfl⟩ := PartFields.mapM_eq_some hxs
  exact ⟨spans, arena', hspans, hlen, hok, hsum⟩

theorem movePart_stored (hp : PartOk old.length p) (h : arena.length + slotBytes p < arenaLimit) :
    ∃ p' arena', movePart old p arena = some (p', arena') ∧
      arena'.length = arena.length + slotBytes p ∧ PartOk arena'.length p' ∧
      slotBytes p' = slotBytes p := by
  rw [hp.slotBytes_eq] at h ⊢
  obtain ⟨xs, arena', hxs, hlen, hok, hsum⟩ := mapListM_stored (l := p.fields.toList)
    (fun x hx arena => moveSpan_stored (hp x hx)) h
  obtain ⟨spans, hspans, rfl⟩ := PartFields.mapM_eq_some hxs
  refine ⟨{ p with fields := spans }, arena', ?_, hlen, hok, ?_⟩
  · rw [movePart, hspans, Option.map_some]
  · exact (PartOk.slotBytes_eq (p := { p with fields := spans }) hok).trans hsum

theorem moveParts_stored {ps : List PartSlot} (hps : ∀ p ∈ ps, PartOk old.length p)
    (h : arena.length + (ps.map slotBytes).sum < arenaLimit) :
    ∃ ps' arena', moveParts old ps arena = some (ps', arena') ∧
      arena'.length = arena.length + (ps.map slotBytes).sum ∧
      (∀ p ∈ ps', PartOk arena'.length p) ∧ (ps'.map slotBytes).sum = (ps.map slotBytes).sum := by
  induction ps generalizing arena with
  | nil => exact ⟨[], arena, rfl, rfl, fun _ hp => absurd hp List.not_mem_nil, rfl⟩
  | cons p ps ih =>
    rw [List.map_cons, List.sum_cons] at h
    obtain ⟨p', arena₁, hp', hlen, hok, hsum⟩ :=
      movePart_stored (hps p List.mem_cons_self) (by omega : arena.length + _ < arenaLimit)
    obtain ⟨ps', arena₂, hps', hlen', hok', hsum'⟩ := ih
      (fun q hq => hps q (List.mem_cons_of_mem _ hq)) (by omega : arena₁.length + _ < arenaLimit)
    refine ⟨p' :: ps', arena₂, ?_, ?_, ?_, ?_⟩
    · rw [moveParts, hp', Option.bind_some, hps', Option.map_some]
    · rw [List.map_cons, List.sum_cons]
      omega
    · intro q hq
      obtain rfl | hq := List.mem_cons.mp hq
      · exact hok.mono (by omega)
      · exact hok' q hq
    · rw [List.map_cons, List.sum_cons, hsum, hsum', List.map_cons, List.sum_cons]

/-! ### The books -/

/-- The bytes of a slot that count as live. -/
def liveBytes (x : SessionSlot) : Nat := if x.live then x.bytes else 0

/-- A live session has the bytes of its parts, all of them in the arena. -/
def SlotOk (len : Nat) (x : SessionSlot) : Prop :=
  x.live = true → x.bytes = (x.parts.map slotBytes).sum ∧ ∀ p ∈ x.parts, PartOk len p

/-- A slot after compaction: the parts are the same in size. -/
structure Moved (len : Nat) (x x' : SessionSlot) : Prop where
  rest : x' = { x with parts := x'.parts }
  sum : (x'.parts.map slotBytes).sum = (x.parts.map slotBytes).sum
  ok : x.live = true → ∀ p ∈ x'.parts, PartOk len p

theorem moveSessions_stored {ss : List SessionSlot} (hss : ∀ x ∈ ss, SlotOk old.length x)
    (h : arena.length + (ss.map liveBytes).sum < arenaLimit) :
    ∃ ss' arena', moveSessions old ss arena = some (ss', arena') ∧
      arena'.length = arena.length + (ss.map liveBytes).sum ∧
      List.Forall₂ (Moved arena'.length) ss ss' := by
  induction ss generalizing arena with
  | nil => exact ⟨[], arena, rfl, rfl, .nil⟩
  | cons x ss ih =>
    have hrest : ∀ y ∈ ss, SlotOk old.length y := fun y hy => hss y (List.mem_cons_of_mem _ hy)
    rw [List.map_cons, List.sum_cons] at h
    rw [moveSessions, List.map_cons, List.sum_cons]
    split_ifs with hlive
    · obtain ⟨hbytes, hparts⟩ := hss x List.mem_cons_self hlive
      have hx : liveBytes x = (x.parts.map slotBytes).sum := by rw [liveBytes, if_pos hlive, hbytes]
      rw [hx] at h ⊢
      obtain ⟨ps', arena₁, hps', hlen, hok, hsum⟩ :=
        moveParts_stored hparts (by omega : arena.length + _ < arenaLimit)
      obtain ⟨ss', arena₂, hss', hlen', hmoved⟩ :=
        ih hrest (by omega : arena₁.length + _ < arenaLimit)
      refine ⟨{ x with parts := ps' } :: ss', arena₂, ?_, by omega, .cons ?_ hmoved⟩
      · rw [hps', Option.bind_some, hss', Option.map_some]
      · exact ⟨rfl, hsum, fun _ p hp => (hok p hp).mono (by omega)⟩
    · have hx : liveBytes x = 0 := if_neg hlive
      rw [hx, Nat.zero_add] at h ⊢
      obtain ⟨ss', arena', hss', hlen, hmoved⟩ := ih hrest h
      refine ⟨x :: ss', arena', ?_, hlen, .cons ?_ hmoved⟩
      · rw [hss', Option.map_some]
      · exact ⟨rfl, rfl, fun hx => absurd hx hlive⟩

/-- No two live slots have the same id. -/
def Distinct (ss : List SessionSlot) : Prop :=
  ∀ (i j : Nat) (x y : SessionSlot), ss[i]? = some x → ss[j]? = some y →
    x.live = true → y.live = true → x.id = y.id → i = j

structure Books (s : SessionStore) : Prop where
  slots : ∀ x ∈ s.sessions, SlotOk s.arena.length x
  distinct : Distinct s.sessions
  count : s.liveSessions = s.sessions.countP (·.live)
  arena : s.arena.length = (s.sessions.map liveBytes).sum + s.deadBytes
  room : s.arena.length < arenaLimit
  size : s.sessions.length < 2 ^ 32
  free : s.freeSlots.Nodup
  dead : ∀ i ∈ s.freeSlots, ∃ x, s.sessions[i]? = some x ∧ x.live = false
  lru : ∀ x ∈ s.sessions, x.live = true → x.lru < maxLru
  ring : ∀ x ∈ s.sessions, x.live = true → s.perSessionBudget ≠ 0 → x.bytes ≤ s.perSessionBudget

theorem Books.bytesLive_eq (h : s.Books) : s.bytesLive = (s.sessions.map liveBytes).sum := by
  have harena := h.arena
  have hroom := h.room
  unfold arenaLimit at hroom
  have hlt : (s.sessions.map liveBytes).sum < 2 ^ 64 := by omega
  exact Nat.mod_eq_of_lt hlt

theorem books_empty (perSession total : Nat) : Books ⟨perSession, total, [], 0, [], [], 0, 0, 0⟩ where
  slots := fun _ h => absurd h List.not_mem_nil
  distinct := by
    intro i j x y hx
    cases hx
  count := rfl
  arena := rfl
  room := Nat.two_pow_pos 31
  size := Nat.two_pow_pos 32
  free := List.nodup_nil
  dead := fun _ h => absurd h List.not_mem_nil
  lru := fun _ h => absurd h List.not_mem_nil
  ring := fun _ h => absurd h List.not_mem_nil

/-! ### Compaction -/

/-- What compaction and closing leave as it is. -/
structure SameShape (s s' : SessionStore) : Prop where
  perSession : s'.perSessionBudget = s.perSessionBudget
  total : s'.totalBudget = s.totalBudget
  size : s'.sessions.length = s.sessions.length

theorem SameShape.refl (s : SessionStore) : SameShape s s := ⟨rfl, rfl, rfl⟩

theorem SameShape.trans {s₁ s₂ s₃ : SessionStore} (h : SameShape s₁ s₂) (h' : SameShape s₂ s₃) :
    SameShape s₁ s₃ :=
  ⟨h'.perSession.trans h.perSession, h'.total.trans h.total, h'.size.trans h.size⟩

section Moved

variable {len : Nat} {ss ss' : List SessionSlot} (h : List.Forall₂ (Moved len) ss ss')

include h

variable {x' : SessionSlot}

theorem moved_getElem? {i : Nat} (hx' : ss'[i]? = some x') :
    ∃ x, ss[i]? = some x ∧ Moved len x x' := by
  induction h generalizing i with
  | nil => cases hx'
  | cons hmoved _ ih =>
    cases i with
    | zero =>
      obtain rfl := Option.some.inj hx'
      exact ⟨_, rfl, hmoved⟩
    | succ i => exact ih hx'

theorem moved_mem (hx' : x' ∈ ss') : ∃ x ∈ ss, Moved len x x' := by
  obtain ⟨i, hi⟩ := List.getElem?_of_mem hx'
  obtain ⟨x, hx, hmoved⟩ := moved_getElem? h hi
  exact ⟨x, List.mem_of_getElem? hx, hmoved⟩

/-- Anything but the parts is the same, slot by slot. -/
theorem moved_map {β : Type} {f : SessionSlot → β}
    (hf : ∀ (x : SessionSlot) parts, f { x with parts } = f x) : ss'.map f = ss.map f := by
  induction h with
  | nil => rfl
  | cons hmoved _ ih => rw [List.map_cons, List.map_cons, ih, hmoved.rest, hf]

end Moved

theorem Books.compactArena (h : s.Books) :
    ∃ s', s.compactArena = some s' ∧ s'.Books ∧ SameShape s s' ∧ s'.bytesLive = s.bytesLive ∧
      s'.liveSessions = s.liveSessions := by
  have hroom : ([] : Bytes).length + (s.sessions.map liveBytes).sum < arenaLimit := by
    have h1 := h.arena
    have h2 := h.room
    rw [List.length_nil]
    omega
  obtain ⟨ss', arena', hmove, hlen, hmoved⟩ := moveSessions_stored h.slots hroom
  rw [List.length_nil, Nat.zero_add] at hlen
  have hbytes : ss'.map liveBytes = s.sessions.map liveBytes := moved_map hmoved fun _ _ => rfl
  have hlives : ss'.map (·.live) = s.sessions.map (·.live) := moved_map hmoved fun _ _ => rfl
  have hlength : ss'.length = s.sessions.length := by
    simpa using congrArg List.length hlives
  refine ⟨{ s with sessions := ss', arena := arena', deadBytes := 0 }, ?_, ?_,
    ⟨rfl, rfl, hlength⟩, ?_, rfl⟩
  · rw [SessionStore.compactArena, hmove, Option.map_some]
  · constructor
    case slots =>
      intro x' hx' hlive'
      obtain ⟨x, hx, hm⟩ := moved_mem hmoved hx'
      have hlive : x.live = true := by rw [hm.rest] at hlive'; exact hlive'
      have hbytes' : x'.bytes = x.bytes := by rw [hm.rest]
      exact ⟨by rw [hbytes', (h.slots x hx hlive).1, hm.sum], hm.ok hlive⟩
    case distinct =>
      intro i j x' y' hx' hy' hlx hly hid
      obtain ⟨x, hx, hmx⟩ := moved_getElem? hmoved hx'
      obtain ⟨y, hy, hmy⟩ := moved_getElem? hmoved hy'
      rw [hmx.rest] at hlx hid
      rw [hmy.rest] at hly hid
      exact h.distinct i j x y hx hy hlx hly hid
    case count =>
      have hcount := congrArg (List.countP id) hlives
      rw [List.countP_map, List.countP_map] at hcount
      exact h.count.trans hcount.symm
    case arena =>
      show arena'.length = (ss'.map liveBytes).sum + 0
      rw [hlen, hbytes, Nat.add_zero]
    case room =>
      rw [List.length_nil, Nat.zero_add, ← hlen] at hroom
      exact hroom
    case size => exact hlength ▸ h.size
    case free => exact h.free
    case dead =>
      intro i hi
      obtain ⟨x, hx, hdead⟩ := h.dead i hi
      have hlt : i < ss'.length := hlength ▸ (List.getElem?_eq_some_iff.mp hx).1
      obtain ⟨y, hy, hm⟩ := moved_getElem? hmoved (List.getElem?_eq_getElem hlt)
      obtain rfl : x = y := Option.some.inj (hx.symm.trans hy)
      exact ⟨ss'[i], List.getElem?_eq_getElem hlt, by rw [hm.rest]; exact hdead⟩
    case lru =>
      intro x' hx' hlive
      obtain ⟨x, hx, hm⟩ := moved_mem hmoved hx'
      rw [hm.rest] at hlive ⊢
      exact h.lru x hx hlive
    case ring =>
      intro x' hx' hlive
      obtain ⟨x, hx, hm⟩ := moved_mem hmoved hx'
      rw [hm.rest] at hlive ⊢
      exact h.ring x hx hlive
  · exact congrArg (fun l => l.sum % 2 ^ 64) hbytes

theorem Books.maybeCompact (h : s.Books) (capacity : Nat → Nat) :
    ∃ s', s.maybeCompact capacity = some s' ∧ s'.Books ∧ SameShape s s' ∧
      s'.bytesLive = s.bytesLive ∧ s'.liveSessions = s.liveSessions := by
  have hasked : ({ s with asked := s.asked + 1 } : SessionStore).Books :=
    ⟨h.slots, h.distinct, h.count, h.arena, h.room, h.size, h.free, h.dead, h.lru, h.ring⟩
  rw [SessionStore.maybeCompact]
  split_ifs
  · obtain ⟨s', hs', hbooks, hshape, hsame⟩ := hasked.compactArena
    exact ⟨s', hs', hbooks, ⟨hshape.perSession, hshape.total, hshape.size⟩, hsame⟩
  · exact ⟨_, rfl, hasked, ⟨rfl, rfl, rfl⟩, rfl, rfl⟩

/-! ### Changing one slot -/

section Slot

variable {ss : List SessionSlot} {i : Nat} {x : SessionSlot} (hx : ss[i]? = some x)
  (x' : SessionSlot)

include hx

theorem sum_set (f : SessionSlot → Nat) :
    ((ss.set i x').map f).sum + f x = (ss.map f).sum + f x' := by
  induction ss generalizing i with
  | nil => cases hx
  | cons y ss ih =>
    cases i with
    | zero =>
      obtain rfl := Option.some.inj hx
      simp only [List.set_cons_zero, List.map_cons, List.sum_cons]
      omega
    | succ i =>
      have := ih hx
      simp only [List.set_cons_succ, List.map_cons, List.sum_cons]
      omega

theorem countP_live_set :
    (ss.set i x').countP (·.live) + (if x.live then 1 else 0) =
      ss.countP (·.live) + if x'.live then 1 else 0 := by
  obtain ⟨hlt, rfl⟩ := List.getElem?_eq_some_iff.mp hx
  have hpos : ss[i].live = true → 0 < ss.countP (·.live) := fun hlive =>
    List.countP_pos_iff.mpr ⟨ss[i], List.getElem_mem hlt, hlive⟩
  rw [List.countP_set hlt]
  cases hlive : ss[i].live with
  | false => simp
  | true =>
    have := hpos hlive
    simp only [if_true]
    omega

theorem Distinct.set (h : Distinct ss)
    (hid : x'.live = true → ∀ (j : Nat) (y : SessionSlot), ss[j]? = some y → y.live = true →
      y.id = x'.id → j = i) : Distinct (ss.set i x') := by
  intro j k y z hy hz hly hlz hyz
  have hlt := (List.getElem?_eq_some_iff.mp hx).1
  obtain rfl | hj := eq_or_ne i j
  · rw [List.getElem?_set_self hlt] at hy
    obtain rfl := Option.some.inj hy
    obtain rfl | hk := eq_or_ne i k
    · rfl
    · rw [List.getElem?_set_ne hk] at hz
      exact (hid hly k z hz hlz hyz.symm).symm
  · rw [List.getElem?_set_ne hj] at hy
    obtain rfl | hk := eq_or_ne i k
    · rw [List.getElem?_set_self hlt] at hz
      obtain rfl := Option.some.inj hz
      exact hid hlz j y hy hly hyz
    · rw [List.getElem?_set_ne hk] at hz
      exact h j k y z hy hz hly hlz hyz

end Slot

theorem find_eq_some {i : Nat} {x : SessionSlot} :
    s.find i = some x ↔ s.sessions[i]? = some x ∧ x.live = true := by
  rw [find, Option.filter_eq_some_iff]

end SessionStore

end KimixNative.Soul
