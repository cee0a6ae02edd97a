import KimixNative.Soul.SessionAccounting
import Mathlib.Data.List.Nodup

/-!
# Runs of the session store

Each operation keeps the books while the arena stays in the signed 32-bit range, handles in
the unsigned one, and the counter of accesses off its last value. A successful append also
leaves the store within its budgets: the loop that evicts ends, because every round closes a
session, and it ends below the total budget, because there is always a session to close.
-/

namespace KimixNative.Soul

namespace SessionStore

/-! ### A live slot stays live -/

section Live

variable {s : SessionStore} (h : s.Books) {i : Nat} {x : SessionSlot} (hx : s.sessions[i]? = some x)
  (hlive : x.live = true)

include h hx hlive

variable {x' : SessionSlot}

/-- A live slot gets new contents, in an arena that has grown. -/
theorem Books.setLive (hlive' : x'.live = true) (hid : x'.id = x.id) {arena' : Bytes} {dead' : Nat}
    (hok : SlotOk arena'.length x') (hgrow : s.arena.length ≤ arena'.length)
    (hroom : arena'.length < arenaLimit)
    (hbalance : arena'.length + s.deadBytes + x.bytes = s.arena.length + dead' + x'.bytes)
    (hlru : x'.lru < maxLru) (hring : s.perSessionBudget ≠ 0 → x'.bytes ≤ s.perSessionBudget)
    (counter : Nat) :
    ({ s with sessions := s.sessions.set i x', arena := arena', deadBytes := dead',
              lruCounter := counter } : SessionStore).Books := by
  have hlt := (List.getElem?_eq_some_iff.mp hx).1
  constructor
  case slots =>
    intro y hy
    obtain hy | rfl := List.mem_or_eq_of_mem_set hy
    · intro hly
      obtain ⟨hbytes, hparts⟩ := h.slots y hy hly
      exact ⟨hbytes, fun p hp => (hparts p hp).mono hgrow⟩
    · exact hok
  case distinct =>
    refine Distinct.set hx x' h.distinct fun _ j y hy hly hyid => ?_
    exact h.distinct j i y x hy hx hly hlive (hyid.trans hid)
  case count =>
    have hcount := countP_live_set hx x'
    rw [hlive, hlive'] at hcount
    exact h.count.trans (Nat.add_right_cancel hcount).symm
  case arena =>
    have hsum := sum_set hx x' liveBytes
    have harena := h.arena
    have hlb : liveBytes x = x.bytes := if_pos hlive
    have hlb' : liveBytes x' = x'.bytes := if_pos hlive'
    show arena'.length = ((s.sessions.set i x').map liveBytes).sum + dead'
    omega
  case room => exact hroom
  case size =>
    show (s.sessions.set i x').length < 2 ^ 32
    rw [List.length_set]
    exact h.size
  case free => exact h.free
  case dead =>
    intro j hj
    obtain ⟨y, hy, hdead⟩ := h.dead j hj
    have hne : i ≠ j := by
      rintro rfl
      obtain rfl : x = y := Option.some.inj (hx.symm.trans hy)
      rw [hlive] at hdead
      cases hdead
    exact ⟨y, (List.getElem?_set_ne hne).trans hy, hdead⟩
  case lru =>
    intro y hy hly
    obtain hy | rfl := List.mem_or_eq_of_mem_set hy
    · exact h.lru y hy hly
    · exact hlru
  case ring =>
    intro y hy hly
    obtain hy | rfl := List.mem_or_eq_of_mem_set hy
    · exact h.ring y hy hly
    · exact hring

/-- Touching a live slot, whatever else of it than id, parts and bytes has changed. -/
theorem Books.touchSlot (hlive' : x'.live = true) (hid : x'.id = x.id) (hparts : x'.parts = x.parts)
    (hbytes : x'.bytes = x.bytes) (hlru : s.nextLru < maxLru) : (s.touchSlot i x').Books := by
  have hmem := List.mem_of_getElem? hx
  have hlive'' : ({ x' with lru := s.nextLru } : SessionSlot).live = true := hlive'
  refine h.setLive hx hlive hlive'' hid ?_ le_rfl h.room ?_ hlru ?_ s.nextLru
  · intro _
    obtain ⟨hsum, hok⟩ := h.slots x hmem hlive
    exact ⟨by rw [hbytes, hparts, hsum], by rw [hparts]; exact hok⟩
  · rw [hbytes]
  · rw [hbytes]
    exact h.ring x hmem hlive

/-- The books after `close`, before it compacts. -/
theorem Books.closedSlot :
    ({ s with deadBytes := (s.deadBytes + (x.parts.map slotBytes).sum) % 2 ^ 64,
              sessions := s.sessions.set i (SessionStore.closedSlot x),
              freeSlots := s.freeSlots ++ [i],
              liveSessions := s.liveSessions - 1 } : SessionStore).Books := by
  have hlt := (List.getElem?_eq_some_iff.mp hx).1
  have hcount := countP_live_set hx (SessionStore.closedSlot x)
  rw [hlive] at hcount
  have hdead : (SessionStore.closedSlot x).live = false := rfl
  have hold : ∀ {y}, y ∈ s.sessions.set i (SessionStore.closedSlot x) → y.live = true →
      y ∈ s.sessions := by
    intro y hy hly
    obtain hy | rfl := List.mem_or_eq_of_mem_set hy
    · exact hy
    · cases hly
  constructor
  case slots => exact fun y hy hly => h.slots y (hold hy hly) hly
  case distinct => exact Distinct.set hx _ h.distinct fun hly => absurd hly (by rw [hdead]; decide)
  case count =>
    show s.liveSessions - 1 = _
    rw [h.count]
    simp only [hdead, if_true] at hcount
    exact Nat.sub_eq_of_eq_add hcount.symm
  case arena =>
    have hsum := sum_set hx (SessionStore.closedSlot x) liveBytes
    have harena := h.arena
    have hlb : liveBytes x = (x.parts.map slotBytes).sum :=
      (if_pos hlive).trans (h.slots x (List.mem_of_getElem? hx) hlive).1
    have hlb' : liveBytes (SessionStore.closedSlot x) = 0 := rfl
    have hroom := h.room
    unfold arenaLimit at hroom
    show s.arena.length = ((s.sessions.set i _).map liveBytes).sum + (s.deadBytes + _) % 2 ^ 64
    rw [Nat.mod_eq_of_lt (by omega)]
    omega
  case room => exact h.room
  case size =>
    show (s.sessions.set i _).length < 2 ^ 32
    rw [List.length_set]
    exact h.size
  case free =>
    rw [List.nodup_append]
    refine ⟨h.free, List.nodup_singleton i, fun j hj k hk => ?_⟩
    obtain rfl := List.mem_singleton.mp hk
    rintro rfl
    obtain ⟨y, hy, hdeady⟩ := h.dead j hj
    obtain rfl : x = y := Option.some.inj (hx.symm.trans hy)
    rw [hlive] at hdeady
    cases hdeady
  case dead =>
    intro j hj
    obtain rfl | hne := eq_or_ne i j
    · exact ⟨_, List.getElem?_set_self hlt, rfl⟩
    · obtain hj | hj := List.mem_append.mp hj
      · obtain ⟨y, hy, hdeady⟩ := h.dead j hj
        exact ⟨y, (List.getElem?_set_ne hne).trans hy, hdeady⟩
      · exact absurd (List.mem_singleton.mp hj).symm hne
  case lru => exact fun y hy hly => h.lru y (hold hy hly) hly
  case ring => exact fun y hy hly => h.ring y (hold hy hly) hly

end Live

/-! ### Closing and evicting -/

section Close

variable {s : SessionStore} (h : s.Books) (capacity : Nat → Nat)

include h

/-- Closing a live session. -/
theorem Books.close_live {i : Nat} {x : SessionSlot} (hx : s.sessions[i]? = some x)
    (hlive : x.live = true) :
    ∃ s', s.close capacity i = some (true, s') ∧ s'.Books ∧ SameShape s s' ∧
      s'.sessions.countP (·.live) < s.sessions.countP (·.live) := by
  obtain ⟨s', hs', hbooks, hshape, -, hcount⟩ := (h.closedSlot hx hlive).maybeCompact capacity
  have hpos : 0 < s.sessions.countP (·.live) :=
    List.countP_pos_iff.mpr ⟨x, List.mem_of_getElem? hx, hlive⟩
  have hlt : s.liveSessions - 1 < s.sessions.countP (·.live) := by
    rw [h.count]
    omega
  refine ⟨s', ?_, hbooks, ⟨hshape.perSession, hshape.total, ?_⟩, ?_⟩
  · rw [SessionStore.close, find_eq_some.mpr ⟨hx, hlive⟩]
    dsimp only
    rw [hs', Option.map_some]
  · rw [hshape.size, List.length_set]
  · rw [← hbooks.count, hcount]
    exact hlt

theorem Books.close (i : Nat) :
    ∃ ok s', s.close capacity i = some (ok, s') ∧ s'.Books ∧ SameShape s s' := by
  cases hfind : s.find i with
  | none => exact ⟨false, s, by rw [SessionStore.close, hfind], h, .refl s⟩
  | some x =>
    obtain ⟨hx, hlive⟩ := find_eq_some.mp hfind
    obtain ⟨s', hs', hbooks, hshape, -⟩ := h.close_live capacity hx hlive
    exact ⟨true, s', hs', hbooks, hshape⟩

theorem Books.closeAll (is : List Nat) :
    ∃ s', SessionStore.closeAll capacity is s = some s' ∧ SameShape s s' := by
  induction is generalizing s with
  | nil => exact ⟨s, rfl, .refl s⟩
  | cons i is ih =>
    rw [SessionStore.closeAll]
    cases hfind : s.find i with
    | none => exact ih h
    | some x =>
      obtain ⟨ok, s₁, hs₁, hbooks, hshape⟩ := h.close capacity i
      obtain ⟨s₂, hs₂, hshape'⟩ := ih hbooks
      refine ⟨s₂, ?_, hshape.trans hshape'⟩
      dsimp only
      rw [hs₁, Option.bind_some, hs₂]

theorem Books.clear :
    ∃ s', s.clear capacity = some s' ∧ s'.Books := by
  obtain ⟨s', hs', -⟩ := h.closeAll capacity (List.range s.sessions.length)
  have hempty := books_empty s'.perSessionBudget s'.totalBudget
  rw [SessionStore.clear, if_pos h.size, hs']
  exact ⟨_, rfl, hempty.slots, hempty.distinct, hempty.count, hempty.arena, hempty.room,
    hempty.size, hempty.free, hempty.dead, hempty.lru, hempty.ring⟩

omit h in
/-- The search keeps the victim it has, or finds a live session. -/
theorem oldestFrom_cases (i : Nat) (ss : List SessionSlot) (victim oldest : Nat) :
    (oldestFrom i ss victim oldest = victim ∧ ∀ x ∈ ss, x.live = true → oldest ≤ x.lru) ∨
      ∃ k x, ss[k]? = some x ∧ x.live = true ∧ oldestFrom i ss victim oldest = i + k := by
  induction ss generalizing i victim oldest with
  | nil => exact .inl ⟨rfl, fun _ hx => absurd hx List.not_mem_nil⟩
  | cons x ss ih =>
    rw [oldestFrom]
    split_ifs with hx
    · obtain ⟨hsame, -⟩ | ⟨k, y, hy, hlive, hfound⟩ := ih (i + 1) i x.lru
      · exact .inr ⟨0, x, rfl, hx.1, hsame⟩
      · exact .inr ⟨k + 1, y, hy, hlive, by rw [hfound]; omega⟩
    · obtain ⟨hsame, hold⟩ | ⟨k, y, hy, hlive, hfound⟩ := ih (i + 1) victim oldest
      · refine .inl ⟨hsame, fun y hy hlive => ?_⟩
        obtain rfl | hy := List.mem_cons.mp hy
        · exact Nat.le_of_not_lt fun hlt => hx ⟨hlive, hlt⟩
        · exact hold y hy hlive
      · exact .inr ⟨k + 1, y, hy, hlive, by rw [hfound]; omega⟩

/-- A store over its budget has a session to evict. -/
theorem Books.oldestFrom (hover : s.totalBudget < s.bytesLive) :
    ∃ x, s.sessions[SessionStore.oldestFrom 0 s.sessions noSession maxLru]? = some x ∧
      x.live = true ∧ SessionStore.oldestFrom 0 s.sessions noSession maxLru ≠ noSession := by
  obtain ⟨-, hnone⟩ | ⟨k, x, hx, hlive, hfound⟩ :=
    oldestFrom_cases 0 s.sessions noSession maxLru
  · have hzero : s.bytesLive = 0 := by
      rw [h.bytesLive_eq, List.sum_eq_zero]
      intro n hn
      obtain ⟨x, hx, rfl⟩ := List.mem_map.mp hn
      refine if_neg fun hlive => ?_
      have h1 := hnone x hx hlive
      have h2 := h.lru x hx hlive
      omega
    omega
  · rw [hfound, Nat.zero_add]
    refine ⟨x, hx, hlive, ?_⟩
    have hlt := (List.getElem?_eq_some_iff.mp hx).1
    have hsize := h.size
    unfold noSession
    omega

/-- The loop ends within the budget. -/
theorem Books.evictLoop {fuel : Nat} (evicted : Nat) (hfuel : s.sessions.countP (·.live) < fuel) :
    ∃ n s', SessionStore.evictLoop capacity fuel s evicted = some (n, s') ∧ s'.Books ∧
      SameShape s s' ∧ s'.bytesLive ≤ s'.totalBudget := by
  induction fuel generalizing s evicted with
  | zero => exact absurd hfuel (Nat.not_lt_zero _)
  | succ fuel ih =>
    rw [SessionStore.evictLoop]
    split_ifs with hfits hsize
    · exact ⟨evicted, s, rfl, h, .refl s, hfits⟩
    · exact absurd h.size (Nat.not_lt.mpr hsize)
    · obtain ⟨x, hx, hlive, hne⟩ := h.oldestFrom (Nat.lt_of_not_le hfits)
      obtain ⟨s₁, hs₁, hbooks, hshape, hless⟩ := h.close_live capacity hx hlive
      obtain ⟨n, s₂, hs₂, hbooks', hshape', hwithin⟩ := ih hbooks ((evicted + 1) % 2 ^ 32) (by omega)
      refine ⟨n, s₂, ?_, hbooks', hshape.trans hshape', hwithin⟩
      dsimp only
      rw [if_neg hne, hs₁, Option.bind_some, hs₂]

theorem Books.evictToBudget :
    ∃ n s', s.evictToBudget capacity = some (n, s') ∧ s'.Books ∧ SameShape s s' ∧
      (s'.totalBudget ≠ 0 → s'.bytesLive ≤ s'.totalBudget) := by
  rw [SessionStore.evictToBudget]
  split_ifs with hzero
  · exact ⟨0, s, rfl, h, .refl s, fun hne => absurd hzero hne⟩
  · have hfuel : s.sessions.countP (·.live) < s.sessions.length + 1 :=
      Nat.lt_succ_of_le List.countP_le_length
    obtain ⟨n, s', hs', hbooks, hshape, hwithin⟩ := h.evictLoop capacity 0 hfuel
    exact ⟨n, s', hs', hbooks, hshape, fun _ => hwithin⟩

end Close

/-! ### Creating -/

section Create

variable {s : SessionStore} (h : s.Books) (id : Bytes)

include h

/-- The search by id ends, with the live session of that id or with none. -/
theorem Books.findById :
    (∃ i x, s.findById id = some i ∧ i ≠ noSession ∧ s.sessions[i]? = some x ∧ x.live = true ∧
        x.id = id) ∨
      s.findById id = some noSession ∧ ∀ x ∈ s.sessions, x.live = true → x.id ≠ id := by
  have hsize := h.size
  rw [SessionStore.findById]
  cases hfind : s.sessions.findIdx? fun x => x.live ∧ x.id = id with
  | some i =>
    obtain ⟨hlt, hx, -⟩ := List.findIdx?_eq_some_iff_getElem.mp hfind
    obtain ⟨hlive, hid⟩ := of_decide_eq_true hx
    refine .inl ⟨i, s.sessions[i], if_pos (lt_trans hlt hsize), ?_, List.getElem?_eq_getElem hlt,
      hlive, hid⟩
    unfold noSession
    omega
  | none =>
    refine .inr ⟨if_pos hsize, fun x hx hlive hid => ?_⟩
    have hnot := List.findIdx?_eq_none_iff.mp hfind x hx
    simp [hlive, hid] at hnot

/-- A dead slot that is not on the free list is opened under a fresh id. -/
theorem Books.openSlot {i : Nat} {x : SessionSlot} (hx : s.sessions[i]? = some x)
    (hdead : x.live = false) (hfree : i ∉ s.freeSlots)
    (hfresh : ∀ y ∈ s.sessions, y.live = true → y.id ≠ id) (hlru : s.nextLru < maxLru) :
    ({ s.touchSlot i { id, live := true } with
       liveSessions := (s.liveSessions + 1) % 2 ^ 32 } : SessionStore).Books := by
  obtain ⟨x', hx'⟩ : ∃ x' : SessionSlot, x' = { id, live := true, lru := s.nextLru } := ⟨_, rfl⟩
  have hsessions : (s.touchSlot i { id, live := true }).sessions = s.sessions.set i x' := by
    rw [hx']
    rfl
  have hcount := countP_live_set hx x'
  have hlive' : x'.live = true := by rw [hx']
  have hbytes' : x'.bytes = 0 := by rw [hx']
  rw [hdead, hlive', if_neg Bool.false_ne_true, if_pos rfl, Nat.add_zero] at hcount
  have hle : (s.sessions.set i x').countP (·.live) ≤ s.sessions.length := by
    have := List.countP_le_length (p := (·.live)) (l := s.sessions.set i x')
    rwa [List.length_set] at this
  have hsize := h.size
  constructor
  case slots =>
    intro y hy
    obtain hy | rfl := List.mem_or_eq_of_mem_set (hsessions ▸ hy)
    · exact h.slots y hy
    · rw [hx']
      exact fun _ => ⟨rfl, fun _ hp => absurd hp List.not_mem_nil⟩
  case distinct =>
    show Distinct (s.touchSlot i { id, live := true }).sessions
    rw [hsessions]
    refine Distinct.set hx x' h.distinct fun _ j y hy hly hyid => ?_
    rw [hx'] at hyid
    exact absurd hyid (hfresh y (List.mem_of_getElem? hy) hly)
  case count =>
    show (s.liveSessions + 1) % 2 ^ 32 = (s.touchSlot i { id, live := true }).sessions.countP _
    rw [hsessions, hcount, h.count, Nat.mod_eq_of_lt (by omega)]
  case arena =>
    have hsum := sum_set hx x' liveBytes
    have hlb : liveBytes x = 0 := if_neg (by rw [hdead]; exact Bool.false_ne_true)
    have hlb' : liveBytes x' = 0 := by rw [liveBytes, hbytes', ite_self]
    show s.arena.length = ((s.touchSlot i { id, live := true }).sessions.map liveBytes).sum +
      s.deadBytes
    rw [hsessions, h.arena]
    omega
  case room => exact h.room
  case size =>
    show (s.touchSlot i { id, live := true }).sessions.length < 2 ^ 32
    rw [hsessions, List.length_set]
    exact h.size
  case free => exact h.free
  case dead =>
    intro j hj
    obtain ⟨y, hy, hdeady⟩ := h.dead j hj
    have hne : i ≠ j := by
      rintro rfl
      exact hfree hj
    refine ⟨y, ?_, hdeady⟩
    show (s.touchSlot i { id, live := true }).sessions[j]? = some y
    rw [hsessions, List.getElem?_set_ne hne, hy]
  case lru =>
    intro y hy hly
    obtain hy | rfl := List.mem_or_eq_of_mem_set (hsessions ▸ hy)
    · exact h.lru y hy hly
    · rw [hx']
      exact hlru
  case ring =>
    intro y hy hly
    obtain hy | rfl := List.mem_or_eq_of_mem_set (hsessions ▸ hy)
    · exact h.ring y hy hly
    · rw [hbytes']
      exact fun _ => Nat.zero_le _

/-- A slot is pushed, still dead. -/
theorem Books.pushSlot (hsize : s.sessions.length + 1 < 2 ^ 32) :
    ({ s with sessions := s.sessions ++ [({} : SessionSlot)] } : SessionStore).Books := by
  have hold : ∀ {y : SessionSlot}, y ∈ s.sessions ++ [({} : SessionSlot)] → y.live = true → y ∈ s.sessions := by
    intro y hy hly
    obtain hy | hy := List.mem_append.mp hy
    · exact hy
    · obtain rfl := List.mem_singleton.mp hy
      cases hly
  have hget : ∀ {i : Nat} {y : SessionSlot}, (s.sessions ++ [({} : SessionSlot)])[i]? = some y → y.live = true →
      s.sessions[i]? = some y := by
    intro i y hy hly
    obtain hi | hi := Nat.lt_or_ge i s.sessions.length
    · rwa [List.getElem?_append_left hi] at hy
    · rw [List.getElem?_append_right hi] at hy
      obtain rfl := List.mem_singleton.mp (List.mem_of_getElem? hy)
      cases hly
  constructor
  case slots => exact fun y hy hly => h.slots y (hold hy hly) hly
  case distinct =>
    intro i j x y hx hy hlx hly
    exact h.distinct i j x y (hget hx hlx) (hget hy hly) hlx hly
  case count =>
    show s.liveSessions = (s.sessions ++ [({} : SessionSlot)]).countP (·.live)
    rw [List.countP_append, h.count]
    rfl
  case arena =>
    show s.arena.length = ((s.sessions ++ [({} : SessionSlot)]).map liveBytes).sum + s.deadBytes
    rw [List.map_append, List.sum_append, h.arena]
    rfl
  case room => exact h.room
  case size => simpa using hsize
  case free => exact h.free
  case dead =>
    intro i hi
    obtain ⟨y, hy, hdead⟩ := h.dead i hi
    exact ⟨y, (List.getElem?_append_left (List.getElem?_eq_some_iff.mp hy).1).trans hy, hdead⟩
  case lru => exact fun y hy hly => h.lru y (hold hy hly) hly
  case ring => exact fun y hy hly => h.ring y (hold hy hly) hly

/-- The slot that is taken is dead and not free any more. -/
theorem Books.takeSlot (hsize : s.freeSlots = [] → s.sessions.length + 1 < 2 ^ 32)
    (hfresh : ∀ y ∈ s.sessions, y.live = true → y.id ≠ id) :
    s.takeSlot.2.Books ∧ s.takeSlot.2.nextLru = s.nextLru ∧
      (∃ x, s.takeSlot.2.sessions[s.takeSlot.1]? = some x ∧ x.live = false) ∧
      s.takeSlot.1 ∉ s.takeSlot.2.freeSlots ∧
      ∀ y ∈ s.takeSlot.2.sessions, y.live = true → y.id ≠ id := by
  rw [SessionStore.takeSlot]
  cases hlast : s.freeSlots.getLast? with
  | some handle =>
    have hsplit : s.freeSlots.dropLast ++ [handle] = s.freeSlots :=
      List.dropLast_append_getLast? handle hlast
    have hmem : handle ∈ s.freeSlots := List.mem_of_getLast? hlast
    have hnodup := hsplit.symm ▸ h.free
    have hsub : ∀ i ∈ s.freeSlots.dropLast, i ∈ s.freeSlots := fun i hi =>
      hsplit ▸ List.mem_append_left _ hi
    refine ⟨⟨h.slots, h.distinct, h.count, h.arena, h.room, h.size,
      h.free.sublist (List.dropLast_sublist _), fun i hi => h.dead i (hsub i hi), h.lru, h.ring⟩,
      rfl, h.dead handle hmem, ?_, hfresh⟩
    intro hin
    exact (List.nodup_append.mp hnodup).2.2 handle hin handle List.mem_cons_self rfl
  | none =>
    have hnil : s.freeSlots = [] := List.getLast?_eq_none_iff.mp hlast
    have hmod : s.sessions.length % 2 ^ 32 = s.sessions.length := Nat.mod_eq_of_lt h.size
    dsimp only
    rw [hmod]
    refine ⟨h.pushSlot (hsize hnil), rfl, ⟨{}, by simp, rfl⟩, by rw [hnil]; exact List.not_mem_nil,
      fun y hy hly => ?_⟩
    obtain hy | hy := List.mem_append.mp hy
    · exact hfresh y hy hly
    · obtain rfl := List.mem_singleton.mp hy
      cases hly

theorem Books.create (hlru : s.nextLru < maxLru)
    (hsize : s.findById id = some noSession → s.freeSlots = [] → s.sessions.length + 1 < 2 ^ 32) :
    ∃ handle s', s.create id = some (handle, s') ∧ s'.Books := by
  obtain ⟨i, x, hfind, hne, hx, hlive, -⟩ | ⟨hfind, hfresh⟩ := h.findById id
  · refine ⟨i, s.touchSlot i (s.sessions.getD i {}), ?_, ?_⟩
    · rw [SessionStore.create, hfind, Option.map_some, if_pos hne]
    · have hget : s.sessions.getD i {} = x := by rw [List.getD_eq_getElem?_getD, hx]; rfl
      rw [hget]
      exact h.touchSlot hx hlive hlive rfl rfl rfl hlru
  · obtain ⟨hbooks, hnext, ⟨x, hx, hdead⟩, hfree, hfresh'⟩ := h.takeSlot id (hsize hfind) hfresh
    refine ⟨s.takeSlot.1, _, ?_, hbooks.openSlot id hx hdead hfree hfresh' (hnext ▸ hlru)⟩
    rw [SessionStore.create, hfind, Option.map_some, if_neg (not_not.mpr rfl)]

end Create

/-! ### Appending -/

/-- The ring keeps the newest parts; what it drops is counted as dead. -/
theorem dropOldest_spec (budget : Nat) (ps : List PartSlot) {bytes : Nat} (dead dropped : Nat)
    (hbytes : bytes = (ps.map slotBytes).sum) (hroom : bytes + dead < 2 ^ 64) :
    (dropOldest budget ps bytes dead dropped).1 <:+ ps ∧
      (dropOldest budget ps bytes dead dropped).2.1 =
        ((dropOldest budget ps bytes dead dropped).1.map slotBytes).sum ∧
      (dropOldest budget ps bytes dead dropped).2.1 +
        (dropOldest budget ps bytes dead dropped).2.2.1 = bytes + dead ∧
      (budget ≠ 0 → (dropOldest budget ps bytes dead dropped).2.1 ≤ budget) := by
  induction ps generalizing bytes dead dropped with
  | nil =>
    rw [dropOldest]
    exact ⟨List.suffix_rfl, hbytes, rfl, fun _ => hbytes ▸ Nat.zero_le _⟩
  | cons p ps ih =>
    rw [List.map_cons, List.sum_cons] at hbytes
    rw [dropOldest]
    split_ifs with hover
    · have hbytes' : (bytes + 2 ^ 64 - slotBytes p) % 2 ^ 64 = (ps.map slotBytes).sum := by omega
      have hdead' : (dead + slotBytes p) % 2 ^ 64 = dead + slotBytes p :=
        Nat.mod_eq_of_lt (by omega)
      obtain ⟨hsuffix, hsum, hbalance, hwithin⟩ := ih ((dead + slotBytes p) % 2 ^ 64) (dropped + 1)
        hbytes' (by omega)
      exact ⟨hsuffix.trans (List.suffix_cons _ _), hsum, by omega, hwithin⟩
    · refine ⟨List.suffix_rfl, ?_, rfl, fun hne => ?_⟩
      · rw [List.map_cons, List.sum_cons]
        exact hbytes
      · exact Nat.le_of_not_lt fun hlt => hover ⟨hne, hlt⟩

section Append

variable {s : SessionStore} (h : s.Books) {i : Nat} {x : SessionSlot}
  (hx : s.sessions[i]? = some x) (hlive : x.live = true)

include h hx hlive

theorem Books.pushPart {record : SessionPartRecord}
    (hroom : s.arena.length + incoming record < arenaLimit) (hlru : s.nextLru < maxLru) :
    ∃ s', s.pushPart i x record = some s' ∧ s'.Books ∧ SameShape s s' := by
  obtain ⟨spans, arena', hplace, hlen, hok, hsum⟩ := place_fields hroom
  obtain ⟨hbytes, hparts⟩ := h.slots x (List.mem_of_getElem? hx) hlive
  obtain ⟨seq, hseq⟩ : ∃ seq, seq = if record.seq ≠ 0 then record.seq else x.nextSeq := ⟨_, rfl⟩
  obtain ⟨p, hp⟩ : ∃ p : PartSlot, p = ⟨seq, record.kind, record.role, record.cost, spans⟩ := ⟨_, rfl⟩
  have hpok : PartOk arena'.length p := by
    rw [hp]
    exact hok
  have hslot : slotBytes p = incoming record := by
    rw [hpok.slotBytes_eq, hp]
    exact hsum
  have hgrow : arena'.length = s.arena.length + incoming record := hlen
  have hlb : x.bytes + s.deadBytes ≤ s.arena.length := by
    have hsum := sum_set hx (SessionStore.closedSlot x) liveBytes
    have hlb : liveBytes x = x.bytes := if_pos hlive
    have hlb' : liveBytes (SessionStore.closedSlot x) = 0 := rfl
    have harena := h.arena
    omega
  unfold arenaLimit at hroom
  have hcount : (x.bytes + slotBytes p) % 2 ^ 64 = x.bytes + slotBytes p :=
    Nat.mod_eq_of_lt (by omega)
  obtain ⟨hsuffix, hring, hbalance, hwithin⟩ :=
    dropOldest_spec s.perSessionBudget (x.parts ++ [p]) s.deadBytes x.dropped
      (by rw [List.map_append, List.sum_append, ← hbytes, List.map_singleton, List.sum_singleton] :
        x.bytes + slotBytes p = _)
      (by omega)
  obtain ⟨ring, hringEq⟩ : ∃ ring, ring = dropOldest s.perSessionBudget (x.parts ++ [p])
    ((x.bytes + slotBytes p) % 2 ^ 64) s.deadBytes x.dropped := ⟨_, rfl⟩
  rw [← hcount] at hsuffix hring hbalance hwithin
  rw [← hringEq] at hsuffix hring hbalance hwithin
  have hmem : ∀ q ∈ ring.1, PartOk arena'.length q := by
    intro q hq
    obtain hq | hq := List.mem_append.mp (hsuffix.subset hq)
    · exact (hparts q hq).mono (by omega)
    · exact List.mem_singleton.mp hq ▸ hpok
  obtain ⟨x', hx'⟩ : ∃ x' : SessionSlot, x' = { x with
      parts := ring.1, bytes := ring.2.1, dropped := ring.2.2.2,
      nextSeq := seq + 1, gen := x.gen + 1, lru := s.nextLru } := ⟨_, rfl⟩
  refine ⟨{ s with sessions := s.sessions.set i x', arena := arena', deadBytes := ring.2.2.1,
                   lruCounter := s.nextLru }, ?_, ?_, ⟨rfl, rfl, List.length_set⟩⟩
  · rw [SessionStore.pushPart, hplace, Option.map_some, hx', hringEq, hp, hseq]
    rfl
  · have hlive' : x'.live = true := by rw [hx']; exact hlive
    have hid' : x'.id = x.id := by rw [hx']
    have hbytes' : x'.bytes = ring.2.1 := by rw [hx']
    have hlru' : x'.lru < maxLru := by rw [hx']; exact hlru
    refine h.setLive hx hlive hlive' hid' ?_ (by omega) (by unfold arenaLimit; omega) (by omega) hlru'
      (by rw [hbytes']; exact hwithin) _
    rw [hx']
    exact fun _ => ⟨hring, hmem⟩

end Append

/-- The budgets hold. -/
def WithinBudgets (s : SessionStore) : Prop :=
  (s.perSessionBudget ≠ 0 → ∀ x ∈ s.sessions, x.live = true → x.bytes ≤ s.perSessionBudget) ∧
    (s.totalBudget ≠ 0 → s.bytesLive ≤ s.totalBudget)

/-- The bytes an append adds to the arena; a refused one adds none. -/
def adds (s : SessionStore) (session : Nat) (record : SessionPartRecord) : Nat :=
  if (s.find session).isNone ∨ s.perSessionBudget ≠ 0 ∧ incoming record > s.perSessionBudget then 0
  else incoming record

theorem Books.append {s : SessionStore} (h : s.Books) (capacity : Nat → Nat) (i : Nat)
    (record : SessionPartRecord) (hroom : s.arena.length + s.adds i record < arenaLimit)
    (hlru : s.nextLru < maxLru) :
    ∃ ok s', s.append capacity i record = some (ok, s') ∧ s'.Books ∧
      (ok = true → s'.WithinBudgets) := by
  rw [SessionStore.append]
  cases hfind : s.find i with
  | none => exact ⟨false, s, rfl, h, fun hok => by cases hok⟩
  | some x =>
    obtain ⟨hx, hlive⟩ := find_eq_some.mp hfind
    dsimp only
    split_ifs with hlarge
    · exact ⟨false, s, rfl, h, fun hok => by cases hok⟩
    · have hadds : s.adds i record = incoming record := by
        rw [adds, hfind, if_neg]
        rintro (hnone | hrefused)
        · cases hnone
        · exact hlarge hrefused
      rw [hadds] at hroom
      obtain ⟨s₁, hs₁, hbooks₁, -⟩ := h.pushPart hx hlive hroom hlru
      obtain ⟨n, s₂, hs₂, hbooks₂, -, hwithin⟩ := hbooks₁.evictToBudget capacity
      obtain ⟨s₃, hs₃, hbooks₃, hshape, hbytes, -⟩ := hbooks₂.maybeCompact capacity
      refine ⟨true, s₃, ?_, hbooks₃, fun _ => ⟨fun hne y hy hly => hbooks₃.ring y hy hly hne, ?_⟩⟩
      · rw [hs₁, Option.bind_some, hs₂, Option.bind_some, hs₃, Option.map_some]
      · rw [hshape.total, hbytes]
        exact hwithin

/-! ### Runs -/

inductive Op
  | create (id : Bytes)
  | append (session : Nat) (record : SessionPartRecord)
  | close (session : Nat)
  | clear
  | setStatus (session : Nat) (status : BitVec 8)
  | snapshot (session : Nat)
  | evictToBudget
  deriving DecidableEq

def apply (capacity : Nat → Nat) (s : SessionStore) : Op → Option SessionStore
  | .create id => (s.create id).map Prod.snd
  | .append session record => (s.append capacity session record).map Prod.snd
  | .close session => (s.close capacity session).map Prod.snd
  | .clear => s.clear capacity
  | .setStatus session status => some (s.setStatus session status)
  | .snapshot session => some (s.snapshot session)
  | .evictToBudget => (s.evictToBudget capacity).map Prod.snd

def step (capacity : Nat → Nat) (s : Option SessionStore) (op : Op) : Option SessionStore :=
  s.bind (·.apply capacity op)

/-- A store as it is constructed. -/
def fresh (perSession total : Nat) : SessionStore := ⟨perSession, total, [], 0, [], [], 0, 0, 0⟩

/-- The arena stays below 2^31 bytes. -/
def Admissible (s : SessionStore) : Op → Prop
  | .append session record => s.arena.length + s.adds session record < arenaLimit
  | _ => s.arena.length < arenaLimit

/-- A new slot has a 32-bit handle below the sentinel, and no access gets the counter value
that the search for a victim starts from. -/
def Supported (s : SessionStore) : Op → Prop
  | .create id => s.nextLru ≠ maxLru ∧
      (s.findById id = some noSession → s.freeSlots = [] → s.sessions.length + 1 < 2 ^ 32)
  | .append _ _ => s.nextLru ≠ maxLru
  | .setStatus _ _ => s.nextLru ≠ maxLru
  | .snapshot _ => s.nextLru ≠ maxLru
  | _ => True

instance (s : SessionStore) (op : Op) : Decidable (s.Admissible op) := by
  induction op using Op.casesOn <;> dsimp only [Admissible] <;> infer_instance

instance (s : SessionStore) (op : Op) : Decidable (s.Supported op) := by
  induction op using Op.casesOn <;> dsimp only [Supported] <;> infer_instance

/-- The books as an observer reads them. -/
structure Accounted (s : SessionStore) : Prop where
  distinct : Distinct s.sessions
  count : s.sessionCount = s.sessions.countP (·.live)
  bytes : ∀ x ∈ s.sessions, x.live = true → x.bytes = (x.parts.map slotBytes).sum
  arena : s.arena.length = s.bytesLive + s.deadBytes

theorem nextLru_lt {s : SessionStore} (h : s.nextLru ≠ maxLru) : s.nextLru < maxLru := by
  have hlt : s.nextLru < 2 ^ 64 := Nat.mod_lt _ (Nat.two_pow_pos 64)
  unfold maxLru at h ⊢
  omega

/-- One step keeps the books. -/
theorem Books.apply {s : SessionStore} (h : s.Books) (capacity : Nat → Nat) {op : Op}
    (hadm : s.Admissible op) (hsup : s.Supported op) :
    ∃ s', s.apply capacity op = some s' ∧ s'.Books := by
  cases op with
  | create id =>
    obtain ⟨handle, s', hs', hbooks⟩ := h.create id (nextLru_lt hsup.1) hsup.2
    exact ⟨s', by rw [SessionStore.apply, hs', Option.map_some], hbooks⟩
  | append session record =>
    obtain ⟨ok, s', hs', hbooks, -⟩ := h.append capacity session record hadm (nextLru_lt hsup)
    exact ⟨s', by rw [SessionStore.apply, hs', Option.map_some], hbooks⟩
  | close session =>
    obtain ⟨ok, s', hs', hbooks, -⟩ := h.close capacity session
    exact ⟨s', by rw [SessionStore.apply, hs', Option.map_some], hbooks⟩
  | clear => exact h.clear capacity
  | setStatus session status =>
    refine ⟨_, rfl, ?_⟩
    rw [SessionStore.setStatus]
    cases hfind : s.find session with
    | none => exact h
    | some x =>
      obtain ⟨hx, hlive⟩ := find_eq_some.mp hfind
      exact h.touchSlot hx hlive hlive rfl rfl rfl (nextLru_lt hsup)
  | snapshot session =>
    refine ⟨_, rfl, ?_⟩
    rw [SessionStore.snapshot]
    cases hfind : s.find session with
    | none => exact h
    | some x =>
      obtain ⟨hx, hlive⟩ := find_eq_some.mp hfind
      exact h.touchSlot hx hlive hlive rfl rfl rfl (nextLru_lt hsup)
  | evictToBudget =>
    obtain ⟨n, s', hs', hbooks, -⟩ := h.evictToBudget capacity
    exact ⟨s', by rw [SessionStore.apply, hs', Option.map_some], hbooks⟩

/-- A part with a text and no other field. -/
def textPart (text : Bytes) : SessionPartRecord where
  fields := ⟨none, none, none, none, none, some text, none, none, none, none, none, none⟩

/-- Two sessions beyond both budgets, then a third in the slot of the first. -/
def crowdedOps : List Op :=
  [.create [97], .create [98], .append 0 (textPart [1, 2, 3]), .append 0 (textPart [4, 5]),
    .append 1 (textPart [6, 7, 8]), .setStatus 1 1, .append 1 (textPart [9]), .snapshot 0,
    .close 0, .create [99], .append 0 (textPart [1, 2]), .evictToBudget, .close 1, .create [97]]

/-- Create calls with different ids. -/
def manyCreates (n : Nat) : List Op := (List.range n).map fun i => .create (leBytes 8 i)

/-- The store after `n` of them. -/
structure Opened (n : Nat) (s : SessionStore) : Prop where
  slots : s.sessions.map (fun x => (x.live, x.id)) = (List.range n).map fun i => (true, leBytes 8 i)
  free : s.freeSlots = []
  count : s.liveSessions = n % 2 ^ 32
  arena : s.arena = []

variable {n : Nat}

theorem Opened.create (hn : n < 2 ^ 32) {s : SessionStore} (h : Opened n s) :
    ∃ handle s', s.create (leBytes 8 n) = some (handle, s') ∧ Opened (n + 1) s' := by
  have hlength : s.sessions.length = n := by simpa using congrArg List.length h.slots
  have hnone : s.sessions.findIdx? (fun x => x.live ∧ x.id = leBytes 8 n) = none := by
    rw [List.findIdx?_eq_none_iff]
    intro x hx
    have hmem : (x.live, x.id) ∈ (List.range n).map fun i => (true, leBytes 8 i) :=
      h.slots ▸ List.mem_map_of_mem hx
    obtain ⟨i, hi, heq⟩ := List.mem_map.mp hmem
    rw [decide_eq_false_iff_not]
    rintro ⟨-, hid⟩
    -- different numbers have different bytes
    have hbytes : leBytes 8 i = leBytes 8 n := (Prod.mk.inj heq).2.trans hid
    have hin := congrArg leNat hbytes
    have hlt := List.mem_range.mp hi
    rw [leNat_leBytes_of_lt (lt_trans hlt (lt_trans hn (by decide))),
      leNat_leBytes_of_lt (lt_trans hn (by decide))] at hin
    omega
  have hfind : s.findById (leBytes 8 n) = some noSession := by
    rw [findById, hnone]
    exact if_pos (hlength.symm ▸ hn)
  have htake : s.takeSlot = (n, { s with sessions := s.sessions ++ [{}] }) := by
    rw [takeSlot, h.free, List.getLast?_nil, hlength, Nat.mod_eq_of_lt hn]
  refine ⟨n, _, by rw [SessionStore.create, hfind, Option.map_some, if_neg (not_not.mpr rfl), htake], ?_⟩
  constructor
  case slots =>
    show ((s.sessions ++ [({} : SessionSlot)]).set n _).map _ = _
    rw [← hlength, List.set_append_right _ _ le_rfl, Nat.sub_self, List.set_cons_zero,
      List.map_append, h.slots, hlength, List.range_succ, List.map_append]
    rfl
  case free => exact h.free
  case count =>
    show (s.liveSessions + 1) % 2 ^ 32 = _
    rw [h.count, Nat.mod_add_mod]
  case arena => exact h.arena

theorem Opened.countP {s : SessionStore} (h : Opened n s) : s.sessions.countP (·.live) = n := by
  have hlives := congrArg (List.countP Prod.fst) h.slots
  rw [List.countP_map, List.countP_map] at hlives
  refine hlives.trans ((List.countP_eq_length.mpr ?_).trans List.length_range)
  exact fun _ _ => rfl

/-- As long as handles suffice, every create opens a session, without touching the arena. -/
theorem opened_manyCreates (hn : n ≤ 2 ^ 32) :
    Meets (step fun _ => 0) (fun s op => ∀ t ∈ s, t.Admissible op) (some (fresh 0 0))
        (manyCreates n) ∧
      ∃ s, run (step fun _ => 0) (some (fresh 0 0)) (manyCreates n) = some s ∧ Opened n s := by
  induction n with
  | zero => exact ⟨trivial, _, rfl, rfl, rfl, rfl, rfl⟩
  | succ n ih =>
    obtain ⟨hmeets, s, hs, hopened⟩ := ih (Nat.le_of_succ_le hn)
    obtain ⟨handle, s', hs', hopened'⟩ := hopened.create hn
    have hsplit : manyCreates (n + 1) = manyCreates n ++ [.create (leBytes 8 n)] := by
      rw [manyCreates, List.range_succ, List.map_append]
      rfl
    rw [hsplit]
    refine ⟨meets_append.mpr ⟨hmeets, ?_⟩, s', ?_, hopened'⟩
    · rw [hs]
      refine ⟨fun t ht => ?_, trivial⟩
      obtain rfl := Option.some.inj ht
      show s.arena.length < arenaLimit
      rw [hopened.arena]
      exact Nat.two_pow_pos 31
    · rw [run_append, hs, run_cons, run_nil, step, Option.bind_some, SessionStore.apply, hs',
        Option.map_some]

theorem sessionCount_of_opened (hn : n ≤ 2 ^ 32) (hzero : n % 2 ^ 32 = 0) :
    Meets (step fun _ => 0) (fun s op => ∀ t ∈ s, t.Admissible op) (some (fresh 0 0))
        (manyCreates n) ∧
      ∃ s, run (step fun _ => 0) (some (fresh 0 0)) (manyCreates n) = some s ∧
        s.sessionCount = 0 ∧ s.sessions.countP (·.live) = n := by
  obtain ⟨hmeets, s, hs, hopened⟩ := opened_manyCreates hn
  exact ⟨hmeets, s, hs, hopened.count.trans hzero, hopened.countP⟩

end SessionStore

end KimixNative.Soul
