import KimixNative.Soul.SessionViews

/-!
# Where the texts of the session store stand

The offsets are signed 32-bit numbers, made by plain casts of the size of the arena; the history
store refuses a text that would end beyond their range, this store does not, and a budget of 0
sets no limit. In a run whose appends all end below 2^31 bytes every offset is the true place of
its text and every part reads back what was appended. The first append beyond wraps the offsets.
-/

namespace KimixNative.Soul

namespace SessionStore

/-! ### What was appended -/

/-- A store, with what was appended to the session of each slot since it was created. -/
structure Logged where
  store : SessionStore
  log : Nat → List SessionPartRecord

def logAfter (capacity : Nat → Nat) (s : SessionStore) (log : Nat → List SessionPartRecord) :
    Op → Nat → List SessionPartRecord
  | .create id =>
    if s.findById id = some noSession then Function.update log s.takeSlot.1 [] else log
  | .append session record =>
    if (s.append capacity session record).any Prod.fst
    then Function.update log session (log session ++ [record]) else log
  | .clear => fun _ => []
  | _ => log

def logStep (capacity : Nat → Nat) (x : Option Logged) (op : Op) : Option Logged :=
  x.bind fun x => (x.store.apply capacity op).map fun s =>
    ⟨s, logAfter capacity x.store x.log op⟩

def freshLogged (perSession total : Nat) : Logged := ⟨fresh perSession total, fun _ => []⟩

/-- The text stands in the arena where the offsets say, taken as unbounded numbers. -/
def Stands (arena : Bytes) (x : Span) (v : StringView) : Prop :=
  ∃ before after, arena = before ++ v.getD [] ++ after ∧ x.start.toInt = before.length ∧
    x.stop.toInt = before.length + (v.getD []).length

/-- A part is what was appended, and each of its texts stands where its offsets say. -/
structure Faithful (arena : Bytes) (p : PartSlot) (record : SessionPartRecord) : Prop where
  seq : record.seq ≠ 0 → p.seq = record.seq
  kind : p.kind = record.kind
  role : p.role = record.role
  cost : p.cost = record.cost
  stands : List.Forall₂ (Stands arena) p.fields.toList record.fields.toList
  reads : p.fields.map (view arena) = record.fields.map fun v => some (v.getD [])

/-- The parts of each live session are the newest of those that were appended to it. -/
def Truthful (x : Logged) : Prop :=
  ∀ i slot, x.store.find i = some slot →
    ∃ records, records <:+ x.log i ∧ List.Forall₂ (Faithful x.store.arena) slot.parts records

/-- The spans of texts that are put behind one another, from a true place on. -/
def Placed : Nat → List Span → List StringView → Prop
  | n, x :: xs, v :: vs =>
    x.start.toInt = n ∧ x.stop.toInt = n + (v.getD []).length ∧
      Placed (n + (v.getD []).length) xs vs
  | _, [], [] => True
  | _, _, _ => False

/-- The accepted part ends below 2^31 bytes. -/
def Fits (s : SessionStore) : Op → Prop
  | .append session record => s.arena.length + s.adds session record < arenaLimit
  | _ => True

instance (s : SessionStore) (op : Op) : Decidable (s.Fits op) := by
  induction op using Op.casesOn <;> dsimp only [Fits] <;> infer_instance

/-! ### Placing -/

theorem toInt_place {n : Nat} (h : n < arenaLimit) : (BitVec.ofNat 32 n).toInt = n := by
  unfold arenaLimit at h
  exact toInt_ofNat (by unfold int32Max; omega)

variable {arena : Bytes} {x : Logged}

/-- No conversion overflows where the texts end below the bound. -/
theorem placeList_placed {l : List StringView} {y : List Span × Bytes}
    (h : PartFields.mapListM place l arena = some y) (hlt : y.2.length < arenaLimit) :
    Placed arena.length y.1 l := by
  induction l generalizing arena y with
  | nil =>
    obtain rfl := Option.some.inj h
    trivial
  | cons v rest ih =>
    obtain ⟨x, hx, hrest⟩ := Option.bind_eq_some_iff.mp h
    obtain ⟨z, hz, rfl⟩ := Option.map_eq_some_iff.mp hrest
    obtain rfl := Option.some.inj hx
    have hlength := placeList_length hz
    rw [List.length_append] at hlength
    have hend : arena.length + (v.getD []).length < arenaLimit := by
      dsimp only at hlt
      omega
    refine ⟨toInt_place (by omega), ?_, ?_⟩
    · rw [← BitVec.ofNat_add, toInt_place hend, Nat.cast_add]
    · have hplaced := ih hz hlt
      rwa [List.length_append] at hplaced

theorem place_placed {fields : PartFields StringView} {y : PartFields Span × Bytes}
    (h : fields.mapM place arena = some y) (hlt : y.2.length < arenaLimit) :
    Placed arena.length y.1.toList fields.toList := by
  obtain ⟨ys, hys, hfields⟩ := Option.bind_eq_some_iff.mp h
  obtain ⟨spans, hspans, rfl⟩ := Option.map_eq_some_iff.mp hfields
  have hlength : ys.1.length = 12 := PartFields.length_mapListM hys
  obtain ⟨z, hz, hzlist⟩ := PartFields.ofList_of_length hlength
  obtain rfl : z = spans := Option.some.inj (hz.symm.trans hspans)
  rw [hzlist]
  exact placeList_placed hys hlt

/-! ### Standing -/

theorem stands_of_view {x : Span} {v : StringView} (hok : SpanOk x.start x.stop arena.length)
    (hview : view arena x = some (v.getD [])) : Stands arena x v := by
  rw [view_of_ok hok] at hview
  have htext : slice arena x.start x.stop = v.getD [] := Option.some.inj hview
  obtain ⟨hle, hend⟩ := hok.le
  have hstart := toInt_eq_toNat hok.1
  have hstop := toInt_eq_toNat (le_trans hok.1 hok.2.1)
  have hlength : (v.getD []).length = x.stop.toNat - x.start.toNat := by
    rw [← htext, slice, List.length_take, List.length_drop]
    omega
  refine ⟨arena.take x.start.toNat, arena.drop x.stop.toNat, ?_, ?_, ?_⟩
  · have hdrop : arena.drop x.stop.toNat =
        (arena.drop x.start.toNat).drop (x.stop.toNat - x.start.toNat) := by
      rw [List.drop_drop]
      congr 1
      omega
    rw [← htext, slice, List.append_assoc, hdrop, List.take_append_drop, List.take_append_drop]
  · rw [hstart, List.length_take]
    omega
  · rw [hstop, List.length_take, hlength]
    omega

theorem stands_of_views {xs : List Span} {vs : List StringView}
    (hok : ∀ x ∈ xs, SpanOk x.start x.stop arena.length)
    (hviews : xs.map (view arena) = vs.map fun v => some (v.getD [])) :
    List.Forall₂ (Stands arena) xs vs := by
  induction xs generalizing vs with
  | nil =>
    obtain rfl := List.map_eq_nil_iff.mp hviews.symm
    exact .nil
  | cons x xs ih =>
    cases vs with
    | nil => cases hviews
    | cons v vs =>
      rw [List.map_cons, List.map_cons, List.cons.injEq] at hviews
      exact .cons (stands_of_view (hok x List.mem_cons_self) hviews.1)
        (ih (fun y hy => hok y (List.mem_cons_of_mem _ hy)) hviews.2)

variable {record : SessionPartRecord} {s : SessionStore} {capacity : Nat → Nat}

/-- A part that reads like the record stands where it says. -/
theorem faithful_of_content {p : PartSlot} {seq : BitVec 32} (hok : PartOk arena.length p)
    (hcontent : partContent arena p = recordContent seq record)
    (hseq : record.seq ≠ 0 → seq = record.seq) : Faithful arena p record := by
  rw [partContent, recordContent, PartContent.mk.injEq] at hcontent
  obtain ⟨hpseq, hkind, hrole, hcost, hfields⟩ := hcontent
  have hviews := congrArg PartFields.toList hfields
  rw [PartFields.toList_map, PartFields.toList_map] at hviews
  exact ⟨fun hne => hpseq.trans (hseq hne), hkind, hrole, hcost, stands_of_views hok hviews, hfields⟩

/-! ### Contents and the log -/

/-- What is read back is what was appended. -/
def Recorded (content : PartContent) (record : SessionPartRecord) : Prop :=
  ∃ seq, content = recordContent seq record ∧ (record.seq ≠ 0 → seq = record.seq)

/-- What a session reads is the newest of what was appended to it. -/
def Recent (contents : List PartContent) (log : List SessionPartRecord) : Prop :=
  ∃ records, records <:+ log ∧ List.Forall₂ Recorded contents records

theorem recent_nil (log : List SessionPartRecord) : Recent [] log :=
  ⟨[], List.nil_suffix, .nil⟩

theorem Recent.append {contents kept : List PartContent} {log : List SessionPartRecord}
    (h : Recent contents log) {slot : SessionSlot}
    (hkept : kept <:+ contents ++ [recordContent (givenSeq slot record) record]) :
    Recent kept (log ++ [record]) := by
  obtain ⟨records, hsuffix, hrecords⟩ := h
  have hnew : Recorded (recordContent (givenSeq slot record) record) record :=
    ⟨_, rfl, fun hne => if_pos hne⟩
  have hall := List.rel_append hrecords (.cons hnew .nil)
  rw [List.suffix_iff_eq_drop] at hkept
  rw [hkept]
  refine ⟨_, ?_, List.forall₂_drop _ hall⟩
  refine (List.drop_suffix _ _).trans ?_
  obtain ⟨before, rfl⟩ := hsuffix
  exact ⟨before, by rw [List.append_assoc]⟩

/-- What every run keeps whose appends fit. -/
structure Honest (x : Logged) : Prop where
  readable : Readable x.store.arena x.store.sessions
  room : x.store.arena.length < arenaLimit
  recent : ∀ i contents, x.store.contents i = some contents → Recent contents (x.log i)

theorem Honest.truthful (h : Honest x) : Truthful x := by
  intro i slot hfind
  obtain ⟨hslot, hlive⟩ := find_eq_some.mp hfind
  obtain ⟨records, hsuffix, hrecords⟩ := h.recent i _ (by rw [contents, hfind, Option.map_some])
  have hok := (h.readable h.room).1 slot (List.mem_of_getElem? hslot) hlive
  refine ⟨records, hsuffix, ?_⟩
  rw [List.forall₂_map_left_iff] at hrecords
  have hboth : List.Forall₂ (fun p record => p ∈ slot.parts ∧
      Recorded (partContent x.store.arena p) record) slot.parts records :=
    (List.forall₂_and_left _ _).mpr ⟨fun p hp => hp, hrecords⟩
  exact hboth.imp fun p record hp => by
    obtain ⟨hmem, seq, hcontent, hseq⟩ := hp
    exact faithful_of_content (hok p hmem) hcontent hseq

/-! ### Creating and touching -/

theorem contents_touchSlot {s : SessionStore} {i j : Nat} {slot : SessionSlot}
    {cs : List PartContent} (h : (s.touchSlot i slot).contents j = some cs) :
    (j = i ∧ cs = slot.parts.map (partContent s.arena)) ∨ j ≠ i ∧ s.contents j = some cs := by
  obtain ⟨y, hy, rfl⟩ := Option.map_eq_some_iff.mp h
  obtain ⟨hget, hlive⟩ := find_eq_some.mp hy
  obtain rfl | hne := eq_or_ne j i
  · obtain ⟨hlt, hval⟩ := List.getElem?_eq_some_iff.mp hget
    have hself : y = { slot with lru := s.nextLru } := by
      rw [← hval]
      exact List.getElem_set_self _
    exact .inl ⟨rfl, by rw [hself]; rfl⟩
  · refine .inr ⟨hne, ?_⟩
    have hget' : s.sessions[j]? = some y := (List.getElem?_set_ne hne.symm).symm.trans hget
    rw [contents, find_eq_some.mpr ⟨hget', hlive⟩]
    rfl

theorem contents_takeSlot {j : Nat} {cs : List PartContent} (h : s.takeSlot.2.contents j = some cs) :
    s.contents j = some cs := by
  rw [takeSlot] at h
  cases hlast : s.freeSlots.getLast? with
  | some handle =>
    rw [hlast] at h
    exact h
  | none =>
    rw [hlast] at h
    obtain ⟨y, hy, rfl⟩ := Option.map_eq_some_iff.mp h
    obtain ⟨hget, hlive⟩ := find_eq_some.mp hy
    have hget' : s.sessions[j]? = some y := by
      obtain hlt | hge := Nat.lt_or_ge j s.sessions.length
      · exact (List.getElem?_append_left hlt).symm.trans hget
      · dsimp only at hget
        rw [List.getElem?_append_right hge] at hget
        obtain rfl := List.mem_singleton.mp (List.mem_of_getElem? hget)
        cases hlive
    rw [contents, find_eq_some.mpr ⟨hget', hlive⟩]
    rfl

/-- Touching a slot that keeps its parts. -/
theorem Honest.touch (h : Honest x) {i : Nat} {slot slot' : SessionSlot}
    (hfind : x.store.find i = some slot) (hparts : slot'.parts = slot.parts)
    (hlive : slot'.live = slot.live) :
    Honest ⟨x.store.touchSlot i slot', x.log⟩ where
  readable := h.readable.touch i slot' (.inr ⟨slot, (find_eq_some.mp hfind).1, hparts, hlive⟩)
  room := h.room
  recent := by
    intro j cs hcs
    obtain ⟨rfl, rfl⟩ | ⟨-, hold⟩ := contents_touchSlot hcs
    · refine h.recent j _ ?_
      rw [contents, hfind, Option.map_some, hparts]
    · exact h.recent j cs hold

/-- Operations that only take away. -/
theorem Honest.shrunk (h : Honest x) (hs : Shrunk x.store s) :
    Honest ⟨s, x.log⟩ where
  readable := hs.readable
  room := Nat.lt_of_le_of_lt (hs.keeps h.room).1 h.room
  recent := by
    intro j cs hcs
    have hlive : (s.find j).isSome := by
      rw [← contents_isSome, hcs]
      rfl
    exact h.recent j cs (((hs.keeps h.room).2 j hlive).symm.trans hcs)

theorem findById_live {id : Bytes} {i : Nat} (h : s.findById id = some i) (hne : i ≠ noSession) :
    ∃ slot, s.find i = some slot ∧ s.sessions.getD i {} = slot := by
  rw [findById] at h
  cases hfind : s.sessions.findIdx? fun x => x.live ∧ x.id = id with
  | none =>
    rw [hfind] at h
    dsimp only at h
    split_ifs at h
    exact absurd (Option.some.inj h).symm hne
  | some k =>
    rw [hfind] at h
    dsimp only at h
    split_ifs at h
    obtain rfl := Option.some.inj h
    obtain ⟨hlt, hx, -⟩ := List.findIdx?_eq_some_iff_getElem.mp hfind
    obtain ⟨hlive, -⟩ := of_decide_eq_true hx
    refine ⟨s.sessions[k], find_eq_some.mpr ⟨List.getElem?_eq_getElem hlt, hlive⟩, ?_⟩
    rw [List.getD_eq_getElem?_getD, List.getElem?_eq_getElem hlt, Option.getD_some]

/-- A session that is created has no parts, and nothing was appended to it. -/
theorem Honest.create (h : Honest x) {id : Bytes} {y : Nat × SessionStore}
    (hy : x.store.create id = some y) :
    Honest ⟨y.2, logAfter capacity x.store x.log (.create id)⟩ := by
  have hreadable := h.readable.create hy
  obtain ⟨existing, hfind, rfl⟩ := Option.map_eq_some_iff.mp hy
  rw [logAfter, hfind]
  obtain rfl | hne := eq_or_ne existing noSession
  · rw [if_neg (not_not.mpr rfl)] at hreadable ⊢
    rw [if_pos rfl]
    have harena : x.store.takeSlot.2.arena = x.store.arena := by
      rw [takeSlot]
      cases x.store.freeSlots.getLast? <;> rfl
    refine ⟨hreadable, ?_, fun j cs hcs => ?_⟩
    · show x.store.takeSlot.2.arena.length < arenaLimit
      rw [harena]
      exact h.room
    · obtain ⟨rfl, rfl⟩ | ⟨hne, hold⟩ :=
        @contents_touchSlot x.store.takeSlot.2 _ _ { id, live := true } _ hcs
      · exact recent_nil _
      · dsimp only
        rw [Function.update_of_ne hne]
        exact h.recent j cs (contents_takeSlot hold)
  · obtain ⟨slot, hslot, hget⟩ := findById_live hfind hne
    rw [if_pos hne, hget, if_neg fun hsame => hne (Option.some.inj hsame)]
    exact h.touch hslot rfl rfl

/-! ### Runs -/

theorem Honest.append (h : Honest x) {i : Nat}
    (hfits : x.store.arena.length + x.store.adds i record < arenaLimit) {y : Bool × SessionStore}
    (hy : x.store.append capacity i record = some y) :
    Honest ⟨y.2, logAfter capacity x.store x.log (.append i record)⟩ := by
  obtain ⟨hreadable, hrefused, hgrown⟩ := append_written h.readable hy
  rw [logAfter, hy, Option.any_some]
  cases hok : y.1 with
  | false =>
    rw [if_neg Bool.false_ne_true, hrefused hok]
    exact h
  | true =>
    rw [if_pos rfl]
    obtain ⟨hroom, hothers, hown⟩ := hgrown hfits hok
    refine ⟨hreadable, hroom, fun j cs hcs => ?_⟩
    dsimp only
    obtain rfl | hne := eq_or_ne j i
    · rw [Function.update_self]
      obtain ⟨slot, hfind, hsuffix⟩ := hown cs hcs
      exact (h.recent j _ (by rw [contents, hfind, Option.map_some])).append hsuffix
    · rw [Function.update_of_ne hne]
      have hlive : (y.2.find j).isSome := by
        rw [← contents_isSome, hcs]
        rfl
      exact h.recent j cs ((hothers j hne hlive).symm.trans hcs)

/-- One step, whose append fits. -/
theorem Honest.apply (h : Honest x) {op : Op} (hfits : x.store.Fits op)
    (hs : x.store.apply capacity op = some s) : Honest ⟨s, logAfter capacity x.store x.log op⟩ := by
  cases op with
  | create id =>
    obtain ⟨y, hy, rfl⟩ := Option.map_eq_some_iff.mp hs
    exact h.create hy
  | append session record =>
    obtain ⟨y, hy, rfl⟩ := Option.map_eq_some_iff.mp hs
    exact h.append hfits hy
  | close session =>
    obtain ⟨y, hy, rfl⟩ := Option.map_eq_some_iff.mp hs
    exact h.shrunk (close_shrunk h.readable hy).1
  | clear =>
    have hreadable := h.readable.apply hs
    rw [SessionStore.apply, clear] at hs
    split_ifs at hs
    obtain ⟨z, -, rfl⟩ := Option.map_eq_some_iff.mp hs
    refine ⟨hreadable, Nat.two_pow_pos 31, fun j cs hcs => ?_⟩
    obtain ⟨slot, hslot, -⟩ := Option.map_eq_some_iff.mp hcs
    cases (find_eq_some.mp hslot).1
  | setStatus session status =>
    obtain rfl := Option.some.inj hs
    rw [setStatus]
    cases hfind : x.store.find session with
    | none => exact h
    | some slot => exact h.touch hfind rfl rfl
  | snapshot session =>
    obtain rfl := Option.some.inj hs
    rw [snapshot]
    cases hfind : x.store.find session with
    | none => exact h
    | some slot => exact h.touch hfind rfl rfl
  | evictToBudget =>
    obtain ⟨y, hy, rfl⟩ := Option.map_eq_some_iff.mp hs
    exact h.shrunk (evictToBudget_shrunk h.readable hy)

theorem honest_fresh (perSession total : Nat) : Honest (freshLogged perSession total) where
  readable := fun _ => ⟨fun _ hx => absurd hx List.not_mem_nil, Nat.le_refl _⟩
  room := Nat.two_pow_pos 31
  recent := by
    intro j cs hcs
    obtain ⟨slot, hslot, -⟩ := Option.map_eq_some_iff.mp hcs
    cases (find_eq_some.mp hslot).1

/-- In a run whose appends all fit, every offset of a live part is the true place of its text,
every part reads back what was appended, and no conversion of the next append that fits
overflows. -/
theorem offsets_true_run (capacity : Nat → Nat) (perSession total : Nat) {ops : List Op}
    (hfits : Meets (logStep capacity) (fun x op => ∀ t ∈ x, t.store.Fits op)
      (some (freshLogged perSession total)) ops) {x : Logged}
    (hrun : run (logStep capacity) (some (freshLogged perSession total)) ops = some x) :
    Truthful x ∧ ∀ record : SessionPartRecord, x.store.arena.length + incoming record < arenaLimit →
      ∃ spans arena', record.fields.mapM place x.store.arena = some (spans, arena') ∧
        Placed x.store.arena.length spans.toList record.fields.toList := by
  have hhonest : Honest x := by
    refine Meets.invariant (I := fun y => ∀ t, y = some t → Honest t) ?_ ?_ hfits x hrun
    · rintro y op hy hok t ht
      obtain ⟨t₀, rfl, hop⟩ := Option.bind_eq_some_iff.mp ht
      obtain ⟨s, hs, rfl⟩ := Option.map_eq_some_iff.mp hop
      exact (hy t₀ rfl).apply (hok t₀ rfl) hs
    · rintro t ht
      exact Option.some.inj ht ▸ honest_fresh perSession total
  refine ⟨hhonest.truthful, fun record hroom => ?_⟩
  obtain ⟨spans, arena', hplace, hlength, -⟩ := place_fields hroom
  refine ⟨spans, arena', hplace, place_placed hplace ?_⟩
  rw [hlength]
  exact hroom

theorem offsets_true_crowdedOps :
    ∃ x, run (logStep fun _ => 8) (some (freshLogged 4 5)) crowdedOps = some x ∧ Truthful x := by
  have hfits : Meets (logStep fun _ => 8) (fun x op => ∀ t ∈ x, t.store.Fits op)
      (some (freshLogged 4 5)) crowdedOps := by decide
  obtain ⟨x, hx⟩ := Option.isSome_iff_exists.mp (by decide :
    (run (logStep fun _ => 8) (some (freshLogged 4 5)) crowdedOps).isSome)
  exact ⟨x, hx, (offsets_true_run (fun _ => 8) 4 5 hfits hx).1⟩

/-! ### A text that ends beyond -/

/-- What the first append leaves, without budgets. -/
theorem first_append (text : Bytes) :
    ∃ x slot p, run (logStep fun _ => 2 ^ 32) (some (freshLogged 0 0))
        [.create [97], .append 0 (textPart text)] = some x ∧
      x.store.find 0 = some slot ∧ slot.parts = [p] ∧ x.log 0 = [textPart text] ∧
      p.fields.text = ⟨BitVec.ofNat 32 0, BitVec.ofNat 32 0 + BitVec.ofNat 32 text.length⟩ :=
  ⟨_, _, _, rfl, rfl, rfl, rfl, rfl⟩

theorem first_append_wraps {text : Bytes} (hlength : text.length = 2 ^ 31) :
    ∃ x slot p, run (logStep fun _ => 2 ^ 32) (some (freshLogged 0 0))
        [.create [97], .append 0 (textPart text)] = some x ∧
      x.store.find 0 = some slot ∧ slot.parts = [p] ∧ p.fields.text.stop.toInt = -2 ^ 31 ∧
      view x.store.arena p.fields.text = some [] ∧ ¬Truthful x := by
  obtain ⟨x, slot, p, hrun, hfind, hparts, hlog, hspan⟩ := first_append text
  rw [hlength] at hspan
  have hstart : p.fields.text.start.toInt = 0 := by rw [hspan]; decide
  have hstop : p.fields.text.stop.toInt = -2 ^ 31 := by rw [hspan]; decide
  have hview : view x.store.arena p.fields.text = some [] := if_pos (by rw [hstart, hstop]; decide)
  refine ⟨x, slot, p, hrun, hfind, hparts, hstop, hview, fun htruthful => ?_⟩
  obtain ⟨records, hsuffix, hfaithful⟩ := htruthful 0 slot hfind
  rw [hparts] at hfaithful
  rw [hlog] at hsuffix
  obtain ⟨record, rest, hrecord, hrest, rfl⟩ := List.forall₂_cons_left_iff.mp hfaithful
  have hmem : record ∈ [textPart text] := hsuffix.subset List.mem_cons_self
  obtain rfl := List.mem_singleton.mp hmem
  have hreads : view x.store.arena p.fields.text = some text :=
    congrArg PartFields.text hrecord.reads
  rw [hview] at hreads
  rw [← Option.some.inj hreads] at hlength
  cases hlength

/-- Without budgets a text of 2^31 bytes is accepted, its end offset is negative, and it reads
back empty. -/
theorem offsets_wrap :
    ∃ x slot p, run (logStep fun _ => 2 ^ 32) (some (freshLogged 0 0))
        [.create [97], .append 0 (textPart (List.replicate (2 ^ 31) 0))] = some x ∧
      x.store.find 0 = some slot ∧ slot.parts = [p] ∧ p.fields.text.stop.toInt = -2 ^ 31 ∧
      view x.store.arena p.fields.text = some [] ∧ ¬Truthful x :=
  first_append_wraps List.length_replicate

end SessionStore

end KimixNative.Soul
