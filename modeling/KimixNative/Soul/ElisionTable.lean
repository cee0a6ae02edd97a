import KimixNative.Soul.ElisionStore
import Mathlib.Data.List.Count
import Mathlib.Data.List.GetD

/-!
# The ref table of the elision store

`Indexed` is the invariant of the open-addressing table while its entries are being
inserted: the first `k` entries are in it, each reached from its home over occupied cells,
and `k` cells are taken. Insertion ends exactly when a cell is free, and with a free cell
left a lookup finds exactly the stored refs. A full table answers every lookup with an
entry.
-/

namespace KimixNative.Soul.ElisionStore

/-- The first `k` entries are in the table. -/
structure Indexed (entries : List Entry) (slot : List Nat) (mask k : Nat) : Prop where
  capacity : ∃ b, slot.length = 2 ^ b
  mask_eq : mask + 1 = slot.length
  chained : Chained slot.length (homeSlot mask) (slotRef entries slot)
  inserted : k ≤ entries.length
  bound : ∀ p, slot.getD p 0 ≤ k
  free : slot.count 0 + k = slot.length
  stored : ∀ i < k, ∃ p < slot.length, slot.getD p 0 = i + 1

theorem nextSlot_eq_cycle {mask b : Nat} (h : mask + 1 = 2 ^ b) :
    nextSlot mask = cycle (2 ^ b) := by
  funext idx
  rw [nextSlot, cycle, show mask = 2 ^ b - 1 by omega, Nat.and_two_pow_sub_one_eq_mod]

theorem homeSlot_lt {mask b : Nat} (h : mask + 1 = 2 ^ b) (ref : Ref) :
    homeSlot mask ref < 2 ^ b := by
  rw [homeSlot, show mask = 2 ^ b - 1 by omega, Nat.and_two_pow_sub_one_eq_mod]
  exact Nat.mod_lt _ (Nat.two_pow_pos b)

theorem insertSlot_mono {n m mask : Nat} {slot slot' : List Nat} {ref : Ref} {index : Nat}
    (hnm : n ≤ m) (h : insertSlot n mask slot ref index = some slot') :
    insertSlot m mask slot ref index = some slot' := by
  unfold insertSlot at h ⊢
  split_ifs at h ⊢
  · exact h
  · obtain ⟨p, hp, rfl⟩ := Option.map_eq_some_iff.mp h
    rw [walk_mono hnm hp]
    rfl

variable {rest : List Entry}

theorem insertSlots_mono {n m mask : Nat} {slot slot' : List Nat} {index : Nat} (hnm : n ≤ m)
    (h : insertSlots n mask rest index slot = some slot') :
    insertSlots m mask rest index slot = some slot' := by
  induction rest generalizing index slot with
  | nil => exact h
  | cons e rest ih =>
    rw [insertSlots] at h ⊢
    obtain ⟨slot₁, hone, hrest⟩ := Option.bind_eq_some_iff.mp h
    rw [insertSlot_mono hnm hone, Option.bind_some, ih hrest]

/-- The cells before anything is inserted. -/
theorem indexed_replicate (entries : List Entry) (b : Nat) :
    Indexed entries (List.replicate (2 ^ b) 0) (2 ^ b - 1) 0 where
  capacity := ⟨b, List.length_replicate⟩
  mask_eq := by
    have := Nat.two_pow_pos b
    rw [List.length_replicate]
    omega
  chained := by
    have hempty : slotRef entries (List.replicate (2 ^ b) 0) = fun _ => none := by
      funext p
      have hp : (List.replicate (2 ^ b) 0).getD p 0 = 0 := by
        simp [List.getD_eq_getElem?_getD, List.getElem?_replicate]
        split_ifs <;> rfl
      rw [slotRef, hp]
    rw [hempty]
    exact chained_empty _ _
  inserted := Nat.zero_le _
  bound := by
    intro p
    simp [List.getD_eq_getElem?_getD, List.getElem?_replicate]
    split_ifs <;> rfl
  free := by simp
  stored := by
    intro i hi
    omega

namespace Indexed

variable {entries : List Entry} {slot : List Nat} {mask k : Nat}

theorem slotRef_eq_none (h : Indexed entries slot mask k) (p : Nat) :
    slotRef entries slot p = none ↔ slot.getD p 0 = 0 := by
  have hbound := h.bound p
  have hle := h.inserted
  unfold slotRef
  cases hv : slot.getD p 0 with
  | zero => simp
  | succ v =>
    have hlt : v < entries.length := by omega
    simp [List.getElem?_eq_getElem hlt]

/-- A cell is free as long as not every one is taken. -/
theorem exists_free (h : Indexed entries slot mask k) (hk : k < slot.length) :
    ∃ p < slot.length, slot.getD p 0 = 0 := by
  have hpos : 0 < slot.count 0 := by
    have := h.free
    omega
  obtain ⟨p, hp, hget⟩ := List.getElem_of_mem (List.count_pos_iff.mp hpos)
  exact ⟨p, hp, by rw [List.getD_eq_getElem _ _ hp, hget]⟩

/-- A table whose cells are all taken. -/
theorem taken_of_full (h : Indexed entries slot mask k) (hk : k = slot.length) {p : Nat}
    (hp : p < slot.length) : slot.getD p 0 ≠ 0 := by
  intro hzero
  have hcount : slot.count 0 = 0 := by
    have := h.free
    omega
  refine List.count_eq_zero.mp hcount ?_
  rw [← hzero, List.getD_eq_getElem _ _ hp]
  exact List.getElem_mem hp

theorem length_pos (h : Indexed entries slot mask k) : 0 < slot.length := by
  have := h.mask_eq
  omega

theorem isEmpty (h : Indexed entries slot mask k) : slot.isEmpty = false := by
  have := h.length_pos
  cases slot with
  | nil => simp at this
  | cons v slot => rfl

/-- Entries that come later do not change the table. -/
theorem append (h : Indexed entries slot mask k) (more : List Entry) :
    Indexed (entries ++ more) slot mask k := by
  have hsame : slotRef (entries ++ more) slot = slotRef entries slot := by
    funext p
    have hbound := h.bound p
    have hle := h.inserted
    unfold slotRef
    cases hv : slot.getD p 0 with
    | zero => rfl
    | succ v =>
      have hlt : v < entries.length := by omega
      simp only [List.getElem?_append_left hlt]
  exact ⟨h.capacity, h.mask_eq, hsame ▸ h.chained,
    le_trans h.inserted (by rw [List.length_append]; omega), h.bound, h.free, h.stored⟩

/-- The free cell the insertion of a ref ends at, given enough iterations. -/
theorem walk_free (h : Indexed entries slot mask k) (hk : k < slot.length) (ref : Ref) :
    ∃ p < slot.length, slot.getD p 0 = 0 ∧ ∀ fuel ≥ slot.length,
      walk (fun idx => decide (slot.getD idx 0 = 0)) (nextSlot mask) fuel (homeSlot mask ref) =
        some p := by
  obtain ⟨b, hb⟩ := h.capacity
  have hmask := h.mask_eq.trans hb
  obtain ⟨q, hq, hfree⟩ := h.exists_free hk
  rw [nextSlot_eq_cycle hmask]
  rw [hb] at hq ⊢
  obtain ⟨p, hp, hwalk⟩ := @walk_cycle _ (fun idx => decide (slot.getD idx 0 = 0)) _ _
    (homeSlot_lt hmask ref) hq (by simpa using hfree) _ le_rfl
  obtain ⟨-, -, -, hstop, -⟩ := walk_eq_some hwalk
  exact ⟨p, hp, by simpa using hstop, fun fuel hfuel => walk_mono hfuel hwalk⟩

/-- One insertion: it ends, and the entry is in the table. -/
theorem insert (h : Indexed entries slot mask k) (hk : k < slot.length) {e : Entry}
    (he : entries[k]? = some e) (hwidth : k + 1 < u32Modulus) :
    ∃ slot', (∀ fuel ≥ slot.length, insertSlot fuel mask slot e.ref k = some slot') ∧
      slot'.length = slot.length ∧ Indexed entries slot' mask (k + 1) := by
  obtain ⟨p, hp, hfree, hwalk⟩ := h.walk_free hk e.ref
  refine ⟨slot.set p (k + 1), ?_, List.length_set, ?_⟩
  · intro fuel hfuel
    rw [insertSlot, h.isEmpty, if_neg (by decide), hwalk fuel hfuel, Nat.mod_eq_of_lt hwidth]
    rfl
  have hget : ∀ q, (slot.set p (k + 1)).getD q 0 = if q = p then k + 1 else slot.getD q 0 := by
    intro q
    rw [List.getD_eq_getElem?_getD, List.getElem?_set, List.getD_eq_getElem?_getD]
    by_cases hqp : q = p
    · subst hqp
      simp [hp]
    · rw [if_neg (fun heq => hqp heq.symm), if_neg hqp]
  have hupdate : slotRef entries (slot.set p (k + 1)) =
      Function.update (slotRef entries slot) p (some e.ref) := by
    funext q
    by_cases hqp : q = p
    · subst hqp
      rw [Function.update_self, slotRef, hget, if_pos rfl]
      simp [he]
    · rw [Function.update_of_ne hqp, slotRef, slotRef, hget, if_neg hqp]
  have hlt : k < entries.length := by
    by_contra hge
    rw [List.getElem?_eq_none (Nat.le_of_not_lt hge)] at he
    cases he
  obtain ⟨b, hb⟩ := h.capacity
  have hmask := h.mask_eq.trans hb
  refine ⟨⟨b, by rw [List.length_set, hb]⟩, by rw [List.length_set, h.mask_eq], ?_, hlt, ?_, ?_, ?_⟩
  · rw [hupdate, List.length_set, hb]
    have hstop : (fun q => decide (slotRef entries slot q = none)) =
        fun q => decide (slot.getD q 0 = 0) := by
      funext q
      exact decide_eq_decide.mpr (h.slotRef_eq_none q)
    refine Chained.insert (n := slot.length) (homeSlot_lt hmask e.ref) (hb ▸ h.chained) ?_
    rw [hstop, ← nextSlot_eq_cycle hmask]
    exact hwalk slot.length le_rfl
  · intro q
    have := h.bound q
    rw [hget]
    split_ifs <;> omega
  · have hcount := h.free
    have hpos : 0 < slot.count 0 := by omega
    have hold : slot[p] = 0 := by
      rw [← hfree, List.getD_eq_getElem _ _ hp]
    rw [List.length_set, List.count_set hp, hold]
    simp only [beq_self_eq_true, if_true, Nat.succ_ne_zero, beq_iff_eq, if_false]
    omega
  · intro i hi
    rw [List.length_set]
    by_cases hik : i = k
    · exact ⟨p, hp, by rw [hget, if_pos rfl, hik]⟩
    · obtain ⟨q, hq, hval⟩ := h.stored i (by omega)
      refine ⟨q, hq, ?_⟩
      rw [hget, if_neg ?_, hval]
      -- the cell of `i` is taken, the one of `k` was free
      rintro rfl
      omega

/-- Without a free cell the insertion goes round for ever. -/
theorem insert_diverges (h : Indexed entries slot mask k) (hk : k = slot.length) (ref : Ref)
    (index fuel : Nat) : insertSlot fuel mask slot ref index = none := by
  obtain ⟨b, hb⟩ := h.capacity
  have hmask := h.mask_eq.trans hb
  rw [insertSlot, h.isEmpty, if_neg (by decide), Option.map_eq_none_iff, walk_eq_none]
  intro j _
  rw [nextSlot_eq_cycle hmask, iterate_cycle (homeSlot_lt hmask ref)]
  refine decide_eq_false (h.taken_of_full hk ?_)
  rw [hb]
  exact Nat.mod_lt _ (Nat.two_pow_pos b)

/-- The loop of `rehash` from index `k` on, when the rest fits. -/
theorem insert_all (h : Indexed entries slot mask k) (hrest : entries.drop k = rest)
    (hroom : entries.length ≤ slot.length) (hwidth : entries.length < u32Modulus) :
    ∃ slot', (∀ fuel ≥ slot.length, insertSlots fuel mask rest k slot = some slot') ∧
      slot'.length = slot.length ∧ Indexed entries slot' mask entries.length := by
  induction rest generalizing slot k with
  | nil =>
    have hk : k = entries.length := by
      have := List.drop_eq_nil_iff.mp hrest
      have := h.inserted
      omega
    subst hk
    exact ⟨slot, fun _ _ => rfl, rfl, h⟩
  | cons e rest ih =>
    have hlt : k < entries.length := by
      by_contra hge
      rw [List.drop_eq_nil_of_le (Nat.le_of_not_lt hge)] at hrest
      cases hrest
    have he : entries[k]? = some e := by
      rw [← List.head?_drop, hrest]
      rfl
    obtain ⟨slot₁, hinsert, hlen, h₁⟩ := h.insert (by omega) he (by omega)
    have hdrop : entries.drop (k + 1) = rest := by
      rw [← List.drop_drop, hrest]
      rfl
    obtain ⟨slot₂, hall, hlen₂, h₂⟩ := ih h₁ hdrop (by omega)
    refine ⟨slot₂, ?_, by omega, h₂⟩
    intro fuel hfuel
    rw [insertSlots, hinsert fuel hfuel, Option.bind_some, hall fuel (by omega)]

/-- The loop of `rehash` when the entries do not fit: it fills the table and then never
ends. -/
theorem insert_all_diverges (h : Indexed entries slot mask k) (hrest : entries.drop k = rest)
    (hroom : slot.length < entries.length) (hkslot : k ≤ slot.length)
    (hwidth : entries.length < u32Modulus) (fuel : Nat) :
    insertSlots fuel mask rest k slot = none := by
  induction rest generalizing slot k with
  | nil =>
    have := List.drop_eq_nil_iff.mp hrest
    omega
  | cons e rest ih =>
    rw [insertSlots]
    obtain hlt | heq := Nat.lt_or_eq_of_le hkslot
    · have he : entries[k]? = some e := by
        rw [← List.head?_drop, hrest]
        rfl
      obtain ⟨slot₁, hinsert, hlen, h₁⟩ := h.insert hlt he (by omega)
      have hdrop : entries.drop (k + 1) = rest := by
        rw [← List.drop_drop, hrest]
        rfl
      cases hone : insertSlot fuel mask slot e.ref k with
      | none => rfl
      | some slot₂ =>
        -- whatever the bound, an insertion that ends gives the same table
        have hsame := (insertSlot_mono (Nat.le_max_left fuel slot.length) hone).symm.trans
          (hinsert _ (Nat.le_max_right fuel slot.length))
        obtain rfl := Option.some.inj hsame
        exact ih h₁ hdrop (by omega) (by omega)
    · rw [h.insert_diverges heq]
      rfl

end Indexed

/-! ### Lookup -/

section Lookup

variable {s : ElisionStore} (h : Indexed s.entries s.slot s.slotMask s.entries.length)

include h

/-- The walk of `find_slot`, on the circle of cells. -/
theorem findSlot_eq {b : Nat} (hb : s.slot.length = 2 ^ b) (ref : Ref) :
    s.findSlot ref = (walk (lookupStop (slotRef s.entries s.slot) ref) (cycle (2 ^ b))
      (2 ^ b) (homeSlot s.slotMask ref)).getD 0 := by
  have hmask := h.mask_eq.trans hb
  have hstop : (fun idx => decide (s.slot.getD idx 0 = 0) ||
      decide (slotRef s.entries s.slot idx = some ref)) =
      lookupStop (slotRef s.entries s.slot) ref := by
    funext idx
    rw [lookupStop, decide_eq_decide.mpr (h.slotRef_eq_none idx)]
  rw [findSlot, h.isEmpty, if_neg (by decide), nextSlot_eq_cycle hmask, hmask, hstop]

/-- What `find` reads from the cell it ends at. -/
theorem find_eq_getElem {p : Nat} {ref : Ref} (hp : s.findSlot ref = p) :
    s.find ref = match s.slot.getD p 0 with
      | 0 => none
      | v + 1 => s.entries[v]? := by
  by_cases hempty : s.entries = []
  · have hbound := h.bound p
    rw [hempty, List.length_nil, Nat.le_zero] at hbound
    rw [find, hempty, hbound]
    rfl
  · have : s.entries.isEmpty = false := by simpa using hempty
    rw [find, this, h.isEmpty, hp]
    rfl

/-- With a free cell left, a lookup ends at a free cell and the ref is not stored, or it
ends at the ref's own entry. -/
theorem find_cases (hroom : s.entries.length < s.slot.length) (ref : Ref) :
    (s.find ref = none ∧ ∀ e ∈ s.entries, e.ref ≠ ref) ∨
      ∃ e ∈ s.entries, s.find ref = some e ∧ e.ref = ref := by
  obtain ⟨b, hb⟩ := h.capacity
  have hmask := h.mask_eq.trans hb
  obtain ⟨q, hq, hfree⟩ := h.exists_free hroom
  obtain ⟨p, hp, hwalk⟩ := @walk_cycle _ (lookupStop (slotRef s.entries s.slot) ref) _ _
    (homeSlot_lt hmask ref) (hb ▸ hq)
    (by simp [lookupStop, (h.slotRef_eq_none q).mpr hfree]) _ le_rfl
  have hslot : s.findSlot ref = p := by
    rw [findSlot_eq h hb, hwalk]
    rfl
  rw [find_eq_getElem h hslot]
  cases hcell : s.slot.getD p 0 with
  | zero =>
    refine .inl ⟨rfl, ?_⟩
    intro e he href
    obtain ⟨i, hi, hget⟩ := List.getElem_of_mem he
    obtain ⟨r, hr, hval⟩ := h.stored i hi
    refine Chained.not_stored (homeSlot_lt hmask ref) (hb ▸ h.chained) hwalk
      ((h.slotRef_eq_none p).mpr hcell) r (hb ▸ hr) ?_
    rw [slotRef, hval]
    simp [List.getElem?_eq_getElem hi, hget, href]
  | succ v =>
    have hlt : v < s.entries.length := by
      have := h.bound p
      omega
    have hget := List.getElem?_eq_getElem hlt
    have hcellRef : slotRef s.entries s.slot p = some (s.entries[v]).ref := by
      rw [slotRef, hcell]
      simp [hget]
    obtain ⟨-, -, -, hstop, -⟩ := walk_eq_some hwalk
    refine .inr ⟨s.entries[v], List.getElem_mem hlt, hget, ?_⟩
    simpa [lookupStop, hcellRef] using hstop

/-- In a full table every lookup finds an entry. -/
theorem find_of_full (hfull : s.entries.length = s.slot.length) (ref : Ref) :
    (s.find ref).isSome = true := by
  obtain ⟨b, hb⟩ := h.capacity
  have hmask := h.mask_eq.trans hb
  have hlt : s.findSlot ref < s.slot.length := by
    rw [findSlot_eq h hb, hb]
    cases hwalk : walk (lookupStop (slotRef s.entries s.slot) ref) (cycle (2 ^ b)) (2 ^ b)
        (homeSlot s.slotMask ref) with
    | none => exact Nat.two_pow_pos b
    | some p =>
      obtain ⟨j, -, rfl, -⟩ := walk_eq_some hwalk
      rw [iterate_cycle (homeSlot_lt hmask ref)]
      exact Nat.mod_lt _ (Nat.two_pow_pos b)
  rw [find_eq_getElem h rfl]
  have htaken := h.taken_of_full hfull hlt
  have hbound := h.bound (s.findSlot ref)
  cases hcell : s.slot.getD (s.findSlot ref) 0 with
  | zero => exact absurd hcell htaken
  | succ v =>
    have hv : v < s.entries.length := by omega
    simp [List.getElem?_eq_getElem hv]

end Lookup

end KimixNative.Soul.ElisionStore
