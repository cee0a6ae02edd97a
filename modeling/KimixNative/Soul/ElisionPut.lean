import KimixNative.Soul.ElisionTable
import Mathlib.Data.Fintype.Card

/-!
# Putting texts into an elision store

A store is described by its items, the refs and texts in the order they were put: entries
and slabs are a function of them, the `layout`. `Stored` adds to the layout that refs are
distinct and that the table leads to every entry with a cell to spare. Every `put` into
such a store ends in such a store, until the number of entries reaches 2^30: the next
doubling of the table then asks for 2^32 cells, which the 32-bit cast makes 16.
-/

namespace KimixNative.Soul.ElisionStore

/-- A stored text under its ref. -/
abbrev Item := Ref × Bytes

def pushItem (acc : List Entry × List Bytes) (item : Item) : List Entry × List Bytes :=
  pushText acc.1 acc.2 item.1 item.2

/-- Entries and slabs of a store that holds the items. -/
def layout (items : List Item) : List Entry × List Bytes := items.foldl pushItem ([], [])

theorem layout_append (items : List Item) (item : Item) :
    layout (items ++ [item]) = pushItem (layout items) item :=
  List.foldl_concat ..

/-! ### The slabs -/

/-- The slabs only grow. -/
def Extends (slabs slabs' : List Bytes) : Prop :=
  ∀ (i : Nat) slab, slabs[i]? = some slab → ∃ more, slabs'[i]? = some (slab ++ more)

/-- The entry lies inside its slab. -/
def Inside (slabs : List Bytes) (e : Entry) : Prop :=
  ∃ slab, slabs[e.slab]? = some slab ∧ e.offset + e.length ≤ slab.length

variable {e : Entry} {slabs : List Bytes} {entries : List Entry} {ref : Ref}

theorem Inside.extend {slabs' : List Bytes} (h : Inside slabs e) (hgrow : Extends slabs slabs') :
    Inside slabs' e ∧ bytes slabs' e = bytes slabs e := by
  obtain ⟨slab, hslab, hfit⟩ := h
  obtain ⟨more, hmore⟩ := hgrow _ _ hslab
  refine ⟨⟨slab ++ more, hmore, by rw [List.length_append]; omega⟩, ?_⟩
  rw [bytes, bytes, List.getD_eq_getElem?_getD, hmore, List.getD_eq_getElem?_getD, hslab]
  simp only [Option.getD_some]
  rw [List.drop_append_of_le_length (by omega), List.take_append_of_le_length]
  rw [List.length_drop]
  omega

/-- The slabs a text is appended to: a new one is opened when the last one is full. -/
theorem pushText_slabs (slabs : List Bytes) (text : Bytes) :
    ∃ front last, (if slabs.isEmpty || (slabs.getLastD []).length + text.length > kElisionSlabBytes
        then slabs ++ [[]] else slabs) = front ++ [last] ∧
      Extends slabs (front ++ [last ++ text]) ∧ front.length ≤ slabs.length ∧
      last.length ≤ kElisionSlabBytes := by
  split_ifs with hnew
  · refine ⟨slabs, [], rfl, ?_, le_rfl, Nat.zero_le _⟩
    intro i slab hslab
    refine ⟨[], ?_⟩
    rw [List.append_nil, List.getElem?_append_left (List.getElem?_eq_some_iff.mp hslab).1, hslab]
  · simp only [Bool.or_eq_true, List.isEmpty_iff, decide_eq_true_eq, not_or] at hnew
    obtain ⟨hne, hfit⟩ := hnew
    obtain ⟨front, last, rfl⟩ := (List.eq_nil_or_concat' slabs).resolve_left hne
    refine ⟨front, last, rfl, ?_, by simp, ?_⟩
    · intro i slab hslab
      by_cases hi : i < front.length
      · rw [List.getElem?_append_left hi] at hslab
        exact ⟨[], by rw [List.append_nil, List.getElem?_append_left hi, hslab]⟩
      · rw [List.getElem?_append_right (Nat.le_of_not_lt hi)] at hslab
        refine ⟨text, ?_⟩
        rw [List.getElem?_append_right (Nat.le_of_not_lt hi)]
        cases hj : i - front.length with
        | zero =>
          rw [hj] at hslab
          simp only [List.getElem?_cons_zero, Option.some.injEq] at hslab ⊢
          rw [hslab]
        | succ j =>
          rw [hj] at hslab
          simp at hslab
    · simp only [List.getLastD_concat] at hfit
      omega

/-- One more text: the old entries keep their bytes, the new one has the text's. -/
theorem pushText_spec {entries : List Entry} {slabs : List Bytes} (ref : Ref) {text : Bytes}
    (hslabs : slabs.length < u32Modulus) (htext : text.length < u32Modulus) :
    ∃ e, (pushText entries slabs ref text).1 = entries ++ [e] ∧ e.ref = ref ∧
      Extends slabs (pushText entries slabs ref text).2 ∧
      (pushText entries slabs ref text).2.length ≤ slabs.length + 1 ∧
      Inside (pushText entries slabs ref text).2 e ∧
      bytes (pushText entries slabs ref text).2 e = text := by
  obtain ⟨front, last, hsplit, hgrow, hfront, hlast⟩ := pushText_slabs slabs text
  have hwidth : last.length < u32Modulus := lt_of_le_of_lt hlast (by decide)
  refine ⟨⟨ref, front.length, last.length, text.length⟩, ?_, rfl, ?_⟩
  · simp only [pushText, hsplit, List.length_append, List.length_singleton,
      Nat.add_sub_cancel, List.getLastD_concat, Nat.mod_eq_of_lt hwidth, Nat.mod_eq_of_lt htext,
      Nat.mod_eq_of_lt (lt_of_le_of_lt hfront hslabs)]
  · have hsnd : (pushText entries slabs ref text).2 = front ++ [last ++ text] := by
      simp only [pushText, hsplit, List.getLastD_concat, List.dropLast_concat]
    rw [hsnd]
    have hget : (front ++ [last ++ text])[front.length]? = some (last ++ text) := by simp
    refine ⟨hgrow, by simpa using hfront, ⟨last ++ text, hget, by simp⟩, ?_⟩
    rw [bytes, List.getD_eq_getElem?_getD, hget]
    simp

/-- The entries and slabs spell out the items. -/
structure Lays (items : List Item) (entries : List Entry) (slabs : List Bytes) : Prop where
  items_eq : entries.map (fun e => (e.ref, bytes slabs e)) = items
  inside : ∀ e ∈ entries, Inside slabs e
  few : slabs.length ≤ items.length

theorem Lays.refs {items : List Item} (h : Lays items entries slabs) :
    entries.map (·.ref) = items.map Prod.fst := by
  rw [← h.items_eq, List.map_map]
  rfl

theorem Inside.length_bytes (h : Inside slabs e) : (bytes slabs e).length = e.length := by
  obtain ⟨slab, hslab, hfit⟩ := h
  rw [bytes, List.getD_eq_getElem?_getD, hslab]
  simp only [Option.getD_some, List.length_take, List.length_drop]
  omega

theorem lays_layout {items : List Item} (hfew : items.length < u32Modulus)
    (hshort : ∀ item ∈ items, item.2.length < u32Modulus) :
    Lays items (layout items).1 (layout items).2 := by
  induction items using List.reverseRecOn with
  | nil => exact ⟨rfl, fun e he => absurd he List.not_mem_nil, le_rfl⟩
  | append_singleton items item ih =>
    rw [List.length_append, List.length_singleton] at hfew
    have h := ih (by omega) fun i hi => hshort i (List.mem_append_left _ hi)
    obtain ⟨e, hentries, href, hgrow, hlen, hinside, hbytes⟩ :=
      @pushText_spec (layout items).1 _ item.1 _
        (lt_of_le_of_lt h.few (by omega)) (hshort item (by simp))
    rw [layout_append, pushItem, hentries]
    refine ⟨?_, ?_, ?_⟩
    · have hold : (layout items).1.map (fun e => (e.ref, bytes
          (pushText (layout items).1 (layout items).2 item.1 item.2).2 e)) = items := by
        refine Eq.trans (List.map_congr_left ?_) h.items_eq
        intro e he
        rw [((h.inside e he).extend hgrow).2]
      rw [List.map_append, hold]
      simp [hbytes, href]
    · intro e' he'
      obtain hold | hnew := List.mem_append.mp he'
      · exact ((h.inside e' hold).extend hgrow).1
      · obtain rfl := List.mem_singleton.mp hnew
        exact hinside
    · have := h.few
      rw [List.length_append, List.length_singleton]
      omega

/-! ### The invariant -/

/-- The number of entries up to which the table can grow. -/
def maxEntries : Nat := 2 ^ 30

/-- The store holds the items, and its table leads to them. -/
structure Stored (items : List Item) (s : ElisionStore) : Prop where
  entries_eq : s.entries = (layout items).1
  slabs_eq : s.slabs = (layout items).2
  short : ∀ item ∈ items, item.2.length < u32Modulus
  distinct : (items.map Prod.fst).Nodup
  few : items.length ≤ maxEntries
  table : (s.entries = [] ∧ s.slot = []) ∨
    (Indexed s.entries s.slot s.slotMask s.entries.length ∧ s.entries.length < s.slot.length ∧
      ∃ b, 4 ≤ b ∧ b ≤ 31 ∧ s.slot.length = 2 ^ b)

theorem stored_fresh : Stored [] {} where
  entries_eq := rfl
  slabs_eq := rfl
  short := fun _ h => absurd h List.not_mem_nil
  distinct := List.nodup_nil
  few := Nat.zero_le _
  table := .inl ⟨rfl, rfl⟩

namespace Stored

variable {items : List Item} {s : ElisionStore}

theorem lays (h : Stored items s) : Lays items s.entries s.slabs := by
  rw [h.entries_eq, h.slabs_eq]
  exact lays_layout (lt_of_le_of_lt h.few (by decide)) h.short

theorem length_eq (h : Stored items s) : s.entries.length = items.length := by
  simpa using congrArg List.length h.lays.refs

theorem find_cases (h : Stored items s) (ref : Ref) :
    (s.find ref = none ∧ ∀ e ∈ s.entries, e.ref ≠ ref) ∨
      ∃ e ∈ s.entries, s.find ref = some e ∧ e.ref = ref := by
  obtain ⟨hentries, -⟩ | ⟨hindexed, hroom, -⟩ := h.table
  · refine .inl ⟨?_, ?_⟩
    · rw [find, hentries]
      rfl
    · intro e he
      rw [hentries] at he
      cases he
  · exact ElisionStore.find_cases hindexed hroom ref

end Stored

/-! ### Rehashing -/

/-- A rehash whose cells hold the entries. -/
theorem rehash_yields (s : ElisionStore) {b : Nat} (hroom : s.entries.length ≤ 2 ^ b)
    (hwidth : s.entries.length < u32Modulus) :
    ∃ slot, Yields (fun fuel => rehash fuel s (2 ^ b)) { s with slot, slotMask := 2 ^ b - 1 } ∧
      slot.length = 2 ^ b ∧ Indexed s.entries slot (2 ^ b - 1) s.entries.length := by
  have hcap : (2 : Nat) ^ b ≠ 0 := (Nat.two_pow_pos b).ne'
  have hlen := List.length_replicate (n := 2 ^ b) (a := 0)
  obtain ⟨slot, hall, hlength, hindexed⟩ := (indexed_replicate s.entries b).insert_all
    List.drop_zero (by rw [hlen]; exact hroom) hwidth
  rw [hlen] at hall hlength
  refine ⟨slot, ?_, hlength, hindexed⟩
  simp only [rehash, if_neg hcap]
  refine Yields.map (f := fun fuel => insertSlots fuel (2 ^ b - 1) s.entries 0
    (List.replicate (2 ^ b) 0)) ?_ _
  exact yields_of_mono (fun n m b hnm => insertSlots_mono hnm) (hall (2 ^ b) le_rfl)

/-- A rehash whose cells do not hold the entries never ends. -/
theorem rehash_diverges (s : ElisionStore) {b : Nat} (hroom : 2 ^ b < s.entries.length)
    (hwidth : s.entries.length < u32Modulus) : Diverges fun fuel => rehash fuel s (2 ^ b) := by
  have hcap : (2 : Nat) ^ b ≠ 0 := (Nat.two_pow_pos b).ne'
  intro fuel
  simp only [rehash, if_neg hcap, Option.map_eq_none_iff]
  exact (indexed_replicate s.entries b).insert_all_diverges List.drop_zero
    (by rw [List.length_replicate]; exact hroom) (Nat.zero_le _) hwidth fuel

/-! ### Storing a text -/

theorem reindex_yields {s : ElisionStore} (hentries : s.entries = entries ++ [e])
    (hfew : entries.length ≤ maxEntries)
    (htable : (entries = [] ∧ s.slot = []) ∨ (Indexed entries s.slot s.slotMask entries.length ∧
      entries.length < s.slot.length ∧ ∃ b, 4 ≤ b ∧ b ≤ 31 ∧ s.slot.length = 2 ^ b)) :
    (∃ slot mask, Yields (fun fuel => reindex fuel s e.ref) { s with slot, slotMask := mask } ∧
      Indexed s.entries slot mask s.entries.length ∧ s.entries.length < slot.length ∧
        entries.length < maxEntries ∧ ∃ b, 4 ≤ b ∧ b ≤ 31 ∧ slot.length = 2 ^ b) ∨
      (entries.length = maxEntries ∧ Diverges fun fuel => reindex fuel s e.ref) := by
  have hlen : s.entries.length = entries.length + 1 := by
    rw [hentries, List.length_append, List.length_singleton]
  have hmax : maxEntries = 2 ^ 30 := rfl
  have hmod : u32Modulus = 2 ^ 32 := rfl
  obtain ⟨rfl, hslot⟩ | ⟨hindexed, hroom, b, hb4, hb31, hb⟩ := htable
  · -- the first entry opens a table of 16 cells
    rw [List.length_nil] at hlen
    obtain ⟨slot, hyields, hlength, htable⟩ := rehash_yields s (b := 4) (by omega) (by omega)
    refine .inl ⟨slot, 2 ^ 4 - 1, ?_, htable, by omega, by decide, 4, le_rfl, by decide, hlength⟩
    have hreindex : ∀ fuel, reindex fuel s e.ref = rehash fuel s (2 ^ 4) := by
      intro fuel
      rw [reindex, hslot]
      rfl
    simp only [hreindex]
    exact hyields
  have hempty := hindexed.isEmpty
  by_cases hfull : s.entries.length * 2 > s.slot.length
  · have hreindex : ∀ fuel, reindex fuel s e.ref =
        rehash fuel s ((s.slot.length * 2) % u32Modulus) := by
      intro fuel
      simp only [reindex, hempty, Bool.false_or, decide_eq_true hfull, if_true, Bool.false_eq_true,
        if_false]
    simp only [hreindex]
    obtain hb30 | rfl : b ≤ 30 ∨ b = 31 := by omega
    · have hpow : 2 ^ b ≤ 2 ^ 30 := Nat.pow_le_pow_right (by decide) hb30
      have hcap : s.slot.length * 2 % u32Modulus = 2 ^ (b + 1) := by
        rw [hb, ← pow_succ, Nat.mod_eq_of_lt]
        rw [pow_succ]
        omega
      rw [hcap]
      obtain ⟨slot, hyields, hlength, htable⟩ := rehash_yields s (b := b + 1)
        (by rw [pow_succ]; omega) (by omega)
      refine .inl ⟨slot, 2 ^ (b + 1) - 1, hyields, htable, ?_, by omega, b + 1, by omega, by omega,
        hlength⟩
      rw [hlength, pow_succ]
      omega
    · -- 2^32 cells are asked for and 16 are made
      refine .inr ⟨by omega, ?_⟩
      have hcap : s.slot.length * 2 % u32Modulus = 0 := by
        rw [hb]
        decide
      rw [hcap]
      exact rehash_diverges s (b := 4) (by omega) (by omega)
  · have hpow : 2 ^ b ≤ 2 ^ 31 := Nat.pow_le_pow_right (by decide) hb31
    have hget : (entries ++ [e])[entries.length]? = some e := by simp
    obtain ⟨slot, hinsert, hlength, htable⟩ :=
      (hindexed.append [e]).insert hroom hget (by omega)
    have hindex : (s.entries.length - 1) % u32Modulus = entries.length := by
      rw [hlen, Nat.add_sub_cancel, Nat.mod_eq_of_lt (by omega)]
    refine .inl ⟨slot, s.slotMask, ?_, ?_, by omega, by omega, b, hb4, hb31, by omega⟩
    · simp only [reindex, hempty, Bool.false_or, decide_eq_false hfull, Bool.false_eq_true,
        if_false, hindex]
      refine Yields.map (f := fun fuel => insertSlot fuel s.slotMask s.slot e.ref entries.length)
        ?_ fun slot => { s with slot }
      exact yields_of_mono (fun n m b hnm => insertSlot_mono hnm) (hinsert s.slot.length le_rfl)
    · rw [hentries, List.length_append, List.length_singleton]
      exact htable

/-- Storing under a free ref. -/
theorem store_yields {items : List Item} {s : ElisionStore} (h : Stored items s)
    (href : ∀ e ∈ s.entries, e.ref ≠ ref) {text : Bytes} (htext : text.length < u32Modulus) :
    (∃ s', Yields (fun fuel => store fuel s ref text) (ref, s') ∧
      Stored (items ++ [(ref, text)]) s') ∨
      (items.length = maxEntries ∧ Diverges fun fuel => store fuel s ref text) := by
  have hmod : u32Modulus = 2 ^ 32 := rfl
  have hmax : maxEntries = 2 ^ 30 := rfl
  have hfew := h.few
  have hlen := h.length_eq
  obtain ⟨e, hentries, hrefe, -⟩ := @pushText_spec s.entries s.slabs ref _
    (lt_of_le_of_lt h.lays.few (by omega)) htext
  obtain ⟨entries', slabs', hpush⟩ : ∃ x y, pushText s.entries s.slabs ref text = (x, y) :=
    ⟨_, _, rfl⟩
  rw [hpush] at hentries
  have hlayout : layout (items ++ [(ref, text)]) = (entries', slabs') := by
    rw [layout_append, pushItem, ← h.entries_eq, ← h.slabs_eq, hpush]
  have hstore : ∀ fuel, store fuel s ref text =
      (reindex fuel { s with entries := entries', slabs := slabs' } ref).map fun t =>
        (ref, { t with count := t.count + 1, liveBytes := t.liveBytes + text.length }) := by
    intro fuel
    simp only [store, if_neg (Nat.not_le_of_lt htext), hpush]
  simp only [hstore]
  rw [← hrefe]
  obtain ⟨slot, mask, hyields, htable, hroom, hless, hcap⟩ | ⟨hfull, hdiverges⟩ :=
    reindex_yields (s := { s with entries := entries', slabs := slabs' }) hentries
      (by omega) h.table
  · refine .inl ⟨_, hyields.map _, ?_⟩
    have hnew : ∀ item ∈ items, item.1 ≠ e.ref := by
      intro item hitem heq
      have : item.1 ∈ s.entries.map (·.ref) := by
        rw [h.lays.refs]
        exact List.mem_map_of_mem hitem
      obtain ⟨e', he', hr⟩ := List.mem_map.mp this
      exact href e' he' (hr.trans (heq.trans hrefe))
    rw [hrefe]
    refine ⟨by rw [hlayout], by rw [hlayout], ?_, ?_, ?_, .inr ⟨htable, hroom, hcap⟩⟩
    · intro item hitem
      obtain hold | hitem := List.mem_append.mp hitem
      · exact h.short item hold
      · obtain rfl := List.mem_singleton.mp hitem
        exact htext
    · rw [List.map_append, List.nodup_append]
      refine ⟨h.distinct, List.nodup_singleton _, ?_⟩
      intro r hr r' hr'
      obtain ⟨item, hitem, rfl⟩ := List.mem_map.mp hr
      obtain rfl := List.mem_singleton.mp hr'
      exact hrefe ▸ hnew item hitem
    · rw [List.length_append, List.length_singleton]
      omega
  · exact .inr ⟨by omega, hdiverges.map _⟩

/-! ### The next free ref -/

theorem nextFree_mono {s : ElisionStore} {n m : Nat} {r : Ref} (hnm : n ≤ m)
    (h : s.nextFree n ref = some r) : s.nextFree m ref = some r := by
  induction n generalizing m ref with
  | zero => cases h
  | succ n ih =>
    obtain ⟨m, rfl⟩ : ∃ k, m = k + 1 := ⟨m - 1, by omega⟩
    rw [nextFree] at h ⊢
    split_ifs at h ⊢
    · exact ih (by omega) h
    · exact h

theorem nextFree_eq {s : ElisionStore} {d : Nat} (hfree : s.find (ref + BitVec.ofNat 64 d) = none) :
    ∃ r, s.nextFree (d + 1) ref = some r ∧ s.find r = none := by
  induction d generalizing ref with
  | zero =>
    rw [show ref + BitVec.ofNat 64 0 = ref by simp] at hfree
    exact ⟨ref, by rw [nextFree, hfree]; rfl, hfree⟩
  | succ d ih =>
    by_cases hone : (s.find ref).isSome = true
    · have hnext : ref + BitVec.ofNat 64 (d + 1) = ref + 1 + BitVec.ofNat 64 d := by
        rw [Nat.add_comm, BitVec.ofNat_add, BitVec.add_assoc]
        rfl
      rw [hnext] at hfree
      obtain ⟨r, hr, hnone⟩ := ih hfree
      exact ⟨r, by rw [nextFree, if_pos hone, hr], hnone⟩
    · exact ⟨ref, by rw [nextFree, if_neg hone], by simpa using hone⟩

/-- Among more offsets than refs one leads to a ref that is not in the list. -/
theorem exists_fresh_ref (refs : List Ref) (hfew : refs.length < 2 ^ 64) (ref : Ref) :
    ∃ d, ref + BitVec.ofNat 64 d ∉ refs := by
  by_contra hall
  simp only [not_exists, not_not] at hall
  have hinj : Set.InjOn (fun d => ref + BitVec.ofNat 64 d) (Finset.range (refs.length + 1)) := by
    intro a ha b hb heq
    simp only [Finset.coe_range, Set.mem_Iio] at ha hb
    have hval := congrArg BitVec.toNat (BitVec.add_right_inj ref |>.mp heq)
    rw [BitVec.toNat_ofNat, BitVec.toNat_ofNat, Nat.mod_eq_of_lt (by omega),
      Nat.mod_eq_of_lt (by omega)] at hval
    exact hval
  have hcard := Finset.card_le_card_of_injOn (s := Finset.range (refs.length + 1))
    (t := refs.toFinset) _ (fun d _ => by simpa using hall d) hinj
  rw [Finset.card_range] at hcard
  have := List.toFinset_card_le refs
  omega

namespace Stored

variable {items : List Item} {s : ElisionStore}

/-- The search for a free ref ends. -/
theorem nextFree_yields (h : Stored items s) (ref : Ref) :
    ∃ r, Yields (fun fuel => s.nextFree fuel ref) r ∧ ∀ e ∈ s.entries, e.ref ≠ r := by
  have hfew : (s.entries.map (·.ref)).length < 2 ^ 64 := by
    rw [List.length_map, h.length_eq]
    exact lt_of_le_of_lt h.few (by decide)
  obtain ⟨d, hd⟩ := exists_fresh_ref _ hfew ref
  have hfree : s.find (ref + BitVec.ofNat 64 d) = none := by
    obtain ⟨hnone, -⟩ | ⟨e, he, -, href⟩ := h.find_cases (ref + BitVec.ofNat 64 d)
    · exact hnone
    · exact absurd (List.mem_map.mpr ⟨e, he, href⟩) hd
  obtain ⟨r, hr, hnone⟩ := nextFree_eq hfree
  refine ⟨r, yields_of_mono (fun n m b hnm => nextFree_mono hnm) hr, ?_⟩
  obtain ⟨-, habsent⟩ | ⟨e, -, hsome, -⟩ := h.find_cases r
  · exact habsent
  · rw [hsome] at hnone
    cases hnone

/-- Changes to the counters. -/
theorem of_counters (h : Stored items s) (count dedupHits liveBytes : Nat) :
    Stored items { s with count, dedupHits, liveBytes } :=
  ⟨h.entries_eq, h.slabs_eq, h.short, h.distinct, h.few, h.table⟩

/-- Every `put` ends in a store with at most one item more, or there is no room to grow. -/
theorem put_yields (hash : Bytes → Ref) (h : Stored items s) (text : Bytes) :
    (∃ ref s' items', Yields (fun fuel => put hash fuel s text) (ref, s') ∧ Stored items' s' ∧
        items'.length ≤ items.length + 1) ∨
      (items.length = maxEntries ∧ Diverges fun fuel => put hash fuel s text) := by
  have stores : ∀ ref, (∀ e ∈ s.entries, e.ref ≠ ref) →
      (∃ r s' items', Yields (fun fuel => store fuel s ref text) (r, s') ∧ Stored items' s' ∧
        items'.length ≤ items.length + 1) ∨
      (items.length = maxEntries ∧ Diverges fun fuel => store fuel s ref text) := by
    intro ref href
    by_cases htext : text.length < u32Modulus
    · obtain ⟨s', hyields, hs'⟩ | hfull := store_yields h href htext
      · exact .inl ⟨ref, s', _, hyields, hs', by simp⟩
      · exact .inr hfull
    · simp only [store, if_pos (Nat.le_of_not_lt htext)]
      exact .inl ⟨0, s, items, yields_some _, h, Nat.le_succ _⟩
  obtain ⟨hnone, habsent⟩ | ⟨e, he, hsome, href⟩ := h.find_cases (hash text)
  · simp only [put, hnone]
    exact stores (hash text) habsent
  · simp only [put, hsome]
    split_ifs with hsame
    · exact .inl ⟨e.ref, _, items, yields_some _, h.of_counters _ _ _, Nat.le_succ _⟩
    · -- another text has this ref
      obtain ⟨r, hr, habsent⟩ := h.nextFree_yields (hash text)
      obtain ⟨r', s', items', hyields, hs', hlen⟩ | ⟨hfull, hdiverges⟩ := stores r habsent
      · exact .inl ⟨r', s', items', hr.bind hyields, hs', hlen⟩
      · exact .inr ⟨hfull, hr.bind_diverges hdiverges⟩

end Stored

/-- Every store that puts produce holds items. -/
theorem Reachable.stored {hash : Bytes → Ref} {s : ElisionStore} (h : Reachable hash s) :
    ∃ items, Stored items s := by
  induction h with
  | fresh => exact ⟨[], stored_fresh⟩
  | @put s s' fuel text ref _ hput ih =>
    obtain ⟨items, hs⟩ := ih
    obtain ⟨r, t, items', hyields, ht, -⟩ | ⟨-, hdiverges⟩ := hs.put_yields hash text
    · obtain ⟨rfl, rfl⟩ := Prod.mk.inj (hyields.only fuel _ hput)
      exact ⟨items', ht⟩
    · exact absurd ((hdiverges fuel).symm.trans hput) (by simp)

/-- Puts end as long as the table can grow. -/
theorem Stored.putAll_yields (hash : Bytes → Ref) {items : List Item} {s : ElisionStore}
    (h : Stored items s) (texts : List Bytes) (hroom : items.length + texts.length ≤ maxEntries) :
    ∃ t, Yields (fun fuel => putAll hash fuel texts s) t := by
  induction texts generalizing items s with
  | nil => exact ⟨s, yields_some s⟩
  | cons text texts ih =>
    rw [List.length_cons] at hroom
    obtain ⟨r, s', items', hyields, hs', hlen⟩ | ⟨hfull, -⟩ := h.put_yields hash text
    · obtain ⟨t, ht⟩ := ih hs' (by omega)
      refine ⟨t, ?_⟩
      exact hyields.bind (b := t) (g := fun x fuel => putAll hash fuel texts x.2) ht
    · omega

end KimixNative.Soul.ElisionStore
