import KimixNative.Soul.ElisionPut

/-!
# Saving and loading an elision store

`load` computes the layout of the items from the blob, so a loaded store has the entries
and slabs of the saved one. Its table is another matter: `put` keeps half of the cells
free, `load` makes 16 cells for any number of entries. With 16 entries a lookup of an
unknown ref returns whatever is in cell 0, and with 17 the loop of `rehash` never ends.
-/

namespace KimixNative.Soul.ElisionStore

/-! ### The blob -/

/-- One item of the blob. -/
def encodeItem (item : Item) : Bytes :=
  leBytes 8 item.1.toNat ++ leBytes 4 item.2.length ++ item.2

@[simp] theorem length_encodeItem (item : Item) :
    (encodeItem item).length = 12 + item.2.length := by
  simp only [encodeItem, List.length_append, length_leBytes]

theorem Stored.written_eq {items : List Item} {s : ElisionStore} (h : Stored items s) :
    s.written = kMagic ++ leBytes 4 items.length ++ leBytes 4 0 ++ items.flatMap encodeItem := by
  have hitems : s.entries.flatMap (entryBytes s.slabs) = items.flatMap encodeItem := by
    rw [← h.lays.items_eq, List.flatMap_map]
    refine List.flatMap_congr ?_
    intro e he
    rw [entryBytes, encodeItem, (h.lays.inside e he).length_bytes]
  rw [written, hitems, h.length_eq]

/-- The decoding loop rebuilds the layout. -/
theorem loadEntries_encode (items : List Item) (rest : Bytes) (acc : List Entry × List Bytes)
    (hshort : ∀ item ∈ items, item.2.length < u32Modulus) :
    loadEntries items.length (items.flatMap encodeItem ++ rest) acc =
      some (items.foldl pushItem acc) := by
  induction items generalizing acc with
  | nil => rfl
  | cons item items ih =>
    obtain ⟨entries, slabs⟩ := acc
    have href : leNat (leBytes 8 item.1.toNat) = item.1.toNat :=
      leNat_leBytes_of_lt item.1.isLt
    have hlength : leNat (leBytes 4 item.2.length) = item.2.length :=
      leNat_leBytes_of_lt (hshort item List.mem_cons_self)
    obtain ⟨p, hp⟩ : ∃ p, items.flatMap encodeItem ++ rest = p := ⟨_, rfl⟩
    have hsplit : (item :: items).flatMap encodeItem ++ rest =
        leBytes 8 item.1.toNat ++ (leBytes 4 item.2.length ++ (item.2 ++ p)) := by
      simp [encodeItem, ← hp]
    have hdrop : List.drop 12 (leBytes 8 item.1.toNat ++ (leBytes 4 item.2.length ++
        (item.2 ++ p))) = item.2 ++ p := by
      rw [show 12 = 8 + 4 from rfl, ← List.drop_drop, List.drop_left' (length_leBytes 8 _),
        List.drop_left' (length_leBytes 4 _)]
    rw [hsplit, List.length_cons, loadEntries]
    simp only [List.take_left' (length_leBytes 8 _), List.drop_left' (length_leBytes 8 _),
      List.take_left' (length_leBytes 4 _), hdrop, href, hlength, BitVec.ofNat_toNat,
      BitVec.setWidth_eq, List.take_left, List.drop_left]
    rw [if_neg (by simp only [List.length_append, length_leBytes]; omega),
      if_neg (by rw [List.length_append]; omega), ← hp,
      ih _ fun i hi => hshort i (List.mem_cons_of_mem _ hi)]
    rfl

/-- Reading what `save` wrote. -/
theorem Stored.decode_written {items : List Item} {s : ElisionStore} (h : Stored items s)
    (rest : Bytes) : decode (s.written ++ rest) = some (s.entries, s.slabs) := by
  have hmagic : kMagic.length = 8 := rfl
  have hcount : leNat (leBytes 4 items.length) = items.length :=
    leNat_leBytes_of_lt (lt_of_le_of_lt h.few (by decide))
  have hsplit : s.written ++ rest = kMagic ++ (leBytes 4 items.length ++ (leBytes 4 0 ++
      (items.flatMap encodeItem ++ rest))) := by
    rw [h.written_eq]
    simp
  have hdrop : (s.written ++ rest).drop kHeaderBytes = items.flatMap encodeItem ++ rest := by
    rw [hsplit, show kHeaderBytes = 8 + 4 + 4 from rfl, ← List.drop_drop, ← List.drop_drop,
      List.drop_left' hmagic, List.drop_left' (length_leBytes 4 _),
      List.drop_left' (length_leBytes 4 _)]
  have hlong : ¬ (s.written ++ rest).length < kHeaderBytes := by
    rw [hsplit]
    simp [kHeaderBytes, hmagic]
    omega
  rw [decode, if_neg hlong, hdrop, hsplit, List.take_left' hmagic, List.drop_left' hmagic,
    List.take_left' (length_leBytes 4 _), hcount, if_neg (by simp),
    loadEntries_encode items rest _ h.short, h.entries_eq, h.slabs_eq]
  rfl

/-- The size `save` computes, against what it writes. -/
theorem saveSize_foldl (entries : List Entry) (n : Nat) :
    (entries.foldl (fun total e => total + (12 + e.length) % u32Modulus) n ≤
        n + (entries.map fun e => 12 + e.length).sum) ∧
      (entries.foldl (fun total e => total + (12 + e.length) % u32Modulus) n =
          n + (entries.map fun e => 12 + e.length).sum ↔
        ∀ e ∈ entries, 12 + e.length < u32Modulus) := by
  induction entries generalizing n with
  | nil => simp
  | cons e entries ih =>
    obtain ⟨hle, hiff⟩ := ih (n + (12 + e.length) % u32Modulus)
    have hmod : (12 + e.length) % u32Modulus ≤ 12 + e.length := Nat.mod_le _ _
    simp only [List.foldl_cons, List.map_cons, List.sum_cons, List.forall_mem_cons]
    refine ⟨by omega, ?_⟩
    by_cases hfit : 12 + e.length < u32Modulus
    · rw [Nat.mod_eq_of_lt hfit] at hiff ⊢
      rw [Nat.add_assoc n (12 + e.length)] at hiff
      rw [hiff]
      exact ⟨fun h => ⟨hfit, h⟩, fun h => h.2⟩
    · have hlt : (12 + e.length) % u32Modulus < u32Modulus := Nat.mod_lt _ (by decide)
      refine ⟨fun heq => ?_, fun h => absurd h.1 hfit⟩
      omega

/-- `save` stays inside its blob exactly when no 32-bit sum wraps. -/
theorem Stored.save_eq {items : List Item} {s : ElisionStore} (h : Stored items s) :
    ((∀ e ∈ s.entries, 12 + e.length < u32Modulus) → s.save = some s.written) ∧
      (¬ (∀ e ∈ s.entries, 12 + e.length < u32Modulus) → s.save = none) := by
  have hlen : s.written.length = kHeaderBytes + (s.entries.map fun e => 12 + e.length).sum := by
    have hsum : s.entries.map (fun e => 12 + e.length) =
        s.entries.map fun e => (entryBytes s.slabs e).length := by
      refine List.map_congr_left ?_
      intro e he
      simp only [entryBytes, List.length_append, length_leBytes, (h.lays.inside e he).length_bytes]
    rw [hsum, written, List.length_append, List.length_flatMap]
    rfl
  obtain ⟨hle, hiff⟩ := saveSize_foldl s.entries kHeaderBytes
  rw [← hlen] at hle hiff
  refine ⟨fun hfit => ?_, fun hwrap => ?_⟩
  · have heq : s.saveSize = s.written.length := hiff.mpr hfit
    rw [save, if_neg (by omega), heq]
    simp
  · have hne : s.saveSize ≠ s.written.length := fun heq => hwrap (hiff.mp heq)
    have hle' : s.saveSize ≤ s.written.length := hle
    rw [save, if_pos (by omega)]

/-! ### The round trip -/

/-- The store can be saved, loading the blob into an empty store ends with true, the loaded
store answers every lookup as the saved one does, and further puts end (a run of them as
long as the table can grow). -/
def RoundTrips (hash : Bytes → Ref) (s : ElisionStore) : Prop :=
  ∃ blob t, s.save = some blob ∧ Yields (fun fuel => load hash fuel {} blob) (true, t) ∧
    (∀ r, t.get r = s.get r) ∧
    (∀ text, ∃ answer, Yields (fun fuel => put hash fuel t text) answer) ∧
    ∀ texts : List Bytes, t.entries.length + texts.length ≤ maxEntries →
      ∃ u, Yields (fun fuel => putAll hash fuel texts t) u

section

variable {hash : Bytes → Ref} {items : List Item} {s : ElisionStore}

/-- The store `load` rehashes. -/
def unindexed (s : ElisionStore) : ElisionStore :=
  { entries := s.entries, slabs := s.slabs, slot := [], slotMask := 0, count := s.entries.length,
    liveBytes := s.entries.foldl (fun total e => total + e.length) 0 }

theorem Stored.load_eq (h : Stored items s) (fuel : Nat) :
    load hash fuel {} s.written = (rehash fuel s.unindexed 16).map fun t => (true, t) := by
  have hdecode := h.decode_written []
  rw [List.append_nil] at hdecode
  rw [load, hdecode]
  rfl

/-- Two entries of one ref are one entry. -/
theorem Stored.entry_unique (h : Stored items s) {e e' : Entry} (he : e ∈ s.entries)
    (he' : e' ∈ s.entries) (href : e.ref = e'.ref) : e = e' := by
  have hnodup : (s.entries.map (·.ref)).Nodup := h.lays.refs ▸ h.distinct
  exact List.inj_on_of_nodup_map hnodup he he' href

/-- Stores of the same items answer alike. -/
theorem Stored.get_eq {t : ElisionStore} (h : Stored items s) (ht : Stored items t) (ref : Ref) :
    t.get ref = s.get ref := by
  have hentries : t.entries = s.entries := by rw [ht.entries_eq, h.entries_eq]
  have hslabs : t.slabs = s.slabs := by rw [ht.slabs_eq, h.slabs_eq]
  have hfind : t.find ref = s.find ref := by
    obtain ⟨hnone, habsent⟩ | ⟨e, he, hsome, href⟩ := h.find_cases ref
    · obtain ⟨hnone', -⟩ | ⟨e', he', -, href'⟩ := ht.find_cases ref
      · rw [hnone, hnone']
      · exact absurd href' (habsent e' (hentries ▸ he'))
    · obtain ⟨-, habsent'⟩ | ⟨e', he', hsome', href'⟩ := ht.find_cases ref
      · exact absurd href (habsent' e (hentries ▸ he))
      · rw [hsome, hsome', h.entry_unique (hentries ▸ he') he (href'.trans href.symm)]
  rw [get, get, hfind, hslabs]

theorem Stored.roundTrips (h : Stored items s) (hfew : s.entries.length ≤ 15)
    (hfit : ∀ e ∈ s.entries, e.length + 12 < u32Modulus) : RoundTrips hash s := by
  obtain ⟨slot, hyields, hlength, hindexed⟩ := rehash_yields s.unindexed (b := 4)
    (show s.entries.length ≤ 2 ^ 4 by omega)
    (show s.entries.length < u32Modulus from lt_of_le_of_lt hfew (by decide))
  have ht : Stored items { s.unindexed with slot, slotMask := 2 ^ 4 - 1 } :=
    ⟨h.entries_eq, h.slabs_eq, h.short, h.distinct, h.few,
      .inr ⟨hindexed, lt_of_le_of_lt hfew (by rw [hlength]; decide), 4, le_rfl, by decide,
        hlength⟩⟩
  have hitems : items.length ≤ 15 := h.length_eq ▸ hfew
  have hmax : maxEntries = 2 ^ 30 := rfl
  refine ⟨s.written, _, h.save_eq.1 fun e he => ?_, ?_, h.get_eq ht, ?_, ?_⟩
  · have := hfit e he
    omega
  · simp only [h.load_eq]
    exact hyields.map fun t => (true, t)
  · intro text
    obtain ⟨r, t', -, hput, -⟩ | ⟨hfull, -⟩ := ht.put_yields hash text
    · exact ⟨_, hput⟩
    · omega
  · intro texts hroom
    refine ht.putAll_yields hash texts ?_
    rwa [ht.length_eq] at hroom

/-- Sixteen entries fill the loaded table, and a ref nobody put is found in it. -/
theorem Stored.not_roundTrips (h : Stored items s) (hmany : 15 < s.entries.length) :
    ¬ RoundTrips hash s := by
  rintro ⟨blob, t, hsave, hload, hget, -⟩
  have hblob : blob = s.written := by
    by_cases hfit : ∀ e ∈ s.entries, 12 + e.length < u32Modulus
    · rw [h.save_eq.1 hfit] at hsave
      exact (Option.some.inj hsave).symm
    · rw [h.save_eq.2 hfit] at hsave
      cases hsave
  subst hblob
  simp only [h.load_eq] at hload
  have hwidth : s.unindexed.entries.length < u32Modulus := by
    show s.entries.length < u32Modulus
    rw [h.length_eq]
    exact lt_of_le_of_lt h.few (by decide)
  by_cases hover : 16 < s.entries.length
  · exact hload.not_diverges ((rehash_diverges s.unindexed (b := 4) hover hwidth).map _)
  · have hfull : s.entries.length = 16 := by omega
    obtain ⟨slot, hyields, hlength, hindexed⟩ := rehash_yields s.unindexed (b := 4)
      (show s.entries.length ≤ 2 ^ 4 by omega) hwidth
    obtain ⟨n, hn⟩ := hload.ends
    have hthis := hn n le_rfl
    obtain ⟨t', ht', heq⟩ := Option.map_eq_some_iff.mp hthis
    obtain rfl := hyields.only n t' ht'
    obtain rfl := (Prod.mk.inj heq).2
    obtain ⟨d, hd⟩ := exists_fresh_ref (s.entries.map (·.ref))
      (by rw [List.length_map, hfull]; decide) 0
    have hnone : s.get (0 + BitVec.ofNat 64 d) = none := by
      obtain ⟨hfind, -⟩ | ⟨e, he, -, href⟩ := h.find_cases (0 + BitVec.ofNat 64 d)
      · rw [get, hfind]
        rfl
      · exact absurd (List.mem_map.mpr ⟨e, he, href⟩) hd
    have hsome := find_of_full (s := { s.unindexed with slot, slotMask := 2 ^ 4 - 1 }) hindexed
      (by rw [hlength]; exact hfull) (0 + BitVec.ofNat 64 d)
    have hsame := hget (0 + BitVec.ofNat 64 d)
    rw [hnone, get, Option.map_eq_none_iff] at hsame
    rw [hsame] at hsome
    cases hsome

end

/-- A store that puts have produced survives saving and loading exactly when it has at most
15 entries and none so long that 12 more bytes do not fit 32 bits. -/
theorem roundTrips_iff (hash : Bytes → Ref) {s : ElisionStore} (hs : Reachable hash s) :
    RoundTrips hash s ↔
      s.entries.length ≤ 15 ∧ ∀ e ∈ s.entries, e.length + 12 < u32Modulus := by
  obtain ⟨items, h⟩ := hs.stored
  refine ⟨fun hround => ?_, fun ⟨hfew, hfit⟩ => h.roundTrips hfew hfit⟩
  refine ⟨?_, ?_⟩
  · by_contra hmany
    exact h.not_roundTrips (Nat.lt_of_not_le hmany) hround
  · intro e he
    by_contra hwrap
    obtain ⟨blob, t, hsave, -⟩ := hround
    rw [h.save_eq.2 fun hall => hwrap (Nat.add_comm 12 e.length ▸ hall e he)] at hsave
    cases hsave

/-- A hash that is easy to follow: the text as a number. -/
def numberHash (text : Bytes) : Ref := BitVec.ofNat 64 (leNat text)

/-- The store after putting the numbers below `n`. -/
def numberStore (n : Nat) : ElisionStore :=
  (putAll numberHash 32 ((List.range n).map (leBytes 1)) {}).getD {}

theorem reachable_putAll {hash : Bytes → Ref} {fuel : Nat} {texts : List Bytes}
    {s t : ElisionStore} (hs : Reachable hash s) (h : putAll hash fuel texts s = some t) :
    Reachable hash t := by
  induction texts generalizing s with
  | nil => exact Option.some.inj h ▸ hs
  | cons text texts ih =>
    obtain ⟨⟨r, s'⟩, hput, hrest⟩ := Option.bind_eq_some_iff.mp h
    exact ih (hs.put hput) hrest

theorem reachable_numberStore (n : Nat) : Reachable numberHash (numberStore n) := by
  unfold numberStore
  cases h : putAll numberHash 32 ((List.range n).map (leBytes 1)) {} with
  | none => exact .fresh
  | some t => exact reachable_putAll .fresh h

theorem roundTrips_numberStore :
    (numberStore 15).entries.length = 15 ∧ RoundTrips numberHash (numberStore 15) := by
  refine ⟨by decide, ?_⟩
  exact (roundTrips_iff numberHash (reachable_numberStore 15)).mpr (by decide)

/-- Sixteen puts, saved and loaded: ref 16 was never put and reads as the text of cell 0. -/
theorem not_roundTrips_numberStore :
    Reachable numberHash (numberStore 16) ∧ ¬ RoundTrips numberHash (numberStore 16) ∧
      (numberStore 16).get 16 = none ∧
      ((numberStore 16).save.bind fun blob => (load numberHash 32 {} blob).map
        fun (answer, t) => (answer, t.get 16)) = some (true, some [0]) := by
  refine ⟨reachable_numberStore 16, ?_, by decide, by decide +kernel⟩
  obtain ⟨items, h⟩ := (reachable_numberStore 16).stored
  exact h.not_roundTrips (by decide)

end KimixNative.Soul.ElisionStore
