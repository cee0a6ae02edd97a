import KimixNative.Soul.ElisionRoundTrip

/-!
# Refs and the texts they stand for

A `PutLog` is the history of a run of puts: each text with the ref that was returned. Every
text in it stays addressable under its ref, whatever collides with it later.

Before it stores a text, `put` looks at one entry only, the one under the hash of the text.
The text of that entry never changes, so a text whose hash was taken by another when it was
first put is stored again by every further put.
-/

namespace KimixNative.Soul.ElisionStore

/-- The texts put into a fresh store with the refs returned, and the store they left. -/
inductive PutLog (hash : Bytes → Ref) : List (Bytes × Ref) → ElisionStore → Prop
  | fresh : PutLog hash [] {}
  | put {log : List (Bytes × Ref)} {s s' : ElisionStore} {fuel : Nat} {text : Bytes} {ref : Ref} :
      PutLog hash log s → text.length < u32Modulus → put hash fuel s text = some (ref, s') →
      PutLog hash (log ++ [(text, ref)]) s'

variable {ref : Ref} {text : Bytes}

namespace Stored

variable {hash : Bytes → Ref} {items : List Item} {s : ElisionStore}

theorem mem_items (h : Stored items s) :
    (ref, text) ∈ items ↔ ∃ e ∈ s.entries, e.ref = ref ∧ bytes s.slabs e = text := by
  rw [← h.lays.items_eq, List.mem_map]
  simp only [Prod.mk.injEq]

theorem mem_refs (h : Stored items s) :
    ref ∈ items.map Prod.fst ↔ ∃ e ∈ s.entries, e.ref = ref := by
  rw [← h.lays.refs, List.mem_map]

/-- `get` returns the text of the item with the ref. -/
theorem get_eq_some_iff (h : Stored items s) : s.get ref = some text ↔ (ref, text) ∈ items := by
  rw [h.mem_items, get]
  obtain ⟨hnone, habsent⟩ | ⟨e, he, hsome, href⟩ := h.find_cases ref
  · rw [hnone]
    refine iff_of_false (by simp) ?_
    rintro ⟨e, he, href, -⟩
    exact habsent e he href
  · rw [hsome, Option.map_some, Option.some_inj]
    constructor
    · intro hbytes
      exact ⟨e, he, href, hbytes⟩
    · rintro ⟨e', he', href', hbytes⟩
      rw [h.entry_unique he he' (href.trans href'.symm), hbytes]

/-- The comparison with the entry found under the hash. -/
theorem same_text_iff (h : Stored items s) {e : Entry} (he : e ∈ s.entries) :
    (e.length = text.length ∧ (text.isEmpty ∨ bytes s.slabs e = text)) ↔
      bytes s.slabs e = text := by
  have hlen := (h.lays.inside e he).length_bytes
  constructor
  · rintro ⟨hsame, hempty | hbytes⟩
    · rw [List.isEmpty_iff] at hempty
      subst hempty
      exact List.eq_nil_of_length_eq_zero (hlen.trans hsame)
    · exact hbytes
  · rintro rfl
    exact ⟨hlen.symm, .inr rfl⟩

/-- What `put` can do: find the text under its hash, or store it under a free ref. -/
theorem put_cases (h : Stored items s) {fuel : Nat} {s' : ElisionStore}
    (short : text.length < u32Modulus) (hput : put hash fuel s text = some (ref, s')) :
    (ref = hash text ∧ (ref, text) ∈ items ∧ s' = { s with dedupHits := s.dedupHits + 1 }) ∨
      ((hash text, text) ∉ items ∧ Stored (items ++ [(ref, text)]) s' ∧
        (ref = hash text ∨ hash text ∈ items.map Prod.fst)) := by
  have stores : ∀ r, (∀ e ∈ s.entries, e.ref ≠ r) → store fuel s r text = some (ref, s') →
      ref = r ∧ Stored (items ++ [(ref, text)]) s' := by
    intro r habsent hstore
    obtain ⟨t, hyields, ht⟩ | ⟨-, hdiverges⟩ := store_yields h habsent short
    · obtain ⟨rfl, rfl⟩ := Prod.mk.inj (hyields.only fuel _ hstore)
      exact ⟨rfl, ht⟩
    · exact absurd ((hdiverges fuel).symm.trans hstore) (by simp)
  obtain ⟨hnone, habsent⟩ | ⟨e, he, hsome, href⟩ := h.find_cases (hash text)
  · rw [put, hnone] at hput
    obtain ⟨rfl, hstored⟩ := stores (hash text) habsent hput
    refine .inr ⟨?_, hstored, .inl rfl⟩
    intro hmem
    obtain ⟨e, he, href, -⟩ := h.mem_items.mp hmem
    exact habsent e he href
  · rw [put, hsome] at hput
    simp only [h.same_text_iff he] at hput
    split_ifs at hput with hbytes
    · obtain ⟨rfl, rfl⟩ := Prod.mk.inj (Option.some.inj hput)
      exact .inl ⟨href, h.mem_items.mpr ⟨e, he, rfl, hbytes⟩, rfl⟩
    · -- the hash is taken by another text
      obtain ⟨r, hr, hstore⟩ := Option.bind_eq_some_iff.mp hput
      obtain ⟨r', hyields, habsent⟩ := h.nextFree_yields (hash text)
      obtain rfl := hyields.only fuel r hr
      obtain ⟨rfl, hstored⟩ := stores r habsent hstore
      refine .inr ⟨?_, hstored, .inr (h.mem_refs.mpr ⟨e, he, href⟩)⟩
      intro hmem
      obtain ⟨e', he', href', hbytes'⟩ := h.mem_items.mp hmem
      exact hbytes (h.entry_unique he he' (href.trans href'.symm) ▸ hbytes')

end Stored

/-! ### Histories -/

/-- What the items of a store know of its history. -/
structure Remembers (hash : Bytes → Ref) (log : List (Bytes × Ref)) (items : List Item) :
    Prop where
  logged : ∀ p ∈ log, (p.2, p.1) ∈ items
  returned : ∀ item ∈ items, (item.2, item.1) ∈ log
  /-- The hash of every text is taken. -/
  taken : ∀ item ∈ items, hash item.2 ∈ items.map Prod.fst
  /-- A text that is stored under its hash is stored nowhere else. -/
  once : ∀ item ∈ items, (hash item.2, item.2) ∈ items → item.1 = hash item.2

variable {log : List (Bytes × Ref)}

theorem Remembers.append {hash : Bytes → Ref} {items : List Item} (h : Remembers hash log items)
    (fresh : ref ∉ items.map Prod.fst) (new : (hash text, text) ∉ items)
    (home : ref = hash text ∨ hash text ∈ items.map Prod.fst) :
    Remembers hash (log ++ [(text, ref)]) (items ++ [(ref, text)]) where
  logged := by
    intro p hp
    obtain hold | hnew := List.mem_append.mp hp
    · exact List.mem_append_left _ (h.logged p hold)
    · obtain rfl := List.mem_singleton.mp hnew
      exact List.mem_append_right _ List.mem_cons_self
  returned := by
    intro item hitem
    obtain hold | hnew := List.mem_append.mp hitem
    · exact List.mem_append_left _ (h.returned item hold)
    · obtain rfl := List.mem_singleton.mp hnew
      exact List.mem_append_right _ List.mem_cons_self
  taken := by
    intro item hitem
    rw [List.map_append, List.mem_append]
    obtain hold | hnew := List.mem_append.mp hitem
    · exact .inl (h.taken item hold)
    · obtain rfl := List.mem_singleton.mp hnew
      refine home.symm.imp_right ?_
      rintro rfl
      exact List.mem_cons_self
  once := by
    intro item hitem hhash
    obtain hold | hnew := List.mem_append.mp hitem
    · obtain hhash | hhash := List.mem_append.mp hhash
      · exact h.once item hold hhash
      · -- the hash of an old text was not free
        obtain ⟨href, -⟩ := Prod.mk.inj (List.mem_singleton.mp hhash)
        exact absurd (href ▸ h.taken item hold) fresh
    · obtain rfl := List.mem_singleton.mp hnew
      obtain hhash | hhash := List.mem_append.mp hhash
      · exact absurd hhash new
      · exact (Prod.mk.inj (List.mem_singleton.mp hhash)).1.symm

theorem PutLog.stored {hash : Bytes → Ref} {s : ElisionStore} (h : PutLog hash log s) :
    ∃ items, Stored items s ∧ Remembers hash log items := by
  induction h with
  | fresh => exact ⟨[], stored_fresh, by constructor <;> simp⟩
  | @put log s s' fuel text ref _ short hput ih =>
    obtain ⟨items, hs, hlog⟩ := ih
    obtain ⟨href, hmem, rfl⟩ | ⟨hnew, hs', hhome⟩ := hs.put_cases short hput
    · refine ⟨items, hs.of_counters _ _ _, ⟨?_, ?_, hlog.taken, hlog.once⟩⟩
      · intro p hp
        obtain hold | hlast := List.mem_append.mp hp
        · exact hlog.logged p hold
        · obtain rfl := List.mem_singleton.mp hlast
          exact hmem
      · intro item hitem
        exact List.mem_append_left _ (hlog.returned item hitem)
    · refine ⟨items ++ [(ref, text)], hs', hlog.append ?_ hnew hhome⟩
      have hdistinct := hs'.distinct
      rw [List.map_append, List.nodup_append] at hdistinct
      intro hmem
      exact hdistinct.2.2 ref hmem ref List.mem_cons_self rfl

/-! ### Addressing -/

/-- Refs lead to the texts they were returned for, and to nothing else; puts end as long as
there are fewer than 2^30 entries. -/
structure Addressed (hash : Bytes → Ref) (log : List (Bytes × Ref)) (s : ElisionStore) :
    Prop where
  resolves : ∀ text ref, (text, ref) ∈ log → s.get ref = some text
  distinct : (s.entries.map (·.ref)).Nodup
  unknown : ∀ ref, (∀ text, (text, ref) ∉ log) → s.get ref = none
  ends : s.entries.length < maxEntries → ∀ text, ∃ answer,
    Yields (fun fuel => put hash fuel s text) answer

theorem addressed_putLog {hash : Bytes → Ref} {log : List (Bytes × Ref)} {s : ElisionStore}
    (h : PutLog hash log s) : Addressed hash log s := by
  obtain ⟨items, hs, hlog⟩ := h.stored
  refine ⟨?_, ?_, ?_, ?_⟩
  · intro text ref hmem
    exact hs.get_eq_some_iff.mpr (hlog.logged _ hmem)
  · rw [hs.lays.refs]
    exact hs.distinct
  · intro ref hnever
    cases hget : s.get ref with
    | none => rfl
    | some text => exact absurd (hlog.returned _ (hs.get_eq_some_iff.mp hget)) (hnever text)
  · intro hroom text
    obtain ⟨r, s', -, hyields, -⟩ | ⟨hfull, -⟩ := hs.put_yields hash text
    · exact ⟨_, hyields⟩
    · rw [hs.length_eq] at hroom
      omega

/-- A hash under which everything collides. -/
def constantHash (_ : Bytes) : Ref := 7

/-- The store after putting the texts. -/
def collidedStore (texts : List Bytes) : ElisionStore := (putAll constantHash 32 texts {}).getD {}

theorem putLog_collidedStore : PutLog constantHash [([1], 7), ([2], 8), ([2], 9), ([1], 7)]
    (collidedStore [[1], [2], [2], [1]]) := by
  have hfirst : put constantHash 32 {} [1] = some (7, collidedStore [[1]]) := by decide
  have hsecond : put constantHash 32 (collidedStore [[1]]) [2] =
      some (8, collidedStore [[1], [2]]) := by decide
  have hthird : put constantHash 32 (collidedStore [[1], [2]]) [2] =
      some (9, collidedStore [[1], [2], [2]]) := by decide
  have hfourth : put constantHash 32 (collidedStore [[1], [2], [2]]) [1] =
      some (7, collidedStore [[1], [2], [2], [1]]) := by decide
  exact (((PutLog.fresh.put (by decide) hfirst).put (by decide) hsecond).put (by decide)
    hthird).put (by decide) hfourth

/-- Colliding texts are addressed apart. -/
theorem addressed_collidedStore : PutLog constantHash [([1], 7), ([2], 8), ([2], 9), ([1], 7)]
      (collidedStore [[1], [2], [2], [1]]) ∧
    Addressed constantHash [([1], 7), ([2], 8), ([2], 9), ([1], 7)]
      (collidedStore [[1], [2], [2], [1]]) :=
  ⟨putLog_collidedStore, addressed_putLog putLog_collidedStore⟩

/-! ### Deduplication -/

/-- Whatever entry holds the text, a put returns its ref and only counts the hit; and all
puts of the text so far returned one ref. -/
structure Dedups (hash : Bytes → Ref) (log : List (Bytes × Ref)) (s : ElisionStore)
    (text : Bytes) : Prop where
  reuses : ∀ e ∈ s.entries, bytes s.slabs e = text →
    Yields (fun fuel => put hash fuel s text) (e.ref, { s with dedupHits := s.dedupHits + 1 })
  oneRef : ∀ ref ref', (text, ref) ∈ log → (text, ref') ∈ log → ref = ref'

/-- A stored text is found again exactly if the entry under its hash holds it. -/
theorem dedups_iff {hash : Bytes → Ref} {log : List (Bytes × Ref)} {s : ElisionStore}
    (h : PutLog hash log s) (text : Bytes) :
    Dedups hash log s text ↔
      ((∃ e ∈ s.entries, bytes s.slabs e = text) → s.get (hash text) = some text) := by
  obtain ⟨items, hs, hlog⟩ := h.stored
  constructor
  · rintro ⟨hreuses, -⟩ ⟨e, he, hbytes⟩
    have short : text.length < u32Modulus :=
      hs.short (e.ref, text) (hs.mem_items.mpr ⟨e, he, rfl, hbytes⟩)
    obtain ⟨n, hn⟩ := (hreuses e he hbytes).ends
    obtain ⟨href, hmem, -⟩ | ⟨-, hmore, -⟩ := hs.put_cases short (hn n le_rfl)
    · exact hs.get_eq_some_iff.mpr (href ▸ hmem)
    · -- a put that stores has one entry more
      have hlen := hmore.length_eq
      rw [List.length_append, List.length_singleton, ← hs.length_eq] at hlen
      simp at hlen
  · intro hcond
    have hhome : ∀ ref, (ref, text) ∈ items → (hash text, text) ∈ items ∧ ref = hash text := by
      intro ref hmem
      obtain ⟨e, he, -, hbytes⟩ := hs.mem_items.mp hmem
      have hstored := hs.get_eq_some_iff.mp (hcond ⟨e, he, hbytes⟩)
      exact ⟨hstored, hlog.once _ hmem hstored⟩
    refine ⟨?_, ?_⟩
    · intro e he hbytes
      have href := (hhome e.ref (hs.mem_items.mpr ⟨e, he, rfl, hbytes⟩)).2
      have hfind : s.find (hash text) = some e := by
        obtain ⟨-, habsent⟩ | ⟨e', he', hsome, href'⟩ := hs.find_cases (hash text)
        · exact absurd href (habsent e he)
        · rw [hsome, hs.entry_unique he' he (href'.trans href.symm)]
      have hput : ∀ fuel, put hash fuel s text =
          some (e.ref, { s with dedupHits := s.dedupHits + 1 }) := by
        intro fuel
        rw [put, hfind]
        exact if_pos ((hs.same_text_iff he).mpr hbytes)
      simp only [hput]
      exact yields_some _
    · intro ref ref' hmem hmem'
      rw [(hhome ref (hlog.logged _ hmem)).2, (hhome ref' (hlog.logged _ hmem')).2]

/-- The first text put is found again. -/
theorem dedups_collidedStore : Dedups constantHash [([1], 7), ([2], 8), ([2], 9), ([1], 7)]
    (collidedStore [[1], [2], [2], [1]]) [1] :=
  (dedups_iff putLog_collidedStore [1]).mpr fun _ => by decide

/-- The second one is not: it was returned two refs. -/
theorem not_dedups_collidedStore :
    PutLog constantHash [([1], 7), ([2], 8), ([2], 9), ([1], 7)]
      (collidedStore [[1], [2], [2], [1]]) ∧
    ¬Dedups constantHash [([1], 7), ([2], 8), ([2], 9), ([1], 7)]
      (collidedStore [[1], [2], [2], [1]]) [2] := by
  refine ⟨putLog_collidedStore, ?_⟩
  intro h
  have hsame := h.oneRef 8 9 (by simp) (by simp)
  revert hsame
  decide

end KimixNative.Soul.ElisionStore
