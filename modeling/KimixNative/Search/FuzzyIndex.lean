import KimixNative.Search.Fuzzy
import KimixNative.Core.JsonNumbers
import KimixNative.Lib.Search

/-!
# What the fuzzy index holds

After any run of calls the numbers in the index are numbers of terms, and every entry of the cache
is what an expansion on the present index computes, the keys being told apart by their parts. So
a call of `expand` answers with a cold expansion, whatever the cache holds.
-/

namespace KimixNative.Search

/-! ### Sets -/

section Sets

variable {α : Type} [DecidableEq α]

variable {set : List α}

@[simp] theorem mem_setInsert {v w : α} : w ∈ setInsert set v ↔ w ∈ set ∨ w = v := by
  rw [setInsert]
  split
  · next h =>
      refine ⟨Or.inl, ?_⟩
      rintro (hw | rfl)
      · exact hw
      · exact h
  · rw [List.mem_append, List.mem_singleton]

theorem nodup_setInsert (h : set.Nodup) (v : α) : (setInsert set v).Nodup := by
  rw [setInsert]
  split
  · exact h
  · next hv =>
      refine List.nodup_append.mpr ⟨h, List.nodup_singleton v, ?_⟩
      intro a ha b hb
      obtain rfl := List.mem_singleton.mp hb
      exact fun heq => hv (heq ▸ ha)

theorem mem_foldl_setInsert {vs : List α} {w : α} :
    w ∈ vs.foldl setInsert set ↔ w ∈ set ∨ w ∈ vs := by
  induction vs generalizing set with
  | nil => simp
  | cons v vs ih => rw [List.foldl_cons, ih, mem_setInsert, List.mem_cons, or_assoc]

theorem nodup_foldl_setInsert (h : set.Nodup) (vs : List α) : (vs.foldl setInsert set).Nodup := by
  induction vs generalizing set with
  | nil => exact h
  | cons v vs ih => exact ih (nodup_setInsert h v)

end Sets

namespace SymmetricDeleteIndex

/-! ### The candidates -/

theorem mem_foldl_gatherVariant {map : Table Bytes (List Nat)} {variants : List Bytes}
    {ids : List Nat} {id : Nat} :
    id ∈ variants.foldl (gatherVariant map) ids ↔
      id ∈ ids ∨ ∃ v ∈ variants, id ∈ (map.find? v).getD [] := by
  induction variants generalizing ids with
  | nil => simp
  | cons v variants ih =>
    rw [List.foldl_cons, ih, gatherVariant, mem_foldl_setInsert, or_assoc]
    simp

theorem nodup_foldl_gatherVariant {ids : List Nat} (h : ids.Nodup) (map : Table Bytes (List Nat))
    (variants : List Bytes) : (variants.foldl (gatherVariant map) ids).Nodup := by
  induction variants generalizing ids with
  | nil => exact h
  | cons v variants ih => exact ih (nodup_foldl_setInsert h _)

variable {idx : SymmetricDeleteIndex} {maxEdits : Nat}

variable {id : Nat} {query : Bytes}

/-- A candidate is stored under a variant of the query, or is the query itself. -/
theorem mem_candidateIds :
    id ∈ idx.candidateIds query maxEdits ↔
      (∃ v ∈ queryVariants query maxEdits, id ∈ ((idx.levelMap maxEdits).find? v).getD []) ∨
        idx.termIds.find? query = some id := by
  have hgathered := @mem_foldl_gatherVariant (idx.levelMap maxEdits)
    (queryVariants query maxEdits) [] id
  rw [candidateIds]
  cases hfind : idx.termIds.find? query with
  | none => simpa using hgathered
  | some exactId =>
    rw [mem_setInsert, hgathered, Option.some.injEq, eq_comm (a := id)]
    simp

theorem nodup_candidateIds (idx : SymmetricDeleteIndex) (query : Bytes) (maxEdits : Nat) :
    (idx.candidateIds query maxEdits).Nodup := by
  have h := nodup_foldl_gatherVariant List.nodup_nil (idx.levelMap maxEdits)
    (queryVariants query maxEdits)
  rw [candidateIds]
  cases idx.termIds.find? query with
  | none => exact h
  | some id => exact nodup_setInsert h id

/-! ### The loop over the candidates -/

/-- The candidates that pass the gates, in the order in which they are visited. -/
def accepted (terms : List Bytes) (query : Bytes) (maxEdits : Nat) (ids : List Nat) :
    List FuzzyCandidate :=
  ids.filterMap fun id => verify query (terms.getD id []) maxEdits

theorem accepted_cons (terms : List Bytes) (query : Bytes) (maxEdits id : Nat) (ids : List Nat) :
    accepted terms query maxEdits (id :: ids) =
      (verify query (terms.getD id []) maxEdits).toList ++ accepted terms query maxEdits ids := by
  rw [accepted, List.filterMap_cons]
  cases verify query (terms.getD id []) maxEdits <;> rfl

theorem accepted_perm {terms : List Bytes} {ids ids' : List Nat} (h : ids.Perm ids') :
    (accepted terms query maxEdits ids).Perm (accepted terms query maxEdits ids') :=
  h.filterMap _

/-- The loop keeps the first candidates that pass, as many as there is room for. -/
theorem verifyLoop_eq (terms : List Bytes) (query : Bytes) (maxEdits maxExpansions : Nat)
    (ids : List Nat) {result : List FuzzyCandidate} (h : result.length ≤ maxExpansions) :
    verifyLoop terms query maxEdits maxExpansions ids result =
      result ++ (accepted terms query maxEdits ids).take (maxExpansions - result.length) := by
  induction ids generalizing result with
  | nil => simp [verifyLoop, accepted]
  | cons id ids ih =>
    rw [verifyLoop, accepted_cons]
    split
    · next hfull =>
        have hroom : maxExpansions - result.length = 0 := by omega
        rw [hroom, List.take_zero, List.append_nil]
    · next hroom =>
        cases hverify : verify query (terms.getD id []) maxEdits with
        | none => rw [Option.toList_none, List.append_nil, ih h, List.nil_append]
        | some c =>
          have hlen : (result ++ [c]).length ≤ maxExpansions := by
            rw [List.length_append, List.length_singleton]
            omega
          obtain ⟨room, hroom'⟩ : ∃ room, maxExpansions - result.length = room + 1 :=
            ⟨maxExpansions - result.length - 1, by omega⟩
          have hrest : maxExpansions - (result ++ [c]).length = room := by
            rw [List.length_append, List.length_singleton]
            omega
          rw [Option.toList_some, ih hlen, hroom', hrest, List.singleton_append,
            List.take_succ_cons, List.append_assoc, List.singleton_append]

/-- A cold expansion sorts the first candidates that pass. -/
theorem expandCold_eq (S : Sorter) (order : HashOrder) (idx : SymmetricDeleteIndex)
    (query : Bytes) (maxEdits maxExpansions : Nat) :
    expandCold S order idx query maxEdits maxExpansions =
      S.sort FuzzyCandidate.before
        ((accepted idx.terms query maxEdits
          (order.visit (idx.candidateIds query maxEdits))).take maxExpansions) := by
  rw [expandCold, verifyLoop_eq _ _ _ _ _ (Nat.zero_le _), List.nil_append, List.length_nil,
    Nat.sub_zero, if_neg]
  rw [(S.perm _ _).length_eq, List.length_take]
  omega

/-! ### The keys of the cache -/

theorem unitSeparator_notMem_decimal (n : Nat) : unitSeparator ∉ Text.decimal n := by
  intro hmem
  have hdigit := List.all_eq_true.mp (Core.decimal_isDigit n) _ hmem
  exact absurd hdigit (by decide)

/-- The part behind the last separator and what stands before it. -/
theorem append_separator_inj {xs ys us vs : Bytes} (hus : unitSeparator ∉ us)
    (hvs : unitSeparator ∉ vs) (h : xs ++ [unitSeparator] ++ us = ys ++ [unitSeparator] ++ vs) :
    xs = ys ∧ us = vs := by
  have hrev := congrArg List.reverse h
  simp only [List.append_assoc, List.singleton_append, List.reverse_append, List.reverse_cons] at hrev
  have hfirst := firstOccurrence_singleton_append (a := unitSeparator)
    (fun hmem => hus (List.mem_reverse.mp hmem)) xs.reverse
  have hfirst' := firstOccurrence_singleton_append (a := unitSeparator)
    (fun hmem => hvs (List.mem_reverse.mp hmem)) ys.reverse
  rw [hrev, hfirst'] at hfirst
  obtain ⟨hus', hrest⟩ := List.append_inj hrev (Option.some.inj hfirst).symm
  exact ⟨List.reverse_inj.mp (List.cons_eq_cons.mp hrest).2, List.reverse_inj.mp hus'⟩

theorem cacheKey_inj {query' : Bytes} {maxEdits' maxExpansions maxExpansions' : Nat}
    (h : cacheKey query maxEdits maxExpansions = cacheKey query' maxEdits' maxExpansions') :
    query = query' ∧ maxEdits = maxEdits' ∧ maxExpansions = maxExpansions' := by
  have hinj : ∀ {n m : Nat}, Text.decimal n = Text.decimal m → n = m := by
    intro n m heq
    rw [← Core.digitsNat_decimal n, heq, Core.digitsNat_decimal]
  obtain ⟨hfront, hexpansions⟩ := append_separator_inj (unitSeparator_notMem_decimal _)
    (unitSeparator_notMem_decimal _) h
  obtain ⟨hquery, hedits⟩ := append_separator_inj (unitSeparator_notMem_decimal _)
    (unitSeparator_notMem_decimal _) hfront
  exact ⟨hquery, hinj hedits, hinj hexpansions⟩

/-! ### Runs -/

/-- The numbers the index holds are numbers of terms. -/
structure InRange (idx : SymmetricDeleteIndex) : Prop where
  named : ∀ t id, idx.termIds.find? t = some id → id < idx.terms.length
  level1 : ∀ v id, id ∈ (idx.deletes1.find? v).getD [] → id < idx.terms.length
  level2 : ∀ v id, id ∈ (idx.deletes2.find? v).getD [] → id < idx.terms.length

/-- The entries of the cache are what cold expansions compute on the present index. -/
def CacheCold (idx : SymmetricDeleteIndex) : Prop :=
  ∀ entry ∈ idx.cache, ∃ S order query maxEdits maxExpansions,
    entry = (cacheKey query maxEdits maxExpansions,
      expandCold S order idx query maxEdits maxExpansions)

variable {deletes : Table Bytes (List Nat)}

theorem mem_pushId {v w : Bytes} {i : Nat} :
    i ∈ ((pushId deletes v id).find? w).getD [] ↔
      i ∈ (deletes.find? w).getD [] ∨ w = v ∧ i = id := by
  rw [pushId, Table.find?_insert]
  by_cases hw : w = v
  · subst hw
    simp
  · simp [hw]

/-- A loop that pushes a number under some of the variants. -/
theorem mem_foldl_pushId {stored : Bytes → Prop} [DecidablePred stored] {vs : List Bytes}
    {w : Bytes} {i : Nat} :
    i ∈ ((vs.foldl (fun d v => if stored v then pushId d v id else d) deletes).find? w).getD [] ↔
      i ∈ (deletes.find? w).getD [] ∨ i = id ∧ w ∈ vs ∧ stored w := by
  induction vs generalizing deletes with
  | nil => simp
  | cons v vs ih =>
    rw [List.foldl_cons, ih, List.mem_cons]
    split
    · next hstored =>
        rw [mem_pushId]
        constructor
        · rintro ((h | ⟨rfl, rfl⟩) | ⟨rfl, hw, hrest⟩)
          · exact Or.inl h
          · exact Or.inr ⟨rfl, Or.inl rfl, hstored⟩
          · exact Or.inr ⟨rfl, Or.inr hw, hrest⟩
        · rintro (h | ⟨rfl, rfl | hw, hrest⟩)
          · exact Or.inl (Or.inl h)
          · exact Or.inl (Or.inr ⟨rfl, rfl⟩)
          · exact Or.inr ⟨rfl, hw, hrest⟩
    · next hstored =>
        refine or_congr_right (and_congr_right fun _ => and_congr_left fun hw => ?_)
        refine ⟨Or.inr, ?_⟩
        rintro (rfl | hmem)
        · exact absurd hw hstored
        · exact hmem

/-- The variants of a term that the first level stores. -/
def OnLevel1 (term v : Bytes) : Prop :=
  v ≠ term ∧ 2 ≤ term.length ∧ v.length = term.length - 1

/-- The variants of a term that the second level stores. -/
def OnLevel2 (term : Bytes) (maxEdits : Nat) (v : Bytes) : Prop :=
  v ≠ term ∧ 2 ≤ maxEdits ∧ (if 2 ≤ term.length then term.length - 2 else 0) ≤ v.length

instance (term : Bytes) : DecidablePred (OnLevel1 term) :=
  fun _ => inferInstanceAs (Decidable (_ ∧ _))

instance (term : Bytes) (maxEdits : Nat) : DecidablePred (OnLevel2 term maxEdits) :=
  fun _ => inferInstanceAs (Decidable (_ ∧ _))

/-- The loop of `add_term` works on the two levels apart. -/
theorem foldl_addVariant (term : Bytes) (maxEdits id : Nat) (idx : SymmetricDeleteIndex)
    (vs : List Bytes) :
    vs.foldl (addVariant term maxEdits id) idx =
      { idx with
        deletes1 := vs.foldl (fun d v => if OnLevel1 term v then pushId d v id else d) idx.deletes1
        deletes2 :=
          vs.foldl (fun d v => if OnLevel2 term maxEdits v then pushId d v id else d)
            idx.deletes2 } := by
  induction vs generalizing idx with
  | nil => rfl
  | cons v vs ih =>
    rw [List.foldl_cons, ih, List.foldl_cons, List.foldl_cons, addVariant]
    by_cases hv : v = term
    · rw [if_pos hv, if_neg (fun h : OnLevel1 term v => h.1 hv),
        if_neg (fun h : OnLevel2 term maxEdits v => h.1 hv)]
    · have hlevel1 : OnLevel1 term v ↔ 2 ≤ term.length ∧ v.length = term.length - 1 :=
        and_iff_right hv
      have hlevel2 : OnLevel2 term maxEdits v ↔ 2 ≤ maxEdits ∧
          (if 2 ≤ term.length then term.length - 2 else 0) ≤ v.length := and_iff_right hv
      simp only [if_neg hv, hlevel1, hlevel2]

/-- What a new term adds to the index. -/
theorem addTerm_eq (idx : SymmetricDeleteIndex) (term : Bytes) (maxEdits : Nat) :
    (idx.addTerm term maxEdits).terms = idx.terms ++ [term] ∧
      (idx.addTerm term maxEdits).termIds =
        (if (idx.termIds.find? term).isSome then idx.termIds
        else idx.termIds.insert term idx.terms.length) ∧
      (idx.addTerm term maxEdits).cache = [] := by
  rw [addTerm, foldl_addVariant]
  exact ⟨rfl, rfl, rfl⟩

theorem mem_deletes1_addTerm {term v : Bytes} :
    id ∈ ((idx.addTerm term maxEdits).deletes1.find? v).getD [] ↔
      id ∈ (idx.deletes1.find? v).getD [] ∨ id = idx.terms.length ∧
        v ∈ generateDeletes term (if maxEdits ≤ 2 then maxEdits else 2) ∧ OnLevel1 term v := by
  rw [addTerm, foldl_addVariant]
  exact mem_foldl_pushId

theorem mem_deletes2_addTerm {term v : Bytes} :
    id ∈ ((idx.addTerm term maxEdits).deletes2.find? v).getD [] ↔
      id ∈ (idx.deletes2.find? v).getD [] ∨ id = idx.terms.length ∧
        v ∈ generateDeletes term (if maxEdits ≤ 2 then maxEdits else 2) ∧
          OnLevel2 term maxEdits v := by
  rw [addTerm, foldl_addVariant]
  exact mem_foldl_pushId

theorem find?_termIds_addTerm {term t : Bytes}
    (h : (idx.addTerm term maxEdits).termIds.find? t = some id) :
    idx.termIds.find? t = some id ∨
      t = term ∧ id = idx.terms.length ∧ idx.termIds.find? term = none := by
  rw [(addTerm_eq idx term maxEdits).2.1] at h
  split at h
  · exact Or.inl h
  · next hnew =>
      rw [Table.find?_insert] at h
      split at h
      · next ht =>
          exact Or.inr ⟨ht, (Option.some.inj h).symm, Option.not_isSome_iff_eq_none.mp hnew⟩
      · exact Or.inl h

/-- An expansion changes nothing but the cache. -/
theorem expand_index (S : Sorter) (order : HashOrder) (idx : SymmetricDeleteIndex) (query : Bytes)
    (maxEdits maxExpansions : Nat) :
    ∃ cache, (idx.expand S order query maxEdits maxExpansions).1 = { idx with cache } := by
  rw [expand]
  split
  · exact ⟨idx.cache, rfl⟩
  · split
    · exact ⟨idx.cache, rfl⟩
    · cases cacheGet idx.cache (cacheKey query maxEdits maxExpansions) with
      | some entry => exact ⟨entry.2, rfl⟩
      | none => exact ⟨_, rfl⟩

theorem inRange_empty : InRange {} := by
  refine ⟨fun t id h => ?_, fun v id h => ?_, fun v id h => ?_⟩
  · rw [Table.find?_empty] at h
    cases h
  · rw [Table.find?_empty] at h
    cases h
  · rw [Table.find?_empty] at h
    cases h

theorem InRange.step (h : InRange idx) (call : Call) : InRange (idx.step call) := by
  cases call with
  | addTerm term maxEdits =>
    have hterms := (addTerm_eq idx term maxEdits).1
    refine ⟨fun t id hid => ?_, fun v id hid => ?_, fun v id hid => ?_⟩
    · show id < (idx.addTerm term maxEdits).terms.length
      rw [hterms, List.length_append, List.length_singleton]
      rcases find?_termIds_addTerm hid with hold | ⟨-, rfl, -⟩
      · exact Nat.lt_succ_of_lt (h.named t id hold)
      · exact Nat.lt_succ_self _
    · show id < (idx.addTerm term maxEdits).terms.length
      rw [hterms, List.length_append, List.length_singleton]
      rcases mem_deletes1_addTerm.mp hid with hold | ⟨rfl, -⟩
      · exact Nat.lt_succ_of_lt (h.level1 v id hold)
      · exact Nat.lt_succ_self _
    · show id < (idx.addTerm term maxEdits).terms.length
      rw [hterms, List.length_append, List.length_singleton]
      rcases mem_deletes2_addTerm.mp hid with hold | ⟨rfl, -⟩
      · exact Nat.lt_succ_of_lt (h.level2 v id hold)
      · exact Nat.lt_succ_self _
  | expand S order query maxEdits maxExpansions =>
    obtain ⟨cache, hcache⟩ := expand_index S order idx query maxEdits maxExpansions
    rw [SymmetricDeleteIndex.step, hcache]
    exact ⟨h.named, h.level1, h.level2⟩
  | reset => exact inRange_empty

theorem CacheCold.step (h : CacheCold idx) (call : Call) : CacheCold (idx.step call) := by
  cases call with
  | addTerm term maxEdits =>
    intro entry hentry
    rw [SymmetricDeleteIndex.step, (addTerm_eq idx term maxEdits).2.2] at hentry
    cases hentry
  | expand S order query maxEdits maxExpansions =>
    rw [SymmetricDeleteIndex.step, expand]
    split
    · exact h
    · split
      · exact h
      · cases hget : cacheGet idx.cache (cacheKey query maxEdits maxExpansions) with
        | some found =>
          obtain ⟨value, hvalue, rfl⟩ := Option.map_eq_some_iff.mp hget
          intro entry hentry
          rcases List.mem_cons.mp hentry with rfl | hold
          · obtain ⟨before, after, heq, -⟩ := List.lookup_eq_some_iff.mp hvalue
            exact h _ (by rw [heq]; simp)
          · exact h entry (List.mem_of_mem_filter hold)
        | none =>
          intro entry hentry
          rcases List.mem_cons.mp (List.mem_of_mem_take hentry) with rfl | hold
          · exact ⟨S, order, query, maxEdits, maxExpansions, rfl⟩
          · exact h entry (List.mem_of_mem_filter hold)
  | reset =>
    intro entry hentry
    cases hentry

theorem cacheCold_empty : CacheCold {} :=
  fun _ hentry => absurd hentry List.not_mem_nil

theorem inRange_run (calls : List Call) : InRange (run step {} calls) :=
  run_invariant (I := InRange) (fun _ call h => h.step call) inRange_empty calls

theorem cacheCold_run (calls : List Call) : CacheCold (run step {} calls) :=
  run_invariant (I := CacheCold) (fun _ call h => h.step call) cacheCold_empty calls

/-- With room for at least one result, a call answers with a cold expansion, be it its own or the
one in the cache. -/
theorem CacheCold.expand_eq (h : CacheCold idx) (S : Sorter) (order : HashOrder)
    {maxExpansions : Nat} (hquery : query ≠ []) (hedits : maxEdits ≠ 0)
    (hexpansions : maxExpansions ≠ 0) :
    ∃ S' order', (idx.expand S order query maxEdits maxExpansions).2 =
      expandCold S' order' idx query maxEdits maxExpansions := by
  rw [expand, if_neg (by tauto), if_neg hexpansions]
  cases hget : cacheGet idx.cache (cacheKey query maxEdits maxExpansions) with
  | none => exact ⟨S, order, rfl⟩
  | some found =>
    obtain ⟨value, hvalue, rfl⟩ := Option.map_eq_some_iff.mp hget
    obtain ⟨before, after, heq, -⟩ := List.lookup_eq_some_iff.mp hvalue
    obtain ⟨S', order', query', maxEdits', maxExpansions', hentry⟩ :=
      h (cacheKey query maxEdits maxExpansions, value) (by rw [heq]; simp)
    obtain ⟨hkey, hresult⟩ := Prod.mk.inj hentry
    obtain ⟨rfl, rfl, rfl⟩ := cacheKey_inj hkey
    exact ⟨S', order', hresult⟩

theorem InRange.lt_of_mem (h : InRange idx) (hid : id ∈ idx.candidateIds query maxEdits) :
    id < idx.terms.length := by
  rcases mem_candidateIds.mp hid with ⟨v, -, hv⟩ | hexact
  · rw [levelMap] at hv
    split_ifs at hv
    · exact h.level1 v id hv
    · exact h.level1 v id hv
    · exact h.level2 v id hv
  · exact h.named query id hexact

/-- No more candidates pass than there are terms. -/
theorem InRange.length_accepted_le (h : InRange idx) (order : HashOrder) (query : Bytes)
    (maxEdits : Nat) :
    (accepted idx.terms query maxEdits
      (order.visit (idx.candidateIds query maxEdits))).length ≤ idx.terms.length := by
  refine le_trans (List.length_filterMap_le _ _) ?_
  rw [(order.perm _).length_eq]
  have hsubset : idx.candidateIds query maxEdits ⊆ List.range idx.terms.length :=
    fun id hid => List.mem_range.mpr (h.lt_of_mem hid)
  have hle := (List.subperm_of_subset (nodup_candidateIds idx query maxEdits) hsubset).length_le
  rwa [List.length_range] at hle

end SymmetricDeleteIndex

end KimixNative.Search
