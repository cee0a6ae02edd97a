import KimixNative.Search.FuzzyCap

/-!
# What fuzzy expansion finds

Texts within one or two edits have a common rest that so many deletions leave of both. The index
holds what deletions leave of a term, but not the term itself: a term is found through any rest
that is shorter than itself, and one that is itself the rest of a query, by as many deletions as
edits are allowed, is not found.
-/

namespace KimixNative.Search

open Text

namespace SymmetricDeleteIndex

/-! ### What deletions leave -/

variable {v : Bytes} {id : Nat} {terms : List Bytes}

theorem mem_singleDeletes {w : Bytes} : v ∈ singleDeletes w ↔ ∃ i < w.length, v = w.eraseIdx i := by
  rw [singleDeletes, List.mem_map]
  refine exists_congr fun i => ?_
  rw [List.mem_range, eq_comm]

theorem mem_extendDeletes {deletes : List Bytes} :
    v ∈ extendDeletes deletes ↔ v ∈ deletes ∨ ∃ w ∈ deletes, ∃ i < w.length, v = w.eraseIdx i := by
  rw [extendDeletes, mem_foldl_setInsert, mem_foldl_setInsert, List.mem_flatMap]
  simp only [List.not_mem_nil, false_or, mem_singleDeletes]

variable {term query : Bytes} {k : Nat} {idx : SymmetricDeleteIndex}

/-- So many rounds leave the sublists that lack no more elements. -/
theorem mem_iterate_extendDeletes {e : Nat} :
    v ∈ extendDeletes^[e] [term] ↔ v.Sublist term ∧ term.length ≤ v.length + e := by
  induction e generalizing v with
  | zero =>
    rw [Function.iterate_zero_apply, List.mem_singleton]
    constructor
    · rintro rfl
      exact ⟨List.Sublist.refl _, le_rfl⟩
    · rintro ⟨hsub, hlen⟩
      exact hsub.eq_of_length_le hlen
  | succ e ih =>
    rw [Function.iterate_succ_apply', mem_extendDeletes]
    constructor
    · rintro (h | ⟨w, hw, i, hi, rfl⟩)
      · obtain ⟨hsub, hlen⟩ := ih.mp h
        exact ⟨hsub, by omega⟩
      · obtain ⟨hsub, hlen⟩ := ih.mp hw
        rw [List.length_eraseIdx_of_lt hi]
        exact ⟨(List.eraseIdx_sublist w i).trans hsub, by omega⟩
    · rintro ⟨hsub, hlen⟩
      by_cases hshort : term.length ≤ v.length + e
      · exact Or.inl (ih.mpr ⟨hsub, hshort⟩)
      · obtain ⟨w, hw, i, hi, rfl⟩ := exists_sublist_eq_eraseIdx hsub (by omega)
        rw [List.length_eraseIdx_of_lt hi] at hlen
        exact Or.inr ⟨w, ih.mpr ⟨hw, by omega⟩, i, hi, rfl⟩

theorem mem_generateDeletes_two (h : term ≠ []) :
    v ∈ generateDeletes term 2 ↔ v.Sublist term ∧ term.length ≤ v.length + 2 := by
  rw [generateDeletes, if_neg (by simp [h]), if_neg (by decide), mem_iterate_extendDeletes]

/-- The variants looked up for a query. -/
theorem mem_queryVariants (hk : k = 1 ∨ k = 2) :
    v ∈ queryVariants query k ↔ v.Sublist query ∧ query.length ≤ v.length + k := by
  have hmem : v ∈ queryVariants query k ↔ v = query ∨ (∃ i < query.length, v = query.eraseIdx i) ∨
      k = 2 ∧ ∃ p q, p < q ∧ q < query.length ∧ v = (query.eraseIdx q).eraseIdx p := by
    rw [queryVariants, List.mem_append, List.mem_append, List.mem_singleton, or_assoc]
    refine or_congr_right (or_congr mem_singleDeletes ?_)
    split
    · next htwo =>
        rw [List.mem_flatMap]
        simp only [List.mem_map, List.mem_range, List.mem_range'_1, htwo, true_and]
        constructor
        · rintro ⟨p, hp, q, ⟨hpq, hq⟩, rfl⟩
          exact ⟨p, q, by omega, by omega, rfl⟩
        · rintro ⟨p, q, hpq, hq, rfl⟩
          exact ⟨p, by omega, q, ⟨by omega, by omega⟩, rfl⟩
    · next hone => simp [hone]
  rw [hmem]
  constructor
  · rintro (rfl | ⟨i, hi, rfl⟩ | ⟨rfl, p, q, hpq, hq, rfl⟩)
    · exact ⟨List.Sublist.refl _, by omega⟩
    · rw [List.length_eraseIdx_of_lt hi]
      exact ⟨List.eraseIdx_sublist _ _, by omega⟩
    · have hlen := List.length_eraseIdx_of_lt hq
      rw [List.length_eraseIdx_of_lt (by omega), hlen]
      exact ⟨(List.eraseIdx_sublist _ _).trans (List.eraseIdx_sublist _ _), by omega⟩
  · rintro ⟨hsub, hlen⟩
    have hle := hsub.length_le
    by_cases hzero : query.length = v.length
    · exact Or.inl (hsub.eq_of_length hzero.symm)
    by_cases hone : query.length = v.length + 1
    · exact Or.inr (Or.inl (exists_eq_eraseIdx hsub hone))
    · exact Or.inr (Or.inr ⟨by omega, exists_eq_eraseIdx_eraseIdx hsub (by omega)⟩)

/-! ### What the index holds -/

/-- A call that adds ASCII terms of length two and more for two edits, if it adds any. -/
def Call.AddsWords : Call → Prop
  | .addTerm term maxEdits => maxEdits = 2 ∧ 2 ≤ term.length ∧ isAscii term = true
  | .expand _ _ _ _ _ => True
  | .reset => True

/-- The number is one of a term of which up to `e` deletions, but at least one, leave the text. -/
def Leaves (terms : List Bytes) (e : Nat) (v : Bytes) (id : Nat) : Prop :=
  ∃ t, terms[id]? = some t ∧ v.Sublist t ∧ v.length < t.length ∧ t.length ≤ v.length + e

/-- An index of words: each level holds exactly what so many deletions leave. -/
structure WordIndex (idx : SymmetricDeleteIndex) : Prop where
  words : ∀ t ∈ idx.terms, 2 ≤ t.length ∧ isAscii t = true
  named : ∀ t id, idx.termIds.find? t = some id → idx.terms[id]? = some t
  level1 : ∀ v id, id ∈ (idx.deletes1.find? v).getD [] ↔ Leaves idx.terms 1 v id
  level2 : ∀ v id, id ∈ (idx.deletes2.find? v).getD [] ↔ Leaves idx.terms 2 v id

theorem getElem?_append_singleton {t : Bytes} :
    (terms ++ [term])[id]? = some t ↔ terms[id]? = some t ∨ id = terms.length ∧ t = term := by
  rcases Nat.lt_trichotomy id terms.length with hlt | rfl | hgt
  · rw [List.getElem?_append_left hlt]
    simp [hlt.ne]
  · simp [eq_comm]
  · rw [List.getElem?_eq_none (by simp; omega), List.getElem?_eq_none (by omega)]
    simp [hgt.ne']

/-- A new term adds its own number to what its deletions leave. -/
theorem leaves_append {e : Nat} :
    Leaves (terms ++ [term]) e v id ↔ Leaves terms e v id ∨
      id = terms.length ∧ v.Sublist term ∧ v.length < term.length ∧ term.length ≤ v.length + e := by
  simp only [Leaves, getElem?_append_singleton]
  constructor
  · rintro ⟨t, hid | ⟨rfl, rfl⟩, hleaves⟩
    · exact Or.inl ⟨t, hid, hleaves⟩
    · exact Or.inr ⟨rfl, hleaves⟩
  · rintro (⟨t, hid, hleaves⟩ | ⟨rfl, hleaves⟩)
    · exact ⟨t, Or.inl hid, hleaves⟩
    · exact ⟨term, Or.inr ⟨rfl, rfl⟩, hleaves⟩

/-- The variants of a word that the first level stores. -/
theorem onLevel1_iff (h : 2 ≤ term.length) :
    v ∈ generateDeletes term 2 ∧ OnLevel1 term v ↔
      v.Sublist term ∧ v.length < term.length ∧ term.length ≤ v.length + 1 := by
  rw [mem_generateDeletes_two (List.length_pos_iff.mp (by omega)), OnLevel1]
  constructor
  · rintro ⟨⟨hsub, -⟩, -, -, hlen⟩
    exact ⟨hsub, by omega, by omega⟩
  · rintro ⟨hsub, hlt, hlen⟩
    refine ⟨⟨hsub, by omega⟩, ?_, h, by omega⟩
    rintro rfl
    exact Nat.lt_irrefl _ hlt

/-- The variants of a word that the second level stores. -/
theorem onLevel2_iff (h : 2 ≤ term.length) :
    v ∈ generateDeletes term 2 ∧ OnLevel2 term 2 v ↔
      v.Sublist term ∧ v.length < term.length ∧ term.length ≤ v.length + 2 := by
  rw [mem_generateDeletes_two (List.length_pos_iff.mp (by omega)), OnLevel2, if_pos h]
  constructor
  · rintro ⟨⟨hsub, hlen⟩, hne, -⟩
    exact ⟨hsub, lt_of_le_of_ne hsub.length_le fun heq => hne (hsub.eq_of_length heq), hlen⟩
  · rintro ⟨hsub, hlt, hlen⟩
    refine ⟨⟨hsub, hlen⟩, ?_, le_rfl, by omega⟩
    rintro rfl
    exact Nat.lt_irrefl _ hlt

theorem wordIndex_empty : WordIndex {} := by
  have hnone : ∀ e v id, id ∈ ((∅ : Table Bytes (List Nat)).find? v).getD [] ↔
      Leaves [] e v id := by
    intro e v id
    simp [Leaves]
  refine ⟨fun t ht => absurd ht List.not_mem_nil, fun t id hid => ?_, hnone 1, hnone 2⟩
  rw [Table.find?_empty] at hid
  cases hid

theorem WordIndex.step {call : Call} (h : WordIndex idx) (hcall : call.AddsWords) :
    WordIndex (idx.step call) := by
  cases call with
  | addTerm term maxEdits =>
    obtain ⟨rfl, hlong, hascii⟩ := hcall
    have hterms := (addTerm_eq idx term 2).1
    rw [SymmetricDeleteIndex.step]
    refine ⟨fun t ht => ?_, fun t id hid => ?_, fun v id => ?_, fun v id => ?_⟩
    · rw [hterms] at ht
      rcases List.mem_append.mp ht with hold | hnew
      · exact h.words t hold
      · obtain rfl := List.mem_singleton.mp hnew
        exact ⟨hlong, hascii⟩
    · rw [hterms, getElem?_append_singleton]
      rcases find?_termIds_addTerm hid with hold | ⟨rfl, rfl, -⟩
      · exact Or.inl (h.named t id hold)
      · exact Or.inr ⟨rfl, rfl⟩
    · rw [hterms, mem_deletes1_addTerm, leaves_append, h.level1, if_pos le_rfl,
        onLevel1_iff hlong]
    · rw [hterms, mem_deletes2_addTerm, leaves_append, h.level2, if_pos le_rfl,
        onLevel2_iff hlong]
  | expand S order query maxEdits maxExpansions =>
    obtain ⟨cache, hcache⟩ := expand_index S order idx query maxEdits maxExpansions
    rw [SymmetricDeleteIndex.step, hcache]
    exact ⟨h.words, h.named, h.level1, h.level2⟩
  | reset => exact wordIndex_empty

theorem wordIndex_run {calls : List Call} (h : ∀ call ∈ calls, call.AddsWords) :
    WordIndex (run step {} calls) :=
  Meets.invariant (fun _ _ hidx hcall => hidx.step hcall) wordIndex_empty (meets_of_forall h _)

/-- An empty second level belongs to an empty index, so that falling back changes nothing. -/
theorem WordIndex.mem_levelMap (h : WordIndex idx) (hk : k = 1 ∨ k = 2) :
    id ∈ ((idx.levelMap k).find? v).getD [] ↔ Leaves idx.terms k v id := by
  rw [levelMap]
  rcases hk with rfl | rfl
  · rw [if_pos rfl, h.level1]
  · rw [if_neg (by decide)]
    split
    · next hempty =>
        have hnone : ∀ v id, ¬ Leaves idx.terms 2 v id := by
          intro v id hleaves
          have hid := (h.level2 v id).mpr hleaves
          cases hfind : idx.deletes2.find? v with
          | none => simp [hfind] at hid
          | some ids =>
            have hkey := Table.mem_keys.mpr ⟨ids, hfind⟩
            rw [hempty.2] at hkey
            cases hkey
        rw [h.level1]
        refine iff_of_false ?_ (hnone v id)
        rintro ⟨t, hid, hsub, hlt, hlen⟩
        exact hnone v id ⟨t, hid, hsub, hlt, by omega⟩
    · exact h.level2 v id

/-! ### The gates -/

theorem asInt32_eq (hk : k = 1 ∨ k = 2) : asInt32 k = k := by
  rcases hk with rfl | rfl <;> decide

theorem lengthsApart_eq_false :
    lengthsApart query term k = false ↔
      term.length ≤ query.length + k ∧ query.length ≤ term.length + k := by
  rw [lengthsApart]
  split
  · next h =>
      rw [decide_eq_false_iff_not]
      omega
  · next h =>
      rw [decide_eq_false_iff_not]
      omega

theorem headsApart_eq_false (h : term ≠ []) :
    headsApart query term = false ↔ term.head? = query.head? := by
  have hpos : 1 ≤ term.length := List.length_pos_iff.mpr h
  rw [headsApart, decide_eq_false_iff_not, not_and, not_not]
  exact ⟨fun heads => heads hpos, fun heads _ => heads⟩

theorem makeSeq_of_isAscii {bytes : Bytes} (h : isAscii bytes = true) :
    makeSeq bytes = ⟨bytes.map BitVec.toNat, true⟩ := if_pos h

/-- A word passes the gates if it is within the bound: the frequency filter discards none. -/
theorem passes_iff (hk : k = 1 ∨ k = 2) (hquery : 2 ≤ query.length)
    (hqueryAscii : isAscii query = true) (hterm : 2 ≤ term.length)
    (htermAscii : isAscii term = true) :
    Passes query term k ↔
      (term.length ≤ query.length + k ∧ query.length ≤ term.length + k) ∧
        term.head? = query.head? ∧ damerauLevenshtein query term (-1) ≤ k := by
  have hlow := freqLowerBound_le query term
    (by rwa [makeSeq_of_isAscii hqueryAscii, List.length_map])
    (by rwa [makeSeq_of_isAscii htermAscii, List.length_map])
  rw [Passes, lengthsApart_eq_false, headsApart_eq_false (List.length_pos_iff.mp (by omega)),
    distanceAccepts_iff, asInt32_eq hk]
  refine and_congr_right fun _ => and_congr_right fun _ => and_iff_right_of_imp fun hdistance => ?_
  rw [frequencyDiscards, asInt32_eq hk, decide_eq_false_iff_not]
  rintro ⟨-, hover⟩
  omega

/-- Words within a distance have a common rest. -/
theorem exists_common_rest (hquery : 2 ≤ query.length) (hqueryAscii : isAscii query = true)
    (hterm : 2 ≤ term.length) (htermAscii : isAscii term = true)
    (h : damerauLevenshtein query term (-1) ≤ k) :
    ∃ v : Bytes, v.Sublist query ∧ v.Sublist term ∧ query.length ≤ v.length + k ∧
      term.length ≤ v.length + k := by
  have hdistance := damerauLevenshtein_eq_osa (a := query) (b := term)
    (by rwa [makeSeq_of_isAscii hqueryAscii, List.length_map])
    (by rwa [makeSeq_of_isAscii htermAscii, List.length_map])
  rw [makeSeq_of_isAscii hqueryAscii, makeSeq_of_isAscii htermAscii] at hdistance
  dsimp only at hdistance
  have hrest : ∃ v : List Nat, v.Sublist (query.map BitVec.toNat).reverse ∧
      v.Sublist (term.map BitVec.toNat).reverse ∧ query.length ≤ v.length + k ∧
        term.length ≤ v.length + k := by
    rcases hdistance with heq | heq
    · obtain ⟨v, hq, ht, hlq, hlt⟩ := exists_common_sublist (query.map BitVec.toNat).reverse
        (term.map BitVec.toNat).reverse
      rw [List.length_reverse, List.length_map] at hlq hlt
      exact ⟨v, hq, ht, by omega, by omega⟩
    · obtain ⟨v, ht, hq, hlt, hlq⟩ := exists_common_sublist (term.map BitVec.toNat).reverse
        (query.map BitVec.toNat).reverse
      rw [List.length_reverse, List.length_map] at hlq hlt
      exact ⟨v, hq, ht, by omega, by omega⟩
  obtain ⟨v, hq, ht, hlq, hlt⟩ := hrest
  obtain ⟨u, huq, hu⟩ := List.sublist_map_iff.mp (List.reverse_sublist.mp
    (by rwa [List.reverse_reverse] : v.reverse.reverse.Sublist (query.map BitVec.toNat).reverse))
  obtain ⟨w, hwt, hw⟩ := List.sublist_map_iff.mp (List.reverse_sublist.mp
    (by rwa [List.reverse_reverse] : v.reverse.reverse.Sublist (term.map BitVec.toNat).reverse))
  have huw : u = w :=
    (List.map_injective_iff.mpr fun _ _ => BitVec.eq_of_toNat_eq) (hu.symm.trans hw)
  have hlen : v.length = u.length := by
    rw [← List.length_reverse, hu, List.length_map]
  exact ⟨u, huq, huw ▸ hwt, by omega, by omega⟩

/-! ### Candidates -/

/-- A word within the bound is reached through a variant, unless the query is longer than it by as
much as the bound allows. -/
theorem WordIndex.found_iff (h : WordIndex idx) (hk : k = 1 ∨ k = 2) (hquery : 2 ≤ query.length)
    (hascii : isAscii query = true) (hid : idx.terms[id]? = some term) :
    (∃ id', Found idx query k id' ∧ idx.terms.getD id' [] = term) ↔
      term.head? = query.head? ∧ term.length ≤ query.length + k ∧ query.length < term.length + k ∧
        damerauLevenshtein query term (-1) ≤ k := by
  obtain ⟨hterm, htermAscii⟩ := h.words term (List.mem_of_getElem? hid)
  constructor
  · rintro ⟨id', ⟨hreached, hpasses⟩, heq⟩
    rw [heq] at hpasses
    obtain ⟨⟨hlong, hshort⟩, hhead, hdistance⟩ :=
      (passes_iff hk hquery hascii hterm htermAscii).mp hpasses
    refine ⟨hhead, hlong, ?_, hdistance⟩
    rcases hreached with ⟨v, hv, hlevel⟩ | hexact
    · obtain ⟨hvq, hlen⟩ := (mem_queryVariants hk).mp hv
      obtain ⟨t, ht, hvt, hlt, -⟩ := (h.mem_levelMap hk).mp hlevel
      rw [List.getD_eq_getElem?_getD, ht, Option.getD_some] at heq
      subst heq
      omega
    · have ht := h.named query id' hexact
      rw [List.getD_eq_getElem?_getD, ht, Option.getD_some] at heq
      subst heq
      omega
  · rintro ⟨hhead, hlong, hshort, hdistance⟩
    refine ⟨id, ⟨Or.inl ?_, ?_⟩, ?_⟩
    · obtain ⟨v, hvq, hvt, hlq, hlt⟩ :=
        exists_common_rest hquery hascii hterm htermAscii hdistance
      by_cases hless : v.length < term.length
      · exact ⟨v, (mem_queryVariants hk).mpr ⟨hvq, hlq⟩,
          (h.mem_levelMap hk).mpr ⟨term, hid, hvt, hless, hlt⟩⟩
      · -- the rest is the whole term, and there is room to delete one more
        obtain rfl := hvt.eq_of_length_le (not_lt.mp hless)
        have hlen := List.length_eraseIdx_of_lt (l := v) (i := 0) (by omega)
        exact ⟨v.eraseIdx 0,
          (mem_queryVariants hk).mpr ⟨(List.eraseIdx_sublist v 0).trans hvq, by omega⟩,
          (h.mem_levelMap hk).mpr ⟨v, hid, List.eraseIdx_sublist v 0, by omega, by omega⟩⟩
    · rw [List.getD_eq_getElem?_getD, hid, Option.getD_some]
      exact (passes_iff hk hquery hascii hterm htermAscii).mpr
        ⟨⟨hlong, by omega⟩, hhead, hdistance⟩
    · rw [List.getD_eq_getElem?_getD, hid, Option.getD_some]

end SymmetricDeleteIndex

open SymmetricDeleteIndex in
/-- The terms that fuzzy expansion returns. -/
theorem mem_expand_iff (calls : List Call) (hcalls : ∀ call ∈ calls, call.AddsWords)
    (query : Bytes) (hquery : 2 ≤ query.length) (hascii : isAscii query = true) (k : Nat)
    (hk : k = 1 ∨ k = 2) (maxExpansions : Nat)
    (hall : (run step {} calls).terms.length ≤ maxExpansions) (S : Sorter) (order : HashOrder)
    (term : Bytes) :
    term ∈ ((run step {} calls).expand S order query k maxExpansions).2.map FuzzyCandidate.term ↔
      term ∈ (run step {} calls).terms ∧ term.head? = query.head? ∧
        term.length ≤ query.length + k ∧ query.length < term.length + k ∧
          damerauLevenshtein query term (-1) ≤ k := by
  have hidx := wordIndex_run hcalls
  have hself : Alike (run step {} calls) (run step {} calls) := rfl
  rw [hself.expand_unlimited S order (List.length_pos_iff.mp (by omega)) (by omega) hall,
    List.mem_map]
  constructor
  · rintro ⟨c, hc, rfl⟩
    obtain ⟨id, hfound, rfl⟩ := mem_best.mp hc
    have hlt : id < (run step {} calls).terms.length := by
      have hcandidate : id ∈ (run step {} calls).candidateIds query k :=
        mem_candidateIds.mpr hfound.1
      exact (inRange_run calls).lt_of_mem hcandidate
    have hid := List.getElem?_eq_getElem hlt
    have hterm : (run step {} calls).terms.getD id [] = (run step {} calls).terms[id] := by
      rw [List.getD_eq_getElem?_getD, hid, Option.getD_some]
    refine ⟨?_, (hidx.found_iff hk hquery hascii (hterm ▸ hid)).mp ⟨id, hfound, rfl⟩⟩
    show (run step {} calls).terms.getD id [] ∈ _
    rw [hterm]
    exact List.getElem_mem hlt
  · rintro ⟨hmem, hwithin⟩
    obtain ⟨id, hid⟩ := List.mem_iff_getElem?.mp hmem
    obtain ⟨id', hfound, heq⟩ := (hidx.found_iff hk hquery hascii hid).mpr hwithin
    exact ⟨_, mem_best.mpr ⟨id', hfound, rfl⟩, heq⟩

open SymmetricDeleteIndex in
theorem mem_expand_substitution :
    ([0x61#8, 0x62#8, 0x63#8] : Bytes) ∈
      ((run step {} [.addTerm [0x61#8, 0x62#8, 0x63#8] 2]).expand .insertion .insertion
        [0x61#8, 0x62#8, 0x78#8] 1 1).2.map FuzzyCandidate.term :=
  (mem_expand_iff [.addTerm [0x61#8, 0x62#8, 0x63#8] 2]
    (by simp [Call.AddsWords]; decide) [0x61#8, 0x62#8, 0x78#8] (by decide) (by decide) 1
    (Or.inl rfl) 1 (by decide) .insertion .insertion [0x61#8, 0x62#8, 0x63#8]).mpr
    (by decide)

open SymmetricDeleteIndex in
/-- A term that one deletion leaves of the query is not returned. -/
theorem expand_misses_shorter_term :
    ¬ ∀ term : Bytes,
      term ∈ ((run step {} [.addTerm [0x61#8, 0x62#8] 2]).expand .insertion .insertion
          [0x61#8, 0x62#8, 0x63#8] 1 1).2.map FuzzyCandidate.term ↔
        term ∈ (run step {} [.addTerm [0x61#8, 0x62#8] 2]).terms ∧
          term.head? = ([0x61#8, 0x62#8, 0x63#8] : Bytes).head? ∧ term.length ≤ 3 + 1 ∧
            3 ≤ term.length + 1 ∧
              damerauLevenshtein [0x61#8, 0x62#8, 0x63#8] term (-1) ≤ 1 := by
  intro h
  have hterm := (h [0x61#8, 0x62#8]).mpr (by decide)
  revert hterm
  decide

end KimixNative.Search
