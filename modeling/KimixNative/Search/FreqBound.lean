import KimixNative.Search.Distance
import Mathlib.Algebra.BigOperators.Group.Finset.Basic

/-!
# The frequency filter

`freq_lower_bound` counts the characters of a pattern and of a term and halves, rounding up, by
how many the two bags differ. One path counts bytes in arrays, the other code points in hash
maps; both add up over the characters of the pattern and take what is left of the term as a whole.

An edit changes the difference of the bags by at most two, so the bound is below the distance.
-/

namespace KimixNative.Search

open Text

/-- `total` and `matched`. -/
structure Tally where
  total : Int := 0
  matched : Int := 0

/-- One character of the pattern, which the pattern has `pc` times and the term `tc` times. -/
def Tally.add (tally : Tally) (pc tc : Nat) : Tally where
  matched := tally.matched + tc
  total :=
    if pc ≠ tc then tally.total + (if pc > tc then (pc : Int) - tc else (tc : Int) - pc)
    else tally.total

/-- What is left of the term is added, and the sum halved. -/
def Tally.bound (tally : Tally) (termLen : Nat) : Int :=
  (tally.total + ((termLen : Int) - tally.matched) + 1).tdiv 2

/-- The count array of a byte string. -/
def byteCounts (bytes : List Nat) : List Nat :=
  bytes.foldl (fun counts b => counts.modify b (· + 1)) (List.replicate 256 0)

/-- The ASCII path: two arrays of 256 counts. -/
def arrayBound (pv tv : List Nat) : Int :=
  let pcounts := byteCounts pv
  let tcounts := byteCounts tv
  ((List.range 256).foldl
    (fun tally c =>
      if pcounts.getD c 0 = 0 then tally else tally.add (pcounts.getD c 0) (tcounts.getD c 0))
    ({} : Tally)).bound tv.length

/-- The hash map of counts. -/
def mapCounts (cps : List Nat) : Table Nat Nat :=
  cps.foldl (fun counts c => counts.insert c ((counts.find? c).getD 0 + 1)) ∅

/-- The general path: two hash maps. -/
def mapBound (pv tv : List Nat) : Int :=
  let pcounts := mapCounts pv
  let tcounts := mapCounts tv
  (pcounts.toList.foldl (fun tally kv => tally.add kv.2 ((tcounts.find? kv.1).getD 0))
    ({} : Tally)).bound tv.length

/-- `freq_lower_bound`. -/
def freqLowerBound (pattern term : Bytes) : Int :=
  let pv := makeSeq pattern
  let tv := makeSeq term
  if pv.ascii ∧ tv.ascii then arrayBound pv.cps tv.cps else mapBound pv.cps tv.cps

/-! ### The counts -/

theorem getD_byteCounts {bytes : List Nat} (h : ∀ b ∈ bytes, b < 256) (c : Nat) (hc : c < 256) :
    (byteCounts bytes).getD c 0 = bytes.count c ∧ (byteCounts bytes).length = 256 := by
  induction bytes using List.reverseRecOn with
  | nil =>
    refine ⟨?_, List.length_replicate⟩
    rw [byteCounts, List.foldl_nil, List.getD_replicate _ hc, List.count_nil]
  | append_singleton bytes b ih =>
    obtain ⟨hval, hlen⟩ := ih fun b' hb' => h b' (List.mem_append_left _ hb')
    have hb := h b (by simp)
    have hstep : byteCounts (bytes ++ [b]) = (byteCounts bytes).modify b (· + 1) := by
      rw [byteCounts, List.foldl_append]
      rfl
    rw [hstep, List.length_modify]
    refine ⟨?_, hlen⟩
    rw [List.getD_eq_getElem?_getD, List.getElem?_modify, List.count_append,
      List.count_singleton]
    rw [List.getD_eq_getElem?_getD] at hval
    by_cases hbc : b = c
    · subst hbc
      rw [List.getElem?_eq_getElem (by omega)] at hval ⊢
      simp at hval ⊢
      exact hval
    · rw [List.getElem?_eq_getElem (by omega)] at hval ⊢
      simp [hbc] at hval ⊢
      exact hval

theorem find?_mapCounts (cps : List Nat) (c : Nat) :
    (mapCounts cps).find? c = if c ∈ cps then some (cps.count c) else none := by
  induction cps using List.reverseRecOn with
  | nil => simp [mapCounts]
  | append_singleton cps d ih =>
    have hstep : mapCounts (cps ++ [d]) =
        (mapCounts cps).insert d (((mapCounts cps).find? d).getD 0 + 1) := by
      rw [mapCounts, List.foldl_append]
      rfl
    rw [hstep, Table.find?_insert]
    by_cases hcd : c = d
    · subst hcd
      rw [if_pos rfl, if_pos (by simp), ih]
      split
      · simp
      · next hnot => simp [List.count_eq_zero_of_not_mem hnot]
    · have hdc : d ≠ c := fun h => hcd h.symm
      rw [if_neg hcd, ih]
      simp [hcd, hdc]

/-! ### The tally -/

/-- The characters `cs` one after another. -/
def tallyOf (pv tv cs : List Nat) : Tally :=
  cs.foldl (fun tally c => tally.add (pv.count c) (tv.count c)) {}

theorem tallyOf_eq (pv tv cs : List Nat) :
    (tallyOf pv tv cs).total =
        ((cs.map fun c => (pv.count c - tv.count c) + (tv.count c - pv.count c)).sum : Nat) ∧
      (tallyOf pv tv cs).matched = ((cs.map fun c => tv.count c).sum : Nat) := by
  induction cs using List.reverseRecOn with
  | nil => exact ⟨rfl, rfl⟩
  | append_singleton cs c ih =>
    rw [tallyOf, List.foldl_append, List.foldl_cons, List.foldl_nil, ← tallyOf, Tally.add]
    simp only [List.map_append, List.sum_append, List.map_cons, List.map_nil, List.sum_cons,
      List.sum_nil, ih.1, ih.2]
    refine ⟨?_, by omega⟩
    split_ifs <;> omega

/-- The bags of a pattern and a term differ by what differs at the pattern's characters, together
with what the term has of other characters. -/
theorem bagDistance_eq (pv tv : List Nat) :
    bagDistance (pv : Multiset Nat) (tv : Multiset Nat) + ∑ c ∈ pv.toFinset, tv.count c =
      ∑ c ∈ pv.toFinset, ((pv.count c - tv.count c) + (tv.count c - pv.count c)) + tv.length := by
  have hcard : ∀ (m : Multiset Nat), m ≤ pv ∨ m ≤ tv →
      ∑ c ∈ pv.toFinset ∪ tv.toFinset, m.count c = m.card := by
    intro m hm
    refine Multiset.sum_count_eq_card fun c hc => ?_
    rcases hm with hm | hm
    · exact Finset.mem_union_left _ (List.mem_toFinset.mpr (Multiset.mem_of_le hm hc))
    · exact Finset.mem_union_right _ (List.mem_toFinset.mpr (Multiset.mem_of_le hm hc))
  have hsplit : ∀ f : Nat → Nat, ∑ c ∈ pv.toFinset ∪ tv.toFinset, f c =
      ∑ c ∈ pv.toFinset, f c + ∑ c ∈ tv.toFinset \ pv.toFinset, f c := by
    intro f
    rw [← Finset.union_sdiff_self_eq_union,
      Finset.sum_union Finset.disjoint_sdiff]
  have hpt := hcard (pv - tv) (Or.inl (Multiset.sub_le_self _ _))
  have htp := hcard (tv - pv) (Or.inr (Multiset.sub_le_self _ _))
  have ht := hcard tv (Or.inr le_rfl)
  rw [hsplit] at hpt htp ht
  simp only [Multiset.count_sub, Multiset.coe_count, Multiset.coe_card] at hpt htp ht
  -- a character the pattern lacks is counted as often as the term has it
  have hrest : ∀ c ∈ tv.toFinset \ pv.toFinset, pv.count c = 0 := by
    intro c hc
    exact List.count_eq_zero_of_not_mem fun h =>
      (Finset.mem_sdiff.mp hc).2 (List.mem_toFinset.mpr h)
  have hnone : ∑ c ∈ tv.toFinset \ pv.toFinset, (pv.count c - tv.count c) = 0 :=
    Finset.sum_eq_zero fun c hc => by rw [hrest c hc, Nat.zero_sub]
  have hall : ∑ c ∈ tv.toFinset \ pv.toFinset, (tv.count c - pv.count c) =
      ∑ c ∈ tv.toFinset \ pv.toFinset, tv.count c :=
    Finset.sum_congr rfl fun c hc => by rw [hrest c hc, Nat.sub_zero]
  rw [bagDistance, Finset.sum_add_distrib]
  omega

/-- Over the characters of the pattern, each taken once, the tally gives half the difference of
the bags. -/
theorem bound_tallyOf {pv tv cs : List Nat} (hnodup : cs.Nodup) (hcs : ∀ c, c ∈ cs ↔ c ∈ pv) :
    (tallyOf pv tv cs).bound tv.length =
      ((bagDistance (pv : Multiset Nat) (tv : Multiset Nat) + 1) / 2 : Nat) := by
  have hset : cs.toFinset = pv.toFinset := by
    ext c
    rw [List.mem_toFinset, List.mem_toFinset, hcs]
  have hsum : ∀ f : Nat → Nat, (cs.map f).sum = ∑ c ∈ pv.toFinset, f c := fun f => by
    rw [← hset, List.sum_toFinset f hnodup]
  have hbag := bagDistance_eq pv tv
  obtain ⟨htotal, hmatched⟩ := tallyOf_eq pv tv cs
  rw [hsum] at htotal hmatched
  rw [Tally.bound, htotal, hmatched, Int.tdiv_eq_ediv_of_nonneg (by omega)]
  omega

theorem mapBound_eq (pv tv : List Nat) :
    mapBound pv tv = ((bagDistance (pv : Multiset Nat) (tv : Multiset Nat) + 1) / 2 : Nat) := by
  have hfold : ∀ (entries : List (Nat × Nat)) (tally : Tally),
      (∀ kv ∈ entries, kv.2 = pv.count kv.1) →
      entries.foldl (fun tally kv => tally.add kv.2 (((mapCounts tv).find? kv.1).getD 0)) tally =
        (entries.map Prod.fst).foldl (fun tally c => tally.add (pv.count c) (tv.count c)) tally := by
    intro entries
    induction entries with
    | nil => exact fun _ _ => rfl
    | cons kv entries ih =>
      intro tally h
      have htc : ((mapCounts tv).find? kv.1).getD 0 = tv.count kv.1 := by
        rw [find?_mapCounts]
        split
        · rfl
        · next hnot => simp [List.count_eq_zero_of_not_mem hnot]
      rw [List.foldl_cons, List.map_cons, List.foldl_cons, htc, h kv List.mem_cons_self]
      exact ih _ fun kv' hkv' => h kv' (List.mem_cons_of_mem _ hkv')
  have hentries : ∀ kv ∈ (mapCounts pv).toList, kv.2 = pv.count kv.1 := by
    intro kv hkv
    have hfind := Table.mem_toList.mp hkv
    rw [find?_mapCounts] at hfind
    split at hfind
    · exact (Option.some.inj hfind).symm
    · cases hfind
  rw [mapBound, hfold _ _ hentries, ← Table.keys_eq_map]
  refine bound_tallyOf (Table.keys_nodup _) fun c => ?_
  rw [Table.mem_keys, find?_mapCounts]
  by_cases hc : c ∈ pv <;> simp [hc]

theorem arrayBound_eq {pv tv : List Nat} (hp : ∀ c ∈ pv, c < 256) (ht : ∀ c ∈ tv, c < 256) :
    arrayBound pv tv = ((bagDistance (pv : Multiset Nat) (tv : Multiset Nat) + 1) / 2 : Nat) := by
  have hfold : ∀ (cs : List Nat) (tally : Tally), (∀ c ∈ cs, c < 256) →
      cs.foldl
        (fun tally c =>
          if (byteCounts pv).getD c 0 = 0 then tally
          else tally.add ((byteCounts pv).getD c 0) ((byteCounts tv).getD c 0)) tally =
        (cs.filter (· ∈ pv)).foldl (fun tally c => tally.add (pv.count c) (tv.count c)) tally := by
    intro cs
    induction cs with
    | nil => exact fun _ _ => rfl
    | cons c cs ih =>
      intro tally h
      have hc := h c List.mem_cons_self
      have hrest := fun tally => ih tally fun c' hc' => h c' (List.mem_cons_of_mem _ hc')
      rw [List.foldl_cons, (getD_byteCounts hp c hc).1, (getD_byteCounts ht c hc).1]
      by_cases hmem : c ∈ pv
      · have hpos : pv.count c ≠ 0 := (List.count_pos_iff.mpr hmem).ne'
        rw [if_neg hpos, List.filter_cons_of_pos (by simpa using hmem), List.foldl_cons]
        exact hrest _
      · rw [if_pos (List.count_eq_zero_of_not_mem hmem),
          List.filter_cons_of_neg (by simpa using hmem)]
        exact hrest _
  rw [arrayBound, hfold _ _ fun c hc => List.mem_range.mp hc]
  refine bound_tallyOf (List.nodup_range.filter _) fun c => ?_
  simp only [List.mem_filter, List.mem_range, decide_eq_true_eq, and_iff_right_iff_imp]
  exact hp c

theorem makeSeq_lt {bytes : Bytes} (h : (makeSeq bytes).ascii = true) :
    ∀ c ∈ (makeSeq bytes).cps, c < 256 := by
  intro c hc
  rw [makeSeq] at h hc
  split at h
  · next hascii =>
      rw [if_pos hascii] at hc
      obtain ⟨b, -, rfl⟩ := List.mem_map.mp hc
      exact b.isLt
  · cases h

theorem arrayBound_eq_mapBound {p t : Bytes} (hp : (makeSeq p).ascii = true)
    (ht : (makeSeq t).ascii = true) :
    arrayBound (makeSeq p).cps (makeSeq t).cps = mapBound (makeSeq p).cps (makeSeq t).cps := by
  rw [arrayBound_eq (makeSeq_lt hp) (makeSeq_lt ht), mapBound_eq]

/-- On either path the filter computes half the difference of the bags, rounded up. -/
theorem freqLowerBound_eq (p t : Bytes) :
    freqLowerBound p t =
      ((bagDistance ((makeSeq p).cps : Multiset Nat) ((makeSeq t).cps : Multiset Nat) + 1) / 2 :
        Nat) := by
  rw [freqLowerBound]
  split
  · next hascii => exact arrayBound_eq (makeSeq_lt hascii.1) (makeSeq_lt hascii.2)
  · exact mapBound_eq _ _

theorem freqLowerBound_le (p t : Bytes) (hp : 2 ≤ (makeSeq p).cps.length)
    (ht : 2 ≤ (makeSeq t).cps.length) : freqLowerBound p t ≤ damerauLevenshtein p t (-1) := by
  rw [freqLowerBound_eq]
  rcases damerauLevenshtein_eq_osa hp ht with h | h
  · have hbag := bagDistance_le_osa (makeSeq p).cps.reverse (makeSeq t).cps.reverse
    rw [Multiset.coe_reverse, Multiset.coe_reverse] at hbag
    omega
  · have hbag := bagDistance_le_osa (makeSeq t).cps.reverse (makeSeq p).cps.reverse
    rw [Multiset.coe_reverse, Multiset.coe_reverse, bagDistance_comm] at hbag
    omega

end KimixNative.Search
