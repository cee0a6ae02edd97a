import KimixNative.Search.FuzzyIndex

/-!
# The cap of a fuzzy expansion

`expand` stops going through the candidates as soon as it has as many as it may return, and sorts
afterwards. What it returns is then the best part of all that pass only where nothing is cut off, or
where it makes no difference what is: with some order of the hash set anything else goes wrong.
-/

namespace KimixNative.Search

/-! ### The order of the result -/

/-- What the sort compares. -/
def FuzzyCandidate.rank (c : FuzzyCandidate) : Lex (Rat × List Nat) :=
  toLex (-c.score, c.term.map BitVec.toNat)

theorem FuzzyCandidate.before_iff (a b : FuzzyCandidate) :
    a.before b = true ↔ a.rank < b.rank := by
  rw [before, rank, rank, Prod.Lex.toLex_lt_toLex, neg_lt_neg_iff, neg_inj]
  by_cases hscore : a.score = b.score
  · simp [hscore]
  · simp [hscore]

theorem FuzzyCandidate.rank_injective : Function.Injective FuzzyCandidate.rank := by
  rintro ⟨term, score⟩ ⟨term', score'⟩ h
  obtain ⟨hscore, hterm⟩ := Prod.mk.inj (toLex.injective h)
  obtain rfl := neg_inj.mp hscore
  obtain rfl := (List.map_injective_iff.mpr fun _ _ => BitVec.eq_of_toNat_eq) hterm
  rfl

/-- A list that repeats itself after `d` elements, in order, has one element only. -/
theorem eq_head_of_drop_eq_take {l : List FuzzyCandidate}
    (hsorted : l.Pairwise fun a b => a.rank ≤ b.rank) {d : Nat} (hpos : 0 < d) (hd : d < l.length)
    (h : l.drop d = l.take (l.length - d)) {i : Nat} (hi : i < l.length) :
    l[i] = l[0] := by
  have hback : ∀ j (hj : j + d < l.length), l[j + d] = l[j] := by
    intro j hj
    have hget := congrArg (·[j]?) h
    simp only [List.getElem?_drop, List.getElem?_take] at hget
    rw [if_pos (by omega), Nat.add_comm, List.getElem?_eq_getElem hj,
      List.getElem?_eq_getElem (by omega)] at hget
    exact Option.some.inj hget
  have hmono : ∀ {j k : Nat} (hjk : j ≤ k) (hk : k < l.length), l[j].rank ≤ l[k].rank := by
    intro j k hjk hk
    rcases hjk.eq_or_lt with rfl | hlt
    · exact le_rfl
    · exact List.pairwise_iff_getElem.mp hsorted j k (by omega) hk hlt
  clear h
  induction i using Nat.strong_induction_on with
  | _ i ih =>
    by_cases hid : d ≤ i
    · obtain ⟨j, rfl⟩ := Nat.exists_eq_add_of_le' hid
      rw [hback j hi]
      exact ih j (by omega) (by omega) hback hmono
    · have hfirst := hback 0 (by omega)
      simp only [Nat.zero_add] at hfirst
      refine FuzzyCandidate.rank_injective (le_antisymm ?_ (hmono (Nat.zero_le i) hi))
      rw [← hfirst]
      exact hmono (by omega) hd

variable {m : Nat}

/-- Candidates visited from the worst to the best: the first ones are not the best ones, unless
all are the same. -/
theorem all_eq_of_take_perm {l worst : List FuzzyCandidate}
    (hsorted : l.Pairwise fun a b => a.rank ≤ b.rank) (hworst : worst = l.reverse) (hm : m ≠ 0)
    (hcut : m < l.length) (h : (worst.take m).Perm (l.take m)) : ∀ a ∈ l, ∀ b ∈ l, a = b := by
  subst hworst
  have heq : l.drop (l.length - m) = l.take (l.length - (l.length - m)) := by
    rw [Nat.sub_sub_self hcut.le]
    rw [List.take_reverse] at h
    exact List.Perm.eq_of_pairwise
      (fun _ _ _ _ hab hba => FuzzyCandidate.rank_injective (le_antisymm hab hba))
      (hsorted.drop) (hsorted.take) ((List.reverse_perm _).symm.trans h)
  have hall : ∀ a ∈ l, a = l[0] := by
    intro a ha
    obtain ⟨i, hi, rfl⟩ := List.getElem_of_mem ha
    exact eq_head_of_drop_eq_take hsorted (by omega) (by omega) heq hi
  intro a ha b hb
  rw [hall a ha, hall b hb]

namespace SymmetricDeleteIndex

/-! ### What is found -/

/-- The term passes the gates of `expand`. -/
def Passes (query term : Bytes) (maxEdits : Nat) : Prop :=
  lengthsApart query term maxEdits = false ∧ headsApart query term = false ∧
    frequencyDiscards query term maxEdits = false ∧ distanceAccepts query term maxEdits = true

/-- The number belongs to a term that a variant of the query, or the query itself, leads to and
that passes the gates. -/
def Found (idx : SymmetricDeleteIndex) (query : Bytes) (maxEdits id : Nat) : Prop :=
  ((∃ v ∈ queryVariants query maxEdits, id ∈ ((idx.levelMap maxEdits).find? v).getD []) ∨
      idx.termIds.find? query = some id) ∧
    Passes query (idx.terms.getD id []) maxEdits

/-- What a term that passes is returned as. -/
def scored (query term : Bytes) (maxEdits : Nat) : FuzzyCandidate :=
  ⟨term, 1 / (1 + (damerauLevenshtein query term (asInt32 maxEdits) : Rat))⟩

instance (query term : Bytes) (maxEdits : Nat) : Decidable (Passes query term maxEdits) :=
  inferInstanceAs (Decidable (_ ∧ _))

theorem verify_eq (query term : Bytes) (maxEdits : Nat) :
    verify query term maxEdits =
      if Passes query term maxEdits then some (scored query term maxEdits) else none := by
  by_cases h : Passes query term maxEdits
  · obtain ⟨hlengths, hheads, hfrequency, hdistance⟩ := h
    rw [if_pos ⟨hlengths, hheads, hfrequency, hdistance⟩, verify, hlengths, hheads, hfrequency,
      hdistance]
    rfl
  · rw [if_neg h, verify]
    split_ifs with hlengths hheads hfrequency hdistance
    · rfl
    · rfl
    · rfl
    · exact absurd ⟨Bool.eq_false_iff.mpr hlengths, Bool.eq_false_iff.mpr hheads,
        Bool.eq_false_iff.mpr hfrequency, hdistance⟩ h
    · rfl

theorem accepted_eq_map (terms : List Bytes) (query : Bytes) (maxEdits : Nat) (ids : List Nat) :
    accepted terms query maxEdits ids =
      (ids.filter fun id => Passes query (terms.getD id []) maxEdits).map
        fun id => scored query (terms.getD id []) maxEdits := by
  induction ids with
  | nil => rfl
  | cons id ids ih =>
    rw [accepted_cons, ih, verify_eq, List.filter_cons]
    by_cases hpasses : Passes query (terms.getD id []) maxEdits
    · rw [if_pos hpasses, if_pos (decide_eq_true hpasses)]
      rfl
    · rw [if_neg hpasses, if_neg (by simpa only [decide_eq_true_eq] using hpasses)]
      rfl

/-- The numbers found, in the order in which they are visited. -/
def foundIds (order : HashOrder) (idx : SymmetricDeleteIndex) (query : Bytes) (maxEdits : Nat) :
    List Nat :=
  (order.visit (idx.candidateIds query maxEdits)).filter fun id =>
    Passes query (idx.terms.getD id []) maxEdits

variable {idx : SymmetricDeleteIndex} {maxEdits : Nat} {query : Bytes}

variable {order : HashOrder} {idx' : SymmetricDeleteIndex} {calls : List Call}

theorem mem_foundIds {id : Nat} :
    id ∈ foundIds order idx query maxEdits ↔ Found idx query maxEdits id := by
  rw [foundIds, List.mem_filter, (order.perm _).mem_iff, mem_candidateIds, decide_eq_true_eq, Found]

theorem nodup_foundIds (order : HashOrder) (idx : SymmetricDeleteIndex) (query : Bytes)
    (maxEdits : Nat) : (foundIds order idx query maxEdits).Nodup :=
  ((order.perm _).nodup_iff.mpr (nodup_candidateIds idx query maxEdits)).filter _

theorem accepted_eq_foundIds (order : HashOrder) (idx : SymmetricDeleteIndex) (query : Bytes)
    (maxEdits : Nat) :
    accepted idx.terms query maxEdits (order.visit (idx.candidateIds query maxEdits)) =
      (foundIds order idx query maxEdits).map
        fun id => scored query (idx.terms.getD id []) maxEdits :=
  accepted_eq_map _ _ _ _

theorem scored_eq_iff {term term' : Bytes} :
    scored query term maxEdits = scored query term' maxEdits ↔ term = term' := by
  refine ⟨fun h => congrArg FuzzyCandidate.term h, ?_⟩
  rintro rfl
  rfl

/-- The hash set that visits the numbers from the worst candidate to the best. -/
def worstFirst (S : Sorter) (idx : SymmetricDeleteIndex) (query : Bytes) (maxEdits : Nat) :
    HashOrder where
  visit := S.sort fun id id' =>
    (scored query (idx.terms.getD id' []) maxEdits).before
      (scored query (idx.terms.getD id []) maxEdits)
  perm := S.perm _

theorem accepted_worstFirst (S : Sorter) (idx : SymmetricDeleteIndex) (query : Bytes)
    (maxEdits : Nat) :
    (accepted idx.terms query maxEdits
      ((worstFirst S idx query maxEdits).visit (idx.candidateIds query maxEdits))).Pairwise
        fun a b => b.rank ≤ a.rank := by
  have hsorted := S.sorted
    (fun id => OrderDual.toDual (scored query (idx.terms.getD id []) maxEdits).rank)
    (fun id id' => FuzzyCandidate.before_iff (scored query (idx.terms.getD id' []) maxEdits)
      (scored query (idx.terms.getD id []) maxEdits)) (idx.candidateIds query maxEdits)
  rw [accepted_eq_foundIds, List.pairwise_map]
  exact (hsorted.filter _).imp fun h => h

/-! ### Two caps -/

/-- What an expansion returns when nothing is cut off. -/
def best (S : Sorter) (order : HashOrder) (idx : SymmetricDeleteIndex) (query : Bytes)
    (maxEdits : Nat) : List FuzzyCandidate :=
  S.sort FuzzyCandidate.before
    (accepted idx.terms query maxEdits (order.visit (idx.candidateIds query maxEdits)))

theorem best_sorted (S : Sorter) (order : HashOrder) (idx : SymmetricDeleteIndex) (query : Bytes)
    (maxEdits : Nat) : (best S order idx query maxEdits).Pairwise fun a b => a.rank ≤ b.rank :=
  S.sorted _ FuzzyCandidate.before_iff _

/-- Neither the sort routine nor the order of the hash set shows. -/
theorem best_eq (S S' : Sorter) (order order' : HashOrder) (idx : SymmetricDeleteIndex)
    (query : Bytes) (maxEdits : Nat) :
    best S order idx query maxEdits = best S' order' idx query maxEdits := by
  refine List.Perm.eq_of_pairwise
    (fun _ _ _ _ hab hba => FuzzyCandidate.rank_injective (le_antisymm hab hba))
    (best_sorted S order idx query maxEdits) (best_sorted S' order' idx query maxEdits) ?_
  have hvisited := (order.perm (idx.candidateIds query maxEdits)).trans (order'.perm _).symm
  exact (S.perm _ _).trans ((accepted_perm hvisited).trans (S'.perm _ _).symm)

variable {maxExpansions : Nat}

theorem InRange.expandCold_eq_best (h : InRange idx) (S : Sorter) (order : HashOrder)
    (query : Bytes) (maxEdits : Nat) (hall : idx.terms.length ≤ maxExpansions) :
    expandCold S order idx query maxEdits maxExpansions = best S order idx query maxEdits := by
  rw [expandCold_eq, List.take_of_length_le, best]
  exact le_trans (h.length_accepted_le order query maxEdits) hall

theorem best_perm (S : Sorter) (order order' : HashOrder) (idx : SymmetricDeleteIndex)
    (query : Bytes) (maxEdits : Nat) :
    (accepted idx.terms query maxEdits (order.visit (idx.candidateIds query maxEdits))).Perm
      (best S order' idx query maxEdits) :=
  (accepted_perm ((order.perm _).trans (order'.perm _).symm)).trans (S.perm _ _).symm

theorem mem_best {S : Sorter} {c : FuzzyCandidate} :
    c ∈ best S order idx query maxEdits ↔
      ∃ id, Found idx query maxEdits id ∧ scored query (idx.terms.getD id []) maxEdits = c := by
  rw [best, S.mem_sort, accepted_eq_foundIds, List.mem_map]
  simp only [mem_foundIds]

/-- The cap leaves the best candidates if it leaves as many of each. -/
theorem expandCold_eq_take {S S' : Sorter} {order' : HashOrder}
    (h : ((accepted idx.terms query maxEdits (order.visit (idx.candidateIds query maxEdits))).take
      m).Perm ((best S' order' idx query maxEdits).take m)) :
    expandCold S order idx query maxEdits m = (best S' order' idx query maxEdits).take m := by
  rw [expandCold_eq]
  exact List.Perm.eq_of_pairwise
    (fun _ _ _ _ hab hba => FuzzyCandidate.rank_injective (le_antisymm hab hba))
    (S.sorted _ FuzzyCandidate.before_iff _) (best_sorted S' order' idx query maxEdits).take
    ((S.perm _ _).trans h)

/-- No more numbers are found than `m`. -/
def AtMost (idx : SymmetricDeleteIndex) (query : Bytes) (maxEdits m : Nat) : Prop :=
  ∀ ids : List Nat, ids.Nodup → (∀ id ∈ ids, Found idx query maxEdits id) → ids.length ≤ m

/-- All numbers found belong to one term. -/
def SameTerm (idx : SymmetricDeleteIndex) (query : Bytes) (maxEdits : Nat) : Prop :=
  ∀ id id', Found idx query maxEdits id → Found idx query maxEdits id' →
    idx.terms.getD id [] = idx.terms.getD id' []

theorem atMost_iff {order : HashOrder} {idx : SymmetricDeleteIndex} {query : Bytes}
    {maxEdits m : Nat} :
    AtMost idx query maxEdits m ↔
      (accepted idx.terms query maxEdits
        (order.visit (idx.candidateIds query maxEdits))).length ≤ m := by
  rw [accepted_eq_foundIds, List.length_map]
  constructor
  · intro h
    exact h _ (nodup_foundIds order idx query maxEdits) fun _ => mem_foundIds.mp
  · intro h ids hnodup hfound
    have hsubset : ids ⊆ foundIds order idx query maxEdits :=
      fun id hid => mem_foundIds.mpr (hfound id hid)
    exact le_trans (List.subperm_of_subset hnodup hsubset).length_le h

theorem sameTerm_iff {S : Sorter} {order : HashOrder} {idx : SymmetricDeleteIndex} {query : Bytes}
    {maxEdits : Nat} :
    SameTerm idx query maxEdits ↔
      ∀ a ∈ best S order idx query maxEdits, ∀ b ∈ best S order idx query maxEdits, a = b := by
  constructor
  · intro h a ha b hb
    obtain ⟨id, hid, rfl⟩ := mem_best.mp ha
    obtain ⟨id', hid', rfl⟩ := mem_best.mp hb
    rw [h id id' hid hid']
  · intro h id id' hid hid'
    exact scored_eq_iff.mp (h _ (mem_best.mpr ⟨id, hid, rfl⟩) _ (mem_best.mpr ⟨id', hid', rfl⟩))

/-- Sorting what a cap leaves gives the best candidates, for every order of the hash set, if and
only if the cap leaves nothing, leaves everything, or all candidates are the same. -/
theorem expandCold_eq_take_iff :
    (∀ S order S' order', expandCold S order idx query maxEdits m =
        (best S' order' idx query maxEdits).take m) ↔
      m = 0 ∨ AtMost idx query maxEdits m ∨ SameTerm idx query maxEdits := by
  constructor
  · intro h
    by_contra hnot
    obtain ⟨hm, hmany, hdifferent⟩ := not_or.mp hnot |>.imp_right not_or.mp
    -- the worst candidates are visited first
    have hworst := h .insertion (worstFirst .insertion idx query maxEdits) .insertion .insertion
    rw [expandCold_eq] at hworst
    have hperm := best_perm .insertion (worstFirst .insertion idx query maxEdits) .insertion idx
      query maxEdits
    have hreverse := List.Perm.eq_of_pairwise
      (fun _ _ _ _ hab hba => FuzzyCandidate.rank_injective (le_antisymm hba hab))
      (accepted_worstFirst .insertion idx query maxEdits)
      (List.pairwise_reverse.mpr (best_sorted .insertion .insertion idx query maxEdits))
      (hperm.trans (List.reverse_perm _).symm)
    refine hdifferent (sameTerm_iff.mpr (all_eq_of_take_perm
      (best_sorted .insertion .insertion idx query maxEdits) hreverse hm ?_ ?_))
    · rw [← hperm.length_eq]
      exact not_le.mp fun hle => hmany (atMost_iff.mpr hle)
    · rw [← hworst]
      exact (Sorter.perm _ _ _).symm
  · intro h S order S' order'
    have hperm := best_perm S' order order' idx query maxEdits
    refine expandCold_eq_take ?_
    rcases h with rfl | hfew | hsame
    · rw [List.take_zero, List.take_zero]
    · have hlen := (@atMost_iff order _ _ _ _).mp hfew
      rwa [List.take_of_length_le hlen, List.take_of_length_le (hperm.length_eq ▸ hlen)]
    · have hbest := (@sameTerm_iff S' order' _ _ _).mp hsame
      have hconstant := List.Perm.eq_of_pairwise (fun _ _ _ _ hab _ => hab)
        (List.pairwise_of_forall_mem_list fun a ha b hb =>
          hbest a (hperm.subset ha) b (hperm.subset hb))
        (List.pairwise_of_forall_mem_list fun a ha b hb => hbest a ha b hb) hperm
      rw [hconstant]

/-! ### Runs -/

/-- An index that differs in its cache at most. -/
def Alike (idx idx' : SymmetricDeleteIndex) : Prop := idx' = { idx with cache := idx'.cache }

/-- The calls of a run that change the index. -/
def Call.changes : Call → Bool
  | .addTerm _ _ => true
  | .expand _ _ _ _ _ => false
  | .reset => true

/-- A run without its expansions leaves the same index, and nothing in the cache. -/
theorem run_filter_changes (calls : List Call) (idx : SymmetricDeleteIndex) :
    run step { idx with cache := [] } (calls.filter Call.changes) =
      { run step idx calls with cache := [] } := by
  induction calls generalizing idx with
  | nil => rfl
  | cons call calls ih =>
    cases call with
    | addTerm term maxEdits =>
      have hsame : SymmetricDeleteIndex.step { idx with cache := [] } (.addTerm term maxEdits) =
          { idx.step (.addTerm term maxEdits) with cache := [] } := by
        simp only [SymmetricDeleteIndex.step, addTerm, foldl_addVariant]
      rw [List.filter_cons_of_pos rfl, run_cons, run_cons, hsame, ih]
    | expand S order query maxEdits maxExpansions =>
      obtain ⟨cache, hcache⟩ := expand_index S order idx query maxEdits maxExpansions
      rw [List.filter_cons_of_neg (by simp [Call.changes]), run_cons, ← ih,
        SymmetricDeleteIndex.step, hcache]
    | reset => exact ih {}

theorem alike_run_filter_changes (calls : List Call) :
    Alike (run step {} calls) (run step {} (calls.filter Call.changes)) := by
  have h := run_filter_changes calls {}
  rw [Alike, h]

theorem Alike.expandCold_eq (h : Alike idx idx') (S : Sorter) (order : HashOrder) (query : Bytes)
    (maxEdits maxExpansions : Nat) :
    expandCold S order idx' query maxEdits maxExpansions =
      expandCold S order idx query maxEdits maxExpansions := by
  rw [h]
  rfl

/-- After a run that leaves the same index an expansion is a cold one on that index. -/
theorem Alike.expand_eq (h : Alike idx (run step {} calls)) (S : Sorter) (order : HashOrder)
    (hquery : query ≠ []) (hedits : maxEdits ≠ 0) (hexpansions : maxExpansions ≠ 0) :
    ∃ S' order', ((run step {} calls).expand S order query maxEdits maxExpansions).2 =
      expandCold S' order' idx query maxEdits maxExpansions := by
  obtain ⟨S', order', hcold⟩ :=
    (cacheCold_run calls).expand_eq S order hquery hedits hexpansions
  exact ⟨S', order', hcold.trans (h.expandCold_eq S' order' query maxEdits maxExpansions)⟩

/-- After the changes of a run alone every sort routine and every order of the hash set has its
say. -/
theorem expand_run_filter_changes (calls : List Call) (S : Sorter) (order : HashOrder)
    (hquery : query ≠ []) (hedits : maxEdits ≠ 0) (hexpansions : maxExpansions ≠ 0) :
    ((run step {} (calls.filter Call.changes)).expand S order query maxEdits maxExpansions).2 =
      expandCold S order (run step {} calls) query maxEdits maxExpansions := by
  have h := run_filter_changes calls {}
  rw [expand, if_neg (by tauto), if_neg hexpansions, h]
  rfl

/-- However the index came about and whatever is in its cache, a capped expansion returns the
first candidates of one without a cap, which are in order. -/
def ReturnsBest (idx : SymmetricDeleteIndex) (query : Bytes) (maxEdits m : Nat) : Prop :=
  ∀ calls calls', Alike idx (run step {} calls) → Alike idx (run step {} calls') →
    ∀ S order S' order' unlimited, idx.terms.length ≤ unlimited →
      ((run step {} calls).expand S order query maxEdits m).2 =
          ((run step {} calls').expand S' order' query maxEdits unlimited).2.take m ∧
        ((run step {} calls').expand S' order' query maxEdits unlimited).2.Pairwise
          fun a b => b.before a = false

/-- Without edits the cap is not looked at. -/
theorem expand_exact (h : Alike idx idx') (S : Sorter) (order : HashOrder) (maxExpansions : Nat)
    (hexact : maxEdits = 0 ∨ query = []) :
    (idx'.expand S order query maxEdits maxExpansions).2 =
      if query ≠ [] ∧ idx.hasTerm query then [⟨query, 1⟩] else [] := by
  rw [expand, if_pos hexact, h]
  rfl

/-- An expansion without a cap returns all that pass, in order. -/
theorem Alike.expand_unlimited (h : Alike idx (run step {} calls)) (S : Sorter) (order : HashOrder)
    {unlimited : Nat} (hquery : query ≠ []) (hedits : maxEdits ≠ 0)
    (hall : idx.terms.length ≤ unlimited) :
    ((run step {} calls).expand S order query maxEdits unlimited).2 =
      best S order idx query maxEdits := by
  have hrange : InRange idx := by
    have hrun := inRange_run calls
    rw [h] at hrun
    exact ⟨hrun.named, hrun.level1, hrun.level2⟩
  by_cases hzero : unlimited = 0
  · subst hzero
    have hnone := le_trans (hrange.length_accepted_le order query maxEdits) hall
    rw [expand, if_neg (by tauto), if_pos rfl]
    refine (List.length_eq_zero_iff.mp ?_).symm
    rw [best, (S.perm _ _).length_eq]
    exact Nat.le_zero.mp hnone
  · obtain ⟨S', order', hcold⟩ := h.expand_eq S order hquery hedits hzero
    rw [hcold, hrange.expandCold_eq_best S' order' query maxEdits hall]
    exact best_eq S' S order' order idx query maxEdits

end SymmetricDeleteIndex

open SymmetricDeleteIndex in
/-- In which cases the cap of `expand` keeps the best candidates. -/
theorem expand_returnsBest_iff (calls : List Call) (query : Bytes) (maxEdits m : Nat) :
    ReturnsBest (run step {} calls) query maxEdits m ↔
      if maxEdits = 0 ∨ query = [] then
        m ≠ 0 ∨ query = [] ∨ (run step {} calls).hasTerm query = false
      else
        m = 0 ∨ AtMost (run step {} calls) query maxEdits m ∨
          SameTerm (run step {} calls) query maxEdits := by
  set idx := run step {} calls with hidx
  have hself : Alike idx (run step {} calls) := by rw [← hidx, Alike]
  split
  · next hexact =>
      have hresult := fun (calls' : List Call) (h : Alike idx (run step {} calls')) =>
        fun S order maxExpansions => expand_exact h S order maxExpansions hexact
      constructor
      · intro h
        have hcut := (h calls calls hself hself .insertion .insertion .insertion .insertion _
          le_rfl).1
        rw [hresult calls hself, hresult calls hself] at hcut
        by_contra hnot
        obtain ⟨hm, hquery, hterm⟩ := not_or.mp hnot |>.imp_right not_or.mp
        rw [not_not.mp hm, if_pos ⟨hquery, Bool.not_eq_false _ ▸ hterm⟩] at hcut
        cases hcut
      · intro h calls₁ calls₂ hcalls₁ hcalls₂ S order S' order' unlimited _
        rw [hresult calls₁ hcalls₁, hresult calls₂ hcalls₂]
        split
        · next hfound =>
            obtain ⟨hquery, hterm⟩ := hfound
            have hm : m ≠ 0 := by
              rcases h with hm | hempty | hnone
              · exact hm
              · exact absurd hempty hquery
              · exact absurd hterm (by rw [hnone]; decide)
            obtain ⟨n, rfl⟩ := Nat.exists_eq_succ_of_ne_zero hm
            rw [List.take_succ_cons, List.take_nil]
            exact ⟨rfl, List.pairwise_singleton _ _⟩
        · exact ⟨List.take_nil.symm, List.Pairwise.nil⟩
  · next hedits =>
      obtain ⟨hedits, hquery⟩ := not_or.mp hedits
      constructor
      · intro h
        by_cases hm : m = 0
        · exact Or.inl hm
        · refine expandCold_eq_take_iff.mp fun S order S' order' => ?_
          have hempty := alike_run_filter_changes calls
          have hcut := (h _ _ hempty hempty S order S' order' _ le_rfl).1
          rw [expand_run_filter_changes calls S order hquery hedits hm,
            hempty.expand_unlimited S' order' hquery hedits le_rfl] at hcut
          exact hcut
      · intro h calls₁ calls₂ hcalls₁ hcalls₂ S order S' order' unlimited hall
        rw [hcalls₂.expand_unlimited S' order' hquery hedits hall]
        refine ⟨?_, (best_sorted S' order' idx query maxEdits).imp fun hle => ?_⟩
        · by_cases hm : m = 0
          · rw [hm, List.take_zero, expand, if_neg (by tauto), if_pos rfl]
          · obtain ⟨S₁, order₁, hcold⟩ := hcalls₁.expand_eq S order hquery hedits hm
            rw [hcold]
            exact expandCold_eq_take_iff.mpr h S₁ order₁ S' order'
        · rw [← Bool.not_eq_true, FuzzyCandidate.before_iff]
          exact not_lt.mpr hle

open SymmetricDeleteIndex in
/-- A cap of one: the term found first is returned, although the query itself is in the index. -/
theorem expand_one_not_best :
    ¬ ReturnsBest
      (run step {} [.addTerm [0x61#8, 0x78#8, 0x62#8, 0x63#8] 2,
        .addTerm [0x61#8, 0x62#8, 0x63#8] 2]) [0x61#8, 0x62#8, 0x63#8] 1 1 := by
  intro h
  have hcut := (h _ _ rfl rfl .insertion .insertion .insertion .insertion 2 (by decide)).1
  revert hcut
  decide +kernel

end KimixNative.Search
