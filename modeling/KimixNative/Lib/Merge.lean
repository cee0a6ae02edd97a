import Mathlib.Data.List.Sort
import Mathlib.Data.List.Flatten

/-!
# Sorting and merging

`Sorter` is a sort routine as its callers see it: the result is a permutation of the
input and is ordered by the key the comparison compares. Which of several elements with
equal keys comes first is left open, as an unstable sort leaves it.

`kWayMerge` repeatedly takes the first source with the least head. The cursors of an
implementation are represented by what is left of each source.
-/

namespace KimixNative

/-- A comparison sort, not necessarily stable. -/
structure Sorter where
  sort : {α : Type} → (α → α → Bool) → List α → List α
  perm : ∀ {α : Type} (lt : α → α → Bool) (l : List α), (sort lt l).Perm l
  sorted : ∀ {α κ : Type} [LinearOrder κ] (key : α → κ) {lt : α → α → Bool},
    (∀ a b, lt a b = true ↔ key a < key b) → ∀ l : List α,
      (sort lt l).Pairwise fun a b => key a ≤ key b

namespace Sorter

/-- Insertion sort is one. -/
def insertion : Sorter where
  sort lt l := l.insertionSort fun a b => lt b a = false
  perm lt l := l.perm_insertionSort _
  sorted {_ _ _} key {lt} hlt l := by
    have hle : ∀ a b, lt b a = false ↔ key a ≤ key b := fun a b => by
      rw [← not_lt, ← hlt, Bool.not_eq_true]
    have total : Std.Total fun a b => lt b a = false :=
      ⟨fun a b => by simpa only [hle] using le_total (key a) (key b)⟩
    have trans : IsTrans _ fun a b => lt b a = false :=
      ⟨fun a b c hab hbc => (hle a c).mpr (((hle a b).mp hab).trans ((hle b c).mp hbc))⟩
    exact (l.pairwise_insertionSort _).imp fun h => (hle _ _).mp h

theorem mem_sort (S : Sorter) {α : Type} {lt : α → α → Bool} {l : List α} {a : α} :
    a ∈ S.sort lt l ↔ a ∈ l :=
  (S.perm lt l).mem_iff

/-- With a key that tells elements apart, the order of the input does not matter. -/
theorem sort_eq_of_perm (S : Sorter) {α κ : Type} [LinearOrder κ] {key : α → κ}
    {lt : α → α → Bool} (hlt : ∀ a b, lt a b = true ↔ key a < key b)
    (inj : Function.Injective key) {l l' : List α} (h : l.Perm l') :
    S.sort lt l = S.sort lt l' :=
  List.Perm.eq_of_pairwise (fun _ _ _ _ hab hba => inj (le_antisymm hab hba))
    (S.sorted key hlt l) (S.sorted key hlt l')
    ((S.perm lt l).trans (h.trans (S.perm lt l').symm))

end Sorter

/-! ## Merging sorted sources -/

section KWayMerge

variable {α κ : Type*} [LinearOrder κ] (key : α → κ)

/-- The scan of one round: the position and the key of the best head so far. A later
head replaces it only when it is strictly less. -/
def bestSource : List (List α) → Nat → Option (Nat × κ) → Option (Nat × κ)
  | [], _, best => best
  | [] :: rest, i, best => bestSource rest (i + 1) best
  | (a :: _) :: rest, i, best =>
    if best.all (fun b => decide (key a < b.2)) then bestSource rest (i + 1) (some (i, key a))
    else bestSource rest (i + 1) best

/-- The rounds of a merge. -/
def mergeLoop : Nat → List (List α) → List α
  | 0, _ => []
  | fuel + 1, sources =>
    match bestSource key sources 0 none with
    | none => []
    | some (i, _) =>
      match sources[i]? with
      | some (a :: rest) => a :: mergeLoop fuel (sources.set i rest)
      | _ => []

/-- Merge sources by key. Each round takes one element, so there are as many rounds as
elements. -/
def kWayMerge (sources : List (List α)) : List α := mergeLoop key sources.flatten.length sources

variable {key}

variable {sources : List (List α)}

variable {best : Option (Nat × κ)}

theorem bestSource_none {i : Nat} (h : bestSource key sources i best = none) :
    best = none ∧ sources.flatten = [] := by
  induction sources generalizing i best with
  | nil => exact ⟨h, rfl⟩
  | cons src rest ih =>
    cases src with
    | nil => simpa using ih h
    | cons a tl =>
      rw [bestSource] at h
      split at h
      · exact absurd (ih h).1 (by simp)
      · next hb =>
          rw [(ih h).1] at hb
          simp at hb

/-- The result names a source with a head of that key, or is the one carried in. -/
theorem bestSource_source {i j : Nat} {k : κ} (h : bestSource key sources i best = some (j, k)) :
    best = some (j, k) ∨
      ∃ n a tl, j = i + n ∧ sources[n]? = some (a :: tl) ∧ key a = k := by
  induction sources generalizing i best with
  | nil => exact .inl h
  | cons src rest ih =>
    have lift : (∃ n a tl, j = i + 1 + n ∧ rest[n]? = some (a :: tl) ∧ key a = k) →
        ∃ n a tl, j = i + n ∧ (src :: rest)[n]? = some (a :: tl) ∧ key a = k := by
      rintro ⟨n, a, tl, hj, hn, hk⟩
      exact ⟨n + 1, a, tl, by omega, by simpa using hn, hk⟩
    cases src with
    | nil => exact (ih h).imp_right lift
    | cons a tl =>
      rw [bestSource] at h
      split at h
      · obtain hb | hr := ih h
        · obtain ⟨rfl, rfl⟩ := Prod.mk.inj (Option.some.inj hb)
          exact .inr ⟨0, a, tl, rfl, rfl, rfl⟩
        · exact .inr (lift hr)
      · exact (ih h).imp_right lift

/-- No head is less than the result. -/
theorem bestSource_le {i j : Nat} {k : κ} (h : bestSource key sources i best = some (j, k)) :
    (∀ b ∈ best, k ≤ b.2) ∧ ∀ a tl, a :: tl ∈ sources → k ≤ key a := by
  induction sources generalizing i best with
  | nil =>
    refine ⟨fun b hb => ?_, fun a tl hmem => by simp at hmem⟩
    rw [bestSource, hb] at h
    simp [Option.some.inj h]
  | cons src rest ih =>
    cases src with
    | nil =>
      obtain ⟨hbest, hrest⟩ := ih h
      exact ⟨hbest, fun a tl hmem => hrest a tl (by simpa using hmem)⟩
    | cons a tl =>
      rw [bestSource] at h
      split at h
      · next hlt =>
          obtain ⟨hbest, hrest⟩ := ih h
          have hk : k ≤ key a := hbest (i, key a) rfl
          refine ⟨fun b hb => ?_, fun a' tl' hmem => ?_⟩
          · rw [hb] at hlt
            exact hk.trans (by simpa using hlt : key a < b.2).le
          · obtain heq | hmem := List.mem_cons.mp hmem
            · cases heq
              exact hk
            · exact hrest a' tl' hmem
      · next hlt =>
          obtain ⟨hbest, hrest⟩ := ih h
          refine ⟨hbest, fun a' tl' hmem => ?_⟩
          obtain heq | hmem := List.mem_cons.mp hmem
          · cases heq
            cases best with
            | none => simp at hlt
            | some b =>
              have hle : b.2 ≤ key a := by simpa using hlt
              exact (hbest b rfl).trans hle
          · exact hrest a' tl' hmem

/-- Taking the head of one source takes one element out of all of them. -/
theorem flatten_set_perm {i : Nat} {a : α} {rest : List α} (h : sources[i]? = some (a :: rest)) :
    sources.flatten.Perm (a :: (sources.set i rest).flatten) := by
  induction sources generalizing i with
  | nil => simp at h
  | cons src tl ih =>
    cases i with
    | zero =>
      simp only [List.getElem?_cons_zero, Option.some.injEq] at h
      simp [h]
    | succ i =>
      simp only [List.getElem?_cons_succ] at h
      simp only [List.set_cons_succ, List.flatten_cons]
      exact ((ih h).append_left src).trans List.perm_middle

private theorem mergeLoop_perm (fuel : Nat) (sources : List (List α))
    (enough : sources.flatten.length ≤ fuel) :
    (mergeLoop key fuel sources).Perm sources.flatten := by
  induction fuel generalizing sources with
  | zero => simp [mergeLoop, List.length_eq_zero_iff.mp (Nat.le_zero.mp enough)]
  | succ fuel ih =>
    rw [mergeLoop]
    cases hbest : bestSource key sources 0 none with
    | none => simp [(bestSource_none hbest).2]
    | some b =>
      obtain ⟨i, k⟩ := b
      obtain hnone | ⟨n, a, tl, hi, hn, -⟩ := bestSource_source hbest
      · cases hnone
      · rw [Nat.zero_add] at hi
        subst hi
        have htake := flatten_set_perm hn
        have hlen : (sources.set i tl).flatten.length ≤ fuel := by
          have := htake.length_eq
          rw [List.length_cons] at this
          omega
        simp only [hn]
        exact ((ih _ hlen).cons a).trans htake.symm

/-- A merge loses and invents nothing. -/
theorem kWayMerge_perm (sources : List (List α)) :
    (kWayMerge key sources).Perm sources.flatten :=
  mergeLoop_perm _ _ le_rfl

private theorem mergeLoop_sorted (fuel : Nat) (sources : List (List α))
    (enough : sources.flatten.length ≤ fuel)
    (h : ∀ src ∈ sources, src.Pairwise fun a b => key a ≤ key b) :
    (mergeLoop key fuel sources).Pairwise fun a b => key a ≤ key b := by
  induction fuel generalizing sources with
  | zero => simp [mergeLoop]
  | succ fuel ih =>
    rw [mergeLoop]
    cases hbest : bestSource key sources 0 none with
    | none => simp
    | some b =>
      obtain ⟨i, k⟩ := b
      obtain hnone | ⟨n, a, tl, hi, hn, hk⟩ := bestSource_source hbest
      · cases hnone
      · rw [Nat.zero_add] at hi
        subst hi hk
        have htake := flatten_set_perm hn
        have hlen : (sources.set i tl).flatten.length ≤ fuel := by
          have := htake.length_eq
          rw [List.length_cons] at this
          omega
        have hrest : ∀ src ∈ sources.set i tl, src.Pairwise fun a b => key a ≤ key b := by
          intro src hsrc
          obtain hmem | rfl := List.mem_or_eq_of_mem_set hsrc
          · exact h src hmem
          · exact (h _ (List.mem_of_getElem? hn)).tail
        simp only [hn]
        refine List.pairwise_cons.mpr ⟨fun b hb => ?_, ih _ hlen hrest⟩
        -- The head is least among the heads, and each source only grows from its head.
        have hb' := htake.mem_iff.mpr
          (List.mem_cons_of_mem a ((mergeLoop_perm _ _ hlen).mem_iff.mp hb))
        obtain ⟨src, hsrc, hbs⟩ := List.mem_flatten.mp hb'
        cases src with
        | nil => simp at hbs
        | cons c cs =>
          have hac : key a ≤ key c := (bestSource_le hbest).2 c cs hsrc
          obtain rfl | hcs := List.mem_cons.mp hbs
          · exact hac
          · exact hac.trans (List.rel_of_pairwise_cons (h _ hsrc) hcs)

/-- The merge of sorted sources is sorted. -/
theorem kWayMerge_sorted (h : ∀ src ∈ sources, src.Pairwise fun a b => key a ≤ key b) :
    (kWayMerge key sources).Pairwise fun a b => key a ≤ key b :=
  mergeLoop_sorted _ _ le_rfl h

end KWayMerge

end KimixNative
