import Mathlib.Algebra.Order.Group.Multiset
import Mathlib.Algebra.Order.Sub.Unbundled.Basic
import Mathlib.Data.List.Infix

/-!
# Optimal string alignment

The distance counts insertions, deletions and substitutions of elements and swaps of two
neighbours, no element being edited twice. It is defined along the heads of two lists; a table
over the prefixes of two texts computes it for the reversed texts.

Three facts are used of it. The least distance to the suffixes of a list does not fall when the
other list grows, so a table may be left as soon as a whole row is over a bound. It is at least
half of what the bags of elements differ by. And two lists at distance `d` have a common sublist
that lacks at most `d` elements of each.
-/

namespace KimixNative

variable {α : Type*} [DecidableEq α]

/-- The cost of an insertion, a deletion or a substitution at the heads, whichever is least. -/
def editCost (x y : α) (insert delete substitute : Nat) : Nat :=
  min (insert + 1) (min (delete + 1) (substitute + if x = y then 0 else 1))

/-- The optimal string alignment distance. -/
def osa : List α → List α → Nat
  | [], ys => ys.length
  | x :: xs, [] => (x :: xs).length
  | x :: xs, y :: ys =>
    let v := editCost x y (osa (x :: xs) ys) (osa xs (y :: ys)) (osa xs ys)
    match xs, ys with
    | x' :: xs', y' :: ys' => if x = y' ∧ x' = y then min v (osa xs' ys' + 1) else v
    | _, _ => v
termination_by xs ys => xs.length + ys.length

@[simp] theorem osa_nil_left (ys : List α) : osa [] ys = ys.length := by rw [osa]

@[simp] theorem osa_nil_right (xs : List α) : osa xs [] = xs.length := by
  cases xs with
  | nil => rw [osa]
  | cons x xs => rw [osa]

theorem osa_cons_singleton (x y : α) (xs : List α) :
    osa (x :: xs) [y] = editCost x y (osa (x :: xs) []) (osa xs [y]) (osa xs []) := by
  conv_lhs => unfold osa
  cases xs <;> rfl

theorem osa_singleton_cons (x y : α) (ys : List α) :
    osa [x] (y :: ys) = editCost x y (osa [x] ys) (osa [] (y :: ys)) (osa [] ys) := by
  conv_lhs => unfold osa

theorem osa_cons_cons (x x' y y' : α) (xs ys : List α) :
    osa (x :: x' :: xs) (y :: y' :: ys) =
      let v := editCost x y (osa (x :: x' :: xs) (y' :: ys)) (osa (x' :: xs) (y :: y' :: ys))
        (osa (x' :: xs) (y' :: ys))
      if x = y' ∧ x' = y then min v (osa xs ys + 1) else v := by
  conv_lhs => rw [osa]

/-- How a distance comes about: by what happens to the heads. -/
inductive OsaStep (x y : α) (xs ys : List α) : Nat → Prop
  | insert : OsaStep x y xs ys (osa (x :: xs) ys + 1)
  | delete : OsaStep x y xs ys (osa xs (y :: ys) + 1)
  | keep (h : x = y) : OsaStep x y xs ys (osa xs ys)
  | substitute (h : x ≠ y) : OsaStep x y xs ys (osa xs ys + 1)
  | swap (xs' ys' : List α) (hxs : xs = y :: xs') (hys : ys = x :: ys') :
      OsaStep x y xs ys (osa xs' ys' + 1)

theorem osaStep_editCost (x y : α) (xs ys : List α) :
    OsaStep x y xs ys (editCost x y (osa (x :: xs) ys) (osa xs (y :: ys)) (osa xs ys)) := by
  have hedit : OsaStep x y xs ys (osa xs ys + if x = y then 0 else 1) := by
    split
    · exact .keep ‹_›
    · exact .substitute ‹_›
  rw [editCost]
  rcases min_choice (osa (x :: xs) ys + 1)
    (min (osa xs (y :: ys) + 1) (osa xs ys + if x = y then 0 else 1)) with h | h
  · rw [h]
    exact .insert
  · rw [h]
    rcases min_choice (osa xs (y :: ys) + 1) (osa xs ys + if x = y then 0 else 1) with h' | h'
    · rw [h']
      exact .delete
    · rwa [h']

theorem osaStep_osa (x y : α) (xs ys : List α) : OsaStep x y xs ys (osa (x :: xs) (y :: ys)) := by
  have hedit := osaStep_editCost x y xs ys
  cases xs with
  | nil => rwa [osa_singleton_cons]
  | cons x' xs =>
    cases ys with
    | nil => rwa [osa_cons_singleton]
    | cons y' ys =>
      rw [osa_cons_cons]
      dsimp only
      split
      · next hswap =>
          obtain ⟨rfl, rfl⟩ := hswap
          rcases min_choice (editCost x x' (osa (x :: x' :: xs) (x :: ys))
            (osa (x' :: xs) (x' :: x :: ys)) (osa (x' :: xs) (x :: ys))) (osa xs ys + 1)
            with h | h
          · rwa [h]
          · rw [h]
            exact .swap xs ys rfl rfl
      · exact hedit

/-- A substitution is always possible. -/
theorem osa_cons_cons_le (x y : α) (xs ys : List α) :
    osa (x :: xs) (y :: ys) ≤ osa xs ys + 1 := by
  have hedit : editCost x y (osa (x :: xs) ys) (osa xs (y :: ys)) (osa xs ys) ≤ osa xs ys + 1 := by
    refine le_trans (min_le_right _ _) (le_trans (min_le_right _ _) ?_)
    split <;> omega
  cases xs with
  | nil => rwa [osa_singleton_cons]
  | cons x' xs =>
    cases ys with
    | nil => rwa [osa_cons_singleton]
    | cons y' ys =>
      rw [osa_cons_cons]
      dsimp only
      split
      · exact le_trans (min_le_left _ _) hedit
      · exact hedit

/-! ### Rows of the table -/

/-- A row of the table reaches at least as low as the next one: a swap, which reads two rows
back, is not cheaper than what the row between offers. -/
theorem exists_suffix_osa_le (x : α) (xs ys : List α) :
    ∃ ys', ys' <:+ ys ∧ osa xs ys' ≤ osa (x :: xs) ys := by
  induction ys with
  | nil => exact ⟨[], List.suffix_refl [], by simp⟩
  | cons y ys ih =>
    have hstep := osaStep_osa x y xs ys
    generalize osa (x :: xs) (y :: ys) = d at hstep
    cases hstep with
    | insert =>
      obtain ⟨ys', hsuffix, hle⟩ := ih
      exact ⟨ys', hsuffix.trans (List.suffix_cons y ys), by omega⟩
    | delete => exact ⟨y :: ys, List.suffix_refl _, by omega⟩
    | keep h => exact ⟨ys, List.suffix_cons y ys, by omega⟩
    | substitute h => exact ⟨ys, List.suffix_cons y ys, by omega⟩
    | swap xs' ys' hxs hys =>
      subst hxs hys
      exact ⟨x :: ys', List.suffix_cons y _, osa_cons_cons_le y x xs' ys'⟩

/-- Once a row is over a bound, all further rows are. -/
theorem lt_osa_append {k : Nat} {xs ys : List α} (h : ∀ ys', ys' <:+ ys → k < osa xs ys')
    (more : List α) : ∀ ys', ys' <:+ ys → k < osa (more ++ xs) ys' := by
  induction more with
  | nil => exact h
  | cons x more ih =>
    intro ys' hys'
    obtain ⟨ys'', hsuffix, hle⟩ := exists_suffix_osa_le x (more ++ xs) ys'
    exact lt_of_lt_of_le (ih ys'' (hsuffix.trans hys')) hle

/-! ### Bags of elements -/

/-- By how many elements two bags differ. -/
def bagDistance (s t : Multiset α) : Nat := (s - t).card + (t - s).card

theorem bagDistance_comm (s t : Multiset α) : bagDistance s t = bagDistance t s :=
  Nat.add_comm _ _

theorem bagDistance_cons_cons (x : α) (s t : Multiset α) :
    bagDistance (x ::ₘ s) (x ::ₘ t) = bagDistance s t := by
  simp only [bagDistance, ← Multiset.singleton_add, add_tsub_add_eq_tsub_left]

theorem bagDistance_cons_left (x : α) (s t : Multiset α) :
    bagDistance (x ::ₘ s) t ≤ bagDistance s t + 1 := by
  have hmore : (x ::ₘ s - t).card ≤ (s - t).card + 1 := by
    rw [← Multiset.card_cons x (s - t)]
    refine Multiset.card_le_card ?_
    rw [← Multiset.singleton_add, ← Multiset.singleton_add]
    exact add_tsub_le_assoc
  have hless : (t - x ::ₘ s).card ≤ (t - s).card :=
    Multiset.card_le_card (tsub_le_tsub_left (Multiset.le_cons_self s x) t)
  rw [bagDistance, bagDistance]
  omega

theorem bagDistance_cons_right (y : α) (s t : Multiset α) :
    bagDistance s (y ::ₘ t) ≤ bagDistance s t + 1 := by
  rw [bagDistance_comm, bagDistance_comm s t]
  exact bagDistance_cons_left y t s

/-- No edit changes what two bags differ by by more than two. -/
theorem bagDistance_le_osa (xs ys : List α) :
    bagDistance (xs : Multiset α) (ys : Multiset α) ≤ 2 * osa xs ys := by
  induction h : xs.length + ys.length using Nat.strong_induction_on generalizing xs ys with
  | _ n ih =>
    subst h
    cases xs with
    | nil =>
      simp only [Multiset.coe_nil, bagDistance, Multiset.zero_sub, Multiset.sub_zero,
        Multiset.coe_card, Multiset.card_zero, osa_nil_left]
      omega
    | cons x xs =>
      cases ys with
      | nil =>
        simp only [Multiset.coe_nil, bagDistance, Multiset.zero_sub, Multiset.sub_zero,
          Multiset.coe_card, Multiset.card_zero, osa_nil_right]
        omega
      | cons y ys =>
        have hdecreases : ∀ {us vs : List α}, us.length + vs.length <
            (x :: xs).length + (y :: ys).length →
            bagDistance (us : Multiset α) (vs : Multiset α) ≤ 2 * osa us vs :=
          fun hlt => ih _ hlt _ _ rfl
        have hstep := osaStep_osa x y xs ys
        generalize osa (x :: xs) (y :: ys) = d at hstep
        rw [← Multiset.cons_coe, ← Multiset.cons_coe]
        cases hstep with
        | insert =>
          have hrest := @hdecreases (x :: xs) ys (by simp)
          have hy := bagDistance_cons_right y (x ::ₘ (xs : Multiset α)) ys
          rw [← Multiset.cons_coe] at hrest
          omega
        | delete =>
          have hrest := @hdecreases xs (y :: ys) (by simp)
          have hx := bagDistance_cons_left x (xs : Multiset α) (y ::ₘ (ys : Multiset α))
          rw [← Multiset.cons_coe] at hrest
          omega
        | keep h =>
          subst h
          rw [bagDistance_cons_cons]
          exact @hdecreases xs ys (by simp; omega)
        | substitute h =>
          have hrest := @hdecreases xs ys (by simp; omega)
          have hx := bagDistance_cons_left x (xs : Multiset α) (y ::ₘ (ys : Multiset α))
          have hy := bagDistance_cons_right y (xs : Multiset α) ys
          omega
        | swap xs' ys' hxs hys =>
          subst hxs hys
          have hrest := @hdecreases xs' ys' (by simp; omega)
          rw [← Multiset.cons_coe, ← Multiset.cons_coe, Multiset.cons_swap,
            bagDistance_cons_cons, bagDistance_cons_cons]
          omega

/-! ### Common sublists -/

/-- Lists at distance `d` have a common sublist that lacks at most `d` elements of each. -/
theorem exists_common_sublist (xs ys : List α) :
    ∃ v : List α, v.Sublist xs ∧ v.Sublist ys ∧ xs.length ≤ v.length + osa xs ys ∧
      ys.length ≤ v.length + osa xs ys := by
  induction h : xs.length + ys.length using Nat.strong_induction_on generalizing xs ys with
  | _ n ih =>
    subst h
    cases xs with
    | nil => exact ⟨[], List.nil_sublist _, List.nil_sublist _, by simp, by simp⟩
    | cons x xs =>
      cases ys with
      | nil => exact ⟨[], List.nil_sublist _, List.nil_sublist _, by simp, by simp⟩
      | cons y ys =>
        have hstep := osaStep_osa x y xs ys
        generalize osa (x :: xs) (y :: ys) = d at hstep
        simp only [List.length_cons] at ih ⊢
        cases hstep with
        | insert =>
          obtain ⟨v, hx, hy, hlx, hly⟩ := ih _ (by simp) (x :: xs) ys rfl
          simp only [List.length_cons] at hlx
          exact ⟨v, hx, hy.cons y, by omega, by omega⟩
        | delete =>
          obtain ⟨v, hx, hy, hlx, hly⟩ := ih _ (by simp) xs (y :: ys) rfl
          simp only [List.length_cons] at hly
          exact ⟨v, hx.cons x, hy, by omega, by omega⟩
        | keep h =>
          subst h
          obtain ⟨v, hx, hy, hlx, hly⟩ := ih _ (by omega) xs ys rfl
          exact ⟨x :: v, hx.cons_cons x, hy.cons_cons x, by simp; omega, by simp; omega⟩
        | substitute h =>
          obtain ⟨v, hx, hy, hlx, hly⟩ := ih _ (by omega) xs ys rfl
          exact ⟨v, hx.cons x, hy.cons y, by omega, by omega⟩
        | swap xs' ys' hxs hys =>
          subst hxs hys
          obtain ⟨v, hx, hy, hlx, hly⟩ := ih _ (by simp; omega) xs' ys' rfl
          -- one of the two swapped elements is kept
          exact ⟨x :: v, (hx.cons y).cons_cons x, (hy.cons_cons x).cons y, by simp; omega,
            by simp; omega⟩

/-! ### Deletions -/

section Deletions

omit [DecidableEq α]

variable {s v : List α}

/-- A sublist that is shorter is left by one deletion from a sublist. -/
theorem exists_sublist_eq_eraseIdx (h : v.Sublist s) (hlt : v.length < s.length) :
    ∃ w : List α, w.Sublist s ∧ ∃ i < w.length, v = w.eraseIdx i := by
  induction h with
  | slnil => exact absurd hlt (Nat.lt_irrefl 0)
  | @cons v s a h ih => exact ⟨a :: v, h.cons_cons a, 0, by simp, rfl⟩
  | @cons_cons v s a h ih =>
    obtain ⟨w, hw, i, hi, rfl⟩ := ih (by simpa using hlt)
    exact ⟨a :: w, hw.cons_cons a, i + 1, by simpa using hi, rfl⟩

/-- A sublist that lacks one element is left by one deletion. -/
theorem exists_eq_eraseIdx (h : v.Sublist s) (hlen : s.length = v.length + 1) :
    ∃ i < s.length, v = s.eraseIdx i := by
  obtain ⟨w, hw, i, hi, rfl⟩ := exists_sublist_eq_eraseIdx h (by omega)
  rw [List.length_eraseIdx_of_lt hi] at hlen
  obtain rfl := hw.eq_of_length (by omega)
  exact ⟨i, hi, rfl⟩

/-- A sublist that lacks two elements is left by deleting at two places. -/
theorem exists_eq_eraseIdx_eraseIdx (h : v.Sublist s) (hlen : s.length = v.length + 2) :
    ∃ p q, p < q ∧ q < s.length ∧ v = (s.eraseIdx q).eraseIdx p := by
  induction h with
  | slnil => cases hlen
  | @cons v s a h ih =>
    obtain ⟨i, hi, rfl⟩ := exists_eq_eraseIdx h (by simpa using hlen)
    exact ⟨0, i + 1, by omega, by simpa using hi, rfl⟩
  | @cons_cons v s a h ih =>
    obtain ⟨p, q, hpq, hq, rfl⟩ := ih (by simpa using hlen)
    exact ⟨p + 1, q + 1, by omega, by simpa using hq, rfl⟩

end Deletions

end KimixNative
