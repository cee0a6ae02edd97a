import Mathlib.Data.List.Basic

/-!
# Common blocks of two lists

A common block is a stretch of places at which two lists hold the same elements. The block that
ends at a pair of places and reaches back as far as a window lets it is found row by row: its
length is one more than that of the block which ends a place earlier in both lists. No common
block of the window is longer than the one that ends where it ends.
-/

namespace KimixNative

variable {α : Type*}

/-- The lists hold the same elements at `n` places, from `i` of the first and `j` of the second. -/
def IsCommon (a b : List α) (i j n : Nat) : Prop :=
  ∀ k < n, ∃ x, a[i + k]? = some x ∧ b[j + k]? = some x

namespace IsCommon

variable {a b : List α} {i j n m : Nat}

theorem zero : IsCommon a b i j 0 := fun _ hk => absurd hk (Nat.not_lt_zero _)

/-- Two blocks that meet in both lists are one block. -/
theorem append (h : IsCommon a b i j n) (h' : IsCommon a b (i + n) (j + n) m) :
    IsCommon a b i j (n + m) := by
  intro k hk
  by_cases hkn : k < n
  · exact h k hkn
  · obtain ⟨x, ha, hb⟩ := h' (k - n) (by omega)
    have hi : i + n + (k - n) = i + k := by omega
    have hj : j + n + (k - n) = j + k := by omega
    exact ⟨x, hi ▸ ha, hj ▸ hb⟩

theorem take (h : IsCommon a b i j (n + m)) : IsCommon a b i j n :=
  fun k hk => h k (Nat.lt_of_lt_of_le hk (Nat.le_add_right n m))

theorem slices_eq (h : IsCommon a b i j n) : (a.drop i).take n = (b.drop j).take n := by
  refine List.ext_getElem? fun k => ?_
  rw [List.getElem?_take, List.getElem?_take]
  split
  · next hk =>
      obtain ⟨x, ha, hb⟩ := h k hk
      rw [List.getElem?_drop, List.getElem?_drop, ha, hb]
  · rfl

end IsCommon

/-- The lists hold the same element at a place of each. -/
def Agree (a b : List α) (i j : Nat) : Prop := a[i]?.isSome ∧ a[i]? = b[j]?

instance [DecidableEq α] (a b : List α) (i j : Nat) : Decidable (Agree a b i j) :=
  inferInstanceAs (Decidable (_ ∧ _))

theorem agree_iff {a b : List α} {i j : Nat} :
    Agree a b i j ↔ ∃ x, a[i]? = some x ∧ b[j]? = some x := by
  constructor
  · rintro ⟨hsome, heq⟩
    obtain ⟨x, hx⟩ := Option.isSome_iff_exists.mp hsome
    exact ⟨x, hx, heq ▸ hx⟩
  · rintro ⟨x, ha, hb⟩
    exact ⟨Option.isSome_iff_exists.mpr ⟨x, ha⟩, ha.trans hb.symm⟩

theorem Agree.isCommon {a b : List α} {i j : Nat} (h : Agree a b i j) : IsCommon a b i j 1 := by
  intro k hk
  obtain rfl : k = 0 := by omega
  exact agree_iff.mp h

section Runs

variable [DecidableEq α]

/-- The length of the common block of the window from `alo` and `blo` on that ends with the last
of `rows` rows and the column `column`. -/
def commonRun (a b : List α) (alo blo : Nat) : Nat → Nat → Nat
  | 0, _ => 0
  | row + 1, 0 => if Agree a b (alo + row) blo then 1 else 0
  | row + 1, column + 1 =>
    if Agree a b (alo + row) (blo + (column + 1)) then commonRun a b alo blo row column + 1
    else 0

variable {a b : List α} {alo blo : Nat}

theorem commonRun_le (a b : List α) (alo blo rows column : Nat) :
    commonRun a b alo blo rows column ≤ rows ∧ commonRun a b alo blo rows column ≤ column + 1 := by
  induction rows generalizing column with
  | zero => exact ⟨Nat.le_refl 0, Nat.zero_le _⟩
  | succ row ih =>
    cases column with
    | zero =>
      rw [commonRun]
      split <;> omega
    | succ column =>
      have := ih column
      rw [commonRun]
      split <;> omega

/-- What a run counts is a common block. -/
theorem commonRun_isCommon (a b : List α) (alo blo rows column : Nat) :
    IsCommon a b (alo + rows - commonRun a b alo blo rows column)
      (blo + column + 1 - commonRun a b alo blo rows column)
      (commonRun a b alo blo rows column) := by
  induction rows generalizing column with
  | zero => exact .zero
  | succ row ih =>
    cases column with
    | zero =>
      rw [commonRun]
      split
      · next h => exact h.isCommon
      · exact .zero
    | succ column =>
      rw [commonRun]
      split
      · next h =>
          have hle := commonRun_le a b alo blo row column
          have hrun := ih column
          set n := commonRun a b alo blo row column with hn
          have hi : alo + (row + 1) - (n + 1) = alo + row - n := by omega
          have hj : blo + (column + 1) + 1 - (n + 1) = blo + column + 1 - n := by omega
          have hi' : alo + row - n + n = alo + row := by omega
          have hj' : blo + column + 1 - n + n = blo + (column + 1) := by omega
          rw [hi, hj]
          refine hrun.append ?_
          rw [hi', hj']
          exact h.isCommon
      · exact .zero

/-- A common block of the window is counted where it ends. -/
theorem le_commonRun {row column n : Nat} (h : IsCommon a b (alo + row) (blo + column) (n + 1)) :
    n + 1 ≤ commonRun a b alo blo (row + n + 1) (column + n) := by
  have hagree : Agree a b (alo + (row + n)) (blo + (column + n)) := by
    rw [← Nat.add_assoc, ← Nat.add_assoc]
    exact agree_iff.mpr (h n (Nat.lt_succ_self n))
  induction n with
  | zero =>
    cases column with
    | zero =>
      exact Nat.le_of_eq (if_pos (by simpa using hagree)).symm
    | succ column =>
      rw [Nat.add_zero, Nat.add_zero] at hagree ⊢
      rw [commonRun, if_pos hagree]
      omega
  | succ n ih =>
    have hprev := ih h.take (agree_iff.mpr (by simpa only [Nat.add_assoc] using h n (by omega)))
    have hcolumn : column + (n + 1) = column + n + 1 := by omega
    rw [hcolumn] at hagree ⊢
    rw [commonRun, if_pos hagree]
    exact Nat.succ_le_succ hprev

end Runs

end KimixNative
