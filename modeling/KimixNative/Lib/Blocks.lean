import Mathlib.Data.List.TakeDrop

/-!
# Absorbing a sequence block by block

A digest takes its input in blocks of a fixed size and keeps what is left over. Whether the
input comes at once or in parts, with the rest of one part in front of the next, the same
blocks are taken.
-/

namespace KimixNative

variable {α S : Type*}

/-- Take `count` blocks; what is left comes with the state. -/
def absorbBlocks (size : Nat) (process : S → List α → S) : Nat → S → List α → S × List α
  | 0, s, xs => (s, xs)
  | count + 1, s, xs => absorbBlocks size process count (process s (xs.take size)) (xs.drop size)

/-- Take all the complete blocks. -/
def absorb (size : Nat) (process : S → List α → S) (s : S) (xs : List α) : S × List α :=
  absorbBlocks size process (xs.length / size) s xs

variable {size : Nat} {process : S → List α → S}

theorem absorb_short (s : S) {xs : List α} (h : xs.length < size) :
    absorb size process s xs = (s, xs) := by
  rw [absorb, Nat.div_eq_of_lt h]
  rfl

theorem absorb_step (hpos : 0 < size) (s : S) {xs : List α} (h : size ≤ xs.length) :
    absorb size process s xs = absorb size process (process s (xs.take size)) (xs.drop size) := by
  obtain ⟨count, hcount⟩ : ∃ count, xs.length / size = count + 1 :=
    Nat.exists_eq_succ_of_ne_zero (Nat.pos_iff_ne_zero.mp (Nat.div_pos h hpos))
  have hrest : (xs.drop size).length / size = count := by
    rw [List.length_drop, Nat.div_eq_sub_div hpos h] at *
    omega
  rw [absorb, absorb, hcount, hrest]
  rfl

theorem absorb_block (hpos : 0 < size) (s : S) {block rest : List α} (h : block.length = size) :
    absorb size process s (block ++ rest) = absorb size process (process s block) rest := by
  have hle : size ≤ (block ++ rest).length := by
    rw [List.length_append]
    omega
  rw [absorb_step hpos s hle, ← h, List.take_left, List.drop_left]

/-- What is left over is less than a block. -/
theorem absorb_rest_lt (hpos : 0 < size) (s : S) (xs : List α) :
    (absorb size process s xs).2.length < size := by
  induction hn : xs.length using Nat.strongRecOn generalizing s xs with
  | _ n ih =>
    by_cases h : xs.length < size
    · rw [absorb_short s h]
      exact h
    · have hle := Nat.le_of_not_lt h
      rw [absorb_step hpos s hle]
      exact ih _ (by rw [List.length_drop]; omega) _ _ rfl

/-- An input in two parts: the rest of the first goes in front of the second. -/
theorem absorb_append (hpos : 0 < size) (s : S) (xs ys : List α) :
    absorb size process s (xs ++ ys) =
      absorb size process (absorb size process s xs).1 ((absorb size process s xs).2 ++ ys) := by
  induction hn : xs.length using Nat.strongRecOn generalizing s xs with
  | _ n ih =>
    by_cases h : xs.length < size
    · rw [absorb_short s h]
    · have hle := Nat.le_of_not_lt h
      have hlen : (xs.take size).length = size := List.length_take_of_le hle
      have hsplit : xs ++ ys = xs.take size ++ (xs.drop size ++ ys) := by
        rw [← List.append_assoc, List.take_append_drop]
      rw [hsplit, absorb_block hpos s hlen, absorb_step hpos s hle]
      exact ih _ (by rw [List.length_drop]; omega) _ _ rfl

end KimixNative
