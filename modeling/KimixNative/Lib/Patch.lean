import Mathlib.Data.List.Basic

/-!
# Patches of a list

A patch is a list of replacements. It is applied from left to right, and only where what is to be
replaced stands. `Explains` says that two lists agree between the replacements of a patch; then the
patch turns one into the other.
-/

namespace KimixNative

variable {α : Type*}

/-- The elements from `i` up to `j`. -/
def stretch (l : List α) (i j : Nat) : List α := (l.drop i).take (j - i)

theorem stretch_append (l : List α) {i j k : Nat} (hij : i ≤ j) (hjk : j ≤ k) :
    stretch l i j ++ stretch l j k = stretch l i k := by
  obtain ⟨m, rfl⟩ := Nat.exists_eq_add_of_le hij
  obtain ⟨n, rfl⟩ := Nat.exists_eq_add_of_le hjk
  rw [stretch, stretch, stretch, Nat.add_sub_cancel_left, Nat.add_sub_cancel_left, Nat.add_assoc,
    Nat.add_sub_cancel_left, List.take_add, List.drop_drop]

@[simp] theorem stretch_self (l : List α) (i : Nat) : stretch l i i = [] := by
  rw [stretch, Nat.sub_self, List.take_zero]

theorem length_stretch {l : List α} {i j : Nat} (h : j ≤ l.length) :
    (stretch l i j).length = j - i := by
  rw [stretch, List.length_take, List.length_drop]
  omega

theorem stretch_append_drop (l : List α) {i j : Nat} (h : i ≤ j) :
    stretch l i j ++ l.drop j = l.drop i := by
  obtain ⟨m, rfl⟩ := Nat.exists_eq_add_of_le h
  rw [stretch, Nat.add_sub_cancel_left, ← List.drop_drop, List.take_append_drop]

/-- A stretch inside another one. -/
theorem stretch_inside (l : List α) {i j p q : Nat} (hq : i + q ≤ j) :
    stretch l (i + p) (i + q) = ((stretch l i j).drop p).take (q - p) := by
  rw [stretch, stretch, List.drop_take, List.take_take, List.drop_drop]
  congr 1
  omega

/-- `old`, which stands at `oldAt`, becomes `new`, which then stands at `newAt`. -/
structure Replacement (α : Type*) where
  oldAt : Nat
  newAt : Nat
  old : List α
  new : List α

/-- Apply a patch to what is left of a list from `pos` on. It fails where a replacement does not stand
where it should. -/
def applyPatch [DecidableEq α] : Nat → List α → List (Replacement α) → Option (List α)
  | _, rest, [] => some rest
  | pos, rest, p :: ps =>
    if pos ≤ p.oldAt ∧ (rest.drop (p.oldAt - pos)).take p.old.length = p.old then
      (applyPatch (p.oldAt + p.old.length) (rest.drop (p.oldAt - pos + p.old.length)) ps).map
        fun done => rest.take (p.oldAt - pos) ++ p.new ++ done
    else none

/-- A replacement is a stretch of either list. -/
structure Replacement.Stands (p : Replacement α) (a b : List α) : Prop where
  oldIn : p.oldAt + p.old.length ≤ a.length
  newIn : p.newAt + p.new.length ≤ b.length
  old : p.old = stretch a p.oldAt (p.oldAt + p.old.length)
  new : p.new = stretch b p.newAt (p.newAt + p.new.length)

/-- The second one begins behind the end of the first. -/
def Replacement.Before (p q : Replacement α) : Prop :=
  p.oldAt + p.old.length < q.oldAt ∧ p.newAt + p.new.length < q.newAt

/-- The lists agree from `i` and `j` on, but for the replacements. -/
inductive Explains (a b : List α) : Nat → Nat → List (Replacement α) → Prop
  | nil {i j : Nat} (h : a.drop i = b.drop j) : Explains a b i j []
  | cons {i j : Nat} {p : Replacement α} {ps : List (Replacement α)} (hi : i ≤ p.oldAt)
      (hj : j ≤ p.newAt)
      (hgap : stretch a i p.oldAt = stretch b j p.newAt) (hp : p.Stands a b)
      (hnext : ∀ q ∈ ps.head?, p.Before q)
      (h : Explains a b (p.oldAt + p.old.length) (p.newAt + p.new.length) ps) :
      Explains a b i j (p :: ps)

namespace Explains

variable {a b : List α} {i j : Nat} {ps : List (Replacement α)}

theorem stands (h : Explains a b i j ps) : ∀ p ∈ ps, p.Stands a b := by
  induction h with
  | nil h => exact fun p hp => absurd hp List.not_mem_nil
  | cons hi hj hgap hp hnext h ih => exact List.forall_mem_cons.mpr ⟨hp, ih⟩

/-- The replacements come one behind the other in both lists. -/
theorem pairwise (h : Explains a b i j ps) : ps.Pairwise Replacement.Before := by
  induction h with
  | nil h => exact .nil
  | @cons i j p ps hi hj hgap hp hnext h ih =>
    refine List.pairwise_cons.mpr ⟨fun q hq => ?_, ih⟩
    cases ps with
    | nil => cases hq
    | cons first rest =>
      obtain ⟨hold, hnew⟩ := hnext first rfl
      rcases List.mem_cons.mp hq with rfl | hrest
      · exact ⟨hold, hnew⟩
      · obtain ⟨hold', hnew'⟩ := List.rel_of_pairwise_cons ih hrest
        exact ⟨by omega, by omega⟩

/-- The patch turns what is left of one list into what is left of the other. -/
theorem applyPatch_eq [DecidableEq α] (h : Explains a b i j ps) :
    applyPatch i (a.drop i) ps = some (b.drop j) := by
  induction h with
  | nil h => rw [applyPatch, h]
  | @cons i j p ps hi hj hgap hp hnext h ih =>
    have hat : i + (p.oldAt - i) = p.oldAt := Nat.add_sub_of_le hi
    have hold : (a.drop p.oldAt).take p.old.length = p.old := by
      conv_rhs => rw [hp.old, stretch, Nat.add_sub_cancel_left]
    have hnew : p.new ++ b.drop (p.newAt + p.new.length) = b.drop p.newAt := by
      conv_lhs => rw [hp.new]
      rw [length_stretch hp.newIn, Nat.add_sub_cancel_left]
      exact stretch_append_drop b (Nat.le_add_right _ _)
    rw [applyPatch, if_pos ⟨hi, by rw [List.drop_drop, hat, hold]⟩, List.drop_drop,
      ← Nat.add_assoc, hat, ih, Option.map_some]
    congr 1
    rw [List.append_assoc, hnew]
    exact (congrArg (· ++ b.drop p.newAt) hgap).trans (stretch_append_drop b hj)

end Explains

end KimixNative
