import Mathlib.Data.List.Infix

/-!
# Replacing every occurrence

All occurrences of a pattern are replaced from the left, and the search goes on behind the
replacement.
-/

namespace KimixNative

variable {α : Type*} [DecidableEq α]

/-- Every occurrence of `old` is replaced by `new`. -/
def replaceAll (old new : List α) : List α → List α
  | [] => []
  | a :: text =>
    if old <+: a :: text then new ++ replaceAll old new (text.drop (old.length - 1))
    else a :: replaceAll old new text
termination_by text => text.length
decreasing_by
  · rw [List.length_drop, List.length_cons]
    omega
  · rw [List.length_cons]
    omega

@[simp] theorem replaceAll_nil (old new : List α) : replaceAll old new [] = [] := by
  rw [replaceAll]

theorem replaceAll_cons (old new : List α) (a : α) (text : List α) :
    replaceAll old new (a :: text) =
      if old <+: a :: text then new ++ replaceAll old new (text.drop (old.length - 1))
      else a :: replaceAll old new text := by
  rw [replaceAll]

theorem replaceAll_of_notMem {a : α} {text : List α} (h : a ∉ text) (old new : List α) :
    replaceAll (a :: old) new text = text := by
  induction text with
  | nil => exact replaceAll_nil _ _
  | cons b text ih =>
    obtain ⟨hne, hmem⟩ := List.ne_and_not_mem_of_not_mem_cons h
    rw [replaceAll_cons, if_neg, ih hmem]
    exact fun hpre => hne (List.cons_prefix_cons.mp hpre).1

end KimixNative
