import Mathlib.Data.List.Basic

/-!
# Machines that read and emit

A transducer reads symbols one at a time, emits some for each of them, and emits the rest
when the input ends. Fed in chunks it emits, all in all, what it emits on the whole input,
and two of them in a row are one.
-/

namespace KimixNative

universe u v w x y

structure Transducer (σ : Type u) (α : Type v) (β : Type w) where
  step : σ → α → σ × List β
  flush : σ → σ × List β

namespace Transducer

variable {σ : Type u} {α : Type v} {β : Type w} {τ : Type x} {γ : Type y}

/-- The state after a chunk and what was emitted on the way. -/
def feed (T : Transducer σ α β) : σ → List α → σ × List β
  | s, [] => (s, [])
  | s, a :: chunk =>
    ((T.feed (T.step s a).1 chunk).1, (T.step s a).2 ++ (T.feed (T.step s a).1 chunk).2)

@[simp] theorem feed_nil (T : Transducer σ α β) (s : σ) : T.feed s [] = (s, []) := rfl

@[simp] theorem feed_cons (T : Transducer σ α β) (s : σ) (a : α) (chunk : List α) :
    T.feed s (a :: chunk) =
      ((T.feed (T.step s a).1 chunk).1, (T.step s a).2 ++ (T.feed (T.step s a).1 chunk).2) := rfl

theorem feed_append (T : Transducer σ α β) (s : σ) (xs ys : List α) :
    T.feed s (xs ++ ys) =
      ((T.feed (T.feed s xs).1 ys).1, (T.feed s xs).2 ++ (T.feed (T.feed s xs).1 ys).2) := by
  induction xs generalizing s with
  | nil => simp
  | cons a xs ih => simp only [List.cons_append, feed_cons, ih, List.append_assoc]

/-- Chunk after chunk. -/
def feedAll (T : Transducer σ α β) : σ → List (List α) → σ × List β
  | s, [] => (s, [])
  | s, chunk :: chunks =>
    ((T.feedAll (T.feed s chunk).1 chunks).1,
      (T.feed s chunk).2 ++ (T.feedAll (T.feed s chunk).1 chunks).2)

/-- The boundaries of the chunks do not matter. -/
theorem feedAll_eq (T : Transducer σ α β) (s : σ) (chunks : List (List α)) :
    T.feedAll s chunks = T.feed s chunks.flatten := by
  induction chunks generalizing s with
  | nil => rfl
  | cons chunk chunks ih => simp only [feedAll, List.flatten_cons, feed_append, ih]

/-- The whole output on an input given at once. -/
def output (T : Transducer σ α β) (s : σ) (input : List α) : List β :=
  (T.feed s input).2 ++ (T.flush (T.feed s input).1).2

theorem output_append (T : Transducer σ α β) (s : σ) (xs ys : List α) :
    T.output s (xs ++ ys) = (T.feed s xs).2 ++ T.output (T.feed s xs).1 ys := by
  simp only [output, feed_append, List.append_assoc]

variable {I : σ → Prop} {T : Transducer σ α β}

/-- What a state stands for, as an equation that every step and the end respect, is what the
machine emits from it. -/
theorem output_eq (meaning : σ → List α → List β) (keep : ∀ s a, I s → I (T.step s a).1)
    (step : ∀ s a rest, I s → meaning s (a :: rest) = (T.step s a).2 ++ meaning (T.step s a).1 rest)
    (flush : ∀ s, I s → meaning s [] = (T.flush s).2) {s : σ} (h : I s) (input : List α) :
    T.output s input = meaning s input := by
  induction input generalizing s with
  | nil => simp [output, flush s h]
  | cons a input ih =>
    have hrest := ih (keep s a h)
    simp only [output] at hrest
    simp only [output, feed_cons, step s a input h, List.append_assoc, hrest]

theorem feed_invariant (keep : ∀ s a, I s → I (T.step s a).1) {s : σ} (h : I s) (input : List α) :
    I (T.feed s input).1 := by
  induction input generalizing s with
  | nil => exact h
  | cons a input ih => exact ih (keep s a h)

/-- The second machine reads what the first one emits. -/
def comp (T : Transducer σ α β) (U : Transducer τ β γ) : Transducer (σ × τ) α γ where
  step s a :=
    (((T.step s.1 a).1, (U.feed s.2 (T.step s.1 a).2).1), (U.feed s.2 (T.step s.1 a).2).2)
  flush s :=
    (((T.flush s.1).1, (U.flush (U.feed s.2 (T.flush s.1).2).1).1),
      (U.feed s.2 (T.flush s.1).2).2 ++ (U.flush (U.feed s.2 (T.flush s.1).2).1).2)

/-- Cleaning a whole chunk before the second machine reads it is the same as passing every
symbol on at once. -/
theorem feed_comp (T : Transducer σ α β) (U : Transducer τ β γ) (s : σ) (t : τ)
    (chunk : List α) :
    (T.comp U).feed (s, t) chunk =
      (((T.feed s chunk).1, (U.feed t (T.feed s chunk).2).1), (U.feed t (T.feed s chunk).2).2) := by
  induction chunk generalizing s t with
  | nil => rfl
  | cons a chunk ih =>
    simp only [feed_cons, comp]
    have hrest := ih (T.step s a).1 (U.feed t (T.step s a).2).1
    simp only [comp] at hrest
    simp only [hrest, feed_append]

theorem output_comp (T : Transducer σ α β) (U : Transducer τ β γ) (s : σ) (t : τ)
    (input : List α) : (T.comp U).output (s, t) input = U.output t (T.output s input) := by
  simp only [output, feed_comp, feed_append, List.append_assoc]
  rfl

end Transducer

end KimixNative
