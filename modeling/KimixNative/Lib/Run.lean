import Mathlib.Data.List.Basic
import Mathlib.Order.Nat

/-!
# Runs of a step function

A run applies a list of operations from left to right. `Meets step ok s ops` says
that every operation of the run meets the condition `ok` in the state just before
it, which is how the conditional results of this development are phrased. The two
rules below turn what one step preserves into what a whole run preserves.
-/

namespace KimixNative

variable {σ α : Type*}

/-- The state after applying the operations in order. -/
def run (step : σ → α → σ) (s : σ) (ops : List α) : σ := ops.foldl step s

@[simp] theorem run_nil (step : σ → α → σ) (s : σ) : run step s [] = s := rfl

@[simp] theorem run_cons (step : σ → α → σ) (s : σ) (a : α) (ops : List α) :
    run step s (a :: ops) = run step (step s a) ops := rfl

theorem run_append (step : σ → α → σ) (s : σ) (xs ys : List α) :
    run step s (xs ++ ys) = run step (run step s xs) ys := List.foldl_append

/-- Every operation of the run meets `ok` in the state it is applied to. -/
def Meets (step : σ → α → σ) (ok : σ → α → Prop) : σ → List α → Prop
  | _, [] => True
  | s, a :: ops => ok s a ∧ Meets step ok (step s a) ops

@[simp] theorem meets_nil (step : σ → α → σ) (ok : σ → α → Prop) (s : σ) :
    Meets step ok s [] := trivial

@[simp] theorem meets_cons (step : σ → α → σ) (ok : σ → α → Prop) (s : σ) (a : α)
    (ops : List α) :
    Meets step ok s (a :: ops) ↔ ok s a ∧ Meets step ok (step s a) ops := Iff.rfl

variable {step : σ → α → σ}

variable {ok : σ → α → Prop} {ops : List α}

variable {s : σ} {I : σ → Prop}

theorem meets_append {xs ys : List α} :
    Meets step ok s (xs ++ ys) ↔ Meets step ok s xs ∧ Meets step ok (run step s xs) ys := by
  induction xs generalizing s with
  | nil => simp
  | cons a xs ih => rw [List.cons_append, meets_cons, meets_cons, ih, run_cons, and_assoc]

/-- A condition on the operations alone. -/
theorem meets_of_forall {ok : α → Prop} (h : ∀ a ∈ ops, ok a) (s : σ) :
    Meets step (fun _ a => ok a) s ops := by
  induction ops generalizing s with
  | nil => exact meets_nil step _ s
  | cons a ops ih =>
    obtain ⟨ha, hops⟩ := List.forall_mem_cons.mp h
    exact ⟨ha, ih hops _⟩

instance decidableMeets (step : σ → α → σ) (ok : σ → α → Prop)
    [∀ s a, Decidable (ok s a)] : ∀ s ops, Decidable (Meets step ok s ops)
  | _, [] => isTrue trivial
  | s, a :: ops => @instDecidableAnd _ _ _ (decidableMeets step ok (step s a) ops)

/-- An invariant that every step keeps holds after every run. -/
theorem run_invariant (keep : ∀ s a, I s → I (step s a)) (h : I s) (ops : List α) :
    I (run step s ops) := by
  induction ops generalizing s with
  | nil => exact h
  | cons a ops ih => exact ih (keep s a h)

/-- An invariant that every step meeting the condition keeps holds after every run
whose steps all meet it. -/
theorem Meets.invariant (keep : ∀ s a, I s → ok s a → I (step s a)) (h : I s)
    (hops : Meets step ok s ops) : I (run step s ops) := by
  induction ops generalizing s with
  | nil => exact h
  | cons a ops ih => exact ih (keep s a h hops.1) hops.2

/-- A relation that every step meeting the condition keeps on both sides holds after every
run whose steps all meet it. -/
theorem Meets.simulation {τ : Type*} {step' : τ → α → τ} {R : σ → τ → Prop}
    (keep : ∀ s t a, R s t → ok s a → R (step s a) (step' t a)) {t : τ} (h : R s t)
    (hops : Meets step ok s ops) : R (run step s ops) (run step' t ops) := by
  induction ops generalizing s t with
  | nil => exact h
  | cons a ops ih => exact ih (keep s t a h hops.1) hops.2

end KimixNative

/-!
## Loops that need not end

A loop whose termination is in question takes a bound on its iterations and answers
`none` when the bound is reached. It *yields* a value when every large enough bound gives
that value and no bound gives another, and it *diverges* when no bound gives any.
-/

namespace KimixNative

variable {α β : Type*}

/-- The computation ends with `a`. -/
structure Yields (f : Nat → Option α) (a : α) : Prop where
  ends : ∃ n, ∀ m ≥ n, f m = some a
  only : ∀ n b, f n = some b → b = a

/-- The computation does not end. -/
def Diverges (f : Nat → Option α) : Prop := ∀ n, f n = none

theorem yields_some (a : α) : Yields (fun _ => some a) a where
  ends := ⟨0, fun _ _ => rfl⟩
  only := by
    intro n b hb
    exact (Option.some.inj hb).symm

variable {f : Nat → Option α}

variable {a : α}

/-- A computation whose answers do not change when the bound grows. -/
theorem yields_of_mono {n : Nat} (mono : ∀ n m b, n ≤ m → f n = some b → f m = some b)
    (h : f n = some a) : Yields f a where
  ends := ⟨n, fun m hm => mono n m a hm h⟩
  only := by
    intro m b hb
    have hmax := mono m (max n m) b (le_max_right n m) hb
    rw [mono n (max n m) a (le_max_left n m) h] at hmax
    exact (Option.some.inj hmax).symm

variable {g : α → Nat → Option β}

theorem Yields.bind {b : β} (hf : Yields f a) (hg : Yields (g a) b) :
    Yields (fun n => (f n).bind fun a => g a n) b where
  ends := by
    obtain ⟨n, hn⟩ := hf.ends
    obtain ⟨k, hk⟩ := hg.ends
    refine ⟨max n k, ?_⟩
    intro m hm
    simp only [hn m (le_trans (le_max_left n k) hm), Option.bind_some,
      hk m (le_trans (le_max_right n k) hm)]
  only := by
    intro n c hc
    obtain ⟨a', ha', hc⟩ := Option.bind_eq_some_iff.mp hc
    obtain rfl := hf.only n a' ha'
    exact hg.only n c hc

theorem Yields.map (hf : Yields f a) (g : α → β) :
    Yields (fun n => (f n).map g) (g a) where
  ends := by
    obtain ⟨n, hn⟩ := hf.ends
    exact ⟨n, fun m hm => by rw [hn m hm, Option.map_some]⟩
  only := by
    intro n b hb
    obtain ⟨a', ha', rfl⟩ := Option.map_eq_some_iff.mp hb
    rw [hf.only n a' ha']

theorem Diverges.map (hf : Diverges f) (g : α → β) : Diverges fun n => (f n).map g := by
  intro n
  exact Option.map_eq_none_iff.mpr (hf n)

/-- A computation that goes on only after one that does not end. -/
theorem Yields.bind_diverges (hf : Yields f a) (hg : Diverges (g a)) :
    Diverges fun n => (f n).bind fun a => g a n := by
  intro n
  refine Option.bind_eq_none_iff.mpr ?_
  intro a' ha'
  obtain rfl := hf.only n a' ha'
  exact hg n

/-- A computation that gives after one more round what another gives. -/
theorem Yields.later {f g : Nat → Option α} {a : α} (hg : Yields g a) (hzero : f 0 = none)
    (hsucc : ∀ n, f (n + 1) = g n) : Yields f a where
  ends := by
    obtain ⟨n, hn⟩ := hg.ends
    refine ⟨n + 1, ?_⟩
    intro m hm
    obtain ⟨k, rfl⟩ := Nat.exists_eq_add_of_le' (le_trans (Nat.succ_pos n) hm)
    rw [hsucc]
    exact hn k (by omega)
  only := by
    intro n b hb
    cases n with
    | zero => exact absurd (hzero.symm.trans hb) (Option.some_ne_none b).symm
    | succ n => exact hg.only n b ((hsucc n).symm.trans hb)

theorem Yields.not_diverges (h : Yields f a) : ¬ Diverges f := by
  intro hd
  obtain ⟨n, hn⟩ := h.ends
  have := hn n le_rfl
  rw [hd n] at this
  cases this

end KimixNative
