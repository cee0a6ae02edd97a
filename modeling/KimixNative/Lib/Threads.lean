import Mathlib.Algebra.BigOperators.Fin
import Mathlib.Algebra.Order.BigOperators.Group.Finset
import Mathlib.Logic.Relation

/-!
# Threads on a shared memory

Any number of threads take their steps in any order; a step changes the state of one thread and
the memory. What the memory counts about the threads is a total over them, and a step moves a
total by what it changes at its own thread.
-/

namespace KimixNative.Threads

open Finset

variable {n : Nat} {T M E : Type*}

structure State (n : Nat) (T M : Type*) where
  memory  : M
  threads : Fin n → T

/-- The thread `i` takes a step of its program `prog`. -/
def State.step (prog : T → M → E → Option (T × M)) (s : State n T M) (i : Fin n) (e : E) :
    Option (State n T M) :=
  (prog (s.threads i) s.memory e).map fun r => ⟨r.2, Function.update s.threads i r.1⟩

theorem State.exists_of_step {prog : T → M → E → Option (T × M)} {s s' : State n T M} {i : Fin n}
    {e : E} (h : s.step prog i e = some s') :
    ∃ t m, prog (s.threads i) s.memory e = some (t, m) ∧ s' = ⟨m, Function.update s.threads i t⟩ := by
  obtain ⟨⟨t, m⟩, hprog, hs⟩ := Option.map_eq_some_iff.mp h
  exact ⟨t, m, hprog, hs.symm⟩

def total (f : T → Nat) (threads : Fin n → T) : Nat := ∑ i, f (threads i)

variable {f : T → Nat} {threads : Fin n → T} {i j : Fin n}

theorem total_update (f : T → Nat) (threads : Fin n → T) (i : Fin n) (t : T) :
    total f (Function.update threads i t) + f (threads i) = total f threads + f t := by
  have hrest : ∑ j ∈ univ.erase i, f (Function.update threads i t j) =
      ∑ j ∈ univ.erase i, f (threads j) := by
    refine sum_congr rfl fun j hj => ?_
    exact congrArg f (Function.update_of_ne (ne_of_mem_erase hj) t threads)
  have hnew := add_sum_erase univ (fun j => f (Function.update threads i t j)) (mem_univ i)
  have hold := add_sum_erase univ (fun j => f (threads j)) (mem_univ i)
  simp only [Function.update_self] at hnew
  simp only [total]
  omega

theorem le_total (f : T → Nat) (threads : Fin n → T) (i : Fin n) : f (threads i) ≤ total f threads :=
  single_le_sum (f := fun j => f (threads j)) (fun _ _ => Nat.zero_le _) (mem_univ i)

theorem add_le_total (f : T → Nat) (threads : Fin n → T) (h : i ≠ j) :
    f (threads i) + f (threads j) ≤ total f threads := by
  have hj : j ∈ univ.erase i := mem_erase.mpr ⟨h.symm, mem_univ j⟩
  have hle := single_le_sum (f := fun k => f (threads k)) (fun _ _ => Nat.zero_le _) hj
  have hsum := add_sum_erase univ (fun k => f (threads k)) (mem_univ i)
  simp only [total]
  omega

theorem total_le (h : ∀ t, f t ≤ 1) (threads : Fin n → T) : total f threads ≤ n := by
  have hle := sum_le_card_nsmul univ (fun j => f (threads j)) 1 fun j _ => h (threads j)
  simpa [total] using hle

end KimixNative.Threads
