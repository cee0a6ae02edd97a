import KimixNative.Lib.Run
import Mathlib.Data.Nat.ModEq
import Mathlib.Tactic.Linarith

/-!
# Linear probing

The cells of an open-addressing table form a circle of `c` positions. Both the search for
a key and the search for a free cell walk along the circle from the home of the key.
`Chained` is the invariant of a table that only grows: every stored key is reached from
its home over occupied cells. While a cell is free, a lookup therefore ends, and it ends
at the key or, if the key is not stored, at a free cell.
-/

namespace KimixNative

/-- Go on with `next` until `stop`, at most `n` positions. -/
def walk (stop : Nat → Bool) (next : Nat → Nat) : Nat → Nat → Option Nat
  | 0, _ => none
  | n + 1, idx => if stop idx then some idx else walk stop next n (next idx)

/-- The next position on a circle of `c` cells. -/
def cycle (c idx : Nat) : Nat := (idx + 1) % c

theorem iterate_cycle {c idx : Nat} (h : idx < c) (j : Nat) :
    (cycle c)^[j] idx = (idx + j) % c := by
  induction j with
  | zero => rw [Function.iterate_zero_apply, Nat.add_zero, Nat.mod_eq_of_lt h]
  | succ j ih =>
    rw [Function.iterate_succ_apply', ih, cycle, Nat.mod_add_mod, Nat.add_assoc]

variable {next : Nat → Nat} {stop : Nat → Bool}

theorem walk_eq_some {n idx p : Nat} (h : walk stop next n idx = some p) :
    ∃ j < n, next^[j] idx = p ∧ stop p = true ∧ ∀ i < j, stop (next^[i] idx) = false := by
  induction n generalizing idx with
  | zero => cases h
  | succ n ih =>
    rw [walk] at h
    split_ifs at h with hstop
    · obtain rfl := Option.some.inj h
      exact ⟨0, Nat.succ_pos n, rfl, hstop, fun i hi => absurd hi (Nat.not_lt_zero i)⟩
    · obtain ⟨j, hj, hp, hsp, hbefore⟩ := ih h
      refine ⟨j + 1, Nat.succ_lt_succ hj, hp, hsp, ?_⟩
      intro i hi
      cases i with
      | zero => simpa using hstop
      | succ i => exact hbefore i (Nat.lt_of_succ_lt_succ hi)

theorem walk_eq_none {n idx : Nat} :
    walk stop next n idx = none ↔ ∀ j < n, stop (next^[j] idx) = false := by
  induction n generalizing idx with
  | zero => simp [walk]
  | succ n ih =>
    rw [walk, Nat.forall_lt_succ_left]
    split_ifs with hstop
    · simp [hstop]
    · simp only [Function.iterate_zero_apply, Function.iterate_succ_apply, ih]
      simp [hstop]

/-- A walk that is given more iterations than it needs. -/
theorem walk_mono {n m idx p : Nat} (hnm : n ≤ m) (h : walk stop next n idx = some p) :
    walk stop next m idx = some p := by
  induction n generalizing idx m with
  | zero => cases h
  | succ n ih =>
    obtain ⟨m, rfl⟩ : ∃ k, m = k + 1 := ⟨m - 1, by omega⟩
    rw [walk] at h ⊢
    split_ifs at h ⊢
    · exact h
    · exact ih (by omega) h

section Circle

variable {c : Nat}

/-- Every position lies ahead on the circle. -/
theorem exists_ahead {idx p : Nat} (hidx : idx < c) (hp : p < c) :
    ∃ j < c, (idx + j) % c = p := by
  by_cases h : idx ≤ p
  · refine ⟨p - idx, by omega, ?_⟩
    rw [Nat.add_sub_cancel' h, Nat.mod_eq_of_lt hp]
  · refine ⟨p + c - idx, by omega, ?_⟩
    rw [show idx + (p + c - idx) = p + c by omega, Nat.add_mod_right, Nat.mod_eq_of_lt hp]

/-- Once round the circle finds a position at which to stop. -/
theorem walk_cycle {stop : Nat → Bool} {idx p : Nat} (hidx : idx < c) (hp : p < c)
    (hstop : stop p = true) {n : Nat} (hn : c ≤ n) :
    ∃ q < c, walk stop (cycle c) n idx = some q := by
  cases hwalk : walk stop (cycle c) n idx with
  | none =>
    obtain ⟨j, hj, rfl⟩ := exists_ahead hidx hp
    have := walk_eq_none.mp hwalk j (by omega)
    rw [iterate_cycle hidx, hstop] at this
    cases this
  | some q =>
    obtain ⟨j, -, rfl, -⟩ := walk_eq_some hwalk
    refine ⟨_, ?_, rfl⟩
    rw [iterate_cycle hidx]
    exact Nat.mod_lt _ (by omega)

variable {κ : Type*} [DecidableEq κ] {home : κ → Nat} {cell : Nat → Option κ}

/-- Every stored key is reached from its home over occupied cells. -/
def Chained (c : Nat) (home : κ → Nat) (cell : Nat → Option κ) : Prop :=
  ∀ p < c, ∀ k, cell p = some k →
    ∃ d, (home k + d) % c = p ∧ ∀ j < d, cell ((home k + j) % c) ≠ none

theorem chained_empty (c : Nat) (home : κ → Nat) : Chained c home fun _ => none := by
  intro p _ k hk
  cases hk

/-- A key put into the first free cell from its home keeps the table chained. -/
theorem Chained.insert {k : κ} {p n : Nat} (hhome : home k < c) (h : Chained c home cell)
    (hwalk : walk (fun p => decide (cell p = none)) (cycle c) n (home k) = some p) :
    Chained c home (Function.update cell p (some k)) := by
  obtain ⟨d, -, hd, hfree, hbefore⟩ := walk_eq_some hwalk
  have keeps : ∀ q, cell q ≠ none → Function.update cell p (some k) q ≠ none := by
    intro q hq
    by_cases hqp : q = p
    · subst hqp
      simp
    · rwa [Function.update_of_ne hqp]
  intro q hq k' hk'
  by_cases hqp : q = p
  · subst hqp
    rw [Function.update_self] at hk'
    obtain rfl := Option.some.inj hk'
    refine ⟨d, by rw [← iterate_cycle hhome, hd], ?_⟩
    intro j hj
    refine keeps _ ?_
    have := hbefore j hj
    rw [iterate_cycle hhome] at this
    simpa using this
  · rw [Function.update_of_ne hqp] at hk'
    obtain ⟨d', hd', hocc⟩ := h q hq k' hk'
    exact ⟨d', hd', fun j hj => keeps _ (hocc j hj)⟩

/-- The exits of a lookup: the key, or a free cell. -/
def lookupStop (cell : Nat → Option κ) (k : κ) (p : Nat) : Bool :=
  decide (cell p = none) || decide (cell p = some k)

/-- A lookup that ends at a free cell has looked for a key that is not stored. -/
theorem Chained.not_stored {k : κ} {p n : Nat} (hhome : home k < c) (h : Chained c home cell)
    (hwalk : walk (lookupStop cell k) (cycle c) n (home k) = some p) (hp : cell p = none) :
    ∀ q < c, cell q ≠ some k := by
  obtain ⟨e, -, he, -, hbefore⟩ := walk_eq_some hwalk
  rw [iterate_cycle hhome] at he
  intro q hq hk
  obtain ⟨d, hd, hocc⟩ := h q hq k hk
  rcases Nat.lt_trichotomy d e with hlt | heq | hgt
  · have := hbefore d hlt
    rw [iterate_cycle hhome, hd] at this
    simp [lookupStop, hk] at this
  · rw [heq, he] at hd
    rw [← hd, hp] at hk
    cases hk
  · exact hocc e hgt (by rw [he, hp])

end Circle

end KimixNative
