import Mathlib.Data.List.Infix

/-!
# Searching a list for a pattern

`firstOccurrence` is the specification: the least offset at which the pattern starts.
A search that is resumed later, when more elements have arrived, may only skip offsets
at which the pattern can no longer start: those where the pattern and what has arrived
`Clash`, which no later arrival repairs.
-/

namespace KimixNative

variable {α : Type*} [DecidableEq α]

/-- The least offset at which the pattern starts. -/
def firstOccurrence (d u : List α) : Option Nat :=
  (List.range u.length).find? fun p => decide (d <+: u.drop p)

variable {u : List α} {pieces : List (List α)}

variable {d : List α} {p : Nat} {a : α}

theorem firstOccurrence_eq_some :
    firstOccurrence d u = some p ↔
      p < u.length ∧ d <+: u.drop p ∧ ∀ q < p, ¬ d <+: u.drop q := by
  simp only [firstOccurrence, List.find?_range_eq_some, decide_eq_true_eq, List.mem_range,
    Bool.not_eq_true', decide_eq_false_iff_not]
  tauto

theorem firstOccurrence_eq_none :
    firstOccurrence d u = none ↔ ∀ p < u.length, ¬ d <+: u.drop p := by
  simp [firstOccurrence]

/-- A nonempty pattern does not start at or after the end. -/
theorem lt_length_of_prefix_drop (hd : d ≠ []) (h : d <+: u.drop p) : p < u.length := by
  by_contra hp
  rw [List.drop_eq_nil_of_le (Nat.le_of_not_lt hp)] at h
  exact hd (List.prefix_nil.mp h)

theorem mem_of_singleton_prefix_drop (h : [a] <+: u.drop p) :
    a ∈ u := List.mem_of_mem_drop (h.subset (List.mem_singleton_self a))

theorem firstOccurrence_singleton_eq_none (h : a ∉ u) : firstOccurrence [a] u = none := by
  refine firstOccurrence_eq_none.mpr ?_
  intro p _ hp
  exact h (mem_of_singleton_prefix_drop hp)

/-- A separator is found behind the field it ends. -/
theorem firstOccurrence_singleton_append (h : a ∉ u) (v : List α) :
    firstOccurrence [a] (u ++ a :: v) = some u.length := by
  refine firstOccurrence_eq_some.mpr ⟨?_, ?_, ?_⟩
  · rw [List.length_append, List.length_cons]
    omega
  · rw [List.drop_left]
    exact List.prefix_append [a] v
  · intro q hq hp
    rw [List.drop_append_of_le_length (Nat.le_of_lt hq)] at hp
    cases hrest : u.drop q with
    | nil =>
      have := List.drop_eq_nil_iff.mp hrest
      omega
    | cons b rest =>
      rw [hrest] at hp
      obtain ⟨rfl, -⟩ := List.cons_prefix_cons.mp hp
      exact h (List.mem_of_mem_drop (hrest ▸ List.mem_cons_self))

/-- In a text whose front the pattern does not start in the search finds what it finds behind. -/
theorem firstOccurrence_append {v : List α} (h : ∀ p < u.length, ¬ d <+: (u ++ v).drop p) :
    firstOccurrence d (u ++ v) = (firstOccurrence d v).map (u.length + ·) := by
  cases hv : firstOccurrence d v with
  | none =>
    refine firstOccurrence_eq_none.mpr fun p hp => ?_
    by_cases hfront : p < u.length
    · exact h p hfront
    · obtain ⟨q, rfl⟩ := Nat.exists_eq_add_of_le (Nat.le_of_not_lt hfront)
      rw [List.length_append] at hp
      rw [← List.drop_drop, List.drop_left]
      exact firstOccurrence_eq_none.mp hv q (by omega)
  | some i =>
    obtain ⟨hlt, hi, hbefore⟩ := firstOccurrence_eq_some.mp hv
    rw [Option.map_some]
    refine firstOccurrence_eq_some.mpr ⟨?_, ?_, fun p hp => ?_⟩
    · rw [List.length_append]
      omega
    · rwa [← List.drop_drop, List.drop_left]
    · by_cases hfront : p < u.length
      · exact h p hfront
      · obtain ⟨q, rfl⟩ := Nat.exists_eq_add_of_le (Nat.le_of_not_lt hfront)
        rw [← List.drop_drop, List.drop_left]
        exact hbefore q (by omega)

/-- The pieces of a text between the occurrences of the pattern, which are taken from the left and
do not overlap. -/
inductive Cuts (d : List α) : List α → List (List α) → Prop
  | last {u : List α} (h : firstOccurrence d u = none) : Cuts d u [u]
  | hit {u : List α} {i : Nat} {pieces : List (List α)} (h : firstOccurrence d u = some i)
      (hrest : Cuts d (u.drop (i + d.length)) pieces) : Cuts d u (u.take i :: pieces)

theorem Cuts.ne_nil (h : Cuts d u pieces) : pieces ≠ [] := by
  cases h <;> exact List.cons_ne_nil _ _

theorem exists_cuts (hd : d ≠ []) (u : List α) : ∃ pieces, Cuts d u pieces := by
  induction hn : u.length using Nat.strong_induction_on generalizing u with
  | _ n ih =>
    cases h : firstOccurrence d u with
    | none => exact ⟨_, .last h⟩
    | some i =>
      have hlt := (firstOccurrence_eq_some.mp h).1
      have hpos := List.length_pos_iff.mpr hd
      have hrest : (u.drop (i + d.length)).length < n := by
        rw [List.length_drop]
        omega
      obtain ⟨pieces, hpieces⟩ := ih _ hrest _ rfl
      exact ⟨_, .hit h hpieces⟩

theorem Cuts.intercalate (h : Cuts d u pieces) : d.intercalate pieces = u := by
  induction h with
  | last h => exact List.intercalate_singleton
  | @hit u i pieces h hrest ih =>
    obtain ⟨-, ⟨rest, hu⟩, -⟩ := firstOccurrence_eq_some.mp h
    rw [List.intercalate_cons_of_ne_nil hrest.ne_nil, ih, ← List.drop_drop, ← hu, List.drop_left,
      List.append_assoc, hu, List.take_append_drop]

/-- There are no more occurrences than elements. -/
theorem Cuts.length_le (hd : d ≠ []) (h : Cuts d u pieces) : pieces.length ≤ u.length + 1 := by
  induction h with
  | last h =>
    rw [List.length_singleton]
    omega
  | @hit u i pieces h hrest ih =>
    have hlt := (firstOccurrence_eq_some.mp h).1
    have hpos := List.length_pos_iff.mpr hd
    rw [List.length_drop] at ih
    rw [List.length_cons]
    omega

/-- The pattern does not start here, whatever follows. -/
def Clash (d v : List α) : Prop := ¬ d <+: v ∧ ¬ v <+: d

theorem Clash.append {v : List α} (h : Clash d v) (x : List α) : Clash d (v ++ x) := by
  constructor
  · intro hd
    obtain hdv | hvd := List.prefix_or_prefix_of_prefix hd (List.prefix_append v x)
    · exact h.1 hdv
    · exact h.2 hvd
  · intro hv
    exact h.2 ((List.prefix_append v x).trans hv)

theorem clash_of_head_ne {b : α} {v : List α} (h : a ≠ b) : Clash (a :: d) (b :: v) := by
  constructor
  · intro hp
    exact h (List.cons_prefix_cons.mp hp).1
  · intro hp
    exact h (List.cons_prefix_cons.mp hp).1.symm

/-- A full comparison that fails is a clash. -/
theorem clash_of_not_prefix {v : List α} (hlen : d.length ≤ v.length) (h : ¬ d <+: v) :
    Clash d v := by
  refine ⟨h, ?_⟩
  intro hv
  exact h (hv.eq_of_length_le hlen ▸ List.prefix_rfl)

/-- Offsets below `n` are settled: the pattern starts at none of them, now or later. -/
def Settled (d u : List α) (n : Nat) : Prop := ∀ p < n, p < u.length ∧ Clash d (u.drop p)

theorem settled_zero (d u : List α) : Settled d u 0 := by
  intro p hp
  omega

theorem Settled.append {n : Nat} (h : Settled d u n) (x : List α) : Settled d (u ++ x) n := by
  intro p hp
  obtain ⟨hlt, hclash⟩ := h p hp
  refine ⟨?_, ?_⟩
  · rw [List.length_append]
    omega
  · rw [List.drop_append_of_le_length (Nat.le_of_lt hlt)]
    exact hclash.append x

/-! ### Shifts by the last character -/

/-- A table that says for no character more than how far its last occurrence in the pattern, short
of the last place, is from the end. -/
def ShiftTable (d : List α) (table : α → Nat) : Prop :=
  ∀ j, (h : j + 1 < d.length) → table d[j] ≤ d.length - 1 - j

/-- Between a place and the place that the table shifts to the pattern does not start. -/
theorem ShiftTable.skip {table : α → Nat} (h : ShiftTable d table) {q : Nat}
    (hlast : p + d.length - 1 < u.length) (hpq : p < q) (hq : q < p + table u[p + d.length - 1])
    (hlong : q < p + d.length) : ¬ d <+: u.drop q := by
  intro hprefix
  have hj : p + d.length - 1 - q + 1 < d.length := by omega
  have hat : u[p + d.length - 1] = d[p + d.length - 1 - q] := by
    have hget := List.prefix_iff_getElem?.mp hprefix (p + d.length - 1 - q) (by omega)
    rw [List.getElem?_drop, show q + (p + d.length - 1 - q) = p + d.length - 1 by omega,
      List.getElem?_eq_getElem hlast] at hget
    exact Option.some.inj hget
  have hle := h (p + d.length - 1 - q) hj
  rw [← hat] at hle
  omega

end KimixNative
