import Mathlib.Data.List.Basic

/-!
# Tables with row numbers that never come back

Rows are numbered by a sequence that only grows, so that a number identifies one insertion
even after deletions. A table carries the proof that its rows are in order of their numbers
and that the sequence has passed them all.
-/

namespace KimixNative

variable {α : Type*}

@[ext] structure RowTable (α : Type*) where
  rows : List (Nat × α)
  seq : Nat
  sorted : rows.Pairwise fun r s => r.1 < s.1
  bounded : ∀ r ∈ rows, r.1 ≤ seq

namespace RowTable

def empty : RowTable α := ⟨[], 0, .nil, by simp⟩

/-- A new row takes the next number. -/
def insert (t : RowTable α) (a : α) : RowTable α where
  rows    := t.rows ++ [(t.seq + 1, a)]
  seq     := t.seq + 1
  sorted  := by
    refine List.pairwise_append.mpr ⟨t.sorted, List.pairwise_singleton _ _, ?_⟩
    intro r hr s hs
    rw [List.mem_singleton.mp hs]
    exact Nat.lt_succ_of_le (t.bounded r hr)
  bounded := by
    intro r hr
    obtain hr | hr := List.mem_append.mp hr
    · exact Nat.le_succ_of_le (t.bounded r hr)
    · exact Nat.le_of_eq (congrArg Prod.fst (List.mem_singleton.mp hr))

/-- Delete the rows above a number. The sequence does not go back. -/
def deleteAbove (t : RowTable α) (cutoff : Nat) : RowTable α where
  rows    := t.rows.filter fun r => r.1 ≤ cutoff
  seq     := t.seq
  sorted  := t.sorted.filter _
  bounded := fun r hr => t.bounded r (List.mem_of_mem_filter hr)

/-- `MAX(rowid)`, null on an empty table. -/
def maxRow (t : RowTable α) : Option Nat := (t.rows.map Prod.fst).max?

/-- The rows up to a number. -/
def upTo (t : RowTable α) (cutoff : Nat) : List (Nat × α) := t.rows.filter fun r => r.1 ≤ cutoff

@[simp] theorem rows_deleteAbove (t : RowTable α) (cutoff : Nat) :
    (t.deleteAbove cutoff).rows = t.upTo cutoff := rfl

variable {t : RowTable α}

variable {cutoff : Nat}

theorem upTo_of_bound (h : ∀ r ∈ t.rows, r.1 ≤ cutoff) : t.upTo cutoff = t.rows :=
  List.filter_eq_self.mpr fun r hr => decide_eq_true (h r hr)

theorem upTo_seq (t : RowTable α) : t.upTo t.seq = t.rows := upTo_of_bound t.bounded

/-- A row inserted later does not show up to an earlier number. -/
theorem upTo_insert (h : cutoff ≤ t.seq) (a : α) : (t.insert a).upTo cutoff = t.upTo cutoff := by
  simp only [upTo, insert, List.filter_append]
  rw [List.filter_cons_of_neg (by simp only [decide_eq_true_eq]; omega)]
  simp

theorem upTo_deleteAbove {low : Nat} (h : low ≤ cutoff) :
    (t.deleteAbove cutoff).upTo low = t.upTo low := by
  simp only [upTo, deleteAbove, List.filter_filter]
  refine List.filter_congr fun r _ => ?_
  rw [← Bool.decide_and]
  exact decide_eq_decide.mpr ⟨fun hr => hr.1, fun hr => ⟨hr, Nat.le_trans hr h⟩⟩

theorem upTo_congr {m n : Nat} (h : ∀ r ∈ t.rows, r.1 ≤ m ↔ r.1 ≤ n) : t.upTo m = t.upTo n :=
  List.filter_congr fun r hr => decide_eq_decide.mpr (h r hr)

/-- Two cuts that leave the same rows agree on every row. -/
theorem iff_of_upTo_eq {m n : Nat} (h : t.upTo m = t.upTo n) : ∀ r ∈ t.rows, r.1 ≤ m ↔ r.1 ≤ n := by
  intro r hr
  have hmem : ∀ k, r ∈ t.upTo k ↔ r.1 ≤ k := by
    intro k
    simp [upTo, hr]
  rw [← hmem m, ← hmem n, h]

theorem le_maxRow {r : Nat × α} (hr : r ∈ t.rows) : r.1 ≤ t.maxRow.getD 0 := by
  have hmem : r.1 ∈ t.rows.map Prod.fst := List.mem_map_of_mem hr
  cases hmax : t.maxRow with
  | none =>
    rw [maxRow, List.max?_eq_none_iff] at hmax
    rw [hmax] at hmem
    cases hmem
  | some m => exact (List.max?_eq_some_iff.mp hmax).2 r.1 hmem

theorem maxRow_le_seq (t : RowTable α) : t.maxRow.getD 0 ≤ t.seq := by
  cases hmax : t.maxRow with
  | none => exact Nat.zero_le _
  | some m =>
    obtain ⟨r, hr, hm⟩ := List.mem_map.mp (List.max?_eq_some_iff.mp hmax).1
    rw [Option.getD_some, ← hm]
    exact t.bounded r hr

theorem upTo_maxRow (t : RowTable α) : t.upTo (t.maxRow.getD 0) = t.rows :=
  upTo_of_bound fun _ => le_maxRow

end RowTable

end KimixNative
