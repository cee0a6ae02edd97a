import Mathlib.Data.List.Basic
import Mathlib.Data.List.Induction
import Mathlib.Data.List.Pairwise

/-!
# Texts in cells

A text is cut into numbered cells. A change takes a run of cells, gives its body to the first of
them and empties the others; changes to disjoint runs can be made all at once. Made one after the
other by splices of the text, they come to the same as long as each finds its cells where the
text has them that nothing was done to.
-/

namespace KimixNative.Cells

variable {α : Type*}

/-- A run of cells and what it is replaced by. -/
structure Change (α : Type*) where
  first : ℕ
  last : ℕ
  body : List α
  ordered : first ≤ last

def Change.covers (c : Change α) (k : ℕ) : Bool := decide (c.first ≤ k ∧ k ≤ c.last)

/-- No cell belongs to both. -/
def Change.Apart (c d : Change α) : Prop := c.last < d.first ∨ d.last < c.first

theorem Change.Apart.symm {c d : Change α} (h : c.Apart d) : d.Apart c := Or.symm h

/-- What a cell holds once the changes have been made. -/
def cellAt (own : ℕ → List α) (cs : List (Change α)) (k : ℕ) : List α :=
  (cs.flatMap fun c => if c.first = k then c.body else []) ++
    if cs.any (·.covers k) then [] else own k

/-- The cells from `i` up to but not including `j`. -/
def segment (own : ℕ → List α) (cs : List (Change α)) (i j : ℕ) : List α :=
  (List.range' i (j - i)).flatMap (cellAt own cs)

variable {own : ℕ → List α} {cs ds : List (Change α)} {c : Change α} {i j k : ℕ}

/-! ## Segments -/

theorem segment_append (hij : i ≤ j) (hjk : j ≤ k) :
    segment own cs i j ++ segment own cs j k = segment own cs i k := by
  have hrange : List.range' i (j - i) ++ List.range' j (k - j) = List.range' i (k - i) := by
    have happend := List.range'_append_1 (s := i) (m := j - i) (n := k - j)
    rwa [show i + (j - i) = j by omega, show j - i + (k - j) = k - i by omega] at happend
  rw [segment, segment, segment, ← List.flatMap_append, hrange]

theorem segment_congr {own' : ℕ → List α}
    (h : ∀ k, i ≤ k → k < j → cellAt own cs k = cellAt own' ds k) :
    segment own cs i j = segment own' ds i j := by
  refine List.flatMap_congr fun k hk => ?_
  have hmem := List.mem_range'_1.mp hk
  exact h k hmem.1 (by omega)

theorem segment_self : segment own cs i i = [] := by
  rw [segment, Nat.sub_self, List.range'_zero, List.flatMap_nil]

theorem segment_single : segment own cs k (k + 1) = cellAt own cs k := by
  rw [segment, Nat.add_sub_cancel_left, List.range'_one, List.flatMap_singleton]

theorem segment_eq_nil (h : ∀ k, i ≤ k → k < j → cellAt own cs k = []) :
    segment own cs i j = [] := by
  refine List.flatMap_eq_nil_iff.mpr fun k hk => ?_
  have hmem := List.mem_range'_1.mp hk
  exact h k hmem.1 (by omega)

/-! ## One more change -/

theorem cellAt_concat_of_not_covers (h : c.covers k = false) :
    cellAt own (cs ++ [c]) k = cellAt own cs k := by
  have hfirst : c.first ≠ k := by
    rintro rfl
    exact of_decide_eq_false h ⟨Nat.le_refl _, c.ordered⟩
  rw [cellAt, cellAt, List.flatMap_append, List.flatMap_singleton, if_neg hfirst, List.append_nil,
    List.any_append, List.any_cons, h, List.any_nil, Bool.or_false, Bool.or_false]

/-- No change reaches the cell. -/
theorem cellAt_eq_own (h : ∀ d ∈ cs, d.covers k = false) : cellAt own cs k = own k := by
  have hbodies : (cs.flatMap fun d => if d.first = k then d.body else []) = [] := by
    refine List.flatMap_eq_nil_iff.mpr fun d hd => if_neg ?_
    rintro rfl
    exact of_decide_eq_false (h d hd) ⟨Nat.le_refl _, d.ordered⟩
  have hany : cs.any (·.covers k) = false :=
    List.any_eq_false.mpr fun d hd => by rw [h d hd]; exact Bool.false_ne_true
  rw [cellAt, hbodies, hany, List.nil_append, if_neg Bool.false_ne_true]

theorem covers_eq_false_of_apart {d : Change α} (h : d.Apart c) (hfirst : c.first ≤ k)
    (hlast : k ≤ c.last) : d.covers k = false := by
  refine decide_eq_false fun hd => ?_
  rcases h with h | h <;> omega

theorem cellAt_concat (happart : ∀ d ∈ cs, d.Apart c) (hfirst : c.first ≤ k) (hlast : k ≤ c.last) :
    cellAt own (cs ++ [c]) k = if c.first = k then c.body else [] := by
  have hbodies : (cs.flatMap fun d => if d.first = k then d.body else []) = [] := by
    refine List.flatMap_eq_nil_iff.mpr fun d hd => if_neg ?_
    rintro rfl
    exact of_decide_eq_false (covers_eq_false_of_apart (happart d hd) hfirst hlast)
      ⟨Nat.le_refl _, d.ordered⟩
  have hany : (cs ++ [c]).any (·.covers k) = true :=
    List.any_eq_true.mpr ⟨c, List.mem_concat_self, decide_eq_true ⟨hfirst, hlast⟩⟩
  rw [cellAt, List.flatMap_append, hbodies, List.flatMap_singleton, hany, if_pos rfl,
    List.append_nil, List.nil_append]

/-- The run of the change holds its body, and nothing else has moved. -/
theorem segment_concat (happart : ∀ d ∈ cs, d.Apart c) (hi : i ≤ c.first) (hj : c.last < j) :
    segment own (cs ++ [c]) i j =
      segment own cs i c.first ++ c.body ++ segment own cs (c.last + 1) j := by
  have hord := c.ordered
  have hbefore : segment own (cs ++ [c]) i c.first = segment own cs i c.first :=
    segment_congr fun k _ hk =>
      cellAt_concat_of_not_covers (decide_eq_false fun h => absurd h.1 (by omega))
  have hafter : segment own (cs ++ [c]) (c.last + 1) j = segment own cs (c.last + 1) j :=
    segment_congr fun k hk _ =>
      cellAt_concat_of_not_covers (decide_eq_false fun h => absurd h.2 (by omega))
  have hhead : segment own (cs ++ [c]) c.first (c.first + 1) = c.body := by
    rw [segment_single, cellAt_concat happart (Nat.le_refl _) hord, if_pos rfl]
  have hrest : segment own (cs ++ [c]) (c.first + 1) (c.last + 1) = [] :=
    segment_eq_nil fun k hk hlast => by
      rw [cellAt_concat happart (by omega) (by omega), if_neg (by omega)]
  rw [← segment_append hi (by omega : c.first ≤ j), ← segment_append (by omega : c.first ≤ c.first + 1)
      (by omega : c.first + 1 ≤ j), ← segment_append (by omega : c.first + 1 ≤ c.last + 1) hj,
    hbefore, hhead, hrest, hafter, List.nil_append, List.append_assoc]

/-- Until the change is made its run is as it was. -/
theorem segment_untouched (happart : ∀ d ∈ cs, d.Apart c) :
    segment own cs c.first (c.last + 1) = segment own [] c.first (c.last + 1) :=
  segment_congr fun k hk hlast => by
    rw [cellAt_eq_own fun d hd => covers_eq_false_of_apart (happart d hd) hk (by omega),
      cellAt_eq_own fun d hd => absurd hd List.not_mem_nil]

/-! ## Splices -/

/-- The change puts as much into its run as it takes out of it. -/
def Change.Steady (own : ℕ → List α) (c : Change α) : Prop :=
  c.body.length = (segment own [] c.first (c.last + 1)).length

/-- Changes behind a cell, or that keep the length, leave it where it was. -/
theorem length_segment (happart : cs.Pairwise Change.Apart) {s : ℕ}
    (h : ∀ d ∈ cs, s ≤ d.first ∨ (d.last < s ∧ d.Steady own)) :
    (segment own cs 0 s).length = (segment own [] 0 s).length := by
  induction cs using List.reverseRecOn with
  | nil => rfl
  | append_singleton cs d ih =>
    obtain ⟨hcs, -, hlast⟩ := List.pairwise_append.mp happart
    have hd : ∀ e ∈ cs, e.Apart d := fun e he => hlast e he d List.mem_cons_self
    have hrest := ih hcs fun e he => h e (List.mem_append_left _ he)
    rcases h d List.mem_concat_self with hbehind | ⟨hbefore, hsteady⟩
    · rw [← hrest]
      refine congrArg List.length (segment_congr fun k _ hk => ?_)
      exact cellAt_concat_of_not_covers (decide_eq_false fun hcov => absurd hcov.1 (by omega))
    · rw [segment_concat hd (Nat.zero_le _) hbefore, ← hrest,
        ← segment_append (Nat.zero_le d.first) (by have := d.ordered; omega : d.first ≤ s),
        ← segment_append (by have := d.ordered; omega : d.first ≤ d.last + 1) hbefore,
        segment_untouched hd]
      simp only [List.length_append, hsteady.symm, Nat.add_assoc]

/-- A splice where the untouched text has the run of a change makes this change. -/
theorem splice_eq (happart : cs.Pairwise Change.Apart) (hc : ∀ d ∈ cs, d.Apart c)
    (h : ∀ d ∈ cs, c.first ≤ d.first ∨ (d.last < c.first ∧ d.Steady own)) {n start count : ℕ}
    (hn : c.last < n) (hstart : (segment own [] 0 c.first).length = start)
    (hcount : (segment own [] c.first (c.last + 1)).length = count) :
    start + count ≤ (segment own cs 0 n).length ∧
      (segment own cs 0 n).take start ++ c.body ++ (segment own cs 0 n).drop (start + count) =
        segment own (cs ++ [c]) 0 n := by
  have hord := c.ordered
  have hsplit : segment own cs 0 n = segment own cs 0 c.first ++
      (segment own cs c.first (c.last + 1) ++ segment own cs (c.last + 1) n) := by
    rw [segment_append (by omega) hn, segment_append (Nat.zero_le _) (by omega)]
  have hlen : (segment own cs 0 c.first).length = start := (length_segment happart h).trans hstart
  have hrun : (segment own cs c.first (c.last + 1)).length = count :=
    (congrArg List.length (segment_untouched hc)).trans hcount
  refine ⟨?_, ?_⟩
  · rw [hsplit, List.length_append, List.length_append, hlen, hrun]
    omega
  · rw [segment_concat hc (Nat.zero_le _) hn, hsplit, List.take_left' hlen, ← List.drop_drop,
      List.drop_left' hlen, List.drop_left' hrun]

/-! ## The order of the changes -/

theorem cellAt_of_covers (happart : cs.Pairwise Change.Apart) (hc : c ∈ cs)
    (hcov : c.covers k = true) :
    cellAt own cs k = if c.first = k then c.body else [] := by
  obtain ⟨before, after, rfl⟩ := List.append_of_mem hc
  have hck := of_decide_eq_true hcov
  obtain ⟨-, hcafter, hbefore⟩ := List.pairwise_append.mp happart
  have hsilent : ∀ d : Change α, d.Apart c → (if d.first = k then d.body else []) = [] := by
    intro d hd
    refine if_neg ?_
    rintro rfl
    exact of_decide_eq_false (covers_eq_false_of_apart hd hck.1 hck.2) ⟨Nat.le_refl _, d.ordered⟩
  have hany : (before ++ c :: after).any (·.covers k) = true := List.any_eq_true.mpr ⟨c, hc, hcov⟩
  rw [cellAt, hany, if_pos rfl, List.append_nil, List.flatMap_append, List.flatMap_cons,
    List.flatMap_eq_nil_iff.mpr fun d hd => hsilent d (hbefore d hd c List.mem_cons_self),
    List.flatMap_eq_nil_iff.mpr fun d hd => hsilent d (List.rel_of_pairwise_cons hcafter hd).symm,
    List.nil_append, List.append_nil]

/-- Which changes there are decides what they come to, not how they are listed. -/
theorem cellAt_eq_of_mem_iff (hcs : cs.Pairwise Change.Apart) (hds : ds.Pairwise Change.Apart)
    (h : ∀ c, c ∈ cs ↔ c ∈ ds) : cellAt own cs k = cellAt own ds k := by
  by_cases hcov : ∃ c ∈ cs, c.covers k = true
  · obtain ⟨c, hc, hck⟩ := hcov
    rw [cellAt_of_covers hcs hc hck, cellAt_of_covers hds ((h c).mp hc) hck]
  · have hfree : ∀ c ∈ cs, c.covers k = false := fun c hc =>
      Bool.eq_false_iff.mpr fun hck => hcov ⟨c, hc, hck⟩
    rw [cellAt_eq_own hfree, cellAt_eq_own fun c hc => hfree c ((h c).mpr hc)]

end KimixNative.Cells
