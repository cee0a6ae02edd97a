import KimixNative.Diff.LongestMatch
import KimixNative.Lib.Patch
import Mathlib.Data.List.Chain

/-!
# Opcodes

The matching blocks of two sequences are found around their longest match, to its left and to
its right. Between one block and the next stands at most one opcode that changes something, and
the blocks themselves are the `equal` opcodes.

The blocks climb through both sequences. Two of them never meet in both, as they would be one
common block longer than the match they were found beside; so the opcodes alternate.
-/

namespace KimixNative.Diff

variable {T : Type} [DecidableEq T]

/-- `find_matching_blocks`: the blocks it appends to `out`. -/
def findMatchingBlocks (a b : List T) (alo ahi blo bhi : Nat) : List Match :=
  let m := findLongestMatch a alo ahi (indexPositions b) blo bhi
  have hwithin : Within a b alo blo bhi (ahi - alo) m := findLongestMatch_within a b alo ahi blo bhi
  if hm : m.n = 0 then []
  else
    (if hleft : alo < m.i ∧ blo < m.j then findMatchingBlocks a b alo m.i blo m.j else []) ++ [m] ++
      (if hright : m.i + m.n < ahi ∧ m.j + m.n < bhi then
        findMatchingBlocks a b (m.i + m.n) ahi (m.j + m.n) bhi
      else [])
  termination_by ahi - alo
  decreasing_by
    · have := hwithin.right
      show m.i - alo < ahi - alo
      omega
    · have := hwithin.left
      show ahi - (m.i + m.n) < ahi - alo
      omega

/-- How an opcode changes its ranges. -/
inductive OpTag where
  | equal
  | replace
  | delete
  | insert
  deriving DecidableEq

/-- `opcode`: what happens between `i1` and `i2` of the old and `j1` and `j2` of the new
sequence. -/
structure Opcode where
  tag : OpTag
  i1 : Nat
  i2 : Nat
  j1 : Nat
  j2 : Nat
  deriving DecidableEq

/-- The opcode of what lies between two blocks. -/
def gapOpcode (i1 j1 i2 j2 : Nat) : List Opcode :=
  if i1 < i2 ∨ j1 < j2 then
    [⟨if i1 < i2 ∧ j1 < j2 then .replace else if i1 < i2 then .delete else .insert,
      i1, i2, j1, j2⟩]
  else []

/-- The opcode of a block. -/
def blockOpcode (m : Match) : List Opcode :=
  if 0 < m.n then [⟨.equal, m.i, m.i + m.n, m.j, m.j + m.n⟩] else []

/-- The loop of `compute_opcodes_impl`, the last block having ended at `i1` and `j1`. -/
def opcodesFrom (i1 j1 : Nat) : List Match → List Opcode
  | [] => []
  | m :: rest =>
    gapOpcode i1 j1 m.i m.j ++ blockOpcode m ++ opcodesFrom (m.i + m.n) (m.j + m.n) rest

/-- `compute_opcodes_impl`. -/
def computeOpcodes (a b : List T) : List Opcode :=
  opcodesFrom 0 0 (findMatchingBlocks a b 0 a.length 0 b.length ++ [⟨a.length, b.length, 0⟩])

/-! ### The blocks -/

/-- Blocks that climb through both sequences, from `i` and `j` to `i'` and `j'`, with something
between any two. -/
inductive Ladder (a b : List T) : Nat → Nat → List Match → Nat → Nat → Prop
  | nil {i j i' j' : Nat} (hi : i ≤ i') (hj : j ≤ j') : Ladder a b i j [] i' j'
  | cons {i j i' j' : Nat} {m : Match} {rest : List Match} (hi : i ≤ m.i) (hj : j ≤ m.j)
      (hn : 0 < m.n) (common : IsCommon a b m.i m.j m.n)
      (apart : ∀ m' ∈ rest.head?, m.i + m.n < m'.i ∨ m.j + m.n < m'.j)
      (h : Ladder a b (m.i + m.n) (m.j + m.n) rest i' j') : Ladder a b i j (m :: rest) i' j'

variable {m : Match} {ops : List Opcode}

namespace Ladder

variable {a b : List T} {i j i' j' : Nat} {ms : List Match}

theorem bounds (h : Ladder a b i j ms i' j') : i ≤ i' ∧ j ≤ j' := by
  induction h with
  | nil hi hj => exact ⟨hi, hj⟩
  | cons hi hj hn common apart h ih => omega

/-- Every block lies inside. -/
theorem inside (h : Ladder a b i j ms i' j') (hm : m ∈ ms) :
    i ≤ m.i ∧ j ≤ m.j ∧ m.i + m.n ≤ i' ∧ m.j + m.n ≤ j' ∧ 0 < m.n ∧ IsCommon a b m.i m.j m.n := by
  induction h with
  | nil hi hj => cases hm
  | cons hi hj hn common apart h ih =>
    rcases List.mem_cons.mp hm with rfl | hrest
    · have := h.bounds
      exact ⟨hi, hj, this.1, this.2, hn, common⟩
    · obtain ⟨hi', hj', hrest'⟩ := ih hrest
      exact ⟨by omega, by omega, hrest'⟩

/-- A block between two ladders, with something between it and the blocks beside it. -/
theorem join {before after : List Match} (hbefore : Ladder a b i j before m.i m.j) (hn : 0 < m.n)
    (common : IsCommon a b m.i m.j m.n)
    (hlast : ∀ m' ∈ before, m'.i + m'.n < m.i ∨ m'.j + m'.n < m.j)
    (hfirst : ∀ m' ∈ after, m.i + m.n < m'.i ∨ m.j + m.n < m'.j)
    (hafter : Ladder a b (m.i + m.n) (m.j + m.n) after i' j') :
    Ladder a b i j (before ++ [m] ++ after) i' j' := by
  generalize hi' : m.i = mi at hbefore
  generalize hj' : m.j = mj at hbefore
  induction hbefore with
  | nil hi hj =>
    subst hi' hj'
    exact .cons hi hj hn common (fun m' hm' => hfirst m' (List.mem_of_mem_head? hm')) hafter
  | @cons i j _ _ first rest hi hj hfn hcommon apart h ih =>
    subst hi' hj'
    refine .cons hi hj hfn hcommon (fun m' hm' => ?_)
      (ih (fun m' hm' => hlast m' (List.mem_cons_of_mem first hm')) rfl rfl)
    cases rest with
    | nil =>
      obtain rfl : m = m' := by simpa using hm'
      exact hlast first List.mem_cons_self
    | cons second rest => exact apart m' (by simpa using hm')

end Ladder

/-- The blocks of a window climb through it, and no two of them meet. -/
theorem findMatchingBlocks_ladder (a b : List T) (alo ahi blo bhi : Nat) (ha : alo ≤ ahi)
    (hb : blo ≤ bhi) :
    Ladder a b alo blo (findMatchingBlocks a b alo ahi blo bhi) ahi bhi := by
  induction alo, ahi, blo, bhi using findMatchingBlocks.induct a b with
  | case1 alo ahi blo bhi m hwithin hm =>
    rw [findMatchingBlocks, dif_pos hm]
    exact .nil ha hb
  | case2 alo ahi blo bhi m hwithin hm ihleft ihright =>
    obtain ⟨hcommon, hleft, hright, hlow, hhigh⟩ := hwithin
    have hmost : ∀ {i j n : Nat}, alo ≤ i → i + n ≤ ahi → blo ≤ j → j + n ≤ bhi →
        IsCommon a b i j n → n ≤ m.n := le_findLongestMatch
    have hbefore : Ladder a b alo blo (if alo < m.i ∧ blo < m.j then
        findMatchingBlocks a b alo m.i blo m.j else []) m.i m.j := by
      split
      · exact ihleft ‹_› hleft hlow
      · exact .nil hleft hlow
    have hafter : Ladder a b (m.i + m.n) (m.j + m.n)
        (if m.i + m.n < ahi ∧ m.j + m.n < bhi then
          findMatchingBlocks a b (m.i + m.n) ahi (m.j + m.n) bhi else []) ahi bhi := by
      split
      · exact ihright ‹_› (by omega) (by omega)
      · exact .nil (by omega) (by omega)
    rw [findMatchingBlocks, dif_neg hm]
    -- blocks that meet would be one common block, longer than the longest match
    refine hbefore.join (Nat.pos_of_ne_zero hm) hcommon (fun m' hm' => ?_) (fun m' hm' => ?_)
      hafter
    · obtain ⟨hi, hj, hi', hj', hn, hcommon'⟩ := hbefore.inside hm'
      by_contra hmeet
      have hi'' : m'.i + m'.n = m.i := by omega
      have hj'' : m'.j + m'.n = m.j := by omega
      have := hmost (n := m'.n + m.n) hi (by omega) hj (by omega)
        (hcommon'.append (by rw [hi'', hj'']; exact hcommon))
      omega
    · obtain ⟨hi, hj, hi', hj', hn, hcommon'⟩ := hafter.inside hm'
      by_contra hmeet
      have hi'' : m.i + m.n = m'.i := by omega
      have hj'' : m.j + m.n = m'.j := by omega
      have := hmost (n := m.n + m'.n) hleft (by omega) hlow (by omega)
        (hcommon.append (by rw [hi'', hj'']; exact hcommon'))
      omega

/-! ### The script -/

/-- The elements of a range. -/
def slice (l : List T) (start stop : Nat) : List T := (l.drop start).take (stop - start)

/-- What an opcode puts into the new sequence. -/
def Opcode.emit (a b : List T) (op : Opcode) : List T :=
  match op.tag with
  | .equal => slice a op.i1 op.i2
  | .delete => []
  | .insert => slice b op.j1 op.j2
  | .replace => slice b op.j1 op.j2

/-- Replaying opcodes: `equal` copies from the old sequence. -/
def replay (a b : List T) (ops : List Opcode) : List T := ops.flatMap (Opcode.emit a b)

/-- The tag says which ranges are empty, and equal ranges hold equal elements. -/
def Opcode.Tagged (a b : List T) (op : Opcode) : Prop :=
  match op.tag with
  | .equal => op.i1 < op.i2 ∧ op.i2 - op.i1 = op.j2 - op.j1 ∧ slice a op.i1 op.i2 = slice b op.j1 op.j2
  | .delete => op.i1 < op.i2 ∧ op.j1 = op.j2
  | .insert => op.i1 = op.i2 ∧ op.j1 < op.j2
  | .replace => op.i1 < op.i2 ∧ op.j1 < op.j2

/-- Of two opcodes in a row exactly one is `equal`. -/
def Opcode.Alternate (op op' : Opcode) : Prop := op.tag = .equal ↔ op'.tag ≠ .equal

/-- The ranges follow on one another, from `i` and `j` to `i'` and `j'`. -/
inductive Covers : Nat → Nat → List Opcode → Nat → Nat → Prop
  | nil (i j : Nat) : Covers i j [] i j
  | cons (op : Opcode) {ops : List Opcode} {i' j' : Nat} (hi : op.i1 ≤ op.i2)
      (hj : op.j1 ≤ op.j2) (h : Covers op.i2 op.j2 ops i' j') :
      Covers op.i1 op.j1 (op :: ops) i' j'

theorem Covers.append {i j i' j' i'' j'' : Nat} {ops' : List Opcode} (h : Covers i j ops i' j')
    (h' : Covers i' j' ops' i'' j'') : Covers i j (ops ++ ops') i'' j'' := by
  induction h with
  | nil => exact h'
  | cons op hi hj h ih => exact .cons op hi hj (ih h')

theorem Covers.le {i j i' j' : Nat} (h : Covers i j ops i' j') : i ≤ i' ∧ j ≤ j' := by
  induction h with
  | nil => exact ⟨Nat.le_refl _, Nat.le_refl _⟩
  | cons op hi hj h ih => exact ⟨Nat.le_trans hi ih.1, Nat.le_trans hj ih.2⟩

omit [DecidableEq T] in
theorem slice_append (l : List T) {i j k : Nat} (hij : i ≤ j) (hjk : j ≤ k) :
    slice l i j ++ slice l j k = slice l i k :=
  stretch_append l hij hjk

omit [DecidableEq T] in
theorem Opcode.Tagged.emit_eq {a b : List T} {op : Opcode} (h : op.Tagged a b) :
    op.emit a b = slice b op.j1 op.j2 := by
  obtain ⟨tag, i1, i2, j1, j2⟩ := op
  cases tag with
  | equal => exact h.2.2
  | replace => rfl
  | insert => rfl
  | delete =>
    obtain rfl : j1 = j2 := h.2
    simp [emit, slice]

omit [DecidableEq T] in
/-- Tagged opcodes put the covered range of the new sequence together. -/
theorem Covers.replay_eq {a b : List T} {i j i' j' : Nat} (h : Covers i j ops i' j')
    (htagged : ∀ op ∈ ops, op.Tagged a b) : replay a b ops = slice b j j' := by
  induction h with
  | nil => simp [replay, slice]
  | cons op hi hj h ih =>
    have hrest := ih fun op' hop' => htagged op' (List.mem_cons_of_mem op hop')
    rw [replay] at hrest
    rw [replay, List.flatMap_cons, hrest, (htagged op List.mem_cons_self).emit_eq,
      slice_append b hj h.le.2]

theorem gapOpcode_covers {i1 j1 i2 j2 : Nat} (hi : i1 ≤ i2) (hj : j1 ≤ j2) :
    Covers i1 j1 (gapOpcode i1 j1 i2 j2) i2 j2 := by
  rw [gapOpcode]
  split
  · exact .cons ⟨_, i1, i2, j1, j2⟩ hi hj (.nil i2 j2)
  · next hnone =>
      obtain rfl : i1 = i2 := by omega
      obtain rfl : j1 = j2 := by omega
      exact .nil i1 j1

omit [DecidableEq T] in
theorem gapOpcode_tagged (a b : List T) {i1 j1 i2 j2 : Nat} (hi : i1 ≤ i2) (hj : j1 ≤ j2) :
    ∀ op ∈ gapOpcode i1 j1 i2 j2, op.Tagged a b ∧ op.tag ≠ .equal := by
  intro op hop
  rw [gapOpcode] at hop
  split at hop
  · next hsome =>
      obtain rfl := List.mem_singleton.mp hop
      by_cases hi' : i1 < i2
      · by_cases hj' : j1 < j2
        · simp [Opcode.Tagged, hi', hj']
        · simp only [Opcode.Tagged, hi', hj', and_false, if_false, if_true]
          exact ⟨⟨trivial, by omega⟩, by simp⟩
      · simp only [Opcode.Tagged, hi', false_and, if_false]
        exact ⟨by omega, by simp⟩
  · cases hop

section Script

variable {a b : List T} {i j : Nat} {ms : List Match}

theorem blockOpcode_eq (hn : 0 < m.n) :
    blockOpcode m = [⟨.equal, m.i, m.i + m.n, m.j, m.j + m.n⟩] := if_pos hn

theorem opcodesFrom_covers (h : Ladder a b i j ms a.length b.length) :
    Covers i j (opcodesFrom i j (ms ++ [⟨a.length, b.length, 0⟩])) a.length b.length := by
  generalize a.length = i', b.length = j' at h
  induction h with
  | nil hi hj => simpa [opcodesFrom, blockOpcode] using gapOpcode_covers hi hj
  | @cons i j i' j' m rest hi hj hn common apart h ih =>
    rw [List.cons_append, opcodesFrom, blockOpcode_eq hn, List.append_assoc]
    exact (gapOpcode_covers hi hj).append (.cons ⟨.equal, m.i, m.i + m.n, m.j, m.j + m.n⟩
      (Nat.le_add_right _ _) (Nat.le_add_right _ _) ih)

theorem opcodesFrom_tagged (h : Ladder a b i j ms a.length b.length) :
    ∀ op ∈ opcodesFrom i j (ms ++ [⟨a.length, b.length, 0⟩]), op.Tagged a b := by
  generalize a.length = i', b.length = j' at h
  induction h with
  | nil hi hj =>
    intro op hop
    refine (gapOpcode_tagged a b hi hj op ?_).1
    simpa [opcodesFrom, blockOpcode] using hop
  | @cons i j i' j' m rest hi hj hn common apart h ih =>
    intro op hop
    rw [List.cons_append, opcodesFrom, blockOpcode_eq hn, List.append_assoc,
      List.mem_append, List.singleton_append, List.mem_cons] at hop
    rcases hop with hgap | rfl | hrest
    · exact (gapOpcode_tagged a b hi hj op hgap).1
    · refine ⟨Nat.lt_add_of_pos_right hn, by dsimp only; omega, ?_⟩
      simpa [slice] using common.slices_eq
    · exact ih op hrest

/-- The script begins with `equal` only if the first block begins there. -/
theorem opcodesFrom_head (h : Ladder a b i j ms a.length b.length) :
    ∀ op ∈ (opcodesFrom i j (ms ++ [⟨a.length, b.length, 0⟩])).head?, op.tag = .equal →
      ∃ m ∈ ms.head?, m.i = i ∧ m.j = j := by
  intro op hop htag
  cases h with
  | nil hi hj =>
    have hmem : op ∈ gapOpcode i j a.length b.length := by
      simpa [opcodesFrom, blockOpcode] using List.mem_of_mem_head? hop
    exact absurd htag (gapOpcode_tagged a b hi hj op hmem).2
  | @cons _ _ _ _ m rest hi hj hn common apart h =>
    by_cases hgap : i < m.i ∨ j < m.j
    · refine absurd htag (gapOpcode_tagged a b hi hj op ?_).2
      rw [List.cons_append, opcodesFrom, gapOpcode, if_pos hgap] at hop
      rw [gapOpcode, if_pos hgap]
      exact List.mem_singleton.mpr (Option.mem_some.mp hop).symm
    · exact ⟨m, rfl, by omega, by omega⟩

/-- The script takes turns between `equal` and the other tags. -/
theorem opcodesFrom_alternates (h : Ladder a b i j ms a.length b.length) :
    (opcodesFrom i j (ms ++ [⟨a.length, b.length, 0⟩])).IsChain
      Opcode.Alternate := by
  have hhead : ∀ {i j : Nat} {ms : List Match}, Ladder a b i j ms a.length b.length →
      ∀ op ∈ (opcodesFrom i j (ms ++ [⟨a.length, b.length, 0⟩])).head?, op.tag = .equal →
        ∃ m ∈ ms.head?, m.i = i ∧ m.j = j := opcodesFrom_head
  generalize a.length = i', b.length = j' at h hhead
  induction h with
  | @nil i j i' j' hi hj =>
    have hgap : (gapOpcode i j i' j').IsChain Opcode.Alternate := by
      rw [gapOpcode]
      split
      · exact .singleton _
      · exact .nil
    simpa [opcodesFrom, blockOpcode] using hgap
  | @cons i j i' j' m rest hi hj hn common apart h ih =>
    have hblock : (⟨.equal, m.i, m.i + m.n, m.j, m.j + m.n⟩ ::
        opcodesFrom (m.i + m.n) (m.j + m.n) (rest ++ [⟨i', j', 0⟩])).IsChain
          Opcode.Alternate := by
      refine List.isChain_cons.mpr ⟨fun op hop => ?_, ih hhead⟩
      refine iff_of_true rfl fun htag => ?_
      obtain ⟨m', hm', hi', hj'⟩ := hhead h op hop htag
      have := apart m' hm'
      omega
    rw [List.cons_append, opcodesFrom, blockOpcode_eq hn, List.append_assoc,
      List.singleton_append]
    rw [gapOpcode]
    split
    · refine List.isChain_cons.mpr ⟨fun op hop => ?_, hblock⟩
      obtain rfl := Option.mem_some.mp hop
      refine iff_of_false (gapOpcode_tagged a b hi hj _ ?_).2 (not_not.mpr rfl)
      rw [gapOpcode, if_pos ‹_›]
      exact List.mem_singleton.mpr rfl
    · exact hblock

end Script

/-- The opcodes cut both sequences into ranges without gaps, say of each what it is, put the new
sequence together from the old one, and take turns between `equal` and the other tags. -/
theorem computeOpcodes_normalForm (a b : List T) :
    Covers 0 0 (computeOpcodes a b) a.length b.length ∧
      (∀ op ∈ computeOpcodes a b, op.Tagged a b) ∧
      replay a b (computeOpcodes a b) = b ∧
      (computeOpcodes a b).IsChain Opcode.Alternate := by
  have hladder := findMatchingBlocks_ladder a b 0 a.length 0 b.length (Nat.zero_le _)
    (Nat.zero_le _)
  have hcovers := opcodesFrom_covers hladder
  have htagged := opcodesFrom_tagged hladder
  refine ⟨hcovers, htagged, ?_, opcodesFrom_alternates hladder⟩
  rw [computeOpcodes, hcovers.replay_eq htagged]
  simp [slice]

end KimixNative.Diff
