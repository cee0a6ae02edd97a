import KimixNative.Lib.CommonBlocks
import KimixNative.Lib.Table

/-!
# The longest match of two windows

The positions of every element of `b` are indexed once. A search of a window goes through the
rows of `a` and keeps the run lengths of one row only: two rows are swapped after every element,
and of the row that is written next only the places it was written at are cleared.

What the search returns is a common block of the window, and no common block of the window is
longer.
-/

namespace KimixNative.Diff

variable {T : Type} [DecidableEq T]

/-- `match`: `n` equal elements from `i` and from `j` on. -/
structure Match where
  i : Nat := 0
  j : Nat := 0
  n : Nat := 0
  deriving DecidableEq

/-- The `b2j` map: the positions of each element of `b`, ascending. -/
def indexPositions (b : List T) : Table T (List Nat) :=
  b.zipIdx.foldl (fun b2j entry =>
    b2j.insert entry.1 ((b2j.find? entry.1).getD [] ++ [entry.2])) ∅

/-- The two rows of run lengths, the places written in each, and the best match so far. -/
structure Rows where
  prev : List Nat
  curr : List Nat
  prevTouched : List Nat := []
  currTouched : List Nat := []
  best : Match

/-- Clear the places a row was written at. -/
def clearTouched (row touched : List Nat) : List Nat :=
  touched.foldl (fun row p => row.set p 0) row

/-- `prev.swap(curr)`, with the places written. -/
def Rows.swap (rows : Rows) : Rows :=
  { rows with
    prev := rows.curr
    curr := rows.prev
    prevTouched := rows.currTouched
    currTouched := rows.prevTouched }

/-- The run length at `j`, from the row before. -/
def runAt (prev : List Nat) (blo j : Nat) : Nat :=
  if blo < j then
    if prev.getD (j - 1 - blo) 0 ≠ 0 then prev.getD (j - 1 - blo) 0 + 1 else 1
  else 1

/-- The best match after a run of `k` elements that ends at `i` and `j`: a strictly longer one
replaces it. -/
def Match.orRun (best : Match) (i j k : Nat) : Match :=
  if best.n < k then ⟨i + 1 - k, j + 1 - k, k⟩ else best

/-- One position of the row's element in `b`. -/
def visitPosition (blo bhi i : Nat) (rows : Rows) (j : Nat) : Rows :=
  if j < blo ∨ bhi ≤ j then rows
  else
    { rows with
      curr := rows.curr.set (j - blo) (runAt rows.prev blo j)
      currTouched := rows.currTouched ++ [j - blo]
      best := rows.best.orRun i j (runAt rows.prev blo j) }

/-- One row of the search. -/
def visitRow (a : List T) (b2j : Table T (List Nat)) (blo bhi : Nat) (rows : Rows) (i : Nat) :
    Rows :=
  let cleared : Rows :=
    { rows with curr := clearTouched rows.curr rows.currTouched, currTouched := [] }
  match a[i]?.bind b2j.find? with
  | none => cleared.swap
  | some positions => (positions.foldl (visitPosition blo bhi i) cleared).swap

/-- `find_longest_match`. -/
def findLongestMatch (a : List T) (alo ahi : Nat) (b2j : Table T (List Nat)) (blo bhi : Nat) :
    Match :=
  ((List.range' alo (ahi - alo)).foldl (visitRow a b2j blo bhi)
    { prev := List.replicate (bhi - blo) 0
      curr := List.replicate (bhi - blo) 0
      best := ⟨alo, blo, 0⟩ }).best

/-! ### The index -/

theorem indexPositions_concat (b : List T) (x : T) :
    indexPositions (b ++ [x]) = (indexPositions b).insert x
      (((indexPositions b).find? x).getD [] ++ [b.length]) := by
  simp only [indexPositions, List.zipIdx_append, List.foldl_append, Nat.zero_add,
    List.zipIdx_singleton, List.foldl_cons, List.foldl_nil]

/-- An element is indexed at the places it stands at. -/
theorem mem_indexPositions (b : List T) (x : T) (j : Nat) :
    (∃ js, (indexPositions b).find? x = some js ∧ j ∈ js) ↔ b[j]? = some x := by
  induction b using List.reverseRecOn with
  | nil => simp [indexPositions]
  | append_singleton b y ih =>
    rw [indexPositions_concat]
    by_cases hxy : x = y
    · subst hxy
      simp only [Table.find?_insert_self, Option.some.injEq, exists_eq_left',
        List.mem_append, List.mem_singleton]
      constructor
      · rintro (hj | rfl)
        · have hold : b[j]? = some x := by
            refine ih.mp ?_
            cases hfind : (indexPositions b).find? x with
            | none => simp [hfind] at hj
            | some js => exact ⟨js, rfl, by simpa [hfind] using hj⟩
          rw [List.getElem?_append_left (List.getElem?_eq_some_iff.mp hold).choose]
          exact hold
        · exact List.getElem?_concat_length
      · intro hj
        by_cases hlt : j < b.length
        · rw [List.getElem?_append_left hlt] at hj
          obtain ⟨js, hfind, hmem⟩ := ih.mpr hj
          exact Or.inl (by simpa [hfind] using hmem)
        · have := (List.getElem?_eq_some_iff.mp hj).choose
          simp only [List.length_append, List.length_singleton] at this
          exact Or.inr (by omega)
    · rw [Table.find?_insert, if_neg hxy, ih]
      by_cases hlt : j < b.length
      · rw [List.getElem?_append_left hlt]
      · rw [List.getElem?_eq_none (Nat.le_of_not_lt hlt)]
        rw [List.getElem?_append_right (Nat.le_of_not_lt hlt)]
        cases j - b.length with
        | zero => simpa using fun h => hxy h.symm
        | succ k => simp

/-! ### One row -/

theorem getD_clearTouched (row touched : List Nat) (c : Nat) :
    (clearTouched row touched).getD c 0 = if c ∈ touched then 0 else row.getD c 0 := by
  induction touched generalizing row with
  | nil => rfl
  | cons p rest ih =>
    have hset : (row.set p 0).getD c 0 = if p = c then 0 else row.getD c 0 := by
      by_cases hp : p = c
      · subst hp
        by_cases hlt : p < row.length <;> simp [List.getD_eq_getElem?_getD, hlt]
      · simp [List.getD_eq_getElem?_getD, List.getElem?_set_ne hp, hp]
    rw [clearTouched, List.foldl_cons, ← clearTouched, ih, hset]
    by_cases hp : p = c
    · simp [hp]
    · have hne : c ≠ p := fun h => hp h.symm
      simp only [List.mem_cons, hne, false_or, if_neg hp]

@[simp] theorem length_clearTouched (row touched : List Nat) :
    (clearTouched row touched).length = row.length := by
  induction touched generalizing row with
  | nil => rfl
  | cons p rest ih =>
    rw [clearTouched, List.foldl_cons, ← clearTouched, ih, List.length_set]

/-- A row of the window between `blo` and `bhi` holds `f`, and its places are written down. -/
structure Holds (blo bhi : Nat) (row touched : List Nat) (f : Nat → Nat) : Prop where
  width : row.length = bhi - blo
  value : ∀ c < bhi - blo, row.getD c 0 = f c
  touched : ∀ c < bhi - blo, f c ≠ 0 → c ∈ touched

theorem Match.le_orRun (best : Match) (i j k : Nat) :
    best.n ≤ (best.orRun i j k).n ∧ k ≤ (best.orRun i j k).n := by
  rw [orRun]
  split
  · next h => exact ⟨Nat.le_of_lt h, Nat.le_refl k⟩
  · next h => exact ⟨Nat.le_refl best.n, Nat.le_of_not_lt h⟩

/-- A match between the first rows and the columns of a window. -/
structure Within (a b : List T) (alo blo bhi rows : Nat) (m : Match) : Prop where
  common : IsCommon a b m.i m.j m.n
  left : alo ≤ m.i
  right : m.i + m.n ≤ alo + rows
  low : blo ≤ m.j
  high : m.j + m.n ≤ blo + (bhi - blo)

section Search

variable {a b : List T} {alo blo bhi : Nat}

theorem Holds.clear {row touched : List Nat} {f : Nat → Nat} (h : Holds blo bhi row touched f) :
    Holds blo bhi (clearTouched row touched) [] fun _ => 0 where
  width := by rw [length_clearTouched, h.width]
  value := by
    intro c hc
    rw [getD_clearTouched]
    split
    · rfl
    · next hmem =>
        rw [h.value c hc]
        by_contra hne
        exact hmem (h.touched c hc hne)
  touched := fun _ _ h => absurd rfl h

/-- The rows between two elements of `a`: the row before holds the runs that end with it, and no
run so far is longer than the best match. -/
structure Scanned (a b : List T) (alo blo bhi r : Nat) (rows : Rows) : Prop where
  prev : Holds blo bhi rows.prev rows.prevTouched (commonRun a b alo blo r)
  curr : ∃ f, Holds blo bhi rows.curr rows.currTouched f
  best : Within a b alo blo bhi r rows.best
  most : ∀ r' ≤ r, ∀ c < bhi - blo, commonRun a b alo blo r' c ≤ rows.best.n

/-- The rows while the positions of an element are visited, those of `seen` behind. -/
structure Scanning (a b : List T) (alo blo bhi r : Nat) (seen : List Nat) (rows : Rows) :
    Prop where
  prev : Holds blo bhi rows.prev rows.prevTouched (commonRun a b alo blo r)
  curr : Holds blo bhi rows.curr rows.currTouched fun c =>
    if blo + c ∈ seen then commonRun a b alo blo (r + 1) c else 0
  best : Within a b alo blo bhi (r + 1) rows.best
  most : ∀ r' ≤ r, ∀ c < bhi - blo, commonRun a b alo blo r' c ≤ rows.best.n
  seen_most : ∀ c < bhi - blo, blo + c ∈ seen → commonRun a b alo blo (r + 1) c ≤ rows.best.n

variable {r : Nat} {rows : Rows}

theorem runAt_eq {prev touched : List Nat} {j : Nat}
    (h : Holds blo bhi prev touched (commonRun a b alo blo r)) (hlow : blo ≤ j) (hhigh : j < bhi)
    (hagree : Agree a b (alo + r) j) :
    runAt prev blo j = commonRun a b alo blo (r + 1) (j - blo) := by
  obtain ⟨c, rfl⟩ := Nat.exists_eq_add_of_le hlow
  rw [Nat.add_sub_cancel_left]
  cases c with
  | zero => rw [runAt, if_neg (by omega), commonRun, if_pos (by simpa using hagree)]
  | succ c =>
    have hprev : prev.getD (blo + (c + 1) - 1 - blo) 0 = commonRun a b alo blo r c := by
      have hc : blo + (c + 1) - 1 - blo = c := by omega
      rw [hc, h.value c (by omega)]
    rw [runAt, if_pos (by omega), hprev, commonRun, if_pos hagree]
    split
    · rfl
    · next hzero => rw [not_not.mp hzero]

/-- Visiting one more position of the row's element. -/
theorem Scanning.visit {j : Nat} {seen : List Nat} (h : Scanning a b alo blo bhi r seen rows)
    (hagree : Agree a b (alo + r) j) :
    Scanning a b alo blo bhi r (seen ++ [j]) (visitPosition blo bhi (alo + r) rows j) := by
  rw [visitPosition]
  split
  · next hout =>
      have hiff : ∀ c < bhi - blo, (blo + c ∈ seen ++ [j] ↔ blo + c ∈ seen) := by
        intro c hc
        rw [List.mem_append, List.mem_singleton, or_iff_left (by omega)]
      refine ⟨h.prev, ⟨h.curr.width, fun c hc => ?_, fun c hc => ?_⟩, h.best, h.most, ?_⟩
      · rw [h.curr.value c hc, if_congr (hiff c hc) rfl rfl]
      · rw [if_congr (hiff c hc) rfl rfl]
        exact h.curr.touched c hc
      · exact fun c hc hmem => h.seen_most c hc ((hiff c hc).mp hmem)
  · next hin =>
      obtain ⟨hlow, hhigh⟩ : blo ≤ j ∧ j < bhi := by omega
      have hrun := runAt_eq h.prev hlow hhigh hagree
      have hle := commonRun_le a b alo blo (r + 1) (j - blo)
      have hmem : ∀ c < bhi - blo, (blo + c ∈ seen ++ [j] ↔ c = j - blo ∨ blo + c ∈ seen) := by
        intro c hc
        rw [List.mem_append, List.mem_singleton, or_comm]
        exact or_congr_left (by omega)
      have hgrown := rows.best.le_orRun (alo + r) j (runAt rows.prev blo j)
      refine ⟨h.prev, ⟨?_, fun c hc => ?_, fun c hc hne => ?_⟩, ?_, fun r' hr c hc => ?_,
        fun c hc hseen => ?_⟩
      · rw [List.length_set, h.curr.width]
      · by_cases hcj : c = j - blo
        · subst hcj
          rw [if_pos ((hmem _ hc).mpr (Or.inl rfl)), ← hrun]
          simp [List.getD_eq_getElem?_getD, h.curr.width, hc]
        · rw [List.getD_eq_getElem?_getD, List.getElem?_set_ne (Ne.symm hcj),
            ← List.getD_eq_getElem?_getD, h.curr.value c hc]
          refine if_congr ?_ rfl rfl
          rw [hmem c hc, or_iff_right hcj]
      · rw [List.mem_append, List.mem_singleton]
        by_cases hcj : c = j - blo
        · exact Or.inr hcj
        · rw [if_congr ((hmem c hc).trans (or_iff_right hcj)) rfl rfl] at hne
          exact Or.inl (h.curr.touched c hc hne)
      · dsimp only [Match.orRun]
        split
        · rw [hrun]
          have hcommon := commonRun_isCommon a b alo blo (r + 1) (j - blo)
          have hj : blo + (j - blo) + 1 = j + 1 := by omega
          rw [hj, ← Nat.add_assoc] at hcommon
          exact ⟨hcommon, by dsimp only; omega, by dsimp only; omega, by dsimp only; omega,
            by dsimp only; omega⟩
        · exact h.best
      · exact Nat.le_trans (h.most r' hr c hc) hgrown.1
      · rcases (hmem c hc).mp hseen with rfl | hold
        · exact hrun ▸ hgrown.2
        · exact Nat.le_trans (h.seen_most c hc hold) hgrown.1

theorem Scanning.visitAll {seen positions : List Nat} (h : Scanning a b alo blo bhi r seen rows)
    (hagree : ∀ j ∈ positions, Agree a b (alo + r) j) :
    Scanning a b alo blo bhi r (seen ++ positions)
      (positions.foldl (visitPosition blo bhi (alo + r)) rows) := by
  induction positions generalizing seen rows with
  | nil => simpa using h
  | cons j rest ih =>
    have hrest := ih (h.visit (hagree j List.mem_cons_self))
      fun j' hj' => hagree j' (List.mem_cons_of_mem j hj')
    rwa [List.append_assoc, List.singleton_append] at hrest

/-- A row whose positions are all visited is the row before of the next element. -/
theorem Scanning.swap {seen : List Nat} (h : Scanning a b alo blo bhi r seen rows)
    (hall : ∀ j, j ∈ seen ↔ Agree a b (alo + r) j) : Scanned a b alo blo bhi (r + 1) rows.swap := by
  have hrow : ∀ c, commonRun a b alo blo (r + 1) c =
      if blo + c ∈ seen then commonRun a b alo blo (r + 1) c else 0 := by
    intro c
    split
    · rfl
    · next hnot =>
        rw [hall] at hnot
        cases c with
        | zero => rw [commonRun, if_neg (by simpa using hnot)]
        | succ c => rw [commonRun, if_neg hnot]
  refine ⟨?_, ⟨_, h.prev⟩, h.best, fun r' hr c hc => ?_⟩
  · have hfun : commonRun a b alo blo (r + 1) = fun c =>
        if blo + c ∈ seen then commonRun a b alo blo (r + 1) c else 0 := funext hrow
    rw [hfun]
    exact h.curr
  · rcases Nat.lt_or_eq_of_le hr with hlt | rfl
    · exact h.most r' (by omega) c hc
    · rw [hrow]
      split
      · exact h.seen_most c hc ‹_›
      · exact Nat.zero_le _

/-- Before a row is visited the places of the row after it are cleared. -/
theorem Scanned.cleared (h : Scanned a b alo blo bhi r rows) :
    Scanning a b alo blo bhi r []
      { rows with curr := clearTouched rows.curr rows.currTouched, currTouched := [] } := by
  obtain ⟨f, hcurr⟩ := h.curr
  refine ⟨h.prev, by simpa using hcurr.clear, ?_, h.most, fun _ _ hmem => by simp at hmem⟩
  exact { h.best with right := Nat.le_succ_of_le h.best.right }

theorem mem_unindexed_iff {i : Nat} (h : a[i]?.bind (indexPositions b).find? = none)
    (j : Nat) : j ∈ ([] : List Nat) ↔ Agree a b i j := by
  simp only [List.not_mem_nil, false_iff, agree_iff]
  rintro ⟨x, ha, hb⟩
  obtain ⟨js, hjs, -⟩ := (mem_indexPositions b x j).mpr hb
  simp [ha, hjs] at h

theorem mem_indexed_iff {i : Nat} {positions : List Nat}
    (h : a[i]?.bind (indexPositions b).find? = some positions) (j : Nat) :
    j ∈ positions ↔ Agree a b i j := by
  obtain ⟨x, ha, hx⟩ := Option.bind_eq_some_iff.mp h
  rw [agree_iff, ha]
  simp only [Option.some.injEq, exists_eq_left']
  rw [← mem_indexPositions b x j, hx]
  simp

/-- One row of the search. -/
theorem Scanned.visitRow (h : Scanned a b alo blo bhi r rows) :
    Scanned a b alo blo bhi (r + 1)
      (visitRow a (indexPositions b) blo bhi rows (alo + r)) := by
  simp only [Diff.visitRow]
  cases hfind : a[alo + r]?.bind (indexPositions b).find? with
  | none => exact h.cleared.swap (mem_unindexed_iff hfind)
  | some positions =>
    have hall := mem_indexed_iff hfind
    exact (h.cleared.visitAll fun j hj => (hall j).mp hj).swap (by simpa using hall)

theorem Scanned.visitRows {n : Nat} (h : Scanned a b alo blo bhi r rows) :
    Scanned a b alo blo bhi (r + n)
      ((List.range' (alo + r) n).foldl (Diff.visitRow a (indexPositions b) blo bhi) rows) := by
  induction n generalizing r rows with
  | zero => exact h
  | succ n ih =>
    have hrest := ih h.visitRow
    rw [List.range'_succ, List.foldl_cons]
    have hr : r + (n + 1) = r + 1 + n := by omega
    rwa [hr]

end Search

/-! ### The longest match -/

/-- The rows before the first element. -/
theorem scanned_start (a b : List T) (alo blo bhi : Nat) :
    Scanned a b alo blo bhi 0
      { prev := List.replicate (bhi - blo) 0
        curr := List.replicate (bhi - blo) 0
        best := ⟨alo, blo, 0⟩ } := by
  have hzero : Holds blo bhi (List.replicate (bhi - blo) 0) [] fun _ => 0 :=
    ⟨List.length_replicate, fun c hc => by simp [List.getD_eq_getElem?_getD, hc],
      fun _ _ hne => absurd rfl hne⟩
  exact ⟨hzero, ⟨_, hzero⟩,
    ⟨.zero, Nat.le_refl _, Nat.le_refl _, Nat.le_refl _, Nat.le_add_right _ _⟩,
    fun r hr c _ => by rw [Nat.le_zero.mp hr, commonRun]⟩

theorem findLongestMatch_scanned (a b : List T) (alo ahi blo bhi : Nat) :
    ∃ rows, Scanned a b alo blo bhi (ahi - alo) rows ∧
      rows.best = findLongestMatch a alo ahi (indexPositions b) blo bhi :=
  ⟨_, by simpa using (scanned_start a b alo blo bhi).visitRows (n := ahi - alo), rfl⟩

/-- The longest match is a common block of the window. -/
theorem findLongestMatch_within (a b : List T) (alo ahi blo bhi : Nat) :
    Within a b alo blo bhi (ahi - alo)
      (findLongestMatch a alo ahi (indexPositions b) blo bhi) := by
  obtain ⟨rows, hscanned, heq⟩ := findLongestMatch_scanned a b alo ahi blo bhi
  exact heq ▸ hscanned.best

/-- No common block of the window is longer than the longest match. -/
theorem le_findLongestMatch {a b : List T} {alo ahi blo bhi i j n : Nat} (hleft : alo ≤ i)
    (hright : i + n ≤ ahi) (hlow : blo ≤ j) (hhigh : j + n ≤ bhi) (h : IsCommon a b i j n) :
    n ≤ (findLongestMatch a alo ahi (indexPositions b) blo bhi).n := by
  obtain ⟨rows, hscanned, heq⟩ := findLongestMatch_scanned a b alo ahi blo bhi
  cases n with
  | zero => exact Nat.zero_le _
  | succ n =>
    obtain ⟨row, rfl⟩ := Nat.exists_eq_add_of_le hleft
    obtain ⟨column, rfl⟩ := Nat.exists_eq_add_of_le hlow
    exact heq ▸ Nat.le_trans (le_commonRun h)
      (hscanned.most (row + n + 1) (by omega) (column + n) (by omega))

end KimixNative.Diff
