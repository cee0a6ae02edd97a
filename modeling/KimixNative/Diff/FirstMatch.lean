import KimixNative.Diff.LongestMatch

/-!
# The first of the longest matches

Of several longest common blocks of a window the search returns the one that begins first in `a`
and, among those, first in `b`. Blocks of one length begin in the order in which they end, a
strictly longer run is needed to replace the best match, and the positions of an element are
visited in ascending order; so the block that is kept is the one that ends first.
-/

namespace KimixNative.Diff

variable {T : Type} [DecidableEq T]

/-- A common block of the windows from `alo` to `ahi` and from `blo` to `bhi`. -/
structure BlockIn (a b : List T) (alo ahi blo bhi i j n : Nat) : Prop where
  left : alo ≤ i
  right : i + n ≤ ahi
  low : blo ≤ j
  high : j + n ≤ bhi
  common : IsCommon a b i j n

/-- The positions of an element are indexed in ascending order. -/
theorem indexPositions_ascending {b : List T} {x : T} {positions : List Nat}
    (h : (indexPositions b).find? x = some positions) : positions.Pairwise (· < ·) := by
  induction b using List.reverseRecOn generalizing positions with
  | nil => simp [indexPositions] at h
  | append_singleton b y ih =>
    rw [indexPositions_concat, Table.find?_insert] at h
    split at h
    · next hxy =>
        subst hxy
        obtain rfl := Option.some.inj h
        cases hfind : (indexPositions b).find? x with
        | none => simp
        | some old =>
          refine List.pairwise_append.mpr ⟨ih hfind, List.pairwise_singleton _ _, ?_⟩
          intro j hj k hk
          obtain rfl := List.mem_singleton.mp hk
          have hat : b[j]? = some x := (mem_indexPositions b x j).mp ⟨old, hfind, hj⟩
          exact (List.getElem?_eq_some_iff.mp hat).choose
    · exact ih h

/-- The match ends before the places `i` and `j`, rows counted first. -/
def Match.EndsBy (m : Match) (i j : Nat) : Prop :=
  m.i + m.n < i ∨ (m.i + m.n = i ∧ m.j + m.n ≤ j)

/-- Among the runs up to row `r` the best match is the first of its length, and without a run it
is the corner of the window. -/
structure Leading (a b : List T) (alo blo bhi r : Nat) (rows : Rows) : Prop where
  first : ∀ r' ≤ r, ∀ c < bhi - blo, 0 < rows.best.n →
    commonRun a b alo blo r' c = rows.best.n → rows.best.EndsBy (alo + r') (blo + c + 1)
  corner : rows.best.n = 0 → rows.best.i = alo ∧ rows.best.j = blo

/-- The same while a row is visited: of its cells those at the positions `seen` count, and a best
match that ends in this row ends at one of them. -/
structure LeadingRow (a b : List T) (alo blo bhi r : Nat) (seen : List Nat) (rows : Rows) :
    Prop extends Leading a b alo blo bhi r rows where
  first_seen : ∀ c < bhi - blo, blo + c ∈ seen → 0 < rows.best.n →
    commonRun a b alo blo (r + 1) c = rows.best.n → rows.best.EndsBy (alo + (r + 1)) (blo + c + 1)
  ended : rows.best.i + rows.best.n ≤ alo + r ∨
    (rows.best.i + rows.best.n = alo + (r + 1) ∧ ∃ j ∈ seen, rows.best.j + rows.best.n = j + 1)

section Search

variable {a b : List T} {alo blo bhi : Nat}

variable {rows : Rows}

variable {r : Nat} {seen : List Nat}

theorem LeadingRow.visit {j : Nat} (hscan : Scanning a b alo blo bhi r seen rows)
    (h : LeadingRow a b alo blo bhi r seen rows) (hagree : Agree a b (alo + r) j)
    (hafter : ∀ j' ∈ seen, j' < j) :
    LeadingRow a b alo blo bhi r (seen ++ [j]) (visitPosition blo bhi (alo + r) rows j) := by
  rw [visitPosition]
  split
  · next hout =>
      refine ⟨h.toLeading, fun c hc hmem => ?_, ?_⟩
      · have hseen : blo + c ∈ seen := by
          rcases List.mem_append.mp hmem with hseen | hj
          · exact hseen
          · have := List.mem_singleton.mp hj
            omega
        exact h.first_seen c hc hseen
      · rcases h.ended with hrow | ⟨hrow, j', hj', hend⟩
        · exact Or.inl hrow
        · exact Or.inr ⟨hrow, j', List.mem_append_left _ hj', hend⟩
  · next hin =>
      obtain ⟨hlow, hhigh⟩ : blo ≤ j ∧ j < bhi := by omega
      have hrun := runAt_eq hscan.prev hlow hhigh hagree
      have hle := commonRun_le a b alo blo (r + 1) (j - blo)
      rw [← hrun] at hle
      by_cases hlonger : rows.best.n < runAt rows.prev blo j
      · -- the run is longer than all before it, so it is the only one of its length so far
        have hnew : rows.best.orRun (alo + r) j (runAt rows.prev blo j) =
            ⟨alo + r + 1 - runAt rows.prev blo j, j + 1 - runAt rows.prev blo j,
              runAt rows.prev blo j⟩ := if_pos hlonger
        simp only [hnew]
        refine ⟨⟨fun r' hr' c hc _ heq => ?_, fun hzero => ?_⟩, fun c hc hmem _ heq => ?_, ?_⟩
        · have := hscan.most r' hr' c hc
          dsimp only at heq
          omega
        · dsimp only at hzero
          omega
        · dsimp only at heq
          rcases List.mem_append.mp hmem with hseen | hj
          · have := hscan.seen_most c hc hseen
            omega
          · have hc' := List.mem_singleton.mp hj
            refine Or.inr ⟨?_, ?_⟩
            · dsimp only
              omega
            · dsimp only
              omega
        · refine Or.inr ⟨?_, j, by simp, ?_⟩
          · dsimp only
            omega
          · dsimp only
            omega
      · have hold : rows.best.orRun (alo + r) j (runAt rows.prev blo j) = rows.best :=
          if_neg hlonger
        simp only [hold]
        refine ⟨⟨h.first, h.corner⟩, fun c hc hmem hpos heq => ?_, ?_⟩
        · rcases List.mem_append.mp hmem with hseen | hj
          · exact h.first_seen c hc hseen hpos heq
          · have hc' := List.mem_singleton.mp hj
            rcases h.ended with hrow | ⟨hrow, j', hj', hend⟩
            · exact Or.inl (by dsimp only; omega)
            · have := hafter j' hj'
              exact Or.inr ⟨hrow, by dsimp only; omega⟩
        · rcases h.ended with hrow | ⟨hrow, j', hj', hend⟩
          · exact Or.inl hrow
          · exact Or.inr ⟨hrow, j', List.mem_append_left _ hj', hend⟩

theorem LeadingRow.visitAll {positions : List Nat} (hscan : Scanning a b alo blo bhi r seen rows)
    (h : LeadingRow a b alo blo bhi r seen rows) (hagree : ∀ j ∈ positions, Agree a b (alo + r) j)
    (hsorted : (seen ++ positions).Pairwise (· < ·)) :
    LeadingRow a b alo blo bhi r (seen ++ positions)
      (positions.foldl (visitPosition blo bhi (alo + r)) rows) := by
  induction positions generalizing seen rows with
  | nil => simpa using h
  | cons j rest ih =>
    have hj := hagree j List.mem_cons_self
    have hafter : ∀ j' ∈ seen, j' < j := fun j' hj' =>
      (List.pairwise_append.mp hsorted).2.2 j' hj' j List.mem_cons_self
    have hrest := ih (hscan.visit hj) (h.visit hscan hj hafter)
      (fun j' hj' => hagree j' (List.mem_cons_of_mem j hj')) (by simpa using hsorted)
    rwa [List.append_assoc, List.singleton_append] at hrest

/-- After the row its cells count whether they were visited or not: a cell that was not visited
ends no run. -/
theorem LeadingRow.swap (h : LeadingRow a b alo blo bhi r seen rows)
    (hall : ∀ j, j ∈ seen ↔ Agree a b (alo + r) j) : Leading a b alo blo bhi (r + 1) rows.swap := by
  refine ⟨fun r' hr' c hc hpos heq => ?_, h.corner⟩
  rcases Nat.lt_or_eq_of_le hr' with hlt | rfl
  · exact h.first r' (by omega) c hc hpos heq
  · refine h.first_seen c hc ?_ hpos heq
    rw [hall]
    by_contra hnot
    have hzero : commonRun a b alo blo (r + 1) c = 0 := by
      cases c with
      | zero => rw [commonRun, if_neg (by simpa using hnot)]
      | succ c => rw [commonRun, if_neg hnot]
    have hbest : 0 < rows.best.n := hpos
    have hsame : commonRun a b alo blo (r + 1) c = rows.best.n := heq
    omega

theorem Leading.visitRow (hscan : Scanned a b alo blo bhi r rows)
    (h : Leading a b alo blo bhi r rows) :
    Leading a b alo blo bhi (r + 1) (visitRow a (indexPositions b) blo bhi rows (alo + r)) := by
  have hlead : LeadingRow a b alo blo bhi r []
      { rows with curr := clearTouched rows.curr rows.currTouched, currTouched := [] } :=
    ⟨⟨h.first, h.corner⟩, fun _ _ hmem => absurd hmem List.not_mem_nil,
      Or.inl hscan.best.right⟩
  simp only [Diff.visitRow]
  cases hfind : a[alo + r]?.bind (indexPositions b).find? with
  | none => exact hlead.swap (mem_unindexed_iff hfind)
  | some positions =>
    have hall := mem_indexed_iff hfind
    obtain ⟨x, -, hx⟩ := Option.bind_eq_some_iff.mp hfind
    exact (hlead.visitAll hscan.cleared (fun j hj => (hall j).mp hj)
      (by simpa using indexPositions_ascending hx)).swap (by simpa using hall)

theorem Leading.visitRows {n : Nat} (hscan : Scanned a b alo blo bhi r rows)
    (h : Leading a b alo blo bhi r rows) :
    Leading a b alo blo bhi (r + n)
      ((List.range' (alo + r) n).foldl (Diff.visitRow a (indexPositions b) blo bhi) rows) := by
  induction n generalizing r rows with
  | zero => exact h
  | succ n ih =>
    have hrest := ih hscan.visitRow (h.visitRow hscan)
    rw [List.range'_succ, List.foldl_cons]
    have hr : r + (n + 1) = r + 1 + n := by omega
    rwa [hr]

end Search

theorem findLongestMatch_leading (a b : List T) (alo ahi blo bhi : Nat) :
    ∃ rows, Scanned a b alo blo bhi (ahi - alo) rows ∧ Leading a b alo blo bhi (ahi - alo) rows ∧
      rows.best = findLongestMatch a alo ahi (indexPositions b) blo bhi := by
  have hstart := scanned_start a b alo blo bhi
  have hcorner : Leading a b alo blo bhi 0
      { prev := List.replicate (bhi - blo) 0
        curr := List.replicate (bhi - blo) 0
        best := ⟨alo, blo, 0⟩ } :=
    ⟨fun _ _ _ _ hpos => absurd hpos (Nat.lt_irrefl 0), fun _ => ⟨rfl, rfl⟩⟩
  exact ⟨_, by simpa using hstart.visitRows (n := ahi - alo),
    by simpa using hcorner.visitRows (n := ahi - alo) hstart, rfl⟩

/-- A longest block does not begin before the match that the search returns. -/
theorem findLongestMatch_first {a b : List T} {alo ahi blo bhi i j : Nat}
    (h : BlockIn a b alo ahi blo bhi i j
      (findLongestMatch a alo ahi (indexPositions b) blo bhi).n) :
    (findLongestMatch a alo ahi (indexPositions b) blo bhi).i < i ∨
      (findLongestMatch a alo ahi (indexPositions b) blo bhi).i = i ∧
        (findLongestMatch a alo ahi (indexPositions b) blo bhi).j ≤ j := by
  obtain ⟨rows, hscanned, hleading, heq⟩ := findLongestMatch_leading a b alo ahi blo bhi
  rw [← heq] at h ⊢
  obtain ⟨hleft, hright, hlow, hhigh, hcommon⟩ := h
  cases hn : rows.best.n with
  | zero =>
    obtain ⟨hi, hj⟩ := hleading.corner hn
    omega
  | succ n =>
    obtain ⟨row, rfl⟩ := Nat.exists_eq_add_of_le hleft
    obtain ⟨column, rfl⟩ := Nat.exists_eq_add_of_le hlow
    rw [hn] at hcommon
    -- the run that ends with the block is as long as the block
    have hlong := le_commonRun hcommon
    have hmost := hscanned.most (row + n + 1) (by omega) (column + n) (by omega)
    have hends := hleading.first (row + n + 1) (by omega) (column + n) (by omega) (by omega)
      (by omega)
    rcases hends with hrow | ⟨hrow, hcolumn⟩
    · left
      omega
    · right
      omega

/-- A common block of two windows such that none is longer; of the longest ones it is the first in
`a` and, among those, the first in `b`; and it is empty exactly when the windows share no element. -/
structure FirstLongest (a b : List T) (alo ahi blo bhi : Nat) (m : Match) : Prop where
  block : BlockIn a b alo ahi blo bhi m.i m.j m.n
  longest : ∀ i j n, BlockIn a b alo ahi blo bhi i j n → n ≤ m.n
  first : ∀ i j, BlockIn a b alo ahi blo bhi i j m.n → m.i < i ∨ m.i = i ∧ m.j ≤ j
  empty : m.n = 0 ↔ ∀ i j, alo ≤ i → i < ahi → blo ≤ j → j < bhi → ¬Agree a b i j

/-- The search of two windows returns their first longest block. -/
theorem findLongestMatch_meets_difflib (a b : List T) {alo ahi blo bhi : Nat} (ha : alo ≤ ahi)
    (hb : blo ≤ bhi) :
    FirstLongest a b alo ahi blo bhi
      (findLongestMatch a alo ahi (indexPositions b) blo bhi) := by
  have hwithin := findLongestMatch_within a b alo ahi blo bhi
  generalize hm : findLongestMatch a alo ahi (indexPositions b) blo bhi = m at hwithin ⊢
  obtain ⟨hcommon, hleft, hright, hlow, hhigh⟩ := hwithin
  have hmost : ∀ i j n, BlockIn a b alo ahi blo bhi i j n → n ≤ m.n :=
    fun i j n h => hm ▸ le_findLongestMatch h.left h.right h.low h.high h.common
  refine ⟨⟨hleft, by omega, hlow, by omega, hcommon⟩, hmost,
    fun i j h => ?_, ?_, ?_⟩
  · subst hm
    exact findLongestMatch_first h
  · intro hzero i j hi hi' hj hj' hagree
    have := hmost i j 1 ⟨hi, by omega, hj, by omega, hagree.isCommon⟩
    omega
  · intro hnone
    by_contra hpos
    have hhead := agree_iff.mpr (hcommon 0 (Nat.pos_of_ne_zero hpos))
    exact hnone _ _ hleft (by omega) hlow (by omega) hhead

theorem findLongestMatch_meets_difflib_abab :
    FirstLongest [1, 2, 1] [2, 1, 2, 1] 0 3 0 4 ⟨0, 1, 3⟩ := by
  have hfound : findLongestMatch [1, 2, 1] 0 3 (indexPositions [2, 1, 2, 1]) 0 4 = ⟨0, 1, 3⟩ := by
    decide
  have h := @findLongestMatch_meets_difflib Nat _ [1, 2, 1] [2, 1, 2, 1] 0 3 0 4 (by decide)
    (by decide)
  rwa [hfound] at h

end KimixNative.Diff
