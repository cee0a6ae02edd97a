import KimixNative.Lib.EditDistance
import KimixNative.Lib.Table
import KimixNative.Text.Utf8
import Mathlib.Data.List.GetD

/-!
# Edit distance

`damerau_levenshtein` works on code points and keeps three rows of the table of distances between
prefixes. With a bound it leaves the table at the first row that is over the bound as a whole, and
otherwise cuts the distance off one above the bound. Short texts take branches of their own.

The row that holds the distances of a prefix is told by `IsRow`; the rest is about optimal string
alignment.
-/

namespace KimixNative.Search

open Text

/-- The `decode_cp` walk of `make_seq`. -/
def decodeAll (bytes : Bytes) : List Nat :=
  match bytes with
  | [] => []
  | b0 :: rest =>
    (decodeCp b0 rest).1 :: decodeAll ((b0 :: rest).drop (max 1 (decodeCp b0 rest).2))
termination_by bytes.length
decreasing_by
  simp only [List.length_drop, List.length_cons]
  omega

/-- `CpSeq`: the code points of a text, and whether they are its bytes. -/
structure CpSeq where
  cps : List Nat
  ascii : Bool

/-- `make_seq`. -/
def makeSeq (sv : Bytes) : CpSeq :=
  if isAscii sv then ⟨sv.map BitVec.toNat, true⟩ else ⟨decodeAll sv, false⟩

/-- `at`. -/
def cpAt (s : List Nat) (i : Nat) : Nat := s.getD i 0

/-- A distance as it is returned under a bound; a negative bound is none. -/
def capped (d : Nat) (maxDist : Int) : Int :=
  if 0 ≤ maxDist ∧ maxDist < d then maxDist + 1 else d

/-- One cell of the table, from the row so far and the two rows before. -/
def dpCell (s t : List Nat) (i : Nat) (prevPrev prev curr : List Nat) (j : Nat) : Nat :=
  let cost := if cpAt s (i - 1) = cpAt t (j - 1) then 0 else 1
  let v := curr.getD (j - 1) 0 + 1
  let v := if prev.getD j 0 + 1 < v then prev.getD j 0 + 1 else v
  let v := if prev.getD (j - 1) 0 + cost < v then prev.getD (j - 1) 0 + cost else v
  if i > 1 ∧ j > 1 ∧ cpAt s (i - 1) = cpAt t (j - 2) ∧ cpAt s (i - 2) = cpAt t (j - 1) then
    if prevPrev.getD (j - 2) 0 + 1 < v then prevPrev.getD (j - 2) 0 + 1 else v
  else v

/-- Row `i`. -/
def dpRow (s t : List Nat) (i : Nat) (prevPrev prev : List Nat) : List Nat :=
  (List.range' 1 t.length).foldl (fun curr j => curr ++ [dpCell s t i prevPrev prev curr j]) [i]

/-- The least cell of a row. -/
def rowMin (row : List Nat) : Nat :=
  row.tail.foldl (fun least v => if v < least then v else least) (row.headD 0)

/-- The loop over the rows that are left. -/
def dpRows (s t : List Nat) (maxDist : Int) : List Nat → List Nat → List Nat → Int
  | [], _, prev => capped (prev.getD t.length 0) maxDist
  | i :: rest, prevPrev, prev =>
    let curr := dpRow s t i prevPrev prev
    if 0 ≤ maxDist ∧ maxDist < rowMin curr then maxDist + 1
    else dpRows s t maxDist rest prev curr

/-- `dl_dp`, where `s` is not shorter than `t`. -/
def dlDp (s t : List Nat) (maxDist : Int) : Int :=
  if t.length = 0 then capped s.length maxDist
  else if t.length = 1 then capped (if cpAt s 0 = cpAt t 0 then 0 else 1) maxDist
  else if s.length = 2 ∧ t.length = 2 then
    capped
      (if cpAt s 0 = cpAt t 0 ∧ cpAt s 1 = cpAt t 1 then 0
      else if cpAt s 0 = cpAt t 0 ∨ cpAt s 1 = cpAt t 1 then 1
      else if cpAt s 0 = cpAt t 1 ∧ cpAt s 1 = cpAt t 0 then 1
      else 2) maxDist
  else
    dpRows s t maxDist (List.range' 1 s.length) (List.range (t.length + 1))
      (List.range (t.length + 1))

/-- `damerau_levenshtein`. -/
def damerauLevenshtein (a b : Bytes) (maxDist : Int) : Int :=
  let sa := (makeSeq a).cps
  let tb := (makeSeq b).cps
  if sa.length < tb.length then dlDp tb sa maxDist else dlDp sa tb maxDist

/-! ### The rows -/

/-- The distance of two prefixes, whose ends are aligned first. -/
def prefixDistance (s t : List Nat) (i j : Nat) : Nat :=
  osa (s.take i).reverse (t.take j).reverse

/-- A row of the table. -/
structure IsRow (s t : List Nat) (i : Nat) (row : List Nat) : Prop where
  width : row.length = t.length + 1
  value : ∀ j ≤ t.length, row.getD j 0 = prefixDistance s t i j

variable {i : Nat} {s : List Nat}

theorem reverse_take_succ (h : i < s.length) :
    (s.take (i + 1)).reverse = cpAt s i :: (s.take i).reverse := by
  rw [List.take_add_one, List.getElem?_eq_getElem h, Option.toList_some, List.reverse_append, cpAt,
    List.getD_eq_getElem?_getD, List.getElem?_eq_getElem h]
  rfl

theorem prefixDistance_zero_left {t : List Nat} {j : Nat} (h : j ≤ t.length) :
    prefixDistance s t 0 j = j := by
  simp [prefixDistance, h]

theorem prefixDistance_zero_right {t : List Nat} (h : i ≤ s.length) :
    prefixDistance s t i 0 = i := by
  simp [prefixDistance, h]

theorem isRow_zero (s t : List Nat) : IsRow s t 0 (List.range (t.length + 1)) where
  width := List.length_range
  value := by
    intro j hj
    have hlt : j < t.length + 1 := Nat.lt_succ_of_le hj
    rw [prefixDistance_zero_left hj, List.getD_eq_getElem?_getD, List.getElem?_range hlt]
    rfl

/-- Taking over what is less, one offer after another, is taking the least. -/
theorem editCost_eq (x y insert delete substitute : Nat) :
    (let v := insert + 1
     let v := if delete + 1 < v then delete + 1 else v
     if (substitute + if x = y then 0 else 1) < v then substitute + if x = y then 0 else 1 else v) =
      editCost x y insert delete substitute := by
  rw [editCost]
  generalize (substitute + if x = y then 0 else 1) = edited
  dsimp only
  split_ifs <;> omega

theorem dpCell_eq {t prevPrev prev curr : List Nat} {j : Nat} (hi : i < s.length)
    (hj : j < t.length) (hprev : IsRow s t i prev) (hpp : 0 < i → IsRow s t (i - 1) prevPrev)
    (hleft : curr.getD j 0 = prefixDistance s t (i + 1) j) :
    dpCell s t (i + 1) prevPrev prev curr (j + 1) = prefixDistance s t (i + 1) (j + 1) := by
  have hedit := editCost_eq (cpAt s i) (cpAt t j) (prefixDistance s t (i + 1) j)
    (prefixDistance s t i (j + 1)) (prefixDistance s t i j)
  dsimp only at hedit
  simp only [dpCell, Nat.add_sub_cancel, hleft, hprev.value (j + 1) hj, hprev.value j (by omega),
    hedit]
  cases i with
  | zero =>
    rw [if_neg (by omega), prefixDistance, prefixDistance, prefixDistance, prefixDistance,
      reverse_take_succ hi, reverse_take_succ hj]
    rw [List.take_zero, List.reverse_nil, osa_singleton_cons]
  | succ i =>
    cases j with
    | zero =>
      rw [if_neg (by omega), prefixDistance, prefixDistance, prefixDistance, prefixDistance,
        reverse_take_succ hi, reverse_take_succ hj]
      rw [List.take_zero, List.reverse_nil, osa_cons_singleton]
    | succ j =>
      have hi' : i < s.length := by omega
      have hj' : j < t.length := by omega
      have hswap : prevPrev.getD (j + 1 + 1 - 2) 0 = prefixDistance s t i j :=
        (hpp (by omega)).value j (by omega)
      rw [hswap]
      simp only [prefixDistance, reverse_take_succ hi, reverse_take_succ hj,
        reverse_take_succ hi', reverse_take_succ hj', osa_cons_cons]
      have hcond : (i + 1 + 1 > 1 ∧ j + 1 + 1 > 1 ∧
          cpAt s (i + 1) = cpAt t (j + 1 + 1 - 2) ∧ cpAt s (i + 1 + 1 - 2) = cpAt t (j + 1)) ↔
          cpAt s (i + 1) = cpAt t j ∧ cpAt s i = cpAt t (j + 1) := by
        simp
      simp only [hcond]
      split
      · rw [Nat.min_def]
        split <;> split <;> omega
      · rfl

/-- A row, written from left to right. -/
theorem isRow_dpRow {t prevPrev prev : List Nat} (hi : i < s.length) (hprev : IsRow s t i prev)
    (hpp : 0 < i → IsRow s t (i - 1) prevPrev) :
    IsRow s t (i + 1) (dpRow s t (i + 1) prevPrev prev) := by
  have hwritten : ∀ n ≤ t.length,
      ((List.range' 1 n).foldl
        (fun curr j => curr ++ [dpCell s t (i + 1) prevPrev prev curr j]) [i + 1]).length = n + 1 ∧
      ∀ j ≤ n, ((List.range' 1 n).foldl
        (fun curr j => curr ++ [dpCell s t (i + 1) prevPrev prev curr j]) [i + 1]).getD j 0 =
          prefixDistance s t (i + 1) j := by
    intro n
    induction n with
    | zero =>
      refine fun _ => ⟨rfl, fun j hj => ?_⟩
      obtain rfl := Nat.le_zero.mp hj
      exact (prefixDistance_zero_right hi).symm
    | succ n ih =>
      intro hn
      obtain ⟨hlen, hval⟩ := ih (by omega)
      rw [List.range'_1_concat, List.foldl_append, List.foldl_cons, List.foldl_nil]
      refine ⟨by rw [List.length_append, hlen, List.length_singleton], fun j hj => ?_⟩
      rcases Nat.lt_or_eq_of_le hj with hlt | rfl
      · rw [List.getD_append _ _ _ _ (by omega)]
        exact hval j (by omega)
      · rw [List.getD_append_right _ _ _ _ (by omega), hlen, Nat.sub_self, List.getD_cons_zero,
          Nat.add_comm 1 n]
        exact dpCell_eq hi (by omega) hprev hpp (hval n (Nat.le_refl n))
  obtain ⟨hlen, hval⟩ := hwritten t.length (Nat.le_refl _)
  exact ⟨hlen, hval⟩

/-- The least cell of a row is over a bound when every cell is. -/
theorem lt_rowMin {row : List Nat} {k : Int} (hne : row ≠ []) :
    k < rowMin row ↔ ∀ j < row.length, k < row.getD j 0 := by
  have hfold : ∀ (rest : List Nat) (least : Nat),
      k < (rest.foldl (fun least v => if v < least then v else least) least : Nat) ↔
        k < least ∧ ∀ v ∈ rest, k < (v : Nat) := by
    intro rest
    induction rest with
    | nil => simp
    | cons v rest ih =>
      intro least
      rw [List.foldl_cons, ih, List.forall_mem_cons]
      split <;> constructor <;> rintro ⟨h, h'⟩
      · exact ⟨by omega, h, h'⟩
      · exact ⟨h'.1, h'.2⟩
      · exact ⟨h, by omega, h'⟩
      · exact ⟨h, h'.2⟩
  cases row with
  | nil => exact absurd rfl hne
  | cons a rest =>
    rw [rowMin, List.tail_cons, List.headD_cons, hfold]
    constructor
    · rintro ⟨ha, hrest⟩ j hj
      cases j with
      | zero => exact ha
      | succ j =>
        rw [List.getD_cons_succ, List.getD_eq_getElem _ _ (by simpa using hj)]
        exact hrest _ (List.getElem_mem _)
    · intro h
      refine ⟨h 0 (by simp), fun v hv => ?_⟩
      obtain ⟨j, hj, rfl⟩ := List.mem_iff_getElem.mp hv
      have := h (j + 1) (by simpa using hj)
      rwa [List.getD_cons_succ, List.getD_eq_getElem _ _ hj] at this

/-- The distance of the whole texts. -/
theorem prefixDistance_full (s t : List Nat) :
    prefixDistance s t s.length t.length = osa s.reverse t.reverse := by
  simp [prefixDistance]

/-- A row that is over a bound as a whole leaves the last cell of the table over it. -/
theorem IsRow.over {t row : List Nat} {k : Int} (h : IsRow s t i row) (hover : k < rowMin row) :
    k < osa s.reverse t.reverse := by
  have hcells := (lt_rowMin (List.ne_nil_of_length_pos (by rw [h.width]; omega))).mp hover
  have hrow : ∀ ys', ys' <:+ t.reverse → k < osa (s.take i).reverse ys' := by
    intro ys' hsuffix
    obtain ⟨ys, rfl⟩ : ∃ ys : List Nat, ys' = ys.reverse := ⟨ys'.reverse, by simp⟩
    have hprefix : ys <+: t := List.reverse_suffix.mp hsuffix
    have hlen := hprefix.length_le
    have hcell := hcells ys.length (by rw [h.width]; omega)
    rwa [h.value _ hlen, prefixDistance, ← List.prefix_iff_eq_take.mp hprefix] at hcell
  obtain hnonneg | hneg := Int.lt_or_le k 0
  · omega
  · obtain ⟨n, rfl⟩ := Int.eq_ofNat_of_zero_le hneg
    have hlast := @lt_osa_append Nat _ n (s.take i).reverse t.reverse
      (fun ys' hsuffix => by exact_mod_cast hrow ys' hsuffix) (s.drop i).reverse t.reverse
      (List.suffix_refl _)
    rw [← List.reverse_append, List.take_append_drop] at hlast
    exact_mod_cast hlast

/-- The rows that are left end with the distance of the texts, cut off above the bound. -/
theorem dpRows_eq {t : List Nat} (maxDist : Int) {n : Nat} {prevPrev prev : List Nat}
    (hn : i + n = s.length) (hprev : IsRow s t i prev) (hpp : 0 < i → IsRow s t (i - 1) prevPrev) :
    dpRows s t maxDist (List.range' (i + 1) n) prevPrev prev =
      capped (osa s.reverse t.reverse) maxDist := by
  induction n generalizing i prevPrev prev with
  | zero =>
    obtain rfl : i = s.length := hn
    rw [List.range'_zero, dpRows, hprev.value _ (Nat.le_refl _), prefixDistance_full]
  | succ n ih =>
    have hrow := isRow_dpRow (by omega) hprev hpp
    rw [List.range'_succ, dpRows]
    split
    · next hover =>
        -- the cut-off answer is the one the last row would give
        have := hrow.over hover.2
        rw [capped, if_pos ⟨hover.1, this⟩]
    · exact ih (by omega) hrow fun _ => hprev

theorem osa_two (a b c d : Nat) :
    osa [b, a] [d, c] = if a = c ∧ b = d then 0 else if a = c ∨ b = d then 1
      else if a = d ∧ b = c then 1 else 2 := by
  simp only [osa_cons_cons, osa_cons_singleton, osa_singleton_cons, editCost, osa_nil_left,
    osa_nil_right, List.length_cons, List.length_nil]
  by_cases hac : a = c <;> by_cases hbd : b = d <;> by_cases had : a = d <;>
    by_cases hbc : b = c <;> simp [hac, hbd, had, hbc] <;> split_ifs <;> omega

/-- From two code points on, the distance is that of optimal string alignment. -/
theorem dlDp_eq {t : List Nat} (maxDist : Int) (ht : 2 ≤ t.length) (hst : t.length ≤ s.length) :
    dlDp s t maxDist = capped (osa s.reverse t.reverse) maxDist := by
  rw [dlDp, if_neg (by omega), if_neg (by omega)]
  split
  · next htwo =>
      obtain ⟨hs, ht⟩ := htwo
      obtain ⟨a, b, rfl⟩ := List.length_eq_two.mp hs
      obtain ⟨c, d, rfl⟩ := List.length_eq_two.mp ht
      simp only [List.reverse_cons, List.reverse_nil, List.nil_append, List.cons_append, osa_two]
      rfl
  · exact dpRows_eq maxDist (Nat.zero_add _) (isRow_zero s t) fun h => absurd h (Nat.lt_irrefl 0)

/-! ### The bound -/

theorem capped_unbounded (d : Nat) : capped d (-1) = d := if_neg (by omega)

theorem capped_eq_min (d k : Nat) : capped d k = min (d : Int) (k + 1) := by
  rw [capped, Int.min_def]
  split <;> split <;> omega

/-- In each branch the bound only cuts a distance off. -/
theorem exists_dlDp_eq {t : List Nat} (hst : t.length ≤ s.length) :
    ∃ d : Nat, ∀ maxDist, dlDp s t maxDist = capped d maxDist := by
  by_cases hzero : t.length = 0
  · exact ⟨s.length, fun maxDist => if_pos hzero⟩
  by_cases hone : t.length = 1
  · refine ⟨if cpAt s 0 = cpAt t 0 then 0 else 1, fun maxDist => ?_⟩
    rw [dlDp, if_neg hzero, if_pos hone]
  · exact ⟨osa s.reverse t.reverse, fun maxDist => dlDp_eq maxDist (by omega) hst⟩

theorem exists_damerauLevenshtein_eq (a b : Bytes) :
    ∃ d : Nat, ∀ maxDist, damerauLevenshtein a b maxDist = capped d maxDist := by
  simp only [damerauLevenshtein]
  split
  · next hlt => exact exists_dlDp_eq (Nat.le_of_lt hlt)
  · next hge => exact exists_dlDp_eq (Nat.le_of_not_lt hge)

/-- Texts of two code points and more are compared by optimal string alignment, the longer one
first. -/
theorem damerauLevenshtein_eq_osa {a b : Bytes} (ha : 2 ≤ (makeSeq a).cps.length)
    (hb : 2 ≤ (makeSeq b).cps.length) :
    damerauLevenshtein a b (-1) = osa (makeSeq a).cps.reverse (makeSeq b).cps.reverse ∨
      damerauLevenshtein a b (-1) = osa (makeSeq b).cps.reverse (makeSeq a).cps.reverse := by
  simp only [damerauLevenshtein]
  split
  · next hlt =>
      rw [dlDp_eq _ ha (Nat.le_of_lt hlt), capped_unbounded]
      exact Or.inr rfl
  · next hge =>
      rw [dlDp_eq _ hb (Nat.le_of_not_lt hge), capped_unbounded]
      exact Or.inl rfl

end KimixNative.Search
