import KimixNative.Glob.Gitignore

/-!
# Paths

A path is a list of components, none of them empty, and is written with slashes between them. What
the matcher cuts out of the written path are the written forms of parts of the list: the text from
a part on is a suffix, what stands in front of a slash a prefix.
-/

namespace KimixNative.Glob

open Wildcard

/-- A component of a path. -/
structure Component where
  bytes : Bytes
  nonempty : bytes ≠ []
  plain : ∀ b ∈ bytes, b ≠ slash ∧ b ≠ backslash

/-- A relative path. -/
abbrev Path := List Component

/-- A path as it is written. -/
def pathText : Path → Bytes
  | [] => []
  | [c] => c.bytes
  | c :: d :: rest => c.bytes ++ slash :: pathText (d :: rest)

variable {p : Path}

theorem pathText_cons (c : Component) (hp : p ≠ []) :
    pathText (c :: p) = c.bytes ++ slash :: pathText p := by
  cases p with
  | nil => exact absurd rfl hp
  | cons d rest => rfl

theorem pathText_append {q : Path} (hp : p ≠ []) (hq : q ≠ []) :
    pathText (p ++ q) = pathText p ++ slash :: pathText q := by
  induction p with
  | nil => exact absurd rfl hp
  | cons c p ih =>
    cases p with
    | nil => exact pathText_cons c hq
    | cons d p =>
      rw [List.cons_append, pathText_cons c (by simp), ih (by simp),
        pathText_cons c (List.cons_ne_nil d p), List.append_assoc, List.cons_append]

theorem Component.notMem_slash (c : Component) : slash ∉ c.bytes :=
  fun h => (c.plain slash h).1 rfl

theorem pathText_plain (p : Path) : ∀ b ∈ pathText p, b ≠ backslash := by
  induction p with
  | nil => exact fun b hb => absurd hb List.not_mem_nil
  | cons c p ih =>
    intro b hb
    cases p with
    | nil => exact (c.plain b hb).2
    | cons d p =>
      rw [pathText_cons c (List.cons_ne_nil d p)] at hb
      rcases List.mem_append.mp hb with hc | hrest
      · exact (c.plain b hc).2
      · rcases List.mem_cons.mp hrest with rfl | hp
        · decide
        · exact ih b hp

/-- A path does not begin with a slash. -/
theorem head?_pathText {c : Component} (p : Path) : (pathText (c :: p)).head? = c.bytes.head? := by
  cases p with
  | nil => rfl
  | cons d p =>
    rw [pathText_cons c (List.cons_ne_nil d p), List.head?_append_of_ne_nil _ c.nonempty]

/-- A path ends with its last component. -/
theorem pathText_concat (p : Path) (c : Component) :
    ∃ front, pathText (p ++ [c]) = front ++ c.bytes ∧ (p = [] → front = []) := by
  by_cases hp : p = []
  · exact ⟨[], by rw [hp]; rfl, fun _ => rfl⟩
  · refine ⟨pathText p ++ [slash], ?_, fun h => absurd h hp⟩
    rw [pathText_append hp (List.cons_ne_nil c []), List.append_assoc]
    rfl

theorem pathText_prefix_append (p q : Path) : pathText p <+: pathText (p ++ q) := by
  by_cases hp : p = []
  · rw [hp]
    exact List.nil_prefix
  by_cases hq : q = []
  · rw [hq, List.append_nil]
  · rw [pathText_append hp hq]
    exact List.prefix_append _ _

/-- Where a slash stands, a path is cut in two. -/
theorem pathText_eq_append_slash {u v : Bytes} (h : pathText p = u ++ slash :: v) :
    ∃ q r, p = q ++ r ∧ q ≠ [] ∧ r ≠ [] ∧ u = pathText q ∧ v = pathText r := by
  induction p generalizing u with
  | nil => exact absurd h.symm (by simp [pathText])
  | cons c p ih =>
    have hnotMem := c.notMem_slash
    by_cases hp : p = []
    · subst hp
      refine absurd ?_ hnotMem
      rw [show c.bytes = u ++ slash :: v from h]
      simp
    · rw [pathText_cons c hp] at h
      rcases List.append_eq_append_iff.mp h with ⟨more, hu, hrest⟩ | ⟨more, hc, hrest⟩
      · cases more with
        | nil =>
          rw [List.append_nil] at hu
          rw [List.nil_append, List.cons_eq_cons] at hrest
          exact ⟨[c], p, rfl, by simp, hp, hu, hrest.2.symm⟩
        | cons b more =>
          obtain ⟨rfl, htail⟩ := List.cons_eq_cons.mp hrest
          obtain ⟨q, r, rfl, hq, hr, hmore, rfl⟩ := ih htail
          exact ⟨c :: q, r, rfl, by simp, hr, by rw [hu, pathText_cons c hq, hmore], rfl⟩
      · cases more with
        | nil =>
          rw [List.append_nil] at hc
          rw [List.nil_append, List.cons_eq_cons] at hrest
          exact ⟨[c], p, rfl, by simp, hp, hc.symm, hrest.2⟩
        | cons b more =>
          obtain ⟨rfl, -⟩ := List.cons_eq_cons.mp hrest
          refine absurd ?_ hnotMem
          rw [hc]
          simp

/-- Normalising changes nothing in a path. -/
theorem normalizeSlashes_pathText (p : Path) : normalizeSlashes (pathText p) = pathText p := by
  rw [normalizeSlashes]
  conv_rhs => rw [← List.map_id (pathText p)]
  exact List.map_congr_left fun b hb => if_neg (pathText_plain p b hb)

/-! ### What the matcher cuts out -/

theorem splitPathFrom_plain {bytes : Bytes} (h : slash ∉ bytes) (start : Bytes) (len : Nat)
    (more : Bytes) :
    splitPathFrom start len (bytes ++ more) = splitPathFrom start (len + bytes.length) more := by
  induction bytes generalizing len with
  | nil => rfl
  | cons b bytes ih =>
    have hb : b ≠ slash := fun hb => h (List.mem_cons.mpr (Or.inl hb.symm))
    rw [List.cons_append, splitPathFrom, if_neg hb,
      ih (fun hmem => h (List.mem_cons_of_mem b hmem)), List.length_cons]
    congr 1
    omega

/-- The parts of a path are its components. -/
theorem splitPath_cons (c : Component) (p : Path) :
    splitPath (pathText (c :: p)) =
      ⟨pathText (c :: p), c.bytes.length⟩ :: splitPath (pathText p) := by
  have hpos : 0 < c.bytes.length := List.length_pos_iff.mpr c.nonempty
  by_cases hp : p = []
  · subst hp
    have hread := splitPathFrom_plain c.notMem_slash c.bytes 0 []
    rw [List.append_nil, Nat.zero_add] at hread
    show splitPathFrom c.bytes 0 c.bytes = _
    rw [hread, splitPathFrom, if_pos hpos]
    rfl
  · have hread := splitPathFrom_plain c.notMem_slash (pathText (c :: p)) 0 (slash :: pathText p)
    rw [← pathText_cons c hp, Nat.zero_add] at hread
    rw [splitPath, hread, splitPathFrom, if_pos rfl, if_pos hpos]
    rfl

theorem mem_splitPath {view : PartView} :
    view ∈ splitPath (pathText p) ↔
      ∃ c q, c :: q <:+ p ∧ view = ⟨pathText (c :: q), c.bytes.length⟩ := by
  induction p with
  | nil =>
    constructor
    · intro h
      cases h
    · rintro ⟨c, q, hsuffix, -⟩
      exact absurd (List.suffix_nil.mp hsuffix) (List.cons_ne_nil c q)
  | cons c p ih =>
    rw [splitPath_cons, List.mem_cons, ih]
    constructor
    · rintro (rfl | ⟨d, q, hsuffix, rfl⟩)
      · exact ⟨c, p, List.suffix_refl _, rfl⟩
      · exact ⟨d, q, hsuffix.trans (List.suffix_cons c p), rfl⟩
    · rintro ⟨d, q, hsuffix, rfl⟩
      rcases List.suffix_cons_iff.mp hsuffix with heq | hshort
      · obtain ⟨rfl, rfl⟩ := List.cons_eq_cons.mp heq
        exact Or.inl rfl
      · exact Or.inr ⟨d, q, hshort, rfl⟩

theorem splitPath_ne_nil (hp : p ≠ []) : splitPath (pathText p) ≠ [] := by
  cases p with
  | nil => exact absurd rfl hp
  | cons c p =>
    rw [splitPath_cons]
    exact List.cons_ne_nil _ _

theorem lastPart_concat (p : Path) (c : Component) :
    lastPart (splitPath (pathText (p ++ [c]))) = c.bytes := by
  induction p with
  | nil =>
    rw [List.nil_append, splitPath_cons]
    exact List.take_length
  | cons d p ih =>
    have hne := splitPath_ne_nil (p := p ++ [c]) (by simp)
    rw [List.cons_append, splitPath_cons, lastPart, List.getLast?_cons_of_ne_nil hne]
    exact ih

variable {ci : Bool} {pattern : Bytes}

/-- The loop over the parts finds the text of a suffix, the last component being one. -/
theorem matchParts_iff {suffix : Bytes} :
    matchParts suffix ci (splitPath (pathText p)) = true ↔
      ∃ q, q ≠ [] ∧ q <:+ p ∧ Matches (tokens ci suffix) (pathText q) := by
  rw [matchParts, List.any_eq_true]
  simp only [Bool.or_eq_true, globMatch_eq, wildcardLoop_start]
  constructor
  · rintro ⟨view, hview, hmatch⟩
    obtain ⟨c, q, hsuffix, rfl⟩ := mem_splitPath.mp hview
    rcases hmatch with hwhole | hlast
    · exact ⟨c :: q, List.cons_ne_nil c q, hsuffix, hwhole⟩
    · rcases List.eq_nil_or_concat' p with rfl | ⟨init, last, rfl⟩
      · exact absurd (List.suffix_nil.mp hsuffix) (List.cons_ne_nil c q)
      · rw [lastPart_concat] at hlast
        exact ⟨[last], List.cons_ne_nil last [], List.suffix_append init [last], hlast⟩
  · rintro ⟨q, hq, hsuffix, hmatch⟩
    cases q with
    | nil => exact absurd rfl hq
    | cons c q => exact ⟨_, mem_splitPath.mpr ⟨c, q, hsuffix, rfl⟩, Or.inl hmatch⟩

theorem matchDirs_plain {pattern : Bytes} {ci : Bool} {bytes : Bytes} (h : slash ∉ bytes)
    (component more : Bytes) :
    matchDirs pattern ci component (bytes ++ more) =
      matchDirs pattern ci (component ++ bytes) more := by
  induction bytes generalizing component with
  | nil => rw [List.nil_append, List.append_nil]
  | cons b bytes ih =>
    have hb : b ≠ slash := fun hb => h (List.mem_cons.mpr (Or.inl hb.symm))
    rw [List.cons_append, matchDirs, if_neg hb,
      ih (fun hmem => h (List.mem_cons_of_mem b hmem)), List.append_assoc, List.singleton_append]

/-- All components but the last are looked at as directories. -/
theorem matchDirs_iff :
    matchDirs pattern ci [] (pathText p) = true ↔
      ∃ c ∈ p.dropLast, Matches (tokens ci pattern) c.bytes := by
  induction p with
  | nil => simp [pathText, matchDirs]
  | cons c p ih =>
    by_cases hp : p = []
    · subst hp
      have hread := @matchDirs_plain pattern ci _ c.notMem_slash [] []
      rw [List.append_nil] at hread
      rw [pathText, hread]
      simp [matchDirs]
    · rw [pathText_cons c hp, matchDirs_plain c.notMem_slash, matchDirs, if_pos rfl,
        Bool.or_eq_true, ih, List.nil_append, globMatch_eq, wildcardLoop_start,
        List.dropLast_cons_of_ne_nil hp]
      simp

theorem basename_concat (p : Path) (c : Component) :
    (pathText (p ++ [c])).rtakeWhile (fun b => b ≠ slash) = c.bytes := by
  have hplain : ∀ b ∈ c.bytes, decide (b ≠ slash) = true :=
    fun b hb => decide_eq_true (c.plain b hb).1
  by_cases hp : p = []
  · subst hp
    exact List.rtakeWhile_eq_self_iff.mpr hplain
  · rw [pathText_append hp (List.cons_ne_nil c []), pathText]
    have hrev : ∀ b ∈ c.bytes.reverse, decide (b ≠ slash) = true :=
      fun b hb => hplain b (List.mem_reverse.mp hb)
    rw [List.rtakeWhile, List.reverse_append, List.reverse_cons, List.append_assoc,
      List.takeWhile_append_of_pos hrev, List.singleton_append, List.takeWhile_cons_of_neg (by simp),
      List.append_nil, List.reverse_reverse]

/-- An unanchored pattern is matched with every component. -/
theorem matchUnanchored_iff (hp : p ≠ []) :
    matchUnanchored pattern (pathText p) ci = true ↔
      ∃ c ∈ p, Matches (tokens ci pattern) c.bytes := by
  rcases List.eq_nil_or_concat' p with rfl | ⟨init, last, rfl⟩
  · exact absurd rfl hp
  · rw [matchUnanchored, Bool.or_eq_true, matchDirs_iff, basename_concat, globMatch_eq,
      wildcardLoop_start, List.dropLast_concat]
    simp only [List.mem_append, List.mem_singleton, or_and_right, exists_or, exists_eq_left]
    exact or_comm

theorem mem_ancestorsFrom {read text dir : Bytes} :
    dir ∈ ancestorsFrom read text ↔ ∃ u v, text = u ++ slash :: v ∧ dir = read ++ u := by
  induction text generalizing read with
  | nil => simp [ancestorsFrom]
  | cons c rest ih =>
    have hlater : (∃ u v, rest = u ++ slash :: v ∧ dir = read ++ [c] ++ u) →
        ∃ u v, c :: rest = u ++ slash :: v ∧ dir = read ++ u := by
      rintro ⟨u, v, rfl, rfl⟩
      exact ⟨c :: u, v, rfl, by simp⟩
    rw [ancestorsFrom]
    split
    · next hslash =>
        subst hslash
        rw [List.mem_cons, ih]
        constructor
        · rintro (rfl | h)
          · exact ⟨[], rest, rfl, by simp⟩
          · exact hlater h
        · rintro ⟨u, v, htext, rfl⟩
          cases u with
          | nil => exact Or.inl (by simp)
          | cons b u =>
            obtain ⟨rfl, rfl⟩ := List.cons_eq_cons.mp htext
            exact Or.inr ⟨u, v, rfl, by simp⟩
    · next hslash =>
        rw [ih]
        refine ⟨hlater, ?_⟩
        rintro ⟨u, v, htext, rfl⟩
        cases u with
        | nil => exact absurd (List.cons_eq_cons.mp htext).1 hslash
        | cons b u =>
          obtain ⟨rfl, rfl⟩ := List.cons_eq_cons.mp htext
          exact ⟨u, v, rfl, by simp⟩

/-- The directories above a path are its proper prefixes. -/
theorem mem_ancestors {dir : Bytes} :
    dir ∈ ancestorsFrom [] (pathText p) ↔
      ∃ q r, p = q ++ r ∧ q ≠ [] ∧ r ≠ [] ∧ dir = pathText q := by
  rw [mem_ancestorsFrom]
  simp only [List.nil_append]
  constructor
  · rintro ⟨u, v, htext, rfl⟩
    obtain ⟨q, r, rfl, hq, hr, rfl, -⟩ := pathText_eq_append_slash htext
    exact ⟨q, r, rfl, hq, hr, rfl⟩
  · rintro ⟨q, r, rfl, hq, hr, rfl⟩
    exact ⟨pathText q, pathText r, pathText_append hq hr, rfl⟩

end KimixNative.Glob
