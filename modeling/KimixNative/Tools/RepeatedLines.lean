import KimixNative.Tools.LineHash

/-!
# Repeated lines

Neighbouring lines with one hash are shown as the first of them and a count. The hash leaves blanks
out and has eight bits, so lines of one run need not be the same; their hashes are.
-/

namespace KimixNative.Tools

open Text

/-- `line_hash_independent`. -/
def lineHashIndependent (line : Bytes) : Nat :=
  rdHashLineCore line (if rdLineHasSignificant line then 0 else 1)

/-- `<line>  (K repeats)`. -/
def repeatsEntry (line : Bytes) (repeats : Nat) : Bytes :=
  line ++ ascii "  (" ++ decimal repeats ++ ascii " repeats)"

/-- The loop of `collapse_repeated_lines`, over the lines with their hashes. -/
def collapseLoop (minRepeats : Nat) : Nat → List (Nat × Bytes) → List Bytes × Nat
  | 0, _ => ([], 0)
  | _, [] => ([], 0)
  | fuel + 1, (hash, line) :: rest =>
    let run := rest.takeWhile fun entry => entry.1 == hash
    let (out, saved) := collapseLoop minRepeats fuel (rest.dropWhile fun entry => entry.1 == hash)
    if minRepeats ≤ run.length + 1 then
      (repeatsEntry line run.length :: out, saved + run.length)
    else (line :: run.map Prod.snd ++ out, saved)

/-- `collapse_repeated_lines`; the second part is `saved`. -/
def collapseRepeatedLines (hashes : List Nat) (lines : List Bytes) (minRepeats : Nat) :
    List Bytes × Nat :=
  let minRepeats := max minRepeats 2
  let n := min hashes.length lines.length
  if n < 2 then (lines.take n, 0) else collapseLoop minRepeats n (hashes.zip lines)

/-! ### Runs -/

/-- What is shown of a run. -/
def shownRun (minRepeats : Nat) : List Bytes → List Bytes
  | [] => []
  | line :: rest =>
    if max minRepeats 2 ≤ rest.length + 1 then [repeatsEntry line rest.length] else line :: rest

/-- The run again, from what is shown of it. -/
def repeatedRun (minRepeats : Nat) : List Bytes → List Bytes
  | [] => []
  | line :: rest =>
    if max minRepeats 2 ≤ rest.length + 1 then List.replicate (rest.length + 1) line
    else line :: rest

/-- Neighbouring lines with one hash. -/
def HashRun (run : List Bytes) : Prop :=
  run ≠ [] ∧ ∀ a ∈ run, ∀ b ∈ run, lineHashIndependent a = lineHashIndependent b

/-- What is repeated has the hashes of the run. -/
theorem repeatedRun_hashes (minRepeats : Nat) {run : List Bytes} (h : HashRun run) :
    (repeatedRun minRepeats run).map lineHashIndependent = run.map lineHashIndependent := by
  cases run with
  | nil => rfl
  | cons line rest =>
    rw [repeatedRun]
    split
    · rw [List.map_replicate, eq_comm, List.eq_replicate_iff]
      refine ⟨by rw [List.length_map, List.length_cons], fun hash hhash => ?_⟩
      obtain ⟨other, hother, rfl⟩ := List.mem_map.mp hhash
      exact h.2 other hother line List.mem_cons_self
    · rfl

/-- The lines fall into runs, and each of them is shown in its turn. -/
theorem collapseLoop_runs (minRepeats : Nat) {fuel : Nat} {lines : List Bytes}
    (hfuel : lines.length ≤ fuel) :
    ∃ runs : List (List Bytes), runs.flatten = lines ∧ (∀ run ∈ runs, HashRun run) ∧
      (collapseLoop (max minRepeats 2) fuel
        (lines.map fun line => (lineHashIndependent line, line))).1 =
          runs.flatMap (shownRun minRepeats) ∧
      (collapseLoop (max minRepeats 2) fuel
        (lines.map fun line => (lineHashIndependent line, line))).2 +
          (runs.flatMap (shownRun minRepeats)).length = lines.length := by
  induction fuel generalizing lines with
  | zero =>
    obtain rfl := List.eq_nil_of_length_eq_zero (Nat.le_zero.mp hfuel)
    exact ⟨[], rfl, fun _ h => absurd h List.not_mem_nil, rfl, rfl⟩
  | succ fuel ih =>
    cases lines with
    | nil => exact ⟨[], rfl, fun _ h => absurd h List.not_mem_nil, rfl, rfl⟩
    | cons line lines =>
      let same : Bytes → Bool := fun other => lineHashIndependent other == lineHashIndependent line
      have hlen := congrArg List.length (List.takeWhile_append_dropWhile (p := same) (l := lines))
      rw [List.length_append] at hlen
      rw [List.length_cons] at hfuel
      obtain ⟨runs, hflat, hruns, hout, hsaved⟩ := @ih (lines.dropWhile same) (by omega)
      have hsplit : ((line :: lines.takeWhile same) :: runs).flatten = line :: lines := by
        rw [List.flatten_cons, hflat, List.cons_append, List.takeWhile_append_dropWhile]
      refine ⟨(line :: lines.takeWhile same) :: runs, hsplit, List.forall_mem_cons.mpr ⟨?_, hruns⟩, ?_⟩
      · have hhash : ∀ a ∈ line :: lines.takeWhile same,
            lineHashIndependent a = lineHashIndependent line := by
          intro a ha
          rcases List.mem_cons.mp ha with rfl | ha
          · rfl
          · exact eq_of_beq (List.mem_takeWhile_imp (p := same) ha)
        exact ⟨List.cons_ne_nil _ _, fun a ha b hb => (hhash a ha).trans (hhash b hb).symm⟩
      · have htake : ((lines.map fun line => (lineHashIndependent line, line)).takeWhile
            fun entry => entry.1 == lineHashIndependent line) =
              (lines.takeWhile same).map fun line => (lineHashIndependent line, line) :=
          List.takeWhile_map
        have hdrop : ((lines.map fun line => (lineHashIndependent line, line)).dropWhile
            fun entry => entry.1 == lineHashIndependent line) =
              (lines.dropWhile same).map fun line => (lineHashIndependent line, line) :=
          List.dropWhile_map
        have hsnd : ((lines.takeWhile same).map fun line => (lineHashIndependent line, line)).map
            Prod.snd = lines.takeWhile same := by
          rw [List.map_map]
          exact List.map_id _
        rw [List.map_cons, collapseLoop, htake, hdrop, List.flatMap_cons, List.length_append,
          List.length_cons, shownRun]
        simp only [List.length_map, hsnd]
        by_cases hmin : max minRepeats 2 ≤ (lines.takeWhile same).length + 1
        · simp only [if_pos hmin, hout, List.singleton_append, List.length_singleton, true_and]
          omega
        · simp only [if_neg hmin, hout, true_and, List.length_cons]
          omega

/-- A list of one line or none has nothing to collapse. -/
theorem collapseRepeatedLines_eq (lines : List Bytes) (minRepeats : Nat) :
    collapseRepeatedLines (lines.map lineHashIndependent) lines minRepeats =
      collapseLoop (max minRepeats 2) lines.length
        (lines.map fun line => (lineHashIndependent line, line)) := by
  have hzip : (lines.map lineHashIndependent).zip (lines.map id) =
      lines.map fun line => (lineHashIndependent line, line) := List.zip_map'
  rw [List.map_id] at hzip
  simp only [collapseRepeatedLines, List.length_map, Nat.min_self, hzip]
  match lines with
  | [] => rfl
  | [line] =>
    have hmin : ¬max minRepeats 2 ≤ 1 := by omega
    exact (if_neg hmin).symm
  | a :: b :: rest => exact if_neg (by simp)

/-- Every line is shown in its turn, itself or in a run of lines with one hash that is shown as its
first line and the number of the others; what is saved are the lines that are not shown. To repeat
what is shown gives the hashes of all lines. -/
theorem collapseRepeatedLines_runs (lines : List Bytes) (minRepeats : Nat) :
    ∃ runs : List (List Bytes), runs.flatten = lines ∧ (∀ run ∈ runs, HashRun run) ∧
      (collapseRepeatedLines (lines.map lineHashIndependent) lines minRepeats).1 =
          runs.flatMap (shownRun minRepeats) ∧
      (collapseRepeatedLines (lines.map lineHashIndependent) lines minRepeats).2 +
          (runs.flatMap (shownRun minRepeats)).length = lines.length ∧
      (runs.flatMap (repeatedRun minRepeats)).map lineHashIndependent =
        lines.map lineHashIndependent := by
  obtain ⟨runs, hflat, hruns, hout, hsaved⟩ := @collapseLoop_runs minRepeats _ lines (Nat.le_refl _)
  rw [collapseRepeatedLines_eq]
  refine ⟨runs, hflat, hruns, hout, hsaved, ?_⟩
  rw [← hflat, List.map_flatMap, List.map_flatten, List.flatMap]
  exact congrArg List.flatten (List.map_congr_left fun run hrun =>
    repeatedRun_hashes minRepeats (hruns run hrun))

/-- Blanks keep two lines from being the same, but not their hashes. -/
theorem collapseRepeatedLines_blank :
    collapseRepeatedLines ([ascii "ab", ascii "a b"].map lineHashIndependent)
      [ascii "ab", ascii "a b"] 2 = ([ascii "ab  (1 repeats)"], 1) ∧ ascii "ab" ≠ ascii "a b" := by
  decide +kernel

end KimixNative.Tools
