import KimixNative.Diff.Opcodes
import KimixNative.Lib.LittleEndian

/-!
# Hunks

`diff_hunks` compares two texts line by line and returns the changed lines with `n` lines of context
around them. The opcodes are cut into groups: the first and the last `equal` are trimmed to `n`
lines, and one of more than `2n` lines ends a group and begins the next.

Between the groups, in front of the first one and behind the last one the texts agree, so the hunks
are a patch.
-/

namespace KimixNative.Diff

/-! ### Lines -/

/-- `boundary_len` at a byte and what follows it. -/
def boundaryLen (c : Byte) (rest : Bytes) : Nat :=
  if c = 0x0A#8 ∨ c = 0x0D#8 ∨ c = 0x0B#8 ∨ c = 0x0C#8 ∨ (0x1C#8 ≤ c ∧ c ≤ 0x1E#8) then
    if c = 0x0D#8 ∧ rest.head? = some 0x0A#8 then 2 else 1
  else if c = 0xC2#8 ∧ rest.head? = some 0x85#8 then 2
  else if c = 0xE2#8 ∧ rest.head? = some 0x80#8 ∧ (rest[1]? = some 0xA8#8 ∨ rest[1]? = some 0xA9#8)
  then 3
  else 0

/-- The loop of `split_lines`: `skip` bytes of a boundary are left, `line` has been read. -/
def splitLinesFrom (keepends : Bool) : Nat → Bytes → Bytes → List Bytes
  | _, line, [] => if line = [] then [] else [line]
  | skip + 1, line, _ :: rest => splitLinesFrom keepends skip line rest
  | 0, line, c :: rest =>
    match boundaryLen c rest with
    | 0 => splitLinesFrom keepends 0 (line ++ [c]) rest
    | more + 1 =>
      (if keepends then line ++ c :: rest.take more else line) ::
        splitLinesFrom keepends more [] rest

/-- `split_lines`. -/
def splitLines (text : Bytes) (keepends : Bool) : List Bytes := splitLinesFrom keepends 0 [] text

/-! ### Groups -/

/-- The first opcode, cut down to its last `n` lines if it is `equal`. -/
def trimFirst (n : Nat) (op : Opcode) : Opcode :=
  if op.tag = .equal then
    { op with
      i1 := if op.i2 - op.i1 > n then op.i2 - n else op.i1
      j1 := if op.j2 - op.j1 > n then op.j2 - n else op.j1 }
  else op

/-- The last opcode, cut down to its first `n` lines if it is `equal`. -/
def trimLast (n : Nat) (op : Opcode) : Opcode :=
  if op.tag = .equal then { op with i2 := min op.i2 (op.i1 + n), j2 := min op.j2 (op.j1 + n) }
  else op

/-- The opcodes between which `group_opcodes` cuts. The sum of a line number and `n` is below
`2^64`, as there are less than `2^63` lines. -/
def trimCodes (n : Nat) (opcodes : List Opcode) : List Opcode :=
  let codes := if opcodes = [] then [⟨.equal, 0, 1, 0, 1⟩] else opcodes
  let codes := codes.modifyHead (trimFirst n)
  match codes.getLast? with
  | none => codes
  | some last => codes.dropLast ++ [trimLast n last]

/-- The loop of `group_opcodes`, `group` being the one under way. -/
def groupLoop (n nn : Nat) (group : List Opcode) : List Opcode → List (List Opcode)
  | [] => if group = [] ∨ group.length = 1 ∧ group.head?.map Opcode.tag = some .equal then [] else [group]
  | op :: rest =>
    if op.tag = .equal ∧ op.i2 - op.i1 > nn then
      (group ++ [{ op with i2 := op.i1 + n, j2 := op.j1 + n }]) ::
        groupLoop n nn [{ op with i1 := op.i2 - n, j1 := op.j2 - n }] rest
    else groupLoop n nn (group ++ [op]) rest

/-- `group_opcodes`. -/
def groupOpcodes (opcodes : List Opcode) (n : Nat) : List (List Opcode) :=
  groupLoop n ((n + n) % 2 ^ 64) [] (trimCodes n opcodes)

/-! ### Hunks -/

/-- `hunk`. -/
structure Hunk (T : Type) where
  oldStart : Nat := 1
  newStart : Nat := 1
  oldLines : List T := []
  newLines : List T := []
  deriving DecidableEq

variable {T : Type}

/-- The lines that an opcode adds to `old_lines`. -/
def Opcode.oldLines (a : List T) (op : Opcode) : List T :=
  match op.tag with
  | .equal => slice a op.i1 op.i2
  | .delete => slice a op.i1 op.i2
  | .insert => []
  | .replace => slice a op.i1 op.i2

/-- The lines that an opcode adds to `new_lines`. -/
def Opcode.newLines (b : List T) (op : Opcode) : List T :=
  match op.tag with
  | .equal => slice b op.j1 op.j2
  | .delete => []
  | .insert => slice b op.j1 op.j2
  | .replace => slice b op.j1 op.j2

/-- The hunk of a group, which is not empty. -/
def hunkOf (a b : List T) (group : List Opcode) : Hunk T where
  oldStart := (group.head?.map Opcode.i1).getD 0 + 1
  newStart := (group.head?.map Opcode.j1).getD 0 + 1
  oldLines := group.flatMap (Opcode.oldLines a)
  newLines := group.flatMap (Opcode.newLines b)

/-- `diff_hunks` on lines. -/
def hunksOf [DecidableEq T] (a b : List T) (contextLines : Nat) : List (Hunk T) :=
  (groupOpcodes (computeOpcodes a b) contextLines).map (hunkOf a b)

/-- `diff_hunks`. -/
def diffHunks (oldText newText : Bytes) (contextLines : Nat) : List (Hunk Bytes) :=
  hunksOf (splitLines oldText false) (splitLines newText false) contextLines

/-- A hunk as a replacement: its line numbers begin with one. -/
def Hunk.replacement (h : Hunk T) : Replacement T := ⟨h.oldStart - 1, h.newStart - 1, h.oldLines, h.newLines⟩

/-! ### Opcodes of a part -/

/-- What remains of a tagged opcode when an `equal` one is cut down, to nothing maybe. -/
structure Opcode.Fits (a b : List T) (op : Opcode) : Prop where
  old : op.i1 ≤ op.i2
  new : op.j1 ≤ op.j2
  tagged : match op.tag with
    | .equal => op.i2 - op.i1 = op.j2 - op.j1 ∧ stretch a op.i1 op.i2 = stretch b op.j1 op.j2
    | .delete => op.j1 = op.j2
    | .insert => op.i1 = op.i2
    | .replace => True

theorem Opcode.Tagged.fits {a b : List T} {op : Opcode} (h : op.Tagged a b) (hi : op.i1 ≤ op.i2)
    (hj : op.j1 ≤ op.j2) : op.Fits a b := by
  refine ⟨hi, hj, ?_⟩
  obtain ⟨tag, i1, i2, j1, j2⟩ := op
  cases tag with
  | equal => exact h.2
  | replace => trivial
  | delete => exact h.2
  | insert => exact h.1

namespace Opcode.Fits

variable {a b : List T} {op : Opcode}

theorem oldLines_eq (h : op.Fits a b) : op.oldLines a = stretch a op.i1 op.i2 := by
  obtain ⟨tag, i1, i2, j1, j2⟩ := op
  cases tag with
  | equal => rfl
  | replace => rfl
  | delete => rfl
  | insert =>
    obtain rfl : i1 = i2 := h.tagged
    exact (stretch_self a i1).symm

theorem newLines_eq (h : op.Fits a b) : op.newLines b = stretch b op.j1 op.j2 := by
  obtain ⟨tag, i1, i2, j1, j2⟩ := op
  cases tag with
  | equal => rfl
  | replace => rfl
  | insert => rfl
  | delete =>
    obtain rfl : j1 = j2 := h.tagged
    exact (stretch_self b j1).symm

/-- A part of an `equal` opcode, from its `p`th line to its `q`th. -/
theorem part (h : op.Fits a b) (htag : op.tag = .equal) {p q : Nat} (hq : op.i1 + q ≤ op.i2) :
    stretch a (op.i1 + p) (op.i1 + q) = stretch b (op.j1 + p) (op.j1 + q) := by
  have hequal := h.tagged
  have hi := h.old
  have hj := h.new
  rw [htag] at hequal
  obtain ⟨hlen, heq⟩ := hequal
  rw [stretch_inside a hq, stretch_inside b (by omega : op.j1 + q ≤ op.j2), heq]

/-- An `equal` opcode with other ends, inside its own. -/
theorem cut (h : op.Fits a b) (htag : op.tag = .equal) {p q : Nat} (hpq : p ≤ q)
    (hq : op.i1 + q ≤ op.i2) :
    Opcode.Fits a b ⟨.equal, op.i1 + p, op.i1 + q, op.j1 + p, op.j1 + q⟩ :=
  ⟨by dsimp only; omega, by dsimp only; omega, by dsimp only; omega, h.part htag hq⟩

end Opcode.Fits

/-! ### Groups of a part -/

variable {i' j' n : Nat} {groups : List (List Opcode)} {codes : List Opcode}

theorem Covers.split {i j : Nat} {xs ys : List Opcode} (h : Covers i j (xs ++ ys) i' j') :
    ∃ m n, Covers i j xs m n ∧ Covers m n ys i' j' := by
  induction xs generalizing i j with
  | nil => exact ⟨i, j, .nil i j, h⟩
  | cons op xs ih =>
    cases h with
    | cons _ hi hj h =>
      obtain ⟨m, n, hxs, hys⟩ := ih h
      exact ⟨m, n, .cons op hi hj hxs, hys⟩

theorem Covers.fits {a b : List T} {i j : Nat} {ops : List Opcode} (h : Covers i j ops i' j')
    (htagged : ∀ op ∈ ops, op.Tagged a b) : ∀ op ∈ ops, op.Fits a b := by
  induction h with
  | nil => exact fun op hop => absurd hop List.not_mem_nil
  | cons op hi hj h ih =>
    obtain ⟨hop, hrest⟩ := List.forall_mem_cons.mp htagged
    exact List.forall_mem_cons.mpr ⟨hop.fits hi hj, ih hrest⟩

theorem Covers.of_nil {i j : Nat} (h : Covers i j [] i' j') : i = i' ∧ j = j' := by
  cases h
  exact ⟨rfl, rfl⟩

theorem Covers.of_singleton {i j : Nat} {op : Opcode} (h : Covers i j [op] i' j') :
    i = op.i1 ∧ j = op.j1 ∧ i' = op.i2 ∧ j' = op.j2 := by
  cases h with
  | cons _ hi hj h =>
    obtain ⟨hi', hj'⟩ := h.of_nil
    exact ⟨rfl, rfl, hi'.symm, hj'.symm⟩

variable {group : List Opcode}

/-- A group puts the lines together that it covers. -/
theorem Covers.hunkOf_lines {a b : List T} {i j : Nat} (h : Covers i j group i' j')
    (hfits : ∀ op ∈ group, op.Fits a b) :
    group.flatMap (Opcode.oldLines a) = stretch a i i' ∧
      group.flatMap (Opcode.newLines b) = stretch b j j' := by
  induction h with
  | nil i j => exact ⟨(stretch_self a i).symm, (stretch_self b j).symm⟩
  | cons op hi hj h ih =>
    obtain ⟨hop, hrest⟩ := List.forall_mem_cons.mp hfits
    obtain ⟨hold, hnew⟩ := ih hrest
    rw [List.flatMap_cons, List.flatMap_cons, hold, hnew, hop.oldLines_eq, hop.newLines_eq]
    exact ⟨stretch_append a hi h.le.1, stretch_append b hj h.le.2⟩

/-- The replacement of a group that covers the lines from `i` and `j` on. -/
theorem Covers.replacement_eq {a b : List T} {i j : Nat} (h : Covers i j group i' j')
    (hne : group ≠ []) (hfits : ∀ op ∈ group, op.Fits a b) :
    (hunkOf a b group).replacement = ⟨i, j, stretch a i i', stretch b j j'⟩ := by
  obtain ⟨hold, hnew⟩ := h.hunkOf_lines hfits
  rw [Hunk.replacement, hunkOf, hold, hnew]
  cases h with
  | nil => exact absurd rfl hne
  | cons op hi hj h => rfl

/-- Groups between which the lists agree. The first one covers the lines from `s` and `t` on. -/
inductive Tiles (a b : List T) : Nat → Nat → List (List Opcode) → Prop
  | nil {s t : Nat} (h : a.drop s = b.drop t) : Tiles a b s t []
  | cons {s t i j i' j' : Nat} {group : List Opcode} {rest : List (List Opcode)}
      (hcovers : Covers s t group i j) (hne : group ≠ []) (hfits : ∀ op ∈ group, op.Fits a b)
      (hi : i ≤ i') (hj : j ≤ j') (hgap : stretch a i i' = stretch b j j')
      (hbounds : i' ≤ a.length ∧ j' ≤ b.length)
      (hapart : rest ≠ [] → i < i' ∧ j < j') (h : Tiles a b i' j' rest) :
      Tiles a b s t (group :: rest)

/-- The hunks of such groups explain the difference, whatever the lists agree in before them. -/
theorem Tiles.explains {a b : List T} {s t i j : Nat} (h : Tiles a b s t groups) (hi : i ≤ s)
    (hj : j ≤ t) (hgap : stretch a i s = stretch b j t) :
    Explains a b i j (groups.map fun group => (hunkOf a b group).replacement) := by
  induction h generalizing i j with
  | @nil s t h =>
    refine .nil ?_
    rw [← stretch_append_drop a hi, ← stretch_append_drop b hj, hgap, h]
  | @cons s t i₂ j₂ i₃ j₃ group rest hcovers hne hfits hi₃ hj₃ hgap₃ hbounds hapart h ih =>
    obtain ⟨hs, ht⟩ := hcovers.le
    have hlenOld : (stretch a s i₂).length = i₂ - s := length_stretch (by omega)
    have hlenNew : (stretch b t j₂).length = j₂ - t := length_stretch (by omega)
    rw [List.map_cons, hcovers.replacement_eq hne hfits]
    have hold : s + (stretch a s i₂).length = i₂ := by omega
    have hnew : t + (stretch b t j₂).length = j₂ := by omega
    refine .cons hi hj hgap ⟨?_, ?_, ?_, ?_⟩ ?_ ?_
    · dsimp only
      omega
    · dsimp only
      omega
    · dsimp only
      rw [hold]
    · dsimp only
      rw [hnew]
    · intro next hnext
      cases h with
      | nil h => cases hnext
      | cons hcovers' hne' hfits' hi' hj' hgap' hbounds' hapart' h' =>
        rw [List.map_cons, hcovers'.replacement_eq hne' hfits'] at hnext
        obtain rfl := Option.mem_some.mp hnext
        have hlt := hapart (List.cons_ne_nil _ _)
        rw [Replacement.Before, hold, hnew]
        exact hlt
    · dsimp only
      rw [hold, hnew]
      exact ih hi₃ hj₃ hgap₃

/-! ### The loop -/

theorem Covers.snoc {i j : Nat} {group : List Opcode} {op : Opcode}
    (h : Covers i j group op.i1 op.j1) (hi : op.i1 ≤ op.i2) (hj : op.j1 ≤ op.j2) :
    Covers i j (group ++ [op]) op.i2 op.j2 :=
  h.append (.cons op hi hj (.nil op.i2 op.j2))

theorem fits_snoc {a b : List T} {op : Opcode} (hgroup : ∀ op ∈ group, op.Fits a b)
    (hop : op.Fits a b) : ∀ op' ∈ group ++ [op], op'.Fits a b := by
  intro op' hmem
  rcases List.mem_append.mp hmem with h | h
  · exact hgroup op' h
  · exact List.mem_singleton.mp h ▸ hop

/-- Cutting at long `equal` opcodes leaves groups between which the lists agree. -/
theorem groupLoop_tiles {a b : List T} {s t i j : Nat} (hgroup : Covers s t group i j)
    (hfits : ∀ op ∈ group, op.Fits a b) (hcodes : Covers i j codes i' j')
    (hcodesFit : ∀ op ∈ codes, op.Fits a b) (hbounds : i' ≤ a.length ∧ j' ≤ b.length)
    (hend : a.drop i' = b.drop j') : Tiles a b s t (groupLoop n (n + n) group codes) := by
  induction hcodes generalizing s t group with
  | nil i j =>
    rw [groupLoop]
    split
    · next hnone =>
        refine .nil ?_
        rcases hnone with rfl | ⟨hlen, htag⟩
        · cases hgroup
          exact hend
        · -- a group of one `equal` opcode is dropped
          obtain ⟨op, rfl⟩ := List.length_eq_one_iff.mp hlen
          have hop := hfits op List.mem_cons_self
          have hequal := hop.tagged
          rw [show op.tag = .equal by simpa using htag] at hequal
          obtain ⟨rfl, rfl, rfl, rfl⟩ := hgroup.of_singleton
          rw [← stretch_append_drop a hop.old, ← stretch_append_drop b hop.new, hequal.2, hend]
    · next hsome =>
        exact .cons hgroup (fun h => hsome (Or.inl h)) hfits le_rfl le_rfl (by simp) hbounds
          (fun h => absurd rfl h) (.nil hend)
  | @cons op codes i' j' hi hj h ih =>
    obtain ⟨hop, hrest⟩ := List.forall_mem_cons.mp hcodesFit
    obtain ⟨hlei, hlej⟩ := h.le
    rw [groupLoop]
    split
    · next hlong =>
        obtain ⟨htag, hlen⟩ := hlong
        have hequal := hop.tagged
        rw [htag] at hequal
        obtain ⟨hlens, -⟩ := hequal
        have htail := hop.cut htag (Nat.zero_le n) (by omega)
        have hhead := hop.cut htag (p := op.i2 - op.i1 - n) (q := op.i2 - op.i1) (by omega)
          (by omega)
        have hgap := hop.part htag (p := n) (q := op.i2 - op.i1 - n) (by omega)
        have hi2 : op.i1 + (op.i2 - op.i1) = op.i2 := by omega
        have hj2 : op.j1 + (op.i2 - op.i1) = op.j2 := by omega
        have hi1 : op.i1 + (op.i2 - op.i1 - n) = op.i2 - n := by omega
        have hj1 : op.j1 + (op.i2 - op.i1 - n) = op.j2 - n := by omega
        rw [hi1, hj1, hi2, hj2] at hhead
        rw [hi1, hj1] at hgap
        have hstart : ({ op with i2 := op.i1 + n, j2 := op.j1 + n } : Opcode) =
            ⟨.equal, op.i1 + 0, op.i1 + n, op.j1 + 0, op.j1 + n⟩ := by
          simp [← htag]
        have hstop : ({ op with i1 := op.i2 - n, j1 := op.j2 - n } : Opcode) =
            ⟨.equal, op.i2 - n, op.i2, op.j2 - n, op.j2⟩ := by
          simp [← htag]
        rw [hstart, hstop]
        have hfirst : Covers s t (group ++ [⟨.equal, op.i1 + 0, op.i1 + n, op.j1 + 0, op.j1 + n⟩])
            (op.i1 + n) (op.j1 + n) :=
          @Covers.snoc s t group ⟨.equal, op.i1 + 0, op.i1 + n, op.j1 + 0, op.j1 + n⟩ hgroup
            htail.old htail.new
        have hlast : Covers (op.i2 - n) (op.j2 - n) [⟨.equal, op.i2 - n, op.i2, op.j2 - n, op.j2⟩]
            op.i2 op.j2 :=
          .cons ⟨.equal, op.i2 - n, op.i2, op.j2 - n, op.j2⟩ hhead.old hhead.new (.nil _ _)
        have hlater := ih hlast (by simpa using hhead) hrest hbounds hend
        exact .cons hfirst (by simp) (fits_snoc hfits htail) (by omega) (by omega) hgap (by omega)
          (fun _ => by omega) hlater
    · exact ih (hgroup.snoc hi hj) (fits_snoc hfits hop) hrest hbounds hend

/-! ### The ends -/

/-- What the first opcode loses is the same in both lists. -/
theorem trimFirst_spec {a b : List T} {op : Opcode} (h : op.Fits a b) (n : Nat) :
    (trimFirst n op).Fits a b ∧ (trimFirst n op).i2 = op.i2 ∧ (trimFirst n op).j2 = op.j2 ∧
      op.i1 ≤ (trimFirst n op).i1 ∧ op.j1 ≤ (trimFirst n op).j1 ∧
        stretch a op.i1 (trimFirst n op).i1 = stretch b op.j1 (trimFirst n op).j1 := by
  rw [trimFirst]
  split
  · next htag =>
      have hi := h.old
      have hj := h.new
      have hequal := h.tagged
      rw [htag] at hequal
      obtain ⟨hlen, -⟩ := hequal
      by_cases hlong : op.i2 - op.i1 > n
      · have hi1 : op.i1 + (op.i2 - op.i1 - n) = op.i2 - n := by omega
        have hj1 : op.j1 + (op.i2 - op.i1 - n) = op.j2 - n := by omega
        have hi2 : op.i1 + (op.i2 - op.i1) = op.i2 := by omega
        have hj2 : op.j1 + (op.i2 - op.i1) = op.j2 := by omega
        have hrest := h.cut htag (p := op.i2 - op.i1 - n) (q := op.i2 - op.i1) (by omega) (by omega)
        have hlost := h.part htag (p := 0) (q := op.i2 - op.i1 - n) (by omega)
        rw [hi1, hj1, hi2, hj2] at hrest
        rw [hi1, hj1] at hlost
        rw [if_pos hlong, if_pos (by omega), htag]
        exact ⟨hrest, rfl, rfl, by dsimp only; omega, by dsimp only; omega, hlost⟩
      · rw [if_neg hlong, if_neg (by omega)]
        exact ⟨h, rfl, rfl, le_rfl, le_rfl, by rw [stretch_self, stretch_self]⟩
  · exact ⟨h, rfl, rfl, le_rfl, le_rfl, by rw [stretch_self, stretch_self]⟩

/-- What the last opcode loses is the same in both lists. -/
theorem trimLast_spec {a b : List T} {op : Opcode} (h : op.Fits a b) (n : Nat) :
    (trimLast n op).Fits a b ∧ (trimLast n op).i1 = op.i1 ∧ (trimLast n op).j1 = op.j1 ∧
      (trimLast n op).i2 ≤ op.i2 ∧ (trimLast n op).j2 ≤ op.j2 ∧
        stretch a (trimLast n op).i2 op.i2 = stretch b (trimLast n op).j2 op.j2 := by
  rw [trimLast]
  split
  · next htag =>
      have hi := h.old
      have hj := h.new
      have hequal := h.tagged
      rw [htag] at hequal
      obtain ⟨hlen, -⟩ := hequal
      have hi2 : op.i1 + (op.i2 - op.i1) = op.i2 := by omega
      have hj2 : op.j1 + (op.i2 - op.i1) = op.j2 := by omega
      have hmin : min op.i2 (op.i1 + n) = op.i1 + min (op.i2 - op.i1) n := by omega
      have hmin' : min op.j2 (op.j1 + n) = op.j1 + min (op.i2 - op.i1) n := by omega
      have hrest := h.cut htag (Nat.zero_le (min (op.i2 - op.i1) n)) (by omega)
      have hlost := h.part htag (p := min (op.i2 - op.i1) n) (q := op.i2 - op.i1) (by omega)
      rw [hi2, hj2] at hlost
      rw [hmin, hmin', htag]
      exact ⟨hrest, rfl, rfl, by dsimp only; omega, by dsimp only; omega, hlost⟩
  · exact ⟨h, rfl, rfl, le_rfl, le_rfl, by rw [stretch_self, stretch_self]⟩

theorem Covers.trimFirst {a b : List T} {i j : Nat} (h : Covers i j codes i' j') (hne : codes ≠ [])
    (hfits : ∀ op ∈ codes, op.Fits a b) (n : Nat) :
    ∃ s t, Covers s t (codes.modifyHead (trimFirst n)) i' j' ∧
      (∀ op ∈ codes.modifyHead (trimFirst n), op.Fits a b) ∧ i ≤ s ∧ j ≤ t ∧
        stretch a i s = stretch b j t := by
  cases h with
  | nil => exact absurd rfl hne
  | cons op hi hj h =>
    obtain ⟨hop, hrest⟩ := List.forall_mem_cons.mp hfits
    obtain ⟨hop', hi2, hj2, hi1, hj1, hlost⟩ := trimFirst_spec hop n
    rw [List.modifyHead_cons]
    exact ⟨_, _, .cons (Diff.trimFirst n op) hop'.old hop'.new (by rwa [hi2, hj2]),
      List.forall_mem_cons.mpr ⟨hop', hrest⟩, hi1, hj1, hlost⟩

theorem Covers.trimLast {a b : List T} {i j : Nat} {last : Opcode}
    (h : Covers i j (codes ++ [last]) i' j') (hfits : ∀ op ∈ codes ++ [last], op.Fits a b) (n : Nat) :
    ∃ s t, Covers i j (codes ++ [trimLast n last]) s t ∧
      (∀ op ∈ codes ++ [trimLast n last], op.Fits a b) ∧ s ≤ i' ∧ t ≤ j' ∧
        stretch a s i' = stretch b t j' := by
  obtain ⟨m, m', hcodes, hlast⟩ := h.split
  obtain ⟨rfl, rfl, rfl, rfl⟩ := hlast.of_singleton
  have hfit := hfits last (List.mem_append_right codes List.mem_cons_self)
  obtain ⟨hfit', hi1, hj1, hi2, hj2, hlost⟩ := trimLast_spec hfit n
  exact ⟨_, _, Covers.snoc (by rwa [hi1, hj1]) hfit'.old hfit'.new,
    fits_snoc (fun op hop => hfits op (List.mem_append_left _ hop)) hfit', hi2, hj2, hlost⟩

/-- With its ends trimmed a script leaves out equal ends of the lists. -/
theorem trimCodes_covers {a b : List T} {opcodes : List Opcode} (hne : opcodes ≠ [])
    (hcovers : Covers 0 0 opcodes a.length b.length) (hfits : ∀ op ∈ opcodes, op.Fits a b)
    (n : Nat) :
    ∃ s t i j, Covers s t (trimCodes n opcodes) i j ∧ (∀ op ∈ trimCodes n opcodes, op.Fits a b) ∧
      stretch a 0 s = stretch b 0 t ∧ (i ≤ a.length ∧ j ≤ b.length) ∧ a.drop i = b.drop j := by
  obtain ⟨s, t, hcodes, hcodesFit, -, -, hlost⟩ := hcovers.trimFirst hne hfits n
  rw [trimCodes, if_neg hne]
  have hback : opcodes.modifyHead (trimFirst n) ≠ [] := by
    cases opcodes with
    | nil => exact absurd rfl hne
    | cons op rest => simp
  generalize opcodes.modifyHead (trimFirst n) = codes at hcodes hcodesFit hback
  rcases List.eq_nil_or_concat' codes with rfl | ⟨init, last, rfl⟩
  · exact absurd rfl hback
  · obtain ⟨i, j, hcodes', hcodesFit', hi, hj, hlost'⟩ := hcodes.trimLast hcodesFit n
    rw [List.getLast?_concat, List.dropLast_concat]
    refine ⟨s, t, i, j, hcodes', hcodesFit', hlost, ⟨hi, hj⟩, ?_⟩
    rw [← stretch_append_drop a hi, ← stretch_append_drop b hj, hlost', List.drop_length,
      List.drop_length]

/-- One `equal` opcode makes no group. -/
theorem groupOpcodes_equal {i1 i2 j1 j2 : Nat} (hn : 2 * n < 2 ^ 64) :
    groupOpcodes [⟨.equal, i1, i2, j1, j2⟩] n = [] := by
  have hnn : (n + n) % 2 ^ 64 = n + n := Nat.mod_eq_of_lt (by omega)
  rw [groupOpcodes, hnn, trimCodes, if_neg (List.cons_ne_nil _ _)]
  simp only [List.modifyHead_cons, List.getLast?_singleton, List.dropLast_singleton,
    List.nil_append, trimFirst, trimLast, if_true, groupLoop]
  rw [if_neg (by omega), if_pos (Or.inr ⟨rfl, rfl⟩)]

/-! ### Equal lists -/

section Script

variable [DecidableEq T]

/-- A list has one common block with itself. -/
theorem findMatchingBlocks_self {a : List T} (hne : a ≠ []) :
    findMatchingBlocks a a 0 a.length 0 a.length = [⟨0, 0, a.length⟩] := by
  have hwithin := findLongestMatch_within a a 0 a.length 0 a.length
  have hself : IsCommon a a 0 0 a.length := by
    intro k hk
    rw [Nat.zero_add]
    exact ⟨a[k], List.getElem?_eq_getElem hk, List.getElem?_eq_getElem hk⟩
  have hlong := le_findLongestMatch (a := a) (b := a) (Nat.le_refl 0) (Nat.zero_add a.length).le
    (Nat.le_refl 0) (Nat.zero_add a.length).le hself
  have hpos : 0 < a.length := List.length_pos_iff.mpr hne
  have hmatch : findLongestMatch a 0 a.length (indexPositions a) 0 a.length = ⟨0, 0, a.length⟩ := by
    obtain ⟨hcommon, hleft, hright, hlow, hhigh⟩ := hwithin
    generalize findLongestMatch a 0 a.length (indexPositions a) 0 a.length = m at hright hhigh hlong
    obtain ⟨i, j, n⟩ := m
    obtain rfl : n = a.length := by dsimp only at *; omega
    obtain rfl : i = 0 := by dsimp only at *; omega
    obtain rfl : j = 0 := by dsimp only at *; omega
    rfl
  rw [findMatchingBlocks]
  simp [hmatch, hne]

theorem computeOpcodes_self {a : List T} (hne : a ≠ []) :
    computeOpcodes a a = [⟨.equal, 0, a.length, 0, a.length⟩] := by
  have hpos : 0 < a.length := List.length_pos_iff.mpr hne
  rw [computeOpcodes, findMatchingBlocks_self hne]
  simp [opcodesFrom, gapOpcode, blockOpcode, hpos]

/-! ### The hunks -/

/-- The hunks explain how two lists differ. -/
theorem hunksOf_explains (a b : List T) (hn : 2 * n < 2 ^ 64) :
    Explains a b 0 0 ((hunksOf a b n).map Hunk.replacement) := by
  obtain ⟨hcovers, htagged, -, -⟩ := computeOpcodes_normalForm a b
  have hfits := hcovers.fits htagged
  have hnn : (n + n) % 2 ^ 64 = n + n := Nat.mod_eq_of_lt (by omega)
  rw [hunksOf, List.map_map]
  by_cases hne : computeOpcodes a b = []
  · rw [hne] at hcovers ⊢
    have hdummy : groupOpcodes [] n = groupOpcodes [⟨.equal, 0, 1, 0, 1⟩] n := rfl
    rw [hdummy, groupOpcodes_equal hn]
    obtain ⟨ha, hb⟩ := hcovers.of_nil
    exact .nil (by rw [List.length_eq_zero_iff.mp ha.symm, List.length_eq_zero_iff.mp hb.symm])
  · obtain ⟨s, t, i, j, hcodes, hcodesFit, hfront, hbounds, hback⟩ :=
      trimCodes_covers hne hcovers hfits n
    rw [groupOpcodes, hnn]
    exact (groupLoop_tiles (.nil s t) (fun op hop => absurd hop List.not_mem_nil) hcodes hcodesFit
      hbounds hback).explains (Nat.zero_le s) (Nat.zero_le t) hfront

/-- There are no hunks between equal lists only. -/
theorem hunksOf_eq_nil_iff (a b : List T) (hn : 2 * n < 2 ^ 64) : hunksOf a b n = [] ↔ a = b := by
  constructor
  · intro h
    have hexplains := hunksOf_explains a b hn
    rw [h] at hexplains
    cases hexplains with
    | nil heq => exact heq
  · rintro rfl
    rw [hunksOf]
    by_cases hne : a = []
    · subst hne
      have hdummy : groupOpcodes (computeOpcodes [] ([] : List T)) n =
          groupOpcodes [⟨.equal, 0, 1, 0, 1⟩] n := by
        rw [computeOpcodes, findMatchingBlocks]
        rfl
      rw [hdummy, groupOpcodes_equal hn, List.map_nil]
    · rw [computeOpcodes_self hne, groupOpcodes_equal hn, List.map_nil]

end Script

/-- A hunk stands in both texts, at the line numbers that it names. -/
def Hunk.StandsIn (h : Hunk Bytes) (oldLines newLines : List Bytes) : Prop :=
  1 ≤ h.oldStart ∧ 1 ≤ h.newStart ∧ h.replacement.Stands oldLines newLines

theorem one_le_hunkOf {a b : List T} {h : Hunk T} (hmem : h ∈ groups.map (hunkOf a b)) :
    1 ≤ h.oldStart ∧ 1 ≤ h.newStart := by
  obtain ⟨group, -, rfl⟩ := List.mem_map.mp hmem
  exact ⟨Nat.le_add_left 1 _, Nat.le_add_left 1 _⟩

/-- The hunks of two texts stand in them one behind the other, with lines between any two; applied
to the lines of the old text they give those of the new one, and there are none between texts of
the same lines only. -/
theorem diffHunks_patch (oldText newText : Bytes) (n : Nat) (hn : 2 * n < 2 ^ 64) :
    (diffHunks oldText newText n).Pairwise (fun h h' =>
        h.oldStart + h.oldLines.length < h'.oldStart ∧
          h.newStart + h.newLines.length < h'.newStart) ∧
      (∀ h ∈ diffHunks oldText newText n,
        h.StandsIn (splitLines oldText false) (splitLines newText false)) ∧
      applyPatch 0 (splitLines oldText false) ((diffHunks oldText newText n).map Hunk.replacement) =
        some (splitLines newText false) ∧
      (diffHunks oldText newText n = [] ↔
        splitLines oldText false = splitLines newText false) := by
  have hexplains := hunksOf_explains (splitLines oldText false) (splitLines newText false) hn
  have hstarts : ∀ h ∈ diffHunks oldText newText n, 1 ≤ h.oldStart ∧ 1 ≤ h.newStart :=
    fun h hmem => one_le_hunkOf hmem
  refine ⟨?_, fun h hmem => ?_, hexplains.applyPatch_eq, hunksOf_eq_nil_iff _ _ hn⟩
  · refine (List.pairwise_map.mp hexplains.pairwise).imp_of_mem fun {h h'} hmem hmem' hbefore => ?_
    obtain ⟨hold, hnew⟩ := hbefore
    have hstart := hstarts h hmem
    have hstart' := hstarts h' hmem'
    simp only [Hunk.replacement] at hold hnew
    exact ⟨by omega, by omega⟩
  · obtain ⟨hold, hnew⟩ := hstarts h hmem
    exact ⟨hold, hnew, hexplains.stands h.replacement (List.mem_map_of_mem hmem)⟩

theorem diffHunks_patch_insert :
    applyPatch 0 (splitLines [0x61#8] false)
        ((diffHunks [0x61#8] [0x61#8, 0x0A#8, 0x62#8] 3).map Hunk.replacement) =
      some (splitLines [0x61#8, 0x0A#8, 0x62#8] false) :=
  (diffHunks_patch [0x61#8] [0x61#8, 0x0A#8, 0x62#8] 3 (by decide)).2.2.1

end KimixNative.Diff
