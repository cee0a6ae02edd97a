import KimixNative.Tools.HashlinePass

/-!
# Edits one after the other

The edits are applied from the last line up. An edit finds the lines it is about where the file
had them, unless lines were replaced in front of it before; this happens to lines that are put
behind a replacement which was listed later.
-/

namespace KimixNative.Tools

open Text Cells

/-! ## Where edits stand -/

/-- Lines are put behind the last of those that are replaced. -/
def LineEdit.appendsBehind : LineEdit → LineEdit → Bool
  | .append (some pos) lines, .replace p last _ => !lines.isEmpty && decide (endLine p last = pos.line)
  | _, _ => false

/-- Where the change of an edit stands in the file. -/
inductive LineEdit.Placed (fileLen : Nat) (c : Change Bytes) : LineEdit → Prop
  | replaced {pos : AnchorRef} {last : Option AnchorRef} {lines : List Bytes} (hpos : 1 ≤ pos.line)
      (hle : pos.line ≤ endLine pos last) (hlast : endLine pos last ≤ fileLen)
      (hfirst : (c.first : Int) = 3 * pos.line - 1) (hend : (c.last : Int) = 3 * endLine pos last - 1) :
      Placed fileLen c (.replace pos last lines)
  | behind {pos : AnchorRef} {lines : List Bytes} (hne : lines ≠ []) (hpos : 1 ≤ pos.line)
      (hlast : pos.line ≤ fileLen) (hfirst : (c.first : Int) = 3 * pos.line) (hend : c.last = c.first) :
      Placed fileLen c (.append (some pos) lines)
  | atEnd {lines : List Bytes} (hne : lines ≠ []) (hfirst : c.first = 3 * fileLen + 1)
      (hend : c.last = c.first) : Placed fileLen c (.append none lines)
  | before {pos : AnchorRef} {lines : List Bytes} (hne : lines ≠ []) (hpos : 1 ≤ pos.line)
      (hlast : pos.line ≤ fileLen) (hfirst : (c.first : Int) = 3 * pos.line - 2) (hend : c.last = c.first) :
      Placed fileLen c (.prepend (some pos) lines)
  | atStart {lines : List Bytes} (hne : lines ≠ []) (hfirst : c.first = 0) (hend : c.last = c.first) :
      Placed fileLen c (.prepend none lines)

variable {n : Nat}

theorem LineEdit.Anchored.placed {e : LineEdit} {c : Change Bytes} (he : e.Anchored n)
    (hc : e.change n = some c) : e.Placed n c := by
  cases e with
  | replace pos last lines =>
    obtain rfl := Option.some.inj hc
    obtain ⟨hpos, hle, hlast⟩ := he
    refine .replaced hpos hle hlast ?_ ?_
    · change ((3 * pos.line.toNat - 1 : Nat) : Int) = 3 * pos.line - 1
      omega
    · change ((3 * pos.line.toNat - 1 + 3 * (endLine pos last - pos.line).toNat : Nat) : Int) =
        3 * endLine pos last - 1
      omega
  | append pos lines =>
    have hne : lines ≠ [] := by
      rintro rfl
      simp [LineEdit.change] at hc
    rw [LineEdit.change, if_neg hne] at hc
    obtain rfl := Option.some.inj hc
    cases pos with
    | none => exact .atEnd hne rfl rfl
    | some pos =>
      have hpos := he pos rfl
      refine .behind hne hpos.1 hpos.2 ?_ rfl
      change ((3 * pos.line.toNat : Nat) : Int) = 3 * pos.line
      omega
  | prepend pos lines =>
    have hne : lines ≠ [] := by
      rintro rfl
      simp [LineEdit.change] at hc
    rw [LineEdit.change, if_neg hne] at hc
    obtain rfl := Option.some.inj hc
    cases pos with
    | none => exact .atStart hne rfl rfl
    | some pos =>
      have hpos := he pos rfl
      refine .before hne hpos.1 hpos.2 ?_ rfl
      change ((3 * pos.line.toNat - 2 : Nat) : Int) = 3 * pos.line - 2
      omega

theorem LineEdit.Placed.not_idle {e : LineEdit} {c : Change Bytes} (h : e.Placed n c) :
    e.isIdle = false := by
  cases h with
  | replaced => rfl
  | behind hne | atEnd hne | before hne | atStart hne => exact List.isEmpty_eq_false_iff.mpr hne

theorem ranges_of_free {x e : LineEdit} (hx : x.isIdle = false) (he : e.isIdle = false)
    (hfree : editRangesOverlap n x e = false) :
    ((x.range n).2 < (e.range n).1 ∨ (e.range n).2 < (x.range n).1) ∧ sameRefLine x e = false := by
  rw [editRangesOverlap, hx, he, Bool.or_self, if_neg Bool.false_ne_true, Bool.or_eq_false_iff,
    Bool.not_eq_false', decide_eq_true_eq] at hfree
  exact hfree

/-- An edit that is applied earlier stands behind the other, unless lines are put behind a
replacement that was listed later or at the end of the file. -/
theorem behind_or {x e : LineEdit} {d c : Change Bytes} (hx : x.Placed n d) (he : e.Placed n c)
    (hfree : editRangesOverlap n x e = false) (hsort : e.sortLine n ≤ x.sortLine n) :
    c.last < d.first ∨ (d.last < c.first ∧ (c.first = 3 * n + 1 ∨
      (e.appendsBehind x = true ∧ e.sortLine n = x.sortLine n))) := by
  obtain ⟨hr, href⟩ := ranges_of_free hx.not_idle he.not_idle hfree
  cases hx with
  | replaced =>
    cases he with
    | @behind pos lines hne =>
      have hlines := List.length_pos_of_ne_nil hne
      simp only [LineEdit.appendsBehind, List.isEmpty_eq_false_iff.mpr hne, Bool.not_false, Bool.true_and,
        decide_eq_true_eq]
      simp only [LineEdit.range, LineEdit.sortLine, Option.map_some, Option.getD_some] at hr hsort ⊢
      omega
    | replaced =>
      simp only [LineEdit.range, LineEdit.sortLine] at hr hsort
      omega
    | before hne | atEnd hne | atStart hne =>
      have hlines := List.length_pos_of_ne_nil hne
      simp only [LineEdit.range, LineEdit.sortLine, Option.map_some, Option.map_none, Option.getD_some,
        Option.getD_none] at hr hsort
      omega
  | behind hne =>
    have hlines := List.length_pos_of_ne_nil hne
    cases he with
    | replaced =>
      simp only [LineEdit.range, LineEdit.sortLine, Option.map_some, Option.getD_some] at hr hsort
      omega
    | before hne' =>
      have hlines' := List.length_pos_of_ne_nil hne'
      have hline := of_decide_eq_false href
      simp only [LineEdit.range, LineEdit.sortLine, Option.map_some, Option.getD_some] at hr hsort
      omega
    | behind hne' | atEnd hne' | atStart hne' =>
      have hlines' := List.length_pos_of_ne_nil hne'
      simp only [LineEdit.range, LineEdit.sortLine, Option.map_some, Option.map_none, Option.getD_some,
        Option.getD_none] at hr hsort
      omega
  | before hne =>
    have hlines := List.length_pos_of_ne_nil hne
    cases he with
    | replaced =>
      simp only [LineEdit.range, LineEdit.sortLine, Option.map_some, Option.getD_some] at hr hsort
      omega
    | behind hne' =>
      have hlines' := List.length_pos_of_ne_nil hne'
      have hline := of_decide_eq_false href
      simp only [LineEdit.range, LineEdit.sortLine, Option.map_some, Option.getD_some] at hr hsort
      omega
    | before hne' | atEnd hne' | atStart hne' =>
      have hlines' := List.length_pos_of_ne_nil hne'
      simp only [LineEdit.range, LineEdit.sortLine, Option.map_some, Option.map_none, Option.getD_some,
        Option.getD_none] at hr hsort
      omega
  | atEnd hne | atStart hne =>
    have hlines := List.length_pos_of_ne_nil hne
    cases he with
    | replaced =>
      simp only [LineEdit.range, LineEdit.sortLine, Option.map_none, Option.getD_none] at hr hsort
      omega
    | behind hne' | before hne' | atEnd hne' | atStart hne' =>
      have hlines' := List.length_pos_of_ne_nil hne'
      simp only [LineEdit.range, LineEdit.sortLine, Option.map_some, Option.map_none, Option.getD_some,
        Option.getD_none] at hr hsort
      omega
/-! ## The order of application -/

/-- As many lines are put as are taken. -/
def LineEdit.keepsLength : LineEdit → Bool
  | .replace pos last lines => decide ((lines.length : Int) = endLine pos last - pos.line + 1)
  | _ => true

/-- Of two edits that do not overlap the first one is not sorted before the other. -/
structure SortedFree (n : Nat) (x e : LineEdit) : Prop where
  sorted : e.sortLine n ≤ x.sortLine n
  free : editRangesOverlap n x e = false

/-- The first one does not move the other either. -/
structure Precedes (n : Nat) (x e : LineEdit) : Prop extends SortedFree n x e where
  steady : e.appendsBehind x = true → x.keepsLength = true

/-- Of two numbered edits, whether the first is applied before the second. -/
def Sooner (n : Nat) (y p : LineEdit × Nat) : Prop :=
  p.1.sortLine n < y.1.sortLine n ∨ (p.1.sortLine n = y.1.sortLine n ∧ p.2 < y.2)

instance (n : Nat) (y p : LineEdit × Nat) : Decidable (Sooner n y p) :=
  inferInstanceAs (Decidable (_ ∨ _))

/-- The edits that are applied before one of them. -/
def appliedBefore (n : Nat) (edits : List LineEdit) (p : LineEdit × Nat) : List LineEdit :=
  (edits.zipIdx.filter fun y => decide (Sooner n y p)).map Prod.fst

/-- The numbered edits in the order of application. -/
def numbered (n : Nat) (edits : List LineEdit) : List (LineEdit × Nat) :=
  edits.zipIdx.insertionSort fun x y =>
    y.1.sortLine n < x.1.sortLine n ∨ (y.1.sortLine n = x.1.sortLine n ∧ y.2 ≤ x.2)

theorem numbered_sooner (n : Nat) (edits : List LineEdit) :
    (numbered n edits).Pairwise (Sooner n) := by
  have htotal : Std.Total fun x y : LineEdit × Nat =>
      y.1.sortLine n < x.1.sortLine n ∨ (y.1.sortLine n = x.1.sortLine n ∧ y.2 ≤ x.2) :=
    ⟨fun x y => by omega⟩
  have htrans : IsTrans (LineEdit × Nat) fun x y =>
      y.1.sortLine n < x.1.sortLine n ∨ (y.1.sortLine n = x.1.sortLine n ∧ y.2 ≤ x.2) :=
    ⟨fun x y z hxy hyz => by omega⟩
  have hsorted := edits.zipIdx.pairwise_insertionSort fun x y =>
      y.1.sortLine n < x.1.sortLine n ∨ (y.1.sortLine n = x.1.sortLine n ∧ y.2 ≤ x.2)
  -- no two of them have one number
  have hnodup : ((numbered n edits).map Prod.snd).Nodup := by
    have hperm := (List.perm_insertionSort (fun x y : LineEdit × Nat =>
      y.1.sortLine n < x.1.sortLine n ∨ (y.1.sortLine n = x.1.sortLine n ∧ y.2 ≤ x.2))
      edits.zipIdx).map Prod.snd
    rw [numbered, hperm.nodup_iff, List.zipIdx_map_snd]
    exact List.nodup_range'
  refine (hsorted.and (List.pairwise_map.mp hnodup)).imp ?_
  rintro x y ⟨h, hne⟩
  rcases h with h | h
  · exact Or.inl h
  · exact Or.inr ⟨h.1, by have := h.2; omega⟩

variable {p : LineEdit × Nat}

theorem mem_numbered {edits : List LineEdit} : p ∈ numbered n edits ↔ edits[p.2]? = some p.1 :=
  (List.mem_insertionSort _).trans List.mem_zipIdx_iff_getElem?

/-- What stands in front of an edit in the order of application. -/
theorem mem_appliedBefore {edits : List LineEdit} {before after : List (LineEdit × Nat)}
    (hsplit : numbered n edits = before ++ p :: after) (x : LineEdit) :
    x ∈ before.map Prod.fst ↔ x ∈ appliedBefore n edits p := by
  obtain ⟨-, hafter, hbefore⟩ := List.pairwise_append.mp (hsplit ▸ numbered_sooner n edits)
  have hmem : ∀ y : LineEdit × Nat, y ∈ before ↔ y ∈ edits.zipIdx ∧ Sooner n y p := by
    intro y
    have hnumbered : y ∈ numbered n edits ↔ y ∈ edits.zipIdx := List.mem_insertionSort _
    rw [← hnumbered, hsplit, List.mem_append]
    constructor
    · intro hy
      exact ⟨Or.inl hy, hbefore y hy p List.mem_cons_self⟩
    · rintro ⟨hy | hy, hsooner⟩
      · exact hy
      · rcases List.mem_cons.mp hy with rfl | hy
        · rcases hsooner with h | h <;> omega
        · have hlater := List.rel_of_pairwise_cons hafter hy
          rcases hsooner with h | h <;> rcases hlater with h' | h' <;> omega
  simp only [appliedBefore, List.mem_map, List.mem_filter, decide_eq_true_eq, hmem]

theorem editRangesOverlap_comm (n : Nat) (x e : LineEdit) :
    editRangesOverlap n x e = editRangesOverlap n e x := by
  have href : sameRefLine x e = sameRefLine e x := by
    rcases x with _ | ⟨_ | _, _⟩ | ⟨_ | _, _⟩ <;> rcases e with _ | ⟨_ | _, _⟩ | ⟨_ | _, _⟩ <;> rfl
  simp only [editRangesOverlap, Bool.or_comm e.isIdle, href, or_comm]

/-- Edits that do not overlap, with anchors in the file. -/
structure Compatible (n : Nat) (edits : List LineEdit) : Prop where
  anchored : ∀ e ∈ edits, e.Anchored n
  free : edits.Pairwise fun x e => editRangesOverlap n x e = false

/-- Behind no append a replacement is listed that changes how many lines stand in front of it. -/
def OrderSafe (edits : List LineEdit) : Prop :=
  edits.Pairwise fun e x => e.appendsBehind x = true → x.keepsLength = true

theorem sortLine_of_appendsBehind {e x : LineEdit} (h : e.appendsBehind x = true) :
    e.sortLine n = x.sortLine n := by
  cases e with
  | append pos lines =>
    cases pos with
    | none => exact absurd h Bool.false_ne_true
    | some pos =>
      cases x with
      | replace p last body =>
        rw [LineEdit.appendsBehind, Bool.and_eq_true, decide_eq_true_eq] at h
        exact h.2.symm
      | _ => exact absurd h Bool.false_ne_true
  | _ => exact absurd h Bool.false_ne_true

theorem bottomUp_pairwise {edits : List LineEdit} {R : LineEdit → LineEdit → Prop}
    (h : ∀ i j, (hi : i < edits.length) → (hj : j < edits.length) → Sooner n (edits[j], j)
      (edits[i], i) → R edits[j] edits[i]) : (bottomUp n edits).Pairwise R := by
  refine List.pairwise_map.mpr ((numbered_sooner n edits).imp_of_mem ?_)
  rintro ⟨x, j⟩ ⟨e, i⟩ hx he hsooner
  obtain ⟨hj, rfl⟩ : ∃ h : j < edits.length, edits[j] = x :=
    List.getElem?_eq_some_iff.mp (mem_numbered.mp hx)
  obtain ⟨hi, rfl⟩ : ∃ h : i < edits.length, edits[i] = e :=
    List.getElem?_eq_some_iff.mp (mem_numbered.mp he)
  exact h i j hi hj hsooner

theorem bottomUp_sortedFree {edits : List LineEdit} (hedits : Compatible n edits) :
    (bottomUp n edits).Pairwise (SortedFree n) := by
  refine bottomUp_pairwise fun i j hi hj hsooner => ⟨?_, ?_⟩
  · rcases hsooner with h | h
    · exact Int.le_of_lt h
    · exact Int.le_of_eq h.1
  · have hfree := List.pairwise_iff_getElem.mp hedits.free
    have hne : i ≠ j := by
      rintro rfl
      rcases hsooner with h | h <;> omega
    rcases Nat.lt_or_gt_of_ne hne with h | h
    · rw [editRangesOverlap_comm]
      exact hfree i j hi hj h
    · exact hfree j i hj hi h

theorem bottomUp_precedes {edits : List LineEdit} (hedits : Compatible n edits)
    (hsafe : OrderSafe edits) : (bottomUp n edits).Pairwise (Precedes n) := by
  have hsteady : (bottomUp n edits).Pairwise fun x e =>
      e.appendsBehind x = true → x.keepsLength = true := by
    refine bottomUp_pairwise fun i j hi hj hsooner hbehind => ?_
    rcases hsooner with h | h
    · exact absurd (sortLine_of_appendsBehind (n := n) hbehind) (Int.ne_of_lt h)
    · exact List.pairwise_iff_getElem.mp hsafe i j hi hj h.2 hbehind
  exact ((bottomUp_sortedFree hedits).and hsteady).imp fun h => ⟨h.1, h.2⟩

theorem perm_bottomUp (n : Nat) (edits : List LineEdit) : (bottomUp n edits).Perm edits := by
  have hperm := (List.perm_insertionSort (fun x y : LineEdit × Nat =>
    y.1.sortLine n < x.1.sortLine n ∨ (y.1.sortLine n = x.1.sortLine n ∧ y.2 ≤ x.2))
    edits.zipIdx).map Prod.fst
  rwa [List.zipIdx_map_fst] at hperm

/-! ## The changes of compatible edits -/

theorem apart_of_free {x e : LineEdit} {d c : Change Bytes} (hx : x.Placed n d) (he : e.Placed n c)
    (hfree : editRangesOverlap n x e = false) : d.Apart c := by
  rcases Int.le_total (e.sortLine n) (x.sortLine n) with h | h
  · rcases behind_or hx he hfree h with h | h
    · exact Or.inr h
    · exact Or.inl h.1
  · rw [editRangesOverlap_comm] at hfree
    rcases behind_or he hx hfree h with h | h
    · exact Or.inl h
    · exact Or.inr h.1

theorem Compatible.apart {edits : List LineEdit} (h : Compatible n edits) :
    (changes n edits).Pairwise Change.Apart := by
  refine List.pairwise_filterMap.mpr (h.free.imp_of_mem ?_)
  intro x e hx he hfree d hd c hc
  exact apart_of_free ((h.anchored x hx).placed hd) ((h.anchored e he).placed hc) hfree

theorem Compatible.sublist {edits part : List LineEdit} (h : Compatible n edits)
    (hsub : part.Sublist edits) : Compatible n part :=
  ⟨fun e he => h.anchored e (hsub.subset he), h.free.sublist hsub⟩

theorem Compatible.perm {edits others : List LineEdit} (h : Compatible n edits)
    (hperm : edits.Perm others) : Compatible n others :=
  ⟨fun e he => h.anchored e (hperm.mem_iff.mpr he),
    (hperm.pairwise_iff fun {x e} hfree => (editRangesOverlap_comm n e x).trans hfree).mp h.free⟩

/-- Which edits there are decides the pass, not how they are listed. -/
theorem onePass_eq_of_mem_iff {fileLines : List Bytes} {edits others : List LineEdit}
    (hedits : Compatible fileLines.length edits) (hothers : Compatible fileLines.length others)
    (h : ∀ e, e ∈ edits ↔ e ∈ others) : onePass fileLines edits = onePass fileLines others := by
  rw [onePass_eq_segment hedits.anchored, onePass_eq_segment hothers.anchored]
  refine segment_congr fun k _ _ => cellAt_eq_of_mem_iff hedits.apart hothers.apart fun c => ?_
  simp only [mem_changes, h]

/-! ## One edit -/

section

variable {fileLines : List Bytes} {edits : List LineEdit} {e x : LineEdit} {c d : Change Bytes}

theorem steady_of_keepsLength (hbehind : e.appendsBehind x = true) (hkeeps : x.keepsLength = true)
    (hx : x.Placed fileLines.length d) (hd : x.change fileLines.length = some d) :
    d.Steady (ownLine fileLines) := by
  cases hx with
  | replaced hpos hle hlast hfirst hend =>
    obtain rfl := Option.some.inj hd
    have hlen := of_decide_eq_true hkeeps
    rw [Change.Steady, length_segment_own (by omega) (by omega)]
    simp only at hfirst hend ⊢
    omega
  | behind | atEnd | before | atStart =>
    cases e with
    | append pos lines => cases pos <;> exact absurd hbehind Bool.false_ne_true
    | _ => exact absurd hbehind Bool.false_ne_true

/-- An edit finds its lines where the file had them. -/
theorem splice_onePass (hedits : Compatible fileLines.length (edits ++ [e]))
    (hpre : ∀ x ∈ edits, Precedes fileLines.length x e) (hc : e.change fileLines.length = some c)
    (hend : c.first ≠ 3 * fileLines.length + 1) :
    splice (onePass fileLines edits) (c.first / 3) ((c.last + 1) / 3 - c.first / 3) c.body =
      some (onePass fileLines (edits ++ [e])) := by
  have hbefore := hedits.sublist (List.sublist_append_left edits [e])
  have he := hedits.anchored e List.mem_concat_self
  have hplaced := he.placed hc
  have hapart : ∀ d ∈ changes fileLines.length edits, d.Apart c := by
    intro d hd
    obtain ⟨x, hx, hchange⟩ := mem_changes.mp hd
    exact apart_of_free ((hbefore.anchored x hx).placed hchange) hplaced (hpre x hx).free
  have hbehind : ∀ d ∈ changes fileLines.length edits,
      c.first ≤ d.first ∨ (d.last < c.first ∧ d.Steady (ownLine fileLines)) := by
    intro d hd
    obtain ⟨x, hx, hchange⟩ := mem_changes.mp hd
    have hplacedx := (hbefore.anchored x hx).placed hchange
    rcases behind_or hplacedx hplaced (hpre x hx).free (hpre x hx).sorted with h | ⟨h, hlate⟩
    · exact Or.inl (Nat.le_of_lt (Nat.lt_of_le_of_lt c.ordered h))
    · rcases hlate with hlate | hlate
      · exact absurd hlate hend
      · exact Or.inr ⟨h, steady_of_keepsLength hlate.1 ((hpre x hx).steady hlate.1) hplacedx hchange⟩
  have hlast : c.last < 3 * fileLines.length + 2 := by
    cases hplaced <;> omega
  have hord := c.ordered
  obtain ⟨hlen, hsplice⟩ := splice_eq hbefore.apart hapart hbehind hlast
    (by rw [length_segment_own (Nat.zero_le _) (by omega)])
    (length_segment_own (by omega) (by omega))
  rw [onePass_eq_segment hbefore.anchored, onePass_eq_segment hedits.anchored, changes_concat, hc,
    Option.toList_some, ← hsplice]
  exact if_pos hlen

/-- What is put at the end of the file goes behind all the others. -/
theorem append_onePass (hedits : Compatible fileLines.length (edits ++ [e]))
    (hpre : ∀ x ∈ edits, Precedes fileLines.length x e) (hc : e.change fileLines.length = some c)
    (hend : c.first = 3 * fileLines.length + 1) (hlast : c.last = c.first) :
    onePass fileLines (edits ++ [e]) = onePass fileLines edits ++ c.body := by
  have hbefore := hedits.sublist (List.sublist_append_left edits [e])
  have hplaced := (hedits.anchored e List.mem_concat_self).placed hc
  have hapart : ∀ d ∈ changes fileLines.length edits, d.Apart c := by
    intro d hd
    obtain ⟨x, hx, hchange⟩ := mem_changes.mp hd
    exact apart_of_free ((hbefore.anchored x hx).placed hchange) hplaced (hpre x hx).free
  have hown : segment (ownLine fileLines) [] c.first (c.last + 1) = [] := by
    have hlen := @length_segment_own fileLines c.first (c.last + 1) (by omega)
      (by omega)
    exact List.eq_nil_of_length_eq_zero (by omega)
  rw [onePass_eq_segment hbefore.anchored, onePass_eq_segment hedits.anchored, changes_concat, hc,
    Option.toList_some, segment_concat hapart (Nat.zero_le _) (by omega),
    show c.last + 1 = 3 * fileLines.length + 2 by omega, segment_self, List.append_nil,
    ← segment_append (Nat.zero_le c.first) (by omega : c.first ≤ 3 * fileLines.length + 2),
    show 3 * fileLines.length + 2 = c.last + 1 by omega, segment_untouched hapart, hown,
    List.append_nil]

theorem onePass_concat_idle (hedits : Compatible fileLines.length (edits ++ [e]))
    (hc : e.change fileLines.length = none) :
    onePass fileLines (edits ++ [e]) = onePass fileLines edits := by
  have hbefore := hedits.sublist (List.sublist_append_left edits [e])
  rw [onePass_eq_segment hbefore.anchored, onePass_eq_segment hedits.anchored, changes_concat, hc,
    Option.toList_none, List.append_nil]

end

/-- Lines that are put at the start or at the end of the file. -/
def LineEdit.unanchored : LineEdit → Bool
  | .append none lines | .prepend none lines => !lines.isEmpty
  | _ => false

theorem apply_idle {e : LineEdit} (hc : e.change n = none) (fileLines : List Bytes) :
    e.apply fileLines = some (fileLines, none) := by
  cases e with
  | replace pos last lines => exact absurd hc (Option.some_ne_none _)
  | append pos lines | prepend pos lines =>
    have hlines : lines = [] := by
      by_contra hne
      rw [LineEdit.change, if_neg hne] at hc
      exact absurd hc (Option.some_ne_none _)
    rw [hlines]
    cases pos <;> rfl

/-- An edit is applied to what the earlier ones come to. -/
theorem apply_onePass {fileLines : List Bytes} {edits : List LineEdit} {e : LineEdit}
    (hedits : Compatible fileLines.length (edits ++ [e]))
    (hpre : ∀ x ∈ edits, Precedes fileLines.length x e)
    (hclear : e.unanchored = true → onePass fileLines edits ≠ [[]]) :
    ∃ line, e.apply (onePass fileLines edits) = some (onePass fileLines (edits ++ [e]), line) := by
  have he := hedits.anchored e List.mem_concat_self
  rcases hc : e.change fileLines.length with _ | c
  · exact ⟨none, by rw [apply_idle hc, onePass_concat_idle hedits hc]⟩
  · cases he.placed hc with
    | @replaced pos last lines hpos hle hlast hfirst hend =>
      obtain rfl : c.body = lines := by obtain rfl := Option.some.inj hc; rfl
      have hsplice := splice_onePass hedits hpre hc (by omega)
      have hstart : c.first / 3 = (pos.line - 1).toNat := by omega
      have hcount : (c.last + 1) / 3 - (pos.line - 1).toNat =
          (endLine pos last - pos.line + 1).toNat := by omega
      rw [hstart, hcount] at hsplice
      refine ⟨some pos.line, ?_⟩
      rw [LineEdit.apply, hsplice, Option.map_some]
    | @behind pos lines hne hpos hlast hfirst hend =>
      have hsplice := splice_onePass hedits hpre hc (by omega)
      have hstart : c.first / 3 = pos.line.toNat := by omega
      have hcount : (c.last + 1) / 3 - pos.line.toNat = 0 := by omega
      have hbody : c.body = lines := by
        rw [LineEdit.change, if_neg hne] at hc
        exact congrArg Change.body (Option.some.inj hc).symm
      rw [hstart, hcount, hbody] at hsplice
      refine ⟨some (pos.line + 1), ?_⟩
      simp only [LineEdit.apply, if_neg hne, hsplice, Option.map_some]
    | @atEnd lines hne hfirst hend =>
      have happend := append_onePass hedits hpre hc hfirst hend
      have hbody : c.body = lines := by
        rw [LineEdit.change, if_neg hne] at hc
        exact congrArg Change.body (Option.some.inj hc).symm
      rw [hbody] at happend
      have hkept : clearEmpty (onePass fileLines edits) = onePass fileLines edits :=
        if_neg (hclear (by simp [LineEdit.unanchored, hne]))
      refine ⟨some ((onePass fileLines edits).length + 1), ?_⟩
      simp only [LineEdit.apply, if_neg hne, hkept, happend]
    | @before pos lines hne hpos hlast hfirst hend =>
      have hsplice := splice_onePass hedits hpre hc (by omega)
      have hstart : c.first / 3 = (pos.line - 1).toNat := by omega
      have hcount : (c.last + 1) / 3 - (pos.line - 1).toNat = 0 := by omega
      have hbody : c.body = lines := by
        rw [LineEdit.change, if_neg hne] at hc
        exact congrArg Change.body (Option.some.inj hc).symm
      rw [hstart, hcount, hbody] at hsplice
      refine ⟨some pos.line, ?_⟩
      simp only [LineEdit.apply, if_neg hne, hsplice, Option.map_some]
    | @atStart lines hne hfirst hend =>
      have hsplice := splice_onePass hedits hpre hc (by omega)
      have hstart : c.first / 3 = 0 := by omega
      have hcount : (c.last + 1) / 3 - 0 = 0 := by omega
      have hbody : c.body = lines := by
        rw [LineEdit.change, if_neg hne] at hc
        exact congrArg Change.body (Option.some.inj hc).symm
      rw [hstart, hcount, hbody, splice, if_pos (Nat.zero_le _), List.take_zero, List.drop_zero,
        List.nil_append] at hsplice
      have hkept : clearEmpty (onePass fileLines edits) = onePass fileLines edits :=
        if_neg (hclear (by simp [LineEdit.unanchored, hne]))
      refine ⟨some 1, ?_⟩
      simp only [LineEdit.apply, if_neg hne, hkept, Option.some.inj hsplice]

/-! ## All edits -/

/-- No file of one empty line is cleared for the lines that are put at its start or end. -/
def ClearSafe (fileLines : List Bytes) (edits : List LineEdit) : Prop :=
  ∀ p ∈ edits.zipIdx, p.1.unanchored = true →
    onePass fileLines (appliedBefore fileLines.length edits p) ≠ [[]]

theorem onePass_nil (fileLines : List Bytes) : onePass fileLines [] = fileLines := by
  rw [onePass_eq_segment fun e he => absurd he List.not_mem_nil]
  change segment (ownLine fileLines) [] 0 (3 * fileLines.length + 2) = fileLines
  rw [segment_own]
  exact List.take_of_length_le (by omega)

theorem applyInOrder_onePass {fileLines : List Bytes} {edits : List LineEdit}
    (hedits : Compatible fileLines.length edits) (horder : OrderSafe edits)
    (hclear : ClearSafe fileLines edits) {before after : List (LineEdit × Nat)}
    (hsplit : numbered fileLines.length edits = before ++ after) (firstChanged : Option Int) :
    ∃ line, applyInOrder (onePass fileLines (before.map Prod.fst)) firstChanged
        (after.map Prod.fst) =
      some (onePass fileLines (bottomUp fileLines.length edits), line) := by
  induction after generalizing before firstChanged with
  | nil =>
    refine ⟨firstChanged, ?_⟩
    rw [List.append_nil] at hsplit
    rw [← hsplit]
    rfl
  | cons p after ih =>
    have hsorted : bottomUp fileLines.length edits =
        (before.map Prod.fst ++ [p.1]) ++ after.map Prod.fst := by
      change (numbered fileLines.length edits).map Prod.fst = _
      rw [hsplit, List.map_append, List.map_cons, List.append_assoc, List.singleton_append]
    have hall := hedits.perm (perm_bottomUp fileLines.length edits).symm
    have hprecedes := bottomUp_precedes hedits horder
    rw [hsorted] at hall hprecedes
    have hsofar := hall.sublist (List.sublist_append_left _ _)
    have hpre := (List.pairwise_append.mp (List.pairwise_append.mp hprecedes).1).2.2
    -- what has been applied is what is applied before this edit
    have hsame : onePass fileLines (before.map Prod.fst) =
        onePass fileLines (appliedBefore fileLines.length edits p) := by
      refine onePass_eq_of_mem_iff (hsofar.sublist (List.sublist_append_left _ _))
        (hedits.sublist ?_) (mem_appliedBefore hsplit)
      have hsub := (List.filter_sublist (p := fun y => decide (Sooner fileLines.length y p))
        (l := edits.zipIdx)).map Prod.fst
      rwa [List.zipIdx_map_fst] at hsub
    have hmem : p ∈ edits.zipIdx := by
      have hnum : p ∈ numbered fileLines.length edits := by
        rw [hsplit]
        exact List.mem_append_right _ List.mem_cons_self
      exact (List.mem_insertionSort _).mp hnum
    obtain ⟨line, happly⟩ := apply_onePass hsofar
      (fun x hx => hpre x hx p.1 List.mem_cons_self)
      (fun hun => hsame ▸ hclear p hmem hun)
    have hnext := @ih (before ++ [p])
      (by rw [hsplit, List.append_assoc, List.singleton_append]) (trackFirst firstChanged line)
    rw [List.map_append, List.map_cons, List.map_nil] at hnext
    obtain ⟨final, hfinal⟩ := hnext
    refine ⟨final, ?_⟩
    rw [List.map_cons, applyInOrder, happly, Option.bind_some]
    exact hfinal

/-- Applied one after the other, safe edits come to the pass over the lines. -/
theorem applyInOrder_bottomUp {fileLines : List Bytes} {edits : List LineEdit}
    (hedits : Compatible fileLines.length edits) (horder : OrderSafe edits)
    (hclear : ClearSafe fileLines edits) :
    ∃ line, applyInOrder fileLines none (bottomUp fileLines.length edits) =
      some (onePass fileLines edits, line) := by
  obtain ⟨line, hrun⟩ := applyInOrder_onePass hedits horder hclear (List.nil_append _).symm none
  have hperm := perm_bottomUp fileLines.length edits
  rw [List.map_nil, onePass_nil, onePass_eq_of_mem_iff (hedits.perm hperm.symm) hedits
    fun e => hperm.mem_iff] at hrun
  exact ⟨line, hrun⟩

end KimixNative.Tools
