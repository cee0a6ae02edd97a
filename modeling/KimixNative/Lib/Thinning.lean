import Mathlib.Data.List.Basic

/-!
# Thinned lists

A list is thinned by leaving out some items and rewriting some of those that stay, in place.
The relation names the indices that stay. `Drop` says which items may go, and `Keep` what may
stand in the place of one that stays; both see the index.

Where a class of items is never left out and never entered, its members keep their places:
two thinnings of one list to one list then agree on them.
-/

namespace KimixNative

variable {α : Type*}

/-- The second list comes from the first, which begins with index `i`, by leaving out items and
rewriting the others; `kept` are the indices of the others. -/
inductive Thinned (Drop : Nat → α → Prop) (Keep : Nat → α → α → Prop) :
    Nat → List α → List Nat → List α → Prop
  | nil (i : Nat) : Thinned Drop Keep i [] [] []
  | drop {i : Nat} {a : α} {as bs : List α} {kept : List Nat} (hdrop : Drop i a)
      (h : Thinned Drop Keep (i + 1) as kept bs) : Thinned Drop Keep i (a :: as) kept bs
  | keep {i : Nat} {a b : α} {as bs : List α} {kept : List Nat} (hkeep : Keep i a b)
      (h : Thinned Drop Keep (i + 1) as kept bs) : Thinned Drop Keep i (a :: as) (i :: kept) (b :: bs)

namespace Thinned

variable {Drop Drop' Drop'' : Nat → α → Prop} {Keep Keep' Keep'' : Nat → α → α → Prop}
variable {i : Nat} {as bs cs : List α} {kept kept' : List Nat}

theorem refl (hkeep : ∀ j a, Keep j a a) (i : Nat) (as : List α) :
    Thinned Drop Keep i as (List.range' i as.length) as := by
  induction as generalizing i with
  | nil => exact .nil i
  | cons a as ih => exact .keep (hkeep i a) (ih (i + 1))

theorem mono (h : Thinned Drop Keep i as kept bs) (hdrop : ∀ j a, Drop j a → Drop' j a)
    (hkeep : ∀ j a b, Keep j a b → Keep' j a b) : Thinned Drop' Keep' i as kept bs := by
  induction h with
  | nil i => exact .nil i
  | drop hd _ ih => exact .drop (hdrop _ _ hd) ih
  | keep hk _ ih => exact .keep (hkeep _ _ _ hk) ih

theorem length_kept (h : Thinned Drop Keep i as kept bs) : kept.length = bs.length := by
  induction h with
  | nil => rfl
  | drop _ _ ih => exact ih
  | keep _ _ ih => simp only [List.length_cons, ih]

theorem le_of_mem (h : Thinned Drop Keep i as kept bs) {j : Nat} (hj : j ∈ kept) : i ≤ j := by
  induction h with
  | nil => cases hj
  | drop _ _ ih => exact Nat.le_of_succ_le (ih hj)
  | keep _ _ ih =>
    rcases List.mem_cons.mp hj with rfl | hj
    · exact Nat.le_refl _
    · exact Nat.le_of_succ_le (ih hj)

/-- The indices that stay are in order. -/
theorem increasing (h : Thinned Drop Keep i as kept bs) : kept.Pairwise (· < ·) := by
  induction h with
  | nil => exact .nil
  | drop _ _ ih => exact ih
  | keep _ h ih => exact .cons (fun _ hj => h.le_of_mem hj) ih

/-- What stands at a kept index. -/
theorem kept_spec (h : Thinned Drop Keep i as kept bs) {k j : Nat} (hk : kept[k]? = some j) :
    ∃ a b, i ≤ j ∧ as[j - i]? = some a ∧ bs[k]? = some b ∧ Keep j a b := by
  induction h generalizing k with
  | nil => cases hk
  | @drop i a' as bs kept _ h ih =>
    obtain ⟨a, b, hle, ha, hb, hab⟩ := ih hk
    refine ⟨a, b, Nat.le_of_succ_le hle, ?_, hb, hab⟩
    rw [show j - i = (j - (i + 1)) + 1 by omega, List.getElem?_cons_succ]
    exact ha
  | @keep i a b as bs kept hkeep h ih =>
    cases k with
    | zero =>
      obtain rfl : i = j := Option.some_inj.mp hk
      exact ⟨a, b, Nat.le_refl _, by rw [Nat.sub_self]; rfl, rfl, hkeep⟩
    | succ k =>
      obtain ⟨a', b', hle, ha, hb, hab⟩ := ih hk
      refine ⟨a', b', Nat.le_of_succ_le hle, ?_, hb, hab⟩
      rw [show j - i = (j - (i + 1)) + 1 by omega, List.getElem?_cons_succ]
      exact ha

/-- An index that does not stay belongs to an item that may go. -/
theorem drop_of_not_mem (h : Thinned Drop Keep i as kept bs) {j : Nat} {a : α} (hle : i ≤ j)
    (ha : as[j - i]? = some a) (hj : j ∉ kept) : Drop j a := by
  induction h with
  | nil => cases ha
  | @drop i a' as bs kept hdrop h ih =>
    rcases Nat.eq_or_lt_of_le hle with rfl | hlt
    · rw [Nat.sub_self] at ha
      obtain rfl : a' = a := Option.some_inj.mp ha
      exact hdrop
    · rw [show j - i = (j - (i + 1)) + 1 by omega, List.getElem?_cons_succ] at ha
      exact ih hlt ha hj
  | @keep i a' b as bs kept hkeep h ih =>
    rcases Nat.eq_or_lt_of_le hle with rfl | hlt
    · exact absurd (List.mem_cons_self ..) hj
    · rw [show j - i = (j - (i + 1)) + 1 by omega, List.getElem?_cons_succ] at ha
      exact ih hlt ha fun hmem => hj (List.mem_cons_of_mem _ hmem)

/-- In front of the first item that goes, or is rewritten, the lists agree. -/
theorem take_eq (h : Thinned Drop Keep i as kept bs) {n : Nat}
    (hdrop : ∀ j a, j < n → ¬ Drop j a) (hkeep : ∀ j a b, j < n → Keep j a b → b = a) :
    bs.take (n - i) = as.take (n - i) := by
  induction h with
  | nil => rfl
  | @drop i a as bs kept hd _ ih =>
    have hle : n ≤ i := Nat.le_of_not_lt fun hlt => hdrop i a hlt hd
    rw [Nat.sub_eq_zero_of_le hle, List.take_zero, List.take_zero]
  | @keep i a b as bs kept hk _ ih =>
    by_cases hlt : i < n
    · rw [show n - i = n - (i + 1) + 1 by omega, List.take_succ_cons, List.take_succ_cons, ih,
        hkeep i a b hlt hk]
    · rw [show n - i = 0 by omega, List.take_zero, List.take_zero]

/-- In front of the first item that goes, every index stays. -/
theorem kept_of_spared (h : Thinned Drop Keep i as kept bs) {n : Nat}
    (hdrop : ∀ j a, j < n → ¬ Drop j a) {k : Nat} (hk : i + k < n) (hlen : k < as.length) :
    kept[k]? = some (i + k) := by
  induction h generalizing k with
  | nil => exact absurd hlen (Nat.not_lt_zero k)
  | @drop i a as bs kept hd _ ih => exact absurd hd (hdrop i a (by omega))
  | @keep i a b as bs kept _ _ ih =>
    cases k with
    | zero => rfl
    | succ k =>
      rw [List.getElem?_cons_succ, ih (by omega) (Nat.lt_of_succ_lt_succ hlen)]
      congr 1
      omega

/-- Where another index has moved up, the item itself is gone. -/
theorem not_mem_of_moved {e j : Nat} (h : Thinned Drop Keep 0 as kept bs)
    (hdrop : ∀ j a, j < e → ¬ Drop j a) (hlen : e < as.length) (hj : kept[e]? = some j)
    (hne : j ≠ e) : e ∉ kept := by
  have hspared : ∀ k < e, kept[k]? = some k := by
    intro k hk
    have hkept := h.kept_of_spared hdrop (k := k) (by omega) (by omega)
    rwa [Nat.zero_add] at hkept
  have hsorted : ∀ {k k' a b : Nat}, k < k' → kept[k]? = some a → kept[k']? = some b → a < b := by
    intro k k' a b hlt ha hb
    obtain ⟨hk, rfl⟩ := List.getElem?_eq_some_iff.mp ha
    obtain ⟨hk', rfl⟩ := List.getElem?_eq_some_iff.mp hb
    exact List.pairwise_iff_getElem.mp h.increasing k k' hk hk' hlt
  intro hin
  obtain ⟨k, hk⟩ := List.mem_iff_getElem?.mp hin
  rcases Nat.lt_trichotomy k e with hlt | rfl | hgt
  · have hsame := Option.some_inj.mp (hk.symm.trans (hspared k hlt))
    omega
  · exact hne (Option.some_inj.mp (hj.symm.trans hk))
  · have hbelow := hsorted hgt hj hk
    have hstill := hsorted hbelow (hspared j hbelow) hj
    omega

/-- A list rewritten in place and then thinned is thinned. -/
theorem comp {all : List Nat} (h : Thinned (fun _ _ => False) Keep i as all bs)
    (h' : Thinned Drop' Keep' i bs kept cs)
    (hdrop : ∀ j a b, Keep j a b → Drop' j b → Drop'' j a)
    (hkeep : ∀ j a b c, Keep j a b → Keep' j b c → Keep'' j a c) :
    Thinned Drop'' Keep'' i as kept cs := by
  induction h generalizing kept cs with
  | nil i =>
    cases h'
    exact .nil i
  | drop hd => exact hd.elim
  | keep hk _ ih =>
    cases h' with
    | drop hd h' => exact .drop (hdrop _ _ _ hk hd) (ih h')
    | keep hk' h' => exact .keep (hkeep _ _ _ _ hk hk') (ih h')

/-- A thinned list may be rewritten in place. -/
theorem rewrite (h : Thinned Drop Keep i as kept bs) (hlen : cs.length = bs.length)
    (hkeep : ∀ (k j : Nat) (a b c : α), kept[k]? = some j → bs[k]? = some b →
      cs[k]? = some c → Keep j a b → Keep' j a c) : Thinned Drop Keep' i as kept cs := by
  induction h generalizing cs with
  | nil i =>
    obtain rfl := List.eq_nil_of_length_eq_zero hlen
    exact .nil i
  | drop hd _ ih => exact .drop hd (ih hlen hkeep)
  | @keep i a b as bs kept hk _ ih =>
    cases cs with
    | nil => cases hlen
    | cons c cs =>
      refine .keep (hkeep 0 i a b c rfl rfl rfl hk) (ih (Nat.succ.inj hlen) ?_)
      intro k j a' b' c' hj hb hc
      exact hkeep (k + 1) j a' b' c' hj hb hc

variable {p : α → Bool}

/-- The places of a class of items that is never left out and never entered. -/
theorem places (h : Thinned Drop Keep i as kept bs) (hdrop : ∀ j a, Drop j a → p a = false)
    (hkeep : ∀ j a b, Keep j a b → p b = p a) :
    ((kept.zip bs).filter fun q => p q.2).map Prod.fst =
      ((as.zipIdx i).filter fun q => p q.1).map Prod.snd := by
  induction h with
  | nil => rfl
  | drop hd _ ih =>
    simp only [List.zipIdx_cons, List.filter_cons, hdrop _ _ hd, Bool.false_eq_true, if_false]
    exact ih
  | keep hk _ ih =>
    simp only [List.zip_cons_cons, List.zipIdx_cons, List.filter_cons, hkeep _ _ _ hk]
    split
    · simp only [List.map_cons, ih]
    · exact ih

theorem map_snd_places (h : Thinned Drop Keep i as kept bs) :
    ((kept.zip bs).filter fun q => p q.2).map Prod.snd = bs.filter p := by
  induction h with
  | nil => rfl
  | drop _ _ ih => exact ih
  | keep _ _ ih =>
    simp only [List.zip_cons_cons, List.filter_cons]
    split
    · simp only [List.map_cons, ih]
    · exact ih

/-- Two thinnings of one list to one list agree on such a class. -/
theorem places_eq (h : Thinned Drop Keep i as kept bs) (h' : Thinned Drop' Keep' i as kept' bs)
    (hdrop : ∀ j a, Drop j a → p a = false) (hkeep : ∀ j a b, Keep j a b → p b = p a)
    (hdrop' : ∀ j a, Drop' j a → p a = false) (hkeep' : ∀ j a b, Keep' j a b → p b = p a) :
    ((kept.zip bs).filter fun q => p q.2) = (kept'.zip bs).filter fun q => p q.2 := by
  have hfst := (h.places hdrop hkeep).trans (h'.places hdrop' hkeep').symm
  have hsnd := (h.map_snd_places (p := p)).trans (h'.map_snd_places (p := p)).symm
  exact (List.zip_of_prod hfst hsnd).trans (List.zip_of_prod rfl rfl).symm

end Thinned

end KimixNative
