import KimixNative.Lib.Table

/-!
# Registries addressed by id and by name

A registry keeps its entries in registration order and beside them an index from names to
ids. Lookups by id answer with the first entry of that id, so the rules below say where
they need ids to be distinct. `Consistent` is that, and that the index is the inverse of
the entries' names.
-/

namespace KimixNative

/-- Entries under ids of type `ι`, indexed by names of type `β`. -/
structure Registry (ι ν β : Type) where
  entries : List (ι × ν) := []
  byName : Table β ι := ∅

namespace Registry

variable {ι ν β : Type} [DecidableEq ι] [DecidableEq β] (name : ν → β)

/-- The first entry of an id. -/
def get? (r : Registry ι ν β) (i : ι) : Option ν := r.entries.lookup i

/-- Append an entry and index its name; an indexed name keeps its id. -/
def add (r : Registry ι ν β) (i : ι) (v : ν) : Registry ι ν β where
  entries := r.entries ++ [(i, v)]
  byName := if (r.byName.find? (name v)).isSome then r.byName else r.byName.insert (name v) i

/-- Take the first entry of an id out, and its name out of the index. -/
def drop (r : Registry ι ν β) (i : ι) : Registry ι ν β :=
  match r.get? i with
  | none => r
  | some v =>
    { entries := r.entries.eraseP (·.1 == i)
      byName := r.byName.erase (name v) }

/-- Overwrite the first entry of an id in a list. -/
def replaceFirst (i : ι) (v : ν) : List (ι × ν) → List (ι × ν)
  | [] => []
  | e :: rest => if e.1 = i then (i, v) :: rest else e :: replaceFirst i v rest

/-- Overwrite the first entry of an id; a new name replaces the old one in the index. -/
def replace (r : Registry ι ν β) (i : ι) (v' : ν) : Registry ι ν β :=
  match r.get? i with
  | none => r
  | some v =>
    { entries := replaceFirst i v' r.entries
      byName :=
        if name v = name v' then r.byName
        else
          let erased := r.byName.erase (name v)
          if (erased.find? (name v')).isSome then erased else erased.insert (name v') i }

/-- Distinct ids, and an index that is the inverse of the names. -/
structure Consistent (r : Registry ι ν β) : Prop where
  nodup : (r.entries.map Prod.fst).Nodup
  byName_iff : ∀ n i, r.byName.find? n = some i ↔ ∃ v, r.get? i = some v ∧ name v = n

theorem consistent_empty : Consistent name ({} : Registry ι ν β) where
  nodup := by simp
  byName_iff := by simp [get?]

variable {i : ι}

private theorem lookup_cons_ne {j : ι} (h : j ≠ i) (v : ν) (l : List (ι × ν)) :
    ((i, v) :: l).lookup j = l.lookup j := by
  rw [List.lookup_cons, beq_eq_false_iff_ne.mpr h]

variable (r : Registry ι ν β)

theorem get?_isSome (i : ι) : (r.get? i).isSome ↔ i ∈ r.entries.map Prod.fst := by
  unfold get?
  induction r.entries with
  | nil => simp
  | cons e rest ih =>
    obtain ⟨j, v⟩ := e
    by_cases h : i = j
    · simp [h]
    · simp only [lookup_cons_ne h, ih, List.map_cons, List.mem_cons, h, false_or]

theorem get?_add (i j : ι) (v : ν) :
    (r.add name i v).get? j = (r.get? j).or (if j = i then some v else none) := by
  unfold get? add
  simp only
  induction r.entries with
  | nil =>
    by_cases h : j = i
    · simp [h]
    · simp [h, lookup_cons_ne h]
  | cons e rest ih =>
    obtain ⟨k, w⟩ := e
    by_cases h : j = k
    · simp [h]
    · simp only [List.cons_append, lookup_cons_ne h, ih]

theorem get?_replace (i j : ι) (v : ν) :
    (r.replace name i v).get? j = if j = i then (r.get? i).map fun _ => v else r.get? j := by
  have hlist : ∀ l : List (ι × ν), (replaceFirst i v l).lookup j =
      if j = i then (l.lookup i).map fun _ => v else l.lookup j := by
    intro l
    induction l with
    | nil => simp [replaceFirst]
    | cons e rest ih =>
      obtain ⟨k, w⟩ := e
      simp only [replaceFirst]
      by_cases hk : k = i
      · subst hk
        by_cases hj : j = k
        · simp [hj]
        · simp [hj, lookup_cons_ne hj]
      · rw [if_neg hk]
        by_cases hj : j = i
        · subst hj
          simpa [lookup_cons_ne (Ne.symm hk)] using ih
        · by_cases hjk : j = k
          · subst hjk
            simp [hj]
          · simpa [lookup_cons_ne hjk, hj] using ih
  unfold replace
  cases h : r.get? i with
  | none =>
    by_cases hj : j = i
    · simp [hj, h]
    · simp [hj]
  | some w =>
    have := hlist r.entries
    rw [show r.entries.lookup i = some w from h] at this
    exact this

/-- With distinct ids nothing is left under a dropped one. -/
theorem get?_drop (nodup : (r.entries.map Prod.fst).Nodup) (i j : ι) :
    (r.drop name i).get? j = if j = i then none else r.get? j := by
  have hlist : ∀ l : List (ι × ν), (l.map Prod.fst).Nodup →
      (l.eraseP (·.1 == i)).lookup j = if j = i then none else l.lookup j := by
    intro l hl
    induction l with
    | nil => simp
    | cons e rest ih =>
      obtain ⟨k, w⟩ := e
      obtain ⟨hk, hrest⟩ := List.nodup_cons.mp hl
      by_cases hki : k = i
      · subst hki
        simp only [beq_self_eq_true, List.eraseP_cons_of_pos]
        by_cases hj : j = k
        · subst hj
          rw [if_pos rfl, List.lookup_eq_none_iff]
          rintro ⟨a, b⟩ hab
          simp only [bne_iff_ne, ne_eq]
          rintro rfl
          exact hk (List.mem_map.mpr ⟨_, hab, rfl⟩)
        · simp [hj, lookup_cons_ne hj]
      · rw [List.eraseP_cons_of_neg (by simpa using hki)]
        by_cases hjk : j = k
        · subst hjk
          simp [hki]
        · simpa [lookup_cons_ne hjk] using ih hrest
  unfold drop
  cases h : r.get? i with
  | none =>
    by_cases hj : j = i
    · simp [hj, h]
    · simp [hj]
  | some w => exact hlist r.entries nodup

/-- An entry that is added under a free id and dropped again leaves no trace. -/
theorem get?_drop_add (nodup : (r.entries.map Prod.fst).Nodup) (fresh : r.get? i = none) (v : ν)
    (j : ι) : ((r.add name i v).drop name i).get? j = r.get? j := by
  have hnot : i ∉ r.entries.map Prod.fst := by
    rw [← r.get?_isSome, fresh]
    simp
  have hnodup : ((r.add name i v).entries.map Prod.fst).Nodup := by
    simp only [add, List.map_append, List.map_cons, List.map_nil]
    exact List.nodup_append.mpr ⟨nodup, List.nodup_singleton i, fun a ha b hb heq => by
      rw [List.mem_singleton.mp hb] at heq
      exact hnot (heq ▸ ha)⟩
  rw [get?_drop name _ hnodup, get?_add]
  by_cases hj : j = i
  · rw [if_pos hj, hj, fresh]
  · rw [if_neg hj, if_neg hj, Option.or_none]

/-- A second entry under a taken id is what a drop of the id leaves. -/
theorem get?_drop_add_taken (nodup : (r.entries.map Prod.fst).Nodup) {old : ν}
    (taken : r.get? i = some old) (new : ν) :
    ((r.add name i new).drop name i).get? i = some new := by
  have hadd : (r.add name i new).get? i = some old := by
    rw [get?_add, taken, Option.some_or]
  have hentries : ((r.add name i new).drop name i).entries =
      ((r.drop name i).add name i new).entries := by
    obtain ⟨v, hv⟩ : ∃ v, (i, v) ∈ r.entries := by
      obtain ⟨⟨a, v⟩, hmem, rfl⟩ :=
        List.mem_map.mp ((r.get?_isSome i).mp (by simp [taken]))
      exact ⟨v, hmem⟩
    unfold drop
    rw [hadd, taken]
    simp only [add]
    exact List.eraseP_append_left (by simp) _ hv
  have hget : ((r.add name i new).drop name i).get? i =
      ((r.drop name i).add name i new).get? i := by
    unfold get?
    rw [hentries]
  rw [hget, get?_add, get?_drop name r nodup, if_pos rfl, if_pos rfl, Option.none_or]

namespace Consistent

variable {name} {r} (h : Consistent name r)
include h

/-- A name that is not indexed is nobody's. -/
theorem name_ne {n : β} (hn : r.byName.find? n = none) {v : ν} (hv : r.get? i = some v) :
    name v ≠ n := by
  intro heq
  rw [(h.byName_iff n i).mpr ⟨v, hv, heq⟩] at hn
  cases hn

theorem add {v : ν} (hfresh : r.get? i = none) (hname : r.byName.find? (name v) = none) :
    Consistent name (r.add name i v) where
  nodup := by
    have hi : i ∉ r.entries.map Prod.fst := by
      rw [← r.get?_isSome i, hfresh]
      simp
    simp only [Registry.add, List.map_append, List.map_cons, List.map_nil]
    refine List.nodup_append.mpr ⟨h.nodup, by simp, ?_⟩
    rintro a ha b hb rfl
    simp only [List.mem_singleton] at hb
    exact hi (hb ▸ ha)
  byName_iff := by
    intro n j
    have hold := h.byName_iff n j
    rw [get?_add]
    simp only [Registry.add, hname, Option.isSome_none, Bool.false_eq_true, if_false,
      Table.find?_insert]
    by_cases hn : n = name v
    · subst hn
      by_cases hj : j = i
      · subst hj
        simp [hfresh]
      · simp only [if_pos, hj, if_false, Option.or_none, Option.some.injEq]
        rw [hname] at hold
        constructor
        · intro hij
          exact absurd hij.symm hj
        · intro hex
          exact absurd (hold.mpr hex) (by simp)
    · by_cases hj : j = i
      · subst hj
        rw [if_neg hn, hold, hfresh]
        simp [Ne.symm hn]
      · simp [hn, hj, hold]

theorem drop (i : ι) : Consistent name (r.drop name i) where
  nodup := by
    unfold Registry.drop
    split
    · exact h.nodup
    · exact h.nodup.sublist ((List.eraseP_sublist).map _)
  byName_iff := by
    intro n j
    have hold := h.byName_iff n j
    rw [r.get?_drop name h.nodup]
    cases hv : r.get? i with
    | none =>
      have heq : r.drop name i = r := by simp [Registry.drop, hv]
      rw [heq, hold]
      by_cases hj : j = i
      · simp [hj, hv]
      · simp [hj]
    | some v =>
      simp only [Registry.drop, hv, Table.find?_erase]
      by_cases hj : j = i
      · subst hj
        simp only [if_true, reduceCtorEq, false_and, exists_false, iff_false]
        intro hfind
        split at hfind
        · cases hfind
        · next hn =>
            obtain ⟨w, hw, hwn⟩ := hold.mp hfind
            rw [hv] at hw
            cases hw
            exact hn hwn.symm
      · rw [if_neg hj, ← hold]
        by_cases hn : n = name v
        · rw [if_pos hn]
          constructor
          · intro hc
            cases hc
          · intro hfind
            have hi := (h.byName_iff n i).mpr ⟨v, hv, hn.symm⟩
            rw [hfind] at hi
            exact absurd (Option.some.inj hi) hj
        · rw [if_neg hn]

theorem replace {v v' : ν} (hv : r.get? i = some v)
    (hname : ∀ j, r.byName.find? (name v') = some j → j = i) :
    Consistent name (r.replace name i v') where
  nodup := by
    have hids : ∀ l : List (ι × ν), (replaceFirst i v' l).map Prod.fst = l.map Prod.fst := by
      intro l
      induction l with
      | nil => rfl
      | cons e rest ih =>
        simp only [replaceFirst]
        split
        · next he => simp [he]
        · simp [ih]
    simp only [Registry.replace, hv, hids]
    exact h.nodup
  byName_iff := by
    intro n j
    have hold := h.byName_iff n j
    have hvname := (h.byName_iff (name v) i).mpr ⟨v, hv, rfl⟩
    rw [get?_replace]
    simp only [Registry.replace, hv, Option.map_some]
    by_cases hsame : name v = name v'
    · rw [if_pos hsame, hold]
      by_cases hj : j = i
      · subst hj
        simp [hv, hsame]
      · simp [hj]
    · have hfree : r.byName.find? (name v') = none := by
        cases hf : r.byName.find? (name v') with
        | none => rfl
        | some k =>
          obtain rfl := hname k hf
          obtain ⟨w, hw, hwn⟩ := (h.byName_iff _ _).mp hf
          rw [hv] at hw
          cases hw
          exact absurd hwn hsame
      have herased : (r.byName.erase (name v)).find? (name v') = none := by
        rw [Table.find?_erase, if_neg (Ne.symm hsame)]
        exact hfree
      simp only [if_neg hsame, herased, Option.isSome_none, Bool.false_eq_true, if_false,
        Table.find?_insert, Table.find?_erase]
      by_cases hn : n = name v'
      · subst hn
        by_cases hj : j = i
        · simp [hj]
        · simp only [if_true, hj, if_false, Option.some.injEq]
          constructor
          · intro hij
            exact absurd hij.symm hj
          · intro hex
            rw [hold.mpr hex] at hfree
            cases hfree
      · rw [if_neg hn]
        by_cases hnv : n = name v
        · rw [if_pos hnv]
          by_cases hj : j = i
          · simp [hj, Ne.symm hn]
          · simp only [hj, if_false, reduceCtorEq, false_iff]
            intro hex
            have hfind := hold.mpr hex
            rw [hnv, hvname] at hfind
            exact absurd (Option.some.inj hfind).symm hj
        · rw [if_neg hnv]
          by_cases hj : j = i
          · subst hj
            simp only [if_true, Option.some.injEq, exists_eq_left', Ne.symm hn, iff_false]
            intro hfind
            obtain ⟨w, hw, hwn⟩ := hold.mp hfind
            rw [hv] at hw
            cases hw
            exact hnv hwn.symm
          · simp only [hj, if_false]
            exact hold

end Consistent

end Registry

end KimixNative
