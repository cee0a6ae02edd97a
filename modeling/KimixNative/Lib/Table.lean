import Mathlib.Data.List.AList
import Mathlib.Data.Finset.Basic

/-!
# Finite tables

A table is a finite map with decidable keys. It is Mathlib's association list
without duplicate keys, behind operations whose types do not mention the constant
family. The entry order is an artefact of the representation: every lemma here
speaks of lookups, so nothing proved from them depends on a hash map's iteration
order.
-/

namespace KimixNative

/-- A finite map from `κ` to `ν`. -/
def Table (κ ν : Type*) := AList (fun _ : κ => ν)

namespace Table

variable {κ ν : Type*} [DecidableEq κ]

instance : EmptyCollection (Table κ ν) := ⟨(∅ : AList (fun _ : κ => ν))⟩

instance : Inhabited (Table κ ν) := ⟨∅⟩

instance [DecidableEq ν] : DecidableEq (Table κ ν) := fun t t' =>
  decidable_of_iff (AList.entries t = AList.entries t') ⟨AList.ext, congrArg _⟩

/-- The value stored under a key. -/
def find? (t : Table κ ν) (k : κ) : Option ν := AList.lookup k t

/-- Store a value under a key, replacing an earlier one. -/
def insert (t : Table κ ν) (k : κ) (v : ν) : Table κ ν := AList.insert k v t

/-- Drop a key. -/
def erase (t : Table κ ν) (k : κ) : Table κ ν := AList.erase k t

/-- Apply `f` to the value under `k`; an absent key is left absent. -/
def modify (t : Table κ ν) (k : κ) (f : ν → ν) : Table κ ν :=
  match t.find? k with
  | none => t
  | some v => t.insert k (f v)

/-- The stored pairs, each key once. -/
def toList (t : Table κ ν) : List (κ × ν) := (AList.entries t).map fun e => (e.1, e.2)

/-- The stored keys. -/
def keys (t : Table κ ν) : List κ := AList.keys t

/-- Apply `f` to every stored value. -/
def mapValues (f : ν → ν) (t : Table κ ν) : Table κ ν where
  entries := (AList.entries t).map fun e => ⟨e.1, f e.2⟩
  nodupKeys := by
    have h := AList.nodupKeys t
    unfold List.NodupKeys List.keys at h ⊢
    simpa [List.map_map, Function.comp_def] using h

/-- Insert the pairs in order, keeping the first value of a repeated key. This is
what a loop of `emplace` calls leaves behind. -/
def emplaceAll (t : Table κ ν) : List (κ × ν) → Table κ ν
  | [] => t
  | (k, v) :: rest =>
    if (t.find? k).isSome then t.emplaceAll rest else (t.insert k v).emplaceAll rest

/-- The table of a list of pairs, the first value of a key winning. -/
def ofList (pairs : List (κ × ν)) : Table κ ν := emplaceAll ∅ pairs

@[simp] theorem find?_empty (k : κ) : (∅ : Table κ ν).find? k = none :=
  AList.lookup_empty k

theorem find?_insert (t : Table κ ν) (k k' : κ) (v : ν) :
    (t.insert k v).find? k' = if k' = k then some v else t.find? k' := by
  by_cases h : k' = k
  · subst h
    rw [if_pos rfl]
    exact AList.lookup_insert t
  · rw [if_neg h]
    exact AList.lookup_insert_ne h

@[simp] theorem find?_insert_self (t : Table κ ν) (k : κ) (v : ν) :
    (t.insert k v).find? k = some v := by
  simp [find?_insert]

theorem find?_erase (t : Table κ ν) (k k' : κ) :
    (t.erase k).find? k' = if k' = k then none else t.find? k' := by
  by_cases h : k' = k
  · subst h
    rw [if_pos rfl]
    exact AList.lookup_erase k' t
  · rw [if_neg h]
    exact AList.lookup_erase_ne h

@[simp] theorem find?_erase_self (t : Table κ ν) (k : κ) : (t.erase k).find? k = none := by
  simp [find?_erase]

theorem find?_modify (t : Table κ ν) (k k' : κ) (f : ν → ν) :
    (t.modify k f).find? k' = if k' = k then (t.find? k).map f else t.find? k' := by
  unfold modify
  cases h : t.find? k with
  | none =>
    by_cases hk : k' = k
    · subst hk
      simp [h]
    · simp [hk]
  | some v => simp [find?_insert]

@[simp] theorem find?_modify_self (t : Table κ ν) (k : κ) (f : ν → ν) :
    (t.modify k f).find? k = (t.find? k).map f := by
  simp [find?_modify]

variable {k : κ} {t : Table κ ν}

variable {v : ν}

theorem mem_toList : (k, v) ∈ t.toList ↔ t.find? k = some v := by
  have h := AList.mem_lookup_iff (s := t) (a := k) (b := v)
  rw [Option.mem_def] at h
  refine Iff.trans ?_ h.symm
  constructor
  · intro hm
    obtain ⟨⟨k', v'⟩, he, heq⟩ := List.mem_map.mp hm
    cases heq
    exact he
  · intro he
    exact List.mem_map.mpr ⟨⟨k, v⟩, he, rfl⟩

theorem mem_keys : k ∈ t.keys ↔ ∃ v, t.find? k = some v := by
  rw [← Option.isSome_iff_exists]
  exact (AList.lookup_isSome (s := t) (a := k)).symm

omit [DecidableEq κ] in
theorem keys_nodup (t : Table κ ν) : t.keys.Nodup := AList.keys_nodup t

omit [DecidableEq κ] in
theorem keys_eq_map (t : Table κ ν) : t.keys = t.toList.map Prod.fst := by
  simp [keys, toList, AList.keys, List.keys, List.map_map, Function.comp_def]

theorem find?_mapValues (f : ν → ν) (t : Table κ ν) (k : κ) :
    (mapValues f t).find? k = (t.find? k).map f := by
  cases h : t.find? k with
  | none =>
    cases h' : (mapValues f t).find? k with
    | none => rfl
    | some w =>
      have hm := mem_toList.mpr h'
      simp only [toList, mapValues, List.map_map, List.mem_map, Function.comp_apply,
        Prod.mk.injEq] at hm
      obtain ⟨e, he, rfl, -⟩ := hm
      have := mem_toList.mp (List.mem_map.mpr ⟨e, he, rfl⟩ : (e.1, e.2) ∈ t.toList)
      rw [h] at this
      cases this
  | some v =>
    refine mem_toList.mp ?_
    have hm := mem_toList.mpr h
    simp only [toList, List.mem_map, Prod.mk.injEq] at hm
    obtain ⟨e, he, rfl, rfl⟩ := hm
    simp only [toList, mapValues, List.map_map, List.mem_map, Function.comp_apply]
    exact ⟨e, he, rfl⟩

omit [DecidableEq κ] in
theorem keys_mapValues (f : ν → ν) (t : Table κ ν) : (mapValues f t).keys = t.keys := by
  simp [keys, mapValues, AList.keys, List.keys, List.map_map, Function.comp_def]

theorem find?_emplaceAll (t : Table κ ν) (pairs : List (κ × ν)) (k : κ) :
    (t.emplaceAll pairs).find? k = (t.find? k).or (pairs.lookup k) := by
  induction pairs generalizing t with
  | nil => simp [emplaceAll]
  | cons p rest ih =>
    obtain ⟨a, v⟩ := p
    simp only [emplaceAll, List.lookup_cons]
    by_cases hk : k = a
    · subst hk
      cases h : t.find? k <;> simp [ih, h]
    · have hb : (k == a) = false := by simpa using hk
      split <;> simp [ih, hb, find?_insert, hk]

/-- Emplacing goes through the pairs one by one. -/
theorem emplaceAll_append (t : Table κ ν) (pairs pairs' : List (κ × ν)) :
    t.emplaceAll (pairs ++ pairs') = (t.emplaceAll pairs).emplaceAll pairs' := by
  induction pairs generalizing t with
  | nil => rfl
  | cons p rest ih =>
    obtain ⟨k, v⟩ := p
    simp only [List.cons_append, emplaceAll]
    split
    · exact ih t
    · exact ih (t.insert k v)

@[simp] theorem find?_ofList (pairs : List (κ × ν)) (k : κ) :
    (ofList pairs).find? k = pairs.lookup k := by
  simp [ofList, find?_emplaceAll]

private theorem lookup_eq_some_of_mem {l : List (κ × ν)} (nodup : (l.map Prod.fst).Nodup)
    (hm : (k, v) ∈ l) : l.lookup k = some v := by
  induction l with
  | nil => cases hm
  | cons p rest ih =>
    obtain ⟨a, w⟩ := p
    simp only [List.map_cons, List.nodup_cons] at nodup
    rcases List.mem_cons.mp hm with heq | hrest
    · cases heq
      simp
    · have hne : (k == a) = false := by
        refine beq_eq_false_iff_ne.mpr ?_
        rintro rfl
        exact nodup.1 (List.mem_map.mpr ⟨_, hrest, rfl⟩)
      rw [List.lookup_cons, hne]
      exact ih nodup.2 hrest

/-- With distinct keys the table of a list holds exactly its pairs. -/
theorem find?_ofList_eq_some {pairs : List (κ × ν)} (nodup : (pairs.map Prod.fst).Nodup) :
    (ofList pairs).find? k = some v ↔ (k, v) ∈ pairs := by
  rw [find?_ofList]
  refine ⟨fun h => ?_, lookup_eq_some_of_mem nodup⟩
  obtain ⟨before, after, rfl, -⟩ := List.lookup_eq_some_iff.mp h
  simp

theorem lookup_toList (t : Table κ ν) (k : κ) : t.toList.lookup k = t.find? k := by
  cases h : t.find? k with
  | some v => exact lookup_eq_some_of_mem (keys_eq_map t ▸ keys_nodup t) (mem_toList.mpr h)
  | none =>
    refine List.lookup_eq_none_iff.mpr ?_
    rintro ⟨a, w⟩ hm
    simp only [bne_iff_ne, ne_eq]
    rintro rfl
    rw [mem_toList.mp hm] at h
    cases h

/-! ## Entries as a list -/

omit [DecidableEq κ] in
theorem toList_nodup (t : Table κ ν) : t.toList.Nodup := by
  have h := keys_nodup t
  rw [keys_eq_map] at h
  exact h.of_map

theorem toList_insert (t : Table κ ν) (k : κ) (v : ν) :
    (t.insert k v).toList = (k, v) :: (t.erase k).toList := rfl

omit [DecidableEq κ] in
theorem toList_mapValues (f : ν → ν) (t : Table κ ν) :
    (mapValues f t).toList = t.toList.map fun e => (e.1, f e.2) := by
  simp [toList, mapValues, List.map_map, Function.comp_def]

/-- Taking a stored entry out. -/
theorem toList_perm_cons (h : t.find? k = some v) :
    t.toList.Perm ((k, v) :: (t.erase k).toList) := by
  have hnodup : ((k, v) :: (t.erase k).toList).Nodup := toList_insert t k v ▸ toList_nodup _
  refine (List.perm_ext_iff_of_nodup (toList_nodup t) hnodup).mpr ?_
  rintro ⟨k', v'⟩
  rw [List.mem_cons, mem_toList, mem_toList, find?_erase, Prod.mk.injEq]
  by_cases hk : k' = k
  · subst hk
    rw [if_pos rfl, h]
    simp [eq_comm]
  · rw [if_neg hk]
    simp [hk]

/-- Erasing an absent key. -/
theorem toList_erase_perm (h : t.find? k = none) : (t.erase k).toList.Perm t.toList := by
  refine (List.perm_ext_iff_of_nodup (toList_nodup _) (toList_nodup t)).mpr ?_
  rintro ⟨k', v'⟩
  rw [mem_toList, mem_toList, find?_erase]
  by_cases hk : k' = k
  · subst hk
    rw [if_pos rfl, h]
  · rw [if_neg hk]

end Table

end KimixNative

/-!
## Indexes of flagged records

A table of records with a flag, and beside it the set of keys whose flag is set, kept so
that the flagged records can be found without a scan. The rules below are the ways a table
and its index move together.
-/

namespace KimixNative

variable {κ ν : Type} [DecidableEq κ] {t : Table κ ν} {flag : ν → Bool} {index : Finset κ}

/-- The index names exactly the stored records whose flag is set. -/
def FlagIndexed (t : Table κ ν) (flag : ν → Bool) (index : Finset κ) : Prop :=
  ∀ k, k ∈ index ↔ ∃ v, t.find? k = some v ∧ flag v = true

namespace FlagIndexed

variable (h : FlagIndexed t flag index)
include h

variable {k : κ}

/-- A record goes in under a free key; a flagged one is registered. -/
theorem insert_fresh (fresh : t.find? k = none) (v : ν) :
    FlagIndexed (t.insert k v) flag (if flag v then insert k index else index) := by
  intro k'
  have hk := h k'
  rw [Table.find?_insert]
  by_cases heq : k' = k
  · subst heq
    rw [fresh] at hk
    cases hf : flag v with
    | true => simp [hf]
    | false => simpa [hf] using hk
  · rw [if_neg heq]
    cases hf : flag v with
    | true => simpa [heq] using hk
    | false => simpa using hk

/-- A record goes out with its entry. -/
theorem erase (k : κ) : FlagIndexed (t.erase k) flag (index.erase k) := by
  intro k'
  rw [Table.find?_erase, Finset.mem_erase]
  by_cases heq : k' = k
  · simp [heq]
  · simpa [heq] using h k'

/-- A record is replaced by one whose flag is not lower; a flag that goes up is
registered. -/
theorem raise {v v' : ν} (hv : t.find? k = some v) (keep : flag v = true → flag v' = true) :
    FlagIndexed (t.insert k v') flag (if flag v' && !flag v then insert k index else index) := by
  intro k'
  have hk := h k'
  rw [Table.find?_insert]
  by_cases heq : k' = k
  · subst heq
    rw [hv] at hk
    cases hf : flag v <;> cases hf' : flag v' <;> simp_all
  · rw [if_neg heq]
    split
    · simpa [heq] using hk
    · exact hk

/-- A record is replaced by one whose flag is down, and its entry goes. -/
theorem lower {v' : ν} (down : flag v' = false) :
    FlagIndexed (t.insert k v') flag (index.erase k) := by
  intro k'
  rw [Table.find?_insert, Finset.mem_erase]
  by_cases heq : k' = k
  · simp [heq, down]
  · simpa [heq] using h k'

end FlagIndexed

end KimixNative
