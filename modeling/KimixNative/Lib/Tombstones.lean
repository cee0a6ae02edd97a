import Mathlib.Data.List.Nodup

/-!
# Tombstone lists

A store that forgets a record keeps its id in a list of graves, so that a later save
can delete what it wrote earlier. `Carries live graves live' graves'` is the law of one
step: afterwards the graves hold exactly the ids that are not live now and that had a
grave or were live before. `Tombstoned` is the invariant of a history, with `gone` the
ids that died since the list was last handed out; every step that carries its graves
keeps it.
-/

namespace KimixNative

variable {ι : Type*} {live live' live'' gone : ι → Prop} {graves graves' graves'' : List ι}

/-- No grave is doubled and no grave belongs to the living. -/
structure Clean (live : ι → Prop) (graves : List ι) : Prop where
  nodup : graves.Nodup
  dead : ∀ u ∈ graves, ¬live u

/-- After the step the graves are those of the ids that are dead now and were buried or
alive before. -/
structure Carries (live : ι → Prop) (graves : List ι) (live' : ι → Prop)
    (graves' : List ι) : Prop where
  nodup : graves'.Nodup
  mem_iff : ∀ u, u ∈ graves' ↔ ¬live' u ∧ (u ∈ graves ∨ live u)

/-- The graves are those of the ids that died since the last hand-out and stayed dead. -/
structure Tombstoned (live gone : ι → Prop) (graves : List ι) : Prop where
  nodup : graves.Nodup
  mem_iff : ∀ u, u ∈ graves ↔ gone u ∧ ¬live u

namespace Tombstoned

theorem clean (h : Tombstoned live gone graves) : Clean live graves :=
  ⟨h.nodup, fun u hu => ((h.mem_iff u).mp hu).2⟩

/-- A step that carries its graves keeps the invariant, with the ids it ended. -/
theorem carry (h : Tombstoned live gone graves) (hc : Carries live graves live' graves')
    {gone' : ι → Prop} (hg : ∀ u, gone' u ↔ gone u ∨ live u ∧ ¬live' u) :
    Tombstoned live' gone' graves' where
  nodup := hc.nodup
  mem_iff u := by
    rw [hc.mem_iff, h.mem_iff, hg]
    tauto

/-- Handing the list out starts a new history. -/
theorem take (live : ι → Prop) {gone : ι → Prop} (hg : ∀ u, ¬gone u) :
    Tombstoned live gone [] where
  nodup := List.nodup_nil
  mem_iff u := by simp [hg u]

end Tombstoned

namespace Carries

theorem clean (h : Carries live graves live' graves') : Clean live' graves' :=
  ⟨h.nodup, fun u hu => ((h.mem_iff u).mp hu).1⟩

/-- Nobody is born or dies. -/
theorem same (h : Clean live graves) (hl : ∀ u, live' u ↔ live u) :
    Carries live graves live' graves where
  nodup := h.nodup
  mem_iff u := by
    have := h.dead u
    rw [hl]
    tauto

/-- An id without a grave comes to life. -/
theorem birth (h : Clean live graves) {a : ι} (ha : a ∉ graves)
    (hl : ∀ u, live' u ↔ u = a ∨ live u) : Carries live graves live' graves where
  nodup := h.nodup
  mem_iff u := by
    have := h.dead u
    rw [hl]
    by_cases hu : u = a
    · subst hu; tauto
    · tauto

/-- An id comes to life and its grave is cleared. -/
theorem revive [DecidableEq ι] (h : Clean live graves) {a : ι}
    (hl : ∀ u, live' u ↔ u = a ∨ live u) : Carries live graves live' (graves.erase a) where
  nodup := h.nodup.erase a
  mem_iff u := by
    have := h.dead u
    rw [h.nodup.mem_erase_iff, hl]
    tauto

/-- A live id dies and gets its grave. -/
theorem bury (h : Clean live graves) {a : ι} (ha : live a)
    (hl : ∀ u, live' u ↔ live u ∧ u ≠ a) : Carries live graves live' (graves ++ [a]) where
  nodup := by
    refine h.nodup.append (List.nodup_singleton a) ?_
    intro u hu hua
    rw [List.mem_singleton.mp hua] at hu
    exact h.dead a hu ha
  mem_iff u := by
    have := h.dead u
    rw [List.mem_append, List.mem_singleton, hl]
    by_cases hu : u = a
    · subst hu; tauto
    · tauto

/-- Two steps in a row, unless an id is born in the first and dies in the second. -/
theorem trans (h₁ : Carries live graves live' graves')
    (h₂ : Carries live' graves' live'' graves'') (hle : ∀ u, live' u → live u ∨ live'' u) :
    Carries live graves live'' graves'' where
  nodup := h₂.nodup
  mem_iff u := by
    have := hle u
    rw [h₂.mem_iff, h₁.mem_iff]
    tauto

end Carries

end KimixNative
