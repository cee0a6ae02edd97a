import Mathlib.Logic.Function.Basic

/-!
# A unique index over keyed entities

Entities may own a key, and an index maps keys to entities. `Indexes owner index` is
what a reader of the index relies on: an entry leads to an owner of the key, and a key
that is owned has an entry. It does not say that a key has one owner only. Inserting an
owner of a key that already has an entry keeps the property, but dropping the entry
together with one of several owners does not, which is why `drop` asks for the last
owner.
-/

namespace KimixNative

variable {ι κ : Type*} [DecidableEq ι] [DecidableEq κ]

/-- The index answers a key with one of its owners, exactly when it has one. -/
structure Indexes (owner : ι → Option κ) (index : κ → Option ι) : Prop where
  sound : ∀ {k u}, index k = some u → owner u = some k
  complete : ∀ {u k}, owner u = some k → (index k).isSome

namespace Indexes

variable {owner : ι → Option κ} {index : κ → Option ι}

omit [DecidableEq ι] [DecidableEq κ] in
/-- A key is found if and only if some entity owns it. -/
theorem isSome_iff (h : Indexes owner index) (k : κ) :
    (index k).isSome ↔ ∃ u, owner u = some k := by
  constructor
  · intro hk
    obtain ⟨u, hu⟩ := Option.isSome_iff_exists.mp hk
    exact ⟨u, h.sound hu⟩
  · rintro ⟨u, hu⟩
    exact h.complete hu

omit [DecidableEq κ] in
/-- A new entity without a key changes nothing. -/
theorem insert_unkeyed (h : Indexes owner index) {u : ι} (fresh : owner u = none) :
    Indexes (Function.update owner u none) index := by
  rwa [← fresh, Function.update_eq_self]

omit [DecidableEq κ] in
/-- A new owner of a key that has an entry already: the entry stays with its owner. -/
theorem insert_shadowed (h : Indexes owner index) {u : ι} {k : κ} (fresh : owner u = none)
    (taken : (index k).isSome) : Indexes (Function.update owner u (some k)) index where
  sound {k' w} hw := by
    have := h.sound hw
    by_cases hwu : w = u
    · rw [hwu, fresh] at this
      cases this
    · simpa [hwu] using this
  complete {w k'} hw := by
    by_cases hwu : w = u
    · simp only [hwu, Function.update_self, Option.some.injEq] at hw
      exact hw ▸ taken
    · exact h.complete (by simpa [hwu] using hw)

/-- A new owner whose key is entered unless the key is taken. -/
theorem insert (h : Indexes owner index) {u : ι} {k : κ} (fresh : owner u = none) :
    Indexes (Function.update owner u (some k))
      (Function.update index k ((index k).or (some u))) := by
  cases hk : index k with
  | some w =>
    rw [Option.some_or, ← hk, Function.update_eq_self]
    exact h.insert_shadowed fresh (by simp [hk])
  | none =>
    refine ⟨?_, ?_⟩
    · intro k' w hw
      by_cases hkk : k' = k
      · simp only [hkk, Function.update_self, Option.none_or, Option.some.injEq] at hw
        simp [← hw, hkk]
      · have hw' := h.sound (by simpa [hkk] using hw)
        have hwu : w ≠ u := by
          rintro rfl
          rw [fresh] at hw'
          cases hw'
        simpa [hwu] using hw'
    · intro w k' hw
      by_cases hkk : k' = k
      · simp [hkk]
      · have hwu : w ≠ u := by
          rintro rfl
          simp only [Function.update_self, Option.some.injEq] at hw
          exact hkk hw.symm
        simpa [hkk] using h.complete (by simpa [hwu] using hw)

/-- The last owner of a key leaves together with the entry. -/
theorem drop (h : Indexes owner index) {u : ι} {k : κ} (hu : owner u = some k)
    (last : ∀ w, w ≠ u → owner w ≠ some k) :
    Indexes (Function.update owner u none) (Function.update index k none) where
  sound {k' w} hw := by
    by_cases hkk : k' = k
    · simp [hkk] at hw
    · have hw' := h.sound (by simpa [hkk] using hw)
      have hwu : w ≠ u := by
        rintro rfl
        rw [hu] at hw'
        exact hkk (Option.some.inj hw').symm
      simpa [hwu] using hw'
  complete {w k'} hw := by
    have hwu : w ≠ u := by
      rintro rfl
      simp at hw
    rw [Function.update_of_ne hwu] at hw
    have hkk : k' ≠ k := by
      rintro rfl
      exact last w hwu hw
    simpa [hkk] using h.complete hw

end Indexes

end KimixNative
