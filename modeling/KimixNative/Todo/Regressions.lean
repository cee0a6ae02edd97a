import KimixNative.Todo.TreeInvariant

/-!
# The regression guard

The guard of a write knows the items of the old list by their titles alone, wherever they stand,
and the last item with a title decides. For a title that is done, or not done, wherever the old list
has it, this is the status at the same place.
-/

namespace KimixNative.Todo

open Text Forest Tools

/-! ### The map of the old list -/

variable {old : List TodoItem}

theorem oldStatus_of_forall {title : Bytes} {P : TodoStatus → Prop} {status : TodoStatus}
    (hall : ∀ o ∈ labels old, o.content = title → P o.status)
    (h : oldStatus old title = some status) : P status := by
  obtain ⟨o, ho, rfl⟩ := Option.map_eq_some_iff.mp h
  have hmem := List.mem_of_find?_eq_some ho
  exact hall o (List.mem_reverse.mp hmem) (eq_of_beq (List.find?_some (p := fun t : Item => t.content == title) ho))

theorem oldStatus_isSome {o : Item} (h : o ∈ labels old) :
    ∃ status, oldStatus old o.content = some status := by
  have hfind : ((labels old).reverse.find? fun t => t.content == o.content).isSome = true := by
    rw [List.find?_isSome]
    exact ⟨o, List.mem_reverse.mpr h, beq_self_eq_true _⟩
  obtain ⟨last, hlast⟩ := Option.isSome_iff_exists.mp hfind
  exact ⟨last.status, by rw [oldStatus, hlast, Option.map_some]⟩

/-! ### Writes -/

/-- What a write lets pass is done wherever the map says so. -/
def Guarded (old : List TodoItem) (t : Item) : Prop :=
  oldStatus old t.content = some .done → t.status = .done

theorem guarded_iff {t : Item} : Guarded old t ↔ regresses old t = false := by
  rw [Guarded, regresses, Bool.and_eq_false_imp]
  simp

theorem clampRegressions_guarded {newTodos clamped : List TodoItem} {params : WriteParams}
    (hforce : params.force = false) (hmode : params.mode ≠ .clear) (hold : old ≠ [])
    (h : clampRegressions old params newTodos = .ok clamped) :
    ∀ t ∈ labels clamped, Guarded old t := by
  have hcheck : (!params.force && params.mode != .clear && !old.isEmpty) = true := by
    simp [hforce, hmode, hold]
  unfold clampRegressions at h
  rw [if_pos hcheck] at h
  dsimp only [tdCheckRegressions] at h
  split at h
  · cases h
  · rename_i hnone
    obtain rfl := Except.ok.inj h
    have hfilter : (labels newTodos).filter (regresses old) = [] := by
      simpa using hnone
    have hkept : ∀ t ∈ labels newTodos, regresses old t = false := fun t ht =>
      Bool.eq_false_iff.mpr (List.filter_eq_nil_iff.mp hfilter t ht)
    rw [labels_map]
    intro u hu
    obtain ⟨t, ht, rfl⟩ := List.mem_map.mp hu
    rw [hkept t ht]
    exact guarded_iff.mpr (hkept t ht)

theorem enforceSingle_guarded {clamped final : List TodoItem} {params : WriteParams}
    (h : enforceSingle params clamped = .ok final) (hclamped : ∀ t ∈ labels clamped, Guarded old t) :
    ∀ t ∈ labels final, Guarded old t := by
  have hdemote : ∀ slots t, Guarded old t → Guarded old (demote slots t).2 := by
    intro slots t ht
    unfold demote
    split
    · exact fun _ => rfl
    · exact ht
  unfold enforceSingle at h
  split at h
  · dsimp only at h
    split at h
    · obtain rfl := Except.ok.inj h
      exact hclamped
    · split at h
      · obtain rfl := Except.ok.inj h
        unfold autoFixInProgress
        dsimp only
        split
        · exact hclamped
        · have hlabels := congrArg Prod.snd
            (labels_mapAccum demote ((labels clamped).countP Item.isInProgress - 1) clamped)
          dsimp only at hlabels
          rw [hlabels]
          exact forall_mem_relabel hdemote _ hclamped
      · cases h
  · obtain rfl := Except.ok.inj h
    exact hclamped

/-- A title that is done in one place and not in another one behind it. -/
def doneAbove : TodoState where
  todos := [⟨{ content := ascii "A" }, [⟨{ content := ascii "X", status := .done }, []⟩]⟩,
    ⟨{ content := ascii "X" }, []⟩]

def reopenAbove : WriteParams where
  todos := [⟨{ content := ascii "A", childrenProvided := true }, [⟨{ content := ascii "X" }, []⟩]⟩]

end KimixNative.Todo
