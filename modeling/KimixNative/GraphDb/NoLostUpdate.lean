import KimixNative.GraphDb.SaveProtocol

/-!
# No lost update

While one save runs, a slot stays honest: as long as the epoch of its record is the one it
was stamped with, the fields copied so far are the record's. A write in between moves the
epoch, so the final clear of that record does not go through and the next save collects it
again. With that, every clean record has its image in the store at every point of the run.
-/

namespace KimixNative.GraphDb

/-- The payload of a record has no other fields than those a save copies. -/
theorem Graph.image_eq_none {g : Graph} {id : RecordId} {r : RecordView}
    (hr : g.view id = some r) {f : Field} (hf : f ∉ id.fields) : r.image f = none := by
  cases id with
  | vertex guid =>
    obtain ⟨v, -, rfl⟩ := Option.map_eq_some_iff.mp hr
    cases f <;> first | rfl | simp [RecordId.fields] at hf
  | edge id =>
    obtain ⟨e, -, rfl⟩ := Option.map_eq_some_iff.mp hr
    cases f <;> first | rfl | simp [RecordId.fields] at hf

/-- A clear that goes through takes the flag of one record down and nothing else. -/
theorem Graph.view_clearDirtyIf (g : Graph) (id : RecordId) (epoch : BitVec 64) (d : RecordId) :
    (g.clearDirtyIf id epoch).view d =
      (g.view d).map fun r =>
        if d = id ∧ r.epoch = epoch then { r with dirty := false } else r := by
  cases id with
  | vertex guid =>
    cases d with
    | edge d => simp [view, clearDirtyIf, Function.comp_def]
    | vertex w =>
      simp only [view, clearDirtyIf, find?_clearVertexDirtyIf, Option.map_map]
      congr 1
      funext v
      by_cases h : w = guid ∧ v.dirtyEpoch = epoch
      · simp only [Function.comp_apply, RecordId.vertex.injEq, Vertex.view, if_pos h]
        exact (if_pos h).symm
      · simp only [Function.comp_apply, RecordId.vertex.injEq, Vertex.view, if_neg h]
        exact (if_neg h).symm
  | edge id =>
    cases d with
    | vertex w => simp [view, clearDirtyIf, Function.comp_def]
    | edge d =>
      simp only [view, clearDirtyIf, find?_clearEdgeDirtyIf, Option.map_map]
      congr 1
      funext e
      by_cases h : d = id ∧ e.dirtyEpoch = epoch
      · simp only [Function.comp_apply, RecordId.edge.injEq, Edge.view, if_pos h]
        exact (if_pos h).symm
      · simp only [Function.comp_apply, RecordId.edge.injEq, Edge.view, if_neg h]
        exact (if_neg h).symm

theorem Graph.DirtyIndexed.clearDirtyIf {g : Graph} (h : g.DirtyIndexed) (id : RecordId)
    (epoch : BitVec 64) : (g.clearDirtyIf id epoch).DirtyIndexed := by
  cases id with
  | vertex guid => exact h.clearVertexDirtyIf guid epoch
  | edge id => exact h.clearEdgeDirtyIf id epoch

theorem Graph.DirtyIndexed.writerStep {g : Graph} (h : g.DirtyIndexed) (a : Action) :
    (g.writerStep a).DirtyIndexed := by
  cases a with
  | editVertex guid edit => exact h.step (.editVertex guid edit)
  | editEdge edge edit => exact h.step (.editEdge edge edit)
  | setOrigin edge origin => exact h.step (.edgeSetOrigin edge origin)
  | setTarget edge target => exact h.step (.edgeSetTarget edge target)
  | mark id =>
    cases id with
    | vertex guid => exact h.updateVertex guid fun _ _ => rfl
    | edge id => exact h.updateEdge id fun _ _ => rfl
  | _ => exact h

namespace World

/-- Flags and indexes stay together whatever the interleaving. -/
theorem dirtyIndexed_step {w : World} (h : w.graph.DirtyIndexed) (a : Action) :
    (w.step a).graph.DirtyIndexed := by
  cases a with
  | begin s order =>
    simp only [step]
    split <;> exact h
  | snapshotEdges s order =>
    simp only [step]
    split
    · exact h
    · split <;> exact h
  | resolve s =>
    simp only [step]
    split <;> exact h
  | copy s id field =>
    simp only [step]
    split
    · exact h
    · split <;> exact h
  | write s accepted =>
    simp only [step]
    split
    · exact h
    · split
      · split <;> exact h
      · exact h
  | clear s =>
    simp only [step]
    split
    · exact h
    split
    · split
      · exact h
      · exact h.clearDirtyIf _ _
    · exact h
  | editVertex guid edit => exact h.writerStep (.editVertex guid edit)
  | editEdge edge edit => exact h.writerStep (.editEdge edge edit)
  | setOrigin edge origin => exact h.writerStep (.setOrigin edge origin)
  | setTarget edge target => exact h.writerStep (.setTarget edge target)
  | mark id => exact h.writerStep (.mark id)

end World

/-! ## What a save in progress knows -/

/-- A save in progress over a graph and a store. Before the write every collected record
is dirty; after it the store holds what was copied. -/
structure Save.Sound (save : Save) (g : Graph) (store : RecordId → Option Image) : Prop where
  nodup : (save.slots.map Slot.id ++ save.todo).Nodup
  verticesFirst : save.edgesTaken = false →
    ∀ id ∈ save.slots.map Slot.id ++ save.todo, ∃ guid, id = .vertex guid
  honest : ∀ slot ∈ save.slots, ∀ r, g.view slot.id = some r → r.epoch = slot.epoch →
    ∀ f, f ∉ slot.todo → slot.image f = r.image f
  dirty : save.clearing = false →
    ∀ slot ∈ save.slots, ∀ r, g.view slot.id = some r → r.dirty = true
  written : save.clearing = true →
    save.todo = [] ∧ save.edgesTaken = true ∧
      ∀ slot ∈ save.slots, slot.todo = [] ∧ store slot.id = some slot.image

variable {a : Action}

namespace Save.Sound

variable {save : Save} {g : Graph} {store : RecordId → Option Image}

variable {order : List Guid}

/-- A fresh save has collected nothing. -/
theorem begin (hnodup : order.Nodup) :
    Save.Sound { todo := order.map .vertex } g store where
  nodup := by simpa using hnodup.map fun _ _ h => RecordId.vertex.inj h
  verticesFirst _ id hid := by
    obtain ⟨guid, -, rfl⟩ := List.mem_map.mp (by simpa using hid)
    exact ⟨guid, rfl⟩
  honest slot hslot := by cases hslot
  dirty _ slot hslot := by cases hslot
  written h := by cases h

variable (h : save.Sound g store)
include h

theorem snapshotEdges (htodo : save.todo = []) (htaken : save.edgesTaken = false)
    (hnodup : order.Nodup) :
    Save.Sound { save with todo := order.map .edge, edgesTaken := true } g store where
  nodup := by
    refine List.nodup_append.mpr ⟨?_, hnodup.map fun _ _ h => RecordId.edge.inj h, ?_⟩
    · simpa [htodo] using h.nodup
    · rintro id hid _ hedge rfl
      obtain ⟨guid, rfl⟩ := h.verticesFirst htaken id (List.mem_append_left _ hid)
      obtain ⟨e, -, heq⟩ := List.mem_map.mp hedge
      cases heq
  verticesFirst htaken := by cases htaken
  honest := h.honest
  dirty := h.dirty
  written hclear := by
    rw [(h.written hclear).2.1] at htaken
    cases htaken

/-- A record is stamped before its fields are copied: it starts with nothing copied. -/
theorem resolve : (save.resolve g).Sound g store := by
  unfold Save.resolve
  split
  · exact h
  next id rest htodo =>
  have hids := h.nodup
  have hfirst := h.verticesFirst
  rw [htodo] at hids hfirst
  have skip : Save.Sound { save with todo := rest } g store :=
    { nodup := hids.sublist (List.Sublist.append_left (List.sublist_cons_self id rest) _)
      verticesFirst := fun ht d hd => hfirst ht d <|
        (List.mem_append.mp hd).elim (List.mem_append_left _)
          fun hd => List.mem_append_right _ (List.mem_cons_of_mem _ hd)
      honest := h.honest
      dirty := h.dirty
      written := fun hclear => by
        rw [(h.written hclear).1] at htodo
        cases htodo }
  split
  · next r hr =>
      split
      · next hdirty =>
          refine { nodup := ?_, verticesFirst := ?_, honest := ?_, dirty := ?_, written := ?_ }
          · simpa using hids
          · simpa using hfirst
          · intro slot hslot r' hr' _ f hf
            rcases List.mem_append.mp hslot with hslot | hslot
            · exact h.honest slot hslot r' hr' ‹_› f hf
            · obtain rfl := List.mem_singleton.mp hslot
              exact (g.image_eq_none hr' hf).symm
          · intro hclear slot hslot r' hr'
            rcases List.mem_append.mp hslot with hslot | hslot
            · exact h.dirty hclear slot hslot r' hr'
            · obtain rfl := List.mem_singleton.mp hslot
              obtain rfl : r = r' := Option.some.inj (hr.symm.trans hr')
              exact hdirty
          · intro hclear
            rw [(h.written hclear).1] at htodo
            cases htodo
      · exact skip
  · exact skip

/-- Copying one more field keeps a slot honest: what is copied is the field now. -/
theorem copy (hclear : save.clearing = false) (id : RecordId) (field : Field) :
    (save.copy g id field).Sound g store := by
  have hids : (save.copy g id field).slots.map Slot.id = save.slots.map Slot.id := by
    simp only [Save.copy, List.map_map]
    refine List.map_congr_left fun slot _ => ?_
    simp only [Function.comp_apply]
    split <;> rfl
  refine { nodup := ?_, verticesFirst := ?_, honest := ?_, dirty := ?_, written := ?_ }
  · rw [hids]
    exact h.nodup
  · rw [hids]
    exact h.verticesFirst
  · intro slot' hslot' r hr hepoch f hf
    obtain ⟨slot, hslot, rfl⟩ := List.mem_map.mp hslot'
    by_cases hc : slot.id = id ∧ field ∈ slot.todo
    · rw [if_pos hc] at hr hepoch hf ⊢
      by_cases hff : f = field
      · subst hff
        rw [← hc.1, hr]
        simp
      · simp only [Function.update_of_ne hff]
        exact h.honest slot hslot r hr hepoch f fun hm => hf (by simpa [hff] using hm)
    · rw [if_neg hc] at hr hepoch hf ⊢
      exact h.honest slot hslot r hr hepoch f hf
  · intro _ slot' hslot' r hr
    obtain ⟨slot, hslot, rfl⟩ := List.mem_map.mp hslot'
    refine h.dirty hclear slot hslot r ?_
    split at hr <;> exact hr
  · intro hc
    rw [show (save.copy g id field).clearing = save.clearing from rfl, hclear] at hc
    cases hc

/-- A writer that does not bring an epoch back to a stamp. -/
theorem writerStep
    (hstamp : ∀ slot ∈ save.slots, World.epochOf (g.writerStep a) slot.id = some slot.epoch →
      World.epochOf g slot.id = some slot.epoch) : save.Sound (g.writerStep a) store where
  nodup := h.nodup
  verticesFirst := h.verticesFirst
  honest slot hslot r' hr' hepoch f hf := by
    have hmoved := g.moved_writerStep a slot.id
    rw [hr'] at hmoved
    cases hr : g.view slot.id with
    | none => rw [hr] at hmoved; cases hmoved
    | some r =>
      rw [hr] at hmoved
      cases hmoved with
      | some hm =>
        have hback := hstamp slot hslot (by simp [World.epochOf, hr', hepoch])
        simp only [World.epochOf, hr, Option.map_some, Option.some.injEq] at hback
        obtain rfl := hm.eq_of_epoch (by decide) (hepoch.trans hback.symm)
        exact h.honest slot hslot _ hr hepoch f hf
  dirty hclear slot hslot r' hr' := by
    have hmoved := g.moved_writerStep a slot.id
    rw [hr'] at hmoved
    cases hr : g.view slot.id with
    | none => rw [hr] at hmoved; cases hmoved
    | some r =>
      rw [hr] at hmoved
      cases hmoved with
      | some hm => exact hm.dirty (h.dirty hclear slot hslot r hr)
  written := h.written

/-- The conditional clear of one collected record. -/
theorem clear {slot : Slot} {rest : List Slot} (hclear : save.clearing = true)
    (hslots : save.slots = slot :: rest) :
    Save.Sound { save with slots := rest } (g.clearDirtyIf slot.id slot.epoch) store where
  nodup := by
    have := h.nodup
    rw [hslots] at this
    exact (List.nodup_cons.mp this).2
  verticesFirst ht id hid := h.verticesFirst ht id <| by
    rw [hslots]
    exact List.mem_cons_of_mem _ hid
  honest d hd r hr hepoch f hf := by
    rw [Graph.view_clearDirtyIf] at hr
    obtain ⟨r', hr', rfl⟩ := Option.map_eq_some_iff.mp hr
    have himage := h.honest d (hslots ▸ List.mem_cons_of_mem _ hd) r' hr'
    by_cases hc : d.id = slot.id ∧ r'.epoch = slot.epoch
    · rw [if_pos hc] at hepoch ⊢
      exact himage hepoch f hf
    · rw [if_neg hc] at hepoch ⊢
      exact himage hepoch f hf
  dirty hc := by
    rw [show save.clearing = true from hclear] at hc
    cases hc
  written _ := by
    obtain ⟨htodo, htaken, hstore⟩ := h.written hclear
    exact ⟨htodo, htaken, fun d hd => hstore d (hslots ▸ List.mem_cons_of_mem _ hd)⟩

end Save.Sound

/-- A collected record is found under its own id. -/
private theorem find?_slot {slots : List Slot} (nodup : (slots.map Slot.id).Nodup) {slot : Slot}
    (hslot : slot ∈ slots) : slots.find? (·.id = slot.id) = some slot := by
  induction slots with
  | nil => cases hslot
  | cons head rest ih =>
    obtain ⟨hhead, hrest⟩ := List.nodup_cons.mp nodup
    rcases List.mem_cons.mp hslot with rfl | hmem
    · simp
    · have hne : head.id ≠ slot.id := fun heq =>
        hhead (heq ▸ List.mem_map_of_mem hmem)
      simp only [List.find?_cons, hne, decide_false]
      exact ih hrest hmem

namespace World

theorem idle_iff {w : World} : w.Idle ↔ ∀ s, w.saves.find? s = none := by
  unfold Idle
  rw [List.eq_nil_iff_forall_not_mem]
  simp only [Table.mem_keys, not_exists]
  exact forall_congr' fun s => ⟨fun h => Option.eq_none_iff_forall_not_mem.mpr h,
    fun h v hv => by rw [h] at hv; cases hv⟩

/-- What one save at a time keeps: the store is right about every clean record, and the
save in progress is sound. -/
structure Sound (w : World) : Prop where
  stored : w.Stored
  alone : ∀ s s', (w.saves.find? s).isSome → (w.saves.find? s').isSome → s = s'
  saves : ∀ s save, w.saves.find? s = some save → save.Sound w.graph w.store

namespace Sound

variable {w : World}

theorem idle (hidle : w.Idle) (hstored : w.Stored) : w.Sound where
  stored := hstored
  alone s _ hs := by simp [idle_iff.mp hidle s] at hs
  saves s save hs := by simp [idle_iff.mp hidle s] at hs

variable (h : w.Sound)
include h

/-- A save that moves on to another sound state. -/
theorem replace {s : Nat} {save save' : Save} (hs : w.saves.find? s = some save)
    {g : Graph} {store : RecordId → Option Image}
    (hstored : Stored ⟨g, store, w.saves.insert s save'⟩) (hsound : save'.Sound g store) :
    Sound ⟨g, store, w.saves.insert s save'⟩ := by
  have only : ∀ s', (((w.saves.insert s save').find? s').isSome : Prop) → s' = s := by
    intro s' hs'
    rw [Table.find?_insert] at hs'
    split at hs'
    · assumption
    · exact h.alone s' s hs' (by simp [hs])
  refine ⟨hstored, fun s₁ s₂ h₁ h₂ => (only s₁ h₁).trans (only s₂ h₂).symm, ?_⟩
  intro s' save'' hs'
  obtain rfl := only s' (by simp [hs'])
  rw [Table.find?_insert_self] at hs'
  cases hs'
  exact hsound

theorem finish (s : Nat) : Sound { w with saves := w.saves.erase s } := by
  have keep : ∀ s' save, (w.saves.erase s).find? s' = some save → w.saves.find? s' = some save := by
    intro s' save hs'
    rw [Table.find?_erase] at hs'
    split at hs'
    · cases hs'
    · exact hs'
  refine ⟨h.stored, fun s₁ s₂ h₁ h₂ => ?_, fun s' save hs' => h.saves s' save (keep s' save hs')⟩
  obtain ⟨save₁, h₁⟩ := Option.isSome_iff_exists.mp h₁
  obtain ⟨save₂, h₂⟩ := Option.isSome_iff_exists.mp h₂
  exact h.alone s₁ s₂ (by simp [keep _ _ h₁]) (by simp [keep _ _ h₂])

/-- A writer leaves a clean record alone, so the store stays right about it. -/
theorem writerStep
    (hstamp : ∀ p ∈ w.saves.toList, ∀ slot ∈ p.2.slots, epochOf (w.graph.writerStep a) slot.id =
      some slot.epoch → epochOf w.graph slot.id = some slot.epoch) :
    Sound { w with graph := w.graph.writerStep a } := by
  refine ⟨?_, h.alone, fun s save hs => (h.saves s save hs).writerStep ?_⟩
  · intro id r' hr' hclean
    have hmoved := w.graph.moved_writerStep a id
    rw [show (w.graph.writerStep a).view id = some r' from hr'] at hmoved
    cases hr : w.graph.view id with
    | none => rw [hr] at hmoved; cases hmoved
    | some r =>
      rw [hr] at hmoved
      cases hmoved with
      | some hm =>
        obtain rfl | ⟨hdirty, -⟩ := hm
        · exact h.stored id _ hr hclean
        · rw [hdirty] at hclean
          cases hclean
  · exact fun slot hslot => hstamp (s, save) (Table.mem_toList.mpr hs) slot hslot

/-- An accepted batch overwrites the images of dirty records only. -/
theorem write {s : Nat} {save : Save} (hs : w.saves.find? s = some save) (hready : save.Ready) :
    Sound { w with
      store := w.batch save
      saves := w.saves.insert s { save with clearing := true } } := by
  obtain ⟨htodo, htaken, hclear, hdone⟩ := hready
  have hsave := h.saves s save hs
  have hids : (save.slots.map Slot.id).Nodup := by simpa [htodo] using hsave.nodup
  refine h.replace hs ?_ { hsave with
    dirty := fun hc => Bool.noConfusion hc
    written := fun _ => ⟨htodo, htaken, fun slot hslot => ⟨hdone slot hslot, ?_⟩⟩ }
  · intro id r hr hclean
    simp only [batch]
    split
    · next slot hslot =>
        have hid : slot.id = id := by simpa using List.find?_some hslot
        have hdirty := hsave.dirty hclear slot (List.mem_of_find?_eq_some hslot) r (hid ▸ hr)
        rw [hdirty] at hclean
        cases hclean
    · exact h.stored id r hr hclean
  · simp only [batch, find?_slot hids hslot]

/-- A clear that goes through is of a record whose image is the stored one. -/
theorem clear {s : Nat} {save : Save} (hs : w.saves.find? s = some save)
    (hclear : save.clearing = true) {slot : Slot} {rest : List Slot}
    (hslots : save.slots = slot :: rest) :
    Sound { w with
      graph := w.graph.clearDirtyIf slot.id slot.epoch
      saves := w.saves.insert s { save with slots := rest } } := by
  have hsave := h.saves s save hs
  refine h.replace hs ?_ (hsave.clear hclear hslots)
  intro id r' hr' hclean
  have hslot : slot ∈ save.slots := hslots ▸ List.mem_cons_self
  rw [show (⟨w.graph.clearDirtyIf slot.id slot.epoch, w.store, _⟩ : World).graph.view id =
    (w.graph.clearDirtyIf slot.id slot.epoch).view id from rfl, Graph.view_clearDirtyIf] at hr'
  obtain ⟨r, hr, rfl⟩ := Option.map_eq_some_iff.mp hr'
  by_cases hc : id = slot.id ∧ r.epoch = slot.epoch
  · obtain ⟨rfl, hepoch⟩ := hc
    obtain ⟨-, -, hstore⟩ := hsave.written hclear
    obtain ⟨hnone, himage⟩ := hstore slot hslot
    have hsame : slot.image = r.image := funext fun f =>
      hsave.honest slot hslot r hr hepoch f (by simp [hnone])
    rw [if_pos ⟨rfl, hepoch⟩]
    exact himage.trans (congrArg some hsame)
  · rw [if_neg hc] at hclean ⊢
    exact h.stored id r hr hclean

/-- One step of any party, as long as saves do not overlap and no stamp comes back. -/
theorem step (hok : w.StepOk a) : (w.step a).Sound := by
  cases a with
  | begin s order =>
    simp only [World.step]
    split
    · next hc =>
        have hnone := idle_iff.mp hok
        have only : ∀ s', (((w.saves.insert s { todo := order.map .vertex }).find? s').isSome
            : Prop) → s' = s := by
          intro s' hs'
          rw [Table.find?_insert] at hs'
          split at hs'
          · assumption
          · simp [hnone s'] at hs'
        refine ⟨h.stored, fun s₁ s₂ h₁ h₂ => (only s₁ h₁).trans (only s₂ h₂).symm, ?_⟩
        intro s' save hs'
        obtain rfl := only s' (by simp [hs'])
        rw [Table.find?_insert_self] at hs'
        cases hs'
        exact .begin hc.2.1
    · exact h
  | snapshotEdges s order =>
    simp only [World.step]
    split
    · exact h
    next save hs =>
    split
    · next hc =>
        exact h.replace hs h.stored ((h.saves s save hs).snapshotEdges hc.1 hc.2.1 hc.2.2.1)
    · exact h
  | resolve s =>
    simp only [World.step]
    split
    · exact h
    · next save hs => exact h.replace hs h.stored (h.saves s save hs).resolve
  | copy s id field =>
    simp only [World.step]
    split
    · exact h
    next save hs =>
    split
    · exact h
    · next hc =>
        exact h.replace hs h.stored ((h.saves s save hs).copy (by simpa using hc) id field)
  | write s accepted =>
    simp only [World.step]
    split
    · exact h
    next save hs =>
    split
    · next hready =>
        split
        · exact h.write hs hready
        · exact h.finish s
    · exact h
  | clear s =>
    simp only [World.step]
    split
    · exact h
    next save hs =>
    split
    · next hclear =>
        split
        · exact h.finish s
        · next slot rest hslots => exact h.clear hs hclear hslots
    · exact h
  | editVertex guid edit => exact h.writerStep (a := .editVertex guid edit) hok
  | editEdge edge edit => exact h.writerStep (a := .editEdge edge edit) hok
  | setOrigin edge origin => exact h.writerStep (a := .setOrigin edge origin) hok
  | setTarget edge target => exact h.writerStep (a := .setTarget edge target) hok
  | mark id => exact h.writerStep (a := .mark id) hok

end Sound

/-- From any world without a save in progress, for every interleaving: the indexes name
exactly the dirty records in every state, and while saves do not overlap and no epoch
returns to the stamp of an unfinished save, every clean record has its payload in the
store. -/
theorem noLostUpdate_run {w : World} (hidle : w.Idle) (hindexed : w.graph.DirtyIndexed)
    (hstored : w.Stored) (actions : List Action) :
    (run step w actions).graph.DirtyIndexed ∧
      (Meets step StepOk w actions → (run step w actions).Stored) :=
  ⟨run_invariant (I := fun w : World => w.graph.DirtyIndexed)
      (fun _ a hg => dirtyIndexed_step hg a) hindexed actions,
    fun hops => (Meets.invariant (I := Sound) (fun _ _ hw hok => hw.step hok)
      (.idle hidle hstored) hops).stored⟩

/-- A world with one vertex that was never saved. -/
def unsaved : World where
  graph := (Graph.empty {}).insertVertex 1 (Vertex.new [7])
  store := fun _ => none

/-- Collecting the vertex of `unsaved`, up to the last field. -/
def collecting (s : Nat) : List Action :=
  .begin s [1] :: .resolve s :: (RecordId.vertex 1).fields.map (.copy s (.vertex 1))

/-- The rest of that save. -/
def finishing (s : Nat) : List Action :=
  [.snapshotEdges s [], .write s true, .clear s, .clear s]

theorem unsaved_ready : unsaved.Idle ∧ unsaved.graph.DirtyIndexed ∧ unsaved.Stored := by
  refine ⟨by decide, (Graph.dirtyIndexed_empty {}).insertVertex (by decide) _, ?_⟩
  intro id r hr hclean
  cases id with
  | edge id => simp [unsaved, Graph.view, Graph.empty] at hr
  | vertex guid =>
    simp only [unsaved, Graph.view, Graph.find?_insertVertex] at hr
    split at hr
    · cases hr
      cases hclean
    · simp [Graph.empty] at hr

/-- A write in the middle of a save tears the copy, the clear does not go through, and the
save after it brings the store up to date. -/
theorem noLostUpdate_run_torn :
    let actions := [.begin 0 [1], .resolve 0, .copy 0 (.vertex 1) .content,
      .editVertex 1 (.setContent [9])] ++ (RecordId.vertex 1).fields.map (.copy 0 (.vertex 1)) ++
      finishing 0 ++ collecting 0 ++ finishing 0
    Meets step StepOk unsaved actions ∧ (run step unsaved actions).Stored := by
  have hops : Meets step StepOk unsaved ([.begin 0 [1], .resolve 0, .copy 0 (.vertex 1) .content,
      .editVertex 1 (.setContent [9])] ++ (RecordId.vertex 1).fields.map (.copy 0 (.vertex 1)) ++
      finishing 0 ++ collecting 0 ++ finishing 0) := by
    decide
  exact ⟨hops, (noLostUpdate_run unsaved_ready.1 unsaved_ready.2.1 unsaved_ready.2.2 _).2 hops⟩

/-- Two saves that overlap: the first copies, a write follows, the second saves the new
content and clears the flag, and then the first writes its old copy. -/
theorem overlappingSaves_lose_update :
    let actions := collecting 0 ++ [.editVertex 1 (.setContent [9])] ++
      collecting 1 ++ finishing 1 ++ finishing 0
    unsaved.Idle ∧ unsaved.graph.DirtyIndexed ∧ unsaved.Stored ∧
      (run step unsaved actions).Idle ∧ ¬(run step unsaved actions).Stored := by
  refine ⟨unsaved_ready.1, unsaved_ready.2.1, unsaved_ready.2.2, by decide, ?_⟩
  intro hstored
  generalize hw : run step unsaved _ = w at hstored
  have hclean : (w.graph.view (.vertex 1)).map (fun r => (r.dirty, r.image .content)) =
      some (false, some (.bytes [9])) := by
    rw [← hw]
    decide
  have hold : (w.store (.vertex 1)).map (fun image => image .content) =
      some (some (.bytes [7])) := by
    rw [← hw]
    decide
  obtain ⟨r, hr, hfields⟩ := Option.map_eq_some_iff.mp hclean
  simp only [Prod.mk.injEq] at hfields
  rw [hstored _ r hr hfields.1, Option.map_some, hfields.2] at hold
  simp at hold

end World

end KimixNative.GraphDb
