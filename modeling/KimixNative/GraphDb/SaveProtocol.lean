import KimixNative.GraphDb.DirtyIndex

/-!
# Saves beside concurrent payload writes

A save collects the dirty records, writes one batch and clears the flags of what it wrote.
Payload writes may land between any two of its steps: collecting reads a record's epoch
first and copies its fields one by one afterwards, so a copy can be torn, and the clear
goes through only while the epoch is still the collected one. A `World` is a graph, the
images in the store and the saves in progress; an `Action` is one atomic step of a writer
or of a save. Structural writes do not run during a save, so there are none here.

A save is the only one of its database at a time by contract, and nothing enforces it: any
number of saves may be in progress here, each under its own number.
-/

namespace KimixNative.GraphDb

/-- A record of either table. -/
inductive RecordId where
  | vertex (guid : Guid)
  | edge (id : Guid)
  deriving DecidableEq, Repr

/-- The fields a save copies. -/
inductive Field where
  | keyLabel
  | externalId
  | labels
  | properties
  | content
  | origin
  | target
  | direction
  deriving DecidableEq, Repr

inductive FieldValue where
  | label (value : LabelId)
  | bytes (value : Bytes)
  | labels (value : List LabelId)
  | properties (value : PropertyBag)
  | guid (value : Guid)
  | direction (value : EdgeDirectionType)
  deriving DecidableEq

/-- What is known of a record's payload, field by field. -/
abbrev Image := Field → Option FieldValue

def Vertex.image (v : Vertex) : Image
  | .keyLabel => some (.label v.keyLabel)
  | .externalId => some (.bytes v.externalId)
  | .labels => some (.labels v.labels)
  | .properties => some (.properties v.properties)
  | .content => some (.bytes v.content)
  | .origin | .target | .direction => none

def Edge.image (e : Edge) : Image
  | .origin => some (.guid e.origin)
  | .target => some (.guid e.target)
  | .direction => some (.direction e.direction)
  | .labels => some (.labels e.labels)
  | .properties => some (.properties e.properties)
  | .keyLabel | .externalId | .content => none

/-- The fields a copy of the record consists of. -/
def RecordId.fields : RecordId → List Field
  | .vertex _ => [.keyLabel, .externalId, .labels, .properties, .content]
  | .edge _ => [.origin, .target, .direction, .labels, .properties]

/-- A live record as the save protocol sees it. -/
structure RecordView where
  image : Image
  dirty : Bool
  epoch : BitVec 64

def Vertex.view (v : Vertex) : RecordView := ⟨v.image, v.dirty, v.dirtyEpoch⟩

def Edge.view (e : Edge) : RecordView := ⟨e.image, e.dirty, e.dirtyEpoch⟩

def Graph.view (g : Graph) : RecordId → Option RecordView
  | .vertex guid => (g.vertices.find? guid).map Vertex.view
  | .edge id => (g.edges.find? id).map Edge.view

/-- One collected record: its stamp, the fields still to copy, and those copied. -/
structure Slot where
  id : RecordId
  epoch : BitVec 64
  todo : List Field
  image : Image

/-- A save in progress. `todo` are the ids of the snapshot that were not looked up yet;
`clearing` is set once the batch has been written. -/
structure Save where
  todo : List RecordId := []
  edgesTaken : Bool := false
  slots : List Slot := []
  clearing : Bool := false

structure World where
  graph : Graph
  store : RecordId → Option Image
  saves : Table Nat Save := ∅

/-- One atomic step. A snapshot lists an index in the order the hash set has. -/
inductive Action where
  | editVertex (guid : Guid) (edit : VertexEdit)
  | editEdge (edge : Guid) (edit : EdgeEdit)
  | setOrigin (edge origin : Guid)
  | setTarget (edge target : Guid)
  | mark (id : RecordId)
  | begin (s : Nat) (order : List Guid)
  | snapshotEdges (s : Nat) (order : List Guid)
  | resolve (s : Nat)
  | copy (s : Nat) (id : RecordId) (field : Field)
  | write (s : Nat) (accepted : Bool)
  | clear (s : Nat)

namespace Graph

/-- `mark_dirty` on one record, the first pass of a full save. -/
def markRecord (g : Graph) : RecordId → Graph
  | .vertex guid => g.updateVertex guid Vertex.markDirty
  | .edge id => g.updateEdge id Edge.markDirty

def clearDirtyIf (g : Graph) (id : RecordId) (epoch : BitVec 64) : Graph :=
  match id with
  | .vertex guid => (g.clearVertexDirtyIf guid epoch).1
  | .edge id => (g.clearEdgeDirtyIf id epoch).1

/-- The graph after a writer's action; a save's own steps leave it to `World.step`. -/
def writerStep (g : Graph) : Action → Graph
  | .editVertex guid edit => g.updateVertex guid edit.apply
  | .editEdge edge edit => (edit.perform g edge).1
  | .setOrigin edge origin => (g.edgeSetOrigin edge origin).1
  | .setTarget edge target => (g.edgeSetTarget edge target).1
  | .mark id => g.markRecord id
  | _ => g

end Graph

namespace Save

/-- Look up the next id of the snapshot: a record that is gone or clean by now is
skipped, and the stamp of any other is read before its fields. -/
def resolve (save : Save) (g : Graph) : Save :=
  match save.todo with
  | [] => save
  | id :: rest =>
    match g.view id with
    | some r =>
      if r.dirty then
        { save with
          todo := rest
          slots := save.slots ++ [⟨id, r.epoch, id.fields, fun _ => none⟩] }
      else { save with todo := rest }
    | none => { save with todo := rest }

/-- Copy one field of one collected record. -/
def copy (save : Save) (g : Graph) (id : RecordId) (field : Field) : Save :=
  { save with
    slots := save.slots.map fun slot =>
      if slot.id = id ∧ field ∈ slot.todo then
        { slot with
          todo := slot.todo.filter (· ≠ field)
          image := Function.update slot.image field ((g.view id).bind fun r => r.image field) }
      else slot }

/-- Every record of both snapshots has been copied. -/
def Ready (save : Save) : Prop :=
  save.todo = [] ∧ save.edgesTaken = true ∧ save.clearing = false ∧
    ∀ slot ∈ save.slots, slot.todo = []

instance (save : Save) : Decidable save.Ready := inferInstanceAs (Decidable (_ ∧ _))

end Save

namespace World

/-- Write the collected images. -/
def batch (w : World) (save : Save) : RecordId → Option Image := fun id =>
  match save.slots.find? (·.id = id) with
  | some slot => some slot.image
  | none => w.store id

/-- The world after one action; an action that is not enabled changes nothing. -/
def step (w : World) : Action → World
  | .begin s order =>
    if (w.saves.find? s).isNone ∧ order.Nodup ∧ order.toFinset = w.graph.dirtyVertexIndex then
      { w with saves := w.saves.insert s { todo := order.map .vertex } }
    else w
  | .snapshotEdges s order =>
    match w.saves.find? s with
    | none => w
    | some save =>
      if save.todo = [] ∧ save.edgesTaken = false ∧ order.Nodup ∧
          order.toFinset = w.graph.dirtyEdgeIndex then
        { w with
          saves := w.saves.insert s { save with todo := order.map .edge, edgesTaken := true } }
      else w
  | .resolve s =>
    match w.saves.find? s with
    | none => w
    | some save => { w with saves := w.saves.insert s (save.resolve w.graph) }
  | .copy s id field =>
    match w.saves.find? s with
    | none => w
    | some save =>
      if save.clearing then w
      else { w with saves := w.saves.insert s (save.copy w.graph id field) }
  | .write s accepted =>
    match w.saves.find? s with
    | none => w
    | some save =>
      if save.Ready then
        if accepted then
          { w with
            store := w.batch save
            saves := w.saves.insert s { save with clearing := true } }
        else { w with saves := w.saves.erase s }
      else w
  | .clear s =>
    match w.saves.find? s with
    | none => w
    | some save =>
      if save.clearing then
        match save.slots with
        | [] => { w with saves := w.saves.erase s }
        | slot :: rest =>
          { w with
            graph := w.graph.clearDirtyIf slot.id slot.epoch
            saves := w.saves.insert s { save with slots := rest } }
      else w
  | a => { w with graph := w.graph.writerStep a }

/-- Every clean record has a stored image equal to its payload. -/
def Stored (w : World) : Prop :=
  ∀ id r, w.graph.view id = some r → r.dirty = false → w.store id = some r.image

/-- No save is in progress. -/
def Idle (w : World) : Prop := w.saves.keys = []

def epochOf (g : Graph) (id : RecordId) : Option (BitVec 64) := (g.view id).map RecordView.epoch

/-- The condition on one step: a save begins only when none is in progress, and a write
does not bring the 64-bit epoch of a record back to a stamp that a save still holds. -/
def StepOk (w : World) (a : Action) : Prop :=
  match a with
  | .begin _ _ => w.Idle
  | a =>
    ∀ p ∈ w.saves.toList, ∀ slot ∈ p.2.slots,
      epochOf (w.graph.writerStep a) slot.id = some slot.epoch →
        epochOf w.graph slot.id = some slot.epoch

instance (w : World) : Decidable w.Idle := inferInstanceAs (Decidable (_ = _))

instance (w : World) (a : Action) : Decidable (w.StepOk a) := by
  unfold StepOk
  split
  · infer_instance
  · exact List.decidableBAll _ _

end World

/-! ## What a writer can do to a record -/

namespace RecordView

/-- At most `n` marks apart: nothing happened, or the flag is up and the epoch moved. -/
def Moved (n : Nat) (r r' : RecordView) : Prop :=
  r' = r ∨ r'.dirty = true ∧ ∃ k, 0 < k ∧ k ≤ n ∧ r'.epoch = r.epoch + BitVec.ofNat 64 k

namespace Moved

variable {m n : Nat} {r r' r'' : RecordView}

theorem refl (n : Nat) (r : RecordView) : Moved n r r := .inl rfl

theorem trans (h : Moved m r r') (h' : Moved n r' r'') : Moved (m + n) r r'' := by
  obtain rfl | ⟨hd, k, hk, hkm, he⟩ := h
  · exact h'.imp_right fun ⟨hd, k, hk, hkn, he⟩ => ⟨hd, k, hk, by omega, he⟩
  · obtain rfl | ⟨hd', k', hk', hkn, he'⟩ := h'
    · exact .inr ⟨hd, k, hk, by omega, he⟩
    · refine .inr ⟨hd', k + k', by omega, by omega, ?_⟩
      rw [he', he, BitVec.ofNat_add, BitVec.add_assoc]

/-- A record whose epoch is back where it was has not changed. -/
theorem eq_of_epoch (h : Moved n r r') (hn : n < 2 ^ 64) (he : r'.epoch = r.epoch) : r' = r := by
  obtain heq | ⟨-, k, hk, hkn, hk'⟩ := h
  · exact heq
  · exfalso
    rw [he] at hk'
    have hzero : BitVec.ofNat 64 k = 0 := by
      exact BitVec.self_eq_add_right.mp hk'
    have hmod := congrArg BitVec.toNat hzero
    simp only [BitVec.toNat_ofNat, BitVec.ofNat_eq_ofNat] at hmod
    rw [Nat.mod_eq_of_lt (by omega)] at hmod
    omega

/-- No writer takes the flag down. -/
theorem dirty (h : Moved n r r') (hd : r.dirty = true) : r'.dirty = true := by
  obtain rfl | ⟨hd', -⟩ := h
  · exact hd
  · exact hd'

end Moved

end RecordView

namespace Graph

open RecordView

/-- Every record of the second graph is at most `n` marks from its record in the first. -/
def Moved (n : Nat) (g g' : Graph) : Prop :=
  ∀ id, Option.Rel (RecordView.Moved n) (g.view id) (g'.view id)

namespace Moved

variable {m n : Nat} {g g' g'' : Graph}

theorem refl (n : Nat) (g : Graph) : Moved n g g := by
  intro id
  cases g.view id with
  | none => exact .none
  | some r => exact .some (.refl n r)

theorem trans (h : Moved m g g') (h' : Moved n g' g'') : Moved (m + n) g g'' := by
  intro id
  have hid := h id
  have hid' := h' id
  revert hid hid'
  generalize g.view id = a, g'.view id = b, g''.view id = c
  intro hid hid'
  cases hid with
  | none => cases hid'; exact .none
  | some h₁ =>
    cases hid' with
    | some h₂ => exact .some (h₁.trans h₂)

theorem updateVertex (g : Graph) (guid : Guid) {f : Vertex → Vertex}
    (hf : ∀ v, RecordView.Moved n v.view (f v).view) : Moved n g (g.updateVertex guid f) := by
  intro id
  cases id with
  | edge id => simpa [view] using Moved.refl n g (.edge id)
  | vertex w =>
    simp only [view, find?_updateVertex]
    split
    · next hw =>
        subst hw
        cases g.vertices.find? w with
        | none => exact .none
        | some v => exact .some (hf v)
    · exact Moved.refl n g (.vertex w)

theorem updateEdge (g : Graph) (id : Guid) {f : Edge → Edge}
    (hf : ∀ e, g.edges.find? id = some e → RecordView.Moved n e.view (f e).view) :
    Moved n g (g.updateEdge id f) := by
  intro d
  cases d with
  | vertex w => simpa [view] using Moved.refl n g (.vertex w)
  | edge d =>
    simp only [view, find?_updateEdge]
    split
    · next hd =>
        subst hd
        cases he : g.edges.find? d with
        | none => exact .none
        | some e => exact .some (hf e he)
    · exact Moved.refl n g (.edge d)

end Moved

end Graph

open RecordView

theorem Vertex.moved_markDirty (v : Vertex) (image : Image) :
    RecordView.Moved 1 v.view ⟨image, true, v.dirtyEpoch + 1⟩ :=
  .inr ⟨rfl, 1, by decide, by decide, rfl⟩

theorem Edge.moved_markDirty (e : Edge) (image : Image) :
    RecordView.Moved 1 e.view ⟨image, true, e.dirtyEpoch + 1⟩ :=
  .inr ⟨rfl, 1, by decide, by decide, rfl⟩

/-- Counting no removal means that the bag is the old one. -/
private theorem removeProperties_count (names : List PropNameId) (acc : PropertyBag × Nat) :
    let r := names.foldl (fun (acc : PropertyBag × Nat) name =>
      if (acc.1.find? name).isSome then (acc.1.erase name, acc.2 + 1) else acc) acc
    acc.2 ≤ r.2 ∧ (r.2 = acc.2 → r = acc) := by
  induction names generalizing acc with
  | nil => exact ⟨Nat.le_refl _, fun _ => rfl⟩
  | cons name rest ih =>
    simp only [List.foldl_cons]
    split
    · obtain ⟨hle, -⟩ := ih (acc.1.erase name, acc.2 + 1)
      simp only at hle ⊢
      exact ⟨by omega, fun h => by omega⟩
    · exact ih acc

/-- A payload edit of a vertex does nothing or marks it once. -/
theorem VertexEdit.moved_apply (edit : VertexEdit) (v : Vertex) :
    RecordView.Moved 1 v.view (edit.apply v).view := by
  cases edit with
  | setContent content => exact v.moved_markDirty _
  | addLabel label =>
    simp only [apply, Vertex.addLabel]
    split
    · exact .refl 1 _
    · exact v.moved_markDirty _
  | removeLabel label =>
    simp only [apply, Vertex.removeLabel]
    split
    · exact v.moved_markDirty _
    · exact .refl 1 _
  | addProperty name value =>
    simp only [apply, Vertex.addProperty]
    split
    · exact .refl 1 _
    · exact v.moved_markDirty _
  | setProperty name value =>
    simp only [apply, Vertex.setProperty]
    split
    · exact v.moved_markDirty _
    · exact .refl 1 _
  | putProperty name value => exact v.moved_markDirty _
  | removeProperties names =>
    simp only [apply, Vertex.removeProperties]
    split
    · exact v.moved_markDirty _
    · next h =>
        have hsame := (removeProperties_count names (v.properties, 0)).2 (not_not.mp h)
        rw [hsame]
        exact .refl 1 _
  | restorePayload labels properties => exact v.moved_markDirty _

namespace Graph

variable (g : Graph)

theorem moved_linkEdge (id o t : Guid) : Moved 2 g (g.linkEdge id o t) :=
  (Moved.updateVertex (n := 1) g o fun v => v.moved_markDirty _).trans
    (Moved.updateVertex (n := 1) _ t fun v => v.moved_markDirty _)

theorem moved_unlinkEdge (id o t : Guid) : Moved 2 g (g.unlinkEdge id o t) := by
  refine (Moved.updateVertex (n := 1) g o fun v => ?_).trans
    (Moved.updateVertex (n := 1) _ t fun v => ?_)
  · unfold Vertex.removeOutLink
    split
    · exact v.moved_markDirty _
    · exact .refl 1 _
  · unfold Vertex.removeInLink
    split
    · exact v.moved_markDirty _
    · exact .refl 1 _

/-- A move marks the edge once and an endpoint up to four times. -/
theorem moved_moveEdgeEndpoint (edge endpoint : Guid) (moveOrigin : Bool) :
    Moved 5 g (g.moveEdgeEndpoint edge endpoint moveOrigin).1 := by
  obtain ⟨status, heq, -⟩ | ⟨e, o, t, -, -, -, -, -, -, heq⟩ :=
    g.moveEdgeEndpoint_cases edge endpoint moveOrigin
  · rw [heq]
    exact .refl 5 g
  · rw [heq]
    exact ((g.moved_unlinkEdge _ _ _).trans (moved_linkEdge _ _ _ _)).trans
      (Moved.updateEdge (n := 1) _ edge fun e _ => e.moved_markDirty _)

/-- Every writer leaves a record alone or raises its flag and moves its epoch. -/
theorem moved_writerStep (a : Action) : Moved 5 g (g.writerStep a) := by
  cases a with
  | editVertex guid edit =>
    exact (Moved.refl 4 g).trans (Moved.updateVertex (n := 1) g guid edit.moved_apply)
  | editEdge edge edit =>
    simp only [writerStep]
    obtain ⟨status, heq⟩ | ⟨e, e', he, -, hepoch, heq⟩ := edit.perform_result g edge
    · rw [heq]
      exact .refl 5 g
    · rw [heq]
      refine (Moved.refl 4 g).trans (Moved.updateEdge (n := 1) g edge fun r hr => ?_)
      obtain rfl : e = r := Option.some.inj (he.symm.trans hr)
      exact .inr ⟨rfl, 1, by decide, by decide, congrArg (· + 1) hepoch⟩
  | setOrigin edge origin => exact g.moved_moveEdgeEndpoint edge origin true
  | setTarget edge target => exact g.moved_moveEdgeEndpoint edge target false
  | mark id =>
    cases id with
    | vertex guid =>
      exact (Moved.refl 4 g).trans
        (Moved.updateVertex (n := 1) g guid fun v => v.moved_markDirty _)
    | edge id =>
      exact (Moved.refl 4 g).trans
        (Moved.updateEdge (n := 1) g id fun e _ => e.moved_markDirty _)
  | _ => exact .refl 5 g

end Graph

end KimixNative.GraphDb
