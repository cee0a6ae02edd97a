import KimixNative.GraphDb.Reading

/-!
# The rollback, read back

`Reading.undo` is the rollback of one journal entry in terms of what a caller can read.
A `Sound` database has coherent links and registries in order; there `reading_undo` says
that the rollback in the database and the rollback of its reading agree, so that later
arguments about undoing are arguments about readings.
-/

namespace KimixNative.GraphDb

namespace GraphReading

/-- The cascade's edges go back one by one. -/
def adoptEdges (R : GraphReading) (allowSelf : Bool) (edges : List (Guid × Edge)) : GraphReading :=
  edges.foldl (fun R e => R.adoptEdge allowSelf e.1 e.2.reading) R

end GraphReading

namespace Reading

def mapGraph (R : Reading) (f : GraphReading → GraphReading) : Reading :=
  { R with graph := f R.graph }

def mapSchema (R : Reading) (f : SchemaReading → SchemaReading) : Reading :=
  { R with schema := f R.schema }

/-- One entry of the rollback. -/
noncomputable def undo (allowSelf : Bool) (R : Reading) : JournalEntry → Reading
  | .vertexCreated uid => R.mapGraph (·.removeVertex uid)
  | .vertexRemoved uid labels properties vertex removedEdges =>
    R.mapGraph fun G =>
      (G.adoptVertex uid (vertex.1.reading.restore labels properties)).adoptEdges allowSelf
        removedEdges
  | .vertexPayload uid labels properties =>
    R.mapGraph fun G => G.setVertex uid ((G.vertices uid).map (·.restore labels properties))
  | .edgeCreated uid => R.mapGraph (·.setEdge uid none)
  | .edgeRemoved record =>
    R.mapGraph (·.adoptEdge allowSelf record.id (Database.restoredEdge record).reading)
  | .edgeState record => R.mapGraph (·.restoreEdge record.id record.reading)
  | .labelCreated label => R.mapSchema (·.setLabel label none)
  | .labelRenamed label name => R.mapSchema (·.renameLabel label name)
  | .labelFreed label name => R.mapSchema (·.restoreLabel label name)
  | .propertyTypeCreated property => R.mapSchema (·.setType property none)
  | .propertyTypeUpdated property info => R.mapSchema (·.updatePropertyType property info)
  | .propertyTypeFreed _ info => R.mapSchema (·.restorePropertyType info)

/-- The whole journal, from its end. -/
noncomputable def rollback (allowSelf : Bool) (R : Reading) (journal : List JournalEntry) :
    Reading :=
  journal.reverse.foldl (undo allowSelf) R

theorem rollback_append (allowSelf : Bool) (R : Reading) (first later : List JournalEntry) :
    R.rollback allowSelf (first ++ later) =
      (R.rollback allowSelf later).rollback allowSelf first := by
  simp [rollback, List.foldl_append]

@[simp] theorem rollback_singleton (allowSelf : Bool) (R : Reading) (entry : JournalEntry) :
    R.rollback allowSelf [entry] = R.undo allowSelf entry := rfl

end Reading

/-- What every record in a journal is: a freed property type can be registered again as it
was, and no recorded edge carries the reserved label. -/
def JournalEntry.Restorable : JournalEntry → Prop
  | .vertexRemoved _ _ _ _ removedEdges => ∀ e ∈ removedEdges, kNoLabel ∉ e.2.labels
  | .edgeState record => kNoLabel ∉ record.labels
  | .propertyTypeFreed _ info => info.Stored info.nameId
  | _ => True

namespace Database

/-- Links and registries are in order. -/
structure Sound (db : Database) : Prop where
  linked : db.graph.Linked
  schema : db.schema.WellFormed

theorem sound_empty (options : GraphOptions) (sizes : EntrySizes) : (empty options sizes).Sound :=
  ⟨Graph.linked_empty options, Schema.wellFormed_empty⟩

variable {db : Database}

theorem linked_adoptEdges {g : Graph} (h : g.Linked) (edges : List (Guid × Edge)) :
    (adoptEdges g edges).Linked := by
  induction edges generalizing g with
  | nil => exact h
  | cons e rest ih => exact ih (h.adoptEdge e.1 e.2)

theorem linked_restoreEdgeState {g : Graph} (h : g.Linked) (record : EdgeRecord) :
    (restoreEdgeState g record).Linked := by
  have payload : ∀ {g : Graph}, g.Linked → ∀ d labels properties,
      (g.edgeRestorePayload d labels properties).Linked := by
    intro g hg d labels properties
    have hsame : (g.edgeRestorePayload d labels properties).incidence = g.incidence := by
      refine Graph.incidence_congr (by simp [Graph.edgeRestorePayload]) fun c => ?_
      simp only [Graph.edgeRestorePayload, Graph.find?_updateEdge]
      split
      · next hc =>
          subst hc
          rw [Option.map_map]
          rfl
      · rfl
    unfold Graph.Linked
    rw [hsame]
    exact hg
  unfold restoreEdgeState
  split
  · exact h
  · refine payload (Graph.Linked.step ?_ (.editEdge record.id (.setDirection record.direction.code))) ..
    split
    · refine Graph.Linked.moveEdgeEndpoint ?_ _ _ _
      split
      · exact h.moveEdgeEndpoint ..
      · exact h
    · split
      · exact h.moveEdgeEndpoint ..
      · exact h

/-- Undoing a restorable entry keeps links and registries in order. -/
theorem Sound.undo (h : db.Sound) {entry : JournalEntry} (hentry : entry.Restorable) :
    (db.undo entry).Sound := by
  cases entry with
  | vertexCreated uid => exact ⟨h.linked.removeVertex uid, h.schema⟩
  | vertexRemoved uid labels properties vertex removedEdges =>
    exact ⟨linked_adoptEdges (h.linked.adoptVertex ..) _, h.schema⟩
  | vertexPayload uid labels properties =>
    exact ⟨h.linked.updateVertex uid fun _ => ⟨rfl, rfl⟩, h.schema⟩
  | edgeCreated uid => exact ⟨h.linked.step (.edgeFree uid), h.schema⟩
  | edgeRemoved record => exact ⟨h.linked.adoptEdge .., h.schema⟩
  | edgeState record => exact ⟨linked_restoreEdgeState h.linked record, h.schema⟩
  | labelCreated label => exact ⟨h.linked, h.schema.freeLabel label⟩
  | labelRenamed label name => exact ⟨h.linked, h.schema.renameLabel label name⟩
  | labelFreed label name => exact ⟨h.linked, h.schema.restoreLabel label name⟩
  | propertyTypeCreated property => exact ⟨h.linked, h.schema.freePropertyType property⟩
  | propertyTypeUpdated property info =>
    exact ⟨h.linked, h.schema.updatePropertyType property info false⟩
  | propertyTypeFreed property info => exact ⟨h.linked, h.schema.restorePropertyType hentry⟩

theorem options_adoptEdges (g : Graph) (edges : List (Guid × Edge)) :
    (adoptEdges g edges).options = g.options := by
  induction edges generalizing g with
  | nil => rfl
  | cons e rest ih => exact (ih _).trans (g.step_options (.adoptEdge e.1 e.2))

@[simp] theorem undo_options (db : Database) (entry : JournalEntry) :
    (db.undo entry).graph.options = db.graph.options := by
  cases entry with
  | vertexCreated uid => exact db.graph.step_options (.removeVertex uid)
  | vertexRemoved uid labels properties vertex removedEdges =>
    exact (options_adoptEdges _ _).trans (db.graph.step_options (.adoptVertex uid _))
  | vertexPayload uid labels properties => simp [undo]
  | edgeCreated uid => exact db.graph.step_options (.edgeFree uid)
  | edgeRemoved record => exact db.graph.step_options (.adoptEdge ..)
  | edgeState record =>
    simp only [undo, restoreEdgeState]
    split
    · rfl
    · simp only [Graph.edgeRestorePayload, Graph.updateEdge_options]
      refine (Graph.step_options _ (.editEdge record.id
        (.setDirection record.direction.code))).trans ?_
      split
      · refine (Graph.step_options _ (.edgeSetTarget record.id record.target)).trans ?_
        split
        · exact Graph.step_options _ (.edgeSetOrigin record.id record.origin)
        · rfl
      · split
        · exact Graph.step_options _ (.edgeSetOrigin record.id record.origin)
        · rfl
  | labelCreated label => rfl
  | labelRenamed label name => rfl
  | labelFreed label name => rfl
  | propertyTypeCreated property => rfl
  | propertyTypeUpdated property info => rfl
  | propertyTypeFreed property info => rfl

theorem reading_adoptEdges (g : Graph) (edges : List (Guid × Edge)) :
    (adoptEdges g edges).reading = g.reading.adoptEdges g.options.allowSelfEdges edges := by
  induction edges generalizing g with
  | nil => rfl
  | cons e rest ih =>
    refine (ih _).trans ?_
    rw [show (g.adoptEdge e.1 e.2).1.options = g.options from
      g.step_options (.adoptEdge e.1 e.2), g.reading_adoptEdge]
    rfl

/-- The rollback of one entry and its reading commute. -/
theorem reading_undo (h : db.Sound) (entry : JournalEntry) :
    (db.undo entry).reading = db.reading.undo db.graph.options.allowSelfEdges entry := by
  cases entry with
  | vertexCreated uid =>
    exact congrArg (Reading.mk · _) (db.graph.reading_removeVertex h.linked uid)
  | vertexRemoved uid labels properties vertex removedEdges =>
    refine congrArg (Reading.mk · _) ?_
    refine (reading_adoptEdges _ _).trans ?_
    have hoptions := db.graph.step_options
      (.adoptVertex uid ⟨vertex.1.restorePayload labels properties, vertex.2⟩)
    simp only [Graph.step] at hoptions
    rw [hoptions]
    exact congrArg (GraphReading.adoptEdges · _ _) (db.graph.reading_adoptVertex uid _)
  | vertexPayload uid labels properties =>
    refine congrArg (Reading.mk · _) ((db.graph.reading_updateVertex uid _).trans ?_)
    simp only [reading, Graph.reading_vertices, Option.map_map]
    rfl
  | edgeCreated uid => exact congrArg (Reading.mk · _) (db.graph.reading_edgeFree uid)
  | edgeRemoved record => exact congrArg (Reading.mk · _) (db.graph.reading_adoptEdge ..)
  | edgeState record =>
    exact congrArg (Reading.mk · _) (Graph.reading_restoreEdgeState h.linked record)
  | labelCreated label => exact congrArg (Reading.mk _) (Schema.reading_freeLabel h.schema label)
  | labelRenamed label name =>
    exact congrArg (Reading.mk _) (Schema.reading_renameLabel h.schema label name)
  | labelFreed label name =>
    exact congrArg (Reading.mk _) (Schema.reading_restoreLabel h.schema label name)
  | propertyTypeCreated property =>
    exact congrArg (Reading.mk _) (Schema.reading_freePropertyType h.schema property)
  | propertyTypeUpdated property info =>
    exact congrArg (Reading.mk _) (Schema.reading_updatePropertyType h.schema property info)
  | propertyTypeFreed property info =>
    exact congrArg (Reading.mk _) (Schema.reading_restorePropertyType h.schema info)

/-- The rollback of a journal and its reading commute. -/
theorem reading_rollback (h : db.Sound) {journal : List JournalEntry}
    (hjournal : ∀ entry ∈ journal, entry.Restorable) :
    (db.rollback journal).Sound ∧
      (db.rollback journal).graph.options = db.graph.options ∧
      (db.rollback journal).reading =
        db.reading.rollback db.graph.options.allowSelfEdges journal := by
  induction journal using List.reverseRecOn generalizing db with
  | nil => exact ⟨h, rfl, rfl⟩
  | append_singleton rest entry ih =>
    have hentry := hjournal entry (by simp)
    obtain ⟨hs, ho, hr⟩ := ih (h.undo hentry) fun e he => hjournal e (by simp [he])
    have hstep : db.rollback (rest ++ [entry]) = (db.undo entry).rollback rest := by
      simp [rollback]
    rw [hstep, Reading.rollback_append, Reading.rollback_singleton, ← reading_undo h entry]
    refine ⟨hs, ho.trans (db.undo_options entry), ?_⟩
    rw [hr, db.undo_options entry]

end Database

end KimixNative.GraphDb
