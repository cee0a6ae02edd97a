import KimixNative.GraphDb.Strip

/-!
# An aborted transaction

`abort` replays the journal from its end. It leads back to the database before
`begin_transaction` when every command of the transaction recorded exactly what it did.
`Reversible` is the condition on one command, in the state it runs in:

* a create that only warns about a taken key journals the old vertex as created, so the
  abort removes it;
* a freed vertex whose record does not fit is lost, one that the key lookup does not name
  comes back under its key, and its self loops come back only where the policy allows them;
* a freed label or property type whose strip records do not all fit comes back without some
  of its carriers;
* an id counter that has come round to an id in use registers a second entry under it.
-/

namespace KimixNative.GraphDb

namespace Database

/-- The condition on one command of a transaction. -/
def Reversible (db : Database) : Command → Prop
  | .createVertex key labels properties _ => db.warnsOfTaken key labels properties = false
  | .freeVertex uid => db.RemovalReversible uid
  | .freeVertexGuarded uid =>
    db.graph.hasIncidentEdges uid .both = false → db.RemovalReversible uid
  | .edgeFree edge => db.LoopReversible edge
  | .createLabel _ | .createPropertyType _ => db.FreshIds
  | .freeLabel label =>
    db.labelIsAKey label = false → db.StripFits
      (.labelFreed label (db.schema.labelName label)) (·.labels.contains label)
      (·.labels.contains label)
  | .freePropertyType property =>
    db.StripFits (.propertyTypeFreed property (db.schema.propertyType property))
      (fun v => (v.properties.find? property).isSome)
      (fun e => (e.properties.find? property).isSome)
  | _ => True

/-- The condition on one command that keeps the registries in order. -/
def KeepsIds (db : Database) : Command → Prop
  | .createLabel _ | .createPropertyType _ => db.FreshIds
  | _ => True

variable {db : Database}

variable {command : Command} {I : Database → Prop} {continueOnError : Bool}

theorem Reversible.keepsIds (h : db.Reversible command) : db.KeepsIds command := by
  cases command <;> first | exact h | exact trivial

variable {strict : Bool} {rows : List VertexBulkRow} {commands : List Command}

/-- Every command advances the database; a reversible one by exact moves. -/
theorem advance_apply (h : db.WellFormed) (ids : db.KeepsIds command)
    (ok : strict = true → db.Reversible command) : Advance strict db (db.apply command).1 := by
  cases command with
  | createVertex key labels properties minted => exact advance_createVertex h minted ok
  | getOrCreateVertex key labels properties minted => exact advance_getOrCreateVertex h ..
  | freeVertex uid => exact advance_freeVertex h uid ok
  | freeVertexGuarded uid => exact advance_freeVertexGuarded h uid ok
  | addLabel uid label =>
    refine advance_editVertex h uid _ (by simp) fun hcheck => ?_
    have hhas : db.schema.hasLabel label = true := by
      cases hl : db.schema.hasLabel label with
      | true => rfl
      | false => simp [hl, GdiStatus.isError] at hcheck
    simp only [VertexEdit.newLabels, List.mem_singleton]
    rintro rfl
    rw [h.sound.schema.hasLabel_kNoLabel] at hhas
    cases hhas
  | removeLabel uid label => exact advance_editVertex h uid _ (by simp) (by simp [VertexEdit.newLabels])
  | addProperty uid name value =>
    exact advance_editVertex h uid _ (by simp) (by simp [VertexEdit.newLabels])
  | setProperty uid name value =>
    exact advance_editVertex h uid _ (by simp) (by simp [VertexEdit.newLabels])
  | updateProperty uid name value =>
    exact advance_editVertex h uid _ (by simp) (by simp [VertexEdit.newLabels])
  | removeProperties uid names =>
    exact advance_editVertex h uid _ (by simp) (by simp [VertexEdit.newLabels])
  | edgeCreate origin target direction labels properties chosenUid minted =>
    exact advance_edgeCreate h ..
  | edgeFree edge => exact advance_edgeFree h edge ok
  | setEdgeOrigin edge origin => exact advance_moveEdgeEndpoint h edge origin true
  | setEdgeTarget edge target => exact advance_moveEdgeEndpoint h edge target false
  | setEdgeDirection edge direction => exact advance_editEdge h edge _
  | addEdgeLabel edge label => exact advance_editEdge h edge _
  | removeEdgeLabel edge label => exact advance_editEdge h edge _
  | addEdgeProperty edge name value => exact advance_editEdge h edge _
  | setEdgeProperty edge name value => exact advance_editEdge h edge _
  | updateEdgeProperty edge name value => exact advance_editEdge h edge _
  | removeEdgeProperties edge names => exact advance_editEdge h edge _
  | createLabel name => exact advance_createLabel h name ids
  | updateLabel label newName => exact advance_updateLabel h label newName
  | freeLabel label => exact advance_freeLabel h label ok
  | createPropertyType info => exact advance_createPropertyType h info ids
  | updatePropertyType property info => exact advance_updatePropertyType h property info
  | freePropertyType property => exact advance_freePropertyType h property ok

/-! ## Reachable databases -/

/-- A database whose journal, if one is open, holds only records that can be restored. -/
structure Restorable (db : Database) : Prop where
  wellFormed : db.WellFormed
  journal : ∀ tx, db.tx = some tx → ∀ entry ∈ tx.journal, entry.Restorable

/-- A change that is a sequence of recorded moves keeps the journal restorable. -/
theorem Advance.restorable {db' : Database} (hadvance : Advance strict db db') (h : db.Restorable) :
    db'.Restorable := by
  refine ⟨hadvance.wellFormed, ?_⟩
  obtain ⟨entries, hentries, -, hjournal⟩ := hadvance.recorded
  intro tx' htx' entry hentry
  rw [htx'] at hjournal
  obtain ⟨tx, htx, hextends⟩ := hjournal.of_some
  rw [hextends.journal] at hentry
  exact (List.mem_append.mp hentry).elim (h.journal tx htx entry) (hentries entry)

theorem WellFormed.withTx (h : db.WellFormed) (tx' : Option Transaction) :
    ({ db with tx := tx' } : Database).WellFormed :=
  ⟨⟨h.sound.linked, h.sound.schema⟩, h.labelled⟩

/-- The rollback of a restorable journal. -/
theorem WellFormed.rollback (h : db.WellFormed) {journal : List JournalEntry}
    (hjournal : ∀ entry ∈ journal, entry.Restorable) : (db.rollback journal).WellFormed := by
  obtain ⟨hsound, -, hread⟩ := reading_rollback h.sound hjournal
  have hlabelled := h.labelled.rollback db.graph.options.allowSelfEdges hjournal
  rw [← hread] at hlabelled
  exact ⟨hsound, hlabelled⟩

theorem Restorable.withTx (h : db.Restorable) {tx' : Option Transaction}
    (hempty : ∀ tx, tx' = some tx → tx.journal = []) :
    ({ db with tx := tx' } : Database).Restorable where
  wellFormed := h.wellFormed.withTx tx'
  journal := by
    intro tx htx entry hentry
    rw [hempty tx htx] at hentry
    cases hentry

theorem rollback_tx (db : Database) (journal : List JournalEntry) :
    (db.rollback journal).tx = db.tx := by
  have hundo : ∀ (db : Database) entry, (db.undo entry).tx = db.tx := by
    intro db entry
    cases entry <;> rfl
  unfold rollback
  induction journal.reverse generalizing db with
  | nil => rfl
  | cons entry rest ih => exact (ih (db.undo entry)).trans (hundo db entry)

theorem Restorable.rollbackOpen (h : db.Restorable) : db.rollbackOpen.Restorable := by
  unfold Database.rollbackOpen
  cases htx : db.tx with
  | none => exact h
  | some tx =>
    refine ⟨(h.wellFormed.rollback (h.journal tx htx)).withTx _, ?_⟩
    rintro tx' ⟨⟩ entry hentry
    cases hentry

theorem Restorable.abort (h : db.Restorable) : db.abort.1.Restorable := by
  unfold Database.abort
  cases htx : db.tx with
  | none => exact h
  | some tx =>
    refine ⟨(h.wellFormed.withTx none).rollback (h.journal tx htx), ?_⟩
    intro tx' htx'
    have hnone := rollback_tx { db with tx := none } tx.journal
    rw [show (rollback { db with tx := none } tx.journal).tx = some tx' from htx'] at hnone
    cases hnone

/-- What every row and the rollback of the batch keep, the rows of a batch keep. -/
theorem createVertexRows_invariant
    (hrow : ∀ (db : Database), ∀ row ∈ rows, I db → I (db.createVertex row.key row.labels
      row.properties row.minted).1) (hrollback : ∀ db : Database, I db → I db.rollbackOpen)
    (h : I db) (stats : BulkStats) : I (createVertexRows continueOnError db stats rows).1 := by
  induction rows generalizing db stats with
  | nil => exact h
  | cons row rest ih =>
    have hhead := hrow db row List.mem_cons_self h
    unfold createVertexRows
    simp only
    split
    · exact hrollback _ hhead
    · exact ih (fun db r hr => hrow db r (List.mem_cons_of_mem _ hr)) hhead _

theorem createEdgeRows_invariant {rows : List EdgeBulkRow}
    (hrow : ∀ (db : Database), ∀ row ∈ rows, I db → I (db.edgeCreate row.origin row.target
      row.direction row.labels row.properties row.uid row.minted).1) (h : I db) (stats : BulkStats) :
    I (createEdgeRows continueOnError db stats rows).1 := by
  induction rows generalizing db stats with
  | nil => exact h
  | cons row rest ih =>
    have hhead := hrow db row List.mem_cons_self h
    unfold createEdgeRows
    simp only
    split
    · exact hhead
    · exact ih (fun db r hr => hrow db r (List.mem_cons_of_mem _ hr)) hhead _

/-- A batch runs in the open transaction or in one of its own. -/
theorem createVerticesBulk_invariant
    (hrow : ∀ (db : Database), ∀ row ∈ rows, I db → I (db.createVertex row.key row.labels
      row.properties row.minted).1) (hrollback : ∀ db : Database, I db → I db.rollbackOpen)
    (hopen : ∀ (db : Database) tx, db.tx = none → tx.journal = [] → I db → I { db with tx := some tx
      }) (hclose : ∀ db : Database, I db → I { db with tx := none }) (h : I db) (stats : BulkStats) :
    I (db.createVerticesBulk rows continueOnError stats).1 := by
  unfold createVerticesBulk
  split
  · exact h
  · simp only
    cases htx : db.tx with
    | some tx =>
      simp only [Option.isNone_some, Bool.false_eq_true, if_false]
      exact createVertexRows_invariant hrow hrollback h _
    | none =>
      simp only [Option.isNone_none, if_true]
      refine hclose _ (createVertexRows_invariant hrow hrollback ?_ _)
      exact hopen db _ htx rfl h

theorem beginTransaction_of_none (htx : db.tx = none) (readOnly : Bool) :
    db.beginTransaction readOnly =
      ({ db with
        tx := some { maxJournalBytes := db.graph.options.maxJournalBytes, readOnly } }, .ok) := by
  simp [beginTransaction, htx]

theorem beginTransaction_of_some {tx : Transaction} (htx : db.tx = some tx) (readOnly : Bool) :
    db.beginTransaction readOnly = (db, .errorTransaction) := by
  simp [beginTransaction, htx]

/-- A call keeps what commands, the rows of the batches, the rollback and a transaction without
journal keep. -/
theorem step_invariant {call : Call} (hcommand : ∀ command, call = .command command →
      I (db.apply command).1)
    (hvertex : ∀ (db : Database) (row : VertexBulkRow), I db →
      I (db.createVertex row.key row.labels row.properties row.minted).1)
    (hedge : ∀ (db : Database) (row : EdgeBulkRow), I db → I (db.edgeCreate row.origin row.target
      row.direction row.labels row.properties row.uid row.minted).1)
    (hrollback : ∀ db : Database, I db → I db.rollbackOpen)
    (hempty : ∀ (db : Database) (tx' : Option Transaction),
      (∀ tx, tx' = some tx → tx.journal = []) → I db → I { db with tx := tx' })
    (habort : I db.abort.1) (h : I db) : I (db.step call) := by
  have hcommit : I db.commit.1 := by
    unfold commit
    split
    · exact h
    · exact hempty db none (by rintro tx ⟨⟩) h
  cases call with
  | command command => exact hcommand command rfl
  | createVerticesBulk rows continueOnError =>
    refine createVerticesBulk_invariant (fun db row _ => hvertex db row) hrollback ?_ ?_ h {}
    · intro db tx _ hjournal
      exact hempty db (some tx) (by rintro tx' ⟨⟩; exact hjournal)
    · intro db
      exact hempty db none (by rintro tx' ⟨⟩)
  | createEdgesBulk rows continueOnError =>
    simp only [Database.step, createEdgesBulk]
    split
    · exact h
    · exact createEdgeRows_invariant (fun db row _ => hedge db row) h {}
  | beginTransaction readOnly =>
    simp only [Database.step]
    cases htx : db.tx with
    | some tx =>
      rw [beginTransaction_of_some htx]
      exact h
    | none =>
      rw [beginTransaction_of_none htx]
      exact hempty db _ (by rintro tx ⟨⟩; rfl) h
  | commit => exact hcommit
  | abort => exact habort
  | beginCollective =>
    simp only [Database.step, beginCollective]
    cases htx : db.tx with
    | some tx =>
      rw [beginTransaction_of_some htx]
      exact h
    | none =>
      rw [beginTransaction_of_none htx]
      exact hempty db _ (by rintro tx ⟨⟩; rfl) h
  | closeCollective commitIt =>
    simp only [Database.step, closeCollective]
    split
    · exact h
    · split
      · split
        · exact hcommit
        · exact habort
      · exact h

/-- The condition on one call. -/
def CallKeepsIds (db : Database) : Call → Prop
  | .command command => db.KeepsIds command
  | _ => True

theorem Restorable.step (h : db.Restorable) {call : Call} (ids : db.CallKeepsIds call) :
    (db.step call).Restorable := by
  refine step_invariant ?_ ?_ ?_ (fun _ => Restorable.rollbackOpen)
    (fun _ _ hempty hdb => hdb.withTx hempty) h.abort h
  · rintro command rfl
    have hadvance : Advance false db (db.apply command).1 :=
      advance_apply h.wellFormed ids (by simp)
    exact hadvance.restorable h
  · intro db row hdb
    have hadvance : Advance false db
        (db.createVertex row.key row.labels row.properties row.minted).1 :=
      advance_createVertex hdb.wellFormed row.minted (by simp)
    exact hadvance.restorable hdb
  · intro db row hdb
    have hadvance : Advance false db _ := advance_edgeCreate hdb.wellFormed row.origin
      row.target row.direction row.labels row.properties row.uid row.minted
    exact hadvance.restorable hdb

/-- Every database reached from an empty one is in order, as long as the id counters have
not come round. -/
theorem wellFormed_run (options : GraphOptions) (sizes : EntrySizes) {history : List Call}
    (ids : Meets step CallKeepsIds (empty options sizes) history) :
    (run step (empty options sizes) history).WellFormed := by
  have hempty : (empty options sizes).Restorable :=
    ⟨wellFormed_empty options sizes, by rintro tx ⟨⟩⟩
  exact (ids.invariant (fun db call h => h.step) hempty).wellFormed

/-! ## The abort -/

/-- The database after one command, its answer dropped. -/
def execute (db : Database) (command : Command) : Database := (db.apply command).1

/-- The condition on a command of a transaction that may write. -/
def StepReversible (db : Database) (command : Command) : Prop :=
  db.refusesWrites = false → db.Reversible command

/-- The gate of a read-only transaction stops every command. -/
theorem apply_of_refusesWrites (h : db.refusesWrites = true) (command : Command) :
    (db.apply command).1 = db := by
  cases command <;>
    simp [apply, createVertex, getOrCreateVertex, freeVertex, freeVertexGuarded, addLabel,
      removeLabel, addProperty, setProperty, updateProperty, removeProperties, editVertex,
      edgeCreate, edgeFree, setEdgeOrigin, setEdgeTarget, setEdgeDirection, addEdgeLabel,
      removeEdgeLabel, addEdgeProperty, setEdgeProperty, updateEdgeProperty,
      removeEdgeProperties, changeEdge, createLabel, updateLabel, freeLabel, createPropertyType,
      updatePropertyType, freePropertyType, h]

theorem advance_execute (h : db.WellFormed) (ok : db.StepReversible command) :
    Advance true db (db.execute command) := by
  unfold execute
  cases hgate : db.refusesWrites with
  | true =>
    rw [apply_of_refusesWrites hgate]
    exact .refl h
  | false => exact advance_apply h (ok hgate).keepsIds fun _ => ok hgate

/-- The commands of a transaction are one sequence of exact moves. -/
theorem advance_run (h : db.WellFormed) (ok : Meets execute StepReversible db commands) :
    Advance true db (run execute db commands) := by
  induction commands generalizing db with
  | nil => exact .refl h
  | cons command rest ih =>
    have hfirst := advance_execute h ok.1
    exact hfirst.trans (ih hfirst.wellFormed ok.2)

theorem abort_run_reading (h : db.WellFormed) (htx : db.tx = none) (readOnly : Bool)
    (ok : Meets execute StepReversible (db.beginTransaction readOnly).1 commands) :
    (run execute (db.beginTransaction readOnly).1 commands).abort.1.reading = db.reading := by
  rw [beginTransaction_of_none htx] at ok ⊢
  have hbegun : ({ db with
      tx := some { maxJournalBytes := db.graph.options.maxJournalBytes, readOnly } } :
        Database).Restorable :=
    ⟨h.withTx _, by rintro tx ⟨⟩ entry hentry; cases hentry⟩
  have hadvance := advance_run hbegun.wellFormed ok
  have hrestorable := hadvance.restorable hbegun
  obtain ⟨entries, -, hmoves, hjournal⟩ := hadvance.recorded
  have hoptions := hadvance.options
  generalize run execute _ commands = done at *
  obtain ⟨tx, htx', hextends⟩ := hjournal
  -- the journal was empty, so it holds the records of this run alone
  have hentries : tx.journal = entries := hextends.journal
  have habort : done.abort.1 = rollback { done with tx := none } tx.journal := by
    simp [abort, htx']
  obtain ⟨-, -, hread⟩ := reading_rollback (hrestorable.wellFormed.withTx none).sound
    (hrestorable.journal tx htx')
  rw [habort, hread, hentries]
  have hallow : done.graph.options.allowSelfEdges = db.graph.options.allowSelfEdges := by
    rw [hoptions]
  change done.reading.rollback done.graph.options.allowSelfEdges entries = db.reading
  rw [hallow]
  exact hmoves.rollback

instance (db : Database) : Decidable db.FreshIds :=
  decidable_of_iff (_ ∧ _ ∧ _ ∧ _)
    ⟨fun ⟨a, b, c, d⟩ => ⟨a, b, c, d⟩, fun ⟨a, b, c, d⟩ => ⟨a, b, c, d⟩⟩

instance (db : Database) (uid : Guid) : Decidable (db.RemovalReversible uid) :=
  inferInstanceAs (Decidable (_ ∧ _ ∧ (_ ∨ _)))

instance (db : Database) (edge : Guid) : Decidable (db.LoopReversible edge) :=
  inferInstanceAs (Decidable (∀ e ∈ db.graph.edges.find? edge, _))

instance (db : Database) (first : JournalEntry) (carriesV : Vertex → Bool)
    (carriesE : Edge → Bool) : Decidable (db.StripFits first carriesV carriesE) :=
  inferInstanceAs (Decidable (_ → _))

instance (db : Database) (command : Command) : Decidable (db.Reversible command) := by
  induction command using Command.casesOn <;> dsimp only [Reversible] <;> infer_instance

instance (db : Database) (command : Command) : Decidable (db.KeepsIds command) := by
  induction command using Command.casesOn <;> dsimp only [KeepsIds] <;> infer_instance

instance (db : Database) (command : Command) : Decidable (db.StepReversible command) :=
  inferInstanceAs (Decidable (_ → _))

instance (db : Database) (call : Call) : Decidable (db.CallKeepsIds call) := by
  induction call using Call.casesOn <;> dsimp only [CallKeepsIds] <;> infer_instance

/-- Every database reached from an empty one is in order, and from a database in order
without an open transaction, an aborted transaction whose commands are all reversible leads
back to what it was opened on. -/
theorem abort_restores (options : GraphOptions) (sizes : EntrySizes) :
    (∀ history, Meets step CallKeepsIds (empty options sizes) history →
      (run step (empty options sizes) history).WellFormed) ∧
    ∀ db : Database, db.WellFormed → db.tx = none → ∀ readOnly commands,
      Meets execute StepReversible (db.beginTransaction readOnly).1 commands →
        (run execute (db.beginTransaction readOnly).1 commands).abort.1.reading = db.reading :=
  ⟨fun _ ids => wellFormed_run options sizes ids,
    fun _ h htx readOnly _ ok => abort_run_reading h htx readOnly ok⟩

/-- A transaction that frees a vertex with its edge and a label with a carrier. -/
theorem abort_restores_cascade :
    let sizes : EntrySizes := ⟨64, 128, 96, 48⟩
    let history : List Call :=
      [.command (.createLabel [65]), .command (.createVertex ⟨1, [7]⟩ [] [] 10),
        .command (.createLabel [66]), .command (.createVertex ⟨0, []⟩ [2] [] 11),
        .command (.edgeCreate 10 11 0 [2] [] none 20)]
    let commands : List Command := [.freeLabel 2, .createLabel [66], .freeVertex 10]
    let db := run step (empty {} sizes) history
    db.tx = none ∧ (db.graph.edges.find? 20).isSome ∧
      (run execute (db.beginTransaction false).1 commands).abort.1.reading = db.reading := by
  intro sizes history commands db
  have hids : Meets step CallKeepsIds (empty {} sizes) history := by decide
  have htx : db.tx = none := Option.isNone_iff_eq_none.mp (by decide)
  refine ⟨htx, by decide, ?_⟩
  obtain ⟨hreach, habort⟩ := abort_restores {} sizes
  exact habort db (hreach history hids) htx false commands (by decide)

/-- A create that warns about a taken key, aborted, removes the vertex that had the key. -/
theorem abort_removes_warned_vertex :
    let db := run step (empty { keyMode := .reportWarning } ⟨64, 128, 96, 48⟩)
      [.command (.createLabel [65]), .command (.createVertex ⟨1, [7]⟩ [] [] 10)]
    db.tx = none ∧
      (run execute (db.beginTransaction false).1
        [.createVertex ⟨1, [7]⟩ [] [] 11]).abort.1.reading ≠ db.reading := by
  intro db
  refine ⟨Option.isNone_iff_eq_none.mp (by decide), fun h => ?_⟩
  have hvertex := congrArg (fun R => (R.graph.vertices 10).isSome) h
  revert hvertex
  decide

end Database

end KimixNative.GraphDb
