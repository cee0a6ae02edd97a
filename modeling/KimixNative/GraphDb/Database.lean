import KimixNative.GraphDb.Operations
import KimixNative.GraphDb.Transaction

/-!
# The database facade

A database owns a graph, a schema and at most one open transaction. A write command passes
the transaction gate, validates its arguments against the schema, mutates the graph or the
schema, and leaves an undo record when a transaction is open. Some commands record first
and some mutate first, as the source does; a mutation whose record is refused is taken back
at once, except where the source does not.

`Command` and `Database.apply` collect the single commands, `Call` and `Database.step` add
the two bulk commands and the transaction commands.
-/

namespace KimixNative.GraphDb

/-- One database instance. The options are those of the graph, which `set_options` keeps
equal to its own. -/
structure Database where
  graph : Graph
  schema : Schema := {}
  tx : Option Transaction := none
  sizes : EntrySizes

/-- `edge_restore_payload`: the rollback's overwrite, without any filter. -/
def Graph.edgeRestorePayload (g : Graph) (edge : Guid) (labels : List LabelId)
    (properties : PropertyList) : Graph :=
  g.updateEdge edge fun e =>
    Edge.markDirty { e with labels, properties := PropertyBag.ofPropertyList properties }

namespace Database

/-- The transaction gate of every write command. -/
def refusesWrites (db : Database) : Bool :=
  match db.tx with
  | none => false
  | some tx => tx.readOnly

/-- Append an undo record; without a transaction there is nothing to record. -/
def push (db : Database) (entry : JournalEntry) : Database × Bool :=
  match db.tx with
  | none => (db, true)
  | some tx =>
    ({ db with tx := some (tx.push db.sizes entry).1 }, (tx.push db.sizes entry).2)

/-! ## Validation -/

/-- `_validate_property`. -/
def validateProperty (db : Database) (name : PropNameId) (value : PropertyValue) : GdiStatus :=
  if name = kNoPropName ∨ db.schema.hasPropertyType name = false then .errorPropertyType
  else if value.kind = .none then .errorWrongType
  else
    let declaration := db.schema.propertyType name
    let wantsArray := decide (declaration.container = .array)
    if value.isArray ≠ wantsArray then .errorWrongType
    else if value.dataType ≠ declaration.data then .errorWrongType
    else if wantsArray && !value.matchesDeclaration declaration.container declaration.data
        declaration.sizeType declaration.count then .errorCount
    else .ok

/-- The label loop of a create: the first unknown one is refused. -/
def validateLabels (db : Database) (labels : List LabelId) : GdiStatus :=
  if labels.all db.schema.hasLabel then .ok else .errorLabel

/-- The property loop of a create: the first refusal is the answer. -/
def validateProperties (db : Database) : PropertyList → GdiStatus
  | [] => .ok
  | entry :: rest =>
    if (db.validateProperty entry.name entry.value).isError then
      db.validateProperty entry.name entry.value
    else db.validateProperties rest

/-- The key check of `create_vertex`. -/
def validateKey (db : Database) (key : VertexKey) : GdiStatus :=
  if key.label ≠ kNoLabel then
    if db.schema.hasLabel key.label = false then .errorLabel
    else if key.externalId = [] then .errorEmptyName
    else .ok
  else if key.externalId ≠ [] then .errorArgument
  else .ok

/-- `_property_values_exist`. -/
def propertyValuesExist (db : Database) (name : PropNameId) : Bool :=
  db.graph.vertices.toList.any (fun p => (p.2.properties.find? name).isSome) ||
    db.graph.edges.toList.any (fun p => (p.2.properties.find? name).isSome)

/-- `_label_is_a_key`. -/
def labelIsAKey (db : Database) (label : LabelId) : Bool :=
  db.graph.vertices.toList.any fun p => p.2.keyLabel = label

/-! ## Vertices -/

/-- What a create command builds; the facade passes no content. -/
def vertexSpec (key : VertexKey) (labels : List LabelId) (properties : PropertyList) :
    VertexSpec :=
  { keyLabel := key.label, externalId := key.externalId, labels, properties }

/-- `create_vertex`. A warning about a taken key is not an error, so the uid it names is
journaled, and freed when the journal refuses, like a created one. -/
def createVertex (db : Database) (key : VertexKey) (labels : List LabelId)
    (properties : PropertyList) (minted : Guid) : Database × GdiStatus :=
  if db.refusesWrites then (db, .errorReadOnlyTransaction)
  else if (db.validateKey key).isError then (db, db.validateKey key)
  else if (db.validateLabels labels).isError then (db, db.validateLabels labels)
  else if (db.validateProperties properties).isError then (db, db.validateProperties properties)
  else
    match db.graph.createVertex (vertexSpec key labels properties) minted with
    | (g, status, none) => ({ db with graph := g }, status)
    | (g, status, some uid) =>
      let (pushed, ok) := { db with graph := g }.push (.vertexCreated uid)
      if ok then (pushed, status)
      else ({ pushed with graph := (pushed.graph.freeVertex uid false).1 }, .errorSizeLimit)

/-- `get_or_create_vertex`: neither the labels nor the properties are validated. -/
def getOrCreateVertex (db : Database) (key : VertexKey) (labels : List LabelId)
    (properties : PropertyList) (minted : Guid) : Database × GdiStatus :=
  if db.refusesWrites then (db, .errorReadOnlyTransaction)
  else if key.label ≠ kNoLabel ∧ db.schema.hasLabel key.label = false then (db, .errorLabel)
  else
    match db.graph.getOrCreateVertex (vertexSpec key labels properties) minted with
    | (g, status, some uid, true) =>
      let (pushed, ok) := { db with graph := g }.push (.vertexCreated uid)
      if ok then (pushed, status)
      else ({ pushed with graph := (pushed.graph.freeVertex uid false).1 }, .errorSizeLimit)
    | (g, status, _, _) => ({ db with graph := g }, status)

/-- `free_vertex`: the vertex is gone before the journal is asked. -/
def freeVertex (db : Database) (uid : Guid) : Database × GdiStatus :=
  if db.refusesWrites then (db, .errorReadOnlyTransaction)
  else
    match db.graph.removeVertex uid with
    | (g, none) => ({ db with graph := g }, .errorVertex)
    | (g, some (removed, removedEdges)) =>
      let (pushed, ok) := { db with graph := g }.push
        (.vertexRemoved uid removed.1.labels removed.1.properties.toPropertyList removed
          removedEdges)
      (pushed, if ok then .ok else .errorSizeLimit)

/-- `free_vertex_guarded`. -/
def freeVertexGuarded (db : Database) (uid : Guid) : Database × GdiStatus :=
  if db.refusesWrites then (db, .errorReadOnlyTransaction)
  else if (db.graph.vertices.find? uid).isNone then (db, .errorVertex)
  else if db.graph.hasIncidentEdges uid .both then (db, .errorEdge)
  else db.freeVertex uid

/-- The shape of the six payload commands of a vertex: the old payload is recorded, then
the edit runs and answers. -/
def editVertex (db : Database) (uid : Guid) (check : GdiStatus) (edit : VertexEdit)
    (answer : Vertex → GdiStatus) : Database × GdiStatus :=
  if db.refusesWrites then (db, .errorReadOnlyTransaction)
  else
    match db.graph.vertices.find? uid with
    | none => (db, .errorVertex)
    | some v =>
      if check.isError then (db, check)
      else
        let (pushed, ok) := db.push (.vertexPayload uid v.labels v.properties.toPropertyList)
        if ok then ({ pushed with graph := pushed.graph.updateVertex uid edit.apply }, answer v)
        else (pushed, .errorSizeLimit)

def addLabel (db : Database) (uid : Guid) (label : LabelId) : Database × GdiStatus :=
  db.editVertex uid (if db.schema.hasLabel label then .ok else .errorLabel) (.addLabel label)
    fun v => if (v.addLabel label).2 then .ok else .errorLabel

def removeLabel (db : Database) (uid : Guid) (label : LabelId) : Database × GdiStatus :=
  db.editVertex uid .ok (.removeLabel label)
    fun v => if (v.removeLabel label).2 then .ok else .errorLabel

def addProperty (db : Database) (uid : Guid) (name : PropNameId) (value : PropertyValue) :
    Database × GdiStatus :=
  db.editVertex uid (db.validateProperty name value) (.addProperty name value)
    fun v => if (v.addProperty name value).2 then .ok else .errorPropertyExists

def setProperty (db : Database) (uid : Guid) (name : PropNameId) (value : PropertyValue) :
    Database × GdiStatus :=
  db.editVertex uid (db.validateProperty name value) (.setProperty name value)
    fun v => if (v.setProperty name value).2 then .ok else .errorNoProperty

def updateProperty (db : Database) (uid : Guid) (name : PropNameId) (value : PropertyValue) :
    Database × GdiStatus :=
  db.editVertex uid (db.validateProperty name value) (.putProperty name value) fun _ => .ok

def removeProperties (db : Database) (uid : Guid) (names : List PropNameId) :
    Database × GdiStatus :=
  db.editVertex uid .ok (.removeProperties names) fun _ => .ok

/-! ## Edges -/

/-- `edge_create`. -/
def edgeCreate (db : Database) (origin target : Guid) (direction : Byte) (labels : List LabelId)
    (properties : PropertyList) (chosenUid : Option Guid) (minted : Guid) : Database × GdiStatus :=
  if db.refusesWrites then (db, .errorReadOnlyTransaction)
  else if (db.validateLabels labels).isError then (db, db.validateLabels labels)
  else if (db.validateProperties properties).isError then (db, db.validateProperties properties)
  else
    match db.graph.edgeCreate origin target direction labels properties chosenUid minted with
    | (g, status, none) => ({ db with graph := g }, status)
    | (g, _, some edge) =>
      let (pushed, ok) := { db with graph := g }.push (.edgeCreated edge)
      if ok then (pushed, .ok)
      else ({ pushed with graph := (pushed.graph.edgeFree edge).1 }, .errorSizeLimit)

/-- The shape of every command on an existing edge: inside a transaction an unknown uid is
refused and the old record is journaled, then the graph operation runs and answers. -/
def changeEdge (db : Database) (edge : Guid) (check : GdiStatus)
    (entry : EdgeRecord → JournalEntry) (op : Graph → Graph × GdiStatus) : Database × GdiStatus :=
  if db.refusesWrites then (db, .errorReadOnlyTransaction)
  else if check.isError then (db, check)
  else
    match db.tx with
    | none => ({ db with graph := (op db.graph).1 }, (op db.graph).2)
    | some _ =>
      match db.graph.edges.find? edge with
      | none => (db, .errorUid)
      | some e =>
        let (pushed, ok) := db.push (entry (e.record edge))
        if ok then ({ pushed with graph := (op pushed.graph).1 }, (op pushed.graph).2)
        else (pushed, .errorSizeLimit)

def edgeFree (db : Database) (edge : Guid) : Database × GdiStatus :=
  db.changeEdge edge .ok .edgeRemoved (·.edgeFree edge)

def setEdgeOrigin (db : Database) (edge origin : Guid) : Database × GdiStatus :=
  db.changeEdge edge .ok .edgeState (·.edgeSetOrigin edge origin)

def setEdgeTarget (db : Database) (edge target : Guid) : Database × GdiStatus :=
  db.changeEdge edge .ok .edgeState (·.edgeSetTarget edge target)

def setEdgeDirection (db : Database) (edge : Guid) (direction : Byte) : Database × GdiStatus :=
  db.changeEdge edge .ok .edgeState (EdgeEdit.perform · edge (.setDirection direction))

def addEdgeLabel (db : Database) (edge : Guid) (label : LabelId) : Database × GdiStatus :=
  db.changeEdge edge (if db.schema.hasLabel label then .ok else .errorLabel) .edgeState
    (EdgeEdit.perform · edge (.addLabel label))

def removeEdgeLabel (db : Database) (edge : Guid) (label : LabelId) : Database × GdiStatus :=
  db.changeEdge edge .ok .edgeState (EdgeEdit.perform · edge (.removeLabel label))

def addEdgeProperty (db : Database) (edge : Guid) (name : PropNameId) (value : PropertyValue) :
    Database × GdiStatus :=
  db.changeEdge edge (db.validateProperty name value) .edgeState
    (EdgeEdit.perform · edge (.addProperty name value))

def setEdgeProperty (db : Database) (edge : Guid) (name : PropNameId) (value : PropertyValue) :
    Database × GdiStatus :=
  db.changeEdge edge (db.validateProperty name value) .edgeState
    (EdgeEdit.perform · edge (.setProperty name value))

def updateEdgeProperty (db : Database) (edge : Guid) (name : PropNameId) (value : PropertyValue) :
    Database × GdiStatus :=
  db.changeEdge edge (db.validateProperty name value) .edgeState
    (EdgeEdit.perform · edge (.putProperty name value))

def removeEdgeProperties (db : Database) (edge : Guid) (names : List PropNameId) :
    Database × GdiStatus :=
  db.changeEdge edge .ok .edgeState (EdgeEdit.perform · edge (.removeProperties names))

/-! ## Labels and property types -/

/-- One turn of a strip loop over the vertices: a carrier is journaled, whatever the
journal answers, and edited. -/
def stripVertex (carries : Vertex → Bool) (edit : VertexEdit) (db : Database) (guid : Guid) :
    Database :=
  match db.graph.vertices.find? guid with
  | none => db
  | some v =>
    if carries v then
      let pushed := (db.push (.vertexPayload guid v.labels v.properties.toPropertyList)).1
      { pushed with graph := pushed.graph.updateVertex guid edit.apply }
    else db

/-- One turn of a strip loop over the edges. -/
def stripEdge (carries : Edge → Bool) (edit : EdgeEdit) (db : Database) (edge : Guid) :
    Database :=
  match db.graph.edges.find? edge with
  | none => db
  | some e =>
    if carries e then
      let pushed := (db.push (.edgeState (e.record edge))).1
      { pushed with graph := (edit.perform pushed.graph edge).1 }
    else db

/-- Strip every carrier, vertices first. The order of the ids is that of the tables. -/
def strip (db : Database) (carriesV : Vertex → Bool) (editV : VertexEdit)
    (carriesE : Edge → Bool) (editE : EdgeEdit) : Database :=
  let stripped := db.graph.vertices.keys.foldl (stripVertex carriesV editV) db
  stripped.graph.edges.keys.foldl (stripEdge carriesE editE) stripped

/-- `_strip_label`: one `remove_label` for each carrier. -/
def stripLabel (db : Database) (label : LabelId) : Database :=
  db.strip (·.labels.contains label) (.removeLabel label) (·.labels.contains label)
    (.removeLabel label)

/-- `_strip_property_type`. -/
def stripPropertyType (db : Database) (name : PropNameId) : Database :=
  db.strip (fun v => (v.properties.find? name).isSome) (.removeProperties [name])
    (fun e => (e.properties.find? name).isSome) (.removeProperties [name])

/-- `create_label`. -/
def createLabel (db : Database) (name : Bytes) : Database × GdiStatus :=
  if db.refusesWrites then (db, .errorReadOnlyTransaction)
  else
    let (s, status, label) := db.schema.createLabel name
    if status.isError then ({ db with schema := s }, status)
    else
      let (pushed, ok) := { db with schema := s }.push (.labelCreated label)
      if ok then (pushed, .ok)
      else ({ pushed with schema := (pushed.schema.freeLabel label).1 }, .errorSizeLimit)

/-- `update_label`: the record is pushed before the rename is tried. -/
def updateLabel (db : Database) (label : LabelId) (newName : Bytes) : Database × GdiStatus :=
  if db.refusesWrites then (db, .errorReadOnlyTransaction)
  else if db.tx.isSome && (db.schema.labelName label).isEmpty then (db, .errorLabel)
  else
    let (pushed, ok) := db.push (.labelRenamed label (db.schema.labelName label))
    if ok then
      ({ pushed with schema := (pushed.schema.renameLabel label newName).1 },
        (pushed.schema.renameLabel label newName).2)
    else (pushed, .errorSizeLimit)

/-- `free_label`: refused while the label is a key. -/
def freeLabel (db : Database) (label : LabelId) : Database × GdiStatus :=
  if db.refusesWrites then (db, .errorReadOnlyTransaction)
  else if db.schema.hasLabel label = false then (db, .errorLabel)
  else if db.labelIsAKey label then (db, .errorState)
  else
    let (pushed, ok) := db.push (.labelFreed label (db.schema.labelName label))
    if ok then
      let (s, status) := pushed.schema.freeLabel label
      if status.isError then ({ pushed with schema := s }, status)
      else (stripLabel { pushed with schema := s } label, .ok)
    else (pushed, .errorSizeLimit)

/-- `create_property_type`. -/
def createPropertyType (db : Database) (info : PropertyTypeInfo) : Database × GdiStatus :=
  if db.refusesWrites then (db, .errorReadOnlyTransaction)
  else
    let (s, status, property) := db.schema.createPropertyType info
    if status.isError then ({ db with schema := s }, status)
    else
      let (pushed, ok) := { db with schema := s }.push (.propertyTypeCreated property)
      if ok then (pushed, .ok)
      else ({ pushed with schema := (pushed.schema.freePropertyType property).1 }, .errorSizeLimit)

/-- `update_property_type`. -/
def updatePropertyType (db : Database) (property : PropNameId) (info : PropertyTypeInfo) :
    Database × GdiStatus :=
  if db.refusesWrites then (db, .errorReadOnlyTransaction)
  else if isBlank info.name then (db, .errorEmptyName)
  else if db.schema.hasPropertyType property = false then (db, .errorPropertyType)
  else if (validatePropertyTypeDeclaration info).isError then
    (db, validatePropertyTypeDeclaration info)
  else
    let (pushed, ok) := db.push (.propertyTypeUpdated property (db.schema.propertyType property))
    if ok then
      let valuesExist := pushed.propertyValuesExist property
      ({ pushed with schema := (pushed.schema.updatePropertyType property info valuesExist).1 },
        (pushed.schema.updatePropertyType property info valuesExist).2)
    else (pushed, .errorSizeLimit)

/-- `free_property_type`. -/
def freePropertyType (db : Database) (property : PropNameId) : Database × GdiStatus :=
  if db.refusesWrites then (db, .errorReadOnlyTransaction)
  else if db.schema.hasPropertyType property = false then (db, .errorPropertyType)
  else
    let (pushed, ok) := db.push (.propertyTypeFreed property (db.schema.propertyType property))
    if ok then
      let (s, status) := pushed.schema.freePropertyType property
      if status.isError then ({ pushed with schema := s }, status)
      else (stripPropertyType { pushed with schema := s } property, .ok)
    else (pushed, .errorSizeLimit)

/-! ## Transactions -/

/-- The cascade's edges go back one by one; a refused adoption is ignored. -/
def adoptEdges (g : Graph) (edges : List (Guid × Edge)) : Graph :=
  edges.foldl (fun g e => (g.adoptEdge e.1 e.2).1) g

/-- The edge `_rollback` builds from a record: clean, as if just loaded. -/
def restoredEdge (record : EdgeRecord) : Edge :=
  (({ origin := record.origin, target := record.target, direction := record.direction } :
    Edge).assignPayload record.labels record.properties).clearDirty

/-- Put an edge record back: endpoints first, then direction and payload. -/
def restoreEdgeState (g : Graph) (record : EdgeRecord) : Graph :=
  match g.edges.find? record.id with
  | none => g
  | some e =>
    let g := if e.origin ≠ record.origin then (g.edgeSetOrigin record.id record.origin).1 else g
    let g := if e.target ≠ record.target then (g.edgeSetTarget record.id record.target).1 else g
    let g := (g.edgeSetDirection record.id record.direction.code).1
    g.edgeRestorePayload record.id record.labels record.properties

/-- One entry of `_rollback`. -/
def undo (db : Database) : JournalEntry → Database
  | .vertexCreated uid => { db with graph := (db.graph.removeVertex uid).1 }
  | .vertexRemoved uid labels properties vertex removedEdges =>
    let adopted := (db.graph.adoptVertex uid
      ⟨vertex.1.restorePayload labels properties, vertex.2⟩).1
    { db with graph := adoptEdges adopted removedEdges }
  | .vertexPayload uid labels properties =>
    { db with graph := db.graph.updateVertex uid (·.restorePayload labels properties) }
  | .edgeCreated uid => { db with graph := (db.graph.edgeFree uid).1 }
  | .edgeRemoved record =>
    { db with graph := (db.graph.adoptEdge record.id (restoredEdge record)).1 }
  | .edgeState record => { db with graph := restoreEdgeState db.graph record }
  | .labelCreated label => { db with schema := (db.schema.freeLabel label).1 }
  | .labelRenamed label name => { db with schema := (db.schema.renameLabel label name).1 }
  | .labelFreed label name => { db with schema := (db.schema.restoreLabel label name).1 }
  | .propertyTypeCreated property =>
    { db with schema := (db.schema.freePropertyType property).1 }
  | .propertyTypeUpdated property info =>
    { db with schema := (db.schema.updatePropertyType property info false).1 }
  | .propertyTypeFreed _ info => { db with schema := (db.schema.restorePropertyType info).1 }

/-- `_rollback`: the journal is replayed from its end. -/
def rollback (db : Database) (journal : List JournalEntry) : Database := journal.reverse.foldl undo db

/-- `begin_transaction`. -/
def beginTransaction (db : Database) (readOnly : Bool) : Database × GdiStatus :=
  match db.tx with
  | some _ => (db, .errorTransaction)
  | none =>
    ({ db with
      tx := some { maxJournalBytes := db.graph.options.maxJournalBytes, readOnly } }, .ok)

/-- `commit`, without the save that `persist_on_commit` may add. -/
def commit (db : Database) : Database × GdiStatus :=
  match db.tx with
  | none => (db, .errorTransaction)
  | some _ => ({ db with tx := none }, .ok)

/-- `abort`. -/
def abort (db : Database) : Database × GdiStatus :=
  match db.tx with
  | none => (db, .errorTransaction)
  | some tx => (rollback { db with tx := none } tx.journal, .ok)

/-- `begin_collective`. -/
def beginCollective (db : Database) : Database × GdiStatus :=
  let (begun, status) := db.beginTransaction true
  if status.isError then (begun, status)
  else ({ begun with tx := begun.tx.map fun tx => { tx with collective := true } }, .ok)

/-- `close_collective`. -/
def closeCollective (db : Database) (commitIt : Bool) : Database × GdiStatus :=
  match db.tx with
  | none => (db, .errorTransaction)
  | some tx =>
    if tx.collective then if commitIt then db.commit else db.abort
    else (db, .errorTransaction)

/-! ## Bulk commands -/

/-- One row of `create_vertices_bulk`, with the guid its vertex would be minted under. -/
structure VertexBulkRow where
  key : VertexKey
  labels : List LabelId
  properties : PropertyList
  minted : Guid

/-- One row of `create_edges_bulk`. -/
structure EdgeBulkRow where
  origin : Guid
  target : Guid
  direction : Byte
  labels : List LabelId
  properties : PropertyList
  uid : Option Guid
  minted : Guid

structure BulkStats where
  created : Nat := 0
  failed : Nat := 0
  warning : Nat := 0
  deriving DecidableEq, Repr

/-- How one attempted row is counted. -/
def BulkStats.count (stats : BulkStats) (status : GdiStatus) : BulkStats :=
  if status.isError then { stats with failed := stats.failed + 1 }
  else if status = .warningNonUniqueId then
    { stats with created := stats.created + 1, warning := stats.warning + 1 }
  else { stats with created := stats.created + 1 }

/-- What the failed batch does to the open transaction: everything in its journal is
undone, the caller's entries included. -/
def rollbackOpen (db : Database) : Database :=
  match db.tx with
  | none => db
  | some tx => { rollback db tx.journal with tx := some tx.clearJournal }

/-- The rows of `create_vertices_bulk` inside a transaction. After the failure that aborts
the batch the remaining rows are marked and not attempted. -/
def createVertexRows (continueOnError : Bool) :
    Database → BulkStats → List VertexBulkRow → Database × BulkStats × List GdiStatus × Bool
  | db, stats, [] => (db, stats, [], false)
  | db, stats, row :: rest =>
    let (db', status) := db.createVertex row.key row.labels row.properties row.minted
    let stats := stats.count status
    if status.isError && !continueOnError then
      (db'.rollbackOpen, { stats with created := 0, warning := 0 },
        status :: rest.map fun _ => .errorState, true)
    else
      let (db'', stats, statuses, aborted) := createVertexRows continueOnError db' stats rest
      (db'', stats, status :: statuses, aborted)

/-- `create_vertices_bulk`: a batch without a caller's transaction runs in one of its own. -/
def createVerticesBulk (db : Database) (rows : List VertexBulkRow) (continueOnError : Bool)
    (stats : BulkStats) : Database × GdiStatus × BulkStats × List GdiStatus :=
  if db.refusesWrites then (db, .errorReadOnlyTransaction, stats, [])
  else
    let opened := match db.tx with
      | some _ => db
      | none => { db with tx := some { maxJournalBytes := db.graph.options.maxJournalBytes } }
    let (done, stats, statuses, aborted) := createVertexRows continueOnError opened stats rows
    let closed := if db.tx.isNone then { done with tx := none } else done
    (closed, if aborted then .errorState else .ok, stats, statuses)

/-- The rows of `create_edges_bulk`: the first failure stops the batch and what was created
stays. -/
def createEdgeRows (continueOnError : Bool) :
    Database → BulkStats → List EdgeBulkRow → Database × BulkStats × List GdiStatus × Bool
  | db, stats, [] => (db, stats, [], false)
  | db, stats, row :: rest =>
    let (db', status) :=
      db.edgeCreate row.origin row.target row.direction row.labels row.properties row.uid
        row.minted
    let stats := stats.count status
    if status.isError && !continueOnError then
      (db', stats, status :: rest.map fun _ => .errorState, true)
    else
      let (db'', stats, statuses, aborted) := createEdgeRows continueOnError db' stats rest
      (db'', stats, status :: statuses, aborted)

/-- `create_edges_bulk`. -/
def createEdgesBulk (db : Database) (rows : List EdgeBulkRow) (continueOnError : Bool)
    (stats : BulkStats) : Database × GdiStatus × BulkStats × List GdiStatus :=
  if db.refusesWrites then (db, .errorReadOnlyTransaction, stats, [])
  else
    let (done, stats, statuses, aborted) := createEdgeRows continueOnError db stats rows
    (done, if aborted then .errorState else .ok, stats, statuses)

end Database

/-! ## The commands as one step function -/

/-- The single write commands. -/
inductive Command where
  | createVertex (key : VertexKey) (labels : List LabelId) (properties : PropertyList)
      (minted : Guid)
  | getOrCreateVertex (key : VertexKey) (labels : List LabelId) (properties : PropertyList)
      (minted : Guid)
  | freeVertex (uid : Guid)
  | freeVertexGuarded (uid : Guid)
  | addLabel (uid : Guid) (label : LabelId)
  | removeLabel (uid : Guid) (label : LabelId)
  | addProperty (uid : Guid) (name : PropNameId) (value : PropertyValue)
  | setProperty (uid : Guid) (name : PropNameId) (value : PropertyValue)
  | updateProperty (uid : Guid) (name : PropNameId) (value : PropertyValue)
  | removeProperties (uid : Guid) (names : List PropNameId)
  | edgeCreate (origin target : Guid) (direction : Byte) (labels : List LabelId)
      (properties : PropertyList) (chosenUid : Option Guid) (minted : Guid)
  | edgeFree (edge : Guid)
  | setEdgeOrigin (edge origin : Guid)
  | setEdgeTarget (edge target : Guid)
  | setEdgeDirection (edge : Guid) (direction : Byte)
  | addEdgeLabel (edge : Guid) (label : LabelId)
  | removeEdgeLabel (edge : Guid) (label : LabelId)
  | addEdgeProperty (edge : Guid) (name : PropNameId) (value : PropertyValue)
  | setEdgeProperty (edge : Guid) (name : PropNameId) (value : PropertyValue)
  | updateEdgeProperty (edge : Guid) (name : PropNameId) (value : PropertyValue)
  | removeEdgeProperties (edge : Guid) (names : List PropNameId)
  | createLabel (name : Bytes)
  | updateLabel (label : LabelId) (newName : Bytes)
  | freeLabel (label : LabelId)
  | createPropertyType (info : PropertyTypeInfo)
  | updatePropertyType (property : PropNameId) (info : PropertyTypeInfo)
  | freePropertyType (property : PropNameId)

namespace Database

/-- Run one command. -/
def apply (db : Database) : Command → Database × GdiStatus
  | .createVertex key labels properties minted => db.createVertex key labels properties minted
  | .getOrCreateVertex key labels properties minted =>
    db.getOrCreateVertex key labels properties minted
  | .freeVertex uid => db.freeVertex uid
  | .freeVertexGuarded uid => db.freeVertexGuarded uid
  | .addLabel uid label => db.addLabel uid label
  | .removeLabel uid label => db.removeLabel uid label
  | .addProperty uid name value => db.addProperty uid name value
  | .setProperty uid name value => db.setProperty uid name value
  | .updateProperty uid name value => db.updateProperty uid name value
  | .removeProperties uid names => db.removeProperties uid names
  | .edgeCreate origin target direction labels properties chosenUid minted =>
    db.edgeCreate origin target direction labels properties chosenUid minted
  | .edgeFree edge => db.edgeFree edge
  | .setEdgeOrigin edge origin => db.setEdgeOrigin edge origin
  | .setEdgeTarget edge target => db.setEdgeTarget edge target
  | .setEdgeDirection edge direction => db.setEdgeDirection edge direction
  | .addEdgeLabel edge label => db.addEdgeLabel edge label
  | .removeEdgeLabel edge label => db.removeEdgeLabel edge label
  | .addEdgeProperty edge name value => db.addEdgeProperty edge name value
  | .setEdgeProperty edge name value => db.setEdgeProperty edge name value
  | .updateEdgeProperty edge name value => db.updateEdgeProperty edge name value
  | .removeEdgeProperties edge names => db.removeEdgeProperties edge names
  | .createLabel name => db.createLabel name
  | .updateLabel label newName => db.updateLabel label newName
  | .freeLabel label => db.freeLabel label
  | .createPropertyType info => db.createPropertyType info
  | .updatePropertyType property info => db.updatePropertyType property info
  | .freePropertyType property => db.freePropertyType property

end Database

/-- Everything a caller can do: single commands, bulk commands and transactions. -/
inductive Call where
  | command (command : Command)
  | createVerticesBulk (rows : List Database.VertexBulkRow) (continueOnError : Bool)
  | createEdgesBulk (rows : List Database.EdgeBulkRow) (continueOnError : Bool)
  | beginTransaction (readOnly : Bool)
  | commit
  | abort
  | beginCollective
  | closeCollective (commitIt : Bool)

namespace Database

/-- The database after one call. -/
def step (db : Database) : Call → Database
  | .command command => (db.apply command).1
  | .createVerticesBulk rows continueOnError => (db.createVerticesBulk rows continueOnError {}).1
  | .createEdgesBulk rows continueOnError => (db.createEdgesBulk rows continueOnError {}).1
  | .beginTransaction readOnly => (db.beginTransaction readOnly).1
  | .commit => db.commit.1
  | .abort => db.abort.1
  | .beginCollective => db.beginCollective.1
  | .closeCollective commitIt => (db.closeCollective commitIt).1

/-- A database with nothing in it. -/
def empty (options : GraphOptions) (sizes : EntrySizes) : Database :=
  { graph := Graph.empty options, sizes }

end Database

end KimixNative.GraphDb
