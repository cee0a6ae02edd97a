import KimixNative.GraphDb.Record

/-!
# The graph container

`Graph` owns the vertex table, the edge table, the key index, the two tombstone
lists of ids removed since the last save, and the two dirty indexes a save collects
from. The shards of the source partition these maps by hash and carry no meaning of
their own, so each map is one table here. Structural writes never overlap, so the
write lease is always granted.

The five primitives at the top are the only code that touches a dirty index:
insertion attaches a record (a dirty one is registered), erasure detaches it, and
`updateVertex`/`updateEdge` run a record's mutator and register the record when its
flag goes up. Fresh guids come from outside: an operation that mints one takes it as
an argument and reports a collision as the source does.
-/

namespace KimixNative.GraphDb

/-- The in-memory graph. -/
structure Graph where
  options : GraphOptions
  vertices : Table Guid Vertex := ∅
  edges : Table Guid Edge := ∅
  keys : Table VertexKey Guid := ∅
  removedVertices : List Guid := []
  removedEdges : List Guid := []
  dirtyVertexIndex : Finset Guid := ∅
  dirtyEdgeIndex : Finset Guid := ∅

/-- What `create_vertex` is asked to build. `keyLabel = kNoLabel` is an unkeyed
vertex. -/
structure VertexSpec where
  keyLabel : LabelId := kNoLabel
  externalId : Bytes := []
  labels : List LabelId := []
  properties : PropertyList := []
  content : Bytes := []
  deriving DecidableEq

namespace VertexSpec

def keyed (spec : VertexSpec) : Bool := decide (spec.keyLabel ≠ kNoLabel)

def key (spec : VertexSpec) : VertexKey := ⟨spec.keyLabel, spec.externalId⟩

/-- The record `create_vertex` fills before it publishes it. -/
def toVertex (spec : VertexSpec) : Vertex :=
  { Vertex.new spec.content with
    keyLabel := spec.keyLabel
    externalId := spec.externalId
    labels := spec.labels.filter (· ≠ kNoLabel)
    properties := PropertyBag.ofPropertyList spec.properties }

end VertexSpec

/-- One row of `connect_bulk`. -/
structure EdgeRequest where
  source : Guid
  target : Guid
  deriving DecidableEq, Repr

/-- What became of one row of `connect_bulk`. -/
inductive EdgeOutcome where
  | created
  | selfEdge
  | missingSource
  | missingTarget
  | duplicateEdge
  deriving DecidableEq, Repr

/-- Which incident edges a neighbourhood question is about. -/
inductive EdgeOrientation where
  | outgoing
  | incoming
  | both
  deriving DecidableEq, Repr

/-- One incident edge of a vertex that is being removed. -/
structure Cascade where
  edge : Guid
  neighbour : Guid
  victimIsOrigin : Bool
  deriving DecidableEq, Repr

namespace Graph

/-! ## Record tables and dirty indexes -/

/-- Publish a vertex and attach it to the dirty index (`_attach_dirty`). -/
@[simps options edges keys removedVertices removedEdges dirtyEdgeIndex]
def insertVertex (g : Graph) (guid : Guid) (v : Vertex) : Graph :=
  { g with
    vertices := g.vertices.insert guid v
    dirtyVertexIndex := if v.dirty then insert guid g.dirtyVertexIndex else g.dirtyVertexIndex }

/-- Take a vertex out of the table and detach it (`_detach_dirty`). -/
@[simps options edges keys removedVertices removedEdges dirtyEdgeIndex]
def eraseVertex (g : Graph) (guid : Guid) : Graph :=
  { g with
    vertices := g.vertices.erase guid
    dirtyVertexIndex := g.dirtyVertexIndex.erase guid }

/-- Run a mutator on a published vertex; a flag that goes up reaches the index
(`note_vertex_dirty`). -/
def updateVertex (g : Graph) (guid : Guid) (f : Vertex → Vertex) : Graph :=
  match g.vertices.find? guid with
  | none => g
  | some v =>
    { g with
      vertices := g.vertices.insert guid (f v)
      dirtyVertexIndex :=
        if (f v).dirty && !v.dirty then insert guid g.dirtyVertexIndex
        else g.dirtyVertexIndex }

/-- `EdgeTable::insert` once the uid is known to be free. -/
@[simps options vertices keys removedVertices removedEdges dirtyVertexIndex]
def insertEdge (g : Graph) (id : Guid) (e : Edge) : Graph :=
  { g with
    edges := g.edges.insert id e
    dirtyEdgeIndex := if e.dirty then insert id g.dirtyEdgeIndex else g.dirtyEdgeIndex }

/-- `EdgeTable::erase`. -/
@[simps options vertices keys removedVertices removedEdges dirtyVertexIndex]
def eraseEdge (g : Graph) (id : Guid) : Graph :=
  { g with
    edges := g.edges.erase id
    dirtyEdgeIndex := g.dirtyEdgeIndex.erase id }

/-- Run a mutator on a published edge (`note_edge_dirty`). -/
def updateEdge (g : Graph) (id : Guid) (f : Edge → Edge) : Graph :=
  match g.edges.find? id with
  | none => g
  | some e =>
    { g with
      edges := g.edges.insert id (f e)
      dirtyEdgeIndex :=
        if (f e).dirty && !e.dirty then insert id g.dirtyEdgeIndex else g.dirtyEdgeIndex }

/-! ## Tombstones -/

/-- `restore_removed_vertex`: drop one tombstone of the id. -/
@[simps]
def restoreRemovedVertex (g : Graph) (guid : Guid) : Graph :=
  { g with removedVertices := g.removedVertices.erase guid }

/-- `restore_removed_edge`. -/
@[simps]
def restoreRemovedEdge (g : Graph) (edge : Guid) : Graph :=
  { g with removedEdges := g.removedEdges.erase edge }

/-- Erase a vertex and record its tombstone: a save never deletes a stored key on its
own. -/
@[simps options edges keys removedVertices removedEdges dirtyEdgeIndex]
def buryVertex (g : Graph) (guid : Guid) : Graph :=
  { g.eraseVertex guid with removedVertices := g.removedVertices ++ [guid] }

/-- Erase an edge and record its tombstone. -/
@[simps options vertices keys removedVertices removedEdges dirtyVertexIndex]
def buryEdge (g : Graph) (id : Guid) : Graph :=
  { g.eraseEdge id with removedEdges := g.removedEdges ++ [id] }

/-- `take_removed_vertices`: hand the list out and start a new one. -/
def takeRemovedVertices (g : Graph) : Graph × List Guid :=
  ({ g with removedVertices := [] }, g.removedVertices)

/-- `take_removed_edges`. -/
def takeRemovedEdges (g : Graph) : Graph × List Guid :=
  ({ g with removedEdges := [] }, g.removedEdges)

/-! ## What the primitives leave alone

Every later proof sees a primitive through these lemmas and never unfolds it. -/

@[simp] theorem updateVertex_options (g : Graph) (guid : Guid) (f : Vertex → Vertex) :
    (g.updateVertex guid f).options = g.options := by
  unfold updateVertex; split <;> rfl

@[simp] theorem updateVertex_edges (g : Graph) (guid : Guid) (f : Vertex → Vertex) :
    (g.updateVertex guid f).edges = g.edges := by
  unfold updateVertex; split <;> rfl

@[simp] theorem updateVertex_keys (g : Graph) (guid : Guid) (f : Vertex → Vertex) :
    (g.updateVertex guid f).keys = g.keys := by
  unfold updateVertex; split <;> rfl

@[simp] theorem updateVertex_removedVertices (g : Graph) (guid : Guid) (f : Vertex → Vertex) :
    (g.updateVertex guid f).removedVertices = g.removedVertices := by
  unfold updateVertex; split <;> rfl

@[simp] theorem updateVertex_removedEdges (g : Graph) (guid : Guid) (f : Vertex → Vertex) :
    (g.updateVertex guid f).removedEdges = g.removedEdges := by
  unfold updateVertex; split <;> rfl

@[simp] theorem updateEdge_options (g : Graph) (id : Guid) (f : Edge → Edge) :
    (g.updateEdge id f).options = g.options := by
  unfold updateEdge; split <;> rfl

@[simp] theorem updateEdge_vertices (g : Graph) (id : Guid) (f : Edge → Edge) :
    (g.updateEdge id f).vertices = g.vertices := by
  unfold updateEdge; split <;> rfl

@[simp] theorem updateEdge_keys (g : Graph) (id : Guid) (f : Edge → Edge) :
    (g.updateEdge id f).keys = g.keys := by
  unfold updateEdge; split <;> rfl

@[simp] theorem updateEdge_removedVertices (g : Graph) (id : Guid) (f : Edge → Edge) :
    (g.updateEdge id f).removedVertices = g.removedVertices := by
  unfold updateEdge; split <;> rfl

@[simp] theorem updateEdge_removedEdges (g : Graph) (id : Guid) (f : Edge → Edge) :
    (g.updateEdge id f).removedEdges = g.removedEdges := by
  unfold updateEdge; split <;> rfl

theorem find?_insertVertex (g : Graph) (guid w : Guid) (v : Vertex) :
    (g.insertVertex guid v).vertices.find? w =
      if w = guid then some v else g.vertices.find? w :=
  Table.find?_insert _ _ _ _

theorem find?_eraseVertex (g : Graph) (guid w : Guid) :
    (g.eraseVertex guid).vertices.find? w = if w = guid then none else g.vertices.find? w :=
  Table.find?_erase _ _ _

theorem find?_updateVertex (g : Graph) (guid w : Guid) (f : Vertex → Vertex) :
    (g.updateVertex guid f).vertices.find? w =
      if w = guid then (g.vertices.find? guid).map f else g.vertices.find? w := by
  unfold updateVertex
  cases h : g.vertices.find? guid with
  | none =>
    by_cases hw : w = guid
    · simp [hw, h]
    · simp [hw]
  | some v => simp [Table.find?_insert]

theorem find?_insertEdge (g : Graph) (id d : Guid) (e : Edge) :
    (g.insertEdge id e).edges.find? d = if d = id then some e else g.edges.find? d :=
  Table.find?_insert _ _ _ _

theorem find?_eraseEdge (g : Graph) (id d : Guid) :
    (g.eraseEdge id).edges.find? d = if d = id then none else g.edges.find? d :=
  Table.find?_erase _ _ _

theorem find?_updateEdge (g : Graph) (id d : Guid) (f : Edge → Edge) :
    (g.updateEdge id f).edges.find? d =
      if d = id then (g.edges.find? id).map f else g.edges.find? d := by
  unfold updateEdge
  cases h : g.edges.find? id with
  | none =>
    by_cases hd : d = id
    · simp [hd, h]
    · simp [hd]
  | some e => simp [Table.find?_insert]

theorem find?_buryVertex (g : Graph) (guid w : Guid) :
    (g.buryVertex guid).vertices.find? w = if w = guid then none else g.vertices.find? w :=
  g.find?_eraseVertex guid w

theorem find?_buryEdge (g : Graph) (id d : Guid) :
    (g.buryEdge id).edges.find? d = if d = id then none else g.edges.find? d :=
  g.find?_eraseEdge id d

/-! ## The key index -/

/-- `KeyIndex::find`: the reserved label names no key. -/
def findKey (g : Graph) (key : VertexKey) : Option Guid :=
  if key.label = kNoLabel then none else g.keys.find? key

/-- `KeyIndex::insert`: an existing entry stays. -/
def insertKey (g : Graph) (key : VertexKey) (uid : Guid) : Graph × GdiStatus :=
  if key.label = kNoLabel then (g, .errorArgument)
  else if (g.keys.find? key).isSome then (g, .errorNonUniqueId)
  else ({ g with keys := g.keys.insert key uid }, .ok)

/-- `KeyIndex::erase`: by key, whoever the entry belongs to. -/
def eraseKey (g : Graph) (key : VertexKey) : Graph :=
  if key.label = kNoLabel then g else { g with keys := g.keys.erase key }

/-! ## Vertices -/

/-- `create_vertex(initial_content)`, the container API. -/
def createPlainVertex (g : Graph) (content : Bytes) (minted : Guid) : Graph × Option Guid :=
  if (g.vertices.find? minted).isSome then (g, none)
  else (g.insertVertex minted (Vertex.new content), some minted)

/-- `add_vertex`: adopt a detached vertex under its own guid. -/
def addVertex (g : Graph) (guid : Guid) (v : DetachedVertex) : Graph × Bool :=
  if (g.vertices.find? guid).isSome then (g, false) else (g.insertVertex guid v.1, true)

/-- The work list of a removal: every out link, then every in link. -/
def cascadeOf (victim : Vertex) : List Cascade :=
  (victim.outLinks.map fun l => ⟨l.edge, l.neighbour, true⟩) ++
    victim.inLinks.map fun l => ⟨l.edge, l.neighbour, false⟩

/-- Step 2 of a removal: erase the incident edge records and tombstone each one.
A self loop is on the work list twice; its second turn finds no record. -/
def eraseCascade (g : Graph) : List Cascade → Graph × List (Guid × Edge)
  | [] => (g, [])
  | item :: rest =>
    match g.edges.find? item.edge with
    | none => g.eraseCascade rest
    | some e =>
      let (g', removed) := (g.buryEdge item.edge).eraseCascade rest
      (g', (item.edge, e) :: removed)

/-- Step 3 of a removal: unlink the victim from every neighbour. -/
def unlinkCascade (g : Graph) (guid : Guid) : List Cascade → Graph
  | [] => g
  | item :: rest =>
    if item.neighbour = guid then g.unlinkCascade guid rest
    else if item.victimIsOrigin then
      (g.updateVertex item.neighbour (·.removeInLink item.edge)).unlinkCascade guid rest
    else
      (g.updateVertex item.neighbour (·.removeOutLink item.edge)).unlinkCascade guid rest

/-- `remove_vertex`: detach the victim, erase its incident edges, drop its key entry
and unlink it from its neighbours. The answer is the victim, its links cleared, and
the erased edges. -/
def removeVertex (g : Graph) (guid : Guid) :
    Graph × Option (DetachedVertex × List (Guid × Edge)) :=
  match g.vertices.find? guid with
  | none => (g, none)
  | some victim =>
    let cascade := cascadeOf victim
    let (erased, removed) := (g.buryVertex guid).eraseCascade cascade
    let unkeyed := if victim.hasKey then erased.eraseKey victim.key else erased
    (unkeyed.unlinkCascade guid cascade, some (⟨victim.clearLinks, rfl, rfl⟩, removed))

/-- `create_vertex(spec)`. The status comes with the out parameter, which a warning
sets to the existing vertex. -/
def createVertex (g : Graph) (spec : VertexSpec) (minted : Guid) :
    Graph × GdiStatus × Option Guid :=
  if spec.keyed && spec.externalId.isEmpty then (g, .errorEmptyName, none)
  else if !spec.keyed && !spec.externalId.isEmpty then (g, .errorArgument, none)
  else
    match g.findKey spec.key with
    | some existing =>
      match g.options.keyMode with
      | .reportWarning => (g, .warningNonUniqueId, some existing)
      | .enforceUnique => (g, .errorNonUniqueId, none)
    | none =>
      if (g.vertices.find? minted).isSome then (g, .errorIntern, none)
      else
        let inserted := g.insertVertex minted spec.toVertex
        if spec.keyed then
          let (indexed, status) := inserted.insertKey spec.key minted
          if status.isError then (indexed.eraseVertex minted, status, none)
          else (indexed, .ok, some minted)
        else (inserted, .ok, some minted)

/-- `get_or_create_vertex`: a match is returned untouched. The Boolean is `created`. -/
def getOrCreateVertex (g : Graph) (spec : VertexSpec) (minted : Guid) :
    Graph × GdiStatus × Option Guid × Bool :=
  match g.findKey spec.key with
  | some existing => (g, .ok, some existing, false)
  | none =>
    let (g', status, out) := g.createVertex spec minted
    if status.isError then (g', status, out, false) else (g', .ok, out, true)

/-- `translate_vertex_id`: the vertex found, when there is one. -/
def translateVertexId (g : Graph) (key : VertexKey) : GdiStatus × Option Guid :=
  if key.label = kNoLabel then (.errorEmptyName, none) else (.ok, g.findKey key)

/-- `has_incident_edges`. -/
def hasIncidentEdges (g : Graph) (guid : Guid) (orientation : EdgeOrientation) : Bool :=
  match g.vertices.find? guid with
  | none => false
  | some v =>
    match orientation with
    | .outgoing => !v.outLinks.isEmpty
    | .incoming => !v.inLinks.isEmpty
    | .both => !v.outLinks.isEmpty || !v.inLinks.isEmpty

/-- `free_vertex`: a guarded free refuses a vertex with incident edges. -/
def freeVertex (g : Graph) (guid : Guid) (guarded : Bool) : Graph × GdiStatus :=
  if guarded && (g.vertices.find? guid).isNone then (g, .errorVertex)
  else if guarded && g.hasIncidentEdges guid .both then (g, .errorEdge)
  else
    match g.removeVertex guid with
    | (g', none) => (g', .errorVertex)
    | (g', some _) => (g', .ok)

/-- `update_content`. -/
def updateContent (g : Graph) (guid : Guid) (content : Bytes) : Graph × Bool :=
  (g.updateVertex guid (·.setContent content), (g.vertices.find? guid).isSome)

/-- `adopt_vertex`: the loader's insertion. A taken key is ignored. -/
def adoptVertex (g : Graph) (guid : Guid) (v : DetachedVertex) : Graph × GdiStatus :=
  if (g.vertices.find? guid).isSome then (g, .errorVertex)
  else
    let adopted := (g.insertVertex guid v.1).restoreRemovedVertex guid
    if v.1.hasKey then ((adopted.insertKey v.1.key guid).1, .ok) else (adopted, .ok)

/-! ## Edges -/

/-- `_has_out_edge_locked`. -/
def hasOutEdgeLocked (origin : Vertex) (target : Guid) : Bool :=
  origin.outLinks.any (·.neighbour == target)

/-- Add the two links of an edge, the out link first. -/
def linkEdge (g : Graph) (id origin target : Guid) : Graph :=
  (g.updateVertex origin (·.addOutLink id target)).updateVertex target (·.addInLink id origin)

/-- Remove the two links of an edge; a missing endpoint is skipped. -/
def unlinkEdge (g : Graph) (id origin target : Guid) : Graph :=
  (g.updateVertex origin (·.removeOutLink id)).updateVertex target (·.removeInLink id)

/-- `_create_edge_locked`. The legacy API (`viaGdiApi = false`) never makes a self
loop or a second edge between two vertices. -/
def createEdgeLocked (g : Graph) (origin target : Guid) (direction : EdgeDirectionType)
    (labels : List LabelId) (properties : PropertyList) (viaGdiApi : Bool)
    (chosenUid : Option Guid) (minted : Guid) : Graph × GdiStatus × Option Guid :=
  match g.vertices.find? origin, g.vertices.find? target with
  | some originVertex, some _ =>
    if decide (origin = target) && !(viaGdiApi && g.options.allowSelfEdges) then
      (g, .errorEdge, none)
    else if (!viaGdiApi || !g.options.allowParallelEdges) &&
        hasOutEdgeLocked originVertex target then
      (g, .errorEdge, none)
    else
      let id := chosenUid.getD minted
      if chosenUid.isSome && (g.edges.find? id).isSome then (g, .errorNonUniqueId, none)
      else if labels.contains kNoLabel then (g, .errorLabel, none)
      else if (g.edges.find? id).isSome then (g, .errorIntern, none)
      else
        let edge : Edge :=
          { origin, target, direction, labels
            properties := PropertyBag.ofPropertyList properties }
        let inserted := g.insertEdge id edge
        let revived := if chosenUid.isSome then inserted.restoreRemovedEdge id else inserted
        (revived.linkEdge id origin target, .ok, some id)
  | _, _ => (g, .errorVertex, none)

/-- `edge_create`. The direction arrives as a raw byte. -/
def edgeCreate (g : Graph) (origin target : Guid) (direction : Byte) (labels : List LabelId)
    (properties : PropertyList) (chosenUid : Option Guid) (minted : Guid) :
    Graph × GdiStatus × Option Guid :=
  match EdgeDirectionType.ofCode? direction with
  | none => (g, .errorEdgeOrientation, none)
  | some d =>
    if !g.options.allowSelfEdges && decide (origin = target) then (g, .errorEdge, none)
    else g.createEdgeLocked origin target d labels properties true chosenUid minted

/-- `edge_free` (`_free_edge_locked`). -/
def edgeFree (g : Graph) (edge : Guid) : Graph × GdiStatus :=
  match g.edges.find? edge with
  | none => (g, .errorUid)
  | some e => ((g.buryEdge edge).unlinkEdge edge e.origin e.target, .ok)

/-- `_move_edge_endpoint`, shared by the two endpoint setters. -/
def moveEdgeEndpoint (g : Graph) (edge endpoint : Guid) (moveOrigin : Bool) :
    Graph × GdiStatus :=
  match g.edges.find? edge with
  | none => (g, .errorUid)
  | some e =>
    let newOrigin := if moveOrigin then endpoint else e.origin
    let newTarget := if moveOrigin then e.target else endpoint
    if newOrigin = e.origin ∧ newTarget = e.target then (g, .ok)
    else if (g.vertices.find? newOrigin).isNone || (g.vertices.find? newTarget).isNone then
      (g, .errorVertex)
    else
      let relinked := (g.unlinkEdge edge e.origin e.target).linkEdge edge newOrigin newTarget
      (relinked.updateEdge edge fun r =>
        Edge.markDirty { r with origin := newOrigin, target := newTarget }, .ok)

def edgeSetOrigin (g : Graph) (edge origin : Guid) : Graph × GdiStatus :=
  g.moveEdgeEndpoint edge origin true

def edgeSetTarget (g : Graph) (edge target : Guid) : Graph × GdiStatus :=
  g.moveEdgeEndpoint edge target false

/-- The shape every edge payload edit shares: an unknown uid is refused, a refusal
of the edit itself changes nothing, and an edit that goes through marks the record. -/
def editEdge (g : Graph) (edge : Guid) (edit : Edge → Except GdiStatus Edge) :
    Graph × GdiStatus :=
  match g.edges.find? edge with
  | none => (g, .errorUid)
  | some e =>
    match edit e with
    | .error status => (g, status)
    | .ok e' => (g.updateEdge edge fun _ => e'.markDirty, .ok)

/-- `edge_set_direction`. -/
def edgeSetDirection (g : Graph) (edge : Guid) (direction : Byte) : Graph × GdiStatus :=
  match EdgeDirectionType.ofCode? direction with
  | none => (g, .errorEdgeOrientation)
  | some d => g.editEdge edge fun e => .ok { e with direction := d }

/-- `edge_add_label`: the reserved id and a label already carried are refused. -/
def edgeAddLabel (g : Graph) (edge : Guid) (label : LabelId) : Graph × GdiStatus :=
  if label = kNoLabel then (g, .errorLabel)
  else g.editEdge edge fun e =>
    if e.labels.contains label then .error .errorLabel
    else .ok { e with labels := e.labels ++ [label] }

/-- `edge_remove_label`: the first occurrence. -/
def edgeRemoveLabel (g : Graph) (edge : Guid) (label : LabelId) : Graph × GdiStatus :=
  g.editEdge edge fun e =>
    if e.labels.contains label then .ok { e with labels := e.labels.erase label }
    else .error .errorLabel

/-- `edge_add_property`. -/
def edgeAddProperty (g : Graph) (edge : Guid) (name : PropNameId) (value : PropertyValue) :
    Graph × GdiStatus :=
  g.editEdge edge fun e =>
    if (e.properties.find? name).isSome then .error .errorPropertyExists
    else .ok { e with properties := e.properties.insert name value }

/-- `edge_set_property`. -/
def edgeSetProperty (g : Graph) (edge : Guid) (name : PropNameId) (value : PropertyValue) :
    Graph × GdiStatus :=
  g.editEdge edge fun e =>
    if (e.properties.find? name).isSome then
      .ok { e with properties := e.properties.insert name value }
    else .error .errorNoProperty

/-- `edge_put_property`. -/
def edgePutProperty (g : Graph) (edge : Guid) (name : PropNameId) (value : PropertyValue) :
    Graph × GdiStatus :=
  g.editEdge edge fun e => .ok { e with properties := e.properties.insert name value }

/-- `edge_remove_properties`: marks the record even when no name was there. -/
def edgeRemoveProperties (g : Graph) (edge : Guid) (names : List PropNameId) :
    Graph × GdiStatus :=
  g.editEdge edge fun e => .ok { e with properties := names.foldl Table.erase e.properties }

/-- `connect`: one directed edge for an ordered pair. -/
def connect (g : Graph) (source target minted : Guid) : Graph × Bool :=
  if source = target then (g, false)
  else
    let (g', status, _) := g.createEdgeLocked source target .directed [] [] false none minted
    (g', decide (status = .ok))

/-- The loop of `_disconnect_locked`: the first link to the target whose record can
be erased. -/
def disconnectLoop (g : Graph) (source target : Guid) : List EdgeLink → Graph × Bool
  | [] => (g, false)
  | link :: rest =>
    if link.neighbour ≠ target then g.disconnectLoop source target rest
    else
      match g.edges.find? link.edge with
      | none => g.disconnectLoop source target rest
      | some _ => ((g.buryEdge link.edge).unlinkEdge link.edge source target, true)

/-- `disconnect`. -/
def disconnect (g : Graph) (source target : Guid) : Graph × Bool :=
  match g.vertices.find? source with
  | none => (g, false)
  | some v => g.disconnectLoop source target v.outLinks

/-- The verdict `connect_bulk` gives a row before anything is created. -/
def bulkVerdict (g : Graph) (request : EdgeRequest) : EdgeOutcome :=
  if request.source = request.target then .selfEdge
  else if (g.vertices.find? request.source).isNone then .missingSource
  else if (g.vertices.find? request.target).isNone then .missingTarget
  else .created

/-- The creation pass of `connect_bulk` over rows with their verdicts; each row comes
with the guid its edge would be minted under. -/
def connectPending (g : Graph) : List (EdgeRequest × Guid × EdgeOutcome) →
    Graph × List EdgeOutcome
  | [] => (g, [])
  | (request, minted, verdict) :: rest =>
    if verdict ≠ .created then
      let (g', outcomes) := g.connectPending rest
      (g', verdict :: outcomes)
    else
      let (created, status, _) :=
        g.createEdgeLocked request.source request.target .directed [] [] false none minted
      let (g', outcomes) := created.connectPending rest
      (g', (if status = .ok then .created else .duplicateEdge) :: outcomes)

/-- `connect_bulk`. -/
def connectBulk (g : Graph) (requests : List (EdgeRequest × Guid)) : Graph × List EdgeOutcome :=
  g.connectPending (requests.map fun r => (r.1, r.2, g.bulkVerdict r.1))

/-- `adopt_edge`: the loader's insertion. Only the self-edge option is looked at, and
a record whose endpoint is missing is taken out again. -/
def adoptEdge (g : Graph) (id : Guid) (edge : Edge) : Graph × GdiStatus :=
  if decide (edge.origin = edge.target) && !g.options.allowSelfEdges then (g, .errorEdge)
  else if (g.edges.find? id).isSome then (g, .errorVertex)
  else
    let inserted := (g.insertEdge id edge).restoreRemovedEdge id
    if (g.vertices.find? edge.origin).isNone || (g.vertices.find? edge.target).isNone then
      (inserted.eraseEdge id, .errorVertex)
    else (inserted.linkEdge id edge.origin edge.target, .ok)

end Graph

end KimixNative.GraphDb
