import KimixNative.GraphDb.Adjacency
import KimixNative.GraphDb.Database

/-!
# What a caller can read back

A `Reading` is the part of a database that its commands answer from: the vertices with key,
labels, properties and content, the edges with endpoints, direction, labels and properties,
the key lookup, and the registered labels and property types. It forgets the adjacency lists
(the edges determine them), the dirty bookkeeping, the tombstones, the journal and every
order of storage.

Each graph operation acts on readings in a way of its own, and `Reading.undo` says what the
rollback of one journal entry does. `reading_undo` is the connection: in a database whose
links and registries are in order, undoing an entry and reading is reading and undoing.
-/

namespace KimixNative.GraphDb

@[ext] structure VertexReading where
  content : Bytes
  keyLabel : LabelId
  externalId : Bytes
  labels : List LabelId
  properties : PropNameId → Option PropertyValue

@[ext] structure EdgeReading where
  origin : Guid
  target : Guid
  direction : EdgeDirectionType
  labels : List LabelId
  properties : PropNameId → Option PropertyValue

@[ext] structure GraphReading where
  vertices : Guid → Option VertexReading
  edges : Guid → Option EdgeReading
  keys : VertexKey → Option Guid

@[ext] structure SchemaReading where
  labels : LabelId → Option Bytes
  types : PropNameId → Option PropertyTypeInfo

@[ext] structure Reading where
  graph : GraphReading
  schema : SchemaReading

def Vertex.reading (v : Vertex) : VertexReading :=
  ⟨v.content, v.keyLabel, v.externalId, v.labels, v.properties.find?⟩

def Edge.reading (e : Edge) : EdgeReading :=
  ⟨e.origin, e.target, e.direction, e.labels, e.properties.find?⟩

def Graph.reading (g : Graph) : GraphReading where
  vertices u := (g.vertices.find? u).map Vertex.reading
  edges d := (g.edges.find? d).map Edge.reading
  keys := g.findKey

def Schema.reading (s : Schema) : SchemaReading := ⟨s.labels.get?, s.propertyTypes.get?⟩

def Database.reading (db : Database) : Reading := ⟨db.graph.reading, db.schema.reading⟩

namespace VertexReading

def key (x : VertexReading) : VertexKey := ⟨x.keyLabel, x.externalId⟩

/-- The reading after `restore_payload`. -/
def restore (x : VertexReading) (labels : List LabelId) (properties : PropertyList) :
    VertexReading :=
  { x with
    labels := labels.filter (· ≠ kNoLabel)
    properties := (PropertyBag.ofPropertyList properties).find? }

end VertexReading

/-- The reading of the edge a record describes. -/
def EdgeRecord.reading (record : EdgeRecord) : EdgeReading :=
  ⟨record.origin, record.target, record.direction, record.labels,
    (PropertyBag.ofPropertyList record.properties).find?⟩

/-! ## The operations on readings -/

namespace GraphReading

variable (R : GraphReading)

def setVertex (u : Guid) (x : Option VertexReading) : GraphReading :=
  { R with vertices := Function.update R.vertices u x }

def setEdge (d : Guid) (e : Option EdgeReading) : GraphReading :=
  { R with edges := Function.update R.edges d e }

/-- A vertex goes with its incident edges and its key entry. -/
def removeVertex (u : Guid) : GraphReading :=
  match R.vertices u with
  | none => R
  | some x =>
    { vertices := Function.update R.vertices u none
      edges := fun d => (R.edges d).filter fun e => e.origin ≠ u ∧ e.target ≠ u
      keys := if x.keyLabel ≠ kNoLabel then Function.update R.keys x.key none else R.keys }

/-- A free guid takes the vertex, and a free key takes the guid. -/
def adoptVertex (u : Guid) (x : VertexReading) : GraphReading :=
  if (R.vertices u).isSome then R
  else
    { R.setVertex u (some x) with
      keys :=
        if x.keyLabel ≠ kNoLabel ∧ R.keys x.key = none then
          Function.update R.keys x.key (some u)
        else R.keys }

/-- An edge is refused as a self loop, under a taken uid, or without live endpoints. -/
def adoptEdge (allowSelf : Bool) (d : Guid) (e : EdgeReading) : GraphReading :=
  if e.origin = e.target ∧ allowSelf = false ∨ (R.edges d).isSome ∨
      R.vertices e.origin = none ∨ R.vertices e.target = none then R
  else R.setEdge d (some e)

/-- An edge is put back; an endpoint that is gone is not taken back. -/
def restoreEdge (d : Guid) (e : EdgeReading) : GraphReading :=
  match R.edges d with
  | none => R
  | some now =>
    R.setEdge d <| some
      { e with
        origin := if (R.vertices e.origin).isSome then e.origin else now.origin
        target := if (R.vertices e.target).isSome then e.target else now.target }

end GraphReading

namespace Graph

variable (g : Graph)

@[simp] theorem reading_vertices (u : Guid) :
    g.reading.vertices u = (g.vertices.find? u).map Vertex.reading := rfl

@[simp] theorem reading_edges (d : Guid) :
    g.reading.edges d = (g.edges.find? d).map Edge.reading := rfl

@[simp] theorem reading_keys (k : VertexKey) : g.reading.keys k = g.findKey k := rfl

theorem reading_congr {v w : Vertex} (h : v.payload = w.payload) : v.reading = w.reading := by
  simp only [Vertex.payload, Vertex.Payload.mk.injEq] at h
  simp [Vertex.reading, h]

@[simp] theorem reading_clearLinks (v : Vertex) : v.clearLinks.reading = v.reading := rfl

theorem reading_updateVertex (u : Guid) (f : Vertex → Vertex) :
    (g.updateVertex u f).reading =
      g.reading.setVertex u ((g.vertices.find? u).map fun v => (f v).reading) := by
  ext1
  · funext w
    simp only [reading, GraphReading.setVertex, find?_updateVertex, Function.update_apply]
    split
    · simp [Function.comp_def]
    · rfl
  · simp [reading, GraphReading.setVertex]
  · funext k
    simp [reading, GraphReading.setVertex, findKey]

/-- A mutator that keeps every payload is invisible. -/
theorem reading_updateVertex_links (u : Guid) {f : Vertex → Vertex}
    (hf : ∀ v, (f v).payload = v.payload) : (g.updateVertex u f).reading = g.reading := by
  rw [reading_updateVertex]
  ext1
  · simp only [GraphReading.setVertex, reading]
    funext w
    by_cases hw : w = u
    · subst hw
      simp only [Function.update_self]
      congr 1
      funext v
      exact reading_congr (hf v)
    · simp [hw]
  · rfl
  · rfl

theorem reading_updateEdge (d : Guid) (f : Edge → Edge) :
    (g.updateEdge d f).reading =
      g.reading.setEdge d ((g.edges.find? d).map fun e => (f e).reading) := by
  ext1
  · simp [reading, GraphReading.setEdge]
  · funext c
    simp only [reading, GraphReading.setEdge, find?_updateEdge, Function.update_apply]
    split
    · simp [Function.comp_def]
    · rfl
  · funext k
    simp [reading, GraphReading.setEdge, findKey]

@[simp] theorem reading_linkEdge (id o t : Guid) : (g.linkEdge id o t).reading = g.reading := by
  unfold linkEdge
  rw [reading_updateVertex_links _ _ fun v => v.payload_addInLink id o,
    reading_updateVertex_links _ _ fun v => v.payload_addOutLink id t]

@[simp] theorem reading_unlinkEdge (id o t : Guid) :
    (g.unlinkEdge id o t).reading = g.reading := by
  unfold unlinkEdge
  rw [reading_updateVertex_links _ _ fun v => v.payload_removeInLink id,
    reading_updateVertex_links _ _ fun v => v.payload_removeOutLink id]

@[simp] theorem reading_restoreRemovedEdge (id : Guid) :
    (g.restoreRemovedEdge id).reading = g.reading := rfl

@[simp] theorem reading_restoreRemovedVertex (u : Guid) :
    (g.restoreRemovedVertex u).reading = g.reading := rfl

theorem reading_insertEdge (id : Guid) (e : Edge) :
    (g.insertEdge id e).reading = g.reading.setEdge id (some e.reading) := by
  ext1
  · rfl
  · funext d
    simp only [reading, GraphReading.setEdge, find?_insertEdge, Function.update_apply]
    split <;> rfl
  · rfl

theorem reading_eraseEdge (id : Guid) :
    (g.eraseEdge id).reading = g.reading.setEdge id none := by
  ext1
  · rfl
  · funext d
    simp only [reading, GraphReading.setEdge, find?_eraseEdge, Function.update_apply]
    split <;> rfl
  · rfl

theorem reading_buryEdge (id : Guid) : (g.buryEdge id).reading = g.reading.setEdge id none :=
  g.reading_eraseEdge id

theorem reading_insertVertex (u : Guid) (v : Vertex) :
    (g.insertVertex u v).reading = g.reading.setVertex u (some v.reading) := by
  ext1
  · funext w
    simp only [reading, GraphReading.setVertex, find?_insertVertex, Function.update_apply]
    split <;> rfl
  · rfl
  · rfl

theorem reading_edgeFree (d : Guid) : (g.edgeFree d).1.reading = g.reading.setEdge d none := by
  unfold edgeFree
  cases he : g.edges.find? d with
  | none =>
    ext1
    · rfl
    · funext c
      by_cases hc : c = d
      · simp [reading, GraphReading.setEdge, hc, he]
      · simp [reading, GraphReading.setEdge, hc]
    · rfl
  | some e => simp only [reading_unlinkEdge, reading_buryEdge]

theorem findKey_congr {g g' : Graph} (h : g'.keys = g.keys) (k : VertexKey) :
    g'.findKey k = g.findKey k := by
  simp [findKey, h]

theorem findKey_removeVertex {u : Guid} {victim : Vertex} (hv : g.vertices.find? u = some victim)
    (k : VertexKey) :
    (g.removeVertex u).1.findKey k =
      if victim.hasKey = true ∧ k = victim.key then none else g.findKey k := by
  unfold findKey
  rw [removeVertex_keys hv]
  by_cases hk : victim.hasKey = true
  · simp only [hk, if_true, true_and, Table.find?_erase]
    split
    · simp
    · rfl
  · simp [hk]

/-- An existing entry keeps its vertex. -/
theorem findKey_insertKey {key : VertexKey} (hl : key.label ≠ kNoLabel) (u : Guid)
    (k : VertexKey) :
    (g.insertKey key u).1.findKey k =
      if k = key then (g.findKey key).or (some u) else g.findKey k := by
  unfold findKey
  rw [find?_insertKey g hl]
  by_cases hk : k = key
  · simp [hk, hl]
  · simp [hk]

/-- Removal, read back: with coherent links the cascade is the incident edges. -/
theorem reading_removeVertex (h : g.Linked) (u : Guid) :
    (g.removeVertex u).1.reading = g.reading.removeVertex u := by
  cases hv : g.vertices.find? u with
  | none =>
    rw [removeVertex_of_none hv]
    simp [GraphReading.removeVertex, reading, hv]
  | some victim =>
    have hread : g.reading.vertices u = some victim.reading := by simp [reading, hv]
    simp only [GraphReading.removeVertex, hread]
    ext1
    · funext w
      simp only [reading, find?_vertices_removeVertex hv, Function.update_apply]
      split
      · rfl
      · rw [Option.map_map]
        congr 1
        funext v
        exact reading_congr (payload_unlinkAll w _ v)
    · funext d
      simp only [reading, find?_edges_removeVertex hv, h.mem_cascadeOf hv]
      cases he : g.edges.find? d with
      | none => simp
      | some e =>
        by_cases hinc : e.origin = u ∨ e.target = u
        · have hnot : ¬(e.reading.origin ≠ u ∧ e.reading.target ≠ u) :=
            fun hc => hinc.elim hc.1 hc.2
          rw [if_pos ⟨e, rfl, hinc⟩, Option.map_some, Option.filter_some_neg (by simpa using hnot)]
          rfl
        · have hkeep : e.reading.origin ≠ u ∧ e.reading.target ≠ u :=
            ⟨fun ho => hinc (.inl ho), fun ht => hinc (.inr ht)⟩
          rw [if_neg (by rintro ⟨e', he', hor⟩; cases he'; exact hinc hor), Option.map_some,
            Option.filter_some_pos (by simpa using hkeep)]
    · funext k
      rw [reading_keys, g.findKey_removeVertex hv]
      by_cases hk : victim.keyLabel = kNoLabel
      · simp [Vertex.hasKey, Vertex.reading, hk]
      · have hkey : victim.hasKey = true := by simp [Vertex.hasKey, hk]
        have hne : victim.reading.keyLabel ≠ kNoLabel := hk
        simp only [hkey, true_and, if_pos hne, Function.update_apply, reading_keys]
        rfl

theorem reading_adoptVertex (u : Guid) (v : DetachedVertex) :
    (g.adoptVertex u v).1.reading = g.reading.adoptVertex u v.1.reading := by
  obtain ⟨heq, hsome⟩ | ⟨hnone, heq⟩ := g.adoptVertex_cases u v
  · rw [heq]
    simp [GraphReading.adoptVertex, reading, hsome]
  · rw [heq]
    have hread : (g.reading.vertices u).isSome = false := by simp [reading, hnone]
    simp only [GraphReading.adoptVertex, hread, Bool.false_eq_true, if_false]
    have hins : ((g.insertVertex u v.1).restoreRemovedVertex u).reading =
        g.reading.setVertex u (some v.1.reading) := by
      rw [reading_restoreRemovedVertex, reading_insertVertex]
    by_cases hk : v.1.keyLabel = kNoLabel
    · have hkey : v.1.hasKey = false := by simp [Vertex.hasKey, hk]
      simp only [hkey, Bool.false_eq_true, if_false, hins]
      simp [Vertex.reading, hk, GraphReading.setVertex]
    · have hkey : v.1.hasKey = true := by simp [Vertex.hasKey, hk]
      have hl : v.1.key.label ≠ kNoLabel := hk
      simp only [hkey, if_true]
      rw [← hins]
      ext1
      · simp [reading]
      · simp [reading]
      · funext k
        have hlr : v.1.reading.keyLabel ≠ kNoLabel := hk
        have hold : ∀ k, ((g.insertVertex u v.1).restoreRemovedVertex u).findKey k = g.findKey k :=
          findKey_congr rfl
        rw [reading_keys, findKey_insertKey _ hl, hold, hold,
          show v.1.reading.key = v.1.key from rfl, g.reading_keys]
        simp only
        cases hf : g.findKey v.1.key with
        | none =>
          simp only [hlr, ne_eq, not_false_eq_true, true_and, if_true, Function.update_apply,
            reading_keys, Option.none_or]
        | some w =>
          simp only [reduceCtorEq, and_false, if_false, reading_keys, Option.some_or]
          by_cases hkv : k = v.1.key
          · rw [if_pos hkv, hkv, hf]
          · rw [if_neg hkv]

theorem reading_adoptEdge (d : Guid) (e : Edge) :
    (g.adoptEdge d e).1.reading = g.reading.adoptEdge g.options.allowSelfEdges d e.reading := by
  obtain ⟨status, heq, hwhy⟩ | ⟨hfree, hself, hrest⟩ := g.adoptEdge_cases d e
  · rw [heq, GraphReading.adoptEdge, if_pos]
    rcases hwhy with ⟨hloop, hallow⟩ | hsome
    · exact .inl ⟨hloop, hallow⟩
    · exact .inr (.inl (by simpa [reading] using hsome))
  · obtain ⟨hdead, heq⟩ | ⟨ho, ht, heq⟩ := hrest
    · rw [heq, GraphReading.adoptEdge, if_pos]
      · rw [reading_eraseEdge, reading_restoreRemovedEdge, reading_insertEdge]
        ext1
        · rfl
        · funext c
          by_cases hc : c = d
          · simp [GraphReading.setEdge, hc, reading, hfree]
          · simp [GraphReading.setEdge, hc]
        · rfl
      · refine .inr (.inr ?_)
        simpa [reading, Edge.reading] using hdead
    · rw [heq, GraphReading.adoptEdge, if_neg]
      · rw [reading_linkEdge, reading_restoreRemovedEdge, reading_insertEdge]
      · rintro (⟨hloop, hallow⟩ | hsome | hnone | hnone)
        · rw [hself hloop] at hallow
          cases hallow
        · simp [reading, hfree] at hsome
        · obtain ⟨v, hv⟩ := Option.isSome_iff_exists.mp ho
          simp [reading, Edge.reading, hv] at hnone
        · obtain ⟨v, hv⟩ := Option.isSome_iff_exists.mp ht
          simp [reading, Edge.reading, hv] at hnone

variable {d : Guid} {x : EdgeReading}

variable {g} in
theorem edge_of_reading (hx : g.reading.edges d = some x) :
    ∃ e, g.edges.find? d = some e ∧ e.reading = x :=
  Option.map_eq_some_iff.mp hx

variable {g} in
/-- Both endpoint setters, read back: a dead endpoint is not taken. -/
theorem reading_moveEdgeEndpoint (h : g.Linked) (hx : g.reading.edges d = some x) (p : Guid)
    (moveOrigin : Bool) :
    (g.moveEdgeEndpoint d p moveOrigin).1.reading =
      if (g.reading.vertices p).isSome then
        g.reading.setEdge d (some { x with
          origin := if moveOrigin then p else x.origin
          target := if moveOrigin then x.target else p })
      else g.reading := by
  obtain ⟨e, he, rfl⟩ := edge_of_reading hx
  obtain ⟨o, ho⟩ := h.origin_live he
  obtain ⟨t, ht⟩ := h.target_live he
  have hsame : g.reading.setEdge d (some e.reading) = g.reading := by
    ext1
    · rfl
    · funext c
      by_cases hc : c = d
      · simp [GraphReading.setEdge, hc, he]
      · simp [GraphReading.setEdge, hc]
    · rfl
  have hmoved : ∀ o' t', ((((g.unlinkEdge d e.origin e.target).linkEdge d o' t').updateEdge d
      fun r => Edge.markDirty { r with origin := o', target := t' })).reading =
        g.reading.setEdge d (some { e.reading with origin := o', target := t' }) := by
    intro o' t'
    rw [reading_updateEdge, linkEdge_edges, unlinkEdge_edges, he, reading_linkEdge,
      reading_unlinkEdge]
    rfl
  rw [reading_vertices, Option.isSome_map]
  cases hp : g.vertices.find? p with
  | none =>
    cases moveOrigin with
    | true =>
      have hne : p ≠ e.origin := fun heq => by rw [heq, ho] at hp; cases hp
      simp [moveEdgeEndpoint, he, hp, hne]
    | false =>
      have hne : p ≠ e.target := fun heq => by rw [heq, ht] at hp; cases hp
      simp [moveEdgeEndpoint, he, hp, hne]
  | some v =>
    rw [Option.isSome_some, if_pos rfl]
    cases moveOrigin with
    | true =>
      by_cases heq : p = e.origin
      · subst heq
        refine Eq.trans ?_ hsame.symm
        simp [moveEdgeEndpoint, he]
      · refine Eq.trans ?_ (hmoved p e.target)
        simp [moveEdgeEndpoint, he, heq, hp, ht]
    | false =>
      by_cases heq : p = e.target
      · subst heq
        refine Eq.trans ?_ hsame.symm
        simp [moveEdgeEndpoint, he]
      · refine Eq.trans ?_ (hmoved e.origin p)
        simp [moveEdgeEndpoint, he, heq, hp, ho]

theorem reading_edgeSetDirection (hx : g.reading.edges d = some x) (direction : EdgeDirectionType) :
    (g.edgeSetDirection d direction.code).1.reading =
      g.reading.setEdge d (some { x with direction }) := by
  obtain ⟨e, he, rfl⟩ := edge_of_reading hx
  simp only [edgeSetDirection, EdgeDirectionType.ofCode?_code, editEdge, he, reading_updateEdge,
    Option.map_some]
  rfl

theorem reading_edgeRestorePayload (hx : g.reading.edges d = some x) (labels : List LabelId)
    (properties : PropertyList) :
    (g.edgeRestorePayload d labels properties).reading =
      g.reading.setEdge d (some { x with
        labels, properties := (PropertyBag.ofPropertyList properties).find? }) := by
  obtain ⟨e, he, rfl⟩ := edge_of_reading hx
  simp only [edgeRestorePayload, reading_updateEdge, he, Option.map_some]
  rfl

variable {g} in
/-- The rollback of an edge edit, read back. -/
theorem reading_restoreEdgeState (h : g.Linked) (record : EdgeRecord) :
    (Database.restoreEdgeState g record).reading =
      g.reading.restoreEdge record.id record.reading := by
  unfold Database.restoreEdgeState GraphReading.restoreEdge
  cases he : g.edges.find? record.id with
  | none => simp [he]
  | some e =>
    simp only [reading_edges, he, Option.map_some]
    have hx : g.reading.edges record.id = some e.reading := by simp [he]
    have hsame : ∀ {g' : Graph} {x : EdgeReading}, g'.reading.edges record.id = some x →
        g'.reading.setEdge record.id (some x) = g'.reading := by
      intro g' x hx'
      simp only [GraphReading.setEdge, ← hx', Function.update_eq_self]
    -- the origin goes back first
    obtain ⟨g₁, hg₁, hlinked₁, hr₁⟩ : ∃ g₁, (if e.origin ≠ record.origin then
        (g.edgeSetOrigin record.id record.origin).1 else g) = g₁ ∧ g₁.Linked ∧
        g₁.reading = g.reading.setEdge record.id (some { e.reading with
          origin := if (g.reading.vertices record.origin).isSome then record.origin
            else e.origin }) := by
      refine ⟨_, rfl, ?_, ?_⟩
      · split
        · exact h.moveEdgeEndpoint ..
        · exact h
      · split
        · rw [edgeSetOrigin, reading_moveEdgeEndpoint h hx]
          split
          · rfl
          · exact (hsame hx).symm
        · next heq =>
            rw [← not_not.mp heq, ite_self]
            exact (hsame hx).symm
    have hx₁ : g₁.reading.edges record.id = some { e.reading with
        origin := if (g.reading.vertices record.origin).isSome then record.origin
          else e.origin } := by
      rw [hr₁]
      simp [GraphReading.setEdge]
    -- then the target
    obtain ⟨g₂, hg₂, hr₂⟩ : ∃ g₂, (if e.target ≠ record.target then
        (g₁.edgeSetTarget record.id record.target).1 else g₁) = g₂ ∧
        g₂.reading = g₁.reading.setEdge record.id (some { e.reading with
          origin := if (g.reading.vertices record.origin).isSome then record.origin
            else e.origin
          target := if (g.reading.vertices record.target).isSome then record.target
            else e.target }) := by
      refine ⟨_, rfl, ?_⟩
      have hvertices : g₁.reading.vertices = g.reading.vertices := by rw [hr₁]; rfl
      split
      · rw [edgeSetTarget, reading_moveEdgeEndpoint hlinked₁ hx₁, hvertices]
        split
        · rfl
        · exact (hsame hx₁).symm
      · next heq =>
          rw [← not_not.mp heq, ite_self]
          exact (hsame hx₁).symm
    have hx₂ : g₂.reading.edges record.id = some { e.reading with
        origin := if (g.reading.vertices record.origin).isSome then record.origin
          else e.origin
        target := if (g.reading.vertices record.target).isSome then record.target
          else e.target } := by
      rw [hr₂]
      simp [GraphReading.setEdge]
    have hr₃ := g₂.reading_edgeSetDirection hx₂ record.direction
    have hx₃ : (g₂.edgeSetDirection record.id record.direction.code).1.reading.edges record.id =
        some { e.reading with
          origin := if (g.reading.vertices record.origin).isSome then record.origin
            else e.origin
          target := if (g.reading.vertices record.target).isSome then record.target
            else e.target
          direction := record.direction } := by
      rw [hr₃]
      simp [GraphReading.setEdge]
    rw [hg₁, hg₂, reading_edgeRestorePayload _ hx₃, hr₃, hr₂, hr₁]
    simp only [GraphReading.setEdge, Function.update_idem]
    rfl

end Graph

namespace SchemaReading

variable (S : SchemaReading)

def setLabel (label : LabelId) (name : Option Bytes) : SchemaReading :=
  { S with labels := Function.update S.labels label name }

def setType (property : PropNameId) (info : Option PropertyTypeInfo) : SchemaReading :=
  { S with types := Function.update S.types property info }

/-- Whether another label has the name. -/
def LabelClash (label : LabelId) (name : Bytes) : Prop :=
  ∃ other, other ≠ label ∧ S.labels other = some name

/-- Whether another property type has the name. -/
def TypeClash (property : PropNameId) (name : Bytes) : Prop :=
  ∃ other info, other ≠ property ∧ S.types other = some info ∧ info.name = name

open Classical in
/-- `rename_label`, read back. -/
noncomputable def renameLabel (label : LabelId) (name : Bytes) : SchemaReading :=
  if isBlank name = true ∨ S.labels label = none ∨ S.LabelClash label name then S
  else S.setLabel label (some name)

open Classical in
/-- `restore_label`, read back. -/
noncomputable def restoreLabel (label : LabelId) (name : Bytes) : SchemaReading :=
  if label = kNoLabel ∨ isBlank name = true ∨ S.labels label ≠ none ∨ S.LabelClash label name then S
  else S.setLabel label (some name)

open Classical in
/-- `update_property_type` without live values, read back. -/
noncomputable def updatePropertyType (property : PropNameId) (info : PropertyTypeInfo) :
    SchemaReading :=
  if isBlank info.name = true ∨ (validatePropertyTypeDeclaration info).isError = true ∨
      S.types property = none ∨ S.TypeClash property info.name then S
  else S.setType property (some { canonicalizePropertyType info with nameId := property })

open Classical in
/-- `restore_property_type`, read back. -/
noncomputable def restorePropertyType (info : PropertyTypeInfo) : SchemaReading :=
  if info.nameId = kNoPropName ∨ isBlank info.name = true ∨ S.types info.nameId ≠ none ∨
      S.TypeClash info.nameId info.name then S
  else S.setType info.nameId (some info)

end SchemaReading

namespace Schema

variable {s : Schema} (h : s.WellFormed)
include h

theorem reading_freeLabel (label : LabelId) :
    (s.freeLabel label).1.reading = s.reading.setLabel label none := by
  unfold freeLabel
  cases hget : s.labels.get? label with
  | none =>
    ext1
    · funext l
      by_cases hl : l = label
      · simp [reading, SchemaReading.setLabel, hl, hget]
      · simp [reading, SchemaReading.setLabel, hl]
    · rfl
  | some name =>
    ext1
    · funext l
      simp only [reading, SchemaReading.setLabel, Function.update_apply,
        Registry.get?_drop _ _ h.labels.nodup]
    · rfl

theorem reading_freePropertyType (property : PropNameId) :
    (s.freePropertyType property).1.reading = s.reading.setType property none := by
  unfold freePropertyType
  cases hget : s.propertyTypes.get? property with
  | none =>
    ext1
    · rfl
    · funext p
      by_cases hp : p = property
      · simp [reading, SchemaReading.setType, hp, hget]
      · simp [reading, SchemaReading.setType, hp]
  | some info =>
    ext1
    · rfl
    · funext p
      simp only [reading, SchemaReading.setType, Function.update_apply,
        Registry.get?_drop _ _ h.propertyTypes.nodup]

/-- The name lookup finds exactly the clashes. -/
theorem findLabelLocked_clash (label : LabelId) (name : Bytes) :
    (s.findLabelLocked name ≠ kNoLabel ∧ s.findLabelLocked name ≠ label) ↔
      s.reading.LabelClash label name := by
  unfold findLabelLocked SchemaReading.LabelClash
  simp only [reading]
  cases hb : s.labels.byName.find? name with
  | none =>
    simp only [Option.getD_none, ne_eq, not_true_eq_false, false_and, false_iff, not_exists,
      not_and]
    intro other _ hother
    exact h.labels.name_ne hb hother rfl
  | some found =>
    obtain ⟨w, hw, heq⟩ := (h.labels.byName_iff name found).mp hb
    simp only [id_eq] at heq
    subst heq
    simp only [Option.getD_some]
    constructor
    · rintro ⟨-, hne⟩
      exact ⟨found, hne, hw⟩
    · rintro ⟨other, hne, hother⟩
      have := (h.labels.byName_iff w other).mpr ⟨w, hother, rfl⟩
      rw [hb] at this
      cases this
      exact ⟨(h.labelEntries _ _ hw).1, hne⟩

theorem findPropertyTypeLocked_clash (property : PropNameId) (name : Bytes) :
    (s.findPropertyTypeLocked name ≠ kNoPropName ∧ s.findPropertyTypeLocked name ≠ property) ↔
      s.reading.TypeClash property name := by
  unfold findPropertyTypeLocked SchemaReading.TypeClash
  simp only [reading]
  cases hb : s.propertyTypes.byName.find? name with
  | none =>
    simp only [Option.getD_none, ne_eq, not_true_eq_false, false_and, false_iff, not_exists,
      not_and]
    intro other info _ hother
    exact h.propertyTypes.name_ne hb hother
  | some found =>
    obtain ⟨w, hw, heq⟩ := (h.propertyTypes.byName_iff name found).mp hb
    simp only [Option.getD_some]
    constructor
    · rintro ⟨-, hne⟩
      exact ⟨found, w, hne, hw, heq⟩
    · rintro ⟨other, info, hne, hother, hname⟩
      have := (h.propertyTypes.byName_iff name other).mpr ⟨info, hother, hname⟩
      rw [hb] at this
      cases this
      exact ⟨(h.propertyTypeEntries _ _ hw).1, hne⟩

theorem reading_renameLabel (label : LabelId) (name : Bytes) :
    (s.renameLabel label name).1.reading = s.reading.renameLabel label name := by
  have hclash := findLabelLocked_clash h label name
  unfold renameLabel SchemaReading.renameLabel
  by_cases hblank : isBlank name = true
  · simp [hblank]
  rw [if_neg hblank]
  cases hget : s.labels.get? label with
  | none => simp [reading, hget]
  | some old =>
    simp only
    by_cases hc : s.reading.LabelClash label name
    · rw [if_pos (hclash.mpr hc), if_pos (.inr (.inr hc))]
    · have hgo : ¬(isBlank name = true ∨ s.reading.labels label = none ∨
          s.reading.LabelClash label name) := by
        rintro (hb | hn | hcl)
        · exact hblank hb
        · simp [reading, hget] at hn
        · exact hc hcl
      rw [if_neg fun h' => hc (hclash.mp h'), if_neg hgo]
      split
      · next hsame =>
          subst hsame
          ext1
          · funext l
            by_cases hl : l = label
            · simp [SchemaReading.setLabel, reading, hl, hget]
            · simp [SchemaReading.setLabel, hl]
          · rfl
      · ext1
        · funext l
          simp only [reading, SchemaReading.setLabel, Function.update_apply,
            Registry.get?_replace, hget, Option.map_some]
        · rfl

theorem reading_restoreLabel (label : LabelId) (name : Bytes) :
    (s.restoreLabel label name).1.reading = s.reading.restoreLabel label name := by
  have hclash := findLabelLocked_clash h label name
  unfold restoreLabel SchemaReading.restoreLabel
  by_cases hzero : label = kNoLabel
  · simp [hzero]
  rw [if_neg hzero]
  by_cases hblank : isBlank name = true
  · simp [hblank]
  rw [if_neg hblank]
  cases hget : s.labels.get? label with
  | some old => simp [hasLabel, reading, hget]
  | none =>
    have hself : s.findLabelLocked name ≠ kNoLabel → s.findLabelLocked name ≠ label := by
      intro hne heq
      cases hb : s.labels.byName.find? name with
      | none => simp [findLabelLocked, hb] at hne
      | some found =>
        obtain ⟨w, hw, -⟩ := (h.labels.byName_iff name found).mp hb
        simp only [findLabelLocked, hb, Option.getD_some] at heq
        rw [heq, hget] at hw
        cases hw
    rw [if_neg (by simp [hasLabel, hget])]
    by_cases hc : s.reading.LabelClash label name
    · rw [if_pos (hclash.mpr hc).1, if_pos (.inr (.inr (.inr hc)))]
    · have hgo : ¬(label = kNoLabel ∨ isBlank name = true ∨ s.reading.labels label ≠ none ∨
          s.reading.LabelClash label name) := by
        rintro (hz | hb | hn | hcl)
        · exact hzero hz
        · exact hblank hb
        · exact hn hget
        · exact hc hcl
      rw [if_neg fun hne => hc (hclash.mp ⟨hne, hself hne⟩), if_neg hgo]
      ext1
      · funext l
        simp only [reading, SchemaReading.setLabel, Function.update_apply, Registry.get?_add]
        by_cases hl : l = label
        · simp [hl, hget]
        · simp [hl]
      · rfl

theorem reading_updatePropertyType (property : PropNameId) (info : PropertyTypeInfo) :
    (s.updatePropertyType property info false).1.reading =
      s.reading.updatePropertyType property info := by
  have hclash := findPropertyTypeLocked_clash h property info.name
  unfold updatePropertyType SchemaReading.updatePropertyType
  by_cases hblank : isBlank info.name = true
  · simp [hblank]
  rw [if_neg hblank]
  by_cases hvalid : (validatePropertyTypeDeclaration info).isError = true
  · simp [hvalid]
  rw [if_neg hvalid]
  cases hget : s.propertyTypes.get? property with
  | none => simp [reading, hget]
  | some old =>
    simp only [Bool.and_false, Bool.false_and, Bool.false_eq_true, if_false]
    by_cases hc : s.reading.TypeClash property info.name
    · rw [if_pos (hclash.mpr hc), if_pos (.inr (.inr (.inr hc)))]
    · have hgo : ¬(isBlank info.name = true ∨
          (validatePropertyTypeDeclaration info).isError = true ∨
          s.reading.types property = none ∨ s.reading.TypeClash property info.name) := by
        rintro (hb | hv | hn | hcl)
        · exact hblank hb
        · exact hvalid hv
        · simp [reading, hget] at hn
        · exact hc hcl
      rw [if_neg fun h' => hc (hclash.mp h'), if_neg hgo]
      ext1
      · rfl
      · funext p
        simp only [reading, SchemaReading.setType, Function.update_apply,
          Registry.get?_replace, hget, Option.map_some]

theorem reading_restorePropertyType (info : PropertyTypeInfo) :
    (s.restorePropertyType info).1.reading = s.reading.restorePropertyType info := by
  have hclash := findPropertyTypeLocked_clash h info.nameId info.name
  unfold restorePropertyType SchemaReading.restorePropertyType
  by_cases hzero : info.nameId = kNoPropName
  · simp [hzero]
  rw [if_neg hzero]
  by_cases hblank : isBlank info.name = true
  · simp [hblank]
  rw [if_neg hblank]
  cases hget : s.propertyTypes.get? info.nameId with
  | some old => simp [hasPropertyType, reading, hget]
  | none =>
    have hself : s.findPropertyTypeLocked info.name ≠ kNoPropName →
        s.findPropertyTypeLocked info.name ≠ info.nameId := by
      intro hne heq
      cases hb : s.propertyTypes.byName.find? info.name with
      | none => simp [findPropertyTypeLocked, hb] at hne
      | some found =>
        obtain ⟨w, hw, -⟩ := (h.propertyTypes.byName_iff info.name found).mp hb
        simp only [findPropertyTypeLocked, hb, Option.getD_some] at heq
        rw [heq, hget] at hw
        cases hw
    rw [if_neg (by simp [hasPropertyType, hget])]
    by_cases hc : s.reading.TypeClash info.nameId info.name
    · rw [if_pos (hclash.mpr hc).1, if_pos (.inr (.inr (.inr hc)))]
    · have hgo : ¬(info.nameId = kNoPropName ∨ isBlank info.name = true ∨
          s.reading.types info.nameId ≠ none ∨ s.reading.TypeClash info.nameId info.name) := by
        rintro (hz | hb | hn | hcl)
        · exact hzero hz
        · exact hblank hb
        · exact hn hget
        · exact hc hcl
      rw [if_neg fun hne => hc (hclash.mp ⟨hne, hself hne⟩), if_neg hgo]
      ext1
      · rfl
      · funext p
        simp only [reading, SchemaReading.setType, Function.update_apply, Registry.get?_add]
        by_cases hp : p = info.nameId
        · simp [hp, hget]
        · simp [hp]

end Schema

end KimixNative.GraphDb
