import KimixNative.GraphDb.Operations

/-!
# The dirty indexes

A save collects its write set from the two dirty indexes instead of scanning the tables,
so an index must name exactly the live records whose flag is set. The flag of a record is
only ever written together with its index entry: insertion registers a dirty record,
erasure drops its entry, a mutator registers a record whose flag goes up, and the
conditional clear of a save takes both down. No mutator takes the flag down, which is
what the update rules below ask for.
-/

namespace KimixNative.GraphDb

namespace Graph

/-- `clear_vertex_dirty_if`: only while the epoch is still the collected one. -/
def clearVertexDirtyIf (g : Graph) (guid : Guid) (epoch : BitVec 64) : Graph × Bool :=
  match g.vertices.find? guid with
  | none => (g, false)
  | some v =>
    if v.dirtyEpoch ≠ epoch then (g, false)
    else
      ({ g with
        vertices := g.vertices.insert guid v.clearDirty
        dirtyVertexIndex := g.dirtyVertexIndex.erase guid }, true)

/-- `EdgeTable::clear_dirty_if`. -/
def clearEdgeDirtyIf (g : Graph) (id : Guid) (epoch : BitVec 64) : Graph × Bool :=
  match g.edges.find? id with
  | none => (g, false)
  | some e =>
    if e.dirtyEpoch ≠ epoch then (g, false)
    else
      ({ g with
        edges := g.edges.insert id e.clearDirty
        dirtyEdgeIndex := g.dirtyEdgeIndex.erase id }, true)

@[simp] theorem clearVertexDirtyIf_edges (g : Graph) (guid : Guid) (epoch : BitVec 64) :
    (g.clearVertexDirtyIf guid epoch).1.edges = g.edges := by
  unfold clearVertexDirtyIf; split <;> (try split) <;> rfl

@[simp] theorem clearEdgeDirtyIf_vertices (g : Graph) (id : Guid) (epoch : BitVec 64) :
    (g.clearEdgeDirtyIf id epoch).1.vertices = g.vertices := by
  unfold clearEdgeDirtyIf; split <;> (try split) <;> rfl

theorem find?_clearVertexDirtyIf (g : Graph) (guid w : Guid) (epoch : BitVec 64) :
    (g.clearVertexDirtyIf guid epoch).1.vertices.find? w =
      (g.vertices.find? w).map fun v =>
        if w = guid ∧ v.dirtyEpoch = epoch then v.clearDirty else v := by
  unfold clearVertexDirtyIf
  by_cases hw : w = guid
  · subst hw
    cases hv : g.vertices.find? w with
    | none => simp [hv]
    | some v =>
      by_cases he : v.dirtyEpoch = epoch
      · simp [he]
      · simp [he, hv]
  · split
    · simp [hw]
    split
    · simp [hw]
    · simp [hw, Table.find?_insert]

theorem find?_clearEdgeDirtyIf (g : Graph) (id d : Guid) (epoch : BitVec 64) :
    (g.clearEdgeDirtyIf id epoch).1.edges.find? d =
      (g.edges.find? d).map fun e =>
        if d = id ∧ e.dirtyEpoch = epoch then e.clearDirty else e := by
  unfold clearEdgeDirtyIf
  by_cases hd : d = id
  · subst hd
    cases hv : g.edges.find? d with
    | none => simp [hv]
    | some e =>
      by_cases he : e.dirtyEpoch = epoch
      · simp [he]
      · simp [he, hv]
  · split
    · simp [hd]
    split
    · simp [hd]
    · simp [hd, Table.find?_insert]

/-- Each index names exactly the live records of its table whose flag is set. -/
structure DirtyIndexed (g : Graph) : Prop where
  vertices : FlagIndexed g.vertices Vertex.dirty g.dirtyVertexIndex
  edges : FlagIndexed g.edges Edge.dirty g.dirtyEdgeIndex

namespace DirtyIndexed

variable {g : Graph} (h : g.DirtyIndexed)
include h

/-- Only the tables and the indexes matter. -/
theorem congr {g' : Graph} (hv : g'.vertices = g.vertices) (he : g'.edges = g.edges)
    (hvi : g'.dirtyVertexIndex = g.dirtyVertexIndex) (hei : g'.dirtyEdgeIndex = g.dirtyEdgeIndex) :
    g'.DirtyIndexed :=
  ⟨by rw [hv, hvi]; exact h.vertices, by rw [he, hei]; exact h.edges⟩

/-! ### The primitives -/

theorem insertVertex {guid : Guid} (fresh : g.vertices.find? guid = none) (v : Vertex) :
    (g.insertVertex guid v).DirtyIndexed :=
  ⟨h.vertices.insert_fresh fresh v, h.edges⟩

theorem eraseVertex (guid : Guid) : (g.eraseVertex guid).DirtyIndexed :=
  ⟨h.vertices.erase guid, h.edges⟩

theorem updateVertex (guid : Guid) {f : Vertex → Vertex}
    (keep : ∀ v, v.dirty = true → (f v).dirty = true) : (g.updateVertex guid f).DirtyIndexed := by
  unfold Graph.updateVertex
  split
  · exact h
  · next v hv => exact ⟨h.vertices.raise hv (keep v), h.edges⟩

theorem insertEdge {id : Guid} (fresh : g.edges.find? id = none) (e : Edge) :
    (g.insertEdge id e).DirtyIndexed :=
  ⟨h.vertices, h.edges.insert_fresh fresh e⟩

theorem eraseEdge (id : Guid) : (g.eraseEdge id).DirtyIndexed :=
  ⟨h.vertices, h.edges.erase id⟩

theorem updateEdge (id : Guid) {f : Edge → Edge}
    (keep : ∀ e, e.dirty = true → (f e).dirty = true) : (g.updateEdge id f).DirtyIndexed := by
  unfold Graph.updateEdge
  split
  · exact h
  · next e he => exact ⟨h.vertices, h.edges.raise he (keep e)⟩

theorem buryVertex (guid : Guid) : (g.buryVertex guid).DirtyIndexed :=
  (h.eraseVertex guid).congr rfl rfl rfl rfl

theorem buryEdge (id : Guid) : (g.buryEdge id).DirtyIndexed :=
  (h.eraseEdge id).congr rfl rfl rfl rfl

/-- A clear that goes through takes the flag and the entry down together. -/
theorem clearVertexDirtyIf (guid : Guid) (epoch : BitVec 64) :
    (g.clearVertexDirtyIf guid epoch).1.DirtyIndexed := by
  unfold Graph.clearVertexDirtyIf
  split
  · exact h
  split
  · exact h
  · exact ⟨h.vertices.lower rfl, h.edges⟩

theorem clearEdgeDirtyIf (id : Guid) (epoch : BitVec 64) :
    (g.clearEdgeDirtyIf id epoch).1.DirtyIndexed := by
  unfold Graph.clearEdgeDirtyIf
  split
  · exact h
  split
  · exact h
  · exact ⟨h.vertices, h.edges.lower rfl⟩

/-! ### The operations -/

theorem linkEdge (id o t : Guid) : (g.linkEdge id o t).DirtyIndexed :=
  (h.updateVertex o fun _ _ => rfl).updateVertex t fun _ _ => rfl

theorem unlinkEdge (id o t : Guid) : (g.unlinkEdge id o t).DirtyIndexed :=
  (h.updateVertex o fun v => v.dirty_removeOutLink id).updateVertex t
    fun v => v.dirty_removeInLink id

theorem eraseCascade (cs : List Cascade) : (g.eraseCascade cs).1.DirtyIndexed := by
  induction cs generalizing g with
  | nil => exact h
  | cons c rest ih =>
    unfold Graph.eraseCascade
    split
    · exact ih h
    · exact ih (h.buryEdge c.edge)

theorem unlinkCascade (guid : Guid) (cs : List Cascade) :
    (g.unlinkCascade guid cs).DirtyIndexed := by
  induction cs generalizing g with
  | nil => exact h
  | cons c rest ih =>
    unfold Graph.unlinkCascade
    split
    · exact ih h
    split
    · exact ih (h.updateVertex _ fun v => v.dirty_removeInLink c.edge)
    · exact ih (h.updateVertex _ fun v => v.dirty_removeOutLink c.edge)

theorem removeVertex (guid : Guid) : (g.removeVertex guid).1.DirtyIndexed := by
  unfold Graph.removeVertex
  split
  · exact h
  · have herased := (h.buryVertex guid).eraseCascade (cascadeOf ‹Vertex›)
    refine unlinkCascade ?_ guid _
    split
    · unfold eraseKey
      split
      · exact herased
      · exact herased.congr rfl rfl rfl rfl
    · exact herased

theorem published {spec : VertexSpec} {minted : Guid} (fresh : g.vertices.find? minted = none) :
    (g.published spec minted).DirtyIndexed := by
  unfold Graph.published
  simp only
  split
  · exact (h.insertVertex fresh _).congr rfl rfl rfl rfl
  · exact h.insertVertex fresh _

theorem adoptVertex (guid : Guid) (v : DetachedVertex) :
    (g.adoptVertex guid v).1.DirtyIndexed := by
  obtain ⟨heq, -⟩ | ⟨fresh, heq⟩ := g.adoptVertex_cases guid v
  · rw [heq]; exact h
  · have hins : ((g.insertVertex guid v.1).restoreRemovedVertex guid).DirtyIndexed :=
      (h.insertVertex fresh v.1).congr rfl rfl rfl rfl
    rw [heq]
    simp only
    split
    · refine hins.congr (by simp) (by simp) ?_ ?_
      · unfold insertKey; split <;> (try split) <;> rfl
      · unfold insertKey; split <;> (try split) <;> rfl
    · exact hins

theorem createEdgeLocked (o t : Guid) (d : EdgeDirectionType) (labels : List LabelId)
    (properties : PropertyList) (viaGdiApi : Bool) (chosenUid : Option Guid) (minted : Guid) :
    (g.createEdgeLocked o t d labels properties viaGdiApi chosenUid minted).1.DirtyIndexed := by
  obtain ⟨status, heq, -⟩ | ⟨originVertex, -, -, -, -, free, -, heq⟩ :=
    g.createEdgeLocked_cases o t d labels properties viaGdiApi chosenUid minted
  · rw [heq]; exact h
  · rw [heq]
    refine linkEdge ?_ _ _ _
    split
    · exact (h.insertEdge free _).congr rfl rfl rfl rfl
    · exact h.insertEdge free _

theorem moveEdgeEndpoint (edge endpoint : Guid) (moveOrigin : Bool) :
    (g.moveEdgeEndpoint edge endpoint moveOrigin).1.DirtyIndexed := by
  obtain ⟨status, heq, -⟩ | ⟨e, o, t, -, -, -, -, -, -, heq⟩ :=
    g.moveEdgeEndpoint_cases edge endpoint moveOrigin
  · rw [heq]; exact h
  · rw [heq]
    exact ((h.unlinkEdge ..).linkEdge ..).updateEdge edge fun _ _ => rfl

theorem adoptEdge (id : Guid) (edge : Edge) : (g.adoptEdge id edge).1.DirtyIndexed := by
  obtain ⟨status, heq, -⟩ | ⟨free, -, hrest⟩ := g.adoptEdge_cases id edge
  · rw [heq]; exact h
  · have hins : ((g.insertEdge id edge).restoreRemovedEdge id).DirtyIndexed :=
      (h.insertEdge free edge).congr rfl rfl rfl rfl
    obtain ⟨-, heq⟩ | ⟨-, -, heq⟩ := hrest
    · rw [heq]; exact hins.eraseEdge id
    · rw [heq]; exact hins.linkEdge ..

/-- One call of any kind keeps flags and indexes together. -/
theorem step (op : GraphOp) : (g.step op).DirtyIndexed := by
  have heffect := g.effect op
  generalize g.step op = g' at heffect ⊢
  cases heffect with
  | unchanged => exact h
  | plainVertex fresh => exact h.insertVertex fresh _
  | created fresh free => exact h.published fresh
  | gotOrCreated fresh free => exact h.published fresh
  | added fresh => exact h.insertVertex fresh _
  | adoptedVertex => exact h.adoptVertex ..
  | removed => exact h.removeVertex _
  | freed loose => exact h.removeVertex _
  | edited => exact h.updateVertex _ fun v => (VertexEdit.apply_frame _ v).2.2.2.2
  | edgeCreated d => exact h.createEdgeLocked ..
  | edgeFreed e live => exact (h.buryEdge _).unlinkEdge ..
  | originSet => exact h.moveEdgeEndpoint ..
  | targetSet => exact h.moveEdgeEndpoint ..
  | edgeEdited e e' live ho ht => exact h.updateEdge _ fun _ _ => rfl
  | connected => exact h.createEdgeLocked ..
  | bulk =>
    exact g.connectPending_invariant (I := DirtyIndexed) (F := fun _ => True)
      (fun _ _ _ _ _ hg => hg.createEdgeLocked ..) _ (fun _ _ => trivial) h
  | disconnected held listed live => exact (h.buryEdge _).unlinkEdge ..
  | adoptedEdge => exact h.adoptEdge ..
  | vertexListTaken => exact h.congr rfl rfl rfl rfl
  | edgeListTaken => exact h.congr rfl rfl rfl rfl

end DirtyIndexed

theorem dirtyIndexed_empty (options : GraphOptions) : (Graph.empty options).DirtyIndexed :=
  ⟨fun u => by simp [Graph.empty], fun d => by simp [Graph.empty]⟩

end Graph

end KimixNative.GraphDb
