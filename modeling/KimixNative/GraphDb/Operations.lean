import KimixNative.GraphDb.Graph
import KimixNative.Lib.Run

/-!
# What each graph operation does

One specification per operation of the container. A refused operation returns the
graph it was given, and an operation that goes through is a fixed combination of the
primitives, with every guard it passed. Invariants are proved from these lemmas; the
operations themselves are not unfolded again.

`GraphOp` and `Graph.step` collect the operations into one step function, so that a
sequence of calls is a run.
-/

namespace KimixNative.GraphDb

namespace Graph

variable (g : Graph)

/-! ## Links -/

@[simp] theorem linkEdge_options (id o t : Guid) : (g.linkEdge id o t).options = g.options := by
  simp [linkEdge]

@[simp] theorem linkEdge_edges (id o t : Guid) : (g.linkEdge id o t).edges = g.edges := by
  simp [linkEdge]

@[simp] theorem linkEdge_keys (id o t : Guid) : (g.linkEdge id o t).keys = g.keys := by
  simp [linkEdge]

@[simp] theorem linkEdge_removedVertices (id o t : Guid) :
    (g.linkEdge id o t).removedVertices = g.removedVertices := by
  simp [linkEdge]

@[simp] theorem linkEdge_removedEdges (id o t : Guid) :
    (g.linkEdge id o t).removedEdges = g.removedEdges := by
  simp [linkEdge]

@[simp] theorem unlinkEdge_options (id o t : Guid) :
    (g.unlinkEdge id o t).options = g.options := by
  simp [unlinkEdge]

@[simp] theorem unlinkEdge_edges (id o t : Guid) : (g.unlinkEdge id o t).edges = g.edges := by
  simp [unlinkEdge]

@[simp] theorem unlinkEdge_keys (id o t : Guid) : (g.unlinkEdge id o t).keys = g.keys := by
  simp [unlinkEdge]

@[simp] theorem unlinkEdge_removedVertices (id o t : Guid) :
    (g.unlinkEdge id o t).removedVertices = g.removedVertices := by
  simp [unlinkEdge]

@[simp] theorem unlinkEdge_removedEdges (id o t : Guid) :
    (g.unlinkEdge id o t).removedEdges = g.removedEdges := by
  simp [unlinkEdge]

/-- Two updates in a row, read at one vertex. -/
private theorem find?_updateVertex_updateVertex (u w x : Guid) (f f' : Vertex → Vertex) :
    ((g.updateVertex u f).updateVertex w f').vertices.find? x =
      (g.vertices.find? x).map fun v =>
        let v := if x = u then f v else v
        if x = w then f' v else v := by
  rw [find?_updateVertex, find?_updateVertex, find?_updateVertex]
  by_cases hw : x = w
  · subst hw
    by_cases hu : x = u
    · subst hu
      simp [Function.comp_def]
    · simp [hu]
  · by_cases hu : x = u
    · subst hu
      simp [hw]
    · simp [hw, hu]

theorem find?_linkEdge (id o t w : Guid) :
    (g.linkEdge id o t).vertices.find? w =
      (g.vertices.find? w).map fun v =>
        let v := if w = o then v.addOutLink id t else v
        if w = t then v.addInLink id o else v :=
  g.find?_updateVertex_updateVertex ..

theorem find?_unlinkEdge (id o t w : Guid) :
    (g.unlinkEdge id o t).vertices.find? w =
      (g.vertices.find? w).map fun v =>
        let v := if w = o then v.removeOutLink id else v
        if w = t then v.removeInLink id else v :=
  g.find?_updateVertex_updateVertex ..

/-! ## The removal cascade -/

private theorem eraseCascade_frame (cs : List Cascade) :
    (g.eraseCascade cs).1.options = g.options ∧ (g.eraseCascade cs).1.vertices = g.vertices ∧
      (g.eraseCascade cs).1.keys = g.keys ∧
      (g.eraseCascade cs).1.removedVertices = g.removedVertices := by
  induction cs generalizing g with
  | nil => exact ⟨rfl, rfl, rfl, rfl⟩
  | cons c rest ih =>
    unfold eraseCascade
    split
    · exact ih g
    · exact ih (g.buryEdge c.edge)

@[simp] theorem eraseCascade_options (cs : List Cascade) :
    (g.eraseCascade cs).1.options = g.options := (g.eraseCascade_frame cs).1

@[simp] theorem eraseCascade_vertices (cs : List Cascade) :
    (g.eraseCascade cs).1.vertices = g.vertices := (g.eraseCascade_frame cs).2.1

@[simp] theorem eraseCascade_keys (cs : List Cascade) :
    (g.eraseCascade cs).1.keys = g.keys := (g.eraseCascade_frame cs).2.2.1

@[simp] theorem eraseCascade_removedVertices (cs : List Cascade) :
    (g.eraseCascade cs).1.removedVertices = g.removedVertices := (g.eraseCascade_frame cs).2.2.2

/-- The cascade erases exactly the edges on its work list. -/
theorem find?_eraseCascade (cs : List Cascade) (d : Guid) :
    (g.eraseCascade cs).1.edges.find? d =
      if d ∈ cs.map Cascade.edge then none else g.edges.find? d := by
  induction cs generalizing g with
  | nil => simp [eraseCascade]
  | cons c rest ih =>
    unfold eraseCascade
    split
    · next hnone =>
        rw [ih]
        by_cases hd : d = c.edge
        · simp [hd, hnone]
        · simp [hd]
    · next e he =>
        simp only
        rw [ih]
        by_cases hd : d = c.edge
        · simp [hd, find?_buryEdge]
        · simp [hd, find?_buryEdge]

/-- The erased records, each under its own uid. -/
theorem mem_eraseCascade (cs : List Cascade) (d : Guid) (r : Edge) :
    (d, r) ∈ (g.eraseCascade cs).2 ↔ d ∈ cs.map Cascade.edge ∧ g.edges.find? d = some r := by
  induction cs generalizing g with
  | nil => simp [eraseCascade]
  | cons c rest ih =>
    unfold eraseCascade
    split
    · next hnone =>
        rw [ih]
        by_cases hd : d = c.edge
        · simp [hd, hnone]
        · simp [hd]
    · next e he =>
        simp only [List.mem_cons, Prod.mk.injEq]
        rw [ih]
        by_cases hd : d = c.edge
        · simp [hd, find?_buryEdge, he, eq_comm]
        · simp [hd, find?_buryEdge]

/-- No uid is erased twice. -/
theorem nodup_eraseCascade (cs : List Cascade) :
    ((g.eraseCascade cs).2.map Prod.fst).Nodup := by
  induction cs generalizing g with
  | nil => simp [eraseCascade]
  | cons c rest ih =>
    unfold eraseCascade
    split
    · exact ih g
    · next e he =>
        simp only [List.map_cons, List.nodup_cons]
        refine ⟨?_, ih _⟩
        intro hmem
        obtain ⟨⟨d, r⟩, hdr, heq⟩ := List.mem_map.mp hmem
        have := (mem_eraseCascade _ rest d r).mp hdr
        obtain rfl : d = c.edge := heq
        simp [find?_buryEdge] at this

/-- What the unlinking pass does to one neighbour. -/
def unlinkAll (w : Guid) : List Cascade → Vertex → Vertex
  | [], v => v
  | c :: rest, v =>
    unlinkAll w rest <|
      if c.neighbour = w then
        if c.victimIsOrigin then v.removeInLink c.edge else v.removeOutLink c.edge
      else v

@[simp] theorem payload_unlinkAll (w : Guid) (cs : List Cascade) (v : Vertex) :
    (unlinkAll w cs v).payload = v.payload := by
  induction cs generalizing v with
  | nil => rfl
  | cons c rest ih =>
    rw [unlinkAll, ih]
    split
    · split <;> simp
    · rfl

@[simp] theorem unlinkCascade_options (guid : Guid) (cs : List Cascade) :
    (g.unlinkCascade guid cs).options = g.options := by
  fun_induction unlinkCascade g guid cs <;> simp_all

@[simp] theorem unlinkCascade_edges (guid : Guid) (cs : List Cascade) :
    (g.unlinkCascade guid cs).edges = g.edges := by
  fun_induction unlinkCascade g guid cs <;> simp_all

@[simp] theorem unlinkCascade_keys (guid : Guid) (cs : List Cascade) :
    (g.unlinkCascade guid cs).keys = g.keys := by
  fun_induction unlinkCascade g guid cs <;> simp_all

@[simp] theorem unlinkCascade_removedVertices (guid : Guid) (cs : List Cascade) :
    (g.unlinkCascade guid cs).removedVertices = g.removedVertices := by
  fun_induction unlinkCascade g guid cs <;> simp_all

@[simp] theorem unlinkCascade_removedEdges (guid : Guid) (cs : List Cascade) :
    (g.unlinkCascade guid cs).removedEdges = g.removedEdges := by
  fun_induction unlinkCascade g guid cs <;> simp_all

/-- The unlinking pass, read at one vertex other than the victim. -/
theorem find?_unlinkCascade {guid w : Guid} (hw : w ≠ guid) (cs : List Cascade) :
    (g.unlinkCascade guid cs).vertices.find? w = (g.vertices.find? w).map (unlinkAll w cs) := by
  induction cs generalizing g with
  | nil => simp [unlinkCascade, unlinkAll]
  | cons c rest ih =>
    unfold unlinkCascade
    split
    · next h =>
        rw [ih]
        have hne : c.neighbour ≠ w := fun heq => hw (heq ▸ h)
        simp [unlinkAll, hne]
    · split
      · next ho =>
          rw [ih, find?_updateVertex]
          by_cases hc : w = c.neighbour
          · simp [hc, unlinkAll, ho, Function.comp_def]
          · simp [hc, unlinkAll, Ne.symm hc]
      · next ho =>
          rw [ih, find?_updateVertex]
          by_cases hc : w = c.neighbour
          · simp [hc, unlinkAll, ho, Function.comp_def]
          · simp [hc, unlinkAll, Ne.symm hc]

/-- The victim's own slot stays as it is. -/
theorem find?_unlinkCascade_self (guid : Guid) (cs : List Cascade) :
    (g.unlinkCascade guid cs).vertices.find? guid = g.vertices.find? guid := by
  induction cs generalizing g with
  | nil => rfl
  | cons c rest ih =>
    unfold unlinkCascade
    split
    · exact ih g
    · next h =>
        split <;> rw [ih, find?_updateVertex, if_neg (Ne.symm h)]

/-! ## Vertices -/

section RemoveVertex

variable {g} {guid : Guid}

theorem removeVertex_of_none (h : g.vertices.find? guid = none) :
    g.removeVertex guid = (g, none) := by
  simp [removeVertex, h]

variable {victim : Vertex} (h : g.vertices.find? guid = some victim)
include h

theorem removeVertex_snd :
    (g.removeVertex guid).2 = some (⟨victim.clearLinks, rfl, rfl⟩,
      ((g.buryVertex guid).eraseCascade (cascadeOf victim)).2) := by
  simp [removeVertex, h]

theorem removeVertex_options : (g.removeVertex guid).1.options = g.options := by
  simp only [removeVertex, h, eraseKey]
  split
  · split <;> simp
  · simp

theorem removeVertex_keys :
    (g.removeVertex guid).1.keys =
      if victim.hasKey then g.keys.erase victim.key else g.keys := by
  simp only [removeVertex, h, eraseKey]
  split
  · next hk =>
      have hne : victim.key.label ≠ kNoLabel := by simpa [Vertex.hasKey, Vertex.key] using hk
      simp [hne]
  · simp

theorem removeVertex_removedVertices :
    (g.removeVertex guid).1.removedVertices = g.removedVertices ++ [guid] := by
  simp only [removeVertex, h, eraseKey]
  split
  · split <;> simp
  · simp

theorem removeVertex_edges :
    (g.removeVertex guid).1.edges =
      ((g.buryVertex guid).eraseCascade (cascadeOf victim)).1.edges := by
  simp only [removeVertex, h, eraseKey]
  split
  · split <;> simp
  · simp

theorem removeVertex_removedEdges :
    (g.removeVertex guid).1.removedEdges =
      ((g.buryVertex guid).eraseCascade (cascadeOf victim)).1.removedEdges := by
  simp only [removeVertex, h, eraseKey]
  split
  · split <;> simp
  · simp

theorem find?_edges_removeVertex (d : Guid) :
    (g.removeVertex guid).1.edges.find? d =
      if d ∈ (cascadeOf victim).map Cascade.edge then none else g.edges.find? d := by
  rw [removeVertex_edges h, find?_eraseCascade]
  simp

theorem find?_vertices_removeVertex (w : Guid) :
    (g.removeVertex guid).1.vertices.find? w =
      if w = guid then none else (g.vertices.find? w).map (unlinkAll w (cascadeOf victim)) := by
  have hv : ∀ g' : Graph, g'.vertices = (g.buryVertex guid).vertices →
      (g'.unlinkCascade guid (cascadeOf victim)).vertices.find? w =
        if w = guid then none else (g.vertices.find? w).map (unlinkAll w (cascadeOf victim)) := by
    intro g' hg'
    by_cases hw : w = guid
    · subst hw
      rw [find?_unlinkCascade_self, hg', find?_buryVertex]
      simp
    · rw [find?_unlinkCascade _ hw, hg', find?_buryVertex]
      simp [hw]
  simp only [removeVertex, h, eraseKey]
  split
  · split <;> exact hv _ (by simp)
  · exact hv _ (by simp)

end RemoveVertex

/-- The published graph of a successful `create_vertex`. -/
def published (spec : VertexSpec) (minted : Guid) : Graph :=
  let inserted := g.insertVertex minted spec.toVertex
  if spec.keyed then { inserted with keys := inserted.keys.insert spec.key minted } else inserted

/-- `create_vertex` refuses, or warns about a taken key and names the vertex that holds
it, or publishes the record under a fresh guid and a free key. -/
theorem createVertex_cases (spec : VertexSpec) (minted : Guid) :
    (∃ status, g.createVertex spec minted = (g, status, none) ∧ status.isError) ∨
    (∃ existing, g.createVertex spec minted = (g, .warningNonUniqueId, some existing) ∧
      g.options.keyMode = .reportWarning ∧ g.findKey spec.key = some existing) ∨
    (g.createVertex spec minted = (g.published spec minted, .ok, some minted) ∧
      g.vertices.find? minted = none ∧ g.findKey spec.key = none) := by
  unfold createVertex
  split
  · exact .inl ⟨_, rfl, rfl⟩
  split
  · exact .inl ⟨_, rfl, rfl⟩
  split
  · next existing hkey =>
      split
      · next hmode => exact .inr (.inl ⟨existing, rfl, hmode, hkey⟩)
      · exact .inl ⟨_, rfl, rfl⟩
  next hkey =>
  split
  · exact .inl ⟨_, rfl, rfl⟩
  next hfresh =>
  refine .inr (.inr ⟨?_, by simpa using hfresh, hkey⟩)
  cases hk : spec.keyed with
  | false => simp [published, hk]
  | true =>
    have hl : spec.key.label ≠ kNoLabel := by
      simpa [VertexSpec.keyed, VertexSpec.key] using hk
    have hf : g.keys.find? spec.key = none := by simpa [findKey, hl] using hkey
    simp [published, hk, insertKey, hl, hf, GdiStatus.isError]

/-- `get_or_create_vertex` leaves the graph alone or does what `create_vertex` does on a
free key. -/
theorem getOrCreateVertex_cases (spec : VertexSpec) (minted : Guid) :
    (∃ status out, g.getOrCreateVertex spec minted = (g, status, out, false)) ∨
    (g.getOrCreateVertex spec minted = (g.published spec minted, .ok, some minted, true) ∧
      g.vertices.find? minted = none ∧ g.findKey spec.key = none) := by
  unfold getOrCreateVertex
  cases hkey : g.findKey spec.key with
  | some existing => exact .inl ⟨_, _, rfl⟩
  | none =>
    obtain ⟨status, h, herr⟩ | ⟨existing, -, -, hsome⟩ | ⟨h, hfresh, -⟩ :=
      g.createVertex_cases spec minted
    · exact .inl ⟨status, none, by simp [h, herr]⟩
    · rw [hkey] at hsome
      cases hsome
    · exact .inr ⟨by simp [h, GdiStatus.isError], hfresh, rfl⟩

theorem find?_published (spec : VertexSpec) (minted w : Guid) :
    (g.published spec minted).vertices.find? w =
      if w = minted then some spec.toVertex else g.vertices.find? w := by
  unfold published
  simp only
  split <;> exact g.find?_insertVertex ..

@[simp] theorem published_options (spec : VertexSpec) (minted : Guid) :
    (g.published spec minted).options = g.options := by
  unfold published; simp only; split <;> rfl

@[simp] theorem published_edges (spec : VertexSpec) (minted : Guid) :
    (g.published spec minted).edges = g.edges := by
  unfold published; simp only; split <;> rfl

@[simp] theorem published_removedVertices (spec : VertexSpec) (minted : Guid) :
    (g.published spec minted).removedVertices = g.removedVertices := by
  unfold published; simp only; split <;> rfl

@[simp] theorem published_removedEdges (spec : VertexSpec) (minted : Guid) :
    (g.published spec minted).removedEdges = g.removedEdges := by
  unfold published; simp only; split <;> rfl

theorem published_keys (spec : VertexSpec) (minted : Guid) :
    (g.published spec minted).keys =
      if spec.keyed then g.keys.insert spec.key minted else g.keys := by
  unfold published; simp only; split <;> rfl

/-- `free_vertex` refuses or is `remove_vertex`. -/
theorem freeVertex_fst (guid : Guid) (guarded : Bool) :
    (g.freeVertex guid guarded).1 = g ∨
      (g.freeVertex guid guarded).1 = (g.removeVertex guid).1 := by
  unfold freeVertex
  split
  · exact .inl rfl
  split
  · exact .inl rfl
  · right
    split <;> simp_all

@[simp] theorem insertKey_options (key : VertexKey) (uid : Guid) :
    (g.insertKey key uid).1.options = g.options := by
  unfold insertKey; split <;> (try split) <;> rfl

@[simp] theorem insertKey_vertices (key : VertexKey) (uid : Guid) :
    (g.insertKey key uid).1.vertices = g.vertices := by
  unfold insertKey; split <;> (try split) <;> rfl

@[simp] theorem insertKey_edges (key : VertexKey) (uid : Guid) :
    (g.insertKey key uid).1.edges = g.edges := by
  unfold insertKey; split <;> (try split) <;> rfl

@[simp] theorem insertKey_removedVertices (key : VertexKey) (uid : Guid) :
    (g.insertKey key uid).1.removedVertices = g.removedVertices := by
  unfold insertKey; split <;> (try split) <;> rfl

@[simp] theorem insertKey_removedEdges (key : VertexKey) (uid : Guid) :
    (g.insertKey key uid).1.removedEdges = g.removedEdges := by
  unfold insertKey; split <;> (try split) <;> rfl

/-- An existing entry keeps its vertex. -/
theorem find?_insertKey {key : VertexKey} (hl : key.label ≠ kNoLabel) (uid : Guid)
    (k : VertexKey) :
    (g.insertKey key uid).1.keys.find? k =
      if k = key then (g.keys.find? key).or (some uid) else g.keys.find? k := by
  unfold insertKey
  rw [if_neg hl]
  cases hf : g.keys.find? key with
  | none => simp [Table.find?_insert]
  | some uid' =>
    by_cases hk : k = key
    · simp [hk, hf]
    · simp [hk]

/-- `adopt_vertex` refuses a known guid; otherwise the vertex goes in, its tombstone goes
out, and a free key is indexed. -/
theorem adoptVertex_cases (guid : Guid) (v : DetachedVertex) :
    (g.adoptVertex guid v = (g, .errorVertex) ∧ (g.vertices.find? guid).isSome) ∨
    (g.vertices.find? guid = none ∧
      g.adoptVertex guid v =
        ((if v.1.hasKey then
            (((g.insertVertex guid v.1).restoreRemovedVertex guid).insertKey v.1.key guid).1
          else (g.insertVertex guid v.1).restoreRemovedVertex guid), .ok)) := by
  unfold adoptVertex
  split
  · next h => exact .inl ⟨rfl, h⟩
  · next h =>
      refine .inr ⟨by simpa using h, ?_⟩
      split <;> rfl

/-! ## Edges -/

/-- `_create_edge_locked` refuses, or inserts a record under a free uid between two live
vertices, having passed the policy checks, and links both sides. -/
theorem createEdgeLocked_cases (o t : Guid) (d : EdgeDirectionType) (labels : List LabelId)
    (properties : PropertyList) (viaGdiApi : Bool) (chosenUid : Option Guid) (minted : Guid) :
    (∃ status, g.createEdgeLocked o t d labels properties viaGdiApi chosenUid minted =
        (g, status, none) ∧ status.isError) ∨
    (∃ originVertex, g.vertices.find? o = some originVertex ∧ (g.vertices.find? t).isSome ∧
      (o = t → viaGdiApi = true ∧ g.options.allowSelfEdges = true) ∧
      (viaGdiApi = false ∨ g.options.allowParallelEdges = false →
        hasOutEdgeLocked originVertex t = false) ∧
      g.edges.find? (chosenUid.getD minted) = none ∧ kNoLabel ∉ labels ∧
      g.createEdgeLocked o t d labels properties viaGdiApi chosenUid minted =
        (((if chosenUid.isSome then
            (g.insertEdge (chosenUid.getD minted) ⟨o, t, d, labels,
              PropertyBag.ofPropertyList properties, true, 1⟩).restoreRemovedEdge
                (chosenUid.getD minted)
          else g.insertEdge (chosenUid.getD minted) ⟨o, t, d, labels,
            PropertyBag.ofPropertyList properties, true, 1⟩).linkEdge
              (chosenUid.getD minted) o t), .ok, some (chosenUid.getD minted))) := by
  unfold createEdgeLocked
  split
  · next originVertex targetVertex ho ht =>
      split
      · exact .inl ⟨_, rfl, rfl⟩
      next hself =>
      split
      · exact .inl ⟨_, rfl, rfl⟩
      next hparallel =>
      simp only
      split
      · exact .inl ⟨_, rfl, rfl⟩
      split
      · exact .inl ⟨_, rfl, rfl⟩
      next hlabels =>
      split
      · exact .inl ⟨_, rfl, rfl⟩
      next hfree =>
      refine .inr ⟨originVertex, ho, by simp [ht], ?_, ?_, by simpa using hfree,
        by simpa using hlabels, rfl⟩
      · rintro rfl
        simpa using hself
      · intro h
        cases hb : hasOutEdgeLocked originVertex t with
        | false => rfl
        | true => rcases h with h | h <;> simp [h, hb] at hparallel
  · exact .inl ⟨_, rfl, rfl⟩

/-- `edge_create` refuses or is `_create_edge_locked` through the GDI door. -/
theorem edgeCreate_fst (o t : Guid) (direction : Byte) (labels : List LabelId)
    (properties : PropertyList) (chosenUid : Option Guid) (minted : Guid) :
    (∃ status, g.edgeCreate o t direction labels properties chosenUid minted =
        (g, status, none) ∧ status.isError) ∨
    (∃ d, EdgeDirectionType.ofCode? direction = some d ∧
      g.edgeCreate o t direction labels properties chosenUid minted =
      g.createEdgeLocked o t d labels properties true chosenUid minted) := by
  unfold edgeCreate
  split
  · exact .inl ⟨_, rfl, rfl⟩
  · next d hd =>
      split
      · exact .inl ⟨_, rfl, rfl⟩
      · exact .inr ⟨d, hd, rfl⟩

/-- `_move_edge_endpoint` refuses, finds nothing to do, or relinks the edge between two
live vertices. -/
theorem moveEdgeEndpoint_cases (edge endpoint : Guid) (moveOrigin : Bool) :
    (∃ status, g.moveEdgeEndpoint edge endpoint moveOrigin = (g, status) ∧
      (status = .ok ↔ ∃ e, g.edges.find? edge = some e ∧
        (if moveOrigin then endpoint else e.origin) = e.origin ∧
        (if moveOrigin then e.target else endpoint) = e.target)) ∨
    (∃ e o t, g.edges.find? edge = some e ∧
      o = (if moveOrigin then endpoint else e.origin) ∧
      t = (if moveOrigin then e.target else endpoint) ∧
      ¬(o = e.origin ∧ t = e.target) ∧
      (g.vertices.find? o).isSome ∧ (g.vertices.find? t).isSome ∧
      g.moveEdgeEndpoint edge endpoint moveOrigin =
        (((g.unlinkEdge edge e.origin e.target).linkEdge edge o t).updateEdge edge
          (fun r => Edge.markDirty { r with origin := o, target := t }), .ok)) := by
  unfold moveEdgeEndpoint
  cases he : g.edges.find? edge with
  | none => exact .inl ⟨_, rfl, by simp⟩
  | some e =>
    simp only [Option.some.injEq, exists_eq_left']
    generalize ho : (if moveOrigin = true then endpoint else e.origin) = o
    generalize ht : (if moveOrigin = true then e.target else endpoint) = t
    split
    · next hsame => exact .inl ⟨_, rfl, by simp [hsame]⟩
    next hmove =>
    split
    · exact .inl ⟨_, rfl, by simp [hmove]⟩
    next hlive =>
    simp only [Bool.or_eq_true, Option.isNone_iff_eq_none, not_or] at hlive
    exact .inr ⟨e, o, t, rfl, ho.symm, ht.symm, hmove, Option.isSome_iff_ne_none.mpr hlive.1,
      Option.isSome_iff_ne_none.mpr hlive.2, rfl⟩

/-- `disconnect` changes nothing, or it frees one edge from the source to the target. -/
theorem disconnect_cases (source target : Guid) :
    g.disconnect source target = (g, false) ∨
    ∃ v link, g.vertices.find? source = some v ∧ link ∈ v.outLinks ∧ link.neighbour = target ∧
      (g.edges.find? link.edge).isSome ∧
      g.disconnect source target =
        ((g.buryEdge link.edge).unlinkEdge link.edge source target, true) := by
  have loop : ∀ links : List EdgeLink, g.disconnectLoop source target links = (g, false) ∨
      ∃ link ∈ links, link.neighbour = target ∧ (g.edges.find? link.edge).isSome ∧
        g.disconnectLoop source target links =
          ((g.buryEdge link.edge).unlinkEdge link.edge source target, true) := by
    intro links
    induction links with
    | nil => exact .inl rfl
    | cons link rest ih =>
      have lift : g.disconnectLoop source target rest = (g, false) ∨
          ∃ l ∈ link :: rest, l.neighbour = target ∧ (g.edges.find? l.edge).isSome ∧
            g.disconnectLoop source target rest =
              ((g.buryEdge l.edge).unlinkEdge l.edge source target, true) :=
        ih.imp_right fun ⟨l, hl, h⟩ => ⟨l, List.mem_cons_of_mem _ hl, h⟩
      unfold disconnectLoop
      split
      · exact lift
      next hn =>
      split
      · exact lift
      next e he =>
      exact .inr ⟨link, List.mem_cons_self, not_not.mp hn, by simp [he], rfl⟩
  unfold disconnect
  cases hv : g.vertices.find? source with
  | none => exact .inl rfl
  | some v =>
    obtain h | ⟨link, hl, hn, he, h⟩ := loop v.outLinks
    · exact .inl h
    · exact .inr ⟨v, link, rfl, hl, hn, he, h⟩

/-- `adopt_edge` refuses, drops a dangling record after having spent its tombstone, or
inserts the record and links both sides. -/
theorem adoptEdge_cases (id : Guid) (edge : Edge) :
    (∃ status, g.adoptEdge id edge = (g, status) ∧
      (edge.origin = edge.target ∧ g.options.allowSelfEdges = false ∨
        (g.edges.find? id).isSome)) ∨
    (g.edges.find? id = none ∧ (edge.origin = edge.target → g.options.allowSelfEdges = true) ∧
      ((g.vertices.find? edge.origin = none ∨ g.vertices.find? edge.target = none) ∧
        g.adoptEdge id edge =
          (((g.insertEdge id edge).restoreRemovedEdge id).eraseEdge id, .errorVertex) ∨
      (g.vertices.find? edge.origin).isSome ∧ (g.vertices.find? edge.target).isSome ∧
        g.adoptEdge id edge =
          (((g.insertEdge id edge).restoreRemovedEdge id).linkEdge id edge.origin edge.target,
            .ok))) := by
  unfold adoptEdge
  split
  · next h => exact .inl ⟨_, rfl, .inl (by simpa using h)⟩
  next hself =>
  split
  · next h => exact .inl ⟨_, rfl, .inr h⟩
  next hfree =>
  refine .inr ⟨by simpa using hfree, ?_, ?_⟩
  · intro heq
    simpa [heq] using hself
  · simp only
    split
    · next h => exact .inl ⟨by simpa using h, rfl⟩
    · next h =>
        simp only [Bool.or_eq_true, Option.isNone_iff_eq_none, not_or] at h
        exact .inr ⟨Option.isSome_iff_ne_none.mpr h.1, Option.isSome_iff_ne_none.mpr h.2, rfl⟩

/-- `connect` refuses or is `_create_edge_locked` through the legacy door. -/
theorem connect_fst (source target minted : Guid) :
    (g.connect source target minted).1 = g ∨
      (g.connect source target minted).1 =
        (g.createEdgeLocked source target .directed [] [] false none minted).1 := by
  unfold connect
  split
  · exact .inl rfl
  · exact .inr rfl

/-- What every legacy creation keeps, the creation pass of `connect_bulk` keeps. The
guids are drawn from those that came with the rows. -/
theorem connectPending_invariant {I : Graph → Prop} {F : Guid → Prop}
    (keep : ∀ g source target minted, F minted → I g →
      I (createEdgeLocked g source target .directed [] [] false none minted).1)
    (rows : List (EdgeRequest × Guid × EdgeOutcome)) (hfresh : ∀ row ∈ rows, F row.2.1)
    (h : I g) : I (g.connectPending rows).1 := by
  induction rows generalizing g with
  | nil => exact h
  | cons row rest ih =>
    obtain ⟨request, minted, verdict⟩ := row
    have hrest : ∀ row ∈ rest, F row.2.1 := fun row hrow =>
      hfresh row (List.mem_cons_of_mem _ hrow)
    unfold connectPending
    split
    · exact ih g hrest h
    · exact ih _ hrest (keep g _ _ _ (hfresh _ List.mem_cons_self) h)

/-- A payload edit refuses or replaces the record of one live edge. -/
theorem editEdge_cases (edge : Guid) (edit : Edge → Except GdiStatus Edge) :
    (∃ status, g.editEdge edge edit = (g, status)) ∨
    (∃ e e', g.edges.find? edge = some e ∧ edit e = .ok e' ∧
      g.editEdge edge edit = (g.updateEdge edge fun _ => e'.markDirty, .ok)) := by
  unfold editEdge
  cases he : g.edges.find? edge with
  | none => exact .inl ⟨_, rfl⟩
  | some e =>
    simp only
    split
    · exact .inl ⟨_, rfl⟩
    · next e' hedit => exact .inr ⟨e, e', rfl, hedit, rfl⟩

end Graph

/-! ## The operations as one step function -/

/-- The payload mutators a caller may run on a published vertex. -/
inductive VertexEdit where
  | setContent (content : Bytes)
  | addLabel (label : LabelId)
  | removeLabel (label : LabelId)
  | addProperty (name : PropNameId) (value : PropertyValue)
  | setProperty (name : PropNameId) (value : PropertyValue)
  | putProperty (name : PropNameId) (value : PropertyValue)
  | removeProperties (names : List PropNameId)
  | restorePayload (labels : List LabelId) (properties : PropertyList)

namespace VertexEdit

def apply : VertexEdit → Vertex → Vertex
  | .setContent content, v => v.setContent content
  | .addLabel label, v => (v.addLabel label).1
  | .removeLabel label, v => (v.removeLabel label).1
  | .addProperty name value, v => (v.addProperty name value).1
  | .setProperty name value, v => (v.setProperty name value).1
  | .putProperty name value, v => (v.putProperty name value).1
  | .removeProperties names, v => (v.removeProperties names).1
  | .restorePayload labels properties, v => v.restorePayload labels properties

/-- No payload edit touches the adjacency or the key, and none clears the dirty flag. -/
theorem apply_frame (edit : VertexEdit) (v : Vertex) :
    (edit.apply v).outLinks = v.outLinks ∧ (edit.apply v).inLinks = v.inLinks ∧
      (edit.apply v).keyLabel = v.keyLabel ∧ (edit.apply v).externalId = v.externalId ∧
      (v.dirty = true → (edit.apply v).dirty = true) := by
  cases edit with
  | setContent content => simp [apply, Vertex.setContent, Vertex.markDirty]
  | addLabel label =>
    simp only [apply, Vertex.addLabel]
    split <;> simp [Vertex.markDirty]
  | removeLabel label =>
    simp only [apply, Vertex.removeLabel]
    split <;> simp [Vertex.markDirty]
  | addProperty name value =>
    simp only [apply, Vertex.addProperty]
    split <;> simp [Vertex.markDirty]
  | setProperty name value =>
    simp only [apply, Vertex.setProperty]
    split <;> simp [Vertex.markDirty]
  | putProperty name value => simp [apply, Vertex.putProperty, Vertex.markDirty]
  | removeProperties names =>
    simp only [apply, Vertex.removeProperties]
    split <;> simp [Vertex.markDirty]
  | restorePayload labels properties => simp [apply, Vertex.restorePayload, Vertex.markDirty]

theorem key_apply (edit : VertexEdit) (v : Vertex) : (edit.apply v).key = v.key := by
  obtain ⟨-, -, hl, hx, -⟩ := edit.apply_frame v
  simp [Vertex.key, hl, hx]

theorem hasKey_apply (edit : VertexEdit) (v : Vertex) : (edit.apply v).hasKey = v.hasKey := by
  obtain ⟨-, -, hl, -⟩ := edit.apply_frame v
  simp [Vertex.hasKey, hl]

end VertexEdit

/-- The payload edits of an edge. -/
inductive EdgeEdit where
  | setDirection (direction : Byte)
  | addLabel (label : LabelId)
  | removeLabel (label : LabelId)
  | addProperty (name : PropNameId) (value : PropertyValue)
  | setProperty (name : PropNameId) (value : PropertyValue)
  | putProperty (name : PropNameId) (value : PropertyValue)
  | removeProperties (names : List PropNameId)

/-- Run a payload edit on an edge of the graph. -/
def EdgeEdit.perform (g : Graph) (edge : Guid) : EdgeEdit → Graph × GdiStatus
  | .setDirection direction => g.edgeSetDirection edge direction
  | .addLabel label => g.edgeAddLabel edge label
  | .removeLabel label => g.edgeRemoveLabel edge label
  | .addProperty name value => g.edgeAddProperty edge name value
  | .setProperty name value => g.edgeSetProperty edge name value
  | .putProperty name value => g.edgePutProperty edge name value
  | .removeProperties names => g.edgeRemoveProperties edge names

namespace PropertyBag

/-- The erase loop of `edge_remove_properties`. -/
theorem find?_foldl_erase (names : List PropNameId) (bag : PropertyBag) (n : PropNameId) :
    (names.foldl Table.erase bag).find? n = if n ∈ names then none else bag.find? n := by
  induction names generalizing bag with
  | nil => simp
  | cons name rest ih =>
    rw [List.foldl_cons, ih, Table.find?_erase]
    by_cases hrest : n ∈ rest
    · simp [hrest]
    · by_cases hn : n = name
      · simp [hn]
      · simp [hrest, hn]

theorem find?_insert_cases {bag : PropertyBag} {name n : PropNameId} {value x : PropertyValue}
    (hx : (bag.insert name value).find? n = some x) :
    bag.find? n = some x ∨ (n, x) ∈ [(name, value)] := by
  rw [Table.find?_insert] at hx
  split at hx
  · next hn =>
      cases hx
      exact .inr (by simp [hn])
  · exact .inl hx

end PropertyBag

namespace EdgeEdit

/-- The labels an edit adds. -/
def newLabels : EdgeEdit → List LabelId
  | .addLabel label => [label]
  | _ => []

/-- The values an edit writes. -/
def newProperties : EdgeEdit → List (PropNameId × PropertyValue)
  | .addProperty name value | .setProperty name value | .putProperty name value => [(name, value)]
  | _ => []

/-- What an edit makes of an edge. -/
structure Result (edit : EdgeEdit) (e e' : Edge) : Prop where
  origin : e'.origin = e.origin
  target : e'.target = e.target
  labels : ∀ l ∈ e'.labels, l ∈ e.labels ∨ l ∈ edit.newLabels ∧ l ≠ kNoLabel
  properties : ∀ n x, e'.properties.find? n = some x →
    e.properties.find? n = some x ∨ (n, x) ∈ edit.newProperties

/-- An edit refuses, or replaces the record of one live edge by its result, the mark still to
come. -/
theorem perform_result (edit : EdgeEdit) (g : Graph) (edge : Guid) :
    (∃ status, edit.perform g edge = (g, status)) ∨
    (∃ e e' : Edge, g.edges.find? edge = some e ∧ edit.Result e e' ∧
      e'.dirtyEpoch = e.dirtyEpoch ∧
      edit.perform g edge = (g.updateEdge edge fun _ => e'.markDirty, .ok)) := by
  have lift : ∀ f : Edge → Except GdiStatus Edge,
      (∀ e e', f e = .ok e' → edit.Result e e' ∧ e'.dirtyEpoch = e.dirtyEpoch) →
      (∃ status, g.editEdge edge f = (g, status)) ∨
      (∃ e e' : Edge, g.edges.find? edge = some e ∧ edit.Result e e' ∧
        e'.dirtyEpoch = e.dirtyEpoch ∧
        g.editEdge edge f = (g.updateEdge edge fun _ => e'.markDirty, .ok)) := by
    intro f hf
    refine (g.editEdge_cases edge f).imp_right ?_
    rintro ⟨e, e', he, hedit, heq⟩
    exact ⟨e, e', he, (hf e e' hedit).1, (hf e e' hedit).2, heq⟩
  cases edit with
  | setDirection direction =>
    simp only [perform, Graph.edgeSetDirection]
    split
    · exact .inl ⟨_, rfl⟩
    · refine lift _ fun e e' heq => ?_
      cases heq
      exact ⟨⟨rfl, rfl, fun l hl => .inl hl, fun n x hx => .inl hx⟩, rfl⟩
  | addLabel label =>
    simp only [perform, Graph.edgeAddLabel]
    split
    · exact .inl ⟨_, rfl⟩
    · next hlabel =>
        refine lift _ fun e e' heq => ?_
        split at heq
        · cases heq
        · cases heq
          refine ⟨⟨rfl, rfl, fun l hl => ?_, fun n x hx => .inl hx⟩, rfl⟩
          refine (List.mem_append.mp hl).imp_right fun hnew => ⟨hnew, ?_⟩
          rw [List.mem_singleton.mp hnew]
          exact hlabel
  | removeLabel label =>
    refine lift _ fun e e' heq => ?_
    split at heq
    · cases heq
      exact ⟨⟨rfl, rfl, fun l hl => .inl (List.mem_of_mem_erase hl), fun n x hx => .inl hx⟩, rfl⟩
    · cases heq
  | addProperty name value =>
    refine lift _ fun e e' heq => ?_
    split at heq
    · cases heq
    · cases heq
      exact ⟨⟨rfl, rfl, fun l hl => .inl hl, fun n x hx => PropertyBag.find?_insert_cases hx⟩, rfl⟩
  | setProperty name value =>
    refine lift _ fun e e' heq => ?_
    split at heq
    · cases heq
      exact ⟨⟨rfl, rfl, fun l hl => .inl hl, fun n x hx => PropertyBag.find?_insert_cases hx⟩, rfl⟩
    · cases heq
  | putProperty name value =>
    simp only [perform, Graph.edgePutProperty]
    refine lift _ fun e e' heq => ?_
    cases heq
    exact ⟨⟨rfl, rfl, fun l hl => .inl hl, fun n x hx => PropertyBag.find?_insert_cases hx⟩, rfl⟩
  | removeProperties names =>
    simp only [perform, Graph.edgeRemoveProperties]
    refine lift _ fun e e' heq => ?_
    cases heq
    refine ⟨⟨rfl, rfl, fun l hl => .inl hl, fun n x hx => ?_⟩, rfl⟩
    rw [PropertyBag.find?_foldl_erase] at hx
    split at hx
    · cases hx
    · exact .inl hx

end EdgeEdit

/-- The calls a single writer can make on a graph. -/
inductive GraphOp where
  | createPlainVertex (content : Bytes) (minted : Guid)
  | createVertex (spec : VertexSpec) (minted : Guid)
  | getOrCreateVertex (spec : VertexSpec) (minted : Guid)
  | addVertex (guid : Guid) (v : DetachedVertex)
  | adoptVertex (guid : Guid) (v : DetachedVertex)
  | removeVertex (guid : Guid)
  | freeVertex (guid : Guid) (guarded : Bool)
  | editVertex (guid : Guid) (edit : VertexEdit)
  | edgeCreate (origin target : Guid) (direction : Byte) (labels : List LabelId)
      (properties : PropertyList) (chosenUid : Option Guid) (minted : Guid)
  | edgeFree (edge : Guid)
  | edgeSetOrigin (edge origin : Guid)
  | edgeSetTarget (edge target : Guid)
  | editEdge (edge : Guid) (edit : EdgeEdit)
  | connect (source target minted : Guid)
  | connectBulk (requests : List (EdgeRequest × Guid))
  | disconnect (source target : Guid)
  | adoptEdge (id : Guid) (edge : Edge)
  | takeRemovedVertices
  | takeRemovedEdges

/-- The graph after one call. -/
def Graph.step (g : Graph) : GraphOp → Graph
  | .createPlainVertex content minted => (g.createPlainVertex content minted).1
  | .createVertex spec minted => (g.createVertex spec minted).1
  | .getOrCreateVertex spec minted => (g.getOrCreateVertex spec minted).1
  | .addVertex guid v => (g.addVertex guid v).1
  | .adoptVertex guid v => (g.adoptVertex guid v).1
  | .removeVertex guid => (g.removeVertex guid).1
  | .freeVertex guid guarded => (g.freeVertex guid guarded).1
  | .editVertex guid edit => g.updateVertex guid edit.apply
  | .edgeCreate origin target direction labels properties chosenUid minted =>
    (g.edgeCreate origin target direction labels properties chosenUid minted).1
  | .edgeFree edge => (g.edgeFree edge).1
  | .edgeSetOrigin edge origin => (g.edgeSetOrigin edge origin).1
  | .edgeSetTarget edge target => (g.edgeSetTarget edge target).1
  | .editEdge edge edit => (edit.perform g edge).1
  | .connect source target minted => (g.connect source target minted).1
  | .connectBulk requests => (g.connectBulk requests).1
  | .disconnect source target => (g.disconnect source target).1
  | .adoptEdge id edge => (g.adoptEdge id edge).1
  | .takeRemovedVertices => g.takeRemovedVertices.1
  | .takeRemovedEdges => g.takeRemovedEdges.1

/-- What a call makes of the graph, by how it goes. A call that is refused changes nothing. -/
inductive Graph.Effect (g : Graph) : GraphOp → Graph → Prop where
  | unchanged {op : GraphOp} : Effect g op g
  | plainVertex {content : Bytes} {minted : Guid} (fresh : g.vertices.find? minted = none) :
      Effect g (.createPlainVertex content minted) (g.insertVertex minted (Vertex.new content))
  | created {spec : VertexSpec} {minted : Guid} (fresh : g.vertices.find? minted = none)
      (free : g.findKey spec.key = none) :
      Effect g (.createVertex spec minted) (g.published spec minted)
  | gotOrCreated {spec : VertexSpec} {minted : Guid} (fresh : g.vertices.find? minted = none)
      (free : g.findKey spec.key = none) :
      Effect g (.getOrCreateVertex spec minted) (g.published spec minted)
  | added {guid : Guid} {v : DetachedVertex} (fresh : g.vertices.find? guid = none) :
      Effect g (.addVertex guid v) (g.insertVertex guid v.1)
  | adoptedVertex {guid : Guid} {v : DetachedVertex} :
      Effect g (.adoptVertex guid v) (g.adoptVertex guid v).1
  | removed {guid : Guid} : Effect g (.removeVertex guid) (g.removeVertex guid).1
  | freed {guid : Guid} {guarded : Bool}
      (loose : guarded = true → g.hasIncidentEdges guid .both = false) :
      Effect g (.freeVertex guid guarded) (g.removeVertex guid).1
  | edited {guid : Guid} {edit : VertexEdit} :
      Effect g (.editVertex guid edit) (g.updateVertex guid edit.apply)
  | edgeCreated {o t : Guid} {direction : Byte} {labels : List LabelId}
      {properties : PropertyList} {chosenUid : Option Guid} {minted : Guid}
      (d : EdgeDirectionType) :
      Effect g (.edgeCreate o t direction labels properties chosenUid minted)
        (g.createEdgeLocked o t d labels properties true chosenUid minted).1
  | edgeFreed {edge : Guid} (e : Edge) (live : g.edges.find? edge = some e) :
      Effect g (.edgeFree edge) ((g.buryEdge edge).unlinkEdge edge e.origin e.target)
  | originSet {edge origin : Guid} :
      Effect g (.edgeSetOrigin edge origin) (g.moveEdgeEndpoint edge origin true).1
  | targetSet {edge target : Guid} :
      Effect g (.edgeSetTarget edge target) (g.moveEdgeEndpoint edge target false).1
  | edgeEdited {edge : Guid} {edit : EdgeEdit} (e e' : Edge) (live : g.edges.find? edge = some e)
      (origin : e'.origin = e.origin) (target : e'.target = e.target) :
      Effect g (.editEdge edge edit) (g.updateEdge edge fun _ => e'.markDirty)
  | connected {source target minted : Guid} :
      Effect g (.connect source target minted)
        (g.createEdgeLocked source target .directed [] [] false none minted).1
  | bulk {requests : List (EdgeRequest × Guid)} :
      Effect g (.connectBulk requests) (g.connectBulk requests).1
  | disconnected {source : Guid} {v : Vertex} {link : EdgeLink}
      (held : g.vertices.find? source = some v) (listed : link ∈ v.outLinks)
      (live : (g.edges.find? link.edge).isSome) :
      Effect g (.disconnect source link.neighbour)
        ((g.buryEdge link.edge).unlinkEdge link.edge source link.neighbour)
  | adoptedEdge {id : Guid} {edge : Edge} : Effect g (.adoptEdge id edge) (g.adoptEdge id edge).1
  | vertexListTaken : Effect g .takeRemovedVertices { g with removedVertices := [] }
  | edgeListTaken : Effect g .takeRemovedEdges { g with removedEdges := [] }

namespace Graph

theorem createEdgeLocked_options (g : Graph) (o t : Guid) (d : EdgeDirectionType)
    (labels : List LabelId) (properties : PropertyList) (viaGdiApi : Bool)
    (chosenUid : Option Guid) (minted : Guid) :
    (g.createEdgeLocked o t d labels properties viaGdiApi chosenUid minted).1.options =
      g.options := by
  obtain ⟨status, heq, -⟩ | ⟨originVertex, -, -, -, -, -, -, heq⟩ :=
    g.createEdgeLocked_cases o t d labels properties viaGdiApi chosenUid minted
  · rw [heq]
  · rw [heq]
    simp only [linkEdge_options]
    split <;> rfl

theorem moveEdgeEndpoint_options (g : Graph) (edge endpoint : Guid) (moveOrigin : Bool) :
    (g.moveEdgeEndpoint edge endpoint moveOrigin).1.options = g.options := by
  obtain ⟨status, heq, -⟩ | ⟨e, o, t, -, -, -, -, -, -, heq⟩ :=
    g.moveEdgeEndpoint_cases edge endpoint moveOrigin
  · rw [heq]
  · rw [heq]
    simp

/-- Every call has one of these effects. -/
theorem effect (g : Graph) (op : GraphOp) : g.Effect op (g.step op) := by
  cases op with
  | createPlainVertex content minted =>
    simp only [step, createPlainVertex]
    split
    · exact .unchanged
    · next fresh => exact .plainVertex (by simpa using fresh)
  | createVertex spec minted =>
    obtain ⟨status, heq, -⟩ | ⟨existing, heq, -⟩ | ⟨heq, fresh, free⟩ :=
      g.createVertex_cases spec minted
    · simp only [step, heq]; exact .unchanged
    · simp only [step, heq]; exact .unchanged
    · simp only [step, heq]; exact .created fresh free
  | getOrCreateVertex spec minted =>
    obtain ⟨status, out, heq⟩ | ⟨heq, fresh, free⟩ := g.getOrCreateVertex_cases spec minted
    · simp only [step, heq]; exact .unchanged
    · simp only [step, heq]; exact .gotOrCreated fresh free
  | addVertex guid v =>
    simp only [step, addVertex]
    split
    · exact .unchanged
    · next fresh => exact .added (by simpa using fresh)
  | adoptVertex guid v => exact .adoptedVertex
  | removeVertex guid => exact .removed
  | freeVertex guid guarded =>
    by_cases loose : guarded = true → g.hasIncidentEdges guid .both = false
    · obtain heq | heq := g.freeVertex_fst guid guarded
      · simp only [step, heq]; exact .unchanged
      · simp only [step, heq]; exact .freed loose
    · have heq : (g.freeVertex guid guarded).1 = g := by
        obtain ⟨rfl, hinc⟩ := Classical.not_imp.mp loose
        rw [freeVertex, Bool.of_not_eq_false hinc]
        split <;> rfl
      simp only [step, heq]; exact .unchanged
  | editVertex guid edit => exact .edited
  | edgeCreate o t direction labels properties chosenUid minted =>
    obtain ⟨status, heq, -⟩ | ⟨d, -, heq⟩ :=
      g.edgeCreate_fst o t direction labels properties chosenUid minted
    · simp only [step, heq]; exact .unchanged
    · simp only [step, heq]; exact .edgeCreated d
  | edgeFree edge =>
    simp only [step, edgeFree]
    split
    · exact .unchanged
    · next e live => exact .edgeFreed e live
  | edgeSetOrigin edge origin => exact .originSet
  | edgeSetTarget edge target => exact .targetSet
  | editEdge edge edit =>
    obtain ⟨status, heq⟩ | ⟨e, e', live, hresult, -, heq⟩ := edit.perform_result g edge
    · simp only [step, heq]; exact .unchanged
    · simp only [step, heq]; exact .edgeEdited e e' live hresult.origin hresult.target
  | connect source target minted =>
    obtain heq | heq := g.connect_fst source target minted
    · simp only [step, heq]; exact .unchanged
    · simp only [step, heq]; exact .connected
  | connectBulk requests => exact .bulk
  | disconnect source target =>
    obtain heq | ⟨v, link, held, listed, rfl, live, heq⟩ := g.disconnect_cases source target
    · simp only [step, heq]; exact .unchanged
    · simp only [step, heq]; exact .disconnected held listed live
  | adoptEdge id edge => exact .adoptedEdge
  | takeRemovedVertices => exact .vertexListTaken
  | takeRemovedEdges => exact .edgeListTaken

/-- The options never change. -/
@[simp] theorem step_options (g : Graph) (op : GraphOp) : (g.step op).options = g.options := by
  have removed : ∀ guid, (g.removeVertex guid).1.options = g.options := by
    intro guid
    cases hv : g.vertices.find? guid with
    | none => rw [removeVertex_of_none hv]
    | some victim => exact removeVertex_options hv
  have heffect := g.effect op
  generalize g.step op = g' at heffect ⊢
  cases heffect with
  | unchanged => rfl
  | plainVertex fresh => rfl
  | created fresh free => exact g.published_options ..
  | gotOrCreated fresh free => exact g.published_options ..
  | added fresh => rfl
  | adoptedVertex =>
    obtain ⟨heq, -⟩ | ⟨-, heq⟩ := g.adoptVertex_cases _ _
    · rw [heq]
    · rw [heq]
      dsimp only
      split <;> simp
  | removed => exact removed _
  | freed loose => exact removed _
  | edited => simp
  | edgeCreated d => exact g.createEdgeLocked_options ..
  | edgeFreed e live => simp
  | originSet => exact g.moveEdgeEndpoint_options ..
  | targetSet => exact g.moveEdgeEndpoint_options ..
  | edgeEdited e e' live ho ht => simp
  | connected => exact g.createEdgeLocked_options ..
  | bulk =>
    exact g.connectPending_invariant (I := fun g' => g'.options = g.options)
      (F := fun _ => True) (fun g' _ _ _ _ h => (g'.createEdgeLocked_options ..).trans h) _
      (fun _ _ => trivial) rfl
  | disconnected held listed live => simp
  | adoptedEdge =>
    obtain ⟨status, heq, -⟩ | ⟨-, -, ⟨-, heq⟩ | ⟨-, -, heq⟩⟩ := g.adoptEdge_cases _ _
    · rw [heq]
    · simp [heq]
    · simp [heq]
  | vertexListTaken => rfl
  | edgeListTaken => rfl

end Graph

/-- A graph with no vertices and no edges. -/
def Graph.empty (options : GraphOptions) : Graph := { options }

end KimixNative.GraphDb
