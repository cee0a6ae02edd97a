import KimixNative.GraphDb.Operations
import KimixNative.Lib.Tombstones

/-!
# Tombstones

A save deletes only what the two tombstone lists name, so a list must hold every id that
was removed since it was last taken and is not live, and no live id. `Tracked` runs the
graph together with the ids that really ended, which is what the lists are compared with.

Two paths miss it. `add_vertex` brings a vertex back without dropping its tombstone, as
`adopt_vertex` does, and `adopt_edge` spends the tombstone of an edge before it finds out
that an endpoint is missing. `TombStepOk` is the condition on a call that rules these
out; a guid that is minted has never been in use.
-/

namespace KimixNative.GraphDb

/-- A graph with the ids that ended since each list was last taken. -/
structure Tracked where
  graph : Graph
  goneVertices : List Guid := []
  goneEdges : List Guid := []

namespace Tracked

/-- The ids that are in the first table and no longer in the second. -/
def ended {ν : Type} (before after : Table Guid ν) : List Guid :=
  before.keys.filter fun u => (after.find? u).isNone

/-- One call, with what it ended. -/
def step (t : Tracked) (op : GraphOp) : Tracked :=
  let after := t.graph.step op
  { graph := after
    goneVertices :=
      match op with
      | .takeRemovedVertices => []
      | _ => t.goneVertices ++ ended t.graph.vertices after.vertices
    goneEdges :=
      match op with
      | .takeRemovedEdges => []
      | _ => t.goneEdges ++ ended t.graph.edges after.edges }

/-- The lists hold no live id, and every id that ended since and is not live. -/
def TombstonesExact (t : Tracked) : Prop :=
  (∀ u ∈ t.graph.removedVertices, t.graph.vertices.find? u = none) ∧
  (∀ d ∈ t.graph.removedEdges, t.graph.edges.find? d = none) ∧
  (∀ u ∈ t.goneVertices, t.graph.vertices.find? u = none → u ∈ t.graph.removedVertices) ∧
  (∀ d ∈ t.goneEdges, t.graph.edges.find? d = none → d ∈ t.graph.removedEdges)

end Tracked

variable {op : GraphOp}

namespace Graph

/-- The condition on one call: a guid that is minted or handed to `add_vertex` has no
pending tombstone, and an edge handed to `adopt_edge` whose tombstone is pending is
refused as a self edge or has both endpoints. -/
def TombStepOk (g : Graph) : GraphOp → Prop
  | .createPlainVertex _ minted => minted ∉ g.removedVertices
  | .createVertex _ minted => minted ∉ g.removedVertices
  | .getOrCreateVertex _ minted => minted ∉ g.removedVertices
  | .addVertex guid _ => guid ∉ g.removedVertices
  | .edgeCreate _ _ _ _ _ chosenUid minted => chosenUid = none → minted ∉ g.removedEdges
  | .connect _ _ minted => minted ∉ g.removedEdges
  | .connectBulk requests => ∀ r ∈ requests, r.2 ∉ g.removedEdges
  | .adoptEdge id edge =>
    id ∈ g.removedEdges →
      (edge.origin = edge.target ∧ g.options.allowSelfEdges = false) ∨
      ((g.vertices.find? edge.origin).isSome ∧ (g.vertices.find? edge.target).isSome)
  | _ => True

instance (g : Graph) (op : GraphOp) : Decidable (g.TombStepOk op) := by
  induction op using GraphOp.casesOn <;> dsimp only [TombStepOk] <;> infer_instance

def VertexLive (g : Graph) (u : Guid) : Prop := (g.vertices.find? u).isSome

def EdgeLive (g : Graph) (d : Guid) : Prop := (g.edges.find? d).isSome

/-- Both lists are free of doubles and of live ids. -/
structure ListsClean (g : Graph) : Prop where
  vertices : Clean g.VertexLive g.removedVertices
  edges : Clean g.EdgeLive g.removedEdges

/-- Both lists follow what a call did to the tables. -/
structure ListsCarried (g g' : Graph) : Prop where
  vertices : Carries g.VertexLive g.removedVertices g'.VertexLive g'.removedVertices
  edges : Carries g.EdgeLive g.removedEdges g'.EdgeLive g'.removedEdges

/-! ## Who is live after a primitive -/

variable {g' : Graph}

theorem vertexLive_congr {g : Graph} (h : g'.vertices = g.vertices) (u : Guid) :
    g'.VertexLive u ↔ g.VertexLive u := by
  rw [VertexLive, VertexLive, h]

theorem edgeLive_congr {g : Graph} (h : g'.edges = g.edges) (d : Guid) :
    g'.EdgeLive d ↔ g.EdgeLive d := by
  rw [EdgeLive, EdgeLive, h]

theorem vertexLive_insertVertex (g : Graph) (guid u : Guid) (v : Vertex) :
    (g.insertVertex guid v).VertexLive u ↔ u = guid ∨ g.VertexLive u := by
  unfold VertexLive
  rw [find?_insertVertex]
  by_cases hu : u = guid <;> simp [hu]

theorem vertexLive_updateVertex (g : Graph) (guid u : Guid) (f : Vertex → Vertex) :
    (g.updateVertex guid f).VertexLive u ↔ g.VertexLive u := by
  unfold VertexLive
  rw [find?_updateVertex]
  by_cases hu : u = guid <;> simp [hu]

theorem vertexLive_linkEdge (g : Graph) (id o t u : Guid) :
    (g.linkEdge id o t).VertexLive u ↔ g.VertexLive u :=
  (vertexLive_updateVertex ..).trans (vertexLive_updateVertex ..)

theorem vertexLive_unlinkEdge (g : Graph) (id o t u : Guid) :
    (g.unlinkEdge id o t).VertexLive u ↔ g.VertexLive u :=
  (vertexLive_updateVertex ..).trans (vertexLive_updateVertex ..)

theorem edgeLive_insertEdge (g : Graph) (id d : Guid) (e : Edge) :
    (g.insertEdge id e).EdgeLive d ↔ d = id ∨ g.EdgeLive d := by
  unfold EdgeLive
  rw [find?_insertEdge]
  by_cases hd : d = id <;> simp [hd]

theorem edgeLive_buryEdge (g : Graph) (id d : Guid) :
    (g.buryEdge id).EdgeLive d ↔ g.EdgeLive d ∧ d ≠ id := by
  unfold EdgeLive
  rw [find?_buryEdge]
  by_cases hd : d = id <;> simp [hd]

theorem edgeLive_updateEdge (g : Graph) (id d : Guid) (f : Edge → Edge) :
    (g.updateEdge id f).EdgeLive d ↔ g.EdgeLive d := by
  unfold EdgeLive
  rw [find?_updateEdge]
  by_cases hd : d = id <;> simp [hd]

/-! ## What each call carries -/

section Steps

variable {g : Graph} (h : g.ListsClean)
include h

/-- Nothing in the tables or the lists changes but record payloads. -/
theorem ListsClean.same (hv : ∀ u, g'.VertexLive u ↔ g.VertexLive u)
    (he : ∀ d, g'.EdgeLive d ↔ g.EdgeLive d) (hrv : g'.removedVertices = g.removedVertices)
    (hre : g'.removedEdges = g.removedEdges) : ListsCarried g g' where
  vertices := by
    rw [hrv]
    exact .same h.vertices hv
  edges := by
    rw [hre]
    exact .same h.edges he

theorem ListsClean.refl : ListsCarried g g :=
  h.same (fun _ => Iff.rfl) (fun _ => Iff.rfl) rfl rfl

/-- A vertex without a tombstone is published. -/
theorem ListsClean.vertexBorn {guid : Guid} (fresh : guid ∉ g.removedVertices)
    (hv : ∀ u, g'.VertexLive u ↔ u = guid ∨ g.VertexLive u) (he : ∀ d, g'.EdgeLive d ↔ g.EdgeLive d)
    (hrv : g'.removedVertices = g.removedVertices) (hre : g'.removedEdges = g.removedEdges) :
    ListsCarried g g' where
  vertices := by
    rw [hrv]
    exact .birth h.vertices fresh hv
  edges := by
    rw [hre]
    exact .same h.edges he

variable {minted : Guid}

theorem ListsClean.published (spec : VertexSpec) (fresh : minted ∉ g.removedVertices) :
    ListsCarried g (g.published spec minted) := by
  refine h.vertexBorn fresh (fun u => ?_) (fun d => by simp [EdgeLive]) (by simp) (by simp)
  unfold VertexLive
  rw [find?_published]
  by_cases hu : u = minted <;> simp [hu]

theorem ListsClean.adoptVertex (guid : Guid) (v : DetachedVertex) :
    ListsCarried g (g.adoptVertex guid v).1 := by
  obtain ⟨heq, -⟩ | ⟨-, heq⟩ := g.adoptVertex_cases guid v
  · rw [heq]; exact h.refl
  · rw [heq]
    generalize hg : (if v.1.hasKey then _ else _ : Graph) = g'
    have hframe : g'.vertices = (g.insertVertex guid v.1).vertices ∧ g'.edges = g.edges ∧
        g'.removedVertices = g.removedVertices.erase guid ∧
        g'.removedEdges = g.removedEdges := by
      subst hg
      split <;> simp
    obtain ⟨hv, he, hrv, hre⟩ := hframe
    refine ⟨?_, ?_⟩
    · rw [hrv]
      exact .revive h.vertices fun u =>
        (vertexLive_congr hv u).trans (vertexLive_insertVertex ..)
    · rw [hre]
      exact .same h.edges (edgeLive_congr he)

/-- The cascade ends edges one by one and buries each. -/
theorem ListsClean.eraseCascade (cs : List Cascade) :
    Carries g.EdgeLive g.removedEdges (g.eraseCascade cs).1.EdgeLive
      (g.eraseCascade cs).1.removedEdges := by
  induction cs generalizing g with
  | nil => exact .same h.edges fun d => Iff.rfl
  | cons c rest ih =>
    unfold Graph.eraseCascade
    split
    · exact ih h
    · next e he =>
        have hbury : Carries g.EdgeLive g.removedEdges (g.buryEdge c.edge).EdgeLive
            (g.buryEdge c.edge).removedEdges :=
          .bury h.edges (by simp [EdgeLive, he]) fun d => edgeLive_buryEdge ..
        have hclean : (g.buryEdge c.edge).ListsClean := ⟨h.vertices, hbury.clean⟩
        exact hbury.trans (ih hclean) fun d hd => .inl ((edgeLive_buryEdge ..).mp hd).1

theorem ListsClean.removeVertex (guid : Guid) : ListsCarried g (g.removeVertex guid).1 := by
  cases hv : g.vertices.find? guid with
  | none => rw [removeVertex_of_none hv]; exact h.refl
  | some victim =>
    have hlive : ∀ u, (g.removeVertex guid).1.VertexLive u ↔ g.VertexLive u ∧ u ≠ guid := by
      intro u
      unfold VertexLive
      rw [find?_vertices_removeVertex hv]
      by_cases hu : u = guid <;> simp [hu]
    refine ⟨?_, ?_⟩
    · rw [removeVertex_removedVertices hv]
      exact .bury h.vertices (by simp [VertexLive, hv]) hlive
    · have hbury : Carries g.VertexLive g.removedVertices (g.buryVertex guid).VertexLive
          (g.buryVertex guid).removedVertices := by
        refine .bury h.vertices (by simp [VertexLive, hv]) fun u => ?_
        unfold VertexLive
        rw [find?_buryVertex]
        by_cases hu : u = guid <;> simp [hu]
      have hclean : (g.buryVertex guid).ListsClean := ⟨hbury.clean, h.edges⟩
      have hedges := hclean.eraseCascade (cascadeOf victim)
      unfold EdgeLive at hedges ⊢
      rw [removeVertex_edges hv, removeVertex_removedEdges hv]
      exact hedges

theorem ListsClean.edgeBuried {edge : Guid} (live : (g.edges.find? edge).isSome) (o t : Guid) :
    ListsCarried g ((g.buryEdge edge).unlinkEdge edge o t) where
  vertices := by
    rw [unlinkEdge_removedVertices]
    exact .same h.vertices fun u => vertexLive_unlinkEdge ..
  edges := by
    rw [unlinkEdge_removedEdges]
    exact .bury h.edges live fun d =>
      (edgeLive_congr (unlinkEdge_edges ..) d).trans (edgeLive_buryEdge ..)

/-- A record goes in and is linked; a grave it may have is cleared. -/
theorem ListsClean.edgeRevived (id : Guid) (e : Edge) (o t : Guid) :
    ListsCarried g (((g.insertEdge id e).restoreRemovedEdge id).linkEdge id o t) where
  vertices := by
    rw [linkEdge_removedVertices]
    exact .same h.vertices fun u => vertexLive_linkEdge ..
  edges := by
    rw [linkEdge_removedEdges]
    exact .revive h.edges fun d =>
      (edgeLive_congr (linkEdge_edges ..) d).trans (edgeLive_insertEdge ..)

theorem ListsClean.createEdgeLocked (o t : Guid) (d : EdgeDirectionType) (labels : List LabelId)
    (properties : PropertyList) (viaGdiApi : Bool) {chosenUid : Option Guid}
    (fresh : chosenUid = none → minted ∉ g.removedEdges) :
    ListsCarried g
      (g.createEdgeLocked o t d labels properties viaGdiApi chosenUid minted).1 := by
  obtain ⟨status, heq, -⟩ | ⟨originVertex, -, -, -, -, -, -, heq⟩ :=
    g.createEdgeLocked_cases o t d labels properties viaGdiApi chosenUid minted
  · rw [heq]; exact h.refl
  · rw [heq]
    cases chosenUid with
    | some id => exact h.edgeRevived ..
    | none =>
      refine ⟨?_, ?_⟩
      · simp only [linkEdge_removedVertices]
        exact .same h.vertices fun u => vertexLive_linkEdge ..
      · simp only [linkEdge_removedEdges]
        exact .birth h.edges (fresh rfl) fun d =>
          (edgeLive_congr (linkEdge_edges ..) d).trans (edgeLive_insertEdge ..)

theorem ListsClean.connectBulk {requests : List (EdgeRequest × Guid)}
    (fresh : ∀ r ∈ requests, r.2 ∉ g.removedEdges) :
    ListsCarried g (g.connectBulk requests).1 := by
  -- Legacy creation never touches the list, so what is fresh at the start stays fresh, and
  -- since no edge dies the rows compose.
  let Inv (g' : Graph) : Prop :=
    g'.ListsClean ∧ ListsCarried g g' ∧ g'.removedEdges = g.removedEdges
  have keep : ∀ g' source target minted, minted ∉ g.removedEdges → Inv g' →
      Inv (Graph.createEdgeLocked g' source target .directed [] [] false none minted).1 := by
    rintro g' source target minted hm ⟨hclean, hcarried, hre⟩
    have hnext := hclean.createEdgeLocked source target .directed [] [] false
      (fun _ => hre ▸ hm : none = none → minted ∉ g'.removedEdges)
    have hgrow : (∀ u, g'.VertexLive u →
          (g'.createEdgeLocked source target .directed [] [] false none minted).1.VertexLive u) ∧
        (∀ d, g'.EdgeLive d →
          (g'.createEdgeLocked source target .directed [] [] false none minted).1.EdgeLive d) ∧
        (g'.createEdgeLocked source target .directed [] [] false none minted).1.removedEdges =
          g'.removedEdges := by
      obtain ⟨status, heq, -⟩ | ⟨originVertex, -, -, -, -, -, -, heq⟩ :=
        g'.createEdgeLocked_cases source target .directed [] [] false none minted
      · rw [heq]; exact ⟨fun _ hu => hu, fun _ hd => hd, rfl⟩
      · rw [heq]
        refine ⟨fun u hu => (vertexLive_linkEdge ..).mpr hu, fun d hd => ?_, by simp⟩
        exact (edgeLive_congr (linkEdge_edges ..) d).mpr
          ((edgeLive_insertEdge ..).mpr (.inr hd))
    refine ⟨⟨hnext.vertices.clean, hnext.edges.clean⟩, ⟨?_, ?_⟩, hgrow.2.2.trans hre⟩
    · exact hcarried.vertices.trans hnext.vertices fun u hu => .inr (hgrow.1 u hu)
    · exact hcarried.edges.trans hnext.edges fun d hd => .inr (hgrow.2.1 d hd)
  have hrows : ∀ row ∈ requests.map (fun r => (r.1, r.2, g.bulkVerdict r.1)),
      row.2.1 ∉ g.removedEdges := by
    intro row hrow
    obtain ⟨r, hr, rfl⟩ := List.mem_map.mp hrow
    exact fresh r hr
  exact (g.connectPending_invariant (I := Inv) (F := (· ∉ g.removedEdges)) keep _ hrows
    ⟨h, h.refl, rfl⟩).2.1

theorem ListsClean.moveEdgeEndpoint (edge endpoint : Guid) (moveOrigin : Bool) :
    ListsCarried g (g.moveEdgeEndpoint edge endpoint moveOrigin).1 := by
  obtain ⟨status, heq, -⟩ | ⟨e, o, t, -, -, -, -, -, -, heq⟩ :=
    g.moveEdgeEndpoint_cases edge endpoint moveOrigin
  · rw [heq]; exact h.refl
  · rw [heq]
    refine h.same (fun u => ?_) (fun d => ?_) (by simp) (by simp)
    · exact (vertexLive_congr (updateEdge_vertices ..) u).trans
        ((vertexLive_linkEdge ..).trans (vertexLive_unlinkEdge ..))
    · exact (edgeLive_updateEdge ..).trans (edgeLive_congr (by simp) d)

theorem ListsClean.adoptEdge {id : Guid} {edge : Edge}
    (ok : g.TombStepOk (.adoptEdge id edge)) : ListsCarried g (g.adoptEdge id edge).1 := by
  obtain ⟨status, heq, -⟩ | ⟨free, hself, ⟨hmissing, heq⟩ | ⟨-, -, heq⟩⟩ :=
    g.adoptEdge_cases id edge
  · rw [heq]; exact h.refl
  · -- The record went in and out again, so its tombstone must not have been there.
    have hnot : id ∉ g.removedEdges := by
      intro hmem
      obtain ⟨heq, hoff⟩ | ⟨ho, ht⟩ := ok hmem
      · rw [hself heq] at hoff
        cases hoff
      · rcases hmissing with hm | hm
        · simp [hm] at ho
        · simp [hm] at ht
    rw [heq]
    refine h.same (fun u => Iff.rfl) (fun d => ?_) rfl (List.erase_of_not_mem hnot)
    unfold EdgeLive
    rw [find?_eraseEdge, restoreRemovedEdge_edges, find?_insertEdge]
    by_cases hd : d = id
    · simp [hd, free]
    · simp [hd]
  · rw [heq]; exact h.edgeRevived ..

/-- A call that meets the condition and does not take a list carries both. -/
theorem ListsClean.step (ok : g.TombStepOk op) (hv : op ≠ .takeRemovedVertices)
    (he : op ≠ .takeRemovedEdges) : ListsCarried g (g.step op) := by
  have heffect := g.effect op
  generalize g.step op = g' at heffect ⊢
  cases heffect with
  | unchanged => exact h.refl
  | plainVertex fresh =>
    exact h.vertexBorn ok (fun u => vertexLive_insertVertex ..) (fun d => Iff.rfl) rfl rfl
  | created fresh free => exact h.published _ ok
  | gotOrCreated fresh free => exact h.published _ ok
  | added fresh =>
    exact h.vertexBorn ok (fun u => vertexLive_insertVertex ..) (fun d => Iff.rfl) rfl rfl
  | adoptedVertex => exact h.adoptVertex ..
  | removed => exact h.removeVertex _
  | freed loose => exact h.removeVertex _
  | edited =>
    exact h.same (fun u => vertexLive_updateVertex ..) (edgeLive_congr (updateVertex_edges ..))
      (by simp) (by simp)
  | edgeCreated d => exact h.createEdgeLocked _ _ _ _ _ _ ok
  | edgeFreed e live => exact h.edgeBuried (by simp [live]) ..
  | originSet => exact h.moveEdgeEndpoint ..
  | targetSet => exact h.moveEdgeEndpoint ..
  | edgeEdited e e' live ho ht =>
    exact h.same (vertexLive_congr (updateEdge_vertices ..)) (fun d => edgeLive_updateEdge ..)
      (by simp) (by simp)
  | connected => exact h.createEdgeLocked _ _ _ _ _ _ fun _ => ok
  | bulk => exact h.connectBulk ok
  | disconnected held listed live => exact h.edgeBuried live ..
  | adoptedEdge => exact h.adoptEdge ok
  | vertexListTaken => exact absurd rfl hv
  | edgeListTaken => exact absurd rfl he

end Steps

end Graph

/-! ## Runs -/

namespace Tracked

/-- Both lists against the ids that really ended. -/
structure Exact (t : Tracked) : Prop where
  vertices : Tombstoned t.graph.VertexLive (· ∈ t.goneVertices) t.graph.removedVertices
  edges : Tombstoned t.graph.EdgeLive (· ∈ t.goneEdges) t.graph.removedEdges

variable {t : Tracked}

theorem Exact.listsClean (h : t.Exact) : t.graph.ListsClean :=
  ⟨h.vertices.clean, h.edges.clean⟩

theorem mem_append_ended {ν : Type} (gone : List Guid) (before after : Table Guid ν) (u : Guid) :
    u ∈ gone ++ ended before after ↔
      u ∈ gone ∨ (before.find? u).isSome ∧ ¬(after.find? u).isSome := by
  rw [List.mem_append]
  refine or_congr_right ?_
  cases hb : before.find? u with
  | none => simp [ended, Table.mem_keys, hb]
  | some v => simp [ended, Table.mem_keys, hb]

theorem Exact.step (h : t.Exact) (ok : t.graph.TombStepOk op) : (t.step op).Exact := by
  by_cases hv : op = .takeRemovedVertices
  · subst hv
    exact ⟨.take _ fun u => List.not_mem_nil,
      h.edges.carry (.same h.edges.clean fun d => Iff.rfl) (mem_append_ended _ _ _)⟩
  by_cases he : op = .takeRemovedEdges
  · subst he
    exact ⟨h.vertices.carry (.same h.vertices.clean fun u => Iff.rfl) (mem_append_ended _ _ _),
      .take _ fun d => List.not_mem_nil⟩
  have hcarried := h.listsClean.step ok hv he
  have hgv : (t.step op).goneVertices =
      t.goneVertices ++ ended t.graph.vertices (t.graph.step op).vertices := by
    cases op <;> first | rfl | exact absurd rfl hv
  have hge : (t.step op).goneEdges =
      t.goneEdges ++ ended t.graph.edges (t.graph.step op).edges := by
    cases op <;> first | rfl | exact absurd rfl he
  refine ⟨?_, ?_⟩
  · rw [hgv]
    exact h.vertices.carry hcarried.vertices (mem_append_ended _ _ _)
  · rw [hge]
    exact h.edges.carry hcarried.edges (mem_append_ended _ _ _)

theorem exact_empty (options : GraphOptions) : Exact { graph := .empty options } :=
  ⟨.take _ fun _ => List.not_mem_nil, .take _ fun _ => List.not_mem_nil⟩

theorem Exact.tombstonesExact (h : t.Exact) : t.TombstonesExact := by
  have vnone : ∀ u, t.graph.vertices.find? u = none ↔ ¬t.graph.VertexLive u := fun u => by
    simp [Graph.VertexLive]
  have enone : ∀ d, t.graph.edges.find? d = none ↔ ¬t.graph.EdgeLive d := fun d => by
    simp [Graph.EdgeLive]
  refine ⟨fun u hu => ?_, fun d hd => ?_, fun u hu hdead => ?_, fun d hd hdead => ?_⟩
  · exact (vnone u).mpr (h.vertices.clean.dead u hu)
  · exact (enone d).mpr (h.edges.clean.dead d hd)
  · exact (h.vertices.mem_iff u).mpr ⟨hu, (vnone u).mp hdead⟩
  · exact (h.edges.mem_iff d).mpr ⟨hd, (enone d).mp hdead⟩

/-- In every run whose calls meet the condition, neither list names a live id, and each
names every id that ended since it was taken and is not live. -/
theorem tombstones_run (options : GraphOptions) (ops : List GraphOp)
    (ok : Meets step (fun t op => t.graph.TombStepOk op) { graph := .empty options } ops) :
    (run step { graph := .empty options } ops).TombstonesExact :=
  (ok.invariant (fun _ _ h hok => h.step hok) (exact_empty options)).tombstonesExact

/-- A run that frees a vertex with its edge, brings both back and takes the lists, and
meets the condition throughout. -/
theorem tombstones_run_revived :
    let ops : List GraphOp :=
      [.createPlainVertex [] 1, .createPlainVertex [] 2, .connect 1 2 3, .removeVertex 1,
        .adoptVertex 1 ⟨{}, rfl, rfl⟩, .edgeCreate 1 2 1 [] [] (some 3) 4, .edgeFree 3,
        .takeRemovedEdges, .addVertex 5 ⟨{}, rfl, rfl⟩]
    Meets step (fun t op => t.graph.TombStepOk op) { graph := .empty {} } ops ∧
      (run step { graph := .empty {} } ops).TombstonesExact := by
  intro ops
  have ok : Meets step (fun t op => t.graph.TombStepOk op) { graph := .empty {} } ops := by
    decide
  exact ⟨ok, tombstones_run {} ops ok⟩

/-- `add_vertex` brings a removed vertex back and leaves its tombstone. -/
theorem addVertex_not_tombstonesExact :
    ¬(run step { graph := .empty {} }
      [.createPlainVertex [] 1, .removeVertex 1,
        .addVertex 1 ⟨{}, rfl, rfl⟩]).TombstonesExact := by
  intro h
  have hdead := h.1 1 (by decide)
  revert hdead
  decide

end Tracked

end KimixNative.GraphDb
