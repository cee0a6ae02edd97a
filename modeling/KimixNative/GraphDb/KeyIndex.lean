import KimixNative.GraphDb.Operations
import KimixNative.Lib.UniqueIndex

/-!
# The key index

`translate_vertex_id` should find a key exactly when a live vertex has it. The index is
filled on three paths and cleared by key on removal, so the law depends on the history:
`add_vertex` publishes a keyed vertex without entering its key, `adopt_vertex` accepts a
second vertex with a taken key, and `remove_vertex` then drops the entry although
another vertex still has the key. `KeyStepOk` is the condition on a call that rules
these out, and under it the law holds after every run.
-/

namespace KimixNative.GraphDb

namespace Graph

/-- The key of a live vertex, when it has one. -/
def keyOf (g : Graph) (u : Guid) : Option VertexKey :=
  (g.vertices.find? u).bind fun v => if v.hasKey then some v.key else none

/-- `translate_vertex_id` finds a key if and only if a live vertex has it, and what it
finds is such a vertex. -/
def KeysExact (g : Graph) : Prop :=
  ∀ k, ((g.translateVertexId k).2.isSome ↔
      ∃ u v, g.vertices.find? u = some v ∧ v.hasKey ∧ v.key = k) ∧
    ∀ u, (g.translateVertexId k).2 = some u →
      ∃ v, g.vertices.find? u = some v ∧ v.hasKey ∧ v.key = k

/-- No other live vertex has the key of the vertex that is removed. -/
def LastOfItsKey (g : Graph) (guid : Guid) : Prop :=
  g.keyOf guid = none ∨
    ∀ e ∈ g.vertices.toList, e.1 ≠ guid → g.keyOf e.1 ≠ g.keyOf guid

/-- The condition on one call: a vertex handed to `add_vertex` has no key, or its guid is
refused, or some live vertex already answers for its key; a vertex that is removed is the
last one with its key. -/
def KeyStepOk (g : Graph) : GraphOp → Prop
  | .addVertex guid v =>
    v.1.hasKey = true → (g.vertices.find? guid).isSome ∨
      ∃ e ∈ g.vertices.toList, g.keyOf e.1 = some v.1.key
  | .removeVertex guid => g.LastOfItsKey guid
  | .freeVertex guid guarded =>
    (guarded = true ∧ g.hasIncidentEdges guid .both = true) ∨ g.LastOfItsKey guid
  | _ => True

instance (g : Graph) (guid : Guid) : Decidable (g.LastOfItsKey guid) :=
  inferInstanceAs (Decidable (_ ∨ _))

instance (g : Graph) (op : GraphOp) : Decidable (g.KeyStepOk op) := by
  induction op using GraphOp.casesOn <;> dsimp only [KeyStepOk] <;> infer_instance

/-- The index and the live vertices agree. -/
abbrev KeyIndexed (g : Graph) : Prop := Indexes g.keyOf g.keys.find?

theorem keyOf_eq_some {g : Graph} {u : Guid} {k : VertexKey} :
    g.keyOf u = some k ↔ ∃ v, g.vertices.find? u = some v ∧ v.hasKey ∧ v.key = k := by
  simp only [keyOf, Option.bind_eq_some_iff]
  refine exists_congr fun v => and_congr_right fun _ => ?_
  by_cases hk : v.hasKey = true <;> simp [hk]

theorem keyOf_eq_none {g : Graph} {u : Guid} (h : g.vertices.find? u = none) :
    g.keyOf u = none := by
  simp [keyOf, h]

theorem label_ne_of_hasKey {v : Vertex} (h : v.hasKey = true) : v.key.label ≠ kNoLabel := by
  simpa [Vertex.hasKey, Vertex.key] using h

theorem KeyIndexed.keysExact {g : Graph} (h : g.KeyIndexed) : g.KeysExact := by
  intro k
  have hfind : (g.translateVertexId k).2 = g.keys.find? k := by
    unfold translateVertexId findKey
    by_cases hl : k.label = kNoLabel
    · -- The reserved label has no entry, since no live vertex has it as a key.
      cases hk : g.keys.find? k with
      | none => simp [hl]
      | some u =>
        obtain ⟨v, -, hv, rfl⟩ := keyOf_eq_some.mp (h.sound hk)
        exact absurd hl (label_ne_of_hasKey hv)
    · simp [hl]
  rw [hfind]
  refine ⟨?_, fun u hu => keyOf_eq_some.mp (h.sound hu)⟩
  rw [h.isSome_iff]
  exact exists_congr fun u => keyOf_eq_some

/-- Only the keys of live vertices and the index matter. -/
theorem KeyIndexed.congr {g g' : Graph} (h : g.KeyIndexed) (ho : ∀ u, g'.keyOf u = g.keyOf u)
    (hk : ∀ k, g'.keys.find? k = g.keys.find? k) : g'.KeyIndexed := by
  have e1 : g'.keyOf = g.keyOf := funext ho
  have e2 : g'.keys.find? = g.keys.find? := funext hk
  unfold KeyIndexed
  rw [e1, e2]
  exact h

theorem keyOf_insertVertex (g : Graph) (guid : Guid) (v : Vertex) :
    (g.insertVertex guid v).keyOf =
      Function.update g.keyOf guid (if v.hasKey then some v.key else none) := by
  funext u
  simp only [keyOf, find?_insertVertex]
  by_cases hu : u = guid <;> simp [hu, keyOf]

/-- An update that keeps every vertex's key keeps all keys. -/
theorem keyOf_of_map {g g' : Graph} {f : Guid → Vertex → Vertex}
    (hf : ∀ u v, (f u v).key = v.key ∧ (f u v).hasKey = v.hasKey)
    (h : ∀ u, g'.vertices.find? u = (g.vertices.find? u).map (f u)) (u : Guid) :
    g'.keyOf u = g.keyOf u := by
  simp only [keyOf, h]
  cases g.vertices.find? u with
  | none => rfl
  | some v => simp [hf]

theorem keyOf_updateVertex (g : Graph) (guid : Guid) {f : Vertex → Vertex}
    (hf : ∀ v, (f v).key = v.key ∧ (f v).hasKey = v.hasKey) (u : Guid) :
    (g.updateVertex guid f).keyOf u = g.keyOf u := by
  refine keyOf_of_map (f := fun u v => if u = guid then f v else v) ?_ ?_ u
  · intro u v
    by_cases hu : u = guid <;> simp [hu, hf]
  · intro u
    rw [find?_updateVertex]
    by_cases hu : u = guid <;> simp [hu]

@[simp] theorem keyOf_linkEdge (g : Graph) (id o t u : Guid) :
    (g.linkEdge id o t).keyOf u = g.keyOf u := by
  refine (keyOf_updateVertex _ t (fun v => ?_) u).trans (keyOf_updateVertex _ o (fun v => ?_) u)
  · exact ⟨rfl, rfl⟩
  · exact ⟨rfl, rfl⟩

@[simp] theorem keyOf_unlinkEdge (g : Graph) (id o t u : Guid) :
    (g.unlinkEdge id o t).keyOf u = g.keyOf u := by
  refine (keyOf_updateVertex _ t (fun v => ?_) u).trans (keyOf_updateVertex _ o (fun v => ?_) u)
  · exact ⟨Vertex.key_congr (by simp), Vertex.hasKey_congr (by simp)⟩
  · exact ⟨Vertex.key_congr (by simp), Vertex.hasKey_congr (by simp)⟩

@[simp] theorem keyOf_updateEdge (g : Graph) (id u : Guid) (f : Edge → Edge) :
    (g.updateEdge id f).keyOf u = g.keyOf u := by
  simp [keyOf]

variable {guid : Guid}

theorem keyOf_removeVertex {g : Graph} {victim : Vertex} (h : g.vertices.find? guid = some victim) :
    (g.removeVertex guid).1.keyOf = Function.update g.keyOf guid none := by
  funext u
  simp only [keyOf, find?_vertices_removeVertex h]
  by_cases hu : u = guid
  · simp [hu]
  · rw [Function.update_of_ne hu, if_neg hu, keyOf]
    cases g.vertices.find? u with
    | none => rfl
    | some v =>
      simp [Vertex.key_congr (payload_unlinkAll u _ v),
        Vertex.hasKey_congr (payload_unlinkAll u _ v)]

section Steps

variable {g : Graph} (h : g.KeyIndexed)
include h

theorem KeyIndexed.published {spec : VertexSpec} {minted : Guid}
    (fresh : g.vertices.find? minted = none) (free : g.findKey spec.key = none) :
    (g.published spec minted).KeyIndexed := by
  have hv : spec.toVertex.hasKey = spec.keyed := rfl
  have ho : (g.published spec minted).keyOf =
      Function.update g.keyOf minted (if spec.keyed then some spec.key else none) := by
    rw [← hv]
    refine Eq.trans ?_ (g.keyOf_insertVertex minted spec.toVertex)
    funext u
    simp only [keyOf, find?_published, find?_insertVertex]
  unfold KeyIndexed
  rw [ho, published_keys]
  cases hk : spec.keyed with
  | false => exact h.insert_unkeyed (keyOf_eq_none fresh)
  | true =>
    have hl : spec.key.label ≠ kNoLabel := by
      simpa [VertexSpec.keyed, VertexSpec.key] using hk
    have hnone : g.keys.find? spec.key = none := by simpa [findKey, hl] using free
    have hfind : (g.keys.insert spec.key minted).find? =
        Function.update g.keys.find? spec.key
          ((g.keys.find? spec.key).or (some minted)) := by
      funext k
      rw [Table.find?_insert]
      by_cases hk' : k = spec.key <;> simp [hk', hnone]
    simp only [if_true, hfind]
    exact h.insert (keyOf_eq_none fresh)

theorem KeyIndexed.adoptVertex (guid : Guid) (v : DetachedVertex) :
    (g.adoptVertex guid v).1.KeyIndexed := by
  obtain ⟨heq, -⟩ | ⟨fresh, heq⟩ := g.adoptVertex_cases guid v
  · rw [heq]; exact h
  · rw [heq]
    cases hk : v.1.hasKey with
    | false =>
      have ho := g.keyOf_insertVertex guid v.1
      rw [hk, if_neg Bool.false_ne_true] at ho
      have hins : (g.insertVertex guid v.1).KeyIndexed := by
        unfold KeyIndexed
        rw [ho]
        exact h.insert_unkeyed (keyOf_eq_none fresh)
      exact hins.congr (fun u => rfl) fun k => rfl
    | true =>
      have ho : (((g.insertVertex guid v.1).restoreRemovedVertex guid).insertKey
          v.1.key guid).1.keyOf = Function.update g.keyOf guid (some v.1.key) := by
        have := g.keyOf_insertVertex guid v.1
        rw [hk, if_pos rfl] at this
        rw [← this]
        funext u
        simp [keyOf]
      have hf : (((g.insertVertex guid v.1).restoreRemovedVertex guid).insertKey
          v.1.key guid).1.keys.find? =
            Function.update g.keys.find? v.1.key
              ((g.keys.find? v.1.key).or (some guid)) := by
        funext k
        rw [find?_insertKey _ (label_ne_of_hasKey hk)]
        by_cases hk' : k = v.1.key <;> simp [hk']
      unfold KeyIndexed
      simp only [if_true]
      rw [ho, hf]
      exact h.insert (keyOf_eq_none fresh)

theorem KeyIndexed.addVertex {v : DetachedVertex} (fresh : g.vertices.find? guid = none)
    (ok : g.KeyStepOk (.addVertex guid v)) : (g.insertVertex guid v.1).KeyIndexed := by
  unfold KeyIndexed
  rw [keyOf_insertVertex]
  cases hk : v.1.hasKey with
  | false => exact h.insert_unkeyed (keyOf_eq_none fresh)
  | true =>
    obtain hlive | ⟨e, -, hu⟩ := ok hk
    · simp [fresh] at hlive
    · exact h.insert_shadowed (keyOf_eq_none fresh) (h.complete hu)

theorem KeyIndexed.removeVertex (ok : g.LastOfItsKey guid) :
    (g.removeVertex guid).1.KeyIndexed := by
  cases hv : g.vertices.find? guid with
  | none => rw [removeVertex_of_none hv]; exact h
  | some victim =>
    unfold KeyIndexed
    rw [keyOf_removeVertex hv, removeVertex_keys hv]
    cases hk : victim.hasKey with
    | false =>
      have hnone : g.keyOf guid = none := by simp [keyOf, hv, hk]
      exact h.insert_unkeyed hnone
    | true =>
      have hsome : g.keyOf guid = some victim.key := by simp [keyOf, hv, hk]
      have hf : (g.keys.erase victim.key).find? =
          Function.update g.keys.find? victim.key none := by
        funext k
        rw [Table.find?_erase]
        by_cases hk' : k = victim.key <;> simp [hk']
      simp only [if_true, hf]
      refine h.drop hsome fun u hu hsame => ?_
      obtain ⟨v, hv', -⟩ := keyOf_eq_some.mp hsame
      obtain hnone | hlast := ok
      · rw [hsome] at hnone
        cases hnone
      · exact hlast (u, v) (Table.mem_toList.mpr hv') hu (hsame.trans hsome.symm)

theorem KeyIndexed.createEdgeLocked (o t : Guid) (d : EdgeDirectionType) (labels : List LabelId)
    (properties : PropertyList) (viaGdiApi : Bool) (chosenUid : Option Guid) (minted : Guid) :
    (g.createEdgeLocked o t d labels properties viaGdiApi chosenUid minted).1.KeyIndexed := by
  obtain ⟨status, heq, -⟩ | ⟨originVertex, ho, ht, -, -, free, -, heq⟩ :=
    g.createEdgeLocked_cases o t d labels properties viaGdiApi chosenUid minted
  · rw [heq]; exact h
  · rw [heq]
    refine h.congr (fun u => ?_) (fun k => ?_)
    · rw [keyOf_linkEdge]
      split <;> rfl
    · split <;> simp

theorem KeyIndexed.moveEdgeEndpoint (edge endpoint : Guid) (moveOrigin : Bool) :
    (g.moveEdgeEndpoint edge endpoint moveOrigin).1.KeyIndexed := by
  obtain ⟨status, heq, -⟩ | ⟨e, o, t, -, -, -, -, -, -, heq⟩ :=
    g.moveEdgeEndpoint_cases edge endpoint moveOrigin
  · rw [heq]; exact h
  · rw [heq]
    exact h.congr (fun u => by simp) fun k => by simp

/-- One call that meets the condition keeps the index and the vertices together. -/
theorem KeyIndexed.step {op : GraphOp} (ok : g.KeyStepOk op) : (g.step op).KeyIndexed := by
  have heffect := g.effect op
  generalize g.step op = g' at heffect ⊢
  cases heffect with
  | unchanged => exact h
  | plainVertex fresh =>
    unfold KeyIndexed
    rw [keyOf_insertVertex]
    exact h.insert_unkeyed (keyOf_eq_none fresh)
  | created fresh free => exact h.published fresh free
  | gotOrCreated fresh free => exact h.published fresh free
  | added fresh => exact h.addVertex fresh ok
  | adoptedVertex => exact h.adoptVertex ..
  | removed => exact h.removeVertex ok
  | freed loose =>
    obtain ⟨hguarded, hinc⟩ | hlast := ok
    · rw [loose hguarded] at hinc
      cases hinc
    · exact h.removeVertex hlast
  | edited =>
    exact h.congr (g.keyOf_updateVertex _ fun v =>
      ⟨VertexEdit.key_apply _ v, VertexEdit.hasKey_apply _ v⟩) fun k => by simp
  | edgeCreated d => exact h.createEdgeLocked ..
  | edgeFreed e live => exact h.congr (fun u => keyOf_unlinkEdge ..) fun k => by simp
  | originSet => exact h.moveEdgeEndpoint ..
  | targetSet => exact h.moveEdgeEndpoint ..
  | edgeEdited e e' live ho ht => exact h.congr (fun u => by simp [keyOf]) fun k => by simp
  | connected => exact h.createEdgeLocked ..
  | bulk =>
    exact g.connectPending_invariant (I := KeyIndexed) (F := fun _ => True)
      (fun _ _ _ _ _ hg => hg.createEdgeLocked ..) _ (fun _ _ => trivial) h
  | disconnected held listed live => exact h.congr (fun u => keyOf_unlinkEdge ..) fun k => by simp
  | adoptedEdge =>
    obtain ⟨status, heq, -⟩ | ⟨-, -, ⟨-, heq⟩ | ⟨-, -, heq⟩⟩ := g.adoptEdge_cases _ _
    · rw [heq]; exact h
    · rw [heq]; exact h.congr (fun u => rfl) fun k => rfl
    · rw [heq]; exact h.congr (fun u => keyOf_linkEdge ..) fun k => by simp
  | vertexListTaken => exact h.congr (fun u => rfl) fun k => rfl
  | edgeListTaken => exact h.congr (fun u => rfl) fun k => rfl

end Steps

theorem keyIndexed_empty (options : GraphOptions) : (Graph.empty options).KeyIndexed where
  sound h := by simp [Graph.empty] at h
  complete h := by simp [keyOf, Graph.empty] at h

/-- In every run whose calls meet the condition, `translate_vertex_id` finds a key if and
only if a live vertex has it, and finds such a vertex. -/
theorem keysExact_run (options : GraphOptions) (ops : List GraphOp)
    (ok : Meets Graph.step KeyStepOk (Graph.empty options) ops) :
    (run Graph.step (Graph.empty options) ops).KeysExact :=
  (ok.invariant (fun _ _ hg hok => hg.step hok) (keyIndexed_empty options)).keysExact

/-- A run that creates, adopts, adds and removes, and meets the condition throughout. -/
theorem keysExact_run_mixed :
    let ops : List GraphOp :=
      [.createVertex { keyLabel := 1, externalId := [7] } 10,
        .adoptVertex 11 ⟨{ keyLabel := 1, externalId := [8] }, rfl, rfl⟩,
        .addVertex 12 ⟨{}, rfl, rfl⟩, .removeVertex 10]
    Meets Graph.step KeyStepOk (Graph.empty {}) ops ∧
      (run Graph.step (Graph.empty {}) ops).KeysExact := by
  intro ops
  have ok : Meets Graph.step KeyStepOk (Graph.empty {}) ops := by decide
  exact ⟨ok, keysExact_run {} ops ok⟩

/-- `add_vertex` publishes a keyed vertex that `translate_vertex_id` does not find. -/
theorem addVertex_not_keysExact :
    ¬(run Graph.step (Graph.empty {})
      [.addVertex 10 ⟨{ keyLabel := 1, externalId := [7] }, rfl, rfl⟩]).KeysExact := by
  intro h
  have found := (h ⟨1, [7]⟩).1.mpr
    ⟨10, { keyLabel := 1, externalId := [7] }, by decide, by decide, by decide⟩
  revert found
  decide

end Graph

end KimixNative.GraphDb
