import KimixNative.GraphDb.Moves

/-!
# Rolling back after a loss

The moves without a record take something away and never bring anything in. So the records
of any sequence of moves, exact or not, lead back to a reading that lies `Below` the one at
its start: the same schema, no entity that was not there, and on each entity no label and no
value it did not have. What holds of an entity because of what it does not carry survives
such a rollback.
-/

namespace KimixNative.GraphDb

/-- Nothing the other one does not carry. -/
structure VertexReading.Below (x y : VertexReading) : Prop where
  keyLabel : x.keyLabel = y.keyLabel
  labels : x.labels ⊆ y.labels
  properties : ∀ n v, x.properties n = some v → y.properties n = some v

structure EdgeReading.Below (x y : EdgeReading) : Prop where
  labels : x.labels ⊆ y.labels
  properties : ∀ n v, x.properties n = some v → y.properties n = some v

structure GraphReading.Below (G H : GraphReading) : Prop where
  vertices : ∀ u x, G.vertices u = some x → ∃ y, H.vertices u = some y ∧ x.Below y
  edges : ∀ d x, G.edges d = some x → ∃ y, H.edges d = some y ∧ x.Below y

structure Reading.Below (R R' : Reading) : Prop where
  graph : R.graph.Below R'.graph
  schema : R.schema = R'.schema

theorem VertexReading.Below.refl (x : VertexReading) : x.Below x :=
  ⟨rfl, List.Subset.refl _, fun _ _ h => h⟩

theorem VertexReading.Below.trans {x y z : VertexReading} (h : x.Below y) (h' : y.Below z) :
    x.Below z :=
  ⟨h.keyLabel.trans h'.keyLabel, List.Subset.trans h.labels h'.labels,
    fun n v hn => h'.properties n v (h.properties n v hn)⟩

theorem EdgeReading.Below.refl (x : EdgeReading) : x.Below x :=
  ⟨List.Subset.refl _, fun _ _ h => h⟩

theorem EdgeReading.Below.trans {x y z : EdgeReading} (h : x.Below y) (h' : y.Below z) :
    x.Below z :=
  ⟨List.Subset.trans h.labels h'.labels, fun n v hn => h'.properties n v (h.properties n v hn)⟩

/-- A restored payload carries no more than the recorded one. -/
theorem VertexReading.restore_below {x y : VertexReading} {properties : PropertyList}
    (keyLabel : x.keyLabel = y.keyLabel)
    (copied : (PropertyBag.ofPropertyList properties).find? = y.properties) :
    (x.restore y.labels properties).Below y := by
  refine ⟨keyLabel, ?_, ?_⟩
  · intro l hl
    exact (List.mem_filter.mp hl).1
  · intro n v hn
    exact copied ▸ hn

namespace GraphReading

variable {G H K : GraphReading}

theorem Below.refl (G : GraphReading) : G.Below G :=
  ⟨fun _ x h => ⟨x, h, .refl x⟩, fun _ x h => ⟨x, h, .refl x⟩⟩

theorem Below.trans (h : G.Below H) (h' : H.Below K) : G.Below K := by
  constructor
  · intro u x hx
    obtain ⟨y, hy, hxy⟩ := h.vertices u x hx
    obtain ⟨z, hz, hyz⟩ := h'.vertices u y hy
    exact ⟨z, hz, hxy.trans hyz⟩
  · intro d x hx
    obtain ⟨y, hy, hxy⟩ := h.edges d x hx
    obtain ⟨z, hz, hyz⟩ := h'.edges d y hy
    exact ⟨z, hz, hxy.trans hyz⟩

variable {u d : Guid}

variable {x : Option VertexReading} {e : EdgeReading} {y : Option EdgeReading}

/-- A vertex set below one that the other side has. -/
theorem Below.setVertex (h : G.Below H)
    (hx : ∀ y, x = some y → ∃ z, H.vertices u = some z ∧ y.Below z) :
    (G.setVertex u x).Below H := by
  refine ⟨?_, h.edges⟩
  intro w y hy
  simp only [GraphReading.setVertex, Function.update_apply] at hy
  split at hy
  · next hw =>
      subst hw
      exact hx y hy
  · exact h.vertices w y hy

theorem Below.setEdge (h : G.Below H) {e : Option EdgeReading}
    (he : ∀ y, e = some y → ∃ z, H.edges d = some z ∧ y.Below z) : (G.setEdge d e).Below H := by
  refine ⟨h.vertices, ?_⟩
  intro c y hy
  simp only [GraphReading.setEdge, Function.update_apply] at hy
  split at hy
  · next hc =>
      subst hc
      exact he y hy
  · exact h.edges c y hy

theorem Below.removeVertex (h : G.Below H) (u : Guid) : (G.removeVertex u).Below H := by
  unfold GraphReading.removeVertex
  split
  · exact h
  · refine ⟨(h.setVertex (u := u) (x := none) (by simp)).vertices, ?_⟩
    intro d e he
    exact h.edges d e (Option.filter_eq_some_iff.mp he).1

/-- What was removed is not missed on the other side. -/
theorem Below.of_removeVertex (h : G.Below (H.removeVertex u)) : G.Below H :=
  h.trans ((Below.refl H).removeVertex u)

theorem Below.adoptVertex (h : G.Below H) {x : VertexReading}
    (hx : ∃ z, H.vertices u = some z ∧ x.Below z) : (G.adoptVertex u x).Below H := by
  unfold GraphReading.adoptVertex
  split
  · exact h
  · have hset := h.setVertex (u := u) (x := some x) (by rintro y ⟨⟩; exact hx)
    exact ⟨hset.vertices, hset.edges⟩

theorem Below.adoptEdge (h : G.Below H) (allowSelf : Bool)
    (he : ∃ z, H.edges d = some z ∧ e.Below z) : (G.adoptEdge allowSelf d e).Below H := by
  unfold GraphReading.adoptEdge
  split
  · exact h
  · exact h.setEdge (by rintro y ⟨⟩; exact he)

theorem Below.adoptEdges (h : G.Below H) (allowSelf : Bool) {edges : List (Guid × Edge)}
    (hedges : ∀ d e, (d, e) ∈ edges → H.edges d = some e.reading) :
    (G.adoptEdges allowSelf edges).Below H := by
  induction edges generalizing G with
  | nil => exact h
  | cons e rest ih =>
    refine ih (h.adoptEdge allowSelf ⟨_, hedges e.1 e.2 List.mem_cons_self, .refl _⟩) ?_
    intro d e' he'
    exact hedges d e' (List.mem_cons_of_mem _ he')

/-- Undoing an edit of one vertex leads below what was there before the edit. -/
theorem Below.of_setVertex {y : Option VertexReading} (h : G.Below (H.setVertex u y))
    (hx : ∀ z, x = some z → ∃ w, H.vertices u = some w ∧ z.Below w) :
    (G.setVertex u x).Below H := by
  refine ⟨?_, h.edges⟩
  intro w z hz
  simp only [GraphReading.setVertex, Function.update_apply] at hz
  split at hz
  · next hw =>
      subst hw
      exact hx z hz
  · next hw =>
      have hbelow := h.vertices w z hz
      simpa only [GraphReading.setVertex, Function.update_apply, if_neg hw] using hbelow

theorem Below.of_setEdge (h : G.Below (H.setEdge d y)) {x : Option EdgeReading}
    (hx : ∀ z, x = some z → ∃ w, H.edges d = some w ∧ z.Below w) : (G.setEdge d x).Below H := by
  refine ⟨h.vertices, ?_⟩
  intro c z hz
  simp only [GraphReading.setEdge, Function.update_apply] at hz
  split at hz
  · next hc =>
      subst hc
      exact hx z hz
  · next hc =>
      have hbelow := h.edges c z hz
      simpa only [GraphReading.setEdge, Function.update_apply, if_neg hc] using hbelow

/-- Undoing an insertion. -/
theorem Below.of_adoptVertex {x : VertexReading} (h : G.Below (H.adoptVertex u x))
    (fresh : H.vertices u = none) : (G.removeVertex u).Below H := by
  have hgone : (G.removeVertex u).vertices u = none := by
    unfold GraphReading.removeVertex
    split
    · next hnone => exact hnone
    · exact Function.update_self ..
  have hbelow := h.removeVertex u
  rw [adoptVertex_of_none fresh] at hbelow
  refine ⟨?_, hbelow.edges⟩
  intro w y hy
  have hne : w ≠ u := by
    rintro rfl
    rw [hgone] at hy
    cases hy
  simpa [GraphReading.setVertex, hne] using hbelow.vertices w y hy

theorem Below.of_restoreEdge (h : G.Below (H.setEdge d y)) (he : H.edges d = some e) :
    (G.restoreEdge d e).Below H := by
  unfold GraphReading.restoreEdge
  split
  · next hnone =>
      have hsame : G.setEdge d none = G := by
        simp only [GraphReading.setEdge, ← hnone, Function.update_eq_self]
      rw [← hsame]
      exact h.of_setEdge (by simp)
  · refine h.of_setEdge ?_
    rintro z ⟨⟩
    exact ⟨e, he, ⟨List.Subset.refl _, fun _ _ hn => hn⟩⟩

end GraphReading

namespace Reading

variable {R R' R₁ : Reading} {allowSelf : Bool} {entries : List JournalEntry}

theorem Below.refl (R : Reading) : R.Below R := ⟨.refl _, rfl⟩

theorem Below.trans (h : R.Below R') {R'' : Reading} (h' : R'.Below R'') : R.Below R'' :=
  ⟨h.graph.trans h'.graph, h.schema.trans h'.schema⟩

/-- Undoing a change of the schema that the rollback takes back. -/
theorem Below.of_mapSchema {f : SchemaReading → SchemaReading} (h : R₁.Below (R.mapSchema f))
    (g : SchemaReading → SchemaReading) (back : g (f R.schema) = R.schema) :
    (R₁.mapSchema g).Below R := by
  refine ⟨h.graph, ?_⟩
  have hschema : R₁.schema = f R.schema := h.schema
  simp only [mapSchema]
  rw [hschema, back]

end Reading

/-- Undoing the records of a move, from below where it led, leads below where it began. -/
theorem Move.rollback_below {allowSelf strict : Bool} {R R' R₁ : Reading}
    {entries : List JournalEntry} (move : Move allowSelf strict R entries R') (h : R₁.Below R') :
    (R₁.rollback allowSelf entries).Below R := by
  cases move with
  | insertVertex u x fresh free =>
    exact ⟨h.graph.of_adoptVertex fresh, h.schema⟩
  | removeVertex u v edges live cascade complete nodup named loops =>
    refine ⟨?_, h.schema⟩
    have hbelow : R₁.graph.Below R.graph := h.graph.of_removeVertex
    have hcopied : (PropertyBag.ofPropertyList v.1.properties.toPropertyList).find? =
        v.1.reading.properties := by
      funext n
      exact PropertyBag.find?_ofPropertyList_toPropertyList ..
    exact (hbelow.adoptVertex ⟨_, live, VertexReading.restore_below rfl hcopied⟩).adoptEdges
      allowSelf fun d e he => (cascade d e he).1
  | editVertex u x y properties live copied same =>
    refine ⟨h.graph.of_setVertex ?_, h.schema⟩
    intro z hz
    obtain ⟨x₁, hx₁, rfl⟩ := Option.map_eq_some_iff.mp hz
    obtain ⟨w, hw, hbelow⟩ := h.graph.vertices u x₁ hx₁
    have hy : w = y := by
      simpa [Reading.mapGraph, GraphReading.setVertex] using hw.symm
    subst hy
    exact ⟨x, live, VertexReading.restore_below (hbelow.keyLabel.trans same.keyLabel) copied⟩
  | insertEdge d e fresh => exact ⟨h.graph.of_setEdge (by simp), h.schema⟩
  | removeEdge record live loops =>
    refine ⟨?_, h.schema⟩
    have hbelow : R₁.graph.Below R.graph := by
      refine ⟨h.graph.vertices, ?_⟩
      intro c z hz
      obtain ⟨w, hw, hzw⟩ := h.graph.edges c z hz
      simp only [Reading.mapGraph, GraphReading.setEdge, Function.update_apply] at hw
      split at hw
      · cases hw
      · exact ⟨w, hw, hzw⟩
    refine hbelow.adoptEdge allowSelf ⟨_, live, ?_, fun _ _ hn => hn⟩
    intro l hl
    exact (List.mem_filter.mp hl).1
  | editEdge record e live => exact ⟨h.graph.of_restoreEdge live, h.schema⟩
  | createLabel label name fresh =>
    refine h.of_mapSchema (·.setLabel label none) ?_
    simp only [SchemaReading.setLabel, Function.update_idem, ← fresh, Function.update_eq_self]
  | renameLabel label old new live named alone =>
    exact h.of_mapSchema (·.renameLabel label old)
      (SchemaReading.renameLabel_setLabel live named alone)
  | freeLabel label name live used named alone =>
    exact h.of_mapSchema (·.restoreLabel label name)
      (SchemaReading.restoreLabel_setLabel live used named alone)
  | createPropertyType property info fresh =>
    refine h.of_mapSchema (·.setType property none) ?_
    simp only [SchemaReading.setType, Function.update_idem, ← fresh, Function.update_eq_self]
  | updatePropertyType property old new live stored alone =>
    exact h.of_mapSchema (·.updatePropertyType property old)
      (SchemaReading.updatePropertyType_setType live stored alone)
  | freePropertyType property info live used stored alone =>
    exact h.of_mapSchema (·.restorePropertyType info)
      (SchemaReading.restorePropertyType_setType live used stored alone)
  | noteVertex u lossy => exact ⟨h.graph.removeVertex u, h.schema⟩
  | loseVertex u lossy => exact ⟨h.graph.of_removeVertex, h.schema⟩
  | loseLabel u x y live same labels properties lossy =>
    refine h.trans ⟨(GraphReading.Below.refl _).setVertex ?_, rfl⟩
    rintro z ⟨⟩
    exact ⟨x, live, same.keyLabel, labels, properties⟩
  | loseEdgeLabel d e e' live ends labels properties lossy =>
    refine h.trans ⟨(GraphReading.Below.refl _).setEdge ?_, rfl⟩
    rintro z ⟨⟩
    exact ⟨e, live, labels, properties⟩

/-- The records of any sequence of moves lead below its start. -/
theorem Moves.rollback_below {allowSelf strict : Bool} {R R' R₁ : Reading}
    {journal : List JournalEntry} (moves : Moves allowSelf strict R journal R')
    (h : R₁.Below R') : (R₁.rollback allowSelf journal).Below R := by
  induction moves with
  | nil R => exact h
  | cons closed labelled move rest ih =>
    rw [Reading.rollback_append]
    exact move.rollback_below (ih h)

end KimixNative.GraphDb
