import KimixNative.GraphDb.Below
import KimixNative.GraphDb.Rollback

/-!
# Entities and the schema

Every label that an entity carries should be registered, and every value should match the
current declaration of its property type. Creates and edits check what they bring in against
the schema, relaxations keep what matched, frees strip the carriers first, and a rollback
leads below a reading that was in order. `IntegrityStepOk` is the condition on one call; it
excludes

* a `get_or_create_vertex` that creates, whose labels and values nobody checks;
* freeing a label that an entity carries twice, since the strip removes one copy;
* a declaration whose container byte names neither container and whose size is not fixed,
  since the check of a scalar value looks at the datatype alone.
-/

namespace KimixNative.GraphDb

/-! ## Entities that fit a schema -/

/-- The write-time check of a value covers the whole of such a declaration. -/
def PropertyTypeInfo.Checkable (info : PropertyTypeInfo) : Prop :=
  info.container = .array ∨ info.sizeType = .fixed

namespace SchemaReading

/-- The value matches the current declaration of the type. -/
def Admits (S : SchemaReading) (name : PropNameId) (value : PropertyValue) : Prop :=
  ∃ info, S.types name = some info ∧
    value.matchesDeclaration info.container info.data info.sizeType info.count = true

end SchemaReading

structure VertexReading.Fits (S : SchemaReading) (x : VertexReading) : Prop where
  labels : ∀ l ∈ x.labels, (S.labels l).isSome
  key : x.keyLabel ≠ kNoLabel → (S.labels x.keyLabel).isSome
  values : ∀ n v, x.properties n = some v → S.Admits n v

structure EdgeReading.Fits (S : SchemaReading) (e : EdgeReading) : Prop where
  labels : ∀ l ∈ e.labels, (S.labels l).isSome
  values : ∀ n v, e.properties n = some v → S.Admits n v

structure Reading.Integral (R : Reading) : Prop where
  vertices : ∀ u x, R.graph.vertices u = some x → x.Fits R.schema
  edges : ∀ d e, R.graph.edges d = some e → e.Fits R.schema
  types : ∀ n info, R.schema.types n = some info → info.Checkable

variable {S : SchemaReading}

variable {x : VertexReading}

theorem VertexReading.Fits.below {y : VertexReading} (h : y.Fits S) (hb : x.Below y) :
    x.Fits S where
  labels l hl := h.labels l (hb.labels hl)
  key hne := hb.keyLabel ▸ h.key (hb.keyLabel ▸ hne)
  values n v hn := h.values n v (hb.properties n v hn)

theorem EdgeReading.Fits.below {x y : EdgeReading} (h : y.Fits S) (hb : x.Below y) : x.Fits S where
  labels l hl := h.labels l (hb.labels hl)
  values n v hn := h.values n v (hb.properties n v hn)

namespace Reading.Integral

variable {R R' : Reading} (h : R.Integral)
include h

theorem below (hb : R'.Below R) : R'.Integral := by
  refine ⟨?_, ?_, ?_⟩
  · intro u x hx
    obtain ⟨y, hy, hxy⟩ := hb.graph.vertices u x hx
    rw [hb.schema]
    exact (h.vertices u y hy).below hxy
  · intro d e he
    obtain ⟨y, hy, hey⟩ := hb.graph.edges d e he
    rw [hb.schema]
    exact (h.edges d y hy).below hey
  · rw [hb.schema]
    exact h.types

theorem setVertex (u : Guid) (hx : x.Fits R.schema) :
    (R.mapGraph (·.setVertex u (some x))).Integral := by
  refine ⟨?_, h.edges, h.types⟩
  intro w y hy
  simp only [mapGraph, GraphReading.setVertex, Function.update_apply] at hy
  split at hy
  · cases hy
    exact hx
  · exact h.vertices w y hy

theorem setEdge (d : Guid) {e : Option EdgeReading} (he : ∀ x, e = some x → x.Fits R.schema) :
    (R.mapGraph (·.setEdge d e)).Integral := by
  refine ⟨h.vertices, ?_, h.types⟩
  intro c y hy
  simp only [mapGraph, GraphReading.setEdge, Function.update_apply] at hy
  split at hy
  · exact he y hy
  · exact h.edges c y hy

theorem removeVertex (u : Guid) : (R.mapGraph (·.removeVertex u)).Integral :=
  h.below ⟨(GraphReading.Below.refl _).removeVertex u, rfl⟩

theorem adoptVertex (u : Guid) (hx : x.Fits R.schema) :
    (R.mapGraph (·.adoptVertex u x)).Integral := by
  simp only [mapGraph, GraphReading.adoptVertex]
  split
  · exact h
  · exact ⟨(h.setVertex u hx).vertices, h.edges, h.types⟩

/-- Another schema that keeps every label and admits every value that is carried. -/
theorem ofSchema (labels : ∀ l, (R.schema.labels l).isSome → (S.labels l).isSome)
    (values : ∀ n v, ((∃ u x, R.graph.vertices u = some x ∧ x.properties n = some v) ∨ ∃ d e,
      R.graph.edges d = some e ∧ e.properties n = some v) → R.schema.Admits n v → S.Admits n v)
    (types : ∀ n info, S.types n = some info → info.Checkable) : Reading.Integral ⟨R.graph, S⟩ := by
  refine ⟨?_, ?_, types⟩
  · intro u x hx
    have hfits := h.vertices u x hx
    refine ⟨fun l hl => labels l (hfits.labels l hl), fun hne => labels _ (hfits.key hne), ?_⟩
    intro n v hn
    exact values n v (.inl ⟨u, x, hx, hn⟩) (hfits.values n v hn)
  · intro d e he
    have hfits := h.edges d e he
    refine ⟨fun l hl => labels l (hfits.labels l hl), ?_⟩
    intro n v hn
    exact values n v (.inr ⟨d, e, he, hn⟩) (hfits.values n v hn)

end Reading.Integral

/-! ## Declarations -/

/-- A relaxation admits what the old declaration admitted. -/
theorem PropertyValue.matchesDeclaration_relax {v : PropertyValue} {old new : PropertyTypeInfo}
    (relax : isDeclarationRelaxation old new = true) (valid : isValidSizeType new.sizeType = true)
    (checkable : new.Checkable)
    (h : v.matchesDeclaration old.container old.data old.sizeType old.count = true) :
    v.matchesDeclaration new.container new.data new.sizeType new.count = true := by
  obtain ⟨_, _, container, data, count, size⟩ := old
  obtain ⟨_, _, container', data', count', size'⟩ := new
  unfold isDeclarationRelaxation at relax
  simp only at relax checkable valid h ⊢
  split at relax
  · cases relax
  next hsame =>
  obtain ⟨rfl, rfl⟩ : container = container' ∧ data = data' :=
    ⟨not_not.mp fun hne => hsame (.inl hne), not_not.mp fun hne => hsame (.inr hne)⟩
  unfold matchesDeclaration at h ⊢
  split at h
  · cases h
  next hkind =>
  split at h
  · cases h
  next hcontainer =>
  split at h
  · cases h
  next hdata =>
  rw [if_neg hkind, if_neg hcontainer, if_neg hdata]
  split at h
  · next hscalar =>
      rw [if_pos hscalar]
      have hnot : container ≠ .array := by
        rintro rfl
        simp [hscalar] at hcontainer
      simpa using checkable.resolve_left hnot
  · next harray =>
      rw [if_neg harray]
      cases size <;> cases size' <;> simp_all [isValidSizeType]
      -- a larger maximum
      omega

namespace Database

variable {db : Database}

/-- What `_validate_property` accepts is admitted. -/
theorem admits_of_validateProperty (hi : db.reading.Integral) {name : PropNameId}
    {value : PropertyValue} (hok : (db.validateProperty name value).isError = false) :
    db.schema.reading.Admits name value := by
  unfold validateProperty at hok
  split at hok
  · cases hok
  next hname =>
  split at hok
  · cases hok
  next hkind =>
  obtain ⟨info, hinfo⟩ : ∃ info, db.schema.propertyTypes.get? name = some info := by
    have hhas : db.schema.hasPropertyType name ≠ false := fun hf => hname (.inr hf)
    exact Option.ne_none_iff_exists'.mp (by simpa [Schema.hasPropertyType] using hhas)
  have hdeclared : db.schema.propertyType name = info := by simp [Schema.propertyType, hinfo]
  have hcheckable : info.Checkable := hi.types name info hinfo
  simp only [hdeclared] at hok
  split at hok
  · cases hok
  next hcontainer =>
  split at hok
  · cases hok
  next hdata =>
  split at hok
  · cases hok
  next hlength =>
  refine ⟨info, hinfo, ?_⟩
  have hcontainer' : value.isArray = decide (info.container = .array) := not_not.mp hcontainer
  by_cases harray : info.container = .array
  · simpa [harray] using hlength
  · have hfixed := hcheckable.resolve_left harray
    rw [decide_eq_false harray] at hcontainer'
    unfold PropertyValue.matchesDeclaration
    rw [if_neg hkind, if_neg (by simp [hcontainer', harray]), if_neg hdata, if_pos hcontainer']
    exact decide_eq_true hfixed

variable {labels : List LabelId} {key : VertexKey} {properties : PropertyList}

theorem hasLabel_of_validateLabels (hok : (db.validateLabels labels).isError = false) :
    ∀ l ∈ labels, db.schema.hasLabel l = true := by
  unfold validateLabels at hok
  split at hok
  · next hall => exact List.all_eq_true.mp hall
  · cases hok

theorem hasLabel_of_validateKey (hok : (db.validateKey key).isError = false)
    (hne : key.label ≠ kNoLabel) : db.schema.hasLabel key.label = true := by
  unfold validateKey at hok
  rw [if_pos hne] at hok
  split at hok
  · cases hok
  · next hhas => simpa using hhas

/-- The bag of a list holds only what the list holds. -/
theorem validateProperty_of_validateProperties
    (hok : (db.validateProperties properties).isError = false) :
    ∀ e ∈ (PropertyBag.ofPropertyList properties).toList,
      (db.validateProperty e.1 e.2).isError = false := by
  have hlist : ∀ e ∈ properties, (db.validateProperty e.name e.value).isError = false := by
    induction properties with
    | nil => simp
    | cons entry rest ih =>
      unfold validateProperties at hok
      split at hok
      · next herr =>
          rw [herr] at hok
          cases hok
      · next hhead =>
          intro e he
          obtain rfl | hrest := List.mem_cons.mp he
          · simpa using hhead
          · exact ih hok e hrest
  rintro ⟨n, v⟩ he
  have hfind := Table.mem_toList.mp he
  rw [PropertyBag.find?_ofPropertyList] at hfind
  obtain ⟨before, after, hsplit, -⟩ := List.lookup_eq_some_iff.mp hfind
  have hmem : (n, v) ∈ properties.map fun e => (e.name, e.value) := by
    rw [hsplit]
    simp
  obtain ⟨entry, hentry, heq⟩ := List.mem_map.mp hmem
  obtain ⟨rfl, rfl⟩ := Prod.mk.inj heq
  exact hlist entry hentry

/-! ## Vertices -/

variable {check : GdiStatus}

section Vertices

variable (h : db.WellFormed) (hi : db.reading.Integral)
include h hi

omit h in
/-- A vertex whose parts are all registered fits. -/
theorem fits_vertexSpec (hkey : key.label ≠ kNoLabel → db.schema.hasLabel key.label = true)
    (hlabels : ∀ l ∈ labels, l ≠ kNoLabel → db.schema.hasLabel l = true)
    (hvalues : ∀ e ∈ (PropertyBag.ofPropertyList properties).toList, (db.validateProperty e.1
      e.2).isError = false) :
    (vertexSpec key labels properties).toVertex.reading.Fits db.schema.reading where
  labels l hl := by
    obtain ⟨hmem, hne⟩ := List.mem_filter.mp hl
    exact hlabels l hmem (by simpa using hne)
  key := hkey
  values n v hn := admits_of_validateProperty hi (hvalues (n, v) (Table.mem_toList.mpr hn))

/-- A published vertex, taken out again when the journal refuses it. -/
theorem integral_publish {spec : VertexSpec} {minted : Guid}
    (fresh : db.graph.vertices.find? minted = none) (free : db.graph.findKey spec.key = none)
    (fits : spec.toVertex.reading.Fits db.schema.reading) (tx' : Option Transaction) (room : Bool) :
    ({ db with
      graph := if room then db.graph.published spec minted
        else ((db.graph.published spec minted).freeVertex minted false).1
      tx := tx' } : Database).reading.Integral := by
  have hread := reading_published fresh free
  have hadopted := hi.adoptVertex minted fits
  cases room with
  | true =>
    rw [if_pos rfl]
    simp only [reading, hread]
    exact hadopted
  | false =>
    rw [if_neg Bool.false_ne_true, freeVertex_unguarded]
    simp only [reading, Graph.reading_removeVertex _ (h.sound.linked.published fresh), hread]
    exact hadopted.removeVertex minted

theorem integral_createVertex (key : VertexKey) (labels : List LabelId)
    (properties : PropertyList) (minted : Guid) :
    (db.createVertex key labels properties minted).1.reading.Integral := by
  unfold createVertex
  split
  · exact hi
  split
  · exact hi
  next hkey =>
  split
  · exact hi
  next hlabels =>
  split
  · exact hi
  next hproperties =>
  obtain ⟨status, heq, -⟩ | ⟨existing, heq, -, -⟩ | ⟨heq, fresh, free⟩ :=
    db.graph.createVertex_cases (vertexSpec key labels properties) minted
  · rw [heq]
    exact hi
  · rw [heq]
    obtain ⟨tx', hpush, -⟩ := db.push_spec (.vertexCreated existing)
    simp only [hpush]
    split
    · exact hi
    · simp only [freeVertex_unguarded, reading, db.graph.reading_removeVertex h.sound.linked]
      exact hi.removeVertex existing
  · rw [heq]
    obtain ⟨tx', hpush, -⟩ := ({ db with
      graph := db.graph.published (vertexSpec key labels properties) minted } :
        Database).push_spec (.vertexCreated minted)
    simp only [hpush]
    have fits : (vertexSpec key labels properties).toVertex.reading.Fits db.schema.reading :=
      fits_vertexSpec hi (hasLabel_of_validateKey (by simpa using hkey))
        (fun l hl _ => hasLabel_of_validateLabels (by simpa using hlabels) l hl)
        (validateProperty_of_validateProperties (by simpa using hproperties))
    have hpublished := integral_publish h hi fresh free fits tx'
    split
    · simpa only [if_true] using hpublished true
    · simpa only [Bool.false_eq_true, if_false] using hpublished false

omit h hi in
/-- A `get_or_create_vertex` that finds nothing is given registered labels and admitted
values. -/
def CreatesFitting (db : Database) (key : VertexKey) (labels : List LabelId)
    (properties : PropertyList) : Prop :=
  db.graph.findKey key = none →
    (∀ l ∈ labels, l ≠ kNoLabel → db.schema.hasLabel l = true) ∧
      ∀ e ∈ (PropertyBag.ofPropertyList properties).toList,
        (db.validateProperty e.1 e.2).isError = false

theorem integral_getOrCreateVertex (minted : Guid) (ok : db.CreatesFitting key labels properties) :
    (db.getOrCreateVertex key labels properties minted).1.reading.Integral := by
  unfold getOrCreateVertex
  split
  · exact hi
  split
  · exact hi
  next hkey =>
  obtain ⟨status, out, heq⟩ | ⟨heq, fresh, free⟩ :=
    db.graph.getOrCreateVertex_cases (vertexSpec key labels properties) minted
  · rw [heq]
    cases out <;> exact hi
  · rw [heq]
    obtain ⟨tx', hpush, -⟩ := ({ db with
      graph := db.graph.published (vertexSpec key labels properties) minted } :
        Database).push_spec (.vertexCreated minted)
    simp only [hpush]
    obtain ⟨hlabels, hvalues⟩ := ok free
    have hregistered : key.label ≠ kNoLabel → db.schema.hasLabel key.label = true := by
      intro hne
      cases hhas : db.schema.hasLabel key.label with
      | true => rfl
      | false => exact absurd ⟨hne, hhas⟩ hkey
    have hpublished := integral_publish h hi fresh free
      (fits_vertexSpec hi hregistered hlabels hvalues) tx'
    split
    · simpa only [if_true] using hpublished true
    · simpa only [Bool.false_eq_true, if_false] using hpublished false

theorem integral_freeVertex (uid : Guid) : (db.freeVertex uid).1.reading.Integral := by
  have hremoved : Reading.Integral ⟨(db.graph.removeVertex uid).1.reading, db.schema.reading⟩ := by
    rw [db.graph.reading_removeVertex h.sound.linked]
    exact hi.removeVertex uid
  unfold freeVertex
  split
  · exact hi
  split
  · next g heq =>
      rw [heq] at hremoved
      exact hremoved
  · next g removed removedEdges heq =>
      rw [heq] at hremoved
      obtain ⟨tx', hpush, -⟩ := ({ db with graph := g } : Database).push_spec
        (.vertexRemoved uid removed.1.labels removed.1.properties.toPropertyList removed
          removedEdges)
      simp only [hpush]
      exact hremoved

theorem integral_freeVertexGuarded (uid : Guid) :
    (db.freeVertexGuarded uid).1.reading.Integral := by
  unfold freeVertexGuarded
  split
  · exact hi
  split
  · exact hi
  split
  · exact hi
  · exact integral_freeVertex h hi uid

omit h in
/-- The six payload commands of a vertex: what the edit brings in is registered. -/
theorem integral_editVertex (uid : Guid) {edit : VertexEdit} (answer : Vertex → GdiStatus)
    (hcontent : ∀ content, edit ≠ .setContent content)
    (hlabels : check.isError = false → ∀ l ∈ edit.newLabels, db.schema.hasLabel l = true)
    (hvalues : check.isError = false → ∀ p ∈ edit.newProperties, db.schema.reading.Admits p.1 p.2) :
    (db.editVertex uid check edit answer).1.reading.Integral := by
  unfold editVertex
  split
  · exact hi
  cases hv : db.graph.vertices.find? uid with
  | none => exact hi
  | some v =>
    simp only
    split
    · exact hi
    next hcheck =>
    have hok : check.isError = false := by simpa using hcheck
    obtain ⟨tx', hpush, -⟩ :=
      db.push_spec (.vertexPayload uid v.labels v.properties.toPropertyList)
    simp only [hpush]
    split
    · have hold : v.reading.Fits db.schema.reading :=
        hi.vertices uid v.reading (by simp [reading, hv])
      have hsame := edit.sameVertex_apply v hcontent
      simp only [reading, reading_editVertex hv]
      refine hi.setVertex uid ⟨?_, ?_, ?_⟩
      · intro l hl
        exact (edit.labels_apply v hl).elim (hold.labels l) (hlabels hok l)
      · intro hne
        have hkey := hold.key
        rw [← hsame.keyLabel] at hkey
        exact hkey hne
      · intro n x hx
        exact (edit.properties_apply v hx).elim (hold.values n x) (hvalues hok (n, x))
    · exact hi

end Vertices

/-! ## Edges -/

section Edges

variable (h : db.WellFormed) (hi : db.reading.Integral)
include h hi

omit h in
theorem integral_edgeCreate (o t : Guid) (direction : Byte) (labels : List LabelId)
    (properties : PropertyList) (chosenUid : Option Guid) (minted : Guid) :
    (db.edgeCreate o t direction labels properties chosenUid minted).1.reading.Integral := by
  unfold edgeCreate
  split
  · exact hi
  split
  · exact hi
  next hlabels =>
  split
  · exact hi
  next hproperties =>
  obtain ⟨status, heq, -⟩ | ⟨g, d, e, heq, -, -, hel, hep, hread⟩ :=
    reading_edgeCreate db.graph o t direction labels properties chosenUid minted
  · rw [heq]
    exact hi
  rw [heq]
  have hvalues := validateProperty_of_validateProperties (by simpa using hproperties)
  have fits : e.Fits db.schema.reading := by
    constructor
    · intro l hl
      exact hasLabel_of_validateLabels (by simpa using hlabels) l (hel ▸ hl)
    · intro n v hn
      rw [hep] at hn
      exact admits_of_validateProperty hi (hvalues (n, v) (Table.mem_toList.mpr hn))
  have hset := hi.setEdge d (e := some e) (by rintro x ⟨⟩; exact fits)
  obtain ⟨tx', hpush, -⟩ := ({ db with graph := g } : Database).push_spec (.edgeCreated d)
  simp only [hpush]
  split
  · simp only [reading, hread]
    exact hset
  · simp only [reading, Graph.reading_edgeFree, hread]
    exact hset.setEdge d (e := none) (by simp)

omit h hi in
/-- The shape of every command on a live edge. -/
theorem integral_changeEdge (hi : db.reading.Integral) (edge : Guid) (check : GdiStatus)
    (entry : EdgeRecord → JournalEntry) {op : Graph → Graph × GdiStatus}
    (hop : check.isError = false →
      Reading.Integral ⟨(op db.graph).1.reading, db.schema.reading⟩) :
    (db.changeEdge edge check entry op).1.reading.Integral := by
  unfold changeEdge
  split
  · exact hi
  split
  · exact hi
  next hcheck =>
  have hchanged := hop (by simpa using hcheck)
  cases db.tx with
  | none => exact hchanged
  | some tx =>
    cases he : db.graph.edges.find? edge with
    | none => exact hi
    | some e =>
      obtain ⟨tx', hpush, -⟩ := db.push_spec (entry (e.record edge))
      simp only [hpush]
      split
      · exact hchanged
      · exact hi

omit h in
theorem integral_edgeFree (edge : Guid) : (db.edgeFree edge).1.reading.Integral := by
  refine integral_changeEdge hi edge .ok .edgeRemoved fun _ => ?_
  rw [db.graph.reading_edgeFree]
  exact hi.setEdge edge (by simp)

theorem integral_moveEdgeEndpoint (edge endpoint : Guid) (moveOrigin : Bool) :
    (db.changeEdge edge .ok .edgeState
      (·.moveEdgeEndpoint edge endpoint moveOrigin)).1.reading.Integral := by
  refine integral_changeEdge hi edge .ok .edgeState fun _ => ?_
  cases he : db.graph.edges.find? edge with
  | none =>
    simp only [Graph.moveEdgeEndpoint, he]
    exact hi
  | some e =>
    have hsome : db.graph.reading.edges edge = some e.reading := by simp [he]
    have hold := hi.edges edge e.reading hsome
    rw [Graph.reading_moveEdgeEndpoint h.sound.linked hsome]
    split
    · refine hi.setEdge edge ?_
      rintro x ⟨⟩
      exact ⟨hold.labels, hold.values⟩
    · exact hi

omit h in
/-- The payload commands of an edge: what the edit brings in is registered. -/
theorem integral_editEdge (edge : Guid) (edit : EdgeEdit)
    (hlabels : check.isError = false → ∀ l ∈ edit.newLabels, db.schema.hasLabel l = true)
    (hvalues : check.isError = false → ∀ p ∈ edit.newProperties, db.schema.reading.Admits p.1 p.2) :
    (db.changeEdge edge check .edgeState
      (EdgeEdit.perform · edge edit)).1.reading.Integral := by
  refine integral_changeEdge hi edge check .edgeState fun hok => ?_
  cases he : db.graph.edges.find? edge with
  | none =>
    obtain ⟨status, heq⟩ | ⟨e, e', hfind, -, -⟩ := edit.perform_result db.graph edge
    · rw [heq]
      exact hi
    · rw [he] at hfind
      cases hfind
  | some e =>
    obtain ⟨x, -, -, hxl, hxp, hread⟩ := reading_perform edit he
    have hold := hi.edges edge e.reading (by simp [reading, he])
    rw [hread]
    refine hi.setEdge edge ?_
    rintro y ⟨⟩
    constructor
    · intro l hl
      exact (hxl l hl).elim (hold.labels l) fun hnew => hlabels hok l hnew.1
    · intro n v hn
      exact (hxp n v hn).elim (hold.values n v) (hvalues hok (n, v))

end Edges

end Database

end KimixNative.GraphDb
