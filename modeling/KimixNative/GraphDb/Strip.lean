import KimixNative.GraphDb.Journal

/-!
# The schema commands and their strip loops

Freeing a label or a property type strips it off every carrier, one record and one edit for
each. The loops go on when the journal refuses a record, so they are exact only while all
their records fit; `advance_loop` carries the room that is left from one turn to the next.
With the schema commands the list of commands is complete, and `advance_apply` collects it.
-/

namespace KimixNative.GraphDb

namespace Database

/-! ## The strip loops -/

/-- The size estimate of several records. -/
def bytesOf (sizes : EntrySizes) (entries : List JournalEntry) : Nat :=
  (entries.map (·.approximateBytes sizes)).sum

variable {b : Nat}

theorem hasRoom_mono {db : Database} {a : Nat} (hab : a ≤ b) (hb : db.hasRoom b = true) :
    db.hasRoom a = true := by
  unfold hasRoom at hb ⊢
  cases htx : db.tx with
  | none => rfl
  | some tx =>
    simp only [htx, Transaction.hasRoom, Bool.or_eq_true, decide_eq_true_eq] at hb ⊢
    exact hb.imp_right fun h => by omega

/-- Records that were written leave the room that was there beyond them. -/
theorem hasRoom_after {db db' : Database} {entries : List JournalEntry}
    (hjournal : Journaled db.sizes db.tx entries db'.tx)
    (hb : db.hasRoom (bytesOf db.sizes entries + b) = true) : db'.hasRoom b = true := by
  unfold hasRoom at hb ⊢
  cases htx : db.tx with
  | none =>
    rw [htx] at hjournal
    rw [show db'.tx = none from hjournal]
  | some tx =>
    rw [htx] at hjournal
    obtain ⟨tx', htx', hextends⟩ := hjournal
    have hbytes := hextends.bytes
    simp only [htx, htx', Transaction.hasRoom, Bool.or_eq_true, beq_iff_eq, decide_eq_true_eq,
      hextends.cap] at hb ⊢
    refine hb.imp_right fun hle => ?_
    unfold bytesOf at hle
    omega

/-- The record of a vertex that a strip loop visits. -/
def stripVertexRecord (carries : Vertex → Bool) (g : Graph) (guid : Guid) : Option JournalEntry :=
  (g.vertices.find? guid).bind fun v =>
    if carries v then some (.vertexPayload guid v.labels v.properties.toPropertyList) else none

/-- The record of an edge that a strip loop visits. -/
def stripEdgeRecord (carries : Edge → Bool) (g : Graph) (edge : Guid) : Option JournalEntry :=
  (g.edges.find? edge).bind fun e =>
    if carries e then some (.edgeState (e.record edge)) else none

/-- Every record of a strip, in the order of the loops. -/
def stripRecords (g : Graph) (carriesV : Vertex → Bool) (carriesE : Edge → Bool) :
    List JournalEntry :=
  g.vertices.keys.filterMap (stripVertexRecord carriesV g) ++
    g.edges.keys.filterMap (stripEdgeRecord carriesE g)

section Strip

variable {strict : Bool} {db : Database}

/-- One turn over a vertex: the graph. -/
theorem find?_stripVertex (carries : Vertex → Bool) (edit : VertexEdit) (db : Database)
    (guid w : Guid) :
    (stripVertex carries edit db guid).graph.vertices.find? w =
      if w = guid then (db.graph.vertices.find? w).map fun v =>
        if carries v then edit.apply v else v
      else db.graph.vertices.find? w := by
  unfold stripVertex
  cases hv : db.graph.vertices.find? guid with
  | none =>
    simp only
    split
    · next hw => rw [hw, hv, Option.map_none]
    · rfl
  | some v =>
    obtain ⟨tx', hpush, -⟩ :=
      db.push_spec (.vertexPayload guid v.labels v.properties.toPropertyList)
    simp only [hpush]
    by_cases hc : carries v = true
    · rw [if_pos hc, Graph.find?_updateVertex]
      split
      · next hw => simp [hw, hv, hc]
      · rfl
    · rw [if_neg hc]
      split
      · next hw => simp [hw, hv, hc]
      · rfl

/-- One turn over a vertex: everything else. -/
theorem stripVertex_frame (carries : Vertex → Bool) (edit : VertexEdit) (db : Database)
    (guid : Guid) :
    (stripVertex carries edit db guid).graph.edges = db.graph.edges ∧
      (stripVertex carries edit db guid).graph.keys = db.graph.keys ∧
      (stripVertex carries edit db guid).schema = db.schema ∧
      (stripVertex carries edit db guid).sizes = db.sizes := by
  unfold stripVertex
  cases hv : db.graph.vertices.find? guid with
  | none => exact ⟨rfl, rfl, rfl, rfl⟩
  | some v =>
    obtain ⟨tx', hpush, -⟩ :=
      db.push_spec (.vertexPayload guid v.labels v.properties.toPropertyList)
    simp only [hpush]
    split
    · simp
    · exact ⟨rfl, rfl, rfl, rfl⟩

/-- One turn over a vertex: a recorded edit, or a loss when the record is refused. -/
theorem advance_stripVertex (h : db.WellFormed) (carries : Vertex → Bool) {edit : VertexEdit}
    (hcontent : ∀ content, edit ≠ .setContent content) (hlabels : edit.newLabels = [])
    (hproperties : edit.newProperties = []) {guid : Guid}
    (hroom : strict = true → db.hasRoom (bytesOf db.sizes (stripVertexRecord carries db.graph
      guid).toList + b) = true) :
    Advance strict db (stripVertex carries edit db guid) ∧
      (strict = true → (stripVertex carries edit db guid).hasRoom b = true) := by
  unfold stripVertexRecord at hroom
  unfold stripVertex
  cases hv : db.graph.vertices.find? guid with
  | none =>
    refine ⟨.refl h, fun hstrict => ?_⟩
    exact hasRoom_mono (by omega) (hroom hstrict)
  | some v =>
    by_cases hc : carries v = true
    swap
    · simp only [if_neg hc]
      refine ⟨.refl h, fun hstrict => ?_⟩
      exact hasRoom_mono (by omega) (hroom hstrict)
    simp only [if_pos hc]
    obtain ⟨tx', hpush, hjournal⟩ :=
      db.push_spec (.vertexPayload guid v.labels v.properties.toPropertyList)
    simp only [hv, Option.bind_some, if_pos hc, Option.toList_some] at hroom
    simp only [hpush]
    have hlinked : (db.graph.updateVertex guid edit.apply).Linked :=
      h.sound.linked.updateVertex guid fun w =>
        ⟨(edit.apply_frame w).1, (edit.apply_frame w).2.1⟩
    have hnew : kNoLabel ∉ edit.newLabels := by simp [hlabels]
    have hlabelled := labelled_editVertex h hv hnew
    cases hfits : db.hasRoom ((JournalEntry.vertexPayload guid v.labels
        v.properties.toPropertyList).approximateBytes db.sizes) with
    | true =>
      rw [hfits, if_pos rfl] at hjournal
      refine ⟨.graphMove h hlinked (db.graph.updateVertex_options guid _) hlabelled
        (by simp [JournalEntry.Restorable]) (move_editVertex hv hcontent) hjournal, ?_⟩
      intro hstrict
      exact hasRoom_after hjournal (hroom hstrict)
    | false =>
      have hlossy : strict = false := by
        cases strict with
        | false => rfl
        | true =>
          have hfull : db.hasRoom ((JournalEntry.vertexPayload guid v.labels
              v.properties.toPropertyList).approximateBytes db.sizes) = true :=
            hasRoom_mono (by simp [bytesOf]) (hroom rfl)
          rw [hfits] at hfull
          cases hfull
      subst hlossy
      rw [hfits, if_neg Bool.false_ne_true] at hjournal
      refine ⟨.graphMove h hlinked (db.graph.updateVertex_options guid _) hlabelled
        (by simp) ?_ hjournal, fun hstrict => by cases hstrict⟩
      rw [reading_editVertex hv]
      refine .loseLabel guid v.reading _ ?_ (edit.sameVertex_apply v hcontent) ?_ ?_ rfl
      · simp [reading, hv]
      · intro l hl
        exact (edit.labels_apply v hl).resolve_right (by simp [hlabels])
      · intro n x hx
        exact (edit.properties_apply v hx).resolve_right (by simp [hproperties])

/-- One turn over an edge: everything else. -/
theorem stripEdge_frame (carries : Edge → Bool) (edit : EdgeEdit) (db : Database) (edge : Guid) :
    (stripEdge carries edit db edge).graph.vertices = db.graph.vertices ∧
      (stripEdge carries edit db edge).graph.keys = db.graph.keys ∧
      (stripEdge carries edit db edge).schema = db.schema ∧
      (stripEdge carries edit db edge).sizes = db.sizes ∧
      ∀ d, d ≠ edge → (stripEdge carries edit db edge).graph.edges.find? d =
        db.graph.edges.find? d := by
  unfold stripEdge
  cases he : db.graph.edges.find? edge with
  | none => exact ⟨rfl, rfl, rfl, rfl, fun d _ => rfl⟩
  | some e =>
    obtain ⟨tx', hpush, -⟩ := db.push_spec (.edgeState (e.record edge))
    simp only [hpush]
    split
    · obtain ⟨status, heq⟩ | ⟨e₀, e', -, -, -, heq⟩ := edit.perform_result db.graph edge
      · rw [heq]
        exact ⟨rfl, rfl, rfl, rfl, fun d _ => rfl⟩
      · rw [heq]
        refine ⟨by simp, by simp, rfl, rfl, fun d hd => ?_⟩
        rw [Graph.find?_updateEdge, if_neg hd]
    · exact ⟨rfl, rfl, rfl, rfl, fun d _ => rfl⟩

/-- One turn over an edge: a recorded edit, or a loss when the record is refused. -/
theorem advance_stripEdge (h : db.WellFormed) (carries : Edge → Bool) {edit : EdgeEdit}
    (hlabels : edit.newLabels = []) (hproperties : edit.newProperties = []) {edge : Guid}
    (hroom : strict = true → db.hasRoom (bytesOf db.sizes (stripEdgeRecord carries db.graph
      edge).toList + b) = true) :
    Advance strict db (stripEdge carries edit db edge) ∧
      (strict = true → (stripEdge carries edit db edge).hasRoom b = true) := by
  unfold stripEdgeRecord at hroom
  unfold stripEdge
  cases he : db.graph.edges.find? edge with
  | none =>
    refine ⟨.refl h, fun hstrict => ?_⟩
    exact hasRoom_mono (by omega) (hroom hstrict)
  | some e =>
    by_cases hc : carries e = true
    swap
    · simp only [if_neg hc]
      refine ⟨.refl h, fun hstrict => ?_⟩
      exact hasRoom_mono (by omega) (hroom hstrict)
    simp only [if_pos hc]
    obtain ⟨tx', hpush, hjournal⟩ := db.push_spec (.edgeState (e.record edge))
    simp only [he, Option.bind_some, if_pos hc, Option.toList_some] at hroom
    simp only [hpush]
    have hsome : db.reading.graph.edges edge = some e.reading :=
      congrArg (Option.map Edge.reading) he
    have hold := h.labelled.edges edge e.reading hsome
    obtain ⟨x, ho, ht, hlabelsx, hpropertiesx, hread⟩ := reading_perform edit he
    have hsub : ∀ l ∈ x.labels, l ∈ e.labels := fun l hl =>
      (hlabelsx l hl).resolve_right (by simp [hlabels])
    have hlinked := h.sound.linked.step (.editEdge edge edit)
    have hoptions := db.graph.step_options (.editEdge edge edit)
    have hlabelled : Reading.Labelled
        ⟨(edit.perform db.graph edge).1.reading, db.schema.reading⟩ := by
      rw [hread]
      refine h.labelled.setEdge edge (e := some x) ?_
      rintro y ⟨⟩ hmem
      exact hold (hsub _ hmem)
    cases hfits : db.hasRoom
        ((JournalEntry.edgeState (e.record edge)).approximateBytes db.sizes) with
    | true =>
      rw [hfits, if_pos rfl] at hjournal
      refine ⟨.graphMove h hlinked hoptions hlabelled ?_ ?_ hjournal, fun hstrict => ?_⟩
      · intro entry hentry
        rw [List.mem_singleton.mp hentry]
        exact hold
      · rw [hread]
        refine .editEdge (e.record edge) x ?_
        rw [reading_record]
        exact hsome
      · exact hasRoom_after hjournal (hroom hstrict)
    | false =>
      have hlossy : strict = false := by
        cases strict with
        | false => rfl
        | true =>
          have hfull : db.hasRoom
              ((JournalEntry.edgeState (e.record edge)).approximateBytes db.sizes) = true :=
            hasRoom_mono (by simp [bytesOf]) (hroom rfl)
          rw [hfits] at hfull
          cases hfull
      subst hlossy
      rw [hfits, if_neg Bool.false_ne_true] at hjournal
      refine ⟨.graphMove h hlinked hoptions hlabelled (by simp) ?_ hjournal,
        fun hstrict => by cases hstrict⟩
      rw [hread]
      refine .loseEdgeLabel edge e.reading x hsome ⟨ho, ht⟩ hsub ?_ rfl
      intro n value hn
      exact (hpropertiesx n value hn).resolve_right (by simp [hproperties])

variable {ids : List Guid}

/-- A strip loop over distinct ids, with room to spare for what comes after it. -/
theorem advance_loop {turn : Database → Guid → Database}
    {record : Graph → Guid → Option JournalEntry}
    (hturn : ∀ {db : Database} {guid b}, db.WellFormed → (strict = true → db.hasRoom (bytesOf
      db.sizes (record db.graph guid).toList + b) = true) → Advance strict db (turn db guid) ∧
      (strict = true → (turn db guid).hasRoom b = true))
    (hframe : ∀ (db : Database) guid w, w ≠ guid → record (turn db guid).graph w = record db.graph
      w) (nodup : ids.Nodup) (h : db.WellFormed)
    (hroom : strict = true → db.hasRoom (bytesOf db.sizes (ids.filterMap (record db.graph)) + b) =
      true) :
    Advance strict db (ids.foldl turn db) ∧
      (strict = true → (ids.foldl turn db).hasRoom b = true) := by
  induction ids generalizing db with
  | nil => exact ⟨.refl h, fun hstrict => hasRoom_mono (by omega) (hroom hstrict)⟩
  | cons guid rest ih =>
    obtain ⟨hhead, hrest⟩ := List.nodup_cons.mp nodup
    -- the turn at the head changes no other record
    have hsame : rest.filterMap (record (turn db guid).graph) =
        rest.filterMap (record db.graph) := by
      refine List.filterMap_congr fun w hw => hframe db guid w ?_
      rintro rfl
      exact hhead hw
    have hsplit : bytesOf db.sizes ((guid :: rest).filterMap (record db.graph)) =
        bytesOf db.sizes (record db.graph guid).toList +
          bytesOf db.sizes (rest.filterMap (record db.graph)) := by
      rw [List.filterMap_cons]
      cases record db.graph guid <;> simp [bytesOf]
    rw [hsplit] at hroom
    obtain ⟨hadvance, hleft⟩ := hturn (b := bytesOf db.sizes
      (rest.filterMap (record db.graph)) + b) h (fun hstrict => by
        rw [← Nat.add_assoc]
        exact hroom hstrict)
    rw [← hsame, ← hadvance.sizes] at hleft
    obtain ⟨hadvance', hleft'⟩ := ih hrest hadvance.wellFormed hleft
    exact ⟨hadvance.trans hadvance', hleft'⟩

/-- What a vertex loop does to each vertex, with everything else as it was. -/
theorem find?_stripVertices (carries : Vertex → Bool) (edit : VertexEdit) (nodup : ids.Nodup)
    (db : Database) (w : Guid) :
    (ids.foldl (stripVertex carries edit) db).graph.vertices.find? w =
      if w ∈ ids then (db.graph.vertices.find? w).map fun v =>
        if carries v then edit.apply v else v
      else db.graph.vertices.find? w := by
  induction ids generalizing db with
  | nil => simp
  | cons guid rest ih =>
    obtain ⟨hhead, hrest⟩ := List.nodup_cons.mp nodup
    rw [List.foldl_cons, ih hrest, find?_stripVertex]
    by_cases hw : w = guid
    · subst hw
      simp [hhead]
    · simp [hw]

theorem stripVertices_frame (carries : Vertex → Bool) (edit : VertexEdit) (ids : List Guid)
    (db : Database) :
    (ids.foldl (stripVertex carries edit) db).graph.edges = db.graph.edges ∧
      (ids.foldl (stripVertex carries edit) db).graph.keys = db.graph.keys ∧
      (ids.foldl (stripVertex carries edit) db).schema = db.schema ∧
      (ids.foldl (stripVertex carries edit) db).sizes = db.sizes := by
  induction ids generalizing db with
  | nil => exact ⟨rfl, rfl, rfl, rfl⟩
  | cons guid rest ih =>
    obtain ⟨he, hk, hs, hz⟩ := stripVertex_frame carries edit db guid
    obtain ⟨he', hk', hs', hz'⟩ := ih (stripVertex carries edit db guid)
    exact ⟨he'.trans he, hk'.trans hk, hs'.trans hs, hz'.trans hz⟩

/-- The two loops together. -/
theorem advance_strip (h : db.WellFormed) (carriesV : Vertex → Bool) (carriesE : Edge → Bool)
    {editV : VertexEdit} {editE : EdgeEdit}
    (hcontent : ∀ content, editV ≠ .setContent content)
    (hlabelsV : editV.newLabels = []) (hpropertiesV : editV.newProperties = [])
    (hlabelsE : editE.newLabels = []) (hpropertiesE : editE.newProperties = [])
    (hroom : strict = true →
      db.hasRoom (bytesOf db.sizes (stripRecords db.graph carriesV carriesE)) = true) :
    Advance strict db (db.strip carriesV editV carriesE editE) := by
  unfold strip
  have hsplit : bytesOf db.sizes (stripRecords db.graph carriesV carriesE) =
      bytesOf db.sizes (db.graph.vertices.keys.filterMap (stripVertexRecord carriesV db.graph)) +
        bytesOf db.sizes (db.graph.edges.keys.filterMap (stripEdgeRecord carriesE db.graph)) := by
    simp [stripRecords, bytesOf]
  rw [hsplit] at hroom
  obtain ⟨hvertices, hleft⟩ := advance_loop
    (fun h => advance_stripVertex h carriesV hcontent hlabelsV hpropertiesV)
    (fun db guid w hw => by
      unfold stripVertexRecord
      rw [find?_stripVertex, if_neg hw])
    db.graph.vertices.keys_nodup h hroom
  obtain ⟨hedges, -, -, hsizes⟩ := stripVertices_frame carriesV editV db.graph.vertices.keys db
  have hrecords : ∀ edge, stripEdgeRecord carriesE
      (db.graph.vertices.keys.foldl (stripVertex carriesV editV) db).graph edge =
        stripEdgeRecord carriesE db.graph edge := by
    intro edge
    unfold stripEdgeRecord
    rw [hedges]
  refine hvertices.trans (advance_loop (b := 0)
    (fun h => advance_stripEdge h carriesE hlabelsE hpropertiesE)
    (fun db edge d hd => by
      unfold stripEdgeRecord
      rw [(stripEdge_frame carriesE editE db edge).2.2.2.2 d hd])
    (Table.keys_nodup _) hvertices.wellFormed fun hstrict => ?_).1
  rw [hsizes, hedges, List.filterMap_congr fun edge _ => hrecords edge]
  exact hleft hstrict

end Strip

/-! ## Labels and property types -/

end Database

namespace Schema

variable {s : Schema}

/-- `create_label` refuses, or registers the name under the next id. -/
theorem createLabel_cases (s : Schema) (name : Bytes) :
    (∃ status, s.createLabel name = (s, status, kNoLabel) ∧ status.isError = true) ∨
    (isBlank name = false ∧ s.createLabel name =
      ({ s with
        labels := s.labels.add id s.nextLabelId name
        nextLabelId := s.nextLabelId + 1
        version := s.version + 1 }, .ok, s.nextLabelId)) := by
  unfold createLabel
  split
  · exact .inl ⟨_, rfl, rfl⟩
  next hblank =>
  split
  · exact .inl ⟨_, rfl, rfl⟩
  · exact .inr ⟨by simpa using hblank, rfl⟩

/-- `create_property_type` refuses, or stores the canonical declaration under the next id. -/
theorem createPropertyType_cases (s : Schema) (info : PropertyTypeInfo) :
    (∃ status, s.createPropertyType info = (s, status, kNoPropName) ∧ status.isError = true) ∨
    (s.createPropertyType info =
      ({ s with
        propertyTypes := s.propertyTypes.add PropertyTypeInfo.name s.nextPropNameId
          { canonicalizePropertyType info with nameId := s.nextPropNameId }
        nextPropNameId := s.nextPropNameId + 1
        version := s.version + 1 }, .ok, s.nextPropNameId)) := by
  unfold createPropertyType
  split
  · exact .inl ⟨_, rfl, rfl⟩
  split
  · next hvalid => exact .inl ⟨_, rfl, hvalid⟩
  split
  · exact .inl ⟨_, rfl, rfl⟩
  · exact .inr rfl

/-- `update_property_type` refuses, or replaces a registered declaration. -/
theorem updatePropertyType_cases (s : Schema) (property : PropNameId) (info : PropertyTypeInfo)
    (valuesExist : Bool) :
    (∃ status, s.updatePropertyType property info valuesExist = (s, status) ∧
      status.isError = true) ∨
    (∃ old, s.propertyTypes.get? property = some old ∧
      (shapeChanged old (canonicalizePropertyType info) = true → valuesExist = true →
        isDeclarationRelaxation old (canonicalizePropertyType info) = true) ∧
      s.updatePropertyType property info valuesExist =
      ({ s with
        propertyTypes := s.propertyTypes.replace PropertyTypeInfo.name property
          { canonicalizePropertyType info with nameId := property }
        version := s.version + 1 }, .ok)) := by
  unfold updatePropertyType
  split
  · exact .inl ⟨_, rfl, rfl⟩
  split
  · next hvalid => exact .inl ⟨_, rfl, hvalid⟩
  simp only
  split
  · exact .inl ⟨_, rfl, rfl⟩
  next old hget =>
  split
  · exact .inl ⟨_, rfl, rfl⟩
  split
  · exact .inl ⟨_, rfl, rfl⟩
  · next hrelax =>
      refine .inr ⟨old, hget, fun hshape hvalues => ?_, rfl⟩
      simpa [hshape, hvalues] using hrelax

variable {label : LabelId}

/-- A new entry under a free id, read back. -/
theorem reading_addLabel (next version : BitVec 32) (name : Bytes)
    (fresh : s.labels.get? label = none) :
    reading { s with
      labels := s.labels.add id label name, nextLabelId := next, version := version } =
      s.reading.setLabel label (some name) := by
  ext1
  · funext l
    simp only [reading, SchemaReading.setLabel, Function.update_apply, Registry.get?_add]
    by_cases hl : l = label
    · simp [hl, fresh]
    · simp [hl]
  · rfl

variable {property : PropNameId}

theorem reading_addPropertyType (next version : BitVec 32) (info : PropertyTypeInfo)
    (fresh : s.propertyTypes.get? property = none) :
    reading { s with
      propertyTypes := s.propertyTypes.add PropertyTypeInfo.name property info
      nextPropNameId := next, version := version } =
      s.reading.setType property (some info) := by
  ext1
  · rfl
  · funext p
    simp only [reading, SchemaReading.setType, Function.update_apply, Registry.get?_add]
    by_cases hp : p = property
    · simp [hp, fresh]
    · simp [hp]

theorem reading_replacePropertyType (version : BitVec 32) {old : PropertyTypeInfo}
    (info : PropertyTypeInfo) (live : s.propertyTypes.get? property = some old) :
    reading { s with
      propertyTypes := s.propertyTypes.replace PropertyTypeInfo.name property info
      version := version } = s.reading.setType property (some info) := by
  ext1
  · rfl
  · funext p
    simp only [reading, SchemaReading.setType, Function.update_apply, Registry.get?_replace, live,
      Option.map_some]

/-- Names are unique. -/
theorem WellFormed.label_alone (h : s.WellFormed) {name : Bytes}
    (live : s.labels.get? label = some name) : ¬s.reading.LabelClash label name := by
  rintro ⟨other, hne, hother⟩
  have hself := (h.labels.byName_iff name label).mpr ⟨name, live, rfl⟩
  have hclash := (h.labels.byName_iff name other).mpr ⟨name, hother, rfl⟩
  rw [hself] at hclash
  cases hclash
  exact hne rfl

theorem WellFormed.type_alone (h : s.WellFormed) {info : PropertyTypeInfo}
    (live : s.propertyTypes.get? property = some info) :
    ¬s.reading.TypeClash property info.name := by
  rintro ⟨other, info', hne, hother, hname⟩
  have hself := (h.propertyTypes.byName_iff info.name property).mpr ⟨info, live, rfl⟩
  have hclash := (h.propertyTypes.byName_iff info.name other).mpr ⟨info', hother, hname⟩
  rw [hself] at hclash
  cases hclash
  exact hne rfl

end Schema

namespace Database

section SchemaCommands

variable {strict : Bool} {db : Database} (h : db.WellFormed)
include h

omit h in
/-- The id counters have not come round to an id in use. -/
structure FreshIds (db : Database) : Prop where
  label_ne : db.schema.nextLabelId ≠ kNoLabel
  label_free : db.schema.hasLabel db.schema.nextLabelId = false
  property_ne : db.schema.nextPropNameId ≠ kNoPropName
  property_free : db.schema.hasPropertyType db.schema.nextPropNameId = false

/-- A schema that reads the same, with nothing recorded. -/
theorem Advance.unreadSchema {s : Schema} {tx' : Option Transaction} (wellFormed : s.WellFormed)
    (hread : s.reading = db.schema.reading) (hjournal : Journaled db.sizes db.tx [] tx') :
    Advance strict db { db with schema := s, tx := tx' } := by
  have hsame : ({ db with schema := s, tx := tx' } : Database).reading = db.reading :=
    congrArg (Reading.mk _) hread
  refine ⟨⟨⟨h.sound.linked, wellFormed⟩, hsame ▸ h.labelled⟩, rfl, rfl, [], by simp, ?_, hjournal⟩
  rw [hsame]
  exact .nil _

theorem advance_createLabel (name : Bytes) (ids : db.FreshIds) :
    Advance strict db (db.createLabel name).1 := by
  have hfresh : db.schema.labels.get? db.schema.nextLabelId = none := by
    simpa [Schema.hasLabel] using ids.label_free
  have hwf := h.sound.schema.createLabel name ids.label_ne ids.label_free
  unfold createLabel
  split
  · exact .refl h
  obtain ⟨status, heq, herr⟩ | ⟨-, heq⟩ := db.schema.createLabel_cases name
  · rw [heq]
    simp only [herr, if_true]
    exact .refl h
  rw [heq] at hwf ⊢
  have hread := Schema.reading_addLabel (s := db.schema) (db.schema.nextLabelId + 1)
    (db.schema.version + 1) name hfresh
  obtain ⟨tx', hpush, hjournal⟩ := ({ db with schema := (db.schema.createLabel name).1 } :
    Database).push_spec (.labelCreated db.schema.nextLabelId)
  rw [heq] at hpush hjournal
  simp only [GdiStatus.isError, Bool.false_eq_true, if_false, hpush]
  split
  · next hroom =>
      rw [if_pos hroom] at hjournal
      refine .schemaMove h hwf (by simp [JournalEntry.Restorable]) ?_ hjournal
      rw [hread]
      exact .createLabel db.schema.nextLabelId name hfresh
  · next hroom =>
      rw [if_neg hroom] at hjournal
      refine Advance.unreadSchema h (hwf.freeLabel _) ?_ hjournal
      rw [Schema.reading_freeLabel hwf, hread]
      have hnone : db.schema.reading.labels db.schema.nextLabelId = none := hfresh
      simp only [SchemaReading.setLabel, Function.update_idem, ← hnone, Function.update_eq_self]

theorem advance_updateLabel (label : LabelId) (newName : Bytes) :
    Advance strict db (db.updateLabel label newName).1 := by
  have hwf := h.sound.schema.renameLabel label newName
  have hread := Schema.reading_renameLabel h.sound.schema label newName
  unfold updateLabel
  split
  · exact .refl h
  split
  · exact .refl h
  next hopen =>
  obtain ⟨tx', hpush, hjournal⟩ :=
    db.push_spec (.labelRenamed label (db.schema.labelName label))
  simp only [hpush]
  split
  swap
  · next hroom =>
      rw [if_neg hroom] at hjournal
      exact .pushed h hjournal
  next hroom =>
  rw [if_pos hroom] at hjournal
  cases hget : db.schema.labels.get? label with
  | none =>
    -- without a transaction an unknown label reaches the registry, which refuses it
    have htx : db.tx = none := by
      cases htx : db.tx with
      | none => rfl
      | some tx => simp [htx, Schema.labelName, hget] at hopen
    refine Advance.unreadSchema h hwf ?_ ?_
    · rw [hread]
      unfold SchemaReading.renameLabel
      rw [if_pos (.inr (.inl hget))]
    · rw [htx] at hjournal ⊢
      exact hjournal
  | some old =>
    have hname : db.schema.labelName label = old := by simp [Schema.labelName, hget]
    rw [hname] at hjournal
    refine .schemaMove h hwf (by simp [JournalEntry.Restorable]) ?_ hjournal
    have hmove : ∀ new, Move db.graph.options.allowSelfEdges strict db.reading
        [.labelRenamed label old] (db.reading.mapSchema (·.setLabel label (some new))) :=
      fun new => .renameLabel label old new hget (h.sound.schema.labelEntries _ _ hget).2
        (h.sound.schema.label_alone hget)
    rw [hread]
    unfold SchemaReading.renameLabel
    split
    · have hsame : db.schema.reading.setLabel label (some old) = db.schema.reading := by
        have hold : db.schema.reading.labels label = some old := hget
        simp only [SchemaReading.setLabel, ← hold, Function.update_eq_self]
      have hstay := hmove old
      simp only [Reading.mapSchema] at hstay
      rw [show db.reading.schema.setLabel label (some old) = db.schema.reading from hsame] at hstay
      exact hstay
    · exact hmove newName

omit h in
/-- All records of a free command fit when its first one does. -/
def StripFits (db : Database) (first : JournalEntry) (carriesV : Vertex → Bool)
    (carriesE : Edge → Bool) : Prop :=
  db.hasRoom (first.approximateBytes db.sizes) = true →
    db.hasRoom (bytesOf db.sizes (first :: stripRecords db.graph carriesV carriesE)) = true

theorem advance_freeLabel (label : LabelId)
    (ok : strict = true → db.labelIsAKey label = false → db.StripFits
      (.labelFreed label (db.schema.labelName label)) (·.labels.contains label)
      (·.labels.contains label)) :
    Advance strict db (db.freeLabel label).1 := by
  unfold freeLabel
  split
  · exact .refl h
  split
  · exact .refl h
  next hhas =>
  split
  · exact .refl h
  next hkey =>
  obtain ⟨tx', hpush, hjournal⟩ := db.push_spec (.labelFreed label (db.schema.labelName label))
  simp only [hpush]
  split
  swap
  · next hroom =>
      rw [if_neg hroom] at hjournal
      exact .pushed h hjournal
  next hroom =>
  rw [if_pos hroom] at hjournal
  obtain ⟨name, hget⟩ : ∃ name, db.schema.labels.get? label = some name :=
    Option.ne_none_iff_exists'.mp (by simpa [Schema.hasLabel] using hhas)
  have hname : db.schema.labelName label = name := by simp [Schema.labelName, hget]
  have hstatus : (db.schema.freeLabel label).2 = .ok := by simp [Schema.freeLabel, hget]
  have hmove : Move db.graph.options.allowSelfEdges strict db.reading
      [.labelFreed label (db.schema.labelName label)]
      ⟨db.graph.reading, (db.schema.freeLabel label).1.reading⟩ := by
    rw [hname, Schema.reading_freeLabel h.sound.schema]
    obtain ⟨hne, hblank⟩ := h.sound.schema.labelEntries _ _ hget
    exact .freeLabel label name hget hne hblank (h.sound.schema.label_alone hget)
  have hfirst : Advance strict db
      { db with schema := (db.schema.freeLabel label).1, tx := tx' } :=
    .schemaMove h (h.sound.schema.freeLabel label) (by simp [JournalEntry.Restorable]) hmove
      hjournal
  simp only [hstatus, GdiStatus.isError, Bool.false_eq_true, if_false]
  refine hfirst.trans (advance_strip hfirst.wellFormed _ _ ?_ rfl rfl rfl rfl fun hstrict => ?_)
  · simp
  · refine hasRoom_after hjournal ?_
    have hall := ok hstrict (by simpa using hkey) hroom
    simpa [bytesOf] using hall

theorem advance_createPropertyType (info : PropertyTypeInfo) (ids : db.FreshIds) :
    Advance strict db (db.createPropertyType info).1 := by
  have hfresh : db.schema.propertyTypes.get? db.schema.nextPropNameId = none := by
    simpa [Schema.hasPropertyType] using ids.property_free
  have hwf := h.sound.schema.createPropertyType info ids.property_ne ids.property_free
  unfold createPropertyType
  split
  · exact .refl h
  obtain ⟨status, heq, herr⟩ | heq := db.schema.createPropertyType_cases info
  · rw [heq]
    simp only [herr, if_true]
    exact .refl h
  rw [heq] at hwf ⊢
  have hread := Schema.reading_addPropertyType (s := db.schema) (db.schema.nextPropNameId + 1)
    (db.schema.version + 1)
    { canonicalizePropertyType info with nameId := db.schema.nextPropNameId } hfresh
  obtain ⟨tx', hpush, hjournal⟩ := ({ db with schema := (db.schema.createPropertyType info).1 } :
    Database).push_spec (.propertyTypeCreated db.schema.nextPropNameId)
  rw [heq] at hpush hjournal
  simp only [GdiStatus.isError, Bool.false_eq_true, if_false, hpush]
  split
  · next hroom =>
      rw [if_pos hroom] at hjournal
      refine .schemaMove h hwf (by simp [JournalEntry.Restorable]) ?_ hjournal
      rw [hread]
      exact .createPropertyType db.schema.nextPropNameId _ hfresh
  · next hroom =>
      rw [if_neg hroom] at hjournal
      refine Advance.unreadSchema h (hwf.freePropertyType _) ?_ hjournal
      rw [Schema.reading_freePropertyType hwf, hread]
      have hnone : db.schema.reading.types db.schema.nextPropNameId = none := hfresh
      simp only [SchemaReading.setType, Function.update_idem, ← hnone, Function.update_eq_self]

theorem advance_updatePropertyType (property : PropNameId) (info : PropertyTypeInfo) :
    Advance strict db (db.updatePropertyType property info).1 := by
  unfold updatePropertyType
  split
  · exact .refl h
  split
  · exact .refl h
  split
  · exact .refl h
  next hhas =>
  split
  · exact .refl h
  obtain ⟨tx', hpush, hjournal⟩ :=
    db.push_spec (.propertyTypeUpdated property (db.schema.propertyType property))
  simp only [hpush]
  split
  swap
  · next hroom =>
      rw [if_neg hroom] at hjournal
      exact .pushed h hjournal
  next hroom =>
  rw [if_pos hroom] at hjournal
  obtain ⟨old, hget⟩ : ∃ old, db.schema.propertyTypes.get? property = some old :=
    Option.ne_none_iff_exists'.mp (by simpa [Schema.hasPropertyType] using hhas)
  have hold : db.schema.propertyType property = old := by simp [Schema.propertyType, hget]
  rw [hold] at hjournal
  refine .schemaMove h (h.sound.schema.updatePropertyType ..) (by simp [JournalEntry.Restorable])
    ?_ hjournal
  have hmove : ∀ new, Move db.graph.options.allowSelfEdges strict db.reading
      [.propertyTypeUpdated property old]
      (db.reading.mapSchema (·.setType property (some new))) :=
    fun new => .updatePropertyType property old new hget
      (h.sound.schema.propertyTypeEntries _ _ hget).2 (h.sound.schema.type_alone hget)
  obtain ⟨status, heq, -⟩ | ⟨old', hold', -, heq⟩ :=
    db.schema.updatePropertyType_cases property info (db.propertyValuesExist property)
  · have hsame : db.schema.reading.setType property (some old) = db.schema.reading := by
      have hread : db.schema.reading.types property = some old := hget
      simp only [SchemaReading.setType, ← hread, Function.update_eq_self]
    have hstay := hmove old
    simp only [Reading.mapSchema] at hstay
    rw [show db.reading.schema.setType property (some old) = db.schema.reading from hsame] at hstay
    rw [show (db.schema.updatePropertyType property info
      (propertyValuesExist { db with tx := tx' } property)) = _ from heq]
    exact hstay
  · rw [show (db.schema.updatePropertyType property info
      (propertyValuesExist { db with tx := tx' } property)) = _ from heq]
    rw [Schema.reading_replacePropertyType (s := db.schema) (db.schema.version + 1) _ hold']
    exact hmove _

theorem advance_freePropertyType (property : PropNameId)
    (ok : strict = true → db.StripFits
      (.propertyTypeFreed property (db.schema.propertyType property))
      (fun v => (v.properties.find? property).isSome)
      (fun e => (e.properties.find? property).isSome)) :
    Advance strict db (db.freePropertyType property).1 := by
  unfold freePropertyType
  split
  · exact .refl h
  split
  · exact .refl h
  next hhas =>
  obtain ⟨tx', hpush, hjournal⟩ :=
    db.push_spec (.propertyTypeFreed property (db.schema.propertyType property))
  simp only [hpush]
  split
  swap
  · next hroom =>
      rw [if_neg hroom] at hjournal
      exact .pushed h hjournal
  next hroom =>
  rw [if_pos hroom] at hjournal
  obtain ⟨info, hget⟩ : ∃ info, db.schema.propertyTypes.get? property = some info :=
    Option.ne_none_iff_exists'.mp (by simpa [Schema.hasPropertyType] using hhas)
  have hinfo : db.schema.propertyType property = info := by simp [Schema.propertyType, hget]
  have hstatus : (db.schema.freePropertyType property).2 = .ok := by
    simp [Schema.freePropertyType, hget]
  obtain ⟨hne, hstored⟩ := h.sound.schema.propertyTypeEntries _ _ hget
  have hmove : Move db.graph.options.allowSelfEdges strict db.reading
      [.propertyTypeFreed property (db.schema.propertyType property)]
      ⟨db.graph.reading, (db.schema.freePropertyType property).1.reading⟩ := by
    rw [hinfo, Schema.reading_freePropertyType h.sound.schema]
    exact .freePropertyType property info hget hne hstored (h.sound.schema.type_alone hget)
  have hrestorable : ∀ entry ∈
      [JournalEntry.propertyTypeFreed property (db.schema.propertyType property)],
      entry.Restorable := by
    intro entry hentry
    rw [List.mem_singleton.mp hentry, hinfo]
    change info.Stored info.nameId
    rw [hstored.filed]
    exact hstored
  have hfirst : Advance strict db
      { db with schema := (db.schema.freePropertyType property).1, tx := tx' } :=
    .schemaMove h (h.sound.schema.freePropertyType property) hrestorable hmove hjournal
  simp only [hstatus, GdiStatus.isError, Bool.false_eq_true, if_false]
  refine hfirst.trans (advance_strip hfirst.wellFormed _ _ ?_ rfl rfl rfl rfl fun hstrict => ?_)
  · simp
  · refine hasRoom_after hjournal ?_
    have hall := ok hstrict hroom
    simpa [bytesOf] using hall

end SchemaCommands

end Database

end KimixNative.GraphDb
