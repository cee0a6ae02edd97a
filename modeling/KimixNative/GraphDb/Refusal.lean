import KimixNative.GraphDb.Rollback

/-!
# A refused command

A command that answers with an error should leave nothing behind. Validation comes before
every mutation, and a mutation whose record is refused is taken back at once, except that

* `free_vertex` has removed the vertex when the journal refuses the record, and keeps it
  removed;
* `create_vertex` takes back the vertex its warning names, which it did not create;
* an id counter that has come round makes the take-back of a create hit the older entry.

`refusal_single` says that these are all the exceptions among the single commands. The bulk
commands are below: the failed batch of vertices rolls back the caller's journal with its
own, and the failed batch of edges rolls back nothing.
-/

namespace KimixNative.GraphDb

namespace Database

/-- The condition on one command. -/
def RefusalSafe (db : Database) : Command → Prop
  | .createVertex key labels properties _ =>
    db.refusesWrites = false → db.warnsOfTaken key labels properties = true →
      db.hasRoom db.sizes.journalEntry = true ∨
        ∀ u ∈ db.graph.findKey key, db.graph.vertices.find? u = none
  | .freeVertex uid =>
    db.refusesWrites = false → ∀ entry ∈ db.removalRecord uid,
      db.hasRoom (entry.approximateBytes db.sizes) = true
  | .freeVertexGuarded uid =>
    db.refusesWrites = false → db.graph.hasIncidentEdges uid .both = false →
      ∀ entry ∈ db.removalRecord uid, db.hasRoom (entry.approximateBytes db.sizes) = true
  | .createLabel name =>
    db.refusesWrites = false → isBlank name = false → db.schema.findLabelLocked name = kNoLabel →
      db.hasRoom db.sizes.journalEntry = true ∨
        db.schema.hasLabel db.schema.nextLabelId = false
  | .createPropertyType info =>
    db.refusesWrites = false → isBlank info.name = false →
      (validatePropertyTypeDeclaration info).isError = false →
      db.schema.findPropertyTypeLocked info.name = kNoPropName →
      db.hasRoom db.sizes.journalEntry = true ∨
        db.schema.hasPropertyType db.schema.nextPropNameId = false
  | _ => True

/-- The claim for one command and one state. -/
def LeavesNothing (db : Database) (command : Command) : Prop :=
  (db.apply command).2.isError = true → (db.apply command).1.reading = db.reading

variable {key : VertexKey} {labels : List LabelId} {properties : PropertyList}

/-- A valid taken key under `report_warning` is warned about. -/
theorem createVertex_of_warns {db : Database}
    (hwarns : db.warnsOfTaken key labels properties = true) (minted : Guid) :
    ∃ existing, db.graph.findKey key = some existing ∧
      db.graph.createVertex (vertexSpec key labels properties) minted =
        (db.graph, .warningNonUniqueId, some existing) := by
  simp only [warnsOfTaken, Bool.and_eq_true, Bool.not_eq_eq_eq_not, Bool.not_true,
    decide_eq_true_eq] at hwarns
  obtain ⟨⟨⟨⟨hkey, -⟩, -⟩, hmode⟩, hsome⟩ := hwarns
  obtain ⟨existing, hfind⟩ := Option.isSome_iff_exists.mp hsome
  have hlabel : key.label ≠ kNoLabel := by
    intro hzero
    simp [Graph.findKey, hzero] at hfind
  have hid : key.externalId ≠ [] := by
    intro hempty
    unfold validateKey at hkey
    rw [if_pos hlabel] at hkey
    split at hkey
    · cases hkey
    · simp [GdiStatus.isError] at hkey
  refine ⟨existing, hfind, ?_⟩
  have hfind' : db.graph.findKey (vertexSpec key labels properties).key = some existing := hfind
  unfold Graph.createVertex
  simp [VertexSpec.keyed, vertexSpec, hlabel, hid, hmode,
    show (⟨key.label, key.externalId⟩ : VertexKey) = key from rfl, hfind, VertexSpec.key]

section Refusal

variable {db : Database} (h : db.WellFormed)
include h

/-! ## Vertices -/

omit h in
theorem not_warns_of_free (hfree : db.graph.findKey key = none) :
    db.warnsOfTaken key labels properties = false := by
  simp [warnsOfTaken, hfree]

/-- A vertex that was published and whose record was refused is gone without a trace. -/
theorem reading_unpublish {spec : VertexSpec} {minted : Guid}
    (fresh : db.graph.vertices.find? minted = none) (free : db.graph.findKey spec.key = none) :
    ((db.graph.published spec minted).freeVertex minted false).1.reading = db.graph.reading := by
  have hlinked : (db.graph.published spec minted).Linked := h.sound.linked.published fresh
  have hnone : db.graph.reading.vertices minted = none := by simp [fresh]
  rw [freeVertex_unguarded, Graph.reading_removeVertex _ hlinked, reading_published fresh free]
  exact GraphReading.removeVertex_adoptVertex h.closed hnone fun _ => free

theorem leavesNothing_createVertex (key : VertexKey) (labels : List LabelId)
    (properties : PropertyList) (minted : Guid) :
    db.LeavesNothing (.createVertex key labels properties minted) ↔
      db.RefusalSafe (.createVertex key labels properties minted) := by
  unfold LeavesNothing RefusalSafe
  simp only [apply]
  unfold createVertex
  by_cases hgate : db.refusesWrites = true
  · simp [hgate]
  rw [if_neg hgate]
  have hgate' : db.refusesWrites = false := by simpa using hgate
  by_cases hkey : (db.validateKey key).isError = true
  · rw [if_pos hkey]
    simp [warnsOfTaken, hkey]
  rw [if_neg hkey]
  by_cases hlabels : (db.validateLabels labels).isError = true
  · rw [if_pos hlabels]
    simp [warnsOfTaken, hlabels]
  rw [if_neg hlabels]
  by_cases hproperties : (db.validateProperties properties).isError = true
  · rw [if_pos hproperties]
    simp [warnsOfTaken, hproperties]
  rw [if_neg hproperties]
  obtain ⟨status, heq, -⟩ | ⟨existing, heq, hmode, hfind⟩ | ⟨heq, fresh, free⟩ :=
    db.graph.createVertex_cases (vertexSpec key labels properties) minted
  · rw [heq]
    refine iff_of_true (fun _ => rfl) fun _ hwarns => ?_
    obtain ⟨existing, -, hwarning⟩ := createVertex_of_warns hwarns minted
    rw [heq] at hwarning
    cases hwarning
  · have hfind' : db.graph.findKey key = some existing := hfind
    have hwarns : db.warnsOfTaken key labels properties = true := by
      simp [warnsOfTaken, hkey, hlabels, hproperties, hmode, hfind']
    rw [heq]
    obtain ⟨tx', hpush, -⟩ := db.push_spec (.vertexCreated existing)
    have hbytes : (JournalEntry.vertexCreated existing).approximateBytes db.sizes =
        db.sizes.journalEntry := rfl
    simp only [hpush, hgate', hwarns, hfind', Option.mem_some_iff, forall_eq', true_imp_iff,
      hbytes]
    cases hroom : db.hasRoom db.sizes.journalEntry with
    | true => simp [GdiStatus.isError]
    | false =>
      simp only [Bool.false_eq_true, if_false, false_or, freeVertex_unguarded]
      cases hv : db.graph.vertices.find? existing with
      | none =>
        rw [Graph.removeVertex_of_none hv]
        simp [reading]
      | some v =>
        refine iff_of_false (fun hsame => ?_) (by simp)
        have hread := congrArg (fun R => R.graph.vertices existing) (hsame rfl)
        simp [reading, Graph.find?_vertices_removeVertex hv, hv] at hread
  · rw [heq]
    obtain ⟨tx', hpush, -⟩ := ({ db with
      graph := db.graph.published (vertexSpec key labels properties) minted } :
        Database).push_spec (.vertexCreated minted)
    simp only [hpush]
    refine iff_of_true ?_ fun _ hwarns => ?_
    · split
      · intro herr
        cases herr
      · intro _
        exact congrArg (Reading.mk · _) (reading_unpublish h fresh free)
    · have hfree : db.graph.findKey key = none := free
      rw [not_warns_of_free hfree] at hwarns
      cases hwarns

theorem leavesNothing_getOrCreateVertex (key : VertexKey) (labels : List LabelId)
    (properties : PropertyList) (minted : Guid) :
    db.LeavesNothing (.getOrCreateVertex key labels properties minted) := by
  unfold LeavesNothing
  simp only [apply]
  unfold getOrCreateVertex
  split
  · exact fun _ => rfl
  split
  · exact fun _ => rfl
  obtain ⟨status, out, heq⟩ | ⟨heq, fresh, free⟩ :=
    db.graph.getOrCreateVertex_cases (vertexSpec key labels properties) minted
  · rw [heq]
    cases out <;> exact fun _ => rfl
  · rw [heq]
    obtain ⟨tx', hpush, -⟩ := ({ db with
      graph := db.graph.published (vertexSpec key labels properties) minted } :
        Database).push_spec (.vertexCreated minted)
    simp only [hpush]
    split
    · intro herr
      cases herr
    · intro _
      exact congrArg (Reading.mk · _) (reading_unpublish h fresh free)

theorem leavesNothing_freeVertex (uid : Guid) :
    db.LeavesNothing (.freeVertex uid) ↔ db.RefusalSafe (.freeVertex uid) := by
  unfold LeavesNothing RefusalSafe
  simp only [apply]
  unfold freeVertex
  by_cases hgate : db.refusesWrites = true
  · simp [hgate]
  rw [if_neg hgate]
  have hgate' : db.refusesWrites = false := by simpa using hgate
  cases hv : db.graph.vertices.find? uid with
  | none =>
    rw [removalRecord, Graph.removeVertex_of_none hv]
    simp [reading]
  | some victim =>
    obtain ⟨edges, hsnd, -, -⟩ := removeVertex_record h.sound.linked hv
    have hpair : db.graph.removeVertex uid =
        ((db.graph.removeVertex uid).1, some (⟨victim.clearLinks, rfl, rfl⟩, edges)) :=
      Prod.ext rfl hsnd
    have hrecord : db.removalRecord uid = some (.vertexRemoved uid victim.clearLinks.labels
        victim.clearLinks.properties.toPropertyList ⟨victim.clearLinks, rfl, rfl⟩ edges) := by
      unfold removalRecord
      rw [hsnd]
      rfl
    rw [hpair, hrecord]
    obtain ⟨tx', hpush, -⟩ := ({ db with graph := (db.graph.removeVertex uid).1 } :
      Database).push_spec (.vertexRemoved uid victim.clearLinks.labels
        victim.clearLinks.properties.toPropertyList ⟨victim.clearLinks, rfl, rfl⟩ edges)
    simp only [hpush, hgate', Option.mem_some_iff, forall_eq', true_imp_iff]
    change _ ↔ db.hasRoom _ = true
    cases hroom : db.hasRoom ((JournalEntry.vertexRemoved uid victim.clearLinks.labels
        victim.clearLinks.properties.toPropertyList ⟨victim.clearLinks, rfl, rfl⟩
        edges).approximateBytes db.sizes) with
    | true =>
      refine iff_of_true (fun herr => ?_) rfl
      rw [show hasRoom { db with graph := (db.graph.removeVertex uid).1 } _ = true from hroom]
        at herr
      cases herr
    | false =>
      refine iff_of_false (fun hsame => ?_) (by simp)
      have hnoroom := hroom
      rw [show hasRoom { db with graph := (db.graph.removeVertex uid).1 } _ = false from
        hroom] at hsame
      have hread := congrArg (fun R => R.graph.vertices uid) (hsame rfl)
      simp [reading, Graph.find?_vertices_removeVertex hv, hv] at hread

theorem leavesNothing_freeVertexGuarded (uid : Guid) :
    db.LeavesNothing (.freeVertexGuarded uid) ↔ db.RefusalSafe (.freeVertexGuarded uid) := by
  have hfree := leavesNothing_freeVertex h uid
  unfold LeavesNothing RefusalSafe at hfree ⊢
  simp only [apply] at hfree ⊢
  unfold freeVertexGuarded
  by_cases hgate : db.refusesWrites = true
  · simp [hgate]
  rw [if_neg hgate]
  by_cases hlive : (db.graph.vertices.find? uid).isNone = true
  · rw [if_pos hlive]
    have hv : db.graph.vertices.find? uid = none := by simpa using hlive
    simp [removalRecord, Graph.removeVertex_of_none hv]
  rw [if_neg hlive]
  by_cases hedges : db.graph.hasIncidentEdges uid .both = true
  · rw [if_pos hedges]
    simp [hedges]
  rw [if_neg hedges, hfree]
  simp [show db.graph.hasIncidentEdges uid .both = false by simpa using hedges]

variable {check : GdiStatus} {edge : Guid} {g : Graph}

omit h in
/-- A payload command whose refusal by the vertex is a refusal of the command. -/
theorem reading_editVertex_error {uid : Guid} {edit : VertexEdit} {answer : Vertex → GdiStatus}
    (hanswer : ∀ v, (answer v).isError = true → (edit.apply v).reading = v.reading)
    (herr : (db.editVertex uid check edit answer).2.isError = true) :
    (db.editVertex uid check edit answer).1.reading = db.reading := by
  unfold editVertex at herr ⊢
  split
  · rfl
  next hgate =>
  rw [if_neg hgate] at herr
  cases hv : db.graph.vertices.find? uid with
  | none => rfl
  | some v =>
    simp only [hv] at herr ⊢
    split
    · rfl
    next hcheck =>
    rw [if_neg hcheck] at herr
    obtain ⟨tx', hpush, -⟩ :=
      db.push_spec (.vertexPayload uid v.labels v.properties.toPropertyList)
    simp only [hpush] at herr ⊢
    split
    · next hroom =>
        rw [if_pos hroom] at herr
        refine congrArg (Reading.mk · _) ?_
        rw [reading_editVertex hv, hanswer v herr]
        have hsome : db.graph.reading.vertices uid = some v.reading := by simp [hv]
        simp only [GraphReading.setVertex, ← hsome, Function.update_eq_self]
    · rfl

/-! ## Edges -/

omit h in
theorem leavesNothing_edgeCreate (o t : Guid) (direction : Byte) (labels : List LabelId)
    (properties : PropertyList) (chosenUid : Option Guid) (minted : Guid) :
    db.LeavesNothing (.edgeCreate o t direction labels properties chosenUid minted) := by
  unfold LeavesNothing
  simp only [apply]
  unfold edgeCreate
  split
  · exact fun _ => rfl
  split
  · exact fun _ => rfl
  split
  · exact fun _ => rfl
  obtain ⟨status, heq, -⟩ | ⟨g', d, e, heq, hfree, -, -, -, hread⟩ :=
    reading_edgeCreate db.graph o t direction labels properties chosenUid minted
  · rw [heq]
    exact fun _ => rfl
  rw [heq]
  obtain ⟨tx', hpush, -⟩ := ({ db with graph := g' } : Database).push_spec (.edgeCreated d)
  simp only [hpush]
  split
  · intro herr
    cases herr
  · intro _
    refine congrArg (Reading.mk · _) ?_
    have hnone : db.graph.reading.edges d = none := by simp [hfree]
    rw [Graph.reading_edgeFree, hread]
    exact GraphReading.setEdge_setEdge hnone

omit h in
/-- A command on an edge whose operation changes nothing when it refuses. -/
theorem reading_changeEdge_error {entry : EdgeRecord → JournalEntry}
    {op : Graph → Graph × GdiStatus}
    (hop : (op db.graph).2.isError = true → (op db.graph).1.reading = db.graph.reading)
    (herr : (db.changeEdge edge check entry op).2.isError = true) :
    (db.changeEdge edge check entry op).1.reading = db.reading := by
  unfold changeEdge at herr ⊢
  split
  · rfl
  next hgate =>
  rw [if_neg hgate] at herr
  split
  · rfl
  next hcheck =>
  rw [if_neg hcheck] at herr
  cases htx : db.tx with
  | none =>
    simp only [htx] at herr ⊢
    exact congrArg (Reading.mk · _) (hop herr)
  | some tx =>
    cases he : db.graph.edges.find? edge with
    | none => rfl
    | some e =>
      obtain ⟨tx', hpush, -⟩ := db.push_spec (entry (e.record edge))
      simp only [htx, he, hpush] at herr ⊢
      split
      · next hroom =>
          rw [if_pos hroom] at herr
          exact congrArg (Reading.mk · _) (hop herr)
      · rfl

omit h in
theorem reading_edgeFree_error (herr : (g.edgeFree edge).2.isError = true) :
    (g.edgeFree edge).1.reading = g.reading := by
  unfold Graph.edgeFree at herr ⊢
  cases he : g.edges.find? edge with
  | none => rfl
  | some e =>
    rw [he] at herr
    cases herr

omit h in
theorem reading_moveEdgeEndpoint_error {endpoint : Guid} {moveOrigin : Bool}
    (herr : (g.moveEdgeEndpoint edge endpoint moveOrigin).2.isError = true) :
    (g.moveEdgeEndpoint edge endpoint moveOrigin).1.reading = g.reading := by
  obtain ⟨status, heq, -⟩ | ⟨e, o, t, -, -, -, -, -, -, heq⟩ :=
    g.moveEdgeEndpoint_cases edge endpoint moveOrigin
  · rw [heq]
  · rw [heq] at herr
    cases herr

omit h in
theorem reading_perform_error {edit : EdgeEdit} (herr : (edit.perform g edge).2.isError = true) :
    (edit.perform g edge).1.reading = g.reading := by
  obtain ⟨status, heq⟩ | ⟨e, e', -, -, -, heq⟩ := edit.perform_result g edge
  · rw [heq]
  · rw [heq] at herr
    cases herr

/-! ## Labels and property types -/

omit h in
/-- A label that is created and freed again leaves no trace, unless its id was in use. -/
theorem reading_freeLabel_createLabel {s : Schema} (hs : s.WellFormed) {name : Bytes}
    (hblank : isBlank name = false) (hfind : s.findLabelLocked name = kNoLabel) :
    ((s.createLabel name).1.freeLabel s.nextLabelId).1.reading = s.reading ↔
      s.hasLabel s.nextLabelId = false := by
  have hcreate : (s.createLabel name).1 = { s with
      labels := s.labels.add id s.nextLabelId name
      nextLabelId := s.nextLabelId + 1
      version := s.version + 1 } := by
    simp [Schema.createLabel, hblank, hfind]
  rw [hcreate]
  obtain ⟨v, hv⟩ : ∃ v, (s.labels.add id s.nextLabelId name).get? s.nextLabelId = some v := by
    rw [Registry.get?_add, if_pos rfl]
    cases s.labels.get? s.nextLabelId <;> exact ⟨_, rfl⟩
  simp only [Schema.freeLabel, hv]
  cases hget : s.labels.get? s.nextLabelId with
  | none =>
    refine iff_of_true ?_ (by simp [Schema.hasLabel, hget])
    ext1
    · funext l
      exact Registry.get?_drop_add id s.labels hs.labels.nodup hget name l
    · rfl
  | some old =>
    refine iff_of_false (fun hsame => ?_) (by simp [Schema.hasLabel, hget])
    have hlabel := congrFun (congrArg SchemaReading.labels hsame) s.nextLabelId
    have hnew : some name = s.labels.get? s.nextLabelId :=
      (Registry.get?_drop_add_taken id s.labels hs.labels.nodup hget name).symm.trans hlabel
    -- the new name was nobody's
    exact hs.labels.name_ne (hs.byName_of_findLabelLocked hfind) hnew.symm rfl

theorem leavesNothing_createLabel (name : Bytes) :
    db.LeavesNothing (.createLabel name) ↔ db.RefusalSafe (.createLabel name) := by
  unfold LeavesNothing RefusalSafe
  simp only [apply]
  unfold createLabel
  by_cases hgate : db.refusesWrites = true
  · simp [hgate]
  rw [if_neg hgate]
  have hgate' : db.refusesWrites = false := by simpa using hgate
  by_cases hpass : isBlank name = false ∧ db.schema.findLabelLocked name = kNoLabel
  swap
  · obtain ⟨status, heq, herr⟩ | ⟨hblank, heq⟩ := db.schema.createLabel_cases name
    · rw [heq]
      simp only [herr, if_true]
      exact iff_of_true (fun _ => trivial) fun _ hblank hfind => absurd ⟨hblank, hfind⟩ hpass
    · have hne : db.schema.findLabelLocked name ≠ kNoLabel := fun hfind => hpass ⟨hblank, hfind⟩
      simp [Schema.createLabel, hblank, hne] at heq
  obtain ⟨hblank, hfind⟩ := hpass
  have hback := reading_freeLabel_createLabel h.sound.schema hblank hfind
  have heq : db.schema.createLabel name =
      ((db.schema.createLabel name).1, .ok, db.schema.nextLabelId) := by
    simp [Schema.createLabel, hblank, hfind]
  rw [heq]
  obtain ⟨tx', hpush, -⟩ := ({ db with schema := (db.schema.createLabel name).1 } :
    Database).push_spec (.labelCreated db.schema.nextLabelId)
  simp only [hpush]
  rw [← hback]
  change _ ↔ _ → _ → _ → db.hasRoom db.sizes.journalEntry = true ∨ _
  have hsame : hasRoom { db with schema := (db.schema.createLabel name).1 }
      ((JournalEntry.labelCreated db.schema.nextLabelId).approximateBytes db.sizes) =
        db.hasRoom db.sizes.journalEntry := rfl
  simp only [hsame, hgate', hblank, hfind, true_imp_iff]
  cases hroom : db.hasRoom db.sizes.journalEntry with
  | true => simp [GdiStatus.isError]
  | false =>
    simp only [GdiStatus.isError, Bool.false_eq_true, if_false, false_or, true_imp_iff]
    exact ⟨fun hread => congrArg Reading.schema hread, fun hread => congrArg (Reading.mk _) hread⟩

omit h in
/-- The same for a property type. -/
theorem reading_freePropertyType_createPropertyType {s : Schema} (hs : s.WellFormed)
    {info : PropertyTypeInfo} (hblank : isBlank info.name = false)
    (hvalid : (validatePropertyTypeDeclaration info).isError = false)
    (hfind : s.findPropertyTypeLocked info.name = kNoPropName) :
    ((s.createPropertyType info).1.freePropertyType s.nextPropNameId).1.reading = s.reading ↔
      s.hasPropertyType s.nextPropNameId = false := by
  have hcreate : (s.createPropertyType info).1 = { s with
      propertyTypes := s.propertyTypes.add PropertyTypeInfo.name s.nextPropNameId
        { canonicalizePropertyType info with nameId := s.nextPropNameId }
      nextPropNameId := s.nextPropNameId + 1
      version := s.version + 1 } := by
    simp [Schema.createPropertyType, hblank, hvalid, hfind]
  rw [hcreate]
  generalize hstored : ({ canonicalizePropertyType info with nameId := s.nextPropNameId } :
    PropertyTypeInfo) = stored
  have hname : stored.name = info.name := by
    rw [← hstored]
    unfold canonicalizePropertyType
    split <;> rfl
  obtain ⟨v, hv⟩ : ∃ v, (s.propertyTypes.add PropertyTypeInfo.name s.nextPropNameId
      stored).get? s.nextPropNameId = some v := by
    rw [Registry.get?_add, if_pos rfl]
    cases s.propertyTypes.get? s.nextPropNameId <;> exact ⟨_, rfl⟩
  simp only [Schema.freePropertyType, hv]
  cases hget : s.propertyTypes.get? s.nextPropNameId with
  | none =>
    refine iff_of_true ?_ (by simp [Schema.hasPropertyType, hget])
    ext1
    · rfl
    · funext p
      exact Registry.get?_drop_add PropertyTypeInfo.name s.propertyTypes
        hs.propertyTypes.nodup hget stored p
  | some old =>
    refine iff_of_false (fun hsame => ?_) (by simp [Schema.hasPropertyType, hget])
    have htype := congrFun (congrArg SchemaReading.types hsame) s.nextPropNameId
    have hnew : some stored = s.propertyTypes.get? s.nextPropNameId :=
      (Registry.get?_drop_add_taken PropertyTypeInfo.name s.propertyTypes
        hs.propertyTypes.nodup hget stored).symm.trans htype
    exact hs.propertyTypes.name_ne (hs.byName_of_findPropertyTypeLocked hfind) hnew.symm hname

theorem leavesNothing_createPropertyType (info : PropertyTypeInfo) :
    db.LeavesNothing (.createPropertyType info) ↔ db.RefusalSafe (.createPropertyType info) := by
  unfold LeavesNothing RefusalSafe
  simp only [apply]
  unfold createPropertyType
  by_cases hgate : db.refusesWrites = true
  · simp [hgate]
  rw [if_neg hgate]
  have hgate' : db.refusesWrites = false := by simpa using hgate
  by_cases hpass : isBlank info.name = false ∧
      (validatePropertyTypeDeclaration info).isError = false ∧
      db.schema.findPropertyTypeLocked info.name = kNoPropName
  swap
  · obtain ⟨status, heq, herr⟩ | heq := db.schema.createPropertyType_cases info
    · rw [heq]
      simp only [herr, if_true]
      exact iff_of_true (fun _ => trivial) fun _ hblank hvalid hfind =>
        absurd ⟨hblank, hvalid, hfind⟩ hpass
    · unfold Schema.createPropertyType at heq
      split at heq
      · simp at heq
      next hblank =>
      split at heq
      · next hvalid =>
          simp only [Prod.mk.injEq] at heq
          rw [heq.2.1] at hvalid
          cases hvalid
      next hvalid =>
      split at heq
      · simp at heq
      next hfind =>
      exact absurd ⟨by simpa using hblank, by simpa using hvalid, not_not.mp hfind⟩ hpass
  obtain ⟨hblank, hvalid, hfind⟩ := hpass
  have hback := reading_freePropertyType_createPropertyType h.sound.schema hblank hvalid hfind
  have heq : db.schema.createPropertyType info =
      ((db.schema.createPropertyType info).1, .ok, db.schema.nextPropNameId) := by
    simp [Schema.createPropertyType, hblank, hvalid, hfind]
  rw [heq]
  obtain ⟨tx', hpush, -⟩ := ({ db with schema := (db.schema.createPropertyType info).1 } :
    Database).push_spec (.propertyTypeCreated db.schema.nextPropNameId)
  simp only [hpush]
  rw [← hback]
  change _ ↔ _ → _ → _ → _ → db.hasRoom db.sizes.journalEntry = true ∨ _
  have hsame : hasRoom { db with schema := (db.schema.createPropertyType info).1 }
      ((JournalEntry.propertyTypeCreated db.schema.nextPropNameId).approximateBytes db.sizes) =
        db.hasRoom db.sizes.journalEntry := rfl
  simp only [hsame, hgate', hblank, hvalid, hfind, true_imp_iff]
  cases hroom : db.hasRoom db.sizes.journalEntry with
  | true => simp [GdiStatus.isError]
  | false =>
    simp only [GdiStatus.isError, Bool.false_eq_true, if_false, false_or, true_imp_iff]
    exact ⟨fun hread => congrArg Reading.schema hread, fun hread => congrArg (Reading.mk _) hread⟩

omit h in
theorem leavesNothing_updateLabel (label : LabelId) (newName : Bytes) :
    db.LeavesNothing (.updateLabel label newName) := by
  unfold LeavesNothing
  simp only [apply]
  unfold updateLabel
  split
  · exact fun _ => rfl
  split
  · exact fun _ => rfl
  obtain ⟨tx', hpush, -⟩ := db.push_spec (.labelRenamed label (db.schema.labelName label))
  simp only [hpush]
  split
  swap
  · exact fun _ => rfl
  unfold Schema.renameLabel
  split
  · exact fun _ => rfl
  split
  · exact fun _ => rfl
  simp only
  split
  · exact fun _ => rfl
  split
  · exact fun _ => rfl
  · intro herr
    cases herr

omit h in
theorem leavesNothing_freeLabel (label : LabelId) : db.LeavesNothing (.freeLabel label) := by
  unfold LeavesNothing
  simp only [apply]
  unfold freeLabel
  split
  · exact fun _ => rfl
  split
  · exact fun _ => rfl
  next hhas =>
  split
  · exact fun _ => rfl
  obtain ⟨tx', hpush, -⟩ := db.push_spec (.labelFreed label (db.schema.labelName label))
  simp only [hpush]
  split
  swap
  · exact fun _ => rfl
  obtain ⟨name, hget⟩ : ∃ name, db.schema.labels.get? label = some name :=
    Option.ne_none_iff_exists'.mp (by simpa [Schema.hasLabel] using hhas)
  have hstatus : (db.schema.freeLabel label).2 = .ok := by simp [Schema.freeLabel, hget]
  simp [hstatus, GdiStatus.isError]

omit h in
theorem leavesNothing_updatePropertyType (property : PropNameId) (info : PropertyTypeInfo) :
    db.LeavesNothing (.updatePropertyType property info) := by
  unfold LeavesNothing
  simp only [apply]
  unfold updatePropertyType
  split
  · exact fun _ => rfl
  split
  · exact fun _ => rfl
  split
  · exact fun _ => rfl
  split
  · exact fun _ => rfl
  obtain ⟨tx', hpush, -⟩ :=
    db.push_spec (.propertyTypeUpdated property (db.schema.propertyType property))
  simp only [hpush]
  split
  swap
  · exact fun _ => rfl
  obtain ⟨status, heq, -⟩ | ⟨old, -, -, heq⟩ := db.schema.updatePropertyType_cases property info
    (propertyValuesExist { db with tx := tx' } property)
  · rw [heq]
    exact fun _ => rfl
  · rw [heq]
    intro herr
    cases herr

omit h in
theorem leavesNothing_freePropertyType (property : PropNameId) :
    db.LeavesNothing (.freePropertyType property) := by
  unfold LeavesNothing
  simp only [apply]
  unfold freePropertyType
  split
  · exact fun _ => rfl
  split
  · exact fun _ => rfl
  next hhas =>
  obtain ⟨tx', hpush, -⟩ :=
    db.push_spec (.propertyTypeFreed property (db.schema.propertyType property))
  simp only [hpush]
  split
  swap
  · exact fun _ => rfl
  obtain ⟨info, hget⟩ : ∃ info, db.schema.propertyTypes.get? property = some info :=
    Option.ne_none_iff_exists'.mp (by simpa [Schema.hasPropertyType] using hhas)
  have hstatus : (db.schema.freePropertyType property).2 = .ok := by
    simp [Schema.freePropertyType, hget]
  simp [hstatus, GdiStatus.isError]

/-- Exactly the commands that meet the condition leave nothing behind when they refuse. -/
theorem leavesNothing_iff (command : Command) :
    db.LeavesNothing command ↔ db.RefusalSafe command := by
  have always : ∀ {command : Command}, db.LeavesNothing command → db.RefusalSafe command →
      (db.LeavesNothing command ↔ db.RefusalSafe command) := fun h₁ h₂ => iff_of_true h₁ h₂
  cases command with
  | createVertex key labels properties minted => exact leavesNothing_createVertex h ..
  | getOrCreateVertex key labels properties minted =>
    exact always (leavesNothing_getOrCreateVertex h key labels properties minted) trivial
  | freeVertex uid => exact leavesNothing_freeVertex h uid
  | freeVertexGuarded uid => exact leavesNothing_freeVertexGuarded h uid
  | addLabel uid label =>
    refine always (reading_editVertex_error fun v hv => ?_) trivial
    simp only [VertexEdit.apply, Vertex.addLabel] at hv ⊢
    split at hv <;> simp_all [GdiStatus.isError]
  | removeLabel uid label =>
    refine always (reading_editVertex_error fun v hv => ?_) trivial
    simp only [VertexEdit.apply, Vertex.removeLabel] at hv ⊢
    split at hv <;> simp_all [GdiStatus.isError]
  | addProperty uid name value =>
    refine always (reading_editVertex_error fun v hv => ?_) trivial
    simp only [VertexEdit.apply, Vertex.addProperty] at hv ⊢
    split at hv <;> simp_all [GdiStatus.isError]
  | setProperty uid name value =>
    refine always (reading_editVertex_error fun v hv => ?_) trivial
    simp only [VertexEdit.apply, Vertex.setProperty] at hv ⊢
    split at hv <;> simp_all [GdiStatus.isError]
  | updateProperty uid name value =>
    exact always (reading_editVertex_error fun v hv => by cases hv) trivial
  | removeProperties uid names =>
    exact always (reading_editVertex_error fun v hv => by cases hv) trivial
  | edgeCreate origin target direction labels properties chosenUid minted =>
    exact always (leavesNothing_edgeCreate origin target direction labels properties chosenUid
      minted) trivial
  | edgeFree edge => exact always (reading_changeEdge_error reading_edgeFree_error) trivial
  | setEdgeOrigin edge origin =>
    exact always (reading_changeEdge_error reading_moveEdgeEndpoint_error) trivial
  | setEdgeTarget edge target =>
    exact always (reading_changeEdge_error reading_moveEdgeEndpoint_error) trivial
  | setEdgeDirection edge direction =>
    exact always (reading_changeEdge_error reading_perform_error) trivial
  | addEdgeLabel edge label =>
    exact always (reading_changeEdge_error reading_perform_error) trivial
  | removeEdgeLabel edge label =>
    exact always (reading_changeEdge_error reading_perform_error) trivial
  | addEdgeProperty edge name value =>
    exact always (reading_changeEdge_error reading_perform_error) trivial
  | setEdgeProperty edge name value =>
    exact always (reading_changeEdge_error reading_perform_error) trivial
  | updateEdgeProperty edge name value =>
    exact always (reading_changeEdge_error reading_perform_error) trivial
  | removeEdgeProperties edge names =>
    exact always (reading_changeEdge_error reading_perform_error) trivial
  | createLabel name => exact leavesNothing_createLabel h name
  | updateLabel label newName => exact always (leavesNothing_updateLabel label newName) trivial
  | freeLabel label => exact always (leavesNothing_freeLabel label) trivial
  | createPropertyType info => exact leavesNothing_createPropertyType h info
  | updatePropertyType property info =>
    exact always (leavesNothing_updatePropertyType property info) trivial
  | freePropertyType property => exact always (leavesNothing_freePropertyType property) trivial

end Refusal

end Database

end KimixNative.GraphDb
