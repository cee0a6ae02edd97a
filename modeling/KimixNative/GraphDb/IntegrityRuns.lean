import KimixNative.GraphDb.Integrity

/-!
# Referential integrity over whole runs

The schema commands close the list: an entry that is added or renamed disturbs nothing, a
declaration that changes under live values is a relaxation, and a free strips every carrier.
A transaction remembers the reading it began with; its journal, rolled back, leads below that
one, so an abort keeps integrity whatever was recorded or lost in between.
-/

namespace KimixNative.GraphDb

/-- A single value, an array, or a fixed size: what the check of a value can judge. -/
def PropertyTypeInfo.ContainerNamed (info : PropertyTypeInfo) : Prop :=
  info.container = .single ∨ info.container = .array ∨ info.sizeType = .fixed

variable {info : PropertyTypeInfo}

variable {property : PropNameId}

theorem PropertyTypeInfo.Stored.checkable (stored : info.Stored property)
    (named : info.ContainerNamed) : info.Checkable := by
  obtain hsingle | harray | hfixed := named
  · have hvalid := stored.valid
    unfold validatePropertyTypeDeclaration at hvalid
    rw [if_pos hsingle] at hvalid
    refine .inr ?_
    by_contra hsize
    simp only [hsize, ne_eq, not_false_eq_true, if_true] at hvalid
    split at hvalid
    · cases hvalid
    · split at hvalid <;> cases hvalid
  · exact .inl harray
  · exact .inr hfixed

theorem canonicalize_named (named : info.ContainerNamed) (property : PropNameId) :
    ({ canonicalizePropertyType info with nameId := property } : PropertyTypeInfo).ContainerNamed := by
  unfold canonicalizePropertyType
  split <;> exact named

namespace Reading.Integral

variable {R : Reading} (h : R.Integral)
include h

theorem setLabel (label : LabelId) (name : Bytes) :
    (R.mapSchema (·.setLabel label (some name))).Integral := by
  refine h.ofSchema ?_ (fun n v _ hadmits => hadmits) h.types
  intro l hl
  simp only [SchemaReading.setLabel, Function.update_apply]
  split
  · rfl
  · exact hl

variable {G : GraphReading}

/-- A label that nothing carries can go. -/
theorem dropLabel (hb : G.Below R.graph) (label : LabelId)
    (hv : ∀ u x, G.vertices u = some x → label ∉ x.labels ∧ x.keyLabel ≠ label)
    (he : ∀ d e, G.edges d = some e → label ∉ e.labels) :
    Reading.Integral ⟨G, R.schema.setLabel label none⟩ := by
  have hkept : Reading.Integral ⟨G, R.schema⟩ := h.below ⟨hb, rfl⟩
  have hother : ∀ l, l ≠ label → (R.schema.labels l).isSome →
      ((R.schema.setLabel label none).labels l).isSome := by
    intro l hne hl
    simpa [SchemaReading.setLabel, hne] using hl
  refine ⟨?_, ?_, h.types⟩
  · intro u x hx
    have hfits := hkept.vertices u x hx
    obtain ⟨hlabels, hkey⟩ := hv u x hx
    refine ⟨?_, fun hne => hother _ hkey (hfits.key hne), hfits.values⟩
    intro l hl
    exact hother l (fun heq => hlabels (heq ▸ hl)) (hfits.labels l hl)
  · intro d e hd
    have hfits := hkept.edges d e hd
    refine ⟨?_, hfits.values⟩
    intro l hl
    exact hother l (fun heq => he d e hd (heq ▸ hl)) (hfits.labels l hl)

/-- A property type without values can go. -/
theorem dropType (hb : G.Below R.graph) (property : PropNameId)
    (hv : ∀ u x, G.vertices u = some x → x.properties property = none)
    (he : ∀ d e, G.edges d = some e → e.properties property = none) :
    Reading.Integral ⟨G, R.schema.setType property none⟩ := by
  have hkept : Reading.Integral ⟨G, R.schema⟩ := h.below ⟨hb, rfl⟩
  have hother : ∀ n, n ≠ property → (R.schema.setType property none).types n =
      R.schema.types n := by
    intro n hne
    simp [SchemaReading.setType, hne]
  refine hkept.ofSchema (fun l hl => hl) ?_ ?_
  · rintro n v hcarried ⟨info, hinfo, hmatch⟩
    have hne : n ≠ property := by
      rintro rfl
      obtain ⟨u, x, hx, hn⟩ | ⟨d, e, hd, hn⟩ := hcarried
      · rw [hv u x hx] at hn
        cases hn
      · rw [he d e hd] at hn
        cases hn
    exact ⟨info, (hother n hne).trans hinfo, hmatch⟩
  · intro n info hinfo
    by_cases hne : n = property
    · subst hne
      simp [SchemaReading.setType] at hinfo
    · exact h.types n info ((hother n hne).symm.trans hinfo)

/-- A declaration that admits what is carried. -/
theorem setType (property : PropNameId) (checkable : info.Checkable)
    (values : ∀ v, ((∃ u x, R.graph.vertices u = some x ∧ x.properties property = some v) ∨ ∃ d e,
      R.graph.edges d = some e ∧ e.properties property = some v) → R.schema.Admits property v →
      v.matchesDeclaration info.container info.data info.sizeType info.count = true) :
    (R.mapSchema (·.setType property (some info))).Integral := by
  refine h.ofSchema (fun l hl => hl) ?_ ?_
  · intro n v hcarried hadmits
    by_cases hne : n = property
    · subst hne
      exact ⟨info, by simp [SchemaReading.setType], values v hcarried hadmits⟩
    · obtain ⟨old, hold, hmatch⟩ := hadmits
      exact ⟨old, by simpa [SchemaReading.setType, hne] using hold, hmatch⟩
  · intro n old hold
    simp only [SchemaReading.setType, Function.update_apply] at hold
    split at hold
    · cases hold
      exact checkable
    · exact h.types n old hold

end Reading.Integral

namespace Database

variable {db : Database}

/-! ## What a strip leaves -/

/-- An edge loop over distinct ids leaves every carrier as the edit makes it, and the rest
alone. -/
theorem stripEdges_result {carries : Edge → Bool} {edit : EdgeEdit} {Q : Edge → Edge → Prop}
    (hperform : ∀ (g : Graph) d e, g.edges.find? d = some e → carries e = true →
      ∃ e', Q e e' ∧ (edit.perform g d).1 = g.updateEdge d fun _ => e')
    {ids : List Guid} (nodup : ids.Nodup) (db : Database) :
    (ids.foldl (stripEdge carries edit) db).graph.vertices = db.graph.vertices ∧
      (ids.foldl (stripEdge carries edit) db).schema = db.schema ∧
      ∀ d e', (ids.foldl (stripEdge carries edit) db).graph.edges.find? d = some e' →
        ∃ e, db.graph.edges.find? d = some e ∧
          ((d ∈ ids → carries e = false) ∧ e' = e ∨ d ∈ ids ∧ Q e e') := by
  induction ids generalizing db with
  | nil => exact ⟨rfl, rfl, fun d e' he' => ⟨e', he', .inl ⟨by simp, rfl⟩⟩⟩
  | cons edge rest ih =>
    obtain ⟨hhead, hrest⟩ := List.nodup_cons.mp nodup
    obtain ⟨hv, -, hs, -, hothers⟩ := stripEdge_frame carries edit db edge
    obtain ⟨hv', hs', hresult⟩ := ih hrest (stripEdge carries edit db edge)
    refine ⟨hv'.trans hv, hs'.trans hs, ?_⟩
    intro d e' he'
    obtain ⟨e₁, he₁, hlater⟩ := hresult d e' he'
    by_cases hd : d = edge
    swap
    · rw [hothers d hd] at he₁
      refine ⟨e₁, he₁, ?_⟩
      obtain ⟨hkept, heq⟩ | ⟨hmem, hq⟩ := hlater
      · exact .inl ⟨fun hmem => hkept ((List.mem_cons.mp hmem).resolve_left hd), heq⟩
      · exact .inr ⟨List.mem_cons_of_mem _ hmem, hq⟩
    -- the later turns leave the edge at the head alone
    subst hd
    obtain rfl : e' = e₁ := by
      obtain ⟨-, heq⟩ | ⟨hmem, -⟩ := hlater
      · exact heq
      · exact absurd hmem hhead
    unfold stripEdge at he₁
    cases he : db.graph.edges.find? d with
    | none =>
      simp only [he] at he₁
      cases he₁
    | some e =>
      refine ⟨e, rfl, ?_⟩
      obtain ⟨tx', hpush, -⟩ := db.push_spec (.edgeState (e.record d))
      simp only [he, hpush] at he₁
      split at he₁
      · next hcarries =>
          obtain ⟨e₂, hq, heq⟩ := hperform db.graph d e he hcarries
          rw [heq, Graph.find?_updateEdge, if_pos rfl, he] at he₁
          cases he₁
          exact .inr ⟨List.mem_cons_self, hq⟩
      · next hcarries =>
          rw [he] at he₁
          cases he₁
          exact .inl ⟨fun _ => by simpa using hcarries, rfl⟩

/-- A strip whose edits only take out leaves every entity below what it was, and without
what it carried. -/
theorem strip_result {carriesV : Vertex → Bool} {editV : VertexEdit} {carriesE : Edge → Bool}
    {editE : EdgeEdit} {Q : Edge → Edge → Prop}
    (hperform : ∀ (g : Graph) d e, g.edges.find? d = some e → carriesE e = true →
      ∃ e', Q e e' ∧ (editE.perform g d).1 = g.updateEdge d fun _ => e') (db : Database) :
    (db.strip carriesV editV carriesE editE).schema = db.schema ∧
      (∀ u v', (db.strip carriesV editV carriesE editE).graph.vertices.find? u = some v' →
        ∃ v, db.graph.vertices.find? u = some v ∧
          v' = if carriesV v then editV.apply v else v) ∧
      ∀ d e', (db.strip carriesV editV carriesE editE).graph.edges.find? d = some e' →
        ∃ e, db.graph.edges.find? d = some e ∧ (carriesE e = false ∧ e' = e ∨ Q e e') := by
  have hvertices := find?_stripVertices carriesV editV db.graph.vertices.keys_nodup db
  obtain ⟨hedges, -, hschema, -⟩ := stripVertices_frame carriesV editV db.graph.vertices.keys db
  obtain ⟨hv, hs, hresult⟩ := stripEdges_result hperform
    (Table.keys_nodup (db.graph.vertices.keys.foldl (stripVertex carriesV editV) db).graph.edges)
    (db.graph.vertices.keys.foldl (stripVertex carriesV editV) db)
  refine ⟨hs.trans hschema, ?_, ?_⟩
  · intro u v' hv'
    unfold strip at hv'
    simp only [hv, hvertices] at hv'
    split at hv'
    · obtain ⟨v, hfind, heq⟩ := Option.map_eq_some_iff.mp hv'
      exact ⟨v, hfind, heq.symm⟩
    · next hmem => exact absurd (Table.mem_keys.mpr ⟨v', hv'⟩) hmem
  · intro d e' he'
    obtain ⟨e, he, hkept | hq⟩ := hresult d e' he'
    · refine ⟨e, hedges ▸ he, .inl ⟨hkept.1 (Table.mem_keys.mpr ⟨e, he⟩), hkept.2⟩⟩
    · exact ⟨e, hedges ▸ he, .inr hq.2⟩

/-! ## The schema commands -/

section SchemaCommands

variable (h : db.WellFormed) (hi : db.reading.Integral)
include h hi

theorem integral_createLabel (name : Bytes) (ids : db.FreshIds) :
    (db.createLabel name).1.reading.Integral := by
  have hfresh : db.schema.labels.get? db.schema.nextLabelId = none := by
    simpa [Schema.hasLabel] using ids.label_free
  have hwf := h.sound.schema.createLabel name ids.label_ne ids.label_free
  unfold createLabel
  split
  · exact hi
  obtain ⟨status, heq, herr⟩ | ⟨-, heq⟩ := db.schema.createLabel_cases name
  · rw [heq]
    simp only [herr, if_true]
    exact hi
  have hread := Schema.reading_addLabel (s := db.schema) (db.schema.nextLabelId + 1)
    (db.schema.version + 1) name hfresh
  obtain ⟨tx', hpush, -⟩ := ({ db with schema := (db.schema.createLabel name).1 } :
    Database).push_spec (.labelCreated db.schema.nextLabelId)
  rw [heq] at hwf hpush ⊢
  simp only [GdiStatus.isError, Bool.false_eq_true, if_false, hpush]
  split
  · simp only [reading, hread]
    exact hi.setLabel db.schema.nextLabelId name
  · simp only [reading]
    rw [Schema.reading_freeLabel hwf, hread]
    have hnone : db.schema.reading.labels db.schema.nextLabelId = none := hfresh
    have hback : (db.schema.reading.setLabel db.schema.nextLabelId (some name)).setLabel
        db.schema.nextLabelId none = db.schema.reading := by
      simp only [SchemaReading.setLabel, Function.update_idem, ← hnone, Function.update_eq_self]
    rw [hback]
    exact hi

theorem integral_updateLabel (label : LabelId) (newName : Bytes) :
    (db.updateLabel label newName).1.reading.Integral := by
  have hrenamed : Reading.Integral
      ⟨db.graph.reading, (db.schema.renameLabel label newName).1.reading⟩ := by
    rw [Schema.reading_renameLabel h.sound.schema]
    unfold SchemaReading.renameLabel
    split
    · exact hi
    · exact hi.setLabel label newName
  unfold updateLabel
  split
  · exact hi
  split
  · exact hi
  obtain ⟨tx', hpush, -⟩ := db.push_spec (.labelRenamed label (db.schema.labelName label))
  simp only [hpush]
  split
  · exact hrenamed
  · exact hi

omit h hi in
/-- No entity carries the label twice. -/
def CarriedOnce (db : Database) (label : LabelId) : Prop :=
  (∀ p ∈ db.graph.vertices.toList, p.2.labels.count label ≤ 1) ∧
    ∀ p ∈ db.graph.edges.toList, p.2.labels.count label ≤ 1

variable {label : LabelId}

omit h hi in
/-- Erasing one copy erases them all. -/
theorem not_mem_erase_of_count {labels : List LabelId} (once : labels.count label ≤ 1) :
    label ∉ labels.erase label := by
  have hcount := List.count_erase_self (a := label) (l := labels)
  exact List.count_eq_zero.mp (by omega)

omit h in
theorem integral_stripLabel (once : db.CarriedOnce label) (key : db.labelIsAKey label = false)
    (tx' : Option Transaction) (s : Schema)
    (hread : s.reading = db.schema.reading.setLabel label none) :
    (stripLabel { db with schema := s, tx := tx' } label).reading.Integral := by
  have hperform : ∀ (g : Graph) d e, g.edges.find? d = some e →
      e.labels.contains label = true →
      ∃ e', (e'.labels = e.labels.erase label ∧ e'.properties = e.properties) ∧
        ((EdgeEdit.removeLabel label).perform g d).1 = g.updateEdge d fun _ => e' := by
    intro g d e he hcarries
    refine ⟨({ e with labels := e.labels.erase label } : Edge).markDirty, ⟨rfl, rfl⟩, ?_⟩
    simp only [EdgeEdit.perform, Graph.edgeRemoveLabel, Graph.editEdge, he, hcarries, if_true]
  obtain ⟨hschema, hvertices, hedges⟩ := @strip_result (·.labels.contains label)
    (.removeLabel label) _ _ _ hperform { db with schema := s, tx := tx' }
  have hlabels : ∀ v : Vertex, (if v.labels.contains label then
      (VertexEdit.removeLabel label).apply v else v).labels = v.labels.erase label := by
    intro v
    split
    · next hmem =>
        have hmem' : label ∈ v.labels := by simpa using hmem
        simp only [VertexEdit.apply, Vertex.removeLabel, if_pos hmem']
        rfl
    · next hmem => exact (List.erase_of_not_mem (by simpa using hmem)).symm
  have hsame : ∀ v : Vertex, (if v.labels.contains label then
      (VertexEdit.removeLabel label).apply v else v).properties = v.properties ∧
        (if v.labels.contains label then
          (VertexEdit.removeLabel label).apply v else v).keyLabel = v.keyLabel := by
    intro v
    split
    · simp only [VertexEdit.apply, Vertex.removeLabel]
      split <;> exact ⟨rfl, rfl⟩
    · exact ⟨rfl, rfl⟩
  have hfinal : (stripLabel { db with schema := s, tx := tx' } label).reading =
      ⟨(stripLabel { db with schema := s, tx := tx' } label).graph.reading,
        db.schema.reading.setLabel label none⟩ := by
    rw [← hread]
    exact congrArg (Reading.mk _) (congrArg Schema.reading hschema)
  rw [hfinal]
  refine hi.dropLabel ⟨?_, ?_⟩ label ?_ ?_
  · intro u x hx
    obtain ⟨v', hv', rfl⟩ := Option.map_eq_some_iff.mp hx
    obtain ⟨v, hv, rfl⟩ := hvertices u v' hv'
    refine ⟨v.reading, by simp [reading, hv], (hsame v).2, ?_, ?_⟩
    · intro l hl
      have hl' : l ∈ v.labels.erase label := hlabels v ▸ hl
      exact List.mem_of_mem_erase hl'
    · intro n y hn
      have hn' : v.properties.find? n = some y := (hsame v).1 ▸ hn
      exact hn'
  · intro d x hx
    obtain ⟨e', he', rfl⟩ := Option.map_eq_some_iff.mp hx
    obtain ⟨e, he, ⟨-, rfl⟩ | ⟨hl, hp⟩⟩ := hedges d e' he'
    · exact ⟨e'.reading, by simp [reading, he], .refl _⟩
    · refine ⟨e.reading, by simp [reading, he], ?_, ?_⟩
      · intro l hmem
        have hmem' : l ∈ e.labels.erase label := hl ▸ hmem
        exact List.mem_of_mem_erase hmem'
      · intro n y hn
        have hn' : e.properties.find? n = some y := hp ▸ hn
        exact hn'
  · intro u x hx
    obtain ⟨v', hv', rfl⟩ := Option.map_eq_some_iff.mp hx
    obtain ⟨v, hv, rfl⟩ := hvertices u v' hv'
    have honce := once.1 (u, v) (Table.mem_toList.mpr hv)
    refine ⟨fun hmem => not_mem_erase_of_count honce (hlabels v ▸ hmem), fun hkey => ?_⟩
    have hkey' : v.keyLabel = label := (hsame v).2 ▸ hkey
    unfold labelIsAKey at key
    rw [List.any_eq_false] at key
    exact key (u, v) (Table.mem_toList.mpr hv) (by simpa using hkey')
  · intro d x hx
    obtain ⟨e', he', rfl⟩ := Option.map_eq_some_iff.mp hx
    obtain ⟨e, he, ⟨hkept, rfl⟩ | ⟨hl, -⟩⟩ := hedges d e' he'
    · intro hmem
      have hmem' : label ∈ e'.labels := hmem
      simp [hmem'] at hkept
    · intro hmem
      have honce := once.2 (d, e) (Table.mem_toList.mpr he)
      have hmem' : label ∈ e.labels.erase label := hl ▸ hmem
      exact not_mem_erase_of_count honce hmem'

theorem integral_freeLabel (label : LabelId) (once : db.CarriedOnce label) :
    (db.freeLabel label).1.reading.Integral := by
  unfold freeLabel
  split
  · exact hi
  split
  · exact hi
  next hhas =>
  split
  · exact hi
  next hkey =>
  obtain ⟨tx', hpush, -⟩ := db.push_spec (.labelFreed label (db.schema.labelName label))
  simp only [hpush]
  split
  swap
  · exact hi
  obtain ⟨name, hget⟩ : ∃ name, db.schema.labels.get? label = some name :=
    Option.ne_none_iff_exists'.mp (by simpa [Schema.hasLabel] using hhas)
  have hstatus : (db.schema.freeLabel label).2 = .ok := by simp [Schema.freeLabel, hget]
  simp only [hstatus, GdiStatus.isError, Bool.false_eq_true, if_false]
  exact integral_stripLabel hi once (by simpa using hkey) tx' _
    (Schema.reading_freeLabel h.sound.schema label)

theorem integral_createPropertyType (ids : db.FreshIds) (named : info.ContainerNamed) :
    (db.createPropertyType info).1.reading.Integral := by
  have hfresh : db.schema.propertyTypes.get? db.schema.nextPropNameId = none := by
    simpa [Schema.hasPropertyType] using ids.property_free
  have hwf := h.sound.schema.createPropertyType info ids.property_ne ids.property_free
  unfold createPropertyType
  split
  · exact hi
  obtain ⟨status, heq, herr⟩ | heq := db.schema.createPropertyType_cases info
  · rw [heq]
    simp only [herr, if_true]
    exact hi
  have hread := Schema.reading_addPropertyType (s := db.schema) (db.schema.nextPropNameId + 1)
    (db.schema.version + 1)
    { canonicalizePropertyType info with nameId := db.schema.nextPropNameId } hfresh
  obtain ⟨tx', hpush, -⟩ := ({ db with schema := (db.schema.createPropertyType info).1 } :
    Database).push_spec (.propertyTypeCreated db.schema.nextPropNameId)
  rw [heq] at hwf hpush ⊢
  simp only [GdiStatus.isError, Bool.false_eq_true, if_false, hpush]
  split
  · simp only [reading, hread]
    have hentry := congrArg (SchemaReading.types · db.schema.nextPropNameId) hread
    simp only [SchemaReading.setType, Function.update_self] at hentry
    obtain ⟨-, hstored⟩ := hwf.propertyTypeEntries _ _ hentry
    refine hi.setType _ (hstored.checkable (canonicalize_named named _)) ?_
    rintro v - ⟨old, hold, -⟩
    rw [show db.reading.schema.types db.schema.nextPropNameId = none from hfresh] at hold
    cases hold
  · simp only [reading]
    rw [Schema.reading_freePropertyType hwf, hread]
    have hnone : db.schema.reading.types db.schema.nextPropNameId = none := hfresh
    have hback : (db.schema.reading.setType db.schema.nextPropNameId (some
        { canonicalizePropertyType info with nameId := db.schema.nextPropNameId })).setType
        db.schema.nextPropNameId none = db.schema.reading := by
      simp only [SchemaReading.setType, Function.update_idem, ← hnone, Function.update_eq_self]
    rw [hback]
    exact hi

omit h hi in
theorem not_carried_of_propertyValuesExist (hnone : db.propertyValuesExist property = false)
    {v : PropertyValue} :
    ¬((∃ u x, db.reading.graph.vertices u = some x ∧ x.properties property = some v) ∨
      ∃ d e, db.reading.graph.edges d = some e ∧ e.properties property = some v) := by
  unfold propertyValuesExist at hnone
  obtain ⟨hvertices, hedges⟩ := Bool.or_eq_false_iff.mp hnone
  rw [List.any_eq_false] at hvertices hedges
  rintro (⟨u, x, hx, hn⟩ | ⟨d, e, he, hn⟩)
  · obtain ⟨w, hw, rfl⟩ := Option.map_eq_some_iff.mp hx
    have hn' : w.properties.find? property = some v := hn
    exact hvertices (u, w) (Table.mem_toList.mpr hw) (by simp [hn'])
  · obtain ⟨w, hw, rfl⟩ := Option.map_eq_some_iff.mp he
    have hn' : w.properties.find? property = some v := hn
    exact hedges (d, w) (Table.mem_toList.mpr hw) (by simp [hn'])

theorem integral_updatePropertyType (property : PropNameId) (named : info.ContainerNamed) :
    (db.updatePropertyType property info).1.reading.Integral := by
  have hupdated : Reading.Integral ⟨db.graph.reading, (db.schema.updatePropertyType property info
      (db.propertyValuesExist property)).1.reading⟩ := by
    have hwf := h.sound.schema.updatePropertyType property info (db.propertyValuesExist property)
    obtain ⟨status, heq, -⟩ | ⟨old, hold, hrelax, heq⟩ :=
      db.schema.updatePropertyType_cases property info (db.propertyValuesExist property)
    · rw [heq]
      exact hi
    have hread := Schema.reading_replacePropertyType (s := db.schema) (db.schema.version + 1)
      { canonicalizePropertyType info with nameId := property } hold
    rw [heq] at hwf ⊢
    have hentry := congrArg (SchemaReading.types · property) hread
    simp only [SchemaReading.setType, Function.update_self] at hentry
    obtain ⟨-, hstored⟩ := hwf.propertyTypeEntries _ _ hentry
    have hcheckable := hstored.checkable (canonicalize_named named property)
    have hvalid : isValidSizeType (canonicalizePropertyType info).sizeType = true := by
      have hv := hstored.valid
      unfold validatePropertyTypeDeclaration at hv
      by_contra hsize
      rw [if_pos (by simpa using hsize)] at hv
      cases hv
    simp only
    rw [hread]
    refine hi.setType property hcheckable ?_
    rintro v hcarried ⟨old', hold', hmatch⟩
    obtain rfl : old = old' := Option.some.inj (hold.symm.trans hold')
    by_cases hshape : Schema.shapeChanged old (canonicalizePropertyType info) = true
    · cases hvalues : db.propertyValuesExist property with
      | false => exact absurd hcarried (not_carried_of_propertyValuesExist hvalues)
      | true => exact v.matchesDeclaration_relax (hrelax hshape hvalues) hvalid hcheckable hmatch
    · simp only [Schema.shapeChanged, ne_eq, Bool.or_eq_true, decide_eq_true_eq, not_or,
        not_not] at hshape
      obtain ⟨⟨⟨hcontainer, hdata⟩, hsize⟩, hcount⟩ := hshape
      rwa [hcontainer, hdata, hsize, hcount] at hmatch
  unfold updatePropertyType
  split
  · exact hi
  split
  · exact hi
  split
  · exact hi
  split
  · exact hi
  obtain ⟨tx', hpush, -⟩ :=
    db.push_spec (.propertyTypeUpdated property (db.schema.propertyType property))
  simp only [hpush]
  split
  · exact hupdated
  · exact hi

omit h in
theorem integral_stripPropertyType (property : PropNameId) (tx' : Option Transaction) (s : Schema)
    (hread : s.reading = db.schema.reading.setType property none) :
    (stripPropertyType { db with schema := s, tx := tx' } property).reading.Integral := by
  have hperform : ∀ (g : Graph) d e, g.edges.find? d = some e →
      (e.properties.find? property).isSome = true →
      ∃ e', (e'.labels = e.labels ∧ e'.properties = e.properties.erase property) ∧
        ((EdgeEdit.removeProperties [property]).perform g d).1 = g.updateEdge d fun _ => e' := by
    intro g d e he _
    refine ⟨({ e with properties := e.properties.erase property } : Edge).markDirty,
      ⟨rfl, rfl⟩, ?_⟩
    simp only [EdgeEdit.perform, Graph.edgeRemoveProperties, Graph.editEdge, he,
      List.foldl_cons, List.foldl_nil]
  obtain ⟨hschema, hvertices, hedges⟩ := @strip_result
    (fun v => (v.properties.find? property).isSome) (.removeProperties [property]) _ _ _ hperform
    { db with schema := s, tx := tx' }
  have hbag : ∀ (v : Vertex) n, (if (v.properties.find? property).isSome then
      (VertexEdit.removeProperties [property]).apply v else v).properties.find? n =
        if n = property then none else v.properties.find? n := by
    intro v n
    split
    · have herase := PropertyBag.find?_eraseLoop [property] (v.properties, 0) n
      simp only [List.mem_singleton] at herase
      simp only [VertexEdit.apply, Vertex.removeProperties]
      split <;> exact herase
    · next hnone =>
        split
        · next hn =>
            subst hn
            simpa using hnone
        · rfl
  have hsame : ∀ v : Vertex, (if (v.properties.find? property).isSome then
      (VertexEdit.removeProperties [property]).apply v else v).labels = v.labels ∧
        (if (v.properties.find? property).isSome then
          (VertexEdit.removeProperties [property]).apply v else v).keyLabel = v.keyLabel := by
    intro v
    split
    · simp only [VertexEdit.apply, Vertex.removeProperties]
      split <;> exact ⟨rfl, rfl⟩
    · exact ⟨rfl, rfl⟩
  have hfinal : (stripPropertyType { db with schema := s, tx := tx' } property).reading =
      ⟨(stripPropertyType { db with schema := s, tx := tx' } property).graph.reading,
        db.schema.reading.setType property none⟩ := by
    rw [← hread]
    exact congrArg (Reading.mk _) (congrArg Schema.reading hschema)
  rw [hfinal]
  refine hi.dropType ⟨?_, ?_⟩ property ?_ ?_
  · intro u x hx
    obtain ⟨v', hv', rfl⟩ := Option.map_eq_some_iff.mp hx
    obtain ⟨v, hv, rfl⟩ := hvertices u v' hv'
    refine ⟨v.reading, by simp [reading, hv], (hsame v).2, ?_, ?_⟩
    · intro l hl
      have hl' : l ∈ v.labels := (hsame v).1 ▸ hl
      exact hl'
    · intro n y hn
      have hn' := (hbag v n).symm.trans hn
      split at hn'
      · cases hn'
      · exact hn'
  · intro d x hx
    obtain ⟨e', he', rfl⟩ := Option.map_eq_some_iff.mp hx
    obtain ⟨e, he, ⟨-, rfl⟩ | ⟨hl, hp⟩⟩ := hedges d e' he'
    · exact ⟨e'.reading, by simp [reading, he], .refl _⟩
    · refine ⟨e.reading, by simp [reading, he], ?_, ?_⟩
      · intro l hmem
        have hmem' : l ∈ e.labels := hl ▸ hmem
        exact hmem'
      · intro n y hn
        have hn' : e'.properties.find? n = some y := hn
        rw [hp, Table.find?_erase] at hn'
        split at hn'
        · cases hn'
        · exact hn'
  · intro u x hx
    obtain ⟨v', hv', rfl⟩ := Option.map_eq_some_iff.mp hx
    obtain ⟨v, hv, rfl⟩ := hvertices u v' hv'
    exact (hbag v property).trans (if_pos rfl)
  · intro d x hx
    obtain ⟨e', he', rfl⟩ := Option.map_eq_some_iff.mp hx
    obtain ⟨e, he, ⟨hkept, rfl⟩ | ⟨-, hp⟩⟩ := hedges d e' he'
    · have hnone : e'.properties.find? property = none := by simpa using hkept
      exact hnone
    · have hnone : e'.properties.find? property = none := by
        rw [hp, Table.find?_erase_self]
      exact hnone

theorem integral_freePropertyType (property : PropNameId) :
    (db.freePropertyType property).1.reading.Integral := by
  unfold freePropertyType
  split
  · exact hi
  split
  · exact hi
  next hhas =>
  obtain ⟨tx', hpush, -⟩ :=
    db.push_spec (.propertyTypeFreed property (db.schema.propertyType property))
  simp only [hpush]
  split
  swap
  · exact hi
  obtain ⟨info, hget⟩ : ∃ info, db.schema.propertyTypes.get? property = some info :=
    Option.ne_none_iff_exists'.mp (by simpa [Schema.hasPropertyType] using hhas)
  have hstatus : (db.schema.freePropertyType property).2 = .ok := by
    simp [Schema.freePropertyType, hget]
  simp only [hstatus, GdiStatus.isError, Bool.false_eq_true, if_false]
  exact integral_stripPropertyType hi property tx' _
    (Schema.reading_freePropertyType h.sound.schema property)

end SchemaCommands

/-! ## One command -/

/-- The condition on one command. -/
def IntegrityOk (db : Database) : Command → Prop
  | .getOrCreateVertex key labels properties _ => db.CreatesFitting key labels properties
  | .freeLabel label => db.CarriedOnce label
  | .createLabel _ => db.FreshIds
  | .createPropertyType info => db.FreshIds ∧ info.ContainerNamed
  | .updatePropertyType _ info => info.ContainerNamed
  | _ => True

variable {command : Command}

theorem IntegrityOk.keepsIds (ok : db.IntegrityOk command) : db.KeepsIds command := by
  cases command with
  | createLabel name => exact ok
  | createPropertyType info => exact ok.1
  | _ => exact trivial

theorem integral_apply (h : db.WellFormed) (hi : db.reading.Integral) (ok : db.IntegrityOk command) :
    (db.apply command).1.reading.Integral := by
  have hlabel : ∀ label : LabelId, (if db.schema.hasLabel label then GdiStatus.ok
      else .errorLabel).isError = false → ∀ l ∈ [label], db.schema.hasLabel l = true := by
    intro label hok l hl
    rw [List.mem_singleton.mp hl]
    cases hhas : db.schema.hasLabel label with
    | true => rfl
    | false => simp [hhas, GdiStatus.isError] at hok
  have hvalue : ∀ name value, (db.validateProperty name value).isError = false →
      ∀ p ∈ [(name, value)], db.schema.reading.Admits p.1 p.2 := by
    intro name value hok p hp
    rw [List.mem_singleton.mp hp]
    exact admits_of_validateProperty hi hok
  cases command with
  | createVertex key labels properties minted =>
    exact integral_createVertex h hi key labels properties minted
  | getOrCreateVertex key labels properties minted =>
    exact integral_getOrCreateVertex h hi minted ok
  | freeVertex uid => exact integral_freeVertex h hi uid
  | freeVertexGuarded uid => exact integral_freeVertexGuarded h hi uid
  | addLabel uid label =>
    exact integral_editVertex hi uid _ (by simp) (hlabel label) (by simp [VertexEdit.newProperties])
  | removeLabel uid label =>
    exact integral_editVertex hi uid _ (by simp) (by simp [VertexEdit.newLabels])
      (by simp [VertexEdit.newProperties])
  | addProperty uid name value =>
    exact integral_editVertex hi uid _ (by simp) (by simp [VertexEdit.newLabels])
      (hvalue name value)
  | setProperty uid name value =>
    exact integral_editVertex hi uid _ (by simp) (by simp [VertexEdit.newLabels])
      (hvalue name value)
  | updateProperty uid name value =>
    exact integral_editVertex hi uid _ (by simp) (by simp [VertexEdit.newLabels])
      (hvalue name value)
  | removeProperties uid names =>
    exact integral_editVertex hi uid _ (by simp) (by simp [VertexEdit.newLabels])
      (by simp [VertexEdit.newProperties])
  | edgeCreate origin target direction labels properties chosenUid minted =>
    exact integral_edgeCreate hi origin target direction labels properties chosenUid minted
  | edgeFree edge => exact integral_edgeFree hi edge
  | setEdgeOrigin edge origin => exact integral_moveEdgeEndpoint h hi edge origin true
  | setEdgeTarget edge target => exact integral_moveEdgeEndpoint h hi edge target false
  | setEdgeDirection edge direction =>
    exact integral_editEdge hi edge _ (by simp [EdgeEdit.newLabels])
      (by simp [EdgeEdit.newProperties])
  | addEdgeLabel edge label =>
    exact integral_editEdge hi edge _ (hlabel label) (by simp [EdgeEdit.newProperties])
  | removeEdgeLabel edge label =>
    exact integral_editEdge hi edge _ (by simp [EdgeEdit.newLabels])
      (by simp [EdgeEdit.newProperties])
  | addEdgeProperty edge name value =>
    exact integral_editEdge hi edge _ (by simp [EdgeEdit.newLabels]) (hvalue name value)
  | setEdgeProperty edge name value =>
    exact integral_editEdge hi edge _ (by simp [EdgeEdit.newLabels]) (hvalue name value)
  | updateEdgeProperty edge name value =>
    exact integral_editEdge hi edge _ (by simp [EdgeEdit.newLabels]) (hvalue name value)
  | removeEdgeProperties edge names =>
    exact integral_editEdge hi edge _ (by simp [EdgeEdit.newLabels])
      (by simp [EdgeEdit.newProperties])
  | createLabel name => exact integral_createLabel h hi name ok
  | updateLabel label newName => exact integral_updateLabel h hi label newName
  | freeLabel label => exact integral_freeLabel h hi label ok
  | createPropertyType info => exact integral_createPropertyType h hi ok.1 ok.2
  | updatePropertyType property info => exact integral_updatePropertyType h hi property ok
  | freePropertyType property => exact integral_freePropertyType h hi property

/-! ## Runs -/

/-- Every carried label, every key label and every carried value is covered by the schema. -/
structure Integral (db : Database) : Prop where
  vertexLabels : ∀ u v, db.graph.vertices.find? u = some v →
    ∀ l ∈ v.labels, db.schema.hasLabel l = true
  keyLabels : ∀ u v, db.graph.vertices.find? u = some v →
    v.keyLabel ≠ kNoLabel → db.schema.hasLabel v.keyLabel = true
  vertexValues : ∀ u v, db.graph.vertices.find? u = some v →
    ∀ n x, v.properties.find? n = some x → db.schema.reading.Admits n x
  edgeLabels : ∀ d e, db.graph.edges.find? d = some e →
    ∀ l ∈ e.labels, db.schema.hasLabel l = true
  edgeValues : ∀ d e, db.graph.edges.find? d = some e →
    ∀ n x, e.properties.find? n = some x → db.schema.reading.Admits n x

theorem integral_of_reading (hi : db.reading.Integral) : db.Integral := by
  have hvertex : ∀ {u v}, db.graph.vertices.find? u = some v →
      v.reading.Fits db.schema.reading := by
    intro u v hv
    exact hi.vertices u v.reading (by simp [reading, hv])
  have hedge : ∀ {d e}, db.graph.edges.find? d = some e → e.reading.Fits db.schema.reading := by
    intro d e he
    exact hi.edges d e.reading (by simp [reading, he])
  exact ⟨fun _ _ hv => (hvertex hv).labels, fun _ _ hv => (hvertex hv).key,
    fun _ _ hv => (hvertex hv).values, fun _ _ he => (hedge he).labels,
    fun _ _ he => (hedge he).values⟩

/-- Integrity now, and for an open transaction integrity of the reading its journal leads
back to. -/
structure Integrated (db : Database) : Prop where
  restorable : db.Restorable
  integral : db.reading.Integral
  begun : ∀ tx, db.tx = some tx → ∃ R : Reading, R.Integral ∧
    Moves db.graph.options.allowSelfEdges false R tx.journal db.reading

theorem integrated_empty (options : GraphOptions) (sizes : EntrySizes) :
    (empty options sizes).Integrated where
  restorable := ⟨wellFormed_empty options sizes, by rintro tx ⟨⟩⟩
  integral := by
    refine ⟨?_, ?_, ?_⟩
    · intro u x hx
      simp [reading, empty, Graph.empty] at hx
    · intro d e he
      simp [reading, empty, Graph.empty] at he
    · intro n info hinfo
      simp [reading, empty, Schema.reading, Registry.get?] at hinfo
  begun := by rintro tx ⟨⟩

namespace Integrated

variable (h : db.Integrated)
include h

/-- A recorded change extends what the transaction did since it began. -/
theorem advance {db' : Database} (hadvance : Advance false db db')
    (hi : db'.reading.Integral) : db'.Integrated := by
  refine ⟨hadvance.restorable h.restorable, hi, ?_⟩
  intro tx' htx'
  obtain ⟨entries, -, hmoves, hjournal⟩ := hadvance.recorded
  rw [htx'] at hjournal
  obtain ⟨tx, htx, hextends⟩ := hjournal.of_some
  obtain ⟨R, hR, hbegun⟩ := h.begun tx htx
  rw [hextends.journal, hadvance.options]
  exact ⟨R, hR, hbegun.append hmoves⟩

theorem withTx {tx' : Option Transaction} (hempty : ∀ tx, tx' = some tx → tx.journal = []) :
    ({ db with tx := tx' } : Database).Integrated := by
  refine ⟨h.restorable.withTx hempty, h.integral, ?_⟩
  intro tx htx
  rw [hempty tx htx]
  exact ⟨db.reading, h.integral, .nil _⟩

/-- The rollback of the open journal leads below the reading it began with. -/
theorem integral_rollback {tx : Transaction} (htx : db.tx = some tx) (tx' : Option Transaction) :
    (rollback { db with tx := tx' } tx.journal).reading.Integral := by
  obtain ⟨R, hR, hmoves⟩ := h.begun tx htx
  have hsound : ({ db with tx := tx' } : Database).Sound :=
    ⟨h.restorable.wellFormed.sound.linked, h.restorable.wellFormed.sound.schema⟩
  obtain ⟨-, -, hread⟩ := reading_rollback hsound (h.restorable.journal tx htx)
  rw [hread]
  exact hR.below (hmoves.rollback_below (.refl db.reading))

theorem rollbackOpen : db.rollbackOpen.Integrated := by
  refine ⟨h.restorable.rollbackOpen, ?_, ?_⟩
  · unfold Database.rollbackOpen
    cases htx : db.tx with
    | none => exact h.integral
    | some tx =>
      have hrolled := h.integral_rollback htx (some tx)
      rw [show ({ db with tx := some tx } : Database) = db by rw [← htx]] at hrolled
      exact hrolled
  · unfold Database.rollbackOpen
    cases htx : db.tx with
    | none =>
      intro tx htx'
      rw [htx] at htx'
      cases htx'
    | some tx =>
      rintro tx' ⟨⟩
      have hrolled := h.integral_rollback htx (some tx)
      rw [show ({ db with tx := some tx } : Database) = db by rw [← htx]] at hrolled
      exact ⟨_, hrolled, .nil _⟩

theorem abort : db.abort.1.Integrated := by
  refine ⟨h.restorable.abort, ?_, ?_⟩
  · unfold Database.abort
    cases htx : db.tx with
    | none => exact h.integral
    | some tx => exact h.integral_rollback htx none
  · unfold Database.abort
    cases htx : db.tx with
    | none =>
      intro tx htx'
      rw [htx] at htx'
      cases htx'
    | some tx =>
      intro tx' htx'
      have hnone := rollback_tx { db with tx := none } tx.journal
      rw [show (rollback { db with tx := none } tx.journal).tx = some tx' from htx'] at hnone
      cases hnone

end Integrated

/-- The condition on one call. -/
def IntegrityStepOk (db : Database) : Call → Prop
  | .command command => db.IntegrityOk command
  | _ => True

theorem Integrated.step (h : db.Integrated) {call : Call} (ok : db.IntegrityStepOk call) :
    (db.step call).Integrated := by
  refine step_invariant ?_ ?_ ?_ (fun _ => Integrated.rollbackOpen)
    (fun _ _ hempty hdb => hdb.withTx hempty) h.abort h
  · rintro command rfl
    have hok : db.IntegrityOk command := ok
    exact h.advance (advance_apply h.restorable.wellFormed hok.keepsIds (by simp))
      (integral_apply h.restorable.wellFormed h.integral hok)
  · intro db row hdb
    exact hdb.advance
      (advance_createVertex hdb.restorable.wellFormed row.minted (by simp))
      (integral_createVertex hdb.restorable.wellFormed hdb.integral ..)
  · intro db row hdb
    exact hdb.advance
      (advance_edgeCreate hdb.restorable.wellFormed row.origin row.target row.direction
        row.labels row.properties row.uid row.minted)
      (integral_edgeCreate hdb.integral ..)

/-- In every database reached from an empty one by calls that meet the condition, entities
and schema agree. -/
theorem integral_run (options : GraphOptions) (sizes : EntrySizes) :
    ∀ history, Meets step IntegrityStepOk (empty options sizes) history →
      (run step (empty options sizes) history).Integral := by
  intro history ok
  have hrun := ok.invariant (fun db call h => h.step) (integrated_empty options sizes)
  exact integral_of_reading hrun.integral

instance (db : Database) (key : VertexKey) (labels : List LabelId) (properties : PropertyList) :
    Decidable (db.CreatesFitting key labels properties) :=
  decidable_of_iff (db.graph.findKey key = none →
      labels.all (fun l => l == kNoLabel || db.schema.hasLabel l) = true ∧
        (PropertyBag.ofPropertyList properties).toList.all
          (fun e => !(db.validateProperty e.1 e.2).isError) = true)
    (by simp [CreatesFitting, or_iff_not_imp_left])

instance (db : Database) (label : LabelId) : Decidable (db.CarriedOnce label) :=
  inferInstanceAs (Decidable (_ ∧ _))

instance (info : PropertyTypeInfo) : Decidable info.ContainerNamed :=
  inferInstanceAs (Decidable (_ ∨ _))

instance (db : Database) (command : Command) : Decidable (db.IntegrityOk command) := by
  induction command using Command.casesOn <;> dsimp only [IntegrityOk] <;> infer_instance

instance (db : Database) (call : Call) : Decidable (db.IntegrityStepOk call) := by
  induction call using Call.casesOn <;> dsimp only [IntegrityStepOk] <;> infer_instance

namespace Integral

variable (h : db.Integral)
include h

theorem carried (u) :
    (db.graph.vertices.find? u).all (fun v => v.labels.all db.schema.hasLabel) = true := by
  cases hv : db.graph.vertices.find? u with
  | none => rfl
  | some v => simpa using h.vertexLabels u v hv

theorem declared (u) (n : PropNameId) :
    ((db.graph.vertices.find? u).bind fun v => v.properties.find? n).all (fun x =>
      (db.schema.reading.types n).any fun info =>
        x.matchesDeclaration info.container info.data info.sizeType info.count) = true := by
  cases hv : db.graph.vertices.find? u with
  | none => rfl
  | some v =>
    cases hx : v.properties.find? n with
    | none => simp [hx]
    | some x =>
      obtain ⟨info, hinfo, hmatch⟩ := h.vertexValues u v hv n x hx
      simp [hx, hinfo, hmatch]

end Integral

/-- A label freed and taken back by an abort, and a declaration relaxed under a live value. -/
theorem integral_run_relaxed :
    let history : List Call :=
      [.command (.createLabel [65]),
        .command (.createPropertyType { name := [66], container := .array, count := 2 }),
        .command (.getOrCreateVertex ⟨0, []⟩ [1] [⟨1, .int64Array [7, 8]⟩] 10),
        .beginTransaction false, .command (.freeLabel 1), .abort,
        .command (.updatePropertyType 1
          { name := [66], container := .array, count := 3, sizeType := .max })]
    let db := run step (empty {} ⟨64, 128, 96, 48⟩) history
    Meets step IntegrityStepOk (empty {} ⟨64, 128, 96, 48⟩) history ∧ db.Integral ∧
      (db.graph.vertices.find? 10).map Vertex.labels = some [1] := by
  intro history db
  have ok : Meets step IntegrityStepOk (empty {} ⟨64, 128, 96, 48⟩) history := by
    decide
  exact ⟨ok, integral_run {} ⟨64, 128, 96, 48⟩ history ok, by decide⟩

/-- A vertex merged in under an unregistered label; a label freed from a vertex that was
created with it twice; a scalar under a declaration of no container and a maximal size. -/
theorem integrity_fails :
    ¬(run step (empty {} ⟨64, 128, 96, 48⟩)
        [.command (.getOrCreateVertex ⟨0, []⟩ [9] [] 10)]).Integral ∧
    ¬(run step (empty {} ⟨64, 128, 96, 48⟩)
        [.command (.createLabel [65]), .command (.createVertex ⟨0, []⟩ [1, 1] [] 10),
          .command (.freeLabel 1)]).Integral ∧
    ¬(run step (empty {} ⟨64, 128, 96, 48⟩)
        [.command (.createPropertyType
            { name := [66], container := .unnamed 2 (by decide), sizeType := .max }),
          .command (.createVertex ⟨0, []⟩ [] [⟨1, .int64Value 7⟩] 10)]).Integral := by
  refine ⟨fun h => ?_, fun h => ?_, fun h => ?_⟩
  · have hlabel := h.carried 10
    revert hlabel
    decide
  · have hlabel := h.carried 10
    revert hlabel
    decide
  · have hvalue := h.declared 10 1
    revert hvalue
    decide

end Database

end KimixNative.GraphDb
