import KimixNative.GraphDb.Property
import KimixNative.Lib.Registry

/-!
# The schema registry

The labels and the property types a database knows, each under a dense id that is handed
out by a 32-bit counter and never recycled while the counter has not wrapped. Entities
store ids, the registry stores names. Every mutation bumps the version, which a save
compares with the stored one.
-/

namespace KimixNative.GraphDb

/-- `is_blank`: only spaces, tabs and line ends. -/
def isBlank (text : Bytes) : Bool := text.all fun c => c = 32 || c = 9 || c = 10 || c = 13

/-- `is_valid_size_type`. -/
def isValidSizeType : GdiSizeType → Bool
  | .fixed | .max | .unlimited => true
  | .unnamed _ _ => false

/-- `validate_property_type_declaration`. Only `single` is told apart: every other
container byte is judged as an array. -/
def validatePropertyTypeDeclaration (info : PropertyTypeInfo) : GdiStatus :=
  if !isValidSizeType info.sizeType then .errorArgument
  else if info.container = .single then
    if info.data = .data then .errorArgument
    else if info.sizeType ≠ .fixed then .errorArgument
    else if info.count.toNat < 1 then .errorCount
    else .ok
  else if info.sizeType = .unlimited then .ok
  else if info.count.toNat < 1 then .errorCount
  else .ok

/-- `canonicalize_property_type`: `unlimited` carries no bound. -/
def canonicalizePropertyType (info : PropertyTypeInfo) : PropertyTypeInfo :=
  if info.sizeType = .unlimited then { info with count := 0 } else info

/-- `is_declaration_relaxation`: the new declaration accepts every length the old one
accepted, with the same container and datatype. -/
def isDeclarationRelaxation (previous next : PropertyTypeInfo) : Bool :=
  if previous.container ≠ next.container ∨ previous.data ≠ next.data then false
  else if next.sizeType = .unlimited then true
  else if previous.sizeType = .unlimited then false
  else if next.sizeType = .max then decide (previous.count.toNat ≤ next.count.toNat)
  else decide (previous.sizeType = .fixed) && decide (next.count = previous.count)

structure Schema where
  labels : Registry LabelId Bytes Bytes := {}
  propertyTypes : Registry PropNameId PropertyTypeInfo Bytes := {}
  nextLabelId : LabelId := 1
  nextPropNameId : PropNameId := 1
  version : BitVec 32 := 0

namespace Schema

variable (s : Schema)

def bumpVersion : Schema := { s with version := s.version + 1 }

/-! ## Labels -/

/-- `_find_label_locked`: the reserved id when the name is unknown. -/
def findLabelLocked (name : Bytes) : LabelId := (s.labels.byName.find? name).getD kNoLabel

/-- `create_label`, with the new id. -/
def createLabel (name : Bytes) : Schema × GdiStatus × LabelId :=
  if isBlank name then (s, .errorEmptyName, kNoLabel)
  else if s.findLabelLocked name ≠ kNoLabel then (s, .errorNameExists, kNoLabel)
  else
    ({ s with
      labels := s.labels.add id s.nextLabelId name
      nextLabelId := s.nextLabelId + 1
      version := s.version + 1 }, .ok, s.nextLabelId)

/-- `rename_label`. -/
def renameLabel (label : LabelId) (newName : Bytes) : Schema × GdiStatus :=
  if isBlank newName then (s, .errorEmptyName)
  else
    match s.labels.get? label with
    | none => (s, .errorLabel)
    | some name =>
      let clash := s.findLabelLocked newName
      if clash ≠ kNoLabel ∧ clash ≠ label then (s, .errorNameExists)
      else if name = newName then (s, .ok)
      else
        ({ s with
          labels := s.labels.replace id label newName
          version := s.version + 1 }, .ok)

/-- `free_label`. -/
def freeLabel (label : LabelId) : Schema × GdiStatus :=
  match s.labels.get? label with
  | none => (s, .errorLabel)
  | some _ => ({ s with labels := s.labels.drop id label, version := s.version + 1 }, .ok)

/-- `label_name`: empty for an unknown id. -/
def labelName (label : LabelId) : Bytes := (s.labels.get? label).getD []

/-- `has_label`. -/
def hasLabel (label : LabelId) : Bool := (s.labels.get? label).isSome

/-- `restore_label`: registration under an exact id, for the rollback. -/
def restoreLabel (label : LabelId) (name : Bytes) : Schema × GdiStatus :=
  if label = kNoLabel then (s, .errorArgument)
  else if isBlank name then (s, .errorEmptyName)
  else if s.hasLabel label then (s, .errorNameExists)
  else if s.findLabelLocked name ≠ kNoLabel then (s, .errorNameExists)
  else
    ({ s with
      labels := s.labels.add id label name
      nextLabelId := if s.nextLabelId ≤ label then label + 1 else s.nextLabelId
      version := s.version + 1 }, .ok)

/-! ## Property types -/

/-- `_find_property_type_locked`. -/
def findPropertyTypeLocked (name : Bytes) : PropNameId :=
  (s.propertyTypes.byName.find? name).getD kNoPropName

/-- `create_property_type`: the stored declaration is the canonical form under its id. -/
def createPropertyType (info : PropertyTypeInfo) : Schema × GdiStatus × PropNameId :=
  if isBlank info.name then (s, .errorEmptyName, kNoPropName)
  else if (validatePropertyTypeDeclaration info).isError then
    (s, validatePropertyTypeDeclaration info, kNoPropName)
  else if s.findPropertyTypeLocked info.name ≠ kNoPropName then
    (s, .errorNameExists, kNoPropName)
  else
    ({ s with
      propertyTypes := s.propertyTypes.add PropertyTypeInfo.name s.nextPropNameId
        { canonicalizePropertyType info with nameId := s.nextPropNameId }
      nextPropNameId := s.nextPropNameId + 1
      version := s.version + 1 }, .ok, s.nextPropNameId)

/-- `property_type`: the default declaration for an unknown id. -/
def propertyType (property : PropNameId) : PropertyTypeInfo :=
  (s.propertyTypes.get? property).getD { nameId := property }

/-- `has_property_type`. -/
def hasPropertyType (property : PropNameId) : Bool := (s.propertyTypes.get? property).isSome

/-- The shape of a declaration, which live values pin. -/
def shapeChanged (previous next : PropertyTypeInfo) : Bool :=
  previous.container ≠ next.container || previous.data ≠ next.data ||
    previous.sizeType ≠ next.sizeType || previous.count ≠ next.count

/-- `update_property_type`. -/
def updatePropertyType (property : PropNameId) (info : PropertyTypeInfo) (valuesExist : Bool) :
    Schema × GdiStatus :=
  if isBlank info.name then (s, .errorEmptyName)
  else if (validatePropertyTypeDeclaration info).isError then
    (s, validatePropertyTypeDeclaration info)
  else
    let next := canonicalizePropertyType info
    match s.propertyTypes.get? property with
    | none => (s, .errorPropertyType)
    | some previous =>
      let clash := s.findPropertyTypeLocked info.name
      if clash ≠ kNoPropName ∧ clash ≠ property then (s, .errorNameExists)
      else if shapeChanged previous next && valuesExist &&
          !isDeclarationRelaxation previous next then
        (s, .errorReadOnlyPropertyType)
      else
        ({ s with
          propertyTypes := s.propertyTypes.replace PropertyTypeInfo.name property
            { next with nameId := property }
          version := s.version + 1 }, .ok)

/-- `free_property_type`. -/
def freePropertyType (property : PropNameId) : Schema × GdiStatus :=
  match s.propertyTypes.get? property with
  | none => (s, .errorPropertyType)
  | some _ =>
    ({ s with
      propertyTypes := s.propertyTypes.drop PropertyTypeInfo.name property
      version := s.version + 1 }, .ok)

/-- `restore_property_type`: the declaration is taken as it is. -/
def restorePropertyType (info : PropertyTypeInfo) : Schema × GdiStatus :=
  if info.nameId = kNoPropName then (s, .errorArgument)
  else if isBlank info.name then (s, .errorEmptyName)
  else if s.hasPropertyType info.nameId then (s, .errorNameExists)
  else if s.findPropertyTypeLocked info.name ≠ kNoPropName then (s, .errorNameExists)
  else
    ({ s with
      propertyTypes := s.propertyTypes.add PropertyTypeInfo.name info.nameId info
      nextPropNameId :=
        if s.nextPropNameId ≤ info.nameId then info.nameId + 1 else s.nextPropNameId
      version := s.version + 1 }, .ok)

end Schema

/-- What every stored declaration is: named, valid, canonical and filed under its own id. -/
structure PropertyTypeInfo.Stored (info : PropertyTypeInfo) (property : PropNameId) : Prop where
  named : isBlank info.name = false
  valid : validatePropertyTypeDeclaration info = .ok
  canonical : canonicalizePropertyType info = info
  filed : info.nameId = property

namespace Schema

/-- Both registries are consistent, no id is the reserved one, and every entry is one that
a create, a rename or an update would store. -/
structure WellFormed (s : Schema) : Prop where
  labels : s.labels.Consistent id
  labelEntries : ∀ label name, s.labels.get? label = some name →
    label ≠ kNoLabel ∧ isBlank name = false
  propertyTypes : s.propertyTypes.Consistent PropertyTypeInfo.name
  propertyTypeEntries : ∀ property info, s.propertyTypes.get? property = some info →
    property ≠ kNoPropName ∧ info.Stored property

theorem wellFormed_empty : ({} : Schema).WellFormed where
  labels := Registry.consistent_empty _
  labelEntries := by simp [Registry.get?]
  propertyTypes := Registry.consistent_empty _
  propertyTypeEntries := by simp [Registry.get?]

/-! ## What each operation does to the registered entries -/

namespace WellFormed

variable {s : Schema} (h : s.WellFormed)
include h

theorem hasLabel_kNoLabel : s.hasLabel kNoLabel = false := by
  cases hf : s.labels.get? kNoLabel with
  | none => simp [hasLabel, hf]
  | some name => exact absurd rfl (h.labelEntries _ _ hf).1

variable {name : Bytes} {info : PropertyTypeInfo}

theorem byName_of_findLabelLocked (hf : s.findLabelLocked name = kNoLabel) :
    s.labels.byName.find? name = none := by
  cases hb : s.labels.byName.find? name with
  | none => rfl
  | some label =>
    obtain ⟨w, hw, -⟩ := (h.labels.byName_iff name label).mp hb
    have hne := (h.labelEntries _ _ hw).1
    simp only [findLabelLocked, hb, Option.getD_some] at hf
    exact absurd hf hne

theorem byName_of_findPropertyTypeLocked (hf : s.findPropertyTypeLocked name = kNoPropName) :
    s.propertyTypes.byName.find? name = none := by
  cases hb : s.propertyTypes.byName.find? name with
  | none => rfl
  | some property =>
    obtain ⟨w, hw, -⟩ := (h.propertyTypes.byName_iff name property).mp hb
    have hne := (h.propertyTypeEntries _ _ hw).1
    simp only [findPropertyTypeLocked, hb, Option.getD_some] at hf
    exact absurd hf hne

/-- An entry that is added under a fresh id and an unused name. -/
private theorem addLabel {label : LabelId} (hne : label ≠ kNoLabel) (hblank : isBlank name = false)
    (hfresh : s.labels.get? label = none) (hname : s.labels.byName.find? name = none)
    (next version : BitVec 32) :
    WellFormed { s with
      labels := s.labels.add id label name, nextLabelId := next, version := version } where
  labels := h.labels.add hfresh hname
  labelEntries := by
    intro j n hj
    simp only [Registry.get?_add] at hj
    by_cases hjl : j = label
    · subst hjl
      simp only [hfresh, Option.none_or, if_true, Option.some.injEq] at hj
      exact ⟨hne, hj ▸ hblank⟩
    · rw [if_neg hjl, Option.or_none] at hj
      exact h.labelEntries j n hj
  propertyTypes := h.propertyTypes
  propertyTypeEntries := h.propertyTypeEntries

/-- `create_label` keeps the registry while the counter names a fresh id. -/
theorem createLabel (name : Bytes) (hne : s.nextLabelId ≠ kNoLabel)
    (hfresh : s.hasLabel s.nextLabelId = false) : (s.createLabel name).1.WellFormed := by
  unfold Schema.createLabel
  split
  · exact h
  next hblank =>
  split
  · exact h
  next hname =>
  exact h.addLabel hne (by simpa using hblank) (by simpa [hasLabel] using hfresh)
    (h.byName_of_findLabelLocked (not_not.mp hname)) _ _

theorem restoreLabel (label : LabelId) (name : Bytes) : (s.restoreLabel label name).1.WellFormed := by
  unfold Schema.restoreLabel
  split
  · exact h
  next hne =>
  split
  · exact h
  next hblank =>
  split
  · exact h
  next hfresh =>
  split
  · exact h
  next hname =>
  exact h.addLabel hne (by simpa using hblank) (by simpa [hasLabel] using hfresh)
    (h.byName_of_findLabelLocked (not_not.mp hname)) _ _

theorem renameLabel (label : LabelId) (newName : Bytes) :
    (s.renameLabel label newName).1.WellFormed := by
  unfold Schema.renameLabel
  split
  · exact h
  next hblank =>
  split
  · exact h
  next name hget =>
  simp only
  split
  · exact h
  next hclash =>
  split
  · exact h
  refine ⟨h.labels.replace hget ?_, ?_, h.propertyTypes, h.propertyTypeEntries⟩
  · intro j hj
    simp only [id_eq] at hj
    obtain ⟨w, hw, -⟩ := (h.labels.byName_iff _ _).mp hj
    have hfind : s.findLabelLocked newName = j := by simp [findLabelLocked, hj]
    rw [hfind] at hclash
    by_contra hne
    exact hclash ⟨(h.labelEntries _ _ hw).1, hne⟩
  · intro j n hj
    rw [Registry.get?_replace] at hj
    split at hj
    · next hjl =>
        subst hjl
        rw [hget] at hj
        cases hj
        exact ⟨(h.labelEntries _ _ hget).1, by simpa using hblank⟩
    · exact h.labelEntries j n hj

theorem freeLabel (label : LabelId) : (s.freeLabel label).1.WellFormed := by
  unfold Schema.freeLabel
  split
  · exact h
  · refine ⟨h.labels.drop label, ?_, h.propertyTypes, h.propertyTypeEntries⟩
    intro j n hj
    rw [Registry.get?_drop _ _ h.labels.nodup] at hj
    split at hj
    · cases hj
    · exact h.labelEntries j n hj

private theorem addPropertyType {property : PropNameId} (hne : property ≠ kNoPropName)
    (hstored : info.Stored property) (hfresh : s.propertyTypes.get? property = none)
    (hname : s.propertyTypes.byName.find? info.name = none) (next version : BitVec 32) :
    WellFormed { s with
      propertyTypes := s.propertyTypes.add PropertyTypeInfo.name property info
      nextPropNameId := next, version := version } where
  labels := h.labels
  labelEntries := h.labelEntries
  propertyTypes := h.propertyTypes.add hfresh hname
  propertyTypeEntries := by
    intro j n hj
    simp only [Registry.get?_add] at hj
    by_cases hjl : j = property
    · subst hjl
      simp only [hfresh, Option.none_or, if_true, Option.some.injEq] at hj
      exact ⟨hne, hj ▸ hstored⟩
    · rw [if_neg hjl, Option.or_none] at hj
      exact h.propertyTypeEntries j n hj

omit h in
/-- What a create or an update stores. -/
theorem stored_canonicalize (hblank : isBlank info.name = false)
    (hvalid : (validatePropertyTypeDeclaration info).isError = false) (property : PropNameId) :
    ({ canonicalizePropertyType info with nameId := property } : PropertyTypeInfo).Stored
      property := by
  by_cases hu : info.sizeType = .unlimited
  · have harray : info.container ≠ .single := by
      intro hsingle
      unfold validatePropertyTypeDeclaration at hvalid
      by_cases hd : info.data = .data <;> simp [hu, hsingle, hd, isValidSizeType,
        GdiStatus.isError] at hvalid
    constructor
    · simpa [canonicalizePropertyType, hu] using hblank
    · simp [validatePropertyTypeDeclaration, canonicalizePropertyType, hu, harray,
        isValidSizeType]
    · simp [canonicalizePropertyType, hu]
    · rfl
  · constructor
    · simpa [canonicalizePropertyType, hu] using hblank
    · have hok : validatePropertyTypeDeclaration info = .ok := by
        unfold validatePropertyTypeDeclaration at hvalid ⊢
        grind [GdiStatus.isError]
      simpa [canonicalizePropertyType, hu, validatePropertyTypeDeclaration] using hok
    · simp [canonicalizePropertyType, hu]
    · rfl

theorem createPropertyType (info : PropertyTypeInfo) (hne : s.nextPropNameId ≠ kNoPropName)
    (hfresh : s.hasPropertyType s.nextPropNameId = false) :
    (s.createPropertyType info).1.WellFormed := by
  unfold Schema.createPropertyType
  split
  · exact h
  next hblank =>
  split
  · exact h
  next hvalid =>
  split
  · exact h
  next hname =>
  have hcanon : (canonicalizePropertyType info).name = info.name := by
    unfold canonicalizePropertyType
    split <;> rfl
  exact h.addPropertyType hne (stored_canonicalize (by simpa using hblank) (by simpa using hvalid) _)
    (by simpa [hasPropertyType] using hfresh)
    (hcanon ▸ h.byName_of_findPropertyTypeLocked (not_not.mp hname)) _ _

theorem restorePropertyType (hstored : info.Stored info.nameId) :
    (s.restorePropertyType info).1.WellFormed := by
  unfold Schema.restorePropertyType
  split
  · exact h
  next hne =>
  split
  · exact h
  split
  · exact h
  next hfresh =>
  split
  · exact h
  next hname =>
  exact h.addPropertyType hne hstored (by simpa [hasPropertyType] using hfresh)
    (h.byName_of_findPropertyTypeLocked (not_not.mp hname)) _ _

theorem updatePropertyType (property : PropNameId) (info : PropertyTypeInfo) (valuesExist : Bool) :
    (s.updatePropertyType property info valuesExist).1.WellFormed := by
  unfold Schema.updatePropertyType
  split
  · exact h
  next hblank =>
  split
  · exact h
  next hvalid =>
  simp only
  split
  · exact h
  next previous hget =>
  split
  · exact h
  next hclash =>
  split
  · exact h
  have hstored := stored_canonicalize (by simpa using hblank) (by simpa using hvalid) property
  have hcanon : (canonicalizePropertyType info).name = info.name := by
    unfold canonicalizePropertyType
    split <;> rfl
  refine ⟨h.labels, h.labelEntries, h.propertyTypes.replace hget ?_, ?_⟩
  · intro j hj
    simp only [hcanon] at hj
    obtain ⟨w, hw, -⟩ := (h.propertyTypes.byName_iff _ _).mp hj
    have hfind : s.findPropertyTypeLocked info.name = j := by simp [findPropertyTypeLocked, hj]
    rw [hfind] at hclash
    by_contra hne
    exact hclash ⟨(h.propertyTypeEntries _ _ hw).1, hne⟩
  · intro j n hj
    rw [Registry.get?_replace] at hj
    split at hj
    · next hjl =>
        subst hjl
        rw [hget] at hj
        cases hj
        exact ⟨(h.propertyTypeEntries _ _ hget).1, hstored⟩
    · exact h.propertyTypeEntries j n hj

theorem freePropertyType (property : PropNameId) : (s.freePropertyType property).1.WellFormed := by
  unfold Schema.freePropertyType
  split
  · exact h
  · refine ⟨h.labels, h.labelEntries, h.propertyTypes.drop property, ?_⟩
    intro j n hj
    rw [Registry.get?_drop _ _ h.propertyTypes.nodup] at hj
    split at hj
    · cases hj
    · exact h.propertyTypeEntries j n hj

end WellFormed

end Schema

end KimixNative.GraphDb
