import KimixNative.GraphDb.Reading

/-!
# What a payload edit brings in

A payload edit of a vertex keeps every label and every value it does not take out, and what it adds
is written in the edit. The rest of the record stays.
-/

namespace KimixNative.GraphDb

/-- Same identity and content; labels and properties may differ. -/
structure VertexReading.SameVertex (x y : VertexReading) : Prop where
  content : y.content = x.content
  keyLabel : y.keyLabel = x.keyLabel
  externalId : y.externalId = x.externalId

namespace PropertyBag

/-- The erase loop of `Vertex::remove_properties`, which skips absent names. -/
theorem find?_eraseLoop (names : List PropNameId) (acc : PropertyBag × Nat) (n : PropNameId) :
    (names.foldl (fun (acc : PropertyBag × Nat) name =>
      if (acc.1.find? name).isSome then (acc.1.erase name, acc.2 + 1) else acc) acc).1.find? n =
      if n ∈ names then none else acc.1.find? n := by
  induction names generalizing acc with
  | nil => simp
  | cons name rest ih =>
    rw [List.foldl_cons, ih]
    by_cases hrest : n ∈ rest
    · simp [hrest]
    · rw [if_neg hrest]
      by_cases hn : n = name
      · subst hn
        rw [if_pos List.mem_cons_self]
        cases hf : acc.1.find? n with
        | none => simp [hf]
        | some value => simp
      · have hnot : n ∉ name :: rest := by simp [hn, hrest]
        rw [if_neg hnot]
        split
        · rw [Table.find?_erase, if_neg hn]
        · rfl

end PropertyBag

namespace VertexEdit

/-- The labels an edit adds. -/
def newLabels : VertexEdit → List LabelId
  | .addLabel label => [label]
  | .restorePayload labels _ => labels.filter (· ≠ kNoLabel)
  | _ => []

/-- The values an edit writes. -/
def newProperties : VertexEdit → List (PropNameId × PropertyValue)
  | .addProperty name value | .setProperty name value | .putProperty name value => [(name, value)]
  | .restorePayload _ properties => properties.map fun e => (e.name, e.value)
  | _ => []

variable (edit : VertexEdit) (v : Vertex)

theorem labels_apply {l : LabelId} (hl : l ∈ (edit.apply v).labels) :
    l ∈ v.labels ∨ l ∈ edit.newLabels := by
  cases edit with
  | setContent content => exact .inl hl
  | addLabel label =>
    simp only [apply, Vertex.addLabel] at hl
    split at hl
    · exact .inl hl
    · exact List.mem_append.mp hl
  | removeLabel label =>
    simp only [apply, Vertex.removeLabel] at hl
    split at hl
    · exact .inl (List.mem_of_mem_erase hl)
    · exact .inl hl
  | addProperty name value =>
    simp only [apply, Vertex.addProperty] at hl
    split at hl <;> exact .inl hl
  | setProperty name value =>
    simp only [apply, Vertex.setProperty] at hl
    split at hl <;> exact .inl hl
  | putProperty name value => exact .inl hl
  | removeProperties names =>
    simp only [apply, Vertex.removeProperties] at hl
    split at hl <;> exact .inl hl
  | restorePayload labels properties => exact .inr hl

theorem properties_apply {n : PropNameId} {x : PropertyValue}
    (hx : (edit.apply v).properties.find? n = some x) :
    v.properties.find? n = some x ∨ (n, x) ∈ edit.newProperties := by
  cases edit with
  | setContent content => exact .inl hx
  | addLabel label =>
    simp only [apply, Vertex.addLabel] at hx
    split at hx <;> exact .inl hx
  | removeLabel label =>
    simp only [apply, Vertex.removeLabel] at hx
    split at hx <;> exact .inl hx
  | addProperty name value =>
    simp only [apply, Vertex.addProperty] at hx
    split at hx
    · exact .inl hx
    · exact PropertyBag.find?_insert_cases hx
  | setProperty name value =>
    simp only [apply, Vertex.setProperty] at hx
    split at hx
    · exact PropertyBag.find?_insert_cases hx
    · exact .inl hx
  | putProperty name value => exact PropertyBag.find?_insert_cases hx
  | removeProperties names =>
    have herase := PropertyBag.find?_eraseLoop names (v.properties, 0) n
    have hbag : (apply (.removeProperties names) v).properties.find? n =
        if n ∈ names then none else v.properties.find? n := by
      simp only [apply, Vertex.removeProperties]
      split <;> exact herase
    rw [hbag] at hx
    split at hx
    · cases hx
    · exact .inl hx
  | restorePayload labels properties =>
    refine .inr ?_
    have hx' : (PropertyBag.ofPropertyList properties).find? n = some x := hx
    rw [PropertyBag.find?_ofPropertyList] at hx'
    obtain ⟨before, after, heq, -⟩ := List.lookup_eq_some_iff.mp hx'
    simp only [newProperties, heq]
    simp

/-- Everything but labels and properties stays, except under `set_content`. -/
theorem sameVertex_apply (hedit : ∀ content, edit ≠ .setContent content) :
    v.reading.SameVertex (edit.apply v).reading := by
  have hframe := edit.apply_frame v
  refine ⟨?_, hframe.2.2.1, hframe.2.2.2.1⟩
  cases edit with
  | setContent content => exact absurd rfl (hedit content)
  | addLabel label => simp only [apply, Vertex.addLabel]; split <;> rfl
  | removeLabel label => simp only [apply, Vertex.removeLabel]; split <;> rfl
  | addProperty name value => simp only [apply, Vertex.addProperty]; split <;> rfl
  | setProperty name value => simp only [apply, Vertex.setProperty]; split <;> rfl
  | putProperty name value => rfl
  | removeProperties names => simp only [apply, Vertex.removeProperties]; split <;> rfl
  | restorePayload labels properties => rfl

end VertexEdit

end KimixNative.GraphDb
