import KimixNative.Lib.Run
import KimixNative.Todo.Flows
import KimixNative.Tools.CompactJson

/-!
# The state of the todo tool in its file

A state is written as an object of two lists of items. The reader of an item drops it when its
title is blank or its status is none, or when it drops one of the items below it.
-/

namespace KimixNative.Todo

open Text Forest Tools

/-! ### Writing and reading -/

mutual

/-- `td_item_to_value`. -/
def tdItemToValue : TodoItem → ValueElement
  | ⟨item, children⟩ =>
    .object [
      (ascii "title", .string item.content),
      (ascii "status", .string (statusName item.status)),
      (ascii "notes", match item.notes with | some notes => .string notes | none => .null),
      (ascii "children", .array (tdItemsToArray children))]

/-- `td_items_to_array`. -/
def tdItemsToArray : List TodoItem → List ValueElement
  | [] => []
  | t :: rest => tdItemToValue t :: tdItemsToArray rest

end

/-- The notes of an item; what cannot be read as a text is no note. -/
def loadNotes : Option ValueElement → Option Bytes
  | some value => (tdStringify value).bind strippedNotes
  | none => none

/-- The fields of an item apart from its children. -/
def loadFields (obj : ToolParams) : Option Item :=
  match (obj.get (ascii "title")).or (obj.get (ascii "content")), obj.get (ascii "status") with
  | some (.string title), some (.string status) =>
    if tdTrim title = [] then none
    else (parseStatus status).map fun status =>
      { content := tdTrim title, status, notes := loadNotes (obj.get (ascii "notes"))
        childrenProvided := true }
  | _, _ => none

mutual

/-- `td_item_from_value`. -/
def tdItemFromValue : ValueElement → Option TodoItem
  | .object values =>
    (loadFields { values }).bind fun item =>
      (loadChildren values).map fun children => ⟨item, children⟩
  | _ => none

/-- The member `children` of an object; the item is dropped when it is not a list of items. -/
def loadChildren : List (Bytes × ValueElement) → Option (List TodoItem)
  | [] => some []
  | (key, value) :: rest =>
    if key = ascii "children" then
      match value with
      | .null => some []
      | .array elements => loadItems elements
      | _ => none
    else loadChildren rest

def loadItems : List ValueElement → Option (List TodoItem)
  | [] => some []
  | value :: rest =>
    (tdItemFromValue value).bind fun t => (loadItems rest).map (t :: ·)

end

/-- The object of a state. -/
def stateValues (st : TodoState) : ValueMap :=
  [(ascii "todos", .array (tdItemsToArray st.todos)),
    (ascii "archived_todos", .array (tdItemsToArray st.archivedTodos))]

/-- `serialize_state`. -/
def serializeState (json : JsonLibrary) (st : TodoState) : Bytes := json.serialize (stateValues st)

/-- The `load_array` of `deserialize_state`: items that cannot be read are skipped. -/
def loadArray (root : ToolParams) (key : String) : Except Bytes (List TodoItem) :=
  match root.get (ascii key) with
  | none | some .null => .ok []
  | some (.array elements) => .ok (elements.filterMap tdItemFromValue)
  | some _ => .error (ascii key ++ ascii " must be an array")

/-- `deserialize_state`. -/
def deserializeState (json : JsonLibrary) (text : Bytes) : Except Bytes TodoState := do
  let values ← json.deserialize text
  let todos ← loadArray { values } "todos"
  let archivedTodos ← loadArray { values } "archived_todos"
  .ok { todos, archivedTodos }

/-- What is assumed of the JSON library: it reads back what it wrote, as far as that is made of
valid strings, nulls, lists and objects, and every text it reads is valid UTF-8. -/
structure JsonLibrary.Faithful (json : JsonLibrary) : Prop where
  roundTrip : ∀ values : ValueMap, values.Plain →
    json.deserialize (json.serialize values) = .ok values
  utf8 : ∀ text values, json.deserialize text = .ok values → values.Utf8

open Classical in
/-- A library that reads what it writes, as long as that holds no numbers. -/
noncomputable def compactJson : JsonLibrary where
  serialize := CompactJson.writeObject
  deserialize text :=
    match CompactJson.readObject text with
    | some values => if values.Utf8 then .ok values else .error (ascii "invalid UTF-8")
    | none => .error (ascii "invalid JSON")
  isValidJson text := (CompactJson.readObject text).isSome
  accepts _ := true

theorem compactJson_faithful : compactJson.Faithful where
  roundTrip values h := by
    have hread := CompactJson.readObject_writeObject h
    simp only [compactJson, hread]
    exact if_pos h.utf8
  utf8 text values h := by
    simp only [compactJson] at h
    split at h
    · split at h
      · rename_i hutf8
        obtain rfl := Except.ok.inj h
        exact hutf8
      · cases h
    · cases h

/-! ### Trimmed texts -/

theorem tdTrim_idem (s : Bytes) : tdTrim (tdTrim s) = tdTrim s := by
  have hhead : (tdTrim s).dropWhile tdIsSpace = tdTrim s := by
    obtain ⟨rest, hrest⟩ := List.rdropWhile_prefix tdIsSpace (s.dropWhile tdIsSpace)
    have hfirst := List.head?_dropWhile_not tdIsSpace s
    rw [← hrest] at hfirst
    unfold tdTrim
    cases htrim : (s.dropWhile tdIsSpace).rdropWhile tdIsSpace with
    | nil => rfl
    | cons b t =>
      rw [htrim, List.cons_append, List.head?_cons] at hfirst
      exact List.dropWhile_cons_of_neg (by rw [hfirst]; exact Bool.false_ne_true)
  rw [show tdTrim (tdTrim s) = ((tdTrim s).dropWhile tdIsSpace).rdropWhile tdIsSpace from rfl,
    hhead, tdTrim, List.rdropWhile_idempotent]

variable {b : Byte} {s : Bytes} {children : List TodoItem} {json : JsonLibrary}

theorem toNat_of_tdIsSpace (h : tdIsSpace b = true) : b.toNat < 0x80 := by
  simp only [tdIsSpace, Bool.or_eq_true, beq_iff_eq] at h
  rcases h with ((((rfl | rfl) | rfl) | rfl) | rfl) | rfl <;> decide

/-- An ASCII byte in front of a text is a character of its own. -/
theorem validUtf8_of_cons (hb : b.toNat < 0x80) (h : ValidUtf8 (b :: s)) : ValidUtf8 s := by
  obtain ⟨chars, hchars, heq⟩ := h
  cases chars with
  | nil => cases heq
  | cons c chars =>
    obtain ⟨hc, hrest⟩ := List.forall_mem_cons.mp hchars
    rw [List.flatten_cons] at heq
    cases hc with
    | one ha => exact ⟨chars, hrest, (List.cons.inj heq).2⟩
    | two ha => obtain ⟨rfl, -⟩ := List.cons.inj heq; omega
    | three ha => obtain ⟨rfl, -⟩ := List.cons.inj heq; omega
    | four ha => obtain ⟨rfl, -⟩ := List.cons.inj heq; omega

/-- An ASCII byte behind a text is a character of its own. -/
theorem validUtf8_of_concat (hb : b.toNat < 0x80) (h : ValidUtf8 (s ++ [b])) : ValidUtf8 s := by
  obtain ⟨chars, hchars, heq⟩ := h
  obtain rfl | ⟨init, c, rfl⟩ := List.eq_nil_or_concat chars
  · cases List.append_eq_nil_iff.mp heq |>.2
  · have hc := hchars c (by simp)
    rw [List.concat_eq_append, List.flatten_append, List.flatten_singleton] at heq
    have hinit : ∀ d ∈ init, IsChar d := fun d hd => hchars d (by simp [hd])
    have hlast := congrArg List.getLast? heq
    rw [List.getLast?_concat, List.getLast?_append] at hlast
    cases hc with
    | @one a ha =>
      exact ⟨init, hinit, (List.append_inj' heq rfl).1⟩
    | @two a c ha hc => obtain rfl := Option.some.inj hlast; omega
    | @three a c d ha hc hd => obtain rfl := Option.some.inj hlast; omega
    | @four a c d e ha hc hd he => obtain rfl := Option.some.inj hlast; omega

theorem validUtf8_tdTrim (h : ValidUtf8 s) : ValidUtf8 (tdTrim s) := by
  have hfront : ValidUtf8 (s.dropWhile tdIsSpace) := by
    induction s with
    | nil => exact h
    | cons b s ih =>
      rw [List.dropWhile_cons]
      split
      · rename_i hspace
        exact ih (validUtf8_of_cons (toNat_of_tdIsSpace hspace) h)
      · exact h
  unfold tdTrim
  generalize s.dropWhile tdIsSpace = t at hfront
  induction t using List.reverseRecOn with
  | nil => exact hfront
  | append_singleton t b ih =>
    by_cases hspace : tdIsSpace b = true
    · rw [List.rdropWhile_concat_pos _ _ _ hspace]
      exact ih (validUtf8_of_concat (toNat_of_tdIsSpace hspace) hfront)
    · rwa [List.rdropWhile_concat_neg _ _ _ hspace]

theorem strippedNotes_idem {raw notes : Bytes} (h : strippedNotes raw = some notes) :
    strippedNotes notes = some notes := by
  unfold strippedNotes at h ⊢
  split at h
  · cases h
  · rename_i hne
    obtain rfl := Option.some.inj h
    rw [tdTrim_idem, if_neg hne]

theorem validUtf8_strippedNotes {raw notes : Bytes} (hraw : ValidUtf8 raw)
    (h : strippedNotes raw = some notes) : ValidUtf8 notes := by
  unfold strippedNotes at h
  split at h
  · cases h
  · obtain rfl := Option.some.inj h
    exact validUtf8_tdTrim hraw

/-! ### Items that survive -/

/-- The texts of an item are valid. -/
structure Item.Utf8 (t : Item) : Prop where
  content : ValidUtf8 t.content
  notes : ∀ notes, t.notes = some notes → ValidUtf8 notes

/-- An item that the reader gives back: valid texts without blanks around them, a title, and no
empty notes. -/
structure Item.Storable (t : Item) : Prop where
  utf8 : t.Utf8
  trimmed : tdTrim t.content = t.content
  named : t.content ≠ []
  stripped : ∀ notes, t.notes = some notes → strippedNotes notes = some notes

/-- An item as the reader leaves it: it has its children from the file. -/
def Item.loaded (t : Item) : Item := { t with childrenProvided := true }

def TodoState.loaded (st : TodoState) : TodoState where
  todos := Forest.map Item.loaded st.todos
  archivedTodos := Forest.map Item.loaded st.archivedTodos

variable {t : Item} {ts : List TodoItem} {st : TodoState}

/-- The value of the notes of an item. -/
theorem loadNotes_notes (h : t.Storable) :
    loadNotes (some (match t.notes with | some notes => .string notes | none => .null)) =
      t.notes := by
  cases hnotes : t.notes with
  | none => rfl
  | some notes => exact h.stripped notes hnotes

theorem loadFields_item (h : t.Storable) (children : ValueElement) :
    loadFields { values := [
      (ascii "title", .string t.content), (ascii "status", .string (statusName t.status)),
      (ascii "notes", match t.notes with | some notes => .string notes | none => .null),
      (ascii "children", children)] } = some t.loaded := by
  have hnotes : ToolParams.get { values := [
      (ascii "title", .string t.content), (ascii "status", .string (statusName t.status)),
      (ascii "notes", match t.notes with | some notes => .string notes | none => .null),
      (ascii "children", children)] } (ascii "notes") =
      some (match t.notes with | some notes => .string notes | none => .null) := by
    cases t.notes <;> rfl
  rw [loadFields, hnotes]
  refine (if_neg (by rw [h.trimmed]; exact h.named)).trans ?_
  rw [parseStatus_statusName, Option.map_some, h.trimmed, loadNotes_notes h]
  rfl

theorem loadChildren_skip {key : Bytes} (hkey : key ≠ ascii "children") (value : ValueElement)
    (rest : ValueMap) : loadChildren ((key, value) :: rest) = loadChildren rest := by
  rw [loadChildren.eq_def]
  exact if_neg hkey

theorem loadChildren_item (title status notes : ValueElement) (elements : List ValueElement) :
    loadChildren [(ascii "title", title), (ascii "status", status), (ascii "notes", notes),
      (ascii "children", .array elements)] = loadItems elements := by
  rw [loadChildren_skip (by decide), loadChildren_skip (by decide), loadChildren_skip (by decide),
    loadChildren.eq_def]
  exact if_pos rfl

/-- An item is read back when its children are. -/
theorem tdItemFromValue_item (h : t.Storable)
    (hchildren : loadItems (tdItemsToArray children) = some (Forest.map Item.loaded children)) :
    tdItemFromValue (tdItemToValue ⟨t, children⟩) =
      some ⟨t.loaded, Forest.map Item.loaded children⟩ := by
  rw [tdItemToValue, tdItemFromValue, loadFields_item h, loadChildren_item, hchildren]
  rfl

theorem loadItems_items (h : ∀ t ∈ labels ts, t.Storable) :
    loadItems (tdItemsToArray ts) = some (Forest.map Item.loaded ts) := by
  induction ts using Forest.induction with
  | nil => rfl
  | cons t children rest ihc ihr =>
    simp only [labels_cons, List.mem_cons, List.mem_append, forall_eq_or_imp] at h
    obtain ⟨ht, hbelow⟩ := h
    rw [tdItemsToArray, loadItems,
      tdItemFromValue_item ht (ihc fun u hu => hbelow u (.inl hu)), Option.bind_some,
      ihr fun u hu => hbelow u (.inr hu)]
    rfl

/-- A list whose items can all be read back is read back whole. -/
theorem filterMap_items (h : ∀ t ∈ labels ts, t.Storable) :
    (tdItemsToArray ts).filterMap tdItemFromValue = Forest.map Item.loaded ts := by
  induction ts with
  | nil => rfl
  | cons t rest ih =>
    obtain ⟨item, children⟩ := t
    simp only [labels_cons, List.mem_cons, List.mem_append, forall_eq_or_imp] at h
    obtain ⟨hitem, hbelow⟩ := h
    have hread := tdItemFromValue_item hitem (loadItems_items fun u hu => hbelow u (.inl hu))
    rw [tdItemsToArray, List.filterMap_cons_some hread, ih fun u hu => hbelow u (.inr hu)]
    rfl

/-! ### The object of a state -/

theorem plain_item (h : t.Utf8) (hchildren : ∀ v ∈ tdItemsToArray children, v.Plain) :
    (tdItemToValue ⟨t, children⟩).Plain := by
  have hnotes : (match t.notes with
      | some notes => ValueElement.string notes
      | none => .null).Plain := by
    cases hn : t.notes with
    | none => exact .null
    | some notes => exact .string (h.notes notes hn)
  have hstatus : ValidUtf8 (statusName t.status) := by
    cases t.status <;> exact validUtf8_of_isAscii (by decide)
  rw [tdItemToValue]
  refine .object ?_ ?_ ?_
  · simp only [List.mem_cons, List.not_mem_nil, or_false, forall_eq_or_imp, forall_eq]
    exact ⟨validUtf8_of_isAscii (by decide), validUtf8_of_isAscii (by decide),
      validUtf8_of_isAscii (by decide), validUtf8_of_isAscii (by decide)⟩
  · change ["title", "status", "notes", "children"].map ascii |>.Nodup
    decide
  · simp only [List.mem_cons, List.not_mem_nil, or_false, forall_eq_or_imp, forall_eq]
    exact ⟨.string h.content, .string hstatus, hnotes, .array hchildren⟩

theorem plain_items (h : ∀ t ∈ labels ts, t.Utf8) : ∀ v ∈ tdItemsToArray ts, v.Plain := by
  induction ts using Forest.induction with
  | nil => exact fun v hv => nomatch hv
  | cons t children rest ihc ihr =>
    simp only [labels_cons, List.mem_cons, List.mem_append, forall_eq_or_imp] at h
    obtain ⟨ht, hbelow⟩ := h
    rw [tdItemsToArray]
    exact List.forall_mem_cons.mpr ⟨plain_item ht (ihc fun u hu => hbelow u (.inl hu)),
      ihr fun u hu => hbelow u (.inr hu)⟩

/-- The texts of a state are valid. -/
def TodoState.Utf8 (st : TodoState) : Prop :=
  (∀ t ∈ labels st.todos, t.Utf8) ∧ ∀ t ∈ labels st.archivedTodos, t.Utf8

/-- Every item of a state survives. -/
def TodoState.Storable (st : TodoState) : Prop :=
  (∀ t ∈ labels st.todos, t.Storable) ∧ ∀ t ∈ labels st.archivedTodos, t.Storable

theorem plain_stateValues (h : st.Utf8) : (stateValues st).Plain := by
  refine .object ?_ ?_ ?_
  · simp only [stateValues, List.mem_cons, List.not_mem_nil, or_false, forall_eq_or_imp, forall_eq]
    exact ⟨validUtf8_of_isAscii (by decide), validUtf8_of_isAscii (by decide)⟩
  · change ["todos", "archived_todos"].map ascii |>.Nodup
    decide
  · simp only [stateValues, List.mem_cons, List.not_mem_nil, or_false, forall_eq_or_imp, forall_eq]
    exact ⟨.array (plain_items h.1), .array (plain_items h.2)⟩

/-- What the reader makes of a state with valid texts. -/
theorem deserializeState_serializeState (hjson : json.Faithful) (h : st.Utf8) :
    deserializeState json (serializeState json st) =
      .ok { todos := (tdItemsToArray st.todos).filterMap tdItemFromValue
            archivedTodos := (tdItemsToArray st.archivedTodos).filterMap tdItemFromValue } := by
  rw [deserializeState, serializeState, hjson.roundTrip _ (plain_stateValues h)]
  rfl

/-- A state of items that survive is read back. -/
theorem deserializeState_storable (hjson : json.Faithful) (h : st.Storable) :
    deserializeState json (serializeState json st) = .ok st.loaded := by
  rw [deserializeState_serializeState hjson ⟨fun t ht => (h.1 t ht).utf8, fun t ht => (h.2 t ht).utf8⟩,
    filterMap_items h.1, filterMap_items h.2]
  rfl

end KimixNative.Todo
