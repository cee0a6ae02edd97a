import KimixNative.Todo.TreeInvariant

/-!
# Reloading a state

Titles and notes enter the tree by several routes. All of them but one trim a title and refuse a
blank one; a bare title in a list of operations is only trimmed. An item that is created under a
blank title is dropped when the state is read back, together with the items around it in its
subtree of the first level. As long as no operation creates such an item, every state of a run is
read back whole.
-/

namespace KimixNative.Todo

open Text Forest Tools

/-! ### The routes -/

theorem parseTitleField_ok {name title : Bytes} {value : Option ValueElement}
    (hvalue : ∀ v, value = some v → v.Utf8) (h : parseTitleField name value = .ok title) :
    tdTrim title = title ∧ title ≠ [] ∧ ValidUtf8 title := by
  unfold parseTitleField at h
  split at h
  · cases h
  · cases h
  · rename_i s
    dsimp only at h
    split at h
    · cases h
    · rename_i hne
      split at h
      · cases h
      · obtain rfl := Except.ok.inj h
        cases hvalue _ rfl with
        | string hs => exact ⟨tdTrim_idem s, hne, validUtf8_tdTrim hs⟩
  · cases h

theorem isAscii_intText (i : Int) : isAscii (intText i) = true := by
  cases i with
  | ofNat n => exact isAscii_decimal n
  | negSucc n => exact isAscii_append.mpr ⟨by decide, isAscii_decimal _⟩

theorem validUtf8_tdStringify {v : ValueElement} {s : Bytes} (hv : v.Utf8)
    (h : tdStringify v = some s) : ValidUtf8 s := by
  cases hv with
  | null | array | object => cases h
  | bool b =>
    obtain rfl := Option.some.inj h
    cases b <;> exact validUtf8_of_isAscii (by decide)
  | int i =>
    obtain rfl := Option.some.inj h
    exact validUtf8_of_isAscii (isAscii_intText i)
  | uint u =>
    obtain rfl := Option.some.inj h
    exact validUtf8_of_isAscii (isAscii_decimal u)
  | real d =>
    obtain rfl := Option.some.inj h
    exact validUtf8_of_isAscii d.ascii
  | string hs =>
    obtain rfl := Option.some.inj h
    exact hs

theorem parseNotesField_ok {value : Option ValueElement} {notes : Option Bytes}
    (hvalue : ∀ v, value = some v → v.Utf8) (h : parseNotesField value = .ok notes) :
    ∀ raw, notes = some raw → ValidUtf8 raw := by
  unfold parseNotesField at h
  split at h
  · obtain rfl := Except.ok.inj h
    exact fun raw hraw => nomatch hraw
  · obtain rfl := Except.ok.inj h
    exact fun raw hraw => nomatch hraw
  · split at h
    · cases h
    · rename_i raw hraw
      split at h
      · cases h
      · obtain rfl := Except.ok.inj h
        intro raw' hraw'
        obtain rfl := Option.some.inj hraw'
        exact validUtf8_tdStringify (hvalue _ rfl) hraw

variable {status : TodoStatus} {obj : ToolParams} {elements : List ValueElement} {node : TodoItem}
  {path : List Nat} {updated : List TodoItem}

/-- The fields that pass the checks make an item that survives. -/
theorem storable_of_fields {content : Bytes} {raw : Option Bytes} {provided : Bool}
    (hcontent : tdTrim content = content ∧ content ≠ [] ∧ ValidUtf8 content)
    (hraw : ∀ notes, raw = some notes → ValidUtf8 notes) :
    Item.Storable
      { content, status, notes := raw.bind strippedNotes, childrenProvided := provided } where
  utf8 := by
    refine ⟨hcontent.2.2, fun notes hnotes => ?_⟩
    obtain ⟨sent, hsent, hstripped⟩ := Option.bind_eq_some_iff.mp hnotes
    exact validUtf8_strippedNotes (hraw sent hsent) hstripped
  trimmed := hcontent.1
  named := hcontent.2.1
  stripped notes hnotes := by
    obtain ⟨sent, -, hstripped⟩ := Option.bind_eq_some_iff.mp hnotes
    exact strippedNotes_idem hstripped

mutual

/-- Everything in an item that is parsed survives. -/
theorem tdParseItem_storable : ∀ (value : ValueElement), value.Utf8 → ∀ t,
    tdParseItem value = .ok t → ∀ item ∈ t.labels, item.Storable
  | .object values, hvalue, t, h => by
      rw [tdParseItem] at h
      have hobj : ({ values } : ToolParams).values.Utf8 := hvalue
      obtain ⟨content, hcontent, h⟩ := bind_eq_ok.mp h
      obtain ⟨status, -, h⟩ := bind_eq_ok.mp h
      obtain ⟨notes, hnotes, h⟩ := bind_eq_ok.mp h
      obtain ⟨children, hchildren, h⟩ := bind_eq_ok.mp h
      obtain rfl := Except.ok.inj h
      have hmembers : ∀ entry ∈ values, entry.2.Utf8 := by
        cases hvalue with
        | object keys h => exact h
      intro item hitem
      rw [Node.labels_eq, List.mem_cons] at hitem
      rcases hitem with rfl | hitem
      · refine storable_of_fields
          (parseTitleField_ok (fun v hv => ToolParams.utf8_of_firstPresent hobj hv) hcontent)
          (parseNotesField_ok (fun v hv => ?_) hnotes)
        rw [Option.or_eq_some_iff] at hv
        exact hv.elim (ToolParams.utf8_of_get hobj) fun hv => ToolParams.utf8_of_get hobj hv.2
      · cases children with
        | none => cases hitem
        | some ts => exact tdParseChildren_storable values hmembers ts hchildren item hitem
  | .null, _, _, h => by cases h
  | .bool _, _, _, h => by cases h
  | .int _, _, _, h => by cases h
  | .uint _, _, _, h => by cases h
  | .real _, _, _, h => by cases h
  | .string _, _, _, h => by cases h
  | .array _, _, _, h => by cases h

theorem tdParseChildren_storable : ∀ (values : List (Bytes × ValueElement)),
    (∀ entry ∈ values, entry.2.Utf8) → ∀ ts, tdParseChildren values = .ok (some ts) →
      ∀ item ∈ labels ts, item.Storable
  | [], _, ts, h => by cases h
  | (key, value) :: rest, hvalues, ts, h => by
      obtain ⟨hvalue, hrest⟩ := List.forall_mem_cons.mp hvalues
      rw [tdParseChildren.eq_def] at h
      dsimp only at h
      split at h
      · cases value with
        | array elements =>
          obtain ⟨children, hchildren, hts⟩ := map_eq_ok.mp h
          obtain rfl := Option.some.inj hts
          cases hvalue with
          | array helements => exact tdParseChildList_storable elements helements 0 _ hchildren
        | null | bool | int | uint | real | string | object => cases h
      · exact tdParseChildren_storable rest hrest ts h

theorem tdParseChildList_storable : ∀ (elements : List ValueElement),
    (∀ v ∈ elements, v.Utf8) → ∀ i ts, tdParseChildList i elements = .ok ts →
      ∀ item ∈ labels ts, item.Storable
  | [], _, _, ts, h => by
      obtain rfl := Except.ok.inj h
      exact fun item hitem => nomatch hitem
  | element :: rest, helements, i, ts, h => by
      obtain ⟨helement, hrest⟩ := List.forall_mem_cons.mp helements
      rw [tdParseChildList] at h
      split at h
      · cases h
      · rename_i child hchild
        obtain ⟨children, hchildren, rfl⟩ := map_eq_ok.mp h
        intro item hitem
        rw [labels_cons, ← List.cons_append, ← Node.labels_eq, List.mem_append] at hitem
        exact hitem.elim (tdParseItem_storable element helement child hchild item)
          (tdParseChildList_storable rest hrest (i + 1) children hchildren item)

end

/-- An operation whose texts are trimmed and valid. Its title may be blank. -/
structure UpdateOp.Clean (op : UpdateOp) : Prop where
  trimmed : tdTrim op.title = op.title
  utf8 : ValidUtf8 op.title
  notes : ∀ raw, op.notes = some raw → ValidUtf8 raw
  renameTo : ∀ title, op.renameTo = some title →
    tdTrim title = title ∧ title ≠ [] ∧ ValidUtf8 title

theorem bareTitle_clean {s : Bytes} (hs : ValidUtf8 s) :
    UpdateOp.Clean { title := tdTrim s } :=
  ⟨tdTrim_idem s, validUtf8_tdTrim hs, fun _ h => (nomatch h), fun _ h => (nomatch h)⟩

variable {op : UpdateOp} {ops : List UpdateOp} {value : ValueElement} {ts : List TodoItem}
  {params : WriteParams} {maxLayers : Nat}

theorem withCommonParent_clean (h : op.Clean) (parent : Option Bytes) :
    (withCommonParent parent op).Clean := ⟨h.trimmed, h.utf8, h.notes, h.renameTo⟩

theorem parseTextField_ok (hobj : obj.values.Utf8) {name : String} {text : Option Bytes}
    (h : parseTextField obj name = .ok text) : ∀ s, text = some s → tdTrim s = s ∧ ValidUtf8 s := by
  unfold parseTextField at h
  split at h
  · obtain rfl := Except.ok.inj h
    exact fun s hs => nomatch hs
  · obtain rfl := Except.ok.inj h
    exact fun s hs => nomatch hs
  · rename_i raw hraw
    obtain rfl := Except.ok.inj h
    intro s hs
    obtain rfl := Option.some.inj hs
    cases ToolParams.utf8_of_get hobj hraw with
    | string hraw => exact ⟨tdTrim_idem raw, validUtf8_tdTrim hraw⟩
  · cases h

theorem tdParseOp_clean (hobj : obj.values.Utf8) (h : tdParseOp obj = .ok op) : op.Clean := by
  unfold tdParseOp at h
  obtain ⟨title, htitle, h⟩ := bind_eq_ok.mp h
  obtain ⟨status, -, h⟩ := bind_eq_ok.mp h
  obtain ⟨notes, hnotes, h⟩ := bind_eq_ok.mp h
  obtain ⟨renameTo, hrename, h⟩ := bind_eq_ok.mp h
  obtain ⟨parent, -, h⟩ := bind_eq_ok.mp h
  obtain ⟨fuzzy, -, h⟩ := bind_eq_ok.mp h
  obtain ⟨force, -, h⟩ := bind_eq_ok.mp h
  obtain ⟨complete, -, h⟩ := bind_eq_ok.mp h
  obtain rfl := Except.ok.inj h
  obtain ⟨htrimmed, -, hutf8⟩ :=
    parseTitleField_ok (fun v hv => ToolParams.utf8_of_firstPresent hobj hv) htitle
  refine ⟨htrimmed, hutf8, parseNotesField_ok (fun v hv => ToolParams.utf8_of_get hobj hv) hnotes,
    fun s hs => ?_⟩
  obtain ⟨hs, hne⟩ := Option.filter_eq_some_iff.mp hs
  obtain ⟨htrim, hvalid⟩ := parseTextField_ok hobj hrename s hs
  exact ⟨htrim, by simpa using hne, hvalid⟩

theorem parseOpList_clean (helements : ∀ v ∈ elements, v.Utf8) {i : Nat}
    (h : parseOpList i elements = .ok ops) : ∀ op ∈ ops, op.Clean := by
  induction elements generalizing i ops with
  | nil =>
    obtain rfl := Except.ok.inj h
    exact fun op hop => nomatch hop
  | cons element rest ih =>
    obtain ⟨helement, hrest⟩ := List.forall_mem_cons.mp helements
    cases helement with
    | null | bool | int | uint | real | array => cases h
    | string hs =>
      obtain ⟨ops, hops, rfl⟩ := map_eq_ok.mp h
      exact List.forall_mem_cons.mpr ⟨bareTitle_clean hs, ih hrest hops⟩
    | @object values keys hvalues =>
      rw [parseOpList] at h
      split at h
      · cases h
      · rename_i op hop
        obtain ⟨ops, hops, rfl⟩ := map_eq_ok.mp h
        exact List.forall_mem_cons.mpr
          ⟨tdParseOp_clean (ValueElement.Utf8.object keys hvalues) hop, ih hrest hops⟩

theorem parseOps_clean (hvalue : value.Utf8) (h : parseOps value = .ok ops) :
    ∀ op ∈ ops, op.Clean := by
  cases hvalue with
  | null | bool | int | uint | real | string => cases h
  | array helements => exact parseOpList_clean helements h
  | @object values keys hvalues =>
    rw [parseOps] at h
    split at h
    · cases h
    · rename_i op hop
      obtain rfl := Except.ok.inj h
      exact List.forall_mem_singleton.mpr
        (tdParseOp_clean (ValueElement.Utf8.object keys hvalues) hop)

theorem parseTodoList_storable (helements : ∀ v ∈ elements, v.Utf8) {i : Nat}
    (h : parseTodoList i elements = .ok ts) : ∀ item ∈ labels ts, item.Storable := by
  induction elements generalizing i ts with
  | nil =>
    obtain rfl := Except.ok.inj h
    exact fun item hitem => nomatch hitem
  | cons element rest ih =>
    obtain ⟨helement, hrest⟩ := List.forall_mem_cons.mp helements
    rw [parseTodoList] at h
    split at h
    · cases h
    · rename_i t ht
      obtain ⟨ts, hts, rfl⟩ := map_eq_ok.mp h
      intro item hitem
      rw [labels_cons, ← List.cons_append, ← Node.labels_eq, List.mem_append] at hitem
      exact hitem.elim (tdParseItem_storable element helement t ht item) (ih hrest hts item)

section Parsing

variable {json : JsonLibrary} (hjson : json.Faithful)

include hjson

theorem embedded_utf8 {text key : Bytes} (h : tdParseEmbeddedJson json text key = some value) :
    value.Utf8 := by
  unfold tdParseEmbeddedJson at h
  dsimp only at h
  split at h
  · obtain ⟨values, hvalues, hget⟩ := Option.bind_eq_some_iff.mp h
    have hobj : ({ values } : ToolParams).values.Utf8 :=
      hjson.utf8 _ values (eq_ok_of_toOption hvalues)
    exact ToolParams.utf8_of_get hobj hget
  · cases h

theorem parseUpdates_clean (hvalue : value.Utf8) (h : parseUpdates json value = .ok ops) :
    ∀ op ∈ ops, op.Clean := by
  unfold parseUpdates at h
  split at h
  · rename_i s
    cases hvalue with
    | string hs =>
      split at h
      · rename_i embedded hembedded
        exact parseOps_clean (embedded_utf8 hjson hembedded) h
      · split at h
        · cases h
        · obtain rfl := Except.ok.inj h
          exact List.forall_mem_singleton.mpr (bareTitle_clean hs)
  · exact parseOps_clean hvalue h

variable {values : ValueMap}

theorem parseUpdateParams_clean (hvalues : values.Utf8)
    (h : parseUpdateParams json (some values) = .ok ops) : ∀ op ∈ ops, op.Clean := by
  have hparams : (({ values } : ToolParams).withAliases kTodoUpdateAliases).values.Utf8 := by
    rwa [ToolParams.withAliases_values]
  have hsingle : parseSingleUpdate (({ values } : ToolParams).withAliases kTodoUpdateAliases) =
      .ok ops → ∀ op ∈ ops, op.Clean := by
    intro h
    unfold parseSingleUpdate at h
    split at h
    · cases h
    · cases h
    · obtain ⟨op, hop, rfl⟩ := map_eq_ok.mp (mapError_eq_ok.mp h)
      exact List.forall_mem_singleton.mpr (tdParseOp_clean hparams hop)
  unfold parseUpdateParams at h
  dsimp only at h
  split at h
  · exact hsingle h
  · exact hsingle h
  · rename_i value hvalue
    obtain ⟨sent, hsent, h⟩ := bind_eq_ok.mp h
    split at h
    · cases h
    · obtain ⟨parent, -, h⟩ := bind_eq_ok.mp h
      obtain rfl := Except.ok.inj h
      have hclean := parseUpdates_clean hjson (ToolParams.utf8_of_firstPresent hparams hvalue) hsent
      intro op hop
      obtain ⟨sentOp, hsentOp, rfl⟩ := List.mem_map.mp hop
      exact withCommonParent_clean (hclean sentOp hsentOp) parent

theorem parseTodos_storable (hvalue : value.Utf8) (h : parseTodos json value = .ok ts) :
    ∀ item ∈ labels ts, item.Storable := by
  have hsource : ∀ source, todosSource json value = some source → source.Utf8 := by
    intro source hsource
    cases hvalue with
    | string hs => exact embedded_utf8 hjson hsource
    | null => exact Option.some.inj hsource ▸ .null
    | bool b => exact Option.some.inj hsource ▸ .bool b
    | int i => exact Option.some.inj hsource ▸ .int i
    | uint u => exact Option.some.inj hsource ▸ .uint u
    | real d => exact Option.some.inj hsource ▸ .real d
    | array helements => exact Option.some.inj hsource ▸ .array helements
    | object keys hvalues => exact Option.some.inj hsource ▸ .object keys hvalues
  unfold parseTodos at h
  split at h
  · rename_i elements hfound
    cases hsource _ hfound with
    | array helements => exact parseTodoList_storable helements h
  · rename_i values hfound
    split at h
    · cases h
    · rename_i t ht
      obtain rfl := Except.ok.inj h
      intro item hitem
      rw [labels_cons, ← List.cons_append, ← Node.labels_eq, labels_nil, List.append_nil] at hitem
      exact tdParseItem_storable _ (hsource _ hfound) t ht item hitem
  · cases h

theorem parseWriteParams_storable (hvalues : values.Utf8)
    (h : parseWriteParams json (some values) = .ok params) :
    ∀ item ∈ labels params.todos, item.Storable := by
  unfold parseWriteParams at h
  dsimp only at h
  obtain ⟨todos, htodos, h⟩ := bind_eq_ok.mp h
  obtain ⟨⟨mode, forceFromMode⟩, -, h⟩ := bind_eq_ok.mp h
  obtain ⟨force, -, h⟩ := bind_eq_ok.mp h
  obtain ⟨autoFix, -, h⟩ := bind_eq_ok.mp h
  obtain rfl := Except.ok.inj h
  unfold parseTodosMember at htodos
  split at htodos
  · obtain rfl := Except.ok.inj htodos
    exact fun item hitem => nomatch hitem
  · obtain rfl := Except.ok.inj htodos
    exact fun item hitem => nomatch hitem
  · rename_i value hvalue
    obtain ⟨ts, hts, rfl⟩ := map_eq_ok.mp htodos
    refine parseTodos_storable hjson (ToolParams.utf8_of_firstPresent ?_ hvalue) hts
    rwa [ToolParams.withAliases_values]

end Parsing

/-! ### Writes -/

theorem forall_labels_iff {P : Item → Prop} :
    (∀ item ∈ labels ts, P item) ↔ ∀ t ∈ ts, ∀ item ∈ t.labels, P item := by
  constructor
  · exact fun h t ht item hitem => h item (mem_labels.mpr ⟨t, ht, hitem⟩)
  · intro h item hitem
    obtain ⟨t, ht, hitem⟩ := mem_labels.mp hitem
    exact h t ht item hitem

/-- The status of an item does not matter. -/
theorem Item.Storable.withStatus {t : Item} (h : t.Storable) (status : TodoStatus) :
    ({ t with status } : Item).Storable := ⟨⟨h.utf8.content, h.utf8.notes⟩, h.trimmed, h.named, h.stripped⟩

theorem demote_storable (slots : Nat) (t : Item) (h : t.Storable) :
    (demote slots t).2.Storable := by
  unfold demote
  split
  · exact h.withStatus _
  · exact h

theorem autoFixInProgress_storable (h : ∀ item ∈ labels ts, item.Storable) :
    ∀ item ∈ labels (autoFixInProgress ts), item.Storable := by
  unfold autoFixInProgress
  dsimp only
  split
  · exact h
  · have hlabels := congrArg Prod.snd
      (labels_mapAccum demote ((labels ts).countP Item.isInProgress - 1) ts)
    dsimp only at hlabels
    rw [hlabels]
    exact forall_mem_relabel demote_storable _ h

theorem tdMergeOne_storable {o n : TodoItem} (ho : ∀ item ∈ o.labels, item.Storable)
    (hn : ∀ item ∈ n.labels, item.Storable) : ∀ item ∈ (tdMergeOne o n).labels, item.Storable := by
  rw [Node.labels_eq, List.forall_mem_cons] at ho hn ⊢
  constructor
  · have hnotes : ∀ notes, n.label.notes.or o.label.notes = some notes →
        ValidUtf8 notes ∧ strippedNotes notes = some notes := by
      intro notes hnotes
      rw [Option.or_eq_some_iff] at hnotes
      rcases hnotes with hnotes | ⟨-, hnotes⟩
      · exact ⟨hn.1.utf8.notes notes hnotes, hn.1.stripped notes hnotes⟩
      · exact ⟨ho.1.utf8.notes notes hnotes, ho.1.stripped notes hnotes⟩
    exact ⟨⟨ho.1.utf8.content, fun notes h => (hnotes notes h).1⟩, ho.1.trimmed, ho.1.named,
      fun notes h => (hnotes notes h).2⟩
  · unfold tdMergeOne
    dsimp only
    split
    · exact hn.2
    · exact ho.2

theorem tdMergeByTitleUpdate_storable {oldTodos newTodos : List TodoItem}
    (hold : ∀ item ∈ labels oldTodos, item.Storable)
    (hnew : ∀ item ∈ labels newTodos, item.Storable) :
    ∀ item ∈ labels (tdMergeByTitleUpdate oldTodos newTodos), item.Storable := by
  rw [forall_labels_iff] at hold hnew ⊢
  intro t ht
  rcases List.mem_append.mp ht with ht | ht
  · obtain ⟨o, ho, rfl⟩ := List.mem_map.mp ht
    split
    · rename_i n hn
      exact tdMergeOne_storable (hold o ho)
        (hnew n (List.mem_reverse.mp (List.mem_of_find?_eq_some hn)))
    · exact hold o ho
  · exact hnew t (List.mem_filter.mp ht).1

theorem writeBranch_storable {old newTodos : List TodoItem}
    (hold : ∀ item ∈ labels old, item.Storable)
    (hparams : ∀ item ∈ labels params.todos, item.Storable)
    (h : writeBranch old params = .ok (some newTodos)) :
    ∀ item ∈ labels newTodos, item.Storable := by
  unfold writeBranch at h
  dsimp only at h
  split at h
  · split at h
    · cases h
    · obtain rfl := Option.some.inj (Except.ok.inj h)
      exact fun item hitem => nomatch hitem
  · split at h
    · cases h
    · obtain rfl := Option.some.inj (Except.ok.inj h)
      exact hparams
  · split at h
    · cases Except.ok.inj h
    · obtain rfl := Option.some.inj (Except.ok.inj h)
      split
      · exact hparams
      · exact tdMergeByTitleUpdate_storable hold hparams

theorem clampRegressions_storable {old newTodos clamped : List TodoItem}
    (hnew : ∀ item ∈ labels newTodos, item.Storable)
    (h : clampRegressions old params newTodos = .ok clamped) :
    ∀ item ∈ labels clamped, item.Storable := by
  unfold clampRegressions at h
  split at h
  · dsimp only at h
    split at h
    · cases h
    · obtain rfl := Except.ok.inj h
      unfold tdCheckRegressions
      dsimp only
      rw [labels_map]
      intro item hitem
      obtain ⟨t, ht, rfl⟩ := List.mem_map.mp hitem
      split
      · exact (hnew t ht).withStatus _
      · exact hnew t ht
  · obtain rfl := Except.ok.inj h
    exact hnew

theorem enforceSingle_storable {clamped final : List TodoItem}
    (hclamped : ∀ item ∈ labels clamped, item.Storable)
    (h : enforceSingle params clamped = .ok final) : ∀ item ∈ labels final, item.Storable := by
  unfold enforceSingle at h
  split at h
  · dsimp only at h
    split at h
    · obtain rfl := Except.ok.inj h
      exact hclamped
    · split at h
      · obtain rfl := Except.ok.inj h
        exact autoFixInProgress_storable hclamped
      · cases h
  · obtain rfl := Except.ok.inj h
    exact hclamped

theorem archiveDropped_storable {old : TodoState} (hold : old.Storable) (params : WriteParams)
    (finalTodos : List TodoItem) :
    ∀ item ∈ labels (archiveDropped old params finalTodos), item.Storable := by
  unfold archiveDropped
  split
  · rw [forall_labels_iff]
    intro t ht
    rcases List.mem_append.mp (List.mem_of_mem_drop ht) with ht | ht
    · exact forall_labels_iff.mp hold.2 t ht
    · exact forall_labels_iff.mp hold.1 t (List.mem_filter.mp ht).1
  · exact hold.2

/-- A write of items that survive keeps a state that survives. -/
theorem writeTodos_storable {old committed : TodoState} (hold : old.Storable)
    (hparams : ∀ item ∈ labels params.todos, item.Storable)
    (h : writeTodos maxLayers old params = .ok (some committed)) : committed.Storable := by
  unfold writeTodos at h
  obtain ⟨_, -, h⟩ := bind_eq_ok.mp h
  obtain ⟨newTodos?, hbranch, h⟩ := bind_eq_ok.mp h
  cases newTodos? with
  | none => cases Except.ok.inj h
  | some newTodos =>
    obtain ⟨_, -, h⟩ := bind_eq_ok.mp h
    obtain ⟨clamped, hclamp, h⟩ := bind_eq_ok.mp h
    obtain ⟨final, hsingle, h⟩ := bind_eq_ok.mp h
    obtain rfl := Option.some.inj (Except.ok.inj h)
    have hclamped := clampRegressions_storable (writeBranch_storable hold.1 hparams hbranch) hclamp
    exact ⟨enforceSingle_storable hclamped hsingle, archiveDropped_storable hold params clamped⟩

/-! ### Updates -/

/-- The operation creates an item under a blank title: its parent is found, and is not too deep
for a child. -/
def CreatesBlank (maxLayers : Nat) (todos : List TodoItem) (op : UpdateOp) : Prop :=
  op.title = [] ∧ ∃ parent, op.parent = some parent ∧
    ∃ path title, resolveParent todos parent op.fuzzy = .ok (path, title) ∧ path.length ≤ maxLayers

/-- No operation of the batch creates an item under a blank title. -/
def NoBlank (maxLayers : Nat) (todos : List TodoItem) : List UpdateOp → Prop
  | [] => True
  | op :: ops => ¬ CreatesBlank maxLayers todos op ∧
      ∀ applied, tdApplyOneUpdate maxLayers todos op = .ok applied →
        NoBlank maxLayers (autoFixed applied) ops

/-- An update of an item under a title that survives. -/
theorem updateNode_storable {title : Bytes} (hop : op.Clean)
    (htitle : tdTrim title = title ∧ title ≠ [] ∧ ValidUtf8 title)
    (hnode : ∀ item ∈ node.labels, item.Storable) :
    ∀ item ∈ (updateNode title status op node).labels, item.Storable := by
  rw [Node.labels_eq, List.forall_mem_cons] at hnode
  have hfields : ∀ item ∈ (setFields title status op node).labels, item.Storable := by
    rw [Node.labels_eq, List.forall_mem_cons]
    refine ⟨?_, hnode.2⟩
    have hnotes : ∀ notes, (setFields title status op node).label.notes = some notes →
        ValidUtf8 notes ∧ strippedNotes notes = some notes := by
      intro notes hnotes
      unfold setFields at hnotes
      dsimp only at hnotes
      split at hnotes
      · exact ⟨hnode.1.utf8.notes notes hnotes, hnode.1.stripped notes hnotes⟩
      · rename_i raw hraw
        exact ⟨validUtf8_strippedNotes (hop.notes raw hraw) hnotes, strippedNotes_idem hnotes⟩
    exact ⟨⟨htitle.2.2, fun notes h => (hnotes notes h).1⟩, htitle.1, htitle.2.1,
      fun notes h => (hnotes notes h).2⟩
  unfold updateNode
  split
  · rw [markSubtreeDone, Node.map_eq, Node.labels_eq, List.forall_mem_cons]
    rw [Node.labels_eq, List.forall_mem_cons] at hfields
    refine ⟨hfields.1.withStatus _, ?_⟩
    rw [labels_map]
    intro item hitem
    obtain ⟨t, ht, rfl⟩ := List.mem_map.mp hitem
    exact (hfields.2 t ht).withStatus _
  · exact hfields

variable {todos : List TodoItem}

theorem tdApplyUpdateToTree_storable {matched : Bytes} (hnode : nodeAt path todos = some node)
    (hmatched : node.label.content = matched) (hop : op.Clean)
    (htodos : ∀ item ∈ labels todos, item.Storable)
    (h : tdApplyUpdateToTree todos path matched op = .ok updated) :
    ∀ item ∈ labels updated, item.Storable := by
  unfold tdApplyUpdateToTree at h
  rw [hnode] at h
  obtain ⟨_, -, h⟩ := bind_eq_ok.mp h
  obtain ⟨_, -, h⟩ := bind_eq_ok.mp h
  obtain ⟨title, htitle, h⟩ := bind_eq_ok.mp h
  obtain rfl := Except.ok.inj h
  have hlabel := htodos _ (labels_nodeAt hnode (node.labels_eq ▸ List.mem_cons_self))
  have hkept : tdTrim title = title ∧ title ≠ [] ∧ ValidUtf8 title := by
    unfold finalTitle at htitle
    split at htitle
    · obtain rfl := hmatched.trans (Except.ok.inj htitle)
      exact ⟨hlabel.trimmed, hlabel.named, hlabel.utf8.content⟩
    · rename_i renameTo hrename
      split at htitle
      · obtain rfl := hmatched.trans (Except.ok.inj htitle)
        exact ⟨hlabel.trimmed, hlabel.named, hlabel.utf8.content⟩
      · split at htitle
        · cases htitle
        · obtain rfl := Except.ok.inj htitle
          exact hop.renameTo renameTo hrename
  intro item hitem
  rcases labels_modifyAt hitem with hitem | ⟨t, ht, hitem⟩
  · exact htodos item hitem
  · exact updateNode_storable hop hkept (fun item hitem => htodos item (labels_nodeAt ht hitem))
      item hitem

theorem newChild_storable (hop : op.Clean) (hne : op.title ≠ []) : (newChild op).label.Storable :=
  storable_of_fields ⟨hop.trimmed, hne, hop.utf8⟩ hop.notes

theorem addChild_storable (hchild : (newChild op).label.Storable)
    (htodos : ∀ item ∈ labels todos, item.Storable) :
    ∀ item ∈ labels (addChild todos path (newChild op)), item.Storable := by
  have hnew : ∀ item ∈ labels [newChild op], item.Storable := by
    rw [labels_cons, labels_nil, List.append_nil]
    exact List.forall_mem_cons.mpr ⟨hchild, fun item hitem => nomatch hitem⟩
  unfold addChild
  split
  · intro item hitem
    rcases labels_modifyAt hitem with hitem | ⟨t, ht, hitem⟩
    · exact htodos item hitem
    · rw [Node.labels_eq, labels_append, List.mem_cons, List.mem_append] at hitem
      have hbelow := labels_nodeAt ht
      rw [Node.labels_eq] at hbelow
      rcases hitem with rfl | hitem | hitem
      · exact htodos _ (hbelow List.mem_cons_self)
      · exact htodos _ (hbelow (List.mem_cons_of_mem _ hitem))
      · exact hnew item hitem
  · rw [labels_append]
    intro item hitem
    exact (List.mem_append.mp hitem).elim (htodos item) (hnew item)

theorem tdApplyOneUpdate_storable (hop : op.Clean) (hblank : ¬ CreatesBlank maxLayers todos op)
    (htodos : ∀ item ∈ labels todos, item.Storable)
    (h : tdApplyOneUpdate maxLayers todos op = .ok updated) :
    ∀ item ∈ labels updated, item.Storable := by
  unfold tdApplyOneUpdate at h
  split at h
  · split at h
    · cases h
    · obtain ⟨⟨path, matched⟩, hpath, h⟩ := bind_eq_ok.mp h
      obtain ⟨node, hnode, hmatched⟩ := resolveTitle_sound hpath
      exact tdApplyUpdateToTree_storable hnode hmatched hop htodos h
  · rename_i parent hparent
    obtain ⟨⟨path, title⟩, hpath, h⟩ := bind_eq_ok.mp h
    dsimp only at h
    split at h
    · rename_i index hindex
      obtain ⟨hlt, htitle, -⟩ := List.findIdx?_eq_some_iff_getElem.mp hindex
      have hnode := nodeAt_of_scope (resolveParent_sound hpath) (List.getElem?_eq_getElem hlt)
      exact tdApplyUpdateToTree_storable hnode (eq_of_beq htitle) hop htodos h
    · obtain ⟨_, hcreate, h⟩ := bind_eq_ok.mp h
      obtain rfl := Except.ok.inj h
      refine addChild_storable (newChild_storable hop fun htitle => ?_) htodos
      exact hblank ⟨htitle, parent, hparent, path, title, hpath, checkCreate_depth hcreate⟩

theorem autoFixed_storable (h : ∀ item ∈ labels todos, item.Storable) :
    ∀ item ∈ labels (autoFixed todos), item.Storable := by
  unfold autoFixed
  split
  · exact h
  · exact autoFixInProgress_storable h

theorem updateLoop_storable (hops : ∀ op ∈ ops, op.Clean) (hblank : NoBlank maxLayers todos ops)
    (htodos : ∀ item ∈ labels todos, item.Storable)
    (h : updateLoop maxLayers todos ops = .ok updated) :
    ∀ item ∈ labels updated, item.Storable := by
  induction ops generalizing todos with
  | nil =>
    obtain rfl := Except.ok.inj h
    exact htodos
  | cons op ops ih =>
    obtain ⟨hop, hops⟩ := List.forall_mem_cons.mp hops
    rw [updateLoop] at h
    split at h
    · cases h
    · rename_i applied happlied
      exact ih hops (hblank.2 applied happlied)
        (autoFixed_storable (tdApplyOneUpdate_storable hop hblank.1 htodos happlied)) h

/-! ### Runs -/

/-- The texts of the parameters are valid. -/
def Call.Utf8 (call : Call) : Prop := ∀ values, call.parameters = some values → values.Utf8

/-- The call does not create an item under a blank title. -/
def Call.Titled (json : JsonLibrary) (maxLayers : Nat) (st : TodoState) (call : Call) : Prop :=
  flowOf call.parameters = .update →
    ∀ ops, parseUpdateParams json call.parameters = .ok ops → NoBlank maxLayers st.todos ops

theorem sessionStep_storable {json : JsonLibrary} (hjson : json.Faithful) {st : TodoState}
    {call : Call} (hst : st.Storable) (hutf8 : call.Utf8) (hcall : call.Titled json maxLayers st) :
    (sessionStep json maxLayers st call).Storable := by
  rw [sessionStep_eq]
  split
  · rename_i committed hrun
    unfold runCall at hrun
    split at hrun
    · obtain ⟨params, hparams, hwrite⟩ := bind_eq_ok.mp hrun
      refine writeTodos_storable hst ?_ hwrite
      cases hvalues : call.parameters with
      | none =>
        rw [hvalues] at hparams
        obtain rfl := Except.ok.inj hparams
        exact fun item hitem => nomatch hitem
      | some values =>
        rw [hvalues] at hparams
        exact parseWriteParams_storable hjson (hutf8 values hvalues) hparams
    · rename_i hflow
      obtain ⟨ops, hops, hupdate⟩ := bind_eq_ok.mp hrun
      obtain ⟨todos, htodos, hcommitted⟩ := map_eq_ok.mp hupdate
      obtain rfl := Option.some.inj hcommitted
      have hblank := hcall hflow ops hops
      cases hvalues : call.parameters with
      | none => rw [hvalues] at hops; cases hops
      | some values =>
        rw [hvalues] at hops
        have hclean := parseUpdateParams_clean hjson (hutf8 values hvalues) hops
        exact ⟨updateLoop_storable hclean hblank hst.1 htodos, hst.2⟩
    · obtain ⟨_, -, hnone⟩ := map_eq_ok.mp hrun
      cases hnone
  · exact hst

theorem TodoState.Storable.empty : TodoState.Storable {} := by
  simp [TodoState.Storable]

/-- Operations with titles create no item under a blank one. -/
theorem noBlank_of_titles (h : ∀ op ∈ ops, op.title ≠ []) (todos : List TodoItem) :
    NoBlank maxLayers todos ops := by
  induction ops generalizing todos with
  | nil => trivial
  | cons op ops ih =>
    obtain ⟨hop, hops⟩ := List.forall_mem_cons.mp h
    exact ⟨fun hblank => hop hblank.1, fun applied _ => ih hops _⟩

/-- In a run in which no call creates an item under a blank title, every state is read back from
what is written of it. -/
theorem todoList_reload (json : JsonLibrary) (hjson : json.Faithful) (maxLayers : Nat)
    (calls : List Call)
    (hcalls : Meets (sessionStep json maxLayers)
      (fun st call => call.Utf8 ∧ call.Titled json maxLayers st) {} calls) :
    deserializeState json (serializeState json (run (sessionStep json maxLayers) {} calls)) =
      .ok (run (sessionStep json maxLayers) {} calls).loaded :=
  deserializeState_storable hjson
    (Meets.invariant (fun _ _ hst hcall => sessionStep_storable hjson hst hcall.1 hcall.2)
      TodoState.Storable.empty hcalls)

/-- A list of bare titles under a parent. -/
def bareTitles (titles : List String) (parent : String) : Call where
  parameters := some [
    (ascii "updates", .array (titles.map fun title => .string (ascii title))),
    (ascii "parent", .string (ascii parent))]

theorem bareTitles_utf8 (titles : List String) (parent : String)
    (h : (titles.all fun title => isAscii (ascii title)) && isAscii (ascii parent)) :
    (bareTitles titles parent).Utf8 := by
  obtain ⟨htitles, hparent⟩ := Bool.and_eq_true_iff.mp h
  intro values hvalues
  obtain rfl := Option.some.inj hvalues
  refine .object ?_ ?_
  · simp only [List.mem_cons, List.not_mem_nil, or_false, forall_eq_or_imp, forall_eq]
    exact ⟨validUtf8_of_isAscii (by decide), validUtf8_of_isAscii (by decide)⟩
  · simp only [List.mem_cons, List.not_mem_nil, or_false, forall_eq_or_imp, forall_eq]
    refine ⟨.array fun v hv => ?_, .string (validUtf8_of_isAscii hparent)⟩
    obtain ⟨title, htitle, rfl⟩ := List.mem_map.mp hv
    exact .string (validUtf8_of_isAscii (List.all_eq_true.mp htitles title htitle))

theorem todoList_reload_plan :
    deserializeState compactJson
        (serializeState compactJson
          (run (sessionStep compactJson 4) {} [bareTitles [" plan ", "test"] ""])) =
      .ok (run (sessionStep compactJson 4) {} [bareTitles [" plan ", "test"] ""]).loaded := by
  refine todoList_reload compactJson compactJson_faithful 4 _ ⟨⟨bareTitles_utf8 _ _ (by decide), ?_⟩,
    trivial⟩
  intro _ ops hops
  have hparse : parseUpdateParams compactJson (bareTitles [" plan ", "test"] "").parameters =
      .ok [{ title := ascii "plan", parent := some [] }, { title := ascii "test", parent := some [] }] := by
    decide +kernel
  obtain rfl := Except.ok.inj (hparse.symm.trans hops)
  exact noBlank_of_titles (by decide) _

/-- A blank title in a list makes an item that is lost. -/
theorem todoList_reload_blank :
    ¬ ∀ (json : JsonLibrary), json.Faithful → ∀ (maxLayers : Nat) (calls : List Call),
      (∀ call ∈ calls, call.Utf8) →
        deserializeState json (serializeState json (run (sessionStep json maxLayers) {} calls)) =
          .ok (run (sessionStep json maxLayers) {} calls).loaded := by
  intro h
  have hreload := h compactJson compactJson_faithful 4 [bareTitles [" "] ""]
    (List.forall_mem_singleton.mpr (bareTitles_utf8 _ _ (by decide)))
  have hrun : run (sessionStep compactJson 4) {} [bareTitles [" "] ""] =
      { todos := [⟨{ content := [] }, []⟩] } := by
    decide +kernel
  rw [hrun, deserializeState_serializeState compactJson_faithful] at hreload
  · exact absurd (congrArg TodoState.todos (Except.ok.inj hreload)) (by decide)
  · refine ⟨?_, fun _ h => (nomatch h)⟩
    exact List.forall_mem_singleton.mpr ⟨ValidUtf8.nil, fun _ h => (nomatch h)⟩

end KimixNative.Todo
