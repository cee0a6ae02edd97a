import KimixNative.Core.JsonRepair
import KimixNative.Todo.Items
import KimixNative.Tools.EditText

/-!
# The parameters of the todo tool

The write flow takes a list of items, the update flow a list of operations. Either may come as a
JSON list, as a single object or as a text that holds JSON; an operation may also be a bare title.
The JSON library behind `ToolParams` is a parameter.
-/

namespace KimixNative.Todo

open Text Forest Tools

/-- `tool_response` of a failure. The rendered response of a success is left out. -/
structure ToolResponse where
  status : ToolStatus
  output : Bytes
  message : Bytes
  deriving DecidableEq, Repr

def kDefaultErrorHint : Bytes := ascii "todo_list with no todos to read the tree."

/-- `td_error`. -/
def tdError (status : ToolStatus) (outputCore message : Bytes)
    (hint : Bytes := kDefaultErrorHint) : ToolResponse :=
  { status, output := outputCore ++ ascii "\nHint: " ++ hint, message }

/-- `td_validation_error`. -/
def tdValidationError (msg : Bytes) : ToolResponse :=
  tdError .invalidInput (ascii "Error: " ++ msg) msg

/-- The JSON library behind `ToolParams`, and the two checks that the repair of JSON asks for. -/
structure JsonLibrary where
  serialize : ValueMap → Bytes
  deserialize : Bytes → Except Bytes ValueMap
  isValidJson : Bytes → Bool
  accepts : Bytes → Bool

/-! ### Steps that may fail -/

section Steps

variable {ε δ α β : Type}

variable {x : Except ε α}

theorem bind_eq_ok {f : α → Except ε β} {b : β} :
    x >>= f = .ok b ↔ ∃ a, x = .ok a ∧ f a = .ok b := by
  cases x with
  | error e => exact ⟨fun h => (nomatch h), fun ⟨a, h, _⟩ => (nomatch h)⟩
  | ok a => exact ⟨fun h => ⟨a, rfl, h⟩, fun ⟨_, h, hf⟩ => Except.ok.inj h ▸ hf⟩

theorem map_eq_ok {f : α → β} {b : β} : x.map f = .ok b ↔ ∃ a, x = .ok a ∧ f a = b := by
  cases x with
  | error e => exact ⟨fun h => (nomatch h), fun ⟨a, h, _⟩ => (nomatch h)⟩
  | ok a => exact ⟨fun h => ⟨a, rfl, Except.ok.inj h⟩,
      fun ⟨_, h, hf⟩ => congrArg _ (Except.ok.inj h ▸ hf)⟩

theorem mapError_eq_ok {f : ε → δ} {a : α} : x.mapError f = .ok a ↔ x = .ok a := by
  cases x with
  | error e => exact ⟨fun h => (nomatch h), fun h => (nomatch h)⟩
  | ok a => exact ⟨fun h => congrArg _ (Except.ok.inj h), fun h => congrArg _ (Except.ok.inj h)⟩

theorem eq_ok_of_toOption {a : α} (h : x.toOption = some a) : x = .ok a := by
  cases x with
  | error e => cases h
  | ok b => exact congrArg _ (Option.some.inj h)

end Steps

/-! ### Values -/

/-- A number as `format` writes it. -/
def intText : Int → Bytes
  | .ofNat n => decimal n
  | .negSucc n => ascii "-" ++ decimal (n + 1)

/-- `td_value_repr`. -/
def tdValueRepr : ValueElement → Bytes
  | .string s => s
  | .bool b => if b then ascii "True" else ascii "False"
  | .int i => intText i
  | .uint u => decimal u
  | .real d => d.text
  | .null => ascii "None"
  | .array _ => ascii "<array>"
  | .object _ => ascii "<object>"

/-- `td_stringify`. -/
def tdStringify : ValueElement → Option Bytes
  | .string s => some s
  | .bool b => some (tdValueRepr (.bool b))
  | .int i => some (tdValueRepr (.int i))
  | .uint u => some (tdValueRepr (.uint u))
  | .real d => some (tdValueRepr (.real d))
  | _ => none

/-- `td_coerce_bool`. -/
def tdCoerceBool : ValueElement → Option Bool
  | .bool b => some b
  | .int i => if i = 0 then some false else if i = 1 then some true else none
  | .uint u => if u = 0 then some false else if u = 1 then some true else none
  | .string s =>
    let s := tdLower (tdTrim s)
    if s = ascii "true" ∨ s = ascii "1" ∨ s = ascii "yes" ∨ s = ascii "on" then some true
    else if s = ascii "false" ∨ s = ascii "0" ∨ s = ascii "no" ∨ s = ascii "off" then some false
    else none
  | _ => none

/-! ### Fields -/

/-- The title of an item or of an operation, under the name that the errors give it. -/
def parseTitleField (name : Bytes) : Option ValueElement → Except Bytes Bytes
  | none | some .null => .error (ascii "Field required (" ++ name ++ ascii ")")
  | some (.string s) =>
    let title := tdTrim s
    if title = [] then .error (ascii "Title cannot be empty or contain only whitespace")
    else if codePointCount title > kMaxTitleChars then
      .error (ascii "String should have at most " ++ decimal kMaxTitleChars ++
        ascii " characters")
    else .ok title
  | some _ => .error (ascii "Input should be a valid string (" ++ name ++ ascii ")")

def parseStatusField (value : ValueElement) : Except Bytes TodoStatus :=
  match (match value with | .string s => parseStatus s | _ => none) with
  | some status => .ok status
  | none => .error (ascii "Invalid status '" ++ tdValueRepr value ++
      ascii "'. Must be one of: pending, in_progress, done (or completed).")

def requiredStatus : Option ValueElement → Except Bytes TodoStatus
  | none | some .null => .error (ascii "Field required (status)")
  | some value => parseStatusField value

def optionalStatus : Option ValueElement → Except Bytes (Option TodoStatus)
  | none | some .null => .ok none
  | some value => (parseStatusField value).map some

/-- The notes as they were sent. -/
def parseNotesField : Option ValueElement → Except Bytes (Option Bytes)
  | none | some .null => .ok none
  | some value =>
    match tdStringify value with
    | none => .error (ascii "Input should be a valid string (notes)")
    | some raw =>
      if codePointCount raw > kMaxNotesChars then
        .error (ascii "String should have at most " ++ decimal kMaxNotesChars ++
          ascii " characters")
      else .ok (some raw)

/-- A text field that may be absent, trimmed. -/
def parseTextField (obj : ToolParams) (name : String) : Except Bytes (Option Bytes) :=
  match obj.get (ascii name) with
  | none | some .null => .ok none
  | some (.string s) => .ok (some (tdTrim s))
  | some _ => .error (ascii "Input should be a valid string (" ++ ascii name ++ ascii ")")

def parseBoolField (obj : ToolParams) (name : String) (default : Bool) : Except Bytes Bool :=
  match obj.get (ascii name) with
  | none | some .null => .ok default
  | some value =>
    match tdCoerceBool value with
    | some b => .ok b
    | none => .error (ascii "Input should be a valid boolean (" ++ ascii name ++ ascii ")")

/-- Notes without blanks around them; there are no empty notes. -/
def strippedNotes (raw : Bytes) : Option Bytes := if tdTrim raw = [] then none else some (tdTrim raw)

/-! ### Items -/

def itemTitleNames : List Bytes :=
  ["content", "title", "task", "todo", "item", "name"].map ascii

mutual

/-- `td_parse_item`. -/
def tdParseItem : ValueElement → Except Bytes TodoItem
  | .object values => do
      let obj : ToolParams := { values }
      let content ← parseTitleField (ascii "content") (obj.firstPresent itemTitleNames)
      let status ← requiredStatus (obj.get (ascii "status"))
      let notes ← parseNotesField ((obj.get (ascii "notes")).or (obj.get (ascii "description")))
      let children ← tdParseChildren values
      .ok ⟨{ content, status, notes := notes.bind strippedNotes, childrenProvided := children.isSome },
        children.getD []⟩
  | _ => .error (ascii "Input should be a valid dictionary or instance of Todo")

/-- The member `children` of an object, if there is one. -/
def tdParseChildren : List (Bytes × ValueElement) → Except Bytes (Option (List TodoItem))
  | [] => .ok none
  | (key, value) :: rest =>
    if key = ascii "children" then
      match value with
      | .null => .ok none
      | .array elements => (tdParseChildList 0 elements).map some
      | _ => .error (ascii "Input should be a valid list (children)")
    else tdParseChildren rest

def tdParseChildList (i : Nat) : List ValueElement → Except Bytes (List TodoItem)
  | [] => .ok []
  | element :: rest =>
    match tdParseItem element with
    | .error detail => .error (ascii "children[" ++ decimal i ++ ascii "]: " ++ detail)
    | .ok child => (tdParseChildList (i + 1) rest).map (child :: ·)

end

/-- `td_parse_embedded_json`. -/
def tdParseEmbeddedJson (json : JsonLibrary) (text key : Bytes) : Option ValueElement :=
  let body := tdTrim text
  if body.head? = some 0x7B#8 ∨ body.head? = some 0x5B#8 then
    let repaired := Core.repair json.isValidJson json.accepts body
    let body := if repaired = [] then body else repaired.dropLast
    (json.deserialize
        (ascii "\x7b\"" ++ key ++ ascii "\":" ++ body ++ ascii "\x7d")).toOption.bind
      fun values => ({ values } : ToolParams).get key
  else none

/-! ### The write flow -/

inductive WriteMode where
  | append
  | replace
  | clear
  deriving DecidableEq, Repr

structure WriteParams where
  hasTodos : Bool := false
  todos : List TodoItem := []
  mode : WriteMode := .append
  force : Bool := false
  autoFix : Bool := true

/-- `parse_write_mode`: the mode and whether its name forces. -/
def parseWriteMode (v : Bytes) : Option (WriteMode × Bool) :=
  let m := (tdLower (tdTrim v)).map fun c => if c = 0x2D#8 then 0x5F#8 else c
  let n := m.map fun c => if c = 0x20#8 then 0x5F#8 else c
  if (["force_overwrite", "force_override", "force", "forcewrite", "forceoverride"].map
      ascii).contains n then some (.replace, true)
  else if m = ascii "append" ∨ m = ascii "merge" then some (.append, false)
  else if m = ascii "replace" ∨ m = ascii "overwrite" then some (.replace, false)
  else if m = ascii "clear" then some (.clear, false)
  else none

/-- `k_todo_write_aliases`. -/
def kTodoWriteAliases : List ParamAlias :=
  [⟨ascii "todos",
      ["items", "tasks", "todo_list", "todos_list", "task_list", "list", "entries"].map ascii⟩,
    ⟨ascii "mode", ["write_mode", "action", "operation"].map ascii⟩,
    ⟨ascii "force", ["force_overwrite", "force_flag"].map ascii⟩,
    ⟨ascii "auto_fix", ["autofix", "fix_conflicts", "auto_fix_conflicts"].map ascii⟩]

def todosNames : List Bytes :=
  ["todos", "items", "list", "tasks", "entries", "todo_list", "task_list"].map ascii

/-- The items of a list. -/
def parseTodoList (i : Nat) : List ValueElement → Except ToolResponse (List TodoItem)
  | [] => .ok []
  | element :: rest =>
    match tdParseItem element with
    | .error detail =>
      .error (tdValidationError
        (ascii "Invalid todo at index " ++ decimal i ++ ascii ": " ++ detail))
    | .ok item => (parseTodoList (i + 1) rest).map (item :: ·)

def todosError : ToolResponse :=
  tdValidationError
    (ascii "todos must be a list of todos, a single todo dict/object, or None")

/-- A text is the list in its JSON form. -/
def todosSource (json : JsonLibrary) : ValueElement → Option ValueElement
  | .string s => tdParseEmbeddedJson json s (ascii "todos")
  | value => some value

/-- The items of the member `todos`. -/
def parseTodos (json : JsonLibrary) (value : ValueElement) : Except ToolResponse (List TodoItem) :=
  match todosSource json value with
  | some (.array elements) => parseTodoList 0 elements
  | some (.object values) =>
    match tdParseItem (.object values) with
    | .error detail => .error (tdValidationError (ascii "Invalid todo: " ++ detail))
    | .ok item => .ok [item]
  | _ => .error todosError

/-- The items of the member `todos`, unless it is absent. -/
def parseTodosMember (json : JsonLibrary) :
    Option ValueElement → Except ToolResponse (Option (List TodoItem))
  | none | some .null => .ok none
  | some value => (parseTodos json value).map some

def modeNames : List Bytes :=
  ["replace", "override", "overwrite", "append", "merge", "update"].map ascii

/-- The mode, under its own name or under one of its values. -/
def parseMode (params : ToolParams) : Except ToolResponse (WriteMode × Bool) :=
  match (params.get (ascii "mode")).or (params.firstPresent modeNames) with
  | none => .ok (.append, false)
  | some (.string s) =>
    match parseWriteMode s with
    | some mode => .ok mode
    | none =>
      .error (tdValidationError (ascii "Invalid mode '" ++ s ++
        ascii "'. Must be 'append' (or 'merge'), 'replace', or 'clear'."))
  | some _ =>
    .error (tdValidationError
      (ascii "Invalid mode. Must be 'append' (or 'merge'), 'replace', or 'clear'."))

/-- `parse_write_params`. -/
def parseWriteParams (json : JsonLibrary) :
    Option ValueMap → Except ToolResponse WriteParams
  | none => .ok {}
  | some values => do
      let params := ({ values } : ToolParams).withAliases kTodoWriteAliases
      let todos ← parseTodosMember json (params.firstPresent todosNames)
      let (mode, forceFromMode) ← parseMode params
      let force ← (parseBoolField params "force" false).mapError tdValidationError
      let autoFix ← (parseBoolField params "auto_fix" true).mapError tdValidationError
      .ok { hasTodos := todos.isSome, todos := todos.getD [], mode
            force := forceFromMode || force, autoFix }

/-! ### The update flow -/

structure UpdateOp where
  title : Bytes
  status : Option TodoStatus := none
  notes : Option Bytes := none
  renameTo : Option Bytes := none
  parent : Option Bytes := none
  fuzzy : Bool := true
  force : Bool := false
  complete : Bool := false
  deriving DecidableEq, Repr

def opTitleNames : List Bytes :=
  ["title", "content", "task", "todo", "item", "name"].map ascii

/-- `td_parse_op`. -/
def tdParseOp (obj : ToolParams) : Except Bytes UpdateOp := do
  let title ← parseTitleField (ascii "title") (obj.firstPresent opTitleNames)
  let status ← optionalStatus (obj.get (ascii "status"))
  let notes ← parseNotesField (obj.get (ascii "notes"))
  let renameTo ← parseTextField obj "rename_to"
  let parent ← parseTextField obj "parent"
  let fuzzy ← parseBoolField obj "fuzzy" true
  let force ← parseBoolField obj "force" false
  let complete ← parseBoolField obj "complete" false
  .ok { title, status, notes, renameTo := renameTo.filter fun s => !s.isEmpty, parent, fuzzy
        force, complete }

/-- `k_todo_update_aliases`. -/
def kTodoUpdateAliases : List ParamAlias :=
  [⟨ascii "title", ["content", "task", "todo", "item", "name"].map ascii⟩,
    ⟨ascii "status", ["state"].map ascii⟩,
    ⟨ascii "notes", ["note", "description", "details"].map ascii⟩,
    ⟨ascii "rename_to", ["new_title", "rename", "title_new"].map ascii⟩,
    ⟨ascii "parent", ["parent_title", "parent_name"].map ascii⟩,
    ⟨ascii "fuzzy", ["fuzzy_match", "approximate", "near_match"].map ascii⟩,
    ⟨ascii "force", ["force_overwrite", "force_flag", "reopen"].map ascii⟩,
    ⟨ascii "complete", ["done", "mark_done", "complete_subtree"].map ascii⟩,
    ⟨ascii "updates", ["ops", "operations", "edits", "changes"].map ascii⟩]

def updatesNames : List Bytes :=
  ["updates", "todos", "items", "list", "tasks", "entries", "todo_list", "task_list", "edits",
    "changes", "operations", "actions", "modifications", "batch"].map ascii

/-- The operations of a list; a text is a bare title. -/
def parseOpList (i : Nat) : List ValueElement → Except ToolResponse (List UpdateOp)
  | [] => .ok []
  | .string s :: rest => (parseOpList (i + 1) rest).map ({ title := tdTrim s } :: ·)
  | .object values :: rest =>
    match tdParseOp { values } with
    | .error detail =>
      .error (tdValidationError
        (ascii "Invalid update at index " ++ decimal i ++ ascii ": " ++ detail))
    | .ok op => (parseOpList (i + 1) rest).map (op :: ·)
  | _ :: _ =>
    .error (tdValidationError (ascii "Invalid update at index " ++ decimal i ++
      ascii ": expected a dict or TodoUpdateItem"))

/-- The operations of the member `updates` once it is known to hold JSON. -/
def parseOps : ValueElement → Except ToolResponse (List UpdateOp)
  | .array elements => parseOpList 0 elements
  | .object values =>
    match tdParseOp { values } with
    | .error detail => .error (tdValidationError (ascii "Invalid update: " ++ detail))
    | .ok op => .ok [op]
  | _ =>
    .error (tdValidationError
      (ascii "updates must be a list of updates, a single update dict/object, or None"))

/-- The operations of the member `updates`. A text that holds no JSON is one bare title. -/
def parseUpdates (json : JsonLibrary) : ValueElement → Except ToolResponse (List UpdateOp)
  | .string s =>
    match tdParseEmbeddedJson json s (ascii "updates") with
    | some value => parseOps value
    | none =>
      if tdTrim s = [] then .error (tdValidationError (ascii "updates title string cannot be empty"))
      else .ok [{ title := tdTrim s }]
  | value => parseOps value

/-- `td_mixed_fields`. -/
def tdMixedFields (params : ToolParams) : List Bytes :=
  let title := if (params.firstPresent opTitleNames).isSome then [ascii "title"] else []
  let others := (["status", "notes", "rename_to", "complete"].map ascii).filter fun name =>
    (params.get name).isSome
  (title ++ others).mergeSort fun a b => !keyLess b a

/-- The common parent applies to the operations without a parent of their own. -/
def withCommonParent (parent : Option Bytes) (op : UpdateOp) : UpdateOp :=
  { op with parent := op.parent.or parent }

def noTitleError : ToolResponse where
  status := .invalidInput
  output := ascii "Error: title is required when updates is not provided.\nHint: Provide a title for a single update, or pass updates=[...] for multiple updates."
  message := ascii "No todo title provided."

/-- The one operation whose fields stand at the top level. -/
def parseSingleUpdate (params : ToolParams) : Except ToolResponse (List UpdateOp) :=
  match params.firstPresent opTitleNames with
  | none | some .null => .error noTitleError
  | some _ => ((tdParseOp params).map ([·])).mapError tdValidationError

/-- `parse_update_params`. -/
def parseUpdateParams (json : JsonLibrary) : Option ValueMap → Except ToolResponse (List UpdateOp)
  | none => .error noTitleError
  | some values =>
    let params := ({ values } : ToolParams).withAliases kTodoUpdateAliases
    match params.firstPresent updatesNames with
    | none | some .null => parseSingleUpdate params
    | some value => do
        let ops ← parseUpdates json value
        let mixed := tdMixedFields params
        if mixed ≠ [] then
          .error (tdValidationError (ascii "Cannot mix top-level " ++ tdReprList mixed ++
            ascii " with `updates`; pass all edits inside `updates`."))
        else
          let parent ← (parseTextField params "parent").mapError tdValidationError
          .ok (ops.map (withCommonParent parent))

end KimixNative.Todo
