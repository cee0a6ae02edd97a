import KimixNative.Todo.Params

/-!
# The flows of the todo tool

The write flow replaces or merges the whole list, the update flow applies operations to a copy of
the tree, and the tool commits what a flow returns. A flow that fails returns its error; a flow
that succeeds returns the new state, or nothing when there is nothing to commit.
-/

namespace KimixNative.Todo

open Text Forest Tools

/-! ### The write flow -/

/-- The checks of `write_todos` on the new items. -/
def validateNew (params : WriteParams) : Except ToolResponse Unit :=
  if params.mode = .clear then
    if params.todos.isEmpty then .ok ()
    else .error (tdError .invalidInput
      (ascii "Error: mode='clear' cannot be combined with todos. Use mode='append' or 'replace' to write todos, or call with no todos to read.")
      (ascii "mode='clear' cannot be combined with todos."))
  else
    let duplicates := findDuplicateTitles params.todos
    if !duplicates.isEmpty then
      let msg := ascii "Duplicate todo titles found: " ++ tdReprList duplicates
      .error (tdError .invalidInput (ascii "Error: " ++ msg) msg
        (ascii "todo_list(parent=...) to target a specific duplicate, or todo_list with no todos to read the tree."))
    else if countAll params.todos > kMaxTodos then
      let msg := ascii "Todo list exceeds maximum limit of " ++ decimal kMaxTodos ++ ascii " items."
      .error (tdError .tooLarge (ascii "Error: " ++ msg) msg)
    else .ok ()

/-- The branch of `write_todos` on the mode: the new list, or nothing to be committed. -/
def writeBranch (old : List TodoItem) (params : WriteParams) :
    Except ToolResponse (Option (List TodoItem)) :=
  let unfinished := !old.isEmpty && !tdAllRootDone old && !params.force
  match params.mode with
  | .clear =>
    if unfinished then
      .error (tdError .blocked
        (ascii "Error: Cannot clear todos while old todos are not all done. Next step: mark them done first, or call with mode='clear' and force=True to discard them intentionally.\nUnfinished:\n" ++
          tdUnfinishedLines old)
        (ascii "Cannot clear todos while old todos are not all done."))
    else .ok (some [])
  | .replace =>
    if unfinished then
      .error (tdError .blocked
        (ascii "Error: Cannot replace todos while old todos are not all done. Use force=True if you really want to discard unfinished work.\nUnfinished:\n" ++
          tdUnfinishedLines old)
        (ascii "Cannot replace todos while old todos are not all done."))
    else .ok (some params.todos)
  | .append =>
    if params.todos.isEmpty then .ok none
    else .ok (some (if old.isEmpty then params.todos else tdMergeByTitleUpdate old params.todos))

/-- The nesting check of `write_todos`. -/
def checkDepth (maxLayers : Nat) (finalTodos : List TodoItem) : Except ToolResponse Unit :=
  let maxDepth := maxLayers + 1
  if maxTreeDepth finalTodos > maxDepth then
    .error (tdError .blocked
      (ascii "Error: Todo tree exceeds maximum nesting depth of " ++ decimal maxDepth ++
        ascii " levels (todo_max_layers=" ++ decimal maxLayers ++
        ascii "). Flatten the tree, or build it with todo_list(parent=...).")
      (ascii "Todo tree exceeds maximum nesting depth of " ++ decimal maxDepth ++
        ascii " levels."))
  else .ok ()

/-- The regression step of `write_todos`: the clamped tree, unless a done item reappears
unfinished. -/
def clampRegressions (old : List TodoItem) (params : WriteParams) (finalTodos : List TodoItem) :
    Except ToolResponse (List TodoItem) :=
  if !params.force && params.mode != .clear && !old.isEmpty then
    let (clamped, regressions) := tdCheckRegressions old finalTodos
    if !regressions.isEmpty then
      .error (tdError .blocked
        (ascii "Error: Cannot regress completed todos back to pending/in_progress: " ++
          tdJoin regressions (ascii ", ") ++
          ascii "\nNext step: resend with these items kept as 'done', or use force=True to restart them intentionally.")
        (ascii "Cannot regress completed todos."))
    else .ok clamped
  else .ok finalTodos

/-- The done items that a replaced list no longer has go to the archive, which keeps the last
`k_max_archived_todos` of its items. -/
def archiveDropped (old : TodoState) (params : WriteParams) (finalTodos : List TodoItem) :
    List TodoItem :=
  if params.mode != .append && !old.todos.isEmpty then
    let keptTitles := rootTitles finalTodos
    let archived := old.archivedTodos ++ old.todos.filter fun t =>
      t.label.status == .done && !keptTitles.contains t.label.content
    archived.drop (archived.length - kMaxArchivedTodos)
  else old.archivedTodos

/-- The check of `write_todos` for more than one item in progress. -/
def enforceSingle (params : WriteParams) (finalTodos : List TodoItem) :
    Except ToolResponse (List TodoItem) :=
  if !params.force && params.mode != .clear then
    let conflicts := findInProgressConflicts finalTodos
    if conflicts.isEmpty then .ok finalTodos
    else if params.autoFix then .ok (autoFixInProgress finalTodos)
    else
      .error (tdError .blocked
        (ascii "Error: Multiple items are in_progress: " ++ tdReprList conflicts ++
          ascii ". Keep exactly one item in_progress at a time. Mark the current item as 'done' before starting another, use force=True to override, or set auto_fix=True to automatically resolve conflicts.")
        (ascii "Multiple items in_progress"))
  else .ok finalTodos

/-- `write_todos`. -/
def writeTodos (maxLayers : Nat) (old : TodoState) (params : WriteParams) :
    Except ToolResponse (Option TodoState) := do
  validateNew params
  match ← writeBranch old.todos params with
  | none => .ok none
  | some newTodos =>
    checkDepth maxLayers newTodos
    let clamped ← clampRegressions old.todos params newTodos
    let archived := archiveDropped old params clamped
    let finalTodos ← enforceSingle params clamped
    .ok (some { todos := finalTodos, archivedTodos := archived })

/-! ### The update flow -/

/-- `complete=True` cannot be combined with another status. -/
def checkComplete (matchedTitle : Bytes) (op : UpdateOp) : Except ToolResponse Unit :=
  match op.status with
  | none => .ok ()
  | some status =>
    if op.complete && status != .done then
      .error (tdError .invalidInput
        (ascii "Error: complete=True cannot be combined with status=\"" ++ statusName status ++
          ascii "\" for \"" ++ matchedTitle ++
          ascii "\". complete=True always marks everything done.")
        (ascii "complete=True cannot be combined with status=\"" ++ statusName status ++
          ascii "\".")
        (ascii "Use todo_list \"" ++ matchedTitle ++
          ascii "\" with status=\"done\" instead of complete=True, or omit status."))
    else .ok ()

/-- A done item is reopened by force only. -/
def checkReopen (matchedTitle : Bytes) (op : UpdateOp) (oldStatus newStatus : TodoStatus) :
    Except ToolResponse Unit :=
  if !op.force && oldStatus == .done && newStatus != .done then
    let message := ascii "Cannot regress completed todo \"" ++ matchedTitle ++
      ascii "\" back to " ++ statusName newStatus ++ ascii "."
    .error (tdError .blocked (ascii "Error: " ++ message) message
      (ascii "Use todo_list \"" ++ matchedTitle ++
        ascii "\" with force=True to reopen a done item, or todo_list with mode='replace' and force=True to restart the whole list."))
  else .ok ()

/-- The items next to the one at a path, and its index among them. -/
def siblingsAt (todos : List TodoItem) (path : List Nat) : List TodoItem × Nat :=
  (match nodeAt path.dropLast todos with
    | some parent => parent.children
    | none => todos,
    path.getLast?.getD 0)

/-- A title that another item of the scope has. -/
def takenInScope (todos : List TodoItem) (path : List Nat) (title : Bytes) : Bool :=
  let (siblings, self) := siblingsAt todos path
  siblings.zipIdx.any fun (t, i) => i != self && t.label.content == title

/-- The title after an operation, unless it renames to the title of another item of the scope. -/
def finalTitle (todos : List TodoItem) (path : List Nat) (matchedTitle : Bytes) (op : UpdateOp) :
    Except ToolResponse Bytes :=
  match op.renameTo with
  | none => .ok matchedTitle
  | some renameTo =>
    if renameTo = matchedTitle then .ok matchedTitle
    else if takenInScope todos path renameTo then
      .error (tdError .blocked
        (ascii "Error: Cannot rename \"" ++ matchedTitle ++ ascii "\" to \"" ++ renameTo ++
          ascii "\": title already exists in this scope.")
        (ascii "Cannot rename \"" ++ matchedTitle ++ ascii "\" to \"" ++ renameTo ++
          ascii "\": title already exists.")
        (ascii "Use todo_list \"" ++ renameTo ++
          ascii "\" to update the existing item instead of renaming."))
    else .ok renameTo

/-- The item with the fields that an operation sets. -/
def setFields (title : Bytes) (status : TodoStatus) (op : UpdateOp) (node : TodoItem) : TodoItem where
  label := { node.label with
    content := title
    status := status
    notes := match op.notes with
      | none => node.label.notes
      | some raw => strippedNotes raw }
  children := node.children

/-- What an operation makes of the item it addresses. -/
def updateNode (title : Bytes) (status : TodoStatus) (op : UpdateOp) (node : TodoItem) : TodoItem :=
  if op.complete then markSubtreeDone (setFields title status op node)
  else setFields title status op node

/-- `td_apply_update_to_tree`. -/
def tdApplyUpdateToTree (todos : List TodoItem) (path : List Nat) (matchedTitle : Bytes)
    (op : UpdateOp) : Except ToolResponse (List TodoItem) :=
  match nodeAt path todos with
  | none =>
    .error (tdError .notFound (ascii "Error: No todo titled \"" ++ matchedTitle ++ ascii "\" found.")
      (ascii "Todo \"" ++ matchedTitle ++ ascii "\" not found."))
  | some node => do
      let newStatus := op.status.getD node.label.status
      checkComplete matchedTitle op
      checkReopen matchedTitle op node.label.status newStatus
      let title ← finalTitle todos path matchedTitle op
      .ok (modifyAt (updateNode title newStatus op) path todos)

/-- The path to the first item with a title, or else, when the search is fuzzy, to the first item
with the nearest title, and that title. -/
def resolveTitle (todos : List TodoItem) (title : Bytes) (fuzzy : Bool)
    (missing missingFuzzy : ToolResponse) : Except ToolResponse (List Nat × Bytes) :=
  match findPath todos title with
  | some path => .ok (path, title)
  | none =>
    if fuzzy then
      match findNearestTitle title (collectTitles todos) kFuzzyTitleCutoff with
      | none => .error missingFuzzy
      | some choice => .ok ((findPath todos choice).getD [], choice)
    else .error missing

/-- `td_update_global`. -/
def tdUpdateGlobal (todos : List TodoItem) (op : UpdateOp) :
    Except ToolResponse (List TodoItem) := do
  let (path, matched) ← resolveTitle todos op.title op.fuzzy
    (tdError .notFound (ascii "Error: No todo titled \"" ++ op.title ++ ascii "\" found.")
      (ascii "Todo \"" ++ op.title ++ ascii "\" not found.")
      (ascii "Call todo_list with no todos to read the tree, or set fuzzy=True to search by similarity."))
    (tdError .notFound (ascii "Error: No todo matching \"" ++ op.title ++ ascii "\" found.")
      (ascii "No todo matching \"" ++ op.title ++ ascii "\" found.")
      (ascii "Call todo_list with no todos to read the tree."))
  tdApplyUpdateToTree todos path matched op

/-- The path to the parent of an operation and the title it is known by; the root has no path. -/
def resolveParent (todos : List TodoItem) (parent : Bytes) (fuzzy : Bool) :
    Except ToolResponse (List Nat × Bytes) :=
  if parent = [] then .ok ([], ascii "root")
  else resolveTitle todos parent fuzzy
    (tdError .notFound (ascii "Error: No parent todo titled \"" ++ parent ++ ascii "\" found.")
      (ascii "Parent todo \"" ++ parent ++ ascii "\" not found.")
      (ascii "Call todo_list with no todos to read the tree, or set fuzzy=True to search by similarity."))
    (tdError .notFound (ascii "Error: No parent todo matching \"" ++ parent ++ ascii "\" found.")
      (ascii "No parent todo matching \"" ++ parent ++ ascii "\" found.")
      (ascii "Call todo_list with no todos to read the tree."))

/-- The items directly below a path; the root has the empty path. -/
def scopeAt (todos : List TodoItem) (path : List Nat) : List TodoItem :=
  match nodeAt path todos with
  | some parent => parent.children
  | none => todos

/-- Adds an item behind the items directly below a path. -/
def addChild (todos : List TodoItem) (path : List Nat) (child : TodoItem) : List TodoItem :=
  match nodeAt path todos with
  | some _ =>
    modifyAt (fun parent => { parent with children := parent.children ++ [child] }) path todos
  | none => todos ++ [child]

/-- What keeps an operation from creating an item. -/
def checkCreate (maxLayers : Nat) (op : UpdateOp) (parentPath : List Nat) (parentTitle : Bytes) :
    Except ToolResponse Unit :=
  let missing := ascii "Error: \"" ++ op.title ++ ascii "\" does not exist under \"" ++
    parentTitle ++ ascii "\"."
  match op.renameTo with
  | some renameTo =>
    .error (tdError .invalidInput missing
      (ascii "Cannot rename non-existent todo \"" ++ op.title ++ ascii "\".")
      (ascii "Cannot rename a new child; use title=\"" ++ renameTo ++ ascii "\" to create it."))
  | none =>
    if op.complete then
      .error (tdError .invalidInput missing
        (ascii "Cannot complete non-existent todo \"" ++ op.title ++ ascii "\".")
        (ascii "complete=True requires an existing todo; \"" ++ op.title ++
          ascii "\" does not exist under \"" ++ parentTitle ++
          ascii "\". Create it first or use status=\"done\"."))
    else if parentPath.length > maxLayers then
      .error (tdError .blocked
        (ascii "Error: \"" ++ parentTitle ++ ascii "\" is at depth " ++
          decimal parentPath.length ++ ascii "; children would exceed the maximum depth (" ++
          decimal (maxLayers + 1) ++ ascii ").")
        (ascii "Cannot add a child under \"" ++ parentTitle ++ ascii "\": too deep.")
        (ascii "Cannot add children deeper than " ++ decimal (maxLayers + 1) ++
          ascii " layers."))
    else .ok ()

/-- The item that an operation creates. -/
def newChild (op : UpdateOp) : TodoItem where
  label := {
    content := op.title
    status := op.status.getD .pending
    notes := op.notes.bind strippedNotes }
  children := []

/-- `td_update_under_parent`. -/
def tdUpdateUnderParent (maxLayers : Nat) (todos : List TodoItem) (op : UpdateOp) (parent : Bytes) :
    Except ToolResponse (List TodoItem) := do
  let (parentPath, parentTitle) ← resolveParent todos parent op.fuzzy
  match (scopeAt todos parentPath).findIdx? fun t => t.label.content == op.title with
  | some index => tdApplyUpdateToTree todos (parentPath ++ [index]) op.title op
  | none =>
    checkCreate maxLayers op parentPath parentTitle
    .ok (addChild todos parentPath (newChild op))

/-- `td_apply_one_update`. -/
def tdApplyOneUpdate (maxLayers : Nat) (todos : List TodoItem) (op : UpdateOp) :
    Except ToolResponse (List TodoItem) :=
  match op.parent with
  | none =>
    if todos.isEmpty then
      .error (tdError .notFound (ascii "Error: No todos exist.") (ascii "No todos to update.")
        (ascii "Use todo_list(parent=\"\", title=\"...\") to create a root todo, or pass todos=[...] to set the whole list."))
    else tdUpdateGlobal todos op
  | some parent => tdUpdateUnderParent maxLayers todos op parent

/-- The single item in progress is enforced after every operation. -/
def autoFixed (todos : List TodoItem) : List TodoItem :=
  if (findInProgressConflicts todos).isEmpty then todos else autoFixInProgress todos

/-- The loop of `update_todos`. -/
def updateLoop (maxLayers : Nat) (todos : List TodoItem) :
    List UpdateOp → Except ToolResponse (List TodoItem)
  | [] => .ok todos
  | op :: ops =>
    match tdApplyOneUpdate maxLayers todos op with
    | .error e => .error e
    | .ok updated => updateLoop maxLayers (autoFixed updated) ops

/-- `update_todos`. -/
def updateTodos (maxLayers : Nat) (old : TodoState) (ops : List UpdateOp) :
    Except ToolResponse (Option TodoState) :=
  (updateLoop maxLayers old.todos ops).map fun todos => some { old with todos }

/-! ### The tool -/

/-- The flow that the shape of the parameters asks for. -/
inductive Flow where
  | write
  | update
  | read
  deriving DecidableEq, Repr

def updateKeys : List Bytes := ["updates", "ops", "operations", "edits", "changes"].map ascii

/-- The dispatch of `operator()`. -/
def flowOf : Option ValueMap → Flow
  | none => .read
  | some values =>
    let params : ToolParams := { values }
    let present (names : List Bytes) : Bool := (params.firstPresent names).any fun v => !v.isNull
    if present todosNames then .write
    else if present updateKeys || present opTitleNames then .update
    else .read

/-- A call of the tool: its parameters, and what goes wrong when the state is written to its
file, if anything does. -/
structure Call where
  parameters : Option ValueMap
  saveError : Option Bytes := none

/-- What the flow of a call returns. -/
def runCall (json : JsonLibrary) (maxLayers : Nat) (st : TodoState) (call : Call) :
    Except ToolResponse (Option TodoState) :=
  match flowOf call.parameters with
  | .write => (parseWriteParams json call.parameters).bind (writeTodos maxLayers st)
  | .update => (parseUpdateParams json call.parameters).bind (updateTodos maxLayers st)
  | .read => (parseWriteParams json call.parameters).map fun _ => none

/-- The `operator()` of the tool with `run_flow`: the error response, if there is one, and the
state of the session. -/
def todoList (json : JsonLibrary) (maxLayers : Nat) (st : TodoState) (call : Call) :
    Option ToolResponse × TodoState :=
  match runCall json maxLayers st call with
  | .error e => (some e, st)
  | .ok none => (none, st)
  | .ok (some committed) =>
    -- the state is in the session before it is saved
    (call.saveError.map fun err =>
      { status := .blocked
        output := ascii "Error: Failed to save root todos: " ++ err ++ ascii "\nHint: " ++
          (if flowOf call.parameters = .write then kDefaultErrorHint
            else ascii "Call todo_list with no todos to read the tree and retry.")
        message := ascii "Failed to save todos." }, committed)

/-- What a call makes of the state of the session. -/
def sessionStep (json : JsonLibrary) (maxLayers : Nat) (st : TodoState) (call : Call) : TodoState :=
  (todoList json maxLayers st call).2

theorem sessionStep_eq (json : JsonLibrary) (maxLayers : Nat) (st : TodoState) (call : Call) :
    sessionStep json maxLayers st call =
      match runCall json maxLayers st call with
      | .ok (some committed) => committed
      | _ => st := by
  unfold sessionStep todoList
  rcases runCall json maxLayers st call with e | (_ | committed) <;> rfl

end KimixNative.Todo
