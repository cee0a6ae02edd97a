import KimixNative.Todo.TreeInvariant

/-!
# What a call leaves behind

A call whose flow fails leaves the state as it was; when only saving fails, the session has what the
flow committed. An update that sets a status sets it, unless the repair behind it takes the item out
of progress because another one that is in progress stands behind it.
-/

namespace KimixNative.Todo

open Text Forest Tools

/-! ### Calls that fail -/

/-- A call fails because its flow does, and nothing has changed, or because saving does: then the
session has what the same call leaves when saving succeeds. -/
theorem todoList_failed (json : JsonLibrary) (maxLayers : Nat) (st : TodoState) (call : Call)
    (e : ToolResponse) (h : (todoList json maxLayers st call).1 = some e) :
    (todoList json maxLayers st { call with saveError := none }).1 = some e ∧
        (todoList json maxLayers st call).2 = st ∨
      (todoList json maxLayers st { call with saveError := none }).1 = none ∧
        e.message = ascii "Failed to save todos." ∧
        (todoList json maxLayers st call).2 =
          (todoList json maxLayers st { call with saveError := none }).2 := by
  have hflow : runCall json maxLayers st { call with saveError := none } =
      runCall json maxLayers st call := rfl
  unfold todoList at h ⊢
  rw [hflow]
  rcases hrun : runCall json maxLayers st call with err | (_ | committed)
  · rw [hrun] at h
    exact .inl ⟨h, rfl⟩
  · rw [hrun] at h
    cases h
  · rw [hrun] at h
    obtain ⟨err, -, rfl⟩ := Option.map_eq_some_iff.mp h
    exact .inr ⟨rfl, rfl, rfl⟩

/-- An update that creates an item and cannot be saved. -/
def doomedUpdate : Call where
  parameters := some [(ascii "title", .string (ascii "Doomed")), (ascii "parent", .string [])]
  saveError := some (ascii "disk full")

theorem todoList_failed_doomed :
    ∃ e, (todoList compactJson 0 {} { doomedUpdate with saveError := none }).1 = some e ∧
        (todoList compactJson 0 {} doomedUpdate).2 = {} ∨
      (todoList compactJson 0 {} { doomedUpdate with saveError := none }).1 = none ∧
        e.message = ascii "Failed to save todos." ∧
        (todoList compactJson 0 {} doomedUpdate).2 =
          (todoList compactJson 0 {} { doomedUpdate with saveError := none }).2 :=
  ⟨_, todoList_failed compactJson 0 {} doomedUpdate _ rfl⟩

/-- It is an error, and the item is in the session. -/
theorem doomedUpdate_kept : (todoList compactJson 0 {} doomedUpdate).1.isSome = true ∧
    (todoList compactJson 0 {} doomedUpdate).2 ≠ {} := by
  decide

/-! ### The status at a path -/

def statusAt (todos : List TodoItem) (path : List Nat) : Option TodoStatus :=
  (labelAt path todos).map Item.status

/-- An item in progress stands at a path behind this one, in the order of the walks. -/
def InProgressBehind (todos : List TodoItem) (path : List Nat) : Prop :=
  ∃ q, path < q ∧ statusAt todos q = some .inProgress

variable {todos : List TodoItem} {path : List Nat}

theorem exists_inProgress :
    0 < (labels todos).countP Item.isInProgress ↔
      ∃ q, statusAt todos q = some .inProgress := by
  rw [List.countP_pos_iff]
  constructor
  · rintro ⟨t, ht, hprogress⟩
    obtain ⟨q, hq⟩ := exists_labelAt ht
    exact ⟨q, by rw [statusAt, hq, Option.map_some, eq_of_beq hprogress]⟩
  · rintro ⟨q, hq⟩
    obtain ⟨t, ht, hstatus⟩ := Option.map_eq_some_iff.mp hq
    exact ⟨t, mem_labels_of_labelAt ht, beq_iff_eq.mpr hstatus⟩

theorem statusAt_behind (i : Nat) (path : List Nat) (t : TodoItem) (rest : List TodoItem) :
    statusAt (t :: rest) ((i + 1) :: path) = statusAt rest (i :: path) := by
  rw [statusAt, labelAt_behind]
  rfl

variable {rest updated : List TodoItem} {t : TodoItem}

theorem inProgressBehind_first :
    InProgressBehind (t :: rest) [0] ↔
      0 < (labels t.children).countP Item.isInProgress + (labels rest).countP Item.isInProgress := by
  rw [Nat.add_pos_iff_pos_or_pos, exists_inProgress, exists_inProgress]
  constructor
  · rintro ⟨q, hlt, hq⟩
    match q with
    | [] => cases hq
    | [0] => exact absurd hlt (List.lt_irrefl _)
    | 0 :: j :: q => exact .inl ⟨j :: q, hq⟩
    | (i + 1) :: q => exact .inr ⟨i :: q, statusAt_behind i q t rest ▸ hq⟩
  · rintro (⟨_ | ⟨j, q⟩, hq⟩ | ⟨_ | ⟨i, q⟩, hq⟩)
    · cases hq
    · exact ⟨0 :: j :: q, by simp, hq⟩
    · cases hq
    · exact ⟨(i + 1) :: q, by simp [List.cons_lt_cons_iff], (statusAt_behind i q t rest).trans hq⟩

theorem inProgressBehind_below {j : Nat} :
    InProgressBehind (t :: rest) (0 :: j :: path) ↔
      InProgressBehind t.children (j :: path) ∨ 0 < (labels rest).countP Item.isInProgress := by
  rw [exists_inProgress]
  constructor
  · rintro ⟨q, hlt, hq⟩
    match q with
    | [] => cases hq
    | [0] => simp at hlt
    | 0 :: k :: q => exact .inl ⟨k :: q, by simpa [List.cons_lt_cons_iff] using hlt, hq⟩
    | (i + 1) :: q => exact .inr ⟨i :: q, statusAt_behind i q t rest ▸ hq⟩
  · rintro (⟨_ | ⟨k, q⟩, hlt, hq⟩ | ⟨_ | ⟨i, q⟩, hq⟩)
    · cases hq
    · exact ⟨0 :: k :: q, by simpa [List.cons_lt_cons_iff] using hlt, hq⟩
    · cases hq
    · exact ⟨(i + 1) :: q, by simp [List.cons_lt_cons_iff], (statusAt_behind i q t rest).trans hq⟩

theorem inProgressBehind_behind {i : Nat} :
    InProgressBehind (t :: rest) ((i + 1) :: path) ↔ InProgressBehind rest (i :: path) := by
  constructor
  · rintro ⟨q, hlt, hq⟩
    match q with
    | [] => cases hq
    | 0 :: q => simp [List.cons_lt_cons_iff] at hlt
    | (k + 1) :: q => exact ⟨k :: q, by simpa [List.cons_lt_cons_iff] using hlt, statusAt_behind k q t rest ▸ hq⟩
  · rintro ⟨_ | ⟨k, q⟩, hlt, hq⟩
    · cases hq
    · exact ⟨(k + 1) :: q, by simpa [List.cons_lt_cons_iff] using hlt, (statusAt_behind k q t rest).trans hq⟩

/-! ### The repair -/

theorem relabel_demote_fst (slots : Nat) (items : List Item) :
    (relabel demote slots items).1 = slots - items.countP Item.isInProgress := by
  induction items generalizing slots with
  | nil => rfl
  | cons t items ih =>
    rw [relabel]
    dsimp only
    rw [ih, List.countP_cons]
    by_cases ht : t.isInProgress = true
    · by_cases hslots : 0 < slots
      · simp only [demote, ht, hslots, and_self, if_true]
        omega
      · simp only [demote, ht, hslots, and_false, if_false, if_true]
        omega
    · simp only [demote, ht]
      rfl

theorem mapAccum_demote_fst (slots : Nat) (todos : List TodoItem) :
    (mapAccum demote slots todos).1 = slots - (labels todos).countP Item.isInProgress :=
  (congrArg Prod.fst (labels_mapAccum demote slots todos)).trans (relabel_demote_fst slots _)

theorem mapAccum_demote_zero (todos : List TodoItem) : (mapAccum demote 0 todos).2 = todos := by
  have hslots : ∀ todos : List TodoItem, (mapAccum demote 0 todos).1 = 0 := fun todos => by
    rw [mapAccum_demote_fst, Nat.zero_sub]
  have hsame : ∀ t : Item, demote 0 t = (0, t) := fun t => if_neg (by simp)
  induction todos using Forest.induction with
  | nil => rfl
  | cons a children rest ihc ihr =>
    rw [mapAccum_cons, hsame]
    dsimp only
    rw [hslots children, ihc, ihr]

/-- What the repair makes of an item, with `later` items in progress behind the forest: it goes out
of progress when another one is behind it. -/
def Repaired (todos fixed : List TodoItem) (later : Nat) (path : List Nat) : Prop :=
  (statusAt todos path = some .inProgress ∧ (InProgressBehind todos path ∨ 0 < later) →
    statusAt fixed path = some .done) ∧
  (¬(statusAt todos path = some .inProgress ∧ (InProgressBehind todos path ∨ 0 < later)) →
    statusAt fixed path = statusAt todos path)

/-- The slots are enough for all but the last item in progress. -/
theorem mapAccum_demote_spec (todos : List TodoItem) (slots later : Nat)
    (hslots : (labels todos).countP Item.isInProgress = 0 ∨
      slots + 1 = (labels todos).countP Item.isInProgress + later) (path : List Nat) :
    Repaired todos (mapAccum demote slots todos).2 later path := by
  induction todos using Forest.induction generalizing slots later path with
  | nil =>
    refine ⟨fun h => ?_, fun _ => rfl⟩
    rw [statusAt, labelAt_empty] at h
    cases h.1
  | cons a children rest ihc ihr =>
    rw [mapAccum_cons]
    dsimp only
    rw [labels_cons, List.countP_cons, List.countP_append] at hslots
    dsimp only at hslots
    have hnext : (demote slots a).1 = slots - if a.isInProgress = true then 1 else 0 := by
      have hone := relabel_demote_fst slots [a]
      rwa [List.countP_cons, List.countP_nil, Nat.zero_add] at hone
    match path with
    | [] => exact ⟨fun h => absurd h.1 (by simp [statusAt, labelAt, nodeAt]), fun _ => rfl⟩
    | [0] =>
      rw [Repaired, inProgressBehind_first]
      have hold : statusAt (⟨a, children⟩ :: rest) [0] = some a.status := rfl
      have hnew : ∀ t c (ts : List TodoItem), statusAt (⟨t, c⟩ :: ts) [0] = some t.status :=
        fun _ _ _ => rfl
      rw [hold, hnew, demote]
      by_cases ha : a.isInProgress = true
      · simp only [ha, if_true, true_and] at hslots ⊢
        have hstatus : a.status = .inProgress := eq_of_beq ha
        by_cases hpos : 0 < slots
        · rw [if_pos hpos]
          exact ⟨fun _ => rfl, fun h => absurd ⟨congrArg some hstatus, by omega⟩ h⟩
        · rw [if_neg hpos]
          exact ⟨fun h => by omega, fun _ => rfl⟩
      · have hstatus : some a.status ≠ some TodoStatus.inProgress := fun h =>
          ha (beq_iff_eq.mpr (Option.some.inj h))
        simp only [ha, Bool.false_eq_true, false_and, if_false]
        exact ⟨fun h => absurd h.1 hstatus, fun _ => trivial⟩
    | 0 :: j :: path =>
      have hbelow := ihc (demote slots a).1
        ((labels rest).countP Item.isInProgress + later) (by omega) (j :: path)
      rw [Repaired, inProgressBehind_below, or_assoc, ← Nat.add_pos_iff_pos_or_pos]
      exact hbelow
    | (i + 1) :: path =>
      have hbehind := ihr (mapAccum demote (demote slots a).1 children).1 later
        (by rw [mapAccum_demote_fst]; omega) (i :: path)
      rw [Repaired, inProgressBehind_behind, statusAt_behind, statusAt_behind]
      exact hbehind

theorem autoFixed_spec (todos : List TodoItem) (path : List Nat) :
    Repaired todos (autoFixed todos) 0 path := by
  have hfix := mapAccum_demote_spec todos ((labels todos).countP Item.isInProgress - 1) 0
    (by omega) path
  by_cases hone : (labels todos).countP Item.isInProgress ≤ 1
  · have hnone : (findInProgressConflicts todos).isEmpty = true :=
      List.isEmpty_iff.mpr (findInProgressConflicts_eq_nil.mpr hone)
    rw [autoFixed, if_pos hnone]
    rw [show (labels todos).countP Item.isInProgress - 1 = 0 by omega] at hfix
    rwa [mapAccum_demote_zero] at hfix
  · have hsome : ¬(findInProgressConflicts todos).isEmpty = true := fun h =>
      hone (findInProgressConflicts_eq_nil.mp (List.isEmpty_iff.mp h))
    rw [autoFixed, if_neg hsome, autoFixInProgress]
    exact (if_neg hone) ▸ hfix

/-! ### Updates of a status -/

/-- The item that a title leads to: by the title itself, or else by the nearest one. -/
def foundPath (todos : List TodoItem) (title : Bytes) (fuzzy : Bool) : Option (List Nat) :=
  (findPath todos title).or
    (if fuzzy then
      (findNearestTitle title (collectTitles todos) kFuzzyTitleCutoff).bind (findPath todos)
    else none)

/-- The path that an operation addresses: that of the item in its scope, or the free one behind. -/
def addressed (todos : List TodoItem) (op : UpdateOp) : Option (List Nat) :=
  match op.parent with
  | none => foundPath todos op.title op.fuzzy
  | some parent =>
    (if parent = [] then some [] else foundPath todos parent op.fuzzy).map fun path =>
      path ++ [((scopeAt todos path).findIdx? fun t => t.label.content == op.title).getD
        (scopeAt todos path).length]

variable {fuzzy : Bool} {op : UpdateOp} {s : TodoStatus}

theorem resolveTitle_found {title matched : Bytes} {missing missingFuzzy : ToolResponse}
    (h : resolveTitle todos title fuzzy missing missingFuzzy = .ok (path, matched)) :
    foundPath todos title fuzzy = some path := by
  unfold resolveTitle at h
  unfold foundPath
  split at h
  · rename_i found hfound
    rw [hfound, ← (Prod.mk.inj (Except.ok.inj h)).1]
    rfl
  · rename_i hnone
    rw [hnone, Option.none_or]
    split at h
    · rename_i hfuzzy
      rw [if_pos hfuzzy]
      split at h
      · cases h
      · rename_i choice hchoice
        obtain ⟨hpath, -⟩ := Prod.mk.inj (Except.ok.inj h)
        obtain ⟨t, ht, htitle⟩ := List.mem_map.mp (mem_of_findNearestTitle hchoice)
        obtain ⟨found, hfound⟩ := Option.isSome_iff_exists.mp
          (findFrom_complete (p := fun t => t.content == choice) ⟨t, ht, beq_iff_eq.mpr htitle⟩ 0)
        have hchosen : findPath todos choice = some found := hfound
        rw [hchosen, Option.getD_some] at hpath
        rw [hchoice, Option.bind_some, hchosen, hpath]
    · cases h

theorem resolveParent_found {parent title : Bytes}
    (h : resolveParent todos parent fuzzy = .ok (path, title)) :
    (if parent = [] then some [] else foundPath todos parent fuzzy) = some path := by
  unfold resolveParent at h
  split at h
  · rename_i hroot
    rw [if_pos hroot, (Prod.mk.inj (Except.ok.inj h)).1]
  · rename_i hparent
    rw [if_neg hparent, resolveTitle_found h]

/-- The status at one path is set, and nothing else. -/
def SetsStatus (todos updated : List TodoItem) (path : List Nat) (s : TodoStatus) : Prop :=
  ∀ q, statusAt updated q = if q = path then some s else statusAt todos q

theorem setsStatus_of_labelAt {t : Item}
    (h : ∀ q, labelAt q updated = if q = path then some t else labelAt q todos) :
    SetsStatus todos updated path t.status := by
  intro q
  rw [statusAt, h]
  split
  · rfl
  · rfl

theorem tdApplyUpdateToTree_sets {matched : Bytes} (hstatus : op.status = some s)
    (hcomplete : op.complete = false) (h : tdApplyUpdateToTree todos path matched op = .ok updated) :
    SetsStatus todos updated path s := by
  unfold tdApplyUpdateToTree at h
  split at h
  · cases h
  · rename_i node hnode
    obtain ⟨_, -, h⟩ := bind_eq_ok.mp h
    obtain ⟨_, -, h⟩ := bind_eq_ok.mp h
    obtain ⟨title, -, h⟩ := bind_eq_ok.mp h
    obtain rfl := Except.ok.inj h
    rw [hstatus, Option.getD_some]
    have hset : (updateNode title s op node).label.status = s := by
      rw [updateNode, hcomplete]
      rfl
    refine hset ▸ setsStatus_of_labelAt fun q => ?_
    rw [hset]
    have hchange := @labelAt_modifyAt _ (updateNode title s op) _ [] _ _
      (updateNode title s op node).label hnode (fun q => ?_) q
    · rwa [List.append_nil] at hchange
    · cases q with
      | nil => rfl
      | cons i q =>
        rw [if_neg (List.cons_ne_nil i q), updateNode, hcomplete]
        rfl

theorem addChild_sets {todos : List TodoItem} {path : List Nat} {child : TodoItem}
    (hleaf : child.children = []) (hpath : path = [] ∨ ∃ node, nodeAt path todos = some node) :
    SetsStatus todos (addChild todos path child) (path ++ [(scopeAt todos path).length])
      child.label.status := by
  refine setsStatus_of_labelAt fun q => ?_
  rcases hpath with rfl | ⟨node, hnode⟩
  · exact labelAt_concat hleaf todos q
  · rw [addChild, scopeAt, hnode]
    refine labelAt_modifyAt hnode (fun q => ?_) q
    cases q with
    | nil => rfl
    | cons i q => exact labelAt_concat hleaf node.children (i :: q)

theorem tdApplyOneUpdate_sets {maxLayers : Nat} (hstatus : op.status = some s)
    (hcomplete : op.complete = false) (h : tdApplyOneUpdate maxLayers todos op = .ok updated) :
    ∃ path, addressed todos op = some path ∧ SetsStatus todos updated path s := by
  unfold tdApplyOneUpdate at h
  unfold addressed
  cases hparent : op.parent with
  | none =>
    rw [hparent] at h
    dsimp only at h
    split at h
    · cases h
    · obtain ⟨⟨path, matched⟩, hpath, h⟩ := bind_eq_ok.mp h
      exact ⟨path, resolveTitle_found hpath, tdApplyUpdateToTree_sets hstatus hcomplete h⟩
  | some parent =>
    rw [hparent] at h
    obtain ⟨⟨path, title⟩, hpath, h⟩ := bind_eq_ok.mp h
    dsimp only at h ⊢
    rw [resolveParent_found hpath, Option.map_some]
    refine ⟨_, rfl, ?_⟩
    split at h
    · rename_i index hindex
      rw [hindex]
      exact tdApplyUpdateToTree_sets hstatus hcomplete h
    · rename_i hnone
      obtain ⟨_, -, h⟩ := bind_eq_ok.mp h
      obtain rfl := Except.ok.inj h
      have hset : (newChild op).label.status = s := by
        rw [newChild, hstatus]
        rfl
      rw [hnone]
      exact hset ▸ @addChild_sets todos path (newChild op) rfl (resolveParent_sound hpath)

/-- A committed update that sets a status sets it at the item it addresses, unless that item goes
into progress in front of another one: then it is done. Of the other items only one that was in
progress has another status. -/
theorem updateTodos_status (maxLayers : Nat) (old committed : TodoState) (op : UpdateOp)
    (s : TodoStatus) (hstatus : op.status = some s) (hcomplete : op.complete = false)
    (h : updateTodos maxLayers old [op] = .ok (some committed)) :
    ∃ path, addressed old.todos op = some path ∧
      (s = .inProgress ∧ InProgressBehind old.todos path →
        statusAt committed.todos path = some .done) ∧
      (¬(s = .inProgress ∧ InProgressBehind old.todos path) →
        statusAt committed.todos path = some s) ∧
      ∀ q, q ≠ path → statusAt committed.todos q ≠ statusAt old.todos q →
        statusAt old.todos q = some .inProgress := by
  obtain ⟨todos, hloop, hcommitted⟩ := map_eq_ok.mp h
  obtain rfl := Option.some.inj hcommitted
  rw [updateLoop] at hloop
  split at hloop
  · cases hloop
  · rename_i updated happlied
    obtain rfl := Except.ok.inj hloop
    obtain ⟨path, hpath, hsets⟩ := tdApplyOneUpdate_sets hstatus hcomplete happlied
    have hat : statusAt updated path = some s := by rw [hsets, if_pos rfl]
    -- behind the path the update changes nothing
    have hbehind : InProgressBehind updated path ↔ InProgressBehind old.todos path := by
      refine exists_congr fun q => and_congr_right fun hlt => ?_
      have hne : q ≠ path := fun heq => List.lt_irrefl _ (heq ▸ hlt)
      rw [hsets, if_neg hne]
    have hself := autoFixed_spec updated path
    rw [Repaired, hat, Option.some_inj, hbehind, or_iff_left (Nat.lt_irrefl 0)] at hself
    refine ⟨path, hpath, hself.1, hself.2, fun q hq hchanged => ?_⟩
    have hother : statusAt updated q = statusAt old.todos q := by rw [hsets, if_neg hq]
    by_contra hidle
    have hkept := (autoFixed_spec updated q).2 fun hfixed => hidle (hother ▸ hfixed.1)
    exact hchanged (hkept.trans hother)

/-- A list whose second item is in progress, and the request to start the first one. -/
def secondStarted : TodoState where
  todos := [⟨{ content := ascii "plan" }, []⟩,
    ⟨{ content := ascii "test", status := .inProgress }, []⟩]

def startFirst : UpdateOp where
  title := ascii "plan"
  status := some .inProgress

def firstDone : TodoState where
  todos := [⟨{ content := ascii "plan", status := .done }, []⟩,
    ⟨{ content := ascii "test", status := .inProgress }, []⟩]

theorem updateTodos_status_first :
    ∃ path, addressed secondStarted.todos startFirst = some path ∧
      (TodoStatus.inProgress = .inProgress ∧ InProgressBehind secondStarted.todos path →
        statusAt firstDone.todos path = some .done) ∧
      (¬(TodoStatus.inProgress = .inProgress ∧ InProgressBehind secondStarted.todos path) →
        statusAt firstDone.todos path = some .inProgress) ∧
      ∀ q, q ≠ path → statusAt firstDone.todos q ≠ statusAt secondStarted.todos q →
        statusAt secondStarted.todos q = some .inProgress :=
  updateTodos_status 0 secondStarted firstDone startFirst .inProgress rfl rfl rfl

/-- The request is committed, and the item that it addresses is done. -/
theorem startFirst_done : updateTodos 0 secondStarted [startFirst] = .ok (some firstDone) ∧
    (labels secondStarted.todos).countP Item.isInProgress ≤ 1 ∧
    addressed secondStarted.todos startFirst = some [0] ∧
    statusAt firstDone.todos [0] ≠ some .inProgress :=
  ⟨rfl, by decide, rfl, by decide⟩

end KimixNative.Todo
