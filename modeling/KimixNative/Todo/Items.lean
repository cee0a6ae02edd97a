import KimixNative.Lib.Forest
import KimixNative.Tools.ToolParams
import Mathlib.Data.List.DropRight
import Mathlib.Data.Rat.Defs

/-!
# The todo tree

An item has a title, a status and notes, and the items below it. This module has the small texts
of the todo tool, its fuzzy search for a title, and the kernels that read and change a tree.
-/

namespace KimixNative.Todo

open Text Forest Tools

inductive TodoStatus where
  | pending
  | inProgress
  | done
  deriving DecidableEq, Repr

/-- The fields of `todo_item`. The items below it are its children in the forest. -/
structure Item where
  content : Bytes
  status : TodoStatus := .pending
  notes : Option Bytes := none
  childrenProvided : Bool := false
  deriving DecidableEq, Repr

abbrev TodoItem := Node Item

structure TodoState where
  todos : List TodoItem := []
  archivedTodos : List TodoItem := []
  deriving DecidableEq

def kMaxTodos : Nat := 4096
def kMaxArchivedTodos : Nat := 500
def kMaxTitleChars : Nat := 65536
def kMaxNotesChars : Nat := 65536
def kFuzzyTitleCutoff : ℚ := 60

/-! ### Texts -/

/-- `td_is_space`. -/
def tdIsSpace (c : Byte) : Bool :=
  c == 0x20#8 || c == 0x09#8 || c == 0x0A#8 || c == 0x0D#8 || c == 0x0C#8 || c == 0x0B#8

/-- `td_trim`. -/
def tdTrim (s : Bytes) : Bytes := (s.dropWhile tdIsSpace).rdropWhile tdIsSpace

/-- `td_lower`. -/
def tdLower (s : Bytes) : Bytes := s.map aliasFold

/-- `td_join`. -/
def tdJoin (parts : List Bytes) (sep : Bytes) : Bytes := sep.intercalate parts

/-- `td_repr_list`. -/
def tdReprList (items : List Bytes) : Bytes :=
  ascii "[" ++ tdJoin (items.map fun item => ascii "'" ++ item ++ ascii "'") (ascii ", ") ++
    ascii "]"

/-- `td_split_ws`. -/
def tdSplitWs (s : Bytes) : List Bytes := (s.splitOnP tdIsSpace).filter fun word => !word.isEmpty

/-- One row of the table of `td_lcs_len`, given the entries to the left and above to the left. -/
def lcsRow (x : Byte) : Nat → Nat → Bytes → List Nat → List Nat
  | left, diagonal, y :: ys, up :: ups =>
    let entry := if x = y then diagonal + 1 else max up left
    entry :: lcsRow x entry up ys ups
  | _, _, _, _ => []

/-- `td_lcs_len`. -/
def tdLcsLen (a b : Bytes) : Nat :=
  if a = [] ∨ b = [] then 0
  else if a.length * b.length > 16 * 1024 * 1024 then
    if a = b then min a.length b.length else 0
  else ((a.foldl (fun row x => lcsRow x 0 0 b row) (List.replicate b.length 0)).getLast?).getD 0

/-- `td_sorted_tokens_key`. -/
def tdSortedTokensKey (s : Bytes) : Bytes :=
  tdJoin ((tdSplitWs (tdLower s)).mergeSort fun a b => !keyLess b a) (ascii " ")

/-- `token_sort_ratio`, as an exact quotient. -/
def tokenSortRatio (a b : Bytes) : ℚ :=
  let sa := tdSortedTokensKey a
  let sb := tdSortedTokensKey b
  if sa = [] ∧ sb = [] then 100
  else if sa = [] ∨ sb = [] then 0
  else 200 * (tdLcsLen sa sb : ℚ) / ((sa.length + sb.length : Nat) : ℚ)

/-- One candidate of the search, with its score: it has to beat the best so far. -/
def betterTitle (cutoff : ℚ) (best : Option (ℚ × Bytes)) (score : ℚ) (candidate : Bytes) :
    Option (ℚ × Bytes) :=
  if cutoff ≤ score ∧ best.all (fun b => decide (b.1 < score)) = true then some (score, candidate)
  else best

/-- `find_nearest_title`: the first of the candidates with the best score. -/
def findNearestTitle (query : Bytes) (candidates : List Bytes) (cutoff : ℚ) : Option Bytes :=
  (candidates.foldl (fun best candidate =>
    betterTitle cutoff best (tokenSortRatio query candidate) candidate) none).map (·.2)

theorem mem_of_findNearestTitle {query choice : Bytes} {candidates : List Bytes} {cutoff : ℚ}
    (h : findNearestTitle query candidates cutoff = some choice) : choice ∈ candidates := by
  obtain ⟨best, hbest, rfl⟩ := Option.map_eq_some_iff.mp h
  -- the best so far is one of the candidates seen
  have hfold : ∀ (rest : List Bytes) (start : Option (ℚ × Bytes)),
      (∀ b, start = some b → b.2 ∈ candidates) → rest ⊆ candidates →
      ∀ b, rest.foldl (fun best candidate =>
        betterTitle cutoff best (tokenSortRatio query candidate) candidate) start = some b →
        b.2 ∈ candidates := by
    intro rest
    induction rest with
    | nil => exact fun start hstart _ => hstart
    | cons candidate rest ih =>
      intro start hstart hsub
      obtain ⟨hcandidate, hrest⟩ := List.cons_subset.mp hsub
      refine ih _ (fun b hb => ?_) hrest
      dsimp only [betterTitle] at hb
      split at hb
      · obtain rfl := Option.some.inj hb
        exact hcandidate
      · exact hstart b hb
  exact hfold candidates none (fun b hb => nomatch hb) (List.Subset.refl _) best hbest

/-! ### Statuses -/

/-- `status_name`. -/
def statusName : TodoStatus → Bytes
  | .pending => ascii "pending"
  | .inProgress => ascii "in_progress"
  | .done => ascii "done"

/-- `parse_status`. -/
def parseStatus (v : Bytes) : Option TodoStatus :=
  let n := (tdLower (tdTrim v)).map fun c => if c = 0x2D#8 then 0x5F#8 else c
  if n = ascii "pending" then some .pending
  else if n = ascii "in_progress" then some .inProgress
  else if n = ascii "done" ∨ n = ascii "completed" then some .done
  else none

theorem parseStatus_statusName (s : TodoStatus) : parseStatus (statusName s) = some s := by
  cases s <;> decide

/-! ### Kernels -/

/-- `count_all`. -/
def countAll (items : List TodoItem) : Nat := (labels items).length

/-- `max_tree_depth`. -/
def maxTreeDepth (items : List TodoItem) : Nat := depth items

/-- The titles of the first level. -/
def rootTitles (items : List TodoItem) : List Bytes := items.map fun t => t.label.content

/-- The loop of `find_duplicate_titles`, over the titles seen and the duplicates among them. -/
def duplicateLoop : List Bytes → List Bytes → List Bytes → List Bytes
  | _, dups, [] => dups
  | seen, dups, title :: rest =>
    if seen.contains title then
      duplicateLoop seen (if dups.contains title then dups else title :: dups) rest
    else duplicateLoop (title :: seen) dups rest

/-- `find_duplicate_titles`. -/
def findDuplicateTitles (items : List TodoItem) : List Bytes :=
  (duplicateLoop [] [] (rootTitles items)).mergeSort fun a b => !keyLess b a

/-- `collect_titles`. -/
def collectTitles (items : List TodoItem) : List Bytes := (labels items).map Item.content

/-- `find_path`. -/
def findPath (items : List TodoItem) (title : Bytes) : Option (List Nat) :=
  findFrom (fun t => t.content == title) 0 items

/-- `mark_subtree_done`. -/
def markSubtreeDone (node : TodoItem) : TodoItem := node.map fun t => { t with status := .done }

def Item.isInProgress (t : Item) : Bool := t.status == .inProgress

/-- `find_in_progress_conflicts`. -/
def findInProgressConflicts (items : List TodoItem) : List Bytes :=
  let inProgress := ((labels items).filter Item.isInProgress).map Item.content
  if inProgress.length > 1 then inProgress else []

/-- Demotes an item that is in progress while there are slots left to demote. -/
def demote (slots : Nat) (t : Item) : Nat × Item :=
  if t.isInProgress ∧ 0 < slots then (slots - 1, { t with status := .done }) else (slots, t)

/-- `auto_fix_in_progress`: of the slots in pre-order all but the last are demoted. -/
def autoFixInProgress (items : List TodoItem) : List TodoItem :=
  let slots := (labels items).countP Item.isInProgress
  if slots ≤ 1 then items else (mapAccum demote (slots - 1) items).2

/-- `td_all_root_done`. -/
def tdAllRootDone (items : List TodoItem) : Bool := items.all fun t => t.label.status == .done

/-- `td_unfinished_lines`. -/
def tdUnfinishedLines (items : List TodoItem) : Bytes :=
  tdJoin ((items.filter fun t => t.label.status != .done).map fun t => t.label.content) (ascii "\n")

/-- The map of `td_collect_old_status`: the last item with a title decides. -/
def oldStatus (old : List TodoItem) (title : Bytes) : Option TodoStatus :=
  ((labels old).reverse.find? fun t => t.content == title).map Item.status

/-- A done item that reappears unfinished. -/
def regresses (old : List TodoItem) (t : Item) : Bool :=
  oldStatus old t.content == some .done && t.status != .done

/-- `td_check_regressions`: the clamped tree and the titles that regress. -/
def tdCheckRegressions (old final : List TodoItem) : List TodoItem × List Bytes :=
  (Forest.map (fun t => if regresses old t then { t with status := .done } else t) final,
    ((labels final).filter (regresses old)).map Item.content)

/-- `td_merge_one`. -/
def tdMergeOne (oldItem newItem : TodoItem) : TodoItem where
  label := {
    content := oldItem.label.content
    status := newItem.label.status
    notes := newItem.label.notes.or oldItem.label.notes
    childrenProvided := true }
  children := if newItem.label.childrenProvided then newItem.children else oldItem.children

/-- The last of the new items with a title. -/
def newByTitle (newTodos : List TodoItem) (title : Bytes) : Option TodoItem :=
  newTodos.reverse.find? fun n => n.label.content == title

/-- `td_merge_by_title_update`. -/
def tdMergeByTitleUpdate (oldTodos newTodos : List TodoItem) : List TodoItem :=
  (oldTodos.map fun o =>
    match newByTitle newTodos o.label.content with
    | some n => tdMergeOne o n
    | none => o) ++
    newTodos.filter fun n => !(rootTitles oldTodos).contains n.label.content

end KimixNative.Todo
