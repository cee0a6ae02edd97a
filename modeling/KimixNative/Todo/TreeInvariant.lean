import KimixNative.Todo.Persistence
import Mathlib.Data.List.Nodup

/-!
# The invariant of the todo tree

At most one item is in progress, no item stands deeper than the tool allows, and no two items of
the first level have the same title. Writes keep it by refusing, clamping and repairing; updates
keep it by their checks on depth and titles and by the repair after every operation.
-/

namespace KimixNative.Todo

open Text Forest Tools

structure TreeInvariant (maxLayers : Nat) (todos : List TodoItem) : Prop where
  single : (labels todos).countP Item.isInProgress ≤ 1
  shallow : maxTreeDepth todos ≤ maxLayers + 1
  distinct : (rootTitles todos).Nodup

theorem TreeInvariant.empty (maxLayers : Nat) : TreeInvariant maxLayers [] :=
  ⟨Nat.zero_le _, Nat.zero_le _, List.nodup_nil⟩

/-! ### Relabelling that keeps the titles -/

theorem rootTitles_map (todos : List TodoItem) :
    rootTitles todos = (Forest.map Item.content todos).map Node.label :=
  (roots_map Item.content todos).symm

variable {todos : List TodoItem} {maxLayers : Nat} {params : WriteParams} {path : List Nat}
  {title : Bytes}

variable {updated : List TodoItem} {matched : Bytes} {op : UpdateOp} {node : TodoItem}

/-- Trees with the same titles everywhere have the same titles on the first level. -/
theorem rootTitles_congr (h : Forest.map Item.content updated = Forest.map Item.content todos) :
    rootTitles updated = rootTitles todos := by
  rw [rootTitles_map, h, rootTitles_map]

theorem maxTreeDepth_congr (h : Forest.map Item.content updated = Forest.map Item.content todos) :
    maxTreeDepth updated = maxTreeDepth todos := by
  rw [maxTreeDepth, ← depth_map Item.content, h, depth_map]
  rfl

/-! ### One item in progress -/

theorem findInProgressConflicts_eq_nil :
    findInProgressConflicts todos = [] ↔ (labels todos).countP Item.isInProgress ≤ 1 := by
  unfold findInProgressConflicts
  rw [List.countP_eq_length_filter]
  dsimp only
  rw [List.length_map]
  constructor
  · intro h
    split at h
    · rename_i hmany
      have := congrArg List.length h
      rw [List.length_map, List.length_nil] at this
      omega
    · omega
  · intro h
    rw [if_neg (by omega)]

theorem demote_content (slots : Nat) (t : Item) : (demote slots t).2.content = t.content := by
  unfold demote
  split <;> rfl

/-- Each slot takes one item out of progress. -/
theorem countP_relabel_demote (slots : Nat) (items : List Item) :
    (relabel demote slots items).2.countP Item.isInProgress =
      items.countP Item.isInProgress - slots := by
  induction items generalizing slots with
  | nil => simp [relabel]
  | cons t items ih =>
    rw [relabel]
    dsimp only
    rw [List.countP_cons, List.countP_cons, ih]
    by_cases ht : t.isInProgress = true
    · by_cases hslots : 0 < slots
      · have hdone : ({ t with status := TodoStatus.done } : Item).isInProgress = false := rfl
        simp only [demote, ht, hslots, and_self, if_true, hdone]
        simp only [Bool.false_eq_true, if_false]
        omega
      · simp only [demote, ht, hslots, and_false, if_false, if_true]
        omega
    · rw [Bool.not_eq_true] at ht
      simp [demote, ht]

theorem autoFixInProgress_content (todos : List TodoItem) :
    Forest.map Item.content (autoFixInProgress todos) = Forest.map Item.content todos := by
  unfold autoFixInProgress
  dsimp only
  split
  · rfl
  · exact map_mapAccum demote_content _ todos

theorem autoFixInProgress_single (todos : List TodoItem) :
    (labels (autoFixInProgress todos)).countP Item.isInProgress ≤ 1 := by
  unfold autoFixInProgress
  dsimp only
  split
  · assumption
  · have hlabels := congrArg Prod.snd
      (labels_mapAccum demote ((labels todos).countP Item.isInProgress - 1) todos)
    dsimp only at hlabels
    rw [hlabels, countP_relabel_demote]
    omega

/-- After the repair an invariant that only lacks the single item in progress holds. -/
theorem autoFixed_invariant (shallow : maxTreeDepth todos ≤ maxLayers + 1)
    (distinct : (rootTitles todos).Nodup) : TreeInvariant maxLayers (autoFixed todos) := by
  unfold autoFixed
  split
  · rename_i hnone
    exact ⟨findInProgressConflicts_eq_nil.mp (List.isEmpty_iff.mp hnone), shallow, distinct⟩
  · have hcontent := autoFixInProgress_content todos
    refine ⟨autoFixInProgress_single todos, ?_, ?_⟩
    · rwa [maxTreeDepth_congr hcontent]
    · rwa [rootTitles_congr hcontent]

/-! ### Distinct titles -/

theorem duplicateLoop_subset {seen dups titles : List Bytes} :
    dups ⊆ duplicateLoop seen dups titles := by
  induction titles generalizing seen dups with
  | nil => exact List.Subset.refl _
  | cons title titles ih =>
    rw [duplicateLoop]
    split
    · refine List.Subset.trans ?_ ih
      split
      · exact List.Subset.refl _
      · exact List.subset_cons_self _ _
    · exact ih

theorem duplicateLoop_eq_nil {seen titles : List Bytes}
    (h : duplicateLoop seen [] titles = []) :
    titles.Nodup ∧ ∀ title ∈ titles, title ∉ seen := by
  induction titles generalizing seen with
  | nil => exact ⟨List.nodup_nil, fun _ h => nomatch h⟩
  | cons title titles ih =>
    rw [duplicateLoop] at h
    split at h
    · have hmem : title ∈ duplicateLoop seen [title] titles :=
        duplicateLoop_subset List.mem_cons_self
      rw [show (if ([] : List Bytes).contains title then [] else [title]) = [title] from rfl] at h
      rw [h] at hmem
      cases hmem
    · rename_i hseen
      obtain ⟨hnodup, hnot⟩ := ih h
      rw [List.contains_iff_mem] at hseen
      refine ⟨List.nodup_cons.mpr ⟨fun hmem => hnot title hmem List.mem_cons_self, hnodup⟩, ?_⟩
      intro other hother
      obtain rfl | hother := List.mem_cons.mp hother
      · exact hseen
      · exact fun hmem => hnot other hother (List.mem_cons_of_mem _ hmem)

theorem nodup_of_findDuplicateTitles {items : List TodoItem} (h : findDuplicateTitles items = []) :
    (rootTitles items).Nodup := by
  have hperm := List.mergeSort_perm (duplicateLoop [] [] (rootTitles items)) fun a b => !keyLess b a
  rw [show List.mergeSort _ _ = ([] : List Bytes) from h] at hperm
  exact (duplicateLoop_eq_nil (List.nil_perm.mp hperm)).1

/-- A merge keeps the old titles and adds the new ones. -/
theorem rootTitles_merge (oldTodos newTodos : List TodoItem) :
    rootTitles (tdMergeByTitleUpdate oldTodos newTodos) =
      rootTitles oldTodos ++
        (rootTitles newTodos).filter fun title => !(rootTitles oldTodos).contains title := by
  have hadded := List.filter_map (f := fun t : TodoItem => t.label.content)
    (p := fun title => !(rootTitles oldTodos).contains title) (l := newTodos)
  refine (List.map_append ..).trans (congrArg₂ (· ++ ·) ?_ hadded.symm)
  -- an item of the old list keeps its title
  rw [List.map_map]
  refine List.map_congr_left fun o _ => ?_
  rw [Function.comp_apply]
  split <;> rfl

theorem nodup_merge {oldTodos newTodos : List TodoItem} (hold : (rootTitles oldTodos).Nodup)
    (hnew : (rootTitles newTodos).Nodup) :
    (rootTitles (tdMergeByTitleUpdate oldTodos newTodos)).Nodup := by
  rw [rootTitles_merge]
  refine hold.append (hnew.filter _) ?_
  intro title hmem hfilter
  have hnot := (List.mem_filter.mp hfilter).2
  rw [Bool.not_eq_true', ← Bool.not_eq_true, List.contains_iff_mem] at hnot
  exact hnot hmem

/-! ### Writes -/

theorem validateNew_distinct (h : validateNew params = .ok ()) (hmode : params.mode ≠ .clear) :
    (rootTitles params.todos).Nodup := by
  unfold validateNew at h
  rw [if_neg hmode] at h
  dsimp only at h
  split at h
  · cases h
  · rename_i hnone
    refine nodup_of_findDuplicateTitles ?_
    simpa using hnone

theorem writeBranch_distinct {old newTodos : List TodoItem}
    (h : writeBranch old params = .ok (some newTodos)) (hvalid : validateNew params = .ok ())
    (hold : (rootTitles old).Nodup) :
    (rootTitles newTodos).Nodup ∧ (params.mode = .clear → newTodos = []) := by
  unfold writeBranch at h
  cases hmode : params.mode with
  | clear =>
    rw [hmode] at h
    dsimp only at h
    split at h
    · cases h
    · obtain rfl := Option.some.inj (Except.ok.inj h)
      exact ⟨List.nodup_nil, fun _ => rfl⟩
  | replace =>
    rw [hmode] at h
    dsimp only at h
    split at h
    · cases h
    · obtain rfl := Option.some.inj (Except.ok.inj h)
      exact ⟨validateNew_distinct hvalid (by simp [hmode]), fun h => nomatch h⟩
  | append =>
    rw [hmode] at h
    dsimp only at h
    have hnew := validateNew_distinct hvalid (by simp [hmode])
    split at h
    · cases Except.ok.inj h
    · obtain rfl := Option.some.inj (Except.ok.inj h)
      refine ⟨?_, fun h => nomatch h⟩
      split
      · exact hnew
      · exact nodup_merge hold hnew

theorem checkDepth_shallow (h : checkDepth maxLayers todos = .ok ()) :
    maxTreeDepth todos ≤ maxLayers + 1 := by
  unfold checkDepth at h
  dsimp only at h
  split at h
  · cases h
  · omega

theorem tdCheckRegressions_content (old final : List TodoItem) :
    Forest.map Item.content (tdCheckRegressions old final).1 = Forest.map Item.content final := by
  unfold tdCheckRegressions
  rw [Forest.map_map]
  refine map_congr fun t _ => ?_
  rw [Function.comp_apply]
  split <;> rfl

theorem clampRegressions_content {old newTodos clamped : List TodoItem}
    (h : clampRegressions old params newTodos = .ok clamped) :
    Forest.map Item.content clamped = Forest.map Item.content newTodos := by
  unfold clampRegressions at h
  split at h
  · dsimp only at h
    split at h
    · cases h
    · obtain rfl := Except.ok.inj h
      exact tdCheckRegressions_content old newTodos
  · obtain rfl := Except.ok.inj h
    rfl

theorem enforceSingle_invariant {clamped final : List TodoItem}
    (h : enforceSingle params clamped = .ok final) (hforce : params.force = false)
    (hmode : params.mode ≠ .clear) (shallow : maxTreeDepth clamped ≤ maxLayers + 1)
    (distinct : (rootTitles clamped).Nodup) : TreeInvariant maxLayers final := by
  unfold enforceSingle at h
  rw [hforce, if_pos (by simpa using hmode)] at h
  dsimp only at h
  split at h
  · rename_i hnone
    obtain rfl := Except.ok.inj h
    exact ⟨findInProgressConflicts_eq_nil.mp (List.isEmpty_iff.mp hnone), shallow, distinct⟩
  · split at h
    · rename_i hmany _
      obtain rfl := Except.ok.inj h
      have hfixed := autoFixed_invariant shallow distinct
      rwa [autoFixed, if_neg hmany] at hfixed
    · cases h

theorem enforceSingle_clear {clamped final : List TodoItem}
    (h : enforceSingle params clamped = .ok final) (hmode : params.mode = .clear) :
    final = clamped := by
  unfold enforceSingle at h
  rw [if_neg (by simp [hmode])] at h
  exact (Except.ok.inj h).symm

/-- A write without force keeps the invariant. -/
theorem writeTodos_invariant {old committed : TodoState} (hold : TreeInvariant maxLayers old.todos)
    (hforce : params.force = false) (h : writeTodos maxLayers old params = .ok (some committed)) :
    TreeInvariant maxLayers committed.todos := by
  unfold writeTodos at h
  obtain ⟨_, hvalid, h⟩ := bind_eq_ok.mp h
  obtain ⟨newTodos?, hbranch, h⟩ := bind_eq_ok.mp h
  cases newTodos? with
  | none => cases Except.ok.inj h
  | some newTodos =>
    obtain ⟨_, hdepth, h⟩ := bind_eq_ok.mp h
    obtain ⟨clamped, hclamp, h⟩ := bind_eq_ok.mp h
    obtain ⟨final, hsingle, h⟩ := bind_eq_ok.mp h
    obtain rfl := Option.some.inj (Except.ok.inj h)
    obtain ⟨hdistinct, hclear⟩ := writeBranch_distinct hbranch hvalid hold.distinct
    have hcontent := clampRegressions_content hclamp
    by_cases hmode : params.mode = .clear
    · obtain rfl := hclear hmode
      have hempty : clamped = [] := by
        cases clamped with
        | nil => rfl
        | cons t rest => rw [map_cons, map_nil] at hcontent; cases hcontent
      obtain rfl := (enforceSingle_clear hsingle hmode).trans hempty
      exact TreeInvariant.empty maxLayers
    · refine enforceSingle_invariant hsingle hforce hmode ?_ ?_
      · rw [maxTreeDepth_congr hcontent]
        exact checkDepth_shallow hdepth
      · rwa [rootTitles_congr hcontent]

/-! ### Updates -/

theorem findPath_sound (h : findPath todos title = some path) :
    ∃ node, nodeAt path todos = some node ∧ node.label.content = title := by
  obtain ⟨j, rest, node, rfl, hnode, htitle⟩ := findFrom_sound h
  rw [Nat.zero_add]
  exact ⟨node, hnode, eq_of_beq htitle⟩

variable {fuzzy : Bool} {f : TodoItem → TodoItem} {child : TodoItem} {ops : List UpdateOp}

/-- The path that is resolved leads to an item with the title that is reported. -/
theorem resolveTitle_sound {missing missingFuzzy : ToolResponse}
    (h : resolveTitle todos title fuzzy missing missingFuzzy = .ok (path, matched)) :
    ∃ node, nodeAt path todos = some node ∧ node.label.content = matched := by
  unfold resolveTitle at h
  split at h
  · rename_i found hfound
    obtain ⟨rfl, rfl⟩ := Prod.mk.inj (Except.ok.inj h)
    exact findPath_sound hfound
  · split at h
    · split at h
      · cases h
      · rename_i choice hchoice
        obtain ⟨rfl, rfl⟩ := Prod.mk.inj (Except.ok.inj h)
        obtain ⟨t, ht, htitle⟩ := List.mem_map.mp (mem_of_findNearestTitle hchoice)
        obtain ⟨found, hfound⟩ := Option.isSome_iff_exists.mp
          (findFrom_complete (p := fun t => t.content == choice) ⟨t, ht, beq_iff_eq.mpr htitle⟩ 0)
        rw [show findPath todos choice = some found from hfound]
        exact findPath_sound hfound
    · cases h

theorem finalTitle_free (h : finalTitle todos path matched op = .ok title) :
    title = matched ∨ title ≠ matched ∧ takenInScope todos path title = false := by
  unfold finalTitle at h
  split at h
  · exact .inl (Except.ok.inj h).symm
  · split at h
    · exact .inl (Except.ok.inj h).symm
    · rename_i hne
      split at h
      · cases h
      · rename_i hfree
        obtain rfl := Except.ok.inj h
        exact .inr ⟨hne, Bool.not_eq_true _ ▸ hfree⟩

theorem rootTitles_modify (hf : ∀ t, (f t).label.content = title) (i : Nat) (todos : List TodoItem) :
    rootTitles (todos.modify i f) = (rootTitles todos).set i title := by
  refine List.ext_getElem? fun k => ?_
  rw [rootTitles, rootTitles, List.getElem?_map, List.getElem?_modify, List.getElem?_set,
    List.getElem?_map, List.length_map]
  by_cases hik : i = k
  · subst hik
    by_cases hi : i < todos.length
    · simp [hi, hf]
    · simp [hi]
  · simp [hik]

/-- A title that no other item of the first level has is not on the first level. -/
theorem notMem_rootTitles_of_free {i : Nat} (hnode : todos[i]? = some node)
    (hne : title ≠ node.label.content) (hfree : takenInScope todos [i] title = false) :
    title ∉ rootTitles todos := by
  intro hmem
  obtain ⟨t, ht, rfl⟩ := List.mem_map.mp hmem
  obtain ⟨k, hk⟩ := List.mem_iff_getElem?.mp ht
  have hki : k ≠ i := by
    rintro rfl
    rw [hk] at hnode
    obtain rfl := Option.some.inj hnode
    exact hne rfl
  have htaken : takenInScope todos [i] t.label.content = true := by
    refine List.any_eq_true.mpr ⟨(t, k), List.mem_zipIdx_iff_getElem?.mpr hk, ?_⟩
    simp [hki]
  rw [htaken] at hfree
  cases hfree

theorem nodup_modifyAt (hnodup : (rootTitles todos).Nodup) (hnode : nodeAt path todos = some node)
    (hf : ∀ t, (f t).label.content = title)
    (htitle : title = node.label.content ∨ title ≠ node.label.content ∧ takenInScope todos path
      title = false) : (rootTitles (modifyAt f path todos)).Nodup := by
  match path, hnode, htitle with
  | [i], hnode, htitle =>
    rw [show modifyAt f [i] todos = todos.modify i f from rfl, rootTitles_modify hf]
    rcases htitle with rfl | ⟨hne, hfree⟩
    · have hsame : (rootTitles todos).set i node.label.content = rootTitles todos := by
        have hget : (rootTitles todos)[i]? = some node.label.content := by
          rw [rootTitles, List.getElem?_map, show todos[i]? = some node from hnode]
          rfl
        obtain ⟨hi, hget⟩ := List.getElem?_eq_some_iff.mp hget
        rw [← hget]
        exact List.set_getElem_self hi
      rwa [hsame]
    · exact hnodup.set (notMem_rootTitles_of_free hnode hne hfree)
  | i :: j :: rest, hnode, htitle =>
    have hroots := congrArg (List.map Item.content) (roots_modifyAt f i j rest todos)
    rw [List.map_map, List.map_map] at hroots
    rw [show rootTitles (modifyAt f (i :: j :: rest) todos) = rootTitles todos from hroots]
    exact hnodup

theorem updateNode_content (title : Bytes) (status : TodoStatus) (op : UpdateOp)
    (node : TodoItem) : (updateNode title status op node).label.content = title := by
  unfold updateNode
  split
  · rw [markSubtreeDone, Node.map_eq]
    rfl
  · rfl

theorem updateNode_height (title : Bytes) (status : TodoStatus) (op : UpdateOp)
    (node : TodoItem) : (updateNode title status op node).height = node.height := by
  unfold updateNode
  split
  · rw [markSubtreeDone, Node.map_eq, Node.height_eq, depth_map, Node.height_eq]
    rfl
  · rw [Node.height_eq, Node.height_eq]
    rfl

/-- An update of an item keeps the titles of the first level distinct and adds no level. -/
theorem tdApplyUpdateToTree_shape (hnode : nodeAt path todos = some node)
    (hmatched : node.label.content = matched) (hnodup : (rootTitles todos).Nodup)
    (h : tdApplyUpdateToTree todos path matched op = .ok updated) :
    maxTreeDepth updated ≤ maxTreeDepth todos ∧ (rootTitles updated).Nodup := by
  unfold tdApplyUpdateToTree at h
  rw [hnode] at h
  obtain ⟨_, -, h⟩ := bind_eq_ok.mp h
  obtain ⟨_, -, h⟩ := bind_eq_ok.mp h
  obtain ⟨title, htitle, h⟩ := bind_eq_ok.mp h
  obtain rfl := Except.ok.inj h
  subst hmatched
  refine ⟨depth_modifyAt le_rfl fun t ht => ?_, ?_⟩
  · rw [updateNode_height]
    exact length_add_height_le ht
  · exact nodup_modifyAt hnodup hnode (updateNode_content title _ op) (finalTitle_free htitle)

theorem resolveParent_sound {parent : Bytes}
    (h : resolveParent todos parent fuzzy = .ok (path, title)) :
    path = [] ∨ ∃ node, nodeAt path todos = some node := by
  unfold resolveParent at h
  split at h
  · exact .inl (Prod.mk.inj (Except.ok.inj h)).1.symm
  · obtain ⟨node, hnode, -⟩ := resolveTitle_sound h
    exact .inr ⟨node, hnode⟩

/-- An item that is found directly below a path. -/
theorem nodeAt_of_scope {index : Nat} (hpath : path = [] ∨ ∃ node, nodeAt path todos = some node)
    (hchild : (scopeAt todos path)[index]? = some child) :
    nodeAt (path ++ [index]) todos = some child := by
  rcases hpath with rfl | ⟨node, hnode⟩
  · exact hchild
  · rw [nodeAt_concat hnode]
    rwa [scopeAt, hnode] at hchild

theorem checkCreate_depth (h : checkCreate maxLayers op path title = .ok ()) :
    path.length ≤ maxLayers := by
  unfold checkCreate at h
  dsimp only at h
  split at h
  · cases h
  · split at h
    · cases h
    · split at h
      · cases h
      · omega

/-- A new item below an item that is not too deep. -/
theorem addChild_shape (hleaf : child.children = [])
    (hfresh : ∀ t ∈ scopeAt todos path, t.label.content ≠ child.label.content)
    (hdepth : path.length ≤ maxLayers) (hshallow : maxTreeDepth todos ≤ maxLayers + 1)
    (hnodup : (rootTitles todos).Nodup) :
    maxTreeDepth (addChild todos path child) ≤ maxLayers + 1 ∧
      (rootTitles (addChild todos path child)).Nodup := by
  have hheight : child.height = 1 := by rw [Node.height_eq, hleaf, depth_nil]
  unfold addChild
  cases hnode : nodeAt path todos with
  | some parent =>
    constructor
    · refine depth_modifyAt hshallow fun t ht => ?_
      have hlevel : path.length - 1 + t.height ≤ maxLayers + 1 :=
        (length_add_height_le ht).trans hshallow
      have hpos := List.length_pos_of_ne_nil (nodeAt_ne_nil ht)
      rw [Node.height_eq] at hlevel ⊢
      rw [depth_append, depth_cons, depth_nil, hheight]
      omega
    · have hroots := roots_modifyAt_of_label
        (f := fun parent : TodoItem => { parent with children := parent.children ++ [child] })
        (fun _ => rfl) path todos
      have htitles := congrArg (List.map Item.content) hroots
      rw [List.map_map, List.map_map] at htitles
      exact (show rootTitles _ = rootTitles todos from htitles) ▸ hnodup
  | none =>
    dsimp only
    rw [scopeAt, hnode] at hfresh
    constructor
    · rw [maxTreeDepth, depth_append, depth_cons, depth_nil, hheight]
      exact max_le hshallow (by omega)
    · rw [rootTitles, List.map_append]
      refine hnodup.append (List.nodup_singleton _) ?_
      intro title hmem hnew
      obtain ⟨t, ht, rfl⟩ := List.mem_map.mp hmem
      exact hfresh t ht (List.mem_singleton.mp hnew)

/-- An operation keeps what is behind the single item in progress. -/
theorem tdApplyOneUpdate_shape (hshallow : maxTreeDepth todos ≤ maxLayers + 1)
    (hnodup : (rootTitles todos).Nodup) (h : tdApplyOneUpdate maxLayers todos op = .ok updated) :
    maxTreeDepth updated ≤ maxLayers + 1 ∧ (rootTitles updated).Nodup := by
  unfold tdApplyOneUpdate at h
  split at h
  · split at h
    · cases h
    · obtain ⟨⟨path, matched⟩, hpath, h⟩ := bind_eq_ok.mp h
      obtain ⟨node, hnode, hmatched⟩ := resolveTitle_sound hpath
      exact (tdApplyUpdateToTree_shape hnode hmatched hnodup h).imp_left fun hle =>
        hle.trans hshallow
  · obtain ⟨⟨path, title⟩, hpath, h⟩ := bind_eq_ok.mp h
    dsimp only at h
    split at h
    · rename_i index hindex
      obtain ⟨hlt, htitle, -⟩ := List.findIdx?_eq_some_iff_getElem.mp hindex
      have hnode := nodeAt_of_scope (resolveParent_sound hpath) (List.getElem?_eq_getElem hlt)
      exact (tdApplyUpdateToTree_shape hnode (eq_of_beq htitle) hnodup h).imp_left fun hle =>
        hle.trans hshallow
    · rename_i hnone
      obtain ⟨_, hcreate, h⟩ := bind_eq_ok.mp h
      obtain rfl := Except.ok.inj h
      refine addChild_shape rfl (fun t ht heq => ?_) (checkCreate_depth hcreate) hshallow hnodup
      have := List.findIdx?_eq_none_iff.mp hnone t ht
      rw [show t.label.content = op.title from heq, beq_self_eq_true] at this
      cases this

theorem updateLoop_invariant (hold : TreeInvariant maxLayers todos)
    (h : updateLoop maxLayers todos ops = .ok updated) : TreeInvariant maxLayers updated := by
  induction ops generalizing todos with
  | nil =>
    obtain rfl := Except.ok.inj h
    exact hold
  | cons op ops ih =>
    rw [updateLoop] at h
    split at h
    · cases h
    · rename_i applied happlied
      obtain ⟨hshallow, hnodup⟩ := tdApplyOneUpdate_shape hold.shallow hold.distinct happlied
      exact ih (autoFixed_invariant hshallow hnodup) h

theorem updateTodos_invariant {old committed : TodoState} (hold : TreeInvariant maxLayers old.todos)
    (h : updateTodos maxLayers old ops = .ok (some committed)) :
    TreeInvariant maxLayers committed.todos := by
  obtain ⟨todos, htodos, hcommitted⟩ := map_eq_ok.mp h
  obtain rfl := Option.some.inj hcommitted
  exact updateLoop_invariant hold htodos

/-! ### Runs -/

/-- The call is not a write with force. -/
def Call.Unforced (json : JsonLibrary) (call : Call) : Prop :=
  flowOf call.parameters = .write →
    ∀ params, parseWriteParams json call.parameters = .ok params → params.force = false

theorem sessionStep_invariant {json : JsonLibrary} {st : TodoState} {call : Call}
    (hst : TreeInvariant maxLayers st.todos) (hcall : call.Unforced json) :
    TreeInvariant maxLayers (sessionStep json maxLayers st call).todos := by
  rw [sessionStep_eq]
  split
  · rename_i committed hrun
    unfold runCall at hrun
    split at hrun
    · rename_i hflow
      obtain ⟨params, hparams, hwrite⟩ := bind_eq_ok.mp hrun
      exact writeTodos_invariant hst (hcall hflow params hparams) hwrite
    · obtain ⟨ops, -, hupdate⟩ := bind_eq_ok.mp hrun
      exact updateTodos_invariant hst hupdate
    · obtain ⟨_, -, hnone⟩ := map_eq_ok.mp hrun
      cases hnone
  · exact hst

/-- Every run of calls without a forced write keeps the invariant of the tree. -/
theorem todoList_treeInvariant (json : JsonLibrary) (maxLayers : Nat) (calls : List Call)
    (hcalls : ∀ call ∈ calls, call.Unforced json) :
    TreeInvariant maxLayers (run (sessionStep json maxLayers) {} calls).todos :=
  Meets.invariant (I := fun st : TodoState => TreeInvariant maxLayers st.todos)
    (fun _ _ hst hcall => sessionStep_invariant hst hcall) (TreeInvariant.empty maxLayers)
    (meets_of_forall hcalls _)

/-- Two items that are both in progress. -/
def bothInProgress : Call where
  parameters := some [(ascii "todos", .array [
    .object [(ascii "title", .string (ascii "plan")), (ascii "status", .string (ascii "in-progress"))],
    .object [(ascii "title", .string (ascii "test")), (ascii "status", .string (ascii "in_progress"))]])]

theorem todoList_treeInvariant_bothInProgress :
    TreeInvariant 0 (run (sessionStep compactJson 0) {} [bothInProgress]).todos := by
  refine todoList_treeInvariant compactJson 0 _ (List.forall_mem_singleton.mpr ?_)
  intro _ params hparams
  have hforce : (match parseWriteParams compactJson bothInProgress.parameters with
      | .ok params => params.force
      | .error _ => false) = false := by decide
  rwa [hparams] at hforce

end KimixNative.Todo
