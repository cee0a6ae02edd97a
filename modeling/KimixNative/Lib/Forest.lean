import Mathlib.Data.List.Basic
import Mathlib.Order.Lattice

/-!
# Ordered forests

A forest is a list of nodes, each with a label and the forest below it. Whole walks visit the
nodes in pre-order; a single node is addressed by the list of the indices on the way to it, and
changed in place at such a path.
-/

namespace KimixNative.Forest

structure Node (α : Type*) where
  label : α
  children : List (Node α)

section Equality

variable {α : Type*} [DecidableEq α]

mutual

def Node.decEq : (t u : Node α) → Decidable (t = u)
  | ⟨a, ts⟩, ⟨b, us⟩ =>
    match decEq a b, forestDecEq ts us with
    | isTrue ha, isTrue hts => isTrue (by rw [ha, hts])
    | isFalse ha, _ => isFalse fun h => ha (Node.mk.inj h).1
    | _, isFalse hts => isFalse fun h => hts (Node.mk.inj h).2

def forestDecEq : (ts us : List (Node α)) → Decidable (ts = us)
  | [], [] => isTrue rfl
  | [], _ :: _ => isFalse fun h => nomatch h
  | _ :: _, [] => isFalse fun h => nomatch h
  | t :: ts, u :: us =>
    match Node.decEq t u, forestDecEq ts us with
    | isTrue ht, isTrue hts => isTrue (by rw [ht, hts])
    | isFalse ht, _ => isFalse fun h => ht (List.cons.inj h).1
    | _, isFalse hts => isFalse fun h => hts (List.cons.inj h).2

end

instance : DecidableEq (Node α) := Node.decEq

end Equality

section Walks

variable {α β γ σ : Type*}

/-- Induction on a forest: over the nodes below the first one and over the nodes behind it. -/
theorem induction {P : List (Node α) → Prop} (nil : P [])
    (cons : ∀ a children rest, P children → P rest → P (⟨a, children⟩ :: rest)) : ∀ ts, P ts
  | [] => nil
  | ⟨a, children⟩ :: rest => cons a children rest (induction nil cons children)
      (induction nil cons rest)

mutual

def Node.labels : Node α → List α
  | ⟨a, children⟩ => a :: labels children

/-- The labels in pre-order. -/
def labels : List (Node α) → List α
  | [] => []
  | t :: rest => t.labels ++ labels rest

end

mutual

def Node.height : Node α → Nat
  | ⟨_, children⟩ => depth children + 1

/-- The number of levels. -/
def depth : List (Node α) → Nat
  | [] => 0
  | t :: rest => max t.height (depth rest)

end

mutual

def Node.map (f : α → β) : Node α → Node β
  | ⟨a, children⟩ => ⟨f a, map f children⟩

def map (f : α → β) : List (Node α) → List (Node β)
  | [] => []
  | t :: rest => t.map f :: map f rest

end

mutual

def Node.mapAccum (f : σ → α → σ × β) (s : σ) : Node α → σ × Node β
  | ⟨a, children⟩ =>
    let (s, b) := f s a
    let (s, children) := mapAccum f s children
    (s, ⟨b, children⟩)

/-- Relabels in pre-order with a state that is passed along. -/
def mapAccum (f : σ → α → σ × β) (s : σ) : List (Node α) → σ × List (Node β)
  | [] => (s, [])
  | t :: rest =>
    let (s, t) := t.mapAccum f s
    let (s, rest) := mapAccum f s rest
    (s, t :: rest)

end

@[simp] theorem labels_nil : labels ([] : List (Node α)) = [] := rfl

@[simp] theorem labels_cons (t : Node α) (rest : List (Node α)) :
    labels (t :: rest) = t.label :: (labels t.children ++ labels rest) := by
  cases t
  rfl

theorem Node.labels_eq (t : Node α) : t.labels = t.label :: Forest.labels t.children := by
  cases t
  rfl

theorem labels_append (ts us : List (Node α)) : labels (ts ++ us) = labels ts ++ labels us := by
  induction ts with
  | nil => rfl
  | cons t ts ih =>
    rw [List.cons_append, labels_cons, labels_cons, ih, List.cons_append, List.append_assoc]

variable {ts : List (Node α)}

theorem mem_labels {a : α} : a ∈ labels ts ↔ ∃ t ∈ ts, a ∈ t.labels := by
  induction ts with
  | nil => simp
  | cons t ts ih => simp [ih, Node.labels_eq, or_assoc]

@[simp] theorem depth_nil : depth ([] : List (Node α)) = 0 := rfl

@[simp] theorem depth_cons (t : Node α) (rest : List (Node α)) :
    depth (t :: rest) = max t.height (depth rest) := rfl

theorem Node.height_eq (t : Node α) : t.height = depth t.children + 1 := by
  cases t
  rfl

theorem depth_append (ts us : List (Node α)) : depth (ts ++ us) = max (depth ts) (depth us) := by
  induction ts with
  | nil => simp
  | cons t ts ih => rw [List.cons_append, depth_cons, depth_cons, ih, max_assoc]

theorem depth_le {n : Nat} : depth ts ≤ n ↔ ∀ t ∈ ts, t.height ≤ n := by
  induction ts with
  | nil => simp
  | cons t ts ih => simp [ih]

theorem height_le_depth {t : Node α} (h : t ∈ ts) : t.height ≤ depth ts :=
  depth_le.mp le_rfl t h

/-! ## Relabelling -/

@[simp] theorem map_nil (f : α → β) : map f [] = [] := rfl

@[simp] theorem map_cons (f : α → β) (t : Node α) (rest : List (Node α)) :
    map f (t :: rest) = ⟨f t.label, map f t.children⟩ :: map f rest := by
  cases t
  rfl

theorem Node.map_eq (f : α → β) (t : Node α) :
    t.map f = ⟨f t.label, Forest.map f t.children⟩ := by
  cases t
  rfl

theorem labels_map (f : α → β) (ts : List (Node α)) : labels (map f ts) = (labels ts).map f := by
  induction ts using induction with
  | nil => rfl
  | cons a children rest ihc ihr => simp [ihc, ihr]

theorem depth_map (f : α → β) (ts : List (Node α)) : depth (map f ts) = depth ts := by
  induction ts using induction with
  | nil => rfl
  | cons a children rest ihc ihr => simp [Node.height_eq, ihc, ihr]

theorem map_map (g : β → γ) (f : α → β) (ts : List (Node α)) :
    map g (map f ts) = map (g ∘ f) ts := by
  induction ts using induction with
  | nil => rfl
  | cons a children rest ihc ihr => simp [ihc, ihr]

theorem map_congr {f g : α → β} (h : ∀ a ∈ labels ts, f a = g a) : map f ts = map g ts := by
  induction ts using induction with
  | nil => rfl
  | cons a children rest ihc ihr =>
    simp only [labels_cons, List.mem_cons, List.mem_append, forall_eq_or_imp] at h
    rw [map_cons, map_cons, ihc fun b hb => h.2 b (.inl hb), ihr fun b hb => h.2 b (.inr hb),
      h.1]

/-- The nodes of the first level, without what is below them. -/
theorem roots_map (f : α → β) (ts : List (Node α)) :
    (map f ts).map Node.label = ts.map fun t => f t.label := by
  induction ts with
  | nil => rfl
  | cons t ts ih => rw [map_cons, List.map_cons, List.map_cons, ih]

theorem mapAccum_cons (f : σ → α → σ × β) (s : σ) (a : α) (children rest : List (Node α)) :
    mapAccum f s (⟨a, children⟩ :: rest) =
      let (s, b) := f s a
      let (s, children) := mapAccum f s children
      let (s, rest) := mapAccum f s rest
      (s, ⟨b, children⟩ :: rest) := rfl

/-- What the relabelling leaves alone is as before in every node. -/
theorem map_mapAccum {f : σ → α → σ × β} {π : β → γ} {ρ : α → γ} (h : ∀ s a, π (f s a).2 = ρ a)
    (s : σ) (ts : List (Node α)) : map π (mapAccum f s ts).2 = map ρ ts := by
  induction ts using induction generalizing s with
  | nil => rfl
  | cons a children rest ihc ihr =>
    rw [mapAccum_cons, map_cons]
    simp only [map_cons, ihc, ihr, h]

/-- The labels are passed through the state in pre-order. -/
def relabel (f : σ → α → σ × β) : σ → List α → σ × List β
  | s, [] => (s, [])
  | s, a :: as =>
    let (s, b) := f s a
    let (s, bs) := relabel f s as
    (s, b :: bs)

theorem forall_mem_relabel {f : σ → α → σ × β} {P : α → Prop} {Q : β → Prop}
    (h : ∀ s a, P a → Q (f s a).2) (s : σ) {as : List α} (has : ∀ a ∈ as, P a) :
    ∀ b ∈ (relabel f s as).2, Q b := by
  induction as generalizing s with
  | nil => exact fun b hb => nomatch hb
  | cons a as ih =>
    obtain ⟨ha, has⟩ := List.forall_mem_cons.mp has
    rw [relabel]
    exact List.forall_mem_cons.mpr ⟨h s a ha, ih _ has⟩

theorem relabel_append (f : σ → α → σ × β) (s : σ) (as bs : List α) :
    relabel f s (as ++ bs) =
      ((relabel f (relabel f s as).1 bs).1,
        (relabel f s as).2 ++ (relabel f (relabel f s as).1 bs).2) := by
  induction as generalizing s with
  | nil => rfl
  | cons a as ih =>
    rw [List.cons_append]
    simp only [relabel, ih, List.cons_append]

theorem labels_mapAccum (f : σ → α → σ × β) (s : σ) (ts : List (Node α)) :
    ((mapAccum f s ts).1, labels (mapAccum f s ts).2) = relabel f s (labels ts) := by
  induction ts using induction generalizing s with
  | nil => rfl
  | cons a children rest ihc ihr =>
    rw [mapAccum_cons, labels_cons]
    simp only [relabel, relabel_append, labels_cons, ← ihc, ← ihr]

end Walks

/-! ## Paths -/

section Paths

variable {α : Type*}

mutual

def Node.findBelow (p : α → Bool) (i : Nat) : Node α → Option (List Nat)
  | ⟨a, children⟩ => if p a then some [i] else (findFrom p 0 children).map (i :: ·)

/-- The path to the first node in pre-order whose label satisfies the predicate; the first node
has the given index. -/
def findFrom (p : α → Bool) (i : Nat) : List (Node α) → Option (List Nat)
  | [] => none
  | t :: rest => (t.findBelow p i).or (findFrom p (i + 1) rest)

end

/-- The node at a path. -/
def nodeAt : List Nat → List (Node α) → Option (Node α)
  | [], _ => none
  | [i], ts => ts[i]?
  | i :: path, ts => ts[i]?.bind fun t => nodeAt path t.children

/-- Changes the node at a path. -/
def modifyAt (f : Node α → Node α) : List Nat → List (Node α) → List (Node α)
  | [], ts => ts
  | [i], ts => ts.modify i f
  | i :: path, ts => ts.modify i fun t => { t with children := modifyAt f path t.children }

theorem findFrom_cons (p : α → Bool) (i : Nat) (a : α) (children rest : List (Node α)) :
    findFrom p i (⟨a, children⟩ :: rest) =
      (if p a then some [i] else (findFrom p 0 children).map (i :: ·)).or
        (findFrom p (i + 1) rest) := rfl

variable {path : List Nat}

theorem nodeAt_cons {i j : Nat} (ts : List (Node α)) :
    nodeAt (i :: j :: path) ts = ts[i]?.bind fun t => nodeAt (j :: path) t.children := rfl

theorem modifyAt_cons {i j : Nat} (f : Node α → Node α) (ts : List (Node α)) :
    modifyAt f (i :: j :: path) ts =
      ts.modify i fun t => { t with children := modifyAt f (j :: path) t.children } := rfl

/-- What is found is a node with the predicate. -/
theorem findFrom_sound {p : α → Bool} {i : Nat} (h : findFrom p i ts = some path) :
    ∃ j rest t, path = (i + j) :: rest ∧ nodeAt (j :: rest) ts = some t ∧ p t.label := by
  induction ts using induction generalizing i path with
  | nil => cases h
  | cons a children rest ihc ihr =>
    rw [findFrom_cons, Option.or_eq_some_iff] at h
    rcases h with h | ⟨-, h⟩
    · by_cases ha : p a
      · rw [if_pos ha] at h
        obtain rfl := Option.some.inj h
        exact ⟨0, [], ⟨a, children⟩, rfl, rfl, ha⟩
      · rw [if_neg ha] at h
        obtain ⟨below, hbelow, rfl⟩ := Option.map_eq_some_iff.mp h
        obtain ⟨j, q, t, rfl, ht, hp⟩ := ihc hbelow
        refine ⟨0, (0 + j) :: q, t, rfl, ?_, hp⟩
        rw [Nat.zero_add, nodeAt_cons]
        exact ht
    · obtain ⟨j, q, t, rfl, ht, hp⟩ := ihr h
      refine ⟨j + 1, q, t, by rw [Nat.add_right_comm, Nat.add_assoc], ?_, hp⟩
      cases q <;> exact ht

/-- A node with the predicate is found. -/
theorem findFrom_complete {p : α → Bool} (h : ∃ a ∈ labels ts, p a) (i : Nat) :
    (findFrom p i ts).isSome := by
  induction ts using induction generalizing i with
  | nil => simp at h
  | cons a children rest ihc ihr =>
    rw [findFrom_cons, Option.isSome_or]
    obtain ⟨b, hb, hp⟩ := h
    simp only [labels_cons, List.mem_cons, List.mem_append] at hb
    by_cases ha : p a
    · simp [ha]
    · rcases hb with rfl | hb | hb
      · exact absurd hp ha
      · simp [ha, ihc ⟨b, hb, hp⟩ 0]
      · simp [ihr ⟨b, hb, hp⟩ (i + 1)]

theorem nodeAt_ne_nil {t : Node α} (h : nodeAt path ts = some t) : path ≠ [] := by
  rintro rfl
  cases h

/-- Everything at or below a node stands in the forest. -/
theorem labels_nodeAt {t : Node α} (h : nodeAt path ts = some t) : t.labels ⊆ labels ts := by
  fun_induction nodeAt path ts with
  | case1 => cases h
  | case2 ts i =>
    intro a ha
    exact mem_labels.mpr ⟨t, List.mem_of_getElem? h, ha⟩
  | case3 i path ts hpath ih =>
    obtain ⟨u, hu, ht⟩ := Option.bind_eq_some_iff.mp h
    intro a ha
    exact mem_labels.mpr
      ⟨u, List.mem_of_getElem? hu, u.labels_eq ▸ List.mem_cons_of_mem _ (ih u ht ha)⟩

theorem nodeAt_concat {t : Node α} (h : nodeAt path ts = some t) (i : Nat) :
    nodeAt (path ++ [i]) ts = t.children[i]? := by
  fun_induction nodeAt path ts with
  | case1 => cases h
  | case2 ts k =>
    rw [List.singleton_append, nodeAt_cons, h, Option.bind_some]
    rfl
  | case3 k path ts hpath ih =>
    obtain ⟨u, hu, ht⟩ := Option.bind_eq_some_iff.mp h
    have hbelow := ih u ht
    cases path with
    | nil => cases ht
    | cons j path =>
      rw [List.cons_append] at hbelow
      rw [List.cons_append, List.cons_append, nodeAt_cons, hu, Option.bind_some, hbelow]

/-- The length of a path is a level of the forest. -/
theorem length_add_height_le {t : Node α} (h : nodeAt path ts = some t) :
    path.length - 1 + t.height ≤ depth ts := by
  fun_induction nodeAt path ts with
  | case1 => cases h
  | case2 ts i =>
    have := height_le_depth (List.mem_of_getElem? h)
    simpa using this
  | case3 i path ts hpath ih =>
    obtain ⟨u, hu, ht⟩ := Option.bind_eq_some_iff.mp h
    have hbelow := ih u ht
    have hu := height_le_depth (List.mem_of_getElem? hu)
    have hne := List.length_pos_of_ne_nil (nodeAt_ne_nil ht)
    rw [Node.height_eq] at hu
    rw [List.length_cons]
    omega

theorem mem_modify {β : Type*} {f : β → β} {i : Nat} {xs : List β} {x : β}
    (h : x ∈ xs.modify i f) : x ∈ xs ∨ ∃ y, xs[i]? = some y ∧ x = f y := by
  obtain ⟨k, hk⟩ := List.mem_iff_getElem?.mp h
  rw [List.getElem?_modify] at hk
  obtain ⟨y, hy, rfl⟩ := Option.map_eq_some_iff.mp hk
  by_cases hik : i = k
  · subst hik
    rw [if_pos rfl]
    exact .inr ⟨y, hy, rfl⟩
  · rw [if_neg hik]
    exact .inl (List.mem_of_getElem? hy)

theorem map_modify_of_eq {β γ : Type*} {f : β → β} {π : β → γ} (h : ∀ x, π (f x) = π x) (i : Nat)
    (xs : List β) : (xs.modify i f).map π = xs.map π := by
  refine List.ext_getElem? fun k => ?_
  rw [List.getElem?_map, List.getElem?_map, List.getElem?_modify, Option.map_eq_map,
    Option.map_map]
  refine congrArg (Option.map · xs[k]?) (funext fun x => ?_)
  by_cases hik : i = k
  · rw [Function.comp_apply, if_pos hik, h]
  · rw [Function.comp_apply, if_neg hik]

/-- A change below the first level leaves the labels of the first level alone. -/
theorem roots_modifyAt (f : Node α → Node α) (i j : Nat) (path : List Nat) (ts : List (Node α)) :
    (modifyAt f (i :: j :: path) ts).map Node.label = ts.map Node.label := by
  rw [modifyAt_cons]
  exact map_modify_of_eq (π := Node.label)
    (f := fun t => { t with children := modifyAt f (j :: path) t.children }) (fun _ => rfl) i ts

theorem roots_modifyAt_of_label {f : Node α → Node α} (hf : ∀ t, (f t).label = t.label)
    (path : List Nat) (ts : List (Node α)) :
    (modifyAt f path ts).map Node.label = ts.map Node.label := by
  match path with
  | [] => rfl
  | [i] => exact map_modify_of_eq hf i ts
  | i :: j :: rest => exact roots_modifyAt f i j rest ts

/-- The labels behind a change are labels from before it or labels of the changed node. -/
theorem labels_modifyAt {f : Node α → Node α} {a : α} (h : a ∈ labels (modifyAt f path ts)) :
    a ∈ labels ts ∨ ∃ t, nodeAt path ts = some t ∧ a ∈ (f t).labels := by
  fun_induction modifyAt f path ts with
  | case1 ts => exact .inl h
  | case2 ts i =>
    obtain ⟨u, hu, ha⟩ := mem_labels.mp h
    obtain hmem | ⟨t, ht, rfl⟩ := mem_modify hu
    · exact .inl (mem_labels.mpr ⟨u, hmem, ha⟩)
    · exact .inr ⟨t, ht, ha⟩
  | case3 i path ts hpath ih =>
    obtain ⟨u, hu, ha⟩ := mem_labels.mp h
    obtain hmem | ⟨t, ht, rfl⟩ := mem_modify hu
    · exact .inl (mem_labels.mpr ⟨u, hmem, ha⟩)
    · rw [Node.labels_eq, List.mem_cons] at ha
      have hin : a ∈ t.labels ∨ ∃ u, nodeAt path t.children = some u ∧ a ∈ (f u).labels := by
        rw [Node.labels_eq, List.mem_cons]
        rcases ha with ha | ha
        · exact .inl (.inl ha)
        · exact (ih t ha).imp .inr id
      refine hin.imp (fun ha => mem_labels.mpr ⟨t, List.mem_of_getElem? ht, ha⟩) ?_
      rintro ⟨u, hu, ha⟩
      refine ⟨u, ?_, ha⟩
      cases path with
      | nil => cases hu
      | cons j path => rw [nodeAt_cons, ht, Option.bind_some, hu]

/-- A change at a path adds no level but those of the changed node. -/
theorem depth_modifyAt {f : Node α → Node α} {n : Nat} (hts : depth ts ≤ n)
    (h : ∀ t, nodeAt path ts = some t → path.length - 1 + (f t).height ≤ n) :
    depth (modifyAt f path ts) ≤ n := by
  fun_induction modifyAt f path ts generalizing n with
  | case1 ts => exact hts
  | case2 ts i =>
    refine depth_le.mpr fun u hu => ?_
    obtain hmem | ⟨t, ht, rfl⟩ := mem_modify hu
    · exact depth_le.mp hts u hmem
    · simpa using h t ht
  | case3 i path ts hpath ih =>
    refine depth_le.mpr fun u hu => ?_
    obtain hmem | ⟨t, ht, rfl⟩ := mem_modify hu
    · exact depth_le.mp hts u hmem
    · have htop := depth_le.mp hts t (List.mem_of_getElem? ht)
      rw [Node.height_eq] at htop ⊢
      have hbelow := ih t (n := n - 1) (by omega) fun v hv => by
        have hne := List.length_pos_of_ne_nil (nodeAt_ne_nil hv)
        cases path with
        | nil => cases hv
        | cons j path =>
          have := h v (by rw [nodeAt_cons, ht, Option.bind_some, hv])
          simp only [List.length_cons] at this hne ⊢
          omega
      change depth (modifyAt f path t.children) + 1 ≤ n
      omega

/-! ### The label at a path -/

/-- The label of the node at a path. -/
def labelAt (path : List Nat) (ts : List (Node α)) : Option α := (nodeAt path ts).map Node.label

/-- The label at a path below a node, or its own. -/
def Node.labelAt : List Nat → Node α → Option α
  | [], t => some t.label
  | i :: path, t => Forest.labelAt (i :: path) t.children

theorem labelAt_cons (i : Nat) (path : List Nat) (ts : List (Node α)) :
    labelAt (i :: path) ts = ts[i]?.bind (Node.labelAt path) := by
  cases path with
  | nil =>
    rw [labelAt, nodeAt]
    cases ts[i]? <;> rfl
  | cons j path =>
    rw [labelAt, nodeAt_cons]
    cases ts[i]? <;> rfl

theorem labelAt_empty (path : List Nat) : labelAt path ([] : List (Node α)) = none := by
  cases path with
  | nil => rfl
  | cons i path => exact labelAt_cons i path []

theorem labelAt_behind (i : Nat) (path : List Nat) (t : Node α) (rest : List (Node α)) :
    labelAt ((i + 1) :: path) (t :: rest) = labelAt (i :: path) rest := by
  rw [labelAt_cons, labelAt_cons, List.getElem?_cons_succ]

theorem exists_labelAt {a : α} (h : a ∈ labels ts) : ∃ path, labelAt path ts = some a := by
  induction ts using induction with
  | nil => cases h
  | cons b children rest ihc ihr =>
    rw [labels_cons, List.mem_cons, List.mem_append] at h
    rcases h with rfl | h | h
    · exact ⟨[0], rfl⟩
    · obtain ⟨_ | ⟨j, path⟩, hpath⟩ := ihc h
      · cases hpath
      · exact ⟨0 :: j :: path, hpath⟩
    · obtain ⟨_ | ⟨i, path⟩, hpath⟩ := ihr h
      · cases hpath
      · exact ⟨(i + 1) :: path, (labelAt_behind i path _ rest).trans hpath⟩

theorem mem_labels_of_labelAt {a : α} (h : labelAt path ts = some a) : a ∈ labels ts := by
  obtain ⟨t, ht, rfl⟩ := Option.map_eq_some_iff.mp h
  exact labels_nodeAt ht (t.labels_eq ▸ List.mem_cons_self)

/-- A change of a node that shows at one path shows at one path of the forest. -/
theorem labelAt_modifyAt {f : Node α → Node α} {path below : List Nat} {ts : List (Node α)}
    {t : Node α} {b : α} (h : nodeAt path ts = some t)
    (hf : ∀ q, (f t).labelAt q = if q = below then some b else t.labelAt q) (q : List Nat) :
    labelAt q (modifyAt f path ts) = if q = path ++ below then some b else labelAt q ts := by
  fun_induction modifyAt f path ts generalizing q with
  | case1 => cases h
  | case2 i ts =>
    cases q with
    | nil => rfl
    | cons k q =>
      rw [labelAt_cons, labelAt_cons, List.getElem?_modify]
      by_cases hik : i = k
      · subst hik
        rw [show ts[i]? = some t from h]
        simp [hf]
      · have hne : k :: q ≠ [i] ++ below := fun heq => hik (List.cons.inj heq).1.symm
        rw [if_neg hne]
        simp [hik]
  | case3 i path ts hpath ih =>
    obtain ⟨u, hu, ht⟩ : ∃ u, ts[i]? = some u ∧ nodeAt path u.children = some t := by
      cases path with
      | nil => exact absurd rfl hpath
      | cons j path => exact Option.bind_eq_some_iff.mp h
    cases q with
    | nil => rfl
    | cons k q =>
      rw [labelAt_cons, labelAt_cons, List.getElem?_modify, List.cons_append]
      by_cases hik : i = k
      · subst hik
        simp only [hu, if_pos, Option.map_eq_map, Option.map_some, Option.bind_some,
          List.cons.injEq, true_and]
        cases q with
        | nil =>
          have hne : [] ≠ path ++ below := fun heq =>
            nodeAt_ne_nil ht (List.append_eq_nil_iff.mp heq.symm).1
          rw [if_neg hne]
          rfl
        | cons j q => exact ih u ht (j :: q)
      · have hne : k :: q ≠ i :: (path ++ below) := fun heq => hik (List.cons.inj heq).1.symm
        simp [hik, hne]

theorem labelAt_concat {child : Node α} (hleaf : child.children = []) (ts : List (Node α))
    (q : List Nat) :
    labelAt q (ts ++ [child]) = if q = [ts.length] then some child.label else labelAt q ts := by
  cases q with
  | nil => rfl
  | cons k q =>
    rw [labelAt_cons, labelAt_cons, List.getElem?_append]
    by_cases hk : k < ts.length
    · have hne : k :: q ≠ [ts.length] := fun heq => absurd (List.cons.inj heq).1 (by omega)
      rw [if_pos hk, if_neg hne]
    · rw [if_neg hk, List.getElem?_eq_none (Nat.le_of_not_lt hk)]
      by_cases hend : k = ts.length
      · subst hend
        cases q with
        | nil => simp [Node.labelAt]
        | cons j q => simp [Node.labelAt, hleaf, labelAt_empty]
      · have hnone : ([child] : List (Node α))[k - ts.length]? = none :=
          List.getElem?_eq_none (by simp; omega)
        simp [hnone, hend]

end Paths

end KimixNative.Forest
