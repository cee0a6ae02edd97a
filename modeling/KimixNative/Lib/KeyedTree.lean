import KimixNative.Lib.Merge

/-!
# Trees with keyed members

A tree is a leaf, a list of trees, or a list of members, each under its key. Two trees are the
same up to the order of members when they have the same keys everywhere and the same trees under
them. Sorting the members of every node by their keys gives one tree for all that are the same.
-/

namespace KimixNative

inductive KeyedTree (κ α : Type) where
  | leaf (a : α)
  | items (ts : List (KeyedTree κ α))
  | members (ms : List (κ × KeyedTree κ α))

namespace KeyedTree

variable {κ α β : Type}

/-- Induction on a tree: over its items, over its members. -/
theorem induct {P : KeyedTree κ α → Prop} (leaf : ∀ a, P (.leaf a))
    (items : ∀ ts, (∀ t ∈ ts, P t) → P (.items ts))
    (members : ∀ ms, (∀ m ∈ ms, P m.2) → P (.members ms)) : ∀ t, P t
  | .leaf a => leaf a
  | .items ts => items ts fun t _ => induct leaf items members t
  | .members ms => members ms fun m _ => induct leaf items members m.2
termination_by t => sizeOf t
decreasing_by
  · rename_i ht
    have := List.sizeOf_lt_of_mem ht
    simp only [KeyedTree.items.sizeOf_spec]
    omega
  · rename_i hm
    have := List.sizeOf_lt_of_mem hm
    obtain ⟨k, t⟩ := m
    simp only [KeyedTree.members.sizeOf_spec, Prod.mk.sizeOf_spec] at this ⊢
    omega

/-- No node has a key twice. -/
inductive Distinct : KeyedTree κ α → Prop
  | leaf (a : α) : Distinct (.leaf a)
  | items {ts : List (KeyedTree κ α)} (h : ∀ t ∈ ts, Distinct t) : Distinct (.items ts)
  | members {ms : List (κ × KeyedTree κ α)} (keys : (ms.map Prod.fst).Nodup)
      (h : ∀ m ∈ ms, Distinct m.2) : Distinct (.members ms)

/-- Every key satisfies `P` and every leaf `Q`. -/
inductive Each (P : κ → Prop) (Q : α → Prop) : KeyedTree κ α → Prop
  | leaf {a : α} (h : Q a) : Each P Q (.leaf a)
  | items {ts : List (KeyedTree κ α)} (h : ∀ t ∈ ts, Each P Q t) : Each P Q (.items ts)
  | members {ms : List (κ × KeyedTree κ α)} (keys : ∀ m ∈ ms, P m.1)
      (h : ∀ m ∈ ms, Each P Q m.2) : Each P Q (.members ms)

/-- Equal up to the order of the members. -/
inductive Same : KeyedTree κ α → KeyedTree κ α → Prop
  | leaf (a : α) : Same (.leaf a) (.leaf a)
  | items {ts us : List (KeyedTree κ α)} (length : ts.length = us.length)
      (h : ∀ (i : Nat) t u, ts[i]? = some t → us[i]? = some u → Same t u) :
      Same (.items ts) (.items us)
  | members {ms ns : List (κ × KeyedTree κ α)} (keys : (ms.map Prod.fst).Perm (ns.map Prod.fst))
      (h : ∀ k t u, (k, t) ∈ ms → (k, u) ∈ ns → Same t u) : Same (.members ms) (.members ns)

variable {P : κ → Prop} {ms : List (κ × KeyedTree κ α)} {t : KeyedTree κ α}

variable {Q : α → Prop} {u : KeyedTree κ α}

@[simp] theorem each_leaf {a : α} : (leaf a : KeyedTree κ α).Each P Q ↔ Q a :=
  ⟨fun h => by cases h with | leaf h => exact h, .leaf⟩

variable {ts : List (KeyedTree κ α)}

@[simp] theorem each_items : (items ts).Each P Q ↔ ∀ t ∈ ts, t.Each P Q :=
  ⟨fun h => by cases h with | items h => exact h, .items⟩

@[simp] theorem each_members : (members ms).Each P Q ↔ (∀ m ∈ ms, P m.1) ∧ ∀ m ∈ ms, m.2.Each P Q :=
  ⟨fun h => by cases h with | members keys h => exact ⟨keys, h⟩, fun h => .members h.1 h.2⟩

@[simp] theorem distinct_items : (items ts).Distinct ↔ ∀ t ∈ ts, t.Distinct :=
  ⟨fun h => by cases h with | items h => exact h, .items⟩

@[simp] theorem distinct_members :
    (members ms).Distinct ↔ (ms.map Prod.fst).Nodup ∧ ∀ m ∈ ms, m.2.Distinct :=
  ⟨fun h => by cases h with | members keys h => exact ⟨keys, h⟩, fun h => .members h.1 h.2⟩

theorem exists_of_key {k : κ} (h : k ∈ ms.map Prod.fst) : ∃ t, (k, t) ∈ ms := by
  obtain ⟨⟨_, t⟩, hm, rfl⟩ := List.mem_map.mp h
  exact ⟨t, hm⟩

theorem key_of_mem {k : κ} (h : (k, t) ∈ ms) : k ∈ ms.map Prod.fst :=
  List.mem_map.mpr ⟨(k, t), h, rfl⟩

theorem eq_of_key (keys : (ms.map Prod.fst).Nodup) {a b : κ × KeyedTree κ α} (ha : a ∈ ms)
    (hb : b ∈ ms) (h : a.1 = b.1) : a = b :=
  List.inj_on_of_nodup_map keys ha hb h

/-- Members with the same distinct keys and the same values under them are one up to order. -/
theorem perm_of_keys {l l' : List (κ × β)} (keys : (l.map Prod.fst).Perm (l'.map Prod.fst))
    (hnodup : (l.map Prod.fst).Nodup) (h : ∀ k b c, (k, b) ∈ l → (k, c) ∈ l' → b = c) :
    l.Perm l' := by
  have hnodup' : (l'.map Prod.fst).Nodup := keys.nodup_iff.mp hnodup
  refine (List.perm_ext_iff_of_nodup hnodup.of_map hnodup'.of_map).mpr ?_
  rintro ⟨k, b⟩
  constructor
  · intro hb
    obtain ⟨⟨_, c⟩, hc, rfl⟩ := List.mem_map.mp (keys.mem_iff.mp (List.mem_map_of_mem hb))
    rw [h _ b c hb hc]
    exact hc
  · intro hb
    obtain ⟨⟨_, c⟩, hc, rfl⟩ := List.mem_map.mp (keys.mem_iff.mpr (List.mem_map_of_mem hb))
    rw [← h _ c b hc hb]
    exact hc

theorem Same.symm (h : Same t u) : Same u t := by
  induction h with
  | leaf a => exact .leaf a
  | items hlength h ih => exact .items hlength.symm fun i t u ht hu => ih i u t hu ht
  | members keys h ih => exact .members keys.symm fun k t u ht hu => ih k u t hu ht

theorem Same.trans {v : KeyedTree κ α} (htu : Same t u) (huv : Same u v) : Same t v := by
  induction htu generalizing v with
  | leaf a => exact huv
  | @items ts us hlength h ih =>
    cases huv with
    | @items _ vs hlength' h' =>
      refine .items (hlength.trans hlength') ?_
      intro i t v ht hv
      have hi : i < us.length := hlength ▸ (List.getElem?_eq_some_iff.mp ht).1
      exact ih i t us[i] ht (List.getElem?_eq_getElem hi)
        (h' i us[i] v (List.getElem?_eq_getElem hi) hv)
  | @members ms ns keys h ih =>
    cases huv with
    | @members _ ps keys' h' =>
      refine .members (keys.trans keys') ?_
      intro k t v ht hv
      obtain ⟨u, hu⟩ := exists_of_key (keys.mem_iff.mp (key_of_mem ht))
      exact ih k t u ht hu (h' k u v hu hv)

/-- Lists of one length stand beside each other. -/
theorem exists_beside {ts us : List β} (hlength : ts.length = us.length) {u : β} (hu : u ∈ us) :
    ∃ (i : Nat) (t : β), t ∈ ts ∧ ts[i]? = some t ∧ us[i]? = some u := by
  obtain ⟨i, hi⟩ := List.getElem?_of_mem hu
  have hts : i < ts.length := hlength ▸ (List.getElem?_eq_some_iff.mp hi).1
  exact ⟨i, ts[i], List.getElem_mem hts, List.getElem?_eq_getElem hts, hi⟩

theorem Same.distinct (h : Same t u) (ht : t.Distinct) : u.Distinct := by
  induction h with
  | leaf a => exact .leaf a
  | items hlength h ih =>
    rw [distinct_items] at ht ⊢
    intro u hu
    obtain ⟨i, t, hmem, hti, hui⟩ := exists_beside hlength hu
    exact ih i t u hti hui (ht t hmem)
  | members keys h ih =>
    rw [distinct_members] at ht ⊢
    refine ⟨keys.nodup_iff.mp ht.1, ?_⟩
    rintro ⟨k, u⟩ hu
    obtain ⟨t, hmem⟩ := exists_of_key (keys.mem_iff.mpr (key_of_mem hu))
    exact ih k t u hmem hu (ht.2 (k, t) hmem)

theorem Same.each (h : Same t u) (ht : t.Each P Q) : u.Each P Q := by
  induction h with
  | leaf a => exact ht
  | items hlength h ih =>
    rw [each_items] at ht ⊢
    intro u hu
    obtain ⟨i, t, hmem, hti, hui⟩ := exists_beside hlength hu
    exact ih i t u hti hui (ht t hmem)
  | members keys h ih =>
    rw [each_members] at ht ⊢
    constructor
    · rintro ⟨k, u⟩ hu
      obtain ⟨t, hmem⟩ := exists_of_key (keys.mem_iff.mpr (key_of_mem hu))
      exact ht.1 (k, t) hmem
    · rintro ⟨k, u⟩ hu
      obtain ⟨t, hmem⟩ := exists_of_key (keys.mem_iff.mpr (key_of_mem hu))
      exact ih k t u hmem hu (ht.2 (k, t) hmem)

/-! ### Keys and leaves replaced -/

mutual

/-- The keys go through `f` and the leaves through `g`. -/
def bimap (f : κ → κ) (g : α → β) : KeyedTree κ α → KeyedTree κ β
  | .leaf a => .leaf (g a)
  | .items ts => .items (bimapItems f g ts)
  | .members ms => .members (bimapMembers f g ms)

def bimapItems (f : κ → κ) (g : α → β) : List (KeyedTree κ α) → List (KeyedTree κ β)
  | [] => []
  | t :: ts => t.bimap f g :: bimapItems f g ts

def bimapMembers (f : κ → κ) (g : α → β) :
    List (κ × KeyedTree κ α) → List (κ × KeyedTree κ β)
  | [] => []
  | (k, t) :: ms => (f k, t.bimap f g) :: bimapMembers f g ms

end

variable (f : κ → κ) (g : α → β)

@[simp] theorem bimap_leaf (a : α) : (leaf a : KeyedTree κ α).bimap f g = .leaf (g a) := by
  rw [bimap]

@[simp] theorem bimap_items (ts : List (KeyedTree κ α)) :
    (items ts).bimap f g = .items (ts.map fun t => t.bimap f g) := by
  rw [bimap]
  congr 1
  induction ts with
  | nil => rfl
  | cons t ts ih => rw [bimapItems, List.map_cons, ih]

@[simp] theorem bimap_members (ms : List (κ × KeyedTree κ α)) :
    (members ms).bimap f g = .members (ms.map fun m => (f m.1, m.2.bimap f g)) := by
  rw [bimap]
  congr 1
  induction ms with
  | nil => rfl
  | cons m ms ih => rw [bimapMembers, List.map_cons, ih]

theorem bimap_bimap {γ : Type} (f' : κ → κ) (g' : β → γ) (t : KeyedTree κ α) :
    (t.bimap f g).bimap f' g' = t.bimap (f' ∘ f) (g' ∘ g) := by
  induction t using induct with
  | leaf a => simp
  | items ts ih =>
    simp only [bimap_items, List.map_map, items.injEq]
    exact List.map_congr_left ih
  | members ms ih =>
    simp only [bimap_members, List.map_map, members.injEq]
    refine List.map_congr_left ?_
    intro m hm
    simp only [Function.comp_apply, ih m hm]

/-- Two replacements agree where they agree at every key and every leaf. -/
theorem bimap_eq_iff {f f' : κ → κ} {g g' : α → β} :
    t.bimap f g = t.bimap f' g' ↔ t.Each (fun k => f k = f' k) fun a => g a = g' a := by
  induction t using induct with
  | leaf a => rw [bimap_leaf, bimap_leaf, leaf.injEq, each_leaf]
  | items ts ih =>
    rw [bimap_items, bimap_items, items.injEq, List.map_inj_left, each_items]
    exact forall₂_congr ih
  | members ms ih =>
    simp only [bimap_members, members.injEq, List.map_inj_left, Prod.mk.injEq, each_members]
    rw [← forall₂_and]
    exact forall₂_congr fun m hm => and_congr_right' (ih m hm)

theorem Each.imp {P' : κ → Prop} {Q' : α → Prop} (hP : ∀ k, P k → P' k) (hQ : ∀ a, Q a → Q' a)
    (h : t.Each P Q) : t.Each P' Q' := by
  induction h with
  | leaf h => exact .leaf (hQ _ h)
  | items h ih => exact .items ih
  | members keys h ih => exact .members (fun m hm => hP _ (keys m hm)) ih

theorem each_bimap {Q : β → Prop} : (t.bimap f g).Each P Q ↔ t.Each (P ∘ f) (Q ∘ g) := by
  induction t using induct with
  | leaf a => rw [bimap_leaf, each_leaf, each_leaf, Function.comp_apply]
  | items ts ih =>
    rw [bimap_items, each_items, each_items, List.forall_mem_map]
    exact forall₂_congr ih
  | members ms ih =>
    rw [bimap_members, each_members, each_members, List.forall_mem_map, List.forall_mem_map]
    exact and_congr Iff.rfl (forall₂_congr ih)

theorem distinct_bimap : (t.bimap id g).Distinct ↔ t.Distinct := by
  induction t using induct with
  | leaf a => exact ⟨fun _ => .leaf a, fun _ => by rw [bimap_leaf]; exact .leaf _⟩
  | items ts ih =>
    rw [bimap_items, distinct_items, distinct_items, List.forall_mem_map]
    exact forall₂_congr ih
  | members ms ih =>
    have hkeys : (ms.map fun m => (id m.1, m.2.bimap id g)).map Prod.fst = ms.map Prod.fst := by
      rw [List.map_map]
      rfl
    rw [bimap_members, distinct_members, distinct_members, hkeys, List.forall_mem_map]
    exact and_congr_right' (forall₂_congr ih)

/-! ### Members sorted -/

section Sorting

variable (S : Sorter) (lt : κ → κ → Bool)

mutual

/-- A copy with the members of every node sorted by key, the keys going through `f` behind the
sorting and the leaves through `g`. The order depends on keys only, so that it does not matter
whether the members are copied before they are sorted. -/
def sortedWith (f : κ → κ) (g : α → β) : KeyedTree κ α → KeyedTree κ β
  | .leaf a => .leaf (g a)
  | .items ts => .items (sortedItems f g ts)
  | .members ms =>
    .members ((S.sort (fun a b => lt a.1 b.1) (sortedMembers f g ms)).map fun m => (f m.1, m.2))

def sortedItems (f : κ → κ) (g : α → β) : List (KeyedTree κ α) → List (KeyedTree κ β)
  | [] => []
  | t :: ts => sortedWith f g t :: sortedItems f g ts

def sortedMembers (f : κ → κ) (g : α → β) :
    List (κ × KeyedTree κ α) → List (κ × KeyedTree κ β)
  | [] => []
  | (k, t) :: ms => (k, sortedWith f g t) :: sortedMembers f g ms

end

/-- The members of every node sorted by key. -/
def arrange (t : KeyedTree κ α) : KeyedTree κ α := t.sortedWith S lt id id

theorem sortedWith_leaf (a : α) : (leaf a : KeyedTree κ α).sortedWith S lt f g = .leaf (g a) := by
  rw [sortedWith]

theorem sortedWith_items (ts : List (KeyedTree κ α)) :
    (items ts).sortedWith S lt f g = .items (ts.map fun t => t.sortedWith S lt f g) := by
  rw [sortedWith]
  congr 1
  induction ts with
  | nil => rfl
  | cons t ts ih => rw [sortedItems, List.map_cons, ih]

theorem sortedWith_members (ms : List (κ × KeyedTree κ α)) :
    (members ms).sortedWith S lt f g =
      .members ((S.sort (fun a b => lt a.1 b.1)
        (ms.map fun m => (m.1, m.2.sortedWith S lt f g))).map fun m => (f m.1, m.2)) := by
  have hmembers : sortedMembers S lt f g ms = ms.map fun m => (m.1, m.2.sortedWith S lt f g) := by
    induction ms with
    | nil => rfl
    | cons m ms ih => rw [sortedMembers, List.map_cons, ih]
  rw [sortedWith, hmembers]

theorem arrange_members (ms : List (κ × KeyedTree κ α)) :
    (members ms).arrange S lt =
      .members (S.sort (fun a b => lt a.1 b.1) (ms.map fun m => (m.1, m.2.arrange S lt))) := by
  rw [arrange, sortedWith_members]
  simp only [id_eq, Prod.mk.eta, List.map_id_fun', arrange]

theorem sortedWith_bimap {γ : Type} (g' : β → γ) (t : KeyedTree κ α) :
    (t.bimap id g).sortedWith S lt f g' = t.sortedWith S lt f (g' ∘ g) := by
  induction t using induct with
  | leaf a => rw [bimap_leaf, sortedWith_leaf, sortedWith_leaf, Function.comp_apply]
  | items ts ih =>
    rw [bimap_items, sortedWith_items, sortedWith_items, List.map_map]
    exact congrArg items (List.map_congr_left ih)
  | members ms ih =>
    have hcopies : ((ms.map fun m => (id m.1, m.2.bimap id g)).map fun m =>
          (m.1, m.2.sortedWith S lt f g')) =
        ms.map fun m => (m.1, m.2.sortedWith S lt f (g' ∘ g)) := by
      rw [List.map_map]
      refine List.map_congr_left ?_
      intro m hm
      rw [Function.comp_apply, ih m hm, id]
    rw [bimap_members, sortedWith_members, sortedWith_members, hcopies]

/-- A sorted tree is the same up to order. -/
theorem same_arrange (ht : t.Distinct) : Same t (t.arrange S lt) := by
  induction ht with
  | leaf a =>
    rw [arrange, sortedWith_leaf]
    exact .leaf a
  | @items ts h ih =>
    rw [arrange, sortedWith_items]
    refine .items (List.length_map _).symm ?_
    intro i t u ht hu
    rw [List.getElem?_map, ht, Option.map_some, Option.some.injEq] at hu
    rw [← hu]
    exact ih t (List.mem_of_getElem? ht)
  | @members ms keys h ih =>
    have hperm := S.perm (fun a b => lt a.1 b.1) (ms.map fun m => (m.1, m.2.arrange S lt))
    rw [arrange_members]
    refine .members ?_ ?_
    · have hkeys := hperm.map Prod.fst
      rw [List.map_map] at hkeys
      exact hkeys.symm
    · intro k t u ht hu
      obtain ⟨m, hm, hmu⟩ := List.mem_map.mp (hperm.mem_iff.mp hu)
      obtain ⟨hk, rfl⟩ := Prod.mk.inj hmu
      obtain rfl : m = (k, t) := eq_of_key keys hm ht hk
      exact ih (k, t) hm

variable {S lt} {ω : Type} [LinearOrder ω] {ord : κ → ω} (hord : Function.Injective ord)
  (hlt : ∀ a b, lt a b = true ↔ ord a < ord b)

include hord hlt

/-- Members with distinct keys have one sorted order. -/
theorem sort_eq_of_perm {ms ns : List (κ × β)} (hperm : ns.Perm ms) (keys : (ms.map Prod.fst).Nodup)
    (hsorted : ns.Pairwise fun a b => ord a.1 ≤ ord b.1) :
    S.sort (fun a b => lt a.1 b.1) ms = ns := by
  have hsort := S.perm (fun a b : κ × β => lt a.1 b.1) ms
  have heq : ∀ a b, a ∈ S.sort (fun a b => lt a.1 b.1) ms → b ∈ ns → ord a.1 ≤ ord b.1 →
      ord b.1 ≤ ord a.1 → a = b := by
    intro a b ha hb hab hba
    exact List.inj_on_of_nodup_map keys (hsort.mem_iff.mp ha) (hperm.mem_iff.mp hb)
      (hord (le_antisymm hab hba))
  exact List.Perm.eq_of_pairwise heq
    (S.sorted (fun m : κ × β => ord m.1) (fun a b => hlt a.1 b.1) ms) hsorted
    (hsort.trans hperm.symm)

theorem sort_map {ms : List (κ × α)} (keys : (ms.map Prod.fst).Nodup) (h : α → β) :
    S.sort (fun a b => lt a.1 b.1) (ms.map fun m => (m.1, h m.2)) =
      (S.sort (fun a b => lt a.1 b.1) ms).map fun m => (m.1, h m.2) := by
  refine sort_eq_of_perm hord hlt ((S.perm _ ms).map _) ?_ ?_
  · rw [List.map_map]
    exact keys
  · exact List.pairwise_map.mpr (S.sorted (fun m : κ × α => ord m.1) (fun a b => hlt a.1 b.1) ms)

/-- With distinct keys a sorted copy is the sorted tree with its keys and leaves replaced. -/
theorem sortedWith_eq (ht : t.Distinct) : t.sortedWith S lt f g = (t.arrange S lt).bimap f g := by
  induction ht with
  | leaf a => rw [arrange, sortedWith_leaf, sortedWith_leaf, bimap_leaf, id]
  | @items ts h ih =>
    rw [arrange, sortedWith_items, sortedWith_items, bimap_items, List.map_map]
    exact congrArg items (List.map_congr_left ih)
  | @members ms keys h ih =>
    have hcopies : (ms.map fun m => (m.1, m.2.sortedWith S lt f g)) =
        (ms.map fun m => (m.1, m.2.arrange S lt)).map fun m => (m.1, m.2.bimap f g) := by
      rw [List.map_map]
      refine List.map_congr_left ?_
      intro m hm
      rw [Function.comp_apply, ih m hm]
    rw [sortedWith_members, arrange_members, bimap_members, hcopies,
      sort_map hord hlt (by rw [List.map_map]; exact keys), List.map_map]
    rfl

/-- Trees that are the same sort to one tree. -/
theorem Same.arrange_eq (h : Same t u) (ht : t.Distinct) : t.arrange S lt = u.arrange S lt := by
  induction h with
  | leaf a => rfl
  | @items ts us hlength h ih =>
    cases ht with
    | items ht =>
      rw [arrange, arrange, sortedWith_items, sortedWith_items]
      congr 1
      refine List.ext_getElem (by rw [List.length_map, List.length_map, hlength]) ?_
      intro i hi hi'
      rw [List.length_map] at hi hi'
      rw [List.getElem_map, List.getElem_map]
      exact ih i ts[i] us[i] (List.getElem?_eq_getElem hi) (List.getElem?_eq_getElem hi')
        (ht _ (List.getElem_mem hi))
  | @members ms ns keys h ih =>
    cases ht with
    | members hnodup ht =>
      have hfst : ∀ l : List (κ × KeyedTree κ α),
          (l.map fun m => (m.1, m.2.arrange S lt)).map Prod.fst = l.map Prod.fst := by
        intro l
        rw [List.map_map]
        rfl
      have hperm : (ms.map fun m => (m.1, m.2.arrange S lt)).Perm
          (ns.map fun m => (m.1, m.2.arrange S lt)) := by
        refine perm_of_keys (by rw [hfst, hfst]; exact keys) (by rw [hfst]; exact hnodup) ?_
        intro k b c hb hc
        obtain ⟨⟨_, t⟩, hmem, hbt⟩ := List.mem_map.mp hb
        obtain ⟨⟨_, u⟩, hmem', hcu⟩ := List.mem_map.mp hc
        obtain ⟨rfl, rfl⟩ := Prod.mk.inj hbt
        obtain ⟨rfl, rfl⟩ := Prod.mk.inj hcu
        exact ih _ t u hmem hmem' (ht _ hmem)
      rw [arrange_members, arrange_members]
      congr 1
      refine sort_eq_of_perm hord hlt
        ((S.perm _ _).trans hperm.symm) (by rw [hfst]; exact hnodup) ?_
      exact S.sorted (fun m : κ × KeyedTree κ α => ord m.1) (fun a b => hlt a.1 b.1) _

/-- The sorted trees are one exactly when the trees are the same. -/
theorem arrange_eq_iff (ht : t.Distinct) (hu : u.Distinct) :
    t.arrange S lt = u.arrange S lt ↔ Same t u := by
  constructor
  · intro h
    exact (same_arrange S lt ht).trans (h ▸ (same_arrange S lt hu).symm)
  · exact fun h => h.arrange_eq hord hlt ht

theorem arrange_arrange (ht : t.Distinct) : (t.arrange S lt).arrange S lt = t.arrange S lt :=
  ((same_arrange S lt ht).arrange_eq hord hlt ht).symm

/-- Replacing leaves and sorting do not see each other. -/
theorem arrange_bimap (ht : t.Distinct) :
    (t.bimap id g).arrange S lt = (t.arrange S lt).bimap id g := by
  rw [arrange, sortedWith_bimap, ← sortedWith_eq id g hord hlt ht]
  rfl

end Sorting

end KeyedTree

end KimixNative
