import Mathlib.Data.List.Nodup

/-!
# Incidence lists of a directed multigraph

A multigraph is given twice: once by the endpoints of each edge, once by an out list
and an in list on every vertex, with one link per incident edge. `Incidence` holds
both descriptions as partial functions, and `Coherent` says that they describe the
same multigraph. Parallel edges and self loops are ordinary cases.

The four operations are the ones a container performs: insert an isolated vertex,
attach an edge, detach an edge, and drop a vertex with everything incident to it.
Each keeps coherence. Removal is written with `filter`; `eraseP_eq_filter` is the
bridge for containers that stop at the first match.
-/

namespace KimixNative

/-- One entry of an incidence list: an edge and the vertex at its other end. -/
structure Link (ε ν : Type*) where
  edge : ε
  neighbour : ν
  deriving DecidableEq, Repr

/-- The two incidence lists of one vertex. -/
@[ext] structure Adjacency (ε ν : Type*) where
  out : List (Link ε ν)
  inn : List (Link ε ν)

/-- Live vertices with their incidence lists, and live edges with their endpoints. -/
@[ext] structure Incidence (ε ν : Type*) where
  adj : ν → Option (Adjacency ε ν)
  ends : ε → Option (ν × ν)

variable {ε ν : Type*} [DecidableEq ε] [DecidableEq ν]

omit [DecidableEq ν] in
/-- With one link per edge, dropping the first link of an edge drops all of them. -/
theorem eraseP_eq_filter {l : List (Link ε ν)} (nodup : (l.map Link.edge).Nodup) (e : ε) :
    l.eraseP (·.edge == e) = l.filter (·.edge != e) := by
  induction l with
  | nil => rfl
  | cons x rest ih =>
    simp only [List.map_cons, List.nodup_cons] at nodup
    by_cases hx : x.edge = e
    · have keep : rest.filter (·.edge != e) = rest := by
        refine List.filter_eq_self.mpr ?_
        intro y hy
        have hne : y.edge ≠ x.edge := fun h => nodup.1 (h ▸ List.mem_map_of_mem hy)
        simpa [hx] using hne
      simp [hx, keep]
    · simp [hx, ih nodup.2]

namespace Incidence

/-- Every edge turned around: the two lists of each vertex change places. -/
def reverse (I : Incidence ε ν) : Incidence ε ν where
  adj w := (I.adj w).map fun a => ⟨a.inn, a.out⟩
  ends e := (I.ends e).map Prod.swap

/-- No vertices and no edges. -/
def empty : Incidence ε ν := ⟨fun _ => none, fun _ => none⟩

/-- A new vertex without links. -/
def insertVertex (I : Incidence ε ν) (u : ν) : Incidence ε ν :=
  { I with adj := Function.update I.adj u (some ⟨[], []⟩) }

/-- A new edge: one link at the end of the origin's out list and one at the end of the
target's in list. -/
def attach (I : Incidence ε ν) (e : ε) (o t : ν) : Incidence ε ν where
  adj w := (I.adj w).map fun a =>
    { out := if w = o then a.out ++ [⟨e, t⟩] else a.out
      inn := if w = t then a.inn ++ [⟨e, o⟩] else a.inn }
  ends := Function.update I.ends e (some (o, t))

/-- An edge and its links gone. -/
def detach (I : Incidence ε ν) (e : ε) : Incidence ε ν where
  adj w := (I.adj w).map fun a =>
    { out := a.out.filter (·.edge != e), inn := a.inn.filter (·.edge != e) }
  ends := Function.update I.ends e none

/-- A vertex gone, with every edge incident to it. -/
def dropVertex (I : Incidence ε ν) (u : ν) : Incidence ε ν where
  adj w := if w = u then none else (I.adj w).map fun a =>
    { out := a.out.filter (·.neighbour != u), inn := a.inn.filter (·.neighbour != u) }
  ends e := (I.ends e).filter fun p => p.1 != u && p.2 != u

/-! Turning every edge around commutes with the operations, so what holds of the out
lists carries over to the in lists. -/

omit [DecidableEq ε] in
theorem reverse_insertVertex (I : Incidence ε ν) (u : ν) :
    (I.insertVertex u).reverse = I.reverse.insertVertex u := by
  ext1
  · funext w
    by_cases h : w = u <;> simp [reverse, insertVertex, h]
  · rfl

theorem reverse_attach (I : Incidence ε ν) (e : ε) (o t : ν) :
    (I.attach e o t).reverse = I.reverse.attach e t o := by
  ext1
  · funext w
    simp [reverse, attach, Function.comp_def]
  · funext d
    by_cases h : d = e <;> simp [reverse, attach, h]

omit [DecidableEq ν] in
theorem reverse_detach (I : Incidence ε ν) (e : ε) :
    (I.detach e).reverse = I.reverse.detach e := by
  ext1
  · funext w
    simp [reverse, detach, Function.comp_def]
  · funext d
    by_cases h : d = e <;> simp [reverse, detach, h]

omit [DecidableEq ε] in
theorem reverse_dropVertex (I : Incidence ε ν) (u : ν) :
    (I.dropVertex u).reverse = I.reverse.dropVertex u := by
  ext1
  · funext w
    by_cases h : w = u <;> simp [reverse, dropVertex, h, Function.comp_def]
  · funext d
    cases h : I.ends d with
    | none => simp [reverse, dropVertex, h]
    | some p => by_cases ho : p.1 = u <;> by_cases ht : p.2 = u <;>
        simp [reverse, dropVertex, h, Option.filter, ho, ht]

/-- The out lists and the endpoint table agree: one link per edge, on its origin. -/
structure OutCoherent (I : Incidence ε ν) : Prop where
  nodup : ∀ {u a}, I.adj u = some a → (a.out.map Link.edge).Nodup
  mem : ∀ {u a}, I.adj u = some a → ∀ l : Link ε ν,
    l ∈ a.out ↔ I.ends l.edge = some (u, l.neighbour)
  live : ∀ {e o t}, I.ends e = some (o, t) → (I.adj o).isSome

/-- The incidence lists and the endpoint table describe the same multigraph. -/
structure Coherent (I : Incidence ε ν) : Prop where
  out : OutCoherent I
  inn : OutCoherent I.reverse

variable {e : ε}

namespace OutCoherent

variable {I : Incidence ε ν}

omit [DecidableEq ε] in
theorem insertVertex (h : OutCoherent I) {u : ν} (fresh : I.adj u = none) :
    OutCoherent (I.insertVertex u) where
  nodup {w a} ha := by
    by_cases hw : w = u
    · subst hw
      simp only [Incidence.insertVertex, Function.update_self, Option.some.injEq] at ha
      simp [← ha]
    · exact h.nodup (by simpa [Incidence.insertVertex, hw] using ha)
  mem {w a} ha l := by
    by_cases hw : w = u
    · subst hw
      simp only [Incidence.insertVertex, Function.update_self, Option.some.injEq] at ha
      subst ha
      simp only [List.not_mem_nil, false_iff]
      intro he
      simpa [fresh] using h.live he
    · exact h.mem (by simpa [Incidence.insertVertex, hw] using ha) l
  live {e o t} he := by
    have := h.live he
    by_cases ho : o = u <;> simp [Incidence.insertVertex, ho, this]

theorem attach (h : OutCoherent I) {o t : ν} (fresh : I.ends e = none) (ho : (I.adj o).isSome) :
    OutCoherent (I.attach e o t) where
  nodup {w a} ha := by
    obtain ⟨b, hb, rfl⟩ := Option.map_eq_some_iff.mp ha
    by_cases hw : w = o
    · simp only [hw, if_true, List.map_append, List.map_cons, List.map_nil]
      refine (h.nodup hb).append (List.nodup_singleton e) ?_
      intro d hd hde
      obtain ⟨l, hl, rfl⟩ := List.mem_map.mp hd
      rw [List.mem_singleton] at hde
      have := (h.mem hb l).mp hl
      rw [hde, fresh] at this
      cases this
    · simpa only [hw, if_false] using h.nodup hb
  mem {w a} ha l := by
    obtain ⟨b, hb, rfl⟩ := Option.map_eq_some_iff.mp ha
    have hmem := h.mem hb l
    by_cases hl : l.edge = e
    · -- The new edge has no link yet, so only the appended one can be meant.
      have absent : l ∉ b.out := by
        rw [hmem, hl, fresh]
        simp
      by_cases hw : w = o
      · obtain ⟨d, n⟩ := l
        obtain rfl : d = e := hl
        simp [Incidence.attach, hw, absent, eq_comm (a := n)]
      · simp [Incidence.attach, hl, hw, absent, Ne.symm hw]
    · by_cases hw : w = o
      · have : l ≠ ⟨e, t⟩ := fun heq => hl (by rw [heq])
        simp [Incidence.attach, hl, hw, this, hmem]
      · simp [Incidence.attach, hl, hw, hmem]
  live {d x y} hd := by
    by_cases hde : d = e
    · subst hde
      simp only [Incidence.attach, Function.update_self, Option.some.injEq, Prod.mk.injEq] at hd
      obtain ⟨rfl, -⟩ := hd
      simpa [Incidence.attach] using ho
    · have := h.live (by simpa [Incidence.attach, hde] using hd)
      simpa [Incidence.attach] using this

omit [DecidableEq ν] in
theorem detach (h : OutCoherent I) (e : ε) : OutCoherent (I.detach e) where
  nodup {w a} ha := by
    obtain ⟨b, hb, rfl⟩ := Option.map_eq_some_iff.mp ha
    exact (h.nodup hb).sublist (List.filter_sublist.map _)
  mem {w a} ha l := by
    obtain ⟨b, hb, rfl⟩ := Option.map_eq_some_iff.mp ha
    by_cases hl : l.edge = e <;> simp [Incidence.detach, hl, h.mem hb l]
  live {d x y} hd := by
    by_cases hde : d = e
    · simp [Incidence.detach, hde] at hd
    · have := h.live (by simpa [Incidence.detach, hde] using hd)
      simpa [Incidence.detach] using this

omit [DecidableEq ε] in
theorem dropVertex (h : OutCoherent I) (u : ν) : OutCoherent (I.dropVertex u) where
  nodup {w a} ha := by
    by_cases hw : w = u
    · simp [Incidence.dropVertex, hw] at ha
    · simp only [Incidence.dropVertex, hw, if_false] at ha
      obtain ⟨b, hb, rfl⟩ := Option.map_eq_some_iff.mp ha
      exact (h.nodup hb).sublist (List.filter_sublist.map _)
  mem {w a} ha l := by
    by_cases hw : w = u
    · simp [Incidence.dropVertex, hw] at ha
    · simp only [Incidence.dropVertex, hw, if_false] at ha
      obtain ⟨b, hb, rfl⟩ := Option.map_eq_some_iff.mp ha
      simp only [List.mem_filter, h.mem hb l, Incidence.dropVertex, Option.filter_eq_some_iff]
      refine and_congr_right fun _ => ?_
      simp [hw]
  live {d x y} hd := by
    simp only [Incidence.dropVertex, Option.filter_eq_some_iff, Bool.and_eq_true, bne_iff_ne] at hd
    have := h.live hd.1
    simpa [Incidence.dropVertex, hd.2.1] using this

variable {a : Adjacency ε ν}

omit [DecidableEq ν] in
/-- A live edge has exactly one out link, on its origin, naming its target. -/
theorem filter_eq (h : OutCoherent I) {o t : ν} (he : I.ends e = some (o, t))
    (ha : I.adj o = some a) : a.out.filter (·.edge == e) = [⟨e, t⟩] := by
  have mem : (⟨e, t⟩ : Link ε ν) ∈ a.out := (h.mem ha _).mpr he
  obtain ⟨before, after, hsplit⟩ := List.append_of_mem mem
  have nodup := h.nodup ha
  rw [hsplit, List.map_append, List.map_cons, List.nodup_middle, List.nodup_cons,
    ← List.map_append] at nodup
  have other : ∀ l ∈ before ++ after, ¬(l.edge == e) = true := by
    intro l hl heq
    exact nodup.1 (List.mem_map.mpr ⟨l, hl, beq_iff_eq.mp heq⟩)
  rw [hsplit, List.filter_append, List.filter_cons_of_pos (by simp),
    List.filter_eq_nil_iff.mpr fun l hl => other l (List.mem_append_left _ hl),
    List.filter_eq_nil_iff.mpr fun l hl => other l (List.mem_append_right _ hl)]
  rfl

omit [DecidableEq ν] in
/-- A vertex that is not the origin of an edge has no out link of it. -/
theorem filter_eq_self (h : OutCoherent I) {w : ν} (ha : I.adj w = some a)
    (hne : ∀ t, I.ends e ≠ some (w, t)) : a.out.filter (·.edge != e) = a.out := by
  refine List.filter_eq_self.mpr fun l hl => ?_
  rw [bne_iff_ne]
  rintro rfl
  exact hne _ ((h.mem ha l).mp hl)

end OutCoherent

namespace Coherent

variable {I : Incidence ε ν}

omit [DecidableEq ε] [DecidableEq ν] in
theorem empty : Coherent (Incidence.empty : Incidence ε ν) where
  out := ⟨nofun, nofun, nofun⟩
  inn := ⟨nofun, nofun, nofun⟩

omit [DecidableEq ε] in
theorem insertVertex (h : Coherent I) {u : ν} (fresh : I.adj u = none) :
    Coherent (I.insertVertex u) where
  out := h.out.insertVertex fresh
  inn := by
    rw [reverse_insertVertex]
    exact h.inn.insertVertex (by simp [reverse, fresh])

theorem attach (h : Coherent I) {o t : ν} (fresh : I.ends e = none) (ho : (I.adj o).isSome)
    (ht : (I.adj t).isSome) : Coherent (I.attach e o t) where
  out := h.out.attach fresh ho
  inn := by
    rw [reverse_attach]
    exact h.inn.attach (by simp [reverse, fresh]) (by simpa [reverse] using ht)

omit [DecidableEq ν] in
theorem detach (h : Coherent I) (e : ε) : Coherent (I.detach e) where
  out := h.out.detach e
  inn := by
    rw [reverse_detach]
    exact h.inn.detach e

omit [DecidableEq ε] in
theorem dropVertex (h : Coherent I) (u : ν) : Coherent (I.dropVertex u) where
  out := h.out.dropVertex u
  inn := by
    rw [reverse_dropVertex]
    exact h.inn.dropVertex u

end Coherent

end Incidence

end KimixNative
