import KimixNative.GraphDb.Adjacency

/-!
# The edge policy

`allow_self_edges` and `allow_parallel_edges` govern the creation of edges. Creation
looks the pair up in the origin's out links, so that it keeps the policy rests on the
links agreeing with the records. `adopt_edge` looks at self edges only, and an endpoint
move looks at neither option: a move is free to make a self loop or a second edge between
two vertices. The two results below say that nothing else does.
-/

namespace KimixNative.GraphDb

namespace Graph

/-- The endpoints of a live edge. -/
def endsOf (g : Graph) (id : Guid) : Option (Guid × Guid) :=
  (g.edges.find? id).map fun e => (e.origin, e.target)

/-- No edge leads from a vertex to itself. -/
def NoSelfEdges (g : Graph) : Prop :=
  ∀ id e, g.edges.find? id = some e → e.origin ≠ e.target

/-- No two edges share origin and target. -/
def NoParallelEdges (g : Graph) : Prop :=
  ∀ id id' e e', g.edges.find? id = some e → g.edges.find? id' = some e' →
    e.origin = e'.origin → e.target = e'.target → id = id'

/-- Some other live edge joins the pair. -/
def Joined (g : Graph) (id : Guid) (pair : Guid × Guid) : Prop :=
  ∃ p ∈ g.edges.toList, p.1 ≠ id ∧ (p.2.origin, p.2.target) = pair

/-- The endpoints an endpoint move gives to a live edge, when the new one is live. -/
def movedEnds (g : Graph) (edge endpoint : Guid) (moveOrigin : Bool) : Option (Guid × Guid) :=
  if (g.vertices.find? endpoint).isNone then none
  else (g.edges.find? edge).map fun e =>
    if moveOrigin then (endpoint, e.target) else (e.origin, endpoint)

/-- An endpoint move does not make a self loop. -/
def SelfStepOk (g : Graph) : GraphOp → Prop
  | .edgeSetOrigin edge origin => ∀ p ∈ g.movedEnds edge origin true, p.1 ≠ p.2
  | .edgeSetTarget edge target => ∀ p ∈ g.movedEnds edge target false, p.1 ≠ p.2
  | _ => True

/-- An endpoint move or an adoption does not put an edge beside another one. -/
def ParallelStepOk (g : Graph) : GraphOp → Prop
  | .edgeSetOrigin edge origin => ∀ p ∈ g.movedEnds edge origin true, ¬g.Joined edge p
  | .edgeSetTarget edge target => ∀ p ∈ g.movedEnds edge target false, ¬g.Joined edge p
  | .adoptEdge id edge => (g.edges.find? id).isSome ∨ ¬g.Joined id (edge.origin, edge.target)
  | _ => True

instance (g : Graph) (id : Guid) (pair : Guid × Guid) : Decidable (g.Joined id pair) :=
  List.decidableBEx _ g.edges.toList

instance (g : Graph) (op : GraphOp) : Decidable (g.SelfStepOk op) := by
  induction op using GraphOp.casesOn <;> first
  | exact isTrue trivial
  | exact Option.decidableForallMem (o := g.movedEnds _ _ _)

instance (g : Graph) (op : GraphOp) : Decidable (g.ParallelStepOk op) := by
  induction op using GraphOp.casesOn <;> first
  | exact isTrue trivial
  | exact Option.decidableForallMem (o := g.movedEnds _ _ _)
  | exact inferInstanceAs (Decidable (_ ∨ _))

theorem joined_iff {g : Graph} {id : Guid} {pair : Guid × Guid} :
    g.Joined id pair ↔ ∃ id', id' ≠ id ∧ g.endsOf id' = some pair := by
  constructor
  · rintro ⟨⟨id', e⟩, hmem, hne, heq⟩
    exact ⟨id', hne, by simpa [endsOf, Table.mem_toList.mp hmem] using heq⟩
  · rintro ⟨id', hne, hends⟩
    obtain ⟨e, he, heq⟩ := Option.map_eq_some_iff.mp hends
    exact ⟨(id', e), Table.mem_toList.mpr he, hne, heq⟩

/-! ## What a call does to the endpoints

Seen through its endpoints, a call other than `connect_bulk` drops edges, or puts one edge
on one pair that it has checked as far as it checks anything. -/

/-- The call joins nothing anew, or it puts one edge on one pair that passes. -/
def Puts (g g' : Graph) (passes : Guid → Guid × Guid → Prop) : Prop :=
  (∀ d p, g'.endsOf d = some p → g.endsOf d = some p) ∨
  ∃ id pair, passes id pair ∧ ∀ d, g'.endsOf d = if d = id then some pair else g.endsOf d

theorem noSelfEdges_iff {g : Graph} :
    g.NoSelfEdges ↔ ∀ d p, g.endsOf d = some p → p.1 ≠ p.2 := by
  constructor
  · intro h d p hp
    obtain ⟨e, he, rfl⟩ := Option.map_eq_some_iff.mp hp
    exact h d e he
  · intro h id e he
    exact h id (e.origin, e.target) (by simp [endsOf, he])

theorem noParallelEdges_iff {g : Graph} :
    g.NoParallelEdges ↔ ∀ d p, g.endsOf d = some p → ¬g.Joined d p := by
  constructor
  · intro h d p hp hj
    obtain ⟨d', hne, hp'⟩ := joined_iff.mp hj
    obtain ⟨e, he, rfl⟩ := Option.map_eq_some_iff.mp hp
    obtain ⟨e', he', heq⟩ := Option.map_eq_some_iff.mp hp'
    obtain ⟨ho, ht⟩ := Prod.mk.inj heq
    exact hne (h d' d e' e he' he ho ht)
  · intro h id id' e e' he he' ho ht
    by_contra hne
    refine h id (e.origin, e.target) (by simp [endsOf, he]) (joined_iff.mpr ⟨id', Ne.symm hne, ?_⟩)
    simp [endsOf, he', ho, ht]

section Puts

variable {g g' : Graph} {passes : Guid → Guid × Guid → Prop} (h : Puts g g' passes)
include h

theorem Puts.noSelfEdges (pass : ∀ id pair, passes id pair → pair.1 ≠ pair.2)
    (hg : g.NoSelfEdges) : g'.NoSelfEdges := by
  rw [noSelfEdges_iff] at hg ⊢
  intro d p hp
  obtain hshrink | ⟨id, pair, hpass, hput⟩ := h
  · exact hg d p (hshrink d p hp)
  · rw [hput] at hp
    split at hp
    · cases hp
      exact pass id p hpass
    · exact hg d p hp

theorem Puts.noParallelEdges (pass : ∀ id pair, passes id pair → ¬g.Joined id pair)
    (hg : g.NoParallelEdges) : g'.NoParallelEdges := by
  rw [noParallelEdges_iff] at hg ⊢
  intro d p hp hj
  obtain ⟨d', hne, hp'⟩ := joined_iff.mp hj
  obtain hshrink | ⟨id, pair, hpass, hput⟩ := h
  · exact hg d p (hshrink d p hp) (joined_iff.mpr ⟨d', hne, hshrink d' p hp'⟩)
  · -- At most one of the two is the edge that was put.
    rw [hput] at hp hp'
    split at hp
    · next hd =>
        cases hp
        rw [if_neg (hd ▸ hne)] at hp'
        exact pass id p hpass (joined_iff.mpr ⟨d', hd ▸ hne, hp'⟩)
    · next hd =>
        split at hp'
        · next hd' =>
            cases hp'
            exact pass id p hpass (joined_iff.mpr ⟨d, hd, hp⟩)
        · exact hg d p hp (joined_iff.mpr ⟨d', hne, hp'⟩)

theorem Puts.mono {passes' : Guid → Guid × Guid → Prop}
    (himp : ∀ id pair, passes id pair → passes' id pair) : Puts g g' passes' :=
  h.imp_right fun ⟨id, pair, hpass, hput⟩ => ⟨id, pair, himp id pair hpass, hput⟩

end Puts

theorem Puts.of_edges {g g' : Graph} {passes : Guid → Guid × Guid → Prop}
    (h : g'.edges = g.edges) : Puts g g' passes := by
  refine .inl fun d p hp => ?_
  rwa [endsOf, ← h]

theorem Puts.refl (g : Graph) (passes : Guid → Guid × Guid → Prop) : Puts g g passes :=
  .of_edges rfl

/-- Edges are only dropped. -/
theorem Puts.of_find? {g g' : Graph} {passes : Guid → Guid × Guid → Prop}
    (h : ∀ d, g'.edges.find? d = none ∨ g'.edges.find? d = g.edges.find? d) :
    Puts g g' passes := by
  refine .inl fun d p hp => ?_
  obtain hnone | hsame := h d
  · simp [endsOf, hnone] at hp
  · rwa [endsOf, ← hsame]

/-- A record goes in under a free uid. -/
theorem Puts.insertEdge {g g' : Graph} {passes : Guid → Guid × Guid → Prop} {i : Guid}
    {e : Edge} (h : g'.edges = (g.insertEdge i e).edges) (pass : passes i (e.origin, e.target)) :
    Puts g g' passes := by
  refine .inr ⟨i, (e.origin, e.target), pass, fun d => ?_⟩
  rw [endsOf, h, find?_insertEdge]
  by_cases hd : d = i <;> simp [hd, endsOf]

theorem Linked.hasOutEdgeLocked_false {g : Graph} (h : g.Linked) {o t : Guid} {v : Vertex}
    (hv : g.vertices.find? o = some v) (hno : hasOutEdgeLocked v t = false) (id : Guid) :
    ¬g.Joined id (o, t) := by
  intro hj
  obtain ⟨id', -, hends⟩ := joined_iff.mp hj
  obtain ⟨e, he, heq⟩ := Option.map_eq_some_iff.mp hends
  obtain ⟨ho, ht⟩ := Prod.mk.inj heq
  have := (h.hasOutEdgeLocked_iff hv t).mpr ⟨id', e, he, ho, ht⟩
  rw [hno] at this
  cases this

/-- Creation checks both options; the legacy door checks as if both were off. -/
theorem Linked.puts_createEdgeLocked {g : Graph} (h : g.Linked) (o t : Guid)
    (d : EdgeDirectionType) (labels : List LabelId) (properties : PropertyList)
    (viaGdiApi : Bool) (chosenUid : Option Guid) (minted : Guid) :
    Puts g (g.createEdgeLocked o t d labels properties viaGdiApi chosenUid minted).1
      fun id pair =>
        (viaGdiApi = false ∨ g.options.allowSelfEdges = false → pair.1 ≠ pair.2) ∧
        (viaGdiApi = false ∨ g.options.allowParallelEdges = false → ¬g.Joined id pair) := by
  obtain ⟨status, heq, -⟩ | ⟨originVertex, ho, -, hself, hparallel, -, -, heq⟩ :=
    g.createEdgeLocked_cases o t d labels properties viaGdiApi chosenUid minted
  · rw [heq]
    exact .refl ..
  · rw [heq]
    refine Puts.insertEdge (e := ⟨o, t, d, labels, PropertyBag.ofPropertyList properties, true, 1⟩)
      (i := chosenUid.getD minted) ?_ ⟨?_, ?_⟩
    · simp only [linkEdge_edges]
      split <;> rfl
    · rintro hoff heq
      obtain ⟨hvia, hallow⟩ := hself heq
      rcases hoff with hoff | hoff
      · rw [hvia] at hoff
        cases hoff
      · rw [hallow] at hoff
        cases hoff
    · intro hoff
      exact h.hasOutEdgeLocked_false ho (hparallel hoff) _

/-- A move puts its edge wherever it is told. -/
theorem puts_moveEdgeEndpoint (g : Graph) (edge endpoint : Guid) (moveOrigin : Bool) :
    Puts g (g.moveEdgeEndpoint edge endpoint moveOrigin).1
      fun id pair => id = edge ∧ g.movedEnds edge endpoint moveOrigin = some pair := by
  obtain ⟨status, heq, -⟩ | ⟨e, o, t, he, ho, ht, -, holive, htlive, heq⟩ :=
    g.moveEdgeEndpoint_cases edge endpoint moveOrigin
  · rw [heq]
    exact .refl ..
  · rw [heq]
    refine .inr ⟨edge, (o, t), ⟨rfl, ?_⟩, fun d => ?_⟩
    · cases moveOrigin with
      | true =>
        simp only [if_true] at ho ht
        rw [ho] at holive
        have hlive : (g.vertices.find? endpoint).isNone = false := by
          simpa using holive
        simp [movedEnds, hlive, he, ho, ht]
      | false =>
        simp only [Bool.false_eq_true, if_false] at ho ht
        rw [ht] at htlive
        have hlive : (g.vertices.find? endpoint).isNone = false := by
          simpa using htlive
        simp [movedEnds, hlive, he, ho, ht]
    · rw [endsOf, find?_updateEdge]
      by_cases hd : d = edge
      · simp [hd, he, Edge.markDirty]
      · simp [hd, endsOf]

/-- An adoption checks self edges only. -/
theorem puts_adoptEdge (g : Graph) (id : Guid) (edge : Edge) :
    Puts g (g.adoptEdge id edge).1 fun d pair =>
      d = id ∧ pair = (edge.origin, edge.target) ∧ g.edges.find? id = none ∧
      (edge.origin = edge.target → g.options.allowSelfEdges = true) := by
  obtain ⟨status, heq, -⟩ | ⟨free, hself, ⟨-, heq⟩ | ⟨-, -, heq⟩⟩ := g.adoptEdge_cases id edge
  · rw [heq]
    exact .refl ..
  · rw [heq]
    refine .of_find? fun d => ?_
    rw [find?_eraseEdge]
    by_cases hd : d = id
    · exact .inl (by simp [hd])
    · exact .inr (by simp [hd, find?_insertEdge])
  · rw [heq]
    exact .insertEdge (by simp) ⟨rfl, rfl, free, hself⟩

variable {op : GraphOp}

/-- What each call but `connect_bulk` may put on a pair. -/
theorem Linked.puts_step {g : Graph} (h : g.Linked)
    (single : ∀ requests, op ≠ .connectBulk requests) :
    Puts g (g.step op) fun id pair =>
      (g.SelfStepOk op → g.options.allowSelfEdges = false → pair.1 ≠ pair.2) ∧
      (g.ParallelStepOk op → g.options.allowParallelEdges = false → ¬g.Joined id pair) := by
  have removed : ∀ guid passes, Puts g (g.removeVertex guid).1 passes := by
    intro guid passes
    cases hv : g.vertices.find? guid with
    | none => rw [removeVertex_of_none hv]; exact .refl ..
    | some victim =>
      refine .of_find? fun d => ?_
      rw [find?_edges_removeVertex hv]
      split
      · exact .inl rfl
      · exact .inr rfl
  have buried : ∀ edge o t passes, Puts g ((g.buryEdge edge).unlinkEdge edge o t) passes := by
    intro edge o t passes
    refine .of_find? fun d => ?_
    rw [unlinkEdge_edges, find?_buryEdge]
    split
    · exact .inl rfl
    · exact .inr rfl
  have heffect := g.effect op
  generalize g.step op = g' at heffect ⊢
  cases heffect with
  | unchanged => exact .refl ..
  | plainVertex fresh => exact .of_edges rfl
  | created fresh free => exact .of_edges (by simp)
  | gotOrCreated fresh free => exact .of_edges (by simp)
  | added fresh => exact .of_edges rfl
  | adoptedVertex =>
    obtain ⟨heq, -⟩ | ⟨-, heq⟩ := g.adoptVertex_cases _ _
    · rw [heq]; exact .refl ..
    · rw [heq]
      refine .of_edges ?_
      dsimp only
      split <;> simp
  | removed => exact removed ..
  | freed loose => exact removed ..
  | edited => exact .of_edges (by simp)
  | edgeCreated d =>
    refine (h.puts_createEdgeLocked ..).mono fun id pair hp =>
      ⟨fun _ hoff => ?_, fun _ hoff => ?_⟩
    · exact hp.1 (.inr hoff)
    · exact hp.2 (.inr hoff)
  | edgeFreed e live => exact buried ..
  | originSet =>
    refine (puts_moveEdgeEndpoint ..).mono ?_
    rintro _ pair ⟨rfl, hp⟩
    exact ⟨fun ok _ => ok pair hp, fun ok _ => ok pair hp⟩
  | targetSet =>
    refine (puts_moveEdgeEndpoint ..).mono ?_
    rintro _ pair ⟨rfl, hp⟩
    exact ⟨fun ok _ => ok pair hp, fun ok _ => ok pair hp⟩
  | @edgeEdited edge edit e e' live ho ht =>
    refine .inl fun d p hp => ?_
    rw [endsOf, find?_updateEdge] at hp
    by_cases hd : d = edge
    · simpa [hd, live, endsOf, Edge.markDirty, ho, ht] using hp
    · simpa [hd, endsOf] using hp
  | connected =>
    refine (h.puts_createEdgeLocked ..).mono fun id pair hp => ⟨fun _ _ => ?_, fun _ _ => ?_⟩
    · exact hp.1 (.inl rfl)
    · exact hp.2 (.inl rfl)
  | bulk => exact absurd rfl (single _)
  | disconnected held listed live => exact buried ..
  | adoptedEdge =>
    refine (puts_adoptEdge ..).mono ?_
    rintro _ _ ⟨rfl, rfl, free, hself⟩
    refine ⟨fun _ hoff heq => ?_, fun ok _ => ?_⟩
    · rw [hself heq] at hoff
      cases hoff
    · exact ok.resolve_left (by simp [free])
  | vertexListTaken => exact .of_edges rfl
  | edgeListTaken => exact .of_edges rfl

/-! ## Runs -/

theorem Linked.noSelfEdges_step {g : Graph} (h : g.Linked) (off : g.options.allowSelfEdges = false)
    (ok : g.SelfStepOk op) (hg : g.NoSelfEdges) : (g.step op).NoSelfEdges := by
  by_cases hbulk : ∃ requests, op = .connectBulk requests
  · obtain ⟨requests, rfl⟩ := hbulk
    refine (g.connectPending_invariant (I := fun g' => g'.Linked ∧ g'.NoSelfEdges)
      (F := fun _ => True) ?_ _ (fun _ _ => trivial) ⟨h, hg⟩).2
    rintro g' source target minted - ⟨hl, hs⟩
    exact ⟨hl.createEdgeLocked ..,
      (hl.puts_createEdgeLocked ..).noSelfEdges (fun id pair hp => hp.1 (.inl rfl)) hs⟩
  · have hsingle : ∀ requests, op ≠ .connectBulk requests := fun r hr => hbulk ⟨r, hr⟩
    exact (h.puts_step hsingle).noSelfEdges (fun id pair hp => hp.1 ok off) hg

theorem Linked.noParallelEdges_step {g : Graph} (h : g.Linked)
    (off : g.options.allowParallelEdges = false) (ok : g.ParallelStepOk op) (hg : g.NoParallelEdges) :
    (g.step op).NoParallelEdges := by
  by_cases hbulk : ∃ requests, op = .connectBulk requests
  · obtain ⟨requests, rfl⟩ := hbulk
    refine (g.connectPending_invariant (I := fun g' => g'.Linked ∧ g'.NoParallelEdges)
      (F := fun _ => True) ?_ _ (fun _ _ => trivial) ⟨h, hg⟩).2
    rintro g' source target minted - ⟨hl, hs⟩
    exact ⟨hl.createEdgeLocked ..,
      (hl.puts_createEdgeLocked ..).noParallelEdges (fun id pair hp => hp.2 (.inl rfl)) hs⟩
  · have hsingle : ∀ requests, op ≠ .connectBulk requests := fun r hr => hbulk ⟨r, hr⟩
    exact (h.puts_step hsingle).noParallelEdges (fun id pair hp => hp.2 ok off) hg

/-- With self edges off, a run whose endpoint moves make no self loop has none; with
parallel edges off, a run whose moves and adoptions put no edge beside another has no two
edges between the same vertices. -/
theorem edgePolicy_run (options : GraphOptions) (ops : List GraphOp) :
    (options.allowSelfEdges = false →
      Meets Graph.step SelfStepOk (Graph.empty options) ops →
      (run Graph.step (Graph.empty options) ops).NoSelfEdges) ∧
    (options.allowParallelEdges = false →
      Meets Graph.step ParallelStepOk (Graph.empty options) ops →
      (run Graph.step (Graph.empty options) ops).NoParallelEdges) := by
  constructor
  · intro off ok
    refine (ok.invariant (I := fun g => g.options = options ∧ g.Linked ∧ g.NoSelfEdges)
      ?_ ⟨rfl, linked_empty options, ?_⟩).2.2
    · rintro g op ⟨rfl, hl, hs⟩ hok
      exact ⟨g.step_options op, hl.step op, hl.noSelfEdges_step off hok hs⟩
    · intro id e he
      simp [Graph.empty] at he
  · intro off ok
    refine (ok.invariant (I := fun g => g.options = options ∧ g.Linked ∧ g.NoParallelEdges)
      ?_ ⟨rfl, linked_empty options, ?_⟩).2.2
    · rintro g op ⟨rfl, hl, hs⟩ hok
      exact ⟨g.step_options op, hl.step op, hl.noParallelEdges_step off hok hs⟩
    · intro id id' e e' he
      simp [Graph.empty] at he

/-- Both options off: edges are created, moved and adopted within the policy. -/
theorem edgePolicy_run_moved :
    let options : GraphOptions := { allowSelfEdges := false, allowParallelEdges := false }
    let ops : List GraphOp :=
      [.createPlainVertex [] 1, .createPlainVertex [] 2, .createPlainVertex [] 3,
        .edgeCreate 1 2 0 [] [] none 4, .edgeSetTarget 4 3,
        .adoptEdge 5 { origin := 1, target := 2 }]
    (Meets Graph.step SelfStepOk (Graph.empty options) ops ∧
      Meets Graph.step ParallelStepOk (Graph.empty options) ops) ∧
    (run Graph.step (Graph.empty options) ops).NoSelfEdges ∧
      (run Graph.step (Graph.empty options) ops).NoParallelEdges := by
  intro options ops
  have hs : Meets Graph.step SelfStepOk (Graph.empty options) ops := by decide
  have hp : Meets Graph.step ParallelStepOk (Graph.empty options) ops := by decide
  exact ⟨⟨hs, hp⟩, (edgePolicy_run options ops).1 rfl hs, (edgePolicy_run options ops).2 rfl hp⟩

/-- With both options off, one move makes a self loop and another a second edge between
two vertices. -/
theorem edgeSetTarget_breaks_policy :
    let options : GraphOptions := { allowSelfEdges := false, allowParallelEdges := false }
    let created : List GraphOp :=
      [.createPlainVertex [] 1, .createPlainVertex [] 2, .createPlainVertex [] 3,
        .edgeCreate 1 2 0 [] [] none 4, .edgeCreate 1 3 0 [] [] none 5]
    ¬(run Graph.step (Graph.empty options) (created ++ [.edgeSetTarget 4 1])).NoSelfEdges ∧
      ¬(run Graph.step (Graph.empty options)
        (created ++ [.edgeSetTarget 4 3])).NoParallelEdges := by
  intro options created
  constructor
  · intro h
    exact noSelfEdges_iff.mp h 4 (1, 1) (by decide) rfl
  · intro h
    exact noParallelEdges_iff.mp h 4 (1, 3) (by decide) (by decide +kernel)

end Graph

end KimixNative.GraphDb
