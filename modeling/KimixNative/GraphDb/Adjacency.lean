import KimixNative.GraphDb.Operations

/-!
# Adjacency

A graph stores its edges three times: as records with two endpoints, as an out link
on the origin and as an in link on the target. `Graph.incidence` reads the three as an
`Incidence`, and every operation of the container is one of the incidence operations
there, or a short sequence of them. Coherence, and with it the one-link-per-side law,
then follows for every run from an empty graph.
-/

namespace KimixNative.GraphDb

namespace Graph

/-- The multigraph a graph's tables describe. -/
def incidence (g : Graph) : Incidence Guid Guid where
  adj u := (g.vertices.find? u).map fun v => ⟨v.outLinks, v.inLinks⟩
  ends e := (g.edges.find? e).map fun r => (r.origin, r.target)

/-- Link lists and edge records agree. -/
abbrev Linked (g : Graph) : Prop := g.incidence.Coherent

/-- The law in the graph's own words: every edge record joins two live vertices and has
exactly one link on either side, and every link belongs to a record in this way. -/
def LinksExact (g : Graph) : Prop :=
  (∀ id e, g.edges.find? id = some e →
    ∃ o t, g.vertices.find? e.origin = some o ∧ g.vertices.find? e.target = some t ∧
      o.outLinks.filter (·.edge == id) = [⟨id, e.target⟩] ∧
      t.inLinks.filter (·.edge == id) = [⟨id, e.origin⟩]) ∧
  (∀ u v, g.vertices.find? u = some v →
    (∀ l ∈ v.outLinks, ∃ e, g.edges.find? l.edge = some e ∧ e.origin = u ∧
      e.target = l.neighbour) ∧
    (∀ l ∈ v.inLinks, ∃ e, g.edges.find? l.edge = some e ∧ e.target = u ∧
      e.origin = l.neighbour))

variable {v : Vertex} {e : Edge} {id : Guid}

variable {w : Guid} {g' : Graph}

section Reading

variable {g : Graph}

variable {u : Guid}

theorem incidence_adj (hv : g.vertices.find? u = some v) :
    g.incidence.adj u = some ⟨v.outLinks, v.inLinks⟩ := by
  simp [incidence, hv]

theorem reverse_incidence_adj (hv : g.vertices.find? u = some v) :
    g.incidence.reverse.adj u = some ⟨v.inLinks, v.outLinks⟩ := by
  simp [incidence, Incidence.reverse, hv]

theorem incidence_ends (he : g.edges.find? id = some e) :
    g.incidence.ends id = some (e.origin, e.target) := by
  simp [incidence, he]

theorem reverse_incidence_ends (he : g.edges.find? id = some e) :
    g.incidence.reverse.ends id = some (e.target, e.origin) := by
  simp [incidence, Incidence.reverse, he]

variable (h : g.Linked)
include h

theorem Linked.nodup_outLinks (hv : g.vertices.find? u = some v) :
    (v.outLinks.map Link.edge).Nodup :=
  h.out.nodup (incidence_adj hv)

theorem Linked.nodup_inLinks (hv : g.vertices.find? u = some v) : (v.inLinks.map Link.edge).Nodup :=
  h.inn.nodup (reverse_incidence_adj hv)

theorem Linked.mem_outLinks (hv : g.vertices.find? u = some v) (l : EdgeLink) :
    l ∈ v.outLinks ↔
      ∃ e, g.edges.find? l.edge = some e ∧ e.origin = u ∧ e.target = l.neighbour := by
  refine (h.out.mem (incidence_adj hv) l).trans ?_
  simp [incidence, Option.map_eq_some_iff]

theorem Linked.mem_inLinks (hv : g.vertices.find? u = some v) (l : EdgeLink) :
    l ∈ v.inLinks ↔
      ∃ e, g.edges.find? l.edge = some e ∧ e.target = u ∧ e.origin = l.neighbour := by
  refine (h.inn.mem (reverse_incidence_adj hv) l).trans ?_
  simp [incidence, Incidence.reverse, Option.map_eq_some_iff]

theorem Linked.origin_live (he : g.edges.find? id = some e) :
    ∃ v, g.vertices.find? e.origin = some v := by
  have := h.out.live (incidence_ends he)
  simpa [incidence, Option.isSome_iff_exists] using this

theorem Linked.target_live (he : g.edges.find? id = some e) :
    ∃ v, g.vertices.find? e.target = some v := by
  have := h.inn.live (reverse_incidence_ends he)
  simpa [incidence, Incidence.reverse, Option.isSome_iff_exists] using this

/-- Coherence gives the law. -/
theorem Linked.linksExact : g.LinksExact := by
  refine ⟨?_, ?_⟩
  · intro id e he
    obtain ⟨o, ho⟩ := h.origin_live he
    obtain ⟨t, ht⟩ := h.target_live he
    exact ⟨o, t, ho, ht, h.out.filter_eq (incidence_ends he) (incidence_adj ho),
      h.inn.filter_eq (reverse_incidence_ends he) (reverse_incidence_adj ht)⟩
  · intro u v hv
    exact ⟨fun l hl => (h.mem_outLinks hv l).mp hl, fun l hl => (h.mem_inLinks hv l).mp hl⟩

/-- Only the origin of an edge has an out link of it. -/
theorem Linked.filter_outLinks (he : g.edges.find? id = some e) (hw : g.vertices.find? w = some v)
    (hne : w ≠ e.origin) : v.outLinks.filter (·.edge != id) = v.outLinks := by
  refine h.out.filter_eq_self (incidence_adj hw) fun t ht => hne ?_
  rw [incidence_ends he] at ht
  simp only [Option.some.injEq, Prod.mk.injEq] at ht
  exact ht.1.symm

/-- Only the target of an edge has an in link of it. -/
theorem Linked.filter_inLinks (he : g.edges.find? id = some e) (hw : g.vertices.find? w = some v)
    (hne : w ≠ e.target) : v.inLinks.filter (·.edge != id) = v.inLinks := by
  refine h.inn.filter_eq_self (reverse_incidence_adj hw) fun t ht => hne ?_
  rw [reverse_incidence_ends he] at ht
  simp only [Option.some.injEq, Prod.mk.injEq] at ht
  exact ht.1.symm

/-- `_has_out_edge_locked` answers whether an edge record joins the two vertices. -/
theorem Linked.hasOutEdgeLocked_iff (hv : g.vertices.find? u = some v) (w : Guid) :
    hasOutEdgeLocked v w = true ↔
      ∃ id e, g.edges.find? id = some e ∧ e.origin = u ∧ e.target = w := by
  simp only [hasOutEdgeLocked, List.any_eq_true, beq_iff_eq]
  constructor
  · rintro ⟨l, hl, rfl⟩
    obtain ⟨e, he⟩ := (h.mem_outLinks hv l).mp hl
    exact ⟨l.edge, e, he⟩
  · rintro ⟨id, e, he, ho, rfl⟩
    exact ⟨⟨id, e.target⟩, (h.mem_outLinks hv _).mpr ⟨e, he, ho, rfl⟩, rfl⟩

end Reading

/-! ## The operations as incidence operations -/

theorem incidence_congr {g : Graph}
    (hv : ∀ w, (g'.vertices.find? w).map (fun v => (v.outLinks, v.inLinks)) = (g.vertices.find?
      w).map fun v => (v.outLinks, v.inLinks))
    (he : ∀ d, (g'.edges.find? d).map (fun e => (e.origin, e.target)) = (g.edges.find? d).map fun e
      => (e.origin, e.target)) : g'.incidence = g.incidence := by
  ext1
  · funext w
    have := congrArg (Option.map fun p : List EdgeLink × List EdgeLink =>
      (⟨p.1, p.2⟩ : Adjacency Guid Guid)) (hv w)
    simpa [incidence, Function.comp_def] using this
  · funext d
    exact he d

theorem incidence_insertVertex (g : Graph) {guid : Guid} (hv : v.outLinks = [] ∧ v.inLinks = []) :
    (g.insertVertex guid v).incidence = g.incidence.insertVertex guid := by
  ext1
  · funext w
    simp only [incidence, Incidence.insertVertex, find?_insertVertex]
    by_cases hw : w = guid <;> simp [hw, hv]
  · rfl

/-- Inserting a record and linking both sides attaches an edge. -/
theorem incidence_linkEdge (g : Graph) (id : Guid) (e : Edge) (g' : Graph)
    (hv : g'.vertices = g.vertices) (hd : ∀ d, g'.edges.find? d =
      if d = id then some e else g.edges.find? d) :
    (g'.linkEdge id e.origin e.target).incidence = g.incidence.attach id e.origin e.target := by
  ext1
  · funext w
    simp only [incidence, Incidence.attach, find?_linkEdge, hv, Option.map_map]
    congr 1
    funext v
    by_cases ho : w = e.origin
    · by_cases ht : w = e.target
      · simp [← ho, ← ht]
      · simp [← ho, ht]
    · by_cases ht : w = e.target
      · simp [ho, ← ht]
      · simp [ho, ht]
  · funext d
    simp only [incidence, Incidence.attach, linkEdge_edges, hd]
    by_cases hd' : d = id <;> simp [hd']

/-- Unlinking both sides of a record that is gone detaches the edge. -/
theorem incidence_unlinkEdge {g : Graph} (h : g.Linked) (he : g.edges.find? id = some e)
    (g' : Graph) (hv : g'.vertices = g.vertices)
    (hd : ∀ d, g'.edges.find? d = if d = id then none else g.edges.find? d) :
    (g'.unlinkEdge id e.origin e.target).incidence = g.incidence.detach id := by
  ext1
  · funext w
    simp only [incidence, Incidence.detach, find?_unlinkEdge, hv, Option.map_map]
    cases hw : g.vertices.find? w with
    | none => rfl
    | some v =>
      -- On an endpoint the first match is the only one; elsewhere nothing matches.
      have hout := eraseP_eq_filter (h.nodup_outLinks hw) id
      have hin := eraseP_eq_filter (h.nodup_inLinks hw) id
      by_cases ho : w = e.origin
      · by_cases ht : w = e.target
        · simp [← ho, ← ht, hout, hin]
        · simp [← ho, ht, hout, h.filter_inLinks he hw ht]
      · by_cases ht : w = e.target
        · simp [ho, ← ht, hin, h.filter_outLinks he hw ho]
        · simp [ho, ht, h.filter_outLinks he hw ho, h.filter_inLinks he hw ht]
  · funext d
    simp only [incidence, Incidence.detach, unlinkEdge_edges, hd]
    by_cases hd' : d = id <;> simp [hd']

/-- An endpoint move detaches the edge and attaches it again. -/
theorem incidence_moveEdge {g : Graph} (h : g.Linked) {edge : Guid}
    (he : g.edges.find? edge = some e) (o t : Guid) :
    (((g.unlinkEdge edge e.origin e.target).linkEdge edge o t).updateEdge edge
      (fun r => Edge.markDirty { r with origin := o, target := t })).incidence =
      (g.incidence.detach edge).attach edge o t := by
  -- The record is rewritten last; reading it as erased first and inserted again later
  -- changes no lookup.
  have hdetach : ((g.eraseEdge edge).unlinkEdge edge e.origin e.target).incidence =
      g.incidence.detach edge :=
    incidence_unlinkEdge h he _ rfl fun d => g.find?_eraseEdge edge d
  have hattach := incidence_linkEdge ((g.eraseEdge edge).unlinkEdge edge e.origin e.target) edge
    { e with origin := o, target := t } (((g.eraseEdge edge).unlinkEdge edge e.origin
      e.target).insertEdge edge { e with origin := o, target := t }) rfl
      (fun d => find?_insertEdge _ _ _ _)
  rw [hdetach] at hattach
  rw [← hattach]
  refine incidence_congr (fun w => ?_) (fun d => ?_)
  · simp [find?_linkEdge, find?_unlinkEdge]
  · rw [find?_updateEdge]
    by_cases hd : d = edge
    · simp [hd, find?_insertEdge, he, Edge.markDirty]
    · simp [hd, find?_insertEdge, find?_eraseEdge]

/-! ## Removing a vertex -/

theorem outLinks_unlinkAll (w : Guid) (cs : List Cascade) (nodup : (v.outLinks.map Link.edge).Nodup) :
    (unlinkAll w cs v).outLinks = v.outLinks.filter fun l =>
      !cs.any fun c => decide (c.neighbour = w) && !c.victimIsOrigin && c.edge == l.edge := by
  induction cs generalizing v with
  | nil => simp [unlinkAll]
  | cons c rest ih =>
    rw [unlinkAll]
    by_cases hn : c.neighbour = w
    · cases hv : c.victimIsOrigin with
      | true =>
        rw [ih (by simpa [hn, hv] using nodup)]
        simp [hn, hv]
      | false =>
        simp only [hn, if_true, Bool.false_eq_true, if_false]
        have hf : (v.removeOutLink c.edge).outLinks = v.outLinks.filter (·.edge != c.edge) := by
          rw [Vertex.outLinks_removeOutLink, eraseP_eq_filter nodup]
        rw [ih (hf ▸ nodup.sublist (List.filter_sublist.map _)), hf, List.filter_filter]
        refine List.filter_congr fun l _ => ?_
        simp [hn, hv, bne, Bool.beq_comm (a := l.edge), Bool.and_comm]
    · rw [ih (by simpa [hn] using nodup)]
      simp [hn]

theorem inLinks_unlinkAll (w : Guid) (cs : List Cascade) (nodup : (v.inLinks.map Link.edge).Nodup) :
    (unlinkAll w cs v).inLinks = v.inLinks.filter fun l =>
      !cs.any fun c => decide (c.neighbour = w) && c.victimIsOrigin && c.edge == l.edge := by
  induction cs generalizing v with
  | nil => simp [unlinkAll]
  | cons c rest ih =>
    rw [unlinkAll]
    by_cases hn : c.neighbour = w
    · cases hv : c.victimIsOrigin with
      | false =>
        rw [ih (by simpa [hn, hv] using nodup)]
        simp [hn, hv]
      | true =>
        simp only [hn, if_true]
        have hf : (v.removeInLink c.edge).inLinks = v.inLinks.filter (·.edge != c.edge) := by
          rw [Vertex.inLinks_removeInLink, eraseP_eq_filter nodup]
        rw [ih (hf ▸ nodup.sublist (List.filter_sublist.map _)), hf, List.filter_filter]
        refine List.filter_congr fun l _ => ?_
        simp [hn, hv, bne, Bool.beq_comm (a := l.edge), Bool.and_comm]
    · rw [ih (by simpa [hn] using nodup)]
      simp [hn]

section Removal

variable {g : Graph} (h : g.Linked) {guid : Guid} {victim : Vertex}
  (hvictim : g.vertices.find? guid = some victim)
include h hvictim

/-- The work list of a removal names exactly the incident edges. -/
theorem Linked.mem_cascadeOf (d : Guid) :
    d ∈ (cascadeOf victim).map Cascade.edge ↔
      ∃ e, g.edges.find? d = some e ∧ (e.origin = guid ∨ e.target = guid) := by
  have hout := h.mem_outLinks hvictim
  have hin := h.mem_inLinks hvictim
  simp only [cascadeOf, List.map_append, List.map_map, List.mem_append, List.mem_map,
    Function.comp_apply]
  constructor
  · rintro (⟨l, hl, rfl⟩ | ⟨l, hl, rfl⟩)
    · obtain ⟨e, he, ho, -⟩ := (hout l).mp hl
      exact ⟨e, he, .inl ho⟩
    · obtain ⟨e, he, ht, -⟩ := (hin l).mp hl
      exact ⟨e, he, .inr ht⟩
  · rintro ⟨e, he, ho | ht⟩
    · exact .inl ⟨⟨d, e.target⟩, (hout _).mpr ⟨e, he, ho, rfl⟩, rfl⟩
    · exact .inr ⟨⟨d, e.origin⟩, (hin _).mpr ⟨e, he, ht, rfl⟩, rfl⟩

/-- A neighbour loses exactly its links to the victim. -/
theorem Linked.unlinkAll_cascadeOf (hw : g.vertices.find? w = some v) :
    (unlinkAll w (cascadeOf victim) v).outLinks = v.outLinks.filter (·.neighbour != guid) ∧
      (unlinkAll w (cascadeOf victim) v).inLinks = v.inLinks.filter (·.neighbour != guid) := by
  rw [outLinks_unlinkAll _ _ (h.nodup_outLinks hw), inLinks_unlinkAll _ _ (h.nodup_inLinks hw)]
  refine ⟨List.filter_congr fun l hl => ?_, List.filter_congr fun l hl => ?_⟩
  · obtain ⟨e, he, ho, ht⟩ := (h.mem_outLinks hw l).mp hl
    rw [bne, Bool.not_inj_iff, Bool.eq_iff_iff]
    simp only [cascadeOf, List.any_append, List.any_map, Bool.or_eq_true, List.any_eq_true,
      Function.comp_apply, Bool.and_eq_true, decide_eq_true_eq, beq_iff_eq, Bool.not_true,
      Bool.false_eq_true, and_false, false_and, exists_false, false_or, Bool.not_false, and_true]
    constructor
    · rintro ⟨l', hl', -, heq⟩
      obtain ⟨e', he', ht', -⟩ := (h.mem_inLinks hvictim l').mp hl'
      rw [heq, he] at he'
      cases he'
      rw [← ht, ht']
    · intro hn
      exact ⟨⟨l.edge, w⟩, (h.mem_inLinks hvictim _).mpr ⟨e, he, ht.trans hn, ho⟩, rfl, rfl⟩
  · obtain ⟨e, he, ht, ho⟩ := (h.mem_inLinks hw l).mp hl
    rw [bne, Bool.not_inj_iff, Bool.eq_iff_iff]
    simp only [cascadeOf, List.any_append, List.any_map, Bool.or_eq_true, List.any_eq_true,
      Function.comp_apply, Bool.and_eq_true, decide_eq_true_eq, beq_iff_eq,
      Bool.false_eq_true, and_false, false_and, exists_false, or_false, and_true]
    constructor
    · rintro ⟨l', hl', -, heq⟩
      obtain ⟨e', he', ho', -⟩ := (h.mem_outLinks hvictim l').mp hl'
      rw [heq, he] at he'
      cases he'
      rw [← ho, ho']
    · intro hn
      exact ⟨⟨l.edge, w⟩, (h.mem_outLinks hvictim _).mpr ⟨e, he, ho.trans hn, ht⟩, rfl, rfl⟩

/-- Removing a vertex drops it from the multigraph. -/
theorem incidence_removeVertex :
    (g.removeVertex guid).1.incidence = g.incidence.dropVertex guid := by
  ext1
  · funext w
    simp only [incidence, Incidence.dropVertex, find?_vertices_removeVertex hvictim]
    by_cases hw : w = guid
    · simp [hw]
    · cases hv : g.vertices.find? w with
      | none => simp [hw]
      | some v =>
        obtain ⟨hout, hin⟩ := h.unlinkAll_cascadeOf hvictim hv
        simp [hw, hout, hin]
  · funext d
    simp only [incidence, Incidence.dropVertex, find?_edges_removeVertex hvictim,
      h.mem_cascadeOf hvictim]
    cases hd : g.edges.find? d with
    | none => simp
    | some e =>
      by_cases ho : e.origin = guid
      · simp [ho, Option.filter]
      · by_cases ht : e.target = guid
        · simp [ho, ht, Option.filter]
        · simp [ho, ht, Option.filter]

end Removal

/-! ## Every operation keeps the lists and the records together -/

section Steps

variable {g : Graph} (h : g.Linked)
include h

theorem Linked.insertVertex {guid : Guid} (hv : v.outLinks = [] ∧ v.inLinks = [])
    (fresh : g.vertices.find? guid = none) : (g.insertVertex guid v).Linked := by
  unfold Linked
  rw [incidence_insertVertex g hv]
  exact Incidence.Coherent.insertVertex h (by simp [incidence, fresh])

theorem Linked.of_congr (hv : g'.vertices = g.vertices) (he : g'.edges = g.edges) : g'.Linked := by
  unfold Linked
  rw [incidence_congr (g := g) (fun w => by rw [hv]) (fun d => by rw [he])]
  exact h

theorem Linked.published {spec : VertexSpec} {minted : Guid}
    (fresh : g.vertices.find? minted = none) : (g.published spec minted).Linked := by
  have hins : (g.insertVertex minted spec.toVertex).Linked :=
    h.insertVertex ⟨rfl, rfl⟩ fresh
  unfold Graph.published
  simp only
  split
  · exact hins.of_congr rfl rfl
  · exact hins

theorem Linked.removeVertex (guid : Guid) : (g.removeVertex guid).1.Linked := by
  cases hv : g.vertices.find? guid with
  | none => rw [removeVertex_of_none hv]; exact h
  | some victim =>
    unfold Linked
    rw [incidence_removeVertex h hv]
    exact h.dropVertex guid

theorem Linked.adoptVertex (guid : Guid) (v : DetachedVertex) :
    (g.adoptVertex guid v).1.Linked := by
  obtain ⟨heq, -⟩ | ⟨fresh, heq⟩ := g.adoptVertex_cases guid v
  · rw [heq]; exact h
  · rw [heq]
    have hins := h.insertVertex v.2 fresh
    split <;> exact hins.of_congr (by simp) (by simp)

/-- Linking a record that was inserted under a free uid. -/
theorem Linked.linkEdge (hv : g'.vertices = g.vertices)
    (hd : ∀ d, g'.edges.find? d = if d = id then some e else g.edges.find? d)
    (free : g.edges.find? id = none) (ho : (g.vertices.find? e.origin).isSome)
    (ht : (g.vertices.find? e.target).isSome) : (g'.linkEdge id e.origin e.target).Linked := by
  unfold Linked
  rw [incidence_linkEdge g id e g' hv hd]
  exact h.attach (by simp [incidence, free]) (by simpa [incidence] using ho)
    (by simpa [incidence] using ht)

theorem Linked.createEdgeLocked (o t : Guid) (d : EdgeDirectionType) (labels : List LabelId)
    (properties : PropertyList) (viaGdiApi : Bool) (chosenUid : Option Guid) (minted : Guid) :
    (g.createEdgeLocked o t d labels properties viaGdiApi chosenUid minted).1.Linked := by
  obtain ⟨status, heq, -⟩ | ⟨originVertex, ho, ht, -, -, free, -, heq⟩ :=
    g.createEdgeLocked_cases o t d labels properties viaGdiApi chosenUid minted
  · rw [heq]; exact h
  · rw [heq]
    refine h.linkEdge (e := ⟨o, t, d, labels, PropertyBag.ofPropertyList properties, true, 1⟩)
      ?_ ?_ free (by simp [ho]) ht
    · split <;> simp
    · intro d'
      split
      · exact find?_insertEdge ..
      · exact find?_insertEdge ..

/-- Freeing an edge whose endpoints the record names. -/
theorem Linked.buryEdge (he : g.edges.find? id = some e) :
    ((g.buryEdge id).unlinkEdge id e.origin e.target).Linked := by
  unfold Linked
  rw [incidence_unlinkEdge h he (g.buryEdge id) rfl fun d => g.find?_buryEdge id d]
  exact h.detach id

theorem Linked.moveEdgeEndpoint (edge endpoint : Guid) (moveOrigin : Bool) :
    (g.moveEdgeEndpoint edge endpoint moveOrigin).1.Linked := by
  obtain ⟨status, heq, -⟩ | ⟨e, o, t, he, -, -, -, ho, ht, heq⟩ :=
    g.moveEdgeEndpoint_cases edge endpoint moveOrigin
  · rw [heq]; exact h
  · rw [heq]
    unfold Linked
    rw [incidence_moveEdge h he]
    refine (h.detach edge).attach (by simp [Incidence.detach]) ?_ ?_
    · simpa [Incidence.detach, incidence] using ho
    · simpa [Incidence.detach, incidence] using ht

theorem Linked.adoptEdge (id : Guid) (edge : Edge) : (g.adoptEdge id edge).1.Linked := by
  obtain ⟨status, heq, -⟩ | ⟨free, -, ⟨-, heq⟩ | ⟨ho, ht, heq⟩⟩ := g.adoptEdge_cases id edge
  · rw [heq]; exact h
  · rw [heq]
    unfold Linked
    have same : (((g.insertEdge id edge).restoreRemovedEdge id).eraseEdge id).incidence =
        g.incidence := by
      refine incidence_congr (fun w => by simp) fun d => ?_
      rw [find?_eraseEdge]
      by_cases hd : d = id
      · simp [hd, free]
      · simp [hd, find?_insertEdge]
    rw [same]
    exact h
  · rw [heq]
    exact h.linkEdge rfl (fun d => find?_insertEdge _ _ _ _) free ho ht

theorem Linked.updateVertex (guid : Guid) {f : Vertex → Vertex}
    (hf : ∀ v, (f v).outLinks = v.outLinks ∧ (f v).inLinks = v.inLinks) :
    (g.updateVertex guid f).Linked := by
  unfold Linked
  rw [incidence_congr (g := g) (fun w => ?_) (fun d => by simp)]
  · exact h
  · rw [find?_updateVertex]
    by_cases hw : w = guid
    · simp [hw, Function.comp_def, hf]
    · simp [hw]

/-- One call of any kind keeps the lists and the records together. -/
theorem Linked.step (op : GraphOp) : (g.step op).Linked := by
  have heffect := g.effect op
  generalize g.step op = g' at heffect ⊢
  cases heffect with
  | unchanged => exact h
  | plainVertex fresh => exact h.insertVertex ⟨rfl, rfl⟩ fresh
  | created fresh free => exact h.published fresh
  | gotOrCreated fresh free => exact h.published fresh
  | @added guid v fresh => exact h.insertVertex v.2 fresh
  | adoptedVertex => exact h.adoptVertex ..
  | removed => exact h.removeVertex _
  | freed loose => exact h.removeVertex _
  | @edited guid edit =>
    exact h.updateVertex guid fun v => ⟨(edit.apply_frame v).1, (edit.apply_frame v).2.1⟩
  | edgeCreated d => exact h.createEdgeLocked ..
  | edgeFreed e live => exact h.buryEdge live
  | originSet => exact h.moveEdgeEndpoint ..
  | targetSet => exact h.moveEdgeEndpoint ..
  | @edgeEdited edge edit e e' live ho ht =>
    unfold Linked
    rw [incidence_congr (g := g) (fun w => by simp) (fun d => ?_)]
    · exact h
    · rw [find?_updateEdge]
      by_cases hd : d = edge
      · simp [hd, live, Edge.markDirty, ho, ht]
      · simp [hd]
  | connected => exact h.createEdgeLocked ..
  | bulk =>
    exact g.connectPending_invariant (I := Linked) (F := fun _ => True)
      (fun _ _ _ _ _ hg => hg.createEdgeLocked ..) _ (fun _ _ => trivial) h
  | @disconnected source v link held listed live =>
    -- The link names the record, and the record names the two vertices.
    obtain ⟨e, he, rfl, ht⟩ := (h.mem_outLinks held link).mp listed
    rw [← ht]
    exact h.buryEdge he
  | adoptedEdge => exact h.adoptEdge ..
  | vertexListTaken => exact h.of_congr rfl rfl
  | edgeListTaken => exact h.of_congr rfl rfl

end Steps

theorem linked_empty (options : GraphOptions) : (Graph.empty options).Linked := by
  have : (Graph.empty options).incidence = Incidence.empty := by
    ext1
    · funext u
      simp [incidence, Graph.empty, Incidence.empty]
    · funext e
      simp [incidence, Graph.empty, Incidence.empty]
  unfold Linked
  rw [this]
  exact .empty

theorem linked_run (options : GraphOptions) (ops : List GraphOp) :
    (run Graph.step (Graph.empty options) ops).Linked :=
  run_invariant (fun _ op hg => hg.step op) (linked_empty options) ops

/-- In every graph reached from an empty one, each edge record joins two live vertices and
has exactly one out link on its origin and one in link on its target, and every link on
every vertex belongs to a record in this way. -/
theorem linksExact_run (options : GraphOptions) (ops : List GraphOp) :
    (run Graph.step (Graph.empty options) ops).LinksExact :=
  (linked_run options ops).linksExact

end Graph

end KimixNative.GraphDb
