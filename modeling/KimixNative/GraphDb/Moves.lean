import KimixNative.GraphDb.Edits
import KimixNative.GraphDb.Undo

/-!
# Journaled moves

What a command inside a transaction does to the reading of the database, together with the
undo records it leaves, is a sequence of moves out of a short list. A move is exact when its
records take it back; the moves that lose something without a record, or that record
something they did not do, are the ones the flag `strict` shuts out.

`Moves.rollback` is what the journal is for: the records of an exact sequence, rolled back,
lead to the reading before it.
-/

namespace KimixNative.GraphDb

namespace GraphReading

/-- Both endpoints of every edge are there. -/
def Closed (G : GraphReading) : Prop :=
  ∀ d e, G.edges d = some e → (G.vertices e.origin).isSome ∧ (G.vertices e.target).isSome

/-- The edges that touch a vertex. -/
def Touches (e : EdgeReading) (u : Guid) : Prop := e.origin = u ∨ e.target = u

end GraphReading

/-- No entity carries the reserved label. -/
structure Reading.Labelled (R : Reading) : Prop where
  vertices : ∀ u x, R.graph.vertices u = some x → kNoLabel ∉ x.labels
  edges : ∀ d e, R.graph.edges d = some e → kNoLabel ∉ e.labels

variable {edges : List (Guid × Edge)} {u : Guid}

namespace Reading.Labelled

variable {R : Reading} (h : R.Labelled)
include h

theorem setVertex (u : Guid) {x : Option VertexReading}
    (hx : ∀ y, x = some y → kNoLabel ∉ y.labels) : (R.mapGraph (·.setVertex u x)).Labelled where
  vertices := by
    intro w y hy
    simp only [mapGraph, GraphReading.setVertex, Function.update_apply] at hy
    split at hy
    · exact hx y hy
    · exact h.vertices w y hy
  edges := h.edges

theorem setEdge (d : Guid) {e : Option EdgeReading}
    (he : ∀ y, e = some y → kNoLabel ∉ y.labels) : (R.mapGraph (·.setEdge d e)).Labelled where
  vertices := h.vertices
  edges := by
    intro c y hy
    simp only [mapGraph, GraphReading.setEdge, Function.update_apply] at hy
    split at hy
    · exact he y hy
    · exact h.edges c y hy

theorem removeVertex (u : Guid) : (R.mapGraph (·.removeVertex u)).Labelled := by
  simp only [mapGraph, GraphReading.removeVertex]
  split
  · exact h
  · refine ⟨(h.setVertex u (x := none) (by simp)).vertices, fun d e he => ?_⟩
    exact h.edges d e (Option.filter_eq_some_iff.mp he).1

variable {x : VertexReading}

theorem adoptVertex (u : Guid) (hx : kNoLabel ∉ x.labels) :
    (R.mapGraph (·.adoptVertex u x)).Labelled := by
  simp only [mapGraph, GraphReading.adoptVertex]
  split
  · exact h
  · have hset := h.setVertex u (x := some x) (by rintro y ⟨⟩; exact hx)
    exact ⟨hset.vertices, hset.edges⟩

theorem adoptEdge (allowSelf : Bool) (d : Guid) {e : EdgeReading} (he : kNoLabel ∉ e.labels) :
    (R.mapGraph (·.adoptEdge allowSelf d e)).Labelled := by
  simp only [mapGraph, GraphReading.adoptEdge]
  split
  · exact h
  · exact h.setEdge d (e := some e) (by rintro y ⟨⟩; exact he)

theorem adoptEdges (allowSelf : Bool) (hedges : ∀ e ∈ edges, kNoLabel ∉ e.2.labels) :
    (R.mapGraph (·.adoptEdges allowSelf edges)).Labelled := by
  induction edges generalizing R with
  | nil => exact h
  | cons e rest ih =>
    have hhead : kNoLabel ∉ e.2.reading.labels := hedges e List.mem_cons_self
    exact ih (h.adoptEdge allowSelf e.1 hhead) fun e' he' =>
      hedges e' (List.mem_cons_of_mem _ he')

/-- The rollback of a restorable entry brings no reserved label in. -/
theorem undo (allowSelf : Bool) {entry : JournalEntry} (hentry : entry.Restorable) :
    (R.undo allowSelf entry).Labelled := by
  have filtered : ∀ labels : List LabelId, kNoLabel ∉ labels.filter (· ≠ kNoLabel) := by
    intro labels hmem
    simp at hmem
  cases entry with
  | vertexCreated uid => exact h.removeVertex uid
  | vertexRemoved uid labels properties vertex removedEdges =>
    exact (h.adoptVertex uid (filtered labels)).adoptEdges allowSelf hentry
  | vertexPayload uid labels properties =>
    refine h.setVertex uid fun y hy => ?_
    obtain ⟨x, -, rfl⟩ := Option.map_eq_some_iff.mp hy
    exact filtered labels
  | edgeCreated uid => exact h.setEdge uid (by simp)
  | edgeRemoved record => exact h.adoptEdge allowSelf record.id (filtered record.labels)
  | edgeState record =>
    change (R.mapGraph (·.restoreEdge record.id record.reading)).Labelled
    simp only [mapGraph, GraphReading.restoreEdge]
    split
    · exact h
    · exact h.setEdge record.id (e := some _) (by rintro y ⟨⟩; exact hentry)
  | labelCreated label => exact ⟨h.vertices, h.edges⟩
  | labelRenamed label name => exact ⟨h.vertices, h.edges⟩
  | labelFreed label name => exact ⟨h.vertices, h.edges⟩
  | propertyTypeCreated property => exact ⟨h.vertices, h.edges⟩
  | propertyTypeUpdated property info => exact ⟨h.vertices, h.edges⟩
  | propertyTypeFreed property info => exact ⟨h.vertices, h.edges⟩

theorem rollback (allowSelf : Bool) {journal : List JournalEntry}
    (hjournal : ∀ entry ∈ journal, entry.Restorable) : (R.rollback allowSelf journal).Labelled := by
  induction journal using List.reverseRecOn generalizing R with
  | nil => exact h
  | append_singleton rest entry ih =>
    rw [rollback_append, rollback_singleton]
    exact ih (h.undo allowSelf (hjournal entry (by simp))) fun e he => hjournal e (by simp [he])

end Reading.Labelled

/-- One move: the reading before, the records, the reading after. -/
inductive Move (allowSelf : Bool) (strict : Bool) (R : Reading) : List JournalEntry → Reading → Prop
  | insertVertex (u : Guid) (x : VertexReading) (fresh : R.graph.vertices u = none)
      (free : x.keyLabel ≠ kNoLabel → R.graph.keys x.key = none) :
      Move allowSelf strict R [.vertexCreated u] (R.mapGraph (·.adoptVertex u x))
  | removeVertex (u : Guid) (v : DetachedVertex) (edges : List (Guid × Edge))
      (live : R.graph.vertices u = some v.1.reading)
      (cascade : ∀ d e, (d, e) ∈ edges →
        R.graph.edges d = some e.reading ∧ GraphReading.Touches e.reading u)
      (complete : ∀ d x, R.graph.edges d = some x → GraphReading.Touches x u →
        d ∈ edges.map Prod.fst)
      (nodup : (edges.map Prod.fst).Nodup)
      (named : strict = true → v.1.keyLabel ≠ kNoLabel → R.graph.keys v.1.key = some u)
      (loops : strict = true → ∀ e ∈ edges, e.2.origin = e.2.target → allowSelf = true) :
      Move allowSelf strict R
        [.vertexRemoved u v.1.labels v.1.properties.toPropertyList v edges]
        (R.mapGraph (·.removeVertex u))
  | editVertex (u : Guid) (x y : VertexReading) (properties : PropertyList)
      (live : R.graph.vertices u = some x)
      (copied : (PropertyBag.ofPropertyList properties).find? = x.properties)
      (same : x.SameVertex y) :
      Move allowSelf strict R [.vertexPayload u x.labels properties]
        (R.mapGraph (·.setVertex u (some y)))
  | insertEdge (d : Guid) (e : EdgeReading) (fresh : R.graph.edges d = none) :
      Move allowSelf strict R [.edgeCreated d] (R.mapGraph (·.setEdge d (some e)))
  | removeEdge (record : EdgeRecord) (live : R.graph.edges record.id = some record.reading)
      (loops : strict = true → record.origin = record.target → allowSelf = true) :
      Move allowSelf strict R [.edgeRemoved record] (R.mapGraph (·.setEdge record.id none))
  | editEdge (record : EdgeRecord) (e : EdgeReading)
      (live : R.graph.edges record.id = some record.reading) :
      Move allowSelf strict R [.edgeState record] (R.mapGraph (·.setEdge record.id (some e)))
  | createLabel (label : LabelId) (name : Bytes) (fresh : R.schema.labels label = none) :
      Move allowSelf strict R [.labelCreated label] (R.mapSchema (·.setLabel label (some name)))
  | renameLabel (label : LabelId) (old new : Bytes) (live : R.schema.labels label = some old)
      (named : isBlank old = false) (alone : ¬R.schema.LabelClash label old) :
      Move allowSelf strict R [.labelRenamed label old]
        (R.mapSchema (·.setLabel label (some new)))
  | freeLabel (label : LabelId) (name : Bytes) (live : R.schema.labels label = some name)
      (used : label ≠ kNoLabel) (named : isBlank name = false)
      (alone : ¬R.schema.LabelClash label name) :
      Move allowSelf strict R [.labelFreed label name] (R.mapSchema (·.setLabel label none))
  | createPropertyType (property : PropNameId) (info : PropertyTypeInfo)
      (fresh : R.schema.types property = none) :
      Move allowSelf strict R [.propertyTypeCreated property]
        (R.mapSchema (·.setType property (some info)))
  | updatePropertyType (property : PropNameId) (old new : PropertyTypeInfo)
      (live : R.schema.types property = some old) (stored : old.Stored property)
      (alone : ¬R.schema.TypeClash property old.name) :
      Move allowSelf strict R [.propertyTypeUpdated property old]
        (R.mapSchema (·.setType property (some new)))
  | freePropertyType (property : PropNameId) (info : PropertyTypeInfo)
      (live : R.schema.types property = some info) (used : property ≠ kNoPropName)
      (stored : info.Stored property) (alone : ¬R.schema.TypeClash property info.name) :
      Move allowSelf strict R [.propertyTypeFreed property info]
        (R.mapSchema (·.setType property none))
  | noteVertex (u : Guid) (lossy : strict = false) : Move allowSelf strict R [.vertexCreated u] R
  | loseVertex (u : Guid) (lossy : strict = false) :
      Move allowSelf strict R [] (R.mapGraph (·.removeVertex u))
  | loseLabel (u : Guid) (x y : VertexReading) (live : R.graph.vertices u = some x)
      (same : x.SameVertex y) (labels : y.labels ⊆ x.labels)
      (properties : ∀ n v, y.properties n = some v → x.properties n = some v)
      (lossy : strict = false) :
      Move allowSelf strict R [] (R.mapGraph (·.setVertex u (some y)))
  | loseEdgeLabel (d : Guid) (e e' : EdgeReading) (live : R.graph.edges d = some e)
      (ends : e'.origin = e.origin ∧ e'.target = e.target) (labels : e'.labels ⊆ e.labels)
      (properties : ∀ n v, e'.properties n = some v → e.properties n = some v)
      (lossy : strict = false) :
      Move allowSelf strict R [] (R.mapGraph (·.setEdge d (some e')))

/-- A sequence of moves, each from a reading whose edges have their endpoints and whose
entities do not carry the reserved label. -/
inductive Moves (allowSelf : Bool) (strict : Bool) : Reading → List JournalEntry → Reading → Prop
  | nil (R : Reading) : Moves allowSelf strict R [] R
  | cons {R R' R'' : Reading} {first later : List JournalEntry} (closed : R.graph.Closed)
      (labelled : R.Labelled) (move : Move allowSelf strict R first R')
      (rest : Moves allowSelf strict R' later R'') : Moves allowSelf strict R (first ++ later) R''

/-! ## Exact moves are taken back -/

namespace GraphReading

variable {G : GraphReading}

theorem setVertex_setVertex {x y : Option VertexReading} (h : G.vertices u = x) :
    (G.setVertex u y).setVertex u x = G := by
  simp only [setVertex, Function.update_idem, ← h, Function.update_eq_self]

theorem setEdge_setEdge {d : Guid} {e e' : Option EdgeReading} (h : G.edges d = e) :
    (G.setEdge d e').setEdge d e = G := by
  simp only [setEdge, Function.update_idem, ← h, Function.update_eq_self]

theorem adoptVertex_of_none (h : G.vertices u = none) :
    G.adoptVertex u x =
      { G.setVertex u (some x) with
        keys :=
          if x.keyLabel ≠ kNoLabel ∧ G.keys x.key = none then
            Function.update G.keys x.key (some u)
          else G.keys } := by
  unfold adoptVertex
  rw [if_neg (by simp [h])]

theorem removeVertex_of_some (h : G.vertices u = some x) :
    G.removeVertex u =
      { vertices := Function.update G.vertices u none
        edges := fun d => (G.edges d).filter fun e => e.origin ≠ u ∧ e.target ≠ u
        keys := if x.keyLabel ≠ kNoLabel then Function.update G.keys x.key none else G.keys } := by
  simp only [removeVertex, h]

/-- Taking a fresh vertex out again. -/
theorem removeVertex_adoptVertex (hclosed : G.Closed) (fresh : G.vertices u = none)
    (free : x.keyLabel ≠ kNoLabel → G.keys x.key = none) :
    (G.adoptVertex u x).removeVertex u = G := by
  have hadopted : (G.adoptVertex u x).vertices u = some x := by
    rw [adoptVertex_of_none fresh]
    simp [setVertex]
  rw [removeVertex_of_some hadopted, adoptVertex_of_none fresh]
  simp only [setVertex]
  ext1
  · simp only [Function.update_idem, ← fresh, Function.update_eq_self]
  · funext d
    cases hd : G.edges d with
    | none => simp only [hd, Option.filter_none]
    | some e =>
      simp only [hd]
      obtain ⟨ho, ht⟩ := hclosed d e hd
      have hkeep : e.origin ≠ u ∧ e.target ≠ u := by
        constructor
        · rintro rfl
          simp [fresh] at ho
        · rintro rfl
          simp [fresh] at ht
      rw [Option.filter_some_pos (by simpa using hkeep)]
  · by_cases hk : x.keyLabel = kNoLabel
    · simp [hk]
    · have hnone := free hk
      simp only [ne_eq, hk, not_false_eq_true, hnone, and_self, if_true, Function.update_idem]
      rw [← hnone, Function.update_eq_self]

/-- Adopting edges under distinct free uids, with live endpoints and no forbidden loop. -/
theorem adoptEdges_eq {allowSelf : Bool} (nodup : (edges.map Prod.fst).Nodup)
    (free : ∀ e ∈ edges, G.edges e.1 = none)
    (live : ∀ e ∈ edges, (G.vertices e.2.origin).isSome ∧ (G.vertices e.2.target).isSome)
    (loops : ∀ e ∈ edges, e.2.origin = e.2.target → allowSelf = true) :
    (G.adoptEdges allowSelf edges).vertices = G.vertices ∧
      (G.adoptEdges allowSelf edges).keys = G.keys ∧
      ∀ d, (G.adoptEdges allowSelf edges).edges d =
        (edges.find? (·.1 == d)).elim (G.edges d) fun e => some e.2.reading := by
  induction edges generalizing G with
  | nil => exact ⟨rfl, rfl, fun d => rfl⟩
  | cons e rest ih =>
    obtain ⟨hhead, hrest⟩ := List.nodup_cons.mp nodup
    have hlive := live e List.mem_cons_self
    have hadopt : G.adoptEdge allowSelf e.1 e.2.reading = G.setEdge e.1 (some e.2.reading) := by
      unfold adoptEdge
      rw [if_neg]
      rintro (⟨hloop, hallow⟩ | hsome | hnone | hnone)
      · rw [loops e List.mem_cons_self hloop] at hallow
        cases hallow
      · simp [free e List.mem_cons_self] at hsome
      · rw [show G.vertices e.2.origin = none from hnone] at hlive
        simp at hlive
      · rw [show G.vertices e.2.target = none from hnone] at hlive
        simp at hlive
    have hfree : ∀ e' ∈ rest, (G.setEdge e.1 (some e.2.reading)).edges e'.1 = none := by
      intro e' he'
      have hne : e'.1 ≠ e.1 := fun heq =>
        hhead (heq ▸ List.mem_map_of_mem he')
      simpa [setEdge, hne] using free e' (List.mem_cons_of_mem _ he')
    obtain ⟨hv, hk, hed⟩ := ih hrest hfree (fun e' he' => live e' (List.mem_cons_of_mem _ he'))
      fun e' he' => loops e' (List.mem_cons_of_mem _ he')
    have hcons : G.adoptEdges allowSelf (e :: rest) =
        (G.setEdge e.1 (some e.2.reading)).adoptEdges allowSelf rest := by
      rw [← hadopt]
      rfl
    rw [hcons]
    refine ⟨hv, hk, fun d => ?_⟩
    rw [hed d, List.find?_cons]
    by_cases hd : e.1 = d
    · subst hd
      have hnone : rest.find? (·.1 == e.1) = none := by
        rw [List.find?_eq_none]
        intro e' he' heq
        exact hhead (beq_iff_eq.mp heq ▸ List.mem_map_of_mem he')
      simp [hnone, setEdge]
    · have hb : (e.1 == d) = false := beq_eq_false_iff_ne.mpr hd
      simp [hb, setEdge, Ne.symm hd]

end GraphReading

theorem VertexReading.restore_eq {y : VertexReading} {properties : PropertyList}
    (same : x.SameVertex y) (labelled : kNoLabel ∉ x.labels)
    (copied : (PropertyBag.ofPropertyList properties).find? = x.properties) :
    y.restore x.labels properties = x := by
  obtain ⟨hc, hk, he⟩ := same
  have hfilter : x.labels.filter (· ≠ kNoLabel) = x.labels := by
    refine List.filter_eq_self.mpr fun l hl => decide_eq_true ?_
    rintro rfl
    exact labelled hl
  ext1
  · exact hc
  · exact hk
  · exact he
  · exact hfilter
  · exact copied

/-- The reading of a restored edge is the recorded one. -/
theorem Database.reading_restoredEdge {record : EdgeRecord} (labelled : kNoLabel ∉ record.labels) :
    (Database.restoredEdge record).reading = record.reading := by
  have hfilter : record.labels.filter (· ≠ kNoLabel) = record.labels := by
    refine List.filter_eq_self.mpr fun l hl => decide_eq_true ?_
    rintro rfl
    exact labelled hl
  ext1
  · rfl
  · rfl
  · rfl
  · exact hfilter
  · rfl

namespace GraphReading

variable {G : GraphReading}

/-- A removed vertex comes back with its key and its edges. -/
theorem adopt_removeVertex {allowSelf : Bool} (hclosed : G.Closed) (live : G.vertices u = some x)
    (cascade : ∀ d e, (d, e) ∈ edges → G.edges d = some e.reading ∧ Touches e.reading u)
    (complete : ∀ d y, G.edges d = some y → Touches y u → d ∈ edges.map Prod.fst)
    (nodup : (edges.map Prod.fst).Nodup) (named : x.keyLabel ≠ kNoLabel → G.keys x.key = some u)
    (loops : ∀ e ∈ edges, e.2.origin = e.2.target → allowSelf = true) :
    ((G.removeVertex u).adoptVertex u x).adoptEdges allowSelf edges = G := by
  have hgone : (G.removeVertex u).vertices u = none := by
    rw [removeVertex_of_some live]
    exact Function.update_self ..
  -- the vertex with its key
  have hvertices : ((G.removeVertex u).adoptVertex u x).vertices = G.vertices := by
    rw [adoptVertex_of_none hgone, removeVertex_of_some live]
    simp only [setVertex, Function.update_idem, ← live, Function.update_eq_self]
  have hkeys : ((G.removeVertex u).adoptVertex u x).keys = G.keys := by
    rw [adoptVertex_of_none hgone, removeVertex_of_some live]
    by_cases hk : x.keyLabel = kNoLabel
    · simp only [hk, ne_eq, not_true_eq_false, false_and, if_false]
    · simp only [ne_eq, hk, not_false_eq_true, if_true, Function.update_self, and_self,
        Function.update_idem]
      rw [← named hk, Function.update_eq_self]
  have hedges : ∀ d, ((G.removeVertex u).adoptVertex u x).edges d =
      (G.edges d).filter fun e => e.origin ≠ u ∧ e.target ≠ u := by
    intro d
    rw [adoptVertex_of_none hgone, removeVertex_of_some live]
    rfl
  -- then its edges
  have hfree : ∀ e ∈ edges, ((G.removeVertex u).adoptVertex u x).edges e.1 = none := by
    intro e he
    obtain ⟨hsome, htouch⟩ := cascade e.1 e.2 he
    rw [hedges, hsome, Option.filter_some_neg]
    have hnot : ¬(e.2.reading.origin ≠ u ∧ e.2.reading.target ≠ u) := fun hc =>
      htouch.elim hc.1 hc.2
    simpa using hnot
  have hlive : ∀ e ∈ edges, (((G.removeVertex u).adoptVertex u x).vertices e.2.origin).isSome ∧
      (((G.removeVertex u).adoptVertex u x).vertices e.2.target).isSome := by
    intro e he
    rw [hvertices]
    exact hclosed e.1 e.2.reading (cascade e.1 e.2 he).1
  obtain ⟨hv, hk, hd⟩ := adoptEdges_eq nodup hfree hlive loops
  ext1
  · rw [hv, hvertices]
  · funext d
    rw [hd d, hedges]
    cases hfind : edges.find? (·.1 == d) with
    | some e =>
      have heq : e.1 = d := by simpa using List.find?_some hfind
      rw [Option.elim_some, ← heq]
      exact (cascade e.1 e.2 (List.mem_of_find?_eq_some hfind)).1.symm
    | none =>
      rw [Option.elim_none]
      cases hy : G.edges d with
      | none => rfl
      | some y =>
        have hout : ¬Touches y u := by
          intro htouch
          obtain ⟨e, he, heq⟩ := List.mem_map.mp (complete d y hy htouch)
          exact List.find?_eq_none.mp hfind e he (by simpa using heq)
        have hkeep : y.origin ≠ u ∧ y.target ≠ u :=
          ⟨fun ho => hout (.inl ho), fun ht => hout (.inr ht)⟩
        rw [Option.filter_some_pos (by simpa using hkeep)]
  · rw [hk, hkeys]

end GraphReading

namespace SchemaReading

variable {S : SchemaReading}

variable {label : LabelId} {name : Bytes} {property : PropNameId}

theorem labelClash_setLabel {entry : Option Bytes} :
    (S.setLabel label entry).LabelClash label name ↔ S.LabelClash label name := by
  refine exists_congr fun other => and_congr_right fun hne => ?_
  simp [setLabel, hne]

theorem typeClash_setType {entry : Option PropertyTypeInfo} :
    (S.setType property entry).TypeClash property name ↔ S.TypeClash property name := by
  refine exists_congr fun other => exists_congr fun info => and_congr_right fun hne => ?_
  simp [setType, hne]

theorem renameLabel_setLabel {old new : Bytes} (live : S.labels label = some old)
    (named : isBlank old = false) (alone : ¬S.LabelClash label old) :
    (S.setLabel label (some new)).renameLabel label old = S := by
  unfold renameLabel
  rw [if_neg]
  · simp only [setLabel, Function.update_idem, ← live, Function.update_eq_self]
  · rintro (hblank | hnone | hclash)
    · simp [named] at hblank
    · simp [setLabel] at hnone
    · exact alone (labelClash_setLabel.mp hclash)

theorem restoreLabel_setLabel (live : S.labels label = some name) (used : label ≠ kNoLabel)
    (named : isBlank name = false) (alone : ¬S.LabelClash label name) :
    (S.setLabel label none).restoreLabel label name = S := by
  unfold restoreLabel
  rw [if_neg]
  · simp only [setLabel, Function.update_idem, ← live, Function.update_eq_self]
  · rintro (hzero | hblank | hsome | hclash)
    · exact used hzero
    · simp [named] at hblank
    · simp [setLabel] at hsome
    · exact alone (labelClash_setLabel.mp hclash)

theorem updatePropertyType_setType {old new : PropertyTypeInfo} (live : S.types property = some old)
    (stored : old.Stored property) (alone : ¬S.TypeClash property old.name) :
    (S.setType property (some new)).updatePropertyType property old = S := by
  have hsame : { canonicalizePropertyType old with nameId := property } = old := by
    rw [stored.canonical, ← stored.filed]
  unfold updatePropertyType
  rw [if_neg]
  · simp only [setType, Function.update_idem, hsame, ← live, Function.update_eq_self]
  · rintro (hblank | hvalid | hnone | hclash)
    · simp [stored.named] at hblank
    · simp [stored.valid, GdiStatus.isError] at hvalid
    · simp [setType] at hnone
    · exact alone (typeClash_setType.mp hclash)

theorem restorePropertyType_setType {info : PropertyTypeInfo} (live : S.types property = some info)
    (used : property ≠ kNoPropName) (stored : info.Stored property)
    (alone : ¬S.TypeClash property info.name) :
    (S.setType property none).restorePropertyType info = S := by
  obtain rfl := stored.filed
  unfold restorePropertyType
  rw [if_neg]
  · simp only [setType, Function.update_idem, ← live, Function.update_eq_self]
  · rintro (hzero | hblank | hsome | hclash)
    · exact used hzero
    · simp [stored.named] at hblank
    · simp [setType] at hsome
    · exact alone (typeClash_setType.mp hclash)

end SchemaReading

/-- The records of an exact move take it back. -/
theorem Move.undo {allowSelf : Bool} {R R' : Reading} {entries : List JournalEntry}
    (h : Move allowSelf true R entries R') (closed : R.graph.Closed) (labelled : R.Labelled) :
    R'.rollback allowSelf entries = R := by
  cases h with
  | insertVertex u x fresh free =>
    exact congrArg (Reading.mk · _) (GraphReading.removeVertex_adoptVertex closed fresh free)
  | removeVertex u v edges live cascade complete nodup named loops =>
    have hrestore : v.1.reading.restore v.1.labels v.1.properties.toPropertyList =
        v.1.reading :=
      VertexReading.restore_eq ⟨rfl, rfl, rfl⟩ (labelled.vertices u _ live)
        (by funext n; exact PropertyBag.find?_ofPropertyList_toPropertyList ..)
    refine congrArg (Reading.mk · _) ?_
    simp only [Reading.mapGraph, hrestore]
    exact GraphReading.adopt_removeVertex closed live cascade complete nodup (named rfl)
      (loops rfl)
  | editVertex u x y properties live copied same =>
    refine congrArg (Reading.mk · _) ?_
    simp only [Reading.mapGraph, GraphReading.setVertex, Function.update_self, Option.map_some,
      VertexReading.restore_eq same (labelled.vertices u x live) copied]
    exact GraphReading.setVertex_setVertex live
  | insertEdge d e fresh =>
    exact congrArg (Reading.mk · _) (GraphReading.setEdge_setEdge fresh)
  | removeEdge record live loops =>
    have hlabels : kNoLabel ∉ record.labels := labelled.edges record.id _ live
    obtain ⟨ho, ht⟩ := closed record.id _ live
    refine congrArg (Reading.mk · _) ?_
    simp only [Reading.mapGraph, Database.reading_restoredEdge hlabels]
    unfold GraphReading.adoptEdge
    rw [if_neg]
    · exact GraphReading.setEdge_setEdge live
    · rintro (⟨hloop, hallow⟩ | hsome | hnone | hnone)
      · rw [loops rfl hloop] at hallow
        cases hallow
      · simp [GraphReading.setEdge] at hsome
      · simp [show R.graph.vertices record.reading.origin = none from hnone] at ho
      · simp [show R.graph.vertices record.reading.target = none from hnone] at ht
  | editEdge record e live =>
    obtain ⟨ho, ht⟩ := closed record.id _ live
    refine congrArg (Reading.mk · _) ?_
    simp only [Reading.mapGraph, GraphReading.restoreEdge, GraphReading.setEdge,
      Function.update_self, Function.update_idem, ho, ht, if_true]
    rw [← live, Function.update_eq_self]
  | createLabel label name fresh =>
    refine congrArg (Reading.mk _) ?_
    simp only [Reading.mapSchema, SchemaReading.setLabel, Function.update_idem, ← fresh,
      Function.update_eq_self]
  | renameLabel label old new live named alone =>
    exact congrArg (Reading.mk _) (SchemaReading.renameLabel_setLabel live named alone)
  | freeLabel label name live used named alone =>
    exact congrArg (Reading.mk _) (SchemaReading.restoreLabel_setLabel live used named alone)
  | createPropertyType property info fresh =>
    refine congrArg (Reading.mk _) ?_
    simp only [Reading.mapSchema, SchemaReading.setType, Function.update_idem, ← fresh,
      Function.update_eq_self]
  | updatePropertyType property old new live stored alone =>
    exact congrArg (Reading.mk _)
      (SchemaReading.updatePropertyType_setType live stored alone)
  | freePropertyType property info live used stored alone =>
    exact congrArg (Reading.mk _)
      (SchemaReading.restorePropertyType_setType live used stored alone)
  | noteVertex u lossy => cases lossy
  | loseVertex u lossy => cases lossy
  | loseLabel u x y live same labels properties lossy => cases lossy
  | loseEdgeLabel d e e' live ends labels properties lossy => cases lossy

namespace Moves

variable {allowSelf strict : Bool} {R R' R'' : Reading} {first later : List JournalEntry}

/-- The records of an exact sequence lead back to its start. -/
theorem rollback (h : Moves allowSelf true R first R') : R'.rollback allowSelf first = R := by
  induction h with
  | nil R => rfl
  | cons closed labelled move rest ih =>
    rw [Reading.rollback_append, ih]
    exact move.undo closed labelled

theorem append (h : Moves allowSelf strict R first R') (h' : Moves allowSelf strict R' later R'') :
    Moves allowSelf strict R (first ++ later) R'' := by
  induction h with
  | nil R => exact h'
  | cons closed labelled move rest ih =>
    rw [List.append_assoc]
    exact .cons closed labelled move (ih h')

theorem single (closed : R.graph.Closed) (labelled : R.Labelled)
    (move : Move allowSelf strict R first R') : Moves allowSelf strict R first R' := by
  simpa using Moves.cons closed labelled move (.nil R')

end Moves

end KimixNative.GraphDb
