import KimixNative.GraphDb.Moves

/-!
# What every command records

`Advance strict db db'` says that the change from one database to the next is a sequence of
moves, exact ones when the flag is set, and that the open transaction grew by the records of
exactly these moves. One lemma per command shows it; the conditions under which a command's
moves are exact are its hypotheses. The journal cap is part of the picture: the strip loops
of the two schema frees go on when a record is refused, so they are exact only while the
whole loop fits.
-/

namespace KimixNative.GraphDb

/-- One transaction has grown into another by these records. -/
structure Transaction.Extends (sizes : EntrySizes) (t : Transaction)
    (entries : List JournalEntry) (t' : Transaction) : Prop where
  journal : t'.journal = t.journal ++ entries
  bytes : t'.journalBytes = t.journalBytes + (entries.map (·.approximateBytes sizes)).sum
  cap : t'.maxJournalBytes = t.maxJournalBytes
  readOnly : t'.readOnly = t.readOnly

/-- What the records do to the transaction slot. -/
def Journaled (sizes : EntrySizes) : Option Transaction → List JournalEntry →
    Option Transaction → Prop
  | none, _, tx' => tx' = none
  | some t, entries, tx' => ∃ t', tx' = some t' ∧ t.Extends sizes entries t'

namespace Journaled

variable {sizes : EntrySizes} {tx tx' tx'' : Option Transaction} {first later : List JournalEntry}

theorem refl (sizes : EntrySizes) (tx : Option Transaction) : Journaled sizes tx [] tx := by
  cases tx with
  | none => rfl
  | some t => exact ⟨t, rfl, by simp, by simp, rfl, rfl⟩

theorem of_some {t' : Transaction} (h : Journaled sizes tx first (some t')) :
    ∃ t, tx = some t ∧ t.Extends sizes first t' := by
  cases tx with
  | none => cases h
  | some t =>
    obtain ⟨_, ⟨⟩, hextends⟩ := h
    exact ⟨t, rfl, hextends⟩

theorem trans (h : Journaled sizes tx first tx') (h' : Journaled sizes tx' later tx'') :
    Journaled sizes tx (first ++ later) tx'' := by
  cases tx with
  | none =>
    obtain rfl : tx' = none := h
    exact h'
  | some t =>
    obtain ⟨t', rfl, hext⟩ := h
    obtain ⟨t'', rfl, hext'⟩ := h'
    refine ⟨t'', rfl, ?_, ?_, hext'.cap.trans hext.cap, hext'.readOnly.trans hext.readOnly⟩
    · rw [hext'.journal, hext.journal, List.append_assoc]
    · rw [hext'.bytes, hext.bytes, List.map_append, List.sum_append]
      omega

end Journaled

namespace Database

/-- Links and registries are in order and no entity carries the reserved label. -/
structure WellFormed (db : Database) : Prop where
  sound : db.Sound
  labelled : db.reading.Labelled

theorem wellFormed_empty (options : GraphOptions) (sizes : EntrySizes) :
    (empty options sizes).WellFormed where
  sound := sound_empty options sizes
  labelled := ⟨fun u x hx => by simp [reading, empty, Graph.empty] at hx,
    fun d e he => by simp [reading, empty, Graph.empty] at he⟩

/-- Both endpoints of a live edge are live. -/
theorem WellFormed.closed {db : Database} (h : db.WellFormed) : db.reading.graph.Closed := by
  intro d e he
  obtain ⟨edge, hedge, rfl⟩ := Graph.edge_of_reading he
  obtain ⟨o, ho⟩ := h.sound.linked.origin_live hedge
  obtain ⟨t, ht⟩ := h.sound.linked.target_live hedge
  constructor
  · simp [reading, Edge.reading, ho]
  · simp [reading, Edge.reading, ht]

/-- Whether so many more bytes stay within the cap of the open transaction, if one is. -/
def hasRoom (db : Database) (bytes : Nat) : Bool :=
  match db.tx with
  | none => true
  | some tx => tx.hasRoom bytes

/-- `push` touches the transaction only, and records when there is room. -/
theorem push_spec (db : Database) (entry : JournalEntry) :
    ∃ tx', db.push entry = ({ db with tx := tx' }, db.hasRoom (entry.approximateBytes db.sizes)) ∧
      Journaled db.sizes db.tx
        (if db.hasRoom (entry.approximateBytes db.sizes) then [entry] else []) tx' := by
  unfold push hasRoom
  cases htx : db.tx with
  | none => exact ⟨none, by simp [← htx], rfl⟩
  | some t =>
    refine ⟨_, congrArg₂ _ rfl (t.push_snd db.sizes entry), _, rfl, ?_⟩
    have hok := t.push_snd db.sizes entry
    change t.Extends db.sizes (if t.hasRoom (entry.approximateBytes db.sizes) then [entry] else []) _
    rw [← hok]
    refine ⟨t.push_journal db.sizes entry, ?_, t.push_maxJournalBytes .., t.push_readOnly ..⟩
    rw [t.push_journalBytes]
    split <;> simp

/-- What one command or one loop turn amounts to. -/
structure Advance (strict : Bool) (db db' : Database) : Prop where
  wellFormed : db'.WellFormed
  options : db'.graph.options = db.graph.options
  sizes : db'.sizes = db.sizes
  recorded : ∃ entries, (∀ entry ∈ entries, entry.Restorable) ∧
    Moves db.graph.options.allowSelfEdges strict db.reading entries db'.reading ∧
    Journaled db.sizes db.tx entries db'.tx

variable {tx' : Option Transaction} {g : Graph}

namespace Advance

variable {strict : Bool} {db db' db'' : Database}

theorem refl (h : db.WellFormed) : Advance strict db db :=
  ⟨h, rfl, rfl, [], by simp, .nil _, .refl ..⟩

theorem trans (h : Advance strict db db') (h' : Advance strict db' db'') :
    Advance strict db db'' := by
  obtain ⟨first, hfirst, hmoves, hjournal⟩ := h.recorded
  obtain ⟨later, hlater, hmoves', hjournal'⟩ := h'.recorded
  refine ⟨h'.wellFormed, h'.options.trans h.options, h'.sizes.trans h.sizes, first ++ later,
    ?_, ?_, ?_⟩
  · intro entry hentry
    exact (List.mem_append.mp hentry).elim (hfirst entry) (hlater entry)
  · rw [h.options] at hmoves'
    exact hmoves.append hmoves'
  · rw [h.sizes] at hjournal'
    exact hjournal.trans hjournal'

/-- A refused record changes nothing a caller can read. -/
theorem pushed (h : db.WellFormed) (hjournal : Journaled db.sizes db.tx [] tx') :
    Advance strict db { db with tx := tx' } :=
  ⟨⟨⟨h.sound.linked, h.sound.schema⟩, h.labelled⟩, rfl, rfl, [], by simp, .nil _, hjournal⟩

variable {entries : List JournalEntry}

/-- One move of the graph with its records. -/
theorem graphMove (h : db.WellFormed) (linked : g.Linked) (options : g.options = db.graph.options)
    (labelled : Reading.Labelled ⟨g.reading, db.schema.reading⟩)
    (restorable : ∀ entry ∈ entries, entry.Restorable)
    (move : Move db.graph.options.allowSelfEdges strict db.reading entries ⟨g.reading,
      db.schema.reading⟩) (hjournal : Journaled db.sizes db.tx entries tx') :
    Advance strict db { db with graph := g, tx := tx' } where
  wellFormed := ⟨⟨linked, h.sound.schema⟩, labelled⟩
  options := options
  sizes := rfl
  recorded := ⟨entries, restorable, .single h.closed h.labelled move, hjournal⟩

/-- One move of the schema with its records. -/
theorem schemaMove (h : db.WellFormed) {s : Schema} (wellFormed : s.WellFormed)
    (restorable : ∀ entry ∈ entries, entry.Restorable)
    (move : Move db.graph.options.allowSelfEdges strict db.reading entries ⟨db.graph.reading,
      s.reading⟩) (hjournal : Journaled db.sizes db.tx entries tx') :
    Advance strict db { db with schema := s, tx := tx' } where
  wellFormed := ⟨⟨h.sound.linked, wellFormed⟩, ⟨h.labelled.vertices, h.labelled.edges⟩⟩
  options := rfl
  sizes := rfl
  recorded := ⟨entries, restorable, .single h.closed h.labelled move, hjournal⟩

/-- A graph that reads the same, with nothing recorded. -/
theorem unread (h : db.WellFormed) (linked : g.Linked) (options : g.options = db.graph.options)
    (hread : g.reading = db.graph.reading) (hjournal : Journaled db.sizes db.tx [] tx') :
    Advance strict db { db with graph := g, tx := tx' } := by
  have hsame : ({ db with graph := g, tx := tx' } : Database).reading = db.reading :=
    congrArg (Reading.mk · _) hread
  refine ⟨⟨⟨linked, h.sound.schema⟩, hsame ▸ h.labelled⟩, options, rfl, [], by simp, ?_, hjournal⟩
  rw [hsame]
  exact .nil _

end Advance

/-! ## Vertices -/

variable {check : GdiStatus}

section Vertices

variable {strict : Bool} {db : Database} (h : db.WellFormed)
include h

omit h in
theorem freeVertex_unguarded (g : Graph) (uid : Guid) :
    (g.freeVertex uid false).1 = (g.removeVertex uid).1 := by
  unfold Graph.freeVertex
  simp only [Bool.false_and, Bool.false_eq_true, if_false]
  split <;> simp_all

variable {minted : Guid} {spec : VertexSpec} {v : Vertex}

omit h in
/-- A published vertex, read back. -/
theorem reading_published (fresh : g.vertices.find? minted = none)
    (free : g.findKey spec.key = none) :
    (g.published spec minted).reading = g.reading.adoptVertex minted spec.toVertex.reading := by
  have hnone : g.reading.vertices minted = none := by simp [fresh]
  rw [GraphReading.adoptVertex_of_none hnone]
  ext1
  · funext w
    simp only [Graph.reading_vertices, Graph.find?_published, GraphReading.setVertex,
      Function.update_apply]
    split <;> rfl
  · funext d
    simp [GraphReading.setVertex]
  · funext k
    rw [Graph.reading_keys]
    unfold Graph.findKey
    rw [g.published_keys]
    by_cases hl : spec.keyLabel = kNoLabel
    · have hkeyed : spec.keyed = false := by simp [VertexSpec.keyed, hl]
      simp [hkeyed, VertexSpec.toVertex, Vertex.reading, hl, Graph.findKey]
    · have hkeyed : spec.keyed = true := by simp [VertexSpec.keyed, hl]
      have hread : spec.toVertex.reading.keyLabel ≠ kNoLabel := hl
      have hkey : g.reading.keys spec.toVertex.reading.key = none := free
      simp only [hkeyed, if_true, if_pos (And.intro hread hkey), Function.update_apply,
        Table.find?_insert]
      by_cases hk : k = spec.key
      · have hlabel : spec.key.label ≠ kNoLabel := hl
        subst hk
        rw [if_neg hlabel, if_pos rfl, if_pos (show spec.key = spec.toVertex.reading.key from rfl)]
      · rw [if_neg hk, if_neg (show k ≠ spec.toVertex.reading.key from hk)]
        rfl

/-- A vertex that is published, recorded when there is room and else taken out again. -/
theorem advance_publish (fresh : db.graph.vertices.find? minted = none)
    (free : db.graph.findKey spec.key = none) {room : Bool}
    (hjournal : Journaled db.sizes db.tx (if room then [.vertexCreated minted] else []) tx') :
    Advance strict db { db with
      graph := if room then db.graph.published spec minted
        else ((db.graph.published spec minted).freeVertex minted false).1
      tx := tx' } := by
  have hlinked : (db.graph.published spec minted).Linked := h.sound.linked.published fresh
  have hread := reading_published fresh free
  have hnone : db.reading.graph.vertices minted = none := by simp [reading, fresh]
  have hkey : spec.toVertex.reading.keyLabel ≠ kNoLabel →
      db.reading.graph.keys spec.toVertex.reading.key = none := fun _ => free
  cases room with
  | true =>
    rw [if_pos rfl] at hjournal ⊢
    refine .graphMove h hlinked (db.graph.published_options spec minted) ?_ ?_ ?_ hjournal
    · rw [hread]
      refine h.labelled.adoptVertex minted ?_
      simp [VertexSpec.toVertex, Vertex.reading]
    · simp [JournalEntry.Restorable]
    · rw [hread]
      exact .insertVertex minted _ hnone hkey
  | false =>
    rw [if_neg Bool.false_ne_true, freeVertex_unguarded]
    refine .unread h (hlinked.removeVertex minted)
      ((Graph.step_options _ (.removeVertex minted)).trans
        (db.graph.published_options spec minted)) ?_ hjournal
    rw [Graph.reading_removeVertex _ hlinked, hread]
    exact GraphReading.removeVertex_adoptVertex h.closed hnone hkey

omit h in
/-- Whether a create gets as far as the warning about a taken key. -/
def warnsOfTaken (db : Database) (key : VertexKey) (labels : List LabelId)
    (properties : PropertyList) : Bool :=
  !(db.validateKey key).isError && !(db.validateLabels labels).isError &&
    !(db.validateProperties properties).isError &&
    decide (db.graph.options.keyMode = .reportWarning) && (db.graph.findKey key).isSome

theorem advance_createVertex {key : VertexKey} {labels : List LabelId} {properties : PropertyList}
    (minted : Guid) (ok : strict = true → db.warnsOfTaken key labels properties = false) :
    Advance strict db (db.createVertex key labels properties minted).1 := by
  unfold createVertex
  split
  · exact .refl h
  split
  · exact .refl h
  next hkey =>
  split
  · exact .refl h
  next hlabels =>
  split
  · exact .refl h
  next hproperties =>
  obtain ⟨status, heq, -⟩ | ⟨existing, heq, hmode, hfind⟩ | ⟨heq, fresh, free⟩ :=
    db.graph.createVertex_cases (vertexSpec key labels properties) minted
  · rw [heq]
    exact .refl h
  · -- the warning names a vertex that was there before
    have hwarns : db.warnsOfTaken key labels properties = true := by
      have hfind' : db.graph.findKey key = some existing := hfind
      simp [warnsOfTaken, hkey, hlabels, hproperties, hmode, hfind']
    have hlossy : strict = false := by
      cases strict with
      | false => rfl
      | true => rw [ok rfl] at hwarns; cases hwarns
    rw [heq]
    obtain ⟨tx', hpush, hjournal⟩ := db.push_spec (.vertexCreated existing)
    simp only [hpush]
    split
    · next hroom =>
        rw [if_pos hroom] at hjournal
        exact .graphMove h h.sound.linked rfl h.labelled (by simp [JournalEntry.Restorable])
          (.noteVertex existing hlossy) hjournal
    · next hroom =>
        rw [if_neg hroom] at hjournal
        simp only [freeVertex_unguarded]
        refine .graphMove h (h.sound.linked.removeVertex existing)
          (db.graph.step_options (.removeVertex existing)) ?_ (by simp) ?_ hjournal
        · rw [db.graph.reading_removeVertex h.sound.linked]
          exact h.labelled.removeVertex existing
        · rw [db.graph.reading_removeVertex h.sound.linked]
          exact .loseVertex existing hlossy
  · rw [heq]
    obtain ⟨tx', hpush, hjournal⟩ := ({ db with
      graph := db.graph.published (vertexSpec key labels properties) minted } :
        Database).push_spec (.vertexCreated minted)
    simp only [hpush]
    have hadvance : Advance strict db _ := advance_publish h fresh free hjournal
    split
    · next hroom => simpa only [hroom, if_true] using hadvance
    · next hroom => simpa only [hroom, Bool.false_eq_true, if_false] using hadvance

theorem advance_getOrCreateVertex (key : VertexKey) (labels : List LabelId)
    (properties : PropertyList) (minted : Guid) :
    Advance strict db (db.getOrCreateVertex key labels properties minted).1 := by
  unfold getOrCreateVertex
  split
  · exact .refl h
  split
  · exact .refl h
  obtain ⟨status, out, heq⟩ | ⟨heq, fresh, free⟩ :=
    db.graph.getOrCreateVertex_cases (vertexSpec key labels properties) minted
  · rw [heq]
    cases out <;> exact .refl h
  · rw [heq]
    obtain ⟨tx', hpush, hjournal⟩ := ({ db with
      graph := db.graph.published (vertexSpec key labels properties) minted } :
        Database).push_spec (.vertexCreated minted)
    simp only [hpush]
    have hadvance : Advance strict db _ := advance_publish h fresh free hjournal
    split
    · next hroom => simpa only [hroom, if_true] using hadvance
    · next hroom => simpa only [hroom, Bool.false_eq_true, if_false] using hadvance

variable {uid : Guid} {edit : VertexEdit}

omit h in
/-- What a removal hands out: the vertex without links, and its incident edges. -/
theorem removeVertex_record (hlinked : g.Linked) {victim : Vertex}
    (hv : g.vertices.find? uid = some victim) :
    ∃ edges, (g.removeVertex uid).2 = some (⟨victim.clearLinks, rfl, rfl⟩, edges) ∧
      (∀ d e, (d, e) ∈ edges ↔
        g.edges.find? d = some e ∧ (e.origin = uid ∨ e.target = uid)) ∧
      (edges.map Prod.fst).Nodup := by
  refine ⟨_, Graph.removeVertex_snd hv, fun d e => ?_, Graph.nodup_eraseCascade ..⟩
  rw [Graph.mem_eraseCascade, hlinked.mem_cascadeOf hv]
  constructor
  · rintro ⟨⟨e', he', hends⟩, he⟩
    have hfind : g.edges.find? d = some e := he
    rw [hfind] at he'
    cases he'
    exact ⟨hfind, hends⟩
  · rintro ⟨he, hends⟩
    exact ⟨⟨e, he, hends⟩, he⟩

omit h in
/-- The record a removal would leave. -/
def removalRecord (db : Database) (uid : Guid) : Option JournalEntry :=
  (db.graph.removeVertex uid).2.map fun (removed, removedEdges) =>
    .vertexRemoved uid removed.1.labels removed.1.properties.toPropertyList removed removedEdges

omit h in
/-- The removal of a live vertex can be recorded and taken back: there is room, the key
lookup names the vertex, and a self loop on it may be adopted again. -/
def RemovalReversible (db : Database) (uid : Guid) : Prop :=
  (∀ entry ∈ db.removalRecord uid, db.hasRoom (entry.approximateBytes db.sizes) = true) ∧
    (∀ v ∈ db.graph.vertices.find? uid, v.hasKey = true → db.graph.findKey v.key = some uid) ∧
    (db.graph.options.allowSelfEdges = true ∨
      ∀ e ∈ db.graph.edges.toList, ¬(e.2.origin = uid ∧ e.2.target = uid))

theorem advance_freeVertex (uid : Guid) (ok : strict = true → db.RemovalReversible uid) :
    Advance strict db (db.freeVertex uid).1 := by
  unfold freeVertex
  split
  · exact .refl h
  cases hv : db.graph.vertices.find? uid with
  | none =>
    rw [Graph.removeVertex_of_none hv]
    exact .refl h
  | some victim =>
    obtain ⟨edges, hsnd, hedges, hnodup⟩ := removeVertex_record h.sound.linked hv
    have hpair : db.graph.removeVertex uid =
        ((db.graph.removeVertex uid).1, some (⟨victim.clearLinks, rfl, rfl⟩, edges)) :=
      Prod.ext rfl hsnd
    have hrecord : db.removalRecord uid = some (.vertexRemoved uid victim.labels
        victim.properties.toPropertyList ⟨victim.clearLinks, rfl, rfl⟩ edges) := by
      unfold removalRecord
      rw [hsnd]
      rfl
    have hread := db.graph.reading_removeVertex h.sound.linked uid
    rw [hpair]
    obtain ⟨tx', hpush, hjournal⟩ := ({ db with graph := (db.graph.removeVertex uid).1 } :
      Database).push_spec (.vertexRemoved uid victim.clearLinks.labels
        victim.clearLinks.properties.toPropertyList ⟨victim.clearLinks, rfl, rfl⟩ edges)
    simp only [hpush]
    have hlabelled : Reading.Labelled
        ⟨(db.graph.removeVertex uid).1.reading, db.schema.reading⟩ := by
      rw [hread]
      exact h.labelled.removeVertex uid
    refine .graphMove h (h.sound.linked.removeVertex uid)
      (db.graph.step_options (.removeVertex uid)) hlabelled ?_ ?_ hjournal
    · intro entry hentry
      split at hentry
      · rw [List.mem_singleton] at hentry
        subst hentry
        intro e he
        refine h.labelled.edges e.1 e.2.reading ?_
        simp [reading, ((hedges e.1 e.2).mp he).1]
      · cases hentry
    · rw [hread]
      split
      · refine .removeVertex uid ⟨victim.clearLinks, rfl, rfl⟩ edges ?_ ?_ ?_ hnodup ?_ ?_
        · simp [reading, hv]
        · intro d e he
          obtain ⟨hfind, hends⟩ := (hedges d e).mp he
          exact ⟨by simp [reading, hfind], hends⟩
        · intro d x hx htouch
          obtain ⟨e, he, rfl⟩ := Graph.edge_of_reading hx
          exact List.mem_map.mpr ⟨(d, e), (hedges d e).mpr ⟨he, htouch⟩, rfl⟩
        · intro hstrict hlabel
          refine (ok hstrict).2.1 victim hv ?_
          have hl : victim.keyLabel ≠ kNoLabel := hlabel
          simpa [Vertex.hasKey] using hl
        · intro hstrict e he hloop
          obtain ⟨hfind, hends⟩ := (hedges e.1 e.2).mp he
          refine (ok hstrict).2.2.resolve_right fun hnone => ?_
          refine hnone e (Table.mem_toList.mpr hfind) ?_
          rcases hends with ho | ht
          · exact ⟨ho, hloop ▸ ho⟩
          · exact ⟨hloop.trans ht, ht⟩
      · next hroom =>
          refine .loseVertex uid ?_
          cases strict with
          | false => rfl
          | true => exact absurd ((ok rfl).1 _ (by rw [hrecord]; rfl)) hroom

theorem advance_freeVertexGuarded (uid : Guid)
    (ok : strict = true → db.graph.hasIncidentEdges uid .both = false →
      db.RemovalReversible uid) :
    Advance strict db (db.freeVertexGuarded uid).1 := by
  unfold freeVertexGuarded
  split
  · exact .refl h
  split
  · exact .refl h
  split
  · exact .refl h
  next hincident =>
  exact advance_freeVertex h uid fun hstrict => ok hstrict (by simpa using hincident)

omit h in
theorem reading_editVertex (hv : g.vertices.find? uid = some v) (f : Vertex → Vertex) :
    (g.updateVertex uid f).reading = g.reading.setVertex uid (some (f v).reading) := by
  rw [g.reading_updateVertex, hv, Option.map_some]

omit h in
/-- The record of a vertex's payload, and an edit that keeps its identity. -/
theorem move_editVertex (hv : db.graph.vertices.find? uid = some v)
    (hcontent : ∀ content, edit ≠ .setContent content) :
    Move db.graph.options.allowSelfEdges strict db.reading
      [.vertexPayload uid v.labels v.properties.toPropertyList]
      ⟨(db.graph.updateVertex uid edit.apply).reading, db.schema.reading⟩ := by
  rw [reading_editVertex hv]
  refine .editVertex uid v.reading _ v.properties.toPropertyList ?_ ?_
    (edit.sameVertex_apply v hcontent)
  · simp [reading, hv]
  · funext n
    exact PropertyBag.find?_ofPropertyList_toPropertyList ..

theorem labelled_editVertex (hv : db.graph.vertices.find? uid = some v)
    (hnew : kNoLabel ∉ edit.newLabels) :
    Reading.Labelled ⟨(db.graph.updateVertex uid edit.apply).reading, db.schema.reading⟩ := by
  rw [reading_editVertex hv]
  refine h.labelled.setVertex uid (x := some _) ?_
  rintro y ⟨⟩ hmem
  have hold : kNoLabel ∉ v.labels := h.labelled.vertices uid v.reading (by simp [reading, hv])
  exact (edit.labels_apply v hmem).elim hold hnew

/-- The six payload commands of a vertex. -/
theorem advance_editVertex (uid : Guid) (answer : Vertex → GdiStatus)
    (hcontent : ∀ content, edit ≠ .setContent content)
    (hnew : check.isError = false → kNoLabel ∉ edit.newLabels) :
    Advance strict db (db.editVertex uid check edit answer).1 := by
  unfold editVertex
  split
  · exact .refl h
  cases hv : db.graph.vertices.find? uid with
  | none => exact .refl h
  | some v =>
    simp only
    split
    · exact .refl h
    next hcheck =>
    obtain ⟨tx', hpush, hjournal⟩ :=
      db.push_spec (.vertexPayload uid v.labels v.properties.toPropertyList)
    simp only [hpush]
    split
    · next hroom =>
        rw [if_pos hroom] at hjournal
        exact .graphMove h
          (h.sound.linked.updateVertex uid fun w =>
            ⟨(edit.apply_frame w).1, (edit.apply_frame w).2.1⟩)
          (db.graph.updateVertex_options uid _)
          (labelled_editVertex h hv (hnew (by simpa using hcheck)))
          (by simp [JournalEntry.Restorable]) (move_editVertex hv hcontent) hjournal
    · next hroom =>
        rw [if_neg hroom] at hjournal
        exact .pushed h hjournal

end Vertices

/-! ## Edges -/

section Edges

variable {strict : Bool} {db : Database} (h : db.WellFormed)
include h

omit h in
/-- A created edge, read back. -/
theorem reading_edgeCreate (g : Graph) (o t : Guid) (direction : Byte) (labels : List LabelId)
    (properties : PropertyList) (chosenUid : Option Guid) (minted : Guid) :
    (∃ status, g.edgeCreate o t direction labels properties chosenUid minted = (g, status, none) ∧
      status.isError = true) ∨
    ∃ g' d e, g.edgeCreate o t direction labels properties chosenUid minted = (g', .ok, some d) ∧
      g.edges.find? d = none ∧ kNoLabel ∉ e.labels ∧ e.labels = labels ∧
      e.properties = (PropertyBag.ofPropertyList properties).find? ∧
      g'.reading = g.reading.setEdge d (some e) := by
  obtain ⟨status, heq, herr⟩ | ⟨d, -, hdoor⟩ :=
    g.edgeCreate_fst o t direction labels properties chosenUid minted
  · exact .inl ⟨status, heq, herr⟩
  rw [hdoor]
  obtain ⟨status, heq, herr⟩ | ⟨v, -, -, -, -, hfree, hlabels, heq⟩ :=
    g.createEdgeLocked_cases o t d labels properties true chosenUid minted
  · exact .inl ⟨status, heq, herr⟩
  refine .inr ⟨_, _, Edge.reading ⟨o, t, d, labels, PropertyBag.ofPropertyList properties, true, 1⟩,
    heq, hfree, hlabels, rfl, rfl, ?_⟩
  rw [Graph.reading_linkEdge]
  split
  · rw [Graph.reading_restoreRemovedEdge, Graph.reading_insertEdge]
  · rw [Graph.reading_insertEdge]

theorem advance_edgeCreate (o t : Guid) (direction : Byte) (labels : List LabelId)
    (properties : PropertyList) (chosenUid : Option Guid) (minted : Guid) :
    Advance strict db
      (db.edgeCreate o t direction labels properties chosenUid minted).1 := by
  unfold edgeCreate
  split
  · exact .refl h
  split
  · exact .refl h
  split
  · exact .refl h
  have hlinked : (db.graph.edgeCreate o t direction labels properties chosenUid minted).1.Linked :=
    h.sound.linked.step (.edgeCreate o t direction labels properties chosenUid minted)
  have hoptions :=
    db.graph.step_options (.edgeCreate o t direction labels properties chosenUid minted)
  simp only [Graph.step] at hoptions
  obtain ⟨status, heq, -⟩ | ⟨g', d, e, heq, hfree, hlabels, -, -, hread⟩ :=
    reading_edgeCreate db.graph o t direction labels properties chosenUid minted
  · rw [heq]
    exact .refl h
  rw [heq] at hlinked hoptions ⊢
  have hnone : db.reading.graph.edges d = none := by simp [reading, hfree]
  obtain ⟨tx', hpush, hjournal⟩ := ({ db with graph := g' } : Database).push_spec (.edgeCreated d)
  simp only [hpush]
  split
  · next hroom =>
      rw [if_pos hroom] at hjournal
      refine .graphMove h hlinked hoptions ?_ (by simp [JournalEntry.Restorable]) ?_ hjournal
      · rw [hread]
        exact h.labelled.setEdge d (e := some e) (by rintro y ⟨⟩; exact hlabels)
      · rw [hread]
        exact .insertEdge d e hnone
  · next hroom =>
      rw [if_neg hroom] at hjournal
      refine .unread h (hlinked.step (.edgeFree d)) ((g'.step_options (.edgeFree d)).trans hoptions) ?_
        hjournal
      rw [Graph.reading_edgeFree, hread]
      exact GraphReading.setEdge_setEdge hnone

omit h in
theorem reading_record (e : Edge) (d : Guid) : (e.record d).reading = e.reading := by
  ext1
  · rfl
  · rfl
  · rfl
  · rfl
  · funext n
    exact PropertyBag.find?_ofPropertyList_toPropertyList ..

variable {edge : Guid} {op : Graph → Graph × GdiStatus}

/-- The shape of every command on a live edge: what the operation does to the reading has to
be the recorded move. -/
theorem advance_changeEdge (check : GdiStatus) {entry : EdgeRecord → JournalEntry}
    (hlinked : (op db.graph).1.Linked) (hoptions : (op db.graph).1.options = db.graph.options)
    (hmissing : db.graph.edges.find? edge = none → (op db.graph).1.reading = db.graph.reading)
    (hlive : ∀ e, db.graph.edges.find? edge = some e → check.isError = false → (entry (e.record
      edge)).Restorable ∧ Reading.Labelled ⟨(op db.graph).1.reading, db.schema.reading⟩ ∧
      (db.hasRoom ((entry (e.record edge)).approximateBytes db.sizes) = true → Move
      db.graph.options.allowSelfEdges strict db.reading [entry (e.record edge)] ⟨(op
      db.graph).1.reading, db.schema.reading⟩)) :
    Advance strict db (db.changeEdge edge check entry op).1 := by
  unfold changeEdge
  split
  · exact .refl h
  split
  · exact .refl h
  next hcheck =>
  have hcheck' : check.isError = false := by simpa using hcheck
  cases htx : db.tx with
  | none =>
    simp only
    have hjournal : ∀ entries, Journaled db.sizes db.tx entries none := by
      intro entries
      rw [htx]
      rfl
    cases he : db.graph.edges.find? edge with
    | none => exact .unread h hlinked hoptions (hmissing he) (hjournal [])
    | some e =>
      obtain ⟨hrestorable, hlabelled, hmove⟩ := hlive e he hcheck'
      refine .graphMove h hlinked hoptions hlabelled ?_ (hmove ?_) (hjournal _)
      · simpa using hrestorable
      · simp [hasRoom, htx]
  | some tx =>
    cases he : db.graph.edges.find? edge with
    | none => exact .refl h
    | some e =>
      obtain ⟨hrestorable, hlabelled, hmove⟩ := hlive e he hcheck'
      obtain ⟨tx', hpush, hjournal⟩ := db.push_spec (entry (e.record edge))
      simp only [hpush]
      split
      · next hroom =>
          rw [if_pos hroom] at hjournal
          exact .graphMove h hlinked hoptions hlabelled (by simpa using hrestorable)
            (hmove hroom) hjournal
      · next hroom =>
          rw [if_neg hroom] at hjournal
          exact .pushed h hjournal

/-- A self loop is freed only under a policy that takes it back. -/
def LoopReversible (db : Database) (edge : Guid) : Prop :=
  ∀ e ∈ db.graph.edges.find? edge, e.origin = e.target →
    db.hasRoom ((JournalEntry.edgeRemoved (e.record edge)).approximateBytes db.sizes) = true →
    db.graph.options.allowSelfEdges = true

theorem advance_edgeFree (edge : Guid) (ok : strict = true → db.LoopReversible edge) :
    Advance strict db (db.edgeFree edge).1 := by
  refine advance_changeEdge h .ok (h.sound.linked.step (.edgeFree edge))
    (db.graph.step_options (.edgeFree edge)) ?_ ?_
  · intro he
    rw [db.graph.reading_edgeFree]
    have hnone : db.graph.reading.edges edge = none := by simp [he]
    simp only [GraphReading.setEdge, ← hnone, Function.update_eq_self]
  · intro e he _
    refine ⟨trivial, ?_, fun hroom => ?_⟩
    · rw [db.graph.reading_edgeFree]
      exact h.labelled.setEdge edge (by simp)
    · rw [db.graph.reading_edgeFree]
      refine .removeEdge (e.record edge) ?_ fun hstrict hloop => ok hstrict e he hloop hroom
      rw [reading_record]
      exact congrArg (Option.map Edge.reading) he

/-- The commands that change a live edge in place. -/
theorem advance_setEdge (check : GdiStatus) (hlinked : (op db.graph).1.Linked)
    (hoptions : (op db.graph).1.options = db.graph.options)
    (hmissing : db.graph.edges.find? edge = none → (op db.graph).1.reading = db.graph.reading)
    (hlive : ∀ e, db.graph.edges.find? edge = some e → check.isError = false → ∃ x : EdgeReading,
      kNoLabel ∉ x.labels ∧ (op db.graph).1.reading = db.graph.reading.setEdge edge (some x)) :
    Advance strict db (db.changeEdge edge check .edgeState op).1 := by
  refine advance_changeEdge h check hlinked hoptions hmissing fun e he hcheck => ?_
  obtain ⟨x, hx, hread⟩ := hlive e he hcheck
  have hsome : db.reading.graph.edges edge = some e.reading :=
    congrArg (Option.map Edge.reading) he
  refine ⟨h.labelled.edges edge e.reading hsome, ?_, fun _ => ?_⟩
  · rw [hread]
    exact h.labelled.setEdge edge (e := some x) (by rintro y ⟨⟩; exact hx)
  · rw [hread]
    refine .editEdge (e.record edge) x ?_
    rw [reading_record]
    exact hsome

/-- Both endpoint setters. -/
theorem advance_moveEdgeEndpoint (edge endpoint : Guid) (moveOrigin : Bool) :
    Advance strict db
      (db.changeEdge edge .ok .edgeState (·.moveEdgeEndpoint edge endpoint moveOrigin)).1 := by
  refine advance_setEdge h .ok (h.sound.linked.moveEdgeEndpoint ..)
    (db.graph.moveEdgeEndpoint_options ..) ?_ ?_
  · intro he
    simp [Graph.moveEdgeEndpoint, he]
  · intro e he _
    have hsome : db.graph.reading.edges edge = some e.reading := by simp [he]
    have hlabels := h.labelled.edges edge e.reading hsome
    rw [Graph.reading_moveEdgeEndpoint h.sound.linked hsome]
    split
    · refine ⟨_, ?_, rfl⟩
      exact hlabels
    · refine ⟨e.reading, hlabels, ?_⟩
      simp only [GraphReading.setEdge, ← hsome, Function.update_eq_self]

omit h in
/-- A payload edit on a live edge, read back. -/
theorem reading_perform {e : Edge} (edit : EdgeEdit) (he : g.edges.find? edge = some e) :
    ∃ x : EdgeReading, x.origin = e.origin ∧ x.target = e.target ∧
      (∀ l ∈ x.labels, l ∈ e.labels ∨ l ∈ edit.newLabels ∧ l ≠ kNoLabel) ∧
      (∀ n value, x.properties n = some value →
        e.properties.find? n = some value ∨ (n, value) ∈ edit.newProperties) ∧
      (edit.perform g edge).1.reading = g.reading.setEdge edge (some x) := by
  have hsome : g.reading.edges edge = some e.reading := by simp [he]
  obtain ⟨status, heq⟩ | ⟨e₀, e', hfind, hresult, -, heq⟩ := edit.perform_result g edge
  · refine ⟨e.reading, rfl, rfl, fun l hl => .inl hl, fun n value hn => .inl hn, ?_⟩
    rw [heq]
    simp only [GraphReading.setEdge, ← hsome, Function.update_eq_self]
  · rw [he] at hfind
    cases hfind
    refine ⟨e'.reading, hresult.origin, hresult.target, hresult.labels, hresult.properties, ?_⟩
    rw [heq, Graph.reading_updateEdge, he]
    rfl

/-- The payload commands of an edge. -/
theorem advance_editEdge (edge : Guid) (edit : EdgeEdit) :
    Advance strict db (db.changeEdge edge check .edgeState (EdgeEdit.perform · edge edit)).1 := by
  refine advance_setEdge h check (h.sound.linked.step (.editEdge edge edit))
    (db.graph.step_options (.editEdge edge edit)) ?_ ?_
  · intro he
    obtain ⟨status, heq⟩ | ⟨e, e', hfind, -, -⟩ := edit.perform_result db.graph edge
    · rw [heq]
    · rw [he] at hfind
      cases hfind
  · intro e he _
    have hsome : db.graph.reading.edges edge = some e.reading := by simp [he]
    have hlabels := h.labelled.edges edge e.reading hsome
    obtain ⟨x, -, -, hlabelsx, -, hread⟩ := reading_perform edit he
    refine ⟨x, fun hmem => ?_, hread⟩
    exact (hlabelsx _ hmem).elim hlabels fun hnew => hnew.2 rfl

end Edges

end Database

end KimixNative.GraphDb
