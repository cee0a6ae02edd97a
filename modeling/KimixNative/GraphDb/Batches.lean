import KimixNative.GraphDb.Refusal

/-!
# Failed batches

`create_vertices_bulk` promises all or nothing. When a row fails it rolls back the open
journal, which holds the records of the batch behind the records of the caller, and a row
that only warned left a record of a vertex it did not create. `create_edges_bulk` takes
nothing back. The results say exactly when a failed batch leaves the database, and the
caller's journal, as they were.

While no row warns about a vertex that was there before, what the batch has done is `Grown`:
some guids that were free may hold vertices now, with keys that were free, and nothing else
has changed. Removing these guids leads back.
-/

namespace KimixNative.GraphDb

/-- Nothing but vertices under once free guids, and their once free keys, was added. -/
structure Grown (R₀ : Reading) (added : List Guid) (R : Reading) : Prop where
  schema : R.schema = R₀.schema
  edges : R.graph.edges = R₀.graph.edges
  new : ∀ u ∈ added, R₀.graph.vertices u = none
  old : ∀ u, u ∉ added → R.graph.vertices u = R₀.graph.vertices u
  free : ∀ u ∈ added, ∀ x, R.graph.vertices u = some x → x.keyLabel ≠ kNoLabel →
    R₀.graph.keys x.key = none
  keys : ∀ k, R.graph.keys k = R₀.graph.keys k ∨ ∃ u ∈ added, ∃ x,
    R.graph.vertices u = some x ∧ x.keyLabel ≠ kNoLabel ∧ x.key = k ∧ R.graph.keys k = some u

namespace Grown

variable {R₀ R : Reading} {added : List Guid}

theorem refl (R₀ : Reading) : Grown R₀ [] R₀ where
  schema := rfl
  edges := rfl
  new := by simp
  old := fun _ _ => rfl
  free := by simp
  keys := fun _ => .inl rfl

variable (h : Grown R₀ added R)
include h

variable {u : Guid}

/-- A key that was taken keeps its vertex. -/
theorem key_old {k : VertexKey} (hk : R₀.graph.keys k = some u) : R.graph.keys k = some u := by
  obtain hsame | ⟨w, hw, x, hx, hlabel, rfl, -⟩ := h.keys k
  · rw [hsame, hk]
  · rw [h.free w hw x hx hlabel] at hk
    cases hk

/-- A key that names a vertex from before was taken before. -/
theorem key_of_live {k : VertexKey} (hk : R.graph.keys k = some u) (hu : R₀.graph.vertices u ≠ none) :
    R₀.graph.keys k = some u := by
  obtain hsame | ⟨w, hw, x, -, -, -, hkw⟩ := h.keys k
  · rw [← hsame, hk]
  · rw [hk] at hkw
    cases hkw
    exact absurd (h.new u hw) hu

/-- A guid that was free may be listed without being taken. -/
theorem note (hu : R₀.graph.vertices u = none) : Grown R₀ (added ++ [u]) R where
  schema := h.schema
  edges := h.edges
  new := by
    intro w hw
    rcases List.mem_append.mp hw with hw | hw
    · exact h.new w hw
    · rw [List.mem_singleton.mp hw]
      exact hu
  old := fun w hw => h.old w fun hmem => hw (List.mem_append_left _ hmem)
  free := by
    intro w hw x hx hlabel
    by_cases hmem : w ∈ added
    · exact h.free w hmem x hx hlabel
    · rcases List.mem_append.mp hw with hw | hw
      · exact absurd hw hmem
      · rw [h.old w hmem, List.mem_singleton.mp hw, hu] at hx
        cases hx
  keys := fun k => (h.keys k).imp_right fun ⟨w, hw, hrest⟩ => ⟨w, List.mem_append_left _ hw, hrest⟩

/-- A vertex is created under a free guid and a free key. -/
theorem adopt {x : VertexReading} (fresh : R.graph.vertices u = none)
    (free : x.keyLabel ≠ kNoLabel → R.graph.keys x.key = none) :
    Grown R₀ (added ++ [u]) (R.mapGraph (·.adoptVertex u x)) := by
  have hu : R₀.graph.vertices u = none := by
    by_cases hmem : u ∈ added
    · exact h.new u hmem
    · rw [← h.old u hmem, fresh]
  have hfree : x.keyLabel ≠ kNoLabel → R₀.graph.keys x.key = none := by
    intro hlabel
    cases hk : R₀.graph.keys x.key with
    | none => rfl
    | some w =>
      have hkey := h.key_old hk
      rw [free hlabel] at hkey
      cases hkey
  have hnote := h.note hu
  simp only [Reading.mapGraph, GraphReading.adoptVertex_of_none fresh]
  constructor
  · exact h.schema
  · exact h.edges
  · exact hnote.new
  · intro w hw
    have hne : w ≠ u := fun heq => hw (by simp [heq])
    simp only [GraphReading.setVertex, Function.update_of_ne hne]
    exact hnote.old w hw
  · intro w hw y hy hlabel
    simp only [GraphReading.setVertex, Function.update_apply] at hy
    split at hy
    · cases hy
      exact hfree hlabel
    · exact hnote.free w hw y hy hlabel
  · intro k
    by_cases hlabel : x.keyLabel = kNoLabel
    · simp only [hlabel, ne_eq, not_true_eq_false, false_and, if_false]
      obtain hsame | ⟨w, hw, y, hy, hrest⟩ := hnote.keys k
      · exact .inl hsame
      · refine .inr ⟨w, hw, y, ?_, hrest⟩
        have hne : w ≠ u := fun heq => by rw [heq, fresh] at hy; cases hy
        simpa [GraphReading.setVertex, hne] using hy
    · rw [if_pos ⟨hlabel, free hlabel⟩]
      by_cases hk : k = x.key
      · exact .inr ⟨u, by simp, x, by simp [GraphReading.setVertex], hlabel, hk.symm, by simp [hk]⟩
      · obtain hsame | ⟨w, hw, y, hy, hlabel', hkey, hkw⟩ := hnote.keys k
        · exact .inl (by simp only [Function.update_of_ne hk, hsame])
        · refine .inr ⟨w, hw, y, ?_, hlabel', hkey, by simp only [Function.update_of_ne hk, hkw]⟩
          have hne : w ≠ u := fun heq => by rw [heq, fresh] at hy; cases hy
          simpa [GraphReading.setVertex, hne] using hy

/-- Removing a listed guid keeps what was there before. -/
theorem remove (closed : R₀.graph.Closed) (hu : u ∈ added) :
    Grown R₀ added (R.mapGraph (·.removeVertex u)) := by
  cases hx : R.graph.vertices u with
  | none =>
    have hsame : R.mapGraph (·.removeVertex u) = R := by
      simp only [Reading.mapGraph, GraphReading.removeVertex, hx]
    rw [hsame]
    exact h
  | some x =>
    simp only [Reading.mapGraph, GraphReading.removeVertex_of_some hx]
    constructor
    · exact h.schema
    · funext d
      simp only [h.edges]
      cases hd : R₀.graph.edges d with
      | none => rfl
      | some e =>
        obtain ⟨ho, ht⟩ := closed d e hd
        have hkeep : e.origin ≠ u ∧ e.target ≠ u := by
          constructor
          · rintro rfl
            simp [h.new _ hu] at ho
          · rintro rfl
            simp [h.new _ hu] at ht
        rw [Option.filter_some_pos (by simpa using hkeep)]
    · exact h.new
    · intro w hw
      have hne : w ≠ u := fun heq => hw (heq ▸ hu)
      simp only [Function.update_of_ne hne]
      exact h.old w hw
    · intro w hw y hy hlabel
      simp only [Function.update_apply] at hy
      split at hy
      · cases hy
      · exact h.free w hw y hy hlabel
    · intro k
      by_cases hlabel : x.keyLabel = kNoLabel
      · rw [if_neg (not_not.mpr hlabel)]
        obtain hsame | ⟨w, hw, y, hy, hlabel', hrest⟩ := h.keys k
        · exact .inl hsame
        · refine .inr ⟨w, hw, y, ?_, hlabel', hrest⟩
          have hne : w ≠ u := by
            rintro rfl
            rw [hx] at hy
            cases hy
            exact hlabel' hlabel
          simpa only [Function.update_of_ne hne] using hy
      · rw [if_pos hlabel]
        by_cases hk : k = x.key
        · subst hk
          exact .inl (by simp only [Function.update_self, h.free u hu x hx hlabel])
        · obtain hsame | ⟨w, hw, y, hy, hlabel', hkey, hkw⟩ := h.keys k
          · exact .inl (by simp only [Function.update_of_ne hk, hsame])
          · refine .inr ⟨w, hw, y, ?_, hlabel', hkey,
              by simp only [Function.update_of_ne hk, hkw]⟩
            have hne : w ≠ u := by
              rintro rfl
              rw [hx] at hy
              cases hy
              exact hk hkey.symm
            simpa only [Function.update_of_ne hne] using hy

omit h in
/-- A rollback of creations never brings a vertex in, and takes each listed one out. -/
theorem rollback_vertices (allowSelf : Bool) (R : Reading) (created : List Guid) (u : Guid) :
    (u ∈ created ∨ R.graph.vertices u = none →
      (R.rollback allowSelf (created.map .vertexCreated)).graph.vertices u = none) := by
  have hremove : ∀ (R : Reading) w, u = w ∨ R.graph.vertices u = none →
      (R.mapGraph (·.removeVertex w)).graph.vertices u = none := by
    intro R w hor
    cases hx : R.graph.vertices w with
    | none =>
      simp only [Reading.mapGraph, GraphReading.removeVertex, hx]
      exact hor.elim (fun heq => heq ▸ hx) id
    | some x =>
      simp only [Reading.mapGraph, GraphReading.removeVertex_of_some hx, Function.update_apply]
      split
      · rfl
      · next hne => exact hor.resolve_left hne
  induction created using List.reverseRecOn generalizing R with
  | nil => exact fun hor => hor.resolve_left (by simp)
  | append_singleton rest w ih =>
    intro hor
    rw [List.map_append, Reading.rollback_append]
    refine ih _ ?_
    rcases hor with hmem | hnone
    · rcases List.mem_append.mp hmem with hmem | hmem
      · exact .inl hmem
      · exact .inr (hremove R w (.inl (List.mem_singleton.mp hmem)))
    · exact .inr (hremove R w (.inr hnone))

/-- Rolling the creations back leads to what was there before. -/
theorem rollback_eq (closed : R₀.graph.Closed) (allowSelf : Bool) :
    R.rollback allowSelf (added.map .vertexCreated) = R₀ := by
  have hgrown : ∀ created : List Guid, (∀ u ∈ created, u ∈ added) → ∀ R, Grown R₀ added R →
      Grown R₀ added (R.rollback allowSelf (created.map .vertexCreated)) := by
    intro created
    induction created using List.reverseRecOn with
    | nil => exact fun _ R hR => hR
    | append_singleton rest w ih =>
      intro hsub R hR
      rw [List.map_append, Reading.rollback_append]
      exact ih (fun u hu => hsub u (by simp [hu])) _ (hR.remove closed (hsub w (by simp)))
  have hend := hgrown added (fun _ hu => hu) R h
  have hgone : ∀ u ∈ added,
      (R.rollback allowSelf (added.map .vertexCreated)).graph.vertices u = none :=
    fun u hu => rollback_vertices allowSelf R added u (.inl hu)
  generalize R.rollback allowSelf (added.map .vertexCreated) = S at hend hgone
  ext1
  · ext1
    · funext u
      by_cases hu : u ∈ added
      · rw [hgone u hu, hend.new u hu]
      · exact hend.old u hu
    · exact hend.edges
    · funext k
      obtain hsame | ⟨u, hu, x, hx, -⟩ := hend.keys k
      · exact hsame
      · rw [hgone u hu] at hx
        cases hx
  · exact hend.schema

end Grown

namespace Database

variable {db : Database}

/-! ## The rows of a batch of vertices -/

/-- Whether a row, run on this database, warns about a vertex that is live in it. -/
def WarnsOfLive (db : Database) (row : VertexBulkRow) : Prop :=
  db.warnsOfTaken row.key row.labels row.properties = true ∧
    ∃ u ∈ db.graph.findKey row.key, (db.graph.vertices.find? u).isSome = true

/-- The rows a batch tries: up to and including the first one that fails. -/
def attempted (db : Database) : List VertexBulkRow → List VertexBulkRow
  | [] => []
  | row :: rest =>
    if (db.createVertex row.key row.labels row.properties row.minted).2.isError then [row]
    else row ::
      (db.createVertex row.key row.labels row.properties row.minted).1.attempted rest

/-- What one row does to the reading and the journal: it refuses, creates, warns, or takes
back the vertex it warned about. -/
theorem createVertex_row (h : db.WellFormed) (hgate : db.refusesWrites = false)
    {key : VertexKey} {labels : List LabelId} {properties : PropertyList} {minted : Guid}
    {db' : Database} {status : GdiStatus}
    (hrow : db.createVertex key labels properties minted = (db', status)) :
    db'.schema = db.schema ∧
    ((status.isError = true ∧ db.warnsOfTaken key labels properties = false ∧
        db'.reading = db.reading ∧ Journaled db.sizes db.tx [] db'.tx) ∨
      (status.isError = false ∧ db.graph.findKey key = none ∧ ∃ x : VertexReading,
        db.reading.graph.vertices minted = none ∧
        (x.keyLabel ≠ kNoLabel → db.reading.graph.keys x.key = none) ∧
        db'.reading = db.reading.mapGraph (·.adoptVertex minted x) ∧
        Journaled db.sizes db.tx [.vertexCreated minted] db'.tx) ∨
      (∃ u, db.warnsOfTaken key labels properties = true ∧ db.graph.findKey key = some u ∧
        ((status.isError = false ∧ db'.reading = db.reading ∧
            Journaled db.sizes db.tx [.vertexCreated u] db'.tx) ∨
          (status.isError = true ∧ db'.reading = db.reading.mapGraph (·.removeVertex u) ∧
            Journaled db.sizes db.tx [] db'.tx)))) := by
  unfold createVertex at hrow
  rw [if_neg (by simp [hgate])] at hrow
  split at hrow
  · next hkey =>
      cases hrow
      exact ⟨rfl, .inl ⟨hkey, by simp [warnsOfTaken, hkey], rfl, .refl ..⟩⟩
  next hkey =>
  split at hrow
  · next hlabels =>
      cases hrow
      exact ⟨rfl, .inl ⟨hlabels, by simp [warnsOfTaken, hlabels], rfl, .refl ..⟩⟩
  next hlabels =>
  split at hrow
  · next hproperties =>
      cases hrow
      exact ⟨rfl, .inl ⟨hproperties, by simp [warnsOfTaken, hproperties], rfl, .refl ..⟩⟩
  next hproperties =>
  obtain ⟨status', heq, herr⟩ | ⟨existing, heq, hmode, hfind⟩ | ⟨heq, fresh, free⟩ :=
    db.graph.createVertex_cases (vertexSpec key labels properties) minted
  · rw [heq] at hrow
    cases hrow
    refine ⟨rfl, .inl ⟨herr, ?_, rfl, .refl ..⟩⟩
    by_contra hwarns
    obtain ⟨existing, -, hwarning⟩ :=
      createVertex_of_warns (by simpa using hwarns) minted
    rw [heq] at hwarning
    cases hwarning
  · have hfind' : db.graph.findKey key = some existing := hfind
    have hwarns : db.warnsOfTaken key labels properties = true := by
      simp [warnsOfTaken, hkey, hlabels, hproperties, hmode, hfind']
    rw [heq] at hrow
    obtain ⟨tx', hpush, hjournal⟩ := db.push_spec (.vertexCreated existing)
    simp only [hpush] at hrow
    split at hrow
    · next hroom =>
        rw [if_pos hroom] at hjournal
        cases hrow
        exact ⟨rfl, .inr (.inr ⟨existing, hwarns, hfind', .inl ⟨rfl, rfl, hjournal⟩⟩)⟩
    · next hroom =>
        rw [if_neg hroom] at hjournal
        cases hrow
        refine ⟨rfl, .inr (.inr ⟨existing, hwarns, hfind', .inr ⟨rfl, ?_, hjournal⟩⟩)⟩
        refine congrArg (Reading.mk · _) ?_
        rw [freeVertex_unguarded]
        exact db.graph.reading_removeVertex h.sound.linked existing
  · rw [heq] at hrow
    have hfree : db.graph.findKey key = none := free
    have hnone : db.reading.graph.vertices minted = none := by simp [reading, fresh]
    obtain ⟨tx', hpush, hjournal⟩ := ({ db with
      graph := db.graph.published (vertexSpec key labels properties) minted } :
        Database).push_spec (.vertexCreated minted)
    simp only [hpush] at hrow
    split at hrow
    · next hroom =>
        rw [if_pos hroom] at hjournal
        cases hrow
        refine ⟨rfl, .inr (.inl ⟨rfl, hfree, (vertexSpec key labels properties).toVertex.reading,
          hnone, fun _ => free, ?_, hjournal⟩)⟩
        exact congrArg (Reading.mk · _) (reading_published fresh free)
    · next hroom =>
        rw [if_neg hroom] at hjournal
        cases hrow
        refine ⟨rfl, .inl ⟨rfl, not_warns_of_free hfree, ?_, hjournal⟩⟩
        exact congrArg (Reading.mk · _) (reading_unpublish h fresh free)

variable {tx : Transaction} {rows : List VertexBulkRow} {stats : BulkStats}

/-- The rollback of a failed batch, read back. -/
theorem reading_rollbackOpen (h : db.WellFormed) (htx : db.tx = some tx) {created : List Guid}
    (hjournal : tx.journal = created.map .vertexCreated) :
    db.rollbackOpen.reading =
      db.reading.rollback db.graph.options.allowSelfEdges (created.map .vertexCreated) := by
  have hrestorable : ∀ entry ∈ tx.journal, entry.Restorable := by
    intro entry hentry
    rw [hjournal] at hentry
    obtain ⟨u, -, rfl⟩ := List.mem_map.mp hentry
    trivial
  have hread := (reading_rollback h.sound hrestorable).2.2
  rw [← hjournal, ← hread]
  simp only [rollbackOpen, htx]
  rfl

/-- The transaction of a batch, one record longer. -/
theorem Journaled.created {sizes : EntrySizes} {tx' : Option Transaction} {created : List Guid}
    (hjournal : tx.journal = created.map .vertexCreated) (hwrite : tx.readOnly = false)
    (new : List Guid) (h : Journaled sizes (some tx) (new.map .vertexCreated) tx') :
    ∃ t, tx' = some t ∧ t.readOnly = false ∧ t.journal = (created ++ new).map .vertexCreated := by
  obtain ⟨t, rfl, hextends⟩ := h
  refine ⟨t, rfl, hextends.readOnly.trans hwrite, ?_⟩
  rw [hextends.journal, hjournal, List.map_append]

theorem refusesWrites_of_write (htx : db.tx = some tx) (hwrite : tx.readOnly = false) :
    db.refusesWrites = false := by
  simp [refusesWrites, htx, hwrite]

/-- The rows keep the database in order. -/
theorem wellFormed_createVertex (h : db.WellFormed) {key : VertexKey} {labels : List LabelId}
    {properties : PropertyList} {minted : Guid} {db' : Database} {status : GdiStatus}
    (hrow : db.createVertex key labels properties minted = (db', status)) :
    db'.WellFormed ∧ db'.graph.options = db.graph.options := by
  have hadvance : Advance false db (db.createVertex key labels properties minted).1 :=
    advance_createVertex h minted (by simp)
  rw [hrow] at hadvance
  exact ⟨hadvance.wellFormed, hadvance.options⟩

/-- A failed batch empties the journal, and removes every guid recorded before. -/
theorem createVertexRows_failed_removes (h : db.WellFormed) (htx : db.tx = some tx)
    (hwrite : tx.readOnly = false) {created : List Guid}
    (hjournal : tx.journal = created.map .vertexCreated) (hu : u ∈ created)
    (hfailed : (createVertexRows false db stats rows).2.2.2 = true) :
    (createVertexRows false db stats rows).1.reading.graph.vertices u = none := by
  induction rows generalizing db stats tx created with
  | nil => cases hfailed
  | cons row rest ih =>
    cases hrow : db.createVertex row.key row.labels row.properties row.minted with
    | mk db' status =>
      obtain ⟨hwf, -⟩ := wellFormed_createVertex h hrow
      obtain ⟨-, hcases⟩ := createVertex_row h (refusesWrites_of_write htx hwrite) hrow
      have hnext : ∃ new : List Guid,
          Journaled db.sizes (some tx) (new.map .vertexCreated) db'.tx := by
        rw [← htx]
        rcases hcases with ⟨-, -, -, hj⟩ | ⟨-, -, x, -, -, -, hj⟩ |
          ⟨w, -, -, ⟨-, -, hj⟩ | ⟨-, -, hj⟩⟩
        · exact ⟨[], hj⟩
        · exact ⟨[row.minted], hj⟩
        · exact ⟨[w], hj⟩
        · exact ⟨[], hj⟩
      obtain ⟨new, hnew⟩ := hnext
      obtain ⟨tx', htx', hwrite', hjournal'⟩ := Journaled.created hjournal hwrite new hnew
      have hmem : u ∈ created ++ new := List.mem_append_left _ hu
      unfold createVertexRows at hfailed ⊢
      simp only [hrow] at hfailed ⊢
      split
      · rw [reading_rollbackOpen hwf htx' hjournal']
        exact Grown.rollback_vertices _ _ _ u (.inl hmem)
      · next hgo =>
          rw [if_neg hgo] at hfailed
          exact ih hwf htx' hwrite' hjournal' hmem hfailed

theorem createVertexRows_failed_journal (h : db.WellFormed) (htx : db.tx = some tx)
    (hwrite : tx.readOnly = false) (hfailed : (createVertexRows false db stats rows).2.2.2 = true) :
    ∃ tx', (createVertexRows false db stats rows).1.tx = some tx' ∧ tx'.journal = [] := by
  induction rows generalizing db stats tx with
  | nil => cases hfailed
  | cons row rest ih =>
    cases hrow : db.createVertex row.key row.labels row.properties row.minted with
    | mk db' status =>
      obtain ⟨hwf, -⟩ := wellFormed_createVertex h hrow
      have hadvance : Advance false db
          (db.createVertex row.key row.labels row.properties row.minted).1 :=
        advance_createVertex h row.minted (by simp)
      obtain ⟨entries, -, -, hjournal⟩ := hadvance.recorded
      rw [hrow, htx] at hjournal
      obtain ⟨tx', htx', hextends⟩ := hjournal
      simp only at htx'
      unfold createVertexRows at hfailed ⊢
      simp only [hrow] at hfailed ⊢
      split
      · exact ⟨tx'.clearJournal, by simp only [rollbackOpen, htx'], rfl⟩
      · next hgo =>
          rw [if_neg hgo] at hfailed
          exact ih hwf htx' (hextends.readOnly.trans hwrite) hfailed

/-- The checks of a create look at the schema only. -/
theorem validate_congr {db₀ : Database} (hschema : db.schema = db₀.schema) (key : VertexKey)
    (labels : List LabelId) (properties : PropertyList) :
    db.validateKey key = db₀.validateKey key ∧
      db.validateLabels labels = db₀.validateLabels labels ∧
      db.validateProperties properties = db₀.validateProperties properties := by
  refine ⟨by simp [validateKey, hschema], by simp [validateLabels, hschema], ?_⟩
  induction properties with
  | nil => rfl
  | cons entry rest ih =>
    have hhead : db.validateProperty entry.name entry.value =
        db₀.validateProperty entry.name entry.value := by
      simp [validateProperty, hschema]
    simp only [validateProperties, hhead, ih]

section Failed

variable {db₀ : Database} {added : List Guid} (hgrown : Grown db₀.reading added db.reading)
  (hschema : db.schema = db₀.schema) (hoptions : db.graph.options = db₀.graph.options)
include hgrown hschema hoptions

/-- A row that would have warned about a live vertex at the start still does. -/
theorem WarnsOfLive.now {row : VertexBulkRow} (hwarns : db₀.WarnsOfLive row) :
    db.warnsOfTaken row.key row.labels row.properties = true ∧
      ∃ u, db.graph.findKey row.key = some u ∧ db₀.reading.graph.vertices u ≠ none := by
  obtain ⟨hwarns, u, hu, hlive⟩ := hwarns
  have hkey : db.graph.findKey row.key = some u := hgrown.key_old hu
  obtain ⟨hk, hl, hp⟩ := validate_congr hschema row.key row.labels row.properties
  refine ⟨?_, u, hkey, ?_⟩
  · simp only [warnsOfTaken, hk, hl, hp, hoptions, hkey] at hwarns ⊢
    simp_all
  · obtain ⟨v, hv⟩ := Option.isSome_iff_exists.mp hlive
    simp [reading, hv]

/-- A row that warns about a vertex from before would have warned at the start. -/
theorem WarnsOfLive.of_now {row : VertexBulkRow}
    (hwarns : db.warnsOfTaken row.key row.labels row.properties = true)
    (hkey : db.graph.findKey row.key = some u) (hlive : db₀.reading.graph.vertices u ≠ none) :
    db₀.WarnsOfLive row := by
  have hkey₀ : db₀.graph.findKey row.key = some u := hgrown.key_of_live hkey hlive
  obtain ⟨hk, hl, hp⟩ := validate_congr hschema row.key row.labels row.properties
  refine ⟨?_, u, hkey₀, ?_⟩
  · simp only [warnsOfTaken, hk, hl, hp, hoptions] at hwarns ⊢
    simp_all
  · cases hv : db₀.graph.vertices.find? u with
    | none => exact absurd (by simp [reading, hv]) hlive
    | some v => rfl

/-- A failed batch whose own records are the whole journal. -/
theorem createVertexRows_failed (closed : db₀.reading.graph.Closed) (h : db.WellFormed)
    (htx : db.tx = some tx) (hwrite : tx.readOnly = false)
    (hjournal : tx.journal = added.map .vertexCreated)
    (hfailed : (createVertexRows false db stats rows).2.2.2 = true) :
    (createVertexRows false db stats rows).1.reading = db₀.reading ↔
      ∀ row ∈ db.attempted rows, ¬db₀.WarnsOfLive row := by
  induction rows generalizing db stats tx added with
  | nil => cases hfailed
  | cons row rest ih =>
    cases hrow : db.createVertex row.key row.labels row.properties row.minted with
    | mk db' status =>
      obtain ⟨hwf, hopt⟩ := wellFormed_createVertex h hrow
      obtain ⟨hsch, hcases⟩ := createVertex_row h (refusesWrites_of_write htx hwrite) hrow
      have hschema' := hsch.trans hschema
      have hoptions' := hopt.trans hoptions
      rw [htx] at hcases
      unfold createVertexRows at hfailed ⊢
      unfold attempted
      simp only [hrow, Bool.not_false, Bool.and_true] at hfailed ⊢
      rcases hcases with ⟨herr, hquiet, hread, hj⟩ | ⟨hok, hfree, x, hnone, hkeys, hread, hj⟩ |
        ⟨u, hwarns, hkey, ⟨hok, hread, hj⟩ | ⟨herr, hread, hj⟩⟩
      · -- the row refuses: everything so far is taken back
        obtain ⟨tx', htx', -, hjournal'⟩ :=
          Journaled.created hjournal hwrite [] hj
        rw [List.append_nil] at hjournal'
        simp only [herr, if_true]
        refine iff_of_true ?_ ?_
        · rw [reading_rollbackOpen hwf htx' hjournal', hread]
          exact hgrown.rollback_eq closed _
        · intro r hr hlive
          rw [List.mem_singleton.mp hr] at hlive
          have hnow := (hlive.now hgrown hschema hoptions).1
          rw [hquiet] at hnow
          cases hnow
      · -- the row creates
        obtain ⟨tx', htx', hwrite', hjournal'⟩ :=
          Journaled.created hjournal hwrite [row.minted] hj
        have hgrown' := hgrown.adopt hnone hkeys
        rw [← hread] at hgrown'
        simp only [hok, Bool.false_eq_true, if_false] at hfailed ⊢
        rw [ih hgrown' hschema' hoptions' hwf htx' hwrite' hjournal' hfailed,
          List.forall_mem_cons]
        refine (and_iff_right fun hlive => ?_).symm
        obtain ⟨-, u, hu, -⟩ := hlive.now hgrown hschema hoptions
        rw [hfree] at hu
        cases hu
      · -- the row warns
        obtain ⟨tx', htx', hwrite', hjournal'⟩ :=
          Journaled.created hjournal hwrite [u] hj
        simp only [hok, Bool.false_eq_true, if_false] at hfailed ⊢
        cases hlive : db₀.reading.graph.vertices u with
        | none =>
          have hgrown' := hgrown.note hlive
          rw [← hread] at hgrown'
          rw [ih hgrown' hschema' hoptions' hwf htx' hwrite' hjournal' hfailed,
            List.forall_mem_cons]
          refine (and_iff_right fun hwarns₀ => ?_).symm
          obtain ⟨-, w, hw, hwlive⟩ := hwarns₀.now hgrown hschema hoptions
          rw [hkey] at hw
          cases hw
          exact hwlive hlive
        | some y =>
          have hne : db₀.reading.graph.vertices u ≠ none := by simp [hlive]
          have hbad := WarnsOfLive.of_now hgrown hschema hoptions hwarns hkey hne
          refine iff_of_false (fun hsame => ?_) fun hall => hall row List.mem_cons_self hbad
          have hgone := createVertexRows_failed_removes hwf htx' hwrite' hjournal'
            (by simp : u ∈ added ++ [u]) hfailed
          rw [hsame, hlive] at hgone
          cases hgone
      · -- the row takes back the vertex it warned about
        obtain ⟨tx', htx', -, hjournal'⟩ :=
          Journaled.created hjournal hwrite [] hj
        rw [List.append_nil] at hjournal'
        simp only [herr, if_true]
        rw [reading_rollbackOpen hwf htx' hjournal', hread]
        cases hlive : db₀.reading.graph.vertices u with
        | none =>
          refine iff_of_true ?_ ?_
          · by_cases hmem : u ∈ added
            · exact (hgrown.remove closed hmem).rollback_eq closed _
            · have hsame : db.reading.mapGraph (·.removeVertex u) = db.reading := by
                have hdead : db.reading.graph.vertices u = none := by
                  rw [hgrown.old u hmem, hlive]
                simp only [Reading.mapGraph, GraphReading.removeVertex, hdead]
              rw [hsame]
              exact hgrown.rollback_eq closed _
          · intro r hr hwarns₀
            rw [List.mem_singleton.mp hr] at hwarns₀
            obtain ⟨-, w, hw, hwlive⟩ := hwarns₀.now hgrown hschema hoptions
            rw [hkey] at hw
            cases hw
            exact hwlive hlive
        | some y =>
          have hne : db₀.reading.graph.vertices u ≠ none := by simp [hlive]
          have hbad := WarnsOfLive.of_now hgrown hschema hoptions hwarns hkey hne
          refine iff_of_false (fun hsame => ?_) fun hall =>
            hall row (List.mem_singleton.mpr rfl) hbad
          have hgone := Grown.rollback_vertices db'.graph.options.allowSelfEdges
            (db.reading.mapGraph (·.removeVertex u)) added u (.inr ?_)
          · rw [hsame, hlive] at hgone
            cases hgone
          · exact Grown.rollback_vertices true db.reading [u] u (.inl (by simp))

end Failed

/-- The database a batch of vertices starts on: with the caller's transaction, or with one
of its own. -/
def batchStart (db : Database) : Database :=
  match db.tx with
  | some _ => db
  | none => { db with tx := some { maxJournalBytes := db.graph.options.maxJournalBytes } }

/-- What a failed batch should leave: the database, and the caller's journal with it. -/
def Kept (db db' : Database) : Prop :=
  db'.reading = db.reading ∧ db'.tx.map (·.journal) = db.tx.map (·.journal)

/-- A failed batch of vertices leaves the database as it was exactly when the caller's
journal is empty and no attempted row warns about a vertex that was there before. -/
theorem kept_createVerticesBulk_iff (h : db.WellFormed) (hgate : db.refusesWrites = false)
    (hfailed : (db.createVerticesBulk rows false stats).2.1.isError = true) :
    Kept db (db.createVerticesBulk rows false stats).1 ↔
      (∀ tx ∈ db.tx, tx.journal = []) ∧
        ∀ row ∈ db.batchStart.attempted rows, ¬db.WarnsOfLive row := by
  have haborted : (createVertexRows false db.batchStart stats rows).2.2.2 = true := by
    by_contra hgo
    unfold createVerticesBulk at hfailed
    rw [if_neg (by simp [hgate])] at hfailed
    change (if (createVertexRows false db.batchStart stats rows).2.2.2 then GdiStatus.errorState
      else .ok).isError = true at hfailed
    rw [if_neg hgo] at hfailed
    cases hfailed
  have hresult : (db.createVerticesBulk rows false stats).1 =
      if db.tx.isNone then { (createVertexRows false db.batchStart stats rows).1 with tx := none }
      else (createVertexRows false db.batchStart stats rows).1 := by
    unfold createVerticesBulk
    rw [if_neg (by simp [hgate])]
    rfl
  rw [hresult]
  cases htx : db.tx with
  | none =>
    have hstart : db.batchStart =
        { db with tx := some { maxJournalBytes := db.graph.options.maxJournalBytes } } := by
      simp [batchStart, htx]
    rw [hstart] at haborted ⊢
    have hgrown : Grown db.reading [] ({ db with
        tx := some { maxJournalBytes := db.graph.options.maxJournalBytes } } :
          Database).reading := .refl db.reading
    have hfail := createVertexRows_failed hgrown rfl rfl h.closed (h.withTx _) rfl rfl rfl
      haborted
    simp only [Option.isNone_none, if_true, Kept, htx, Option.map_none, and_true,
      Option.not_mem_none, false_imp_iff, implies_true, true_and]
    exact hfail
  | some tx =>
    have hstart : db.batchStart = db := by simp [batchStart, htx]
    have hwrite : tx.readOnly = false := by simpa [refusesWrites, htx] using hgate
    rw [hstart] at haborted ⊢
    obtain ⟨tx', htx', hempty⟩ := createVertexRows_failed_journal h htx hwrite haborted
    simp only [Option.isNone_some, Bool.false_eq_true, if_false, Kept, htx, htx',
      Option.map_some, hempty, Option.some.injEq, Option.mem_some_iff, forall_eq']
    by_cases hjournal : tx.journal = []
    · have hgrown : Grown db.reading [] db.reading := .refl db.reading
      have hfail := createVertexRows_failed hgrown rfl rfl h.closed h htx hwrite hjournal haborted
      simp only [hjournal, and_true, true_and]
      exact hfail
    · refine iff_of_false ?_ ?_
      · rintro ⟨-, hsame⟩
        exact hjournal hsame.symm
      · rintro ⟨hsame, -⟩
        exact hjournal hsame

/-! ## The rows of a batch of edges -/

/-- A row that is accepted adds an edge under a free uid; a refused one changes nothing. -/
theorem edgeCreate_row {o t : Guid} {direction : Byte} {labels : List LabelId}
    {properties : PropertyList} {chosenUid : Option Guid} {minted : Guid} {db' : Database}
    {status : GdiStatus}
    (hrow : db.edgeCreate o t direction labels properties chosenUid minted = (db', status)) :
    (status.isError = true ∧ db'.reading = db.reading) ∨
      (status.isError = false ∧ ∃ d e, db.reading.graph.edges d = none ∧
        db'.reading = db.reading.mapGraph (·.setEdge d (some e))) := by
  cases herr : status.isError with
  | true =>
    have hnothing : db.LeavesNothing
        (.edgeCreate o t direction labels properties chosenUid minted) :=
      leavesNothing_edgeCreate o t direction labels properties chosenUid minted
    simp only [LeavesNothing, apply, hrow] at hnothing
    exact .inl ⟨rfl, hnothing herr⟩
  | false =>
    refine .inr ⟨rfl, ?_⟩
    unfold edgeCreate at hrow
    split at hrow
    · cases hrow
      cases herr
    split at hrow
    · next hlabels =>
        cases hrow
        rw [hlabels] at herr
        cases herr
    split at hrow
    · next hproperties =>
        cases hrow
        rw [hproperties] at herr
        cases herr
    obtain ⟨status', heq, herr'⟩ | ⟨g', d, e, heq, hfree, -, -, -, hread⟩ :=
      reading_edgeCreate db.graph o t direction labels properties chosenUid minted
    · rw [heq] at hrow
      cases hrow
      rw [herr'] at herr
      cases herr
    · rw [heq] at hrow
      obtain ⟨tx', hpush, -⟩ :=
        ({ db with graph := g' } : Database).push_spec (.edgeCreated d)
      simp only [hpush] at hrow
      split at hrow
      · cases hrow
        exact ⟨d, e, by simp [reading, hfree], congrArg (Reading.mk · _) hread⟩
      · cases hrow
        cases herr

/-- No row takes an edge away. -/
theorem createEdgeRows_keeps (continueOnError : Bool) (stats : BulkStats)
    (rows : List EdgeBulkRow) {d : Guid} (hd : db.reading.graph.edges d ≠ none) :
    (createEdgeRows continueOnError db stats rows).1.reading.graph.edges d ≠ none := by
  refine createEdgeRows_invariant (I := fun db => db.reading.graph.edges d ≠ none) ?_ hd stats
  intro db row _ hlive
  cases hrow : db.edgeCreate row.origin row.target row.direction row.labels row.properties
      row.uid row.minted with
  | mk db' status =>
    obtain ⟨-, hread⟩ | ⟨-, d', e, -, hread⟩ := edgeCreate_row hrow
    · simp only [hread]
      exact hlive
    · simp only [hread, Reading.mapGraph, GraphReading.setEdge, Function.update_apply]
      split
      · simp
      · exact hlive

/-- A failed batch of edges leaves the database as it was exactly when its first row is the
one that fails. -/
theorem reading_createEdgesBulk_iff (hgate : db.refusesWrites = false) {rows : List EdgeBulkRow}
    (hfailed : (db.createEdgesBulk rows false stats).2.1.isError = true) :
    (db.createEdgesBulk rows false stats).1.reading = db.reading ↔
      ∃ row ∈ rows.head?, (db.edgeCreate row.origin row.target row.direction row.labels
        row.properties row.uid row.minted).2.isError = true := by
  unfold createEdgesBulk at hfailed ⊢
  rw [if_neg (by simp [hgate])] at hfailed ⊢
  simp only at hfailed ⊢
  cases rows with
  | nil => cases hfailed
  | cons row rest =>
    simp only [List.head?_cons, Option.mem_some_iff, exists_eq_left']
    unfold createEdgeRows
    cases hrow : db.edgeCreate row.origin row.target row.direction row.labels row.properties
        row.uid row.minted with
    | mk db' status =>
      simp only
      obtain ⟨herr, hread⟩ | ⟨hok, d, e, hnone, hread⟩ := edgeCreate_row hrow
      · rw [if_pos (by simp [herr])]
        exact iff_of_true hread herr
      · rw [if_neg (by simp [hok])]
        refine iff_of_false (fun hsame => ?_) (by simp [hok])
        have hlive : db'.reading.graph.edges d ≠ none := by
          simp [hread, Reading.mapGraph, GraphReading.setEdge]
        have hkept := createEdgeRows_keeps false (stats.count status) rest hlive
        rw [hsame] at hkept
        exact hkept hnone

/-! ## Every refusal -/

/-- In every database in order, and so in every one reached from an empty one: a single
command that answers with an error changes nothing exactly when it is `RefusalSafe`; a failed
all-or-nothing batch of vertices leaves the database and the caller's journal exactly when
that journal is empty and no attempted row warns about a vertex from before; a failed batch
of edges leaves the database exactly when its first row is the one that fails. -/
theorem refusal_leaves_nothing (options : GraphOptions) (sizes : EntrySizes) :
    (∀ history, Meets step CallKeepsIds (empty options sizes) history →
      (run step (empty options sizes) history).WellFormed) ∧
    ∀ db : Database, db.WellFormed →
      (∀ command, db.LeavesNothing command ↔ db.RefusalSafe command) ∧
      (∀ rows stats, db.refusesWrites = false →
        (db.createVerticesBulk rows false stats).2.1.isError = true →
        (Kept db (db.createVerticesBulk rows false stats).1 ↔
          (∀ tx ∈ db.tx, tx.journal = []) ∧
            ∀ row ∈ db.batchStart.attempted rows, ¬db.WarnsOfLive row)) ∧
      (∀ rows stats, db.refusesWrites = false →
        (db.createEdgesBulk rows false stats).2.1.isError = true →
        ((db.createEdgesBulk rows false stats).1.reading = db.reading ↔
          ∃ row ∈ rows.head?, (db.edgeCreate row.origin row.target row.direction row.labels
            row.properties row.uid row.minted).2.isError = true)) :=
  ⟨fun _ ids => wellFormed_run options sizes ids, fun _ h =>
    ⟨fun command => leavesNothing_iff h command,
      fun _ _ hgate hfailed => kept_createVerticesBulk_iff h hgate hfailed,
      fun _ _ hgate hfailed => reading_createEdgesBulk_iff hgate hfailed⟩⟩

/-- A refused removal, and a failed batch at the start of a transaction. -/
theorem refusal_leaves_nothing_instances :
    let db := run step (empty { maxJournalBytes := 200 } ⟨64, 128, 96, 48⟩)
      [.command (.createLabel [65]), .command (.createVertex ⟨1, [7]⟩ [] [] 10),
        .beginTransaction false]
    db.refusesWrites = false ∧
      ((db.apply (.freeVertex 11)).2.isError = true ∧
        (db.apply (.freeVertex 11)).1.reading = db.reading) ∧
      ((db.createVerticesBulk [⟨⟨0, []⟩, [], [], 20⟩, ⟨⟨1, [7]⟩, [], [], 21⟩] false {}).2.1.isError =
          true ∧
        Kept db (db.createVerticesBulk [⟨⟨0, []⟩, [], [], 20⟩, ⟨⟨1, [7]⟩, [], [], 21⟩]
          false {}).1) := by
  intro db
  have hids : Meets step CallKeepsIds (empty { maxJournalBytes := 200 } ⟨64, 128, 96, 48⟩)
      [.command (.createLabel [65]), .command (.createVertex ⟨1, [7]⟩ [] [] 10),
        .beginTransaction false] := by decide
  obtain ⟨hreach, hall⟩ :=
    refusal_leaves_nothing { maxJournalBytes := 200 } ⟨64, 128, 96, 48⟩
  obtain ⟨hsingle, hvertices, -⟩ := hall db (hreach _ hids)
  refine ⟨by rfl, ⟨by decide, ?_⟩, by decide +kernel, ?_⟩
  · exact (hsingle (.freeVertex 11)).mpr (fun _ entry hentry => by cases hentry) (by decide)
  · refine (hvertices _ {} (by rfl) (by decide)).mpr ⟨?_, ?_⟩
    · rintro tx ⟨⟩
      rfl
    · intro row _ hwarns
      have hmode : db.warnsOfTaken row.key row.labels row.properties = false := by
        have hkeyMode : db.graph.options.keyMode = .enforceUnique := by rfl
        simp [warnsOfTaken, hkeyMode]
      have htaken := hwarns.1
      rw [hmode] at htaken
      cases htaken

/-- `free_vertex` whose record does not fit answers `error_size_limit` and removes the
vertex; a failed batch inside a transaction takes back the caller's vertex. -/
theorem refusal_removes_vertex :
    (let db := run step (empty { maxJournalBytes := 100 } ⟨64, 128, 96, 48⟩)
        [.command (.createVertex ⟨0, []⟩ [] [] 10), .beginTransaction false];
      (db.apply (.freeVertex 10)).2 = .errorSizeLimit ∧
        (db.apply (.freeVertex 10)).1.reading ≠ db.reading) ∧
    (let db := run step (empty {} ⟨64, 128, 96, 48⟩)
        [.beginTransaction false, .command (.createVertex ⟨0, []⟩ [] [] 10)];
      (db.createVerticesBulk [⟨⟨0, [7]⟩, [], [], 20⟩] false {}).2.1 = .errorState ∧
        (db.createVerticesBulk [⟨⟨0, [7]⟩, [], [], 20⟩] false {}).1.reading ≠ db.reading) := by
  refine ⟨⟨by decide, fun hsame => ?_⟩, ⟨by decide +kernel, fun hsame => ?_⟩⟩
  · have hvertex := congrArg (fun R => (R.graph.vertices 10).isSome) hsame
    revert hvertex
    decide
  · have hvertex := congrArg (fun R => (R.graph.vertices 10).isSome) hsame
    revert hvertex
    decide

end Database

end KimixNative.GraphDb
