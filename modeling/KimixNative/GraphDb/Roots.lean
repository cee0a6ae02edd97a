import KimixNative.GraphDb.Adjacency
import Mathlib.Data.BitVec

/-!
# The roots cache

`roots` answers from a cache that is keyed by the structure version, a counter of 64 bits
every structural write bumps. A root is handed out as a pointer, which is here the guid
together with the number of the call the vertex was created by: a vertex that comes back
under its old guid is another one. `bumps` counts the increments of one call as its code
path makes them; a call that makes none leaves every vertex and its incoming links.
-/

namespace KimixNative.GraphDb

namespace Graph

/-! ## The bumps of each call -/

/-- `_is_root`. -/
def isRoot (v : Vertex) : Bool := v.inLinks.isEmpty

/-- `create_vertex(spec)`; an insertion that is undone bumps twice. -/
def createVertexBumps (g : Graph) (spec : VertexSpec) (minted : Guid) : Nat :=
  if spec.keyed && spec.externalId.isEmpty then 0
  else if !spec.keyed && !spec.externalId.isEmpty then 0
  else if (g.findKey spec.key).isSome then 0
  else if (g.vertices.find? minted).isSome then 0
  else if spec.keyed &&
      ((g.insertVertex minted spec.toVertex).insertKey spec.key minted).2.isError then 2
  else 1

/-- `_move_edge_endpoint`; an edge that is already there is not touched. -/
def moveEdgeEndpointBumps (g : Graph) (edge endpoint : Guid) (moveOrigin : Bool) : Nat :=
  match g.edges.find? edge with
  | none => 0
  | some e =>
    let newOrigin := if moveOrigin then endpoint else e.origin
    let newTarget := if moveOrigin then e.target else endpoint
    if newOrigin = e.origin ∧ newTarget = e.target then 0
    else if (g.vertices.find? newOrigin).isNone || (g.vertices.find? newTarget).isNone then 0
    else 1

/-- How often one call bumps the structure version. -/
def bumps (g : Graph) : GraphOp → Nat
  | .createPlainVertex content minted =>
    if (g.createPlainVertex content minted).2.isSome then 1 else 0
  | .createVertex spec minted => g.createVertexBumps spec minted
  | .getOrCreateVertex spec minted =>
    if (g.findKey spec.key).isSome then 0 else g.createVertexBumps spec minted
  | .addVertex guid v => if (g.addVertex guid v).2 then 1 else 0
  | .adoptVertex guid v => if (g.adoptVertex guid v).2 = .ok then 1 else 0
  | .removeVertex guid => if (g.removeVertex guid).2.isSome then 2 else 0
  | .freeVertex guid guarded => if (g.freeVertex guid guarded).2 = .ok then 2 else 0
  | .editVertex _ _ => 0
  | .edgeCreate origin target direction labels properties chosenUid minted =>
    if (g.edgeCreate origin target direction labels properties chosenUid minted).2.1 = .ok
    then 1 else 0
  | .edgeFree edge => if (g.edgeFree edge).2 = .ok then 1 else 0
  | .edgeSetOrigin edge origin => g.moveEdgeEndpointBumps edge origin true
  | .edgeSetTarget edge target => g.moveEdgeEndpointBumps edge target false
  | .editEdge _ _ => 0
  | .connect source target minted => if (g.connect source target minted).2 then 1 else 0
  | .connectBulk requests => (g.connectBulk requests).2.countP (· == .created)
  | .disconnect source target => if (g.disconnect source target).2 then 1 else 0
  | .adoptEdge id edge => if (g.adoptEdge id edge).2 = .ok then 1 else 0
  | .takeRemovedVertices => 0
  | .takeRemovedEdges => 0

/-! ## A call without a bump -/

/-- The same vertices are there, and the same of them are roots. -/
def SameRoots (g g' : Graph) : Prop :=
  ∀ w, (g'.vertices.find? w).map isRoot = (g.vertices.find? w).map isRoot

theorem SameRoots.refl (g : Graph) : SameRoots g g := fun _ => rfl

theorem sameRoots_of_vertices {g g' : Graph} (h : g'.vertices = g.vertices) : SameRoots g g' := by
  intro w
  rw [h]

theorem sameRoots_updateVertex (g : Graph) (guid : Guid) {f : Vertex → Vertex}
    (hf : ∀ v, (f v).inLinks = v.inLinks) : SameRoots g (g.updateVertex guid f) := by
  intro w
  rw [find?_updateVertex]
  split_ifs with hw
  · subst hw
    rw [Option.map_map]
    refine congrArg (Option.map · _) (funext fun v => ?_)
    rw [Function.comp_apply, isRoot, isRoot, hf]
  · rfl

section Quiet

variable {g : Graph}

theorem createVertex_of_no_bump {spec : VertexSpec} {minted : Guid}
    (h : g.createVertexBumps spec minted = 0) : (g.createVertex spec minted).1 = g := by
  rw [createVertexBumps] at h
  rw [createVertex]
  by_cases hname : (spec.keyed && spec.externalId.isEmpty) = true
  · rw [if_pos hname]
  rw [if_neg hname] at h ⊢
  by_cases hargument : (!spec.keyed && !spec.externalId.isEmpty) = true
  · rw [if_pos hargument]
  rw [if_neg hargument] at h ⊢
  cases hkey : g.findKey spec.key with
  | some existing =>
    dsimp only
    cases g.options.keyMode <;> rfl
  | none =>
    rw [hkey, Option.isSome_none, if_neg Bool.false_ne_true] at h
    dsimp only
    by_cases hlive : (g.vertices.find? minted).isSome = true
    · rw [if_pos hlive]
    · rw [if_neg hlive] at h
      split_ifs at h

theorem createEdgeLocked_of_ne_ok {o t : Guid} {d : EdgeDirectionType} {labels : List LabelId}
    {properties : PropertyList} {viaGdiApi : Bool} {chosenUid : Option Guid} {minted : Guid}
    (h : (g.createEdgeLocked o t d labels properties viaGdiApi chosenUid minted).2.1 ≠ .ok) :
    (g.createEdgeLocked o t d labels properties viaGdiApi chosenUid minted).1 = g := by
  obtain ⟨status, heq, -⟩ | ⟨_, -, -, -, -, -, -, heq⟩ :=
    g.createEdgeLocked_cases o t d labels properties viaGdiApi chosenUid minted
  · rw [heq]
  · rw [heq] at h
    exact absurd rfl h

theorem moveEdgeEndpoint_of_no_bump {edge endpoint : Guid} {moveOrigin : Bool}
    (h : g.moveEdgeEndpointBumps edge endpoint moveOrigin = 0) :
    (g.moveEdgeEndpoint edge endpoint moveOrigin).1 = g := by
  rw [moveEdgeEndpointBumps] at h
  rw [moveEdgeEndpoint]
  cases he : g.edges.find? edge with
  | none => rfl
  | some e =>
    rw [he] at h
    dsimp only at h ⊢
    generalize (if moveOrigin = true then endpoint else e.origin) = newOrigin at h ⊢
    generalize (if moveOrigin = true then e.target else endpoint) = newTarget at h ⊢
    split_ifs at h ⊢ with hsame hlive
    · rfl
    · rfl

theorem connectPending_of_no_bump (rows : List (EdgeRequest × Guid × EdgeOutcome))
    (h : (g.connectPending rows).2.countP (· == .created) = 0) :
    (g.connectPending rows).1 = g := by
  induction rows with
  | nil => rfl
  | cons row rest ih =>
    obtain ⟨request, minted, verdict⟩ := row
    rw [connectPending] at h ⊢
    by_cases hverdict : verdict ≠ .created
    · rw [if_pos hverdict] at h ⊢
      refine ih ?_
      rw [List.countP_cons] at h
      omega
    · rw [if_neg hverdict] at h ⊢
      dsimp only at h ⊢
      rw [List.countP_cons] at h
      have hstatus : (g.createEdgeLocked request.source request.target .directed [] [] false
          none minted).2.1 ≠ .ok := by
        intro hok
        rw [if_pos hok] at h
        simp at h
      rw [createEdgeLocked_of_ne_ok hstatus] at h ⊢
      exact ih (by omega)

end Quiet

/-- A call that does not bump the version leaves the vertices and which of them are roots. -/
theorem sameRoots_of_no_bump (g : Graph) (op : GraphOp) (h : g.bumps op = 0) :
    SameRoots g (g.step op) := by
  cases op with
  | createPlainVertex content minted =>
    rw [bumps, createPlainVertex] at h
    rw [step, createPlainVertex]
    by_cases hlive : (g.vertices.find? minted).isSome = true
    · rw [if_pos hlive]
      exact .refl g
    · rw [if_neg hlive] at h
      cases h
  | createVertex spec minted =>
    rw [step, createVertex_of_no_bump h]
    exact .refl g
  | getOrCreateVertex spec minted =>
    rw [bumps] at h
    rw [step, getOrCreateVertex]
    cases hkey : g.findKey spec.key with
    | some existing => exact .refl g
    | none =>
      rw [hkey] at h
      have hsame : (g.createVertex spec minted).1 = g := createVertex_of_no_bump h
      dsimp only
      split_ifs
      · rw [hsame]
        exact .refl g
      · rw [hsame]
        exact .refl g
  | addVertex guid v =>
    rw [bumps, addVertex] at h
    rw [step, addVertex]
    by_cases hlive : (g.vertices.find? guid).isSome = true
    · rw [if_pos hlive]
      exact .refl g
    · rw [if_neg hlive] at h
      cases h
  | adoptVertex guid v =>
    rw [bumps] at h
    obtain ⟨heq, -⟩ | ⟨-, heq⟩ := g.adoptVertex_cases guid v
    · rw [step, heq]
      exact .refl g
    · rw [heq] at h
      cases h
  | removeVertex guid =>
    rw [bumps] at h
    cases hv : g.vertices.find? guid with
    | none =>
      rw [step, removeVertex_of_none hv]
      exact .refl g
    | some victim =>
      rw [removeVertex_snd hv] at h
      cases h
  | freeVertex guid guarded =>
    rw [bumps, freeVertex] at h
    rw [step, freeVertex]
    by_cases hguarded : (guarded && (g.vertices.find? guid).isNone) = true
    · rw [if_pos hguarded]
      exact .refl g
    rw [if_neg hguarded] at h ⊢
    by_cases hincident : (guarded && g.hasIncidentEdges guid .both) = true
    · rw [if_pos hincident]
      exact .refl g
    rw [if_neg hincident] at h ⊢
    cases hv : g.vertices.find? guid with
    | none =>
      rw [removeVertex_of_none hv]
      exact .refl g
    | some victim =>
      have hsnd := removeVertex_snd hv
      generalize g.removeVertex guid = removed at h hsnd ⊢
      obtain ⟨g', out⟩ := removed
      obtain rfl := hsnd
      cases h
  | editVertex guid edit =>
    exact sameRoots_updateVertex g guid fun v => (edit.apply_frame v).2.1
  | edgeCreate o t direction labels properties chosenUid minted =>
    rw [bumps] at h
    obtain ⟨status, heq, -⟩ | ⟨d, -, heq⟩ :=
      g.edgeCreate_fst o t direction labels properties chosenUid minted
    · rw [step, heq]
      exact .refl g
    · rw [heq] at h
      have hstatus : (g.createEdgeLocked o t d labels properties true chosenUid minted).2.1 ≠
          .ok := by
        intro hok
        rw [if_pos hok] at h
        cases h
      rw [step, heq, createEdgeLocked_of_ne_ok hstatus]
      exact .refl g
  | edgeFree edge =>
    rw [bumps, edgeFree] at h
    rw [step, edgeFree]
    cases he : g.edges.find? edge with
    | none => exact .refl g
    | some e =>
      rw [he] at h
      cases h
  | edgeSetOrigin edge origin =>
    rw [step, edgeSetOrigin, moveEdgeEndpoint_of_no_bump h]
    exact .refl g
  | edgeSetTarget edge target =>
    rw [step, edgeSetTarget, moveEdgeEndpoint_of_no_bump h]
    exact .refl g
  | editEdge edge edit =>
    obtain ⟨status, heq⟩ | ⟨e, e', -, -, -, heq⟩ := edit.perform_result g edge
    · rw [step, heq]
      exact .refl g
    · rw [step, heq]
      exact sameRoots_of_vertices (updateEdge_vertices g edge _)
  | connect source target minted =>
    rw [bumps, connect] at h
    rw [step, connect]
    by_cases heq : source = target
    · rw [if_pos heq]
      exact .refl g
    rw [if_neg heq] at h ⊢
    have hstatus : (g.createEdgeLocked source target .directed [] [] false none minted).2.1 ≠
        .ok := by
      intro hok
      dsimp only at h
      rw [if_pos (decide_eq_true hok)] at h
      cases h
    dsimp only
    rw [createEdgeLocked_of_ne_ok hstatus]
    exact .refl g
  | connectBulk requests =>
    rw [step, connectBulk, connectPending_of_no_bump _ h]
    exact .refl g
  | disconnect source target =>
    rw [bumps] at h
    obtain heq | ⟨v, link, -, -, -, -, heq⟩ := g.disconnect_cases source target
    · rw [step, heq]
      exact .refl g
    · rw [heq] at h
      cases h
  | adoptEdge id edge =>
    rw [bumps] at h
    obtain ⟨status, heq, -⟩ | ⟨-, -, ⟨-, heq⟩ | ⟨-, -, heq⟩⟩ := g.adoptEdge_cases id edge
    · rw [step, heq]
      exact .refl g
    · rw [step, heq]
      exact sameRoots_of_vertices rfl
    · rw [heq] at h
      cases h
  | takeRemovedVertices => exact sameRoots_of_vertices rfl
  | takeRemovedEdges => exact sameRoots_of_vertices rfl

end Graph

/-! ## The cache -/

/-- A `Vertex *`: the guid, and which of the vertices that had it. -/
structure VertexRef where
  guid : Guid
  birth : Nat
  deriving DecidableEq, Repr

/-- A graph with its roots cache. -/
structure RootCache where
  graph : Graph
  /-- The call a vertex was created by. -/
  births : Guid → Nat := fun _ => 0
  calls : Nat := 0
  structureVersion : BitVec 64 := 0
  cachedRoots : List VertexRef := []
  cachedRootVersion : BitVec 64 := 0
  rootsValid : Bool := false

inductive RootsCall where
  | op (op : GraphOp)
  | roots

namespace RootCache

def fresh (options : GraphOptions) : RootCache := { graph := Graph.empty options }

/-- `_compute_roots`, in the order of the table. -/
def computeRoots (s : RootCache) : List VertexRef :=
  (s.graph.vertices.keys.filter fun guid => ((s.graph.vertices.find? guid).map Graph.isRoot).getD
    false).map fun guid => ⟨guid, s.births guid⟩

/-- The cache holds and nothing was bumped since. -/
def warm (s : RootCache) : Bool :=
  s.rootsValid && decide (s.cachedRootVersion = s.structureVersion)

/-- `roots`. -/
def roots (s : RootCache) : RootCache × List VertexRef :=
  if s.warm then (s, s.cachedRoots)
  else
    ({ s with
      cachedRoots := s.computeRoots
      cachedRootVersion := s.structureVersion
      rootsValid := true }, s.computeRoots)

/-- A structural write, with its bumps. -/
def perform (s : RootCache) (op : GraphOp) : RootCache :=
  { s with
    graph := s.graph.step op
    births := fun guid => if (s.graph.vertices.find? guid).isSome then s.births guid else s.calls
    calls := s.calls + 1
    structureVersion := s.structureVersion + BitVec.ofNat 64 (s.graph.bumps op) }

def step (s : RootCache) : RootsCall → RootCache
  | .op op => s.perform op
  | .roots => s.roots.1

/-- The bumps since the cached answer was computed, none without one. -/
def bumpsSince (s : RootCache) (since : Nat) : List RootsCall → Nat
  | [] => since
  | .op op :: rest =>
    (s.perform op).bumpsSince (if s.rootsValid then since + s.graph.bumps op else 0) rest
  | .roots :: rest => s.roots.1.bumpsSince (if s.warm then since else 0) rest

/-- The pointer leads to a vertex that is in the graph. -/
def IsLive (s : RootCache) (ref : VertexRef) : Prop :=
  (s.graph.vertices.find? ref.guid).isSome ∧ ref.birth = s.births ref.guid

/-- The pointers to the vertices without in links, each once. -/
def Answers (s : RootCache) (refs : List VertexRef) : Prop :=
  refs.Nodup ∧ ∀ ref, ref ∈ refs ↔
    (s.graph.vertices.find? ref.guid).map Graph.isRoot = some true ∧
      ref.birth = s.births ref.guid

theorem answers_computeRoots (s : RootCache) : s.Answers s.computeRoots := by
  constructor
  · refine List.Nodup.map (fun a b h => congrArg VertexRef.guid h) ?_
    exact (Table.keys_nodup s.graph.vertices).filter _
  · rintro ⟨guid, birth⟩
    rw [computeRoots, List.mem_map]
    dsimp only
    constructor
    · rintro ⟨w, hw, heq⟩
      obtain ⟨rfl, rfl⟩ := VertexRef.mk.inj heq
      have hroot := (List.mem_filter.mp hw).2
      cases hv : s.graph.vertices.find? w with
      | none =>
        rw [hv] at hroot
        cases hroot
      | some v =>
        rw [hv] at hroot
        exact ⟨congrArg some hroot, rfl⟩
    · rintro ⟨hroot, rfl⟩
      refine ⟨guid, List.mem_filter.mpr ⟨?_, ?_⟩, rfl⟩
      · obtain ⟨v, hv, -⟩ := Option.map_eq_some_iff.mp hroot
        exact Table.mem_keys.mpr ⟨v, hv⟩
      · rw [hroot]
        rfl

variable {s : RootCache}

/-- An answer stays right over a call that makes no bump. -/
theorem Answers.perform {refs : List VertexRef} (h : s.Answers refs) {op : GraphOp}
    (hquiet : s.graph.bumps op = 0) : (s.perform op).Answers refs := by
  refine ⟨h.1, fun ref => ?_⟩
  rw [h.2 ref, RootCache.perform]
  dsimp only
  rw [Graph.sameRoots_of_no_bump s.graph op hquiet ref.guid]
  refine and_congr_right fun hroot => ?_
  obtain ⟨v, hv, -⟩ := Option.map_eq_some_iff.mp hroot
  rw [if_pos (by rw [hv]; rfl)]

/-- A state of a run and the bumps since its cached answer was computed. -/
structure Watched (s : RootCache) (since : Nat) : Prop where
  linked : s.graph.Linked
  version : s.rootsValid = true →
    s.structureVersion = s.cachedRootVersion + BitVec.ofNat 64 since
  answer : s.rootsValid = true → since = 0 → s.Answers s.cachedRoots

theorem watched_fresh (options : GraphOptions) : Watched (fresh options) 0 where
  linked := Graph.linked_empty options
  version := fun h => by cases h
  answer := fun h => by cases h

variable {since bumped : Nat}

theorem Watched.perform (h : Watched s since) (op : GraphOp) :
    Watched (s.perform op) (if s.rootsValid then since + s.graph.bumps op else 0) where
  linked := h.linked.step op
  version := by
    intro hvalid
    have hvalid' : s.rootsValid = true := hvalid
    rw [if_pos hvalid', BitVec.ofNat_add, ← BitVec.add_assoc, RootCache.perform]
    dsimp only
    rw [h.version hvalid']
  answer := by
    intro hvalid hzero
    have hvalid' : s.rootsValid = true := hvalid
    rw [if_pos hvalid'] at hzero
    exact (h.answer hvalid' (by omega)).perform (by omega)

theorem Watched.roots (h : Watched s since) : Watched s.roots.1 (if s.warm then since else 0) := by
  rw [RootCache.roots]
  by_cases hwarm : s.warm = true
  · rw [if_pos hwarm, if_pos hwarm]
    exact h
  · rw [if_neg hwarm, if_neg hwarm]
    exact ⟨h.linked, fun _ => (BitVec.add_zero _).symm, fun _ _ => answers_computeRoots s⟩

/-- Along a run. -/
theorem Watched.run (h : Watched s since) (calls : List RootsCall) :
    Watched (run step s calls) (s.bumpsSince since calls) := by
  induction calls generalizing s since with
  | nil => exact h
  | cons call rest ih =>
    cases call with
    | op op => exact ih (h.perform op)
    | roots => exact ih h.roots

/-- What a call of `roots` answers. -/
theorem Watched.answers (h : Watched s since) (hwrap : 2 ^ 64 ∣ since → since = 0) :
    s.Answers s.roots.2 := by
  rw [RootCache.roots]
  by_cases hwarm : s.warm = true
  · rw [if_pos hwarm]
    rw [warm, Bool.and_eq_true, decide_eq_true_iff] at hwarm
    refine h.answer hwarm.1 (hwrap ?_)
    have hversion := h.version hwarm.1
    rw [← hwarm.2, BitVec.self_eq_add_right] at hversion
    have hmod := congrArg BitVec.toNat hversion
    rw [BitVec.toNat_ofNat] at hmod
    exact Nat.dvd_of_mod_eq_zero hmod
  · rw [if_neg hwarm]
    exact answers_computeRoots s

/-- A vertex has no in link exactly if no edge record has it as its target. -/
theorem isRoot_iff (h : s.graph.Linked) (guid : Guid) :
    (s.graph.vertices.find? guid).map Graph.isRoot = some true ↔
      (s.graph.vertices.find? guid).isSome ∧
        ∀ id e, s.graph.edges.find? id = some e → e.target ≠ guid := by
  cases hv : s.graph.vertices.find? guid with
  | none => exact ⟨fun hroot => (by cases hroot), fun hlive => (by cases hlive.1)⟩
  | some v =>
    rw [Option.map_some, Option.some_inj, Graph.isRoot, List.isEmpty_iff]
    constructor
    · refine fun hempty => ⟨rfl, ?_⟩
      rintro id e he rfl
      have hlink := (h.mem_inLinks hv ⟨id, e.origin⟩).mpr ⟨e, he, rfl, rfl⟩
      rw [hempty] at hlink
      cases hlink
    · rintro ⟨-, hnone⟩
      refine List.eq_nil_iff_forall_not_mem.mpr fun l hl => ?_
      obtain ⟨e, he, htarget, -⟩ := (h.mem_inLinks hv l).mp hl
      exact hnone l.edge e he htarget

/-- A call of `roots` behind any sequence of structural writes and other calls returns the
pointers to exactly the live vertices that no edge has as its target, each once, unless a
positive multiple of 2^64 bumps lies between the cached answer and the call. -/
theorem roots_never_stale (options : GraphOptions) (calls : List RootsCall)
    (hwrap : 2 ^ 64 ∣ (fresh options).bumpsSince 0 calls →
      (fresh options).bumpsSince 0 calls = 0) :
    (run step (fresh options) calls).roots.2.Nodup ∧
      ∀ ref, ref ∈ (run step (fresh options) calls).roots.2 ↔
        (run step (fresh options) calls).IsLive ref ∧
          ∀ id e, (run step (fresh options) calls).graph.edges.find? id = some e →
            e.target ≠ ref.guid := by
  have hwatched := (watched_fresh options).run calls
  obtain ⟨hnodup, hmem⟩ := hwatched.answers hwrap
  refine ⟨hnodup, fun ref => ?_⟩
  rw [hmem ref, isRoot_iff hwatched.linked, IsLive]
  exact and_right_comm

/-- Two roots, of which one is freed and comes back, between four calls of `roots`. -/
def revivedCalls : List RootsCall :=
  [.roots, .op (.createPlainVertex [] 1), .op (.createPlainVertex [] 2), .roots,
    .op (.connect 1 2 10), .roots, .op (.disconnect 1 2), .op (.removeVertex 1),
    .op (.createPlainVertex [] 1)]

theorem roots_never_stale_revived :
    (run step (fresh {}) revivedCalls).roots.2 = [⟨1, 5⟩, ⟨2, 1⟩] ∧
      (run step (fresh {}) revivedCalls).roots.2.Nodup :=
  ⟨by decide, (roots_never_stale {} revivedCalls (by decide +kernel)).1⟩

/-! ### The counter wraps -/

/-- A vertex is created, and then freed and created again `n` times. -/
def wrappingCalls (n : Nat) : List RootsCall :=
  [.roots, .op (.createPlainVertex [] 1)] ++
    (List.replicate n [.op (.removeVertex 1), .op (.createPlainVertex [] 1)]).flatten

/-- The vertex is there and the cached answer is still the one of the empty graph. -/
structure Wrapping (s : RootCache) (bumped : Nat) : Prop where
  valid : s.rootsValid = true
  cached : s.cachedRoots = []
  cachedVersion : s.cachedRootVersion = 0
  version : s.structureVersion = BitVec.ofNat 64 bumped
  live : s.graph.vertices.find? 1 = some (Vertex.new [])
  edges : ∀ id, s.graph.edges.find? id = none

theorem Wrapping.round (h : Wrapping s bumped) :
    Wrapping ((s.perform (.removeVertex 1)).perform (.createPlainVertex [] 1)) (bumped + 3) := by
  have hremoved : (s.graph.step (.removeVertex 1)).vertices.find? 1 = none := by
    rw [Graph.step, Graph.find?_vertices_removeVertex h.live, if_pos rfl]
  have hbump : s.graph.bumps (.removeVertex 1) = 2 := by
    rw [Graph.bumps, Graph.removeVertex_snd h.live]
    rfl
  have hcreated : (s.graph.step (.removeVertex 1)).bumps (.createPlainVertex [] 1) = 1 := by
    rw [Graph.bumps, Graph.createPlainVertex, hremoved]
    rfl
  refine ⟨h.valid, h.cached, h.cachedVersion, ?_, ?_, ?_⟩
  · rw [RootCache.perform, RootCache.perform]
    dsimp only
    rw [hbump, hcreated, h.version, ← BitVec.ofNat_add, ← BitVec.ofNat_add]
  · rw [RootCache.perform, RootCache.perform]
    dsimp only
    rw [Graph.step, Graph.createPlainVertex, hremoved, Option.isSome_none,
      if_neg Bool.false_ne_true, Graph.find?_insertVertex, if_pos rfl]
  · intro id
    rw [RootCache.perform, RootCache.perform]
    dsimp only
    rw [Graph.step, Graph.createPlainVertex, hremoved, Option.isSome_none,
      if_neg Bool.false_ne_true, Graph.insertVertex_edges, Graph.step,
      Graph.find?_edges_removeVertex h.live, h.edges, ite_self]

theorem Wrapping.rounds (h : Wrapping s bumped) (n : Nat) :
    Wrapping (run step s
      (List.replicate n [.op (.removeVertex 1), .op (.createPlainVertex [] 1)]).flatten)
      (bumped + 3 * n) := by
  induction n generalizing s bumped with
  | zero => exact h
  | succ n ih =>
    have hround := ih h.round
    rw [Nat.mul_succ, Nat.add_comm (3 * n), ← Nat.add_assoc]
    exact hround

theorem wrapping_start :
    Wrapping (run step (fresh {}) [.roots, .op (.createPlainVertex [] 1)]) 1 where
  valid := rfl
  cached := rfl
  cachedVersion := rfl
  version := rfl
  live := by decide
  edges := fun _ => rfl

theorem Wrapping.stale (h : Wrapping s bumped) (hversion : BitVec.ofNat 64 bumped = 0) :
    s.roots.2 = [] := by
  have hwarm : s.warm = true := by
    rw [warm, h.valid, h.cachedVersion, h.version, hversion]
    rfl
  rw [RootCache.roots, if_pos hwarm]
  exact h.cached

theorem wrapping_calls (n : Nat) :
    Wrapping (run step (fresh {}) (wrappingCalls n)) (1 + 3 * n) := by
  rw [wrappingCalls, run_append]
  exact wrapping_start.rounds n

/-- Behind 2^64 bumps the cached answer of the empty graph is returned, and the vertex that is
there is missing from it. -/
theorem roots_wrap :
    (run step (fresh {}) (wrappingCalls 6148914691236517205)).roots.2 = [] ∧
      (run step (fresh {}) (wrappingCalls 6148914691236517205)).graph.vertices.find? 1 =
        some (Vertex.new []) ∧
      ∀ id, (run step (fresh {}) (wrappingCalls 6148914691236517205)).graph.edges.find? id =
        none :=
  have h := wrapping_calls 6148914691236517205
  ⟨h.stale (by decide), h.live, h.edges⟩

end RootCache

end KimixNative.GraphDb
