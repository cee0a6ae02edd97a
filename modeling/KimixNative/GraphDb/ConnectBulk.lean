import KimixNative.GraphDb.Adjacency
import Mathlib.Data.Finset.Card

/-!
# Connecting in bulk

`connect_bulk` looks every endpoint up once, sorts the requests that cannot create anything out,
and creates the rest in order. Endpoints are numbered by 32 bits, the greatest number standing
for no endpoint, so the bulk call does what the single calls do as long as there are fewer
endpoints than that; the endpoint that gets the greatest number is taken for a missing one.
-/

namespace KimixNative.GraphDb

/-- `kNoEndpoint`. -/
def kNoEndpoint : Nat := 2 ^ 32 - 1

/-- What `resolve` keeps: the endpoints by number, the number of each, and its last answer. A
vertex is named by the guid it is published under; the shard of an endpoint only matters to the
locks. -/
structure Endpoints where
  endpoints : List Guid := []
  resolved : Table Guid Nat := ∅
  lastGuid : Guid := 0
  lastId : Nat := kNoEndpoint

/-- A request with its two endpoints, `from_ends`, `to_ends`, `verdicts` and `pending`. -/
structure BulkRow where
  fromEnd : Nat := kNoEndpoint
  toEnd : Nat := kNoEndpoint
  verdict : EdgeOutcome := .created
  pending : Bool := false
  deriving DecidableEq

namespace Endpoints

def resolve (g : Graph) (r : Endpoints) (guid : Guid) : Nat × Endpoints :=
  if r.lastId ≠ kNoEndpoint ∧ r.lastGuid = guid then (r.lastId, r)
  else
    match r.resolved.find? guid with
    | some id => (id, { r with lastGuid := guid, lastId := id })
    | none =>
      if (g.vertices.find? guid).isNone then (kNoEndpoint, r)
      else
        let id := r.endpoints.length % 2 ^ 32
        (id, ⟨r.endpoints ++ [guid], r.resolved.insert guid id, guid, id⟩)

/-- One turn of the loop that resolves the requests. -/
def classify (g : Graph) (r : Endpoints) (request : EdgeRequest) : BulkRow × Endpoints :=
  if request.source = request.target then ({ verdict := .selfEdge }, r)
  else
    let x := r.resolve g request.source
    if x.1 = kNoEndpoint then ({ verdict := .missingSource }, x.2)
    else
      let y := x.2.resolve g request.target
      if y.1 = kNoEndpoint then ({ verdict := .missingTarget }, y.2)
      else (⟨x.1, y.1, .created, true⟩, y.2)

def classifyAll (g : Graph) : Endpoints → List EdgeRequest → List BulkRow × Endpoints
  | r, [] => ([], r)
  | r, request :: rest =>
    let x := r.classify g request
    let y := classifyAll g x.2 rest
    (x.1 :: y.1, y.2)

end Endpoints

/-- What `connect_bulk` leaves and answers. -/
structure BulkResult where
  graph : Graph
  created : Nat
  outcomes : List EdgeOutcome

namespace Graph

/-- The loop that creates the edges; each row comes with the guid its edge would get. -/
def createRows (endpoints : List Guid) : Graph → List (BulkRow × Guid) → BulkResult
  | g, [] => ⟨g, 0, []⟩
  | g, (row, minted) :: rest =>
    if row.pending then
      let x := g.createEdgeLocked (endpoints.getD row.fromEnd 0) (endpoints.getD row.toEnd 0)
        .directed [] [] false none minted
      let y := createRows endpoints x.1 rest
      if x.2.1 = .ok then ⟨y.graph, y.created + 1, row.verdict :: y.outcomes⟩
      else ⟨y.graph, y.created, .duplicateEdge :: y.outcomes⟩
    else
      let y := createRows endpoints g rest
      ⟨y.graph, y.created, row.verdict :: y.outcomes⟩

/-- `connect_bulk`, with the resolution of its endpoints. -/
def connectBulkResolved (g : Graph) (requests : List (EdgeRequest × Guid)) : BulkResult :=
  let x := Endpoints.classifyAll g {} (requests.map Prod.fst)
  createRows x.2.endpoints g (x.1.zip (requests.map Prod.snd))

/-- `connect` on one request after the other, with its answers. -/
def connectAll : Graph → List (EdgeRequest × Guid) → Graph × List Bool
  | g, [] => (g, [])
  | g, (request, minted) :: rest =>
    let x := g.connect request.source request.target minted
    let y := connectAll x.1 rest
    (y.1, x.2 :: y.2)

/-- The endpoints of the edges. -/
def pairs (g : Graph) : Set (Guid × Guid) :=
  {p | ∃ id e, g.edges.find? id = some e ∧ (e.origin, e.target) = p}

/-- The endpoints that a call looks up and finds. -/
def endpointsOf (g : Graph) (request : EdgeRequest) : List Guid :=
  if request.source = request.target ∨ (g.vertices.find? request.source).isNone then []
  else if (g.vertices.find? request.target).isNone then [request.source]
  else [request.source, request.target]

def allEndpoints (g : Graph) (requests : List EdgeRequest) : Finset Guid :=
  (requests.flatMap g.endpointsOf).toFinset

end Graph

/-! ### Resolving -/

variable {guid : Guid} {r : Endpoints} {request : EdgeRequest}

variable {endpoints : List Guid}

namespace Endpoints

variable {g : Graph}

/-- The numbers are places of live vertices in the list. -/
structure Exact (g : Graph) (r : Endpoints) : Prop where
  nodup : r.endpoints.Nodup
  live : ∀ guid ∈ r.endpoints, (g.vertices.find? guid).isSome
  known : ∀ guid id, r.resolved.find? guid = some id → r.endpoints[id]? = some guid
  listed : ∀ guid ∈ r.endpoints, (r.resolved.find? guid).isSome
  last : r.lastId ≠ kNoEndpoint → r.endpoints[r.lastId]? = some r.lastGuid
  few : r.endpoints.length ≤ kNoEndpoint

theorem exact_empty : Exact g {} where
  nodup := List.nodup_nil
  live := fun _ h => absurd h List.not_mem_nil
  known := fun guid id h => by
    rw [Table.find?_empty] at h
    cases h
  listed := fun _ h => absurd h List.not_mem_nil
  last := fun h => absurd rfl h
  few := Nat.zero_le _

/-- What a lookup answers: the place of a live vertex, or no endpoint. -/
structure Resolved (g : Graph) (r : Endpoints) (guid : Guid) (x : Nat × Endpoints) : Prop where
  exact : Exact g x.2
  grows : r.endpoints <+: x.2.endpoints
  only : ∀ w ∈ x.2.endpoints, w ∈ r.endpoints ∨ w = guid ∧ (g.vertices.find? guid).isSome
  found : x.1 ≠ kNoEndpoint → x.2.endpoints[x.1]? = some guid
  missing : x.1 = kNoEndpoint ↔ g.vertices.find? guid = none

theorem Exact.id_lt (h : r.Exact g) {id : Nat} (hid : r.endpoints[id]? = some guid) :
    id < kNoEndpoint :=
  Nat.lt_of_lt_of_le (List.getElem?_eq_some_iff.mp hid).1 h.few

/-- A vertex that has a number. -/
theorem Exact.resolved (h : r.Exact g) {id : Nat} (hid : r.endpoints[id]? = some guid)
    {r' : Endpoints} (hr' : r'.Exact g) (hsame : r'.endpoints = r.endpoints) :
    Resolved g r guid (id, r') where
  exact := hr'
  grows := hsame ▸ List.prefix_rfl
  only := fun w hw => .inl (hsame ▸ hw)
  found := fun _ => hsame ▸ hid
  missing := by
    have hne : id ≠ kNoEndpoint := Nat.ne_of_lt (h.id_lt hid)
    have hlive := h.live guid (List.mem_of_getElem? hid)
    refine ⟨fun heq => absurd heq hne, fun hnone => ?_⟩
    rw [hnone] at hlive
    cases hlive

/-- A vertex that has no number yet, and gets one. -/
theorem Exact.push {r : Endpoints} (h : r.Exact g) {guid : Guid} (hnew : guid ∉ r.endpoints)
    (hlive : (g.vertices.find? guid).isSome) (hfew : r.endpoints.length < kNoEndpoint) :
    Resolved g r guid (r.endpoints.length, ⟨r.endpoints ++ [guid],
      r.resolved.insert guid r.endpoints.length, guid, r.endpoints.length⟩) := by
  have hplace : (r.endpoints ++ [guid])[r.endpoints.length]? = some guid := by simp
  refine ⟨⟨?_, ?_, ?_, ?_, fun _ => hplace, ?_⟩, List.prefix_append _ _, ?_,
    fun _ => hplace, fun heq => absurd heq (Nat.ne_of_lt hfew), fun hnone => ?_⟩
  · exact h.nodup.append (List.nodup_singleton guid) (List.disjoint_singleton.mpr hnew)
  · intro w hw
    obtain hw | hw := List.mem_append.mp hw
    · exact h.live w hw
    · exact List.mem_singleton.mp hw ▸ hlive
  · intro w id hw
    dsimp only at hw
    rw [Table.find?_insert] at hw
    split_ifs at hw with heq
    · obtain rfl := Option.some.inj hw
      exact heq ▸ hplace
    · have hold := h.known w id hw
      exact (List.getElem?_append_left (List.getElem?_eq_some_iff.mp hold).1).trans hold
  · intro w hw
    dsimp only
    rw [Table.find?_insert]
    split_ifs with heq
    · rfl
    · obtain hw | hw := List.mem_append.mp hw
      · exact h.listed w hw
      · exact absurd (List.mem_singleton.mp hw) heq
  · rw [List.length_append]
    exact hfew
  · intro w hw
    obtain hw | hw := List.mem_append.mp hw
    · exact .inl hw
    · exact .inr ⟨List.mem_singleton.mp hw, hlive⟩
  · rw [hnone] at hlive
    cases hlive

/-- A lookup by the number of endpoints so far. -/
theorem Exact.resolve_cases (h : r.Exact g) (guid : Guid) :
    (∃ id r', r.resolve g guid = (id, r') ∧ Resolved g r guid (id, r')) ∨
      guid ∉ r.endpoints ∧ (g.vertices.find? guid).isSome ∧
        r.resolve g guid = (r.endpoints.length % 2 ^ 32, ⟨r.endpoints ++ [guid],
          r.resolved.insert guid (r.endpoints.length % 2 ^ 32), guid,
          r.endpoints.length % 2 ^ 32⟩) := by
  rw [Endpoints.resolve]
  by_cases hlast : r.lastId ≠ kNoEndpoint ∧ r.lastGuid = guid
  · rw [if_pos hlast]
    obtain ⟨hne, rfl⟩ := hlast
    exact .inl ⟨_, _, rfl, h.resolved (h.last hne) h rfl⟩
  · rw [if_neg hlast]
    cases hknown : r.resolved.find? guid with
    | some id =>
      have hid := h.known guid id hknown
      exact .inl ⟨_, _, rfl, h.resolved hid
        ⟨h.nodup, h.live, h.known, h.listed, fun _ => hid, h.few⟩ rfl⟩
    | none =>
      have hnew : guid ∉ r.endpoints := by
        intro hmem
        have := h.listed guid hmem
        rw [hknown] at this
        cases this
      dsimp only
      cases hdead : g.vertices.find? guid with
      | none =>
        exact .inl ⟨_, _, rfl, h, List.prefix_rfl, fun w hw => .inl hw,
          fun hne => absurd rfl hne, fun _ => hdead, fun _ => rfl⟩
      | some v => exact .inr ⟨hnew, rfl, rfl⟩

/-- A lookup is right, as long as a new endpoint still gets a number. -/
theorem Exact.resolve (h : r.Exact g) (guid : Guid)
    (hroom : guid ∉ r.endpoints → (g.vertices.find? guid).isSome → r.endpoints.length < kNoEndpoint) :
    Resolved g r guid (r.resolve g guid) := by
  obtain ⟨id, r', heq, hresolved⟩ | ⟨hnew, hlive, heq⟩ := h.resolve_cases guid
  · rw [heq]
    exact hresolved
  · have hfew := hroom hnew hlive
    have hid : r.endpoints.length % 2 ^ 32 = r.endpoints.length :=
      Nat.mod_eq_of_lt (by unfold kNoEndpoint at hfew; omega)
    rw [heq, hid]
    exact h.push hnew hlive hfew

/-! ### Classifying -/

/-- What is left of a request: it is refused, or it goes to the right endpoints. -/
structure Classified (g : Graph) (endpoints : List Guid) (request : EdgeRequest) (row : BulkRow) :
    Prop where
  verdict : row.verdict = g.bulkVerdict request
  pending : row.pending = true ↔ g.bulkVerdict request = .created
  source : row.pending = true → endpoints[row.fromEnd]? = some request.source
  target : row.pending = true → endpoints[row.toEnd]? = some request.target

theorem Classified.mono {endpoints' : List Guid} {row : BulkRow}
    (h : Classified g endpoints request row) (hp : endpoints <+: endpoints') :
    Classified g endpoints' request row := by
  have hstill : ∀ {i : Nat} {w}, endpoints[i]? = some w → endpoints'[i]? = some w := by
    intro i w hw
    obtain ⟨rest, rfl⟩ := hp
    exact (List.getElem?_append_left (List.getElem?_eq_some_iff.mp hw).1).trans hw
  exact ⟨h.verdict, h.pending, fun hp => hstill (h.source hp), fun hp => hstill (h.target hp)⟩

theorem classified_refused {verdict : EdgeOutcome} (hne : verdict ≠ .created)
    (h : g.bulkVerdict request = verdict) :
    Classified g endpoints request { verdict } where
  verdict := h.symm
  pending := ⟨fun hp => absurd hp Bool.false_ne_true, fun heq => absurd (h.symm.trans heq) hne⟩
  source := fun hp => by cases hp
  target := fun hp => by cases hp

/-- The numbers do not run out: all endpoints so far belong to a set that is small enough. -/
def Within (all : Finset Guid) (r : Endpoints) : Prop :=
  all.card ≤ kNoEndpoint ∧ ∀ w ∈ r.endpoints, w ∈ all

variable {all : Finset Guid}

theorem Within.length_lt (h : Within all r) (he : r.Exact g) (hguid : guid ∈ all)
    (hnew : guid ∉ r.endpoints) : r.endpoints.length < kNoEndpoint := by
  have hnodup : (guid :: r.endpoints).Nodup := List.nodup_cons.mpr ⟨hnew, he.nodup⟩
  have hsub : (guid :: r.endpoints).toFinset ⊆ all := by
    intro w hw
    obtain rfl | hw := List.mem_cons.mp (List.mem_toFinset.mp hw)
    · exact hguid
    · exact h.2 w hw
  have hcard := Finset.card_le_card hsub
  rw [List.toFinset_card_of_nodup hnodup, List.length_cons] at hcard
  exact Nat.lt_of_lt_of_le hcard h.1

theorem Within.resolve (h : Within all r) {x : Nat × Endpoints} (hx : Resolved g r guid x)
    (hguid : (g.vertices.find? guid).isSome → guid ∈ all) : Within all x.2 := by
  refine ⟨h.1, fun w hw => ?_⟩
  obtain hold | ⟨rfl, hlive⟩ := hx.only w hw
  · exact h.2 w hold
  · exact hguid hlive

/-- One request. -/
theorem Exact.classify (h : r.Exact g) (hall : Within all r)
    (hends : ∀ w ∈ g.endpointsOf request, w ∈ all) :
    (r.classify g request).2.Exact g ∧ Within all (r.classify g request).2 ∧
      r.endpoints <+: (r.classify g request).2.endpoints ∧
      Classified g (r.classify g request).2.endpoints request (r.classify g request).1 := by
  rw [Endpoints.classify]
  by_cases hself : request.source = request.target
  · rw [if_pos hself]
    exact ⟨h, hall, List.prefix_rfl, classified_refused (by decide) (if_pos hself)⟩
  rw [if_neg hself]
  dsimp only
  have hsource : (g.vertices.find? request.source).isSome → request.source ∈ all := by
    intro hlive
    refine hends _ ?_
    rw [Graph.endpointsOf, if_neg (not_or.mpr ⟨hself, by simpa using Option.isSome_iff_ne_none.mp hlive⟩)]
    split_ifs <;> exact List.mem_cons_self
  obtain ⟨x, hx⟩ : ∃ x, x = r.resolve g request.source := ⟨_, rfl⟩
  have hfirst : Resolved g r request.source x := hx ▸
    h.resolve request.source fun hnew hlive => hall.length_lt h (hsource hlive) hnew
  have hall₁ := hall.resolve hfirst hsource
  rw [← hx]
  by_cases hnone : x.1 = kNoEndpoint
  · rw [if_pos hnone]
    have hdead := hfirst.missing.mp hnone
    refine ⟨hfirst.exact, hall₁, hfirst.grows, classified_refused (by decide) ?_⟩
    rw [Graph.bulkVerdict, if_neg hself, hdead]
    rfl
  rw [if_neg hnone]
  have hlive : (g.vertices.find? request.source).isSome :=
    Option.isSome_iff_ne_none.mpr fun hdead => hnone (hfirst.missing.mpr hdead)
  have htarget : (g.vertices.find? request.target).isSome → request.target ∈ all := by
    intro hlive'
    refine hends _ ?_
    rw [Graph.endpointsOf, if_neg (not_or.mpr ⟨hself, by simpa using Option.isSome_iff_ne_none.mp hlive⟩),
      if_neg (by simpa using Option.isSome_iff_ne_none.mp hlive')]
    exact List.mem_cons_of_mem _ List.mem_cons_self
  obtain ⟨y, hy⟩ : ∃ y, y = x.2.resolve g request.target := ⟨_, rfl⟩
  have hsecond : Resolved g x.2 request.target y := hy ▸
    hfirst.exact.resolve request.target fun hnew hlive' =>
      hall₁.length_lt hfirst.exact (htarget hlive') hnew
  have hall₂ := hall₁.resolve hsecond htarget
  have hgrows := hfirst.grows.trans hsecond.grows
  rw [← hy]
  by_cases hnone' : y.1 = kNoEndpoint
  · rw [if_pos hnone']
    have hdead := hsecond.missing.mp hnone'
    refine ⟨hsecond.exact, hall₂, hgrows, classified_refused (by decide) ?_⟩
    rw [Graph.bulkVerdict, if_neg hself, if_neg (by simpa using Option.isSome_iff_ne_none.mp hlive), hdead]
    rfl
  rw [if_neg hnone']
  have hlive' : (g.vertices.find? request.target).isSome :=
    Option.isSome_iff_ne_none.mpr fun hdead => hnone' (hsecond.missing.mpr hdead)
  have hverdict : g.bulkVerdict request = .created := by
    rw [Graph.bulkVerdict, if_neg hself, if_neg (by simpa using Option.isSome_iff_ne_none.mp hlive),
      if_neg (by simpa using Option.isSome_iff_ne_none.mp hlive')]
  have hplace := hfirst.found hnone
  refine ⟨hsecond.exact, hall₂, hgrows, hverdict.symm, ⟨fun _ => hverdict, fun _ => rfl⟩,
    fun _ => ?_, fun _ => hsecond.found hnone'⟩
  obtain ⟨rest, hrest⟩ := hsecond.grows
  rw [← hrest]
  exact (List.getElem?_append_left (List.getElem?_eq_some_iff.mp hplace).1).trans hplace

/-- All requests. -/
theorem Exact.classifyAll (h : r.Exact g) (hall : Within all r) {requests : List EdgeRequest}
    (hends : ∀ w ∈ requests.flatMap g.endpointsOf, w ∈ all) :
    r.endpoints <+: (classifyAll g r requests).2.endpoints ∧
      List.Forall₂ (Classified g (classifyAll g r requests).2.endpoints) requests
        (classifyAll g r requests).1 := by
  induction requests generalizing r with
  | nil => exact ⟨List.prefix_rfl, .nil⟩
  | cons request rest ih =>
    rw [List.flatMap_cons] at hends
    obtain ⟨hexact, hall', hgrows, hrow⟩ := h.classify hall
      fun w hw => hends w (List.mem_append_left _ hw)
    obtain ⟨hgrows', hrows⟩ := ih hexact hall' fun w hw => hends w (List.mem_append_right _ hw)
    exact ⟨hgrows.trans hgrows', .cons (hrow.mono hgrows') hrows⟩

end Endpoints

/-! ### Creating -/

namespace Graph

variable {g : Graph}

/-- What `connect` looks at. -/
structure Connectable (g : Graph) (source target minted : Guid) : Prop where
  distinct : source ≠ target
  originLive : (g.vertices.find? source).isSome
  targetLive : (g.vertices.find? target).isSome
  single : ∀ v, g.vertices.find? source = some v → hasOutEdgeLocked v target = false
  free : g.edges.find? minted = none

/-- `connect` makes the edge, or leaves the graph as it is. -/
theorem connect_cases (g : Graph) (source target minted : Guid) :
    (¬g.Connectable source target minted ∧ g.connect source target minted = (g, false)) ∨
      g.Connectable source target minted ∧
        g.connect source target minted = ((g.insertEdge minted ⟨source, target, .directed, [],
          PropertyBag.ofPropertyList [], true, 1⟩).linkEdge minted source target, true) := by
  rw [connect]
  by_cases hself : source = target
  · rw [if_pos hself]
    exact .inl ⟨fun h => h.distinct hself, rfl⟩
  rw [if_neg hself]
  obtain ⟨status, heq, herror⟩ | ⟨v, hv, htarget, -, hsingle, hfree, -, heq⟩ :=
    g.createEdgeLocked_cases source target .directed [] [] false none minted
  · refine .inl ⟨fun h => ?_, ?_⟩
    · obtain ⟨v, hv⟩ := Option.isSome_iff_exists.mp h.originLive
      obtain ⟨w, hw⟩ := Option.isSome_iff_exists.mp h.targetLive
      have hok : (g.createEdgeLocked source target .directed [] [] false none minted).2.1 = .ok := by
        simp [createEdgeLocked, hv, hw, hself, h.single v hv, h.free]
      rw [heq] at hok
      obtain rfl : status = .ok := hok
      cases herror
    · rw [heq]
      have hne : status ≠ .ok := by
        rintro rfl
        cases herror
      exact Prod.ext rfl (decide_eq_false hne)
  · refine .inr ⟨⟨hself, Option.isSome_iff_exists.mpr ⟨v, hv⟩, htarget, fun w hw => ?_, hfree⟩, ?_⟩
    · obtain rfl : v = w := Option.some.inj (hv.symm.trans hw)
      exact hsingle (.inl rfl)
    · rw [heq]
      rfl

/-- No vertex comes or goes. -/
theorem connect_live (g : Graph) (source target minted u : Guid) :
    ((g.connect source target minted).1.vertices.find? u).isSome =
      (g.vertices.find? u).isSome := by
  obtain ⟨-, heq⟩ | ⟨-, heq⟩ := g.connect_cases source target minted
  · rw [heq]
  · rw [heq, find?_linkEdge, Option.isSome_map, insertEdge_vertices]

/-- `connect` is a creation with a verdict before it. -/
theorem connect_eq_create (g : Graph) (source target minted : Guid) (hne : source ≠ target) :
    g.connect source target minted =
      ((g.createEdgeLocked source target .directed [] [] false none minted).1,
        decide ((g.createEdgeLocked source target .directed [] [] false none minted).2.1 = .ok)) := by
  rw [connect, if_neg hne]

/-- A bulk result is what the single calls leave and answer. -/
structure Matches (b : BulkResult) (s : Graph × List Bool) : Prop where
  graph : b.graph = s.1
  created : b.created = s.2.count true
  outcomes : b.outcomes.map (fun o => decide (o = .created)) = s.2

variable {minted : Guid} {requests : List (EdgeRequest × Guid)}

variable {g₀ : Graph}

theorem bulkVerdict_connectable
    (hlive : ∀ u, (g.vertices.find? u).isSome = (g₀.vertices.find? u).isSome)
    (h : g.Connectable request.source request.target minted) :
    g₀.bulkVerdict request = .created := by
  have hsource : (g₀.vertices.find? request.source).isNone = false := by
    rw [← Option.not_isSome, ← hlive, h.originLive]
    rfl
  have htarget : (g₀.vertices.find? request.target).isNone = false := by
    rw [← Option.not_isSome, ← hlive, h.targetLive]
    rfl
  rw [bulkVerdict, if_neg h.distinct, hsource, htarget]
  rfl

/-- The rows of classified requests do what the single calls do. -/
theorem createRows_matches {rows : List BulkRow}
    (hrows : List.Forall₂ (Endpoints.Classified g₀ endpoints) (requests.map Prod.fst) rows)
    (hlive : ∀ u, (g.vertices.find? u).isSome = (g₀.vertices.find? u).isSome) :
    Matches (createRows endpoints g (rows.zip (requests.map Prod.snd))) (connectAll g requests) := by
  induction requests generalizing g rows with
  | nil =>
    obtain rfl := List.forall₂_nil_left_iff.mp hrows
    exact ⟨rfl, rfl, rfl⟩
  | cons head rest ih =>
    obtain ⟨request, minted⟩ := head
    obtain ⟨row, rows', hrow, hrest, rfl⟩ := List.forall₂_cons_left_iff.mp hrows
    have hnext := ih (g := (g.connect request.source request.target minted).1) hrest
      fun u => (g.connect_live _ _ _ u).trans (hlive u)
    rw [List.map_cons, List.zip_cons_cons, createRows, connectAll]
    dsimp only at hrow ⊢
    cases hpending : row.pending with
    | true =>
      have hcreated := hrow.pending.mp hpending
      have hsource : endpoints.getD row.fromEnd 0 = request.source := by
        rw [List.getD_eq_getElem?_getD, hrow.source hpending]
        rfl
      have htarget : endpoints.getD row.toEnd 0 = request.target := by
        rw [List.getD_eq_getElem?_getD, hrow.target hpending]
        rfl
      have hne : request.source ≠ request.target := by
        intro heq
        rw [bulkVerdict, if_pos heq] at hcreated
        cases hcreated
      rw [if_pos rfl, hsource, htarget]
      rw [g.connect_eq_create request.source request.target minted hne] at hnext ⊢
      dsimp only at hnext ⊢
      split_ifs with hok
      · rw [decide_eq_true hok]
        refine ⟨hnext.graph, ?_, ?_⟩
        · rw [List.count_cons_self, ← hnext.created]
        · rw [List.map_cons, hnext.outcomes, hrow.verdict, hcreated]
          rfl
      · rw [decide_eq_false hok]
        refine ⟨hnext.graph, ?_, ?_⟩
        · rw [List.count_cons_of_ne Bool.false_ne_true, ← hnext.created]
        · rw [List.map_cons, hnext.outcomes]
          rfl
    | false =>
      rw [if_neg Bool.false_ne_true]
      have hrefused : g₀.bulkVerdict request ≠ .created := by
        intro heq
        rw [hrow.pending.mpr heq] at hpending
        cases hpending
      obtain ⟨-, heq⟩ | ⟨hconnectable, -⟩ :=
        g.connect_cases request.source request.target minted
      · rw [heq] at hnext ⊢
        refine ⟨hnext.graph, ?_, ?_⟩
        · rw [List.count_cons_of_ne Bool.false_ne_true, ← hnext.created]
        · rw [List.map_cons, hnext.outcomes, hrow.verdict, decide_eq_false hrefused]
      · exact absurd (bulkVerdict_connectable hlive hconnectable) hrefused

theorem connectBulkResolved_matches (g : Graph)
    (hfew : (g.allEndpoints (requests.map Prod.fst)).card ≤ kNoEndpoint) :
    Matches (g.connectBulkResolved requests) (g.connectAll requests) := by
  obtain ⟨-, hrows⟩ := Endpoints.exact_empty.classifyAll
    ⟨hfew, fun _ hw => absurd hw List.not_mem_nil⟩ fun w hw => List.mem_toFinset.mpr hw
  exact createRows_matches hrows fun _ => rfl

/-! ### Other guids -/

/-- The guids are new to the graph, and no two are the same. -/
def Fresh (g : Graph) (requests : List (EdgeRequest × Guid)) : Prop :=
  (requests.map Prod.snd).Nodup ∧ ∀ minted ∈ requests.map Prod.snd, g.edges.find? minted = none

/-- The same vertices, and edges between the same vertices. -/
structure SamePairs (g g' : Graph) : Prop where
  linked : g.Linked
  linked' : g'.Linked
  live : ∀ u, (g.vertices.find? u).isSome = (g'.vertices.find? u).isSome
  pairs : g.pairs = g'.pairs

theorem connectable_iff (h : g.Linked) {source target : Guid} (hfree : g.edges.find? minted = none) :
    g.Connectable source target minted ↔ source ≠ target ∧ (g.vertices.find? source).isSome ∧
      (g.vertices.find? target).isSome ∧ (source, target) ∉ g.pairs := by
  constructor
  · rintro ⟨hne, hsource, htarget, hsingle, -⟩
    refine ⟨hne, hsource, htarget, ?_⟩
    rintro ⟨id, e, he, hpair⟩
    obtain ⟨v, hv⟩ := Option.isSome_iff_exists.mp hsource
    have hout := (h.hasOutEdgeLocked_iff hv target).mpr
      ⟨id, e, he, congrArg Prod.fst hpair, congrArg Prod.snd hpair⟩
    rw [hsingle v hv] at hout
    cases hout
  · rintro ⟨hne, hsource, htarget, hpair⟩
    refine ⟨hne, hsource, htarget, fun v hv => ?_, hfree⟩
    refine Bool.eq_false_iff.mpr fun hout => hpair ?_
    obtain ⟨id, e, he, ho, ht⟩ := (h.hasOutEdgeLocked_iff hv target).mp hout
    exact ⟨id, e, he, by rw [ho, ht]⟩

/-- What `connect` does to the edges, under a free guid. -/
theorem connect_edges (g : Graph) (source target minted : Guid) :
    (∀ id, id ≠ minted →
      (g.connect source target minted).1.edges.find? id = g.edges.find? id) ∧
    (g.edges.find? minted = none → (g.connect source target minted).1.pairs =
      if (g.connect source target minted).2 then insert (source, target) g.pairs else g.pairs) := by
  obtain ⟨-, heq⟩ | ⟨-, heq⟩ := g.connect_cases source target minted
  · rw [heq]
    exact ⟨fun _ _ => rfl, fun _ => rfl⟩
  · rw [heq]
    dsimp only
    have hfind : ∀ id, ((g.insertEdge minted ⟨source, target, .directed, [],
        PropertyBag.ofPropertyList [], true, 1⟩).linkEdge minted source target).edges.find? id =
        if id = minted then some ⟨source, target, .directed, [], PropertyBag.ofPropertyList [], true, 1⟩
        else g.edges.find? id := by
      intro id
      rw [linkEdge_edges]
      exact Table.find?_insert _ _ _ _
    refine ⟨fun id hne => (hfind id).trans (if_neg hne), fun hfree => ?_⟩
    rw [if_pos rfl]
    ext p
    constructor
    · rintro ⟨id, e, he, rfl⟩
      rw [hfind] at he
      split_ifs at he with hid
      · obtain rfl := Option.some.inj he
        exact Set.mem_insert _ _
      · exact Set.mem_insert_of_mem _ ⟨id, e, he, rfl⟩
    · rintro (rfl | ⟨id, e, he, rfl⟩)
      · exact ⟨minted, _, (hfind minted).trans (if_pos rfl), rfl⟩
      · refine ⟨id, e, (hfind id).trans ((if_neg ?_).trans he), rfl⟩
        rintro rfl
        rw [hfree] at he
        cases he

theorem Linked.connect_fst (h : g.Linked) (source target minted : Guid) :
    (g.connect source target minted).1.Linked := by
  obtain heq | heq := Graph.connect_fst g source target minted
  · rw [heq]
    exact h
  · rw [heq]
    exact h.createEdgeLocked ..

/-- One `connect`, under two guids that are both free. -/
theorem SamePairs.connect {g' : Graph} (h : SamePairs g g') {source target minted' : Guid}
    (hfree : g.edges.find? minted = none) (hfree' : g'.edges.find? minted' = none) :
    SamePairs (g.connect source target minted).1 (g'.connect source target minted').1 ∧
      (g.connect source target minted).2 = (g'.connect source target minted').2 := by
  have hiff : g.Connectable source target minted ↔ g'.Connectable source target minted' := by
    rw [connectable_iff h.linked hfree, connectable_iff h.linked' hfree', h.live, h.live, h.pairs]
  have hanswer : (g.connect source target minted).2 = (g'.connect source target minted').2 := by
    obtain ⟨hno, heq⟩ | ⟨hyes, heq⟩ := g.connect_cases source target minted
    · obtain ⟨-, heq'⟩ | ⟨hyes', -⟩ := g'.connect_cases source target minted'
      · rw [heq, heq']
      · exact absurd (hiff.mpr hyes') hno
    · obtain ⟨hno', -⟩ | ⟨-, heq'⟩ := g'.connect_cases source target minted'
      · exact absurd (hiff.mp hyes) hno'
      · rw [heq, heq']
  refine ⟨⟨h.linked.connect_fst .., h.linked'.connect_fst .., fun u => ?_, ?_⟩, hanswer⟩
  · rw [connect_live, connect_live, h.live]
  · rw [(g.connect_edges source target minted).2 hfree,
      (g'.connect_edges source target minted').2 hfree', hanswer, h.pairs]

theorem Fresh.connect {rest : List (EdgeRequest × Guid)} (h : Fresh g ((request, minted) :: rest)) :
    g.edges.find? minted = none ∧
      Fresh (g.connect request.source request.target minted).1 rest := by
  obtain ⟨hnodup, hnew⟩ := h
  rw [List.map_cons, List.nodup_cons] at hnodup
  refine ⟨hnew minted List.mem_cons_self, hnodup.2, fun m hm => ?_⟩
  have hne : m ≠ minted := by
    rintro rfl
    exact hnodup.1 hm
  rw [(g.connect_edges request.source request.target minted).1 m hne]
  exact hnew m (List.mem_cons_of_mem _ hm)

/-- Which guids are minted changes neither the pairs nor the answers. -/
theorem SamePairs.connectAll {g' : Graph} (h : SamePairs g g')
    {requests' : List (EdgeRequest × Guid)} (hsame : requests'.map Prod.fst = requests.map Prod.fst)
    (hfresh : Fresh g requests) (hfresh' : Fresh g' requests') :
    SamePairs (g.connectAll requests).1 (g'.connectAll requests').1 ∧
      (g.connectAll requests).2 = (g'.connectAll requests').2 := by
  induction requests generalizing g g' requests' with
  | nil =>
    obtain rfl := List.map_eq_nil_iff.mp hsame
    exact ⟨h, rfl⟩
  | cons head rest ih =>
    obtain ⟨request, minted⟩ := head
    cases requests' with
    | nil => cases hsame
    | cons head' rest' =>
      obtain ⟨request', minted'⟩ := head'
      obtain ⟨rfl, hrest⟩ := List.cons.inj hsame
      obtain ⟨hfree, hnext⟩ := hfresh.connect
      obtain ⟨hfree', hnext'⟩ := hfresh'.connect
      obtain ⟨hpairs, hanswer⟩ := h.connect hfree hfree'
      obtain ⟨hpairs', hanswers⟩ := ih hpairs hrest hnext hnext'
      exact ⟨hpairs', congrArg₂ List.cons hanswer hanswers⟩

/-! ### The two compared -/

/-- A bulk call leaves edges between the same vertices as the single calls, counts those that
answer true, and reports exactly them as created. -/
structure Agrees (b : BulkResult) (s : Graph × List Bool) : Prop where
  pairs : b.graph.pairs = s.1.pairs
  created : b.created = s.2.count true
  outcomes : b.outcomes.map (fun o => decide (o = .created)) = s.2

/-- In a graph that a run reaches, a bulk call over fewer than 2^32 endpoints agrees with the
single calls, whether these mint the same guids or any new ones. -/
theorem connectBulkResolved_agrees {options : GraphOptions} {ops : List GraphOp}
    {requests requests' : List (EdgeRequest × Guid)}
    (hrun : run Graph.step (Graph.empty options) ops = g)
    (hfew : (g.allEndpoints (requests.map Prod.fst)).card ≤ kNoEndpoint)
    (hsame : requests'.map Prod.fst = requests.map Prod.fst)
    (hguids : requests' = requests ∨ Fresh g requests ∧ Fresh g requests') :
    Agrees (g.connectBulkResolved requests) (g.connectAll requests') := by
  obtain ⟨hgraph, hcreated, houtcomes⟩ := g.connectBulkResolved_matches hfew
  obtain rfl | ⟨hfresh, hfresh'⟩ := hguids
  · exact ⟨by rw [hgraph], hcreated, houtcomes⟩
  · have hlinked : g.Linked := hrun ▸ linked_run options ops
    obtain ⟨hpairs, hanswers⟩ :=
      SamePairs.connectAll ⟨hlinked, hlinked, fun _ => rfl, rfl⟩ hsame hfresh hfresh'
    exact ⟨by rw [hgraph, hpairs.pairs], hanswers ▸ hcreated, hanswers ▸ houtcomes⟩

instance (g : Graph) (requests : List (EdgeRequest × Guid)) : Decidable (Fresh g requests) :=
  decidable_of_iff ((requests.map Prod.snd).Nodup ∧
      ((requests.map Prod.snd).all fun minted => (g.edges.find? minted).isNone) = true)
    (by simp only [Fresh, List.all_eq_true, Option.isNone_iff_eq_none])

/-- Three vertices, one edge. -/
def bulkOps : List GraphOp :=
  [.createPlainVertex [] 1, .createPlainVertex [] 2, .createPlainVertex [] 3, .connect 1 2 10]

/-- A pair twice, one that is there already, a self pair and an unknown vertex. -/
def bulkRequests (minted : Guid) : List (EdgeRequest × Guid) :=
  [(⟨1, 3⟩, minted), (⟨1, 2⟩, minted + 1), (⟨1, 3⟩, minted + 2), (⟨2, 2⟩, minted + 3),
    (⟨3, 9⟩, minted + 4), (⟨3, 1⟩, minted + 5)]

theorem connectBulkResolved_agrees_three :
    Agrees ((run Graph.step (Graph.empty {}) bulkOps).connectBulkResolved (bulkRequests 20))
      ((run Graph.step (Graph.empty {}) bulkOps).connectAll (bulkRequests 40)) := by
  have hfew : ((run Graph.step (Graph.empty {}) bulkOps).allEndpoints
      ((bulkRequests 20).map Prod.fst)).card ≤ kNoEndpoint := by
    decide
  have hfresh : Fresh (run Graph.step (Graph.empty {}) bulkOps) (bulkRequests 20) := by
    decide
  have hfresh' : Fresh (run Graph.step (Graph.empty {}) bulkOps) (bulkRequests 40) := by
    decide
  exact connectBulkResolved_agrees rfl hfew rfl (.inr ⟨hfresh, hfresh'⟩)

end Graph

/-! ### Too many endpoints -/

variable {unknown : Guid} {vs : List Guid}

namespace Endpoints

variable {g : Graph}

/-- A vertex that was not looked up before. -/
theorem Exact.resolve_new (h : r.Exact g) (hnew : guid ∉ r.endpoints) :
    r.resolve g guid = if (g.vertices.find? guid).isNone then (kNoEndpoint, r)
      else (r.endpoints.length % 2 ^ 32, ⟨r.endpoints ++ [guid],
        r.resolved.insert guid (r.endpoints.length % 2 ^ 32), guid,
        r.endpoints.length % 2 ^ 32⟩) := by
  rw [Endpoints.resolve, if_neg]
  · cases hknown : r.resolved.find? guid with
    | some id => exact absurd (List.mem_of_getElem? (h.known guid id hknown)) hnew
    | none => rfl
  · rintro ⟨hne, rfl⟩
    exact hnew (List.mem_of_getElem? (h.last hne))

theorem Exact.not_mem (h : r.Exact g) (hdead : g.vertices.find? guid = none) :
    guid ∉ r.endpoints := by
  intro hmem
  have hlive := h.live guid hmem
  rw [hdead] at hlive
  cases hlive

/-- A request from a new vertex to an unknown one: only the number of endpoints grows. -/
theorem Exact.classify_unknown (h : r.Exact g) {v : Guid} (hnew : v ∉ r.endpoints)
    (hlive : (g.vertices.find? v).isSome) (hunknown : g.vertices.find? unknown = none)
    (hfew : r.endpoints.length < kNoEndpoint) :
    (r.classify g ⟨v, unknown⟩).1.pending = false ∧ (r.classify g ⟨v, unknown⟩).2.Exact g ∧
      (r.classify g ⟨v, unknown⟩).2.endpoints = r.endpoints ++ [v] := by
  have hne : v ≠ unknown := by
    rintro rfl
    rw [hunknown] at hlive
    cases hlive
  have hsource : ¬(g.vertices.find? v).isNone := by
    simpa using Option.isSome_iff_ne_none.mp hlive
  have hid : r.endpoints.length % 2 ^ 32 = r.endpoints.length :=
    Nat.mod_eq_of_lt (by unfold kNoEndpoint at hfew; omega)
  have hpush := h.push hnew hlive hfew
  have hfirst := h.resolve_new hnew
  rw [if_neg hsource, hid] at hfirst
  have hsecond := hpush.exact.resolve_new (hpush.exact.not_mem hunknown)
  rw [if_pos (Option.isNone_iff_eq_none.mpr hunknown)] at hsecond
  rw [Endpoints.classify, if_neg hne]
  dsimp only at hsecond ⊢
  rw [hfirst]
  dsimp only
  rw [if_neg (Nat.ne_of_lt hfew), hsecond, if_pos rfl]
  exact ⟨rfl, hpush.exact, rfl⟩

/-- The endpoint that gets the greatest number is taken for a missing one. -/
theorem Exact.classify_last (h : r.Exact g) {v w : Guid} (hne : v ≠ w) (hnew : v ∉ r.endpoints)
    (hlive : (g.vertices.find? v).isSome) (hlast : r.endpoints.length = kNoEndpoint) :
    (r.classify g ⟨v, w⟩).1.pending = false := by
  have hsource : ¬(g.vertices.find? v).isNone := by
    simpa using Option.isSome_iff_ne_none.mp hlive
  have hid : kNoEndpoint % 2 ^ 32 = kNoEndpoint := by decide
  have hfirst := h.resolve_new hnew
  rw [if_neg hsource, hlast, hid] at hfirst
  rw [Endpoints.classify, if_neg hne]
  dsimp only
  rw [hfirst, if_pos rfl]

/-- As many endpoints as there are numbers, then one more: no request is left pending. -/
theorem Exact.classifyAll_unknown (h : r.Exact g) {v w : Guid} (hnodup : (r.endpoints ++ vs).Nodup)
    (hlive : ∀ u ∈ vs, (g.vertices.find? u).isSome) (hunknown : g.vertices.find? unknown = none)
    (hsize : r.endpoints.length + vs.length = kNoEndpoint) (hne : v ≠ w)
    (hv : (g.vertices.find? v).isSome) (hnew : v ∉ r.endpoints ++ vs) :
    ∀ row ∈ (Endpoints.classifyAll g r (vs.map (⟨·, unknown⟩) ++ [⟨v, w⟩])).1,
      row.pending = false := by
  induction vs generalizing r with
  | nil =>
    rw [List.append_nil] at hnew
    intro row hrow
    obtain rfl := List.mem_singleton.mp hrow
    exact h.classify_last hne hnew hv hsize
  | cons u rest ih =>
    have hsplit : r.endpoints ++ u :: rest = (r.endpoints ++ [u]) ++ rest := by simp
    have hu : u ∉ r.endpoints := by
      intro hmem
      exact (List.nodup_append.mp hnodup).2.2 u hmem u List.mem_cons_self rfl
    rw [List.length_cons] at hsize
    obtain ⟨hpending, hexact, hends⟩ :=
      h.classify_unknown hu (hlive u List.mem_cons_self) hunknown (by omega)
    have hothers := ih hexact (by rw [hends, ← hsplit]; exact hnodup)
      (fun x hx => hlive x (List.mem_cons_of_mem _ hx))
      (by rw [hends, List.length_append, List.length_singleton]; omega)
      (by rw [hends, ← hsplit]; exact hnew)
    intro row hrow
    obtain rfl | hrow := List.mem_cons.mp hrow
    · exact hpending
    · exact hothers row hrow

end Endpoints

namespace Graph

/-- Nothing pending, nothing created. -/
theorem createRows_refused {g : Graph} {rows : List (BulkRow × Guid)}
    (h : ∀ row ∈ rows, row.1.pending = false) : (createRows endpoints g rows).graph = g := by
  induction rows with
  | nil => rfl
  | cons row rest ih =>
    rw [createRows, h row List.mem_cons_self, if_neg Bool.false_ne_true]
    exact ih fun x hx => h x (List.mem_cons_of_mem _ hx)

/-- Calls to an unknown vertex leave the graph to the last call. -/
theorem connectAll_unknown {g : Graph} (hunknown : g.vertices.find? unknown = none)
    (last : EdgeRequest × Guid) :
    (g.connectAll (vs.map (fun v => (⟨v, unknown⟩, v)) ++ [last])).1 =
      (g.connect last.1.source last.1.target last.2).1 := by
  induction vs with
  | nil => rfl
  | cons v rest ih =>
    rw [List.map_cons, List.cons_append, connectAll]
    obtain ⟨-, heq⟩ | ⟨hconnectable, -⟩ := g.connect_cases v unknown v
    · rw [heq]
      exact ih
    · have hlive := hconnectable.targetLive
      rw [hunknown] at hlive
      cases hlive

/-- A graph of `n` vertices, numbered from 0. -/
def populated (n : Nat) : Graph :=
  run Graph.step (Graph.empty {})
    ((List.range n).map fun i => .createPlainVertex [] (BitVec.ofNat 128 i))

theorem populated_spec (n : Nat) :
    (∀ u, ((populated n).vertices.find? u).isSome ↔ ∃ i < n, u = BitVec.ofNat 128 i) ∧
      ∀ id, (populated n).edges.find? id = none := by
  induction n with
  | zero =>
    refine ⟨fun u => ⟨fun h => ?_, ?_⟩, fun id => rfl⟩
    · cases h
    · rintro ⟨i, hi, -⟩
      exact absurd hi (Nat.not_lt_zero i)
  | succ n ih =>
    have hstep : populated (n + 1) =
        ((populated n).createPlainVertex [] (BitVec.ofNat 128 n)).1 := by
      rw [populated, List.range_succ, List.map_append, run_append]
      rfl
    rw [hstep, createPlainVertex]
    obtain ⟨hvertices, hedges⟩ := ih
    split_ifs with htaken
    · refine ⟨fun u => (hvertices u).trans ⟨?_, ?_⟩, hedges⟩
      · rintro ⟨i, hi, hu⟩
        exact ⟨i, by omega, hu⟩
      · rintro ⟨i, hi, rfl⟩
        obtain hlt | rfl := Nat.lt_or_eq_of_le (Nat.le_of_lt_succ hi)
        · exact ⟨i, hlt, rfl⟩
        · exact (hvertices _).mp htaken
    · refine ⟨fun u => ?_, hedges⟩
      dsimp only
      rw [find?_insertVertex]
      split_ifs with hu
      · exact ⟨fun _ => ⟨n, Nat.lt_succ_self n, hu⟩, fun _ => rfl⟩
      · refine (hvertices u).trans ⟨?_, ?_⟩
        · rintro ⟨i, hi, hui⟩
          exact ⟨i, by omega, hui⟩
        · rintro ⟨i, hi, rfl⟩
          obtain hlt | rfl := Nat.lt_or_eq_of_le (Nat.le_of_lt_succ hi)
          · exact ⟨i, hlt, rfl⟩
          · exact absurd rfl hu

theorem ofNat_injective {i j : Nat} (hi : i < 2 ^ 128) (hj : j < 2 ^ 128)
    (h : BitVec.ofNat 128 i = BitVec.ofNat 128 j) : i = j := by
  have hnat := congrArg BitVec.toNat h
  rwa [BitVec.toNat_ofNat, BitVec.toNat_ofNat, Nat.mod_eq_of_lt hi, Nat.mod_eq_of_lt hj] at hnat

/-- A request from each of the first `n` vertices to an unknown one, then one from the next
vertex to the first. -/
def overflowing (n : Nat) : List (EdgeRequest × Guid) :=
  (((List.range n).map (BitVec.ofNat 128)).map fun v => (⟨v, BitVec.ofNat 128 (n + 1)⟩, v)) ++
    [(⟨BitVec.ofNat 128 n, BitVec.ofNat 128 0⟩, BitVec.ofNat 128 n)]

theorem overflowing_refused {n size : Nat} (hn : n = kNoEndpoint) (hsize : size = n + 1) :
    ((populated size).connectBulkResolved (overflowing n)).graph = populated size ∧
      (BitVec.ofNat 128 n, BitVec.ofNat 128 0) ∈
        ((populated size).connectAll (overflowing n)).1.pairs := by
  subst hsize
  have hsmall : n + 1 < 2 ^ 128 := by rw [hn]; decide
  obtain ⟨hvertices, hedges⟩ := populated_spec (n + 1)
  have hunknown : (populated (n + 1)).vertices.find? (BitVec.ofNat 128 (n + 1)) = none := by
    refine Option.not_isSome_iff_eq_none.mp fun hlive => ?_
    obtain ⟨i, hi, heq⟩ := (hvertices _).mp hlive
    have := ofNat_injective hsmall (by omega) heq
    omega
  have hlast : ((populated (n + 1)).vertices.find? (BitVec.ofNat 128 n)).isSome :=
    (hvertices _).mpr ⟨n, Nat.lt_succ_self n, rfl⟩
  have hne : BitVec.ofNat 128 n ≠ BitVec.ofNat 128 0 := by
    intro heq
    have := ofNat_injective (by omega) (by omega) heq
    rw [hn] at this
    cases this
  have hnodup : ((List.range n).map (BitVec.ofNat 128)).Nodup := by
    refine List.Nodup.map_on (fun i hi j hj heq => ?_) List.nodup_range
    rw [List.mem_range] at hi hj
    exact ofNat_injective (by omega) (by omega) heq
  have hnew : BitVec.ofNat 128 n ∉ (List.range n).map (BitVec.ofNat 128) := by
    intro hmem
    obtain ⟨i, hi, heq⟩ := List.mem_map.mp hmem
    rw [List.mem_range] at hi
    have := ofNat_injective (by omega) (by omega) heq
    omega
  have hfirst : (overflowing n).map Prod.fst =
      ((List.range n).map (BitVec.ofNat 128)).map (⟨·, BitVec.ofNat 128 (n + 1)⟩) ++
        [⟨BitVec.ofNat 128 n, BitVec.ofNat 128 0⟩] := by
    rw [overflowing, List.map_append, List.map_map]
    rfl
  have hlive : ∀ u ∈ (List.range n).map (BitVec.ofNat 128),
      ((populated (n + 1)).vertices.find? u).isSome := by
    intro u hu
    obtain ⟨i, hi, rfl⟩ := List.mem_map.mp hu
    rw [List.mem_range] at hi
    exact (hvertices _).mpr ⟨i, by omega, rfl⟩
  have hrefused := (Endpoints.exact_empty (g := populated (n + 1))).classifyAll_unknown
    (v := BitVec.ofNat 128 n) (w := BitVec.ofNat 128 0) hnodup hlive hunknown
    (by rw [List.length_map, List.length_range, hn]; rfl) hne hlast hnew
  refine ⟨?_, ?_⟩
  · rw [connectBulkResolved, hfirst]
    refine createRows_refused fun row hrow => hrefused row.1 ?_
    exact (List.of_mem_zip hrow).1
  · have hlinked : (populated (n + 1)).Linked := linked_run _ _
    have hpairs : (BitVec.ofNat 128 n, BitVec.ofNat 128 0) ∉ (populated (n + 1)).pairs := by
      rintro ⟨id, e, he, -⟩
      rw [hedges] at he
      cases he
    have hconnectable := (connectable_iff hlinked (hedges (BitVec.ofNat 128 n))).mpr
      ⟨hne, hlast, (hvertices _).mpr ⟨0, Nat.succ_pos n, rfl⟩, hpairs⟩
    rw [overflowing, connectAll_unknown hunknown]
    obtain ⟨hno, -⟩ | ⟨-, heq⟩ := (populated (n + 1)).connect_cases (BitVec.ofNat 128 n)
      (BitVec.ofNat 128 0) (BitVec.ofNat 128 n)
    · exact absurd hconnectable hno
    · rw [((populated (n + 1)).connect_edges _ _ _).2 (hedges _), heq, if_pos rfl]
      exact Set.mem_insert _ _

/-- Of 2^32 vertices the last is reported missing, where a single call connects it. -/
theorem connectBulkResolved_overflows :
    ¬Agrees ((populated (2 ^ 32)).connectBulkResolved (overflowing (2 ^ 32 - 1)))
      ((populated (2 ^ 32)).connectAll (overflowing (2 ^ 32 - 1))) := by
  intro h
  obtain ⟨hgraph, hmem⟩ := @overflowing_refused (2 ^ 32 - 1) (2 ^ 32) rfl rfl
  have hpairs := h.pairs
  rw [hgraph] at hpairs
  rw [← hpairs] at hmem
  obtain ⟨id, e, he, -⟩ := hmem
  rw [(populated_spec (2 ^ 32)).2] at he
  cases he

end Graph

end KimixNative.GraphDb
