import KimixNative.GraphDb.Property
import KimixNative.Lib.Incidence

/-!
# Vertex and edge records

The two record types of the graph and their own mutators. Adjacency is stored on
the vertices, one link per incident edge: a link names the edge and the vertex at
its other end. Every mutator that changes a record stamps it through `markDirty`,
which sets the dirty flag and bumps the dirty epoch.

A record's guid is the key it is stored under, so the records themselves do not
repeat it.
-/

namespace KimixNative.GraphDb

/-- One entry of an adjacency list: an edge and the vertex at its other end. -/
abbrev EdgeLink := Link Guid Guid

/-- A primary key: a label and the raw bytes of an external id. -/
structure VertexKey where
  label : LabelId
  externalId : Bytes
  deriving DecidableEq, Repr

/-- A vertex record. A fresh record starts dirty with epoch 1. -/
structure Vertex where
  content : Bytes := []
  keyLabel : LabelId := kNoLabel
  externalId : Bytes := []
  labels : List LabelId := []
  properties : PropertyBag := ∅
  outLinks : List EdgeLink := []
  inLinks : List EdgeLink := []
  dirty : Bool := true
  dirtyEpoch : BitVec 64 := 1
  deriving DecidableEq

namespace Vertex

/-- `_mark_dirty`: set the flag and bump the epoch, also when the flag was set. -/
def markDirty (v : Vertex) : Vertex :=
  { v with dirty := true, dirtyEpoch := v.dirtyEpoch + 1 }

/-- `_clear_dirty` on a vertex without an owner: the flag alone. -/
def clearDirty (v : Vertex) : Vertex := { v with dirty := false }

def hasKey (v : Vertex) : Bool := decide (v.keyLabel ≠ kNoLabel)

def key (v : Vertex) : VertexKey := ⟨v.keyLabel, v.externalId⟩

/-- `set_content`: also what the constructor with initial content runs. -/
def setContent (v : Vertex) (content : Bytes) : Vertex :=
  markDirty { v with content := content }

/-- `Vertex(guid, initial_content, digest)`. -/
def new (content : Bytes) : Vertex := ({} : Vertex).setContent content

def addOutLink (v : Vertex) (edge neighbour : Guid) : Vertex :=
  markDirty { v with outLinks := v.outLinks ++ [⟨edge, neighbour⟩] }

def addInLink (v : Vertex) (edge neighbour : Guid) : Vertex :=
  markDirty { v with inLinks := v.inLinks ++ [⟨edge, neighbour⟩] }

/-- `_remove_out_link`: drop the first link of the edge; a vertex without one is
left untouched, flag included. -/
def removeOutLink (v : Vertex) (edge : Guid) : Vertex :=
  if v.outLinks.any (·.edge == edge) then
    markDirty { v with outLinks := v.outLinks.eraseP (·.edge == edge) }
  else v

def removeInLink (v : Vertex) (edge : Guid) : Vertex :=
  if v.inLinks.any (·.edge == edge) then
    markDirty { v with inLinks := v.inLinks.eraseP (·.edge == edge) }
  else v

/-- `_clear_links`, which does not mark the vertex dirty. -/
def clearLinks (v : Vertex) : Vertex := { v with outLinks := [], inLinks := [] }

/-- `add_property`: refused when the name is already there. -/
def addProperty (v : Vertex) (name : PropNameId) (value : PropertyValue) : Vertex × Bool :=
  if (v.properties.find? name).isSome then (v, false)
  else (markDirty { v with properties := v.properties.insert name value }, true)

/-- `set_property`: refused when the name is absent. -/
def setProperty (v : Vertex) (name : PropNameId) (value : PropertyValue) : Vertex × Bool :=
  if (v.properties.find? name).isSome then
    (markDirty { v with properties := v.properties.insert name value }, true)
  else (v, false)

/-- `put_property`: the answer says whether an earlier value was replaced. -/
def putProperty (v : Vertex) (name : PropNameId) (value : PropertyValue) : Vertex × Bool :=
  (markDirty { v with properties := v.properties.insert name value },
    (v.properties.find? name).isSome)

/-- `remove_properties`: absent names are skipped; the flag moves only when
something was removed. -/
def removeProperties (v : Vertex) (names : List PropNameId) : Vertex × Nat :=
  let (bag, removed) := names.foldl (fun (acc : PropertyBag × Nat) name =>
    if (acc.1.find? name).isSome then (acc.1.erase name, acc.2 + 1) else acc) (v.properties, 0)
  if removed ≠ 0 then (markDirty { v with properties := bag }, removed)
  else ({ v with properties := bag }, removed)

/-- `add_label`: refused when the label is already carried. -/
def addLabel (v : Vertex) (label : LabelId) : Vertex × Bool :=
  if label ∈ v.labels then (v, false)
  else (markDirty { v with labels := v.labels ++ [label] }, true)

/-- `remove_label`: drops the first occurrence only. -/
def removeLabel (v : Vertex) (label : LabelId) : Vertex × Bool :=
  if label ∈ v.labels then (markDirty { v with labels := v.labels.erase label }, true)
  else (v, false)

/-- `assign_payload`, for a vertex that is not published yet: no dirty mark. -/
def assignPayload (v : Vertex) (keyLabel : LabelId) (externalId : Bytes)
    (labels : List LabelId) (properties : PropertyList) : Vertex :=
  { v with
    keyLabel := keyLabel
    externalId := externalId
    labels := labels.filter (· ≠ kNoLabel)
    properties := PropertyBag.ofPropertyList properties }

/-- `restore_payload`: labels and properties back, the vertex marked dirty. -/
def restorePayload (v : Vertex) (labels : List LabelId) (properties : PropertyList) : Vertex :=
  markDirty { v with
    labels := labels.filter (· ≠ kNoLabel)
    properties := PropertyBag.ofPropertyList properties }

/-- The part of a vertex that a save writes and a caller reads back: everything but the
adjacency and the dirty bookkeeping. -/
structure Payload where
  content : Bytes
  keyLabel : LabelId
  externalId : Bytes
  labels : List LabelId
  properties : PropertyBag
  deriving DecidableEq

def payload (v : Vertex) : Payload :=
  ⟨v.content, v.keyLabel, v.externalId, v.labels, v.properties⟩

theorem key_congr {v w : Vertex} (h : v.payload = w.payload) : v.key = w.key := by
  simp only [payload, Payload.mk.injEq] at h
  simp [key, h]

theorem hasKey_congr {v w : Vertex} (h : v.payload = w.payload) : v.hasKey = w.hasKey := by
  simp only [payload, Payload.mk.injEq] at h
  simp [hasKey, h]

@[simp] theorem payload_addOutLink (v : Vertex) (e n : Guid) :
    (v.addOutLink e n).payload = v.payload := rfl

@[simp] theorem payload_addInLink (v : Vertex) (e n : Guid) :
    (v.addInLink e n).payload = v.payload := rfl

@[simp] theorem payload_removeOutLink (v : Vertex) (e : Guid) :
    (v.removeOutLink e).payload = v.payload := by
  unfold removeOutLink; split <;> rfl

@[simp] theorem payload_removeInLink (v : Vertex) (e : Guid) :
    (v.removeInLink e).payload = v.payload := by
  unfold removeInLink; split <;> rfl

@[simp] theorem outLinks_addOutLink (v : Vertex) (e n : Guid) :
    (v.addOutLink e n).outLinks = v.outLinks ++ [⟨e, n⟩] := rfl

@[simp] theorem inLinks_addOutLink (v : Vertex) (e n : Guid) :
    (v.addOutLink e n).inLinks = v.inLinks := rfl

@[simp] theorem outLinks_addInLink (v : Vertex) (e n : Guid) :
    (v.addInLink e n).outLinks = v.outLinks := rfl

@[simp] theorem inLinks_addInLink (v : Vertex) (e n : Guid) :
    (v.addInLink e n).inLinks = v.inLinks ++ [⟨e, n⟩] := rfl

@[simp] theorem outLinks_removeOutLink (v : Vertex) (e : Guid) :
    (v.removeOutLink e).outLinks = v.outLinks.eraseP (·.edge == e) := by
  unfold removeOutLink
  split
  · rfl
  · next h =>
      simp only [List.any_eq_true, not_exists, not_and] at h
      exact (List.eraseP_of_forall_not h).symm

@[simp] theorem inLinks_removeOutLink (v : Vertex) (e : Guid) :
    (v.removeOutLink e).inLinks = v.inLinks := by
  unfold removeOutLink; split <;> rfl

@[simp] theorem outLinks_removeInLink (v : Vertex) (e : Guid) :
    (v.removeInLink e).outLinks = v.outLinks := by
  unfold removeInLink; split <;> rfl

@[simp] theorem inLinks_removeInLink (v : Vertex) (e : Guid) :
    (v.removeInLink e).inLinks = v.inLinks.eraseP (·.edge == e) := by
  unfold removeInLink
  split
  · rfl
  · next h =>
      simp only [List.any_eq_true, not_exists, not_and] at h
      exact (List.eraseP_of_forall_not h).symm

theorem dirty_removeOutLink (v : Vertex) (e : Guid) (h : v.dirty = true) :
    (v.removeOutLink e).dirty = true := by
  unfold removeOutLink
  split
  · rfl
  · exact h

theorem dirty_removeInLink (v : Vertex) (e : Guid) (h : v.dirty = true) :
    (v.removeInLink e).dirty = true := by
  unfold removeInLink
  split
  · rfl
  · exact h

end Vertex

/-- A vertex that no graph owns. The link lists are private to the graph and
`remove_vertex` empties them before it hands a vertex back, so a detached vertex
has none. -/
def DetachedVertex := { v : Vertex // v.outLinks = [] ∧ v.inLinks = [] }

instance : DecidableEq DetachedVertex := inferInstanceAs (DecidableEq (Subtype _))

/-- Whether an edge is directed. -/
inductive EdgeDirectionType where
  | directed
  | undirected
  deriving DecidableEq, Repr

namespace EdgeDirectionType

/-- The wire value of a direction. -/
def code : EdgeDirectionType → Byte
  | .directed => 0
  | .undirected => 1

/-- The direction a raw byte names, when it names one. -/
def ofCode? (code : Byte) : Option EdgeDirectionType :=
  if code = 0 then some .directed else if code = 1 then some .undirected else none

@[simp] theorem ofCode?_code (d : EdgeDirectionType) : ofCode? d.code = some d := by
  cases d <;> rfl

end EdgeDirectionType

/-- An edge record. -/
structure Edge where
  origin : Guid
  target : Guid
  direction : EdgeDirectionType := .directed
  labels : List LabelId := []
  properties : PropertyBag := ∅
  dirty : Bool := true
  dirtyEpoch : BitVec 64 := 1
  deriving DecidableEq

namespace Edge

def markDirty (e : Edge) : Edge := { e with dirty := true, dirtyEpoch := e.dirtyEpoch + 1 }

def clearDirty (e : Edge) : Edge := { e with dirty := false }

/-- `Edge::assign_payload`. -/
def assignPayload (e : Edge) (labels : List LabelId) (properties : PropertyList) : Edge :=
  { e with
    labels := labels.filter (· ≠ kNoLabel)
    properties := PropertyBag.ofPropertyList properties }

end Edge

/-- The copy of an edge that leaves the table: the payload without the flags. -/
structure EdgeRecord where
  id : Guid
  origin : Guid
  target : Guid
  direction : EdgeDirectionType
  labels : List LabelId
  properties : PropertyList
  deriving DecidableEq

/-- The field copy of `EdgeTable::record`. -/
def Edge.record (e : Edge) (id : Guid) : EdgeRecord :=
  ⟨id, e.origin, e.target, e.direction, e.labels, e.properties.toPropertyList⟩

end KimixNative.GraphDb
