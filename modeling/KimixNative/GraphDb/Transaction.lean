import KimixNative.GraphDb.Record
import KimixNative.GraphDb.Schema

/-!
# The undo journal

A write transaction keeps one entry for each mutation, holding what is needed to take the
mutation back. The journal is capped: an entry that would pass the cap is refused and the
transaction stays open. The cap counts approximate heap sizes, so it depends on the sizes
of four structures on the platform at hand.
-/

namespace KimixNative.GraphDb

/-- The `sizeof` values the size estimate adds up. -/
structure EntrySizes where
  journalEntry : Nat
  fat : Nat
  vertex : Nat
  edge : Nat
  deriving DecidableEq, Repr

/-- One undo record. The constructors are the kinds of the source, each with the payload
the rollback reads for it. -/
inductive JournalEntry where
  | vertexCreated (uid : Guid)
  | vertexRemoved (uid : Guid) (labels : List LabelId) (properties : PropertyList)
      (vertex : DetachedVertex) (removedEdges : List (Guid × Edge))
  | vertexPayload (uid : Guid) (labels : List LabelId) (properties : PropertyList)
  | edgeCreated (uid : Guid)
  | edgeRemoved (record : EdgeRecord)
  | edgeState (record : EdgeRecord)
  | labelCreated (label : LabelId)
  | labelRenamed (label : LabelId) (name : Bytes)
  | labelFreed (label : LabelId) (name : Bytes)
  | propertyTypeCreated (property : PropNameId)
  | propertyTypeUpdated (property : PropNameId) (info : PropertyTypeInfo)
  | propertyTypeFreed (property : PropNameId) (info : PropertyTypeInfo)

/-- The payload bytes of one value. -/
def PropertyValue.approximateBytes : PropertyValue → Nat
  | .string text => text.length
  | .blob bytes => bytes.length
  | .int64Array values => values.length * 8
  | .doubleArray bits => bits.length * 8
  | .stringArray block => block.1.length
  | .dataArray block => block.1.length
  | .none | .int64Value _ | .doubleValue _ => 0

/-- The part of the estimate that labels and properties make up. -/
def payloadBytes (labels : List LabelId) (properties : PropertyList) : Nat :=
  labels.length * 4 + (properties.map fun entry => entry.value.approximateBytes).sum

namespace JournalEntry

/-- `approximate_bytes`. Kinds without a payload cost the entry alone. -/
def approximateBytes (sizes : EntrySizes) : JournalEntry → Nat
  | .vertexCreated _ | .edgeCreated _ | .labelCreated _ | .propertyTypeCreated _ =>
    sizes.journalEntry
  | .vertexRemoved _ labels properties vertex removedEdges =>
    sizes.journalEntry + sizes.fat + payloadBytes labels properties +
      (sizes.vertex + vertex.1.content.length) + removedEdges.length * sizes.edge
  | .vertexPayload _ labels properties =>
    sizes.journalEntry + sizes.fat + payloadBytes labels properties
  | .edgeRemoved record | .edgeState record =>
    sizes.journalEntry + sizes.fat + payloadBytes record.labels record.properties
  | .labelRenamed _ name | .labelFreed _ name => sizes.journalEntry + sizes.fat + name.length
  | .propertyTypeUpdated _ info | .propertyTypeFreed _ info =>
    sizes.journalEntry + sizes.fat + info.name.length

end JournalEntry

structure Transaction where
  journal : List JournalEntry := []
  journalBytes : Nat := 0
  maxJournalBytes : Nat
  readOnly : Bool := false
  collective : Bool := false
  overflowed : Bool := false

namespace Transaction

/-- Whether so many more bytes stay within the cap; a cap of zero is none. -/
def hasRoom (tx : Transaction) (bytes : Nat) : Bool :=
  tx.maxJournalBytes == 0 || decide (tx.journalBytes + bytes ≤ tx.maxJournalBytes)

/-- `push`: a refused entry leaves its mark in the overflow flag. -/
def push (tx : Transaction) (sizes : EntrySizes) (entry : JournalEntry) : Transaction × Bool :=
  if tx.hasRoom (entry.approximateBytes sizes) then
    ({ tx with
      journal := tx.journal ++ [entry]
      journalBytes := tx.journalBytes + entry.approximateBytes sizes }, true)
  else ({ tx with overflowed := true }, false)

/-- `clear_journal`. -/
def clearJournal (tx : Transaction) : Transaction :=
  { tx with journal := [], journalBytes := 0, overflowed := false }

/-- `take_journal`: the overflow flag stays. -/
def takeJournal (tx : Transaction) : Transaction × List JournalEntry :=
  ({ tx with journal := [], journalBytes := 0 }, tx.journal)

@[simp] theorem push_readOnly (tx : Transaction) (sizes : EntrySizes) (entry : JournalEntry) :
    (tx.push sizes entry).1.readOnly = tx.readOnly := by
  unfold push; split <;> rfl

@[simp] theorem push_maxJournalBytes (tx : Transaction) (sizes : EntrySizes)
    (entry : JournalEntry) : (tx.push sizes entry).1.maxJournalBytes = tx.maxJournalBytes := by
  unfold push; split <;> rfl

theorem push_journal (tx : Transaction) (sizes : EntrySizes) (entry : JournalEntry) :
    (tx.push sizes entry).1.journal =
      tx.journal ++ if (tx.push sizes entry).2 then [entry] else [] := by
  unfold push; split <;> simp

theorem push_journalBytes (tx : Transaction) (sizes : EntrySizes) (entry : JournalEntry) :
    (tx.push sizes entry).1.journalBytes =
      tx.journalBytes + if (tx.push sizes entry).2 then entry.approximateBytes sizes else 0 := by
  unfold push; split <;> simp

theorem push_snd (tx : Transaction) (sizes : EntrySizes) (entry : JournalEntry) :
    (tx.push sizes entry).2 = tx.hasRoom (entry.approximateBytes sizes) := by
  unfold push
  split
  · next h => exact h.symm
  · next h => simpa using h

end Transaction

end KimixNative.GraphDb
