import KimixNative.Lib.LittleEndian

/-!
# Identifiers, status codes and options

The vocabulary shared by every layer of the graph database. Guids are 128-bit
values and interned names are 32-bit ids, with `0` meaning "no id". Every command
answers with a `GdiStatus`; values up to 2 are successes (`ok` and two warnings),
everything above is an error.
-/

namespace KimixNative.GraphDb

/-- A vertex or edge identifier. -/
abbrev Guid := BitVec 128

instance : LawfulBEq Guid := instLawfulBEq

/-- The multiplied mix of a guid's two words that shards and hash slots are taken from. -/
def guidMix (guid : Guid) : BitVec 64 :=
  0x9E3779B97F4A7C15#64 * (guid.setWidth 64 ^^^ (guid >>> 64).setWidth 64)

/-- An interned label name. -/
abbrev LabelId := BitVec 32

/-- An interned property name. -/
abbrev PropNameId := BitVec 32

/-- The reserved id of "no label". -/
def kNoLabel : LabelId := 0

/-- The reserved id of "no property name". -/
def kNoPropName : PropNameId := 0

/-- The GDI status codes, in the order of their numeric values. -/
inductive GdiStatus where
  | ok
  | warningNonUniqueId
  | warningOther
  | errorAccess
  | errorArgument
  | errorBadFile
  | errorBuffer
  | errorConstraint
  | errorConversion
  | errorCount
  | errorDatabase
  | errorDatatype
  | errorDate
  | errorDatetime
  | errorDecimal
  | errorEdge
  | errorEdgeOrientation
  | errorEmptyName
  | errorErrorCode
  | errorFileExists
  | errorFileInUse
  | errorIncompatibleTransactions
  | errorIndex
  | errorLabel
  | errorNameExists
  | errorNoMemory
  | errorNoProperty
  | errorNoSpace
  | errorNoSuchFile
  | errorNonUniqueId
  | errorNotSame
  | errorObjectMismatch
  | errorOp
  | errorOpDatatypeMismatch
  | errorPropertyExists
  | errorPropertyType
  | errorPropertyTypeExists
  | errorRange
  | errorReadOnlyFile
  | errorReadOnlyPropertyType
  | errorReadOnlyTransaction
  | errorResource
  | errorSize
  | errorSizeLimit
  | errorStale
  | errorState
  | errorSubconstraint
  | errorTime
  | errorTransaction
  | errorUid
  | errorVertex
  | errorWrongType
  | errorInvalidDate
  | errorCommunicator
  | errorBlockSize
  | errorQuota
  | errorTruncate
  | errorTransactionCritical
  | errorTransactionCommitFail
  | errorIntern
  | errorIo
  | errorOther
  | errorUnknown
  deriving DecidableEq, Repr

/-- `is_error`: the numeric value is above the two warnings. -/
def GdiStatus.isError : GdiStatus → Bool
  | .ok => false
  | .warningNonUniqueId => false
  | .warningOther => false
  | _ => true

/-- What a duplicate `(label, external_id)` key does. -/
inductive KeyMode where
  | enforceUnique
  | reportWarning
  deriving DecidableEq, Repr

/-- Which 128-bit digest caches a vertex's content. -/
inductive ContentDigest where
  | md5
  | xxh3
  deriving DecidableEq, Repr

/-- The tunables of one database instance. `maxJournalBytes = 0` puts no cap on a
transaction's undo journal. -/
structure GraphOptions where
  autoCreateSchema : Bool := true
  keyMode : KeyMode := .enforceUnique
  allowParallelEdges : Bool := true
  allowSelfEdges : Bool := true
  contentDigest : ContentDigest := .md5
  maxJournalBytes : Nat := 64 * 1024 * 1024
  graphName : Bytes := []
  deriving DecidableEq, Repr

end KimixNative.GraphDb
