import KimixNative.Lib.Search
import KimixNative.Text.Utf8
import Mathlib.Data.Finset.Max

/-!
# What the pruner reads in a history

The text helpers, the detectors of ephemeral messages, the protected set and the `<system>`
blocks of tool messages. Contents are byte strings, roles included.
-/

namespace KimixNative.Agent

open Text

structure ToolCall where
  id : Bytes
  type : Bytes
  name : Bytes
  arguments : Bytes
  deriving DecidableEq, Repr

/-- A chat message. -/
structure Message where
  role : Bytes
  content : Bytes
  toolCallId : Bytes := []
  toolCalls : List ToolCall := []
  thinking : Bytes := []
  thinkingSignature : Bytes := []
  deriving DecidableEq, Repr

def roleUser : Bytes := ascii "user"
def roleSystem : Bytes := ascii "system"
def roleAssistant : Bytes := ascii "assistant"
def roleTool : Bytes := ascii "tool"

/-! ### Text helpers -/

/-- The blanks of `lstrip_ws`. -/
def isWs (b : Byte) : Bool := b == 0x20#8 || decide (0x09 ≤ b.toNat) && decide (b.toNat ≤ 0x0D)

def lstripWs (s : Bytes) : Bytes := s.dropWhile isWs

def rstripWs (s : Bytes) : Bytes := (s.reverse.dropWhile isWs).reverse

def stripWs (s : Bytes) : Bytes := rstripWs (lstripWs s)

/-- `find(needle) != npos`. -/
def contains (haystack needle : Bytes) : Bool := (firstOccurrence needle haystack).isSome

def lowerAscii (b : Byte) : Byte :=
  if 0x41 ≤ b.toNat ∧ b.toNat ≤ 0x5A then b + 0x20#8 else b

/-- `contains_ci`. -/
def containsCi (haystack needle : Bytes) : Bool :=
  !needle.isEmpty && contains (haystack.map lowerAscii) (needle.map lowerAscii)

/-- `flat_token_savings`. -/
def flatTokenSavings (chars : Nat) : Int := max ((chars / 4 : Nat) : Int) 1

/-- `kstr`. -/
def kstr (v : Int) : Bytes :=
  if v < 0 then 0x2D#8 :: decimal v.natAbs else decimal v.natAbs

/-- `py_isspace_cp`. -/
def pyIsspaceCp (cp : Nat) : Bool :=
  decide (0x09 ≤ cp ∧ cp ≤ 0x0D ∨ 0x1C ≤ cp ∧ cp ≤ 0x1F ∨ cp = 0x20 ∨ cp = 0x85 ∨ cp = 0xA0 ∨
    cp = 0x1680 ∨ cp = 0x2028 ∨ cp = 0x2029 ∨ cp = 0x202F ∨ cp = 0x205F ∨ cp = 0x3000 ∨
    0x2000 ≤ cp ∧ cp ≤ 0x200A)

/-- The first loop of `trim_py_ws`; runs of spaces are no different from one at a time. -/
def trimPyFront (s : Bytes) : Bytes :=
  match s with
  | [] => []
  | b :: rest =>
    if pyIsspaceCp (decodeCp b rest).1 then trimPyFront (rest.drop ((decodeCp b rest).2 - 1))
    else b :: rest
termination_by s.length
decreasing_by
  simp only [List.length_drop, List.length_cons]
  omega

def isContinuation (b : Byte) : Bool := b &&& 0xC0#8 == 0x80#8

/-- How many bytes the walk back to the lead byte goes over. -/
def lastCharLength (s : Bytes) : Nat :=
  min s.length ((s.reverse.takeWhile isContinuation).length + 1)

/-- The bytes are one blank character; the decoder sees what stands behind them. -/
def isBlankChar (char behind : Bytes) : Bool :=
  match char with
  | [] => false
  | b :: rest =>
    (decodeCp b (rest ++ behind)).2 == char.length && pyIsspaceCp (decodeCp b (rest ++ behind)).1

/-- The second loop of `trim_py_ws`: `behind` has been dropped already. -/
def trimPyBack (s behind : Bytes) : Bytes :=
  if s ≠ [] ∧ isBlankChar (s.drop (s.length - lastCharLength s)) behind then
    trimPyBack (s.take (s.length - lastCharLength s))
      (s.drop (s.length - lastCharLength s) ++ behind)
  else s
termination_by s.length
decreasing_by
  rename_i h
  have hpos := List.length_pos_of_ne_nil h.1
  simp only [List.length_take, lastCharLength]
  omega

/-- `trim_py_ws`. -/
def trimPyWs (s : Bytes) : Bytes := trimPyBack (trimPyFront s) []

/-- `trimmed_starts_with`. -/
def trimmedStartsWith (s start : Bytes) : Bool := (trimPyWs s).take start.length == start

/-! ### Ephemeral messages -/

/-- `is_system_reminder_message`. -/
def isSystemReminderMessage (m : Message) : Bool :=
  m.role == roleUser && trimmedStartsWith m.content (ascii "<system-reminder>")

/-- `is_active_task_snapshot_message`. -/
def isActiveTaskSnapshotMessage (m : Message) : Bool :=
  m.role == roleUser && (contains m.content (ascii "<active-background-tasks>") ||
    containsCi m.content (ascii "active background tasks"))

/-- `is_checkpoint_marker_message`. -/
def isCheckpointMarkerMessage (m : Message) : Bool :=
  (m.role == roleUser || m.role == roleSystem) && contains m.content (ascii "CHECKPOINT") &&
    ((stripWs m.content).take 18 == ascii "<system>CHECKPOINT" ||
      contains (stripWs m.content) (ascii "<system>CHECKPOINT"))

/-- `is_notification_message`. -/
def isNotificationMessage (m : Message) : Bool :=
  m.role == roleUser && (lstripWs m.content).take 14 == ascii "<notification "

/-- `is_ephemeral_message`. -/
def isEphemeralMessage (m : Message) (checkNotifications checkTaskSnapshots checkCheckpoints : Bool) :
    Bool :=
  isSystemReminderMessage m || checkNotifications && isNotificationMessage m ||
    checkTaskSnapshots && isActiveTaskSnapshotMessage m ||
    checkCheckpoints && isCheckpointMarkerMessage m

/-- Only messages of the user and the system are ephemeral. -/
theorem role_of_isEphemeralMessage {m : Message} {n t c : Bool}
    (h : isEphemeralMessage m n t c = true) : m.role = roleUser ∨ m.role = roleSystem := by
  simp only [isEphemeralMessage, isSystemReminderMessage, isNotificationMessage,
    isActiveTaskSnapshotMessage, isCheckpointMarkerMessage, Bool.or_eq_true, Bool.and_eq_true,
    beq_iff_eq] at h
  tauto

theorem not_isEphemeralMessage_of_tool {m : Message} (n t c : Bool) (h : m.role = roleTool) :
    isEphemeralMessage m n t c = false := by
  refine Bool.eq_false_iff.mpr ?_
  intro heph
  rcases role_of_isEphemeralMessage heph with hrole | hrole <;>
    exact absurd (h.symm.trans hrole) (by decide)

/-! ### The protected set -/

/-- A tool message that answers a call of the message. -/
def answers (m candidate : Message) : Bool :=
  candidate.role == roleTool && !candidate.toolCallId.isEmpty &&
    m.toolCalls.any fun tc => tc.id == candidate.toolCallId

/-- `protect_tool_pair_indices`. -/
def protectToolPairIndices (history : List Message) (prot : Finset Int) : Finset Int :=
  let assistants := history.zipIdx.filter fun q =>
    decide ((q.2 : Int) ∈ prot) && q.1.role == roleAssistant && !q.1.toolCalls.isEmpty
  let pairs := history.zipIdx.filter fun q => assistants.any fun a => answers a.1 q.1
  prot ∪ (pairs.map fun q => (q.2 : Int)).toFinset

/-- The tail of `compute_protected_indices`: the last turns of the user and the assistant. -/
def tailTurnIndices (history : List Message) (recent : Int) : List Int :=
  ((history.zipIdx.reverse.filter fun q => q.1.role == roleUser || q.1.role == roleAssistant).map
    fun q => (q.2 : Int)).take recent.toNat

/-- The indices from `a` up to `b`. -/
def indexRange (a b : Int) : Finset Int :=
  ((List.range (b - a).toNat).map fun k => a + (k : Int)).toFinset

/-- `compute_protected_indices`. -/
def computeProtectedIndices (history : List Message) (stablePrefixMessages recent : Int)
    (currentTurnIndex minCachePrefixDepth : Option Int) : Finset Int :=
  let n : Int := history.length
  let floor := min n (max stablePrefixMessages (minCachePrefixDepth.getD 0))
  let ends := indexRange 0 floor ∪ (tailTurnIndices history recent).toFinset
  let pairs := protectToolPairIndices history ends
  match currentTurnIndex with
  | none => pairs
  | some start => pairs ∪ indexRange start n

/-! ### `<system>` blocks -/

/-- `leading_system_prefix_len`, from the place on where the text is `rest`. -/
def leadingSystemPrefixLen (rest : Bytes) : Nat :=
  if rest = [] then 0
  else if (stripWs (rest.takeWhile (· != 0x0A#8))).take 8 ≠ ascii "<system>" then 0
  else
    match firstOccurrence (ascii "</system>") rest with
    | none => 0
    | some close =>
      -- the newline that joins the block to what follows belongs to the block
      let len := if rest[close + 9]? = some 0x0A#8 then close + 10 else close + 9
      len + leadingSystemPrefixLen (rest.drop len)
termination_by rest.length
decreasing_by
  have hpos := List.length_pos_of_ne_nil (by assumption : ¬ rest = [])
  simp only [List.length_drop]
  split <;> omega

/-- `system_block_inner`. -/
def systemBlockInner (content : Bytes) : Option Bytes :=
  let t := stripWs content
  if t.take 8 ≠ ascii "<system>" then none
  else if t.length < 18 ∨ t.drop (t.length - 9) ≠ ascii "</system>" then none
  else some (stripWs ((t.drop 8).take (t.length - 17)))

/-- `output_text`. -/
def outputText (m : Message) : Bytes := m.content.drop (leadingSystemPrefixLen m.content)

end KimixNative.Agent
