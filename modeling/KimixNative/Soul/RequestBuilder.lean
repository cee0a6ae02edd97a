import KimixNative.Lib.KeyedQueues
import KimixNative.Soul.MessageView

/-!
# Repairing tool-call pairing

The first stage of `build_request`. Tool results are collected by their tool-call id, in
input order, and each call of a message takes the next one of its id, or a placeholder when
there is none. A history without calls and without tool-call ids is copied as it is.

Indices are kept in 32 bits, and the place of an id is cast to a signed 32-bit number before
it is used.
-/

namespace KimixNative.Soul

/-- The result indices of each tool-call id, `ids`, `at` and `cursor` in the source. -/
abbrev Buckets := List (KeyedQueue Bytes Nat)

/-- The bytes of an ASCII literal. -/
def asciiBytes (s : String) : Bytes := s.toList.map fun c => BitVec.ofNat 8 c.toNat

/-- A tool message that names its call. -/
def resultId (mv : MessageView) : Option Bytes := if mv.role = kRoleTool then mv.toolCallId else none

/-- The first loop of `repair_into`, from index `i` on. -/
def collectResults : Nat → List MessageView → Buckets → Buckets
  | _, [], buckets => buckets
  | i, mv :: rest, buckets =>
    collectResults (i + 1) rest (match resultId mv with
      | none => buckets
      | some id => KeyedQueue.push buckets id (i % 2 ^ 32))

/-- The search for the bucket of a call, -1 when there is none. -/
def bucketOf (buckets : Buckets) (id : Bytes) : Int :=
  match KeyedQueue.index buckets id with
  | none => -1
  | some k => (BitVec.ofNat 32 k).toInt

/-- The result of an interrupted call. -/
def placeholder (tc : ToolCallView) : MessageView where
  role := kRoleTool
  toolCallId := tc.id
  parts := [⟨.text, some (asciiBytes "[Tool result missing: the call to '" ++ tc.name.getD [] ++
    asciiBytes "' was interrupted before its result was recorded. Treat the call as failed.]")⟩]
  toolCalls := []

/-- One round of the loop over the calls: the message that is pushed. -/
def claimResult (input : List MessageView) (buckets : Buckets) (tc : ToolCallView) :
    List MessageView × Buckets :=
  let bucket := bucketOf buckets (tc.id.getD [])
  if bucket < 0 then ([placeholder tc], buckets)
  else
    match KeyedQueue.takeAt (fun cursor => (cursor + 1) % 2 ^ 32) buckets bucket.toNat with
    | none => ([placeholder tc], buckets)
    | some (i, buckets) => ((input[i]?).toList, buckets)

/-- The loop over the calls of one message. -/
def claimResults (input : List MessageView) :
    List ToolCallView → Buckets → List MessageView × Buckets
  | [], buckets => ([], buckets)
  | tc :: rest, buckets =>
    let (m, buckets) := claimResult input buckets tc
    let (ms, buckets) := claimResults input rest buckets
    (m ++ ms, buckets)

/-- The last loop of `repair_into`. -/
def pairMessages (input : List MessageView) : List MessageView → Buckets → List MessageView
  | [], _ => []
  | mv :: rest, buckets =>
    if mv.role = kRoleTool then pairMessages input rest buckets
    else
      let (results, buckets) := claimResults input mv.toolCalls buckets
      mv :: (results ++ pairMessages input rest buckets)

/-- `has_tool_ids`. -/
def hasToolIds (input : List MessageView) : Bool := input.any fun mv => (resultId mv).isSome

/-- `any_calls`. -/
def anyCalls (input : List MessageView) : Bool := input.any fun mv => ¬ mv.toolCalls.isEmpty

def repairInto (input : List MessageView) : List MessageView :=
  if hasToolIds input = false ∧ anyCalls input = false then input
  else pairMessages input input (collectResults 0 input [])

end KimixNative.Soul
