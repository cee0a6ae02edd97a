import KimixNative.Lib.Search
import KimixNative.Tools.Compact
import KimixNative.Tools.ToolParams

/-!
# The compact tool

The tool reads the messages of a history from its parameters, derives the boundary where none is
given, and answers with the messages to compact and to preserve.
-/

namespace KimixNative.Tools.Compact

open Text

/-! ## Reading messages -/

/-- `get` of a nested object, which has no aliases. -/
def member (values : ValueMap) (key : Bytes) : Option ValueElement :=
  ({ values := values } : ToolParams).get key

/-- The text of a member, or a default where it is none. -/
def memberText (values : ValueMap) (key missing : Bytes) : Bytes :=
  match member values key with
  | some (.string s) => s
  | _ => missing

/-- The type and the text of a part. -/
def partOf (values : ValueMap) : ContentPart :=
  ⟨memberText values (ascii "type") (ascii "other"), memberText values (ascii "text") []⟩

/-- Of the other parts nothing is kept. -/
def keepPart (part : ContentPart) : ContentPart :=
  if part.type ≠ ascii "text" ∧ part.type ≠ ascii "think" then ⟨ascii "other", []⟩ else part

def deserializePart : ValueElement → Except Bytes ContentPart
  | .object values => .ok (keepPart (partOf values))
  | _ => .error (ascii "content part is not an object")

/-- `compact_deserialize_message`. -/
def deserializeMessage : ValueElement → Except Bytes Message
  | .object values =>
    match member values (ascii "role") with
    | some (.string role) =>
      match member values (ascii "content") with
      | none => .ok { role := role }
      | some (.array elements) =>
        (elements.mapM deserializePart).map fun content => { role := role, content := content }
      | some _ =>
        .error (ascii "message 'content' must be an array of content parts, e.g. " ++
          ascii "[\x7b\"type\": \"text\", \"text\": \"...\"\x7d] - wrap a plain " ++
          ascii "string as a single text part")
    | _ => .error (ascii "message missing 'role' string")
  | _ => .error (ascii "message is not an object")

/-- `compact_serialize_message`. -/
def serializeMessage (m : Message) : ValueElement :=
  .object [(ascii "content", .array (m.content.map fun part =>
      .object [(ascii "text", .string part.text), (ascii "type", .string part.type)])),
    (ascii "role", .string m.role)]

/-! ## How much is preserved -/

/-- `compact_contains`. -/
def contains (haystack needle : Bytes) : Bool := (firstOccurrence needle haystack).isSome

/-- `compact_count_substr`; the bytes of an occurrence that was counted are skipped. -/
def countSubstr (needle : Bytes) : Nat → Bytes → Nat
  | _, [] => 0
  | skip + 1, _ :: rest => countSubstr needle skip rest
  | 0, c :: rest =>
    if needle <+: c :: rest then countSubstr needle (needle.length - 1) rest + 1
    else countSubstr needle 0 rest

/-- `compact_to_lower_ascii`. -/
def toLowerAscii (c : Byte) : Byte :=
  if 0x41 ≤ c.toNat ∧ c.toNat ≤ 0x5A then c + 0x20#8 else c

/-- The texts of the text parts. -/
def texts (m : Message) : List Bytes :=
  (m.content.filter fun part => part.type == ascii "text").map ContentPart.text

/-- `has_think_part`. -/
def hasThinkPart (m : Message) : Bool := m.content.any fun part => part.type == ascii "think"

/-- `adaptive_preserve_depth`. -/
def adaptivePreserveDepth (messages : List Message) (minPreserved maxPreserved : Int) : Int :=
  match messages.reverse.find? isUserOrAssistant with
  | none => minPreserved
  | some target =>
    let lower := (texts target).flatten.map toLowerAscii
    let depth := minPreserved
    let depth := if contains lower (ascii "error") || contains lower (ascii "exception") ||
      contains lower (ascii "failed") then depth + 1 else depth
    let depth := if hasThinkPart target then depth + 1 else depth
    let fileRefs := countSubstr (ascii "file:") 0 lower + countSubstr (ascii ".py") 0 lower +
      countSubstr (ascii ".md") 0 lower
    let depth := if fileRefs > 2 then depth + 1 else depth
    let depth := if depth < minPreserved then minPreserved else depth
    if depth > maxPreserved then maxPreserved else depth

/-- `detect_cascade_depth`. -/
def detectCascadeDepth (messages : List Message) : Nat :=
  messages.countP fun m => (texts m).any (contains · (ascii "Previous context has been compacted"))

/-! ## The tool -/

/-- `k_compact_aliases`. -/
def compactAliases : List ParamAlias :=
  [⟨ascii "messages", ["history", "conversation", "conversation_history", "turns",
      "message_list"].map ascii⟩,
    ⟨ascii "preserve_start_index", ["preserve_index", "tail_start_index", "start_index",
      "preserve_from"].map ascii⟩,
    ⟨ascii "options", ["config", "settings", "opts"].map ascii⟩,
    ⟨ascii "custom_instruction", ["instruction", "custom_instructions", "instruction_text",
      "user_instruction"].map ascii⟩,
    ⟨ascii "prompt_compact", ["compact_prompt", "prompt", "base_prompt"].map ascii⟩,
    ⟨ascii "prompt_compact_cascade", ["cascade_prompt", "compact_cascade_prompt",
      "prompt_cascade"].map ascii⟩]

/-- `preserve_depth_override` of `compact_build_options`, an integer of 32 bits; -1 for none. -/
def preserveDepthOverride (parameters : ToolParams) : Int :=
  match parameters.get (ascii "options") with
  | some (.object values) =>
    match member values (ascii "preserve_depth_override") with
    | some (.int i) => (BitVec.ofInt 32 i).toInt
    | _ => -1
  | _ => -1

/-- The result of the tool, without the texts for the prompt. -/
structure CompactResult where
  status : Bytes
  message : Bytes
  toCompact : List ValueElement := []
  toPreserve : List ValueElement := []

def unbalancedMessage : Bytes :=
  ascii "cannot compact: the history has a tool result with no matching " ++
    ascii "tool call (unbalanced tool pairing)"

def nothingToCompact : CompactResult := ⟨ascii "no_change", ascii "no messages to compact", [], []⟩

/-- The depth of the boundary that the tool derives. -/
def derivedDepth (parameters : ToolParams) (messages : List Message) : Int :=
  if 0 ≤ preserveDepthOverride parameters then preserveDepthOverride parameters
  else adaptivePreserveDepth messages 1 2

/-- The index that is given or derived, or the answer where there is none. -/
def preserveStart (parameters : ToolParams) (messages : List Message) : Except CompactResult Nat :=
  match parameters.get (ascii "preserve_start_index") with
  | some (.int i) => .ok (if i < 0 then 0 else min i.toNat messages.length)
  | some (.uint u) => .ok (min u messages.length)
  | _ =>
    let split := resolvePreserveSplit messages (derivedDepth parameters messages) true
    if split.unbalanced then .error { status := ascii "error", message := unbalancedMessage }
    else if !split.compact then .error nothingToCompact
    else .ok split.preserveStartIndex

/-- `prepare_compaction_input` and the answer. -/
def prepare (messages : List Message) (start : Nat) : CompactResult :=
  let toCompact := messages.take start
  let toPreserve := messages.drop start
  if toCompact = [] then nothingToCompact
  else
    { status := ascii "ok"
      message := ascii "compaction prepared: " ++ decimal toCompact.length ++
        ascii " message(s) to compact, " ++ decimal toPreserve.length ++
        ascii " to preserve (cascade_depth " ++ decimal (detectCascadeDepth toCompact) ++ ascii ")"
      toCompact := toCompact.map serializeMessage
      toPreserve := toPreserve.map serializeMessage }

/-- `Compact::operator()`. -/
def run : Option ToolParams → CompactResult
  | none => { status := ascii "no_change", message := ascii "no parameters provided" }
  | some parameters =>
    let parameters := parameters.withAliases compactAliases
    match parameters.get (ascii "messages") with
    | some (.array elements) =>
      match elements.mapM deserializeMessage with
      | .error err => { status := ascii "invalid_input", message := err }
      | .ok messages =>
        match preserveStart parameters messages with
        | .error result => result
        | .ok start => prepare messages start
    | _ => { status := ascii "invalid_input", message := ascii "missing or invalid 'messages' array" }

/-! ## Histories -/

/-- A message has a role and, where it has content, a list of parts. -/
structure WellFormed (values : ValueMap) : Prop where
  role : ∃ role, member values (ascii "role") = some (.string role)
  content : ∀ v, member values (ascii "content") = some v →
    ∃ parts : List ValueMap, v = .array (parts.map ValueElement.object)

def objectPart : ValueElement → Option ContentPart
  | .object values => some (partOf values)
  | _ => none

/-- The parts of a list of objects. -/
def partsOf : Option ValueElement → List ContentPart
  | some (.array elements) => elements.filterMap objectPart
  | _ => []

/-- A message as it is given: with its parts and the calls of its `tool_calls`. -/
def given (values : ValueMap) : Message where
  role := memberText values (ascii "role") []
  content := partsOf (member values (ascii "content"))
  toolCallCount :=
    match member values (ascii "tool_calls") with
    | some (.array calls) => calls.length
    | _ => 0

/-- What is read of a message. -/
def parsed (values : ValueMap) : Message where
  role := (given values).role
  content := (given values).content.map keepPart

/-- The role and the texts of a message in the answer. -/
def roleAndTexts : ValueElement → Bytes × List Bytes
  | .object values => ((given values).role, texts (given values))
  | _ => ([], [])

theorem member_eq_lookup (values : ValueMap) (key : Bytes) :
    member values key = values.lookup key := by
  have hget : member values key =
      if (values.lookup key).any fun v => !v.isNull then values.lookup key else values.lookup key :=
    rfl
  rw [hget, ite_self]

theorem partsOf_objects (parts : List ValueMap) :
    partsOf (some (.array (parts.map ValueElement.object))) = parts.map partOf := by
  rw [partsOf, List.filterMap_map]
  exact congrFun List.filterMap_eq_map parts

theorem mapM_eq_map {α β ε : Type} {f : α → Except ε β} {g : α → β} {l : List α}
    (h : ∀ a ∈ l, f a = .ok (g a)) : l.mapM f = .ok (l.map g) := by
  induction l with
  | nil => rfl
  | cons a l ih =>
    rw [List.mapM_cons, h a List.mem_cons_self, ih fun b hb => h b (List.mem_cons_of_mem a hb)]
    rfl

theorem deserializeMessage_object {values : ValueMap} (h : WellFormed values) :
    deserializeMessage (.object values) = .ok (parsed values) := by
  obtain ⟨role, hrole⟩ := h.role
  have hgiven : (given values).role = role := by
    rw [given, memberText, hrole]
  rw [deserializeMessage, hrole]
  dsimp only
  rcases hcontent : member values (ascii "content") with _ | v
  · rw [parsed, hgiven, given, hcontent]
    rfl
  · obtain ⟨parts, rfl⟩ := h.content v hcontent
    have hparts : (parts.map ValueElement.object).mapM deserializePart =
        .ok (parts.map fun part => keepPart (partOf part)) := by
      rw [List.mapM_map]
      exact mapM_eq_map fun part _ => rfl
    rw [parsed, hgiven, given, hcontent]
    simp only [hparts, partsOf_objects, List.map_map]
    rfl

/-- No call is read. -/
theorem callCount_parsed (values : ValueMap) : callCount (parsed values) = 0 := by
  have hkeep : ∀ part, isToolCallPart (keepPart part) = false := by
    intro part
    rw [keepPart]
    split
    · rfl
    · rename_i hpart
      rw [not_and_or, not_not, not_not] at hpart
      rcases hpart with htype | htype <;> rw [isToolCallPart, htype] <;> decide
  have hcount : (parsed values).content.countP isToolCallPart = 0 := by
    refine List.countP_eq_zero.mpr fun part hpart => ?_
    obtain ⟨x, -, rfl⟩ := List.mem_map.mp hpart
    rw [hkeep x]
    exact Bool.false_ne_true
  rw [callCount, hcount]
  exact ite_self 0

theorem texts_parsed (values : ValueMap) : texts (parsed values) = texts (given values) := by
  have hkeep : ∀ part, (keepPart part).type = ascii "text" ↔ part.type = ascii "text" := by
    intro part
    rw [keepPart]
    split
    · rename_i hpart
      exact iff_of_false (by decide) hpart.1
    · rfl
  have hfilter : ((fun part : ContentPart => part.type == ascii "text") ∘ keepPart) =
      fun part => part.type == ascii "text" := by
    funext part
    exact Bool.eq_iff_iff.mpr (by simp only [Function.comp_apply, beq_iff_eq, hkeep part])
  simp only [texts, parsed, List.filter_map, List.map_map, hfilter]
  refine List.map_congr_left fun part hpart => ?_
  have htype := beq_iff_eq.mp (List.mem_filter.mp hpart).2
  simp only [Function.comp_apply, keepPart, htype, ne_eq, not_true_eq_false, false_and, if_false]

theorem roleAndTexts_serializeMessage (m : Message) :
    roleAndTexts (serializeMessage m) = (m.role, texts m) := by
  have hpart : ∀ part : ContentPart, partOf [(ascii "text", .string part.text),
      (ascii "type", .string part.type)] = part := by
    intro part
    rw [partOf, memberText, memberText, member_eq_lookup, member_eq_lookup]
    rfl
  have hparts : (m.content.map fun part => ValueElement.object
      [(ascii "text", .string part.text), (ascii "type", .string part.type)]).filterMap objectPart =
      m.content := by
    rw [List.filterMap_map]
    have hcomp : (objectPart ∘ fun part : ContentPart => ValueElement.object
        [(ascii "text", .string part.text), (ascii "type", .string part.type)]) = some := by
      funext part
      exact congrArg some (hpart part)
    rw [hcomp, List.filterMap_some]
  have hgiven : (given [(ascii "content", .array (m.content.map fun part => .object
      [(ascii "text", .string part.text), (ascii "type", .string part.type)])),
      (ascii "role", .string m.role)]).content = m.content := by
    rw [given, member_eq_lookup]
    exact hparts
  have hrole : (given [(ascii "content", .array (m.content.map fun part => .object
      [(ascii "text", .string part.text), (ascii "type", .string part.type)])),
      (ascii "role", .string m.role)]).role = m.role := by
    rw [given, memberText, member_eq_lookup]
    rfl
  rw [serializeMessage, roleAndTexts, texts, hgiven, hrole, texts]

/-! ## The verdict -/

/-- Without calls the first tool result is unbalanced. -/
theorem balancedCutsFrom_of_no_calls {rest : List Message} (h : ∀ m ∈ rest, callCount m = 0)
    (i : Nat) :
    (balancedCutsFrom i 0 rest).unbalanced.isSome = true ↔ ∃ m ∈ rest, isTool m = true := by
  induction rest generalizing i with
  | nil => simp [balancedCutsFrom]
  | cons m rest ih =>
    obtain ⟨hm, hrest⟩ := List.forall_mem_cons.mp h
    rw [List.exists_mem_cons_iff, balancedCutsFrom, messageToolCallDelta_eq, hm]
    by_cases htool : isTool m = true
    · simp [htool]
    · simp only [htool, Bool.false_eq_true, if_false, Int.ofNat_zero, Int.sub_zero, Int.add_zero,
        Int.lt_irrefl, if_true, ih hrest, false_or]

theorem walkBack_isSome {l : List Message} {depth : Nat} (hdepth : 0 < depth) :
    (walkBack l depth).isSome = true ↔ depth ≤ l.countP isUserOrAssistant := by
  induction l generalizing depth with
  | nil =>
    rw [walkBack, List.countP_nil]
    exact iff_of_false Bool.false_ne_true (by omega)
  | cons m rest ih =>
    rw [walkBack]
    by_cases hm : isUserOrAssistant m = true
    · rw [if_pos hm, List.countP_cons_of_pos hm]
      split
      · exact iff_of_true rfl (by omega)
      · rw [ih (by omega)]
        omega
    · rw [if_neg hm, List.countP_cons_of_neg hm, ih hdepth]

theorem splitAt_unbalanced (messages : List Message) (cuts : List Nat) (balancedCuts : Bool)
    (start : Nat) : (splitAt messages cuts balancedCuts start).unbalanced = false := by
  simp only [splitAt]
  repeat' split
  all_goals rfl

/-- The history is refused when the walk back finds the turns and the fold meets a result without
a call. -/
theorem resolvePreserveSplit_unbalanced (messages : List Message) (depth : Int) :
    (resolvePreserveSplit messages depth true).unbalanced = true ↔
      0 < depth ∧ depth ≤ messages.countP isUserOrAssistant ∧
        (balancedCutIndices messages).unbalanced.isSome = true := by
  rw [resolvePreserveSplit]
  by_cases hdepth : 0 < depth
  · have hwalk := @walkBack_isSome messages.reverse depth.toNat (by omega)
    rw [List.countP_reverse] at hwalk
    by_cases hnil : messages = []
    · subst hnil
      rw [if_pos (Or.inl rfl), List.countP_nil]
      exact iff_of_false Bool.false_ne_true (by omega)
    · rw [if_neg (not_or_intro hnil (Int.not_le.mpr hdepth))]
      rcases hstart : walkBack messages.reverse depth.toNat with _ | start
      · rw [hstart, Option.isSome_none] at hwalk
        have hfew := mt hwalk.mpr Bool.false_ne_true
        exact iff_of_false Bool.false_ne_true (by omega)
      · have hturns := hwalk.mp (by rw [hstart, Option.isSome_some])
        simp only [if_true]
        split
        · rename_i hunbalanced
          exact iff_of_true rfl ⟨hdepth, by omega, hunbalanced⟩
        · rename_i hbalanced
          rw [splitAt_unbalanced]
          exact iff_of_false Bool.false_ne_true fun h => hbalanced h.2.2
  · rw [if_pos (Or.inr (Int.not_lt.mp hdepth))]
    exact iff_of_false Bool.false_ne_true fun h => hdepth h.1

/-- The tool does not refuse the history, and what it returns has the roles and the texts that it
was given. -/
structure Accepts (parameters : ToolParams) (history : List ValueMap) : Prop where
  balanced : (run (some parameters)).message ≠ unbalancedMessage
  kept : (run (some parameters)).toCompact ++ (run (some parameters)).toPreserve = [] ∨
    ((run (some parameters)).toCompact ++ (run (some parameters)).toPreserve).map roleAndTexts =
      history.map fun values => roleAndTexts (.object values)

/-- The history has a tool message, and as many turns as the boundary asks for. -/
def Refused (parameters : ToolParams) (history : List ValueMap) : Prop :=
  0 < derivedDepth (parameters.withAliases compactAliases) (history.map parsed) ∧
    derivedDepth (parameters.withAliases compactAliases) (history.map parsed) ≤
      (history.map given).countP isUserOrAssistant ∧
    ∃ values ∈ history, isTool (given values) = true

theorem prepare_kept (messages : List Message) (start : Nat) :
    (prepare messages start).message ≠ unbalancedMessage ∧
      ((prepare messages start).toCompact ++ (prepare messages start).toPreserve = [] ∨
        (prepare messages start).toCompact ++ (prepare messages start).toPreserve =
          messages.map serializeMessage) := by
  rw [prepare]
  split
  · exact ⟨by decide, Or.inl rfl⟩
  · refine ⟨fun h => ?_, Or.inr ?_⟩
    · have hfirst := congrArg (List.take 2) h
      simp only [List.append_assoc,
        List.take_append_of_le_length (by decide : 2 ≤ (ascii "compaction prepared: ").length)]
        at hfirst
      exact absurd hfirst (by decide)
    · rw [← List.map_append, List.take_append_drop]

/-- A well-formed history without an index is refused exactly when the derived boundary is looked
for and there is a tool message: the calls are not read. -/
theorem run_accepts_iff {parameters : ToolParams} {history : List ValueMap}
    (hmessages : (parameters.withAliases compactAliases).get (ascii "messages") =
      some (.array (history.map ValueElement.object)))
    (hindex : (parameters.withAliases compactAliases).get (ascii "preserve_start_index") = none)
    (hwell : ∀ values ∈ history, WellFormed values) :
    Accepts parameters history ↔ ¬Refused parameters history := by
  have hparse : (history.map ValueElement.object).mapM deserializeMessage =
      .ok (history.map parsed) := by
    rw [List.mapM_map]
    exact mapM_eq_map fun values hvalues => deserializeMessage_object (hwell values hvalues)
  have hrefused : (resolvePreserveSplit (history.map parsed)
      (derivedDepth (parameters.withAliases compactAliases) (history.map parsed)) true).unbalanced =
        true ↔ Refused parameters history := by
    have hcalls : ∀ m ∈ history.map parsed, callCount m = 0 := by
      intro m hm
      obtain ⟨values, -, rfl⟩ := List.mem_map.mp hm
      exact callCount_parsed values
    have htool : (∃ m ∈ history.map parsed, isTool m = true) ↔
        ∃ values ∈ history, isTool (given values) = true := by
      simp only [List.mem_map, exists_exists_and_eq_and]
      rfl
    rw [resolvePreserveSplit_unbalanced, balancedCutIndices_unbalanced,
      balancedCutsFrom_of_no_calls hcalls, htool, List.countP_map, Refused, List.countP_map]
    rfl
  have htexts : (history.map parsed).map (roleAndTexts ∘ serializeMessage) =
      history.map fun values => roleAndTexts (.object values) := by
    rw [List.map_map]
    refine List.map_congr_left fun values _ => ?_
    rw [Function.comp_apply, Function.comp_apply, roleAndTexts_serializeMessage, texts_parsed]
    rfl
  by_cases hsplit : (resolvePreserveSplit (history.map parsed)
      (derivedDepth (parameters.withAliases compactAliases) (history.map parsed)) true).unbalanced =
        true
  · have hrun : run (some parameters) =
        { status := ascii "error", message := unbalancedMessage } := by
      simp only [run, hmessages, hparse, preserveStart, hindex, hsplit, if_true]
    refine iff_of_false (fun h => h.balanced ?_) (not_not_intro (hrefused.mp hsplit))
    rw [hrun]
  · refine iff_of_true ?_ (mt hrefused.mpr hsplit)
    have hrun : run (some parameters) = nothingToCompact ∨
        ∃ start, run (some parameters) = prepare (history.map parsed) start := by
      simp only [run, hmessages, hparse, preserveStart, hindex, hsplit, Bool.false_eq_true, if_false]
      rcases (resolvePreserveSplit (history.map parsed)
        (derivedDepth (parameters.withAliases compactAliases) (history.map parsed)) true).compact with
        _ | _
      · exact Or.inl rfl
      · exact Or.inr ⟨_, rfl⟩
    rcases hrun with hrun | ⟨start, hrun⟩
    · exact ⟨by rw [hrun]; decide, by rw [hrun]; exact Or.inl rfl⟩
    · obtain ⟨hbalanced, hkept⟩ := prepare_kept (history.map parsed) start
      rw [← hrun] at hbalanced hkept
      refine ⟨hbalanced, hkept.imp_right fun h => ?_⟩
      rw [h, List.map_map, htexts]

def userMessage (text : Bytes) : ValueMap :=
  [(ascii "content", .array [.object [(ascii "text", .string text),
      (ascii "type", .string (ascii "text"))]]), (ascii "role", .string roleUser)]

/-- The messages of `callFirst` as they are given. -/
def callFirstHistory : List ValueMap :=
  [[(ascii "role", .string roleAssistant),
      (ascii "tool_calls", .array [.object [(ascii "id", .string (ascii "c1"))]])],
    [(ascii "role", .string roleTool), (ascii "tool_call_id", .string (ascii "c1"))],
    userMessage (ascii "go on"), userMessage (ascii "and then")]

def messagesOnly (history : List ValueMap) : ToolParams :=
  { values := [(ascii "messages", .array (history.map ValueElement.object))] }

theorem wellFormed_userMessage (text : Bytes) : WellFormed (userMessage text) where
  role := ⟨roleUser, by rw [member_eq_lookup]; rfl⟩
  content v hv := by
    rw [member_eq_lookup] at hv
    obtain rfl := Option.some.inj hv
    exact ⟨[[(ascii "text", .string text), (ascii "type", .string (ascii "text"))]], rfl⟩

/-- Two turns of the user without a tool are compacted. -/
theorem run_accepts_iff_twoTurns :
    Accepts (messagesOnly [userMessage (ascii "go on"), userMessage (ascii "and then")])
      [userMessage (ascii "go on"), userMessage (ascii "and then")] := by
  refine (run_accepts_iff rfl rfl ?_).mpr ?_
  · intro values hvalues
    rcases List.mem_pair.mp hvalues with rfl | rfl <;> exact wellFormed_userMessage _
  · rintro ⟨-, -, values, hvalues, htool⟩
    rcases List.mem_pair.mp hvalues with rfl | rfl <;> exact absurd htool (by decide)

/-- A history whose only result answers the only call is refused. -/
theorem run_not_accepts_callFirst :
    Nonempty (Pairing (callFirstHistory.map given)) ∧
      (∀ values ∈ callFirstHistory, WellFormed values) ∧
      (run (some (messagesOnly callFirstHistory))).message = unbalancedMessage ∧
      ¬(∀ parameters history,
        (parameters.withAliases compactAliases).get (ascii "messages") =
          some (.array (history.map ValueElement.object)) →
        (parameters.withAliases compactAliases).get (ascii "preserve_start_index") = none →
        (∀ values ∈ history, WellFormed values) → Nonempty (Pairing (history.map given)) →
        Accepts parameters history) := by
  have hpairing : Nonempty (Pairing (callFirstHistory.map given)) := ⟨callFirstPairing⟩
  have hwell : ∀ values ∈ callFirstHistory, WellFormed values := by
    intro values hvalues
    simp only [callFirstHistory, List.mem_cons, List.not_mem_nil, or_false] at hvalues
    rcases hvalues with rfl | rfl | rfl | rfl
    · refine ⟨⟨roleAssistant, by rw [member_eq_lookup]; rfl⟩, fun v hv => ?_⟩
      rw [member_eq_lookup] at hv
      cases hv
    · refine ⟨⟨roleTool, by rw [member_eq_lookup]; rfl⟩, fun v hv => ?_⟩
      rw [member_eq_lookup] at hv
      cases hv
    · exact wellFormed_userMessage _
    · exact wellFormed_userMessage _
  have hrun : (run (some (messagesOnly callFirstHistory))).message = unbalancedMessage := by decide
  refine ⟨hpairing, hwell, hrun, fun h => ?_⟩
  exact (h (messagesOnly callFirstHistory) callFirstHistory rfl rfl hwell hpairing).balanced hrun

end KimixNative.Tools.Compact
