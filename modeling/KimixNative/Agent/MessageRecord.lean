import KimixNative.Agent.Yyjson

/-!
# Session message records

A chat message is stored as one JSON record and read back into a message that may have been used
before. Every field but the parts is written and cleared. The parts are stored as the text of the
message and the urls of its media, and the reader sets them only when the record has media.
-/

namespace KimixNative.Agent.MessageRecord

open Text

/-! ## Messages -/

inductive PartKind where
  | text
  | think
  | imageUrl
  | audioUrl
  | videoUrl
  deriving DecidableEq, Repr

structure ContentPart where
  kind : PartKind := .text
  text : Bytes := []
  url : Bytes := []
  detail : Bytes := []
  deriving DecidableEq, Repr

structure ToolCall where
  id : Bytes := []
  type : Bytes := ascii "function"
  name : Bytes := []
  arguments : Bytes := []
  deriving DecidableEq, Repr

structure Message where
  role : Bytes := []
  content : Bytes := []
  toolCallId : Bytes := []
  toolCalls : List ToolCall := []
  thinking : Bytes := []
  thinkingSignature : Bytes := []
  parts : List ContentPart := []
  deriving DecidableEq, Repr

/-- The kinds other than text and think. -/
def PartKind.isMedia (k : PartKind) : Bool := k != .text && k != .think

/-- The `type` of a media part in a record. -/
def PartKind.typeName : PartKind → Option Bytes
  | .imageUrl => some (ascii "image_url")
  | .audioUrl => some (ascii "audio_url")
  | .videoUrl => some (ascii "video_url")
  | _ => none

def Message.hasMedia (m : Message) : Bool := m.parts.any fun p => p.kind.isMedia

/-! ## Writing -/

def text (s : Bytes) : JsonDoc := .leaf (.str s)

/-- A media part under its type: `{"type": t, t: {"url": url}}`. -/
def mediaDoc (typeName url : Bytes) : JsonDoc :=
  .members [(ascii "type", text typeName), (typeName, .members [(ascii "url", text url)])]

def thinkDoc (m : Message) : JsonDoc :=
  .members ([(ascii "type", text (ascii "think")), (ascii "think", text m.thinking)] ++
    if m.thinkingSignature = [] then [] else [(ascii "encrypted", text m.thinkingSignature)])

def textDoc (content : Bytes) : JsonDoc :=
  .members [(ascii "type", text (ascii "text")), (ascii "text", text content)]

def Message.hasThink (m : Message) : Bool := m.thinking ≠ [] || m.thinkingSignature ≠ []

/-- The part array of a message with thinking or media. -/
def partDocs (m : Message) : List JsonDoc :=
  (if m.hasThink then [thinkDoc m] else []) ++
    (if m.content = [] then [] else [textDoc m.content]) ++
    m.parts.filterMap fun p => p.kind.typeName.map fun name => mediaDoc name p.url

def contentDoc (m : Message) : JsonDoc :=
  if m.hasThink || m.hasMedia then .items (partDocs m)
  else if m.content = [] then
    if m.toolCalls = [] then text [] else .items []
  else text m.content

def callDoc (call : ToolCall) : JsonDoc :=
  .members [(ascii "type", text (if call.type = [] then ascii "function" else call.type)),
    (ascii "id", text call.id),
    (ascii "function", .members ((ascii "name", text call.name) ::
      if call.arguments = [] then [] else [(ascii "arguments", text call.arguments)]))]

/-- `cxdb_write_message`. -/
def cxdbWriteMessage (m : Message) : JsonDoc :=
  .members ([(ascii "role", text m.role), (ascii "content", contentDoc m)] ++
    (if m.toolCalls = [] then []
      else [(ascii "tool_calls", .items (m.toolCalls.map callDoc))]) ++
    if m.toolCallId = [] then [] else [(ascii "tool_call_id", text m.toolCallId)])

/-- `context_record_from_message`. -/
def contextRecordFromMessage (yy : Yyjson) (m : Message) : Bytes :=
  (yy.write (cxdbWriteMessage m)).getD []

/-! ## Reading -/

/-- `cxdb_member`: the first member under the key. -/
def cxdbMember (j : JsonDoc) (key : Bytes) : Option JsonDoc :=
  match j with
  | .members ms => if key = [] then none else (ms.find? fun m => m.1 = key).map Prod.snd
  | _ => none

/-- `cxdb_get_str`. -/
def cxdbGetStr (j : JsonDoc) (key : Bytes) : Bytes :=
  match cxdbMember j key with
  | some (.leaf (.str s)) => s
  | _ => []

/-- `message_set_parts`; its local `signature` stays empty, so the field of the message stays. -/
def messageSetParts (m : Message) (parts : List ContentPart) : Message :=
  let content := (parts.filter fun p => p.kind = .text).flatMap (·.text)
  let thinking := (parts.filter fun p => p.kind = .think).flatMap (·.text)
  { m with
    parts := parts
    content := content
    thinking := if thinking = [] then m.thinking else thinking }

/-- What the reader holds while it goes through the content. -/
structure Reading where
  out : Message
  thinkingSignature : Bytes := []
  hasMedia : Bool := false
  mediaParts : List ContentPart := []

/-- The kind of a part by its type. -/
def mediaKind (type : Bytes) : Option PartKind :=
  if type = ascii "image_url" then some .imageUrl
  else if type = ascii "audio_url" then some .audioUrl
  else if type = ascii "video_url" then some .videoUrl
  else none

/-- The url of a media part: in the object under its type, else flat. -/
def mediaUrl (item : JsonDoc) (type : Bytes) : Bytes :=
  let url := match cxdbMember item type with
    | some (.members ms) => cxdbGetStr (.members ms) (ascii "url")
    | _ => []
  if url = [] then cxdbGetStr item (ascii "url") else url

def readPart (r : Reading) (item : JsonDoc) : Reading :=
  match item with
  | .members ms =>
    let type := cxdbGetStr (.members ms) (ascii "type")
    if type = ascii "think" then
      let enc := cxdbGetStr (.members ms) (ascii "encrypted")
      { r with
        out := { r.out with
          thinking := r.out.thinking ++ cxdbGetStr (.members ms) (ascii "think") }
        thinkingSignature := if enc = [] then r.thinkingSignature else enc }
    else if type = ascii "text" then
      { r with
        out := { r.out with
          content := r.out.content ++ cxdbGetStr (.members ms) (ascii "text") } }
    else
      match mediaKind type with
      | some kind =>
        { r with
          hasMedia := true
          mediaParts := r.mediaParts ++
            [{ kind := kind, url := mediaUrl (.members ms) type }] }
      | none => r
  | _ => r

def readContent (content : Option JsonDoc) (r : Reading) : Reading :=
  match content with
  | some (.leaf (.str s)) => { r with out := { r.out with content := s } }
  | some (.items items) => items.foldl readPart r
  | _ => r

def readCall (item : JsonDoc) : Option ToolCall :=
  match item with
  | .members ms =>
    let fn := cxdbMember (.members ms) (ascii "function")
    let field (key : Bytes) : Bytes :=
      match fn with
      | some (.members fs) => cxdbGetStr (.members fs) key
      | _ => []
    some {
      type := cxdbGetStr (.members ms) (ascii "type")
      id := cxdbGetStr (.members ms) (ascii "id")
      name := field (ascii "name")
      arguments := field (ascii "arguments") }
  | _ => none

def readCalls (calls : Option JsonDoc) : List ToolCall :=
  match calls with
  | some (.items items) => items.filterMap readCall
  | _ => []

def messageRoles : List Bytes :=
  [ascii "system", ascii "user", ascii "assistant", ascii "tool"]

/-- The fields that a record of this role starts from; the parts stay those of `out`. -/
def Message.cleared (out : Message) (role : Bytes) : Message :=
  { out with
    role := role, content := [], thinking := [], thinkingSignature := [], toolCalls := []
    toolCallId := [] }

/-- The reader behind the content: signature, parts, tool calls and their id. -/
def finishMessage (r : Reading) (root : JsonDoc) : Message :=
  let out := { r.out with thinkingSignature := r.thinkingSignature }
  let out :=
    if r.hasMedia then
      messageSetParts out
        ((if out.content = [] then [] else [{ kind := .text, text := out.content }]) ++
          r.mediaParts)
    else out
  { out with
    toolCalls := out.toolCalls ++ readCalls (cxdbMember root (ascii "tool_calls"))
    toolCallId := cxdbGetStr root (ascii "tool_call_id") }

/-- `context_message_from_record`: the message it leaves in `out`, or `none` where it returns false
and leaves `out` as it was. -/
def contextMessageFromRecord (yy : Yyjson) (record : Bytes) (out : Message) : Option Message :=
  if record = [] then none
  else
    match yy.read record with
    | some (.members ms) =>
      let root : JsonDoc := .members ms
      let role := cxdbGetStr root (ascii "role")
      if role ∈ messageRoles then
        some (finishMessage
          (readContent (cxdbMember root (ascii "content")) { out := out.cleared role }) root)
      else none
    | _ => none

/-! ## A record is read as it was written -/

/-- Every text of a message. -/
def Message.texts (m : Message) : List Bytes :=
  [m.role, m.content, m.toolCallId, m.thinking, m.thinkingSignature] ++
    m.toolCalls.flatMap (fun c => [c.id, c.type, c.name, c.arguments]) ++
    m.parts.flatMap fun p => [p.text, p.url, p.detail]

/-- A document of valid texts under valid keys. -/
def Texts (j : JsonDoc) : Prop :=
  j.Each ValidUtf8 fun a => ∃ s, a = .str s ∧ ValidUtf8 s

variable {s : Bytes} {c : ToolCall}

theorem texts_text (h : ValidUtf8 s) : Texts (text s) :=
  .leaf ⟨s, rfl, h⟩

theorem texts_members {ms : List (Bytes × JsonDoc)} (h : ∀ m ∈ ms, ValidUtf8 m.1 ∧ Texts m.2) :
    Texts (.members ms) :=
  .members (fun m hm => (h m hm).1) fun m hm => (h m hm).2

variable {key name : Bytes} {k : PartKind}

theorem texts_member {d : JsonDoc} (hkey : isAscii key = true) (hd : Texts d) :
    ValidUtf8 (key, d).1 ∧ Texts (key, d).2 :=
  ⟨validUtf8_of_isAscii hkey, hd⟩

/-- A member that is left out in a case. -/
theorem texts_unless {p : Prop} [Decidable p] {d : JsonDoc} (hkey : isAscii key = true)
    (hd : Texts d) : ∀ m ∈ if p then [] else [(key, d)], ValidUtf8 m.1 ∧ Texts m.2 := by
  intro m hm
  obtain ⟨-, hm⟩ := List.mem_ite_nil_left.mp hm
  rw [List.mem_singleton.mp hm]
  exact texts_member hkey hd

theorem isAscii_typeName (h : k.typeName = some name) : isAscii name = true := by
  cases k <;> simp only [PartKind.typeName, Option.some.injEq, reduceCtorEq] at h
  all_goals
    subst h
    decide

theorem texts_mediaDoc {url : Bytes} (hname : k.typeName = some name) (hurl : ValidUtf8 url) :
    Texts (mediaDoc name url) := by
  have hascii := isAscii_typeName hname
  have hpayload : Texts (.members [(ascii "url", text url)]) :=
    texts_members (List.forall_mem_singleton.mpr (texts_member (by decide) (texts_text hurl)))
  exact texts_members (List.forall_mem_cons.mpr
    ⟨texts_member (by decide) (texts_text (validUtf8_of_isAscii hascii)),
      List.forall_mem_singleton.mpr (texts_member hascii hpayload)⟩)

theorem texts_textDoc (h : ValidUtf8 s) : Texts (textDoc s) :=
  texts_members (List.forall_mem_cons.mpr
    ⟨texts_member (by decide) (texts_text (validUtf8_of_isAscii (by decide))),
      List.forall_mem_singleton.mpr (texts_member (by decide) (texts_text h))⟩)

theorem texts_thinkDoc {m : Message} (h : ∀ s ∈ m.texts, ValidUtf8 s) : Texts (thinkDoc m) := by
  have hthinking : ValidUtf8 m.thinking := h _ (by simp [Message.texts])
  have hsignature : ValidUtf8 m.thinkingSignature := h _ (by simp [Message.texts])
  refine texts_members (List.forall_mem_append.mpr ⟨List.forall_mem_cons.mpr ⟨?_, ?_⟩, ?_⟩)
  · exact texts_member (by decide) (texts_text (validUtf8_of_isAscii (by decide)))
  · exact List.forall_mem_singleton.mpr (texts_member (by decide) (texts_text hthinking))
  · exact texts_unless (by decide) (texts_text hsignature)

theorem texts_contentDoc {m : Message} (h : ∀ s ∈ m.texts, ValidUtf8 s) : Texts (contentDoc m) := by
  have hcontent : ValidUtf8 m.content := h _ (by simp [Message.texts])
  rw [contentDoc]
  split
  · refine .items ?_
    intro t ht
    rw [partDocs, List.mem_append, List.mem_append] at ht
    rcases ht with (ht | ht) | ht
    · obtain ⟨-, ht⟩ := List.mem_ite_nil_right.mp ht
      rw [List.mem_singleton.mp ht]
      exact texts_thinkDoc h
    · obtain ⟨-, ht⟩ := List.mem_ite_nil_left.mp ht
      rw [List.mem_singleton.mp ht]
      exact texts_textDoc hcontent
    · obtain ⟨p, hp, hdoc⟩ := List.mem_filterMap.mp ht
      obtain ⟨name, hname, rfl⟩ := Option.map_eq_some_iff.mp hdoc
      refine texts_mediaDoc hname (h _ ?_)
      exact List.mem_append_right _ (List.mem_flatMap.mpr ⟨p, hp, by simp⟩)
  · split
    · split
      · exact texts_text ValidUtf8.nil
      · exact .items (by simp)
    · exact texts_text hcontent

theorem texts_callDoc (h : ∀ s ∈ [c.id, c.type, c.name, c.arguments], ValidUtf8 s) :
    Texts (callDoc c) := by
  have htype : ValidUtf8 (if c.type = [] then ascii "function" else c.type) := by
    split
    · exact validUtf8_of_isAscii (by decide)
    · exact h _ (by simp)
  have hfunction : Texts (.members ((ascii "name", text c.name) ::
      if c.arguments = [] then [] else [(ascii "arguments", text c.arguments)])) :=
    texts_members (List.forall_mem_cons.mpr
      ⟨texts_member (by decide) (texts_text (h _ (by simp))),
        texts_unless (by decide) (texts_text (h _ (by simp)))⟩)
  refine texts_members (List.forall_mem_cons.mpr ⟨?_, List.forall_mem_cons.mpr ⟨?_, ?_⟩⟩)
  · exact texts_member (by decide) (texts_text htype)
  · exact texts_member (by decide) (texts_text (h _ (by simp)))
  · exact List.forall_mem_singleton.mpr (texts_member (by decide) hfunction)

theorem texts_cxdbWriteMessage {m : Message} (h : ∀ s ∈ m.texts, ValidUtf8 s) :
    Texts (cxdbWriteMessage m) := by
  have hcalls : Texts (.items (m.toolCalls.map callDoc)) := by
    refine .items ?_
    intro t ht
    obtain ⟨c, hc, rfl⟩ := List.mem_map.mp ht
    refine texts_callDoc fun s hs => h s ?_
    exact List.mem_append_left _ (List.mem_append_right _ (List.mem_flatMap.mpr ⟨c, hc, hs⟩))
  refine texts_members (List.forall_mem_append.mpr
    ⟨List.forall_mem_append.mpr ⟨List.forall_mem_cons.mpr ⟨?_, ?_⟩, ?_⟩, ?_⟩)
  · exact texts_member (by decide) (texts_text (h _ (by simp [Message.texts])))
  · exact List.forall_mem_singleton.mpr (texts_member (by decide) (texts_contentDoc h))
  · exact texts_unless (by decide) hcalls
  · exact texts_unless (by decide) (texts_text (h _ (by simp [Message.texts])))

/-- A message of valid texts is written, and its record is read as the document written. -/
theorem read_record {yy : Yyjson} (hyy : yy.Faithful) {m : Message}
    (h : ∀ s ∈ m.texts, ValidUtf8 s) :
    yy.read (contextRecordFromMessage yy m) = some (cxdbWriteMessage m) := by
  have htexts := texts_cxdbWriteMessage h
  have hwritable : JsonDoc.Writable (cxdbWriteMessage m) := by
    refine htexts.imp (fun _ hk => hk) ?_
    rintro a ⟨s, rfl, hs⟩
    exact hs
  obtain ⟨t, k, hwrite, hread, hvalue⟩ := hyy.read_write _ hwritable
  obtain rfl : k = cxdbWriteMessage m := by
    refine JsonDoc.eq_of_value ?_ htexts hvalue
    rintro a ⟨s, ha, -⟩
    exact ⟨s, ha⟩
  rw [contextRecordFromMessage, hwrite]
  exact hread

/-! ### What the reader finds -/

theorem cxdbMember_nil (key : Bytes) : cxdbMember (.members []) key = none := by
  simp [cxdbMember]

theorem cxdbMember_cons_self (h : key ≠ []) (d : JsonDoc) (ms : List (Bytes × JsonDoc)) :
    cxdbMember (.members ((key, d) :: ms)) key = some d := by
  simp [cxdbMember, h]

theorem cxdbMember_cons_ne {k : Bytes} (h : k ≠ key) (d : JsonDoc) (ms : List (Bytes × JsonDoc)) :
    cxdbMember (.members ((k, d) :: ms)) key = cxdbMember (.members ms) key := by
  simp [cxdbMember, h]

/-- A member that is left out where its text is empty is read as that text all the same. -/
theorem cxdbGetStr_unless (h : key ≠ []) :
    cxdbGetStr (.members (if s = [] then [] else [(key, text s)])) key = s := by
  split
  · rename_i hs
    rw [hs, cxdbGetStr, cxdbMember_nil]
  · rw [cxdbGetStr, cxdbMember_cons_self h, text]

theorem readPart_thinkDoc (r : Reading) (m : Message) :
    readPart r (thinkDoc m) =
      { r with
        out := { r.out with thinking := r.out.thinking ++ m.thinking }
        thinkingSignature :=
          if m.thinkingSignature = [] then r.thinkingSignature else m.thinkingSignature } := by
  have henc : cxdbGetStr (thinkDoc m) (ascii "encrypted") = m.thinkingSignature := by
    rw [thinkDoc, cxdbGetStr]
    simp (disch := decide) only [List.cons_append, List.nil_append, cxdbMember_cons_ne]
    exact cxdbGetStr_unless (by decide)
  have htype : cxdbGetStr (thinkDoc m) (ascii "type") = ascii "think" := by
    rw [thinkDoc, cxdbGetStr]
    simp (disch := decide) only [List.cons_append, cxdbMember_cons_self, text]
  have hthink : cxdbGetStr (thinkDoc m) (ascii "think") = m.thinking := by
    rw [thinkDoc, cxdbGetStr]
    simp (disch := decide) only [List.cons_append, cxdbMember_cons_ne,
      cxdbMember_cons_self, text]
  rw [thinkDoc] at henc htype hthink
  rw [thinkDoc, readPart]
  simp only [htype, henc, hthink, if_true]

theorem readPart_textDoc (r : Reading) (content : Bytes) :
    readPart r (textDoc content) =
      { r with out := { r.out with content := r.out.content ++ content } } := by
  have htype : cxdbGetStr (textDoc content) (ascii "type") = ascii "text" := by
    rw [textDoc, cxdbGetStr]
    simp (disch := decide) only [cxdbMember_cons_self, text]
  have htext : cxdbGetStr (textDoc content) (ascii "text") = content := by
    rw [textDoc, cxdbGetStr]
    simp (disch := decide) only [cxdbMember_cons_ne, cxdbMember_cons_self, text]
  have hne : ascii "text" ≠ ascii "think" := by decide
  rw [textDoc] at htype htext
  rw [textDoc, readPart]
  simp only [htype, htext, hne, if_true, if_false]

/-- What a record keeps of a media part. -/
def ContentPart.bare (p : ContentPart) : ContentPart := { kind := p.kind, url := p.url }

theorem typeName_keys (h : k.typeName = some name) :
    name ≠ [] ∧ ascii "type" ≠ name ∧ name ≠ ascii "think" ∧ name ≠ ascii "text" ∧
      mediaKind name = some k := by
  cases k <;> simp only [PartKind.typeName, Option.some.injEq, reduceCtorEq] at h
  all_goals
    subst h
    decide

theorem readPart_mediaDoc (r : Reading) (url : Bytes) (h : k.typeName = some name) :
    readPart r (mediaDoc name url) =
      { r with hasMedia := true, mediaParts := r.mediaParts ++ [{ kind := k, url := url }] } := by
  obtain ⟨hne, htypeNe, hthink, htext, hkind⟩ := typeName_keys h
  have htype : cxdbGetStr (mediaDoc name url) (ascii "type") = name := by
    rw [mediaDoc, cxdbGetStr, cxdbMember_cons_self (by decide), text]
  have hurl : mediaUrl (mediaDoc name url) name = url := by
    have hflat : cxdbGetStr (mediaDoc name []) (ascii "url") = [] := by
      cases k <;> simp only [PartKind.typeName, Option.some.injEq, reduceCtorEq] at h
      all_goals
        subst h
        decide
    have hpayload : cxdbGetStr (.members [(ascii "url", text url)]) (ascii "url") = url := by
      rw [cxdbGetStr, cxdbMember_cons_self (by decide), text]
    rw [mediaUrl, mediaDoc, cxdbMember_cons_ne htypeNe, cxdbMember_cons_self hne]
    simp only [hpayload]
    split
    · rename_i hnil
      rw [hnil]
      exact hflat
    · rfl
  rw [mediaDoc] at htype hurl
  rw [mediaDoc, readPart]
  simp only [htype, hurl, hthink, htext, hkind, if_false]

/-- A run over media parts keeps their kinds and urls, and passes over the others. -/
theorem foldl_readPart_media (parts : List ContentPart) (r : Reading) :
    (parts.filterMap fun p => p.kind.typeName.map fun name => mediaDoc name p.url).foldl
        readPart r =
      { r with
        hasMedia := r.hasMedia || parts.any fun p => p.kind.isMedia
        mediaParts := r.mediaParts ++
          (parts.filter fun p => p.kind.isMedia).map ContentPart.bare } := by
  induction parts generalizing r with
  | nil => simp
  | cons p parts ih =>
    cases hname : p.kind.typeName with
    | none =>
      have hmedia : p.kind.isMedia = false := by
        cases hkind : p.kind <;> simp_all [PartKind.typeName, PartKind.isMedia]
      rw [List.filterMap_cons_none (by rw [hname, Option.map_none]), ih]
      simp [hmedia]
    | some name =>
      have hmedia : p.kind.isMedia = true := by
        cases hkind : p.kind <;> simp_all [PartKind.typeName, PartKind.isMedia]
      rw [List.filterMap_cons_some (by rw [hname, Option.map_some]), List.foldl_cons,
        readPart_mediaDoc r p.url hname, ih]
      simp [hmedia, ContentPart.bare]

def Message.mediaParts (m : Message) : List ContentPart :=
  (m.parts.filter fun p => p.kind.isMedia).map ContentPart.bare

theorem hasThink_eq_false {m : Message} :
    m.hasThink = false ↔ m.thinking = [] ∧ m.thinkingSignature = [] := by
  simp [Message.hasThink]

theorem mediaParts_eq_nil {m : Message} (h : m.hasMedia = false) : m.mediaParts = [] := by
  rw [Message.mediaParts, List.map_eq_nil_iff, List.filter_eq_nil_iff]
  rw [Message.hasMedia, List.any_eq_false] at h
  exact h

/-- The content in any of its shapes is read into a cleared message as it was. -/
theorem readContent_contentDoc (m : Message) {out : Message} (hcontent : out.content = [])
    (hthinking : out.thinking = []) :
    readContent (some (contentDoc m)) { out := out } =
      { out := { out with content := m.content, thinking := m.thinking }
        thinkingSignature := m.thinkingSignature
        hasMedia := m.hasMedia
        mediaParts := m.mediaParts } := by
  obtain ⟨role, content, toolCallId, toolCalls, thinking, signature, parts⟩ := out
  obtain rfl : content = [] := hcontent
  obtain rfl : thinking = [] := hthinking
  rw [contentDoc]
  by_cases harray : (m.hasThink || m.hasMedia) = true
  · rw [if_pos harray, readContent, partDocs, List.foldl_append, List.foldl_append,
      foldl_readPart_media]
    -- the think part, then the text part
    have hthink (r : Reading) (hr : r.out.thinking = []) (hs : r.thinkingSignature = []) :
        (if m.hasThink then [thinkDoc m] else []).foldl readPart r =
          { r with
            out := { r.out with thinking := m.thinking }
            thinkingSignature := m.thinkingSignature } := by
      split
      · rw [List.foldl_cons, List.foldl_nil, readPart_thinkDoc, hr, hs, List.nil_append]
        split
        · rename_i hnil
          rw [hnil]
        · rfl
      · rename_i hnone
        obtain ⟨ht, hsig⟩ := hasThink_eq_false.mp (Bool.eq_false_iff.mpr hnone)
        rw [List.foldl_nil, ht.trans hr.symm, hsig.trans hs.symm]
    have htext (r : Reading) (hr : r.out.content = []) :
        (if m.content = [] then [] else [textDoc m.content]).foldl readPart r =
          { r with out := { r.out with content := m.content } } := by
      split
      · rename_i hnil
        rw [List.foldl_nil, hnil, ← hr]
      · rw [List.foldl_cons, List.foldl_nil, readPart_textDoc, hr, List.nil_append]
    rw [hthink _ rfl rfl, htext _ rfl]
    simp only [Bool.false_or, List.nil_append, Message.hasMedia, Message.mediaParts]
  · rw [if_neg harray]
    rw [Bool.not_eq_true, Bool.or_eq_false_iff] at harray
    obtain ⟨ht, hs⟩ := hasThink_eq_false.mp harray.1
    rw [ht, hs, harray.2, mediaParts_eq_nil harray.2]
    split
    · rename_i hnil
      rw [hnil]
      split
      · rw [text, readContent]
      · rw [readContent, List.foldl_nil]
    · rw [text, readContent]

theorem readCall_callDoc (h : c.type ≠ []) : readCall (callDoc c) = some c := by
  have hfunction : cxdbMember (callDoc c) (ascii "function") =
      some (.members ((ascii "name", text c.name) ::
        if c.arguments = [] then [] else [(ascii "arguments", text c.arguments)])) := by
    rw [callDoc]
    simp (disch := decide) only [cxdbMember_cons_ne, cxdbMember_cons_self]
  have htype : cxdbGetStr (callDoc c) (ascii "type") = c.type := by
    rw [callDoc, cxdbGetStr, cxdbMember_cons_self (by decide), text, if_neg h]
  have hid : cxdbGetStr (callDoc c) (ascii "id") = c.id := by
    rw [callDoc, cxdbGetStr, cxdbMember_cons_ne (by decide), cxdbMember_cons_self (by decide), text]
  have hname : cxdbGetStr (.members ((ascii "name", text c.name) ::
      if c.arguments = [] then [] else [(ascii "arguments", text c.arguments)]))
      (ascii "name") = c.name := by
    rw [cxdbGetStr, cxdbMember_cons_self (by decide), text]
  have harguments : cxdbGetStr (.members ((ascii "name", text c.name) ::
      if c.arguments = [] then [] else [(ascii "arguments", text c.arguments)]))
      (ascii "arguments") = c.arguments := by
    rw [cxdbGetStr, cxdbMember_cons_ne (by decide)]
    exact cxdbGetStr_unless (by decide)
  rw [callDoc] at hfunction htype hid
  rw [callDoc, readCall]
  simp only [hfunction, htype, hid, hname, harguments]

theorem readCalls_record {m : Message} (h : ∀ c ∈ m.toolCalls, c.type ≠ []) :
    readCalls (cxdbMember (cxdbWriteMessage m) (ascii "tool_calls")) = m.toolCalls := by
  rw [cxdbWriteMessage]
  by_cases hcalls : m.toolCalls = []
  · have hnone : cxdbMember (.members
        (if m.toolCallId = [] then [] else [(ascii "tool_call_id", text m.toolCallId)]))
        (ascii "tool_calls") = none := by
      split
      · exact cxdbMember_nil _
      · rw [cxdbMember_cons_ne (by decide), cxdbMember_nil]
    simp (disch := decide) only [hcalls, if_true, List.append_nil, List.cons_append,
      List.nil_append, cxdbMember_cons_ne, hnone, readCalls]
  · simp (disch := decide) only [hcalls, if_false, List.cons_append, List.nil_append,
      cxdbMember_cons_ne, cxdbMember_cons_self, readCalls]
    rw [List.filterMap_map]
    have hread : ∀ c ∈ m.toolCalls, (readCall ∘ callDoc) c = some c := fun c hc =>
      readCall_callDoc (h c hc)
    rw [List.filterMap_congr hread, List.filterMap_some]

theorem cxdbMember_content (m : Message) :
    cxdbMember (cxdbWriteMessage m) (ascii "content") = some (contentDoc m) := by
  rw [cxdbWriteMessage]
  simp (disch := decide) only [List.cons_append, cxdbMember_cons_ne, cxdbMember_cons_self]

theorem cxdbGetStr_role (m : Message) : cxdbGetStr (cxdbWriteMessage m) (ascii "role") = m.role := by
  rw [cxdbWriteMessage, cxdbGetStr]
  simp (disch := decide) only [List.cons_append, cxdbMember_cons_self, text]

theorem cxdbGetStr_toolCallId (m : Message) :
    cxdbGetStr (cxdbWriteMessage m) (ascii "tool_call_id") = m.toolCallId := by
  rw [cxdbWriteMessage, cxdbGetStr]
  by_cases hcalls : m.toolCalls = []
  · rw [if_pos hcalls]
    simp (disch := decide) only [List.append_nil, List.cons_append, List.nil_append,
      cxdbMember_cons_ne]
    exact cxdbGetStr_unless (by decide)
  · rw [if_neg hcalls]
    simp (disch := decide) only [List.cons_append, List.nil_append, cxdbMember_cons_ne]
    exact cxdbGetStr_unless (by decide)

/-! ## The round trip -/

/-- The parts the reader leaves: those of the record if it has media, else those of `out`. -/
def restoredParts (m out : Message) : List ContentPart :=
  if m.hasMedia then
    (if m.content = [] then [] else [{ kind := .text, text := m.content }]) ++ m.mediaParts
  else out.parts

theorem messageSetParts_restored {m out : Message} (hcontent : out.content = m.content) :
    messageSetParts out
        ((if m.content = [] then [] else [{ kind := .text, text := m.content }]) ++ m.mediaParts) =
      { out with
        parts := (if m.content = [] then [] else [{ kind := .text, text := m.content }]) ++
          m.mediaParts } := by
  have hmedia (k : PartKind) (hk : k.isMedia = false) :
      (m.mediaParts.filter fun p => p.kind = k) = [] := by
    rw [Message.mediaParts, List.filter_eq_nil_iff]
    intro p hp
    obtain ⟨q, hq, rfl⟩ := List.mem_map.mp hp
    rw [decide_eq_true_eq, ContentPart.bare]
    rintro rfl
    exact absurd (List.mem_filter.mp hq).2 (by simp [hk])
  rw [messageSetParts]
  simp only [List.filter_append, hmedia .text rfl, hmedia .think rfl, List.append_nil]
  by_cases hnil : m.content = []
  · simp [hnil, hcontent]
  · simp [hnil, hcontent]

theorem finishMessage_record {m : Message} (out : Message) (hcalls : ∀ c ∈ m.toolCalls, c.type ≠ []) :
    finishMessage
        { out := { (out.cleared m.role) with content := m.content, thinking := m.thinking }
          thinkingSignature := m.thinkingSignature
          hasMedia := m.hasMedia
          mediaParts := m.mediaParts } (cxdbWriteMessage m) =
      { m with parts := restoredParts m out } := by
  rw [finishMessage, readCalls_record hcalls, cxdbGetStr_toolCallId, restoredParts]
  by_cases hmedia : m.hasMedia = true
  · simp only [hmedia, if_true, messageSetParts_restored, Message.cleared, List.nil_append]
  · simp only [hmedia, Message.cleared, List.nil_append, Bool.false_eq_true, if_false]

/-- A message is read back into any message with all its fields but the parts. -/
theorem read_contextRecord {yy : Yyjson} (hyy : yy.Faithful) {m : Message}
    (hrole : m.role ∈ messageRoles) (htexts : ∀ s ∈ m.texts, ValidUtf8 s)
    (hcalls : ∀ c ∈ m.toolCalls, c.type ≠ []) (out : Message) :
    contextMessageFromRecord yy (contextRecordFromMessage yy m) out =
      some { m with parts := restoredParts m out } := by
  have hread := read_record hyy htexts
  have hne : contextRecordFromMessage yy m ≠ [] := by
    intro hnil
    rw [hnil, hyy.read_nil] at hread
    cases hread
  rw [contextMessageFromRecord, if_neg hne, hread]
  have hroot := cxdbGetStr_role m
  have hcontent := cxdbMember_content m
  have hfinish := finishMessage_record out hcalls
  rw [← readContent_contentDoc m rfl rfl, ← hcontent] at hfinish
  rw [cxdbWriteMessage] at hroot hfinish ⊢
  simp only [hroot, hrole, hfinish, if_true]

/-- Parts as the agent keeps them: an optional leading text part with the content, then media. -/
structure Parted (m : Message) (lead media : List ContentPart) : Prop where
  parts : m.parts = lead ++ media
  one : lead.length ≤ 1
  text : ∀ p ∈ lead, p.kind = .text ∧ p.text = m.content
  url : ∀ p ∈ media, p.kind.isMedia = true ∧ p.url ≠ []

/-- A text part has only its text and a media part only its url. -/
def ContentPart.Plain (p : ContentPart) : Prop :=
  p.detail = [] ∧ (p.kind = .text → p.url = []) ∧ (p.kind ≠ .text → p.text = [])

/-- With media, the leading text part is there just when the content is not empty, and no part has
a field of its own beside what the record keeps. Without media, `out` has the parts of `m`. -/
def Restorable (m out : Message) : Prop :=
  if m.hasMedia then
    (m.content ≠ [] ↔ ∃ p ∈ m.parts, p.kind = .text) ∧ ∀ p ∈ m.parts, p.Plain
  else out.parts = m.parts

theorem bare_eq_iff {p : ContentPart} (h : p.kind.isMedia = true) : p.bare = p ↔ p.Plain := by
  obtain ⟨kind, text, url, detail⟩ := p
  have hkind : kind ≠ .text := by
    rintro rfl
    exact Bool.false_ne_true h
  simp only [ContentPart.bare, ContentPart.Plain, ContentPart.mk.injEq, true_and]
  constructor
  · rintro ⟨rfl, rfl⟩
    exact ⟨rfl, fun hk => absurd hk hkind, fun _ => rfl⟩
  · rintro ⟨rfl, -, htext⟩
    exact ⟨(htext hkind).symm, rfl⟩

section Parts

variable {m : Message} {lead media : List ContentPart}

theorem Parted.mediaParts (h : Parted m lead media) :
    m.mediaParts = media.map ContentPart.bare := by
  have hlead : (lead.filter fun p => p.kind.isMedia) = [] := by
    rw [List.filter_eq_nil_iff]
    intro p hp
    rw [(h.text p hp).1]
    exact Bool.false_ne_true
  rw [Message.mediaParts, h.parts, List.filter_append, hlead, List.nil_append,
    List.filter_eq_self.mpr fun p hp => (h.url p hp).1]

theorem Parted.media_iff (h : Parted m lead media) :
    media.map ContentPart.bare = media ↔ ∀ p ∈ media, p.Plain := by
  constructor
  · intro heq p hp
    have hself := List.map_inj_left.mp (heq.trans (List.map_id media).symm) p hp
    exact (bare_eq_iff (h.url p hp).1).mp hself
  · intro hplain
    refine (List.map_congr_left ?_).trans (List.map_id media)
    intro p hp
    exact (bare_eq_iff (h.url p hp).1).mpr (hplain p hp)

theorem Parted.lead_iff (h : Parted m lead media) :
    (if m.content = [] then [] else [{ kind := .text, text := m.content }]) = lead ↔
      (m.content ≠ [] ↔ lead ≠ []) ∧ ∀ p ∈ lead, p.Plain := by
  match lead, h.one with
  | [], _ => by_cases hnil : m.content = [] <;> simp [hnil]
  | [p], _ =>
    obtain ⟨hkind, htext⟩ := h.text p (List.mem_singleton_self p)
    obtain ⟨kind, text, url, detail⟩ := p
    obtain rfl : kind = .text := hkind
    obtain rfl : text = m.content := htext
    by_cases hnil : m.content = []
    · simp [hnil]
    · simp only [hnil, if_false, List.cons.injEq, and_true, ContentPart.mk.injEq, true_and,
        ContentPart.Plain, List.forall_mem_singleton, forall_const, ne_eq, not_false_eq_true,
        reduceCtorEq, not_true_eq_false, false_imp_iff, iff_self]
      constructor
      · rintro ⟨rfl, rfl⟩
        exact ⟨rfl, rfl⟩
      · rintro ⟨rfl, rfl⟩
        exact ⟨rfl, rfl⟩

theorem Parted.text_iff (h : Parted m lead media) :
    (∃ p ∈ m.parts, p.kind = .text) ↔ lead ≠ [] := by
  rw [h.parts]
  constructor
  · rintro ⟨p, hp, hkind⟩ rfl
    have hmedia := (h.url p hp).1
    rw [hkind] at hmedia
    exact absurd hmedia (by decide)
  · intro hne
    obtain ⟨p, hp⟩ := List.exists_mem_of_ne_nil lead hne
    exact ⟨p, List.mem_append_left _ hp, (h.text p hp).1⟩

theorem Parted.restoredParts_iff (h : Parted m lead media) (out : Message) :
    restoredParts m out = m.parts ↔ Restorable m out := by
  rw [restoredParts, Restorable]
  split
  · rw [h.mediaParts, h.text_iff, h.parts, List.forall_mem_append, ← and_assoc, ← h.lead_iff,
      ← h.media_iff]
    constructor
    · intro heq
      exact List.append_inj' heq (List.length_map _)
    · rintro ⟨hlead, hmedia⟩
      rw [hlead, hmedia]
  · rfl

end Parts

/-- A message of the agent is read back from its record just when its parts can be restored. -/
theorem read_contextRecord_eq_iff {yy : Yyjson} (hyy : yy.Faithful) {m : Message}
    (hrole : m.role ∈ messageRoles) (htexts : ∀ s ∈ m.texts, ValidUtf8 s)
    (hcalls : ∀ c ∈ m.toolCalls, c.type ≠ [])
    (hparts : ∃ lead media, Parted m lead media) (out : Message) :
    contextMessageFromRecord yy (contextRecordFromMessage yy m) out = some m ↔
      Restorable m out := by
  obtain ⟨lead, media, hparts⟩ := hparts
  rw [read_contextRecord hyy hrole htexts hcalls, ← hparts.restoredParts_iff, Option.some.injEq]
  constructor
  · intro h
    exact congrArg Message.parts h
  · intro h
    rw [h]

/-- A text with a picture. -/
def pictureMessage : Message where
  role := ascii "user"
  content := ascii "see"
  parts := [{ text := ascii "see" }, { kind := .imageUrl, url := ascii "data:" }]

def textMessage : Message where
  role := ascii "user"
  content := ascii "go on"

theorem read_contextRecord_eq_iff_picture :
    contextMessageFromRecord CompactDoc.yyjson
      (contextRecordFromMessage CompactDoc.yyjson pictureMessage) textMessage =
        some pictureMessage := by
  have hparted : Parted pictureMessage [{ text := ascii "see" }]
      [{ kind := .imageUrl, url := ascii "data:" }] :=
    ⟨rfl, by decide, by decide, by decide⟩
  have htexts : ∀ s ∈ pictureMessage.texts, ValidUtf8 s := by
    intro s hs
    have hascii : ∀ s ∈ pictureMessage.texts, isAscii s = true := by decide
    exact validUtf8_of_isAscii (hascii s hs)
  refine (read_contextRecord_eq_iff CompactDoc.yyjson_faithful (by decide) htexts
    (by decide) ⟨_, _, hparted⟩ textMessage).mpr ?_
  rw [Restorable, if_pos (by decide)]
  refine ⟨⟨fun _ => ⟨_, List.mem_cons_self, rfl⟩, fun _ => by decide⟩, ?_⟩
  simp [pictureMessage, ContentPart.Plain]

/-- A message without media is read with the picture of the message before. -/
theorem not_read_text_after_picture :
    textMessage.role ∈ messageRoles ∧ (∀ s ∈ textMessage.texts, isAscii s = true) ∧
      textMessage.toolCalls = [] ∧ textMessage.parts = [] ∧
      contextMessageFromRecord CompactDoc.yyjson
        (contextRecordFromMessage CompactDoc.yyjson textMessage) pictureMessage =
          some { textMessage with parts := pictureMessage.parts } ∧
      contextMessageFromRecord CompactDoc.yyjson
        (contextRecordFromMessage CompactDoc.yyjson textMessage) pictureMessage ≠
          some textMessage := by
  have hascii : ∀ s ∈ textMessage.texts, isAscii s = true := by decide
  have hrole : textMessage.role ∈ messageRoles := by decide
  have hread := read_contextRecord CompactDoc.yyjson_faithful hrole
    (fun s hs => validUtf8_of_isAscii (hascii s hs)) (by simp [textMessage]) pictureMessage
  refine ⟨hrole, hascii, rfl, rfl, hread, ?_⟩
  rw [hread]
  decide

end KimixNative.Agent.MessageRecord
