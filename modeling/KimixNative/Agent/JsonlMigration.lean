import KimixNative.Agent.ContextDb
import KimixNative.Agent.MessageRecord
import Mathlib.Data.List.DropRight

/-!
# Migration of a context file

The records of a file are imported one by one into a fresh database. A checkpoint is anchored at
the number of the last message imported before it. At the end every anchor of zero is replaced by
the id of its checkpoint, which is no number of a message.
-/

namespace KimixNative.Agent.JsonlMigration

open Text MessageRecord

/-! ## Lines and records -/

def newline : Byte := 0x0A#8

def isBlank (b : Byte) : Bool := b == 0x20#8 || b == 0x09#8 || b == 0x0D#8

def trimLine (line : Bytes) : Bytes := (line.dropWhile isBlank).rdropWhile isBlank

/-- The lines of the file. A last piece that is empty is a blank line, which is skipped. -/
def fileLines (text : Bytes) : List Bytes := text.splitOn newline

/-- `cxdb_utf8_replace`. -/
def cxdbUtf8Replace (bytes : Bytes) : Bytes :=
  if isAscii bytes then bytes else (decodeAll bytes).flatMap fun c => encodeCp c.1

def cxdbParseStrict (yy : Yyjson) (text : Bytes) : Option JsonDoc :=
  if text = [] then none else yy.read text

/-- `cxdb_parse_lenient`; the repaired text ends with a zero byte that the view leaves out. -/
def cxdbParseLenient (yy : Yyjson) (isValidJson accepts : Bytes → Bool) (line : Bytes) :
    Option JsonDoc :=
  let cleaned := cxdbUtf8Replace line
  (cxdbParseStrict yy cleaned).or
    (let repaired := Core.repair isValidJson accepts cleaned
     if repaired = [] then none else cxdbParseStrict yy repaired.dropLast)

/-- A double without its fraction, as it is cast to an integer in range. -/
def truncReal (bits : BitVec 64) : Int :=
  let exponent := bits.toNat / 2 ^ 52 % 2 ^ 11
  let mantissa := bits.toNat % 2 ^ 52 + if exponent = 0 then 0 else 2 ^ 52
  let magnitude : Nat :=
    if 1075 ≤ exponent then mantissa * 2 ^ (exponent - 1075) else mantissa / 2 ^ (1075 - exponent)
  if bits.toNat / 2 ^ 63 = 1 then -magnitude else magnitude

/-- `cxdb_get_int`. -/
def cxdbGetInt (j : JsonDoc) (key : Bytes) (fallback : Int) : Int :=
  match cxdbMember j key with
  | some (.leaf (.uint n)) => n.toInt
  | some (.leaf (.sint n)) => n.toInt
  | some (.leaf (.real bits)) => truncReal bits
  | _ => fallback

/-- `cxdb_extract_append`. -/
def cxdbExtractAppend (out : Bytes) (value : JsonDoc) : Bytes :=
  let joined := if out = [] then out else out ++ [newline]
  match value with
  | .leaf (.str s) => joined ++ s
  | .members ms =>
    match cxdbMember (.members ms) (ascii "text") with
    | some (.leaf (.str s)) => joined ++ s
    | _ => out
  | _ => out

/-- `cxdb_extract_text`. -/
def cxdbExtractText : Option JsonDoc → Bytes
  | none => []
  | some (.items items) => items.foldl cxdbExtractAppend []
  | some content => cxdbExtractAppend [] content

/-! ## Tables -/

structure MessageRow where
  role : Bytes
  content : Bytes
  contentText : Bytes
  deriving DecidableEq, Repr

/-- A row of `checkpoints` as the import writes it, which is never null. -/
structure Anchor where
  id : Int
  messageRowid : Int
  deriving DecidableEq, Repr

structure Tables where
  systemPrompt : Option Bytes := none
  usage : RowTable Int := .empty
  checkpoints : List Anchor := []
  messages : RowTable MessageRow := .empty

/-- The tables with `_last_message_rowid` and the count of imported messages. -/
structure Import where
  tables : Tables := {}
  lastMessageRowid : Int := 0
  importedMessages : Nat := 0

/-- The statement of the migration that fails. -/
inductive MigrationFault
  | begin
  | insert (line : Nat)
  | fixRowids
  | commit
  deriving DecidableEq, Repr

def recordRole (root : JsonDoc) : Bytes := cxdbGetStr root (ascii "role")

def recordId (root : JsonDoc) : Int := cxdbGetInt root (ascii "id") 0

/-- The row of a message record. -/
def messageRow (yy : Yyjson) (root : JsonDoc) : MessageRow where
  role := recordRole root
  content := (yy.write root).getD []
  contentText := cxdbExtractText (cxdbMember root (ascii "content"))

/-- The insert of one record. A checkpoint id is a primary key. -/
def importRecord (yy : Yyjson) (s : Import) (root : JsonDoc) : Option Import :=
  let role := recordRole root
  let t := s.tables
  if role = ascii "_system_prompt" then
    some { s with
      tables := { t with systemPrompt := some (cxdbGetStr root (ascii "content")) } }
  else if role = ascii "_usage" then
    some { s with
      tables := { t with usage := t.usage.insert (cxdbGetInt root (ascii "token_count") 0) } }
  else if role = ascii "_checkpoint" then
    if t.checkpoints.any fun c => c.id = recordId root then none
    else
      some { s with
        tables := { t with
          checkpoints := t.checkpoints ++ [⟨recordId root, s.lastMessageRowid⟩] } }
  else
    let messages := t.messages.insert (messageRow yy root)
    some {
      tables := { t with messages := messages }
      lastMessageRowid := messages.seq
      importedMessages := s.importedMessages + 1 }

section Migration

variable (yy : Yyjson) (isValidJson accepts : Bytes → Bool)

/-- One line: a blank line, what is no JSON object and what has no role are skipped. -/
def importLine (fails : Bool) (s : Import) (line : Bytes) : Option Import :=
  let line := trimLine line
  if line = [] then some s
  else
    match cxdbParseLenient yy isValidJson accepts line with
    | some (.members ms) =>
      if recordRole (.members ms) = [] then some s
      else if fails then none
      else importRecord yy s (.members ms)
    | _ => some s

/-- The import loop from line `i`. -/
def importLines (fault : Option MigrationFault) : Nat → Import → List Bytes → Option Import
  | _, s, [] => some s
  | i, s, line :: lines =>
    (importLine yy isValidJson accepts (fault = some (.insert i)) s line).bind fun s =>
      importLines fault (i + 1) s lines

/-- `fix_checkpoint_message_rowids`. -/
def fixCheckpointMessageRowids (t : Tables) : Tables :=
  { t with
    checkpoints := t.checkpoints.map fun c =>
      if c.messageRowid = 0 then { c with messageRowid := c.id } else c }

/-- `migrate_jsonl` into a fresh database: the tables where it succeeds. -/
def migrateJsonl (text : Bytes) (fault : Option MigrationFault) : Option Tables :=
  if fault = some .begin then none
  else
    (importLines yy isValidJson accepts fault 0 {} (fileLines text)).bind fun s =>
      if fault = some .fixRowids ∨ fault = some .commit then none
      else
        let t := fixCheckpointMessageRowids s.tables
        if t.messages.rows.length = s.importedMessages then some t else none

end Migration

/-! ## Reverting -/

namespace Tables

def checkpointMessageRowid (t : Tables) (id : Int) : Option Int :=
  (t.checkpoints.find? fun c => c.id = id).map Anchor.messageRowid

/-- `DELETE ... WHERE rowid > ?`. -/
def deleteAbove {α : Type} (t : RowTable α) (cutoff : Int) : RowTable α where
  rows := t.rows.filter fun r => (r.1 : Int) ≤ cutoff
  seq := t.seq
  sorted := t.sorted.filter _
  bounded := fun r hr => t.bounded r (List.mem_of_mem_filter hr)

/-- The largest usage number that is at most the message number, or 0. -/
def usageCutoff (t : Tables) (messageRowid : Int) : Nat :=
  (((t.usage.rows.filter fun r => (r.1 : Int) ≤ messageRowid).map Prod.fst).max?).getD 0

/-- `revert_to_checkpoint` on migrated tables. -/
def revertToCheckpoint (t : Tables) (id : Int) (fault : Option RevertFault) : Tables × Bool :=
  match t.checkpointMessageRowid id with
  | none => (t, false)
  | some messageRowid =>
    if fault.isSome then (t, false)
    else
      ({ t with
        messages := deleteAbove t.messages messageRowid
        checkpoints := t.checkpoints.filter fun c => c.id < id
        usage := deleteAbove t.usage (t.usageCutoff messageRowid) }, true)

end Tables

/-! ## Files of records -/

def isCheckpoint (root : JsonDoc) : Bool := recordRole root = ascii "_checkpoint"

/-- A record that goes to the messages. -/
def isMessage (root : JsonDoc) : Bool :=
  recordRole root ∉ [ascii "_system_prompt", ascii "_usage", ascii "_checkpoint"]

variable {root : JsonDoc}

theorem isMessage_of_isCheckpoint (h : isCheckpoint root = true) : isMessage root = false := by
  rw [isCheckpoint, decide_eq_true_eq] at h
  simp [isMessage, h]

/-- A line holds a record: it is read, as it stands, as an object with a role. -/
structure HoldsRecord (yy : Yyjson) (line : Bytes) (root : JsonDoc) : Prop where
  valid : ValidUtf8 line
  read : yy.read line = some root
  object : ∃ ms, root = .members ms
  role : recordRole root ≠ []

/-- The records of a file, one on every line that is not blank. -/
def FileRecords (yy : Yyjson) (text : Bytes) (recs : List JsonDoc) : Prop :=
  List.Forall₂ (HoldsRecord yy)
    (((fileLines text).map trimLine).filter fun line => line ≠ []) recs

theorem FileRecords.exists_line {yy : Yyjson} {text : Bytes} {recs : List JsonDoc}
    (h : FileRecords yy text recs) (hroot : root ∈ recs) : ∃ line, HoldsRecord yy line root := by
  obtain ⟨i, hi, rfl⟩ := List.getElem_of_mem hroot
  have hline : i < (((fileLines text).map trimLine).filter fun line => line ≠ []).length := by
    rwa [List.Forall₂.length_eq h]
  exact ⟨_, List.Forall₂.get h hline hi⟩

theorem cxdbUtf8Replace_valid {s : Bytes} (h : ValidUtf8 s) : cxdbUtf8Replace s = s := by
  rw [cxdbUtf8Replace]
  split
  · rfl
  · exact encode_decodeAll h

section Loop

variable {yy : Yyjson} {isValidJson accepts : Bytes → Bool} {fault : Option MigrationFault}

theorem cxdbParseLenient_record {line : Bytes} (hne : line ≠ []) (h : HoldsRecord yy line root) :
    cxdbParseLenient yy isValidJson accepts line = some root := by
  rw [cxdbParseLenient, cxdbUtf8Replace_valid h.valid, cxdbParseStrict, if_neg hne, h.read,
    Option.some_or]

theorem importLine_of_fault {fails : Bool} {s s' : Import} {line : Bytes}
    (h : importLine yy isValidJson accepts fails s line = some s') :
    importLine yy isValidJson accepts false s line = some s' := by
  cases fails with
  | false => exact h
  | true =>
    rw [importLine] at h ⊢
    split at h
    · rename_i hblank
      rwa [if_pos hblank]
    · rename_i hblank
      rw [if_neg hblank]
      split at h
      · obtain ⟨hrole, h⟩ | ⟨-, h⟩ := ite_eq_iff.mp h
        · simp only [hrole, if_true, h]
        · cases h
      · exact h

/-- A loop in which no statement failed. -/
theorem importLines_of_fault {lines : List Bytes} {i : Nat} {s s' : Import}
    (h : importLines yy isValidJson accepts fault i s lines = some s') :
    importLines yy isValidJson accepts none i s lines = some s' := by
  induction lines generalizing i s with
  | nil => exact h
  | cons line lines ih =>
    rw [importLines] at h ⊢
    obtain ⟨s₁, hline, hrun⟩ := Option.bind_eq_some_iff.mp h
    exact Option.bind_eq_some_iff.mpr ⟨s₁, importLine_of_fault hline, ih hrun⟩

/-- The loop imports the records of its lines. -/
theorem importLines_records {lines : List Bytes} {recs : List JsonDoc}
    (h : List.Forall₂ (HoldsRecord yy) ((lines.map trimLine).filter fun line => line ≠ []) recs)
    (i : Nat) (s : Import) :
    importLines yy isValidJson accepts none i s lines = recs.foldlM (importRecord yy) s := by
  induction lines generalizing i s recs with
  | nil =>
    rw [List.map_nil, List.filter_nil, List.forall₂_nil_left_iff] at h
    rw [h]
    rfl
  | cons line lines ih =>
    rw [importLines]
    rw [List.map_cons] at h
    by_cases hblank : trimLine line = []
    · rw [List.filter_cons_of_neg (by simp [hblank])] at h
      rw [importLine, if_pos hblank, Option.bind_some, ih h]
    · rw [List.filter_cons_of_pos (by simp [hblank])] at h
      obtain ⟨root, recs, hroot, hrecs, rfl⟩ := List.forall₂_cons_left_iff.mp h
      obtain ⟨ms, rfl⟩ := hroot.object
      rw [importLine, if_neg hblank, cxdbParseLenient_record hblank hroot, List.foldlM_cons]
      simp only [hroot.role, if_false, reduceCtorEq, decide_false, Bool.false_eq_true]
      exact congrArg _ (funext fun s₁ => ih hrecs (i + 1) s₁)

end Loop

/-! ### What the loop leaves -/

/-- The anchors of the checkpoints among records that follow `k` messages. -/
def anchors (k : Nat) : List JsonDoc → List Anchor
  | [] => []
  | root :: recs =>
    if isMessage root then anchors (k + 1) recs
    else if isCheckpoint root then ⟨recordId root, k⟩ :: anchors k recs
    else anchors k recs

/-- The import after `recs`, from an empty database. -/
structure Imported (yy : Yyjson) (recs : List JsonDoc) (s : Import) : Prop where
  messages : s.tables.messages =
    ((recs.filter isMessage).map (messageRow yy)).foldl RowTable.insert .empty
  last : s.lastMessageRowid = (recs.filter isMessage).length
  imported : s.importedMessages = (recs.filter isMessage).length
  checkpoints : s.tables.checkpoints = anchors 0 recs
  ids : (s.tables.checkpoints.map Anchor.id).Nodup

theorem anchors_append (k : Nat) (recs more : List JsonDoc) :
    anchors k (recs ++ more) = anchors k recs ++ anchors (k + (recs.filter isMessage).length) more := by
  induction recs generalizing k with
  | nil => rfl
  | cons root recs ih =>
    rw [List.cons_append, anchors, anchors]
    by_cases hmessage : isMessage root = true
    · rw [if_pos hmessage, if_pos hmessage, ih, List.filter_cons_of_pos hmessage,
        List.length_cons]
      congr 2
      omega
    · rw [if_neg hmessage, if_neg hmessage, List.filter_cons_of_neg hmessage]
      split
      · rw [ih, List.cons_append]
      · exact ih k

theorem seq_foldl_insert {α : Type} (l : List α) (t : RowTable α) :
    (l.foldl RowTable.insert t).seq = t.seq + l.length := by
  induction l generalizing t with
  | nil => rfl
  | cons a l ih =>
    rw [List.foldl_cons, ih, List.length_cons]
    change t.seq + 1 + l.length = _
    omega

/-- What the import of a record does to messages and checkpoints. -/
inductive Imports (yy : Yyjson) (s s' : Import) (root : JsonDoc) : Prop
  | message (h : isMessage root = true)
      (messages : s'.tables.messages = s.tables.messages.insert (messageRow yy root))
      (checkpoints : s'.tables.checkpoints = s.tables.checkpoints)
      (last : s'.lastMessageRowid = s'.tables.messages.seq)
      (imported : s'.importedMessages = s.importedMessages + 1)
  | checkpoint (h : isMessage root = false) (hcheckpoint : isCheckpoint root = true)
      (fresh : ∀ c ∈ s.tables.checkpoints, c.id ≠ recordId root)
      (messages : s'.tables.messages = s.tables.messages)
      (checkpoints : s'.tables.checkpoints =
        s.tables.checkpoints ++ [⟨recordId root, s.lastMessageRowid⟩])
      (last : s'.lastMessageRowid = s.lastMessageRowid)
      (imported : s'.importedMessages = s.importedMessages)
  | other (h : isMessage root = false) (hcheckpoint : isCheckpoint root = false)
      (messages : s'.tables.messages = s.tables.messages)
      (checkpoints : s'.tables.checkpoints = s.tables.checkpoints)
      (last : s'.lastMessageRowid = s.lastMessageRowid)
      (imported : s'.importedMessages = s.importedMessages)

theorem importRecord_imports {yy : Yyjson} {s s' : Import} (h : importRecord yy s root = some s') :
    Imports yy s s' root := by
  simp only [importRecord] at h
  by_cases hprompt : recordRole root = ascii "_system_prompt"
  · rw [if_pos hprompt] at h
    obtain rfl := Option.some.inj h
    refine .other ?_ ?_ rfl rfl rfl rfl
    · simp [isMessage, hprompt]
    · rw [isCheckpoint, hprompt]
      decide
  · by_cases husage : recordRole root = ascii "_usage"
    · rw [if_neg hprompt, if_pos husage] at h
      obtain rfl := Option.some.inj h
      refine .other ?_ ?_ rfl rfl rfl rfl
      · simp [isMessage, husage]
      · rw [isCheckpoint, husage]
        decide
    · by_cases hcheckpoint : recordRole root = ascii "_checkpoint"
      · rw [if_neg hprompt, if_neg husage, if_pos hcheckpoint] at h
        obtain ⟨hfresh, h⟩ := Option.ite_none_left_eq_some.mp h
        obtain rfl := Option.some.inj h
        refine .checkpoint ?_ ?_ ?_ rfl rfl rfl rfl
        · simp [isMessage, hcheckpoint]
        · rw [isCheckpoint, hcheckpoint, decide_eq_true_eq]
        · intro c hc heq
          exact hfresh (List.any_eq_true.mpr ⟨c, hc, decide_eq_true heq⟩)
      · rw [if_neg hprompt, if_neg husage, if_neg hcheckpoint] at h
        obtain rfl := Option.some.inj h
        exact .message (by simp [isMessage, hprompt, husage, hcheckpoint]) rfl rfl rfl rfl

/-- One more record. -/
theorem Imported.snoc {yy : Yyjson} {recs : List JsonDoc} {s s' : Import} {root : JsonDoc}
    (h : Imported yy recs s) (hrun : importRecord yy s root = some s') :
    Imported yy (recs ++ [root]) s' := by
  have hanchors : anchors 0 (recs ++ [root]) =
      anchors 0 recs ++ anchors (recs.filter isMessage).length [root] := by
    rw [anchors_append, Nat.zero_add]
  have hskip (hmessage : isMessage root = false) :
      (recs ++ [root]).filter isMessage = recs.filter isMessage := by
    rw [List.filter_append, List.filter_cons_of_neg (by simp [hmessage]), List.filter_nil,
      List.append_nil]
  cases importRecord_imports hrun with
  | message hmessage hmessages hcheckpoints hlast himported =>
    have hfilter : (recs ++ [root]).filter isMessage = recs.filter isMessage ++ [root] := by
      rw [List.filter_append, List.filter_cons_of_pos hmessage, List.filter_nil]
    refine ⟨?_, ?_, ?_, ?_, ?_⟩
    · rw [hmessages, h.messages, hfilter, List.map_append, List.foldl_append, List.map_singleton,
        List.foldl_cons, List.foldl_nil]
    · rw [hlast, hmessages, h.messages, hfilter, List.length_append]
      change ((RowTable.seq _ + 1 : Nat) : Int) = _
      rw [seq_foldl_insert, List.length_map]
      simp [RowTable.empty]
    · rw [himported, h.imported, hfilter, List.length_append, List.length_singleton]
    · rw [hcheckpoints, h.checkpoints, hanchors, anchors, if_pos hmessage, anchors,
        List.append_nil]
    · rw [hcheckpoints]
      exact h.ids
  | checkpoint hmessage hcheckpoint hfresh hmessages hcheckpoints hlast himported =>
    have hfilter := hskip hmessage
    refine ⟨?_, ?_, ?_, ?_, ?_⟩
    · rw [hmessages, h.messages, hfilter]
    · rw [hlast, h.last, hfilter]
    · rw [himported, h.imported, hfilter]
    · rw [hcheckpoints, h.checkpoints, hanchors, anchors, hmessage, hcheckpoint, h.last]
      rfl
    · rw [hcheckpoints, List.map_append, List.nodup_append]
      refine ⟨h.ids, List.nodup_singleton _, ?_⟩
      intro id hid id' hid'
      obtain ⟨c, hc, rfl⟩ := List.mem_map.mp hid
      rw [List.mem_singleton.mp hid']
      exact hfresh c hc
  | other hmessage hcheckpoint hmessages hcheckpoints hlast himported =>
    have hfilter := hskip hmessage
    refine ⟨?_, ?_, ?_, ?_, ?_⟩
    · rw [hmessages, h.messages, hfilter]
    · rw [hlast, h.last, hfilter]
    · rw [himported, h.imported, hfilter]
    · rw [hcheckpoints, h.checkpoints, hanchors, anchors, hmessage, hcheckpoint]
      simp [anchors]
    · rw [hcheckpoints]
      exact h.ids

/-- A run over records. -/
theorem Imported.run {yy : Yyjson} {before recs : List JsonDoc} {s s' : Import}
    (h : Imported yy before s) (hrun : recs.foldlM (importRecord yy) s = some s') :
    Imported yy (before ++ recs) s' := by
  induction recs generalizing before s with
  | nil =>
    obtain rfl := Option.some.inj hrun
    rwa [List.append_nil]
  | cons root recs ih =>
    rw [List.foldlM_cons] at hrun
    obtain ⟨s₁, hstep, hrun⟩ := Option.bind_eq_some_iff.mp hrun
    rw [List.append_cons]
    exact ih (h.snoc hstep) hrun

theorem imported_nil (yy : Yyjson) : Imported yy [] {} := ⟨rfl, rfl, rfl, rfl, List.nodup_nil⟩

theorem map_id_anchors (k : Nat) (recs : List JsonDoc) :
    (anchors k recs).map Anchor.id = (recs.filter isCheckpoint).map recordId := by
  induction recs generalizing k with
  | nil => rfl
  | cons root recs ih =>
    rw [anchors]
    by_cases hcheckpoint : isCheckpoint root = true
    · rw [if_neg (by simp [isMessage_of_isCheckpoint hcheckpoint]), if_pos hcheckpoint,
        List.filter_cons_of_pos hcheckpoint, List.map_cons, List.map_cons, ih]
    · rw [List.filter_cons_of_neg hcheckpoint, if_neg hcheckpoint]
      split
      · exact ih (k + 1)
      · exact ih k

theorem importRecord_isSome (yy : Yyjson) {s : Import}
    (h : isCheckpoint root = true → ∀ c ∈ s.tables.checkpoints, c.id ≠ recordId root) :
    ∃ s', importRecord yy s root = some s' := by
  simp only [importRecord]
  split
  · exact ⟨_, rfl⟩
  · split
    · exact ⟨_, rfl⟩
    · split
      · rename_i hcheckpoint
        have hnone : ¬(s.tables.checkpoints.any fun c => c.id = recordId root) = true := by
          intro hany
          obtain ⟨c, hc, heq⟩ := List.any_eq_true.mp hany
          exact h (decide_eq_true hcheckpoint) c hc (of_decide_eq_true heq)
        rw [if_neg hnone]
        exact ⟨_, rfl⟩
      · exact ⟨_, rfl⟩

/-- Records with distinct checkpoint ids are imported. -/
theorem Imported.run_isSome {yy : Yyjson} {before recs : List JsonDoc} {s : Import}
    (h : Imported yy before s)
    (hids : (((before ++ recs).filter isCheckpoint).map recordId).Nodup) :
    ∃ s', recs.foldlM (importRecord yy) s = some s' := by
  induction recs generalizing before s with
  | nil => exact ⟨s, rfl⟩
  | cons root recs ih =>
    have hfresh : isCheckpoint root = true → ∀ c ∈ s.tables.checkpoints, c.id ≠ recordId root := by
      intro hcheckpoint c hc
      rw [List.filter_append, List.filter_cons_of_pos hcheckpoint, List.map_append,
        List.nodup_append] at hids
      refine hids.2.2 c.id ?_ (recordId root) (by simp)
      rw [← map_id_anchors 0, ← h.checkpoints]
      exact List.mem_map_of_mem hc
    obtain ⟨s₁, hstep⟩ := importRecord_isSome yy hfresh
    rw [List.append_cons] at hids
    obtain ⟨s', hrun⟩ := ih (h.snoc hstep) hids
    exact ⟨s', by rw [List.foldlM_cons, hstep]; exact hrun⟩

/-- The messages in file order, numbered from 1. -/
theorem rows_foldl_insert {α : Type} (l : List α) :
    (l.foldl RowTable.insert .empty).rows = (l.zipIdx 1).map Prod.swap := by
  induction l using List.reverseRecOn with
  | nil => rfl
  | append_singleton l a ih =>
    rw [List.foldl_append, List.foldl_cons, List.foldl_nil]
    change (l.foldl RowTable.insert .empty).rows ++
      [((l.foldl RowTable.insert .empty).seq + 1, a)] = _
    rw [ih, seq_foldl_insert, List.zipIdx_append, List.map_append]
    simp [RowTable.empty, Nat.add_comm]

/-- The rows up to a number are a beginning of the list. -/
theorem filter_zipIdx {α : Type} (l : List α) {i : Nat} (hi : 1 ≤ i) (cutoff : Int) :
    (((l.zipIdx i).map Prod.swap).filter fun r => (r.1 : Int) ≤ cutoff).map Prod.snd =
      l.take (cutoff.toNat + 1 - i) := by
  induction l generalizing i with
  | nil => simp
  | cons a l ih =>
    rw [List.zipIdx_cons, List.map_cons, Prod.swap_prod_mk]
    by_cases hle : (i : Int) ≤ cutoff
    · obtain ⟨k, hk⟩ : ∃ k, cutoff.toNat + 1 - i = k + 1 := ⟨cutoff.toNat - i, by omega⟩
      rw [List.filter_cons_of_pos (by simpa using hle), List.map_cons, ih (by omega), hk,
        List.take_succ_cons]
      congr 2
      omega
    · have hzero : cutoff.toNat + 1 - i = 0 := by omega
      rw [List.filter_cons_of_neg (by simpa using hle), ih (by omega), hzero, List.take_zero]
      have hzero' : cutoff.toNat + 1 - (i + 1) = 0 := by omega
      rw [hzero', List.take_zero]

/-! ## Where a revert leads -/

/-- An anchor after the final update. -/
def Anchor.fixed (c : Anchor) : Anchor :=
  if c.messageRowid = 0 then { c with messageRowid := c.id } else c

@[simp] theorem Anchor.fixed_id (c : Anchor) : c.fixed.id = c.id := by
  rw [Anchor.fixed]
  split <;> rfl

section Revert

variable {yy : Yyjson} {recs before after : List JsonDoc} {c : JsonDoc} {s : Import}

/-- The anchor that a checkpoint has in the end. -/
theorem checkpointMessageRowid_fixed (h : Imported yy recs s) (hrecs : recs = before ++ c :: after)
    (hc : isCheckpoint c = true) :
    (fixCheckpointMessageRowids s.tables).checkpointMessageRowid (recordId c) =
      some (Anchor.fixed ⟨recordId c, (before.filter isMessage).length⟩).messageRowid := by
  have hanchors : s.tables.checkpoints = anchors 0 before ++
      ⟨recordId c, (before.filter isMessage).length⟩ ::
        anchors (before.filter isMessage).length after := by
    rw [h.checkpoints, hrecs, anchors_append, Nat.zero_add, anchors,
      if_neg (by simp [isMessage_of_isCheckpoint hc]), if_pos hc]
  have hids := h.ids
  rw [hanchors, List.map_append, List.nodup_append] at hids
  have hnone : ((anchors 0 before).map Anchor.fixed).find? (fun a => a.id = recordId c) = none := by
    rw [List.find?_eq_none]
    intro a ha
    obtain ⟨b, hb, rfl⟩ := List.mem_map.mp ha
    rw [Anchor.fixed_id, decide_eq_true_eq]
    exact hids.2.2 b.id (List.mem_map_of_mem hb) (recordId c) (by simp)
  rw [Tables.checkpointMessageRowid, fixCheckpointMessageRowids]
  change (((s.tables.checkpoints.map Anchor.fixed).find? _).map _) = _
  rw [hanchors, List.map_append, List.find?_append, hnone, Option.none_or, List.map_cons,
    List.find?_cons_of_pos (by simp)]
  rfl

/-- A revert to a checkpoint keeps as many messages as its anchor says. -/
theorem revertToCheckpoint_messages (h : Imported yy recs s) (hrecs : recs = before ++ c :: after)
    (hc : isCheckpoint c = true) :
    ((fixCheckpointMessageRowids s.tables).revertToCheckpoint (recordId c) none).2 = true ∧
      ((fixCheckpointMessageRowids s.tables).revertToCheckpoint (recordId c)
          none).1.messages.rows.map Prod.snd =
        ((recs.filter isMessage).map (messageRow yy)).take
          (Anchor.fixed ⟨recordId c, (before.filter isMessage).length⟩).messageRowid.toNat := by
  rw [Tables.revertToCheckpoint, checkpointMessageRowid_fixed h hrecs hc]
  refine ⟨rfl, ?_⟩
  change ((s.tables.messages.rows.filter fun r => (r.1 : Int) ≤ _).map Prod.snd) = _
  rw [h.messages, rows_foldl_insert, filter_zipIdx _ (by omega), Nat.add_sub_cancel]

/-- The messages before a checkpoint are what its revert keeps, unless the anchor was zero. -/
theorem take_anchor_eq_iff (hrecs : recs = before ++ c :: after) :
    ((recs.filter isMessage).map (messageRow yy)).take
        (Anchor.fixed ⟨recordId c, (before.filter isMessage).length⟩).messageRowid.toNat =
      (before.filter isMessage).map (messageRow yy) ↔
    (before.filter isMessage = [] → recordId c ≤ 0 ∨ recs.filter isMessage = []) := by
  rw [Anchor.fixed]
  by_cases hbefore : before.filter isMessage = []
  · rw [hbefore, List.length_nil, if_pos (by rfl), List.map_nil, List.take_eq_nil_iff,
      List.map_eq_nil_iff]
    simp only [forall_const]
    exact or_congr Int.toNat_eq_zero Iff.rfl
  · have hpos : 0 < (before.filter isMessage).length := List.length_pos_iff.mpr hbefore
    rw [if_neg (by simp only [Nat.cast_eq_zero]; omega)]
    have htake : (recs.filter isMessage).take (before.filter isMessage).length =
        before.filter isMessage := by
      rw [hrecs, List.filter_append, List.take_left']
      rfl
    simp only [Int.toNat_natCast, ← List.map_take, htake, hbefore, false_imp_iff]

end Revert

/-- What a migration is for: the messages are those of the file in their order, each with the
value of its record, and a revert to a checkpoint leads to where it stood in the file. -/
structure KeepsCheckpoints (yy : Yyjson) (recs : List JsonDoc) (t : Tables) : Prop where
  messages : t.messages.rows.map Prod.snd = (recs.filter isMessage).map (messageRow yy)
  contents : ∀ root ∈ recs, isMessage root = true → ∃ k,
    yy.read (messageRow yy root).content = some k ∧ JsonDoc.value k = JsonDoc.value root
  reverts : ∀ before c after, recs = before ++ c :: after → isCheckpoint c = true →
    (t.revertToCheckpoint (recordId c) none).2 = true ∧
      (t.revertToCheckpoint (recordId c) none).1.messages.rows.map Prod.snd =
        (before.filter isMessage).map (messageRow yy)

/-- No checkpoint with a positive id stands before the first message. -/
def NoEarlyCheckpoint (recs : List JsonDoc) : Prop :=
  ∀ before c after, recs = before ++ c :: after → isCheckpoint c = true →
    before.filter isMessage = [] → recordId c ≤ 0 ∨ recs.filter isMessage = []

theorem migrateJsonl_imported {yy : Yyjson} {isValidJson accepts : Bytes → Bool} {text : Bytes}
    {recs : List JsonDoc} (hfile : FileRecords yy text recs) {fault : Option MigrationFault}
    {t : Tables} (h : migrateJsonl yy isValidJson accepts text fault = some t) :
    ∃ s, Imported yy recs s ∧ t = fixCheckpointMessageRowids s.tables := by
  rw [migrateJsonl] at h
  obtain ⟨-, h⟩ := Option.ite_none_left_eq_some.mp h
  obtain ⟨s, hrun, h⟩ := Option.bind_eq_some_iff.mp h
  obtain ⟨-, h⟩ := Option.ite_none_left_eq_some.mp h
  obtain ⟨-, h⟩ := Option.ite_none_right_eq_some.mp h
  refine ⟨s, ?_, (Option.some.inj h).symm⟩
  have hrecords := (importLines_records hfile 0 {}).symm.trans (importLines_of_fault hrun)
  have himported := (imported_nil yy).run hrecords
  rwa [List.nil_append] at himported

/-- A migration that succeeds keeps the checkpoints where they were just when no checkpoint with a
positive id stands before the first message. -/
theorem migrateJsonl_keepsCheckpoints_iff {yy : Yyjson} (hyy : yy.Faithful)
    {isValidJson accepts : Bytes → Bool} {text : Bytes} {recs : List JsonDoc}
    (hfile : FileRecords yy text recs) {fault : Option MigrationFault} {t : Tables}
    (h : migrateJsonl yy isValidJson accepts text fault = some t) :
    KeepsCheckpoints yy recs t ↔ NoEarlyCheckpoint recs := by
  obtain ⟨s, himported, rfl⟩ := migrateJsonl_imported hfile h
  constructor
  · intro hkeeps before c after hrecs hc
    have hrevert := (hkeeps.reverts before c after hrecs hc).2
    rw [(revertToCheckpoint_messages himported hrecs hc).2] at hrevert
    exact (take_anchor_eq_iff hrecs).mp hrevert
  · intro hearly
    refine ⟨?_, ?_, ?_⟩
    · change s.tables.messages.rows.map Prod.snd = _
      rw [himported.messages, rows_foldl_insert, List.map_map]
      exact List.zipIdx_map_fst 1 _
    · intro root hroot _
      obtain ⟨line, hline⟩ := hfile.exists_line hroot
      obtain ⟨t, k, hwrite, hread, hvalue⟩ := hyy.read_write root (hyy.writable line root hline.read)
      refine ⟨k, ?_, hvalue⟩
      rw [messageRow, hwrite]
      exact hread
    · intro before c after hrecs hc
      obtain ⟨hok, hmessages⟩ := revertToCheckpoint_messages himported hrecs hc
      exact ⟨hok, hmessages.trans ((take_anchor_eq_iff hrecs).mpr (hearly before c after hrecs hc))⟩

/-- A file of records with distinct checkpoint ids is migrated where no statement fails. -/
theorem migrateJsonl_isSome {yy : Yyjson} {isValidJson accepts : Bytes → Bool} {text : Bytes}
    {recs : List JsonDoc} (hfile : FileRecords yy text recs)
    (hids : ((recs.filter isCheckpoint).map recordId).Nodup) :
    ∃ t, migrateJsonl yy isValidJson accepts text none = some t := by
  have hall : ((([] ++ recs).filter isCheckpoint).map recordId).Nodup := hids
  obtain ⟨s, hrun⟩ := (imported_nil yy).run_isSome hall
  have himported := (imported_nil yy).run hrun
  have hlines : importLines yy isValidJson accepts none 0 {} _ = _ := importLines_records hfile 0 {}
  rw [← hlines] at hrun
  have hcount : (fixCheckpointMessageRowids s.tables).messages.rows.length = s.importedMessages := by
    change s.tables.messages.rows.length = _
    rw [himported.messages, himported.imported, rows_foldl_insert, List.length_map,
      List.length_zipIdx, List.length_map, List.nil_append]
  refine ⟨fixCheckpointMessageRowids s.tables, ?_⟩
  rw [migrateJsonl, if_neg (by simp), hrun, Option.bind_some, if_neg (by simp), if_pos hcount]

/-! ### Two files -/

def userRecord : JsonDoc :=
  .members [(ascii "role", text (ascii "user")), (ascii "content", text (ascii "a"))]

def checkpointRecord : JsonDoc :=
  .members [(ascii "role", text (ascii "_checkpoint")), (ascii "id", .leaf (.uint 1))]

def userLine : Bytes := ascii "\x7b\"role\":\"user\",\"content\":\"a\"\x7d"

def checkpointLine : Bytes := ascii "\x7b\"role\":\"_checkpoint\",\"id\":1\x7d"

theorem holdsRecord_user : HoldsRecord CompactDoc.yyjson userLine userRecord := by
  have hwrite : CompactDoc.writeDoc userRecord = userLine := by decide
  have hascii : isAscii userLine = true := by decide
  have htexts : Texts userRecord :=
    texts_members (List.forall_mem_cons.mpr
      ⟨texts_member (by decide) (texts_text (validUtf8_of_isAscii (by decide))),
        List.forall_mem_singleton.mpr
          (texts_member (by decide) (texts_text (validUtf8_of_isAscii (by decide))))⟩)
  have hwritable : JsonDoc.Writable userRecord := by
    refine htexts.imp (fun _ hk => hk) ?_
    rintro a ⟨s, rfl, hs⟩
    exact hs
  refine ⟨validUtf8_of_isAscii hascii, ?_, ⟨_, rfl⟩, by decide⟩
  rw [← hwrite, CompactDoc.read_writeDoc hwritable]
  simp [userRecord, CompactDoc.storedDoc, CompactDoc.stored, text]

theorem holdsRecord_checkpoint :
    HoldsRecord CompactDoc.yyjson checkpointLine checkpointRecord := by
  have hwrite : CompactDoc.writeDoc checkpointRecord = checkpointLine := by decide
  have hascii : isAscii checkpointLine = true := by decide
  have hwritable : JsonDoc.Writable checkpointRecord := by
    refine .members ?_ ?_
    · simp only [List.forall_mem_cons, List.not_mem_nil, false_imp_iff, implies_true, and_true]
      exact ⟨validUtf8_of_isAscii (by decide), validUtf8_of_isAscii (by decide)⟩
    · simp only [List.forall_mem_cons, List.not_mem_nil, false_imp_iff, implies_true, and_true]
      exact ⟨.leaf (validUtf8_of_isAscii (by decide)), .leaf trivial⟩
  refine ⟨validUtf8_of_isAscii hascii, ?_, ⟨_, rfl⟩, by decide⟩
  rw [← hwrite, CompactDoc.read_writeDoc hwritable]
  simp [checkpointRecord, CompactDoc.storedDoc, CompactDoc.stored, text]

/-- A checkpoint between two messages. -/
theorem migrateJsonl_keepsCheckpoints_between :
    ∃ t, migrateJsonl CompactDoc.yyjson (fun _ => false) (fun _ => false)
        (userLine ++ [newline] ++ checkpointLine ++ [newline] ++ userLine) none = some t ∧
      KeepsCheckpoints CompactDoc.yyjson [userRecord, checkpointRecord, userRecord] t := by
  have hlines : ((fileLines
      (userLine ++ [newline] ++ checkpointLine ++ [newline] ++ userLine)).map trimLine).filter
        (fun line => line ≠ []) = [userLine, checkpointLine, userLine] := by decide
  have hfile : FileRecords CompactDoc.yyjson
      (userLine ++ [newline] ++ checkpointLine ++ [newline] ++ userLine)
      [userRecord, checkpointRecord, userRecord] := by
    rw [FileRecords, hlines]
    exact .cons holdsRecord_user (.cons holdsRecord_checkpoint (.cons holdsRecord_user .nil))
  have hmessage : isMessage userRecord = true := by decide
  have hcheckpoint : isCheckpoint userRecord = false := by decide
  have hids : (([userRecord, checkpointRecord, userRecord].filter isCheckpoint).map
      recordId).Nodup := by decide
  obtain ⟨t, ht⟩ : ∃ t, migrateJsonl CompactDoc.yyjson (fun _ => false) (fun _ => false) _ none =
      some t := migrateJsonl_isSome hfile hids
  refine ⟨t, ht, (migrateJsonl_keepsCheckpoints_iff CompactDoc.yyjson_faithful hfile ht).mpr ?_⟩
  intro before c after hrecs hc hbefore
  cases before with
  | nil =>
    obtain ⟨rfl, -⟩ := List.cons.inj hrecs
    rw [hcheckpoint] at hc
    cases hc
  | cons root before =>
    obtain ⟨rfl, -⟩ := List.cons.inj hrecs
    rw [List.filter_cons_of_pos hmessage] at hbefore
    cases hbefore

/-- A checkpoint before the message: the revert to it keeps the message. -/
theorem not_keepsCheckpoints_early :
    FileRecords CompactDoc.yyjson (checkpointLine ++ [newline] ++ userLine)
        [checkpointRecord, userRecord] ∧
      ∃ t, migrateJsonl CompactDoc.yyjson (fun _ => false) (fun _ => false)
          (checkpointLine ++ [newline] ++ userLine) none = some t ∧
        ¬KeepsCheckpoints CompactDoc.yyjson [checkpointRecord, userRecord] t := by
  have hlines : ((fileLines (checkpointLine ++ [newline] ++ userLine)).map trimLine).filter
      (fun line => line ≠ []) = [checkpointLine, userLine] := by decide
  have hfile : FileRecords CompactDoc.yyjson (checkpointLine ++ [newline] ++ userLine)
      [checkpointRecord, userRecord] := by
    rw [FileRecords, hlines]
    exact .cons holdsRecord_checkpoint (.cons holdsRecord_user .nil)
  have hids : (([checkpointRecord, userRecord].filter isCheckpoint).map recordId).Nodup := by
    decide
  have hcheckpoint : isCheckpoint checkpointRecord = true := by decide
  obtain ⟨t, ht⟩ : ∃ t, migrateJsonl CompactDoc.yyjson (fun _ => false) (fun _ => false) _ none =
      some t := migrateJsonl_isSome hfile hids
  refine ⟨hfile, t, ht, ?_⟩
  intro hkeeps
  obtain ⟨s, himported, rfl⟩ := migrateJsonl_imported hfile ht
  have hrevert := (hkeeps.reverts [] _ _ rfl hcheckpoint).2
  have hrecs : [checkpointRecord, userRecord] = [] ++ checkpointRecord :: [userRecord] := rfl
  rw [(revertToCheckpoint_messages himported hrecs hcheckpoint).2] at hrevert
  have hid : ¬recordId checkpointRecord ≤ 0 := by decide
  have hmessages : ([checkpointRecord, userRecord].filter isMessage).length = 1 := by
    decide
  obtain hle | hnil := (take_anchor_eq_iff hrecs).mp hrevert rfl
  · exact hid hle
  · have hzero := hmessages.symm.trans (congrArg List.length hnil)
    cases hzero

end KimixNative.Agent.JsonlMigration
