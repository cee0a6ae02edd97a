import KimixNative.Lib.RowTable
import KimixNative.Lib.Run
import KimixNative.Lib.LittleEndian

/-!
# The context database

The session's messages, usage snapshots and checkpoints, as three tables. Messages and usage
snapshots are numbered by sequences of their own that never go back (`AUTOINCREMENT`). A
checkpoint stores the largest message number at its creation, and `revert_to_checkpoint`
deletes what is above that number from both tables.

A statement of the store may fail; the operations say what is left then.
-/

namespace KimixNative.Agent

/-- A message, as its role and its record. -/
structure ContextRecord where
  role : Bytes
  content : Bytes
  deriving DecidableEq, Repr

/-- A row of `checkpoints`; `message_rowid` is null when there was no message. -/
structure Checkpoint where
  id : Int
  messageRowid : Option Nat
  deriving DecidableEq, Repr

@[ext] structure ContextDb where
  messages : RowTable ContextRecord := .empty
  usage : RowTable Int := .empty
  checkpoints : List Checkpoint := []

/-- The statement of `revert_to_checkpoint` that fails. -/
inductive RevertFault
  | begin
  | deleteMessages
  | deleteCheckpoints
  | deleteUsage
  deriving DecidableEq, Repr

inductive Op
  | appendBatch (recs : List ContextRecord) (failsAt : Option Nat)
  | recordUsage (tokenCount : Int) (fails : Bool)
  | createCheckpoint (id : Int) (fails : Bool)
  | revertToCheckpoint (id : Int) (fault : Option RevertFault)
  deriving DecidableEq, Repr

namespace ContextDb

/-- `append_batch`: a record at a time, each committed, up to the first insert that fails. -/
def appendBatch (db : ContextDb) (recs : List ContextRecord) (failsAt : Option Nat) :
    ContextDb × Bool :=
  let stored := recs.take (failsAt.getD recs.length)
  ({ db with messages := stored.foldl RowTable.insert db.messages },
    decide (stored.length = recs.length))

/-- `record_usage`. -/
def recordUsage (db : ContextDb) (tokenCount : Int) (fails : Bool) : ContextDb × Bool :=
  if fails then (db, false) else ({ db with usage := db.usage.insert tokenCount }, true)

/-- `latest_usage`. -/
def latestUsage (db : ContextDb) : Option Int := db.usage.rows.getLast?.map Prod.snd

/-- `checkpoint_message_rowid`: null is read as 0. -/
def checkpointMessageRowid (db : ContextDb) (id : Int) : Option Nat :=
  (db.checkpoints.find? fun c => c.id = id).map fun c => c.messageRowid.getD 0

/-- `create_checkpoint`; the insert is refused when the id is taken. -/
def createCheckpoint (db : ContextDb) (id : Int) (fails : Bool) : ContextDb × Bool :=
  if fails ∨ (db.checkpointMessageRowid id).isSome then (db, false)
  else ({ db with checkpoints := db.checkpoints ++ [⟨id, db.messages.maxRow⟩] }, true)

/-- `DELETE FROM messages WHERE rowid > ?`. -/
def deleteMessages (db : ContextDb) (messageRowid : Nat) : ContextDb :=
  { db with messages := db.messages.deleteAbove messageRowid }

/-- `DELETE FROM checkpoints WHERE id >= ?`. -/
def deleteCheckpoints (db : ContextDb) (id : Int) : ContextDb :=
  { db with checkpoints := db.checkpoints.filter fun c => c.id < id }

/-- The cutoff of the third delete: the largest usage number that is at most the message
number, or 0. -/
def usageCutoff (db : ContextDb) (messageRowid : Nat) : Nat :=
  (((db.usage.upTo messageRowid).map Prod.fst).max?).getD 0

/-- `DELETE FROM usage_snapshots WHERE rowid > COALESCE(...)`. -/
def deleteUsage (db : ContextDb) (messageRowid : Nat) : ContextDb :=
  { db with usage := db.usage.deleteAbove (db.usageCutoff messageRowid) }

/-- `revert_to_checkpoint`: a delete that fails rolls the transaction back. -/
def revertToCheckpoint (db : ContextDb) (id : Int) (fault : Option RevertFault) :
    ContextDb × Bool :=
  match db.checkpointMessageRowid id with
  | none => (db, false)
  | some messageRowid =>
    if fault = some .begin then (db, false)
    else if fault = some .deleteMessages then (db, false)
    else if fault = some .deleteCheckpoints then (db, false)
    else if fault = some .deleteUsage then (db, false)
    else (((db.deleteMessages messageRowid).deleteCheckpoints id).deleteUsage messageRowid, true)

def apply (db : ContextDb) : Op → ContextDb × Bool
  | .appendBatch recs failsAt => db.appendBatch recs failsAt
  | .recordUsage tokenCount fails => db.recordUsage tokenCount fails
  | .createCheckpoint id fails => db.createCheckpoint id fails
  | .revertToCheckpoint id fault => db.revertToCheckpoint id fault

def step (db : ContextDb) (op : Op) : ContextDb := (db.apply op).1

/-- The third delete keeps the snapshots numbered up to the message number. -/
theorem rows_deleteUsage (db : ContextDb) (messageRowid : Nat) :
    (db.deleteUsage messageRowid).usage.rows = db.usage.upTo messageRowid := by
  rw [deleteUsage, RowTable.rows_deleteAbove]
  refine RowTable.upTo_congr ?_
  intro r hr
  unfold usageCutoff
  cases hmax : ((db.usage.upTo messageRowid).map Prod.fst).max? with
  | none =>
    have hnone : db.usage.upTo messageRowid = [] := by
      simpa [List.max?_eq_none_iff] using hmax
    have habove : ¬ r.1 ≤ messageRowid := by
      intro hle
      have hmem : r ∈ db.usage.upTo messageRowid := List.mem_filter.mpr ⟨hr, by simpa using hle⟩
      rw [hnone] at hmem
      cases hmem
    rw [Option.getD_none]
    omega
  | some m =>
    obtain ⟨hmem, hle⟩ := List.max?_eq_some_iff.mp hmax
    obtain ⟨s, hs, rfl⟩ := List.mem_map.mp hmem
    have hs' : s.1 ≤ messageRowid := by simpa using (List.mem_filter.mp hs).2
    rw [Option.getD_some]
    refine ⟨fun h => Nat.le_trans h hs', ?_⟩
    intro h
    exact hle r.1 (List.mem_map_of_mem (List.mem_filter.mpr ⟨hr, by simpa using h⟩))

variable {db : ContextDb} {fault : Option RevertFault}

/-- A revert that fails changes nothing. -/
theorem revertToCheckpoint_failed {id : Int} (h : (db.revertToCheckpoint id fault).2 = false) :
    (db.revertToCheckpoint id fault).1 = db := by
  unfold revertToCheckpoint at h ⊢
  split
  · rfl
  · rename_i messageRowid hfound
    simp only [hfound] at h
    split_ifs at h ⊢ <;> rfl

/-- What a successful revert leaves. -/
theorem revertToCheckpoint_ok {id : Int} (h : (db.revertToCheckpoint id fault).2 = true) :
    ∃ messageRowid, db.checkpointMessageRowid id = some messageRowid ∧
      (db.revertToCheckpoint id fault).1 =
        ((db.deleteMessages messageRowid).deleteCheckpoints id).deleteUsage messageRowid := by
  unfold revertToCheckpoint at h ⊢
  cases hfound : db.checkpointMessageRowid id with
  | none => simp [hfound] at h
  | some messageRowid =>
    refine ⟨messageRowid, rfl, ?_⟩
    simp only [hfound] at h ⊢
    split_ifs at h ⊢
    rfl

end ContextDb

end KimixNative.Agent
