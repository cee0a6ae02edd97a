import KimixNative.Agent.ContextDb

/-!
# Reverting to a checkpoint

A run remembers, for every checkpoint it created, how many usage snapshots had been numbered
by then. A revert is aligned when the message number of its checkpoint cuts the usage table
where that count does; then it leads back to what the checkpoint was created on. Messages and
checkpoints come back in any case.
-/

namespace KimixNative.Agent

/-- A database with the ids of the checkpoints created so far, each with the usage number that
was the last one then. -/
structure Session where
  db : ContextDb := {}
  record : List (Int × Nat) := []

namespace Session

def step (s : Session) (op : Op) : Session where
  db     := s.db.step op
  record :=
    match op with
    | .createCheckpoint id fails =>
      if (s.db.createCheckpoint id fails).2 then s.record ++ [(id, s.db.usage.seq)] else s.record
    | _ => s.record

/-- The stored snapshots numbered up to the checkpoint's message number are those recorded
before it was created. -/
def Aligned (s : Session) (id : Int) : Prop :=
  ∀ m ∈ s.db.checkpointMessageRowid id, ∀ e ∈ s.record, e.1 = id →
    ∀ r ∈ s.db.usage.rows, r.1 ≤ m ↔ r.1 ≤ e.2

/-- Checkpoint ids grow, and reverts are aligned. -/
def StepOk (s : Session) : Op → Prop
  | .createCheckpoint id _ => ∀ e ∈ s.record, e.1 < id
  | .revertToCheckpoint id _ => s.Aligned id
  | _ => True

end Session

namespace ContextDb

variable {db : ContextDb} {id : Int}

theorem upTo_foldl_insert {α : Type*} {t : RowTable α} {cutoff : Nat} (h : cutoff ≤ t.seq)
    (recs : List α) : (recs.foldl RowTable.insert t).upTo cutoff = t.upTo cutoff ∧
      cutoff ≤ (recs.foldl RowTable.insert t).seq := by
  induction recs generalizing t with
  | nil => exact ⟨rfl, h⟩
  | cons rec recs ih =>
    obtain ⟨hrows, hseq⟩ := ih (t := t.insert rec) (Nat.le_succ_of_le h)
    exact ⟨hrows.trans (RowTable.upTo_insert h rec), hseq⟩

theorem checkpointMessageRowid_snoc {c : Checkpoint} (hne : c.id ≠ id) (more : ContextDb)
    (hmore : more.checkpoints = db.checkpoints ++ [c]) :
    more.checkpointMessageRowid id = db.checkpointMessageRowid id := by
  rw [checkpointMessageRowid, checkpointMessageRowid, hmore, List.find?_append]
  simp [hne]

theorem checkpointMessageRowid_filter {low : Int} (h : id < low) (less : ContextDb)
    (hless : less.checkpoints = db.checkpoints.filter fun c => c.id < low) :
    less.checkpointMessageRowid id = db.checkpointMessageRowid id := by
  rw [checkpointMessageRowid, checkpointMessageRowid, hless, List.find?_filter]
  congr 2
  funext c
  by_cases hc : c.id = id
  · simp [hc, h]
  · simp [hc]

theorem checkpointMessageRowid_removed {low : Int} (h : low ≤ id) (less : ContextDb)
    (hless : less.checkpoints = db.checkpoints.filter fun c => c.id < low) :
    less.checkpointMessageRowid id = none := by
  rw [checkpointMessageRowid, hless, Option.map_eq_none_iff, List.find?_eq_none]
  intro c hc
  have hlow := (List.mem_filter.mp hc).2
  simp only [decide_eq_true_eq] at hlow ⊢
  omega

theorem mem_of_checkpointMessageRowid {m : Nat} (h : db.checkpointMessageRowid id = some m) :
    ∃ c ∈ db.checkpoints, c.id = id ∧ c.messageRowid.getD 0 = m := by
  obtain ⟨c, hc, rfl⟩ := Option.map_eq_some_iff.mp h
  exact ⟨c, List.mem_of_find?_eq_some hc, by simpa using List.find?_some hc, rfl⟩

/-- Later checkpoints are anchored at later messages, which are still there. -/
structure Anchored (db : ContextDb) : Prop where
  sorted : ∀ c ∈ db.checkpoints, ∀ d ∈ db.checkpoints, c.id < d.id →
    c.messageRowid.getD 0 ≤ d.messageRowid.getD 0
  stored : ∀ c ∈ db.checkpoints, ∀ m, c.messageRowid = some m → ∃ r ∈ db.messages.rows, r.1 = m

/-- A new checkpoint gets the largest id. -/
def Growing (db : ContextDb) : Op → Prop
  | .createCheckpoint id _ => ∀ c ∈ db.checkpoints, c.id < id
  | _ => True

theorem Anchored.keep (h : db.Anchored) {op : Op} (ok : db.Growing op) :
    (db.step op).Anchored := by
  obtain ⟨sorted, stored⟩ := h
  cases op with
  | appendBatch recs failsAt =>
    refine ⟨sorted, ?_⟩
    intro c hc m hm
    obtain ⟨r, hr, hrow⟩ := stored c hc m hm
    rw [← RowTable.upTo_seq,
      ← (upTo_foldl_insert le_rfl (recs.take (failsAt.getD recs.length))).1] at hr
    exact ⟨r, List.mem_of_mem_filter hr, hrow⟩
  | recordUsage tokenCount fails => cases fails <;> exact ⟨sorted, stored⟩
  | createCheckpoint id fails =>
    dsimp only [step, apply, createCheckpoint]
    split
    · exact ⟨sorted, stored⟩
    · have hlast : ∀ c ∈ db.checkpoints, c.messageRowid.getD 0 ≤ db.messages.maxRow.getD 0 := by
        intro c hc
        cases hm : c.messageRowid with
        | none => exact Nat.zero_le _
        | some m =>
          obtain ⟨r, hr, rfl⟩ := stored c hc m hm
          exact RowTable.le_maxRow hr
      have hmax : ∀ m, db.messages.maxRow = some m → ∃ r ∈ db.messages.rows, r.1 = m :=
        fun m hm => List.mem_map.mp (List.max?_eq_some_iff.mp hm).1
      dsimp only [Growing] at ok
      constructor <;> grind
  | revertToCheckpoint id fault =>
    cases hok : (db.revertToCheckpoint id fault).2 with
    | false =>
      rw [step, apply, revertToCheckpoint_failed hok]
      exact ⟨sorted, stored⟩
    | true =>
      obtain ⟨_, hfound, hleft⟩ := revertToCheckpoint_ok hok
      obtain ⟨d, hd, rfl, rfl⟩ := mem_of_checkpointMessageRowid hfound
      rw [step, apply, hleft]
      constructor
      · intro c hc e he
        exact sorted c (List.mem_of_mem_filter hc) e (List.mem_of_mem_filter he)
      · intro c hc m hm
        obtain ⟨hc, hid⟩ := List.mem_filter.mp hc
        obtain ⟨r, hr, rfl⟩ := stored c hc m hm
        have hle := sorted c hc d hd (of_decide_eq_true hid)
        rw [hm] at hle
        exact ⟨r, List.mem_filter.mpr ⟨hr, decide_eq_true hle⟩, rfl⟩

/-- In every run whose checkpoint ids grow, a revert behind a revert to a later checkpoint is as
if that had not been. -/
theorem revert_revert (ops : List Op) (ok : Meets step Growing {} ops) {a b : Int} (hlt : b < a)
    (fault : Option RevertFault)
    (hb : ((run step {} ops).revertToCheckpoint b none).2 = true) :
    ((run step {} ops).revertToCheckpoint a fault).1.revertToCheckpoint b none =
      (run step {} ops).revertToCheckpoint b none := by
  have h : (run step {} ops).Anchored := ok.invariant (fun _ _ h ok => h.keep ok)
    ⟨by rintro c ⟨⟩, by rintro c ⟨⟩⟩
  generalize run step {} ops = db at h hb ⊢
  cases ha : (db.revertToCheckpoint a fault).2 with
  | false => rw [revertToCheckpoint_failed ha]
  | true =>
    obtain ⟨_, hlow, -⟩ := revertToCheckpoint_ok hb
    obtain ⟨_, hhigh, hleft⟩ := revertToCheckpoint_ok ha
    generalize (db.revertToCheckpoint a fault).1 = left at hleft ⊢
    have hsame : left.checkpointMessageRowid b = db.checkpointMessageRowid b :=
      checkpointMessageRowid_filter hlt left (by rw [hleft]; rfl)
    obtain ⟨c, hc, rfl, rfl⟩ := mem_of_checkpointMessageRowid hlow
    obtain ⟨d, hd, rfl, rfl⟩ := mem_of_checkpointMessageRowid hhigh
    have hle := h.sorted c hc d hd hlt
    simp only [revertToCheckpoint, hsame, hlow, reduceCtorEq, if_false]
    rw [hleft]
    refine Prod.ext (ContextDb.ext (RowTable.ext (RowTable.upTo_deleteAbove hle) rfl)
      (RowTable.ext ?_ rfl) ?_) rfl
    · rw [rows_deleteUsage, rows_deleteUsage, RowTable.upTo]
      change List.filter _ (deleteUsage _ _).usage.rows = _
      rw [rows_deleteUsage]
      exact RowTable.upTo_deleteAbove hle
    · refine List.filter_filter.trans (List.filter_congr fun e _ => ?_)
      rw [← Bool.decide_and]
      exact decide_eq_decide.mpr ⟨And.left, fun he => ⟨he, he.trans hlt⟩⟩

theorem revert_revert_twice :
    let db := run step {} [.createCheckpoint 0 false, .createCheckpoint 1 false]
    (db.revertToCheckpoint 1 none).1.revertToCheckpoint 0 none = db.revertToCheckpoint 0 none :=
  revert_revert _ (by exact ⟨by rintro c ⟨⟩, List.forall_mem_singleton.mpr (by decide), trivial⟩)
    (by decide) none rfl

end ContextDb

namespace Session

/-- While checkpoint `id`, created on `origin`, is there, so is everything below it. -/
structure Present (origin : ContextDb) (id : Int) (s : Session) : Prop where
  rowid : s.db.checkpointMessageRowid id = some (origin.messages.maxRow.getD 0)
  messages : s.db.messages.upTo (origin.messages.maxRow.getD 0) = origin.messages.rows
  messageSeq : origin.messages.maxRow.getD 0 ≤ s.db.messages.seq
  usage : s.db.usage.upTo origin.usage.seq = origin.usage.rows
  usageSeq : origin.usage.seq ≤ s.db.usage.seq
  smaller : s.db.checkpoints.filter (fun c => c.id < id) =
    origin.checkpoints.filter fun c => c.id < id
  later : ∀ c ∈ s.db.checkpoints, id < c.id →
    origin.messages.maxRow.getD 0 ≤ c.messageRowid.getD 0 ∧
      ∀ e ∈ s.record, e.1 = c.id → origin.usage.seq ≤ e.2

/-- What every step of a run after the creation of checkpoint `id` keeps. -/
structure Kept (origin : ContextDb) (id : Int) (s : Session) : Prop where
  recorded : (id, origin.usage.seq) ∈ s.record
  only : ∀ e ∈ s.record, e.1 = id → e.2 = origin.usage.seq
  known : ∀ c ∈ s.db.checkpoints, ∃ e ∈ s.record, e.1 = c.id
  alive : s.db.checkpointMessageRowid id = none ∨ Present origin id s

variable {origin : ContextDb} {id : Int} {s : Session}

/-- A later checkpoint is anchored at or above this one's message number. -/
theorem Present.maxRow_le (h : Present origin id s) :
    origin.messages.maxRow.getD 0 ≤ s.db.messages.maxRow.getD 0 := by
  cases hmax : origin.messages.maxRow with
  | none => exact Nat.zero_le _
  | some m =>
    obtain ⟨r, hr, rfl⟩ := List.mem_map.mp (List.max?_eq_some_iff.mp hmax).1
    rw [← h.messages] at hr
    exact RowTable.le_maxRow (List.mem_of_mem_filter hr)

theorem Kept.appendBatch (h : Kept origin id s) (recs : List ContextRecord)
    (failsAt : Option Nat) : Kept origin id (s.step (.appendBatch recs failsAt)) := by
  refine ⟨h.recorded, h.only, h.known, ?_⟩
  obtain habsent | hp := h.alive
  · exact .inl habsent
  · obtain ⟨hrows, hseq⟩ := ContextDb.upTo_foldl_insert hp.messageSeq
      (recs.take (failsAt.getD recs.length))
    exact .inr
      { hp with
        messages   := hrows.trans hp.messages
        messageSeq := hseq }

theorem Kept.recordUsage (h : Kept origin id s) (tokenCount : Int) (fails : Bool) :
    Kept origin id (s.step (.recordUsage tokenCount fails)) := by
  cases fails with
  | true => exact ⟨h.recorded, h.only, h.known, h.alive.imp_right fun hp => { hp with }⟩
  | false =>
    refine ⟨h.recorded, h.only, h.known, h.alive.imp_right fun hp => ?_⟩
    exact
      { hp with
        usage    := (RowTable.upTo_insert hp.usageSeq tokenCount).trans hp.usage
        usageSeq := Nat.le_succ_of_le hp.usageSeq }

theorem Kept.createCheckpoint (h : Kept origin id s) {newId : Int} {fails : Bool}
    (fresh : ∀ e ∈ s.record, e.1 < newId) :
    Kept origin id (s.step (.createCheckpoint newId fails)) := by
  have hlt : id < newId := fresh _ h.recorded
  by_cases hrefused : fails ∨ (s.db.checkpointMessageRowid newId).isSome
  · have hcreate : s.db.createCheckpoint newId fails = (s.db, false) := if_pos hrefused
    have hsame : s.step (.createCheckpoint newId fails) = s := by
      simp [step, ContextDb.step, ContextDb.apply, hcreate]
    rw [hsame]
    exact h
  · have hcreate : s.db.createCheckpoint newId fails =
        ({ s.db with checkpoints := s.db.checkpoints ++ [⟨newId, s.db.messages.maxRow⟩] }, true) :=
      if_neg hrefused
    have hstep : s.step (.createCheckpoint newId fails) =
        ⟨{ s.db with checkpoints := s.db.checkpoints ++ [⟨newId, s.db.messages.maxRow⟩] },
          s.record ++ [(newId, s.db.usage.seq)]⟩ := by
      simp [step, ContextDb.step, ContextDb.apply, hcreate]
    rw [hstep]
    refine ⟨List.mem_append_left _ h.recorded, ?_, ?_, ?_⟩
    · intro e he heq
      obtain he | he := List.mem_append.mp he
      · exact h.only e he heq
      · rw [List.mem_singleton.mp he] at heq
        simp only at heq
        omega
    · intro c hc
      obtain hc | hc := List.mem_append.mp hc
      · obtain ⟨e, he, heq⟩ := h.known c hc
        exact ⟨e, List.mem_append_left _ he, heq⟩
      · rw [List.mem_singleton.mp hc]
        exact ⟨_, List.mem_append_right _ (List.mem_singleton.mpr rfl), rfl⟩
    · have hfind : ContextDb.checkpointMessageRowid
          { s.db with checkpoints := s.db.checkpoints ++ [⟨newId, s.db.messages.maxRow⟩] } id =
          s.db.checkpointMessageRowid id :=
        ContextDb.checkpointMessageRowid_snoc (c := ⟨newId, s.db.messages.maxRow⟩) (ne_of_gt hlt)
          _ rfl
      obtain habsent | hp := h.alive
      · exact .inl (hfind.trans habsent)
      · refine .inr
          { hp with
            rowid   := hfind.trans hp.rowid
            smaller := ?_
            later   := ?_ }
        · rw [List.filter_append, hp.smaller, List.filter_cons_of_neg (by simp; omega)]
          simp
        · intro c hc hidc
          obtain hc | hc := List.mem_append.mp hc
          · obtain ⟨hrow, hrec⟩ := hp.later c hc hidc
            refine ⟨hrow, ?_⟩
            intro e he heq
            obtain he | he := List.mem_append.mp he
            · exact hrec e he heq
            · rw [List.mem_singleton.mp he]
              exact hp.usageSeq
          · rw [List.mem_singleton.mp hc]
            refine ⟨hp.maxRow_le, ?_⟩
            intro e he heq
            obtain he | he := List.mem_append.mp he
            · exact absurd heq (ne_of_lt (fresh e he))
            · rw [List.mem_singleton.mp he]
              exact hp.usageSeq

/-- A revert to an earlier checkpoint removes this one; a revert to a later one leaves what
lies below. -/
theorem Kept.revertToCheckpoint (h : Kept origin id s) {target : Int}
    {fault : Option RevertFault} (aligned : s.Aligned target) :
    Kept origin id (s.step (.revertToCheckpoint target fault)) := by
  cases hok : (s.db.revertToCheckpoint target fault).2 with
  | false =>
    have hsame : s.step (.revertToCheckpoint target fault) = s := by
      simp only [step, ContextDb.step, ContextDb.apply, ContextDb.revertToCheckpoint_failed hok]
    rw [hsame]
    exact h
  | true =>
    obtain ⟨m, hfound, hleft⟩ := ContextDb.revertToCheckpoint_ok hok
    have hstep : s.step (.revertToCheckpoint target fault) =
        ⟨((s.db.deleteMessages m).deleteCheckpoints target).deleteUsage m, s.record⟩ := by
      simp only [step, ContextDb.step, ContextDb.apply, hleft]
    rw [hstep]
    refine ⟨h.recorded, h.only, ?_, ?_⟩
    · intro c hc
      exact h.known c (List.mem_of_mem_filter hc)
    · by_cases hle : target ≤ id
      · exact .inl (ContextDb.checkpointMessageRowid_removed hle _ rfl)
      · have hlt : id < target := by omega
        have hfind :
            (((s.db.deleteMessages m).deleteCheckpoints target).deleteUsage m).checkpointMessageRowid
              id = s.db.checkpointMessageRowid id :=
          ContextDb.checkpointMessageRowid_filter hlt _ rfl
        obtain habsent | hp := h.alive
        · exact .inl (hfind.trans habsent)
        · obtain ⟨c, hc, hcid, hcrow⟩ := ContextDb.mem_of_checkpointMessageRowid hfound
          obtain ⟨hrow, hrec⟩ := hp.later c hc (by omega)
          rw [hcrow] at hrow
          obtain ⟨e, he, heq⟩ := h.known c hc
          have hcut := aligned m hfound e he (heq.trans hcid)
          have hbelow := hrec e he heq
          refine .inr
            { rowid      := hfind.trans hp.rowid
              messages   := (RowTable.upTo_deleteAbove hrow).trans hp.messages
              messageSeq := hp.messageSeq
              usage      := ?_
              usageSeq   := hp.usageSeq
              smaller    := ?_
              later      := ?_ }
          · have hrows := ContextDb.rows_deleteUsage
              ((s.db.deleteMessages m).deleteCheckpoints target) m
            rw [RowTable.upTo, hrows, RowTable.upTo, List.filter_filter, ← hp.usage]
            refine List.filter_congr fun r hr => ?_
            have hr' := hcut r hr
            rw [← Bool.decide_and]
            exact decide_eq_decide.mpr ⟨fun hboth => hboth.1, fun hu => ⟨hu, hr'.mpr (by omega)⟩⟩
          · change (s.db.checkpoints.filter fun c => c.id < target).filter _ = _
            rw [← hp.smaller, List.filter_filter]
            refine List.filter_congr fun c _ => ?_
            rw [← Bool.decide_and]
            exact decide_eq_decide.mpr ⟨fun hboth => hboth.1, fun hc => ⟨hc, by omega⟩⟩
          · intro c hc hidc
            exact hp.later c (List.mem_of_mem_filter hc) hidc

theorem Kept.step (h : Kept origin id s) {op : Op} (ok : s.StepOk op) :
    Kept origin id (s.step op) := by
  cases op with
  | appendBatch recs failsAt => exact h.appendBatch recs failsAt
  | recordUsage tokenCount fails => exact h.recordUsage tokenCount fails
  | createCheckpoint newId fails => exact h.createCheckpoint ok
  | revertToCheckpoint target fault => exact h.revertToCheckpoint ok

/-- Every checkpoint is on record. -/
theorem known_step (h : ∀ c ∈ s.db.checkpoints, ∃ e ∈ s.record, e.1 = c.id) (op : Op) :
    ∀ c ∈ (s.step op).db.checkpoints, ∃ e ∈ (s.step op).record, e.1 = c.id := by
  cases op with
  | appendBatch recs failsAt => exact h
  | recordUsage tokenCount fails =>
    cases fails <;> exact h
  | createCheckpoint newId fails =>
    by_cases hrefused : fails ∨ (s.db.checkpointMessageRowid newId).isSome
    · have hcreate : s.db.createCheckpoint newId fails = (s.db, false) := if_pos hrefused
      simpa [step, ContextDb.step, ContextDb.apply, hcreate] using h
    · have hcreate : s.db.createCheckpoint newId fails =
          ({ s.db with checkpoints := s.db.checkpoints ++ [⟨newId, s.db.messages.maxRow⟩] },
            true) := if_neg hrefused
      intro c hc
      simp only [step, ContextDb.step, ContextDb.apply, hcreate, List.mem_append,
        List.mem_singleton, if_true] at hc ⊢
      obtain hc | rfl := hc
      · obtain ⟨e, he, heq⟩ := h c hc
        exact ⟨e, .inl he, heq⟩
      · exact ⟨_, .inr rfl, rfl⟩
  | revertToCheckpoint target fault =>
    cases hok : (s.db.revertToCheckpoint target fault).2 with
    | false =>
      simpa only [step, ContextDb.step, ContextDb.apply,
        ContextDb.revertToCheckpoint_failed hok] using h
    | true =>
      obtain ⟨m, -, hleft⟩ := ContextDb.revertToCheckpoint_ok hok
      intro c hc
      simp only [step, ContextDb.step, ContextDb.apply, hleft] at hc ⊢
      exact h c (List.mem_of_mem_filter hc)

/-- The creation itself. -/
theorem kept_create (known : ∀ c ∈ s.db.checkpoints, ∃ e ∈ s.record, e.1 = c.id)
    (fresh : ∀ e ∈ s.record, e.1 < id) (hok : (s.db.createCheckpoint id false).2 = true) :
    Kept s.db id (s.step (.createCheckpoint id false)) := by
  have hbelow : ∀ c ∈ s.db.checkpoints, c.id < id := by
    intro c hc
    obtain ⟨e, he, heq⟩ := known c hc
    rw [← heq]
    exact fresh e he
  have hcreate : s.db.createCheckpoint id false =
      ({ s.db with checkpoints := s.db.checkpoints ++ [⟨id, s.db.messages.maxRow⟩] }, true) := by
    unfold ContextDb.createCheckpoint at hok ⊢
    split at hok
    · cases hok
    · rename_i hfree
      exact if_neg hfree
  have hstep : s.step (.createCheckpoint id false) =
      ⟨{ s.db with checkpoints := s.db.checkpoints ++ [⟨id, s.db.messages.maxRow⟩] },
        s.record ++ [(id, s.db.usage.seq)]⟩ := by
    simp [step, ContextDb.step, ContextDb.apply, hcreate]
  have hknown := known_step known (.createCheckpoint id false)
  rw [hstep] at hknown ⊢
  refine ⟨by simp, ?_, hknown, .inr ?_⟩
  · intro e he heq
    obtain he | he := List.mem_append.mp he
    · exact absurd heq (ne_of_lt (fresh e he))
    · rw [List.mem_singleton.mp he]
  · refine
      { rowid      := ?_
        messages   := RowTable.upTo_maxRow _
        messageSeq := RowTable.maxRow_le_seq _
        usage      := RowTable.upTo_seq _
        usageSeq   := le_rfl
        smaller    := ?_
        later      := ?_ }
    · have hnone : s.db.checkpoints.find? (fun c => c.id = id) = none := by
        rw [List.find?_eq_none]
        intro c hc
        simpa using ne_of_lt (hbelow c hc)
      rw [ContextDb.checkpointMessageRowid, List.find?_append, hnone]
      simp
    · simp
    · intro c hc hidc
      obtain hc | hc := List.mem_append.mp hc
      · have := hbelow c hc
        omega
      · rw [List.mem_singleton.mp hc] at hidc
        simp only at hidc
        omega

/-- In every run whose checkpoint ids grow and whose reverts are aligned, a revert that fails
changes nothing, and a successful one leads back to the messages and the earlier checkpoints
that its checkpoint was created on; it leads back to the usage snapshots exactly if it is
aligned. -/
theorem revert_restores {before between : List Op} {id : Int}
    (ok : Meets step StepOk {} (before ++ .createCheckpoint id false :: between))
    (created : ((run step {} before).db.createCheckpoint id false).2 = true) :
    let origin := (run step {} before).db
    let s := run step {} (before ++ .createCheckpoint id false :: between)
    ∀ fault, ((s.db.revertToCheckpoint id fault).2 = false →
        (s.db.revertToCheckpoint id fault).1 = s.db) ∧
      ((s.db.revertToCheckpoint id fault).2 = true →
        (s.db.revertToCheckpoint id fault).1.messages.rows = origin.messages.rows ∧
        ((s.db.revertToCheckpoint id fault).1.checkpoints.filter fun c => c.id < id) =
          (origin.checkpoints.filter fun c => c.id < id) ∧
        ((s.db.revertToCheckpoint id fault).1.usage.rows = origin.usage.rows ↔ s.Aligned id)) := by
  intro origin s fault
  refine ⟨ContextDb.revertToCheckpoint_failed, ?_⟩
  intro hok
  obtain ⟨-, ok⟩ := meets_append.mp ok
  obtain ⟨fresh, ok⟩ := (meets_cons ..).mp ok
  have hknown := run_invariant (I := fun s : Session =>
    ∀ c ∈ s.db.checkpoints, ∃ e ∈ s.record, e.1 = c.id) (fun s op h => known_step h op)
    (s := {}) (by simp) before
  have hstart := kept_create hknown fresh created
  have hkept : Kept origin id s := by
    change Kept origin id (run step {} (before ++ .createCheckpoint id false :: between))
    rw [run_append, run_cons]
    exact Meets.invariant (I := Kept origin id) (fun _ _ h ok => h.step ok) hstart ok
  obtain ⟨m, hfound, hleft⟩ := ContextDb.revertToCheckpoint_ok hok
  rw [hleft]
  obtain habsent | hp := hkept.alive
  · rw [habsent] at hfound
    cases hfound
  have hm : m = origin.messages.maxRow.getD 0 := by
    rw [hp.rowid, Option.some_inj] at hfound
    exact hfound.symm
  refine ⟨?_, ?_, ?_⟩
  · change s.db.messages.upTo m = _
    rw [hm]
    exact hp.messages
  · change ((s.db.checkpoints.filter fun c => c.id < id).filter fun c => c.id < id) = _
    rw [List.filter_filter]
    simpa using hp.smaller
  · rw [ContextDb.rows_deleteUsage]
    change s.db.usage.upTo m = _ ↔ _
    rw [← hp.usage]
    constructor
    · intro hrows m' hm' e he heq r hr
      rw [hkept.only e he heq]
      obtain rfl : m = m' := Option.some_inj.mp (hfound.symm.trans hm')
      exact RowTable.iff_of_upTo_eq hrows r hr
    · intro aligned
      exact RowTable.upTo_congr fun r hr => aligned m hfound _ hkept.recorded rfl r hr

/-- One snapshot before and one after the checkpoint, each beside a message. -/
theorem revert_restores_aligned :
    let before : List Op := [.appendBatch [⟨[117], [1]⟩] none, .recordUsage 5 false]
    let between : List Op := [.appendBatch [⟨[117], [2]⟩] none, .recordUsage 6 false]
    let origin := (run step {} before).db
    let s := run step {} (before ++ .createCheckpoint 1 false :: between)
    (s.db.revertToCheckpoint 1 none).1.usage.rows = origin.usage.rows ∧
      origin.latestUsage = some 5 := by
  intro before between origin s
  have ok : Meets step StepOk {} (before ++ .createCheckpoint 1 false :: between) :=
    ⟨trivial, trivial, by rintro e ⟨⟩, trivial, trivial, trivial⟩
  have created : ((run step {} before).db.createCheckpoint 1 false).2 = true := by decide
  have h := (revert_restores ok created none).2 (by decide)
  refine ⟨h.2.2.mpr ?_, by decide⟩
  change ∀ m ∈ s.db.checkpointMessageRowid 1, ∀ e ∈ s.record, e.1 = 1 →
    ∀ r ∈ s.db.usage.rows, r.1 ≤ m ↔ r.1 ≤ e.2
  decide

/-- Two snapshots beside one message: the revert loses the second one, though both are older
than the checkpoint. Two messages beside no snapshot: the revert keeps the one recorded
since. -/
theorem revert_misaligned :
    (let before : List Op :=
        [.appendBatch [⟨[117], [1]⟩] none, .recordUsage 5 false, .recordUsage 7 false]
      let s := run step {} (before ++ [.createCheckpoint 1 false])
      (s.db.revertToCheckpoint 1 none).2 = true ∧
        (run step {} before).db.latestUsage = some 7 ∧
        (s.db.revertToCheckpoint 1 none).1.latestUsage = some 5) ∧
      (let before : List Op := [.appendBatch [⟨[117], [1]⟩, ⟨[117], [2]⟩] none]
      let s := run step {} (before ++ [.createCheckpoint 1 false, .recordUsage 9 false])
      (s.db.revertToCheckpoint 1 none).2 = true ∧
        (run step {} before).db.latestUsage = none ∧
        (s.db.revertToCheckpoint 1 none).1.latestUsage = some 9) := by
  decide

end Session

end KimixNative.Agent
