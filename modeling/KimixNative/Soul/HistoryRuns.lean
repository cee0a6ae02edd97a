import KimixNative.Soul.HistoryRefinement

/-!
# Runs of the history store

The operations of the store beside those of a list, and what whole runs have in common: as
long as every step is admissible and neither a 32-bit count nor a null history gets in the
way, the views of the store are the messages of the list.
-/

namespace KimixNative.Soul

namespace HistoryStore

open Tables

/-! ### Operations -/

inductive Op
  | append (m : MessageView)
  | appendPacked (struct : Bytes) (history : StringView)
  | replace (index : Nat) (m : MessageView)
  | replacePacked (index : Nat) (struct : Bytes) (history : StringView)
  | drop (index : Nat)
  | truncate (count : Nat)
  | clear
  | compact
  /-- Save, then load into the same store or into a fresh one. -/
  | saveLoad (fresh : Bool)
  | views
  deriving DecidableEq

/-- One operation; `none` for a read out of bounds, or a saved store that is refused. -/
def apply (s : HistoryStore) : Op → Option HistoryStore
  | .append m => some (s.append m).2
  | .appendPacked struct history => some (s.appendPacked struct history).2
  | .replace index m => some (s.replace index m).2
  | .replacePacked index struct history => some (s.replacePacked index struct history).2
  | .drop index => some (s.drop index).2
  | .truncate count => some (s.truncate count)
  | .clear => some s.clear
  | .compact => s.compact
  | .saveLoad fresh =>
    match (if fresh then {} else s).load s.save with
    | (true, s') => some s'
    | (false, _) => none
  | .views => s.views.map Prod.snd

def step (s : Option HistoryStore) (op : Op) : Option HistoryStore := s.bind (·.apply op)

/-- The messages of a KMB2 pair, none if it is not valid. -/
def packed (struct : Bytes) (history : StringView) : List Message :=
  ((kmb2Parse struct history).bind Kmb2View.messages).getD []

namespace Op

/-- The messages an operation pushes. -/
def pushes : Op → List Message
  | .append m => [m.message]
  | .appendPacked struct history => packed struct history
  | _ => []

/-- The message an operation writes at an index. -/
def sets : Op → Option (Nat × Message)
  | .replace index m => some (index, m.message)
  | .replacePacked index struct history => (packed struct history).head?.map (index, ·)
  | _ => none

/-- The operation on a plain list. -/
def onList (l : List Message) : Op → List Message
  | .append m => l ++ [m.message]
  | .appendPacked struct history => l ++ packed struct history
  | .replace index m => l.set index m.message
  | .replacePacked index struct history =>
    match (packed struct history).head? with
    | none => l
    | some m => l.set index m
  | .drop index => l.eraseIdx index
  | .truncate count => l.take count
  | .clear => []
  | .compact => l
  | .saveLoad _ => l
  | .views => l

/-- A packed operation on a null history. -/
def nullHistory : Op → Bool
  | .appendPacked _ none => true
  | .replacePacked _ _ none => true
  | _ => false

end Op

/-- The messages an operation writes; an index out of range writes none. -/
def writes (s : HistoryStore) (op : Op) : List Message :=
  op.pushes ++ ((op.sets.filter fun x => x.1 < s.order.length).map Prod.snd).toList

/-- What is written fits into the arena and has a known role. -/
def Admissible (s : HistoryStore) (op : Op) : Prop :=
  s.arena.length + ((s.writes op).map Message.size).sum ≤ int32Max ∧
    ∀ m ∈ s.writes op, m.role.toNat ≤ kRoleTool.toNat

/-- The tables keep within 32-bit counts, and no null history hides an optional text. -/
def Supported (s : HistoryStore) (op : Op) : Prop :=
  s.slots.length + op.pushes.length < 2 ^ 32 ∧
    s.parts.length + ((s.writes op).map fun m => m.parts.length).sum < 2 ^ 32 ∧
    s.calls.length + ((s.writes op).map fun m => m.calls.length).sum < 2 ^ 32 ∧
    (op.nullHistory = true → ∀ m ∈ s.writes op, m.Plain)

instance (s : HistoryStore) (op : Op) : Decidable (s.Admissible op) :=
  inferInstanceAs (Decidable (_ ∧ _))

instance (s : HistoryStore) (op : Op) : Decidable (s.Supported op) :=
  inferInstanceAs (Decidable (_ ∧ _ ∧ _ ∧ (_ → _)))

/-! ### Packed messages -/

variable {history : StringView} {struct : Bytes} {v : Kmb2View}

theorem packed_eq (hv : kmb2Parse struct history = some v) :
    v.Accepted ∧ v.history = history ∧ v.messages = some (packed struct history) := by
  obtain ⟨-, rfl, ha⟩ := kmb2Parse_eq_some.mp hv
  obtain ⟨ms, hms⟩ := ha.messages_eq
  exact ⟨ha, rfl, by rw [packed, hv, Option.bind_some, hms]; rfl⟩

/-- The loop of `append_packed` pushes the messages it reads. -/
theorem Refines.appendMessages (ha : v.Accepted) {before n i : Nat} {ms : List Message}
    (hms : readRange v.denote i n = some ms) {s : HistoryStore} {l : List Message} (h : s.Refines l)
    (hplain : v.history = none → ∀ m ∈ ms, m.Plain)
    (hrole : ∀ m ∈ ms, m.role.toNat ≤ kRoleTool.toNat)
    (hcount : s.slots.length + ms.length < 2 ^ 32) (hfit : (s.tables.emitAll ms).Fits) :
    (HistoryStore.appendMessages v before n i s).2.Refines (l ++ ms) := by
  induction n generalizing i ms s l with
  | zero =>
    obtain rfl := Option.some.inj hms
    rw [List.append_nil]
    exact h
  | succ n ih =>
    obtain ⟨m, hm, hrest⟩ := Option.bind_eq_some_iff.mp hms
    obtain ⟨ms', hms', rfl⟩ := Option.map_eq_some_iff.mp hrest
    obtain ⟨mv, hmv, rfl⟩ := Kmb2View.messageView_message ha hm fun hnull =>
      hplain hnull m List.mem_cons_self
    rw [List.length_cons] at hcount
    have hstep : (s.tables.emit mv.message).Fits := (extends_emitAll _ ms').fits hfit
    have hpushed := h.pushed hstep (hrole _ List.mem_cons_self) (by omega)
    have hordinal : s.order.length ≠ noOrdinal := by
      have := h.order ▸ length_liveOrder_le s.slots
      unfold noOrdinal
      omega
    rw [HistoryStore.appendMessages, hmv]
    simp only [h.pushSlot hstep, if_neg hordinal]
    rw [← List.singleton_append, ← List.append_assoc]
    refine ih hms' hpushed (fun hnull m hm => hplain hnull m (List.mem_cons_of_mem _ hm))
      (fun m hm => hrole m (List.mem_cons_of_mem _ hm)) ?_ hfit
    rw [HistoryStore.pushed, List.length_append, List.length_singleton]
    omega

/-! ### Steps -/

section Step

variable {s : HistoryStore} {l : List Message} (h : s.Refines l)

include h

variable {op : Op} {index : Nat}

/-- What the two conditions say of the tables after the step. -/
theorem Refines.fits_writes (hadm : s.Admissible op) (hsup : s.Supported op) :
    (s.tables.emitAll (s.writes op)).Fits := by
  refine ⟨?_, ?_, ?_⟩
  · rw [length_arena_emitAll]
    exact hadm.1
  · rw [length_parts_emitAll]
    exact hsup.2.1
  · rw [length_calls_emitAll]
    exact hsup.2.2.1

theorem Refines.replace {m : MessageView}
    (hfit : index < s.order.length → (s.tables.emit m.message).Fits)
    (hrole : index < s.order.length → m.message.role.toNat ≤ kRoleTool.toNat) :
    (s.replace index m).2.Refines (l.set index m.message) := by
  rw [HistoryStore.replace]
  cases hk : s.order[index]? with
  | none =>
    have hle := List.getElem?_eq_none_iff.mp hk
    have hl : l.set index m.message = l := List.set_eq_of_length_le (h.length ▸ hle)
    exact hl.symm ▸ h
  | some slot =>
    have hlt := (List.getElem?_eq_some_iff.mp hk).1
    have hroom : s.arena.length + m.message.size ≤ int32Max := by
      have := (hfit hlt).arena
      rwa [length_arena_emit] at this
    simp only [writeMessage_eq (h.mem_order (List.mem_of_getElem? hk)) hroom, if_true]
    exact h.written hk (hfit hlt) (hrole hlt)

omit h in
theorem writes_of_sets {m : Message} (hpushes : op.pushes = []) (hsets : op.sets = some (index, m))
    (hlt : index < s.order.length) : s.writes op = [m] := by
  rw [writes, hpushes, hsets]
  simp [hlt]

theorem Refines.replacePacked (hadm : s.Admissible (.replacePacked index struct history))
    (hsup : s.Supported (.replacePacked index struct history)) :
    (s.replacePacked index struct history).2.Refines
      (Op.onList l (.replacePacked index struct history)) := by
  have hfit := h.fits_writes hadm hsup
  have hrole := hadm.2
  have hplain := hsup.2.2.2
  rw [HistoryStore.replacePacked, Op.onList]
  cases hv : kmb2Parse struct history with
  | none =>
    rw [packed, hv]
    exact h
  | some v =>
    obtain ⟨ha, hhistory, hms⟩ := packed_eq hv
    dsimp only
    cases hn : v.msgCount.toNat with
    | zero =>
      rw [Kmb2View.messages, hn] at hms
      rw [if_pos rfl, ← Option.some.inj hms]
      exact h
    | succ n =>
      rw [Kmb2View.messages, hn] at hms
      obtain ⟨m, hm, hrest⟩ := Option.bind_eq_some_iff.mp hms
      obtain ⟨ms, -, hpacked⟩ := Option.map_eq_some_iff.mp hrest
      have hwrites : index < s.order.length →
          s.writes (.replacePacked index struct history) = [m] :=
        writes_of_sets rfl (by rw [Op.sets, ← hpacked]; rfl)
      rw [if_neg (Nat.succ_ne_zero n), ← hpacked, List.head?_cons]
      obtain hlt | hge := Nat.lt_or_ge index s.order.length
      · rw [hwrites hlt] at hfit hrole hplain
        obtain ⟨mv, hmv, rfl⟩ := Kmb2View.messageView_message ha hm fun hnull =>
          hplain (by rw [← hhistory, hnull]; rfl) m List.mem_cons_self
        rw [hmv]
        exact h.replace (fun _ => hfit) fun _ => hrole _ List.mem_cons_self
      · have hnone := List.getElem?_eq_none_iff.mpr hge
        have hl : l.set index m = l := List.set_eq_of_length_le (h.length ▸ hge)
        dsimp only
        rw [hl]
        cases v.messageView 0 with
        | none => exact h
        | some mv =>
          dsimp only
          rw [HistoryStore.replace, hnone]
          exact h

/-- One step on both sides. -/
theorem Refines.apply (hadm : s.Admissible op) (hsup : s.Supported op) :
    ∃ s', s.apply op = some s' ∧ s'.Refines (op.onList l) := by
  have hfit := h.fits_writes hadm hsup
  have hrole := hadm.2
  have hcount := hsup.1
  have hplain := hsup.2.2.2
  cases op with
  | append m =>
    refine ⟨_, rfl, ?_⟩
    rw [HistoryStore.append, h.pushSlot hfit]
    exact h.pushed hfit (hrole _ List.mem_cons_self) hcount
  | appendPacked struct history =>
    refine ⟨_, rfl, ?_⟩
    rw [HistoryStore.appendPacked, Op.onList]
    cases hv : kmb2Parse struct history with
    | none =>
      rw [packed, hv]
      simpa using h
    | some v =>
      obtain ⟨ha, hhistory, hms⟩ := packed_eq hv
      have hwrites : s.writes (.appendPacked struct history) = packed struct history :=
        List.append_nil _
      rw [hwrites] at hfit hrole hplain
      refine h.appendMessages ha hms (fun hnull => hplain ?_) hrole hcount hfit
      rw [← hhistory, hnull]
      rfl
  | replace index m =>
    have hwrites : index < s.order.length → s.writes (.replace index m) = [m.message] :=
      writes_of_sets rfl rfl
    refine ⟨_, rfl, h.replace (fun hlt => ?_) fun hlt => ?_⟩
    · rw [hwrites hlt] at hfit
      exact hfit
    · rw [hwrites hlt] at hrole
      exact hrole _ List.mem_cons_self
  | replacePacked index struct history => exact ⟨_, rfl, h.replacePacked hadm hsup⟩
  | drop index => exact ⟨_, rfl, h.drop index⟩
  | truncate count => exact ⟨_, rfl, h.truncate count⟩
  | clear => exact ⟨_, rfl, h.clear⟩
  | compact => exact h.compact
  | saveLoad fresh =>
    cases fresh with
    | false =>
      obtain ⟨s', hload, hs'⟩ := h.load_save h.cached
      exact ⟨s', by simp [HistoryStore.apply, hload], hs'⟩
    | true =>
      obtain ⟨s', hload, hs'⟩ := h.load_save refines_empty.cached
      exact ⟨s', by simp [HistoryStore.apply, hload], hs'⟩
  | views =>
    obtain ⟨s', hviews, hs'⟩ := h.views
    exact ⟨s', by rw [HistoryStore.apply, hviews, Option.map_some], hs'⟩

end Step

/-! ### Runs -/

/-- In every run from a fresh store whose steps are admissible and supported, the views are
the messages that the same operations leave in a plain list. -/
theorem views_run {ops : List Op}
    (h : Meets step (fun s op => ∀ t ∈ s, t.Admissible op ∧ t.Supported op) (some {}) ops) :
    ∃ s, run step (some {}) ops = some s ∧
      s.views.map Prod.fst = some ((run Op.onList [] ops).map Message.view) := by
  have hrun : ∃ s, run step (some {}) ops = some s ∧ s.Refines (run Op.onList [] ops) := by
    refine Meets.simulation (R := fun (s : Option HistoryStore) l => ∃ t, s = some t ∧ t.Refines l)
      ?_ ⟨{}, rfl, refines_empty⟩ h
    rintro _ l op ⟨t, rfl, ht⟩ hok
    obtain ⟨hadm, hsup⟩ := hok t rfl
    exact ht.apply hadm hsup
  obtain ⟨s, hs, href⟩ := hrun
  obtain ⟨s', hviews, -⟩ := href.views
  exact ⟨s, hs, by rw [hviews, Option.map_some]⟩

/-- A structure with one tool message whose tool-call id is present and empty. -/
def emptyIdStruct : Bytes :=
  u32.encodeAll [kKmb2Magic, kKmb2Version, 1, 0, 0, kKmb2FlagUtf8, 0, 0] ++
    messageCodec.encode ⟨kRoleTool, kKmb2MsgHasToolCallId, 0, 0, 0, 0, 0, 0⟩

/-- Operations of every kind. -/
def mixedOps : List Op :=
  [.append ⟨1, none, [⟨.text, some [104, 105]⟩, ⟨.think, none⟩], []⟩,
    .append ⟨2, none, [], [⟨some [97], some [102], some []⟩, ⟨some [98], some [102], none⟩]⟩,
    .views, .appendPacked emptyIdStruct (some []), .replace 0 ⟨0, none, [⟨.text, some [33]⟩], []⟩,
    .saveLoad true, .replacePacked 1 emptyIdStruct (some []), .drop 0, .compact, .saveLoad false,
    .truncate 1]

theorem views_mixedOps :
    Meets step (fun s op => ∀ t ∈ s, t.Admissible op ∧ t.Supported op) (some {}) mixedOps ∧
      ∃ s, run step (some {}) mixedOps = some s ∧
        s.views.map Prod.fst = some ((run Op.onList [] mixedOps).map Message.view) := by
  have h : Meets step (fun s op => ∀ t ∈ s, t.Admissible op ∧ t.Supported op) (some {})
      mixedOps := by decide +kernel
  exact ⟨h, views_run h⟩

/-- With a null history the pair is valid and the step admissible, but the empty tool-call id
comes back as an absent one. -/
theorem views_ne_nullHistory :
    Meets step (fun s op => ∀ t ∈ s, t.Admissible op) (some {})
        [.appendPacked emptyIdStruct none] ∧
      (kmb2Parse emptyIdStruct none).isSome = true ∧
      ((run step (some {}) [.appendPacked emptyIdStruct none]).bind fun s =>
        s.views.map Prod.fst) = some [⟨kRoleTool, none, [], []⟩] ∧
      (run Op.onList [] [.appendPacked emptyIdStruct none]).map Message.view =
        [⟨kRoleTool, some [], [], []⟩] := by
  decide +kernel

end HistoryStore

end KimixNative.Soul
