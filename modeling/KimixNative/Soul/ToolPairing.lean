import KimixNative.Soul.RequestBuilder
import Mathlib.Data.List.Dedup
import Mathlib.Data.List.Perm.Subperm

/-!
# What repaired pairing is

`Paired` says what a request needs: the messages other than tool results in their order, and
behind each of them one result for each of its calls, either an unused input result that
carries the id of the call, or, when no unused one is left, a placeholder. The relation does
not say which of several results is used.

`repairInto` reaches it from every history but one kind: with tool results that carry no id
and no calls at all, the early exit copies the orphans too.
-/

namespace KimixNative.Soul

/-- The input message at an index is a result that carries the id of the call. -/
def Answers (input : List MessageView) (tc : ToolCallView) (i : Nat) (m : MessageView) : Prop :=
  input[i]? = some m ∧ m.role = kRoleTool ∧ m.toolCallId = some (tc.id.getD [])

/-- The messages that answer a list of calls, one each, given the input indices used before
and after. -/
inductive Served (input : List MessageView) :
    List Nat → List ToolCallView → List MessageView → List Nat → Prop
  | nil (used : List Nat) : Served input used [] [] used
  | result {used used' : List Nat} {tc : ToolCallView} {calls : List ToolCallView} {i : Nat}
      {m : MessageView} {out : List MessageView} (hfresh : i ∉ used) (hm : Answers input tc i m)
      (hrest : Served input (i :: used) calls out used') :
      Served input used (tc :: calls) (m :: out) used'
  | missing {used used' : List Nat} {tc : ToolCallView} {calls : List ToolCallView}
      {out : List MessageView} (hnone : ∀ i m, Answers input tc i m → i ∈ used)
      (hrest : Served input used calls out used') :
      Served input used (tc :: calls) (placeholder tc :: out) used'

/-- The repaired form of a tail of the input. -/
inductive Paired (input : List MessageView) :
    List Nat → List MessageView → List MessageView → Prop
  | nil (used : List Nat) : Paired input used [] []
  | tool {used : List Nat} {mv : MessageView} {rest out : List MessageView}
      (hrole : mv.role = kRoleTool) (hrest : Paired input used rest out) :
      Paired input used (mv :: rest) out
  | message {used used' : List Nat} {mv : MessageView} {rest results out : List MessageView}
      (hrole : mv.role ≠ kRoleTool) (hcalls : Served input used mv.toolCalls results used')
      (hrest : Paired input used' rest out) :
      Paired input used (mv :: rest) (mv :: (results ++ out))

/-! ### Collecting -/

/-- The indices below `n` of the results that carry an id. -/
def resultsBelow (input : List MessageView) (n : Nat) (id : Bytes) : List Nat :=
  (List.range n).filter fun i => (input[i]?).bind resultId = some id

variable {input : List MessageView} {buckets : Buckets} {used : List Nat}

variable {i : Nat} {rest : List MessageView}

theorem mem_resultsBelow {n : Nat} {id : Bytes} :
    i ∈ resultsBelow input n id ↔ i < n ∧ (input[i]?).bind resultId = some id := by
  simp [resultsBelow]

theorem resultsBelow_succ (input : List MessageView) (n : Nat) (id : Bytes) :
    resultsBelow input (n + 1) id = resultsBelow input n id ++
      if (input[n]?).bind resultId = some id then [n] else [] := by
  rw [resultsBelow, List.range_succ, List.filter_append, resultsBelow]
  split_ifs with h <;> simp [h]

theorem nodup_resultsBelow (input : List MessageView) (n : Nat) (id : Bytes) :
    (resultsBelow input n id).Nodup := List.nodup_range.filter _

/-- The buckets hold the results below an index. -/
structure Collected (input : List MessageView) (i : Nat) (buckets : Buckets) : Prop where
  cursors : KeyedQueue.Within buckets
  waiting : ∀ id, KeyedQueue.waiting buckets id = resultsBelow input i id
  items : ∀ q ∈ buckets, q.items.length ≤ i
  keys : (buckets.map KeyedQueue.key).Nodup
  ids : ∀ id ∈ buckets.map KeyedQueue.key, id ∈ input.filterMap resultId

theorem collected_nil (input : List MessageView) : Collected input 0 [] where
  cursors := fun _ h => absurd h List.not_mem_nil
  waiting := fun _ => rfl
  items := fun _ h => absurd h List.not_mem_nil
  keys := List.nodup_nil
  ids := fun _ h => absurd h List.not_mem_nil

/-- A result goes behind the other results of its id. -/
theorem Collected.push {input : List MessageView} {i : Nat} {buckets : Buckets}
    (h : Collected input i buckets) {mv : MessageView} (hmv : input[i]? = some mv) {id : Bytes}
    (hid : resultId mv = some id) : Collected input (i + 1) (KeyedQueue.push buckets id i) := by
  have hmem : id ∈ input.filterMap resultId :=
    List.mem_filterMap.mpr ⟨mv, List.mem_of_getElem? hmv, hid⟩
  refine ⟨KeyedQueue.within_push h.cursors id i, fun id' => ?_,
    KeyedQueue.length_items_push h.items id i, ?_, ?_⟩
  · rw [KeyedQueue.waiting_push h.cursors, h.waiting, resultsBelow_succ, hmv, Option.bind_some, hid]
    simp only [Option.some.injEq, eq_comm]
  · rw [KeyedQueue.keys_push]
    split_ifs with hkey
    · exact h.keys
    · rw [List.nodup_append]
      refine ⟨h.keys, List.nodup_singleton id, fun a ha b hb => ?_⟩
      rintro rfl
      obtain rfl := List.mem_singleton.mp hb
      exact hkey ha
  · intro id' hid'
    rw [KeyedQueue.keys_push] at hid'
    split_ifs at hid' with hkey
    · exact h.ids id' hid'
    · obtain hid' | hid' := List.mem_append.mp hid'
      · exact h.ids id' hid'
      · exact List.mem_singleton.mp hid' ▸ hmem

theorem Collected.skip (h : Collected input i buckets) {mv : MessageView}
    (hmv : input[i]? = some mv) (hid : resultId mv = none) : Collected input (i + 1) buckets := by
  refine ⟨h.cursors, fun id => ?_, fun q hq => le_trans (h.items q hq) (Nat.le_succ i), h.keys,
    h.ids⟩
  rw [h.waiting, resultsBelow_succ, hmv, Option.bind_some, hid]
  simp

theorem Collected.collectResults (h : Collected input i buckets) (hrest : input.drop i = rest)
    (hi : i ≤ input.length) (hlen : input.length < 2 ^ 32) :
    Collected input input.length (Soul.collectResults i rest buckets) := by
  induction rest generalizing i buckets with
  | nil =>
    obtain rfl : i = input.length := le_antisymm hi (List.drop_eq_nil_iff.mp hrest)
    exact h
  | cons mv rest ih =>
    have hlt : i < input.length := by
      by_contra hge
      rw [List.drop_eq_nil_of_le (Nat.le_of_not_lt hge)] at hrest
      cases hrest
    rw [List.drop_eq_getElem_cons hlt] at hrest
    obtain ⟨hmv, hrest⟩ := List.cons.inj hrest
    have hget : input[i]? = some mv := by rw [List.getElem?_eq_getElem hlt, hmv]
    rw [Soul.collectResults]
    cases hid : resultId mv with
    | none => exact ih (h.skip hget hid) hrest hlt
    | some id =>
      dsimp only
      rw [Nat.mod_eq_of_lt (lt_trans hlt hlen)]
      exact ih (h.push hget hid) hrest hlt

/-! ### Claiming -/

/-- What waits has not been used, and everything else has. -/
structure Ready (input : List MessageView) (buckets : Buckets) (used : List Nat) : Prop where
  count : buckets.length ≤ 2 ^ 31
  items : ∀ q ∈ buckets, q.items.length < 2 ^ 32
  sub : ∀ id, (KeyedQueue.waiting buckets id).Sublist (resultsBelow input input.length id)
  used : ∀ id, ∀ i ∈ resultsBelow input input.length id,
    i ∈ used ↔ i ∉ KeyedQueue.waiting buckets id

theorem answers_iff {tc : ToolCallView} :
    (∃ m, Answers input tc i m) ↔ i ∈ resultsBelow input input.length (tc.id.getD []) := by
  rw [mem_resultsBelow]
  constructor
  · rintro ⟨m, hm, hrole, hid⟩
    refine ⟨(List.getElem?_eq_some_iff.mp hm).1, ?_⟩
    rw [hm, Option.bind_some, resultId, if_pos hrole, hid]
  · rintro ⟨-, hbind⟩
    obtain ⟨m, hm, hid⟩ := Option.bind_eq_some_iff.mp hbind
    unfold resultId at hid
    split_ifs at hid with hrole
    exact ⟨m, hm, hrole, hid⟩

theorem Collected.ready (h : Collected input input.length buckets) (hlen : input.length < 2 ^ 32)
    (hids : (input.filterMap resultId).dedup.length ≤ 2 ^ 31) : Ready input buckets [] := by
  refine ⟨?_, fun q hq => lt_of_le_of_lt (h.items q hq) hlen, fun id => ?_, fun id i hi => ?_⟩
  · have hsub : buckets.map KeyedQueue.key ⊆ (input.filterMap resultId).dedup := fun id hid =>
      List.mem_dedup.mpr (h.ids id hid)
    have hle := (List.subperm_of_subset h.keys hsub).length_le
    rw [List.length_map] at hle
    exact le_trans hle hids
  · rw [h.waiting]
  · rw [h.waiting]
    simp [hi]

/-- Taking the front of one id keeps the buckets ready, with one more index used. -/
theorem Ready.taken {buckets' : Buckets} (h : Ready input buckets used) {id : Bytes}
    (hmem : i ∈ resultsBelow input input.length id)
    (hfront : KeyedQueue.waiting buckets id = i :: KeyedQueue.waiting buckets' id)
    (hothers : ∀ id', id' ≠ id → KeyedQueue.waiting buckets' id' = KeyedQueue.waiting buckets id')
    (hlength : buckets'.length = buckets.length)
    (hitems : ∀ q' ∈ buckets', ∃ q ∈ buckets, q'.items = q.items) :
    Ready input buckets' (i :: used) := by
  refine ⟨hlength ▸ h.count, fun q' hq' => ?_, fun id' => ?_, fun id' j hj => ?_⟩
  · obtain ⟨q, hq, heq⟩ := hitems q' hq'
    exact heq ▸ h.items q hq
  · obtain rfl | hne := eq_or_ne id' id
    · have hsub := h.sub id'
      rw [hfront] at hsub
      exact (List.sublist_cons_self _ _).trans hsub
    · exact hothers id' hne ▸ h.sub id'
  · have hold := h.used id' j hj
    rw [List.mem_cons, hold]
    obtain rfl | hne := eq_or_ne id' id
    · have hnodup := (nodup_resultsBelow input input.length id').sublist (h.sub id')
      rw [hfront] at hnodup ⊢
      have hnot := (List.nodup_cons.mp hnodup).1
      rw [List.mem_cons, not_or]
      constructor
      · rintro (rfl | ⟨-, hj'⟩)
        · exact hnot
        · exact hj'
      · intro hj'
        by_cases hji : j = i
        · exact .inl hji
        · exact .inr ⟨hji, hj'⟩
    · have hji : j ≠ i := by
        rintro rfl
        have h1 := (mem_resultsBelow.mp hj).2
        have h2 := (mem_resultsBelow.mp hmem).2
        exact hne (Option.some.inj (h1.symm.trans h2))
      rw [hothers id' hne]
      simp [hji]

/-- A call takes an unused result of its id, or a placeholder when there is none. -/
theorem Ready.claimResult (h : Ready input buckets used) (tc : ToolCallView) :
    (Soul.claimResult input buckets tc = ([placeholder tc], buckets) ∧
        ∀ i m, Answers input tc i m → i ∈ used) ∨
      ∃ i m buckets', Soul.claimResult input buckets tc = ([m], buckets') ∧ i ∉ used ∧
        Answers input tc i m ∧ Ready input buckets' (i :: used) := by
  have hnone : KeyedQueue.waiting buckets (tc.id.getD []) = [] →
      ∀ i m, Answers input tc i m → i ∈ used := by
    intro hempty i m hm
    rw [h.used _ i (answers_iff.mp ⟨m, hm⟩), hempty]
    exact List.not_mem_nil
  cases hk : KeyedQueue.index buckets (tc.id.getD []) with
  | none =>
    refine .inl ⟨?_, hnone (KeyedQueue.waiting_of_index_none hk)⟩
    rw [Soul.claimResult, bucketOf, hk]
    rfl
  | some k =>
    obtain ⟨q, hq, -⟩ := KeyedQueue.index_eq_some hk
    have hlt : k < 2 ^ 31 := lt_of_lt_of_le (List.getElem?_eq_some_iff.mp hq).1 h.count
    have hbucket : bucketOf buckets (tc.id.getD []) = k := by
      rw [bucketOf, hk]
      exact toInt_ofNat (by unfold int32Max; omega)
    have hnonneg : ¬(k : Int) < 0 := by omega
    cases htake : KeyedQueue.takeAt (fun cursor => (cursor + 1) % 2 ^ 32) buckets k with
    | none =>
      refine .inl ⟨?_, hnone (KeyedQueue.takeAt_eq_none hk htake)⟩
      simp only [Soul.claimResult, hbucket, hnonneg, if_false, Int.toNat_natCast, htake]
    | some x =>
      obtain ⟨i, buckets'⟩ := x
      obtain ⟨hfront, hothers, hlength, hitems⟩ := KeyedQueue.takeAt_eq_some
        (fun q hq hcursor => Nat.mod_eq_of_lt (by have := h.items q hq; omega)) hk htake
      have hwait : i ∈ KeyedQueue.waiting buckets (tc.id.getD []) :=
        hfront ▸ List.mem_cons_self
      have hmem := (h.sub _).subset hwait
      obtain ⟨m, hm⟩ := answers_iff.mpr hmem
      refine .inr ⟨i, m, buckets', ?_, fun hused => (h.used _ i hmem).mp hused hwait, hm,
        h.taken hmem hfront hothers hlength hitems⟩
      simp only [Soul.claimResult, hbucket, hnonneg, if_false, Int.toNat_natCast, htake, hm.1,
        Option.toList_some]

/-- One message after the other takes its results. -/
theorem Ready.claimResults (h : Ready input buckets used) (calls : List ToolCallView) :
    ∃ used', Served input used calls (Soul.claimResults input calls buckets).1 used' ∧
      Ready input (Soul.claimResults input calls buckets).2 used' := by
  induction calls generalizing buckets used with
  | nil => exact ⟨used, .nil used, h⟩
  | cons tc calls ih =>
    rw [Soul.claimResults]
    obtain ⟨hclaim, hnone⟩ | ⟨i, m, buckets', hclaim, hfresh, hm, hready⟩ := h.claimResult tc
    · obtain ⟨used', hserved, hready⟩ := ih h
      rw [hclaim]
      exact ⟨used', .missing hnone hserved, hready⟩
    · obtain ⟨used', hserved, hready'⟩ := ih hready
      rw [hclaim]
      exact ⟨used', .result hfresh hm hserved, hready'⟩

theorem Ready.pairMessages (h : Ready input buckets used) (rest : List MessageView) :
    Paired input used rest (Soul.pairMessages input rest buckets) := by
  induction rest generalizing buckets used with
  | nil => exact .nil used
  | cons mv rest ih =>
    rw [Soul.pairMessages]
    split_ifs with hrole
    · exact .tool hrole (ih h)
    · obtain ⟨used', hserved, hready⟩ := h.claimResults mv.toolCalls
      exact .message hrole hserved (ih hready)

/-! ### The early exit -/

/-- Without calls, nothing but the messages that are no results can be in the output. -/
theorem Paired.role_ne {out : List MessageView} (h : Paired input used rest out)
    (hcalls : ∀ mv ∈ rest, mv.toolCalls = []) : ∀ mv ∈ out, mv.role ≠ kRoleTool := by
  induction h with
  | nil => exact fun mv hmv => absurd hmv List.not_mem_nil
  | tool _ _ ih => exact ih fun mv hmv => hcalls mv (List.mem_cons_of_mem _ hmv)
  | message hrole hserved _ ih =>
    rw [hcalls _ List.mem_cons_self] at hserved
    cases hserved
    intro mv hmv
    obtain rfl | hmv := List.mem_cons.mp hmv
    · exact hrole
    · exact ih (fun mv hmv => hcalls mv (List.mem_cons_of_mem _ hmv)) mv hmv

theorem paired_self (used : List Nat) (hcalls : ∀ mv ∈ rest, mv.toolCalls = [])
    (hrole : ∀ mv ∈ rest, mv.role ≠ kRoleTool) : Paired input used rest rest := by
  induction rest with
  | nil => exact .nil used
  | cons mv rest ih =>
    have hserved : Served input used mv.toolCalls [] used := by
      rw [hcalls mv List.mem_cons_self]
      exact .nil used
    exact .message (hrole mv List.mem_cons_self) hserved
      (ih (fun m hm => hcalls m (List.mem_cons_of_mem _ hm))
        fun m hm => hrole m (List.mem_cons_of_mem _ hm))

theorem anyCalls_eq_false : anyCalls input = false ↔ ∀ mv ∈ input, mv.toolCalls = [] := by
  simp [anyCalls]

/-- There is an id or a call to go by, or no tool result at all. -/
def Repairable (input : List MessageView) : Prop :=
  hasToolIds input = true ∨ anyCalls input = true ∨ ∀ mv ∈ input, mv.role ≠ kRoleTool

instance (input : List MessageView) : Decidable (Repairable input) :=
  inferInstanceAs (Decidable (_ ∨ _ ∨ _))

/-- Pairing is repaired only for repairable histories, and for all of them whose indices and
ids 32-bit numbers can tell apart. -/
theorem repairInto_paired (input : List MessageView) :
    (Paired input [] input (repairInto input) → Repairable input) ∧
      (Repairable input → input.length < 2 ^ 32 →
        (input.filterMap resultId).dedup.length ≤ 2 ^ 31 →
        Paired input [] input (repairInto input)) := by
  rw [repairInto]
  split_ifs with hexit
  · obtain ⟨hids, hany⟩ := hexit
    have hcalls := anyCalls_eq_false.mp hany
    constructor
    · intro hpaired
      exact .inr (.inr (hpaired.role_ne hcalls))
    · rintro (hids' | hany' | hrole) - -
      · rw [hids] at hids'
        cases hids'
      · rw [hany] at hany'
        cases hany'
      · exact paired_self [] hcalls hrole
  · constructor
    · intro _
      by_contra hnot
      simp only [Repairable, not_or, Bool.not_eq_true] at hnot
      exact hexit ⟨hnot.1, hnot.2.1⟩
    · intro _ hlen hids
      have hcollected := (collected_nil input).collectResults (List.drop_zero) (Nat.zero_le _) hlen
      exact (hcollected.ready hlen hids).pairMessages input

/-- A tool result without an id, in a history without calls. -/
def orphanResult : MessageView := ⟨kRoleTool, none, [⟨.text, some [111, 107]⟩], []⟩

/-- The orphan survives. -/
theorem repairInto_keeps_orphan :
    repairInto [orphanResult] = [orphanResult] ∧
      ¬ Paired [orphanResult] [] [orphanResult] (repairInto [orphanResult]) := by
  have hkept : repairInto [orphanResult] = [orphanResult] := by decide
  refine ⟨hkept, ?_⟩
  rw [hkept]
  intro h
  exact h.role_ne (by simp [orphanResult]) orphanResult List.mem_cons_self rfl

end KimixNative.Soul
