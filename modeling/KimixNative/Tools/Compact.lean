import KimixNative.Text.Utf8
import Mathlib.Algebra.BigOperators.Group.Finset.Sigma

/-!
# The boundary of a compaction

`resolve_preserve_split` cuts a history into the part that is summarised and the tail that is
preserved. It counts the turns of the user and the assistant from the end, snaps the boundary
to a cut at which as many tool results as tool calls have gone by, and keeps the first message
in front of the tail.

The pairing of results with calls is not part of a message here; the code counts both.
-/

namespace KimixNative.Tools.Compact

open Text

structure ContentPart where
  type : Bytes
  text : Bytes
  deriving DecidableEq, Repr

structure Message where
  role : Bytes
  content : List ContentPart := []
  toolCallCount : Nat := 0
  deriving DecidableEq, Repr

def roleUser : Bytes := ascii "user"
def roleAssistant : Bytes := ascii "assistant"
def roleTool : Bytes := ascii "tool"

/-- `is_user_or_assistant`. -/
def isUserOrAssistant (m : Message) : Bool := m.role == roleUser || m.role == roleAssistant

/-- `is_tool_call_part`. -/
def isToolCallPart (part : ContentPart) : Bool := part.type == ascii "tool_call"

/-- The calls of an assistant message: the persisted ones and the streamed ones. -/
def callCount (m : Message) : Nat :=
  if m.role = roleAssistant then m.toolCallCount + m.content.countP isToolCallPart else 0

def isTool (m : Message) : Bool := m.role == roleTool

/-- `message_tool_call_delta`. -/
def messageToolCallDelta (m : Message) : Int :=
  if m.role = roleAssistant then ((m.toolCallCount + m.content.countP isToolCallPart : Nat) : Int)
  else if m.role = roleTool then -1
  else 0

/-- `balanced_cuts_result`; `unbalanced` is the index of the offending tool result. -/
structure BalancedCutsResult where
  cuts : List Nat
  unbalanced : Option Nat
  deriving DecidableEq, Repr

/-- The loop of `balanced_cut_indices`, from message `i` on with `inProgress` open calls. -/
def balancedCutsFrom : Nat → Int → List Message → BalancedCutsResult
  | _, _, [] => ⟨[], none⟩
  | i, inProgress, m :: rest =>
    let inProgress := inProgress + messageToolCallDelta m
    if inProgress < 0 then ⟨[], some i⟩
    else
      let folds := balancedCutsFrom (i + 1) inProgress rest
      if inProgress = 0 then { folds with cuts := (i + 1) :: folds.cuts } else folds

/-- `balanced_cut_indices`. -/
def balancedCutIndices (messages : List Message) : BalancedCutsResult :=
  let folds := balancedCutsFrom 0 0 messages
  let cuts := 0 :: folds.cuts
  if folds.unbalanced.isSome then { folds with cuts := cuts }
  else if cuts.getLast? = some messages.length then { folds with cuts := cuts }
  else { folds with cuts := cuts ++ [messages.length] }

/-- `compact_largest_cut_at_most`. -/
def largestCutAtMost (cuts : List Nat) (limit : Nat) : Nat :=
  ((cuts.takeWhile fun c => decide (c ≤ limit)).getLast?).getD 0

/-- The walk back over the history, given from its end: where the `depth`-th turn begins. -/
def walkBack : List Message → Nat → Option Nat
  | [], _ => none
  | m :: rest, depth =>
    if isUserOrAssistant m then
      if depth = 1 then some rest.length else walkBack rest (depth - 1)
    else walkBack rest depth

/-- `preserve_split`. -/
structure PreserveSplit where
  compact : Bool := false
  preserveStartIndex : Nat := 0
  keepFirstMessage : Bool := false
  unbalanced : Bool := false
  recutFallback : Bool := false
  deriving DecidableEq, Repr

/-- The first message is not among those that are preserved. -/
def keepsFirst (messages : List Message) (start : Nat) : Bool :=
  match messages.head? with
  | none => false
  | some first => !(messages.drop start).contains first

/-- The second half of `resolve_preserve_split`, once the boundary has been snapped. -/
def splitAt (messages : List Message) (cuts : List Nat) (balancedCuts : Bool) (start : Nat) :
    PreserveSplit :=
  let keepFirst := keepsFirst messages start
  let toCompactLen := if keepFirst ∧ 0 < start then start - 1 else start
  if balancedCuts ∧ toCompactLen ∉ cuts then
    match (cuts.takeWhile fun c => decide (c < start)).getLast? with
    | some smaller =>
      if smaller = 0 then {} else { compact := true, preserveStartIndex := smaller }
    | none => { compact := true, preserveStartIndex := 1, recutFallback := true }
  else if toCompactLen = 0 then {}
  else { compact := true, preserveStartIndex := start, keepFirstMessage := keepFirst }

/-- `resolve_preserve_split`. -/
def resolvePreserveSplit (messages : List Message) (preserveDepth : Int) (balancedCuts : Bool) :
    PreserveSplit :=
  if messages = [] ∨ preserveDepth ≤ 0 then {}
  else
    match walkBack messages.reverse preserveDepth.toNat with
    | none => {}
    | some start =>
      if balancedCuts then
        let folds := balancedCutIndices messages
        if folds.unbalanced.isSome then { unbalanced := true }
        else splitAt messages folds.cuts true (largestCutAtMost folds.cuts start)
      else splitAt messages [] false start

/-! ### Ascending lists of cuts -/

variable {l : List Nat} {below : Nat → Bool} {c i : Nat}

theorem isGreatest_of_getLast? {g : Nat} (hl : l.Pairwise (· < ·)) (hg : l.getLast? = some g) :
    IsGreatest {c | c ∈ l} g := by
  obtain ⟨before, rfl⟩ := List.getLast?_eq_some_iff.mp hg
  refine ⟨List.mem_append_right _ (List.mem_singleton_self g), ?_⟩
  intro c hc
  rcases List.mem_append.mp hc with hc | hc
  · exact ((List.pairwise_append.mp hl).2.2 c hc g (List.mem_singleton_self g)).le
  · exact (List.mem_singleton.mp hc).le

/-- In an ascending list the elements below a bound come first. -/
theorem mem_takeWhile_of_pairwise (hl : l.Pairwise (· < ·))
    (hdown : ∀ a b, a < b → below b = true → below a = true) :
    c ∈ l.takeWhile below ↔ c ∈ l ∧ below c = true := by
  induction l with
  | nil => simp
  | cons a rest ih =>
    obtain ⟨hfirst, hrest⟩ := List.pairwise_cons.mp hl
    by_cases ha : below a = true
    · rw [List.takeWhile_cons_of_pos ha, List.mem_cons, ih hrest, List.mem_cons]
      constructor
      · rintro (rfl | ⟨hc, hbelow⟩)
        · exact ⟨Or.inl rfl, ha⟩
        · exact ⟨Or.inr hc, hbelow⟩
      · rintro ⟨rfl | hc, hbelow⟩
        · exact Or.inl rfl
        · exact Or.inr ⟨hc, hbelow⟩
    · rw [List.takeWhile_cons_of_neg ha]
      refine iff_of_false (List.not_mem_nil) ?_
      rintro ⟨hc, hbelow⟩
      rcases List.mem_cons.mp hc with rfl | hc
      · exact ha hbelow
      · exact ha (hdown a c (hfirst c hc) hbelow)

/-- The last element below a bound is the greatest one there. -/
theorem isGreatest_getLast?_takeWhile {g : Nat} (hl : l.Pairwise (· < ·))
    (hdown : ∀ a b, a < b → below b = true → below a = true)
    (hg : (l.takeWhile below).getLast? = some g) : IsGreatest {c | c ∈ l ∧ below c = true} g := by
  have hgreatest := isGreatest_of_getLast? (hl.sublist (List.takeWhile_sublist below)) hg
  simpa only [mem_takeWhile_of_pairwise hl hdown] using hgreatest

theorem exists_getLast?_takeWhile (hl : l.Pairwise (· < ·))
    (hdown : ∀ a b, a < b → below b = true → below a = true) (hc : c ∈ l) (hbelow : below c = true) :
    ∃ g, (l.takeWhile below).getLast? = some g := by
  have hmem : c ∈ l.takeWhile below := (mem_takeWhile_of_pairwise hl hdown).mpr ⟨hc, hbelow⟩
  cases hlast : (l.takeWhile below).getLast? with
  | some g => exact ⟨g, rfl⟩
  | none =>
    rw [List.getLast?_eq_none_iff.mp hlast] at hmem
    exact absurd hmem List.not_mem_nil

/-! ### The balanced cuts -/

/-- The open calls after the first `i` messages. -/
def openCalls (messages : List Message) (i : Nat) : Int :=
  ((messages.take i).map messageToolCallDelta).foldr (· + ·) 0

@[simp] theorem openCalls_zero (messages : List Message) : openCalls messages 0 = 0 := by
  simp [openCalls]

@[simp] theorem openCalls_cons (m : Message) (rest : List Message) (i : Nat) :
    openCalls (m :: rest) (i + 1) = messageToolCallDelta m + openCalls rest i := rfl

variable {messages : List Message}

variable {rest : List Message} {p : Nat} {split : PreserveSplit}

/-- A fold that meets no offending result has all the balanced places among its cuts. -/
theorem mem_balancedCutsFrom {d : Int} (hok : (balancedCutsFrom i d rest).unbalanced = none) :
    c ∈ (balancedCutsFrom i d rest).cuts ↔
      ∃ k, k < rest.length ∧ c = i + (k + 1) ∧ d + openCalls rest (k + 1) = 0 := by
  induction rest generalizing i d with
  | nil => simp [balancedCutsFrom]
  | cons m rest ih =>
    simp only [balancedCutsFrom] at hok ⊢
    by_cases hneg : d + messageToolCallDelta m < 0
    · rw [if_pos hneg] at hok
      cases hok
    · rw [if_neg hneg] at hok ⊢
      have hrest : (balancedCutsFrom (i + 1) (d + messageToolCallDelta m) rest).unbalanced =
          none := by
        split at hok <;> exact hok
      have hlater := ih hrest
      have hshift : (∃ k, k < rest.length ∧ c = i + 1 + (k + 1) ∧
          d + messageToolCallDelta m + openCalls rest (k + 1) = 0) ↔
          ∃ k, 0 < k ∧ k < rest.length + 1 ∧ c = i + (k + 1) ∧
            d + openCalls (m :: rest) (k + 1) = 0 := by
        constructor
        · rintro ⟨k, hk, rfl, hsum⟩
          exact ⟨k + 1, Nat.succ_pos k, by omega, by omega, by rw [openCalls_cons]; omega⟩
        · rintro ⟨k, hpos, hk, rfl, hsum⟩
          obtain ⟨k, rfl⟩ := Nat.exists_eq_succ_of_ne_zero hpos.ne'
          rw [openCalls_cons] at hsum
          exact ⟨k, by omega, by omega, by omega⟩
      have hfirst : d + openCalls (m :: rest) (0 + 1) = d + messageToolCallDelta m := by
        rw [openCalls_cons, openCalls_zero, Int.add_zero]
      by_cases hzero : d + messageToolCallDelta m = 0
      · rw [if_pos hzero, List.mem_cons, hlater, hshift]
        constructor
        · rintro (rfl | ⟨k, -, hk⟩)
          · exact ⟨0, Nat.succ_pos _, rfl, hfirst.trans hzero⟩
          · exact ⟨k, hk⟩
        · rintro ⟨k, hk⟩
          rcases Nat.eq_zero_or_pos k with rfl | hpos
          · exact Or.inl hk.2.1
          · exact Or.inr ⟨k, hpos, hk⟩
      · rw [if_neg hzero, hlater, hshift]
        constructor
        · rintro ⟨k, -, hk⟩
          exact ⟨k, hk⟩
        · rintro ⟨k, hk⟩
          refine ⟨k, Nat.pos_of_ne_zero ?_, hk⟩
          rintro rfl
          exact hzero (hfirst.symm.trans hk.2.2)

theorem balancedCutsFrom_pairwise (i : Nat) (d : Int) (rest : List Message) :
    (balancedCutsFrom i d rest).cuts.Pairwise (· < ·) ∧
      ∀ c ∈ (balancedCutsFrom i d rest).cuts, i < c ∧ c ≤ i + rest.length := by
  induction rest generalizing i d with
  | nil => simp [balancedCutsFrom]
  | cons m rest ih =>
    obtain ⟨hsorted, hbounds⟩ := ih (i + 1) (d + messageToolCallDelta m)
    have hwider : ∀ c ∈ (balancedCutsFrom (i + 1) (d + messageToolCallDelta m) rest).cuts,
        i < c ∧ c ≤ i + (m :: rest).length := by
      intro c hc
      have := hbounds c hc
      simp only [List.length_cons]
      omega
    simp only [balancedCutsFrom]
    split
    · simp
    · split
      · refine ⟨List.pairwise_cons.mpr ⟨fun c hc => (hbounds c hc).1, hsorted⟩, ?_⟩
        intro c hc
        rcases List.mem_cons.mp hc with rfl | hc
        · simp only [List.length_cons]
          omega
        · exact hwider c hc
      · exact ⟨hsorted, hwider⟩

/-- A place at which every call that was made is answered; the end of the history counts. -/
def BalancedCut (messages : List Message) (c : Nat) : Prop :=
  c ≤ messages.length ∧ (openCalls messages c = 0 ∨ c = messages.length)

theorem balancedCutIndices_unbalanced (messages : List Message) :
    (balancedCutIndices messages).unbalanced = (balancedCutsFrom 0 0 messages).unbalanced := by
  simp only [balancedCutIndices]
  split
  · rfl
  · split <;> rfl

/-- Without an offending result the cuts are the balanced places, in ascending order. -/
theorem mem_balancedCutIndices (hok : (balancedCutIndices messages).unbalanced = none) :
    c ∈ (balancedCutIndices messages).cuts ↔ BalancedCut messages c := by
  rw [balancedCutIndices_unbalanced] at hok
  have hmem : c ∈ 0 :: (balancedCutsFrom 0 0 messages).cuts ↔
      c ≤ messages.length ∧ openCalls messages c = 0 := by
    rw [List.mem_cons, mem_balancedCutsFrom hok]
    constructor
    · rintro (rfl | ⟨k, hk, rfl, hsum⟩)
      · exact ⟨Nat.zero_le _, openCalls_zero messages⟩
      · rw [Nat.zero_add, Int.zero_add] at *
        exact ⟨hk, hsum⟩
    · rintro ⟨hc, hsum⟩
      rcases c with _ | k
      · exact Or.inl rfl
      · exact Or.inr ⟨k, hc, (Nat.zero_add _).symm, by rw [Int.zero_add]; exact hsum⟩
  simp only [balancedCutIndices, hok, Option.isSome_none, Bool.false_eq_true, if_false]
  split
  · rename_i hlast
    rw [hmem, BalancedCut, and_congr_right_iff]
    intro _
    constructor
    · exact Or.inl
    · rintro (hsum | rfl)
      · exact hsum
      · have hin : messages.length ∈ 0 :: (balancedCutsFrom 0 0 messages).cuts :=
          List.mem_of_getLast? hlast
        exact (hmem.mp hin).2
  · rw [List.mem_append, hmem, List.mem_singleton, BalancedCut]
    constructor
    · rintro (⟨hc, hsum⟩ | rfl)
      · exact ⟨hc, Or.inl hsum⟩
      · exact ⟨le_rfl, Or.inr rfl⟩
    · rintro ⟨hc, hsum | rfl⟩
      · exact Or.inl ⟨hc, hsum⟩
      · exact Or.inr rfl

theorem balancedCutIndices_pairwise (messages : List Message) :
    (balancedCutIndices messages).cuts.Pairwise (· < ·) := by
  obtain ⟨hsorted, hbounds⟩ := balancedCutsFrom_pairwise 0 0 messages
  have hcons : (0 :: (balancedCutsFrom 0 0 messages).cuts).Pairwise (· < ·) :=
    List.pairwise_cons.mpr ⟨fun c hc => (hbounds c hc).1, hsorted⟩
  simp only [balancedCutIndices]
  split
  · exact hcons
  · split
    · exact hcons
    · rename_i hlast
      refine List.pairwise_append.mpr ⟨hcons, List.pairwise_singleton _ _, ?_⟩
      intro c hc n hn
      obtain rfl := List.mem_singleton.mp hn
      -- a cut at the end of the history would be the last of the ascending cuts
      obtain ⟨g, hg⟩ : ∃ g, (0 :: (balancedCutsFrom 0 0 messages).cuts).getLast? = some g :=
        ⟨_, List.getLast?_cons⟩
      have hgreatest := isGreatest_of_getLast? hcons hg
      have hlast' : g ≠ messages.length := by
        rintro rfl
        exact hlast hg
      have hbelow : g ≤ messages.length := by
        rcases List.mem_cons.mp hgreatest.1 with rfl | hin
        · exact Nat.zero_le _
        · have := (hbounds g hin).2
          omega
      have := hgreatest.2 hc
      omega

/-- With no more results than calls at any place, no result offends. -/
theorem balancedCutsFrom_ok {d : Int} (h : ∀ k, 0 ≤ d + openCalls rest k) :
    (balancedCutsFrom i d rest).unbalanced = none := by
  induction rest generalizing i d with
  | nil => rfl
  | cons m rest ih =>
    have hfirst : ¬ d + messageToolCallDelta m < 0 := by
      have := h 1
      rw [openCalls_cons, openCalls_zero] at this
      omega
    have hrest := ih (i := i + 1) (d := d + messageToolCallDelta m) fun k => by
      have := h (k + 1)
      rw [openCalls_cons] at this
      omega
    simp only [balancedCutsFrom, if_neg hfirst]
    split <;> exact hrest

/-- `compact_largest_cut_at_most` finds the greatest balanced cut up to the limit. -/
theorem isGreatest_largestCutAtMost (hok : (balancedCutIndices messages).unbalanced = none)
    (limit : Nat) :
    IsGreatest {c | BalancedCut messages c ∧ c ≤ limit}
      (largestCutAtMost (balancedCutIndices messages).cuts limit) := by
  have hsorted := balancedCutIndices_pairwise messages
  have hdown : ∀ a b : Nat, a < b → decide (b ≤ limit) = true → decide (a ≤ limit) = true := by
    intro a b hab hb
    have := of_decide_eq_true hb
    exact decide_eq_true (by omega)
  have hzero : 0 ∈ (balancedCutIndices messages).cuts :=
    (mem_balancedCutIndices hok).mpr ⟨Nat.zero_le _, Or.inl (openCalls_zero messages)⟩
  obtain ⟨g, hg⟩ := exists_getLast?_takeWhile hsorted hdown hzero (decide_eq_true limit.zero_le)
  have hgreatest := isGreatest_getLast?_takeWhile hsorted hdown hg
  rw [largestCutAtMost, hg]
  simpa only [mem_balancedCutIndices hok, decide_eq_true_eq, Option.getD_some] using hgreatest

/-! ### Where the preserved turns begin -/

/-- The `depth`-th turn of the user or the assistant, counted from the end, is message `i`. -/
def TurnStart (messages : List Message) (depth : Int) (i : Nat) : Prop :=
  ∃ before m after, messages = before ++ m :: after ∧ before.length = i ∧
    isUserOrAssistant m = true ∧ (after.countP isUserOrAssistant : Int) + 1 = depth

theorem walkBack_eq_some_iff {l : List Message} {depth : Nat} (hdepth : 0 < depth) :
    walkBack l depth = some i ↔
      ∃ after m before, l = after ++ m :: before ∧ before.length = i ∧
        isUserOrAssistant m = true ∧ after.countP isUserOrAssistant + 1 = depth := by
  induction l generalizing depth with
  | nil => simp [walkBack]
  | cons a rest ih =>
    simp only [walkBack]
    by_cases ha : isUserOrAssistant a = true
    · by_cases hone : depth = 1
      · subst hone
        rw [if_pos ha, if_pos rfl]
        constructor
        · rintro h
          exact ⟨[], a, rest, rfl, Option.some.inj h, ha, rfl⟩
        · rintro ⟨after, m, before, hl, hlen, -, hcount⟩
          cases after with
          | nil =>
            obtain ⟨rfl, rfl⟩ := List.cons.inj hl
            rw [hlen]
          | cons b after =>
            obtain ⟨rfl, rfl⟩ := List.cons.inj hl
            rw [List.countP_cons_of_pos ha] at hcount
            omega
      · rw [if_pos ha, if_neg hone, ih (by omega)]
        constructor
        · rintro ⟨after, m, before, rfl, hlen, hm, hcount⟩
          exact ⟨a :: after, m, before, rfl, hlen, hm,
            by rw [List.countP_cons_of_pos ha]; omega⟩
        · rintro ⟨after, m, before, hl, hlen, hm, hcount⟩
          cases after with
          | nil => exact absurd hcount.symm hone
          | cons b after =>
            obtain ⟨rfl, rfl⟩ := List.cons.inj hl
            rw [List.countP_cons_of_pos ha] at hcount
            exact ⟨after, m, before, rfl, hlen, hm, by omega⟩
    · rw [if_neg ha, ih hdepth]
      constructor
      · rintro ⟨after, m, before, rfl, hlen, hm, hcount⟩
        exact ⟨a :: after, m, before, rfl, hlen, hm,
          by rw [List.countP_cons_of_neg ha]; exact hcount⟩
      · rintro ⟨after, m, before, hl, hlen, hm, hcount⟩
        cases after with
        | nil =>
          obtain ⟨rfl, rfl⟩ := List.cons.inj hl
          exact absurd hm ha
        | cons b after =>
          obtain ⟨rfl, rfl⟩ := List.cons.inj hl
          rw [List.countP_cons_of_neg ha] at hcount
          exact ⟨after, m, before, rfl, hlen, hm, hcount⟩

variable {depth : Int}

theorem walkBack_reverse_iff (hdepth : 0 < depth) :
    walkBack messages.reverse depth.toNat = some i ↔ TurnStart messages depth i := by
  rw [walkBack_eq_some_iff (by omega)]
  constructor
  · rintro ⟨after, m, before, hl, hlen, hm, hcount⟩
    refine ⟨before.reverse, m, after.reverse, ?_, by rw [List.length_reverse, hlen], hm, ?_⟩
    · rw [← List.reverse_reverse messages, hl, List.reverse_append, List.reverse_cons,
        List.append_assoc, List.singleton_append]
    · rw [List.countP_reverse]
      omega
  · rintro ⟨before, m, after, rfl, hlen, hm, hcount⟩
    refine ⟨after.reverse, m, before.reverse, ?_, by rw [List.length_reverse, hlen], hm, ?_⟩
    · rw [List.reverse_append, List.reverse_cons, List.append_assoc, List.singleton_append]
    · rw [List.countP_reverse]
      omega

theorem TurnStart.lt_length (h : TurnStart messages depth i) : i < messages.length := by
  obtain ⟨before, m, after, rfl, rfl, -, -⟩ := h
  rw [List.length_append, List.length_cons]
  omega

theorem TurnStart.depth_pos (h : TurnStart messages depth i) : 0 < depth := by
  obtain ⟨before, m, after, -, -, -, hcount⟩ := h
  omega

/-- From the boundary on there are at least as many turns as asked for. -/
theorem TurnStart.le_countP (h : TurnStart messages depth i) (hp : p ≤ i) :
    depth ≤ ((messages.drop p).countP isUserOrAssistant : Int) := by
  obtain ⟨before, m, after, rfl, rfl, hm, hcount⟩ := h
  rw [List.drop_append_of_le_length hp, List.countP_append, List.countP_cons_of_pos hm]
  omega

/-! ### Results and calls -/

/-! ### At a balanced cut every call is answered -/

/-- The calls of message `a`. -/
def callsAt (messages : List Message) (a : Nat) : Nat := (messages[a]?.map callCount).getD 0

/-- Message `t` is a tool result. -/
def isToolAt (messages : List Message) (t : Nat) : Bool := messages[t]?.any isTool

/-- The tool results among the first `c` messages. -/
def resultsBefore (messages : List Message) (c : Nat) : Finset Nat :=
  (Finset.range c).filter fun t => isToolAt messages t = true

/-- The call slots of the first `c` messages. -/
def slotsBefore (messages : List Message) (c : Nat) : Finset ((_ : Nat) × Nat) :=
  (Finset.range c).sigma fun a => Finset.range (callsAt messages a)

theorem messageToolCallDelta_eq (m : Message) :
    messageToolCallDelta m = (callCount m : Int) - if isTool m then 1 else 0 := by
  simp only [messageToolCallDelta, callCount, isTool, beq_iff_eq]
  by_cases hassistant : m.role = roleAssistant
  · have htool : m.role ≠ roleTool := by
      rw [hassistant]
      decide
    rw [if_pos hassistant, if_pos hassistant, if_neg htool, Int.sub_zero]
  · rw [if_neg hassistant, if_neg hassistant]
    split <;> rfl

theorem openCalls_succ (c : Nat) : openCalls messages (c + 1) =
    openCalls messages c + (callsAt messages c : Int) - if isToolAt messages c then 1 else 0 := by
  induction messages generalizing c with
  | nil => simp [openCalls, callsAt, isToolAt]
  | cons m rest ih =>
    cases c with
    | zero =>
      rw [openCalls_cons, openCalls_zero, openCalls_zero, messageToolCallDelta_eq]
      simp [callsAt, isToolAt]
    | succ c =>
      have hcalls : callsAt (m :: rest) (c + 1) = callsAt rest c := rfl
      have htool : isToolAt (m :: rest) (c + 1) = isToolAt rest c := rfl
      rw [openCalls_cons, openCalls_cons, ih, hcalls, htool]
      omega

/-- The open calls are the calls less the results. -/
theorem openCalls_eq (messages : List Message) (c : Nat) :
    openCalls messages c = (slotsBefore messages c).card - (resultsBefore messages c).card := by
  induction c with
  | zero => simp [slotsBefore, resultsBefore]
  | succ c ih =>
    have hslots : (slotsBefore messages (c + 1)).card =
        (slotsBefore messages c).card + callsAt messages c := by
      simp only [slotsBefore, Finset.card_sigma, Finset.card_range, Finset.sum_range_succ]
    have hresults : (resultsBefore messages (c + 1)).card =
        (resultsBefore messages c).card + if isToolAt messages c then 1 else 0 := by
      simp only [resultsBefore, Finset.range_add_one, Finset.filter_insert]
      split
      · rw [Finset.card_insert_of_notMem (by simp)]
      · rfl
    rw [openCalls_succ, ih, hslots, hresults]
    split <;> push_cast <;> omega

/-- Each tool message answers a call of its own that was made earlier: the `slot`-th call of an
assistant message. -/
structure Pairing (messages : List Message) where
  call : Nat → (_ : Nat) × Nat
  earlier : ∀ t, isToolAt messages t = true → (call t).1 < t ∧ (call t).2 < callsAt messages (call t).1
  distinct : ∀ t t', isToolAt messages t = true → isToolAt messages t' = true →
    call t = call t' → t = t'

namespace Pairing

variable (pairing : Pairing messages)
include pairing

theorem mapsTo (c : Nat) :
    Set.MapsTo pairing.call (resultsBefore messages c) (slotsBefore messages c) := by
  intro t ht
  obtain ⟨htc, htool⟩ := Finset.mem_filter.mp (Finset.mem_coe.mp ht)
  obtain ⟨hearlier, hslot⟩ := pairing.earlier t htool
  refine Finset.mem_coe.mpr (Finset.mem_sigma.mpr ⟨?_, Finset.mem_range.mpr hslot⟩)
  exact Finset.mem_range.mpr (hearlier.trans (Finset.mem_range.mp htc))

theorem injOn (c : Nat) : Set.InjOn pairing.call (resultsBefore messages c) := by
  intro t ht t' ht' heq
  exact pairing.distinct t t' (Finset.mem_filter.mp (Finset.mem_coe.mp ht)).2
    (Finset.mem_filter.mp (Finset.mem_coe.mp ht')).2 heq

theorem openCalls_nonneg (c : Nat) : 0 ≤ openCalls messages c := by
  have := Finset.card_le_card_of_injOn pairing.call (pairing.mapsTo c) (pairing.injOn c)
  rw [openCalls_eq]
  omega

theorem unbalanced_none : (balancedCutIndices messages).unbalanced = none := by
  rw [balancedCutIndices_unbalanced]
  exact balancedCutsFrom_ok fun k => by
    rw [Int.zero_add]
    exact pairing.openCalls_nonneg k

/-- Where no call is open, every call that was made has its result. -/
theorem exists_result (hc : openCalls messages c = 0) {a slot : Nat} (ha : a < c)
    (hslot : slot < callsAt messages a) :
    ∃ t, t < c ∧ isToolAt messages t = true ∧ pairing.call t = ⟨a, slot⟩ := by
  have hcard : (slotsBefore messages c).card ≤ (resultsBefore messages c).card := by
    rw [openCalls_eq] at hc
    omega
  have hin : (⟨a, slot⟩ : (_ : Nat) × Nat) ∈ slotsBefore messages c :=
    Finset.mem_sigma.mpr ⟨Finset.mem_range.mpr ha, Finset.mem_range.mpr hslot⟩
  have hsurj := Finset.surjOn_of_injOn_of_card_le pairing.call (pairing.mapsTo c)
    (pairing.injOn c) hcard
  obtain ⟨t, ht, hcall⟩ := hsurj (Finset.mem_coe.mpr hin)
  obtain ⟨htc, htool⟩ := Finset.mem_filter.mp (Finset.mem_coe.mp ht)
  exact ⟨t, Finset.mem_range.mp htc, htool, hcall⟩

theorem result_before {t : Nat} (hc : BalancedCut messages c) (ht : isToolAt messages t = true)
    (hcall : (pairing.call t).1 < c) : t < c := by
  rcases hc.2 with hopen | rfl
  · obtain ⟨t', htc, ht', heq⟩ := pairing.exists_result hopen hcall (pairing.earlier t ht).2
    rwa [pairing.distinct t t' ht ht' heq.symm]
  · simp only [isToolAt, Option.any_eq_true] at ht
    obtain ⟨m, hm, -⟩ := ht
    exact (List.getElem?_eq_some_iff.mp hm).1

end Pairing

/-! ### The split -/

/-- Message `j` is in the preserved list of the split. -/
def Preserved (messages : List Message) (split : PreserveSplit) (j : Nat) : Prop :=
  (split.preserveStartIndex ≤ j ∧ j < messages.length) ∨ (split.keepFirstMessage = true ∧ j = 0)

/-- A compaction that splits no call from its result and preserves as many turns as asked for. -/
structure Sound (pairing : Pairing messages) (depth : Int) (split : PreserveSplit) : Prop where
  answered : ∀ t, isToolAt messages t = true →
    (pairing.call t).1 < split.preserveStartIndex → t < split.preserveStartIndex
  turns : depth ≤ ((messages.drop split.preserveStartIndex).countP isUserOrAssistant : Int)
  together : ∀ t, isToolAt messages t = true →
    (Preserved messages split t ↔ Preserved messages split (pairing.call t).1)

/-- The first message makes calls and is kept in front of the tail without their results: the
boundary `p`, the greatest balanced cut up to the turns asked for, stays where it is because the
place before it is a balanced cut too. -/
def FirstCallKept (messages : List Message) (depth : Int) : Prop :=
  ∃ i p, TurnStart messages depth i ∧ IsGreatest {c | BalancedCut messages c ∧ c ≤ i} p ∧
    1 < p ∧ BalancedCut messages (p - 1) ∧ keepsFirst messages p = true ∧ 0 < callsAt messages 0

/-- A boundary at a balanced cut up to the turns asked for, without the first message. -/
theorem sound_of_balancedCut (pairing : Pairing messages) (hi : TurnStart messages depth i)
    (hcut : BalancedCut messages split.preserveStartIndex) (hle : split.preserveStartIndex ≤ i)
    (hfirst : split.keepFirstMessage = true → callsAt messages 0 = 0) :
    Sound pairing depth split := by
  refine ⟨fun t ht => pairing.result_before hcut ht, hi.le_countP hle, ?_⟩
  intro t ht
  obtain ⟨hearlier, hslot⟩ := pairing.earlier t ht
  have hlen : t < messages.length := by
    simp only [isToolAt, Option.any_eq_true] at ht
    obtain ⟨m, hm, -⟩ := ht
    exact (List.getElem?_eq_some_iff.mp hm).1
  constructor
  · rintro (⟨hstart, -⟩ | ⟨-, rfl⟩)
    · refine Or.inl ⟨?_, by omega⟩
      by_contra hbefore
      have := pairing.result_before hcut ht (Nat.lt_of_not_le hbefore)
      omega
    · exact absurd hearlier (Nat.not_lt_zero _)
  · rintro (⟨hstart, -⟩ | ⟨hkeep, hzero⟩)
    · exact Or.inl ⟨by omega, hlen⟩
    · rw [hzero, hfirst hkeep] at hslot
      exact absurd hslot (Nat.not_lt_zero _)

theorem keepsFirst_zero (messages : List Message) : keepsFirst messages 0 = false := by
  cases messages with
  | nil => rfl
  | cons first rest => simp [keepsFirst]

/-- The boundary moved back: the largest of the cuts below it. -/
theorem exists_recut (hok : (balancedCutIndices messages).unbalanced = none) (hp : 0 < p) :
    ∃ q, ((balancedCutIndices messages).cuts.takeWhile fun c => decide (c < p)).getLast? = some q ∧
      BalancedCut messages q ∧ q < p := by
  have hsorted := balancedCutIndices_pairwise messages
  have hdown : ∀ a b : Nat, a < b → decide (b < p) = true → decide (a < p) = true := by
    intro a b hab hb
    have := of_decide_eq_true hb
    exact decide_eq_true (by omega)
  have hzero : 0 ∈ (balancedCutIndices messages).cuts :=
    (mem_balancedCutIndices hok).mpr ⟨Nat.zero_le _, Or.inl (openCalls_zero messages)⟩
  obtain ⟨q, hq⟩ := exists_getLast?_takeWhile hsorted hdown hzero (decide_eq_true hp)
  obtain ⟨hmem, hlt⟩ := (isGreatest_getLast?_takeWhile hsorted hdown hq).1
  exact ⟨q, hq, (mem_balancedCutIndices hok).mp hmem, of_decide_eq_true hlt⟩

theorem splitAt_keepsFirst (hok : (balancedCutIndices messages).unbalanced = none)
    (hfirst : keepsFirst messages p = true) (hp : 1 < p) (hbefore : BalancedCut messages (p - 1)) :
    splitAt messages (balancedCutIndices messages).cuts true p =
      { compact := true, preserveStartIndex := p, keepFirstMessage := true } := by
  have hin : p - 1 ∈ (balancedCutIndices messages).cuts := (mem_balancedCutIndices hok).mpr hbefore
  have hpos : p - 1 ≠ 0 := by omega
  simp only [splitAt, hfirst, true_and, if_pos (show 0 < p by omega), not_true_eq_false, hin,
    if_false, if_neg hpos]

/-- The boundary is kept or moved back to a smaller balanced cut; with the first message in
front it is kept only next to a balanced cut. -/
theorem splitAt_spec (hok : (balancedCutIndices messages).unbalanced = none)
    (hp : BalancedCut messages p)
    (hsplit : splitAt messages (balancedCutIndices messages).cuts true p = split)
    (hcompact : split.compact = true) :
    BalancedCut messages split.preserveStartIndex ∧ split.preserveStartIndex ≤ p ∧
      (split.keepFirstMessage = true →
        1 < p ∧ BalancedCut messages (p - 1) ∧ keepsFirst messages p = true) := by
  have hpin : p ∈ (balancedCutIndices messages).cuts := (mem_balancedCutIndices hok).mpr hp
  by_cases hfirst : keepsFirst messages p = true
  · have hpos : 0 < p := by
      rcases Nat.eq_zero_or_pos p with rfl | hpos
      · rw [keepsFirst_zero] at hfirst
        cases hfirst
      · exact hpos
    by_cases hbefore : BalancedCut messages (p - 1)
    · by_cases hone : 1 < p
      · rw [splitAt_keepsFirst hok hfirst hone hbefore] at hsplit
        subst hsplit
        exact ⟨hp, le_rfl, fun _ => ⟨hone, hbefore, hfirst⟩⟩
      · have hzero : p - 1 = 0 := by omega
        have hin : 0 ∈ (balancedCutIndices messages).cuts :=
          (mem_balancedCutIndices hok).mpr (hzero ▸ hbefore)
        simp only [splitAt, hfirst, true_and, if_pos hpos, hzero, hin, not_true_eq_false, if_false,
          if_true] at hsplit
        rw [← hsplit] at hcompact
        cases hcompact
    · have hnot : p - 1 ∉ (balancedCutIndices messages).cuts :=
        fun hin => hbefore ((mem_balancedCutIndices hok).mp hin)
      obtain ⟨q, hq, hcut, hlt⟩ := exists_recut hok hpos
      simp only [splitAt, hfirst, true_and, if_pos hpos, hnot, not_false_eq_true, if_true, hq]
        at hsplit
      split at hsplit
      · rw [← hsplit] at hcompact
        cases hcompact
      · rw [← hsplit]
        exact ⟨hcut, hlt.le, fun hkeep => nomatch hkeep⟩
  · have hfirst := Bool.eq_false_of_not_eq_true hfirst
    simp only [splitAt, hfirst, Bool.false_eq_true, false_and, if_false, hpin, not_true_eq_false,
      and_false] at hsplit
    split at hsplit
    · rw [← hsplit] at hcompact
      cases hcompact
    · rw [← hsplit]
      exact ⟨hp, le_rfl, fun hkeep => nomatch hkeep⟩

/-- The boundary of a history whose results are paired: snapped from the turns asked for. -/
theorem resolvePreserveSplit_eq (pairing : Pairing messages) (hi : TurnStart messages depth i) :
    resolvePreserveSplit messages depth true =
      splitAt messages (balancedCutIndices messages).cuts true
        (largestCutAtMost (balancedCutIndices messages).cuts i) := by
  have hne : ¬(messages = [] ∨ depth ≤ 0) := by
    rintro (rfl | hdepth)
    · exact absurd hi.lt_length (Nat.not_lt_zero _)
    · have := hi.depth_pos
      omega
  have hwalk := (walkBack_reverse_iff hi.depth_pos).mpr hi
  simp only [resolvePreserveSplit, if_neg hne, hwalk, if_true, pairing.unbalanced_none,
    Option.isSome_none, Bool.false_eq_true, if_false]

theorem exists_turnStart (hcompact : (resolvePreserveSplit messages depth true).compact = true) :
    ∃ i, TurnStart messages depth i := by
  simp only [resolvePreserveSplit] at hcompact
  split at hcompact
  · cases hcompact
  · rename_i hne
    split at hcompact
    · cases hcompact
    · rename_i i hwalk
      exact ⟨i, (walkBack_reverse_iff (by omega)).mp hwalk⟩

/-- A compaction keeps every call with its result unless the first message makes calls and is
put in front of the tail without their results. -/
theorem resolvePreserveSplit_sound_iff (pairing : Pairing messages) (depth : Int) :
    ((resolvePreserveSplit messages depth true).compact = true →
      Sound pairing depth (resolvePreserveSplit messages depth true)) ↔
      ¬FirstCallKept messages depth := by
  have hok := pairing.unbalanced_none
  constructor
  · rintro hsound ⟨i, p, hi, hp, hone, hbefore, hfirst, hcalls⟩
    have hsnap : largestCutAtMost (balancedCutIndices messages).cuts i = p :=
      (isGreatest_largestCutAtMost hok i).unique hp
    have hsplit := splitAt_keepsFirst hok hfirst hone hbefore
    rw [resolvePreserveSplit_eq pairing hi, hsnap, hsplit] at hsound
    have hopen : openCalls messages p = 0 := by
      rcases hp.1.1.2 with hopen | rfl
      · exact hopen
      · have := hi.lt_length
        have := hp.1.2
        omega
    -- the first call is kept at index zero, and its result lies before the boundary
    obtain ⟨t, htp, ht, hcall⟩ := pairing.exists_result hopen (by omega) hcalls
    have hearlier := (pairing.earlier t ht).1
    have htogether := ((hsound rfl).together t ht).mpr (Or.inr ⟨rfl, by rw [hcall]⟩)
    rcases htogether with ⟨hstart, -⟩ | ⟨-, rfl⟩
    · exact absurd htp (Nat.not_lt_of_le hstart)
    · exact absurd hearlier (Nat.not_lt_zero _)
  · intro hnot hcompact
    obtain ⟨i, hi⟩ := exists_turnStart hcompact
    have hp := isGreatest_largestCutAtMost hok i
    obtain ⟨hcut, hle, hkeep⟩ :=
      splitAt_spec hok hp.1.1 (resolvePreserveSplit_eq pairing hi).symm hcompact
    refine sound_of_balancedCut pairing hi hcut (hle.trans hp.1.2) ?_
    intro hfirst
    obtain ⟨hone, hbefore, hkeeps⟩ := hkeep hfirst
    by_contra hcalls
    exact hnot ⟨i, _, hi, hp, hone, hbefore, hkeeps, Nat.pos_of_ne_zero hcalls⟩

/-- A history that opens with a call and its result. -/
def callFirst : List Message :=
  [{ role := roleAssistant, toolCallCount := 1 }, { role := roleTool },
    { role := roleUser, content := [⟨ascii "text", ascii "go on"⟩] },
    { role := roleUser, content := [⟨ascii "text", ascii "and then"⟩] }]

theorem isToolAt_callFirst {t : Nat} (h : isToolAt callFirst t = true) : t = 1 := by
  rcases t with _ | _ | _ | _ | t
  · exact absurd h (by decide)
  · rfl
  · exact absurd h (by decide)
  · exact absurd h (by decide)
  · exact absurd h (by simp [isToolAt, callFirst])

def callFirstPairing : Pairing callFirst where
  call _ := ⟨0, 0⟩
  earlier t h := by
    rw [isToolAt_callFirst h]
    decide
  distinct t t' h h' _ := by rw [isToolAt_callFirst h, isToolAt_callFirst h']

/-- The call of the first message is preserved and its result is summarised. -/
theorem resolvePreserveSplit_callFirst :
    (resolvePreserveSplit callFirst 1 true).compact = true ∧
      ¬Sound callFirstPairing 1 (resolvePreserveSplit callFirst 1 true) := by
  refine ⟨by decide, fun hsound => ?_⟩
  have hkept : Preserved callFirst (resolvePreserveSplit callFirst 1 true) 0 :=
    Or.inr ⟨by decide, rfl⟩
  rcases (hsound.together 1 (by decide)).mpr hkept with ⟨hstart, -⟩ | ⟨-, hzero⟩
  · exact absurd hstart (by decide)
  · exact absurd hzero (by decide)

end KimixNative.Tools.Compact
