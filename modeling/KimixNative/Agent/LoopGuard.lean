import KimixNative.Agent.ToolArguments
import Mathlib.Data.Finset.Basic

/-!
# The loop guard

The guard watches the tool calls of a turn. Its counters are kept call by call, some for a step
and some for the whole turn. What it says of a call is compared with what the list of all calls
of the turn says. The two agree as long as canonical arguments are their own canonical form,
because the guard makes the calls of a step canonical once more when the step ends.
-/

namespace KimixNative.Agent

open Text

/-- `call_key`. -/
structure CallKey where
  tool : Bytes
  args : Bytes
  deriving DecidableEq, Repr

/-- `verdict`. -/
structure Verdict where
  reminder : Bytes := []
  forceStop : Bool := false
  deriving DecidableEq, Repr

/-- `kDiffArgsWarnThresholds`. -/
def diffArgsWarnThresholds : List Nat := [15, 25, 35]

/-! ## Reminders -/

def loopReminderText1 : Bytes := ascii <|
  "\n\n<system-reminder>\nStop repeating the same tool call with identical parameters. " ++
    "Try a different method or finish.\n</system-reminder>"

def loopReminderText2 (toolName : Bytes) (repeatCount : Nat) (canonicalArgs : Bytes) : Bytes :=
  ascii "\n\n<system-reminder>\nRepeated identical call:\n- tool: " ++ toolName ++
    ascii "\n- repeated_times: " ++ decimal repeatCount ++
    ascii "\n- arguments: " ++ canonicalArgs ++
    ascii "\nStop repeating. Choose a different action or finish.\n</system-reminder>"

def loopReminderText3 : Bytes := ascii <|
  "\n\n<system-reminder>\nDead-end loop detected. Stop all tool calls. " ++
    "Return a text-only summary of the problem and what is needed next.\n</system-reminder>"

def loopTurnTotalReminder (totalCalls : Nat) : Bytes :=
  ascii "\n\n<system-reminder>\nTool calls repeat " ++ decimal totalCalls ++
    ascii " times. Stop or finish.\n</system-reminder>"

def loopCycleReminderText : Bytes := ascii <|
  "\n\n<system-reminder>\nThis tool call already ran earlier this turn. " ++
    "Use the existing result or change approach.\n</system-reminder>"

def loopCycleReminderText2 (toolName : Bytes) (cycleCount : Nat) : Bytes :=
  ascii "\n\n<system-reminder>\n'" ++ toolName ++ ascii "' repeated " ++ decimal cycleCount ++
    ascii " times in a cycle. Stop using these arguments or finish.\n</system-reminder>"

def loopDiffArgsReminderText1 : Bytes := ascii <|
  "\n\n<system-reminder>\nSame tool called repeatedly with different args. " ++
    "Change approach or finish.\n</system-reminder>"

def loopDiffArgsReminderText2 (toolName : Bytes) (callCount : Nat) : Bytes :=
  ascii "\n\n<system-reminder>\n'" ++ toolName ++ ascii "' called " ++ decimal callCount ++
    ascii " times with different args. Stop or finish.\n</system-reminder>"

def loopDiffArgsReminderText3 (toolName : Bytes) (callCount : Nat) : Bytes :=
  ascii "\n\n<system-reminder>\n'" ++ toolName ++ ascii "' called " ++ decimal callCount ++
    ascii " times. Stop now. Change approach or finish.\n</system-reminder>"

/-- `make_diff_args_reminder`. -/
def makeDiffArgsReminder (toolName : Bytes) (callCount : Nat) : Bytes :=
  if callCount ≥ 40 then loopDiffArgsReminderText3 toolName callCount
  else if callCount ≤ 15 then loopDiffArgsReminderText1
  else if callCount ≤ 25 then loopDiffArgsReminderText2 toolName callCount
  else loopDiffArgsReminderText3 toolName callCount

/-- `build_repeat_reminder`. -/
def buildRepeatReminder (streak : Nat) (toolName canonicalArgs : Bytes) : Verdict :=
  if streak ≥ 16 then { reminder := loopReminderText3, forceStop := true }
  else if streak ≥ 12 then { reminder := loopReminderText3 }
  else if streak ≥ 8 then { reminder := loopReminderText2 toolName streak canonicalArgs }
  else if streak ≥ 3 then { reminder := loopReminderText1 }
  else {}

/-! ## The guard -/

/-- `ToolLoopGuard`. A map that is asked with `operator[]` is a function that is zero, or empty,
where nothing has been stored. -/
structure ToolLoopGuard where
  previousStepCalls : List CallKey := []
  currentStepCalls : List CallKey := []
  stepClosed : Bool := false
  dedupTriggered : Bool := false
  forceStopTurn : Bool := false
  forceStopReason : Bytes := []
  forceStopTool : Bytes := []
  forceStopArgs : Bytes := []
  seenCallKeys : Finset CallKey := ∅
  consecutiveKey : Option CallKey := none
  consecutiveCount : Nat := 0
  turnTotalCalls : Nat := 0
  callKeyCounts : CallKey → Nat := fun _ => 0
  toolCallCounts : Bytes → Nat := fun _ => 0
  toolWarnedAt : Bytes → List Nat := fun _ => []
  turnToolWarningIssued : Bool := false

/-- One turn of the loop that `advance_consecutive_streak` and `projected_streak_for_call` share. -/
def streakStep (s : Option CallKey × Nat) (key : CallKey) : Option CallKey × Nat :=
  if s.1 = some key then (s.1, s.2 + 1) else (some key, 1)

namespace ToolLoopGuard

variable (canon : Bytes → Bytes)

/-- `normalize_call_key`. -/
def normalizeCallKey (toolName argumentsJson : Bytes) : CallKey :=
  { tool := toolName, args := canon argumentsJson }

/-- `begin_turn`. -/
def beginTurn (_ : ToolLoopGuard) : ToolLoopGuard := {}

/-- `advance_consecutive_streak`. -/
def advanceConsecutiveStreak (g : ToolLoopGuard) (calls : List (Bytes × Bytes)) : ToolLoopGuard :=
  let s := (calls.map fun p => normalizeCallKey canon p.1 p.2).foldl streakStep
    (g.consecutiveKey, g.consecutiveCount)
  { g with consecutiveKey := s.1, consecutiveCount := s.2 }

/-- `begin_step`. -/
def beginStep (g : ToolLoopGuard) (previousCalls : List (Bytes × Bytes)) : ToolLoopGuard :=
  let keys := previousCalls.map fun p => normalizeCallKey canon p.1 p.2
  let g := { g with
    previousStepCalls := keys
    currentStepCalls := []
    stepClosed := false
    dedupTriggered := false
    forceStopTurn := false
    forceStopReason := []
    forceStopTool := []
    forceStopArgs := []
    turnToolWarningIssued := false }
  if keys = [] then
    { g with
      seenCallKeys := ∅, consecutiveKey := none, consecutiveCount := 0, callKeyCounts := fun _ => 0 }
  else
    let g := { g with seenCallKeys := g.seenCallKeys ∪ keys.toFinset }
    if g.consecutiveKey = none ∧ g.consecutiveCount = 0 then
      advanceConsecutiveStreak canon g previousCalls
    else g

/-- `end_step`. -/
def endStep (g : ToolLoopGuard) : List (Bytes × Bytes) × ToolLoopGuard :=
  let out := g.currentStepCalls.map fun key => (key.tool, key.args)
  if g.stepClosed then (out, g)
  else
    let g := advanceConsecutiveStreak canon g out
    (out, { g with
      seenCallKeys := g.seenCallKeys ∪ g.currentStepCalls.toFinset, stepClosed := true })

/-- `projected_streak_for_call`. -/
def projectedStreakForCall (g : ToolLoopGuard) (callIndex : Nat) : Nat :=
  ((g.currentStepCalls.take (callIndex + 1)).foldl streakStep
    (g.consecutiveKey, g.consecutiveCount)).2

/-- `mark_force_stop`. -/
def markForceStop (g : ToolLoopGuard) (reason : Bytes) (key : CallKey) : ToolLoopGuard :=
  { g with
    forceStopTurn := true
    forceStopReason := reason
    forceStopTool := key.tool
    forceStopArgs := key.args }

/-- The counters of `record_call`. -/
def countCall (g : ToolLoopGuard) (key : CallKey) : ToolLoopGuard :=
  { g with
    currentStepCalls := g.currentStepCalls ++ [key]
    turnTotalCalls := g.turnTotalCalls + 1
    toolCallCounts := Function.update g.toolCallCounts key.tool (g.toolCallCounts key.tool + 1)
    callKeyCounts := Function.update g.callKeyCounts key (g.callKeyCounts key + 1) }

/-- A call that has been made in an earlier step. -/
def repeatCheck (g : ToolLoopGuard) (key : CallKey) (repeatCount : Nat) : Bytes × ToolLoopGuard :=
  if key ∈ g.seenCallKeys then
    let v := buildRepeatReminder repeatCount key.tool key.args
    let g := { g with dedupTriggered := true }
    (v.reminder, if v.forceStop then g.markForceStop (ascii "adjacent-repeat") key else g)
  else ([], g)

/-- A call that comes back without a streak. -/
def cycleCheck (g : ToolLoopGuard) (key : CallKey) (cycleCount repeatCount : Nat) :
    Bytes × ToolLoopGuard :=
  if cycleCount ≥ 2 ∧ repeatCount ≤ 1 then
    (if cycleCount ≥ 3 then loopCycleReminderText2 key.tool cycleCount else loopCycleReminderText,
      if cycleCount ≥ 4 then g.markForceStop (ascii "cycle-repeat") key else g)
  else ([], g)

/-- A tool that is called again and again with other arguments. -/
def diffArgsCheck (g : ToolLoopGuard) (key : CallKey) (callCount : Nat) : Bytes × ToolLoopGuard :=
  if key ∉ g.seenCallKeys ∧ callCount ∈ diffArgsWarnThresholds ∧
      callCount ∉ g.toolWarnedAt key.tool ∧ g.turnToolWarningIssued = false then
    (makeDiffArgsReminder key.tool callCount,
      { g with
        toolWarnedAt :=
          Function.update g.toolWarnedAt key.tool (callCount :: g.toolWarnedAt key.tool)
        turnToolWarningIssued := true })
  else ([], g)

/-- The ceiling of calls of one tool. -/
def overuseCheck (g : ToolLoopGuard) (key : CallKey) (callCount : Nat) : ToolLoopGuard :=
  if key ∉ g.seenCallKeys ∧ callCount ≥ 40 then
    g.markForceStop (ascii "different-args-overuse") key
  else g

/-- The nudge of a long turn. -/
def turnTotalText (turnTotalCalls : Nat) : Bytes :=
  if turnTotalCalls ≥ 60 ∧ (turnTotalCalls = 60 ∨ (turnTotalCalls - 60) % 20 = 0) then
    loopTurnTotalReminder turnTotalCalls
  else []

/-- `record_call`. -/
def recordCall (g : ToolLoopGuard) (toolName argumentsJson : Bytes) : Verdict × ToolLoopGuard :=
  let key := normalizeCallKey canon toolName argumentsJson
  let callIndex := g.currentStepCalls.length
  let g := g.countCall key
  let callCount := g.toolCallCounts key.tool
  let cycleCount := g.callKeyCounts key
  let repeatCount := g.projectedStreakForCall callIndex
  let (reminderText, g) := g.repeatCheck key repeatCount
  let (cycleReminder, g) := g.cycleCheck key cycleCount repeatCount
  let (diffArgsReminderText, g) := g.diffArgsCheck key callCount
  let g := g.overuseCheck key callCount
  ({ reminder := reminderText ++ cycleReminder ++ diffArgsReminderText ++
      turnTotalText g.turnTotalCalls
     forceStop := g.forceStopTurn }, g)

/-- The calls of a step, one after the other. -/
def recordCalls (g : ToolLoopGuard) : List (Bytes × Bytes) → List Verdict × ToolLoopGuard
  | [] => ([], g)
  | call :: rest =>
    let (v, g) := recordCall canon g call.1 call.2
    let (vs, g) := g.recordCalls rest
    (v :: vs, g)

/-- The steps of a turn: each is begun with what the one before returned. -/
def runSteps (g : ToolLoopGuard) (previousCalls : List (Bytes × Bytes)) :
    List (List (Bytes × Bytes)) → List (List Verdict)
  | [] => []
  | step :: rest =>
    let (vs, g) := recordCalls canon (beginStep canon g previousCalls) step
    let (out, g) := endStep canon g
    vs :: g.runSteps out rest

/-- The verdicts of a turn, step by step. -/
def runTurn (g : ToolLoopGuard) (steps : List (List (Bytes × Bytes))) : List (List Verdict) :=
  runSteps canon g.beginTurn [] steps

end ToolLoopGuard

/-! ## What the calls of a turn say -/

/-- The numbers of a call. -/
structure CallNumbers where
  streak : Nat
  cycle : Nat
  toolCalls : Nat
  total : Nat
  seen : Bool

/-- The length of the run of equal calls that ends with `key`, behind `calls`. -/
def endingRun (calls : List CallKey) (key : CallKey) : Nat :=
  (calls.reverse.takeWhile (· == key)).length + 1

/-- The numbers of a call by the calls of earlier steps and those of its step before it. -/
def numbersAt (earlier before : List CallKey) (key : CallKey) : CallNumbers where
  streak := endingRun (earlier ++ before) key
  cycle := (earlier ++ before ++ [key]).count key
  toolCalls := ((earlier ++ before ++ [key]).map CallKey.tool).count key.tool
  total := (earlier ++ before ++ [key]).length
  seen := decide (key ∈ earlier)

namespace CallNumbers

/-- One of the three stop rules: a streak over steps, a cycle, a tool with other arguments. -/
def stops (n : CallNumbers) : Bool :=
  (n.seen && decide (n.streak ≥ 16)) || (decide (n.cycle ≥ 4) && decide (n.streak ≤ 1)) ||
    (!n.seen && decide (n.toolCalls ≥ 40))

/-- A warning is due. -/
def warns (n : CallNumbers) : Bool := !n.seen && decide (n.toolCalls ∈ diffArgsWarnThresholds)

def repeatText (n : CallNumbers) (key : CallKey) : Bytes :=
  if n.seen then (buildRepeatReminder n.streak key.tool key.args).reminder else []

def cycleText (n : CallNumbers) (key : CallKey) : Bytes :=
  if n.cycle ≥ 2 ∧ n.streak ≤ 1 then
    if n.cycle ≥ 3 then loopCycleReminderText2 key.tool n.cycle else loopCycleReminderText
  else []

end CallNumbers

/-- The numbers of the calls of a step behind `before`. -/
def stepNumbers (earlier before : List CallKey) : List CallKey → List CallNumbers
  | [] => []
  | key :: rest => numbersAt earlier before key :: stepNumbers earlier (before ++ [key]) rest

/-- The verdict of a call. A warning is given once in a step, and a stop stays for the step. -/
def expectedVerdict (earlier before : List CallKey) (key : CallKey) : Verdict :=
  let n := numbersAt earlier before key
  let warned := (stepNumbers earlier [] before).any CallNumbers.warns
  { reminder := n.repeatText key ++ n.cycleText key ++
      (if n.warns && !warned then makeDiffArgsReminder key.tool n.toolCalls else []) ++
      ToolLoopGuard.turnTotalText n.total
    forceStop := (stepNumbers earlier [] (before ++ [key])).any CallNumbers.stops }

def expectedStep (earlier before : List CallKey) : List CallKey → List Verdict
  | [] => []
  | key :: rest =>
    expectedVerdict earlier before key :: expectedStep earlier (before ++ [key]) rest

def expectedSteps (earlier : List CallKey) : List (List CallKey) → List (List Verdict)
  | [] => []
  | step :: rest => expectedStep earlier [] step :: expectedSteps (earlier ++ step) rest

/-- The verdicts that the calls of a turn call for. -/
def expectedTurn (canon : Bytes → Bytes) (steps : List (List (Bytes × Bytes))) :
    List (List Verdict) :=
  expectedSteps [] (steps.map fun step =>
    step.map fun call => ToolLoopGuard.normalizeCallKey canon call.1 call.2)

/-! ### Streaks -/

/-- The run of equal calls that the calls end with. -/
def endRun (calls : List CallKey) : Option CallKey × Nat := calls.foldl streakStep (none, 0)

theorem endRun_concat (calls : List CallKey) (key : CallKey) :
    endRun (calls ++ [key]) = (some key, endingRun calls key) := by
  induction calls using List.reverseRecOn generalizing key with
  | nil => rfl
  | append_singleton calls last ih =>
    have hfold : endRun (calls ++ [last] ++ [key]) = streakStep (endRun (calls ++ [last])) key := by
      rw [endRun, List.foldl_append]
      rfl
    have hrun : endingRun (calls ++ [last]) key =
        (if (last == key) = true then last :: calls.reverse.takeWhile (· == key)
          else []).length + 1 := by
      rw [endingRun, List.reverse_concat, List.takeWhile_cons]
    rw [hfold, ih, streakStep, hrun]
    by_cases hlast : last = key
    · rw [if_pos (congrArg some hlast), if_pos (beq_iff_eq.mpr hlast), hlast]
      rfl
    · rw [if_neg (fun h => hlast (Option.some.inj h)), if_neg (fun h => hlast (beq_iff_eq.mp h))]
      rfl

theorem foldl_streakStep (calls more : List CallKey) :
    more.foldl streakStep (endRun calls) = endRun (calls ++ more) := by
  rw [endRun, endRun, List.foldl_append]

variable {calls : List CallKey}

theorem endRun_ne_none (h : calls ≠ []) : (endRun calls).1 ≠ none := by
  rw [← List.dropLast_append_getLast h, endRun_concat]
  exact Option.some_ne_none _

theorem stepNumbers_concat (earlier before step : List CallKey) (key : CallKey) :
    stepNumbers earlier before (step ++ [key]) =
      stepNumbers earlier before step ++ [numbersAt earlier (before ++ step) key] := by
  induction step generalizing before with
  | nil => simp [stepNumbers]
  | cons first rest ih => simp [stepNumbers, ih]

/-! ### What the checks of a call change -/

namespace ToolLoopGuard

/-- Nothing has changed but what is warned of and stopped. -/
structure Keeps (g g' : ToolLoopGuard) : Prop where
  current : g'.currentStepCalls = g.currentStepCalls
  closed : g'.stepClosed = g.stepClosed
  seen : g'.seenCallKeys = g.seenCallKeys
  key : g'.consecutiveKey = g.consecutiveKey
  count : g'.consecutiveCount = g.consecutiveCount
  total : g'.turnTotalCalls = g.turnTotalCalls
  keyCounts : g'.callKeyCounts = g.callKeyCounts
  toolCounts : g'.toolCallCounts = g.toolCallCounts

theorem Keeps.trans {g g' g'' : ToolLoopGuard} (h : Keeps g g') (h' : Keeps g' g'') :
    Keeps g g'' :=
  ⟨h'.current.trans h.current, h'.closed.trans h.closed, h'.seen.trans h.seen, h'.key.trans h.key,
    h'.count.trans h.count, h'.total.trans h.total, h'.keyCounts.trans h.keyCounts,
    h'.toolCounts.trans h.toolCounts⟩

theorem Keeps.refl (g : ToolLoopGuard) : Keeps g g := ⟨rfl, rfl, rfl, rfl, rfl, rfl, rfl, rfl⟩

theorem keeps_markForceStop (g : ToolLoopGuard) (reason : Bytes) (key : CallKey) :
    Keeps g (g.markForceStop reason key) := ⟨rfl, rfl, rfl, rfl, rfl, rfl, rfl, rfl⟩

/-- The warnings are as before. -/
structure SameWarnings (g g' : ToolLoopGuard) : Prop where
  warnedAt : g'.toolWarnedAt = g.toolWarnedAt
  issued : g'.turnToolWarningIssued = g.turnToolWarningIssued

variable (g : ToolLoopGuard) (key : CallKey)

theorem repeatCheck_spec (streak : Nat) :
    Keeps g (g.repeatCheck key streak).2 ∧ SameWarnings g (g.repeatCheck key streak).2 ∧
      (g.repeatCheck key streak).1 =
        (if key ∈ g.seenCallKeys then (buildRepeatReminder streak key.tool key.args).reminder
          else []) ∧
      (g.repeatCheck key streak).2.forceStopTurn =
        (g.forceStopTurn || (decide (key ∈ g.seenCallKeys) && decide (streak ≥ 16))) := by
  have hstop : (buildRepeatReminder streak key.tool key.args).forceStop = decide (streak ≥ 16) := by
    unfold buildRepeatReminder
    split
    · rename_i h
      exact (decide_eq_true h).symm
    · rename_i h
      rw [decide_eq_false h]
      split_ifs <;> rfl
  have hdup : Keeps g { g with dedupTriggered := true } := ⟨rfl, rfl, rfl, rfl, rfl, rfl, rfl, rfl⟩
  by_cases hseen : key ∈ g.seenCallKeys
  · rw [repeatCheck, if_pos hseen, if_pos hseen, decide_eq_true hseen, Bool.true_and]
    dsimp only
    rw [hstop]
    by_cases hstreak : streak ≥ 16
    · rw [decide_eq_true hstreak, if_pos rfl, Bool.or_true]
      exact ⟨hdup.trans (keeps_markForceStop _ _ _), ⟨rfl, rfl⟩, rfl, rfl⟩
    · rw [decide_eq_false hstreak, if_neg Bool.false_ne_true, Bool.or_false]
      exact ⟨hdup, ⟨rfl, rfl⟩, rfl, rfl⟩
  · rw [repeatCheck, if_neg hseen, if_neg hseen, decide_eq_false hseen, Bool.false_and,
      Bool.or_false]
    exact ⟨.refl g, ⟨rfl, rfl⟩, rfl, rfl⟩

theorem cycleCheck_spec (cycle streak : Nat) :
    Keeps g (g.cycleCheck key cycle streak).2 ∧ SameWarnings g (g.cycleCheck key cycle streak).2 ∧
      (g.cycleCheck key cycle streak).1 =
        (if cycle ≥ 2 ∧ streak ≤ 1 then
          if cycle ≥ 3 then loopCycleReminderText2 key.tool cycle else loopCycleReminderText
        else []) ∧
      (g.cycleCheck key cycle streak).2.forceStopTurn =
        (g.forceStopTurn || (decide (cycle ≥ 4) && decide (streak ≤ 1))) := by
  by_cases hcycle : cycle ≥ 2 ∧ streak ≤ 1
  · rw [cycleCheck, if_pos hcycle, if_pos hcycle, decide_eq_true hcycle.2, Bool.and_true]
    dsimp only
    by_cases hstop : cycle ≥ 4
    · rw [if_pos hstop, decide_eq_true hstop, Bool.or_true]
      exact ⟨keeps_markForceStop _ _ _, ⟨rfl, rfl⟩, rfl, rfl⟩
    · rw [if_neg hstop, decide_eq_false hstop, Bool.or_false]
      exact ⟨.refl g, ⟨rfl, rfl⟩, rfl, rfl⟩
  · have hstop : (decide (cycle ≥ 4) && decide (streak ≤ 1)) = false := by
      rw [Bool.and_eq_false_iff, decide_eq_false_iff_not, decide_eq_false_iff_not]
      omega
    rw [cycleCheck, if_neg hcycle, if_neg hcycle, hstop, Bool.or_false]
    exact ⟨.refl g, ⟨rfl, rfl⟩, rfl, rfl⟩

theorem diffArgsCheck_spec (calls : Nat) (hfresh : calls ∉ g.toolWarnedAt key.tool) :
    Keeps g (g.diffArgsCheck key calls).2 ∧
      (g.diffArgsCheck key calls).2.forceStopTurn = g.forceStopTurn ∧
      (g.diffArgsCheck key calls).1 =
        (if (!decide (key ∈ g.seenCallKeys) && decide (calls ∈ diffArgsWarnThresholds)) &&
            !g.turnToolWarningIssued then makeDiffArgsReminder key.tool calls else []) ∧
      (g.diffArgsCheck key calls).2.turnToolWarningIssued =
        (g.turnToolWarningIssued ||
          (!decide (key ∈ g.seenCallKeys) && decide (calls ∈ diffArgsWarnThresholds))) ∧
      ∀ tool n, n ∈ (g.diffArgsCheck key calls).2.toolWarnedAt tool →
        n ∈ g.toolWarnedAt tool ∨ tool = key.tool ∧ n = calls := by
  by_cases hwarns : key ∉ g.seenCallKeys ∧ calls ∈ diffArgsWarnThresholds
  · rw [decide_eq_false hwarns.1, decide_eq_true hwarns.2]
    cases hissued : g.turnToolWarningIssued with
    | false =>
      rw [diffArgsCheck, if_pos ⟨hwarns.1, hwarns.2, hfresh, hissued⟩]
      refine ⟨⟨rfl, rfl, rfl, rfl, rfl, rfl, rfl, rfl⟩, rfl, rfl, rfl, ?_⟩
      intro tool n hn
      by_cases htool : tool = key.tool
      · subst htool
        simp only [Function.update_self, List.mem_cons] at hn
        exact hn.elim (fun h => .inr ⟨rfl, h⟩) .inl
      · simp only [Function.update_of_ne htool] at hn
        exact .inl hn
    | true =>
      rw [diffArgsCheck, if_neg (fun h => by rw [hissued] at h; cases h.2.2.2)]
      exact ⟨.refl g, rfl, rfl, hissued, fun _ _ h => .inl h⟩
  · have hdue : (!decide (key ∈ g.seenCallKeys) && decide (calls ∈ diffArgsWarnThresholds)) =
        false := by
      rw [Bool.eq_false_iff]
      intro h
      simp only [Bool.and_eq_true, Bool.not_eq_true', decide_eq_false_iff_not,
        decide_eq_true_eq] at h
      exact hwarns h
    rw [hdue, diffArgsCheck, if_neg (fun h => hwarns ⟨h.1, h.2.1⟩)]
    exact ⟨.refl g, rfl, rfl, (Bool.or_false _).symm, fun _ _ h => .inl h⟩

theorem overuseCheck_spec (calls : Nat) :
    Keeps g (g.overuseCheck key calls) ∧ SameWarnings g (g.overuseCheck key calls) ∧
      (g.overuseCheck key calls).forceStopTurn =
        (g.forceStopTurn || (!decide (key ∈ g.seenCallKeys) && decide (calls ≥ 40))) := by
  by_cases hover : key ∉ g.seenCallKeys ∧ calls ≥ 40
  · rw [overuseCheck, if_pos hover, decide_eq_false hover.1, decide_eq_true hover.2]
    exact ⟨keeps_markForceStop _ _ _, ⟨rfl, rfl⟩, (Bool.or_true _).symm⟩
  · have hno : (!decide (key ∈ g.seenCallKeys) && decide (calls ≥ 40)) = false := by
      rw [Bool.eq_false_iff]
      intro h
      simp only [Bool.and_eq_true, Bool.not_eq_true', decide_eq_false_iff_not,
        decide_eq_true_eq] at h
      exact hover h
    rw [overuseCheck, if_neg hover, hno, Bool.or_false]
    exact ⟨.refl g, ⟨rfl, rfl⟩, rfl⟩

/-! ### The guard behind the calls of a turn -/

/-- The counters of the turn are those of `calls`. -/
structure Tallied (calls : List CallKey) (g : ToolLoopGuard) : Prop where
  total : g.turnTotalCalls = calls.length
  keyCounts : ∀ key, g.callKeyCounts key = calls.count key
  toolCounts : ∀ tool, g.toolCallCounts tool = (calls.map CallKey.tool).count tool
  warnedAt : ∀ tool n, n ∈ g.toolWarnedAt tool → n ≤ (calls.map CallKey.tool).count tool

/-- Within a step: `earlier` are the calls of the steps before it, `before` those it has had. -/
structure During (earlier before : List CallKey) (g : ToolLoopGuard) : Prop where
  tallied : Tallied (earlier ++ before) g
  current : g.currentStepCalls = before
  closed : g.stepClosed = false
  seen : ∀ key, key ∈ g.seenCallKeys ↔ key ∈ earlier
  streak : (g.consecutiveKey, g.consecutiveCount) = endRun earlier
  warned : g.turnToolWarningIssued = (stepNumbers earlier [] before).any CallNumbers.warns
  stopped : g.forceStopTurn = (stepNumbers earlier [] before).any CallNumbers.stops

/-- Between two steps. -/
structure Between (calls : List CallKey) (g : ToolLoopGuard) : Prop where
  tallied : Tallied calls g
  seen : ∀ key, key ∈ g.seenCallKeys ↔ key ∈ calls
  streak : (g.consecutiveKey, g.consecutiveCount) = endRun calls

theorem Tallied.countCall {g : ToolLoopGuard} (h : Tallied calls g) (key : CallKey) :
    Tallied (calls ++ [key]) (g.countCall key) where
  total := by
    rw [ToolLoopGuard.countCall, h.total, List.length_append]
    rfl
  keyCounts := by
    intro other
    rw [List.count_append, List.count_singleton]
    by_cases hkey : other = key
    · subst hkey
      rw [if_pos (beq_self_eq_true _), ← h.keyCounts]
      exact Function.update_self _ _ _
    · rw [if_neg (fun he => hkey (beq_iff_eq.mp he).symm), Nat.add_zero, ← h.keyCounts]
      exact Function.update_of_ne hkey _ _
  toolCounts := by
    intro tool
    rw [List.map_append, List.count_append, List.map_singleton, List.count_singleton]
    by_cases htool : tool = key.tool
    · subst htool
      rw [if_pos (beq_self_eq_true _), ← h.toolCounts]
      exact Function.update_self _ _ _
    · rw [if_neg (fun he => htool (beq_iff_eq.mp he).symm), Nat.add_zero, ← h.toolCounts]
      exact Function.update_of_ne htool _ _
  warnedAt := by
    intro tool n hn
    rw [List.map_append, List.count_append]
    exact Nat.le_add_right_of_le (h.warnedAt tool n hn)

variable {earlier : List CallKey}

/-- The checks of a call give what the numbers of the call say. -/
theorem recordCall_spec (canon : Bytes → Bytes) {before : List CallKey} {g : ToolLoopGuard}
    (h : During earlier before g) (tool args : Bytes) :
    (recordCall canon g tool args).1 =
        expectedVerdict earlier before (normalizeCallKey canon tool args) ∧
      During earlier (before ++ [normalizeCallKey canon tool args])
        (recordCall canon g tool args).2 := by
  obtain ⟨key, hkey⟩ : ∃ key, normalizeCallKey canon tool args = key := ⟨_, rfl⟩
  have htallied := h.tallied.countCall key
  obtain ⟨n, hn⟩ : ∃ n, numbersAt earlier before key = n := ⟨_, rfl⟩
  have hcalls : (g.countCall key).toolCallCounts key.tool = n.toolCalls := by
    rw [htallied.toolCounts, ← hn]
    rfl
  have hcycle : (g.countCall key).callKeyCounts key = n.cycle := by
    rw [htallied.keyCounts, ← hn]
    rfl
  have htotal : (g.countCall key).turnTotalCalls = n.total := by
    rw [htallied.total, ← hn]
    rfl
  have hseen : decide (key ∈ (g.countCall key).seenCallKeys) = n.seen := by
    rw [← hn, numbersAt, decide_eq_decide]
    exact h.seen key
  have hstreak : (g.countCall key).projectedStreakForCall g.currentStepCalls.length = n.streak := by
    have htake : (g.currentStepCalls ++ [key]).take (g.currentStepCalls.length + 1) =
        before ++ [key] := by
      rw [List.take_of_length_le (by rw [List.length_append]; rfl), h.current]
    rw [← hn, projectedStreakForCall]
    exact (congrArg (fun l => (List.foldl streakStep _ l).2) htake).trans (by
      rw [show ((g.countCall key).consecutiveKey, (g.countCall key).consecutiveCount) =
        endRun earlier from h.streak, foldl_streakStep, ← List.append_assoc, endRun_concat]
      rfl)
  have hfresh : n.toolCalls ∉ g.toolWarnedAt key.tool := by
    intro hmem
    have hle := h.tallied.warnedAt key.tool _ hmem
    have hmore : n.toolCalls = ((earlier ++ before).map CallKey.tool).count key.tool + 1 := by
      rw [← hcalls, ← h.tallied.toolCounts]
      exact Function.update_self _ _ _
    omega
  obtain ⟨r1, hr1⟩ : ∃ r1, (g.countCall key).repeatCheck key n.streak = r1 := ⟨_, rfl⟩
  obtain ⟨r2, hr2⟩ : ∃ r2, r1.2.cycleCheck key n.cycle n.streak = r2 := ⟨_, rfl⟩
  obtain ⟨r3, hr3⟩ : ∃ r3, r2.2.diffArgsCheck key n.toolCalls = r3 := ⟨_, rfl⟩
  obtain ⟨g', hg'⟩ : ∃ g', r3.2.overuseCheck key n.toolCalls = g' := ⟨_, rfl⟩
  have hrecord : recordCall canon g tool args =
      ({ reminder := r1.1 ++ r2.1 ++ r3.1 ++ turnTotalText g'.turnTotalCalls
         forceStop := g'.forceStopTurn }, g') := by
    simp only [recordCall, hkey, hcalls, hcycle, hstreak, hr1, hr2, hr3, hg']
  obtain ⟨hkeep1, hwarn1, htext1, hstop1⟩ := hr1 ▸ repeatCheck_spec (g.countCall key) key n.streak
  obtain ⟨hkeep2, hwarn2, htext2, hstop2⟩ := hr2 ▸ cycleCheck_spec r1.2 key n.cycle n.streak
  have hat : r2.2.toolWarnedAt = g.toolWarnedAt := hwarn2.warnedAt.trans hwarn1.warnedAt
  obtain ⟨hkeep3, hstop3, htext3, hissued3, hwarned3⟩ :=
    hr3 ▸ diffArgsCheck_spec r2.2 key n.toolCalls (by rw [hat]; exact hfresh)
  obtain ⟨hkeep4, hwarn4, hstop4⟩ := hg' ▸ overuseCheck_spec r3.2 key n.toolCalls
  have hkeep := hkeep1.trans (hkeep2.trans (hkeep3.trans hkeep4))
  have hnumbers : stepNumbers earlier [] (before ++ [key]) = stepNumbers earlier [] before ++ [n] := by
    rw [stepNumbers_concat, List.nil_append, hn]
  have hissued : r2.2.turnToolWarningIssued =
      (stepNumbers earlier [] before).any CallNumbers.warns := by
    rw [hwarn2.issued, hwarn1.issued]
    exact h.warned
  have hstopped : g'.forceStopTurn =
      (stepNumbers earlier [] (before ++ [key])).any CallNumbers.stops := by
    have hstart : (g.countCall key).forceStopTurn =
        (stepNumbers earlier [] before).any CallNumbers.stops := h.stopped
    rw [hstop4, hstop3, hstop2, hstop1, hstart, hkeep3.seen, hkeep2.seen, hkeep1.seen, hseen,
      hnumbers, List.any_append, List.any_cons, List.any_nil, Bool.or_false, CallNumbers.stops]
    simp only [Bool.or_assoc]
  have hwarned : g'.turnToolWarningIssued =
      (stepNumbers earlier [] (before ++ [key])).any CallNumbers.warns := by
    rw [hwarn4.issued, hissued3, hissued, hkeep2.seen, hkeep1.seen, hseen, hnumbers,
      List.any_append, List.any_cons, List.any_nil, Bool.or_false]
    rfl
  have hreminder : r1.1 ++ r2.1 ++ r3.1 ++ turnTotalText g'.turnTotalCalls =
      (expectedVerdict earlier before key).reminder := by
    have hrepeat : r1.1 = n.repeatText key :=
      htext1.trans (if_congr (by rw [← hseen, decide_eq_true_iff]) rfl rfl)
    rw [hrepeat, htext2, htext3, hkeep.total, htotal, hissued, hkeep2.seen, hkeep1.seen, hseen,
      expectedVerdict, hn]
    rfl
  rw [hrecord, hkey]
  refine ⟨?_, ?_⟩
  · dsimp only
    rw [hreminder, hstopped, expectedVerdict]
  · refine ⟨⟨?_, ?_, ?_, ?_⟩, ?_, ?_, ?_, ?_, hwarned, hstopped⟩ <;> dsimp only
    · rw [hkeep.total, htallied.total, List.append_assoc]
    · intro other
      rw [hkeep.keyCounts, htallied.keyCounts, List.append_assoc]
    · intro tool
      rw [hkeep.toolCounts, htallied.toolCounts, List.append_assoc]
    · intro tool m hm
      rw [hwarn4.warnedAt] at hm
      rw [← List.append_assoc]
      rcases hwarned3 tool m hm with hm | ⟨rfl, rfl⟩
      · rw [hat] at hm
        exact htallied.warnedAt tool m hm
      · rw [← hcalls, htallied.toolCounts]
    · rw [hkeep.current, ← h.current]
      rfl
    · rw [hkeep.closed]
      exact h.closed
    · intro other
      rw [hkeep.seen]
      exact h.seen other
    · rw [hkeep.key, hkeep.count]
      exact h.streak

/-- The calls of a step get the verdicts they call for. -/
theorem recordCalls_spec (canon : Bytes → Bytes) {before : List CallKey} {g : ToolLoopGuard}
    (h : During earlier before g) (step : List (Bytes × Bytes)) :
    (recordCalls canon g step).1 =
        expectedStep earlier before (step.map fun c => normalizeCallKey canon c.1 c.2) ∧
      During earlier (before ++ step.map fun c => normalizeCallKey canon c.1 c.2)
        (recordCalls canon g step).2 := by
  induction step generalizing before g with
  | nil =>
    rw [List.map_nil, List.append_nil]
    exact ⟨rfl, h⟩
  | cons call rest ih =>
    obtain ⟨hverdict, hafter⟩ := recordCall_spec canon h call.1 call.2
    obtain ⟨hverdicts, hend⟩ := ih hafter
    rw [List.append_assoc, List.singleton_append] at hend
    refine ⟨?_, hend⟩
    rw [List.map_cons, expectedStep, ← hverdict, ← hverdicts]
    rfl

/-! ### Steps -/

variable {canon : Bytes → Bytes}

/-- Calls made canonical once more are as they were. -/
theorem map_normalize_pairs {keys : List CallKey} (hfixed : ∀ key ∈ keys, canon key.args = key.args) :
    ((keys.map fun key => (key.tool, key.args)).map fun p => normalizeCallKey canon p.1 p.2) =
      keys := by
  rw [List.map_map]
  refine (List.map_congr_left ?_).trans (List.map_id keys)
  intro key hkey
  rw [Function.comp_apply, normalizeCallKey, hfixed key hkey]
  rfl

theorem endStep_spec {step : List CallKey} {g : ToolLoopGuard} (h : During earlier step g)
    (hfixed : ∀ key ∈ step, canon key.args = key.args) :
    (endStep canon g).1 = step.map (fun key => (key.tool, key.args)) ∧
      Between (earlier ++ step) (endStep canon g).2 := by
  have hstreak : ((g.currentStepCalls.map fun key => (key.tool, key.args)).map fun p =>
      normalizeCallKey canon p.1 p.2).foldl streakStep (g.consecutiveKey, g.consecutiveCount) =
        endRun (earlier ++ step) := by
    rw [h.current, map_normalize_pairs hfixed, h.streak, foldl_streakStep]
  have hend : endStep canon g = (step.map (fun key => (key.tool, key.args)),
      { g with
        consecutiveKey := (endRun (earlier ++ step)).1
        consecutiveCount := (endRun (earlier ++ step)).2
        seenCallKeys := g.seenCallKeys ∪ step.toFinset
        stepClosed := true }) := by
    rw [endStep, if_neg (by rw [h.closed]; exact Bool.false_ne_true)]
    simp only [advanceConsecutiveStreak, hstreak]
    rw [h.current]
  rw [hend]
  refine ⟨rfl, ⟨h.tallied.total, h.tallied.keyCounts, h.tallied.toolCounts, h.tallied.warnedAt⟩,
    ?_, rfl⟩
  intro key
  rw [Finset.mem_union, h.seen, List.mem_toFinset, List.mem_append]

theorem beginStep_spec {last : List CallKey} {g : ToolLoopGuard} (h : Between calls g)
    (hlast : last ≠ []) (hsub : ∀ key ∈ last, key ∈ calls)
    (hfixed : ∀ key ∈ last, canon key.args = key.args) :
    During calls [] (beginStep canon g (last.map fun key => (key.tool, key.args))) := by
  have hcalls : calls ≠ [] := by
    rintro rfl
    obtain ⟨key, hkey⟩ := List.exists_mem_of_ne_nil last hlast
    exact absurd (hsub key hkey) List.not_mem_nil
  have hkey : g.consecutiveKey ≠ none := by
    have hrun := endRun_ne_none hcalls
    rw [← h.streak] at hrun
    exact hrun
  have hbegin : beginStep canon g (last.map fun key => (key.tool, key.args)) =
      { g with
        previousStepCalls := last
        currentStepCalls := []
        stepClosed := false
        dedupTriggered := false
        forceStopTurn := false
        forceStopReason := []
        forceStopTool := []
        forceStopArgs := []
        turnToolWarningIssued := false
        seenCallKeys := g.seenCallKeys ∪ last.toFinset } := by
    rw [beginStep, map_normalize_pairs hfixed, if_neg hlast]
    exact if_neg fun hnone => hkey hnone.1
  rw [hbegin]
  refine ⟨?_, rfl, rfl, ?_, h.streak, rfl, rfl⟩
  · rw [List.append_nil]
    exact ⟨h.tallied.total, h.tallied.keyCounts, h.tallied.toolCounts, h.tallied.warnedAt⟩
  · intro key
    rw [Finset.mem_union, h.seen, List.mem_toFinset]
    exact or_iff_left_of_imp (hsub key)

theorem during_first (canon : Bytes → Bytes) (g : ToolLoopGuard) :
    During [] [] (beginStep canon g.beginTurn []) where
  tallied := ⟨rfl, fun _ => rfl, fun _ => rfl, fun _ _ h => absurd h List.not_mem_nil⟩
  current := rfl
  closed := rfl
  seen _ := Iff.rfl
  streak := rfl
  warned := rfl
  stopped := rfl

theorem runSteps_eq {g : ToolLoopGuard} {previousCalls : List (Bytes × Bytes)}
    {steps : List (List (Bytes × Bytes))} (h : During earlier [] (beginStep canon g previousCalls))
    (hne : ∀ step ∈ steps, step ≠ [])
    (hfixed : ∀ step ∈ steps, ∀ call ∈ step, canon (canon call.2) = canon call.2) :
    runSteps canon g previousCalls steps = expectedSteps earlier (steps.map fun step =>
      step.map fun call => normalizeCallKey canon call.1 call.2) := by
  induction steps generalizing earlier g previousCalls with
  | nil => rfl
  | cons step rest ih =>
    obtain ⟨hstep, hrest⟩ := List.forall_mem_cons.mp hne
    obtain ⟨hfixedStep, hfixedRest⟩ := List.forall_mem_cons.mp hfixed
    have hkeys : ∀ key ∈ step.map fun c => normalizeCallKey canon c.1 c.2,
        canon key.args = key.args := by
      intro key hkey
      obtain ⟨call, hcall, rfl⟩ := List.mem_map.mp hkey
      exact hfixedStep call hcall
    obtain ⟨hverdicts, hafter⟩ := recordCalls_spec canon h step
    obtain ⟨hout, hbetween⟩ := endStep_spec hafter hkeys
    have hnext := beginStep_spec hbetween (by rw [List.nil_append, Ne, List.map_eq_nil_iff]; exact hstep)
      (fun key hkey => List.mem_append_right _ hkey) hkeys
    rw [List.map_cons, expectedSteps, ← hverdicts]
    rw [← hout, List.nil_append] at hnext
    rw [← ih hnext hrest hfixedRest]
    rfl

/-- Where every canonical text of a turn is its own canonical form, each verdict of the turn is
what the calls so far call for. -/
theorem runTurn_eq_expectedTurn (yy : Yyjson) (S : Sorter) (g : ToolLoopGuard)
    (steps : List (List (Bytes × Bytes))) (hne : ∀ step ∈ steps, step ≠ [])
    (hfixed : ∀ step ∈ steps, ∀ call ∈ step,
      guardToolArguments yy S (guardToolArguments yy S call.2) = guardToolArguments yy S call.2) :
    runTurn (guardToolArguments yy S) g steps = expectedTurn (guardToolArguments yy S) steps :=
  runSteps_eq (during_first _ g) hne hfixed

theorem runTurn_eq_expectedTurn_emptyArguments :
    runTurn (guardToolArguments CompactDoc.yyjson Sorter.insertion) {}
        [[(ascii "t", [])], [(ascii "t", []), (ascii "u", [])]] =
      expectedTurn (guardToolArguments CompactDoc.yyjson Sorter.insertion)
        [[(ascii "t", [])], [(ascii "t", []), (ascii "u", [])]] := by
  refine runTurn_eq_expectedTurn CompactDoc.yyjson Sorter.insertion {} _ (by decide) ?_
  intro step hstep call hcall
  have hnil : call.2 = [] := by
    revert hcall call
    revert hstep step
    decide
  rw [hnil]
  rfl

/-! ### A canonical text that is not its own canonical form -/

/-- A call that comes back in the next step looks like another one there. -/
theorem runTurn_twice {args : Bytes} (h : canon (canon args) ≠ canon args) (g : ToolLoopGuard)
    (tool : Bytes) :
    runTurn canon g [[(tool, args)], [(tool, args)]] =
      [[{}], [{ reminder := loopCycleReminderText }]] := by
  simp [runTurn, runSteps, recordCalls, recordCall, beginTurn, beginStep, endStep, normalizeCallKey,
    countCall, projectedStreakForCall, streakStep, repeatCheck, cycleCheck, diffArgsCheck,
    overuseCheck, turnTotalText, buildRepeatReminder, diffArgsWarnThresholds,
    advanceConsecutiveStreak, h]

/-- A call that is made in two steps, one after the other, is a streak of two. -/
theorem expectedTurn_twice (canon : Bytes → Bytes) (tool args : Bytes) :
    expectedTurn canon [[(tool, args)], [(tool, args)]] = [[{}], [{}]] := by
  simp [expectedTurn, expectedSteps, expectedStep, expectedVerdict, numbersAt, stepNumbers,
    CallNumbers.stops, CallNumbers.warns, CallNumbers.repeatText, CallNumbers.cycleText, endingRun,
    buildRepeatReminder, turnTotalText, diffArgsWarnThresholds]

theorem perm_pieces {α : Type} (a b c d e f g h : List α) :
    (a ++ f ++ c ++ b ++ e ++ h ++ g ++ d).Perm (a ++ b ++ c ++ d ++ e ++ f ++ g ++ h) := by
  classical
  rw [List.perm_iff_count]
  intro x
  simp only [List.count_append]
  omega

/-- What `pdqsort` makes of twenty-five elements with equal keys: it exchanges the second with the
eighth and the last with the twentieth when all of them stand on one side of the pivot, and the
second with the last when it puts the new pivot behind its equals. -/
def exchanged {α : Type} (l : List α) : List α :=
  if l.length = 25 then
    l.take 1 ++ (l.drop 19).take 1 ++ (l.drop 2).take 5 ++ (l.drop 1).take 1 ++
      (l.drop 8).take 11 ++ l.drop 24 ++ (l.drop 20).take 4 ++ (l.drop 7).take 1
  else l

theorem perm_exchanged {α : Type} (l : List α) : (exchanged l).Perm l := by
  have hsplit : l.take 1 ++ (l.drop 1).take 1 ++ (l.drop 2).take 5 ++ (l.drop 7).take 1 ++
      (l.drop 8).take 11 ++ (l.drop 19).take 1 ++ (l.drop 20).take 4 ++ l.drop 24 = l := by
    have hnext : ∀ i n, (l.drop i).take n ++ l.drop (i + n) = l.drop i := by
      intro i n
      rw [← List.drop_drop, List.take_append_drop]
    simp only [List.append_assoc]
    rw [hnext 20 4, hnext 19 1, hnext 8 11, hnext 7 1, hnext 2 5, hnext 1 1,
      List.take_append_drop]
  rw [exchanged]
  split
  · have hperm := perm_pieces (l.take 1) ((l.drop 1).take 1) ((l.drop 2).take 5)
      ((l.drop 7).take 1) ((l.drop 8).take 11) ((l.drop 19).take 1) ((l.drop 20).take 4) (l.drop 24)
    rw [hsplit] at hperm
    exact hperm
  · exact .refl l

/-- A sort that treats twenty-five equal keys as `pdqsort` does. -/
def pdqsort25 : Sorter where
  sort lt l := Sorter.insertion.sort lt (exchanged l)
  perm lt l := (Sorter.insertion.perm lt _).trans (perm_exchanged l)
  sorted key _ hlt _ := Sorter.insertion.sorted key hlt _

/-- An object with one key twenty-five times, with "x" at place `i` and "" at the others. -/
def repeatedKey (i : Nat) : JsonDoc :=
  .members ((List.range 25).map fun n =>
    (ascii "a", .leaf (.str (if n = i then ascii "x" else []))))

theorem writable_repeatedKey (i : Nat) : JsonDoc.Writable (repeatedKey i) := by
  have hone : ∀ b : Byte, b.toNat < 0x80 → ValidUtf8 [b] :=
    fun b hb => ⟨[[b]], List.forall_mem_singleton.mpr (.one hb), rfl⟩
  refine .members ?_ ?_
  · intro m hm
    obtain ⟨n, -, rfl⟩ := List.mem_map.mp hm
    exact hone _ (by decide)
  · intro m hm
    obtain ⟨n, -, rfl⟩ := List.mem_map.mp hm
    refine .leaf ?_
    by_cases hn : n = i
    · rw [if_pos hn]
      exact hone _ (by decide)
    · rw [if_neg hn]
      exact ValidUtf8.nil

theorem storedDoc_repeatedKey (i : Nat) :
    CompactDoc.storedDoc (repeatedKey i) = repeatedKey i := by
  rw [repeatedKey, CompactDoc.storedDoc_members, List.map_map]
  congr 1

theorem guardToolArguments_repeatedKey {i k : Nat}
    (h : mutCopySorted pdqsort25 (repeatedKey i) = repeatedKey k) :
    guardToolArguments CompactDoc.yyjson pdqsort25 (CompactDoc.writeDoc (repeatedKey i)) =
      CompactDoc.writeDoc (repeatedKey k) := by
  have hread := CompactDoc.read_writeDoc (writable_repeatedKey i)
  have hwrite : CompactDoc.yyjson.write (repeatedKey k) =
      some (CompactDoc.writeDoc (CompactDoc.storedDoc (repeatedKey k))) :=
    if_pos (writable_repeatedKey k)
  have hne : CompactDoc.writeDoc (repeatedKey i) ≠ [] :=
    List.ne_nil_of_length_pos (CompactDoc.writeDoc_ne _)
  rw [guardToolArguments, if_neg hne, hread, storedDoc_repeatedKey]
  dsimp only
  rw [h, hwrite, storedDoc_repeatedKey, Option.getD_some]

/-- With a key twenty-five times, and "x" at the second of them, the canonical text has it at the
eighth and the canonical text of that at the last. -/
theorem runTurn_ne_repeatedKey :
    runTurn (guardToolArguments CompactDoc.yyjson pdqsort25) {}
        [[(ascii "t", CompactDoc.writeDoc (repeatedKey 1))],
          [(ascii "t", CompactDoc.writeDoc (repeatedKey 1))]] ≠
      expectedTurn (guardToolArguments CompactDoc.yyjson pdqsort25)
        [[(ascii "t", CompactDoc.writeDoc (repeatedKey 1))],
          [(ascii "t", CompactDoc.writeDoc (repeatedKey 1))]] := by
  have hfirst : guardToolArguments CompactDoc.yyjson pdqsort25
      (CompactDoc.writeDoc (repeatedKey 1)) = CompactDoc.writeDoc (repeatedKey 7) :=
    guardToolArguments_repeatedKey rfl
  have hsecond : guardToolArguments CompactDoc.yyjson pdqsort25
      (CompactDoc.writeDoc (repeatedKey 7)) = CompactDoc.writeDoc (repeatedKey 24) :=
    guardToolArguments_repeatedKey rfl
  have hne : CompactDoc.writeDoc (repeatedKey 24) ≠ CompactDoc.writeDoc (repeatedKey 7) := by
    decide +kernel
  rw [runTurn_twice (by rw [hfirst, hsecond]; exact hne), expectedTurn_twice]
  decide +kernel

end ToolLoopGuard

end KimixNative.Agent
