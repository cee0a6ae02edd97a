import KimixNative.Agent.ContextPruning
import Mathlib.Data.List.TakeWhile

/-!
# What the coalescing of metadata rewrites

The messages of a run, by a local rule: the first is rewritten when the next one repeats its
block, a later one when something is left of it without its blocks. No other message changes,
and every marked one does.
-/

namespace KimixNative.Agent

open Text

/-- Which messages `coalesce_tool_metadata` rewrites, when `prev` is the block of the message in
front. -/
def rewriteMarks (prev : Option Bytes) : List Message → List Bool
  | [] => []
  | m :: rest =>
    ((blockOf m).isSome &&
        if prev = blockOf m then losesBlock m
        else decide ((rest.head?.bind blockOf) = blockOf m)) ::
      rewriteMarks (blockOf m) rest

/-- A rewritten message: its content changes, and nothing else. -/
structure Retouched (m m' : Message) : Prop where
  tool : m.role = roleTool
  role_eq : m'.role = m.role
  toolCallId_eq : m'.toolCallId = m.toolCallId
  changed : m' ≠ m

/-- The marked messages are rewritten and the others stay. -/
inductive Marked : List Bool → List Message → List Message → Prop
  | nil : Marked [] [] []
  | same {m : Message} {bs : List Bool} {ms ms' : List Message} (h : Marked bs ms ms') :
      Marked (false :: bs) (m :: ms) (m :: ms')
  | new {m m' : Message} {bs : List Bool} {ms ms' : List Message} (hm : Retouched m m')
      (h : Marked bs ms ms') : Marked (true :: bs) (m :: ms) (m' :: ms')

namespace Marked

variable {bs cs : List Bool} {ms ms' ns ns' : List Message}

theorem length_eq (h : Marked bs ms ms') : ms'.length = ms.length := by
  induction h with
  | nil => rfl
  | same _ ih => simp only [List.length_cons, ih]
  | new _ _ ih => simp only [List.length_cons, ih]

theorem at_mark (h : Marked bs ms ms') {k : Nat} {m m' : Message} (hm : ms[k]? = some m)
    (hm' : ms'[k]? = some m') :
    (bs[k]? = some true → Retouched m m') ∧ (bs[k]? ≠ some true → m' = m) := by
  induction h generalizing k with
  | nil => cases hm
  | same _ ih =>
    cases k with
    | zero =>
      cases hm
      cases hm'
      exact ⟨fun h => absurd h (by simp), fun _ => rfl⟩
    | succ k => exact ih hm hm'
  | new hnew _ ih =>
    cases k with
    | zero =>
      cases hm
      cases hm'
      exact ⟨fun _ => hnew, fun h => absurd rfl h⟩
    | succ k => exact ih hm hm'

end Marked

/-! ### An annotated block grows -/

theorem count_stripWs {b : Byte} (hb : isWs b = false) (s : Bytes) :
    (stripWs s).count b = s.count b := by
  have hdrop : ∀ s : Bytes, (s.dropWhile isWs).count b = s.count b := by
    intro s
    have hnone : (s.takeWhile isWs).count b = 0 := by
      refine List.count_eq_zero.mpr ?_
      intro hmem
      rw [List.mem_takeWhile_imp hmem] at hb
      cases hb
    calc (s.dropWhile isWs).count b
        = (s.takeWhile isWs).count b + (s.dropWhile isWs).count b := by rw [hnone, Nat.zero_add]
      _ = s.count b := by rw [← List.count_append, List.takeWhile_append_dropWhile]
  rw [stripWs, rstripWs, List.count_reverse, hdrop, List.count_reverse, lstripWs, hdrop]

variable {inner : Bytes}

/-- A bracket of the content is a bracket of the metadata. -/
theorem count_systemBlockInner {content : Bytes} (h : systemBlockInner content = some inner) :
    inner.count 0x5B#8 = content.count 0x5B#8 := by
  simp only [systemBlockInner] at h
  split_ifs at h with hopen hclose
  obtain rfl := Option.some_inj.mp h
  obtain ⟨hlen, hend⟩ := not_or.mp hclose
  have hopen := not_not.mp hopen
  have hend := not_not.mp hend
  rw [count_stripWs (by decide), ← count_stripWs (by decide) content]
  generalize stripWs content = t at *
  have hsplit : t = t.take 8 ++ ((t.drop 8).take (t.length - 17) ++ t.drop (t.length - 9)) := by
    have hrest : t.drop (t.length - 9) = (t.drop 8).drop (t.length - 17) := by
      rw [List.drop_drop]
      congr 1
      omega
    rw [hrest, List.take_append_drop, List.take_append_drop]
  calc ((t.drop 8).take (t.length - 17)).count 0x5B#8
      = (ascii "<system>").count 0x5B#8 + (((t.drop 8).take (t.length - 17)).count 0x5B#8 +
          (ascii "</system>").count 0x5B#8) := by
        rw [show (ascii "<system>").count 0x5B#8 = 0 from rfl,
          show (ascii "</system>").count 0x5B#8 = 0 from rfl, Nat.zero_add, Nat.add_zero]
    _ = t.count 0x5B#8 := by
        rw [← hopen, ← hend, ← List.count_append, ← List.count_append, ← hsplit]

theorem retouched_annotate {m : Message} (h : blockOf m = some inner) (total : Nat) :
    Retouched m (annotate total inner m) := by
  unfold blockOf at h
  split_ifs at h with hcond
  refine ⟨hcond.1, rfl, rfl, ?_⟩
  intro hsame
  have hcontent := congrArg (fun m => m.content.count 0x5B#8) hsame
  have hinner := count_systemBlockInner h
  simp only [annotate, List.count_append] at hcontent
  have hbracket : (ascii "<system>[").count 0x5B#8 = 1 := rfl
  omega

theorem retouched_dropBlock {m : Message} (h : blockOf m = some inner)
    (hloses : losesBlock m = true) : Retouched m (dropBlock m) := by
  unfold blockOf at h
  split_ifs at h with hcond
  rw [dropBlock, if_pos hloses]
  refine ⟨hcond.1, rfl, rfl, ?_⟩
  intro hsame
  have hlen := congrArg (fun m => m.content.length) hsame
  simp only [losesBlock, Bool.and_eq_true, decide_eq_true_eq] at hloses
  simp only [List.length_drop] at hlen
  omega

/-! ### Runs -/

theorem drop_length_takeWhile {α : Type*} (p : α → Bool) (l : List α) :
    l.drop (l.takeWhile p).length = l.dropWhile p := by
  have h := @List.drop_left _ (l.takeWhile p) (l.dropWhile p)
  rwa [List.takeWhile_append_dropWhile] at h

/-- The later messages of a run, and what comes behind them. -/
theorem marked_run {run tail tail' : List Message} (hrun : ∀ m ∈ run, blockOf m = some inner)
    (h : Marked (rewriteMarks (some inner) tail) tail tail') :
    Marked (rewriteMarks (some inner) (run ++ tail)) (run ++ tail) (run.map dropBlock ++ tail') := by
  induction run with
  | nil => exact h
  | cons m run ih =>
    have hm := hrun m (List.mem_cons_self ..)
    have hrest := ih fun m' hm' => hrun m' (List.mem_cons_of_mem _ hm')
    simp only [List.cons_append, List.map_cons, rewriteMarks, hm, Option.isSome_some,
      Bool.true_and, if_true]
    cases hloses : losesBlock m with
    | true => exact .new (retouched_dropBlock hm hloses) hrest
    | false =>
      rw [dropBlock, hloses]
      exact .same hrest

/-- The coalescing rewrites what the local rule marks. -/
theorem coalesceToolMetadata_marked (messages : List Message) (prev : Option Bytes)
    (hprev : prev ≠ none → (messages.head?.bind blockOf) ≠ prev) :
    Marked (rewriteMarks prev messages) messages (coalesceToolMetadata messages).1 := by
  induction hlen : messages.length using Nat.strong_induction_on generalizing messages prev with
  | _ n ih =>
    cases messages with
    | nil =>
      rw [coalesceToolMetadata]
      exact .nil
    | cons msg rest =>
      rw [List.length_cons] at hlen
      rw [coalesceToolMetadata]
      cases hblock : blockOf msg with
      | none =>
        simp only [rewriteMarks, hblock, Option.isSome_none, Bool.false_and]
        exact .same (ih rest.length (by omega) rest none (fun h => absurd rfl h) rfl)
      | some inner =>
        have hne : prev ≠ some inner := by
          intro hp
          exact hprev (by rw [hp]; simp) (by rw [hp]; exact hblock)
        -- behind the run stands another block, or none
        have hbehind : ∀ run, run = rest.takeWhile (fun m => blockOf m == some inner) →
            Marked (rewriteMarks (some inner) (rest.drop run.length)) (rest.drop run.length)
              (coalesceToolMetadata (rest.drop run.length)).1 := by
          intro run hrun
          refine ih _ ?_ _ _ ?_ rfl
          · simp only [List.length_drop]
            omega
          · intro _ hhead
            rw [hrun, drop_length_takeWhile] at hhead
            cases hd : rest.dropWhile (fun m => blockOf m == some inner) with
            | nil =>
              rw [hd] at hhead
              cases hhead
            | cons m tail =>
              rw [hd] at hhead
              have hnot := List.head_dropWhile_not (fun m => blockOf m == some inner)
                (show rest.dropWhile (fun m => blockOf m == some inner) ≠ [] by rw [hd]; simp)
              simp only [hd, List.head_cons, beq_eq_false_iff_ne] at hnot
              exact hnot hhead
        simp only [rewriteMarks, hblock, Option.isSome_some, Bool.true_and, if_neg hne]
        generalize hrun : rest.takeWhile (fun m => blockOf m == some inner) = run at *
        have hmem : ∀ m ∈ run, blockOf m = some inner := by
          intro m hm
          rw [← hrun] at hm
          have hblock' := List.mem_takeWhile_imp hm
          exact beq_iff_eq.mp hblock'
        have hsplit : run ++ rest.drop run.length = rest := by
          rw [← hrun, drop_length_takeWhile, List.takeWhile_append_dropWhile]
        have htail := marked_run hmem (hbehind run rfl)
        rw [hsplit] at htail
        by_cases hempty : run = []
        · have hhead : rest.head?.bind blockOf ≠ some inner := by
            intro hhead
            cases rest with
            | nil => cases hhead
            | cons m rest =>
              have hm : blockOf m = some inner := hhead
              rw [hempty, List.takeWhile_cons, if_pos (beq_iff_eq.mpr hm)] at hrun
              cases hrun
          rw [if_pos hempty, decide_eq_false hhead]
          rw [hempty] at htail ⊢
          exact .same htail
        · have hhead : rest.head?.bind blockOf = some inner := by
            cases run with
            | nil => exact absurd rfl hempty
            | cons m run =>
              rw [← hsplit]
              exact hmem m (List.mem_cons_self ..)
          rw [if_neg hempty, decide_eq_true hhead]
          exact .new (retouched_annotate hblock _) htail

end KimixNative.Agent
