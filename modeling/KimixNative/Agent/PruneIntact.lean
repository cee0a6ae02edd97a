import KimixNative.Agent.PruneCoalesce
import KimixNative.Agent.PruneTiers
import Mathlib.Data.Rat.Defs

/-!
# What a pass of the pruner leaves of the conversation

The tiers keep the protected messages; the coalescing of metadata, which comes last, does not
ask the protected set. A pass is harmless exactly when the coalescing it adopts rewrites no
protected message.
-/

namespace KimixNative.Agent

open Text

variable {D : Type}

/-- The messages are the history without some unprotected ephemeral messages; only unprotected
tool messages are rewritten, and these still answer the same call. -/
def Intact (opts : PruningOptions D) (prot : Finset Int) (history messages : List Message) : Prop :=
  ∃ kept, Thinned (Droppable opts prot) (Carried prot) 0 history kept messages

theorem Intact.refl (opts : PruningOptions D) (prot : Finset Int) (history : List Message) :
    Intact opts prot history history := ⟨_, .refl (Carried.refl prot) 0 history⟩

/-- A protected message appears as it was, and so does a message of another role than a tool's
unless it is ephemeral. -/
theorem Intact.appears {opts : PruningOptions D} {prot : Finset Int} {history messages : List Message}
    (h : Intact opts prot history messages) {i : Nat} {m : Message} (hm : history[i]? = some m)
    (hkeeps : (i : Int) ∈ prot ∨ m.role ≠ roleTool ∧ opts.isEphemeral m = false) : m ∈ messages := by
  obtain ⟨kept, hkept⟩ := h
  by_cases hin : i ∈ kept
  · obtain ⟨k, hk⟩ := List.mem_iff_getElem?.mp hin
    obtain ⟨a, b, -, ha, hb, hcarried⟩ := hkept.kept_spec hk
    obtain rfl : m = a := Option.some_inj.mp (hm.symm.trans ha)
    have hsame : b = m := by
      rcases hkeeps with hprot | ⟨hrole, -⟩
      · exact hcarried.guarded hprot
      · exact hcarried.verbatim hrole
    exact hsame ▸ List.mem_of_getElem? hb
  · obtain ⟨heph, hprot⟩ := hkept.drop_of_not_mem (Nat.zero_le i) hm hin
    rcases hkeeps with hin | ⟨-, hnot⟩
    · exact absurd hin hprot
    · exact absurd heph (by rw [hnot]; simp)

namespace ContextPruner

variable (env : Kernels) (fp : Doubles D) (p : ContextPruner D) (history : List Message)
  (call : PruneCall D)

/-- The pass leaves the conversation intact, and one that changes nothing says so. -/
def Harmless : Prop :=
  Intact p.opts (call.protectedIndices p.opts history) history
      (p.prune env fp history call).1.messages ∧
    ((p.prune env fp history call).1.earliestRemovedIndex = none →
      (p.prune env fp history call).1.messages = history ∧
        (p.prune env fp history call).2.lastPruneStep = p.lastPruneStep ∧
        (p.prune env fp history call).2.lastPruneUsage = p.lastPruneUsage)

/-- The indices of the messages that the tiers hand on. -/
def handedIndices : List Nat :=
  survivors p.opts (selectCandidates env fp p.opts (p.workHistory env history call).messages call)
    (p.workHistory env history call).messages

/-- The pass gets to the coalescing, which removes blocks, and the gates let it through. -/
def AdoptsCoalescing : Prop :=
  p.triggers env fp history call = true ∧
    (p.handed env fp history call).1.coalesces p.opts = true ∧
    ((p.handed env fp history call).1.coalesce p.opts).passes env fp p.opts history = true

/-- A protected message stands in a run of repeated metadata, at a place that is rewritten. -/
def ProtectedInRun : Prop :=
  ∃ (k i : Nat), (p.handedIndices env fp history call)[k]? = some i ∧
    (i : Int) ∈ call.protectedIndices p.opts history ∧
    (rewriteMarks none (p.handed env fp history call).1.messages)[k]? = some true

theorem messages_of_not_coalesces {h : Handed} (hnot : h.coalesces p.opts = false) :
    h.coalesce p.opts = h := by
  rw [Handed.coalesce, hnot]
  rfl

theorem messages_coalesce {h : Handed} (hcoalesces : h.coalesces p.opts = true) :
    (h.coalesce p.opts).messages = (coalesceToolMetadata h.messages).1 := by
  rw [Handed.coalesce, if_pos hcoalesces]

theorem prune_of_not_triggers (h : p.triggers env fp history call = false) :
    p.prune env fp history call = ({ messages := history }, p) := by
  rw [prune, h]
  rfl

theorem prune_of_rollback (htriggers : p.triggers env fp history call = true)
    (h : ((p.handed env fp history call).1.coalesce p.opts).passes env fp p.opts history = false) :
    p.prune env fp history call =
      ({ messages := history },
        { p with refCounter := (p.handed env fp history call).2.counter }) := by
  simp only [prune, htriggers, if_true, finalizePruneResult, h, Bool.false_eq_true, if_false]

theorem prune_of_passes (htriggers : p.triggers env fp history call = true)
    (h : ((p.handed env fp history call).1.coalesce p.opts).passes env fp p.opts history = true) :
    (p.prune env fp history call).1.messages =
        ((p.handed env fp history call).1.coalesce p.opts).messages ∧
      (p.prune env fp history call).1.earliestRemovedIndex ≠ none := by
  simp only [prune, htriggers, if_true, finalizePruneResult, h]
  refine ⟨trivial, ?_⟩
  intro hnone
  rw [Handed.passes, hnone] at h
  cases h

/-- A pass that changes nothing leaves history and cooldown as they are. -/
theorem unchanged_of_none (h : (p.prune env fp history call).1.earliestRemovedIndex = none) :
    (p.prune env fp history call).1.messages = history ∧
      (p.prune env fp history call).2.lastPruneStep = p.lastPruneStep ∧
      (p.prune env fp history call).2.lastPruneUsage = p.lastPruneUsage := by
  cases htriggers : p.triggers env fp history call with
  | false =>
    rw [prune_of_not_triggers env fp p history call htriggers]
    exact ⟨rfl, rfl, rfl⟩
  | true =>
    cases hpasses :
        ((p.handed env fp history call).1.coalesce p.opts).passes env fp p.opts history with
    | false =>
      rw [prune_of_rollback env fp p history call htriggers hpasses]
      exact ⟨rfl, rfl, rfl⟩
    | true => exact absurd h (prune_of_passes env fp p history call htriggers hpasses).2

/-- The messages after the coalescing, against those handed to it. -/
theorem marked_handed :
    Marked (rewriteMarks none (p.handed env fp history call).1.messages)
      (p.handed env fp history call).1.messages
      (coalesceToolMetadata (p.handed env fp history call).1.messages).1 :=
  coalesceToolMetadata_marked _ none fun h => absurd rfl h

/-- The coalescing rewrites tool messages only, so the messages keep their places. -/
theorem coalesced_thinned (Keep : Nat → Message → Message → Prop)
    (hkeep : ∀ (k i : Nat) (m b c : Message),
      (p.handedIndices env fp history call)[k]? = some i →
      Carried (call.protectedIndices p.opts history) i m b →
      ((rewriteMarks none (p.handed env fp history call).1.messages)[k]? = some true →
        Retouched b c) →
      ((rewriteMarks none (p.handed env fp history call).1.messages)[k]? ≠ some true → c = b) →
      Keep i m c) :
    Thinned (Droppable p.opts (call.protectedIndices p.opts history)) Keep 0 history
      (p.handedIndices env fp history call)
      (coalesceToolMetadata (p.handed env fp history call).1.messages).1 := by
  have hmarked := marked_handed env fp p history call
  refine (handed_thinned env fp p history call).rewrite hmarked.length_eq ?_
  intro k j a b c hk hb hc hcarried
  obtain ⟨hnew, hsame⟩ := hmarked.at_mark hb hc
  exact hkeep k j a b c hk hcarried hnew hsame

/-- What the coalescing keeps of any message. -/
structure Repeated (m m' : Message) : Prop where
  verbatim : m.role ≠ roleTool → m' = m
  role_eq : m'.role = m.role

theorem intact_coalesced_iff :
    Intact p.opts (call.protectedIndices p.opts history) history
        (coalesceToolMetadata (p.handed env fp history call).1.messages).1 ↔
      ¬ p.ProtectedInRun env fp history call := by
  constructor
  · rintro ⟨kept, hkept⟩ ⟨k, i, hk, hprot, hmark⟩
    have hmarked := marked_handed env fp p history call
    have hactual := coalesced_thinned env fp p history call (fun _ m m' => Repeated m m') (by
      intro k i m b c _ hcarried hnew hsame
      by_cases hmark : (rewriteMarks none (p.handed env fp history call).1.messages)[k]? = some true
      · have hretouched := hnew hmark
        have hrole : m.role = roleTool := by
          by_contra hne
          exact hne ((hcarried.verbatim hne) ▸ hretouched.tool)
        exact ⟨fun hne => absurd hrole hne,
          (hretouched.role_eq.trans hretouched.tool).trans hrole.symm⟩
      · rw [hsame hmark]
        refine ⟨hcarried.verbatim, ?_⟩
        by_cases hrole : m.role = roleTool
        · exact (hcarried.paired hrole).1.trans hrole.symm
        · rw [hcarried.verbatim hrole])
    -- tool messages keep their places, whatever else was left out
    have hplaces := hactual.places_eq hkept (p := fun m => m.role == roleTool)
      (fun _ _ h => h.not_tool) (fun _ _ _ h => by rw [h.role_eq])
      (fun _ _ h => h.not_tool) (fun _ _ _ h => h.role_eq)
    obtain ⟨a, b, -, ha, hb, hcarried⟩ := (handed_thinned env fp p history call).kept_spec hk
    obtain ⟨a', c, -, ha', hc, -⟩ := hactual.kept_spec hk
    have hretouched := (hmarked.at_mark hb hc).1 hmark
    have hmem : (i, c) ∈ ((p.handedIndices env fp history call).zip
        (coalesceToolMetadata (p.handed env fp history call).1.messages).1).filter
          fun q => q.2.role == roleTool := by
      refine List.mem_filter.mpr ⟨?_, beq_iff_eq.mpr (hretouched.role_eq.trans hretouched.tool)⟩
      refine List.mem_iff_getElem?.mpr ⟨k, ?_⟩
      rw [List.getElem?_zip_eq_some]
      exact ⟨hk, hc⟩
    rw [hplaces] at hmem
    obtain ⟨k', hk'⟩ := List.mem_iff_getElem?.mp (List.mem_filter.mp hmem).1
    obtain ⟨hindex, hc'⟩ := List.getElem?_zip_eq_some.mp hk'
    obtain ⟨a'', c'', -, ha'', hc'', hcarried'⟩ := hkept.kept_spec hindex
    obtain rfl : c = c'' := Option.some_inj.mp (hc'.symm.trans hc'')
    obtain rfl : a = a'' := Option.some_inj.mp (ha.symm.trans ha'')
    exact hretouched.changed ((hcarried'.guarded hprot).trans (hcarried.guarded hprot).symm)
  · intro hspared
    refine ⟨_, coalesced_thinned env fp p history call _ ?_⟩
    intro k i m b c hk hcarried hnew hsame
    by_cases hmark : (rewriteMarks none (p.handed env fp history call).1.messages)[k]? = some true
    · have hretouched := hnew hmark
      have hrole : m.role = roleTool := by
        by_contra hne
        exact hne ((hcarried.verbatim hne) ▸ hretouched.tool)
      refine ⟨fun hprot => absurd ⟨k, i, hk, hprot, hmark⟩ hspared, fun hne => absurd hrole hne, ?_⟩
      intro _
      exact ⟨hretouched.role_eq.trans hretouched.tool,
        hretouched.toolCallId_eq.trans (hcarried.paired hrole).2⟩
    · rw [hsame hmark]
      exact hcarried

theorem intact_prune_iff :
    Intact p.opts (call.protectedIndices p.opts history) history
        (p.prune env fp history call).1.messages ↔
      ¬ (p.AdoptsCoalescing env fp history call ∧ p.ProtectedInRun env fp history call) := by
  cases htriggers : p.triggers env fp history call with
  | false =>
    refine iff_of_true ?_ ?_
    · rw [prune_of_not_triggers env fp p history call htriggers]
      exact .refl ..
    · rintro ⟨⟨h, -⟩, -⟩
      exact Bool.false_ne_true (htriggers.symm.trans h)
  | true =>
    cases hpasses :
        ((p.handed env fp history call).1.coalesce p.opts).passes env fp p.opts history with
    | false =>
      refine iff_of_true ?_ ?_
      · rw [prune_of_rollback env fp p history call htriggers hpasses]
        exact .refl ..
      · rintro ⟨⟨-, -, h⟩, -⟩
        exact Bool.false_ne_true (hpasses.symm.trans h)
    | true =>
      obtain ⟨hmessages, -⟩ := prune_of_passes env fp p history call htriggers hpasses
      rw [hmessages]
      cases hcoalesces : (p.handed env fp history call).1.coalesces p.opts with
      | false =>
        refine iff_of_true ?_ ?_
        · rw [messages_of_not_coalesces p hcoalesces]
          exact ⟨_, handed_thinned env fp p history call⟩
        · rintro ⟨⟨-, h, -⟩, -⟩
          exact Bool.false_ne_true (hcoalesces.symm.trans h)
      | true =>
        rw [messages_coalesce p hcoalesces, intact_coalesced_iff]
        refine not_congr ⟨?_, fun h => h.2⟩
        intro hrun
        exact ⟨⟨htriggers, hcoalesces, hpasses⟩, hrun⟩

/-- A pass is harmless unless it adopts a coalescing that rewrites a protected message. -/
theorem prune_harmless_iff :
    p.Harmless env fp history call ↔
      ¬ (p.AdoptsCoalescing env fp history call ∧ p.ProtectedInRun env fp history call) := by
  have hintact := intact_prune_iff env fp p history call
  constructor
  · rintro ⟨h, -⟩
    exact hintact.mp h
  · intro h
    exact ⟨hintact.mpr h, unchanged_of_none env fp p history call⟩

/-! ### A protected tool result that is rewritten -/

/-- Rational arithmetic, which doubles agree with on the numbers below. -/
def rationals : Doubles ℚ where
  ofInt := fun n => n
  toInt := fun q => q.num.tdiv q.den
  add   := fun a b => a + b
  sub   := fun a b => a - b
  mul   := fun a b => a * b
  lt    := fun a b => decide (a < b)

/-- The token estimate of an ASCII text; no text is compressed. -/
def asciiKernels : Kernels where
  estimateTextTokens := fun text => max 1 ((text.length / 4 : Nat) : Int)
  compressStripControlNoise := id
  compressRenumberLines := id
  compressCollapseWhitespace := fun text _ _ _ _ _ _ => text
  compressIntraLineDedup := fun text _ _ => text

/-- Micro-compression on and any payoff enough, the rest as by default. -/
def eagerPruner : ContextPruner ℚ where
  opts :=
    { triggerRatio := 0, targetRatio := 0, minUsageGrowth := 1 / 20, maxFractionPerPass := 1 / 2,
      minFreeTokens := 1, microCompressEnabled := true }
  lastPruneStep := -1
  lastPruneUsage := 0
  refCounter := 0

/-- Two calls, both answered by the same metadata with a blank behind it. -/
def repeatedMetadata : List Message :=
  [{ role := roleUser, content := ascii "go" },
    { role := roleAssistant, content := [],
      toolCalls := [⟨ascii "c1", ascii "function", ascii "run", []⟩,
        ⟨ascii "c2", ascii "function", ascii "run", []⟩] },
    { role := roleTool, content := ascii "<system>ok</system> ", toolCallId := ascii "c1" },
    { role := roleTool, content := ascii "<system>ok</system> ", toolCallId := ascii "c2" }]

def eagerCall : PruneCall ℚ where
  currentStep := 1
  contextUsage := 1 / 2
  maxContextSize := 128000

theorem prune_rewrites_protected :
    ¬ eagerPruner.Harmless asciiKernels rationals repeatedMetadata eagerCall := by
  intro h
  have happears := h.1.appears (i := 2) rfl (Or.inl (by decide +kernel))
  revert happears
  decide +kernel

end ContextPruner

end KimixNative.Agent
