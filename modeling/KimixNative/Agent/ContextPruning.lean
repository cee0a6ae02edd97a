import KimixNative.Agent.PruneScan

/-!
# The context pruner

A pass of `ContextPruner::prune` over a history: the micro-compression of stale tool output
(Tier C), the removal of ephemeral messages (Tier A), the replacement of stale tool results by
stubs (Tier B), the coalescing of repeated `<system>` metadata, and the gates that take the
whole pass back.

Double-precision arithmetic, the token estimate of a text and the compression kernels are
parameters.
-/

namespace KimixNative.Agent

open Text

/-- Double-precision arithmetic, as far as the pruner uses it. -/
structure Doubles (D : Type) where
  ofInt : Int → D
  toInt : D → Int
  add : D → D → D
  sub : D → D → D
  mul : D → D → D
  lt : D → D → Bool

/-- The kernels of other components that the pruner calls. -/
structure Kernels where
  estimateTextTokens : Bytes → Int
  compressStripControlNoise : Bytes → Bytes
  compressRenumberLines : Bytes → Bytes
  compressCollapseWhitespace : Bytes → Bytes → Bool → Bool → Int → Bool → Bool → Bytes
  compressIntraLineDedup : Bytes → Int → Int → Bytes

structure PruningOptions (D : Type) where
  enabled : Bool := true
  triggerRatio : D
  targetRatio : D
  stablePrefixMessages : Int := 4
  recentMessagesProtected : Int := 6
  minFreeTokens : Int := 2000
  cooldownSteps : Int := 4
  minUsageGrowth : D
  maxFractionPerPass : D
  ephemeralEnabled : Bool := true
  ephemeralNotifications : Bool := true
  ephemeralTaskSnapshots : Bool := true
  ephemeralCheckpointMarkers : Bool := false
  substantiveEnabled : Bool := true
  toolOutputMinTokens : Int := 512
  microCompressEnabled : Bool := false
  microCompressMinSavedChars : Int := 64
  minCachePrefixDepth : Option Int := none
  cacheLossPenalty : Option D := none

/-- The inputs of one pass. `allocRef` gives the references in the order in which the pass asks
for them. -/
structure PruneCall (D : Type) where
  currentStep : Int
  contextUsage : D
  maxContextSize : Int
  currentTurnIndex : Option Int := none
  minCachePrefixDepth : Option Int := none
  allocRef : Option (Nat → Bytes) := none

structure ContextPruner (D : Type) where
  opts : PruningOptions D
  lastPruneStep : Int
  lastPruneUsage : D
  refCounter : BitVec 32

structure ElidedRecord where
  index : Int
  role : Bytes
  kind : Bytes
  summary : Bytes
  originalText : Bytes
  ref : Bytes
  deriving DecidableEq, Repr

structure PruningResult where
  messages : List Message
  elided : List ElidedRecord := []
  freedTokens : Int := 0
  earliestRemovedIndex : Option Int := none
  deriving DecidableEq, Repr

/-! ### Token counts -/

/-- `compact_sat_add`. -/
def compactSatAdd (a b : Int) : Int :=
  if 0 < a ∧ 2 ^ 63 - 1 - a < b then 2 ^ 63 - 1
  else if a < 0 ∧ b < -2 ^ 63 - a then -2 ^ 63
  else a + b

/-- `count_message_tokens`. -/
def countMessageTokens (env : Kernels) (history : List Message) : Int :=
  history.foldl
    (fun total m =>
      if m.content = [] then total else compactSatAdd total (env.estimateTextTokens m.content)) 0

/-! ### Micro-compression -/

/-- The part of `micro_compress_config` that has a native kernel. -/
structure MicroCompressConfig where
  enabled : Bool := true
  losslessOnly : Bool := false
  blankLineCollapse : Int := 1
  stripTrailingWs : Bool := true
  commonIndentFactor : Bool := true
  intraLineDedupLen : Int := 2000
  intraLineDedup : Bool := true

def kindCode : Bytes := ascii "code"
def kindLog : Bytes := ascii "log"

/-- `micro_compress_text`. -/
def microCompressText (env : Kernels) (text kind : Bytes) (config : MicroCompressConfig) : Bytes :=
  if text = [] ∨ !config.enabled then text
  else
    let out := env.compressRenumberLines (env.compressStripControlNoise text)
    let out := env.compressCollapseWhitespace out kind config.losslessOnly config.stripTrailingWs
      config.blankLineCollapse config.commonIndentFactor false
    if config.intraLineDedup ∧ !config.losslessOnly ∧ kind ≠ kindCode then
      env.compressIntraLineDedup out config.intraLineDedupLen 64
    else out

def annotatedMarkers : List Bytes :=
  [ascii "[common-indent:", ascii "[prefix:", ascii "[ts-prefix folded",
    ascii "banner lines dropped", ascii "near-dup", ascii "chars elided]",
    ascii "license lines elided", ascii "comment lines elided",
    ascii "lines of generated content"]

/-- `has_annotated_marker`. -/
def hasAnnotatedMarker (text : Bytes) : Bool := annotatedMarkers.any (contains text)

/-- `line_has_lineno_prefix`. -/
def lineHasLinenoPrefix (line : Bytes) : Bool :=
  let digits := line.dropWhile fun b => b == 0x20#8 || b == 0x09#8
  let rest := digits.dropWhile fun b => decide (0x30 ≤ b.toNat) && decide (b.toNat ≤ 0x39)
  decide (rest.length < digits.length) && rest.head? == some 0x09#8

/-- `looks_like_readfile_output`. -/
def looksLikeReadfileOutput (text : Bytes) : Bool :=
  let substantial := (text.splitOn 0x0A#8).filter fun line => !(stripWs line).isEmpty
  !substantial.isEmpty && substantial.all lineHasLinenoPrefix

/-! ### Candidates -/

/-- A message that a tier would rewrite or remove. -/
structure Candidate where
  index : Nat
  savings : Int
  kind : Bytes
  deriving DecidableEq, Repr

/-- `tier_c_candidates`. -/
def tierCCandidates (env : Kernels) (history : List Message) (excluded : Finset Int)
    (minSavedChars : Int) : List Candidate :=
  history.zipIdx.filterMap fun (msg, i) =>
    if (i : Int) ∈ excluded ∨ msg.role ≠ roleTool then none
    else
      let text := outputText msg
      if stripWs text = [] then none
      else
        let kind := if looksLikeReadfileOutput text then kindCode else kindLog
        let saved : Int := text.length - (microCompressText env text kind {}).length
        if minSavedChars ≤ saved then some ⟨i, max (saved.tdiv 4) 1, kind⟩ else none

/-- `later_tool_result_matches`. -/
def laterToolResultMatches (later : List Message) (pred : Bytes → Bool) : Bool :=
  later.any fun m => m.role == roleTool && !m.content.isEmpty && pred m.content

/-- `tier_b_candidates`. -/
def tierBCandidates (history : List Message) (prot : Finset Int) (minOutputTokens : Int) :
    List Candidate :=
  history.zipIdx.filterMap fun (msg, i) =>
    if (i : Int) ∈ prot ∨ msg.role ≠ roleTool ∨ stripWs msg.content = [] then none
    else
      let text := msg.content
      let savings := flatTokenSavings text.length
      let later := history.drop (i + 1)
      if laterToolResultMatches later fun t =>
          contains t (ascii "Tool output is empty") || decide (t.length < text.length / 2) then
        some ⟨i, savings, ascii "superseded_read"⟩
      else if minOutputTokens ≤ savings then some ⟨i, savings, ascii "oversized_output"⟩
      else if contains text (ascii "<system>ERROR:") ∧
          laterToolResultMatches later fun t => !contains t (ascii "<system>ERROR:") then
        some ⟨i, savings, ascii "resolved_error"⟩
      else none

def PruningOptions.isEphemeral {D : Type} (opts : PruningOptions D) (m : Message) : Bool :=
  isEphemeralMessage m opts.ephemeralNotifications opts.ephemeralTaskSnapshots
    opts.ephemeralCheckpointMarkers

/-- `tier_a_candidates`: of several task snapshots the newest stays. -/
def tierACandidates {D : Type} (opts : PruningOptions D) (history : List Message)
    (prot : Finset Int) : List Candidate :=
  let ephemeral := history.zipIdx.filter fun q => decide ((q.2 : Int) ∉ prot) && opts.isEphemeral q.1
  let entry := fun q : Message × Nat =>
    (⟨q.2, flatTokenSavings q.1.content.length, ascii "ephemeral"⟩ : Candidate)
  let snapshots := ephemeral.filter fun q => isActiveTaskSnapshotMessage q.1
  let others := ephemeral.filter fun q => !isActiveTaskSnapshotMessage q.1
  (if opts.ephemeralTaskSnapshots then snapshots.dropLast.map entry else []) ++ others.map entry

/-! ### References -/

/-- The reference counter of the pruner, and how many references the pass has asked for. -/
structure Refs where
  counter : BitVec 32
  asked : Nat := 0
  deriving DecidableEq, Repr

/-- `next_ref`. -/
def nextRef (allocRef : Option (Nat → Bytes)) (refs : Refs) : Bytes × Refs :=
  match allocRef with
  | some alloc => (alloc refs.asked, { refs with asked := refs.asked + 1 })
  | none =>
    (ascii "prune_" ++ kstr refs.counter.toNat, { refs with counter := refs.counter + 1 })

/-- What a loop over the history has written. -/
structure Output where
  messages : List Message
  elided : List ElidedRecord
  freed : Int
  changes : Finset Int
  refs : Refs

namespace Output

def done (refs : Refs) : Output := ⟨[], [], 0, ∅, refs⟩

def push (m : Message) (out : Output) : Output := { out with messages := m :: out.messages }

def change (i : Nat) (out : Output) : Output := { out with changes := insert (i : Int) out.changes }

def archive (r : ElidedRecord) (out : Output) : Output := { out with elided := r :: out.elided }

def free (n : Int) (out : Output) : Output := { out with freed := n + out.freed }

end Output

/-! ### Tier C -/

/-- The message with its output compressed, and the output before and after; nothing when that
saves nothing. -/
def compressMessage (env : Kernels) (kind : Bytes) (msg : Message) :
    Option (Message × Bytes × Bytes) :=
  let sysPrefix := leadingSystemPrefixLen msg.content
  let text := msg.content.drop sysPrefix
  let compressed := microCompressText env text kind {}
  if text.length ≤ compressed.length ∨ compressed = text then none
  else
    let head := msg.content.take sysPrefix
    let joint := if compressed ≠ [] ∧ head ≠ [] then [0x0A#8] else []
    some ({ msg with content := head ++ joint ++ compressed }, text, compressed)

/-- The loop of the Tier C pass, from the message at `i` on. -/
def compressFrom {D : Type} (env : Kernels) (call : PruneCall D) (candidates : List Candidate) :
    Nat → List Message → Refs → Output
  | _, [], refs => .done refs
  | i, msg :: rest, refs =>
    match (candidates.find? fun c => c.index = i).bind fun c => compressMessage env c.kind msg with
    | none => (compressFrom env call candidates (i + 1) rest refs).push msg
    | some (copy, text, compressed) =>
      let saved := text.length - compressed.length
      let savings := flatTokenSavings saved
      if hasAnnotatedMarker compressed then
        let (ref, refs) := nextRef call.allocRef refs
        let summary := ascii "micro-compressed " ++ kstr saved ++ ascii " chars at index " ++ kstr i
        let record : ElidedRecord := ⟨i, msg.role, ascii "micro_compress", summary, text, ref⟩
        ((((compressFrom env call candidates (i + 1) rest refs).push copy).change i).free
          savings).archive record
      else
        (((compressFrom env call candidates (i + 1) rest refs).push copy).change i).free savings

def PruneCall.cacheFloor {D : Type} (call : PruneCall D) (opts : PruningOptions D) : Option Int :=
  call.minCachePrefixDepth.or opts.minCachePrefixDepth

/-- The protected set of a pass over the history. -/
def PruneCall.protectedIndices {D : Type} (call : PruneCall D) (opts : PruningOptions D)
    (history : List Message) : Finset Int :=
  computeProtectedIndices history opts.stablePrefixMessages opts.recentMessagesProtected
    call.currentTurnIndex (call.cacheFloor opts)

/-- The Tier C pass; the candidates of Tier B are left to Tier B. -/
def tierCPass {D : Type} (env : Kernels) (opts : PruningOptions D) (history : List Message)
    (call : PruneCall D) (refs : Refs) : Output :=
  if opts.microCompressEnabled then
    let prot := call.protectedIndices opts history
    let stubs := if opts.substantiveEnabled then
      tierBCandidates history prot opts.toolOutputMinTokens else []
    let excluded := prot ∪ (stubs.map fun c => (c.index : Int)).toFinset
    compressFrom env call
      (tierCCandidates env history excluded opts.microCompressMinSavedChars) 0 history refs
  else { Output.done refs with messages := history }

/-! ### Tiers A and B -/

/-- A candidate of Tier A or B. -/
structure CandidateEntry extends Candidate where
  tierA : Bool
  deriving DecidableEq, Repr

/-- The order in which candidates are taken: the tail of the history first, then from the back,
Tier A before Tier B, the greater savings first. -/
def CandidateEntry.before (tailBand : Int) (a b : CandidateEntry) : Bool :=
  let band := fun e : CandidateEntry => decide (tailBand ≤ e.index)
  if band a ≠ band b then band a
  else if a.index ≠ b.index then decide (b.index < a.index)
  else if a.tierA ≠ b.tierA then a.tierA
  else decide (b.savings < a.savings)

/-- The greedy fill: candidates are selected until the budget is met. -/
def fillBudget (budget : Int) : List CandidateEntry → Finset Int → Int → Finset Int × Int
  | [], selected, freed => (selected, freed)
  | c :: rest, selected, freed =>
    if budget ≤ freed then (selected, freed)
    else if (c.index : Int) ∈ selected then fillBudget budget rest selected freed
    else fillBudget budget rest (insert (c.index : Int) selected) (freed + c.savings)

/-- What `python_prune` has decided before it builds the result. -/
structure Selection where
  candidates : List CandidateEntry
  selected : Finset Int
  freed : Int

/-- The candidates of both tiers; Tier B only when Tier A does not meet the budget. -/
def bothTiers {D : Type} (opts : PruningOptions D) (history : List Message) (prot : Finset Int)
    (budget : Int) : List CandidateEntry :=
  let tierA : List CandidateEntry := if opts.ephemeralEnabled then
    (tierACandidates opts history prot).map fun c => ⟨c, true⟩ else []
  let savings := tierA.foldl (fun total e => total + e.savings) 0
  let tierB : List CandidateEntry := if 0 < budget - savings ∧ opts.substantiveEnabled then
    ((tierBCandidates history prot opts.toolOutputMinTokens).filter fun c =>
      !tierA.any fun e => e.index == c.index).map fun c => ⟨c, false⟩ else []
  tierA ++ tierB

/-- The first half of `python_prune`; nothing when there is nothing to do. -/
def selectCandidates {D : Type} (env : Kernels) (fp : Doubles D) (opts : PruningOptions D)
    (history : List Message) (call : PruneCall D) : Option Selection :=
  let target := fp.toInt (fp.mul (fp.ofInt call.maxContextSize) opts.targetRatio)
  let current := countMessageTokens env history
  if current - target ≤ 0 then none
  else
    let maxPrune := fp.toInt (fp.mul (fp.ofInt current) opts.maxFractionPerPass)
    let budget := min (current - target) maxPrune
    let candidates := bothTiers opts history (call.protectedIndices opts history) budget
    if candidates = [] then none
    else
      let tailBand := max 0 ((history.length : Int) - opts.recentMessagesProtected - 2)
      let sorted := candidates.mergeSort fun a b => !CandidateEntry.before tailBand b a
      let (selected, freed) := fillBudget budget sorted ∅ 0
      some ⟨sorted, selected, freed⟩

/-- The stub that takes the place of a tool result. -/
def stubContent (kind : Bytes) (savings : Int) (ref : Bytes) : Bytes :=
  ascii "<system>[context-elided: " ++ kind ++ ascii " " ++ [0xE2#8, 0x80#8, 0x94#8] ++
    ascii " content elided. ~" ++ kstr savings ++
    ascii " tokens freed. Retrieve full content with retrieve id=" ++ ref ++ ascii "]</system>"

/-- The second half of `python_prune`, from the message at `i` on. -/
def rebuildFrom {D : Type} (opts : PruningOptions D) (call : PruneCall D) (sel : Selection) :
    Nat → List Message → Refs → Output
  | _, [], refs => .done refs
  | i, msg :: rest, refs =>
    if (i : Int) ∉ sel.selected then (rebuildFrom opts call sel (i + 1) rest refs).push msg
    else if opts.isEphemeral msg then (rebuildFrom opts call sel (i + 1) rest refs).change i
    -- only tool messages are rewritten
    else if msg.role ≠ roleTool then (rebuildFrom opts call sel (i + 1) rest refs).push msg
    else
      let entry := sel.candidates.find? fun c => c.index = i
      let kind := (entry.map fun c => c.kind).getD (ascii "elided")
      let savings := (entry.map fun c => c.savings).getD 0
      let (ref, refs) := nextRef call.allocRef refs
      let stub : Message :=
        { role := msg.role, toolCallId := msg.toolCallId, content := stubContent kind savings ref }
      let record : ElidedRecord :=
        ⟨i, msg.role, kind, kind ++ ascii " at index " ++ kstr i, msg.content, ref⟩
      (((rebuildFrom opts call sel (i + 1) rest refs).push stub).change i).archive record

/-- `*changes.begin()`. -/
def firstIndex (changes : Finset Int) : Option Int :=
  if h : changes.Nonempty then some (changes.min' h) else none

variable {changes : Finset Int}

theorem firstIndex_eq_some {e : Int} :
    firstIndex changes = some e ↔ e ∈ changes ∧ ∀ i ∈ changes, e ≤ i := by
  rw [firstIndex]
  split
  · rename_i hsome
    rw [Option.some_inj]
    constructor
    · rintro rfl
      exact ⟨changes.min'_mem hsome, fun i hi => changes.min'_le i hi⟩
    · rintro ⟨hmem, hle⟩
      exact Int.le_antisymm (changes.min'_le e hmem) (hle _ (changes.min'_mem hsome))
  · rename_i hnone
    constructor
    · intro h
      cases h
    · rintro ⟨hmem, -⟩
      exact absurd ⟨e, hmem⟩ hnone

theorem exists_firstIndex {i : Int} (h : i ∈ changes) : ∃ e, firstIndex changes = some e := by
  rw [firstIndex, dif_pos ⟨i, h⟩]
  exact ⟨_, rfl⟩

/-- `python_prune`. -/
def pythonPrune {D : Type} (env : Kernels) (fp : Doubles D) (opts : PruningOptions D)
    (history : List Message) (call : PruneCall D) (refs : Refs) : PruningResult × Refs :=
  match selectCandidates env fp opts history call with
  | none => ({ messages := history }, refs)
  | some sel =>
    let out := rebuildFrom opts call sel 0 history refs
    (⟨out.messages, out.elided, sel.freed, firstIndex out.changes⟩, out.refs)

/-! ### Coalescing of metadata -/

/-- The metadata of a tool message that is one `<system>` block. -/
def blockOf (m : Message) : Option Bytes :=
  if m.role = roleTool ∧ m.content ≠ [] then systemBlockInner m.content else none

/-- The first message of a run of `total`. -/
def annotate (total : Nat) (inner : Bytes) (m : Message) : Message :=
  { m with content := ascii "<system>[" ++ [0xC3#8, 0x97#8] ++ kstr total ++ ascii "] " ++ inner ++
      ascii "</system>" }

/-- A later message of a run loses its blocks, unless nothing else is left of it. -/
def losesBlock (m : Message) : Bool :=
  decide (0 < leadingSystemPrefixLen m.content) &&
    decide (leadingSystemPrefixLen m.content < m.content.length)

def dropBlock (m : Message) : Message :=
  if losesBlock m then { m with content := m.content.drop (leadingSystemPrefixLen m.content) } else m

/-- `coalesce_tool_metadata`: the messages and how many blocks were removed. -/
def coalesceToolMetadata : List Message → List Message × Nat
  | [] => ([], 0)
  | msg :: rest =>
    match blockOf msg with
    | none =>
      let (out, removed) := coalesceToolMetadata rest
      (msg :: out, removed)
    | some inner =>
      let run := rest.takeWhile fun m => blockOf m == some inner
      let (out, removed) := coalesceToolMetadata (rest.drop run.length)
      if run = [] then (msg :: out, removed)
      else
        (annotate (run.length + 1) inner msg :: (run.map dropBlock ++ out),
          run.countP losesBlock + removed)
termination_by messages => messages.length
decreasing_by
  all_goals simp only [List.length_drop, List.length_cons]
  all_goals omega

/-- How many characters a rewriting saves, counted where it makes a message shorter, and the
first such message. -/
def shortened (before after : List Message) : Nat × Option Nat :=
  let saved := (before.zip after).map fun q => q.1.content.length - q.2.content.length
  (saved.sum, saved.findIdx? fun n => decide (0 < n))

/-! ### The pass -/

/-- What the tiers hand to the last step of a pass. -/
structure Handed where
  messages : List Message
  elided : List ElidedRecord
  freed : Int
  changes : Finset Int

namespace Handed

variable {D : Type}

/-- The coalescing of a pass that removes blocks. -/
def coalesces (opts : PruningOptions D) (h : Handed) : Bool :=
  opts.microCompressEnabled && decide (0 < (coalesceToolMetadata h.messages).2) &&
    decide (0 < (shortened h.messages (coalesceToolMetadata h.messages).1).1)

/-- Layer 1. -/
def coalesce (opts : PruningOptions D) (h : Handed) : Handed :=
  if h.coalesces opts then
    let after := (coalesceToolMetadata h.messages).1
    let (chars, first) := shortened h.messages after
    { h with
      messages := after
      freed := h.freed + flatTokenSavings chars
      changes := match first with
        | none => h.changes
        | some i => insert (i : Int) h.changes }
  else h

/-- The gates: the least payoff, and the loss of the cached tail. -/
def passes (env : Kernels) (fp : Doubles D) (opts : PruningOptions D) (original : List Message)
    (h : Handed) : Bool :=
  match firstIndex h.changes with
  | none => false
  | some earliest =>
    !decide (h.freed < opts.minFreeTokens) &&
      match opts.cacheLossPenalty with
      | none => true
      | some penalty =>
        let cacheLoss := countMessageTokens env (original.drop earliest.toNat)
        !fp.lt (fp.mul (fp.ofInt h.freed) (fp.add (fp.ofInt 1) penalty)) (fp.ofInt cacheLoss)

end Handed

namespace ContextPruner

variable {D : Type} (env : Kernels) (fp : Doubles D)

/-- `in_cooldown`. -/
def inCooldown (p : ContextPruner D) (currentStep : Int) (currentUsage : D) : Bool :=
  if p.lastPruneStep < 0 then false
  else if currentStep - p.lastPruneStep < p.opts.cooldownSteps then true
  else fp.lt (fp.sub currentUsage p.lastPruneUsage) p.opts.minUsageGrowth

/-- The checks that come before the pass. -/
def triggers (p : ContextPruner D) (history : List Message) (call : PruneCall D) : Bool :=
  p.opts.enabled && !p.inCooldown fp call.currentStep call.contextUsage &&
    !fp.lt call.contextUsage p.opts.triggerRatio &&
    decide (0 < countMessageTokens env history -
      fp.toInt (fp.mul (fp.ofInt call.maxContextSize) p.opts.targetRatio))

/-- The Tier C pass of the pruner. -/
def workHistory (p : ContextPruner D) (history : List Message) (call : PruneCall D) : Output :=
  tierCPass env p.opts history call ⟨p.refCounter, 0⟩

/-- The tiers of a pass. -/
def handed (p : ContextPruner D) (history : List Message) (call : PruneCall D) : Handed × Refs :=
  let work := p.workHistory env history call
  let (base, refs) := pythonPrune env fp p.opts work.messages call work.refs
  ({ messages := base.messages
     elided := work.elided ++ base.elided
     freed := work.freed + base.freedTokens
     changes := match base.earliestRemovedIndex with
       | none => work.changes
       | some i => insert i work.changes }, refs)

/-- `finalize_prune_result`. -/
def finalizePruneResult (p : ContextPruner D) (original : List Message) (h : Handed)
    (currentStep : Int) (contextUsage : D) : PruningResult × ContextPruner D :=
  let h := h.coalesce p.opts
  if h.passes env fp p.opts original then
    (⟨h.messages, h.elided, h.freed, firstIndex h.changes⟩,
      { p with lastPruneStep := currentStep, lastPruneUsage := contextUsage })
  else ({ messages := original }, p)

/-- `prune`. -/
def prune (p : ContextPruner D) (history : List Message) (call : PruneCall D) :
    PruningResult × ContextPruner D :=
  if p.triggers env fp history call then
    let (h, refs) := p.handed env fp history call
    finalizePruneResult env fp { p with refCounter := refs.counter } history h call.currentStep
      call.contextUsage
  else ({ messages := history }, p)

end ContextPruner

end KimixNative.Agent
