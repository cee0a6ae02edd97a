import KimixNative.Agent.PruneIntact

/-!
# The change point of a pass

A pass reports the least index that a tier recorded, or the first message that the coalescing
made shorter when that comes first. The coalescing also makes one message of every run longer,
and of that the pass takes no note.
-/

namespace KimixNative.Agent

open Text

variable {D : Type}

/-! ### The recorded indices -/

variable {j : Int}

variable {changes : Finset Int} {msgs : List Message}

/-- The bounds of the indices that a loop records, for one message more in front. -/
theorem bounds_insert {i n : Nat}
    (h : ∀ j ∈ changes, ((i + 1 : Nat) : Int) ≤ j ∧ j < (i + 1 + n : Nat))
    (hj : j ∈ insert (i : Int) changes) : (i : Int) ≤ j ∧ j < (i + (n + 1) : Nat) := by
  rcases Finset.mem_insert.mp hj with rfl | hin
  · omega
  · have hbounds := h j hin
    omega

theorem mem_compressFrom_changes {env : Kernels} {call : PruneCall D} {candidates : List Candidate}
    {i : Nat} {refs : Refs} (h : j ∈ (compressFrom env call candidates i msgs refs).changes) :
    (i : Int) ≤ j ∧ j < (i + msgs.length : Nat) := by
  induction msgs generalizing i refs j with
  | nil => exact absurd h (Finset.notMem_empty j)
  | cons msg rest ih =>
    rw [compressFrom] at h
    split at h
    · exact bounds_insert (fun j hin => ih hin) (Finset.mem_insert_of_mem h)
    · split at h
      · exact bounds_insert (fun j hin => ih hin) h
      · exact bounds_insert (fun j hin => ih hin) h

theorem mem_rebuildFrom_changes {opts : PruningOptions D} {call : PruneCall D} {sel : Selection}
    {i : Nat} {refs : Refs} (h : j ∈ (rebuildFrom opts call sel i msgs refs).changes) :
    (i : Int) ≤ j ∧ j < (i + msgs.length : Nat) := by
  induction msgs generalizing i refs j with
  | nil => exact absurd h (Finset.notMem_empty j)
  | cons msg rest ih =>
    unfold rebuildFrom at h
    by_cases hin : (i : Int) ∈ sel.selected
    · rw [if_neg (not_not.mpr hin)] at h
      by_cases heph : opts.isEphemeral msg = true
      · rw [if_pos heph] at h
        exact bounds_insert (fun j hj => ih hj) h
      · rw [if_neg heph] at h
        by_cases hrole : msg.role = roleTool
        · rw [if_neg (not_not.mpr hrole)] at h
          exact bounds_insert (fun j hj => ih hj) h
        · rw [if_pos hrole] at h
          exact bounds_insert (fun j hj => ih hj) (Finset.mem_insert_of_mem h)
    · rw [if_pos hin] at h
      exact bounds_insert (fun j hj => ih hj) (Finset.mem_insert_of_mem h)

theorem length_workHistory (env : Kernels) (p : ContextPruner D) (history : List Message)
    (call : PruneCall D) : (p.workHistory env history call).messages.length = history.length := by
  have hmap := congrArg List.length
    (Compressed.map_bare (tierCPass_compressed env p.opts history call ⟨p.refCounter, 0⟩))
  simp only [List.length_map] at hmap
  exact hmap

/-- The tiers record indices of the history. -/
theorem mem_handed_changes {env : Kernels} {fp : Doubles D} {p : ContextPruner D}
    {history : List Message} {call : PruneCall D} (h : j ∈ (p.handed env fp history call).1.changes) :
    0 ≤ j ∧ j < history.length := by
  have hwork : j ∈ (p.workHistory env history call).changes → 0 ≤ j ∧ j < history.length := by
    intro hin
    simp only [ContextPruner.workHistory, tierCPass] at hin
    split at hin
    · have hbounds := mem_compressFrom_changes hin
      omega
    · exact absurd hin (Finset.notMem_empty j)
  cases hsel : selectCandidates env fp p.opts (p.workHistory env history call).messages call with
  | none =>
    simp only [ContextPruner.handed, pythonPrune, hsel] at h
    exact hwork h
  | some sel =>
    simp only [ContextPruner.handed, pythonPrune, hsel] at h
    split at h
    · exact hwork h
    · rename_i i hfirst
      rcases Finset.mem_insert.mp h with rfl | hin
      · have hbounds := mem_rebuildFrom_changes (firstIndex_eq_some.mp hfirst).1
        rw [length_workHistory] at hbounds
        omega
      · exact hwork hin

/-! ### The first run -/

/-- The first run of repeated blocks: its place, its first message, the block and its size. -/
inductive FirstRun : List Message → Nat → Message → Bytes → Nat → Prop
  | here {m : Message} {inner : Bytes} {run post : List Message} (hblock : blockOf m = some inner)
      (hrun : ∀ m' ∈ run, blockOf m' = some inner) (hne : run ≠ [])
      (hends : post.head?.bind blockOf ≠ some inner) :
      FirstRun (m :: (run ++ post)) 0 m inner (run.length + 1)
  | later {a m : Message} {messages : List Message} {k total : Nat} {inner : Bytes}
      (ha : blockOf a = none ∨ messages.head?.bind blockOf ≠ blockOf a)
      (h : FirstRun messages k m inner total) : FirstRun (a :: messages) (k + 1) m inner total

/-- The messages of a run are all that the loop takes. -/
theorem takeWhile_run {inner : Bytes} {run post : List Message}
    (hrun : ∀ m ∈ run, blockOf m = some inner) (hends : post.head?.bind blockOf ≠ some inner) :
    (run ++ post).takeWhile (fun m => blockOf m == some inner) = run := by
  induction run with
  | nil =>
    cases post with
    | nil => rfl
    | cons m post =>
      have hm : ¬ blockOf m = some inner := hends
      rw [List.nil_append, List.takeWhile_cons, if_neg (by simpa using hm)]
  | cons m run ih =>
    rw [List.cons_append, List.takeWhile_cons,
      if_pos (beq_iff_eq.mpr (hrun m (List.mem_cons_self ..))),
      ih fun m' hm' => hrun m' (List.mem_cons_of_mem _ hm')]

/-- A message that begins no run is passed over. -/
theorem coalesceToolMetadata_cons {a : Message} {messages : List Message}
    (ha : blockOf a = none ∨ messages.head?.bind blockOf ≠ blockOf a) :
    coalesceToolMetadata (a :: messages) =
      (a :: (coalesceToolMetadata messages).1, (coalesceToolMetadata messages).2) := by
  rw [coalesceToolMetadata]
  cases hblock : blockOf a with
  | none => rfl
  | some inner =>
    have hends : messages.head?.bind blockOf ≠ some inner := by
      rcases ha with ha | ha
      · rw [hblock] at ha
        cases ha
      · rwa [hblock] at ha
    have hrun := @takeWhile_run inner [] messages (fun _ hm => absurd hm List.not_mem_nil) hends
    rw [List.nil_append] at hrun
    simp only [hrun, List.length_nil, List.drop_zero, if_true]

namespace FirstRun

variable {messages : List Message} {k total : Nat} {m : Message} {inner : Bytes}

theorem block (h : FirstRun messages k m inner total) : blockOf m = some inner := by
  induction h with
  | here hblock _ _ _ => exact hblock
  | later _ _ ih => exact ih

/-- Nothing is rewritten in front of the first run, whose first message gets its count. -/
theorem coalesce (h : FirstRun messages k m inner total) :
    (coalesceToolMetadata messages).1.take k = messages.take k ∧ messages[k]? = some m ∧
      (coalesceToolMetadata messages).1[k]? = some (annotate total inner m) := by
  induction h with
  | @here m inner run post hblock hrun hne hends =>
    refine ⟨rfl, rfl, ?_⟩
    rw [coalesceToolMetadata]
    simp only [hblock, takeWhile_run hrun hends, if_neg hne]
    rfl
  | later ha _ ih =>
    rw [coalesceToolMetadata_cons ha]
    obtain ⟨htake, hm, hnew⟩ := ih
    exact ⟨by rw [List.take_succ_cons, List.take_succ_cons, htake], hm, hnew⟩

end FirstRun

/-- Where blocks are removed there is a run. -/
theorem exists_firstRun {messages : List Message} (h : 0 < (coalesceToolMetadata messages).2) :
    ∃ k m inner total, FirstRun messages k m inner total := by
  induction messages with
  | nil =>
    rw [coalesceToolMetadata] at h
    exact absurd h (Nat.lt_irrefl 0)
  | cons a messages ih =>
    by_cases ha : blockOf a = none ∨ messages.head?.bind blockOf ≠ blockOf a
    · rw [coalesceToolMetadata_cons ha] at h
      obtain ⟨k, m, inner, total, hfirst⟩ := ih h
      exact ⟨k + 1, m, inner, total, .later ha hfirst⟩
    · obtain ⟨hsome, hhead⟩ := not_or.mp ha
      obtain ⟨inner, hblock⟩ := Option.ne_none_iff_exists'.mp hsome
      have hnext : messages.head?.bind blockOf = some inner := (not_not.mp hhead).trans hblock
      generalize hrun : messages.takeWhile (fun m => blockOf m == some inner) = run
      generalize hpost : messages.dropWhile (fun m => blockOf m == some inner) = post
      have hsplit : run ++ post = messages := by
        rw [← hrun, ← hpost, List.takeWhile_append_dropWhile]
      refine ⟨0, a, inner, run.length + 1, hsplit ▸ .here hblock ?_ ?_ ?_⟩
      · intro m hm
        rw [← hrun] at hm
        have hsame := List.mem_takeWhile_imp hm
        exact beq_iff_eq.mp hsame
      · intro hempty
        cases messages with
        | nil => cases hnext
        | cons m rest =>
          have hm : blockOf m = some inner := hnext
          rw [hempty, List.takeWhile_cons, if_pos (beq_iff_eq.mpr hm)] at hrun
          cases hrun
      · intro hpostHead
        cases post with
        | nil => cases hpostHead
        | cons m rest =>
          have hnot := List.head_dropWhile_not (fun m => blockOf m == some inner)
            (show messages.dropWhile (fun m => blockOf m == some inner) ≠ [] by
              rw [hpost]
              exact List.cons_ne_nil m rest)
          simp only [hpost, List.head_cons, beq_eq_false_iff_ne] at hnot
          exact hnot hpostHead

/-! ### The first message that gets shorter -/

theorem shortened_first {before after : List Message} {s : Nat}
    (h : (shortened before after).2 = some s) :
    ∃ m m', before[s]? = some m ∧ after[s]? = some m' ∧ m'.content.length < m.content.length := by
  simp only [shortened, List.findIdx?_eq_some_iff_getElem, decide_eq_true_eq, List.getElem_map,
    List.getElem_zip, List.length_map, List.length_zip] at h
  obtain ⟨hlen, hpos, -⟩ := h
  exact ⟨before[s], after[s], List.getElem?_eq_getElem (by omega),
    List.getElem?_eq_getElem (by omega), by omega⟩

theorem shortened_le {before after : List Message} {s k : Nat} {m m' : Message}
    (h : (shortened before after).2 = some s) (hm : before[k]? = some m)
    (hm' : after[k]? = some m') (hshort : m'.content.length < m.content.length) : s ≤ k := by
  simp only [shortened, List.findIdx?_eq_some_iff_getElem, decide_eq_true_eq, List.getElem_map,
    List.getElem_zip, List.length_map, List.length_zip] at h
  obtain ⟨hlen, -, hfirst⟩ := h
  obtain ⟨hk, rfl⟩ := List.getElem?_eq_some_iff.mp hm
  obtain ⟨hk', rfl⟩ := List.getElem?_eq_some_iff.mp hm'
  by_contra hlt
  exact hfirst k (by omega) (by omega)

theorem FirstRun.le_shortened {messages : List Message} {k total s : Nat} {m : Message} {inner : Bytes}
    (h : FirstRun messages k m inner total)
    (hs : (shortened messages (coalesceToolMetadata messages).1).2 = some s) : k ≤ s := by
  obtain ⟨b, b', hb, hb', hshort⟩ := shortened_first hs
  by_contra hlt
  have hsame := congrArg (fun l => l[s]?) h.coalesce.1
  simp only [List.getElem?_take, if_pos (Nat.lt_of_not_le hlt), hb, hb', Option.some_inj] at hsame
  rw [hsame] at hshort
  exact absurd hshort (Nat.lt_irrefl _)

theorem exists_shortened {before after : List Message} (h : 0 < (shortened before after).1) :
    ∃ s, (shortened before after).2 = some s := by
  obtain ⟨saved, hmem, hpos⟩ := List.sum_pos_iff_exists_pos_nat.mp h
  refine Option.ne_none_iff_exists'.mp ?_
  intro hnone
  have hzero := List.findIdx?_eq_none_iff.mp hnone saved hmem
  exact of_decide_eq_false hzero hpos

namespace ContextPruner

variable (env : Kernels) (fp : Doubles D) (p : ContextPruner D) (history : List Message)
  (call : PruneCall D)

/-- The pass gets through the gates. -/
def Adopts : Prop :=
  p.triggers env fp history call = true ∧
    ((p.handed env fp history call).1.coalesce p.opts).passes env fp p.opts history = true

/-- The coalescing begins in front of everything that the tiers record, with a message that gets
no shorter by its count. -/
def AnnotatesUnrecorded : Prop :=
  (p.handed env fp history call).1.coalesces p.opts = true ∧
    ∃ (k : Nat) (m : Message) (inner : Bytes) (total : Nat),
      FirstRun (p.handed env fp history call).1.messages k m inner total ∧
        Untouched (p.handed env fp history call).1.changes k ∧
        m.content.length ≤ (annotate total inner m).content.length

/-- The first index on record comes from a tier, and there stands what stood there: the message
that moves up for one left out is equal to it, or the message is rewritten as it was. -/
def PutsBack : Prop :=
  ∃ e j : Nat, (e : Int) ∈ (p.handed env fp history call).1.changes ∧
    (∀ i ∈ ((p.handed env fp history call).1.coalesce p.opts).changes, (e : Int) ≤ i) ∧
    (p.handedIndices env fp history call)[e]? = some j ∧
    if j = e then ((p.handed env fp history call).1.coalesce p.opts).messages[e]? = history[e]?
    else history[j]? = history[e]?

/-- In front of everything on record the tiers leave the history as it was. -/
theorem take_handed {n : Nat}
    (h : ∀ j < n, Untouched (p.handed env fp history call).1.changes j) :
    (p.handed env fp history call).1.messages.take n = history.take n := by
  have htake := (handed_recorded env fp p history call).take_eq (n := n)
    (fun j _ hj hdrop => hdrop.2 (h j hj)) (fun j _ _ hj hkeep => hkeep.2 (h j hj))
  rwa [Nat.sub_zero] at htake

/-- Where nothing is on record yet, the tiers leave the history as it was. -/
theorem handed_of_untouched {k : Nat} (h : Untouched (p.handed env fp history call).1.changes k) :
    (p.handed env fp history call).1.messages.take k = history.take k ∧
      (p.handed env fp history call).1.messages[k]? = history[k]? := by
  have htake := take_handed env fp p history call (n := k + 1) (by
    intro j hj i hi
    have hlt := h i hi
    omega)
  constructor
  · have hfront := congrArg (fun l => l.take k) htake
    simpa only [List.take_take, Nat.min_eq_left (Nat.le_succ k)] using hfront
  · have hplace := congrArg (fun l => l[k]?) htake
    simpa only [List.getElem?_take, if_pos (Nat.lt_succ_self k)] using hplace

variable {e : Nat}

theorem untouched_of_lt (h : ∀ i ∈ changes, (e : Int) ≤ i) {j : Nat} (hj : j < e) :
    Untouched changes j := by
  intro i hi
  have hle := h i hi
  omega

/-- A message that the tiers left out makes room for the next one that stays. -/
theorem index_of_leftOut {j : Nat}
    (h : ∀ i ∈ (p.handed env fp history call).1.changes, (e : Int) ≤ i) (hlen : e < history.length)
    (hj : (p.handedIndices env fp history call)[e]? = some j) (hne : j ≠ e) :
    e ∉ p.handedIndices env fp history call :=
  (handed_recorded env fp p history call).not_mem_of_moved
    (fun _ _ hj hdrop => hdrop.2 (untouched_of_lt h hj)) hlen hj hne

theorem coalesce_at (h : Handed) {k : Nat} {b : Message} (hb : h.messages[k]? = some b) :
    ∃ c, (h.coalesce p.opts).messages[k]? = some c ∧ c.role = b.role ∧
      (b.role ≠ roleTool → c = b) := by
  cases hcoalesces : h.coalesces p.opts with
  | false =>
    rw [messages_of_not_coalesces p hcoalesces]
    exact ⟨b, hb, rfl, fun _ => rfl⟩
  | true =>
    rw [messages_coalesce p hcoalesces]
    have hmarked := coalesceToolMetadata_marked h.messages none fun h => absurd rfl h
    have hlen : k < (coalesceToolMetadata h.messages).1.length := by
      rw [hmarked.length_eq]
      exact (List.getElem?_eq_some_iff.mp hb).1
    obtain ⟨c, hc⟩ : ∃ c, (coalesceToolMetadata h.messages).1[k]? = some c :=
      ⟨_, List.getElem?_eq_getElem hlen⟩
    obtain ⟨hnew, hsame⟩ := hmarked.at_mark hb hc
    refine ⟨c, hc, ?_, ?_⟩
    · by_cases hmark : (rewriteMarks none h.messages)[k]? = some true
      · exact (hnew hmark).role_eq
      · rw [hsame hmark]
    · intro hrole
      exact hsame fun hmark => hrole (hnew hmark).tool

theorem length_coalesce (h : Handed) :
    (h.coalesce p.opts).messages.length = h.messages.length := by
  cases hcoalesces : h.coalesces p.opts with
  | false => rw [messages_of_not_coalesces p hcoalesces]
  | true =>
    rw [messages_coalesce p hcoalesces]
    exact (coalesceToolMetadata_marked h.messages none fun h => absurd rfl h).length_eq

/-- When the first place on record holds again what it held. -/
theorem same_at_first_iff (hmem : (e : Int) ∈ (p.handed env fp history call).1.changes)
    (hleast : ∀ i ∈ (p.handed env fp history call).1.changes, (e : Int) ≤ i) :
    ((p.handed env fp history call).1.coalesce p.opts).messages[e]? = history[e]? ↔
      ∃ j, (p.handedIndices env fp history call)[e]? = some j ∧
        if j = e then ((p.handed env fp history call).1.coalesce p.opts).messages[e]? = history[e]?
        else history[j]? = history[e]? := by
  have hthinned := handed_thinned env fp p history call
  have hlen : e < history.length := by
    have hbounds := mem_handed_changes hmem
    omega
  obtain ⟨a, ha⟩ : ∃ a, history[e]? = some a := ⟨_, List.getElem?_eq_getElem hlen⟩
  -- a message that moved up is not a tool message if it is equal to one that was left out
  have hmoved : ∀ j, (p.handedIndices env fp history call)[e]? = some j → j ≠ e →
      (((p.handed env fp history call).1.coalesce p.opts).messages[e]? = history[e]? ↔
        history[j]? = history[e]?) := by
    intro j hj hne
    have hout := index_of_leftOut env fp p history call hleast hlen hj hne
    have hdrop := hthinned.drop_of_not_mem (Nat.zero_le e) ha hout
    have hrole : a.role ≠ roleTool := beq_eq_false_iff_ne.mp hdrop.not_tool
    obtain ⟨a', b, -, ha', hb, hcarried⟩ := hthinned.kept_spec hj
    obtain ⟨c, hc, hcrole, hsame⟩ := p.coalesce_at _ hb
    rw [Nat.sub_zero] at ha'
    rw [ha, hc, ha', Option.some_inj, Option.some_inj]
    constructor
    · rintro rfl
      have hb' := hsame (hcrole ▸ hrole)
      have ha'role : a'.role ≠ roleTool := by
        intro htool
        exact hrole (hcrole.trans (hcarried.paired htool).1)
      exact ((hcarried.verbatim ha'role).symm.trans hb'.symm)
    · rintro rfl
      have hb' := hcarried.verbatim hrole
      rw [hsame (by rw [hb']; exact hrole), hb']
  constructor
  · intro hsame
    have hthere : e < (p.handedIndices env fp history call).length := by
      have hlenEq := hthinned.length_kept
      have hresult := (List.getElem?_eq_some_iff.mp (hsame.trans ha)).1
      rw [length_coalesce] at hresult
      exact Nat.lt_of_lt_of_eq hresult hlenEq.symm
    obtain ⟨j, hj⟩ : ∃ j, (p.handedIndices env fp history call)[e]? = some j :=
      ⟨_, List.getElem?_eq_getElem hthere⟩
    refine ⟨j, hj, ?_⟩
    split
    · exact hsame
    · rename_i hne
      exact (hmoved j hj hne).mp hsame
  · rintro ⟨j, hj, hcond⟩
    split at hcond
    · exact hcond
    · rename_i hne
      exact (hmoved j hj hne).mpr hcond

/-! ### What a pass reports -/

theorem coalesce_changes_of_not {h : Handed} (hnot : h.coalesces p.opts = false) :
    (h.coalesce p.opts).changes = h.changes := by
  rw [messages_of_not_coalesces p hnot]

theorem coalesce_changes {h : Handed} (hcoalesces : h.coalesces p.opts = true) :
    ∃ s : Nat, (shortened h.messages (coalesceToolMetadata h.messages).1).2 = some s ∧
      (h.coalesce p.opts).changes = insert (s : Int) h.changes := by
  have hcond := hcoalesces
  simp only [Handed.coalesces, Bool.and_eq_true, decide_eq_true_eq] at hcond
  obtain ⟨s, hs⟩ := exists_shortened hcond.2
  refine ⟨s, hs, ?_⟩
  rw [Handed.coalesce, if_pos hcoalesces]
  simp only [hs]

/-- A pass with a run in front of everything on record is not as the history up to there. -/
theorem annotated_in_front (h : p.AnnotatesUnrecorded env fp history call)
    (hmem : (e : Int) ∈ ((p.handed env fp history call).1.coalesce p.opts).changes) :
    ((p.handed env fp history call).1.coalesce p.opts).messages.take e ≠ history.take e := by
  obtain ⟨hcoalesces, k, m, inner, total, hfirst, huntouched, hlonger⟩ := h
  obtain ⟨htake, hm, hnew⟩ := hfirst.coalesce
  obtain ⟨s, hs, hchanges⟩ := p.coalesce_changes hcoalesces
  obtain ⟨-, horiginal⟩ := handed_of_untouched env fp p history call huntouched
  -- the first message that gets shorter stands behind the annotated one
  have hbehind : k < s := by
    refine Nat.lt_of_le_of_ne (hfirst.le_shortened hs) ?_
    rintro rfl
    obtain ⟨b, b', hb, hb', hshort⟩ := shortened_first hs
    rw [Option.some_inj.mp (hb.symm.trans hm), Option.some_inj.mp (hb'.symm.trans hnew)] at hshort
    omega
  have hke : k < e := by
    rw [hchanges] at hmem
    rcases Finset.mem_insert.mp hmem with heq | hin
    · omega
    · have hlt := huntouched e hin
      omega
  intro hsame
  have hplace := congrArg (fun l => l[k]?) hsame
  simp only [List.getElem?_take, if_pos hke, messages_coalesce p hcoalesces] at hplace
  rw [hnew, ← horiginal, hm, Option.some_inj] at hplace
  exact (retouched_annotate hfirst.block total).changed hplace

/-- Otherwise it is, and the message there is another one unless a tier put it back. -/
theorem right_of_spared (hannotates : ¬ p.AnnotatesUnrecorded env fp history call)
    (hback : ¬ p.PutsBack env fp history call)
    (hmem : (e : Int) ∈ ((p.handed env fp history call).1.coalesce p.opts).changes)
    (hleast : ∀ i ∈ ((p.handed env fp history call).1.coalesce p.opts).changes, (e : Int) ≤ i) :
    e < history.length ∧
      ((p.handed env fp history call).1.coalesce p.opts).messages.take e = history.take e ∧
      ((p.handed env fp history call).1.coalesce p.opts).messages[e]? ≠ history[e]? := by
  -- an index of the tiers
  have htiers : (e : Int) ∈ (p.handed env fp history call).1.changes →
      (∀ i ∈ (p.handed env fp history call).1.changes, (e : Int) ≤ i) →
      ((p.handed env fp history call).1.coalesce p.opts).messages.take e =
        (p.handed env fp history call).1.messages.take e →
      e < history.length ∧
        ((p.handed env fp history call).1.coalesce p.opts).messages.take e = history.take e ∧
        ((p.handed env fp history call).1.coalesce p.opts).messages[e]? ≠ history[e]? := by
    intro hin hfirst htake
    have hbounds := mem_handed_changes hin
    refine ⟨by omega, ?_, ?_⟩
    · rw [htake]
      exact take_handed env fp p history call fun j hj => untouched_of_lt hfirst hj
    · intro hsame
      obtain ⟨j, hj, hcond⟩ := (same_at_first_iff env fp p history call hin hfirst).mp hsame
      exact hback ⟨e, j, hin, hleast, hj, hcond⟩
  cases hcoalesces : (p.handed env fp history call).1.coalesces p.opts with
  | false =>
    rw [p.coalesce_changes_of_not hcoalesces] at hmem hleast
    exact htiers hmem hleast (by rw [messages_of_not_coalesces p hcoalesces])
  | true =>
    obtain ⟨s, hs, hchanges⟩ := p.coalesce_changes hcoalesces
    have hremoves := hcoalesces
    simp only [Handed.coalesces, Bool.and_eq_true, decide_eq_true_eq] at hremoves
    obtain ⟨k, m, inner, total, hfirst⟩ := exists_firstRun hremoves.1.2
    obtain ⟨htake, hm, hnew⟩ := hfirst.coalesce
    have hks := hfirst.le_shortened hs
    rw [hchanges] at hmem hleast
    by_cases huntouched : Untouched (p.handed env fp history call).1.changes k
    · -- the run comes first, and its first message gets shorter
      have hshort : (annotate total inner m).content.length < m.content.length := by
        by_contra hlonger
        exact hannotates ⟨hcoalesces, k, m, inner, total, hfirst, huntouched, by omega⟩
      have hsk := shortened_le hs hm hnew hshort
      have hek : e = k := by
        have hle := hleast s (Finset.mem_insert_self ..)
        rcases Finset.mem_insert.mp hmem with heq | hin
        · omega
        · have hlt := huntouched e hin
          omega
      subst hek
      obtain ⟨hfront, horiginal⟩ := handed_of_untouched env fp p history call huntouched
      rw [hm] at horiginal
      refine ⟨(List.getElem?_eq_some_iff.mp horiginal.symm).1, ?_, ?_⟩
      · rw [messages_coalesce p hcoalesces, htake, hfront]
      · rw [messages_coalesce p hcoalesces, hnew, ← horiginal, Ne, Option.some_inj]
        exact (retouched_annotate hfirst.block total).changed
    · -- a tier comes first, or at the same place
      obtain ⟨i, hi, hik⟩ : ∃ i ∈ (p.handed env fp history call).1.changes, i ≤ (k : Int) := by
        by_contra hnone
        exact huntouched fun i hi => by
          by_contra hlt
          exact hnone ⟨i, hi, by omega⟩
      have hei := hleast i (Finset.mem_insert_of_mem hi)
      have hin : (e : Int) ∈ (p.handed env fp history call).1.changes := by
        rcases Finset.mem_insert.mp hmem with heq | hin
        · rwa [show (e : Int) = i by omega]
        · exact hin
      refine htiers hin (fun i hi => hleast i (Finset.mem_insert_of_mem hi)) ?_
      rw [messages_coalesce p hcoalesces]
      have hshorter := congrArg (fun l => l.take e) htake
      simp only [List.take_take, Nat.min_eq_left (show e ≤ k by omega)] at hshorter
      exact hshorter

theorem prune_of_adopts (h : p.Adopts env fp history call) :
    (p.prune env fp history call).1.messages =
        ((p.handed env fp history call).1.coalesce p.opts).messages ∧
      (p.prune env fp history call).1.earliestRemovedIndex =
        firstIndex ((p.handed env fp history call).1.coalesce p.opts).changes := by
  simp only [prune, h.1, if_true, finalizePruneResult, h.2]
  exact ⟨trivial, trivial⟩

theorem unchanged_of_not_adopts (h : ¬ p.Adopts env fp history call) :
    (p.prune env fp history call).1.earliestRemovedIndex = none := by
  cases htriggers : p.triggers env fp history call with
  | false => rw [prune_of_not_triggers env fp p history call htriggers]
  | true =>
    cases hpasses :
        ((p.handed env fp history call).1.coalesce p.opts).passes env fp p.opts history with
    | false => rw [prune_of_rollback env fp p history call htriggers hpasses]
    | true => exact absurd ⟨htriggers, hpasses⟩ h

end ContextPruner

/-- The index that a pass reports is one of the history. The messages in front of it are as they
were, and the one that stands there now is another. -/
def PruningResult.ReportsChange (history : List Message) (result : PruningResult) : Prop :=
  ∀ e, result.earliestRemovedIndex = some e →
    (0 ≤ e ∧ e < history.length) ∧ result.messages.take e.toNat = history.take e.toNat ∧
      result.messages[e.toNat]? ≠ history[e.toNat]?

namespace ContextPruner

variable (env : Kernels) (fp : Doubles D) (p : ContextPruner D) (history : List Message)
  (call : PruneCall D)

end ContextPruner

end KimixNative.Agent
