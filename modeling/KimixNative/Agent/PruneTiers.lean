import KimixNative.Agent.ContextPruning
import KimixNative.Lib.Thinning

/-!
# The tiers keep the protected set

Each tier asks the protected set before it takes a message: what Tiers A, B and C hand on is
the history without some ephemeral messages, with some tool messages rewritten, and with every
protected message as it was. The protected set itself does not depend on contents, so the
pass over compressed messages protects the same indices.
-/

namespace KimixNative.Agent

open Text

variable {D : Type}

/-- A message that a pass may leave out. -/
def Droppable (opts : PruningOptions D) (prot : Finset Int) (i : Nat) (m : Message) : Prop :=
  opts.isEphemeral m = true ∧ (i : Int) ∉ prot

/-- What a pass may put in the place of a message. -/
structure Carried (prot : Finset Int) (i : Nat) (m m' : Message) : Prop where
  guarded : (i : Int) ∈ prot → m' = m
  verbatim : m.role ≠ roleTool → m' = m
  paired : m.role = roleTool → m'.role = roleTool ∧ m'.toolCallId = m.toolCallId

theorem Carried.refl (prot : Finset Int) (i : Nat) (m : Message) : Carried prot i m m where
  guarded  := fun _ => rfl
  verbatim := fun _ => rfl
  paired   := fun h => ⟨h, rfl⟩

variable {prot : Finset Int} {opts : PruningOptions D} {history : List Message} {env : Kernels}

theorem Carried.role_eq {i : Nat} {m m' : Message} (h : Carried prot i m m') :
    (m'.role == roleTool) = (m.role == roleTool) := by
  by_cases hrole : m.role = roleTool
  · rw [hrole, (h.paired hrole).1]
  · rw [h.verbatim hrole]

theorem Droppable.not_tool {i : Nat} {m : Message} (h : Droppable opts prot i m) :
    (m.role == roleTool) = false := by
  refine beq_eq_false_iff_ne.mpr ?_
  intro hrole
  exact Bool.eq_false_iff.mp (not_isEphemeralMessage_of_tool _ _ _ hrole) h.1

/-! ### The protected set reads no contents -/

/-- A message without its content. -/
def Message.bare (m : Message) : Message := { m with content := [] }

theorem protectToolPairIndices_bare (history : List Message) (prot : Finset Int) :
    protectToolPairIndices (history.map Message.bare) prot =
      protectToolPairIndices history prot := by
  simp only [protectToolPairIndices, List.zipIdx_map, List.filter_map, List.any_map, List.map_map]
  rfl

theorem tailTurnIndices_bare (history : List Message) (recent : Int) :
    tailTurnIndices (history.map Message.bare) recent = tailTurnIndices history recent := by
  simp only [tailTurnIndices, List.zipIdx_map, ← List.map_reverse, List.filter_map, List.map_map]
  rfl

theorem computeProtectedIndices_congr {history' : List Message}
    (h : history'.map Message.bare = history.map Message.bare) (stable recent : Int)
    (turn depth : Option Int) :
    computeProtectedIndices history' stable recent turn depth =
      computeProtectedIndices history stable recent turn depth := by
  have hlen : history'.length = history.length := by
    simpa only [List.length_map] using congrArg List.length h
  have htail : tailTurnIndices history' recent = tailTurnIndices history recent := by
    rw [← tailTurnIndices_bare, h, tailTurnIndices_bare]
  have hpairs : ∀ prot, protectToolPairIndices history' prot = protectToolPairIndices history prot := by
    intro prot
    rw [← protectToolPairIndices_bare, h, protectToolPairIndices_bare]
  simp only [computeProtectedIndices, hlen, htail, hpairs]

/-! ### Tier C -/

/-- A tool message outside the protected set may be compressed. -/
structure Compressed (prot : Finset Int) (i : Nat) (m m' : Message) : Prop where
  bare_eq : m'.bare = m.bare
  guarded : (i : Int) ∈ prot → m' = m
  verbatim : m.role ≠ roleTool → m' = m

theorem Compressed.refl (prot : Finset Int) (i : Nat) (m : Message) : Compressed prot i m m where
  bare_eq  := rfl
  guarded  := fun _ => rfl
  verbatim := fun _ => rfl

theorem Compressed.role_eq {i : Nat} {m m' : Message} (h : Compressed prot i m m') :
    m'.role = m.role := congrArg (fun m => m.role) h.bare_eq

theorem Compressed.toolCallId_eq {i : Nat} {m m' : Message} (h : Compressed prot i m m') :
    m'.toolCallId = m.toolCallId :=
  congrArg (fun m => m.toolCallId) h.bare_eq

/-- A message stays as it was unless its index is recorded. -/
structure Noted (changes : Finset Int) (Keep : Nat → Message → Message → Prop) (i : Nat)
    (m m' : Message) : Prop where
  holds : Keep i m m'
  verbatim : (i : Int) ∉ changes → m' = m

namespace Noted

variable {changes : Finset Int} {Keep : Nat → Message → Message → Prop} {i : Nat} {m m' : Message}

theorem same (h : Keep i m m) : Noted changes Keep i m m where
  holds    := h
  verbatim := fun _ => rfl

theorem new (h : Keep i m m') : Noted (insert (i : Int) changes) Keep i m m' where
  holds    := h
  verbatim := fun hnot => absurd (Finset.mem_insert_self ..) hnot

theorem insert (j : Nat) (i : Nat) (m m' : Message) (h : Noted changes Keep i m m') :
    Noted (Insert.insert (j : Int) changes) Keep i m m' where
  holds    := h.holds
  verbatim := fun hnot => h.verbatim fun hin => hnot (Finset.mem_insert_of_mem hin)

end Noted

/-- A list whose messages were compressed, none left out. -/
abbrev CompressedList (prot : Finset Int) : Nat → List Message → List Nat → List Message → Prop :=
  Thinned (fun _ _ => False) (Compressed prot)

theorem compressMessage_bare {kind text compressed : Bytes} {m m' : Message}
    (h : compressMessage env kind m = some (m', text, compressed)) : m'.bare = m.bare := by
  simp only [compressMessage] at h
  split at h
  · cases h
  · cases h
    rfl

variable {c : Candidate} {call : PruneCall D} {fp : Doubles D} {sel : Selection}

theorem mem_tierCCandidates {excluded : Finset Int} {least : Int}
    (h : c ∈ tierCCandidates env history excluded least) :
    ∃ m, history[c.index]? = some m ∧ (c.index : Int) ∉ excluded ∧ m.role = roleTool := by
  simp only [tierCCandidates, List.mem_filterMap] at h
  obtain ⟨⟨m, i⟩, hmem, h⟩ := h
  by_cases hcond : (i : Int) ∈ excluded ∨ m.role ≠ roleTool
  · simp only [if_pos hcond, reduceCtorEq] at h
  · obtain ⟨hexcluded, hrole⟩ := not_or.mp hcond
    have hindex : c.index = i := by
      simp only [if_neg hcond] at h
      split_ifs at h <;> exact (Option.some_inj.mp h) ▸ rfl
    rw [hindex]
    exact ⟨m, List.mem_zipIdx_iff_getElem?.mp hmem, hexcluded, not_not.mp hrole⟩

/-- A message that is compressed is recorded. -/
theorem compressFrom_recorded (env : Kernels) (call : PruneCall D) {candidates : List Candidate}
    {i : Nat} {msgs : List Message}
    (h : ∀ k m, msgs[k]? = some m → ∀ c ∈ candidates, c.index = i + k → ((i + k : Nat) : Int) ∉ prot
      ∧ m.role = roleTool) (refs : Refs) :
    Thinned (fun _ _ => False)
      (Noted (compressFrom env call candidates i msgs refs).changes (Compressed prot)) i msgs
      (List.range' i msgs.length) (compressFrom env call candidates i msgs refs).messages := by
  induction msgs generalizing i refs with
  | nil => exact .nil i
  | cons msg rest ih =>
    have hrest : ∀ k m, rest[k]? = some m → ∀ c ∈ candidates, c.index = i + 1 + k →
        ((i + 1 + k : Nat) : Int) ∉ prot ∧ m.role = roleTool := by
      intro k m hk c hc hindex
      have hshift : i + 1 + k = i + (k + 1) := by omega
      rw [hshift] at hindex ⊢
      exact h (k + 1) m hk c hc hindex
    have hcopy : ∀ copy text compressed,
        ((candidates.find? fun c => c.index = i).bind fun c =>
          compressMessage env c.kind msg) = some (copy, text, compressed) →
        Compressed prot i msg copy := by
      intro copy text compressed hfound
      obtain ⟨c, hc, hcompress⟩ := Option.bind_eq_some_iff.mp hfound
      have hindex : c.index = i := by
        simpa only [decide_eq_true_eq] using List.find?_some hc
      obtain ⟨hprot, hrole⟩ := h 0 msg rfl c (List.mem_of_find?_eq_some hc) hindex
      exact ⟨compressMessage_bare hcompress, fun hin => absurd hin hprot,
        fun hne => absurd hrole hne⟩
    unfold compressFrom
    split
    · exact .keep (.same (.refl ..)) (ih hrest refs)
    · rename_i hfound
      split
      · exact .keep (.new (hcopy _ _ _ hfound)) ((ih hrest _).mono (fun _ _ h => h) (.insert i))
      · exact .keep (.new (hcopy _ _ _ hfound)) ((ih hrest refs).mono (fun _ _ h => h) (.insert i))

theorem tierCPass_recorded (env : Kernels) (opts : PruningOptions D) (history : List Message)
    (call : PruneCall D) (refs : Refs) :
    Thinned (fun _ _ => False)
      (Noted (tierCPass env opts history call refs).changes
        (Compressed (call.protectedIndices opts history)))
      0 history (List.range' 0 history.length) (tierCPass env opts history call refs).messages := by
  unfold tierCPass
  split
  · refine compressFrom_recorded env call ?_ refs
    intro k m hk c hc hindex
    obtain ⟨m', hm', hexcluded, hrole⟩ := mem_tierCCandidates hc
    rw [Nat.zero_add] at hindex ⊢
    rw [hindex] at hm' hexcluded
    obtain rfl : m = m' := Option.some_inj.mp (hk.symm.trans hm')
    exact ⟨fun hin => hexcluded (Finset.mem_union_left _ hin), hrole⟩
  · exact .refl (fun j m => .same (Compressed.refl _ j m)) 0 history

theorem tierCPass_compressed (env : Kernels) (opts : PruningOptions D) (history : List Message)
    (call : PruneCall D) (refs : Refs) :
    CompressedList (call.protectedIndices opts history) 0 history (List.range' 0 history.length)
      (tierCPass env opts history call refs).messages :=
  (tierCPass_recorded env opts history call refs).mono (fun _ _ h => h) fun _ _ _ h => h.holds

theorem Compressed.map_bare {i : Nat} {msgs out : List Message} {all : List Nat}
    (h : CompressedList prot i msgs all out) : out.map Message.bare = msgs.map Message.bare := by
  induction h with
  | nil => rfl
  | drop hd => exact hd.elim
  | keep hk _ ih => simp only [List.map_cons, hk.bare_eq, ih]

theorem protectedIndices_work (env : Kernels) (opts : PruningOptions D) (history : List Message)
    (call : PruneCall D) (refs : Refs) :
    call.protectedIndices opts (tierCPass env opts history call refs).messages =
      call.protectedIndices opts history :=
  computeProtectedIndices_congr (Compressed.map_bare (tierCPass_compressed env opts history call refs))
    ..

/-! ### Tiers A and B -/

theorem mem_tierACandidates (h : c ∈ tierACandidates opts history prot) :
    (c.index : Int) ∉ prot := by
  have hentry : ∀ q ∈ history.zipIdx.filter fun q =>
      decide ((q.2 : Int) ∉ prot) && opts.isEphemeral q.1, (q.2 : Int) ∉ prot := by
    intro q hq
    exact of_decide_eq_true (Bool.and_eq_true_iff.mp (List.mem_filter.mp hq).2).1
  simp only [tierACandidates, List.mem_append, List.mem_map] at h
  rcases h with h | ⟨q, hq, rfl⟩
  · split at h
    · obtain ⟨q, hq, rfl⟩ := List.mem_map.mp h
      exact hentry q (List.mem_filter.mp (List.mem_of_mem_dropLast hq)).1
    · cases h
  · exact hentry q (List.mem_filter.mp hq).1

theorem mem_tierBCandidates {least : Int} (h : c ∈ tierBCandidates history prot least) :
    (c.index : Int) ∉ prot := by
  simp only [tierBCandidates, List.mem_filterMap] at h
  obtain ⟨⟨m, i⟩, hmem, h⟩ := h
  by_cases hcond : (i : Int) ∈ prot ∨ m.role ≠ roleTool ∨ stripWs m.content = []
  · simp only [if_pos hcond, reduceCtorEq] at h
  · have hindex : c.index = i := by
      simp only [if_neg hcond] at h
      split_ifs at h <;> exact (Option.some_inj.mp h) ▸ rfl
    rw [hindex]
    exact (not_or.mp hcond).1

variable {budget j : Int} {p : ContextPruner D}

theorem mem_bothTiers {e : CandidateEntry} (h : e ∈ bothTiers opts history prot budget) :
    (e.index : Int) ∉ prot := by
  simp only [bothTiers, List.mem_append] at h
  rcases h with h | h
  · obtain ⟨c, hc, rfl⟩ := List.mem_map.mp (List.mem_ite_nil_right.mp h).2
    exact mem_tierACandidates hc
  · obtain ⟨c, hc, rfl⟩ := List.mem_map.mp (List.mem_ite_nil_right.mp h).2
    exact mem_tierBCandidates (List.mem_filter.mp hc).1

theorem fillBudget_selected {candidates : List CandidateEntry} {selected : Finset Int} {freed : Int}
    (h : j ∈ (fillBudget budget candidates selected freed).1) :
    j ∈ selected ∨ ∃ e ∈ candidates, (e.index : Int) = j := by
  induction candidates generalizing selected freed with
  | nil => exact Or.inl h
  | cons c rest ih =>
    simp only [fillBudget] at h
    split_ifs at h
    · exact Or.inl h
    · rcases ih h with hsel | ⟨e, he, hj⟩
      · exact Or.inl hsel
      · exact Or.inr ⟨e, List.mem_cons_of_mem _ he, hj⟩
    · rcases ih h with hsel | ⟨e, he, hj⟩
      · rcases Finset.mem_insert.mp hsel with rfl | hsel
        · exact Or.inr ⟨c, List.mem_cons_self .., rfl⟩
        · exact Or.inl hsel
      · exact Or.inr ⟨e, List.mem_cons_of_mem _ he, hj⟩

/-- Nothing protected is selected. -/
theorem selectCandidates_selected (h : selectCandidates env fp opts history call = some sel)
    (hj : j ∈ sel.selected) : j ∉ call.protectedIndices opts history := by
  simp only [selectCandidates] at h
  split_ifs at h
  obtain rfl := Option.some_inj.mp h
  rcases fillBudget_selected hj with hempty | ⟨e, he, rfl⟩
  · exact absurd hempty (Finset.notMem_empty j)
  · exact mem_bothTiers (List.mem_mergeSort.mp he)

/-- A message that `python_prune` leaves out. -/
def leavesOut (opts : PruningOptions D) (sel : Selection) (q : Message × Nat) : Bool :=
  decide ((q.2 : Int) ∈ sel.selected) && opts.isEphemeral q.1

/-- The indices that `python_prune` keeps. -/
def survivors (opts : PruningOptions D) (sel : Option Selection) (history : List Message) :
    List Nat :=
  match sel with
  | none => List.range' 0 history.length
  | some sel => (history.zipIdx.filter fun q => !leavesOut opts sel q).map Prod.snd

/-- A message that goes, or is rewritten, is recorded. -/
theorem rebuildFrom_recorded (call : PruneCall D) (hsel : ∀ j ∈ sel.selected, j ∉ prot) (i : Nat)
    (msgs : List Message) (refs : Refs) :
    Thinned
      (fun j m => Droppable opts prot j m ∧ (j : Int) ∈ (rebuildFrom opts call sel i msgs refs).changes)
      (Noted (rebuildFrom opts call sel i msgs refs).changes (Carried prot)) i msgs
      (((msgs.zipIdx i).filter fun q => !leavesOut opts sel q).map Prod.snd)
      (rebuildFrom opts call sel i msgs refs).messages := by
  induction msgs generalizing i refs with
  | nil => exact .nil i
  | cons msg rest ih =>
    have hkept : leavesOut opts sel (msg, i) = false →
        (((msg :: rest).zipIdx i).filter fun q => !leavesOut opts sel q).map Prod.snd =
          i :: ((rest.zipIdx (i + 1)).filter fun q => !leavesOut opts sel q).map Prod.snd := by
      intro hout
      rw [List.zipIdx_cons, List.filter_cons_of_pos (by rw [hout]; rfl), List.map_cons]
    have hgrow : ∀ {changes : Finset Int} (j : Nat) (m : Message),
        Droppable opts prot j m ∧ (j : Int) ∈ changes →
          Droppable opts prot j m ∧ (j : Int) ∈ insert (i : Int) changes :=
      fun _ _ h => ⟨h.1, Finset.mem_insert_of_mem h.2⟩
    have hgone : leavesOut opts sel (msg, i) = true →
        (((msg :: rest).zipIdx i).filter fun q => !leavesOut opts sel q).map Prod.snd =
          ((rest.zipIdx (i + 1)).filter fun q => !leavesOut opts sel q).map Prod.snd := by
      intro hout
      rw [List.zipIdx_cons, List.filter_cons_of_neg (by rw [hout]; simp)]
    unfold rebuildFrom
    by_cases hin : (i : Int) ∈ sel.selected
    · rw [if_neg (not_not.mpr hin)]
      by_cases heph : opts.isEphemeral msg = true
      · rw [if_pos heph, hgone (by simp only [leavesOut, hin, heph, decide_true, Bool.and_self])]
        exact .drop ⟨⟨heph, hsel _ hin⟩, Finset.mem_insert_self ..⟩
          ((ih (i + 1) refs).mono hgrow (.insert i))
      · rw [if_neg heph, hkept (by simp only [leavesOut, heph, Bool.and_false])]
        by_cases hrole : msg.role = roleTool
        · rw [if_neg (not_not.mpr hrole)]
          refine .keep (.new ?_) ((ih (i + 1) _).mono hgrow (.insert i))
          exact ⟨fun hprot => absurd hprot (hsel _ hin), fun hne => absurd hrole hne,
            fun _ => ⟨hrole, rfl⟩⟩
        · rw [if_pos hrole]
          exact .keep (.same (.refl ..)) (ih (i + 1) refs)
    · rw [if_pos hin, hkept (by simp only [leavesOut, hin, decide_false, Bool.false_and])]
      exact .keep (.same (.refl ..)) (ih (i + 1) refs)

/-! ### What the tiers record -/

/-- No recorded index stands at the place or in front of it. -/
def Untouched (changes : Finset Int) (j : Nat) : Prop := ∀ i ∈ changes, (j : Int) < i

theorem Untouched.not_mem {changes : Finset Int} {j : Nat} (h : Untouched changes j) :
    (j : Int) ∉ changes := fun hin => absurd (h j hin) (Int.lt_irrefl j)

theorem mem_handed_of_work (h : j ∈ (p.workHistory env history call).changes) :
    j ∈ (p.handed env fp history call).1.changes := by
  simp only [ContextPruner.handed]
  split
  · exact h
  · exact Finset.mem_insert_of_mem h

/-- The first index that `python_prune` records is handed on. -/
theorem exists_handed_of_rebuild
    (hsel : selectCandidates env fp p.opts (p.workHistory env history call).messages call = some
      sel)
    (h : j ∈ (rebuildFrom p.opts call sel 0 (p.workHistory env history call).messages (p.workHistory
      env history call).refs).changes) : ∃ i ∈ (p.handed env fp history call).1.changes, i ≤ j := by
  obtain ⟨i, hi⟩ := exists_firstIndex h
  refine ⟨i, ?_, (firstIndex_eq_some.mp hi).2 j h⟩
  simp only [ContextPruner.handed, pythonPrune, hsel, hi]
  exact Finset.mem_insert_self ..

/-- What the tiers hand on is intact, and as it was in front of everything they record. -/
theorem handed_recorded (env : Kernels) (fp : Doubles D) (p : ContextPruner D)
    (history : List Message) (call : PruneCall D) :
    Thinned
      (fun j m => Droppable p.opts (call.protectedIndices p.opts history) j m ∧
        ¬ Untouched (p.handed env fp history call).1.changes j)
      (fun j m m' => Carried (call.protectedIndices p.opts history) j m m' ∧
        (Untouched (p.handed env fp history call).1.changes j → m' = m)) 0 history
      (survivors p.opts (selectCandidates env fp p.opts (p.workHistory env history call).messages call)
        (p.workHistory env history call).messages)
      (p.handed env fp history call).1.messages := by
  have hwork := tierCPass_recorded env p.opts history call ⟨p.refCounter, 0⟩
  have hprot := protectedIndices_work env p.opts history call ⟨p.refCounter, 0⟩
  have hbase : Thinned
      (fun j m => Droppable p.opts (call.protectedIndices p.opts history) j m ∧
        ¬ Untouched (p.handed env fp history call).1.changes j)
      (fun j m m' => Carried (call.protectedIndices p.opts history) j m m' ∧
        (Untouched (p.handed env fp history call).1.changes j → m' = m)) 0
      (p.workHistory env history call).messages
      (survivors p.opts
        (selectCandidates env fp p.opts (p.workHistory env history call).messages call)
        (p.workHistory env history call).messages)
      (p.handed env fp history call).1.messages := by
    cases hsel : selectCandidates env fp p.opts (p.workHistory env history call).messages call with
    | none =>
      have hmessages : (p.handed env fp history call).1.messages =
          (p.workHistory env history call).messages := by
        simp only [ContextPruner.handed, pythonPrune, hsel]
      rw [hmessages]
      exact .refl (fun j m => ⟨Carried.refl _ j m, fun _ => rfl⟩) 0 _
    | some sel =>
      have hmessages : (p.handed env fp history call).1.messages =
          (rebuildFrom p.opts call sel 0 (p.workHistory env history call).messages
            (p.workHistory env history call).refs).messages := by
        simp only [ContextPruner.handed, pythonPrune, hsel]
      have hbefore : ∀ j : Nat, Untouched (p.handed env fp history call).1.changes j →
          (j : Int) ∉ (rebuildFrom p.opts call sel 0 (p.workHistory env history call).messages
            (p.workHistory env history call).refs).changes := by
        intro j hun hin
        obtain ⟨i, hi, hle⟩ := exists_handed_of_rebuild hsel hin
        exact absurd (hun i hi) (Int.not_lt.mpr hle)
      rw [hmessages]
      have hselected : ∀ j ∈ sel.selected, j ∉ call.protectedIndices p.opts history :=
        fun j hj => hprot ▸ selectCandidates_selected hsel hj
      refine (rebuildFrom_recorded call hselected 0 _ _).mono ?_ ?_
      · intro j m hdrop
        exact ⟨hdrop.1, fun hun => hbefore j hun hdrop.2⟩
      · intro j m m' hnoted
        exact ⟨hnoted.holds, fun hun => hnoted.verbatim (hbefore j hun)⟩
  refine hwork.comp hbase ?_ ?_
  · rintro j m m' hm ⟨hdrop, hun⟩
    have hrole : m.role ≠ roleTool := by
      intro hrole
      have hnot := hdrop.not_tool
      rw [hm.holds.role_eq, hrole] at hnot
      cases hnot
    rw [hm.holds.verbatim hrole] at hdrop
    exact ⟨hdrop, hun⟩
  · rintro j m m' m'' hm ⟨hcarried, hsame⟩
    refine ⟨⟨fun hin => ?_, fun hrole => ?_, fun hrole => ?_⟩, fun hun => ?_⟩
    · exact (hcarried.guarded hin).trans (hm.holds.guarded hin)
    · have hsame := hm.holds.verbatim hrole
      exact (hcarried.verbatim (by rw [hsame]; exact hrole)).trans hsame
    · obtain ⟨htool, hid⟩ := hcarried.paired (hm.holds.role_eq.trans hrole)
      exact ⟨htool, hid.trans hm.holds.toolCallId_eq⟩
    · exact (hsame hun).trans (hm.verbatim fun hin => hun.not_mem (mem_handed_of_work hin))

/-- What the tiers hand on is intact. -/
theorem handed_thinned (env : Kernels) (fp : Doubles D) (p : ContextPruner D)
    (history : List Message) (call : PruneCall D) :
    Thinned (Droppable p.opts (call.protectedIndices p.opts history))
      (Carried (call.protectedIndices p.opts history)) 0 history
      (survivors p.opts (selectCandidates env fp p.opts (p.workHistory env history call).messages call)
        (p.workHistory env history call).messages)
      (p.handed env fp history call).1.messages :=
  (handed_recorded env fp p history call).mono (fun _ _ h => h.1) fun _ _ _ h => h.1

end KimixNative.Agent
