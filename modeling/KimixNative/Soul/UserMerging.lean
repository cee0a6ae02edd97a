import KimixNative.Soul.RequestBuilder

/-!
# Merging adjacent user messages

The second stage of `build_request`. Adjacent user messages become one, unless one of them
is a notification or a system reminder. The parts of all messages are appended to a shared
store; what each output message keeps of it is a first index and a count, both cut to
32 bits, and the spans are made from them at the end.

The stage is compared with the groups it forms. Groups have the properties one expects of
them, and the output shows the groups as long as every one of them is found at its 32-bit
index.
-/

namespace KimixNative.Soul

def kRoleUser : BitVec 8 := 1

/-! ## Classification -/

/-- The blanks that `single_text_starts_with` skips. -/
def isBlank (b : Byte) : Bool :=
  b == 0x20 || b == 0x09 || b == 0x0A || b == 0x0D || b == 0x0C || b == 0x0B

def singleTextStartsWith (parts : List PartView) (start : Bytes) : Bool :=
  match parts with
  | [p] => p.kind = .text ∧ start <+: (p.text.getD []).dropWhile isBlank
  | _ => false

def isSystemReminder (mv : MessageView) : Bool :=
  mv.role = kRoleUser ∧ singleTextStartsWith mv.parts (asciiBytes "<system-reminder>")

def isNotification (mv : MessageView) : Bool :=
  mv.role = kRoleUser ∧ singleTextStartsWith mv.parts (asciiBytes "<notification ")

/-- A notification or a system reminder. -/
def isSpecial (mv : MessageView) : Bool := isNotification mv || isSystemReminder mv

/-- A user message that may be merged. -/
def Plain (mv : MessageView) : Prop := mv.role = kRoleUser ∧ isSpecial mv = false

instance (mv : MessageView) : Decidable (Plain mv) := inferInstanceAs (Decidable (_ ∧ _))

/-! ## The stage -/

/-- A message of `out` with its elements of `first` and `count`. -/
structure OutSlot where
  view : MessageView
  first : BitVec 32
  count : BitVec 32
  deriving DecidableEq, Repr

/-- `merge` in the source. -/
def merges (back mv : MessageView) : Bool :=
  back.role = kRoleUser ∧ mv.role = kRoleUser ∧ ¬isNotification back ∧ ¬isNotification mv ∧
    ¬isSystemReminder back ∧ ¬isSystemReminder mv

/-- One round of the loop, on the slots and the part store. -/
def mergeStep (st : List OutSlot × List PartView) (mv : MessageView) : List OutSlot × List PartView :=
  match st.1.getLast? with
  | some back =>
    if merges back.view mv then
      (st.1.dropLast ++ [{ back with count := back.count + BitVec.ofNat 32 mv.parts.length }],
        st.2 ++ mv.parts)
    else
      (st.1 ++ [⟨mv, BitVec.ofNat 32 st.2.length, BitVec.ofNat 32 mv.parts.length⟩],
        st.2 ++ mv.parts)
  | none =>
    (st.1 ++ [⟨mv, BitVec.ofNat 32 st.2.length, BitVec.ofNat 32 mv.parts.length⟩],
      st.2 ++ mv.parts)

/-- A message with its span of the store. -/
def OutSlot.fill (store : List PartView) (s : OutSlot) : MessageView :=
  { s.view with parts := (store.drop s.first.toNat).take s.count.toNat }

/-- `normalize_views`; both callers pass an empty store. -/
def normalizeViews (input : List MessageView) : List MessageView :=
  let st := input.foldl mergeStep ([], [])
  st.1.map (OutSlot.fill st.2)

/-! ## Groups -/

/-- A message and those that are merged into it. -/
structure Group where
  head : MessageView
  tail : List MessageView

namespace Group

def parts (g : Group) : List PartView := g.head.parts ++ g.tail.flatMap MessageView.parts

/-- The message a group stands for. -/
def merged (g : Group) : MessageView := { g.head with parts := g.parts }

end Group

/-- The groups of a list that goes on after a group. -/
def groupsAfter (head : MessageView) (tail : List MessageView) : List MessageView → List Group
  | [] => [⟨head, tail⟩]
  | mv :: rest =>
    if merges head mv then groupsAfter head (tail ++ [mv]) rest
    else ⟨head, tail⟩ :: groupsAfter mv [] rest

/-- The groups of a list of messages. -/
def groups : List MessageView → List Group
  | [] => []
  | mv :: rest => groupsAfter mv [] rest

/-- The slots of groups whose parts start at some index. -/
def slotsFrom (index : Nat) : List Group → List OutSlot
  | [] => []
  | g :: gs =>
    ⟨g.head, BitVec.ofNat 32 index, BitVec.ofNat 32 g.parts.length⟩ ::
      slotsFrom (index + g.parts.length) gs

theorem mergeStep_concat (slots : List OutSlot) (back : OutSlot) (store : List PartView)
    (mv : MessageView) :
    mergeStep (slots ++ [back], store) mv =
      if merges back.view mv then
        (slots ++ [{ back with count := back.count + BitVec.ofNat 32 mv.parts.length }],
          store ++ mv.parts)
      else
        (slots ++ [back] ++
            [⟨mv, BitVec.ofNat 32 store.length, BitVec.ofNat 32 mv.parts.length⟩],
          store ++ mv.parts) := by
  simp [mergeStep]

/-- The loop after a first message lays out the groups. -/
theorem foldl_mergeStep (slots : List OutSlot) (store : List PartView) (head : MessageView)
    (tail rest : List MessageView) :
    rest.foldl mergeStep (slots ++ [⟨head, BitVec.ofNat 32 store.length,
        BitVec.ofNat 32 (Group.mk head tail).parts.length⟩], store ++ (Group.mk head tail).parts) =
      (slots ++ slotsFrom store.length (groupsAfter head tail rest),
        store ++ (Group.mk head tail).parts ++ rest.flatMap MessageView.parts) := by
  induction rest generalizing slots store head tail with
  | nil => simp [groupsAfter, slotsFrom]
  | cons mv rest ih =>
    have hmore : (Group.mk head (tail ++ [mv])).parts = (Group.mk head tail).parts ++ mv.parts := by
      simp [Group.parts]
    rw [List.foldl_cons, mergeStep_concat, groupsAfter]
    split
    · have hih := ih slots store head (tail ++ [mv])
      rw [hmore, List.length_append, BitVec.ofNat_add] at hih
      simpa [List.append_assoc] using hih
    · have hih := ih (slots ++ [⟨head, BitVec.ofNat 32 store.length,
        BitVec.ofNat 32 (Group.mk head tail).parts.length⟩])
        (store ++ (Group.mk head tail).parts) mv []
      have halone : (Group.mk mv []).parts = mv.parts := by simp [Group.parts]
      rw [halone] at hih
      simpa [slotsFrom, List.append_assoc] using hih

theorem normalizeViews_eq (input : List MessageView) :
    normalizeViews input =
      (slotsFrom 0 (groups input)).map (OutSlot.fill (input.flatMap MessageView.parts)) := by
  cases input with
  | nil => rfl
  | cons mv rest =>
    have hloop := foldl_mergeStep [] [] mv [] rest
    have halone : (Group.mk mv []).parts = mv.parts := by simp [Group.parts]
    rw [halone] at hloop
    simp only [List.nil_append, List.length_nil] at hloop
    have hfirst : mergeStep ([], []) mv =
        ([⟨mv, BitVec.ofNat 32 0, BitVec.ofNat 32 mv.parts.length⟩], mv.parts) := rfl
    rw [normalizeViews, List.foldl_cons, hfirst, hloop, List.flatMap_cons]
    rfl

/-! ## What grouping keeps -/

theorem merges_iff {back mv : MessageView} : merges back mv = true ↔ Plain back ∧ Plain mv := by
  simp only [merges, Plain, isSpecial, decide_eq_true_eq, Bool.or_eq_false_iff,
    Bool.not_eq_true]
  tauto

/-- Only user messages that may be merged have been merged. -/
def Group.Joined (g : Group) : Prop :=
  g.tail ≠ [] → Plain g.head ∧ ∀ mv ∈ g.tail, Plain mv

theorem joined_alone (mv : MessageView) : (Group.mk mv []).Joined := fun h => absurd rfl h

variable {tail input : List MessageView}

theorem Group.Joined.append {head mv : MessageView} (h : (Group.mk head tail).Joined)
    (hmerges : merges head mv = true) : (Group.mk head (tail ++ [mv])).Joined := by
  obtain ⟨hhead, hmv⟩ := merges_iff.mp hmerges
  intro _
  refine ⟨hhead, ?_⟩
  intro m hm
  obtain hold | hnew := List.mem_append.mp hm
  · exact (h (List.ne_nil_of_mem hold)).2 m hold
  · exact List.mem_singleton.mp hnew ▸ hmv

theorem joined_groupsAfter {head : MessageView} (h : (Group.mk head tail).Joined)
    (rest : List MessageView) : ∀ g ∈ groupsAfter head tail rest, g.Joined := by
  induction rest generalizing head tail with
  | nil => simpa [groupsAfter] using h
  | cons mv rest ih =>
    rw [groupsAfter]
    split
    · next hmerges => exact ih (h.append hmerges)
    · exact List.forall_mem_cons.mpr ⟨h, ih (joined_alone mv)⟩

theorem joined_groups (input : List MessageView) : ∀ g ∈ groups input, g.Joined := by
  cases input with
  | nil => exact fun g hg => absurd hg List.not_mem_nil
  | cons mv rest => exact joined_groupsAfter (joined_alone mv) rest

/-- The groups are the messages. -/
theorem flatMap_groupsAfter (head : MessageView) (tail rest : List MessageView) :
    ((groupsAfter head tail rest).flatMap fun g => g.head :: g.tail) = head :: tail ++ rest := by
  induction rest generalizing head tail with
  | nil => simp [groupsAfter]
  | cons mv rest ih =>
    rw [groupsAfter]
    split
    · simp [ih]
    · simp [ih]

theorem flatMap_groups (input : List MessageView) :
    ((groups input).flatMap fun g => g.head :: g.tail) = input := by
  cases input with
  | nil => rfl
  | cons mv rest => exact flatMap_groupsAfter mv [] rest

theorem flatMap_parts_groups (input : List MessageView) :
    (groups input).flatMap Group.parts = input.flatMap MessageView.parts := by
  conv_rhs => rw [← flatMap_groups input]
  rw [List.flatMap_assoc]
  rfl

/-- A single text is the part of one of the messages. -/
theorem singleTextStartsWith_append {parts parts' : List PartView} {start : Bytes}
    (h : singleTextStartsWith (parts ++ parts') start = true) :
    singleTextStartsWith parts start = true ∨ singleTextStartsWith parts' start = true := by
  match parts, parts' with
  | [], _ => exact .inr h
  | [p], [] => exact .inl h
  | [_], _ :: _ => cases h
  | _ :: _ :: _, _ => cases h

theorem singleTextStartsWith_flatMap {start : Bytes}
    (h : singleTextStartsWith (tail.flatMap MessageView.parts) start = true) :
    ∃ mv ∈ tail, singleTextStartsWith mv.parts start = true := by
  induction tail with
  | nil => cases h
  | cons mv tail ih =>
    obtain hmv | htail := singleTextStartsWith_append h
    · exact ⟨mv, List.mem_cons_self, hmv⟩
    · obtain ⟨m, hm, hstart⟩ := ih htail
      exact ⟨m, List.mem_cons_of_mem mv hm, hstart⟩

theorem plain_iff {mv : MessageView} : Plain mv ↔ mv.role = kRoleUser ∧
    singleTextStartsWith mv.parts (asciiBytes "<notification ") = false ∧
    singleTextStartsWith mv.parts (asciiBytes "<system-reminder>") = false := by
  unfold Plain isSpecial isNotification isSystemReminder
  by_cases hrole : mv.role = kRoleUser <;> simp [hrole]

@[simp] theorem merged_alone (mv : MessageView) : (Group.mk mv []).merged = mv := by
  simp [Group.merged, Group.parts]

/-- Merging makes no notification and no reminder. -/
theorem Group.Joined.plain_merged {g : Group} (h : g.Joined) : Plain g.merged ↔ Plain g.head := by
  by_cases htail : g.tail = []
  · obtain ⟨head, tail⟩ := g
    obtain rfl : tail = [] := htail
    rw [merged_alone]
  obtain ⟨hhead, hall⟩ := h htail
  refine iff_of_true ?_ hhead
  have hstart : ∀ start, singleTextStartsWith g.head.parts start = false →
      (∀ mv ∈ g.tail, singleTextStartsWith mv.parts start = false) →
      singleTextStartsWith g.merged.parts start = false := by
    intro start hnone hnones
    by_contra hsome
    obtain hfirst | hlater := singleTextStartsWith_append (Bool.not_eq_false _ ▸ hsome)
    · rw [hnone] at hfirst
      cases hfirst
    · obtain ⟨mv, hmv, hmatch⟩ := singleTextStartsWith_flatMap hlater
      rw [hnones mv hmv] at hmatch
      cases hmatch
  obtain ⟨hrole, hnotification, hreminder⟩ := plain_iff.mp hhead
  exact plain_iff.mpr ⟨hrole, hstart _ hnotification fun mv hmv => (plain_iff.mp (hall mv hmv)).2.1,
    hstart _ hreminder fun mv hmv => (plain_iff.mp (hall mv hmv)).2.2⟩

/-- Messages of a kind that is never merged come through. -/
theorem filter_merged {p : MessageView → Bool} (hp : ∀ mv, Plain mv → p mv = false)
    (input : List MessageView) : ((groups input).map Group.merged).filter p = input.filter p := by
  have hone : ∀ g ∈ groups input, [g.merged].filter p = (g.head :: g.tail).filter p := by
    intro g hg
    have hjoined := joined_groups input g hg
    obtain ⟨head, tail⟩ := g
    by_cases htail : tail = []
    · subst htail
      rw [merged_alone]
    · obtain ⟨hhead, hall⟩ := hjoined htail
      rw [List.filter_eq_nil_iff.mpr, List.filter_eq_nil_iff.mpr]
      · intro mv hmv
        obtain rfl | hmv := List.mem_cons.mp hmv
        · simp [hp _ hhead]
        · simp [hp _ (hall mv hmv)]
      · intro mv hmv
        rw [List.mem_singleton.mp hmv]
        simp [hp _ (hjoined.plain_merged.mpr hhead)]
  conv_rhs => rw [← flatMap_groups input, List.filter_flatMap]
  rw [← List.flatMap_singleton' ((groups input).map Group.merged), List.flatMap_map,
    List.filter_flatMap]
  exact List.flatMap_congr hone

theorem groupsAfter_eq_cons (head : MessageView) (tail rest : List MessageView) :
    ∃ tail' gs, groupsAfter head tail rest = ⟨head, tail'⟩ :: gs := by
  induction rest generalizing tail with
  | nil => exact ⟨tail, [], rfl⟩
  | cons mv rest ih =>
    rw [groupsAfter]
    split
    · exact ih (tail ++ [mv])
    · exact ⟨tail, _, rfl⟩

/-- No two user messages that could be merged stand next to each other. -/
theorem separated_groups (input : List MessageView) :
    ((groups input).map Group.merged).IsChain fun a b => ¬(Plain a ∧ Plain b) := by
  have hafter : ∀ (rest : List MessageView) (head : MessageView) (tail : List MessageView),
      (Group.mk head tail).Joined → ((groupsAfter head tail rest).map Group.merged).IsChain
        fun a b => ¬(Plain a ∧ Plain b) := by
    intro rest
    induction rest with
    | nil => exact fun head tail _ => by simp [groupsAfter]
    | cons mv rest ih =>
      intro head tail hjoined
      rw [groupsAfter]
      split
      · next hmerges => exact ih head (tail ++ [mv]) (hjoined.append hmerges)
      · next hapart =>
          have hnext := ih mv [] (joined_alone mv)
          obtain ⟨tail', gs, hgs⟩ := groupsAfter_eq_cons mv [] rest
          have hjoined' := joined_groupsAfter (joined_alone mv) rest ⟨mv, tail'⟩
            (hgs ▸ List.mem_cons_self)
          rw [hgs] at hnext ⊢
          rw [List.map_cons, List.map_cons, List.isChain_cons_cons]
          refine ⟨?_, hnext⟩
          rw [hjoined.plain_merged, hjoined'.plain_merged, ← merges_iff]
          exact hapart
  cases input with
  | nil => exact .nil
  | cons mv rest => exact hafter rest mv [] (joined_alone mv)

/-- Where nothing can be merged every message is a group. -/
theorem groups_of_separated (h : input.IsChain fun a b => ¬(Plain a ∧ Plain b)) :
    groups input = input.map fun mv => ⟨mv, []⟩ := by
  cases input with
  | nil => rfl
  | cons mv rest =>
    rw [groups]
    induction rest generalizing mv with
    | nil => rfl
    | cons next rest ih =>
      rw [List.isChain_cons_cons, ← merges_iff] at h
      rw [groupsAfter, if_neg h.1, ih next h.2]
      rfl

/-! ## Spans -/

/-- The parts of every group from an index on are fewer than 2^32 and are found at their
index cut to 32 bits. -/
def Reached (store : List PartView) (index : Nat) : List (List PartView) → Prop
  | [] => True
  | parts :: rest =>
    (parts.length < 2 ^ 32 ∧ (store.drop (index % 2 ^ 32)).take parts.length = parts) ∧
    Reached store (index + parts.length) rest

/-- The parts that end up in the output. -/
def shownParts (store : List PartView) (index : Nat) (gs : List Group) : List (List PartView) :=
  (slotsFrom index gs).map fun s => (s.fill store).parts

theorem shownParts_cons (store : List PartView) (index : Nat) (g : Group) (gs : List Group) :
    shownParts store index (g :: gs) =
      (store.drop (index % 2 ^ 32)).take (g.parts.length % 2 ^ 32) ::
        shownParts store (index + g.parts.length) gs := by
  simp [shownParts, slotsFrom, OutSlot.fill]

/-- No span is longer than its group. -/
theorem shownParts_le (store : List PartView) (index : Nat) (gs : List Group) :
    List.Forall₂ (fun shown parts => shown.length ≤ parts.length) (shownParts store index gs)
      (gs.map Group.parts) := by
  induction gs generalizing index with
  | nil => exact .nil
  | cons g gs ih =>
    rw [shownParts_cons, List.map_cons]
    exact .cons ((List.length_take_le _ _).trans (Nat.mod_le _ _)) (ih _)

/-- The spans are the groups exactly if every group is reached. -/
theorem shownParts_eq_iff (store : List PartView) (index : Nat) (gs : List Group) :
    shownParts store index gs = gs.map Group.parts ↔ Reached store index (gs.map Group.parts) := by
  induction gs generalizing index with
  | nil => exact iff_of_true rfl trivial
  | cons g gs ih =>
    rw [List.map_cons, shownParts_cons, List.cons.injEq, ih, Reached]
    refine and_congr_left fun _ => ?_
    constructor
    · intro hspan
      have hlen := congrArg List.length hspan
      have hle := List.length_take_le (g.parts.length % 2 ^ 32) (store.drop (index % 2 ^ 32))
      have hlt : g.parts.length < 2 ^ 32 := by omega
      rw [Nat.mod_eq_of_lt hlt] at hspan
      exact ⟨hlt, hspan⟩
    · rintro ⟨hlt, hspan⟩
      rw [Nat.mod_eq_of_lt hlt]
      exact hspan

/-- Lists that are no longer, one by one, and make the same list together are the same. -/
theorem eq_of_flatten_eq {α : Type} {shorter lists : List (List α)}
    (h : List.Forall₂ (fun a b => a.length ≤ b.length) shorter lists)
    (hflat : shorter.flatten = lists.flatten) : shorter = lists := by
  induction h with
  | nil => rfl
  | @cons a b shorter lists hle hrest ih =>
    have hsum : shorter.flatten.length ≤ lists.flatten.length := by
      clear ih hflat
      induction hrest with
      | nil => exact le_refl _
      | cons hle _ ih =>
        rw [List.flatten_cons, List.flatten_cons, List.length_append, List.length_append]
        omega
    rw [List.flatten_cons, List.flatten_cons] at hflat
    have hlen := congrArg List.length hflat
    rw [List.length_append, List.length_append] at hlen
    obtain ⟨rfl, hrests⟩ := List.append_inj hflat (by omega)
    rw [ih hrests]

theorem map_parts_normalizeViews (input : List MessageView) :
    (normalizeViews input).map MessageView.parts =
      shownParts (input.flatMap MessageView.parts) 0 (groups input) := by
  rw [normalizeViews_eq, List.map_map]
  rfl

/-- The output is the groups when its parts are theirs. -/
theorem normalizeViews_of_reached
    (h : Reached (input.flatMap MessageView.parts) 0 ((groups input).map Group.parts)) :
    normalizeViews input = (groups input).map Group.merged := by
  have hfill : ∀ (gs : List Group) (index : Nat),
      Reached (input.flatMap MessageView.parts) index (gs.map Group.parts) →
      (slotsFrom index gs).map (OutSlot.fill (input.flatMap MessageView.parts)) =
        gs.map Group.merged := by
    intro gs
    induction gs with
    | nil => exact fun index _ => rfl
    | cons g gs ih =>
      rintro index ⟨⟨hlt, hspan⟩, hrest⟩
      rw [slotsFrom, List.map_cons, List.map_cons, ih _ hrest]
      simp only [OutSlot.fill, Group.merged, BitVec.toNat_ofNat, Nat.mod_eq_of_lt hlt, hspan]
  rw [normalizeViews_eq]
  exact hfill (groups input) 0 h

/-! ## Merging -/

/-- What merging should do to a list of messages. -/
structure Merges (input output : List MessageView) : Prop where
  parts : output.flatMap MessageView.parts = input.flatMap MessageView.parts
  others : output.filter (fun mv => mv.role ≠ kRoleUser) =
    input.filter fun mv => mv.role ≠ kRoleUser
  specials : output.filter isSpecial = input.filter isSpecial
  separated : output.IsChain fun a b => ¬(Plain a ∧ Plain b)
  again : normalizeViews output = output

/-- The groups are a fixed point. -/
theorem normalizeViews_groups
    (h : Reached (input.flatMap MessageView.parts) 0 ((groups input).map Group.parts)) :
    normalizeViews ((groups input).map Group.merged) = (groups input).map Group.merged := by
  have hgroups := groups_of_separated (separated_groups input)
  have hparts : ((groups input).map Group.merged).flatMap MessageView.parts =
      input.flatMap MessageView.parts := by
    rw [List.flatMap_map, ← flatMap_parts_groups]
    rfl
  have hsame : (groups ((groups input).map Group.merged)).map Group.parts =
      (groups input).map Group.parts := by
    rw [hgroups, List.map_map, List.map_map]
    refine List.map_congr_left fun g _ => ?_
    simp [Group.parts, Group.merged]
  have hreached : Reached (((groups input).map Group.merged).flatMap MessageView.parts) 0
      ((groups ((groups input).map Group.merged)).map Group.parts) := by
    rwa [hparts, hsame]
  rw [normalizeViews_of_reached hreached, hgroups, List.map_map]
  simp [Function.comp_def]

theorem merges_normalizeViews_iff (input : List MessageView) :
    Merges input (normalizeViews input) ↔
      Reached (input.flatMap MessageView.parts) 0 ((groups input).map Group.parts) := by
  constructor
  · intro h
    rw [← shownParts_eq_iff]
    refine eq_of_flatten_eq (shownParts_le _ 0 _) ?_
    rw [← map_parts_normalizeViews, ← List.flatMap_def, h.parts, ← flatMap_parts_groups,
      List.flatMap_def]
  · intro h
    rw [normalizeViews_of_reached h]
    refine ⟨?_, ?_, ?_, separated_groups input, normalizeViews_groups h⟩
    · rw [List.flatMap_map, ← flatMap_parts_groups]
      rfl
    · refine filter_merged (fun mv hmv => ?_) input
      simp [hmv.1]
    · exact filter_merged (fun mv hmv => hmv.2) input

/-- One user message of 2^32 parts. -/
def crowdedMessage : MessageView :=
  ⟨kRoleUser, none, List.replicate (2 ^ 32) ⟨.text, none⟩, []⟩

/-- Its count is cut to zero, so its parts are lost. -/
theorem not_merges_crowdedMessage :
    ¬Merges [crowdedMessage] (normalizeViews [crowdedMessage]) := by
  intro h
  have hlen : crowdedMessage.parts.length = 2 ^ 32 := List.length_replicate
  have hshown := map_parts_normalizeViews [crowdedMessage]
  have hgroup : (Group.mk crowdedMessage []).parts = crowdedMessage.parts := by simp [Group.parts]
  rw [groups, groupsAfter, shownParts_cons, hgroup, hlen, Nat.mod_self, List.take_zero] at hshown
  have hparts := congrArg List.length h.parts
  rw [List.flatMap_def, hshown, List.flatMap_cons, List.length_append, hlen] at hparts
  simp [shownParts, slotsFrom] at hparts

end KimixNative.Soul
