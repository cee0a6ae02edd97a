import KimixNative.Llm.SseParser

/-!
# The events of a stream

What the parsers of the two providers make of a stream, against one event for each group of
lines. They agree when the last line is ended by a newline and no group begins its data with
an empty line: `finish` does not read an unfinished line, and the join writes no newline while
the data is empty.
-/

namespace KimixNative.Llm

open Text SseParser

/-- The payload of a `data:` line. -/
def payload (line : Bytes) : Option Bytes :=
  if ascii "data:" <+: line then
    some (if (line)[5]? = some 0x20#8 then line.drop 6 else line.drop 5)
  else none

/-- The data that `parse_event_lines_` puts together from payloads. -/
def joinPayloads (payloads : List Bytes) : Bytes :=
  payloads.foldl (fun data p => (if data = [] then data else data ++ [LF]) ++ p) []

/-- The data of an event, as `parse_event_lines_` reads it off its lines. -/
def joinData (lines : List Bytes) : Bytes := joinPayloads (lines.filterMap payload)

/-- `SseParser::parse_event_lines_`. -/
def OpenAi.parseEventLines {C : Type} (doneChunk : C) (decode : Bytes → C) (lines : List Bytes) :
    C :=
  if joinData lines = ascii "[DONE]" then doneChunk else decode (joinData lines)

/-- `StreamParser::parse_event_lines_`. -/
def Anthropic.parseEventLines {C : Type} (decode : Bytes → C) (lines : List Bytes) : C :=
  decode (joinData lines)

/-! ### What a stream says -/

/-- The payloads of a group, joined by newlines. -/
def dataOf (group : List Bytes) : Bytes := [LF].intercalate (group.filterMap payload)

/-- The groups of nonempty lines of a stream, the line that is not ended included. -/
def eventGroups (stream : Bytes) : List (List Bytes) :=
  groups isBlankLine ((clean stream).splitOn LF)

/-- The event with the given data. -/
def OpenAi.event {C : Type} (doneChunk : C) (decode : Bytes → C) (data : Bytes) : C :=
  if data = ascii "[DONE]" then doneChunk else decode data

/-- Both parsers yield one event for each group of the stream, whatever the decoding. -/
def Complete (chunks : List Bytes) : Prop :=
  ∀ (C : Type) (doneChunk : C) (decode : Bytes → C),
    events (OpenAi.parseEventLines doneChunk decode) chunks =
        (eventGroups chunks.flatten).map (fun g => OpenAi.event doneChunk decode (dataOf g)) ∧
      events (Anthropic.parseEventLines decode) chunks =
        (eventGroups chunks.flatten).map fun g => decode (dataOf g)

/-- The data of a group does not begin with an empty line that another one follows. -/
def Plain (group : List Bytes) : Prop :=
  ∀ rest, group.filterMap payload = [] :: rest → rest = []

/-- The stream ends with a newline, or with a line that adds nothing to its event. -/
def Settled (stream : Bytes) : Prop :=
  unfinished (clean stream) = [] ∨
    openRun isBlankLine (completeLines (clean stream)) ≠ [] ∧
      (payload (unfinished (clean stream)) = none ∨
        payload (unfinished (clean stream)) = some [] ∧
          (openRun isBlankLine (completeLines (clean stream))).filterMap payload = [])

/-! ### Joined payloads -/

/-- The payloads, each behind a newline. -/
def trailing (payloads : List Bytes) : Bytes := (payloads.map (LF :: ·)).flatten

theorem intercalate_cons (p : Bytes) (payloads : List Bytes) :
    [LF].intercalate (p :: payloads) = p ++ trailing payloads := by
  induction payloads generalizing p with
  | nil => simp [trailing, List.intercalate]
  | cons q payloads ih =>
    have hq := ih q
    simp only [List.intercalate, List.intersperse_cons_cons, List.flatten_cons] at hq ⊢
    rw [hq]
    rfl

theorem foldl_join {data : Bytes} (h : data ≠ []) (payloads : List Bytes) :
    payloads.foldl (fun data p => (if data = [] then data else data ++ [LF]) ++ p) data =
      data ++ trailing payloads := by
  induction payloads generalizing data with
  | nil => exact (List.append_nil data).symm
  | cons p payloads ih =>
    have hne : data ++ [LF] ++ p ≠ [] := by simp
    rw [List.foldl_cons, if_neg h, ih hne]
    simp only [trailing, List.map_cons, List.flatten_cons, List.append_assoc, List.cons_append,
      List.nil_append]

theorem joinPayloads_cons {p : Bytes} (h : p ≠ []) (payloads : List Bytes) :
    joinPayloads (p :: payloads) = p ++ trailing payloads := by
  rw [joinPayloads, List.foldl_cons, if_pos rfl, List.nil_append, foldl_join h]

theorem joinPayloads_nil_cons (payloads : List Bytes) :
    joinPayloads ([] :: payloads) = joinPayloads payloads := rfl

theorem length_joinPayloads_lt {payloads : List Bytes} (h : payloads ≠ []) :
    (joinPayloads payloads).length < (trailing payloads).length := by
  induction payloads with
  | nil => exact absurd rfl h
  | cons p payloads ih =>
    have htrailing : (trailing (p :: payloads)).length =
        1 + p.length + (trailing payloads).length := by
      simp only [trailing, List.map_cons, List.flatten_cons, List.length_append,
        List.length_cons]
      omega
    by_cases hp : p = []
    · rw [hp, joinPayloads_nil_cons, ← hp, htrailing]
      by_cases hrest : payloads = []
      · rw [hrest]
        simp [joinPayloads]
      · have hlt := ih hrest
        omega
    · rw [joinPayloads_cons hp, htrailing, List.length_append]
      omega

theorem joinData_eq_iff (group : List Bytes) : joinData group = dataOf group ↔ Plain group := by
  rw [joinData, dataOf, Plain]
  cases group.filterMap payload with
  | nil =>
    refine iff_of_true rfl ?_
    intro rest hrest
    cases hrest
  | cons p payloads =>
    rw [intercalate_cons]
    by_cases hp : p = []
    · rw [hp, joinPayloads_nil_cons, List.nil_append]
      constructor
      · intro h rest hrest
        obtain rfl : payloads = rest := (List.cons.inj hrest).2
        by_contra hne
        exact (length_joinPayloads_lt hne).ne (congrArg List.length h)
      · intro h
        rw [h payloads rfl]
        rfl
    · refine iff_of_true (joinPayloads_cons hp payloads) ?_
      intro rest hrest
      exact absurd (List.cons.inj hrest).1 hp

/-- A payload at the end adds to the data, unless all of it is empty. -/
theorem joinPayloads_eq_concat_iff (payloads : List Bytes) (q : Bytes) :
    joinPayloads payloads = [LF].intercalate (payloads ++ [q]) ↔ q = [] ∧ payloads = [] := by
  cases payloads with
  | nil =>
    have hq : [LF].intercalate ([] ++ [q]) = q := by
      rw [List.nil_append, intercalate_cons]
      exact List.append_nil q
    rw [hq]
    exact ⟨fun h => ⟨h.symm, rfl⟩, fun h => h.1.symm⟩
  | cons p payloads =>
    refine iff_of_false ?_ (fun h => by cases h.2)
    intro h
    have hlen := congrArg List.length h
    have hlt := length_joinPayloads_lt (List.cons_ne_nil p payloads)
    rw [List.cons_append, intercalate_cons] at hlen
    simp only [trailing, List.map_append, List.map_cons, List.map_nil, List.flatten_append,
      List.flatten_cons, List.flatten_nil, List.length_append, List.length_cons,
      List.append_nil] at hlen hlt
    omega

theorem joinData_eq_concat_iff (group : List Bytes) (line : Bytes) :
    joinData group = dataOf (group ++ [line]) ↔
      Plain (group ++ [line]) ∧
        (payload line = none ∨ payload line = some [] ∧ group.filterMap payload = []) := by
  cases hline : payload line with
  | none =>
    have hsame : (group ++ [line]).filterMap payload = group.filterMap payload := by
      rw [List.filterMap_append, List.filterMap_cons_none hline]
      exact List.append_nil _
    have hplain : Plain (group ++ [line]) ↔ Plain group := by rw [Plain, hsame, Plain]
    rw [dataOf, hsame, hplain, ← dataOf, joinData_eq_iff]
    exact (and_iff_left (Or.inl rfl)).symm
  | some q =>
    have hconcat : (group ++ [line]).filterMap payload = group.filterMap payload ++ [q] := by
      rw [List.filterMap_append, List.filterMap_cons_some hline]
      rfl
    rw [joinData, dataOf, hconcat, joinPayloads_eq_concat_iff, Plain, hconcat]
    constructor
    · rintro ⟨rfl, hnil⟩
      refine ⟨?_, Or.inr ⟨rfl, hnil⟩⟩
      intro rest hrest
      rw [hnil] at hrest
      exact (List.cons.inj hrest).2.symm
    · rintro ⟨-, h | ⟨hq, hnil⟩⟩
      · cases h
      · exact ⟨Option.some_inj.mp hq, hnil⟩

/-! ### The groups of a stream -/

theorem splitOn_eq_lines (text : Bytes) :
    text.splitOn LF = completeLines text ++ [unfinished text] := by
  have hne := List.splitOn_ne_nil LF text
  rw [completeLines, unfinished, List.getLastD_eq_getLast?, List.getLast?_eq_some_getLast hne]
  exact (List.dropLast_append_getLast hne).symm

/-- The data read, against the data of the stream. -/
theorem data_eq_iff (stream : Bytes) :
    (groups isBlankLine (completeLines (clean stream))).map joinData =
        (eventGroups stream).map dataOf ↔
      (∀ g ∈ eventGroups stream, Plain g) ∧ Settled stream := by
  rw [eventGroups, splitOn_eq_lines, Settled]
  generalize completeLines (clean stream) = lines
  generalize unfinished (clean stream) = last
  by_cases hlast : last = []
  · rw [hlast, groups_concat_sep lines blank_nil, List.map_inj_left]
    rw [and_iff_left (Or.inl rfl)]
    exact forall₂_congr fun g _ => joinData_eq_iff g
  · have hblank : ∀ a ∈ [last], isBlankLine a = false := by
      intro a ha
      rw [List.mem_singleton.mp ha]
      exact List.isEmpty_eq_false_iff.mpr hlast
    have hgroup : openRun isBlankLine lines ++ [last] ≠ [] := by simp
    rw [groups_append_run lines hblank, asGroup_of_ne hgroup, groups_eq lines]
    rw [or_iff_right hlast]
    by_cases hopen : openRun isBlankLine lines = []
    · refine iff_of_false ?_ (fun h => h.2.1 hopen)
      intro h
      have hlen := congrArg List.length h
      rw [hopen, asGroup_nil] at hlen
      simp at hlen
    · rw [and_iff_right hopen, asGroup_of_ne hopen]
      simp only [List.map_append, List.map_cons, List.map_nil, List.mem_append,
        List.mem_singleton, or_imp, forall_and, forall_eq]
      rw [and_assoc, ← joinData_eq_concat_iff]
      constructor
      · intro h
        obtain ⟨hclosed, hrest⟩ := List.append_inj h (by simp only [List.length_map])
        refine ⟨?_, (List.cons.inj hrest).1⟩
        intro g hg
        exact (joinData_eq_iff g).mp (List.map_inj_left.mp hclosed g hg)
      · rintro ⟨hclosed, hrest⟩
        rw [hrest]
        congr 1
        exact List.map_inj_left.mpr fun g hg => (joinData_eq_iff g).mpr (hclosed g hg)

/-- The parsers yield the events of the stream exactly when it is settled and its groups are
plain. -/
theorem complete_iff (chunks : List Bytes) :
    Complete chunks ↔
      (∀ g ∈ eventGroups chunks.flatten, Plain g) ∧ Settled chunks.flatten := by
  rw [← data_eq_iff, Complete]
  simp only [events_eq]
  constructor
  · intro h
    exact (h Bytes [] id).2
  · intro h C doneChunk decode
    have hcodec : ∀ f : Bytes → C,
        (groups isBlankLine (completeLines (clean chunks.flatten))).map (fun g => f (joinData g)) =
          (eventGroups chunks.flatten).map fun g => f (dataOf g) := by
      intro f
      have hf := congrArg (List.map f) h
      rwa [List.map_map, List.map_map] at hf
    exact ⟨hcodec (OpenAi.event doneChunk decode), hcodec decode⟩

/-- A stream that ends without a newline loses its last event. -/
theorem not_complete_unfinished : ¬ Complete [ascii "data: [DONE]"] := by
  intro h
  have hevents := (h Bytes [] id).2
  revert hevents
  rw [events_eq]
  decide

end KimixNative.Llm
