import Mathlib.Data.List.Nodup

/-!
# Queues under keys

A list of queues, each with a key and a cursor behind which its items have been taken. A key
is looked up from the front. `waiting` is what a key still has to give: pushing adds to one
key's waiting items at the end, taking removes one from the front.
-/

namespace KimixNative

structure KeyedQueue (κ α : Type) where
  key : κ
  items : List α
  cursor : Nat := 0
  deriving DecidableEq, Repr

namespace KeyedQueue

variable {κ α : Type} [DecidableEq κ]

/-- The place of a key. -/
def index (qs : List (KeyedQueue κ α)) (x : κ) : Option Nat := qs.findIdx? (·.key = x)

def push (qs : List (KeyedQueue κ α)) (x : κ) (a : α) : List (KeyedQueue κ α) :=
  match index qs x with
  | some k => qs.modify k fun q => { q with items := q.items ++ [a] }
  | none => qs ++ [{ key := x, items := [a] }]

/-- Take from the queue at a place; `next` moves the cursor. -/
def takeAt (next : Nat → Nat) (qs : List (KeyedQueue κ α)) (k : Nat) :
    Option (α × List (KeyedQueue κ α)) :=
  (qs[k]?).bind fun q =>
    (q.items[q.cursor]?).map fun a => (a, qs.modify k fun q => { q with cursor := next q.cursor })

/-- The items a key has not given yet. -/
def waiting (qs : List (KeyedQueue κ α)) (x : κ) : List α :=
  ((qs.find? (·.key = x)).map fun q => q.items.drop q.cursor).getD []

variable {qs : List (KeyedQueue κ α)}

variable {k : Nat} {x : κ}

omit [DecidableEq κ] in
/-- The queue found under a key is the one at its place. -/
theorem find?_eq_getElem? {p : KeyedQueue κ α → Bool} (h : qs.findIdx? p = some k) :
    qs.find? p = qs[k]? := by
  induction qs generalizing k with
  | nil => cases h
  | cons q qs ih =>
    rw [List.findIdx?_cons] at h
    rw [List.find?_cons]
    cases hp : p q with
    | true =>
      rw [hp, if_pos rfl] at h
      obtain rfl := Option.some.inj h
      rfl
    | false =>
      rw [hp, if_neg Bool.false_ne_true] at h
      obtain ⟨k', hk', rfl⟩ := Option.map_eq_some_iff.mp h
      exact ih hk'

theorem waiting_of_index_none (h : index qs x = none) : waiting qs x = [] := by
  have hfind : qs.find? (·.key = x) = none := by
    rw [List.find?_eq_none]
    intro q hq
    have := List.findIdx?_eq_none_iff.mp h q hq
    simpa using this
  rw [waiting, hfind]
  rfl

theorem index_eq_some (h : index qs x = some k) :
    ∃ q, qs[k]? = some q ∧ q.key = x ∧ waiting qs x = q.items.drop q.cursor := by
  have hfind := find?_eq_getElem? h
  obtain ⟨hk, hkey, -⟩ := List.findIdx?_eq_some_iff_getElem.mp h
  refine ⟨qs[k], List.getElem?_eq_getElem hk, by simpa using hkey, ?_⟩
  rw [waiting, hfind, List.getElem?_eq_getElem hk]
  rfl

variable {f : KeyedQueue κ α → KeyedQueue κ α} {next : Nat → Nat}

/-- Changing the queue of one key, but not its key, changes what that key finds. -/
theorem find?_modify (hf : ∀ q, (f q).key = q.key) (h : index qs x = some k) (y : κ) :
    (qs.modify k f).find? (·.key = y) =
      if y = x then (qs.find? (·.key = y)).map f else qs.find? (·.key = y) := by
  induction qs generalizing k with
  | nil => cases h
  | cons q qs ih =>
    rw [index, List.findIdx?_cons] at h
    by_cases hq : q.key = x
    · rw [if_pos (decide_eq_true hq)] at h
      obtain rfl := Option.some.inj h
      rw [List.modify_zero_cons, List.find?_cons, List.find?_cons, hf q, hq]
      by_cases hy : y = x
      · simp [hy]
      · simp [hy, Ne.symm hy]
    · rw [if_neg (by simpa using hq)] at h
      obtain ⟨k', hk', rfl⟩ := Option.map_eq_some_iff.mp h
      rw [List.modify_succ_cons, List.find?_cons, List.find?_cons, ih hk']
      by_cases hy : q.key = y
      · have hne : y ≠ x := fun hyx => hq (hy.trans hyx)
        simp [hy, hne]
      · simp [hy]

/-- No cursor is past the end. -/
def Within (qs : List (KeyedQueue κ α)) : Prop := ∀ q ∈ qs, q.cursor ≤ q.items.length

theorem within_modify (h : Within qs)
    (hf : ∀ q, q.cursor ≤ q.items.length → (f q).cursor ≤ (f q).items.length) (k : Nat) :
    Within (qs.modify k f) := by
  intro q hq
  obtain ⟨i, hi⟩ := List.getElem?_of_mem hq
  rw [List.getElem?_modify] at hi
  obtain ⟨old, hold, rfl⟩ := Option.map_eq_some_iff.mp hi
  have hle := h old (List.mem_of_getElem? hold)
  split_ifs
  · exact hf old hle
  · exact hle

theorem within_push (h : Within qs) (x : κ) (a : α) : Within (push qs x a) := by
  unfold push
  split
  · refine within_modify h (fun q hq => ?_) _
    simp only [List.length_append]
    omega
  · intro q hq
    obtain hq | hq := List.mem_append.mp hq
    · exact h q hq
    · obtain rfl := List.mem_singleton.mp hq
      exact Nat.zero_le _

theorem index_isSome (hx : x ∈ qs.map key) : ∃ k, index qs x = some k := by
  obtain ⟨q, hq, rfl⟩ := List.mem_map.mp hx
  refine Option.isSome_iff_exists.mp ?_
  rw [index, List.findIdx?_isSome, List.any_eq_true]
  exact ⟨q, hq, by simp⟩

/-- A key gets a queue when it is first used. -/
theorem keys_push (qs : List (KeyedQueue κ α)) (x : κ) (a : α) :
    (push qs x a).map key = if x ∈ qs.map key then qs.map key else qs.map key ++ [x] := by
  rw [push]
  cases hk : index qs x with
  | some k =>
    obtain ⟨q, hq, hkey, -⟩ := index_eq_some hk
    rw [if_pos (List.mem_map.mpr ⟨q, List.mem_of_getElem? hq, hkey⟩)]
    refine List.ext_getElem? fun i => ?_
    rw [List.getElem?_map, List.getElem?_map, List.getElem?_modify]
    cases qs[i]? with
    | none => rfl
    | some q =>
      simp only [Option.map_some]
      split <;> rfl
  | none =>
    have hnot : x ∉ qs.map key := fun hx => by
      obtain ⟨k, hk'⟩ := index_isSome hx
      rw [hk] at hk'
      cases hk'
    rw [if_neg hnot, List.map_append]
    rfl

/-- No queue grows by more than the item. -/
theorem length_items_push {n : Nat} (h : ∀ q ∈ qs, q.items.length ≤ n) (x : κ) (a : α) :
    ∀ q ∈ push qs x a, q.items.length ≤ n + 1 := by
  intro q hq
  unfold push at hq
  split at hq
  · obtain ⟨i, hi⟩ := List.getElem?_of_mem hq
    rw [List.getElem?_modify] at hi
    obtain ⟨old, hold, rfl⟩ := Option.map_eq_some_iff.mp hi
    have hle := h old (List.mem_of_getElem? hold)
    split_ifs
    · simpa using hle
    · omega
  · obtain hq | hq := List.mem_append.mp hq
    · exact Nat.le_trans (h q hq) (Nat.le_succ n)
    · obtain rfl := List.mem_singleton.mp hq
      simp

/-- A pushed item waits behind the others of its key. -/
theorem waiting_push (h : Within qs) (x : κ) (a : α) (y : κ) :
    waiting (push qs x a) y = waiting qs y ++ if y = x then [a] else [] := by
  rw [push]
  cases hk : index qs x with
  | some k =>
    dsimp only
    obtain ⟨q, hq, -, -⟩ := index_eq_some hk
    rw [waiting, waiting,
      find?_modify (f := fun q => { q with items := q.items ++ [a] }) (fun _ => rfl) hk]
    by_cases hy : y = x
    · rw [if_pos hy, if_pos hy, hy, find?_eq_getElem? hk, hq]
      simp [List.drop_append_of_le_length (h q (List.mem_of_getElem? hq))]
    · rw [if_neg hy, if_neg hy, List.append_nil]
  | none =>
    dsimp only
    by_cases hy : y = x
    · have hnone : qs.find? (·.key = y) = none := by
        rw [hy, List.find?_eq_none]
        intro q hq
        simpa using List.findIdx?_eq_none_iff.mp hk q hq
      rw [waiting, waiting, List.find?_append, hnone, if_pos hy]
      simp [hy]
    · rw [waiting, waiting, List.find?_append, if_neg hy, List.append_nil]
      simp [Ne.symm hy]

/-- With the place of a key, nothing can be taken exactly when nothing waits. -/
theorem takeAt_eq_none (hk : index qs x = some k) (hnone : takeAt next qs k = none) :
    waiting qs x = [] := by
  obtain ⟨q, hq, -, hwaiting⟩ := index_eq_some hk
  rw [takeAt, hq, Option.bind_some, Option.map_eq_none_iff, List.getElem?_eq_none_iff] at hnone
  rw [hwaiting, List.drop_eq_nil_of_le hnone]

/-- What is taken waited at the front of its key, and nothing else changes. -/
theorem takeAt_eq_some {qs' : List (KeyedQueue κ α)} {a : α}
    (hnext : ∀ q ∈ qs, q.cursor < q.items.length → next q.cursor = q.cursor + 1)
    (hk : index qs x = some k) (hsome : takeAt next qs k = some (a, qs')) :
    waiting qs x = a :: waiting qs' x ∧ (∀ y, y ≠ x → waiting qs' y = waiting qs y) ∧
      qs'.length = qs.length ∧ ∀ q' ∈ qs', ∃ q ∈ qs, q'.items = q.items := by
  obtain ⟨q, hq, -, hwaiting⟩ := index_eq_some hk
  rw [takeAt, hq, Option.bind_some] at hsome
  obtain ⟨b, hb, heq⟩ := Option.map_eq_some_iff.mp hsome
  obtain ⟨rfl, rfl⟩ := Prod.mk.inj heq
  obtain ⟨hlt, hget⟩ := List.getElem?_eq_some_iff.mp hb
  have hfind := find?_modify (f := fun q => { q with cursor := next q.cursor }) (fun _ => rfl) hk
  refine ⟨?_, fun y hy => ?_, List.length_modify .., fun q' hq' => ?_⟩
  · rw [hwaiting, waiting, hfind, if_pos rfl, find?_eq_getElem? hk, hq]
    simp only [Option.map_some, Option.getD_some]
    rw [hnext q (List.mem_of_getElem? hq) hlt, List.drop_eq_getElem_cons hlt, hget]
  · rw [waiting, hfind, if_neg hy, waiting]
  · obtain ⟨i, hi⟩ := List.getElem?_of_mem hq'
    rw [List.getElem?_modify] at hi
    obtain ⟨old, hold, rfl⟩ := Option.map_eq_some_iff.mp hi
    refine ⟨old, List.mem_of_getElem? hold, ?_⟩
    split <;> rfl

end KeyedQueue

end KimixNative
