import KimixNative.Lib.LittleEndian

/-!
# Byte readers

A reader consumes a prefix of its input and returns a value with what is left, or
refuses. The cursor of an implementation is the length of what has been consumed.
-/

namespace KimixNative

/-- A decoder of a prefix of the input. -/
abbrev Reader (α : Type) := Bytes → Option (α × Bytes)

namespace Reader

/-- The next `n` bytes. -/
def take (n : Nat) : Reader Bytes := fun input =>
  if input.length < n then none else some (input.take n, input.drop n)

/-- A little-endian field of `n` bytes. -/
def field (n : Nat) : Reader Nat := fun input =>
  (take n input).map fun (bytes, rest) => (leNat bytes, rest)

/-- Go on only under a condition. -/
def require (c : Prop) [Decidable c] : Option Unit := if c then some () else none

@[simp] theorem require_eq_some {c : Prop} [Decidable c] {u : Unit} :
    require c = some u ↔ c := by
  simp [require]

theorem require_of {c : Prop} [Decidable c] (h : c) : require c = some () := if_pos h

/-- Run the same reader `n` times. -/
def times {α : Type} (read : Reader α) : Nat → Reader (List α)
  | 0, input => some ([], input)
  | n + 1, input => do
      let (a, rest) ← read input
      let (as, rest) ← times read n rest
      return (a :: as, rest)

theorem field_lt {n x : Nat} {input rest : Bytes} (h : field n input = some (x, rest)) :
    x < 256 ^ n := by
  obtain ⟨⟨bytes, tail⟩, ht, heq⟩ := Option.map_eq_some_iff.mp h
  unfold take at ht
  split at ht
  · cases ht
  · next hlen =>
      obtain ⟨rfl, rfl⟩ := Prod.mk.inj (Option.some.inj ht)
      obtain ⟨rfl, -⟩ := Prod.mk.inj heq
      have hlen' : (input.take n).length = n := List.length_take_of_le (Nat.le_of_not_lt hlen)
      simpa [hlen'] using leNat_lt (input.take n)

variable {α : Type}

theorem length_times {read : Reader α} {n : Nat} {input rest : Bytes} {as : List α}
    (h : times read n input = some (as, rest)) : as.length = n := by
  induction n generalizing input rest as with
  | zero =>
    obtain ⟨rfl, -⟩ := Prod.mk.inj (Option.some.inj h)
    rfl
  | succ n ih =>
    simp only [times, Option.bind_eq_bind, Option.bind_eq_some_iff, Option.pure_def,
      Option.some.injEq, Prod.mk.injEq] at h
    obtain ⟨⟨a, rest₁⟩, -, ⟨as', rest₂⟩, hrest, rfl, -⟩ := h
    simp [ih hrest]

/-- What every element of a repetition was read from. -/
theorem mem_times {read : Reader α} {n : Nat} {input rest : Bytes} {as : List α}
    (h : times read n input = some (as, rest)) {a : α} (ha : a ∈ as) :
    ∃ before after, read before = some (a, after) := by
  induction n generalizing input rest as with
  | zero =>
    obtain ⟨rfl, -⟩ := Prod.mk.inj (Option.some.inj h)
    simp at ha
  | succ n ih =>
    simp only [times, Option.bind_eq_bind, Option.bind_eq_some_iff, Option.pure_def,
      Option.some.injEq, Prod.mk.injEq] at h
    obtain ⟨⟨a', rest₁⟩, hread, ⟨as', rest₂⟩, hrest, rfl, -⟩ := h
    obtain rfl | ha := List.mem_cons.mp ha
    · exact ⟨input, rest₁, hread⟩
    · exact ih hrest ha

/-! ## Reading back -/

/-- In front of anything, the reader consumes exactly `bytes` and returns `a`. -/
def Reads {α : Type} (read : Reader α) (bytes : Bytes) (a : α) : Prop :=
  ∀ rest, read (bytes ++ rest) = some (a, rest)

theorem reads_take (bytes : Bytes) : Reads (take bytes.length) bytes bytes := by
  intro rest
  have hlen : ¬(bytes ++ rest).length < bytes.length := by
    rw [List.length_append]
    omega
  rw [take, if_neg hlen, List.take_left, List.drop_left]

theorem reads_field {n x : Nat} (h : x < 256 ^ n) : Reads (field n) (leBytes n x) x := by
  intro rest
  have htake := reads_take (leBytes n x) rest
  rw [length_leBytes] at htake
  rw [field, htake]
  simp only [Option.map_some, leNat_leBytes_of_lt h]

/-- Elements written one after the other are read back one after the other. -/
theorem reads_times {ι : Type} {read : Reader α} {encode : ι → Bytes} {f : ι → α} {l : List ι}
    (h : ∀ i ∈ l, Reads read (encode i) (f i)) :
    Reads (times read l.length) (l.flatMap encode) (l.map f) := by
  intro rest
  induction l with
  | nil => rfl
  | cons i l ih =>
    have hread := h i List.mem_cons_self (l.flatMap encode ++ rest)
    have hrest := ih fun j hj => h j (List.mem_cons_of_mem i hj)
    rw [List.flatMap_cons, List.append_assoc, List.length_cons, times, hread]
    simp only [Option.bind_eq_bind, Option.bind_some, hrest, Option.pure_def, List.map_cons]

/-! ## What was accepted -/

/-- What the reader accepts is the encoding of a value that meets `P`. -/
def Accepts {α : Type} (read : Reader α) (encode : α → Bytes) (P : α → Prop) : Prop :=
  ∀ ⦃input a rest⦄, read input = some (a, rest) → P a ∧ input = encode a ++ rest

theorem accepts_take (n : Nat) : Accepts (take n) id fun bytes => bytes.length = n := by
  intro input bytes rest h
  unfold take at h
  split at h
  · cases h
  · next hlen =>
      obtain ⟨rfl, rfl⟩ := Prod.mk.inj (Option.some.inj h)
      exact ⟨List.length_take_of_le (Nat.le_of_not_lt hlen), (List.take_append_drop n input).symm⟩

theorem accepts_field (n : Nat) : Accepts (field n) (leBytes n) fun x => x < 256 ^ n := by
  intro input x rest h
  refine ⟨field_lt h, ?_⟩
  obtain ⟨⟨bytes, tail⟩, htake, heq⟩ := Option.map_eq_some_iff.mp h
  obtain ⟨rfl, rfl⟩ := Prod.mk.inj heq
  obtain ⟨rfl, hinput⟩ := accepts_take n htake
  rw [leBytes_leNat]
  exact hinput

theorem accepts_times {read : Reader α} {encode : α → Bytes} {P : α → Prop}
    (h : Accepts read encode P) (n : Nat) :
    Accepts (times read n) (fun as => as.flatMap encode) fun as =>
      as.length = n ∧ ∀ a ∈ as, P a := by
  induction n with
  | zero =>
    intro input as rest hread
    obtain ⟨rfl, rfl⟩ := Prod.mk.inj (Option.some.inj hread)
    simp
  | succ n ih =>
    intro input as rest hread
    simp only [times, Option.bind_eq_bind, Option.bind_eq_some_iff, Option.pure_def,
      Option.some.injEq, Prod.mk.injEq] at hread
    obtain ⟨⟨a, after⟩, hfirst, ⟨as, _⟩, hrest, rfl, rfl⟩ := hread
    obtain ⟨ha, rfl⟩ := h hfirst
    obtain ⟨⟨rfl, has⟩, rfl⟩ := ih hrest
    exact ⟨⟨rfl, List.forall_mem_cons.mpr ⟨ha, has⟩⟩, by simp⟩

end Reader

end KimixNative
