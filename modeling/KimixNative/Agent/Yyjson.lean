import KimixNative.Core.JsonNumbers
import KimixNative.Lib.JsonNumber
import KimixNative.Lib.KeyedTree
import KimixNative.Tools.CompactJson

/-!
# The JSON library

The agent reads and writes JSON with `yyjson`, which is no part of the repository. A document is
a tree of scalars as the library stores them: an integer is held as an unsigned or as a signed
word. What is assumed of the library is that it reads back the values it wrote.
-/

namespace KimixNative.Agent

open Text

/-- A scalar of a document. -/
inductive Scalar where
  | null
  | bool (b : Bool)
  | uint (n : BitVec 64)
  | sint (n : BitVec 64)
  | real (bits : BitVec 64)
  | str (s : Bytes)
  deriving DecidableEq, Repr

/-- A document. -/
abbrev JsonDoc := KeyedTree Bytes Scalar

/-- What a scalar says. -/
inductive Atom where
  | null
  | bool (b : Bool)
  | int (n : Int)
  | real (bits : BitVec 64)
  | str (s : Bytes)
  deriving DecidableEq, Repr

def Scalar.value : Scalar → Atom
  | .null => .null
  | .bool b => .bool b
  | .uint n => .int n.toNat
  | .sint n => .int n.toInt
  | .real bits => .real bits
  | .str s => .str s

/-- The value of a document: a number does not tell how it was stored. -/
def JsonDoc.value (j : JsonDoc) : KeyedTree Bytes Atom := j.bimap id Scalar.value

/-- A real is finite and a text is valid. -/
def Scalar.Writable : Scalar → Prop
  | .real bits => bits.toNat / 2 ^ 52 % 2 ^ 11 ≠ 2 ^ 11 - 1
  | .str s => ValidUtf8 s
  | _ => True

def JsonDoc.Writable (j : JsonDoc) : Prop := j.Each ValidUtf8 Scalar.Writable

/-- `yyjson_read_opts` without flags and with `YYJSON_READ_STOP_WHEN_DONE`, which lets anything
follow the value, and `yyjson_mut_write_opts` without flags. -/
structure Yyjson where
  read : Bytes → Option JsonDoc
  readStop : Bytes → Option JsonDoc
  write : JsonDoc → Option Bytes

/-- What is assumed of the library: it refuses an empty text, texts that are not valid and numbers
that are not finite; what it writes is determined by the value and is read back as that value. -/
structure Yyjson.Faithful (yy : Yyjson) : Prop where
  read_nil : yy.read [] = none
  read_stop : ∀ t j, yy.read t = some j → yy.readStop t = some j
  writable : ∀ t j, yy.read t = some j → JsonDoc.Writable j
  write_value : ∀ j k, JsonDoc.value j = JsonDoc.value k → yy.write j = yy.write k
  read_write : ∀ j, JsonDoc.Writable j →
    ∃ t k, yy.write j = some t ∧ yy.read t = some k ∧ JsonDoc.value k = JsonDoc.value j

/-- Two documents are written as one text only if they have one value. -/
theorem Yyjson.Faithful.value_eq {yy : Yyjson} (hyy : yy.Faithful) {j k : JsonDoc}
    (hj : JsonDoc.Writable j) (hk : JsonDoc.Writable k) (h : yy.write j = yy.write k) :
    JsonDoc.value j = JsonDoc.value k := by
  obtain ⟨t, j', ht, hread, hvalue⟩ := hyy.read_write j hj
  obtain ⟨u, k', hu, hread', hvalue'⟩ := hyy.read_write k hk
  obtain rfl : t = u := Option.some.inj (ht.symm.trans (h.trans hu))
  obtain rfl : j' = k' := Option.some.inj (hread.symm.trans hread')
  exact hvalue.symm.trans hvalue'

/-- Lists of equal images are equal where the map is injective at the elements of one. -/
theorem eq_of_map_eq {α β : Type} {f : α → β} {us ts : List α}
    (hinj : ∀ t ∈ ts, ∀ u, f u = f t → u = t) (h : us.map f = ts.map f) : us = ts := by
  induction ts generalizing us with
  | nil => exact List.map_eq_nil_iff.mp h
  | cons t ts ih =>
    obtain ⟨u, us, rfl, hu, hus⟩ := List.map_eq_cons_iff.mp h
    rw [hinj t List.mem_cons_self u hu,
      ih (fun t ht => hinj t (List.mem_cons_of_mem _ ht)) hus]

/-- A document of texts is determined by its value. -/
theorem JsonDoc.eq_of_value {P : Bytes → Prop} {Q : Scalar → Prop}
    (hQ : ∀ a, Q a → ∃ s, a = .str s) {j : JsonDoc} (hj : j.Each P Q) {k : JsonDoc}
    (h : JsonDoc.value k = JsonDoc.value j) : k = j := by
  induction hj generalizing k with
  | @leaf a ha =>
    obtain ⟨s, rfl⟩ := hQ a ha
    cases k with
    | leaf b => cases b <;> simp_all [JsonDoc.value, Scalar.value]
    | items us => simp [JsonDoc.value] at h
    | members ns => simp [JsonDoc.value] at h
  | @items ts hts ih =>
    cases k with
    | leaf b => simp [JsonDoc.value] at h
    | items us =>
      simp only [JsonDoc.value, KeyedTree.bimap_items, KeyedTree.items.injEq] at h
      rw [eq_of_map_eq (fun t ht u hu => ih t ht hu) h]
    | members ns => simp [JsonDoc.value] at h
  | @members ms hkeys hms ih =>
    cases k with
    | leaf b => simp [JsonDoc.value] at h
    | items us => simp [JsonDoc.value] at h
    | members ns =>
      simp only [JsonDoc.value, KeyedTree.bimap_members, KeyedTree.members.injEq] at h
      have hinj : ∀ m ∈ ms, ∀ n : Bytes × JsonDoc,
          (id n.1, n.2.bimap id Scalar.value) = (id m.1, m.2.bimap id Scalar.value) → n = m := by
        intro m hm n hn
        obtain ⟨hkey, hdoc⟩ := Prod.mk.inj hn
        exact Prod.ext hkey (ih m hm hdoc)
      rw [eq_of_map_eq hinj h]

/-! ## A library of this kind

It writes without blanks and reads what it writes. A real is written as its bits with a fraction
of zero.
-/

namespace CompactDoc

open Tools.CompactJson

/-- A scalar as it is read back: an integer is signed only below zero. -/
def stored : Scalar → Scalar
  | .sint n => if n.toInt < 0 then .sint n else .uint n
  | a => a

def writeScalar : Scalar → Bytes
  | .null => ascii "null"
  | .bool b => if b then ascii "true" else ascii "false"
  | .uint n => decimal n.toNat
  | .sint n => if n.toInt < 0 then 0x2D#8 :: decimal n.toInt.natAbs else decimal n.toNat
  | .real bits => decimal bits.toNat ++ [0x2E#8, 0x30#8]
  | .str s => 0x22#8 :: stringTail s

mutual

def writeDoc : JsonDoc → Bytes
  | .leaf a => writeScalar a
  | .items [] => [0x5B#8, 0x5D#8]
  | .items (t :: ts) => 0x5B#8 :: (writeDoc t ++ writeItems ts)
  | .members [] => [0x7B#8, 0x7D#8]
  | .members ((k, t) :: ms) =>
    0x7B#8 :: 0x22#8 :: (stringTail k ++ 0x3A#8 :: (writeDoc t ++ writeMembers ms))

/-- The items behind the first one and the closing bracket. -/
def writeItems : List JsonDoc → Bytes
  | [] => [0x5D#8]
  | t :: ts => 0x2C#8 :: (writeDoc t ++ writeItems ts)

/-- The members behind the first one and the closing bracket. -/
def writeMembers : List (Bytes × JsonDoc) → Bytes
  | [] => [0x7D#8]
  | (k, t) :: ms => 0x2C#8 :: 0x22#8 :: (stringTail k ++ 0x3A#8 :: (writeDoc t ++ writeMembers ms))

end

/-- Reads digits, and a fraction of zero. -/
def readNumber (t : Bytes) : Option (Scalar × Bytes) :=
  let digits := t.takeWhile Json.isDigit
  let rest := t.dropWhile Json.isDigit
  if digits = [] then none
  else if rest.take 2 = [0x2E#8, 0x30#8] then
    some (.real (BitVec.ofNat 64 (Json.digitsNat digits)), rest.drop 2)
  else some (.uint (BitVec.ofNat 64 (Json.digitsNat digits)), rest)

def negated : Scalar × Bytes → Option (Scalar × Bytes)
  | (.uint n, rest) => some (.sint (-n), rest)
  | _ => none

def readScalar : Bytes → Option (Scalar × Bytes)
  | b :: rest =>
    if b = 0x22#8 then (readString rest).map fun r => (.str r.1, r.2)
    else if b = 0x6E#8 then
      if rest.take 3 = ascii "ull" then some (.null, rest.drop 3) else none
    else if b = 0x74#8 then
      if rest.take 3 = ascii "rue" then some (.bool true, rest.drop 3) else none
    else if b = 0x66#8 then
      if rest.take 4 = ascii "alse" then some (.bool false, rest.drop 4) else none
    else if b = 0x2D#8 then (readNumber rest).bind negated
    else readNumber (b :: rest)
  | [] => none

mutual

def readDoc : Nat → Bytes → Option (JsonDoc × Bytes)
  | fuel + 1, b :: rest =>
    if b = 0x5B#8 then
      if rest.head? = some 0x5D#8 then some (.items [], rest.tail)
      else
        (readDoc fuel rest).bind fun (t, rest) =>
          (readItems fuel rest).map fun (ts, rest) => (.items (t :: ts), rest)
    else if b = 0x7B#8 then
      if rest.head? = some 0x7D#8 then some (.members [], rest.tail)
      else (readMember fuel rest).bind fun (m, rest) =>
        (readMembers fuel rest).map fun (ms, rest) => (.members (m :: ms), rest)
    else (readScalar (b :: rest)).map fun (a, rest) => (.leaf a, rest)
  | _, _ => none

def readItems : Nat → Bytes → Option (List JsonDoc × Bytes)
  | fuel + 1, b :: rest =>
    if b = 0x5D#8 then some ([], rest)
    else if b = 0x2C#8 then
      (readDoc fuel rest).bind fun (t, rest) =>
        (readItems fuel rest).map fun (ts, rest) => (t :: ts, rest)
    else none
  | _, _ => none

def readMember : Nat → Bytes → Option ((Bytes × JsonDoc) × Bytes)
  | fuel + 1, b :: rest =>
    if b = 0x22#8 then
      (readString rest).bind fun (key, rest) =>
        if rest.head? = some 0x3A#8 then
          (readDoc fuel rest.tail).map fun (t, rest) => ((key, t), rest)
        else none
    else none
  | _, _ => none

def readMembers : Nat → Bytes → Option (List (Bytes × JsonDoc) × Bytes)
  | fuel + 1, b :: rest =>
    if b = 0x7D#8 then some ([], rest)
    else if b = 0x2C#8 then
      (readMember fuel rest).bind fun (m, rest) =>
        (readMembers fuel rest).map fun (ms, rest) => (m :: ms, rest)
    else none
  | _, _ => none

end

/-! ### Scalars -/

/-- No number goes on here. -/
def Ends (rest : Bytes) : Prop :=
  ∀ b, rest.head? = some b → Json.isDigit b = false ∧ b ≠ 0x2E#8

theorem ends_nil : Ends [] := by
  intro b h
  cases h

theorem ends_cons {b : Byte} (hdigit : Json.isDigit b = false) (hdot : b ≠ 0x2E#8) (rest : Bytes) :
    Ends (b :: rest) := by
  intro c h
  obtain rfl := Option.some.inj h
  exact ⟨hdigit, hdot⟩

variable {rest : Bytes}

theorem Ends.take_ne (h : Ends rest) : rest.take 2 ≠ [0x2E#8, 0x30#8] := by
  cases rest with
  | nil => exact nofun
  | cons b rest =>
    intro htake
    rw [List.take_succ_cons] at htake
    exact (h b rfl).2 (List.cons.inj htake).1

theorem readNumber_decimal (n : Nat) (hrest : Json.NoDigit rest) :
    readNumber (decimal n ++ rest) =
      if rest.take 2 = [0x2E#8, 0x30#8] then some (.real (BitVec.ofNat 64 n), rest.drop 2)
      else some (.uint (BitVec.ofNat 64 n), rest) := by
  obtain ⟨htake, hdrop⟩ := Json.digits_split (Core.decimal_isDigit n) hrest
  simp only [readNumber, htake, hdrop, if_neg (Core.decimal_ne n), Core.digitsNat_decimal]

/-- A decimal number begins with a digit. -/
theorem decimal_head (n : Nat) : ∃ b t, decimal n = b :: t ∧ Json.isDigit b := by
  cases hdigits : decimal n with
  | nil => exact absurd hdigits (Core.decimal_ne n)
  | cons b t =>
    have hall := Core.decimal_isDigit n
    rw [hdigits, List.all_cons, Bool.and_eq_true] at hall
    exact ⟨b, t, rfl, hall.1⟩

/-- A digit is none of the marks that a document can begin with. -/
theorem digit_ne {b : Byte} (h : Json.isDigit b) : b ≠ 0x22#8 ∧ b ≠ 0x6E#8 ∧ b ≠ 0x74#8 ∧
    b ≠ 0x66#8 ∧ b ≠ 0x2D#8 ∧ b ≠ 0x5B#8 ∧ b ≠ 0x7B#8 ∧ b ≠ 0x5D#8 := by
  refine ⟨?_, ?_, ?_, ?_, ?_, ?_, ?_, ?_⟩ <;>
    · rintro rfl
      exact absurd h (by decide)

theorem readScalar_decimal (n : Nat) (rest : Bytes) :
    readScalar (decimal n ++ rest) = readNumber (decimal n ++ rest) := by
  obtain ⟨b, t, hdigits, hb⟩ := decimal_head n
  obtain ⟨h1, h2, h3, h4, h5, -⟩ := digit_ne hb
  rw [hdigits, List.cons_append, readScalar, if_neg h1, if_neg h2, if_neg h3, if_neg h4, if_neg h5]

theorem readScalar_writeScalar (a : Scalar) (hrest : Ends rest) :
    readScalar (writeScalar a ++ rest) = some (stored a, rest) := by
  have hdigit : Json.NoDigit rest := fun b hb => (hrest b hb).1
  have huint : ∀ n : BitVec 64,
      readScalar (decimal n.toNat ++ rest) = some (.uint n, rest) := by
    intro n
    rw [readScalar_decimal, readNumber_decimal _ hdigit, if_neg hrest.take_ne, BitVec.ofNat_toNat,
      BitVec.setWidth_eq]
  cases a with
  | null => rfl
  | bool b => cases b <;> rfl
  | uint n => exact huint n
  | sint n =>
    rw [writeScalar, stored]
    by_cases hneg : n.toInt < 0
    · have hvalue : -BitVec.ofNat 64 n.toInt.natAbs = n := by
        have hint := BitVec.toInt_eq_toNat_cond n
        have hlt := n.isLt
        refine BitVec.eq_of_toNat_eq ?_
        rw [BitVec.toNat_neg, BitVec.toNat_ofNat]
        split at hint <;> omega
      rw [if_pos hneg, if_pos hneg, List.cons_append, readScalar, if_neg (by decide),
        if_neg (by decide), if_neg (by decide), if_neg (by decide), if_pos rfl,
        readNumber_decimal _ hdigit, if_neg hrest.take_ne, Option.bind_some, negated, hvalue]
    · rw [if_neg hneg, if_neg hneg]
      exact huint n
  | real bits =>
    rw [writeScalar, List.append_assoc, readScalar_decimal]
    have hdot : Json.NoDigit ([0x2E#8, 0x30#8] ++ rest) := Json.noDigit_cons (by decide) _
    have htake : ([0x2E#8, 0x30#8] ++ rest).take 2 = [0x2E#8, 0x30#8] := rfl
    rw [readNumber_decimal _ hdot, if_pos htake, BitVec.ofNat_toNat, BitVec.setWidth_eq]
    rfl
  | str s =>
    rw [writeScalar, List.cons_append, readScalar, if_pos rfl, readString_stringTail]
    rfl

/-! ### Documents -/

/-- A document as it is read back. -/
def storedDoc (j : JsonDoc) : JsonDoc := j.bimap id stored

theorem storedDoc_items (ts : List JsonDoc) :
    storedDoc (.items ts) = .items (ts.map storedDoc) :=
  KeyedTree.bimap_items id stored ts

theorem storedDoc_members (ms : List (Bytes × JsonDoc)) :
    storedDoc (.members ms) = .members (ms.map fun m => (m.1, storedDoc m.2)) :=
  KeyedTree.bimap_members id stored ms

theorem value_storedDoc (j : JsonDoc) : JsonDoc.value (storedDoc j) = JsonDoc.value j := by
  have hstored : Scalar.value ∘ stored = Scalar.value := by
    funext a
    cases a with
    | sint n =>
      rw [Function.comp_apply, stored]
      split
      · rfl
      · rename_i hpos
        have hint := BitVec.toInt_eq_toNat_cond n
        rw [Scalar.value, Scalar.value, Atom.int.injEq]
        split at hint <;> omega
    | _ => rfl
  rw [JsonDoc.value, storedDoc, KeyedTree.bimap_bimap, hstored]
  rfl

def memberText (key : Bytes) (t : JsonDoc) : Bytes :=
  0x22#8 :: (stringTail key ++ 0x3A#8 :: writeDoc t)

theorem writeDoc_items (t : JsonDoc) (ts : List JsonDoc) :
    writeDoc (.items (t :: ts)) = 0x5B#8 :: (writeDoc t ++ writeItems ts) := by
  rw [writeDoc]

theorem writeDoc_members (key : Bytes) (t : JsonDoc) (ms : List (Bytes × JsonDoc)) :
    writeDoc (.members ((key, t) :: ms)) = 0x7B#8 :: (memberText key t ++ writeMembers ms) := by
  rw [writeDoc, memberText]
  simp

theorem writeItems_cons (t : JsonDoc) (ts : List JsonDoc) :
    writeItems (t :: ts) = 0x2C#8 :: (writeDoc t ++ writeItems ts) := by
  rw [writeItems]

theorem writeMembers_cons (key : Bytes) (t : JsonDoc) (ms : List (Bytes × JsonDoc)) :
    writeMembers ((key, t) :: ms) = 0x2C#8 :: (memberText key t ++ writeMembers ms) := by
  rw [writeMembers, memberText]
  simp

theorem ends_writeItems (ts : List JsonDoc) (rest : Bytes) : Ends (writeItems ts ++ rest) := by
  cases ts with
  | nil => exact ends_cons (by decide) (by decide) _
  | cons t ts =>
    rw [writeItems_cons]
    exact ends_cons (by decide) (by decide) _

theorem ends_writeMembers (ms : List (Bytes × JsonDoc)) (rest : Bytes) :
    Ends (writeMembers ms ++ rest) := by
  cases ms with
  | nil => exact ends_cons (by decide) (by decide) _
  | cons m ms =>
    rw [writeMembers_cons]
    exact ends_cons (by decide) (by decide) _

/-- A scalar does not begin with a bracket. -/
theorem writeScalar_head (a : Scalar) :
    ∃ b t, writeScalar a = b :: t ∧ b ≠ 0x5B#8 ∧ b ≠ 0x7B#8 ∧ b ≠ 0x5D#8 := by
  have hdecimal : ∀ (n : Nat) (more : Bytes),
      ∃ b t, decimal n ++ more = b :: t ∧ b ≠ 0x5B#8 ∧ b ≠ 0x7B#8 ∧ b ≠ 0x5D#8 := by
    intro n more
    obtain ⟨b, t, hdigits, hb⟩ := decimal_head n
    obtain ⟨-, -, -, -, -, h⟩ := digit_ne hb
    exact ⟨b, t ++ more, by rw [hdigits, List.cons_append], h⟩
  cases a with
  | null => exact ⟨_, _, rfl, by decide⟩
  | bool b => cases b <;> exact ⟨_, _, rfl, by decide⟩
  | uint n =>
    have h := hdecimal n.toNat []
    rwa [List.append_nil] at h
  | sint n =>
    rw [writeScalar]
    split
    · exact ⟨_, _, rfl, by decide⟩
    · have h := hdecimal n.toNat []
      rwa [List.append_nil] at h
  | real bits => exact hdecimal bits.toNat _
  | str s => exact ⟨_, _, rfl, by decide⟩

theorem head?_writeDoc (j : JsonDoc) (rest : Bytes) :
    (writeDoc j ++ rest).head? ≠ some 0x5D#8 := by
  have hfirst : ∃ b t, writeDoc j = b :: t ∧ b ≠ 0x5D#8 := by
    cases j with
    | leaf a =>
      obtain ⟨b, t, htext, -, -, hb⟩ := writeScalar_head a
      exact ⟨b, t, by rw [writeDoc, htext], hb⟩
    | items ts =>
      cases ts with
      | nil => exact ⟨_, _, rfl, by decide⟩
      | cons => exact ⟨_, _, writeDoc_items _ _, by decide⟩
    | members ms =>
      cases ms with
      | nil => exact ⟨_, _, rfl, by decide⟩
      | cons => exact ⟨_, _, writeDoc_members _ _ _, by decide⟩
  obtain ⟨b, t, htext, hb⟩ := hfirst
  rw [htext]
  exact fun h => hb (Option.some.inj h)

theorem writeDoc_ne (j : JsonDoc) : 0 < (writeDoc j).length := by
  cases hdoc : writeDoc j with
  | nil =>
    cases j with
    | leaf a =>
      obtain ⟨b, t, htext, -⟩ := writeScalar_head a
      rw [writeDoc, htext] at hdoc
      cases hdoc
    | items ts => cases ts <;> cases hdoc
    | members ms => cases ms <;> cases hdoc
  | cons => exact Nat.succ_pos _

theorem readDoc_leaf (a : Scalar) (fuel : Nat) (hrest : Ends rest) :
    readDoc (fuel + 1) (writeDoc (.leaf a) ++ rest) = some (.leaf (stored a), rest) := by
  obtain ⟨b, t, htext, hsquare, hcurly, -⟩ := writeScalar_head a
  have hread := readScalar_writeScalar a hrest
  rw [htext, List.cons_append] at hread
  rw [writeDoc, htext, List.cons_append, readDoc, if_neg hsquare, if_neg hcurly, hread]
  rfl

/-- Reading a member when its value can be read. -/
theorem readMember_memberText {key : Bytes} {t t' : JsonDoc} {fuel : Nat}
    (h : readDoc fuel (writeDoc t ++ rest) = some (t', rest)) :
    readMember (fuel + 1) (memberText key t ++ rest) = some ((key, t'), rest) := by
  rw [memberText, List.cons_append, readMember, if_pos rfl, List.append_assoc,
    readString_stringTail, Option.bind_some]
  dsimp only
  rw [List.cons_append, List.head?_cons, if_pos rfl, List.tail_cons, h, Option.map_some]

mutual

theorem readDoc_writeDoc : ∀ (j : JsonDoc) (fuel : Nat) (rest : Bytes), Ends rest →
    (writeDoc j).length ≤ fuel → readDoc fuel (writeDoc j ++ rest) = some (storedDoc j, rest)
  | j, 0, _, _, hfuel => absurd (Nat.lt_of_lt_of_le (writeDoc_ne j) hfuel) (Nat.lt_irrefl 0)
  | .leaf a, fuel + 1, rest, hrest, _ => by
      rw [readDoc_leaf a fuel hrest, storedDoc, KeyedTree.bimap_leaf]
  | .items [], fuel + 1, rest, _, _ => by
      rw [storedDoc_items]
      rfl
  | .items (t :: ts), fuel + 1, rest, _, hfuel => by
      rw [writeDoc_items, List.length_cons, List.length_append] at hfuel
      rw [writeDoc_items, List.cons_append, List.append_assoc, readDoc, if_pos rfl,
        if_neg (head?_writeDoc t _), readDoc_writeDoc t fuel _ (ends_writeItems ts rest) (by omega),
        Option.bind_some]
      dsimp only
      rw [readItems_writeItems ts fuel rest (by omega), storedDoc_items]
      rfl
  | .members [], fuel + 1, rest, _, _ => by
      rw [storedDoc_members]
      rfl
  | .members ((key, t) :: ms), fuel + 1, rest, _, hfuel => by
      rw [writeDoc_members, List.length_cons, List.length_append, memberText, List.length_cons,
        List.length_append, List.length_cons] at hfuel
      obtain ⟨fuel, rfl⟩ : ∃ k, fuel = k + 1 := ⟨fuel - 1, by omega⟩
      rw [writeDoc_members, List.cons_append, List.append_assoc, readDoc, if_neg (by decide),
        if_pos rfl,
        if_neg (by rw [memberText]; exact fun h => absurd (Option.some.inj h) (by decide)),
        readMember_memberText
          (readDoc_writeDoc t fuel _ (ends_writeMembers ms rest) (by omega)), Option.bind_some]
      dsimp only
      rw [readMembers_writeMembers ms (fuel + 1) rest (by omega), storedDoc_members]
      rfl

theorem readItems_writeItems : ∀ (ts : List JsonDoc) (fuel : Nat) (rest : Bytes),
    (writeItems ts).length ≤ fuel →
      readItems fuel (writeItems ts ++ rest) = some (ts.map storedDoc, rest)
  | [], fuel + 1, rest, _ => rfl
  | t :: ts, fuel + 1, rest, hfuel => by
      rw [writeItems_cons, List.length_cons, List.length_append] at hfuel
      rw [writeItems_cons, List.cons_append, List.append_assoc, readItems, if_neg (by decide),
        if_pos rfl, readDoc_writeDoc t fuel _ (ends_writeItems ts rest) (by omega),
        Option.bind_some]
      dsimp only
      rw [readItems_writeItems ts fuel rest (by omega)]
      rfl
  | [], 0, _, hfuel => absurd hfuel (by decide)
  | _ :: _, 0, _, hfuel => by rw [writeItems_cons] at hfuel; cases hfuel

theorem readMembers_writeMembers : ∀ (ms : List (Bytes × JsonDoc)) (fuel : Nat) (rest : Bytes),
    (writeMembers ms).length ≤ fuel →
      readMembers fuel (writeMembers ms ++ rest) =
        some (ms.map fun m => (m.1, storedDoc m.2), rest)
  | [], fuel + 1, rest, _ => rfl
  | (key, t) :: ms, fuel + 1, rest, hfuel => by
      rw [writeMembers_cons, List.length_cons, List.length_append, memberText, List.length_cons,
        List.length_append, List.length_cons] at hfuel
      obtain ⟨fuel, rfl⟩ : ∃ k, fuel = k + 1 := ⟨fuel - 1, by omega⟩
      rw [writeMembers_cons, List.cons_append, List.append_assoc, readMembers,
        if_neg (by decide), if_pos rfl,
        readMember_memberText
          (readDoc_writeDoc t fuel _ (ends_writeMembers ms rest) (by omega)), Option.bind_some]
      dsimp only
      rw [readMembers_writeMembers ms (fuel + 1) rest (by omega)]
      rfl
  | [], 0, _, hfuel => absurd hfuel (by decide)
  | _ :: _, 0, _, hfuel => by rw [writeMembers_cons] at hfuel; cases hfuel

end

/-! ### The library -/

/-- How a value is stored when it is read. -/
def ofValue : Atom → Scalar
  | .null => .null
  | .bool b => .bool b
  | .int n => if n < 0 then .sint (BitVec.ofInt 64 n) else .uint (BitVec.ofInt 64 n)
  | .real bits => .real bits
  | .str s => .str s

theorem ofValue_value (a : Scalar) : ofValue a.value = stored a := by
  cases a with
  | uint n =>
    have hpos : ¬(n.toNat : Int) < 0 := by omega
    rw [Scalar.value, ofValue, if_neg hpos, BitVec.ofInt_natCast, BitVec.ofNat_toNat,
      BitVec.setWidth_eq]
    rfl
  | sint n => rw [Scalar.value, ofValue, BitVec.ofInt_toInt, stored]
  | _ => rfl

theorem storedDoc_eq (j : JsonDoc) : storedDoc j = (JsonDoc.value j).bimap id ofValue := by
  have hstored : ofValue ∘ Scalar.value = stored := funext ofValue_value
  rw [JsonDoc.value, KeyedTree.bimap_bimap, hstored]
  rfl

theorem writable_storedDoc (j : JsonDoc) : JsonDoc.Writable (storedDoc j) ↔ JsonDoc.Writable j := by
  rw [JsonDoc.Writable, storedDoc, KeyedTree.each_bimap]
  have hscalar : Scalar.Writable ∘ stored = Scalar.Writable := by
    funext a
    cases a with
    | sint n =>
      rw [Function.comp_apply, stored]
      split <;> rfl
    | _ => rfl
  rw [hscalar]
  rfl

open Classical in
noncomputable def yyjson : Yyjson where
  read text :=
    match readDoc text.length text with
    | some (j, []) => if JsonDoc.Writable j then some j else none
    | _ => none
  readStop text :=
    match readDoc text.length text with
    | some (j, _) => if JsonDoc.Writable j then some j else none
    | _ => none
  write j := if JsonDoc.Writable j then some (writeDoc (storedDoc j)) else none

theorem read_writeDoc {j : JsonDoc} (h : JsonDoc.Writable j) :
    yyjson.read (writeDoc j) = some (storedDoc j) := by
  have hread := readDoc_writeDoc j _ [] ends_nil le_rfl
  rw [List.append_nil] at hread
  simp only [yyjson, hread]
  exact if_pos ((writable_storedDoc j).mpr h)

theorem yyjson_faithful : yyjson.Faithful where
  read_nil := rfl
  read_stop t j h := by
    simp only [yyjson] at h ⊢
    split at h
    · rename_i hdoc
      rw [hdoc]
      exact h
    · cases h
  writable t j h := by
    simp only [yyjson] at h
    split at h
    · split at h
      · rename_i hwritable
        obtain rfl := Option.some.inj h
        exact hwritable
      · cases h
    · cases h
  write_value j k h := by
    have hstored : storedDoc j = storedDoc k := by rw [storedDoc_eq, storedDoc_eq, h]
    have hwritable : JsonDoc.Writable j ↔ JsonDoc.Writable k := by
      rw [← writable_storedDoc j, hstored, writable_storedDoc k]
    simp only [yyjson, hstored]
    by_cases hj : JsonDoc.Writable j
    · rw [if_pos hj, if_pos (hwritable.mp hj)]
    · rw [if_neg hj, if_neg (mt hwritable.mpr hj)]
  read_write j h := by
    refine ⟨writeDoc (storedDoc j), storedDoc (storedDoc j), if_pos h,
      read_writeDoc ((writable_storedDoc j).mpr h), ?_⟩
    rw [value_storedDoc, value_storedDoc]

end CompactDoc

end KimixNative.Agent
