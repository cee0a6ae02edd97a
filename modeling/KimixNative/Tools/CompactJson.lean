import KimixNative.Tools.ToolParams

/-!
# Compact JSON

The JSON text of a value, without blanks, and a reader of the texts of values that are made of
strings, nulls, arrays and objects. Reading such a text gives back the value.
-/

namespace KimixNative.Tools

open Text

/-- A value of strings, nulls, arrays and objects, with valid texts and distinct keys. -/
inductive ValueElement.Plain : ValueElement → Prop
  | null : Plain .null
  | string {s : Bytes} (h : ValidUtf8 s) : Plain (.string s)
  | array {elements : List ValueElement} (h : ∀ v ∈ elements, Plain v) : Plain (.array elements)
  | object {values : ValueMap} (keys : ∀ entry ∈ values, ValidUtf8 entry.1)
      (distinct : (values.map Prod.fst).Nodup) (h : ∀ entry ∈ values, Plain entry.2) :
      Plain (.object values)

/-- The object has such values, valid keys, and each key once. -/
def ValueMap.Plain (values : ValueMap) : Prop := (ValueElement.object values).Plain

variable {v : ValueElement}

theorem ValueElement.Plain.utf8 (h : v.Plain) : v.Utf8 := by
  induction h with
  | null => exact .null
  | string h => exact .string h
  | array h ih => exact .array ih
  | object keys distinct h ih => exact .object keys ih

namespace CompactJson

/-! ### Strings -/

/-- An upper-case hexadecimal digit. -/
def hexDigit (n : Nat) : Byte := BitVec.ofNat 8 (if n < 10 then 0x30 + n else 0x37 + n)

def hexValue (b : Byte) : Nat := if b.toNat < 0x41 then b.toNat - 0x30 else b.toNat - 0x37

/-- The two-character escape of a byte. -/
def shortEscape (b : Byte) : Option Byte :=
  if b = 0x22#8 then some 0x22#8
  else if b = 0x5C#8 then some 0x5C#8
  else if b = 0x08#8 then some 0x62#8
  else if b = 0x0C#8 then some 0x66#8
  else if b = 0x0A#8 then some 0x6E#8
  else if b = 0x0D#8 then some 0x72#8
  else if b = 0x09#8 then some 0x74#8
  else none

/-- The byte that a two-character escape stands for. -/
def shortValue (e : Byte) : Option Byte :=
  if e = 0x22#8 then some 0x22#8
  else if e = 0x5C#8 then some 0x5C#8
  else if e = 0x62#8 then some 0x08#8
  else if e = 0x66#8 then some 0x0C#8
  else if e = 0x6E#8 then some 0x0A#8
  else if e = 0x72#8 then some 0x0D#8
  else if e = 0x74#8 then some 0x09#8
  else none

def escapeByte (b : Byte) : Bytes :=
  match shortEscape b with
  | some e => [0x5C#8, e]
  | none =>
    if b.toNat < 0x20 then
      [0x5C#8, 0x75#8, 0x30#8, 0x30#8, hexDigit (b.toNat / 16), hexDigit (b.toNat % 16)]
    else [b]

/-- The characters of a string and its closing quotation mark. -/
def stringTail (s : Bytes) : Bytes := s.flatMap escapeByte ++ [0x22#8]

def pushByte (b : Byte) (r : Bytes × Bytes) : Bytes × Bytes := (b :: r.1, r.2)

/-- Reads the characters of a string and its closing quotation mark. -/
def readString : Bytes → Option (Bytes × Bytes)
  | [] => none
  | b :: rest =>
    if b = 0x22#8 then some ([], rest)
    else if b = 0x5C#8 then
      match rest with
      | [] => none
      | e :: more =>
        if e = 0x75#8 then
          match more with
          | _ :: _ :: hi :: lo :: tail =>
            (readString tail).map
              (pushByte (BitVec.ofNat 8 (hexValue hi * 16 + hexValue lo)))
          | _ => none
        else (shortValue e).bind fun c => (readString more).map (pushByte c)
    else (readString rest).map (pushByte b)

theorem shortValue_of_shortEscape {b e : Byte} (h : shortEscape b = some e) :
    shortValue e = some b ∧ e ≠ 0x75#8 := by
  revert h
  unfold shortEscape
  repeat' split
  all_goals intro h; cases h <;> subst_vars <;> decide

theorem hexValue_hexDigit : ∀ n < 16, hexValue (hexDigit n) = n := by decide

theorem readString_quote (rest : Bytes) : readString (0x22#8 :: rest) = some ([], rest) := by
  rw [readString.eq_def]
  exact if_pos rfl

theorem readString_plain {b : Byte} (hquote : b ≠ 0x22#8) (hslash : b ≠ 0x5C#8) (rest : Bytes) :
    readString (b :: rest) = (readString rest).map (pushByte b) := by
  rw [readString.eq_def]
  exact (if_neg hquote).trans (if_neg hslash)

theorem readString_short {e c : Byte} (hu : e ≠ 0x75#8) (hvalue : shortValue e = some c)
    (rest : Bytes) :
    readString (0x5C#8 :: e :: rest) = (readString rest).map (pushByte c) := by
  rw [readString.eq_def]
  refine (if_neg (by decide)).trans ((if_pos rfl).trans ((if_neg hu).trans ?_))
  rw [hvalue]
  rfl

theorem readString_unicode (z z' hi lo : Byte) (rest : Bytes) :
    readString (0x5C#8 :: 0x75#8 :: z :: z' :: hi :: lo :: rest) =
      (readString rest).map (pushByte (BitVec.ofNat 8 (hexValue hi * 16 + hexValue lo))) := by
  rw [readString.eq_def]
  exact (if_neg (by decide)).trans ((if_pos rfl).trans (if_pos rfl))

theorem readString_escapeByte (b : Byte) (rest : Bytes) :
    readString (escapeByte b ++ rest) = (readString rest).map (pushByte b) := by
  unfold escapeByte
  cases hshort : shortEscape b with
  | some e =>
    obtain ⟨hvalue, hu⟩ := shortValue_of_shortEscape hshort
    exact readString_short hu hvalue rest
  | none =>
    have hquote : b ≠ 0x22#8 := by rintro rfl; cases hshort
    have hslash : b ≠ 0x5C#8 := by rintro rfl; cases hshort
    dsimp only
    split
    · refine (readString_unicode _ _ _ _ rest).trans ?_
      rw [hexValue_hexDigit _ (by omega), hexValue_hexDigit _ (by omega),
        show b.toNat / 16 * 16 + b.toNat % 16 = b.toNat by omega, BitVec.ofNat_toNat,
        BitVec.setWidth_eq]
    · exact readString_plain hquote hslash rest

theorem readString_stringTail (s rest : Bytes) :
    readString (stringTail s ++ rest) = some (s, rest) := by
  induction s with
  | nil => exact readString_quote rest
  | cons b s ih =>
    have hsplit : stringTail (b :: s) ++ rest = escapeByte b ++ (stringTail s ++ rest) := by
      simp [stringTail]
    rw [hsplit, readString_escapeByte, ih]
    rfl

/-! ### Values -/

mutual

/-- The text of a value. -/
def writeValue : ValueElement → Bytes
  | .null => ascii "null"
  | .bool b => if b then ascii "true" else ascii "false"
  | .int i => (if i < 0 then ascii "-" else []) ++ decimal i.natAbs
  | .uint u => decimal u
  | .real d => d.text
  | .string s => 0x22#8 :: stringTail s
  | .array [] => [0x5B#8, 0x5D#8]
  | .array (v :: rest) => 0x5B#8 :: (writeValue v ++ elementsTail rest)
  | .object [] => [0x7B#8, 0x7D#8]
  | .object ((key, v) :: rest) =>
    0x7B#8 :: 0x22#8 :: (stringTail key ++ 0x3A#8 :: (writeValue v ++ membersTail rest))

/-- The elements behind the first one and the closing bracket. -/
def elementsTail : List ValueElement → Bytes
  | [] => [0x5D#8]
  | v :: rest => 0x2C#8 :: (writeValue v ++ elementsTail rest)

/-- The members behind the first one and the closing bracket. -/
def membersTail : List (Bytes × ValueElement) → Bytes
  | [] => [0x7D#8]
  | (key, v) :: rest =>
    0x2C#8 :: 0x22#8 :: (stringTail key ++ 0x3A#8 :: (writeValue v ++ membersTail rest))

end

mutual

/-- Reads a value. -/
def readValue : Nat → Bytes → Option (ValueElement × Bytes)
  | fuel + 1, b :: rest =>
    if b = 0x6E#8 then
      if rest.take 3 = ascii "ull" then some (.null, rest.drop 3) else none
    else if b = 0x22#8 then (readString rest).map fun r => (.string r.1, r.2)
    else if b = 0x5B#8 then
      if rest.head? = some 0x5D#8 then some (.array [], rest.tail)
      else
        (readValue fuel rest).bind fun (v, rest) =>
          (readElements fuel rest).map fun (vs, rest) => (.array (v :: vs), rest)
    else if b = 0x7B#8 then
      if rest.head? = some 0x7D#8 then some (.object [], rest.tail)
      else (readMember fuel rest).bind fun (m, rest) =>
        (readMembers fuel rest).map fun (ms, rest) => (.object (m :: ms), rest)
    else none
  | _, _ => none

/-- Reads the elements behind the first one and the closing bracket. -/
def readElements : Nat → Bytes → Option (List ValueElement × Bytes)
  | fuel + 1, b :: rest =>
    if b = 0x5D#8 then some ([], rest)
    else if b = 0x2C#8 then
      (readValue fuel rest).bind fun (v, rest) =>
        (readElements fuel rest).map fun (vs, rest) => (v :: vs, rest)
    else none
  | _, _ => none

/-- Reads a member. -/
def readMember : Nat → Bytes → Option ((Bytes × ValueElement) × Bytes)
  | fuel + 1, b :: rest =>
    if b = 0x22#8 then
      (readString rest).bind fun (key, rest) =>
        if rest.head? = some 0x3A#8 then
          (readValue fuel rest.tail).map fun (v, rest) => ((key, v), rest)
        else none
    else none
  | _, _ => none

/-- Reads the members behind the first one and the closing bracket. -/
def readMembers : Nat → Bytes → Option (List (Bytes × ValueElement) × Bytes)
  | fuel + 1, b :: rest =>
    if b = 0x7D#8 then some ([], rest)
    else if b = 0x2C#8 then
      (readMember fuel rest).bind fun (m, rest) =>
        (readMembers fuel rest).map fun (ms, rest) => (m :: ms, rest)
    else none
  | _, _ => none

end

/-- The members behind the first one are written as the first one is, behind a comma. -/
def memberText (key : Bytes) (v : ValueElement) : Bytes :=
  0x22#8 :: (stringTail key ++ 0x3A#8 :: writeValue v)

theorem writeValue_array (v : ValueElement) (rest : List ValueElement) :
    writeValue (.array (v :: rest)) = 0x5B#8 :: (writeValue v ++ elementsTail rest) := by
  rw [writeValue]

theorem writeValue_object (key : Bytes) (v : ValueElement) (rest : ValueMap) :
    writeValue (.object ((key, v) :: rest)) = 0x7B#8 :: (memberText key v ++ membersTail rest) := by
  rw [writeValue, memberText]
  simp

theorem elementsTail_cons (v : ValueElement) (rest : List ValueElement) :
    elementsTail (v :: rest) = 0x2C#8 :: (writeValue v ++ elementsTail rest) := by
  rw [elementsTail]

theorem membersTail_cons (key : Bytes) (v : ValueElement) (rest : ValueMap) :
    membersTail ((key, v) :: rest) = 0x2C#8 :: (memberText key v ++ membersTail rest) := by
  rw [membersTail, memberText]
  simp

/-- A value that is plain does not begin with a closing bracket. -/
theorem head?_writeValue (h : v.Plain) (rest : Bytes) :
    (writeValue v ++ rest).head? ≠ some 0x5D#8 := by
  have hfirst : ∃ b t, writeValue v = b :: t ∧ b ≠ 0x5D#8 := by
    cases h with
    | null => exact ⟨_, _, rfl, by decide⟩
    | string => exact ⟨_, _, by rw [writeValue], by decide⟩
    | @array elements =>
      cases elements with
      | nil => exact ⟨_, _, rfl, by decide⟩
      | cons => exact ⟨_, _, writeValue_array _ _, by decide⟩
    | @object values =>
      cases values with
      | nil => exact ⟨_, _, rfl, by decide⟩
      | cons => exact ⟨_, _, writeValue_object _ _ _, by decide⟩
  obtain ⟨b, t, htext, hb⟩ := hfirst
  rw [htext]
  exact fun h => hb (Option.some.inj h)

section RoundTrip

/-- Reading a member when its value can be read. -/
theorem readMember_memberText {key : Bytes} {fuel : Nat} {rest : Bytes}
    (hv : readValue fuel (writeValue v ++ rest) = some (v, rest)) :
    readMember (fuel + 1) (memberText key v ++ rest) = some ((key, v), rest) := by
  rw [memberText, List.cons_append, readMember, if_pos rfl, List.append_assoc,
    readString_stringTail, Option.bind_some]
  dsimp only
  rw [List.cons_append, List.head?_cons, if_pos rfl, List.tail_cons, hv, Option.map_some]

mutual

theorem readValue_writeValue : ∀ (v : ValueElement), v.Plain → ∀ (fuel : Nat) (rest : Bytes),
    (writeValue v).length ≤ fuel → readValue fuel (writeValue v ++ rest) = some (v, rest)
  | .null, _, fuel + 1, rest, _ => rfl
  | .string s, _, fuel + 1, rest, _ => by
      rw [writeValue, List.cons_append, readValue, if_neg (by decide), if_pos rfl,
        readString_stringTail]
      rfl
  | .array [], _, fuel + 1, rest, _ => rfl
  | .array (v :: vs), h, fuel + 1, rest, hfuel => by
      cases h with
      | array h =>
        obtain ⟨hv, hvs⟩ := List.forall_mem_cons.mp h
        rw [writeValue_array, List.length_cons, List.length_append] at hfuel
        rw [writeValue_array, List.cons_append, List.append_assoc, readValue, if_neg (by decide),
          if_neg (by decide), if_pos rfl, if_neg (head?_writeValue hv _),
          readValue_writeValue v hv fuel _ (by omega), Option.bind_some]
        dsimp only
        rw [readElements_elementsTail vs hvs fuel rest (by omega)]
        rfl
  | .object [], _, fuel + 1, rest, _ => rfl
  | .object ((key, v) :: ms), h, fuel + 1, rest, hfuel => by
      cases h with
      | object keys distinct h =>
        obtain ⟨hv, hms⟩ := List.forall_mem_cons.mp h
        rw [writeValue_object, List.length_cons, List.length_append, memberText,
          List.length_cons, List.length_append, List.length_cons] at hfuel
        obtain ⟨fuel, rfl⟩ : ∃ k, fuel = k + 1 := ⟨fuel - 1, by omega⟩
        rw [writeValue_object, List.cons_append, List.append_assoc, readValue,
          if_neg (by decide), if_neg (by decide), if_neg (by decide), if_pos rfl,
          if_neg (by rw [memberText]; exact fun h => absurd (Option.some.inj h) (by decide)),
          readMember_memberText (readValue_writeValue v hv fuel _ (by omega)), Option.bind_some]
        dsimp only
        rw [readMembers_membersTail ms hms (fuel + 1) rest (by omega)]
        rfl
  | .null, _, 0, _, hfuel => absurd hfuel (by decide)
  | .string s, _, 0, _, hfuel => by rw [writeValue] at hfuel; cases hfuel
  | .array [], _, 0, _, hfuel => absurd hfuel (by decide)
  | .array (_ :: _), _, 0, _, hfuel => by rw [writeValue] at hfuel; cases hfuel
  | .object [], _, 0, _, hfuel => absurd hfuel (by decide)
  | .object (_ :: _), _, 0, _, hfuel => by rw [writeValue] at hfuel; cases hfuel

theorem readElements_elementsTail : ∀ (vs : List ValueElement), (∀ v ∈ vs, v.Plain) →
    ∀ (fuel : Nat) (rest : Bytes), (elementsTail vs).length ≤ fuel →
      readElements fuel (elementsTail vs ++ rest) = some (vs, rest)
  | [], _, fuel + 1, rest, _ => rfl
  | v :: vs, h, fuel + 1, rest, hfuel => by
      obtain ⟨hv, hvs⟩ := List.forall_mem_cons.mp h
      rw [elementsTail_cons, List.length_cons, List.length_append] at hfuel
      rw [elementsTail_cons, List.cons_append, List.append_assoc, readElements,
        if_neg (by decide), if_pos rfl, readValue_writeValue v hv fuel _ (by omega),
        Option.bind_some]
      dsimp only
      rw [readElements_elementsTail vs hvs fuel rest (by omega)]
      rfl
  | [], _, 0, _, hfuel => absurd hfuel (by decide)
  | _ :: _, _, 0, _, hfuel => by rw [elementsTail] at hfuel; cases hfuel

theorem readMembers_membersTail : ∀ (ms : List (Bytes × ValueElement)),
    (∀ entry ∈ ms, entry.2.Plain) → ∀ (fuel : Nat) (rest : Bytes),
      (membersTail ms).length ≤ fuel →
        readMembers fuel (membersTail ms ++ rest) = some (ms, rest)
  | [], _, fuel + 1, rest, _ => rfl
  | (key, v) :: ms, h, fuel + 1, rest, hfuel => by
      obtain ⟨hv, hms⟩ := List.forall_mem_cons.mp h
      rw [membersTail_cons, List.length_cons, List.length_append, memberText, List.length_cons,
        List.length_append, List.length_cons] at hfuel
      obtain ⟨fuel, rfl⟩ : ∃ k, fuel = k + 1 := ⟨fuel - 1, by omega⟩
      rw [membersTail_cons, List.cons_append, List.append_assoc, readMembers,
        if_neg (by decide), if_pos rfl,
        readMember_memberText (readValue_writeValue v hv fuel _ (by omega)), Option.bind_some]
      dsimp only
      rw [readMembers_membersTail ms hms (fuel + 1) rest (by omega)]
      rfl
  | [], _, 0, _, hfuel => absurd hfuel (by decide)
  | _ :: _, _, 0, _, hfuel => by rw [membersTail] at hfuel; cases hfuel

end

end RoundTrip

/-! ### Objects -/

/-- The text of an object. -/
def writeObject (values : ValueMap) : Bytes := writeValue (.object values)

/-- The object that a whole text holds. -/
def readObject (text : Bytes) : Option ValueMap :=
  match readValue text.length text with
  | some (.object values, []) => some values
  | _ => none

/-- Reading what was written gives the object back. -/
theorem readObject_writeObject {values : ValueMap} (h : values.Plain) :
    readObject (writeObject values) = some values := by
  have hread := readValue_writeValue (.object values) h _ [] le_rfl
  rw [List.append_nil] at hread
  rw [readObject, writeObject, hread]

end CompactJson

end KimixNative.Tools
