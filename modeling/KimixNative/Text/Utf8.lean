import KimixNative.Lib.Walk
import KimixNative.Lib.LittleEndian

/-!
# UTF-8 as the runtime reads it

`decode_cp` reads one code point. A byte that does not begin a well-formed sequence is read
alone, as U+FFFD, so that every byte string is a walk of code points. It accepts the encoded
surrogates that the binding layer lets through.
-/

namespace KimixNative.Text

/-- `is_ascii`. -/
def isAscii (bytes : Bytes) : Bool := bytes.all fun b => decide (b.toNat < 0x80)

/-- What a lead byte announces: the length of the sequence, the bits it brings and the least
code point that needs this length. -/
def leadByte (b0 : Nat) : Option (Nat × Nat × Nat) :=
  if b0 / 0x20 = 0x06 then some (2, b0 % 0x20, 0x80)
  else if b0 / 0x10 = 0x0E then some (3, b0 % 0x10, 0x800)
  else if b0 / 0x08 = 0x1E then some (4, b0 % 0x08, 0x10000)
  else none

/-- The loop over the continuation bytes. -/
def continuation : Nat → Bytes → Option Nat
  | cp, [] => some cp
  | cp, b :: rest =>
    if b.toNat / 0x40 ≠ 0x02 then none else continuation (cp * 0x40 + b.toNat % 0x40) rest

/-- The sequence that a lead byte begins: not truncated, with continuation bytes, in the range
of its length. -/
def sequence (b0 : Byte) (rest : Bytes) : Option (Nat × Nat) :=
  (leadByte b0.toNat).bind fun (len, lead, minCp) =>
    if rest.length + 1 < len then none
    else
      (continuation lead (rest.take (len - 1))).bind fun cp =>
        if cp < minCp ∨ cp > 0x10FFFF then none else some (cp, len)

/-- `decode_cp` at a byte and what follows it: the code point and by how much it advances. -/
def decodeCp (b0 : Byte) (rest : Bytes) : Nat × Nat :=
  if b0.toNat < 0x80 then (b0.toNat, 1) else (sequence b0 rest).getD (0xFFFD, 1)

/-- How far `decode_cp` advances. -/
def cpLength : Bytes → Nat
  | [] => 0
  | b0 :: rest => (decodeCp b0 rest).2

/-- The code points of a byte string, each as its bytes. -/
def codePoints (bytes : Bytes) : List Bytes := cuts cpLength bytes

/-- The loop of `utf8_code_point_count`: runs of ASCII in bulk, the rest by `decode_cp`. -/
def countLoop (bytes : Bytes) : Nat :=
  match bytes with
  | [] => 0
  | b0 :: rest =>
    if b0.toNat < 0x80 then
      (rest.takeWhile fun b => b.toNat < 0x80).length + 1 +
        countLoop (rest.dropWhile fun b => b.toNat < 0x80)
    else 1 + countLoop ((b0 :: rest).drop (max 1 (decodeCp b0 rest).2))
termination_by bytes.length
decreasing_by
  · have hle := (List.dropWhile_suffix (fun b : Byte => decide (b.toNat < 0x80)) (l := rest)).length_le
    simp only [List.length_cons]
    omega
  · simp only [List.length_drop, List.length_cons]
    omega

/-- `utf8_code_point_count`. -/
def utf8CodePointCount (bytes : Bytes) : Nat := countLoop bytes

variable {b0 : Byte} {rest : Bytes}

theorem decodeCp_ascii (h : b0.toNat < 0x80) (rest : Bytes) :
    decodeCp b0 rest = (b0.toNat, 1) := if_pos h

theorem leadByte_length {b0 len lead minCp : Nat} (h : leadByte b0 = some (len, lead, minCp)) :
    2 ≤ len := by
  unfold leadByte at h
  split_ifs at h <;> simp only [Option.some_inj, Prod.mk.injEq] at h <;> omega

theorem sequence_eq_some {cp len : Nat} :
    sequence b0 rest = some (cp, len) ↔
      ∃ lead minCp, leadByte b0.toNat = some (len, lead, minCp) ∧ len ≤ rest.length + 1 ∧
        continuation lead (rest.take (len - 1)) = some cp ∧ minCp ≤ cp ∧ cp ≤ 0x10FFFF := by
  unfold sequence
  constructor
  · intro h
    obtain ⟨⟨len', lead, minCp⟩, hlead, h⟩ := Option.bind_eq_some_iff.mp h
    simp only [Option.ite_none_left_eq_some] at h
    obtain ⟨hfit, h⟩ := h
    obtain ⟨cp', hcp, h⟩ := Option.bind_eq_some_iff.mp h
    simp only [Option.ite_none_left_eq_some, Option.some_inj, Prod.mk.injEq] at h
    obtain ⟨hrange, rfl, rfl⟩ := h
    exact ⟨lead, minCp, hlead, by omega, hcp, by omega, by omega⟩
  · rintro ⟨lead, minCp, hlead, hfit, hcp, hmin, hmax⟩
    rw [hlead, Option.bind_some]
    simp only
    rw [if_neg (by omega), hcp, Option.bind_some, if_neg (by omega)]

/-- What follows a sequence does not matter to it. -/
theorem sequence_append {cp len : Nat} (h : sequence b0 rest = some (cp, len)) (more : Bytes) :
    sequence b0 (rest ++ more) = some (cp, len) := by
  obtain ⟨lead, minCp, hlead, hfit, hcp, hmin, hmax⟩ := sequence_eq_some.mp h
  refine sequence_eq_some.mpr ⟨lead, minCp, hlead, ?_, ?_, hmin, hmax⟩
  · rw [List.length_append]
    omega
  · rwa [List.take_append_of_le_length (by omega)]

theorem sequence_of_append {more : Bytes} {cp len : Nat}
    (h : sequence b0 (rest ++ more) = some (cp, len)) (hfit : len ≤ rest.length + 1) :
    sequence b0 rest = some (cp, len) := by
  obtain ⟨lead, minCp, hlead, -, hcp, hmin, hmax⟩ := sequence_eq_some.mp h
  rw [List.take_append_of_le_length (by omega)] at hcp
  exact sequence_eq_some.mpr ⟨lead, minCp, hlead, hfit, hcp, hmin, hmax⟩

/-- A sequence is judged by its own bytes. -/
theorem cpLength_local : Local cpLength := by
  intro xs ys hne hfit
  cases xs with
  | nil => exact absurd rfl hne
  | cons b0 rest =>
    simp only [List.cons_append, cpLength, List.length_cons] at hfit ⊢
    unfold decodeCp at hfit ⊢
    by_cases hascii : b0.toNat < 0x80
    · rw [if_pos hascii, if_pos hascii]
    · rw [if_neg hascii] at hfit
      rw [if_neg hascii, if_neg hascii]
      cases hseq : sequence b0 (rest ++ ys) with
      | some r =>
        rw [hseq] at hfit
        rw [show sequence b0 rest = some r from sequence_of_append hseq hfit]
      | none =>
        cases hseq' : sequence b0 rest with
        | none => rfl
        | some r =>
          rw [show sequence b0 (rest ++ ys) = some r from sequence_append hseq' ys] at hseq
          cases hseq

theorem cpLength_bounds (b0 : Byte) (rest : Bytes) :
    1 ≤ cpLength (b0 :: rest) ∧ cpLength (b0 :: rest) ≤ (b0 :: rest).length := by
  simp only [cpLength, decodeCp, List.length_cons]
  split
  · simp
  · cases hseq : sequence b0 rest with
    | none => simp
    | some r =>
      obtain ⟨cp, len⟩ := r
      obtain ⟨lead, minCp, hlead, hfit, -⟩ := sequence_eq_some.mp hseq
      have hlen := leadByte_length hlead
      simp only [Option.getD_some]
      omega

theorem pieceLength_cpLength (b0 : Byte) (rest : Bytes) :
    pieceLength cpLength (b0 :: rest) = cpLength (b0 :: rest) := by
  have hbounds := cpLength_bounds b0 rest
  unfold pieceLength
  omega

/-- One code point of the walk. -/
theorem codePoints_cons (b0 : Byte) (rest : Bytes) :
    codePoints (b0 :: rest) = (b0 :: rest).take (cpLength (b0 :: rest)) ::
      codePoints ((b0 :: rest).drop (cpLength (b0 :: rest))) := by
  have h := @cuts_of_ne_nil Byte cpLength (b0 :: rest) (List.cons_ne_nil b0 rest)
  rw [pieceLength_cpLength] at h
  exact h

/-! ## Well-formed text -/

/-- One well-formed sequence. -/
inductive IsChar : Bytes → Prop
  | one {a : Byte} (ha : a.toNat < 0x80) : IsChar [a]
  | two {a b : Byte} (ha : 0xC2 ≤ a.toNat ∧ a.toNat ≤ 0xDF) (hb : b.toNat / 0x40 = 2) :
      IsChar [a, b]
  | three {a b c : Byte} (ha : 0xE0 ≤ a.toNat ∧ a.toNat ≤ 0xEF) (hb : b.toNat / 0x40 = 2)
      (hc : c.toNat / 0x40 = 2) (long : a.toNat = 0xE0 → 0xA0 ≤ b.toNat)
      (surrogate : a.toNat = 0xED → b.toNat ≤ 0x9F) : IsChar [a, b, c]
  | four {a b c d : Byte} (ha : 0xF0 ≤ a.toNat ∧ a.toNat ≤ 0xF4) (hb : b.toNat / 0x40 = 2)
      (hc : c.toNat / 0x40 = 2) (hd : d.toNat / 0x40 = 2)
      (long : a.toNat = 0xF0 → 0x90 ≤ b.toNat) (top : a.toNat = 0xF4 → b.toNat ≤ 0x8F) :
      IsChar [a, b, c, d]

/-- A text of well-formed sequences. -/
def ValidUtf8 (text : Bytes) : Prop :=
  ∃ chars : List Bytes, (∀ c ∈ chars, IsChar c) ∧ text = chars.flatten

/-- `append_utf8`. -/
def encodeCp (cp : Nat) : Bytes :=
  if cp < 0x80 then [BitVec.ofNat 8 cp]
  else if cp < 0x800 then
    [BitVec.ofNat 8 (0xC0 + cp / 0x40), BitVec.ofNat 8 (0x80 + cp % 0x40)]
  else if cp < 0x10000 then
    [BitVec.ofNat 8 (0xE0 + cp / 0x1000), BitVec.ofNat 8 (0x80 + cp / 0x40 % 0x40),
      BitVec.ofNat 8 (0x80 + cp % 0x40)]
  else
    [BitVec.ofNat 8 (0xF0 + cp / 0x40000), BitVec.ofNat 8 (0x80 + cp / 0x1000 % 0x40),
      BitVec.ofNat 8 (0x80 + cp / 0x40 % 0x40), BitVec.ofNat 8 (0x80 + cp % 0x40)]

/-- What one well-formed sequence is read as. -/
structure Decodes (c : Bytes) (cp : Nat) : Prop where
  decode : ∀ rest, ∃ b0 tail, c = b0 :: tail ∧ decodeCp b0 (tail ++ rest) = (cp, c.length)
  encode : encodeCp cp = c

theorem ofNat_toNat_byte (b : Byte) {n : Nat} (h : n = b.toNat) : BitVec.ofNat 8 n = b := by
  rw [h, BitVec.ofNat_toNat, BitVec.setWidth_eq]

theorem decodeCp_of_sequence {r : Nat × Nat} (hascii : ¬b0.toNat < 0x80)
    (h : sequence b0 rest = some r) : decodeCp b0 rest = r := by
  rw [decodeCp, if_neg hascii, h, Option.getD_some]

theorem IsChar.decodes {c : Bytes} (h : IsChar c) : ∃ cp, Decodes c cp := by
  cases h with
  | @one a ha =>
    refine ⟨a.toNat, fun rest => ⟨a, [], rfl, decodeCp_ascii ha rest⟩, ?_⟩
    rw [encodeCp, if_pos ha, ofNat_toNat_byte a rfl]
  | @two a b ha hb =>
    have hlead : leadByte a.toNat = some (2, a.toNat % 0x20, 0x80) := by
      rw [leadByte, if_pos (by omega)]
    refine ⟨a.toNat % 0x20 * 0x40 + b.toNat % 0x40, ?_, ?_⟩
    · intro rest
      refine ⟨a, [b], rfl, decodeCp_of_sequence (by omega) (sequence_eq_some.mpr
        ⟨_, _, hlead, by simp, ?_, by omega, by omega⟩)⟩
      simp [continuation, hb]
    · rw [encodeCp, if_neg (by omega), if_pos (by omega), ofNat_toNat_byte a (by omega),
        ofNat_toNat_byte b (by omega)]
  | @three a b c ha hb hc long surrogate =>
    have hlead : leadByte a.toNat = some (3, a.toNat % 0x10, 0x800) := by
      rw [leadByte, if_neg (by omega), if_pos (by omega)]
    refine ⟨(a.toNat % 0x10 * 0x40 + b.toNat % 0x40) * 0x40 + c.toNat % 0x40, ?_, ?_⟩
    · intro rest
      refine ⟨a, [b, c], rfl, decodeCp_of_sequence (by omega) (sequence_eq_some.mpr
        ⟨_, _, hlead, by simp, ?_, by omega, by omega⟩)⟩
      simp [continuation, hb, hc]
    · rw [encodeCp, if_neg (by omega), if_neg (by omega), if_pos (by omega),
        ofNat_toNat_byte a (by omega), ofNat_toNat_byte b (by omega),
        ofNat_toNat_byte c (by omega)]
  | @four a b c d ha hb hc hd long top =>
    have hlead : leadByte a.toNat = some (4, a.toNat % 0x08, 0x10000) := by
      rw [leadByte, if_neg (by omega), if_neg (by omega), if_pos (by omega)]
    refine ⟨((a.toNat % 0x08 * 0x40 + b.toNat % 0x40) * 0x40 + c.toNat % 0x40) * 0x40 +
      d.toNat % 0x40, ?_, ?_⟩
    · intro rest
      refine ⟨a, [b, c, d], rfl, decodeCp_of_sequence (by omega) (sequence_eq_some.mpr
        ⟨_, _, hlead, by simp, ?_, by omega, by omega⟩)⟩
      simp [continuation, hb, hc, hd]
    · rw [encodeCp, if_neg (by omega), if_neg (by omega), if_neg (by omega),
        ofNat_toNat_byte a (by omega), ofNat_toNat_byte b (by omega),
        ofNat_toNat_byte c (by omega), ofNat_toNat_byte d (by omega)]

/-- A well-formed sequence is read whole, whatever follows. -/
theorem IsChar.piece {c : Bytes} (h : IsChar c) : Piece cpLength c := by
  obtain ⟨cp, hcp⟩ := h.decodes
  obtain ⟨b0, tail, rfl, -⟩ := hcp.decode []
  refine ⟨List.cons_ne_nil b0 tail, fun rest => ?_⟩
  obtain ⟨_, _, heq, hdecode⟩ := hcp.decode rest
  obtain ⟨rfl, rfl⟩ := List.cons.inj heq
  exact congrArg Prod.snd hdecode

theorem ValidUtf8.nil : ValidUtf8 [] := ⟨[], by simp, rfl⟩

theorem ValidUtf8.append {xs ys : Bytes} (hxs : ValidUtf8 xs) (hys : ValidUtf8 ys) :
    ValidUtf8 (xs ++ ys) := by
  obtain ⟨cs, hcs, rfl⟩ := hxs
  obtain ⟨ds, hds, rfl⟩ := hys
  refine ⟨cs ++ ds, ?_, by simp⟩
  intro c hc
  exact (List.mem_append.mp hc).elim (hcs c) (hds c)

theorem codePoints_chars {chars : List Bytes} (h : ∀ c ∈ chars, IsChar c) :
    codePoints chars.flatten = chars :=
  cuts_pieces fun c hc => (h c hc).piece

/-! ## Counting -/

variable {run : Bytes}

theorem isAscii_pieces (h : isAscii run = true) : ∀ c ∈ run.map fun b => [b], IsChar c := by
  intro c hc
  obtain ⟨b, hb, rfl⟩ := List.mem_map.mp hc
  exact .one (of_decide_eq_true (List.all_eq_true.mp h b hb))

theorem validUtf8_of_isAscii {s : Bytes} (h : isAscii s = true) : ValidUtf8 s :=
  ⟨s.map fun b => [b], isAscii_pieces h, by simp [← List.flatMap_def]⟩

theorem codePoints_ascii_append (h : isAscii run = true) (rest : Bytes) :
    codePoints (run ++ rest) = (run.map fun b => [b]) ++ codePoints rest := by
  have hflat : (run.map fun b => [b]).flatten = run := by
    induction run with
    | nil => rfl
    | cons b run ih => simp_all [isAscii]
  have hpieces := cuts_pieces_append (fun c hc => (isAscii_pieces h c hc).piece) rest
  rwa [hflat] at hpieces

theorem codePoints_ascii (h : isAscii run = true) : codePoints run = run.map fun b => [b] := by
  simpa [codePoints] using codePoints_ascii_append h []

/-- The count is the number of code points of the walk. -/
theorem utf8CodePointCount_eq (bytes : Bytes) :
    utf8CodePointCount bytes = (codePoints bytes).length := by
  unfold utf8CodePointCount
  induction bytes using countLoop.induct with
  | case1 => simp [countLoop, codePoints]
  | case2 b0 rest hascii ih =>
    have hsplit := List.takeWhile_append_dropWhile (p := fun b : Byte => decide (b.toNat < 0x80))
      (l := rest)
    have hrun : isAscii (b0 :: rest.takeWhile fun b => b.toNat < 0x80) = true := by
      simp [isAscii, hascii]
    have hwalk := codePoints_ascii_append hrun (rest.dropWhile fun b => b.toNat < 0x80)
    rw [List.cons_append, hsplit] at hwalk
    rw [countLoop, if_pos hascii, ih, hwalk]
    simp only [List.length_append, List.length_map, List.length_cons]
  | case3 b0 rest hascii ih =>
    have hmax : max 1 (decodeCp b0 rest).2 = cpLength (b0 :: rest) :=
      max_eq_right (cpLength_bounds b0 rest).1
    rw [hmax] at ih
    rw [countLoop, if_neg hascii, hmax, ih, codePoints_cons, List.length_cons]
    omega

/-! ## ASCII literals -/

/-- The bytes of an ASCII literal. -/
def ascii (text : String) : Bytes := text.toList.map fun c => BitVec.ofNat 8 c.toNat

/-- A number in decimal. -/
def decimal (n : Nat) : Bytes := (Nat.toDigits 10 n).map fun c => BitVec.ofNat 8 c.toNat

theorem isAscii_append {xs ys : Bytes} :
    isAscii (xs ++ ys) = true ↔ isAscii xs = true ∧ isAscii ys = true := by
  simp [isAscii, List.all_append]

theorem isAscii_decimal (n : Nat) : isAscii (decimal n) = true := by
  refine List.all_eq_true.mpr ?_
  intro b hb
  obtain ⟨c, hc, rfl⟩ := List.mem_map.mp hb
  have hdigit := Char.isDigit_iff_toNat.mp
    (Nat.isDigit_of_mem_toDigits (by decide) (by decide) hc)
  have hnine : '9'.toNat = 57 := rfl
  simp only [BitVec.toNat_ofNat, decide_eq_true_eq]
  omega

end KimixNative.Text

/-!
## Code points and their bytes

What `decode_cp` reads of a text one after the other. The encoder writes a well-formed text back as
it was.
-/

namespace KimixNative.Text

/-- The loop of `decode_cp` over a text: each code point with the bytes it was read from. -/
def decodeAll (bytes : Bytes) : List (Nat × Bytes) :=
  match bytes with
  | [] => []
  | b0 :: rest =>
    ((decodeCp b0 rest).1, (b0 :: rest).take (decodeCp b0 rest).2) ::
      decodeAll ((b0 :: rest).drop (max 1 (decodeCp b0 rest).2))
termination_by bytes.length
decreasing_by
  simp only [List.length_drop, List.length_cons]
  omega

theorem decodeAll_append {c : Bytes} {cp : Nat} (h : Decodes c cp) (rest : Bytes) :
    decodeAll (c ++ rest) = (cp, c) :: decodeAll rest := by
  obtain ⟨b0, tail, rfl, hdecode⟩ := h.decode rest
  rw [List.cons_append, decodeAll, hdecode]
  simp

/-- A well-formed text is written back as it was. -/
theorem encode_decodeAll {s : Bytes} (h : ValidUtf8 s) :
    ((decodeAll s).flatMap fun c => encodeCp c.1) = s := by
  obtain ⟨chars, hchars, rfl⟩ := h
  induction chars with
  | nil => rw [List.flatten_nil, decodeAll, List.flatMap_nil]
  | cons c chars ih =>
    obtain ⟨hc, hrest⟩ := List.forall_mem_cons.mp hchars
    obtain ⟨cp, hcp⟩ := hc.decodes
    rw [List.flatten_cons, decodeAll_append hcp, List.flatMap_cons, hcp.encode, ih hrest]

/-- The code points of the walk with their bytes. -/
theorem map_snd_decodeAll (s : Bytes) : (decodeAll s).map Prod.snd = codePoints s := by
  induction s using decodeAll.induct with
  | case1 =>
    rw [decodeAll]
    exact cuts_nil.symm
  | case2 b0 rest ih =>
    have hpos : 1 ≤ (decodeCp b0 rest).2 := (cpLength_bounds b0 rest).1
    rw [decodeAll, List.map_cons, ih, codePoints_cons, cpLength, Nat.max_eq_right hpos]

theorem decodeCp_le (b0 : Byte) (rest : Bytes) : (decodeCp b0 rest).1 ≤ 0x10FFFF := by
  rw [decodeCp]
  split
  · omega
  · cases hseq : sequence b0 rest with
    | none => simp
    | some r =>
      obtain ⟨-, -, -, -, -, -, hmax⟩ := sequence_eq_some.mp hseq
      exact hmax

theorem le_of_mem_decodeAll {s : Bytes} {c : Nat × Bytes} (h : c ∈ decodeAll s) :
    c.1 ≤ 0x10FFFF := by
  induction s using decodeAll.induct with
  | case1 =>
    rw [decodeAll] at h
    cases h
  | case2 b0 rest ih =>
    rw [decodeAll] at h
    rcases List.mem_cons.mp h with rfl | h
    · exact decodeCp_le b0 rest
    · exact ih h

theorem toNat_ofNat_byte {n : Nat} (h : n < 0x100) : (BitVec.ofNat 8 n).toNat = n := by
  rw [BitVec.toNat_ofNat, Nat.mod_eq_of_lt h]

/-- Any code point in range is read back, an encoded surrogate as well. -/
theorem decodes_encodeCp {cp : Nat} (h : cp ≤ 0x10FFFF) : Decodes (encodeCp cp) cp := by
  refine ⟨?_, rfl⟩
  intro rest
  rw [encodeCp]
  split
  · rename_i hone
    refine ⟨_, [], rfl, ?_⟩
    rw [decodeCp_ascii (by rw [toNat_ofNat_byte (by omega)]; exact hone),
      toNat_ofNat_byte (by omega)]
    rfl
  · split
    · rename_i hone htwo
      have ha := toNat_ofNat_byte (n := 0xC0 + cp / 0x40) (by omega)
      have hb := toNat_ofNat_byte (n := 0x80 + cp % 0x40) (by omega)
      have hlead : leadByte (0xC0 + cp / 0x40) = some (2, cp / 0x40, 0x80) := by
        rw [leadByte, if_pos (by omega), show (0xC0 + cp / 0x40) % 0x20 = cp / 0x40 by omega]
      refine ⟨_, [_], rfl, decodeCp_of_sequence (by omega) (sequence_eq_some.mpr
        ⟨_, _, by rw [ha]; exact hlead, by simp, ?_, by omega, by omega⟩)⟩
      have hcont : (0x80 + cp % 0x40) / 0x40 = 2 := by omega
      simp [continuation, hb, hcont]
      omega
    · split
      · rename_i hone htwo hthree
        have ha := toNat_ofNat_byte (n := 0xE0 + cp / 0x1000) (by omega)
        have hb := toNat_ofNat_byte (n := 0x80 + cp / 0x40 % 0x40) (by omega)
        have hc := toNat_ofNat_byte (n := 0x80 + cp % 0x40) (by omega)
        have hlead : leadByte (0xE0 + cp / 0x1000) = some (3, cp / 0x1000, 0x800) := by
          rw [leadByte, if_neg (by omega), if_pos (by omega),
            show (0xE0 + cp / 0x1000) % 0x10 = cp / 0x1000 by omega]
        refine ⟨_, [_, _], rfl, decodeCp_of_sequence (by omega) (sequence_eq_some.mpr
          ⟨_, _, by rw [ha]; exact hlead, by simp, ?_, by omega, by omega⟩)⟩
        have hcontb : (0x80 + cp / 0x40 % 0x40) / 0x40 = 2 := by omega
        have hcontc : (0x80 + cp % 0x40) / 0x40 = 2 := by omega
        simp [continuation, hb, hc, hcontb, hcontc]
        omega
      · rename_i hone htwo hthree
        have ha := toNat_ofNat_byte (n := 0xF0 + cp / 0x40000) (by omega)
        have hb := toNat_ofNat_byte (n := 0x80 + cp / 0x1000 % 0x40) (by omega)
        have hc := toNat_ofNat_byte (n := 0x80 + cp / 0x40 % 0x40) (by omega)
        have hd := toNat_ofNat_byte (n := 0x80 + cp % 0x40) (by omega)
        have hlead : leadByte (0xF0 + cp / 0x40000) = some (4, cp / 0x40000, 0x10000) := by
          rw [leadByte, if_neg (by omega), if_neg (by omega), if_pos (by omega),
            show (0xF0 + cp / 0x40000) % 0x08 = cp / 0x40000 by omega]
        refine ⟨_, [_, _, _], rfl, decodeCp_of_sequence (by omega) (sequence_eq_some.mpr
          ⟨_, _, by rw [ha]; exact hlead, by simp, ?_, by omega, by omega⟩)⟩
        have hcontb : (0x80 + cp / 0x1000 % 0x40) / 0x40 = 2 := by omega
        have hcontc : (0x80 + cp / 0x40 % 0x40) / 0x40 = 2 := by omega
        have hcontd : (0x80 + cp % 0x40) / 0x40 = 2 := by omega
        simp [continuation, hb, hc, hd, hcontb, hcontc, hcontd]
        omega

end KimixNative.Text
