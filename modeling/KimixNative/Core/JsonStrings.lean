import KimixNative.Core.JsonRepair

/-!
# The strings of the repairer

Everything that the repairer writes between quotation marks is the body of a JSON string:
escaped tokens and keys, and the strings that it scans. A string of a JSON text without curly
double quotes is written back byte by byte.
-/

namespace KimixNative.Core

open Json

/-! ### UTF-8 -/

variable {b : Byte} {rest : Bytes}

theorem byte_eq {n : Nat} (h : b.toNat = n) : b = BitVec.ofNat 8 n := by
  rw [← h, BitVec.ofNat_toNat, BitVec.setWidth_eq]

/-- What `utf8_valid_len` has checked when it returns a length. -/
theorem utf8ValidLen_cases (hb : 0x80 ≤ b.toNat) (hpos : 0 < utf8ValidLen b rest) :
    ∃ n lead minCp cp, Text.leadByte b.toNat = some (n, lead, minCp) ∧ n ≤ rest.length + 1 ∧
      Text.continuation lead (rest.take (n - 1)) = some cp ∧ minCp ≤ cp ∧ IsScalar cp ∧
      utf8ValidLen b rest = n := by
  simp only [utf8ValidLen, if_neg (show ¬ b.toNat < 0x80 by omega)] at hpos ⊢
  cases hlead : Text.leadByte b.toNat with
  | none => simp [hlead] at hpos
  | some l =>
    obtain ⟨n, lead, minCp⟩ := l
    simp only [hlead] at hpos ⊢
    by_cases hlen : rest.length + 1 < n
    · simp [hlen] at hpos
    rw [if_neg hlen] at hpos ⊢
    cases hcp : Text.continuation lead (rest.take (n - 1)) with
    | none => simp [hcp] at hpos
    | some cp =>
      simp only [hcp] at hpos ⊢
      split_ifs at hpos with hmin hsurrogate hmax
      · cases hpos
      · cases hpos
      · cases hpos
      · have hscalar : IsScalar cp := by
          unfold IsScalar
          omega
        rw [if_neg hmin, if_neg hsurrogate, if_neg hmax]
        exact ⟨n, lead, minCp, cp, rfl, by omega, hcp, by omega, hscalar, rfl⟩

variable {cp : Nat}

theorem continuation_cons {cp' : Nat} (h : Text.continuation cp (b :: rest) = some cp') :
    b.toNat / 0x40 = 2 ∧ Text.continuation (cp * 0x40 + b.toNat % 0x40) rest = some cp' := by
  rw [Text.continuation] at h
  split_ifs at h with hb
  exact ⟨by omega, h⟩

theorem continuation_nil {cp' : Nat} (h : Text.continuation cp [] = some cp') : cp = cp' := by
  simpa [Text.continuation] using h

/-- What `utf8_valid_len` accepts is the encoding of a character. -/
theorem utf8ValidLen_sound (hb : 0x80 ≤ b.toNat) (hpos : 0 < utf8ValidLen b rest) :
    ∃ cp, IsPlain cp ∧ (b :: rest).take (utf8ValidLen b rest) = utf8 cp := by
  obtain ⟨n, lead, minCp, cp, hlead, hlen, hcp, hmin, hscalar, hn⟩ := utf8ValidLen_cases hb hpos
  have hlt := b.isLt
  rw [hn]
  refine ⟨cp, ?_⟩
  unfold Text.leadByte at hlead
  split_ifs at hlead with h2 h3 h4
  · obtain ⟨rfl, rfl, rfl⟩ : 2 = n ∧ b.toNat % 0x20 = lead ∧ 0x80 = minCp := by simpa using hlead
    obtain _ | ⟨c1, rest⟩ := rest
    · simp at hlen
    · obtain ⟨h1, hcp⟩ := continuation_cons hcp
      have := continuation_nil hcp
      refine ⟨⟨hscalar, by omega⟩, ?_⟩
      rw [utf8, if_neg (by omega), if_pos (by omega)]
      have hbyte : b = BitVec.ofNat 8 (0xC0 + cp / 0x40) := byte_eq (by omega)
      have hbyte1 : c1 = BitVec.ofNat 8 (0x80 + cp % 0x40) := byte_eq (by omega)
      rw [← hbyte, ← hbyte1]
      rfl
  · obtain ⟨rfl, rfl, rfl⟩ : 3 = n ∧ b.toNat % 0x10 = lead ∧ 0x800 = minCp := by simpa using hlead
    obtain _ | ⟨c1, _ | ⟨c2, rest⟩⟩ := rest
    · simp at hlen
    · simp at hlen
    · obtain ⟨h1, hcp⟩ := continuation_cons hcp
      obtain ⟨h2, hcp⟩ := continuation_cons hcp
      have := continuation_nil hcp
      refine ⟨⟨hscalar, by omega⟩, ?_⟩
      rw [utf8, if_neg (by omega), if_neg (by omega), if_pos (by omega)]
      have hbyte : b = BitVec.ofNat 8 (0xE0 + cp / 0x1000) := byte_eq (by omega)
      have hbyte1 : c1 = BitVec.ofNat 8 (0x80 + cp / 0x40 % 0x40) := byte_eq (by omega)
      have hbyte2 : c2 = BitVec.ofNat 8 (0x80 + cp % 0x40) := byte_eq (by omega)
      rw [← hbyte, ← hbyte1, ← hbyte2]
      rfl
  · obtain ⟨rfl, rfl, rfl⟩ : 4 = n ∧ b.toNat % 0x08 = lead ∧ 0x10000 = minCp := by
      simpa using hlead
    obtain _ | ⟨c1, _ | ⟨c2, _ | ⟨c3, rest⟩⟩⟩ := rest
    · simp at hlen
    · simp at hlen
    · simp at hlen
    · obtain ⟨h1, hcp⟩ := continuation_cons hcp
      obtain ⟨h2, hcp⟩ := continuation_cons hcp
      obtain ⟨h3, hcp⟩ := continuation_cons hcp
      have := continuation_nil hcp
      refine ⟨⟨hscalar, by omega⟩, ?_⟩
      rw [utf8, if_neg (by omega), if_neg (by omega), if_neg (by omega)]
      have hbyte : b = BitVec.ofNat 8 (0xF0 + cp / 0x40000) := byte_eq (by omega)
      have hbyte1 : c1 = BitVec.ofNat 8 (0x80 + cp / 0x1000 % 0x40) := byte_eq (by omega)
      have hbyte2 : c2 = BitVec.ofNat 8 (0x80 + cp / 0x40 % 0x40) := byte_eq (by omega)
      have hbyte3 : c3 = BitVec.ofNat 8 (0x80 + cp % 0x40) := byte_eq (by omega)
      rw [← hbyte, ← hbyte1, ← hbyte2, ← hbyte3]
      rfl

theorem continuation_step {b : Nat} (hb : b < 0x40) (rest : Bytes) :
    Text.continuation cp (BitVec.ofNat 8 (0x80 + b) :: rest) =
      Text.continuation (cp * 0x40 + b) rest := by
  have hbyte : (BitVec.ofNat 8 (0x80 + b)).toNat = 0x80 + b := by
    rw [BitVec.toNat_ofNat]
    omega
  rw [Text.continuation, if_neg (by omega), hbyte]
  congr 1
  omega

theorem toNat_lead {n : Nat} (h : n < 0x100) : (BitVec.ofNat 8 n).toNat = n := by
  rw [BitVec.toNat_ofNat]
  omega

theorem utf8ValidLen_eq {n lead minCp : Nat} (hb : 0x80 ≤ b.toNat)
    (hlead : Text.leadByte b.toNat = some (n, lead, minCp)) (hlen : n ≤ rest.length + 1)
    (hcp : Text.continuation lead (rest.take (n - 1)) = some cp) (hmin : minCp ≤ cp)
    (hscalar : IsScalar cp) : utf8ValidLen b rest = n := by
  unfold IsScalar at hscalar
  simp only [utf8ValidLen, if_neg (show ¬ b.toNat < 0x80 by omega), hlead,
    if_neg (show ¬ rest.length + 1 < n by omega), hcp]
  rw [if_neg (by omega), if_neg (by omega), if_neg (by omega)]

/-- The encoding of a character is accepted, whatever follows it. -/
theorem utf8_accepted (hscalar : IsScalar cp) (hlarge : 0x80 ≤ cp) :
    ∃ b t, utf8 cp = b :: t ∧ 0x80 ≤ b.toNat ∧
      ∀ rest, utf8ValidLen b (t ++ rest) = t.length + 1 := by
  have hmax : cp ≤ 0x10FFFF := by
    unfold IsScalar at hscalar
    omega
  unfold utf8
  rw [if_neg (by omega)]
  split_ifs with h2 h3
  · have hlead := toNat_lead (show 0xC0 + cp / 0x40 < 0x100 by omega)
    refine ⟨_, _, rfl, by omega, ?_⟩
    intro rest
    have hcont : Text.continuation ((0xC0 + cp / 0x40) % 0x20) [BitVec.ofNat 8 (0x80 + cp % 0x40)] =
        some cp := by
      rw [continuation_step (by omega), Text.continuation]
      congr 1
      omega
    refine utf8ValidLen_eq (by omega) ?_ (by simp) hcont hlarge hscalar
    rw [hlead, Text.leadByte, if_pos (by omega)]
    rfl
  · have hlead := toNat_lead (show 0xE0 + cp / 0x1000 < 0x100 by omega)
    refine ⟨_, _, rfl, by omega, ?_⟩
    intro rest
    have hcont : Text.continuation ((0xE0 + cp / 0x1000) % 0x10)
        [BitVec.ofNat 8 (0x80 + cp / 0x40 % 0x40), BitVec.ofNat 8 (0x80 + cp % 0x40)] =
          some cp := by
      rw [continuation_step (by omega), continuation_step (by omega), Text.continuation]
      congr 1
      omega
    refine utf8ValidLen_eq (by omega) ?_ (by simp) hcont (show 0x800 ≤ cp by omega) hscalar
    rw [hlead, Text.leadByte, if_neg (by omega), if_pos (by omega)]
    rfl
  · have hlead := toNat_lead (show 0xF0 + cp / 0x40000 < 0x100 by omega)
    refine ⟨_, _, rfl, by omega, ?_⟩
    intro rest
    have hcont : Text.continuation ((0xF0 + cp / 0x40000) % 0x08)
        [BitVec.ofNat 8 (0x80 + cp / 0x1000 % 0x40), BitVec.ofNat 8 (0x80 + cp / 0x40 % 0x40),
          BitVec.ofNat 8 (0x80 + cp % 0x40)] = some cp := by
      rw [continuation_step (by omega), continuation_step (by omega), continuation_step (by omega),
        Text.continuation]
      congr 1
      omega
    refine utf8ValidLen_eq (by omega) ?_ (by simp) hcont (show 0x10000 ≤ cp by omega) hscalar
    rw [hlead, Text.leadByte, if_neg (by omega), if_neg (by omega), if_pos (by omega)]
    rfl

/-! ### Pieces of a string -/

/-- A piece of the body of a string. -/
def IsPiece (t : Bytes) : Prop := ∃ cs, StringBody t cs

theorem isPiece_nil : IsPiece [] := ⟨[], .nil⟩

theorem IsPiece.append {t u : Bytes} (ht : IsPiece t) (hu : IsPiece u) : IsPiece (t ++ u) := by
  obtain ⟨cs, ht⟩ := ht
  obtain ⟨ds, hu⟩ := hu
  exact ⟨cs ++ ds, ht.append hu⟩

theorem IsPiece.isString {t : Bytes} (h : IsPiece t) : IsString (quoted t) := by
  obtain ⟨cs, h⟩ := h
  exact ⟨t, cs, h, rfl⟩

theorem isPiece_utf8 (h : IsPlain cp) : IsPiece (utf8 cp) :=
  ⟨[cp], by simpa using StringBody.char h .nil⟩

theorem isPiece_escape {e : Byte} (h : escapeValue e = some cp) :
    IsPiece [0x5C#8, e] := ⟨[cp], .escape h .nil⟩

theorem isPiece_unicode {ds : Bytes} (hds : IsHex4 ds) (hhigh : isHigh (hexNat ds) = false)
    (hlow : isLow (hexNat ds) = false) : IsPiece (0x5C#8 :: 0x75#8 :: ds) :=
  ⟨[hexNat ds], by simpa using StringBody.unicode hds hhigh hlow .nil⟩

/-- An ASCII byte that stands for itself. -/
theorem isPiece_raw {b : Byte} (hlow : 0x20 ≤ b.toNat) (hhigh : b.toNat < 0x80)
    (hquote : b ≠ 0x22#8) (hback : b ≠ 0x5C#8) : IsPiece [b] := by
  have hplain : IsPlain b.toNat := by
    refine ⟨Or.inl (by omega), hlow, ?_, ?_⟩
    · intro h
      exact hquote (by simpa using byte_eq h)
    · intro h
      exact hback (by simpa using byte_eq h)
  have hutf8 : utf8 b.toNat = [b] := by
    rw [utf8, if_pos hhigh, ← byte_eq rfl]
  have h := isPiece_utf8 hplain
  rwa [hutf8] at h

theorem isHex4_byteEscape (b : Byte) :
    IsHex4 [0x30#8, 0x30#8, hexDigit (b.toNat / 16), hexDigit (b.toNat % 16)] ∧
      hexNat [0x30#8, 0x30#8, hexDigit (b.toNat / 16), hexDigit (b.toNat % 16)] = b.toNat := by
  revert b
  decide

theorem isPiece_byteEscape (b : Byte) : IsPiece (byteEscape b) := by
  obtain ⟨hhex, hval⟩ := isHex4_byteEscape b
  have hlt := b.isLt
  refine isPiece_unicode hhex ?_ ?_
  · simp only [hval, isHigh, Bool.and_eq_false_iff, decide_eq_false_iff_not]
    omega
  · simp only [hval, isLow, Bool.and_eq_false_iff, decide_eq_false_iff_not]
    omega

/-- What `emit_raw_utf8` writes for a byte that may stand in a string. -/
theorem isPiece_emitRawUtf8 (hcontrol : 0x20 ≤ b.toNat) (hquote : b ≠ 0x22#8) (hback : b ≠ 0x5C#8) :
    IsPiece (emitRawUtf8 b rest).1 := by
  unfold emitRawUtf8
  split_ifs with hascii
  · exact isPiece_raw hcontrol hascii hquote hback
  · dsimp only
    split_ifs with hpos
    · obtain ⟨cp, hplain, htake⟩ := utf8ValidLen_sound (by omega) hpos
      rw [htake]
      exact isPiece_utf8 hplain
    · exact isPiece_byteEscape b

/-! ### Escaped tokens -/

theorem isPiece_escapeRound (b : Byte) (rest : Bytes) : IsPiece (escapeRound b rest).1 := by
  unfold escapeRound
  split_ifs with h1 h2 h3 h4 h5 h6 h7 h8
  · exact isPiece_escape rfl
  · exact isPiece_escape rfl
  · exact isPiece_escape rfl
  · exact isPiece_escape rfl
  · exact isPiece_escape rfl
  · exact isPiece_escape rfl
  · exact isPiece_escape rfl
  · exact isPiece_byteEscape b
  · exact isPiece_emitRawUtf8 (by omega) h1 h2

theorem isPiece_escapeLoop (raw : Bytes) : IsPiece (escapeLoop raw) := by
  fun_induction escapeLoop raw with
  | case1 => exact isPiece_nil
  | case2 b rest ih => exact (isPiece_escapeRound b rest).append ih

theorem isString_emitEscaped (raw : Bytes) : IsString (emitEscaped raw) :=
  (isPiece_escapeLoop raw).isString

/-! ### Scanned strings -/

theorem isPiece_unicodeEscape (rest : Bytes) : IsPiece (unicodeEscape rest).1 := by
  unfold unicodeEscape
  dsimp only
  split_ifs with hhex hpair hlone
  · obtain ⟨hhigh, -, hlo, hlow⟩ := hpair
    exact ⟨_, by simpa using StringBody.pair hhex hlo hhigh hlow .nil⟩
  · exact isPiece_unicode (show IsHex4 [0x46#8, 0x46#8, 0x46#8, 0x44#8] by decide) rfl rfl
  · rw [not_or, Bool.not_eq_true, Bool.not_eq_true] at hlone
    exact isPiece_unicode hhex hlone.1 hlone.2
  · have hback : IsPiece [0x5C#8, 0x5C#8] := isPiece_escape rfl
    exact hback.append (@isPiece_raw 0x75#8 (by decide) (by decide) (by decide) (by decide))

theorem isPiece_byteEscapeRead (rest : Bytes) : IsPiece (byteEscapeRead rest).1 := by
  unfold byteEscapeRead
  dsimp only
  split_ifs with hhex hescape
  · exact isPiece_byteEscape _
  · rw [not_or, not_or, not_or] at hescape
    exact isPiece_raw (by omega) (by omega) hescape.2.2.1 hescape.2.2.2
  · have hback : IsPiece [0x5C#8, 0x5C#8] := isPiece_escape rfl
    exact hback.append (@isPiece_raw 0x78#8 (by decide) (by decide) (by decide) (by decide))

theorem isPiece_escapeRead (e : Byte) (rest : Bytes) : IsPiece (escape e rest).1 := by
  have hback : IsPiece [0x5C#8, 0x5C#8] := isPiece_escape rfl
  unfold escape
  split_ifs with hsimple hraw hu hx hcontrol
  · rcases hsimple with rfl | rfl | rfl | rfl | rfl | rfl | rfl | rfl <;> exact isPiece_escape rfl
  · rcases hraw with rfl | rfl <;>
      exact isPiece_raw (by decide) (by decide) (by decide) (by decide)
  · exact isPiece_unicodeEscape rest
  · exact isPiece_byteEscapeRead rest
  · exact hback.append (isPiece_byteEscape e)
  · simp only [not_or] at hsimple
    obtain ⟨-, -, -, -, -, hquote, hslash, -⟩ := hsimple
    exact hback.append (isPiece_emitRawUtf8 (by omega) hquote hslash)

theorem isPiece_rawCharacter (rest : Bytes) (hback : b ≠ 0x5C#8) :
    IsPiece (rawCharacter b rest).1 := by
  unfold rawCharacter
  split_ifs with hquote hsingle hcontrol h1 h2 h3 hlarge
  · exact isPiece_escape rfl
  · subst hsingle
    exact isPiece_raw (by decide) (by decide) (by decide) (by decide)
  · exact isPiece_escape rfl
  · exact isPiece_escape rfl
  · exact isPiece_escape rfl
  · exact isPiece_byteEscape b
  · exact isPiece_emitRawUtf8 (by omega) hquote hback
  · exact isPiece_raw (by omega) (by omega) hquote hback

theorem isPiece_quotedPlain (b : Byte) (rest : Bytes) : IsPiece (quotedRound.plain b rest).1 := by
  unfold quotedRound.plain
  split_ifs with hback
  · cases rest with
    | nil => exact isPiece_nil
    | cons e after => exact isPiece_escapeRead e after
  · exact isPiece_rawCharacter rest hback

theorem isPiece_quotedRound (kind : Quote) (prev : Option Byte) (b : Byte) (rest : Bytes) :
    IsPiece (quotedRound kind prev b rest).1 := by
  unfold quotedRound
  split
  · split_ifs
    · exact isPiece_nil
    · exact isPiece_quotedPlain b rest
  · exact isPiece_quotedPlain b rest

/-- The loop of `scan_quoted` writes the body of a string and does not go back. -/
theorem quotedLoop_spec (kind : Quote) (c : Cursor) :
    IsPiece (quotedLoop kind c).1 ∧ (quotedLoop kind c).2.rest.length ≤ c.rest.length := by
  fun_induction quotedLoop kind c with
  | case1 c h => exact ⟨isPiece_nil, le_rfl⟩
  | case2 c b rest h piece n body c' hloop hround ih =>
    have hpiece : IsPiece piece := by
      have := isPiece_quotedRound kind c.prev b rest
      rwa [hround] at this
    simp only [hloop, Cursor.rest_skip, List.length_drop] at ih
    refine ⟨hpiece.append ih.1, ?_⟩
    change c'.rest.length ≤ c.rest.length
    omega
  | case3 c b rest h piece n more hround hmore =>
    have hpiece : IsPiece piece := by
      have := isPiece_quotedRound kind c.prev b rest
      rwa [hround] at this
    refine ⟨hpiece, ?_⟩
    simp only [Cursor.rest_skip, List.length_drop]
    omega

theorem atQuote_pos {prev : Option Byte} {k : Quote} {n : Nat} (h : atQuote prev rest = some (k, n)) :
    0 < n ∧ rest ≠ [] := by
  cases rest with
  | nil => simp [atQuote] at h
  | cons b rest =>
    simp only [atQuote] at h
    refine ⟨?_, List.cons_ne_nil b rest⟩
    split_ifs at h <;> simp only [Option.some.injEq, Prod.mk.injEq] at h <;> omega

/-- `scan_quoted` writes a string and moves on. -/
theorem scanQuoted_spec {c : Cursor} (h : c.atQuote.isSome) :
    IsString (scanQuoted c).1 ∧ (scanQuoted c).2.rest.length < c.rest.length := by
  obtain ⟨⟨k, n⟩, hquote⟩ := Option.isSome_iff_exists.mp h
  obtain ⟨hpos, hne⟩ := atQuote_pos hquote
  obtain ⟨hpiece, hle⟩ := quotedLoop_spec k (c.skip n)
  have hlen := List.length_pos_iff.mpr hne
  simp only [scanQuoted, hquote, Option.getD_some]
  refine ⟨hpiece.isString, ?_⟩
  simp only [Cursor.rest_skip, List.length_drop] at hle
  omega

end KimixNative.Core
