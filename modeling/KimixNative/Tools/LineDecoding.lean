import KimixNative.Tools.LineHash

/-!
# Three decoders of a line

The decoders differ in how they go over ill-formed bytes, and the one of the edit tool takes
overlong sequences for code points. What counts is which bytes are kept as not blank and
whether a letter or a digit is seen: a code point that is neither a blank nor a letter or digit
may as well be read byte by byte.
-/

namespace KimixNative.Tools

open Text

variable {decode decode' : Byte → Bytes → Nat × Nat}

/-! ### Scanning -/

/-- A decoder that moves on, and reads a byte alone that can only continue a sequence. -/
structure LawfulDecoder (decode : Byte → Bytes → Nat × Nat) : Prop where
  advances : ∀ b0 rest, 1 ≤ (decode b0 rest).2
  stray : ∀ b0 rest, isContinuation b0 = true → decode b0 rest = (0xFFFD, 1)

variable {line rest : Bytes} {b0 : Byte}

theorem scanLoop_fuel (hd : LawfulDecoder decode) {n m : Nat} (hn : line.length ≤ n)
    (hm : line.length ≤ m) : scanLoop decode n line = scanLoop decode m line := by
  induction n generalizing m line with
  | zero =>
    obtain rfl := List.eq_nil_of_length_eq_zero (Nat.le_zero.mp hn)
    cases m <;> rfl
  | succ n ih =>
    cases line with
    | nil => cases m <;> rfl
    | cons b0 rest =>
      cases m with
      | zero => exact absurd hm (Nat.not_succ_le_zero _)
      | succ m =>
        have hlen := hd.advances b0 rest
        rw [List.length_cons] at hn hm
        simp only [scanLoop]
        rw [ih] <;> (rw [List.length_drop, List.length_cons]; omega)

theorem scan_cons (hd : LawfulDecoder decode) (b0 : Byte) (rest : Bytes) :
    scan decode (b0 :: rest) =
      ((decode b0 rest).1, (b0 :: rest).take (decode b0 rest).2) ::
        scan decode ((b0 :: rest).drop (decode b0 rest).2) := by
  have hlen := hd.advances b0 rest
  have hshort : ((b0 :: rest).drop (decode b0 rest).2).length ≤ rest.length := by
    rw [List.length_drop, List.length_cons]
    omega
  have hfuel := scanLoop_fuel hd hshort le_rfl
  rw [scan, List.length_cons]
  simp only [scanLoop, hfuel]
  rfl

/-! ### Byte by byte where it does not matter -/

/-- Neither a blank nor a letter or digit. -/
def isPlain (cp : Nat) : Bool := !isPySpaceCp cp && !isAlnumCp cp

/-- A code point that is neither is taken apart into its bytes. -/
def fine (c : Nat × Bytes) : List (Nat × Bytes) :=
  if isPlain c.1 then c.2.map fun b => (0xFFFD, [b]) else [c]

def finePoints (decode : Byte → Bytes → Nat × Nat) (line : Bytes) : List (Nat × Bytes) :=
  (scan decode line).flatMap fine

theorem isPySpaceCp_replacement : isPySpaceCp 0xFFFD = false := by decide

theorem isAlnumCp_replacement : isAlnumCp 0xFFFD = false := by decide +kernel

theorem isPlain_replacement : isPlain 0xFFFD = true := by
  rw [isPlain, isPySpaceCp_replacement, isAlnumCp_replacement]
  rfl

variable {cp : Nat}

/-- Beyond ASCII membership in a table is membership in one of its ranges. -/
theorem any_range_false {ranges : List (Nat × Nat)} {lo hi : Nat}
    (h : ranges.all (fun r => decide (r.2 < lo ∨ hi < r.1)) = true) (hlo : lo ≤ cp) (hhi : cp ≤ hi) :
    (ranges.any fun r => decide (r.1 ≤ cp ∧ cp ≤ r.2)) = false := by
  rw [List.any_eq_false]
  intro r hr
  have hout := of_decide_eq_true (List.all_eq_true.mp h r hr)
  rw [decide_eq_true_eq]
  omega

theorem isPySpaceCp_false {lo hi : Nat}
    (h : pySpaceRanges.all (fun r => decide (r.2 < lo ∨ hi < r.1)) = true) (hascii : 0x80 ≤ lo)
    (hlo : lo ≤ cp) (hhi : cp ≤ hi) : isPySpaceCp cp = false := by
  rw [isPySpaceCp, if_neg (by omega)]
  exact any_range_false h hlo hhi

theorem isAlnumCp_false {lo hi : Nat}
    (h : alnumRanges.all (fun r => decide (r.2 < lo ∨ hi < r.1)) = true) (hascii : 0x80 ≤ lo)
    (hlo : lo ≤ cp) (hhi : cp ≤ hi) : isAlnumCp cp = false := by
  rw [isAlnumCp, if_neg (by omega)]
  exact any_range_false h hlo hhi

theorem isPlain_surrogate (hlo : 0xD800 ≤ cp) (hhi : cp ≤ 0xDFFF) : isPlain cp = true := by
  have hspace : isPySpaceCp cp = false := isPySpaceCp_false (by decide) (by decide) hlo hhi
  have halnum : isAlnumCp cp = false := isAlnumCp_false (by decide +kernel) (by decide) hlo hhi
  rw [isPlain, hspace, halnum]
  rfl

/-- No blank is a letter or a digit. -/
theorem isAlnumCp_of_isPySpaceCp (h : isPySpaceCp cp = true) : isAlnumCp cp = false := by
  by_cases hascii : cp < 0x80
  · have hall : ∀ cp < 0x80, isPySpaceCp cp = true → isAlnumCp cp = false := by decide
    exact hall cp hascii h
  · rw [isPySpaceCp, if_neg hascii] at h
    obtain ⟨r, hr, hin⟩ := List.any_eq_true.mp h
    have hin := of_decide_eq_true hin
    have hdisjoint : pySpaceRanges.all (fun r => decide (0x80 ≤ r.1) &&
        alnumRanges.all fun a => decide (a.2 < r.1 ∨ r.2 < a.1)) = true := by decide +kernel
    have hrange := List.all_eq_true.mp hdisjoint r hr
    rw [Bool.and_eq_true, decide_eq_true_eq] at hrange
    exact isAlnumCp_false hrange.2 hrange.1 hin.1 hin.2

theorem keptBytes_fine (cs : List (Nat × Bytes)) :
    keptBytes isPySpaceCp (cs.flatMap fine) = keptBytes isPySpaceCp cs := by
  induction cs with
  | nil => rfl
  | cons c cs ih =>
    have hhead : keptBytes isPySpaceCp (fine c) = keptBytes isPySpaceCp [c] := by
      simp only [fine]
      split
      · rename_i hplain
        have hspace : isPySpaceCp c.1 = false := by
          simp only [isPlain, Bool.and_eq_true, Bool.not_eq_true'] at hplain
          exact hplain.1
        have hmarks : (c.2.map fun b => ((0xFFFD : Nat), [b])).filter
            (fun c => !isPySpaceCp c.1) = c.2.map fun b => (0xFFFD, [b]) := by
          refine List.filter_eq_self.mpr fun x hx => ?_
          obtain ⟨b, -, rfl⟩ := List.mem_map.mp hx
          rw [isPySpaceCp_replacement]
          rfl
        rw [keptBytes, hmarks, List.flatMap_map]
        simp [keptBytes, hspace]
      · rfl
    have happend : ∀ xs ys, keptBytes isPySpaceCp (xs ++ ys) =
        keptBytes isPySpaceCp xs ++ keptBytes isPySpaceCp ys := fun xs ys => by
      rw [keptBytes, List.filter_append, List.flatMap_append]
      rfl
    rw [List.flatMap_cons, happend, hhead, ih, ← happend]
    rfl

theorem any_alnum_fine (cs : List (Nat × Bytes)) :
    (cs.flatMap fine).any (fun c => isAlnumCp c.1) = cs.any fun c => isAlnumCp c.1 := by
  induction cs with
  | nil => rfl
  | cons c cs ih =>
    have hhead : (fine c).any (fun c => isAlnumCp c.1) = isAlnumCp c.1 := by
      simp only [fine]
      split
      · rename_i hplain
        have halnum : isAlnumCp c.1 = false := by
          simp only [isPlain, Bool.and_eq_true, Bool.not_eq_true'] at hplain
          exact hplain.2
        rw [halnum, List.any_eq_false]
        intro x hx
        obtain ⟨b, -, rfl⟩ := List.mem_map.mp hx
        rw [isAlnumCp_replacement]
        exact Bool.false_ne_true
      · simp
    rw [List.flatMap_cons, List.any_append, hhead, ih, List.any_cons]

/-- A code point of no weight at a place: its bytes after the first can only continue one. -/
def Weightless (decode : Byte → Bytes → Nat × Nat) (b0 : Byte) (rest : Bytes) : Prop :=
  isPlain (decode b0 rest).1 = true ∧
    (rest.take ((decode b0 rest).2 - 1)).all isContinuation = true

theorem finePoints_continuation (hd : LawfulDecoder decode) {run : Bytes}
    (h : run.all isContinuation = true) (rest : Bytes) :
    finePoints decode (run ++ rest) =
      (run.map fun b => (0xFFFD, [b])) ++ finePoints decode rest := by
  induction run with
  | nil => rfl
  | cons b0 run ih =>
    rw [List.all_cons, Bool.and_eq_true] at h
    have hstray := hd.stray b0 (run ++ rest) h.1
    rw [finePoints, List.cons_append, scan_cons hd, hstray]
    simp only [List.take_succ_cons, List.take_zero, List.drop_succ_cons, List.drop_zero,
      List.flatMap_cons, fine, isPlain_replacement, if_true, List.map_cons, List.map_nil,
      List.cons_append]
    rw [← ih h.2]
    rfl

/-- What has no weight may be read byte by byte. -/
theorem finePoints_weightless (hd : LawfulDecoder decode) (h : Weightless decode b0 rest) :
    finePoints decode (b0 :: rest) = (0xFFFD, [b0]) :: finePoints decode rest := by
  obtain ⟨hplain, hrun⟩ := h
  obtain ⟨len, hlen⟩ := Nat.exists_eq_succ_of_ne_zero
    (Nat.pos_iff_ne_zero.mp (hd.advances b0 rest))
  rw [hlen, Nat.succ_sub_one] at hrun
  rw [finePoints, scan_cons hd, hlen]
  simp only [List.take_succ_cons, List.drop_succ_cons, List.flatMap_cons, fine, hplain, if_true,
    List.map_cons, List.cons_append]
  congr 1
  have hrest := finePoints_continuation hd hrun (rest.drop len)
  rw [List.take_append_drop] at hrest
  exact hrest.symm

/-- Two decoders that read alike, or something of no weight, at every place of a line. -/
theorem finePoints_congr (hd : LawfulDecoder decode) (hd' : LawfulDecoder decode')
    (h : ∀ before b0 rest, line = before ++ b0 :: rest → decode b0 rest = decode' b0 rest ∨
      (Weightless decode b0 rest ∧ Weightless decode' b0 rest)) :
    finePoints decode line = finePoints decode' line := by
  induction hn : line.length using Nat.strongRecOn generalizing line with
  | _ n ih =>
    cases line with
    | nil => rfl
    | cons b0 rest =>
      rw [List.length_cons] at hn
      rcases h [] b0 rest rfl with heq | ⟨hw, hw'⟩
      · have hlen := hd.advances b0 rest
        have hrest := @ih ((b0 :: rest).drop (decode b0 rest).2).length
          (by rw [List.length_drop, List.length_cons]; omega)
          ((b0 :: rest).drop (decode b0 rest).2)
          (fun before c more hmore => h ((b0 :: rest).take (decode b0 rest).2 ++ before) c more
            (by rw [List.append_assoc, ← hmore, List.take_append_drop])) rfl
        rw [finePoints, finePoints, scan_cons hd, scan_cons hd', ← heq, List.flatMap_cons,
          List.flatMap_cons]
        exact congrArg _ hrest
      · rw [finePoints_weightless hd hw, finePoints_weightless hd' hw']
        exact congrArg _ (@ih rest.length (by omega) rest
          (fun before c more hmore => h (b0 :: before) c more (by rw [hmore]; rfl)) rfl)

/-! ### The three decoders -/

/-- The number that a lead and its continuation bytes make. -/
def payload (lead : Nat) (run : Bytes) : Nat :=
  run.foldl (fun cp b => cp * 0x40 + b.toNat % 0x40) lead

theorem continuation_eq (lead : Nat) (run : Bytes) :
    continuation lead run = if run.all isContinuation then some (payload lead run) else none := by
  induction run generalizing lead with
  | nil => rfl
  | cons b run ih =>
    rw [continuation, List.all_cons]
    by_cases hb : b.toNat / 0x40 = 2
    · have hc : isContinuation b = true := beq_iff_eq.mpr hb
      rw [if_neg (not_not.mpr hb), ih, hc, Bool.true_and]
      rfl
    · have hc : isContinuation b = false := beq_eq_false_iff_ne.mpr hb
      rw [if_pos hb, hc, Bool.false_and]
      rfl

theorem payload_bounds (lead : Nat) (run : Bytes) :
    lead * 0x40 ^ run.length ≤ payload lead run ∧
      payload lead run < (lead + 1) * 0x40 ^ run.length := by
  induction run generalizing lead with
  | nil => simp [payload]
  | cons b run ih =>
    have hstep := ih (lead * 0x40 + b.toNat % 0x40)
    have hmod := Nat.mod_lt b.toNat (show 0 < 0x40 by decide)
    rw [List.length_cons, Nat.pow_succ']
    rw [show payload lead (b :: run) = payload (lead * 0x40 + b.toNat % 0x40) run from rfl]
    constructor
    · calc lead * (0x40 * 0x40 ^ run.length) = lead * 0x40 * 0x40 ^ run.length := by rw [Nat.mul_assoc]
        _ ≤ (lead * 0x40 + b.toNat % 0x40) * 0x40 ^ run.length :=
            Nat.mul_le_mul_right _ (Nat.le_add_right _ _)
        _ ≤ _ := hstep.1
    · calc payload (lead * 0x40 + b.toNat % 0x40) run <
          (lead * 0x40 + b.toNat % 0x40 + 1) * 0x40 ^ run.length := hstep.2
        _ ≤ ((lead + 1) * 0x40) * 0x40 ^ run.length := Nat.mul_le_mul_right _ (by omega)
        _ = (lead + 1) * (0x40 * 0x40 ^ run.length) := by rw [Nat.mul_assoc]

/-- The code point that a lead and the bytes behind it spell, if they are all there. -/
def spelled (extra lead : Nat) (rest : Bytes) : Option Nat :=
  if extra ≤ rest.length ∧ (rest.take extra).all isContinuation = true then
    some (payload lead (rest.take extra))
  else none

theorem leadBits_cases {b0 extra lead : Nat} (h : leadBits b0 = some (extra, lead)) :
    (extra = 1 ∧ 0xC2 ≤ b0 ∧ b0 ≤ 0xDF ∧ lead = b0 % 0x20) ∨
      (extra = 2 ∧ 0xE0 ≤ b0 ∧ b0 ≤ 0xEF ∧ lead = b0 % 0x10) ∨
      (extra = 3 ∧ 0xF0 ≤ b0 ∧ b0 ≤ 0xF4 ∧ lead = b0 % 0x08) := by
  simp only [leadBits] at h
  split_ifs at h with h1 h2 h3 <;>
    (obtain ⟨rfl, rfl⟩ := Prod.mk.inj (Option.some.inj h); omega)

/-- The least code point that needs a sequence of this length. -/
def leastCp (extra : Nat) : Nat := if extra = 1 then 0x80 else if extra = 2 then 0x800 else 0x10000

theorem leadByte_of_leadBits {b0 extra lead : Nat} (h : leadBits b0 = some (extra, lead)) :
    leadByte b0 = some (extra + 1, lead, leastCp extra) := by
  rcases leadBits_cases h with ⟨rfl, hlo, hhi, rfl⟩ | ⟨rfl, hlo, hhi, rfl⟩ | ⟨rfl, hlo, hhi, rfl⟩
  · rw [leadByte, if_pos (by omega)]
    rfl
  · rw [leadByte, if_neg (by omega), if_pos (by omega)]
    rfl
  · rw [leadByte, if_neg (by omega), if_neg (by omega), if_pos (by omega)]
    rfl

theorem spelled_bind {α : Type} (extra lead : Nat) (rest : Bytes) (f : Nat → Option α) :
    (spelled extra lead rest).bind f =
      if rest.length < extra then none else (continuation lead (rest.take extra)).bind f := by
  rw [spelled, continuation_eq]
  by_cases hfit : rest.length < extra
  · rw [if_pos hfit, if_neg fun h => absurd h.1 (Nat.not_le_of_lt hfit), Option.bind_none]
  · simp only [if_neg hfit, Nat.le_of_not_lt hfit, true_and]

theorem decodeCodePoint_lead {b0 : Byte} {rest : Bytes} {extra lead : Nat}
    (h : leadBits b0.toNat = some (extra, lead)) :
    decodeCodePoint b0 rest =
      match spelled extra lead rest with
      | some cp => if (0xD800 ≤ cp ∧ cp ≤ 0xDFFF) ∨ cp > 0x10FFFF then (0xFFFD, 1) else (cp, extra + 1)
      | none => (0xFFFD, 1) := by
  have hascii : ¬b0.toNat < 0x80 := by
    have := leadBits_cases h
    omega
  simp only [decodeCodePoint, if_neg hascii, h, Option.bind_some, ← spelled_bind]
  cases spelled extra lead rest with
  | none => rfl
  | some cp =>
    rw [Option.bind_some]
    dsimp only
    split <;> rfl

theorem decodeCp_lead {b0 : Byte} {rest : Bytes} {extra lead : Nat}
    (h : leadBits b0.toNat = some (extra, lead)) :
    decodeCp b0 rest =
      match spelled extra lead rest with
      | some cp => if cp < leastCp extra ∨ cp > 0x10FFFF then (0xFFFD, 1) else (cp, extra + 1)
      | none => (0xFFFD, 1) := by
  have hascii : ¬b0.toNat < 0x80 := by
    have := leadBits_cases h
    omega
  simp only [decodeCp, if_neg hascii, Text.sequence, leadByte_of_leadBits h, Option.bind_some,
    Nat.add_lt_add_iff_right, Nat.add_sub_cancel, ← spelled_bind]
  cases spelled extra lead rest with
  | none => rfl
  | some cp =>
    rw [Option.bind_some]
    dsimp only
    split <;> rfl

/-- The continuation bytes that are there are all that are needed. -/
theorem rdHave_lt_iff (extra : Nat) (rest : Bytes) :
    rdHave extra rest < extra + 1 ↔
      ¬(extra ≤ rest.length ∧ (rest.take extra).all isContinuation = true) := by
  have hle : ((rest.take extra).takeWhile isContinuation).length ≤ (rest.take extra).length :=
    (List.takeWhile_sublist _).length_le
  rw [List.length_take] at hle
  constructor
  · rintro hlt ⟨hfit, hrun⟩
    have hall : (rest.take extra).takeWhile isContinuation = rest.take extra :=
      List.takeWhile_eq_self_iff.mpr fun b hb => List.all_eq_true.mp hrun b hb
    rw [rdHave, hall, List.length_take, Nat.min_eq_left hfit] at hlt
    omega
  · intro hnot
    by_contra hge
    rw [rdHave] at hge
    have hfit : extra ≤ rest.length := by omega
    have hlen : ((rest.take extra).takeWhile isContinuation).length = (rest.take extra).length := by
      rw [List.length_take]
      omega
    have hall := ( List.takeWhile_prefix isContinuation).eq_of_length hlen
    exact hnot ⟨hfit, List.all_eq_true.mpr fun b hb => List.takeWhile_eq_self_iff.mp hall b hb⟩

theorem rdDecode_lead {b0 : Byte} {rest : Bytes} {extra lead : Nat}
    (h : leadBits b0.toNat = some (extra, lead)) :
    rdDecode b0 rest =
      match spelled extra lead rest with
      | some cp =>
        if cp < leastCp extra ∨ (0xD800 ≤ cp ∧ cp ≤ 0xDFFF) ∨ cp > 0x10FFFF then (0xFFFD, 1)
        else (cp, extra + 1)
      | none => (0xFFFD, rdHave extra rest) := by
  have hcases := leadBits_cases h
  have hascii : ¬b0.toNat < 0x80 := by omega
  simp only [rdDecode, if_neg hascii, h, spelled]
  by_cases hlt : rdHave extra rest < extra + 1
  · rw [if_pos hlt, if_neg ((rdHave_lt_iff extra rest).mp hlt)]
  · have hfull := not_not.mp fun hnot => hlt ((rdHave_lt_iff extra rest).mpr hnot)
    rw [if_neg hlt, if_pos hfull]
    have hleast : ∀ cp, ((extra = 1 ∧ cp < 0x80) ∨ (extra = 2 ∧ cp < 0x800) ∨
        (extra = 3 ∧ cp < 0x10000) ∨ (0xD800 ≤ cp ∧ cp ≤ 0xDFFF) ∨ cp > 0x10FFFF) ↔
        (cp < leastCp extra ∨ (0xD800 ≤ cp ∧ cp ≤ 0xDFFF) ∨ cp > 0x10FFFF) := by
      intro cp
      rcases hcases with ⟨rfl, -⟩ | ⟨rfl, -⟩ | ⟨rfl, -⟩ <;> simp [leastCp]
    simp only [hleast]
    rfl

/-- A byte that leads nothing is read alone by all three. -/
theorem decode_of_leadBits_none {b0 : Byte} {rest : Bytes} (hascii : ¬b0.toNat < 0x80)
    (h : leadBits b0.toNat = none) :
    decodeCodePoint b0 rest = (0xFFFD, 1) ∧ rdDecode b0 rest = (0xFFFD, 1) ∧
      decodeCp b0 rest = (0xFFFD, 1) := by
  refine ⟨?_, ?_, ?_⟩
  · simp only [decodeCodePoint, if_neg hascii, h]
    rfl
  · simp only [rdDecode, if_neg hascii, h]
  · have hrange : b0.toNat < 0xC2 ∨ 0xF4 < b0.toNat := by
      simp only [leadBits] at h
      split_ifs at h
      omega
    have hnone : sequence b0 rest = none := by
      by_contra hsome
      obtain ⟨⟨cp, len⟩, hseq⟩ := Option.ne_none_iff_exists'.mp hsome
      obtain ⟨lead, minCp, hlead, hfit, hcp, hmin, hmax⟩ := sequence_eq_some.mp hseq
      rw [continuation_eq] at hcp
      split at hcp
      · obtain rfl := Option.some.inj hcp
        have hbounds := payload_bounds lead (rest.take (len - 1))
        rw [List.length_take_of_le (by omega)] at hbounds
        simp only [leadByte] at hlead
        split_ifs at hlead with h1 h2 h3
        all_goals
          obtain ⟨rfl, rfl, rfl⟩ : _ ∧ _ ∧ _ := by simpa using hlead
          simp only [Nat.reduceSub, Nat.reducePow] at hbounds hmin hmax
          omega
      · cases hcp
    rw [decodeCp, if_neg hascii, hnone]
    rfl

theorem leadBits_of_isContinuation (h : isContinuation b0 = true) :
    ¬b0.toNat < 0x80 ∧ leadBits b0.toNat = none := by
  have hrange : b0.toNat / 0x40 = 2 := beq_iff_eq.mp h
  refine ⟨by omega, ?_⟩
  rw [leadBits, if_neg (by omega), if_neg (by omega), if_neg (by omega)]

theorem decodeCodePoint_lawful : LawfulDecoder decodeCodePoint where
  advances b0 rest := by
    by_cases hascii : b0.toNat < 0x80
    · rw [decodeCodePoint, if_pos hascii]
    · cases hlead : leadBits b0.toNat with
      | none => rw [(decode_of_leadBits_none hascii hlead).1]
      | some r =>
        rw [decodeCodePoint_lead hlead]
        split
        · split <;> simp
        · simp
  stray b0 rest h := by
    obtain ⟨hascii, hlead⟩ := leadBits_of_isContinuation h
    exact (decode_of_leadBits_none hascii hlead).1

theorem rdDecode_lawful : LawfulDecoder rdDecode where
  advances b0 rest := by
    by_cases hascii : b0.toNat < 0x80
    · rw [rdDecode, if_pos hascii]
    · cases hlead : leadBits b0.toNat with
      | none => rw [(decode_of_leadBits_none hascii hlead).2.1]
      | some r =>
        rw [rdDecode_lead hlead]
        split
        · split <;> simp
        · simp [rdHave]
  stray b0 rest h := by
    obtain ⟨hascii, hlead⟩ := leadBits_of_isContinuation h
    exact (decode_of_leadBits_none hascii hlead).2.1

theorem decodeCp_lawful : LawfulDecoder decodeCp where
  advances b0 rest := (cpLength_bounds b0 rest).1
  stray b0 rest h := by
    obtain ⟨hascii, hlead⟩ := leadBits_of_isContinuation h
    exact (decode_of_leadBits_none hascii hlead).2.2

/-! ### They agree -/

theorem weightless_replacement (h : decode b0 rest = (0xFFFD, 1)) : Weightless decode b0 rest := by
  rw [Weightless, h]
  exact ⟨isPlain_replacement, rfl⟩

theorem weightless_surrogate {extra lead : Nat} (h : decode b0 rest = (cp, extra + 1))
    (hspelled : spelled extra lead rest = some cp) (hlo : 0xD800 ≤ cp) (hhi : cp ≤ 0xDFFF) :
    Weightless decode b0 rest := by
  rw [Weightless, h]
  refine ⟨isPlain_surrogate hlo hhi, ?_⟩
  simp only [spelled] at hspelled
  split at hspelled
  · rename_i hfull
    exact hfull.2
  · cases hspelled

theorem take_rdHave (extra : Nat) (rest : Bytes) :
    (rest.take (rdHave extra rest - 1)).all isContinuation = true := by
  have hprefix : (rest.take extra).takeWhile isContinuation <+: rest :=
    ( List.takeWhile_prefix isContinuation).trans ( List.take_prefix extra rest)
  rw [rdHave, Nat.add_sub_cancel_left, ← List.prefix_iff_eq_take.mp hprefix]
  exact List.all_eq_true.mpr fun b hb => List.mem_takeWhile_imp hb

/-- The read tool and the runtime read alike, or something of no weight. -/
theorem rdDecode_decodeCp (b0 : Byte) (rest : Bytes) :
    rdDecode b0 rest = decodeCp b0 rest ∨
      (Weightless rdDecode b0 rest ∧ Weightless decodeCp b0 rest) := by
  by_cases hascii : b0.toNat < 0x80
  · left
    rw [rdDecode, if_pos hascii, decodeCp_ascii hascii]
  · cases hlead : leadBits b0.toNat with
    | none =>
      obtain ⟨-, hrd, hcp⟩ := @decode_of_leadBits_none b0 rest hascii hlead
      exact Or.inl (hrd.trans hcp.symm)
    | some r =>
      obtain ⟨extra, lead⟩ := r
      have hrd := @rdDecode_lead b0 rest extra lead hlead
      have hcp := @decodeCp_lead b0 rest extra lead hlead
      cases hspelled : spelled extra lead rest with
      | none =>
        rw [hspelled] at hrd hcp
        refine Or.inr ⟨?_, weightless_replacement hcp⟩
        rw [Weightless, hrd]
        exact ⟨isPlain_replacement, take_rdHave extra rest⟩
      | some cp =>
        rw [hspelled] at hrd hcp
        simp only at hrd hcp
        by_cases hout : cp < leastCp extra ∨ cp > 0x10FFFF
        · rw [if_pos hout] at hcp
          rw [if_pos (by omega)] at hrd
          exact Or.inl (hrd.trans hcp.symm)
        · rw [if_neg hout] at hcp
          by_cases hsurrogate : 0xD800 ≤ cp ∧ cp ≤ 0xDFFF
          · rw [if_pos (Or.inr (Or.inl hsurrogate))] at hrd
            exact Or.inr ⟨weightless_replacement hrd,
              weightless_surrogate hcp hspelled hsurrogate.1 hsurrogate.2⟩
          · rw [if_neg (by omega)] at hrd
            exact Or.inl (hrd.trans hcp.symm)

/-- An overlong sequence may begin here. -/
def Overlong (b0 : Byte) (rest : Bytes) : Prop :=
  ∃ b1 more, rest = b1 :: more ∧
    ((b0 = 0xE0#8 ∧ 0x80 ≤ b1.toNat ∧ b1.toNat < 0xA0) ∨
      (b0 = 0xF0#8 ∧ 0x80 ≤ b1.toNat ∧ b1.toNat < 0x90))

theorem leastCp_le {extra lead : Nat} (h : ¬Overlong b0 rest)
    (hlead : leadBits b0.toNat = some (extra, lead)) (hspelled : spelled extra lead rest = some cp) :
    leastCp extra ≤ cp := by
  simp only [spelled] at hspelled
  split at hspelled
  · rename_i hfull
    obtain rfl := Option.some.inj hspelled
    have hbounds := (payload_bounds lead (rest.take extra)).1
    rw [List.length_take_of_le hfull.1] at hbounds
    cases rest with
    | nil =>
      have := leadBits_cases hlead
      have := Nat.le_zero.mp hfull.1
      omega
    | cons b1 more =>
      have hone : ∀ n, payload lead ((b1 :: more).take (n + 1)) =
          payload (lead * 0x40 + b1.toNat % 0x40) (more.take n) := fun n => rfl
      have hb1 : 1 ≤ extra → b1.toNat / 0x40 = 2 := by
        intro hpos
        obtain ⟨n, rfl⟩ := Nat.exists_eq_add_of_le hpos
        have hrun := hfull.2
        rw [Nat.add_comm, List.take_succ_cons, List.all_cons, Bool.and_eq_true] at hrun
        exact beq_iff_eq.mp hrun.1
      rcases leadBits_cases hlead with ⟨rfl, hlo, hhi, rfl⟩ | ⟨rfl, hlo, hhi, rfl⟩ |
        ⟨rfl, hlo, hhi, rfl⟩
      · simp only [leastCp, if_true, Nat.reducePow] at hbounds ⊢
        omega
      · have hrest := (payload_bounds (b0.toNat % 0x10 * 0x40 + b1.toNat % 0x40) (more.take 1)).1
        rw [List.length_take_of_le (by have := hfull.1; rw [List.length_cons] at this; omega),
          ← hone] at hrest
        simp only [leastCp, Nat.reduceEqDiff, if_false, if_true, Nat.reducePow, Nat.reduceAdd]
          at hrest ⊢
        by_cases hzero : b0.toNat % 0x10 = 0
        · have hb0 : b0 = 0xE0#8 := BitVec.eq_of_toNat_eq (by simp; omega)
          have hnot : ¬b1.toNat < 0xA0 := fun hlt =>
            h ⟨b1, more, rfl, Or.inl ⟨hb0, by have := hb1 (by decide); omega, hlt⟩⟩
          have := hb1 (by decide)
          omega
        · omega
      · have hrest := (payload_bounds (b0.toNat % 0x08 * 0x40 + b1.toNat % 0x40) (more.take 2)).1
        rw [List.length_take_of_le (by have := hfull.1; rw [List.length_cons] at this; omega),
          ← hone] at hrest
        simp only [leastCp, Nat.reduceEqDiff, if_false, Nat.reducePow, Nat.reduceAdd] at hrest ⊢
        by_cases hzero : b0.toNat % 0x08 = 0
        · have hb0 : b0 = 0xF0#8 := BitVec.eq_of_toNat_eq (by simp; omega)
          have hnot : ¬b1.toNat < 0x90 := fun hlt =>
            h ⟨b1, more, rfl, Or.inr ⟨hb0, by have := hb1 (by decide); omega, hlt⟩⟩
          have := hb1 (by decide)
          omega
        · omega
  · cases hspelled

/-- Where no overlong sequence begins, so do the edit tool and the runtime. -/
theorem decodeCodePoint_decodeCp (h : ¬Overlong b0 rest) :
    decodeCodePoint b0 rest = decodeCp b0 rest ∨
      (Weightless decodeCodePoint b0 rest ∧ Weightless decodeCp b0 rest) := by
  by_cases hascii : b0.toNat < 0x80
  · left
    rw [decodeCodePoint, if_pos hascii, decodeCp_ascii hascii]
  · cases hlead : leadBits b0.toNat with
    | none =>
      obtain ⟨hedit, -, hcp⟩ := @decode_of_leadBits_none b0 rest hascii hlead
      exact Or.inl (hedit.trans hcp.symm)
    | some r =>
      obtain ⟨extra, lead⟩ := r
      have hedit := @decodeCodePoint_lead b0 rest extra lead hlead
      have hcp := @decodeCp_lead b0 rest extra lead hlead
      cases hspelled : spelled extra lead rest with
      | none =>
        rw [hspelled] at hedit hcp
        exact Or.inl (hedit.trans hcp.symm)
      | some cp =>
        have hleast : leastCp extra ≤ cp := leastCp_le h hlead hspelled
        rw [hspelled] at hedit hcp
        simp only at hedit hcp
        by_cases hsurrogate : 0xD800 ≤ cp ∧ cp ≤ 0xDFFF
        · rw [if_pos (Or.inl hsurrogate)] at hedit
          rw [if_neg (by omega)] at hcp
          exact Or.inr ⟨weightless_replacement hedit,
            weightless_surrogate hcp hspelled hsurrogate.1 hsurrogate.2⟩
        · by_cases hout : cp > 0x10FFFF
          · rw [if_pos (Or.inr hout)] at hedit hcp
            exact Or.inl (hedit.trans hcp.symm)
          · rw [if_neg (by omega)] at hedit hcp
            exact Or.inl (hedit.trans hcp.symm)

/-! ### What a line keeps -/

/-- The bytes of a line that are not blank. -/
def kept (decode : Byte → Bytes → Nat × Nat) (line : Bytes) : Bytes :=
  keptBytes isPySpaceCp (scan decode line)

/-- A letter or a digit is seen in a line. -/
def significant (decode : Byte → Bytes → Nat × Nat) (line : Bytes) : Bool :=
  (scan decode line).any fun c => isAlnumCp c.1

theorem kept_congr (h : finePoints decode line = finePoints decode' line) :
    kept decode line = kept decode' line ∧ significant decode line = significant decode' line := by
  constructor
  · rw [kept, kept, ← keptBytes_fine (scan decode line), ← keptBytes_fine (scan decode' line)]
    exact congrArg _ h
  · rw [significant, significant, ← any_alnum_fine (scan decode line),
      ← any_alnum_fine (scan decode' line)]
    exact congrArg (fun cs => cs.any fun c => isAlnumCp c.1) h

theorem kept_rdDecode (line : Bytes) :
    kept rdDecode line = kept decodeCp line ∧
      significant rdDecode line = significant decodeCp line :=
  kept_congr (finePoints_congr rdDecode_lawful decodeCp_lawful
    fun _ b0 rest _ => rdDecode_decodeCp b0 rest)

/-- No overlong sequence begins in the text. -/
def NoOverlong (text : Bytes) : Prop :=
  ∀ before b0 rest, text = before ++ b0 :: rest → ¬Overlong b0 rest

/-- A part of the text has no more overlong sequences than the text. -/
theorem NoOverlong.part {text part : Bytes} (h : NoOverlong text) (hpart : part <:+: text) :
    NoOverlong part := by
  obtain ⟨pre, post, rfl⟩ := hpart
  rintro before b0 rest rfl ⟨b1, more, rfl, hb⟩
  refine h (pre ++ before) b0 (b1 :: more ++ post) ?_ ⟨b1, more ++ post, rfl, hb⟩
  simp only [List.append_assoc, List.cons_append]

theorem NoOverlong.stripCR (h : NoOverlong line) : NoOverlong (stripCR line) := by
  rw [Tools.stripCR]
  split
  · exact h.part ( List.dropLast_prefix line).isInfix
  · exact h

theorem kept_decodeCodePoint (h : NoOverlong line) :
    kept decodeCodePoint line = kept decodeCp line ∧
      significant decodeCodePoint line = significant decodeCp line :=
  kept_congr (finePoints_congr decodeCodePoint_lawful decodeCp_lawful
    fun before b0 rest heq => decodeCodePoint_decodeCp (h before b0 rest heq))

/-- The edit tool looks for letters and digits where there is no blank; it misses none. -/
theorem hasSignificant_eq (line : Bytes) : hasSignificant line = significant decodeCodePoint line := by
  rw [hasSignificant, significant]
  congr 1
  funext c
  cases hspace : isPySpaceCp c.1 with
  | false => rfl
  | true => rw [isAlnumCp_of_isPySpaceCp hspace, Bool.and_false]

theorem rdIsSpaceCp_eq (cp : Nat) : rdIsSpaceCp cp = isPySpaceCp cp := by
  by_cases hascii : cp < 0x80
  · have hall : ∀ cp < 0x80, rdIsSpaceCp cp = isPySpaceCp cp := by decide
    exact hall cp hascii
  · rw [isPySpaceCp, if_neg hascii, rdIsSpaceCp, Bool.eq_iff_iff, decide_eq_true_eq,
      List.any_eq_true]
    simp only [pySpaceRanges, List.mem_cons, List.not_mem_nil, or_false, decide_eq_true_eq,
      exists_eq_or_imp, exists_eq_left]
    omega

theorem keptBytes_rdIsSpaceCp (cs : List (Nat × Bytes)) :
    keptBytes rdIsSpaceCp cs = keptBytes isPySpaceCp cs := by
  rw [show rdIsSpaceCp = isPySpaceCp from funext rdIsSpaceCp_eq]

/-! ### Text behind a line -/

/-- The text does not begin in the middle of a sequence. -/
def Aligned (text : Bytes) : Prop := ∀ y, text.head? = some y → isContinuation y = false

theorem decodeCp_append {ys : Bytes} (h : Aligned ys) :
    decodeCp b0 (rest ++ ys) = decodeCp b0 rest := by
  rw [decodeCp, decodeCp]
  congr 2
  cases hseq : sequence b0 rest with
  | some r => exact sequence_append hseq ys
  | none =>
    by_contra hsome
    obtain ⟨⟨cp, len⟩, hlong⟩ := Option.ne_none_iff_exists'.mp hsome
    obtain ⟨lead, minCp, hlead, hfit, hcp, -⟩ := sequence_eq_some.mp hlong
    by_cases hshort : len ≤ rest.length + 1
    · rw [sequence_of_append hlong hshort] at hseq
      cases hseq
    · -- the sequence would go on into what follows, which does not continue one
      rw [continuation_eq] at hcp
      split at hcp
      · rename_i hrun
        rw [List.length_append] at hfit
        cases ys with
        | nil =>
          rw [List.length_nil] at hfit
          omega
        | cons y more =>
          have hin : y ∈ (rest ++ y :: more).take (len - 1) := by
            rw [List.take_append, List.mem_append]
            right
            obtain ⟨n, hn⟩ : ∃ n, len - 1 - rest.length = n + 1 := ⟨len - 2 - rest.length, by omega⟩
            rw [hn, List.take_succ_cons]
            exact List.mem_cons_self
          have hcont := List.all_eq_true.mp hrun y hin
          rw [h y rfl] at hcont
          cases hcont
      · cases hcp

theorem scan_append {xs ys : Bytes} (h : Aligned ys) :
    scan decodeCp (xs ++ ys) = scan decodeCp xs ++ scan decodeCp ys := by
  induction hn : xs.length using Nat.strongRecOn generalizing xs with
  | _ n ih =>
    cases xs with
    | nil => rfl
    | cons b0 rest =>
      have hbounds := cpLength_bounds b0 rest
      simp only [cpLength] at hbounds
      rw [List.cons_append, scan_cons decodeCp_lawful, scan_cons decodeCp_lawful,
        decodeCp_append h, ← List.cons_append, List.take_append_of_le_length hbounds.2,
        List.drop_append_of_le_length hbounds.2,
        ih _ (by rw [List.length_drop]; omega) rfl]
      rfl

/-- Blanks behind a line leave nothing. -/
structure BlankTail (tail : Bytes) : Prop where
  aligned : Aligned tail
  kept_nil : kept decodeCp tail = []
  not_significant : significant decodeCp tail = false

theorem BlankTail.kept_append {tail : Bytes} (h : BlankTail tail) (line : Bytes) :
    kept decodeCp (line ++ tail) = kept decodeCp line ∧
      significant decodeCp (line ++ tail) = significant decodeCp line := by
  constructor
  · have htail := h.kept_nil
    rw [kept, keptBytes] at htail
    rw [kept, keptBytes, scan_append h.aligned, List.filter_append, List.flatMap_append, htail,
      List.append_nil]
    rfl
  · have htail := h.not_significant
    rw [significant] at htail
    rw [significant, scan_append h.aligned, List.any_append, htail, Bool.or_false]
    rfl

theorem blankTail_nil : BlankTail [] where
  aligned := fun _ h => nomatch h
  kept_nil := rfl
  not_significant := rfl

theorem blankTail_carriageReturn : BlankTail [carriageReturn] where
  aligned := by
    intro y hy
    obtain rfl := Option.some.inj hy
    decide
  kept_nil := by decide
  not_significant := by decide

theorem BlankTail.append {t u : Bytes} (ht : BlankTail t) (hu : BlankTail u) : BlankTail (t ++ u) := by
  obtain ⟨hkept, hsignificant⟩ := hu.kept_append t
  refine ⟨?_, hkept.trans ht.kept_nil, hsignificant.trans ht.not_significant⟩
  intro y hy
  cases t with
  | nil => exact hu.aligned y hy
  | cons b rest => exact ht.aligned y hy

/-- A carriage return at the end of a line makes no difference. -/
theorem kept_stripCR (line : Bytes) :
    kept decodeCp (stripCR line) = kept decodeCp line ∧
      significant decodeCp (stripCR line) = significant decodeCp line := by
  rw [stripCR]
  split
  · rename_i hlast
    obtain ⟨before, rfl⟩ := List.getLast?_eq_some_iff.mp hlast
    rw [List.dropLast_concat]
    obtain ⟨hkept, hsignificant⟩ := blankTail_carriageReturn.kept_append before
    exact ⟨hkept.symm, hsignificant.symm⟩
  · exact ⟨rfl, rfl⟩

end KimixNative.Tools
