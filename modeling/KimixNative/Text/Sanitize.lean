import KimixNative.Text.Utf8
import Mathlib.Data.List.DropRight
import Mathlib.Data.List.SplitBy
import Mathlib.Data.List.TakeDrop

/-!
# Sanitizing a text in its own buffer

A tool's output is stripped of white space, its long runs of one code point are cut down, and it
is truncated. Strip and cut are one pass that decodes a run, encodes what it keeps and writes that
over the bytes it has read. A malformed byte is read as U+FFFD, which takes three bytes: the pass
stays behind its reader as long as such bytes do not outgrow what the other runs lose.
-/

namespace KimixNative.Text.Sanitize

/-- `is_unicode_space`. -/
def isUnicodeSpace (cp : Nat) : Bool :=
  cp == 0x20 || (decide (0x09 ≤ cp) && decide (cp ≤ 0x0D)) ||
    (decide (0x1C ≤ cp) && decide (cp ≤ 0x1F)) || cp == 0x85 || cp == 0xA0 || cp == 0x1680 ||
    (decide (0x2000 ≤ cp) && decide (cp ≤ 0x200A)) || cp == 0x2028 || cp == 0x2029 ||
    cp == 0x202F || cp == 0x205F || cp == 0x3000

/-- `sanitize_options`. -/
structure SanitizeOptions where
  maxChars : Nat := 0
  maxRepeat : Nat := 100
  truncateMsg : Bytes := []
  deriving DecidableEq, Repr

/-! ## The pass over the buffer -/

/-- The locals of the pass: the buffer, both cursors and the pending run. `cursors` remembers the
two cursors after each flush. -/
structure Dedupe where
  buf : Bytes
  r : Nat
  w : Nat
  hasRun : Bool := false
  runCp : Nat := 0
  runLen : Nat := 0
  lastNonWs : Nat := 0
  lastRunIsWs : Bool := false
  cursors : List (Nat × Nat) := []

/-- Bytes written over the buffer; what falls behind its end is no part of it. -/
def overwrite (buf : Bytes) (w : Nat) (bytes : Bytes) : Bytes :=
  (buf.take w ++ bytes ++ buf.drop (w + bytes.length)).take buf.length

/-- How many code points of a run are kept. -/
def keep (maxRepeat runLen : Nat) : Nat :=
  if maxRepeat ≠ 0 ∧ maxRepeat < runLen then maxRepeat else runLen

section Pass

variable (maxRepeat outBase : Nat)

/-- The lambda `flush`. -/
def Dedupe.flush (s : Dedupe) : Dedupe :=
  let bytes := (List.replicate (keep maxRepeat s.runLen) (encodeCp s.runCp)).flatten
  let w := s.w + bytes.length
  let ws := isUnicodeSpace s.runCp
  { s with
    buf := overwrite s.buf s.w bytes
    w := w
    lastRunIsWs := ws
    lastNonWs := if ws then s.lastNonWs else w - outBase
    cursors := s.cursors ++ [(w, s.r)] }

/-- One code point at the reader, which stands in front of `b0 :: rest`. -/
def Dedupe.step (s : Dedupe) (b0 : Byte) (rest : Bytes) : Dedupe :=
  let d := decodeCp b0 rest
  let s := { s with r := s.r + d.2 }
  if s.hasRun && d.1 == s.runCp then { s with runLen := s.runLen + 1 }
  else
    let s := if s.hasRun then s.flush maxRepeat outBase else s
    { s with runCp := d.1, runLen := 1, hasRun := true }

theorem length_overwrite (buf : Bytes) (w : Nat) (bytes : Bytes) :
    (overwrite buf w bytes).length = buf.length := by
  simp only [overwrite, List.length_take, List.length_append, List.length_drop]
  omega

theorem Dedupe.length_step (s : Dedupe) (b0 : Byte) (rest : Bytes) :
    (s.step maxRepeat outBase b0 rest).buf.length = s.buf.length := by
  simp only [step]
  split
  · rfl
  · split
    · exact length_overwrite _ _ _
    · rfl

theorem Dedupe.r_step (s : Dedupe) (b0 : Byte) (rest : Bytes) :
    (s.step maxRepeat outBase b0 rest).r = s.r + (decodeCp b0 rest).2 := by
  simp only [step]
  split
  · rfl
  · split <;> rfl

/-- The loop up to the end of the buffer. -/
def dedupeLoop (s : Dedupe) : Dedupe :=
  match _hrest : s.buf.drop s.r with
  | [] => s
  | b0 :: rest => dedupeLoop (s.step maxRepeat outBase b0 rest)
termination_by s.buf.length - s.r
decreasing_by
  have hlength := congrArg List.length _hrest
  have hbounds := (cpLength_bounds b0 rest).1
  simp only [cpLength] at hbounds
  simp only [List.length_drop, List.length_cons] at hlength
  rw [Dedupe.length_step, Dedupe.r_step]
  omega

/-- The pass from the first code point that is not white space. -/
def dedupe (text : Bytes) : Dedupe :=
  let s := dedupeLoop maxRepeat outBase { buf := text, r := outBase, w := outBase }
  if s.hasRun then s.flush maxRepeat outBase else s

end Pass

/-- The leading white space, by code points. -/
def leadingSpace (text : Bytes) : List (Nat × Bytes) :=
  (decodeAll text).takeWhile fun c => isUnicodeSpace c.1

/-- Where the output begins: behind the leading white space. -/
def outBase (text : Bytes) : Nat := ((leadingSpace text).flatMap Prod.snd).length

/-- `strip_dedupe_inplace`: the string with the cursors of the flushes. A string that is resized
behind its end is filled up with zero bytes. -/
def stripDedupeInplace (text : Bytes) (maxRepeat : Nat) : Bytes × List (Nat × Nat) :=
  if text = [] then (text, [])
  else if outBase text = text.length then ([], [])
  else
    let s := dedupe maxRepeat (outBase text) text
    let written := if s.lastRunIsWs then s.lastNonWs else s.w - outBase text
    ((s.buf.drop (outBase text)).takeD written 0, s.cursors)

/-- `truncate_inplace`: the string and whether it was truncated. -/
def truncateInplace (text : Bytes) (maxChars : Nat) (msg : Bytes) : Bytes × Bool :=
  if maxChars = 0 then (text, false)
  else
    let msgCps := if msg = [] then 0 else utf8CodePointCount msg
    let keepCps := if msg ≠ [] ∧ msgCps < maxChars then maxChars - msgCps else maxChars
    let front := ((decodeAll text).take maxChars).flatMap Prod.snd
    if front.length = text.length then (text, false)
    else if keepCps = maxChars then (front, true)
    else (((decodeAll text).take keepCps).flatMap Prod.snd ++ msg, true)

/-- `sanitize_post_nfc`. -/
def sanitizePostNfc (text : Bytes) (opts : SanitizeOptions) : Bytes × Bool :=
  truncateInplace (stripDedupeInplace text opts.maxRepeat).1 opts.maxChars opts.truncateMsg

/-! ## Runs -/

/-- A code point with the bytes it was read from. -/
abbrev Cp := Nat × Bytes

def sameCp (a b : Cp) : Bool := a.1 == b.1

/-- How many bytes code points were read from. -/
def readLength (cs : List Cp) : Nat := (cs.flatMap Prod.snd).length

/-- The bytes that are written for a run. -/
def keptRun (maxRepeat : Nat) (run : List Cp) : Bytes :=
  (run.take (keep maxRepeat run.length)).flatMap fun c => encodeCp c.1

def kept (maxRepeat : Nat) (runs : List (List Cp)) : Bytes := runs.flatMap (keptRun maxRepeat)

/-- The bytes of the code point that the runs begin with. -/
def nextLength : List (List Cp) → Nat
  | (c :: _) :: _ => c.2.length
  | _ => 0

/-- Behind `a` bytes written and `b` bytes read: after each run what is written ends where the
reader stands, which has the next code point. -/
def FitsFrom (maxRepeat : Nat) : Nat → Nat → List (List Cp) → Prop
  | _, _, [] => True
  | a, b, run :: runs =>
    a + (keptRun maxRepeat run).length ≤ b + readLength run + nextLength runs ∧
      FitsFrom maxRepeat (a + (keptRun maxRepeat run).length) (b + readLength run) runs

/-- A run of white space. -/
def spaceRun (run : List Cp) : Bool := run.all fun c => isUnicodeSpace c.1

variable {c : Cp}

section Splitting

variable {run cs : List Cp} {cp : Nat}

theorem isChain_of_key (hkey : ∀ c ∈ run, c.1 = cp) :
    run.IsChain fun a b => sameCp a b = true := by
  refine List.Pairwise.isChain ?_
  refine List.pairwise_of_forall_mem_list ?_
  intro a ha b hb
  rw [sameCp, hkey a ha, hkey b hb, beq_self_eq_true]

theorem splitBy_run (hne : run ≠ []) (hkey : ∀ c ∈ run, c.1 = cp) :
    run.splitBy sameCp = [run] :=
  List.splitBy_of_isChain hne (isChain_of_key hkey)

/-- A run ends in front of another code point. -/
theorem splitBy_run_cons (hne : run ≠ []) (hkey : ∀ c ∈ run, c.1 = cp) (hc : c.1 ≠ cp) :
    (run ++ c :: cs).splitBy sameCp = run :: (c :: cs).splitBy sameCp := by
  rw [List.splitBy_append_cons, splitBy_run hne hkey, List.singleton_append]
  intro a ha
  rw [sameCp, hkey a (List.mem_of_getLast? ha), beq_eq_false_iff_ne]
  exact hc.symm

theorem nextLength_splitBy (c : Cp) (cs : List Cp) :
    nextLength ((c :: cs).splitBy sameCp) = c.2.length := by
  have hne : (c :: cs).splitBy sameCp ≠ [] := List.splitBy_ne_nil.mpr (List.cons_ne_nil c cs)
  have hhead := List.head_head_splitBy sameCp (List.cons_ne_nil c cs)
  match hruns : (c :: cs).splitBy sameCp, hne with
  | (d :: run) :: runs, _ =>
    simp only [hruns, List.head_cons] at hhead
    rw [nextLength, hhead]
  | [] :: runs, _ =>
    exact absurd (hruns ▸ List.mem_cons_self) (List.nil_notMem_splitBy sameCp (c :: cs))

end Splitting

/-! ## The pass follows the runs -/

theorem drop_overwrite {buf bytes : Bytes} {w r : Nat} (hw : w + bytes.length ≤ r)
    (hr : r ≤ buf.length) : (overwrite buf w bytes).drop r = buf.drop r := by
  have htake : (buf.take w ++ bytes ++ buf.drop (w + bytes.length)).length = buf.length := by
    simp only [List.length_append, List.length_take, List.length_drop]
    omega
  rw [overwrite, ← htake, List.take_length, List.drop_append]
  have hfront : (buf.take w ++ bytes).length = w + bytes.length := by
    simp only [List.length_append, List.length_take]
    omega
  rw [List.drop_eq_nil_of_le (by omega), hfront, List.nil_append, List.drop_drop]
  congr 1
  omega

theorem take_overwrite {buf bytes : Bytes} {w : Nat} (hw : w + bytes.length ≤ buf.length) :
    (overwrite buf w bytes).take (w + bytes.length) = buf.take w ++ bytes := by
  have hfront : (buf.take w ++ bytes).length = w + bytes.length := by
    simp only [List.length_append, List.length_take]
    omega
  rw [overwrite, List.take_take, Nat.min_eq_left hw, ← hfront, List.take_left']
  rfl

theorem keptRun_eq (maxRepeat : Nat) {cp : Nat} {run : List Cp} (hkey : ∀ c ∈ run, c.1 = cp) :
    keptRun maxRepeat run =
      (List.replicate (keep maxRepeat run.length) (encodeCp cp)).flatten := by
  have hkeep : keep maxRepeat run.length ≤ run.length := by
    rw [keep]
    split <;> omega
  have hmap : (run.take (keep maxRepeat run.length)).map (fun c => encodeCp c.1) =
      List.replicate (keep maxRepeat run.length) (encodeCp cp) := by
    rw [List.eq_replicate_iff]
    refine ⟨by rw [List.length_map, List.length_take, Nat.min_eq_left hkeep], ?_⟩
    intro b hb
    obtain ⟨c, hc, rfl⟩ := List.mem_map.mp hb
    rw [hkey c (List.mem_of_mem_take hc)]
  rw [keptRun, List.flatMap_def, hmap]

theorem spaceRun_eq {cp : Nat} {run : List Cp} (hne : run ≠ []) (hkey : ∀ c ∈ run, c.1 = cp) :
    spaceRun run = isUnicodeSpace cp := by
  obtain ⟨c, cs, rfl⟩ := List.exists_cons_of_ne_nil hne
  cases hspace : isUnicodeSpace cp with
  | true =>
    rw [spaceRun, List.all_eq_true]
    intro d hd
    rwa [hkey d hd]
  | false =>
    rw [spaceRun, List.all_cons, hkey c List.mem_cons_self, hspace, Bool.false_and]

/-- What has been written and what is left. -/
structure Written (maxRepeat base : Nat) (done : List (List Cp)) (cs : List Cp) (s : Dedupe) :
    Prop where
  wrote : s.w = base + (kept maxRepeat done).length
  out : (s.buf.take s.w).drop base = kept maxRepeat done
  lastNonWs : s.lastNonWs = (kept maxRepeat (done.rdropWhile spaceRun)).length
  room : s.w ≤ s.buf.length
  within : s.r ≤ s.buf.length
  unread : decodeAll (s.buf.drop s.r) = cs

/-- The runs `done` have been written, `run` is pending and `cs` is left. -/
structure Pending (maxRepeat base : Nat) (done : List (List Cp)) (run cs : List Cp) (s : Dedupe) :
    Prop extends Written maxRepeat base done cs s where
  hasRun : s.hasRun = true
  ne : run ≠ []
  key : ∀ c ∈ run, c.1 = s.runCp
  runLen : s.runLen = run.length
  read : s.r = base + readLength done.flatten + readLength run

section Steps

variable {maxRepeat base : Nat} {done : List (List Cp)} {run cs : List Cp} {s : Dedupe}

theorem kept_concat (maxRepeat : Nat) (done : List (List Cp)) (run : List Cp) :
    kept maxRepeat (done ++ [run]) = kept maxRepeat done ++ keptRun maxRepeat run := by
  rw [kept, kept, List.flatMap_append, List.flatMap_singleton]

/-- A flush that stays behind the reader. -/
theorem Written.flush (h : Written maxRepeat base done cs s) (hne : run ≠ [])
    (hkey : ∀ c ∈ run, c.1 = s.runCp) (hlen : s.runLen = run.length)
    (hfits : s.w + (keptRun maxRepeat run).length ≤ s.r) :
    Written maxRepeat base (done ++ [run]) cs (s.flush maxRepeat base) := by
  have hbytes := keptRun_eq maxRepeat hkey
  rw [← hlen] at hbytes
  have hw : (s.flush maxRepeat base).w = s.w + (keptRun maxRepeat run).length := by
    rw [Dedupe.flush, hbytes]
  have hbuf : (s.flush maxRepeat base).buf = overwrite s.buf s.w (keptRun maxRepeat run) := by
    rw [Dedupe.flush, hbytes]
  have hwithin := h.within
  have hbase : base ≤ s.w := by
    rw [h.wrote]
    omega
  refine ⟨?_, ?_, ?_, ?_, ?_, ?_⟩
  · rw [hw, h.wrote, kept_concat, List.length_append]
    omega
  · rw [hw, hbuf, take_overwrite (by omega), kept_concat, ← h.out, List.drop_append_of_le_length]
    rw [List.length_take]
    omega
  · have hlast : (s.flush maxRepeat base).lastNonWs =
        if isUnicodeSpace s.runCp then s.lastNonWs
        else (s.flush maxRepeat base).w - base := rfl
    rw [hlast, ← spaceRun_eq hne hkey]
    split
    · rename_i hspace
      rw [h.lastNonWs, List.rdropWhile_concat_pos _ _ _ hspace]
    · rename_i hspace
      rw [List.rdropWhile_concat_neg _ _ _ hspace, kept_concat, List.length_append, hw, h.wrote]
      omega
  · rw [hw, hbuf, length_overwrite]
    omega
  · rw [hbuf, length_overwrite]
    exact hwithin
  · rw [hbuf]
    change decodeAll ((overwrite s.buf s.w (keptRun maxRepeat run)).drop s.r) = cs
    rw [drop_overwrite hfits hwithin]
    exact h.unread

/-- The reader in front of a code point. -/
theorem Written.reader (h : Written maxRepeat base done (c :: cs) s) :
    ∃ b0 rest, s.buf.drop s.r = b0 :: rest ∧ decodeCp b0 rest = (c.1, c.2.length) ∧
      Written maxRepeat base done cs { s with r := s.r + c.2.length } := by
  have hunread := h.unread
  cases hrest : s.buf.drop s.r with
  | nil =>
    rw [hrest, decodeAll] at hunread
    cases hunread
  | cons b0 rest =>
    rw [hrest, decodeAll] at hunread
    obtain ⟨hc, hcs⟩ := List.cons.inj hunread
    have hbounds := cpLength_bounds b0 rest
    rw [cpLength] at hbounds
    have hlength : c.2.length = (decodeCp b0 rest).2 := by
      rw [← hc, List.length_take, Nat.min_eq_left hbounds.2]
    have hdrop := congrArg List.length hrest
    rw [List.length_drop] at hdrop
    have hwithin := h.within
    refine ⟨b0, rest, rfl, ?_, ⟨h.wrote, h.out, h.lastNonWs, h.room, ?_, ?_⟩⟩
    · rw [hlength, ← hc]
    · change s.r + c.2.length ≤ s.buf.length
      omega
    · change decodeAll (s.buf.drop (s.r + c.2.length)) = cs
      rw [← List.drop_drop, hrest, hlength, ← hcs, Nat.max_eq_right hbounds.1]

theorem readLength_append (xs ys : List Cp) :
    readLength (xs ++ ys) = readLength xs + readLength ys := by
  rw [readLength, List.flatMap_append, List.length_append, readLength, readLength]

theorem readLength_singleton (c : Cp) : readLength [c] = c.2.length := by
  rw [readLength, List.flatMap_singleton]

/-- A code point that goes on with the pending run. -/
theorem Pending.extend (h : Pending maxRepeat base done run (c :: cs) s) (hc : c.1 = s.runCp) :
    ∃ b0 rest, s.buf.drop s.r = b0 :: rest ∧
      (s.step maxRepeat base b0 rest).cursors = s.cursors ∧
      Pending maxRepeat base done (run ++ [c]) cs (s.step maxRepeat base b0 rest) := by
  obtain ⟨b0, rest, hrest, hdecode, hwritten⟩ := h.reader
  have hstep : s.step maxRepeat base b0 rest =
      { s with r := s.r + c.2.length, runLen := s.runLen + 1 } := by
    rw [Dedupe.step, hdecode]
    simp only [h.hasRun, hc, beq_self_eq_true, Bool.and_self, if_true]
  refine ⟨b0, rest, hrest, by rw [hstep], ?_⟩
  rw [hstep]
  refine ⟨⟨hwritten.wrote, hwritten.out, hwritten.lastNonWs, hwritten.room, hwritten.within,
    hwritten.unread⟩, h.hasRun, by simp, ?_, ?_, ?_⟩
  · intro d hd
    rcases List.mem_append.mp hd with hd | hd
    · exact h.key d hd
    · rw [List.mem_singleton.mp hd]
      exact hc
  · change s.runLen + 1 = _
    rw [h.runLen, List.length_append, List.length_singleton]
  · change s.r + c.2.length = _
    rw [h.read, readLength_append, readLength_singleton]
    omega

/-- Another code point: the pending run is flushed. -/
theorem Pending.change (h : Pending maxRepeat base done run (c :: cs) s) (hc : c.1 ≠ s.runCp) :
    ∃ b0 rest, s.buf.drop s.r = b0 :: rest ∧
      (s.step maxRepeat base b0 rest).cursors =
        s.cursors ++ [(s.w + (keptRun maxRepeat run).length, s.r + c.2.length)] ∧
      (s.w + (keptRun maxRepeat run).length ≤ s.r + c.2.length →
        Pending maxRepeat base (done ++ [run]) [c] cs (s.step maxRepeat base b0 rest)) := by
  obtain ⟨b0, rest, hrest, hdecode, hwritten⟩ := h.reader
  have hstep : s.step maxRepeat base b0 rest =
      { Dedupe.flush maxRepeat base { s with r := s.r + c.2.length } with
        runCp := c.1, runLen := 1, hasRun := true } := by
    rw [Dedupe.step, hdecode]
    simp only [h.hasRun, Bool.true_and, beq_iff_eq, hc, if_false, if_true]
  have hbytes := keptRun_eq maxRepeat h.key
  rw [← h.runLen] at hbytes
  refine ⟨b0, rest, hrest, ?_, ?_⟩
  · rw [hstep, Dedupe.flush, hbytes]
  · intro hfits
    have hflush := hwritten.flush h.ne h.key h.runLen hfits
    rw [hstep]
    refine ⟨⟨hflush.wrote, hflush.out, hflush.lastNonWs, hflush.room, hflush.within,
      hflush.unread⟩, rfl, List.cons_ne_nil _ _, ?_, rfl, ?_⟩
    · intro d hd
      rw [List.mem_singleton.mp hd]
    · change s.r + c.2.length = _
      rw [h.read, List.flatten_append, List.flatten_singleton, readLength_append,
        readLength_singleton]
      omega

theorem dedupeLoop_nil (h : s.buf.drop s.r = []) : dedupeLoop maxRepeat base s = s := by
  rw [dedupeLoop]
  split
  · rfl
  · rename_i b0 rest hrest
    rw [h] at hrest
    cases hrest

theorem dedupeLoop_cons {b0 : Byte} {rest : Bytes} (h : s.buf.drop s.r = b0 :: rest) :
    dedupeLoop maxRepeat base s = dedupeLoop maxRepeat base (s.step maxRepeat base b0 rest) := by
  rw [dedupeLoop]
  split
  · rename_i hrest
    rw [h] at hrest
    cases hrest
  · rename_i b1 rest' hrest
    rw [h] at hrest
    obtain ⟨rfl, rfl⟩ := List.cons.inj hrest
    rfl

/-- A flush is remembered. -/
theorem cursors_dedupeLoop (s : Dedupe) : s.cursors ⊆ (dedupeLoop maxRepeat base s).cursors := by
  induction s using dedupeLoop.induct maxRepeat base with
  | case1 s hrest => rw [dedupeLoop_nil hrest]; exact List.Subset.refl _
  | case2 s b0 rest hrest ih =>
    rw [dedupeLoop_cons hrest]
    refine List.Subset.trans ?_ ih
    simp only [Dedupe.step]
    split
    · exact List.Subset.refl _
    · split
      · exact List.subset_append_left _ _
      · exact List.Subset.refl _

/-- How many bytes the string has in the end. -/
def Dedupe.written (base : Nat) (s : Dedupe) : Nat :=
  if s.lastRunIsWs then s.lastNonWs else s.w - base

/-- What the last flush leaves when it stays behind the reader. -/
theorem Pending.finish (h : Pending maxRepeat base done run [] s)
    (hfits : s.w + (keptRun maxRepeat run).length ≤ s.r) :
    Written maxRepeat base (done ++ [run]) [] (s.flush maxRepeat base) ∧
      (s.flush maxRepeat base).written base =
        (kept maxRepeat ((done ++ [run]).rdropWhile spaceRun)).length := by
  have hflush := h.toWritten.flush h.ne h.key h.runLen hfits
  refine ⟨hflush, ?_⟩
  have hws : (s.flush maxRepeat base).lastRunIsWs = spaceRun run :=
    (spaceRun_eq h.ne h.key).symm
  rw [Dedupe.written, hws]
  split
  · exact hflush.lastNonWs
  · rename_i hspace
    rw [hflush.wrote, List.rdropWhile_concat_neg _ _ _ hspace]
    omega

theorem Pending.cursor (h : Pending maxRepeat base done run cs s) :
    (s.flush maxRepeat base).cursors =
      s.cursors ++ [(s.w + (keptRun maxRepeat run).length, s.r)] := by
  have hbytes := keptRun_eq maxRepeat h.key
  rw [← h.runLen] at hbytes
  rw [Dedupe.flush, hbytes]

/-- The pass from a pending run on: its cursors stay in order just when the runs fit, and then it
has written what is kept of every run. -/
theorem Pending.loop (h : Pending maxRepeat base done run cs s) :
    ((∀ c ∈ ((dedupeLoop maxRepeat base s).flush maxRepeat base).cursors, c.1 ≤ c.2) ↔
      (∀ c ∈ s.cursors, c.1 ≤ c.2) ∧
        FitsFrom maxRepeat (kept maxRepeat done).length (readLength done.flatten)
          ((run ++ cs).splitBy sameCp)) ∧
    (FitsFrom maxRepeat (kept maxRepeat done).length (readLength done.flatten)
        ((run ++ cs).splitBy sameCp) →
      Written maxRepeat base (done ++ (run ++ cs).splitBy sameCp) []
          ((dedupeLoop maxRepeat base s).flush maxRepeat base) ∧
        ((dedupeLoop maxRepeat base s).flush maxRepeat base).written base =
          (kept maxRepeat ((done ++ (run ++ cs).splitBy sameCp).rdropWhile spaceRun)).length) := by
  induction cs generalizing done run s with
  | nil =>
    have hrest : s.buf.drop s.r = [] := by
      have hunread := h.unread
      cases hdrop : s.buf.drop s.r with
      | nil => rfl
      | cons b0 rest =>
        rw [hdrop, decodeAll] at hunread
        cases hunread
    rw [dedupeLoop_nil hrest, List.append_nil, splitBy_run h.ne h.key]
    have hw := h.wrote
    have hr := h.read
    refine ⟨?_, ?_⟩
    · rw [h.cursor, List.forall_mem_append, List.forall_mem_singleton]
      simp only [FitsFrom, nextLength, and_true]
      refine and_congr_right fun _ => ?_
      omega
    · intro hfits
      simp only [FitsFrom, nextLength, and_true] at hfits
      exact h.finish (by omega)
  | cons c cs ih =>
    by_cases hc : c.1 = s.runCp
    · obtain ⟨b0, rest, hrest, hcursors, hnext⟩ := h.extend hc
      rw [dedupeLoop_cons hrest, List.append_cons, ← hcursors]
      exact ih hnext
    · obtain ⟨b0, rest, hrest, hcursors, hnext⟩ := h.change hc
      have hw := h.wrote
      have hr := h.read
      rw [dedupeLoop_cons hrest, splitBy_run_cons h.ne h.key hc]
      simp only [FitsFrom, nextLength_splitBy]
      by_cases hfits : s.w + (keptRun maxRepeat run).length ≤ s.r + c.2.length
      · obtain ⟨hiff, hend⟩ := ih (hnext hfits)
        have hlength : (kept maxRepeat (done ++ [run])).length =
            (kept maxRepeat done).length + (keptRun maxRepeat run).length := by
          rw [kept_concat, List.length_append]
        have hread : readLength (done ++ [run]).flatten =
            readLength done.flatten + readLength run := by
          rw [List.flatten_append, List.flatten_singleton, readLength_append]
        rw [hlength, hread, List.singleton_append] at hiff hend
        rw [← List.append_cons] at hend
        refine ⟨?_, fun hall => hend hall.2⟩
        rw [hiff, hcursors, List.forall_mem_append, List.forall_mem_singleton, and_assoc]
        refine and_congr_right fun _ => and_congr_left fun _ => ?_
        omega
      · refine ⟨⟨?_, ?_⟩, ?_⟩
        · intro hall
          have hmem : (s.w + (keptRun maxRepeat run).length, s.r + c.2.length) ∈
              (s.step maxRepeat base b0 rest).cursors := by
            rw [hcursors]
            exact List.mem_append_right _ (List.mem_singleton_self _)
          exact absurd (hall _ (List.mem_append_left _ (cursors_dedupeLoop _ hmem))) hfits
        · rintro ⟨-, hfirst, -⟩
          omega
        · rintro ⟨hfirst, -⟩
          omega

end Steps

/-! ### The whole pass -/

theorem hasRun_dedupeLoop {maxRepeat base : Nat} (s : Dedupe) (h : s.hasRun = true) :
    (dedupeLoop maxRepeat base s).hasRun = true := by
  induction s using dedupeLoop.induct maxRepeat base with
  | case1 s hrest =>
    rw [dedupeLoop_nil hrest]
    exact h
  | case2 s b0 rest hrest ih =>
    rw [dedupeLoop_cons hrest]
    refine ih ?_
    simp only [Dedupe.step]
    split
    · exact h
    · rfl

/-- The bytes of the code points are those of the text. -/
theorem flatMap_decodeAll (text : Bytes) : (decodeAll text).flatMap Prod.snd = text := by
  induction text using decodeAll.induct with
  | case1 => rw [decodeAll, List.flatMap_nil]
  | case2 b0 rest ih =>
    have hpos := (cpLength_bounds b0 rest).1
    rw [cpLength] at hpos
    rw [decodeAll, List.flatMap_cons, ih, Nat.max_eq_right hpos, List.take_append_drop]

variable {text : Bytes} {l : List Nat}

theorem decodeAll_ne_nil (h : text ≠ []) : decodeAll text ≠ [] := by
  intro hnil
  have hflat := flatMap_decodeAll text
  rw [hnil, List.flatMap_nil] at hflat
  exact h hflat.symm

/-- Behind some code points the walk goes on as before. -/
theorem decodeAll_drop {front back : List Cp} (h : decodeAll text = front ++ back) :
    decodeAll (text.drop (readLength front)) = back := by
  induction front generalizing text with
  | nil => exact h
  | cons c front ih =>
    cases text with
    | nil =>
      rw [decodeAll] at h
      cases h
    | cons b0 rest =>
      rw [decodeAll, List.cons_append] at h
      obtain ⟨hc, hrest⟩ := List.cons.inj h
      have hbounds := cpLength_bounds b0 rest
      rw [cpLength] at hbounds
      have hlength : readLength (c :: front) = (decodeCp b0 rest).2 + readLength front := by
        rw [readLength, List.flatMap_cons, List.length_append, ← hc, List.length_take,
          Nat.min_eq_left hbounds.2, readLength]
      rw [Nat.max_eq_right hbounds.1] at hrest
      rw [hlength, ← List.drop_drop]
      exact ih hrest

/-- The code points behind the leading white space. -/
def body (text : Bytes) : List Cp := (decodeAll text).dropWhile fun c => isUnicodeSpace c.1

theorem decodeAll_outBase (text : Bytes) : decodeAll (text.drop (outBase text)) = body text := by
  have hsplit : decodeAll text = leadingSpace text ++ body text :=
    List.takeWhile_append_dropWhile.symm
  exact decodeAll_drop hsplit

theorem outBase_le (text : Bytes) : outBase text ≤ text.length := by
  have hsplit : leadingSpace text ++ body text = decodeAll text :=
    List.takeWhile_append_dropWhile
  have hflat := congrArg List.length (flatMap_decodeAll text)
  rw [← hsplit, List.flatMap_append, List.length_append] at hflat
  rw [outBase]
  omega

/-- The runs behind the leading white space. -/
def textRuns (text : Bytes) : List (List Cp) := (body text).splitBy sameCp

/-- In every beginning of the text that ends with a run, what is kept of the runs takes no more
bytes than the runs and the code point behind them. -/
def Fits (maxRepeat : Nat) (text : Bytes) : Prop :=
  ∀ done rest, textRuns text = done ++ rest → done ≠ [] →
    (kept maxRepeat done).length ≤ readLength done.flatten + nextLength rest

variable {runs : List (List Cp)}

theorem fitsFrom_iff {maxRepeat a b : Nat} :
    FitsFrom maxRepeat a b runs ↔ ∀ done rest, runs = done ++ rest → done ≠ [] →
      a + (kept maxRepeat done).length ≤ b + readLength done.flatten + nextLength rest := by
  induction runs generalizing a b with
  | nil =>
    refine iff_of_true trivial ?_
    intro done rest h hne
    exact absurd (List.append_eq_nil_iff.mp h.symm).1 hne
  | cons run runs ih =>
    rw [FitsFrom, ih]
    constructor
    · rintro ⟨hfirst, hrest⟩ done rest h hne
      obtain ⟨first, done, rfl⟩ := List.exists_cons_of_ne_nil hne
      rw [List.cons_append] at h
      obtain ⟨rfl, hruns⟩ := List.cons.inj h
      rw [kept, List.flatMap_cons, List.length_append, List.flatten_cons, readLength_append]
      cases done with
      | nil =>
        obtain rfl : runs = rest := hruns
        simp only [List.flatMap_nil, List.length_nil, List.flatten_nil, readLength]
        rw [readLength] at hfirst
        omega
      | cons second done =>
        have hsecond := hrest _ rest hruns (List.cons_ne_nil _ _)
        rw [kept] at hsecond
        omega
    · intro hall
      refine ⟨?_, ?_⟩
      · have hfirst := hall [run] runs rfl (List.cons_ne_nil _ _)
        rw [kept, List.flatMap_singleton, List.flatten_singleton] at hfirst
        exact hfirst
      · intro done rest h hne
        have hcons := hall (run :: done) rest (by rw [h, List.cons_append])
          (List.cons_ne_nil _ _)
        rw [kept, List.flatMap_cons, List.length_append, List.flatten_cons,
          readLength_append] at hcons
        rw [kept]
        omega

theorem fits_iff {maxRepeat : Nat} :
    Fits maxRepeat text ↔ FitsFrom maxRepeat 0 0 (textRuns text) := by
  rw [fitsFrom_iff, Fits]
  simp only [Nat.zero_add]

/-- The reader on the first code point. -/
theorem pending_start (maxRepeat : Nat) {cs : List Cp} (h : body text = c :: cs) :
    ∃ s, dedupeLoop maxRepeat (outBase text)
        { buf := text, r := outBase text, w := outBase text } =
          dedupeLoop maxRepeat (outBase text) s ∧
      s.cursors = [] ∧ s.buf.length = text.length ∧
      Pending maxRepeat (outBase text) [] [c] cs s := by
  have hstart : Written maxRepeat (outBase text) [] (c :: cs)
      { buf := text, r := outBase text, w := outBase text } := by
    refine ⟨rfl, ?_, rfl, outBase_le text, outBase_le text, ?_⟩
    · change (text.take (outBase text)).drop (outBase text) = []
      exact List.drop_eq_nil_of_le (List.length_take_le _ _)
    · rw [← h]
      exact decodeAll_outBase text
  obtain ⟨b0, rest, hrest, hdecode, hwritten⟩ := hstart.reader
  refine ⟨_, dedupeLoop_cons hrest, ?_, Dedupe.length_step _ _ _ _ _, ?_⟩
  · rw [Dedupe.step, hdecode]
    rfl
  · rw [Dedupe.step, hdecode]
    refine ⟨⟨hwritten.wrote, hwritten.out, hwritten.lastNonWs, hwritten.room, hwritten.within,
      hwritten.unread⟩, rfl, List.cons_ne_nil _ _, ?_, rfl, ?_⟩
    · intro d hd
      rw [List.mem_singleton.mp hd]
      rfl
    · change outBase text + c.2.length = _
      rw [readLength_singleton]
      rfl

theorem outBase_eq_length_iff : outBase text = text.length ↔ body text = [] := by
  have hdrop := decodeAll_outBase text
  constructor
  · intro h
    rw [h, List.drop_length, decodeAll] at hdrop
    exact hdrop.symm
  · intro h
    rw [h] at hdrop
    have hnil : text.drop (outBase text) = [] := by
      by_contra hne
      exact decodeAll_ne_nil hne hdrop
    have hle := outBase_le text
    have hlength := congrArg List.length hnil
    rw [List.length_drop, List.length_nil] at hlength
    omega

/-- What the first pass is for: the runs without the white space at the end, each cut down. -/
def strippedRuns (maxRepeat : Nat) (text : Bytes) : Bytes :=
  kept maxRepeat ((textRuns text).rdropWhile spaceRun)

theorem kept_rdropWhile_prefix (maxRepeat : Nat) (runs : List (List Cp)) :
    kept maxRepeat (runs.rdropWhile spaceRun) <+: kept maxRepeat runs := by
  refine ⟨kept maxRepeat (runs.rtakeWhile spaceRun), ?_⟩
  rw [kept, kept, ← List.flatMap_append, List.rdropWhile_append_rtakeWhile, kept]

/-- The pass stays behind its reader just when the runs fit, and then leaves what it is for. -/
theorem stripDedupeInplace_spec (text : Bytes) (maxRepeat : Nat) :
    ((∀ c ∈ (stripDedupeInplace text maxRepeat).2, c.1 ≤ c.2) ↔ Fits maxRepeat text) ∧
      (Fits maxRepeat text →
        (stripDedupeInplace text maxRepeat).1 = strippedRuns maxRepeat text) := by
  cases hbody : body text with
  | nil =>
    have hruns : textRuns text = [] := by
      rw [textRuns, hbody]
      rfl
    have hfits : Fits maxRepeat text := by
      rw [fits_iff, hruns]
      trivial
    rw [stripDedupeInplace, strippedRuns, hruns]
    split
    · rename_i hnil
      exact ⟨iff_of_true (by simp) hfits, fun _ => hnil⟩
    · rw [if_pos (outBase_eq_length_iff.mpr hbody)]
      exact ⟨iff_of_true (by simp) hfits, fun _ => rfl⟩
  | cons c cs =>
    have hne : text ≠ [] := by
      rintro rfl
      rw [body, decodeAll] at hbody
      cases hbody
    have hbase : outBase text ≠ text.length := by
      intro h
      rw [outBase_eq_length_iff.mp h] at hbody
      cases hbody
    have hruns : textRuns text = ([c] ++ cs).splitBy sameCp := by
      rw [textRuns, hbody]
      rfl
    obtain ⟨s, hstart, hcursors, hlength, hpending⟩ := pending_start maxRepeat hbody
    obtain ⟨hiff, hend⟩ := hpending.loop
    have hdedupe : dedupe maxRepeat (outBase text) text =
        (dedupeLoop maxRepeat (outBase text) s).flush maxRepeat (outBase text) := by
      rw [dedupe, hstart, if_pos (hasRun_dedupeLoop s hpending.hasRun)]
    rw [← hruns, ← hdedupe] at hiff hend
    rw [List.nil_append] at hend
    rw [stripDedupeInplace, if_neg hne, if_neg hbase, fits_iff]
    refine ⟨?_, ?_⟩
    · rw [hcursors] at hiff
      simpa [kept, readLength] using hiff
    · intro hfits
      obtain ⟨hwritten, hcount⟩ := hend hfits
      have hw := hwritten.wrote
      have hout := hwritten.out
      obtain ⟨more, hmore⟩ := kept_rdropWhile_prefix maxRepeat (textRuns text)
      have hmoreLength := congrArg List.length hmore
      rw [List.length_append] at hmoreLength
      have hroom := hwritten.room
      change ((dedupe maxRepeat (outBase text) text).buf.drop (outBase text)).takeD
        ((dedupe maxRepeat (outBase text) text).written (outBase text)) 0 = _
      rw [hcount, List.takeD_eq_take _ (by rw [List.length_drop]; omega), strippedRuns]
      have htake : (((dedupe maxRepeat (outBase text) text).buf.take
          (dedupe maxRepeat (outBase text) text).w).drop (outBase text)).take
            (kept maxRepeat ((textRuns text).rdropWhile spaceRun)).length =
          kept maxRepeat ((textRuns text).rdropWhile spaceRun) := by
        rw [hout, ← hmore, List.take_left']
        rfl
      rw [List.drop_take, List.take_take, Nat.min_eq_left (by omega)] at htake
      exact htake

/-! ## The specification -/

/-- The code points of a text; a malformed byte is U+FFFD. -/
def cps (text : Bytes) : List Nat := (decodeAll text).map Prod.fst

def encodeAll (cps : List Nat) : Bytes := cps.flatMap encodeCp

def strip (cps : List Nat) : List Nat :=
  (cps.dropWhile isUnicodeSpace).rdropWhile isUnicodeSpace

/-- Runs of more than `maxRepeat` equal code points cut down to `maxRepeat`; 0 leaves them. -/
def collapse (maxRepeat : Nat) (cps : List Nat) : List Nat :=
  if maxRepeat = 0 then cps else (cps.splitBy (· == ·)).flatMap (List.take maxRepeat)

/-- The code points before truncation. -/
def untruncated (text : Bytes) (maxRepeat : Nat) : List Nat := collapse maxRepeat (strip (cps text))

/-- The three steps one after the other. The message has room only if it is shorter than the
limit. -/
def specified (text : Bytes) (opts : SanitizeOptions) : Bytes :=
  let front := untruncated text opts.maxRepeat
  if opts.maxChars = 0 ∨ front.length ≤ opts.maxChars then encodeAll front
  else if opts.truncateMsg ≠ [] ∧ (cps opts.truncateMsg).length < opts.maxChars then
    encodeAll (front.take (opts.maxChars - (cps opts.truncateMsg).length)) ++ opts.truncateMsg
  else encodeAll (front.take opts.maxChars)

/-! ### The runs of the specification -/

/-- A run has one key. -/
theorem key_of_isChain {run : List Cp} (h : run.IsChain fun a b => sameCp a b = true) :
    ∃ cp, ∀ c ∈ run, c.1 = cp := by
  cases run with
  | nil => exact ⟨0, by simp⟩
  | cons c run =>
    refine ⟨c.1, ?_⟩
    induction run generalizing c with
    | nil =>
      intro d hd
      rw [List.mem_singleton.mp hd]
    | cons d run ih =>
      obtain ⟨hcd, hrest⟩ := List.isChain_cons_cons.mp h
      have hkey : c.1 = d.1 := by simpa [sameCp] using hcd
      intro e he
      rcases List.mem_cons.mp he with rfl | he
      · rfl
      · rw [hkey]
        exact ih d hrest e he

theorem rdropWhile_flatten (hkey : ∀ run ∈ runs, run ≠ [] ∧ ∃ cp, ∀ c ∈ run, c.1 = cp) :
    runs.flatten.rdropWhile (fun c => isUnicodeSpace c.1) = (runs.rdropWhile spaceRun).flatten := by
  induction runs using List.reverseRecOn with
  | nil => rfl
  | append_singleton runs run ih =>
    obtain ⟨hruns, hrun⟩ := List.forall_mem_append.mp hkey
    obtain ⟨hne, cp, hcp⟩ := List.forall_mem_singleton.mp hrun
    rw [List.flatten_append, List.flatten_singleton]
    by_cases hspace : spaceRun run = true
    · have hall : ∀ c ∈ run, isUnicodeSpace c.1 = true := List.all_eq_true.mp hspace
      have hdrop : (runs.flatten ++ run).rdropWhile (fun c => isUnicodeSpace c.1) =
          runs.flatten.rdropWhile (fun c => isUnicodeSpace c.1) := by
        rw [List.rdropWhile, List.reverse_append, List.dropWhile_append_of_pos, List.rdropWhile]
        intro c hc
        exact hall c (List.mem_reverse.mp hc)
      rw [hdrop, ih hruns, List.rdropWhile_concat_pos _ _ _ hspace]
    · rw [List.rdropWhile_concat_neg _ _ _ hspace, List.flatten_append, List.flatten_singleton]
      obtain ⟨front, c, rfl⟩ := (List.eq_nil_or_concat' run).resolve_left hne
      rw [spaceRun_eq hne hcp, ← hcp c (by simp)] at hspace
      rw [← List.append_assoc]
      exact List.rdropWhile_concat_neg (fun c : Cp => isUnicodeSpace c.1) _ _ hspace

theorem key_of_mem_splitBy {l run : List Cp} (h : run ∈ l.splitBy sameCp) :
    run ≠ [] ∧ ∃ cp, ∀ c ∈ run, c.1 = cp :=
  ⟨List.ne_nil_of_mem_splitBy h, key_of_isChain (List.isChain_of_mem_splitBy h)⟩

/-- White space at the end goes by whole runs. -/
theorem splitBy_rdropWhile (l : List Cp) :
    (l.rdropWhile fun c => isUnicodeSpace c.1).splitBy sameCp =
      (l.splitBy sameCp).rdropWhile spaceRun := by
  have hflat : l.rdropWhile (fun c => isUnicodeSpace c.1) =
      ((l.splitBy sameCp).rdropWhile spaceRun).flatten := by
    conv_lhs => rw [← List.flatten_splitBy sameCp l]
    exact rdropWhile_flatten fun run hrun => key_of_mem_splitBy hrun
  have hpre := List.rdropWhile_prefix spaceRun (l.splitBy sameCp)
  rw [hflat]
  refine List.splitBy_flatten ?_ ?_ ?_
  · intro hnil
    exact List.nil_notMem_splitBy sameCp l (hpre.mem hnil)
  · intro run hrun
    exact List.isChain_of_mem_splitBy (hpre.mem hrun)
  · exact List.IsChain.prefix (List.isChain_getLast_head_splitBy sameCp l) hpre

theorem splitBy_map_fst (l : List Cp) :
    (l.map Prod.fst).splitBy (· == ·) = (l.splitBy sameCp).map (List.map Prod.fst) := by
  rw [List.splitBy_eq_iff]
  refine ⟨?_, ?_, ?_, ?_⟩
  · rw [← List.map_flatten, List.flatten_splitBy]
  · intro hnil
    obtain ⟨run, hrun, hmap⟩ := List.mem_map.mp hnil
    exact List.ne_nil_of_mem_splitBy hrun (List.map_eq_nil_iff.mp hmap)
  · intro keys hkeys
    obtain ⟨run, hrun, rfl⟩ := List.mem_map.mp hkeys
    rw [List.isChain_map]
    exact List.isChain_of_mem_splitBy hrun
  · rw [List.isChain_map]
    refine (List.isChain_getLast_head_splitBy sameCp l).imp ?_
    rintro a b ⟨ha, hb, hab⟩
    refine ⟨by simpa using ha, by simpa using hb, ?_⟩
    rw [List.getLast_map, List.head_map]
    exact hab

theorem take_keep (maxRepeat : Nat) {α : Type} (run : List α) :
    run.take (keep maxRepeat run.length) = if maxRepeat = 0 then run else run.take maxRepeat := by
  rw [keep]
  split
  · rename_i h
    rw [if_neg h.1]
  · rename_i h
    rw [List.take_length]
    split
    · rfl
    · rw [List.take_of_length_le (by omega)]

/-- The runs that the pass writes are those of the specification. -/
theorem strippedRuns_eq (maxRepeat : Nat) (text : Bytes) :
    strippedRuns maxRepeat text = encodeAll (untruncated text maxRepeat) := by
  have hstrip : strip (cps text) =
      ((body text).rdropWhile fun c => isUnicodeSpace c.1).map Prod.fst := by
    rw [strip, cps, body, List.dropWhile_map, List.rdropWhile, List.rdropWhile, ← List.map_reverse,
      List.dropWhile_map, List.map_reverse]
    rfl
  have hruns : (strip (cps text)).splitBy (· == ·) =
      ((textRuns text).rdropWhile spaceRun).map (List.map Prod.fst) := by
    rw [hstrip, splitBy_map_fst, splitBy_rdropWhile, textRuns]
  have hflat := congrArg List.flatten hruns
  rw [List.flatten_splitBy] at hflat
  rw [untruncated, collapse, hruns, strippedRuns, kept]
  split
  · rename_i hzero
    rw [hflat, encodeAll, List.flatten_eq_flatMap, List.flatMap_assoc, List.flatMap_map]
    refine List.flatMap_congr ?_
    intro run _
    rw [keptRun, take_keep, if_pos hzero, id, List.flatMap_map]
  · rename_i hpos
    rw [encodeAll, List.flatMap_assoc, List.flatMap_map]
    refine List.flatMap_congr ?_
    intro run _
    rw [keptRun, take_keep, if_neg hpos, ← List.map_take, List.flatMap_map]

/-! ### Truncation -/

theorem le_of_mem_untruncated {maxRepeat cp : Nat} (h : cp ∈ untruncated text maxRepeat) :
    cp ≤ 0x10FFFF := by
  have hstrip : ∀ cp ∈ strip (cps text), cp ≤ 0x10FFFF := by
    intro cp hcp
    have hcps := (List.dropWhile_suffix _).mem ((List.rdropWhile_prefix _ _).mem hcp)
    obtain ⟨c, hc, rfl⟩ := List.mem_map.mp hcps
    exact le_of_mem_decodeAll hc
  rw [untruncated, collapse] at h
  split at h
  · exact hstrip cp h
  · obtain ⟨run, hrun, hcp⟩ := List.mem_flatMap.mp h
    refine hstrip cp ?_
    rw [← List.flatten_splitBy (· == ·) (strip (cps text))]
    exact List.mem_flatten.mpr ⟨run, hrun, List.mem_of_mem_take hcp⟩

/-- Written code points are read back. -/
theorem decodeAll_encodeAll (h : ∀ cp ∈ l, cp ≤ 0x10FFFF) (rest : Bytes) :
    decodeAll (encodeAll l ++ rest) = l.map (fun cp => (cp, encodeCp cp)) ++ decodeAll rest := by
  induction l with
  | nil => rfl
  | cons cp l ih =>
    obtain ⟨hcp, hl⟩ := List.forall_mem_cons.mp h
    rw [encodeAll, List.flatMap_cons, List.append_assoc, decodeAll_append (decodes_encodeCp hcp),
      List.map_cons, List.cons_append, ← ih hl, encodeAll]

theorem encodeCp_ne_nil (cp : Nat) : encodeCp cp ≠ [] := by
  rw [encodeCp]
  split_ifs <;> exact List.cons_ne_nil _ _

theorem length_encodeAll_le (l : List Nat) : l.length ≤ (encodeAll l).length := by
  induction l with
  | nil => exact Nat.le_refl _
  | cons cp l ih =>
    have hpos := List.length_pos_iff.mpr (encodeCp_ne_nil cp)
    rw [encodeAll] at ih
    rw [encodeAll, List.flatMap_cons, List.length_append, List.length_cons]
    omega

theorem encodeAll_append (l m : List Nat) : encodeAll (l ++ m) = encodeAll l ++ encodeAll m := by
  rw [encodeAll, List.flatMap_append, encodeAll, encodeAll]

theorem take_decodeAll_encodeAll (h : ∀ cp ∈ l, cp ≤ 0x10FFFF) (n : Nat) :
    ((decodeAll (encodeAll l)).take n).flatMap Prod.snd = encodeAll (l.take n) := by
  have hdecode := decodeAll_encodeAll h []
  rw [List.append_nil, decodeAll, List.append_nil] at hdecode
  rw [hdecode, ← List.map_take, List.flatMap_map]
  rfl

/-- The first code points are the whole text just when there are no more of them. -/
theorem length_take_eq_iff (l : List Nat) (n : Nat) :
    (encodeAll (l.take n)).length = (encodeAll l).length ↔ l.length ≤ n := by
  have hsplit := congrArg List.length (encodeAll_append (l.take n) (l.drop n))
  rw [List.take_append_drop, List.length_append] at hsplit
  have hdrop := length_encodeAll_le (l.drop n)
  rw [List.length_drop] at hdrop
  constructor
  · intro h
    omega
  · intro h
    rw [List.take_of_length_le h]

theorem length_cps (text : Bytes) : (cps text).length = (codePoints text).length := by
  rw [cps, List.length_map, ← map_snd_decodeAll, List.length_map]

/-- Truncating well-formed text. -/
theorem truncateInplace_spec (h : ∀ cp ∈ l, cp ≤ 0x10FFFF) (maxChars : Nat) (msg : Bytes) :
    truncateInplace (encodeAll l) maxChars msg =
      if maxChars = 0 ∨ l.length ≤ maxChars then (encodeAll l, false)
      else if msg ≠ [] ∧ (cps msg).length < maxChars then
        (encodeAll (l.take (maxChars - (cps msg).length)) ++ msg, true)
      else (encodeAll (l.take maxChars), true) := by
  rw [truncateInplace]
  simp only [take_decodeAll_encodeAll h, length_take_eq_iff]
  by_cases hzero : maxChars = 0
  · rw [if_pos hzero, if_pos (.inl hzero)]
  · rw [if_neg hzero]
    by_cases hfits : l.length ≤ maxChars
    · rw [if_pos hfits, if_pos (.inr hfits)]
    · have hlong : ¬(maxChars = 0 ∨ l.length ≤ maxChars) := by omega
      rw [if_neg hfits]
      by_cases hnil : msg = []
      · simp only [hnil, hlong, ne_eq, not_true_eq_false, false_and, if_false, if_true]
      · have hcount : utf8CodePointCount msg = (cps msg).length := by
          rw [utf8CodePointCount_eq, length_cps]
        have hpos : 0 < (cps msg).length := by
          rw [cps, List.length_map]
          exact List.length_pos_iff.mpr (decodeAll_ne_nil hnil)
        simp only [hnil, hlong, ne_eq, not_false_eq_true, true_and, if_false, hcount]
        by_cases hroom : (cps msg).length < maxChars
        · rw [if_pos hroom, if_pos hroom, if_neg (by omega)]
        · rw [if_neg hroom, if_neg hroom, if_pos rfl]

/-! ## The claim of the pass -/

/-- The cursors stay in order, and the result, its length and the flag are those of the three
steps. -/
structure Sanitizes (text : Bytes) (opts : SanitizeOptions) : Prop where
  inPlace : ∀ c ∈ (stripDedupeInplace text opts.maxRepeat).2, c.1 ≤ c.2
  result : (sanitizePostNfc text opts).1 = specified text opts
  bound : 0 < opts.maxChars → (cps (sanitizePostNfc text opts).1).length ≤ opts.maxChars
  truncated : (sanitizePostNfc text opts).2 = true ↔
    0 < opts.maxChars ∧ opts.maxChars < (untruncated text opts.maxRepeat).length

theorem cps_encodeAll_append (h : ∀ cp ∈ l, cp ≤ 0x10FFFF) (rest : Bytes) :
    cps (encodeAll l ++ rest) = l ++ cps rest := by
  rw [cps, decodeAll_encodeAll h, List.map_append, List.map_map, cps]
  congr 1
  exact List.map_id l

theorem cps_encodeAll (h : ∀ cp ∈ l, cp ≤ 0x10FFFF) : cps (encodeAll l) = l := by
  have hcps := cps_encodeAll_append h []
  have hnil : cps [] = [] := by rw [cps, decodeAll, List.map_nil]
  rwa [List.append_nil, hnil, List.append_nil] at hcps

/-- Sanitizing is what it is specified to be just when the runs fit. -/
theorem sanitizes_iff (text : Bytes) (opts : SanitizeOptions) :
    Sanitizes text opts ↔ Fits opts.maxRepeat text := by
  obtain ⟨hcursors, hresult⟩ := stripDedupeInplace_spec text opts.maxRepeat
  constructor
  · intro h
    exact hcursors.mp h.inPlace
  · intro hfits
    have hle : ∀ cp ∈ untruncated text opts.maxRepeat, cp ≤ 0x10FFFF := fun cp hcp =>
      le_of_mem_untruncated hcp
    have hletake (n : Nat) : ∀ cp ∈ (untruncated text opts.maxRepeat).take n, cp ≤ 0x10FFFF :=
      fun cp hcp => hle cp (List.mem_of_mem_take hcp)
    have hpost : sanitizePostNfc text opts =
        truncateInplace (encodeAll (untruncated text opts.maxRepeat)) opts.maxChars
          opts.truncateMsg := by
      rw [sanitizePostNfc, hresult hfits, strippedRuns_eq]
    rw [truncateInplace_spec hle] at hpost
    refine ⟨hcursors.mpr hfits, ?_, ?_, ?_⟩
    · rw [hpost, specified]
      simp only [apply_ite Prod.fst]
    · intro hpos
      rw [hpost]
      split
      · rename_i h
        rw [cps_encodeAll hle]
        omega
      · split
        · rename_i hroom
          rw [cps_encodeAll_append (hletake _), List.length_append, List.length_take]
          omega
        · rw [cps_encodeAll (hletake _), List.length_take]
          omega
    · rw [hpost]
      split
      · rename_i h
        simp only [Bool.false_eq_true, false_iff]
        omega
      · rename_i h
        split
        · simp only [true_iff]
          omega
        · simp only [true_iff]
          omega

/-- A single malformed byte is written in three. -/
theorem not_sanitizes_malformed : ¬Sanitizes [0xFF#8] {} := by
  have hdecode : decodeAll [0xFF#8] = [(0xFFFD, [0xFF#8])] := by
    rw [decodeAll, show decodeCp 0xFF#8 [] = (0xFFFD, 1) by decide]
    simp [decodeAll]
  have hruns : textRuns [0xFF#8] = [[(0xFFFD, [0xFF#8])]] := by
    rw [textRuns, body, hdecode]
    decide
  intro h
  have hfits := (stripDedupeInplace_spec [0xFF#8] 100).1.mp h.inPlace
  have hfirst := hfits [[(0xFFFD, [0xFF#8])]] [] hruns (List.cons_ne_nil _ _)
  exact absurd hfirst (by decide)

end KimixNative.Text.Sanitize
