import KimixNative.Tools.Hashline
import KimixNative.Tools.LineBreaks

/-!
# The three line hashes compared

Line by line the three agree: streaming makes the same digest, and the decoders keep the same
bytes of a line that has no overlong sequence. They part where the edit tool ends a line and
the other two do not.
-/

namespace KimixNative.Tools

open Text

/-! ### The streamed digest -/

/-- The stream has taken `xs`. -/
structure Absorbed (seed : Word) (xs : Bytes) (st : Xxh32Stream) : Prop where
  seed_eq : st.seed = seed
  lanes_eq : st.lanes = (absorb 16 Lanes.stripe (Lanes.init seed) xs).1
  totalLen_eq : st.totalLen = BitVec.ofNat 32 xs.length
  largeLen_eq : st.largeLen = decide (16 ≤ xs.length)
  mem_eq : st.mem = (absorb 16 Lanes.stripe (Lanes.init seed) xs).2

theorem absorbed_start (seed : Word) : Absorbed seed [] (Xxh32Stream.start seed) :=
  ⟨rfl, rfl, rfl, rfl, rfl⟩

theorem largeLen_update (m n : Nat) :
    (decide (16 ≤ m) || decide (16 ≤ n) ||
      decide (16 ≤ (BitVec.ofNat 32 m + BitVec.ofNat 32 n).toNat)) = decide (16 ≤ m + n) := by
  rw [Bool.eq_iff_iff]
  simp only [Bool.or_eq_true, decide_eq_true_eq, BitVec.toNat_add, BitVec.toNat_ofNat]
  omega

variable {seed : Word} {st : Xxh32Stream} {lines : List Bytes}

variable {xs content : Bytes} {f : LineFilter} {shorter : List Bytes}

theorem Absorbed.update (h : Absorbed seed xs st) (ys : Bytes) :
    Absorbed seed (xs ++ ys) (st.update ys) := by
  have happend := @absorb_append Byte Lanes 16 Lanes.stripe (by decide) (Lanes.init seed) xs ys
  have hshort := @absorb_rest_lt Byte Lanes 16 Lanes.stripe (by decide) (Lanes.init seed) xs
  have htotal : st.totalLen + BitVec.ofNat 32 ys.length = BitVec.ofNat 32 (xs ++ ys).length := by
    rw [h.totalLen_eq, List.length_append, BitVec.ofNat_add]
  have hlarge : (st.largeLen || decide (16 ≤ ys.length) ||
      decide (16 ≤ (st.totalLen + BitVec.ofNat 32 ys.length).toNat)) =
        decide (16 ≤ (xs ++ ys).length) := by
    rw [h.largeLen_eq, h.totalLen_eq, largeLen_update, List.length_append]
  rw [← h.lanes_eq, ← h.mem_eq] at happend
  rw [← h.mem_eq] at hshort
  simp only [Xxh32Stream.update]
  by_cases hfits : st.mem.length + ys.length < 16
  · rw [if_pos hfits]
    have hrest : absorb 16 Lanes.stripe st.lanes (st.mem ++ ys) = (st.lanes, st.mem ++ ys) :=
      absorb_short _ (by rw [List.length_append]; exact hfits)
    rw [hrest] at happend
    exact ⟨h.seed_eq, by rw [happend], htotal, hlarge, by rw [happend]⟩
  · rw [if_neg hfits]
    by_cases hmem : 0 < st.mem.length
    · -- the waiting bytes are filled up to a stripe
      have hblock : (st.mem ++ ys.take (16 - st.mem.length)).length = 16 := by
        rw [List.length_append, List.length_take_of_le (by omega)]
        omega
      have hsplit : st.mem ++ ys = (st.mem ++ ys.take (16 - st.mem.length)) ++
          ys.drop (16 - st.mem.length) := by
        rw [List.append_assoc, List.take_append_drop]
      rw [hsplit, absorb_block (by decide) _ hblock] at happend
      simp only [if_pos hmem]
      exact ⟨h.seed_eq, by rw [happend], htotal, hlarge, by rw [happend]⟩
    · have hnil : st.mem = [] := List.eq_nil_of_length_eq_zero (by omega)
      rw [hnil, List.nil_append] at happend
      simp only [if_neg hmem]
      exact ⟨h.seed_eq, by rw [happend], htotal, hlarge, by rw [happend]⟩

/-- The digest of the stream is the hash of what it has taken. -/
theorem Absorbed.digest (h : Absorbed seed xs st) : st.digest = xxh32 xs seed := by
  simp only [Xxh32Stream.digest, xxh32, h.seed_eq, h.lanes_eq, h.totalLen_eq, h.largeLen_eq,
    h.mem_eq, decide_eq_true_eq]

/-! ### The filter of the runtime -/

/-- What the filter has come to: the bytes `done` that are not blank, the last of them waiting. -/
structure Filtered (seed : Word) (done : Bytes) (seen : Bool) (f : LineFilter) : Prop where
  absorbed : ∃ xs, Absorbed seed xs f.stream ∧ xs ++ f.seg = done
  seen_eq : f.hasSignificant = seen

theorem Filtered.flush {done : Bytes} {seen : Bool} (h : Filtered seed done seen f) :
    Filtered seed done seen f.flush ∧ f.flush.seg = [] := by
  obtain ⟨⟨xs, habsorbed, hdone⟩, hseen⟩ := h
  rw [LineFilter.flush]
  split
  · rename_i hnil
    exact ⟨⟨⟨xs, habsorbed, hdone⟩, hseen⟩, hnil⟩
  · refine ⟨⟨⟨done, ?_, List.append_nil _⟩, hseen⟩, rfl⟩
    rw [← hdone]
    exact habsorbed.update f.seg

theorem kept_cons (b0 : Byte) (rest : Bytes) :
    kept decodeCp (b0 :: rest) =
      (if isPySpaceCp (decodeCp b0 rest).1 then [] else (b0 :: rest).take (decodeCp b0 rest).2) ++
        kept decodeCp ((b0 :: rest).drop (decodeCp b0 rest).2) := by
  rw [kept, kept, scan_cons decodeCp_lawful, keptBytes, List.filter_cons]
  cases isPySpaceCp (decodeCp b0 rest).1 <;> rfl

theorem significant_cons (b0 : Byte) (rest : Bytes) :
    significant decodeCp (b0 :: rest) =
      (isAlnumCp (decodeCp b0 rest).1 ||
        significant decodeCp ((b0 :: rest).drop (decodeCp b0 rest).2)) := by
  rw [significant, scan_cons decodeCp_lawful, List.any_cons]
  rfl

theorem filterLineLoop_spec {fuel : Nat} {line done : Bytes} {seen : Bool}
    (hfuel : line.length ≤ fuel) (h : Filtered seed done seen f) :
    Filtered seed (done ++ kept decodeCp line) (seen || significant decodeCp line)
        (filterLineLoop fuel f line) ∧
      (filterLineLoop fuel f line).seg = [] := by
  induction fuel generalizing line done seen f with
  | zero =>
    obtain rfl := List.eq_nil_of_length_eq_zero (Nat.le_zero.mp hfuel)
    have hflush := h.flush
    rw [← List.append_nil done, ← Bool.or_false seen] at hflush
    exact hflush
  | succ fuel ih =>
    cases line with
    | nil =>
      have hflush := h.flush
      rw [← List.append_nil done, ← Bool.or_false seen] at hflush
      exact hflush
    | cons b0 rest =>
      rw [List.length_cons] at hfuel
      rw [kept_cons, significant_cons, ← List.append_assoc, ← Bool.or_assoc]
      have hlen := (cpLength_bounds b0 rest).1
      simp only [cpLength] at hlen
      have hfit : ((b0 :: rest).drop (decodeCp b0 rest).2).length ≤ fuel := by
        rw [List.length_drop, List.length_cons]
        omega
      simp only [filterLineLoop]
      by_cases hascii : b0.toNat < 0x80
      · rw [if_pos hascii]
        rw [decodeCp_ascii hascii] at hfit ⊢
        simp only [List.take_succ_cons, List.take_zero, List.drop_succ_cons, List.drop_zero]
          at hfit ⊢
        by_cases hspace : isPySpaceCp b0.toNat = true
        · rw [if_pos hspace, if_pos hspace, isAlnumCp_of_isPySpaceCp hspace, List.append_nil,
            Bool.or_false]
          exact ih hfit h.flush.1
        · rw [if_neg hspace, if_neg hspace]
          obtain ⟨xs, habsorbed, hdone⟩ := h.absorbed
          refine ih hfit ⟨⟨xs, habsorbed, ?_⟩, by rw [h.seen_eq]⟩
          rw [← hdone, List.append_assoc]
      · rw [if_neg hascii]
        obtain ⟨hflush, hseg⟩ := h.flush
        by_cases hspace : isPySpaceCp (decodeCp b0 rest).1 = true
        · rw [if_pos hspace, if_pos hspace, isAlnumCp_of_isPySpaceCp hspace, List.append_nil,
            Bool.or_false]
          exact ih hfit hflush
        · rw [if_neg hspace, if_neg hspace]
          obtain ⟨xs, habsorbed, hdone⟩ := hflush.absorbed
          rw [hseg, List.append_nil] at hdone
          refine ih hfit ⟨⟨_, habsorbed.update _, ?_⟩, by rw [hflush.seen_eq]⟩
          rw [hseg, List.append_nil, hdone]

/-- The filter puts the bytes that are not blank into the stream. -/
theorem filterLineInto_spec (seed : Word) (line : Bytes) :
    (filterLineInto (Xxh32Stream.start seed) line).stream.digest = xxh32 (kept decodeCp line) seed ∧
      (filterLineInto (Xxh32Stream.start seed) line).hasSignificant = significant decodeCp line := by
  have hstart : Filtered seed [] false { stream := Xxh32Stream.start seed } :=
    ⟨⟨[], absorbed_start seed, rfl⟩, rfl⟩
  obtain ⟨⟨⟨xs, habsorbed, hdone⟩, hseen⟩, hseg⟩ := filterLineLoop_spec le_rfl hstart
  rw [hseg, List.append_nil] at hdone
  rw [hdone] at habsorbed
  exact ⟨habsorbed.digest, by rw [filterLineInto, hseen, Bool.false_or]⟩

/-! ### The chain of the runtime -/

/-- The stream after any updates has taken what they brought, in order. -/
theorem absorbed_updates (seed : Word) (chunks : List Bytes) (h : Absorbed seed xs st) :
    Absorbed seed (xs ++ chunks.flatten) (chunks.foldl Xxh32Stream.update st) := by
  induction chunks generalizing xs st with
  | nil =>
    rw [List.flatten_nil, List.append_nil]
    exact h
  | cons chunk rest ih =>
    rw [List.flatten_cons, ← List.append_assoc]
    exact ih (h.update chunk)

/-- `runtime::tools::compute_line_hash`. -/
def runtimeComputeLineHash (line : Bytes) (seed : Word) : Nat :=
  (filterLineInto (Xxh32Stream.start seed) (stripCR line)).stream.digest.toNat % 256

/-- The seed of the line behind the lines with these hashes. -/
def chainedSeed (seed : Word) (hashes : List Nat) (line : Bytes) : Word :=
  match hashes.getLast? with
  | some prevHash => seedOfByte prevHash
  | none => if significant decodeCp (stripCR line) then seed else 1

/-- One line more: its hash goes behind the hashes of the lines before it. -/
def chainLine (seed : Word) (hashes : List Nat) (line : Bytes) : List Nat :=
  hashes ++ [runtimeComputeLineHash line (chainedSeed seed hashes line)]

theorem runtimeLineHashesFrom_some (seed : Word) (lineNum : Nat) {prev : Nat} {hashes : List Nat}
    (hprev : hashes.getLast? = some prev) (lines : List Bytes) :
    hashes ++ runtimeLineHashesFrom seed lineNum (some prev) lines =
      lines.foldl (chainLine seed) hashes := by
  induction lines generalizing lineNum prev hashes with
  | nil => exact List.append_nil hashes
  | cons line rest ih =>
    have hstep : chainLine seed hashes line =
        hashes ++ [runtimeComputeLineHash line (seedOfByte prev)] := by
      simp only [chainLine, chainedSeed, hprev]
    rw [List.foldl_cons, hstep, ← ih (lineNum + 1) List.getLast?_concat, List.append_assoc]
    rfl

/-- However the bytes are cut into updates the digest is the hash of them all; the hash of a line
is that of its bytes that are not blank, and the hashes are chained from line to line. -/
theorem streamedHash_eq_xxh32 (seed : Word) :
    (∀ chunks : List Bytes, (chunks.foldl Xxh32Stream.update (Xxh32Stream.start seed)).digest =
        xxh32 chunks.flatten seed) ∧
      (∀ line, runtimeComputeLineHash line seed =
        (xxh32 (keptBytes isPySpaceCp (scan decodeCp (stripCR line))) seed).toNat % 256) ∧
      ∀ content, runtimeComputeLineHashes content seed =
        (newlineLines content).foldl (chainLine seed) [] := by
  refine ⟨?_, ?_, ?_⟩
  · intro chunks
    exact (absorbed_updates seed chunks (absorbed_start seed)).digest
  · intro line
    rw [runtimeComputeLineHash, (filterLineInto_spec seed (stripCR line)).1]
    rfl
  · intro content
    rw [runtimeComputeLineHashes]
    cases newlineLines content with
    | nil => rfl
    | cons line rest =>
      have hstep : chainLine seed [] line = [runtimeComputeLineHash line
          (if significant decodeCp (stripCR line) then seed else 1)] := rfl
      rw [List.foldl_cons, hstep, ← runtimeLineHashesFrom_some seed 2 List.getLast?_singleton]
      simp only [runtimeLineHashesFrom, (filterLineInto_spec seed (stripCR line)).2,
        runtimeComputeLineHash]
      rfl

/-! ### Line by line -/

/-- The hash of a line by what is kept of it. -/
def lineHash (lineNum : Nat) (prev : Option Nat) (keptBytes : Bytes) (significant : Bool) : Nat :=
  let seed :=
    match prev with
    | some prevHash => seedOfByte prevHash
    | none => if significant then 0 else BitVec.ofNat 32 lineNum
  (xxh32 keptBytes seed).toNat % 256

/-- The chain of hashes over lines by what is kept of them. -/
def hashChain : Nat → Option Nat → List (Bytes × Bool) → List Nat
  | _, _, [] => []
  | lineNum, prev, line :: rest =>
    let h := lineHash lineNum prev line.1 line.2
    h :: hashChain (lineNum + 1) (some h) rest

/-- What the chain takes of a line. -/
def digestOf (line : Bytes) : Bytes × Bool := (kept decodeCp line, significant decodeCp line)

theorem rdLineHashesFrom_eq (lineNum : Nat) (prev : Option Nat) (lines : List Bytes) :
    rdLineHashesFrom lineNum prev lines = hashChain lineNum prev (lines.map digestOf) := by
  induction lines generalizing lineNum prev with
  | nil => rfl
  | cons line rest ih =>
    obtain ⟨hkept, hsignificant⟩ := kept_stripCR line
    obtain ⟨hrdKept, hrdSignificant⟩ := kept_rdDecode (stripCR line)
    have hsees : rdLineHasSignificant line = significant decodeCp line := by
      rw [← hsignificant, ← hrdSignificant]
      rfl
    have hcore : ∀ seed, rdHashLineCore line seed = (xxh32 (kept decodeCp line) seed).toNat % 256 := by
      intro seed
      rw [rdHashLineCore, keptBytes_rdIsSpaceCp, ← hkept, ← hrdKept]
      rfl
    cases prev <;>
      simp only [rdLineHashesFrom, List.map_cons, hashChain, digestOf, hcore, hsees, ih, lineHash]

theorem runtimeLineHashesFrom_eq (lineNum : Nat) (prev : Option Nat) (lines : List Bytes) :
    runtimeLineHashesFrom 0 lineNum prev lines = hashChain lineNum prev (lines.map digestOf) := by
  induction lines generalizing lineNum prev with
  | nil => rfl
  | cons line rest ih =>
    obtain ⟨hkept, hsignificant⟩ := kept_stripCR line
    cases prev <;>
      simp only [runtimeLineHashesFrom, List.map_cons, hashChain, digestOf, ih, lineHash,
        (filterLineInto_spec _ (stripCR line)).1, (filterLineInto_spec _ (stripCR line)).2, hkept,
        hsignificant]

/-- The read tool and the runtime agree on every content. -/
theorem computeLineHashStrings_eq (content : Bytes) :
    computeLineHashStrings content = (runtimeComputeLineHashes content 0).map nibbleStr := by
  rw [computeLineHashStrings, rdLineHashesFrom_eq, runtimeComputeLineHashes,
    runtimeLineHashesFrom_eq]

theorem seedOfHash_nibbleStr {h : Nat} (hh : h < 256) : seedOfHash (nibbleStr h) = seedOfByte h := by
  have hhigh : h / 16 % 16 = h / 16 := Nat.mod_eq_of_lt (by omega)
  rw [nibbleStr, hhigh, seedOfHash, seedOfByte]
  simp only [List.foldl_cons, List.foldl_nil, BitVec.ofNat_add, BitVec.ofNat_mul]
  simp

/-- The edit tool's chain is the same where no line has an overlong sequence. -/
theorem computeLineHashesFrom_eq (hlines : ∀ line ∈ lines, NoOverlong line) (lineNum : Nat)
    {prev : Option Nat} (hprev : ∀ h ∈ prev, h < 256) :
    computeLineHashesFrom lineNum (prev.map nibbleStr) lines =
      (hashChain lineNum prev (lines.map digestOf)).map nibbleStr := by
  induction lines generalizing lineNum prev with
  | nil => rfl
  | cons line rest ih =>
    have hline := hlines line List.mem_cons_self
    have hstrip : NoOverlong (stripCR line) := hline.stripCR
    obtain ⟨hkept, hsignificant⟩ := kept_stripCR line
    obtain ⟨heditKept, heditSignificant⟩ := kept_decodeCodePoint hstrip
    have hhash : computeLineHash lineNum line (prev.map nibbleStr) =
        nibbleStr (lineHash lineNum prev (kept decodeCp line) (significant decodeCp line)) := by
      have hfiltered : keptBytes isPySpaceCp (scan decodeCodePoint (stripCR line)) =
          kept decodeCp line := heditKept.trans hkept
      cases prev with
      | none =>
        simp only [computeLineHash, hasSignificant_eq, heditSignificant, hsignificant, lineHash,
          hfiltered, Option.map_none]
      | some h =>
        simp only [computeLineHash, lineHash, hfiltered, Option.map_some,
          seedOfHash_nibbleStr (hprev h rfl)]
    simp only [computeLineHashesFrom, List.map_cons, hashChain, digestOf, hhash]
    congr 1
    exact @ih (fun l hl => hlines l (List.mem_cons_of_mem line hl)) (lineNum + 1) (some _)
      (fun h hh => by
        obtain rfl := Option.mem_some_iff.mp hh
        exact Nat.mod_lt _ (by decide))

/-! ### The whole content -/

theorem isInfix_newlineLinesFrom {line rest l : Bytes} (h : l ∈ newlineLinesFrom line rest) :
    l <:+: line ++ rest := by
  induction rest generalizing line with
  | nil =>
    rw [newlineLinesFrom] at h
    split at h
    · exact absurd h List.not_mem_nil
    · obtain rfl := List.mem_singleton.mp h
      exact (List.append_nil l).symm ▸ List.infix_rfl
  | cons c rest ih =>
    rw [newlineLinesFrom] at h
    split at h
    · rcases List.mem_cons.mp h with rfl | h
      · exact (List.prefix_append l (c :: rest)).isInfix
      · exact (ih h).trans ((List.suffix_cons c rest).trans (List.suffix_append line _)).isInfix
    · have := ih h
      rwa [List.append_assoc, List.singleton_append] at this

/-- The lines that the edit tool hashes. -/
def editLines (content : Bytes) : List Bytes := splitLines (normalizeNewlines content)

/-- Without other separators the edit tool's lines are the others' up to blanks at the end. -/
theorem editLines_trails (h : OnlyNewlines (normalizeNewlines content)) :
    List.Forall₂ Trails (newlineLines content) (editLines content) :=
  trails_trans (newlineLines_normalize content []) (splitLines_trails h [])

theorem digests_of_trails (h : List.Forall₂ Trails lines shorter) :
    lines.map digestOf = shorter.map digestOf := by
  induction h with
  | nil => rfl
  | cons hhead _ ih =>
    obtain ⟨tail, htail, rfl⟩ := hhead
    obtain ⟨hkept, hsignificant⟩ := htail.kept_append _
    rw [List.map_cons, List.map_cons, ih, digestOf, digestOf, hkept, hsignificant]

theorem noOverlong_of_trails (h : List.Forall₂ Trails lines shorter)
    (hlines : ∀ l ∈ lines, NoOverlong l) : ∀ l ∈ shorter, NoOverlong l := by
  induction h with
  | nil => exact hlines
  | cons hhead _ ih =>
    obtain ⟨tail, -, rfl⟩ := hhead
    intro l hl
    rcases List.mem_cons.mp hl with rfl | hl
    · exact (hlines _ List.mem_cons_self).part (List.prefix_append l tail).isInfix
    · exact ih (fun l hl => hlines l (List.mem_cons_of_mem _ hl)) l hl

theorem length_hashChain (lineNum : Nat) (prev : Option Nat) (lines : List (Bytes × Bool)) :
    (hashChain lineNum prev lines).length = lines.length := by
  induction lines generalizing lineNum prev with
  | nil => rfl
  | cons line rest ih => rw [hashChain, List.length_cons, List.length_cons, ih]

theorem length_computeLineHashes (lines : List Bytes) :
    (computeLineHashes lines).length = lines.length := by
  have hlength : ∀ (l : List Bytes) lineNum prev,
      (computeLineHashesFrom lineNum prev l).length = l.length := by
    intro l
    induction l with
    | nil => exact fun _ _ => rfl
    | cons line rest ih =>
      intro lineNum prev
      rw [computeLineHashesFrom, List.length_cons, List.length_cons, ih]
  exact hlength lines 1 none

/-- The three lists of hashes are one list, and an anchor made of a line's number and hash is
accepted. -/
structure AnchorsAgree (content : Bytes) : Prop where
  runtime : computeLineHashStrings content = (runtimeComputeLineHashes content 0).map nibbleStr
  edit : computeLineHashes (editLines content) = computeLineHashStrings content
  accepted : ∀ (i : Nat) hash, (computeLineHashStrings content)[i]? = some hash → ∀ v,
    validateAnchorRef ⟨(i : Int) + 1, hash⟩ (editLines content) v = v

/-- The hash of a line is accepted as its anchor. -/
theorem validateAnchorRef_own {i : Nat} {hash : Bytes}
    (h : (computeLineHashes lines)[i]? = some hash) (v : Validation) :
    validateAnchorRef ⟨(i : Int) + 1, hash⟩ lines v = v := by
  have hi : i < lines.length := by
    rw [← length_computeLineHashes]
    exact (List.getElem?_eq_some_iff.mp h).1
  have hget : (computeLineHashes lines).getD ((i : Int) + 1 - 1).toNat [] = hash := by
    rw [Int.add_sub_cancel, Int.toNat_natCast, List.getD_eq_getElem?_getD, h, Option.getD_some]
  have hlow : ¬(i : Int) + 1 < 1 := by omega
  have hhigh : ¬(i : Int) + 1 > (lines.length : Int) := by omega
  simp only [validateAnchorRef, if_neg hlow, if_neg hhigh, hget, if_true]

theorem computeLineHashes_editLines (honly : OnlyNewlines (normalizeNewlines content))
    (hvalid : NoOverlong content) :
    computeLineHashes (editLines content) = computeLineHashStrings content := by
  have htrails := editLines_trails honly
  have hlines : ∀ l ∈ newlineLines content, NoOverlong l :=
    fun l hl => hvalid.part (isInfix_newlineLinesFrom hl)
  have hchain := computeLineHashesFrom_eq (noOverlong_of_trails htrails hlines) 1
    (fun h (hh : h ∈ none) => nomatch hh)
  rw [computeLineHashStrings, rdLineHashesFrom_eq, digests_of_trails htrails]
  exact hchain

end KimixNative.Tools
