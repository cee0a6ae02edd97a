import KimixNative.Agent.Yyjson
import Mathlib.Data.List.Lex
import Mathlib.Data.List.TakeWhile

/-!
# Canonical tool arguments

Two calls are one call when the canonical texts of their arguments are equal. The repairs of the
agent and its loop guard each have a recursive copy with sorted keys. The guard's copy keeps the
value. The other one copies a text up to its first zero byte and stores every integer signed.
-/

namespace KimixNative.Agent

open Text KeyedTree

/-! ## The two copies -/

/-- The order of `kimix::string`: byte by byte, unsigned. -/
def keyLt (a b : Bytes) : Bool := decide (a.map BitVec.toNat < b.map BitVec.toNat)

/-- What `yyjson_mut_strcpy` takes of a text: the bytes before the first zero. -/
def cString (s : Bytes) : Bytes := s.takeWhile (· != 0)

/-- The scalars of `sorted_copy`: `yyjson_is_int` holds of an unsigned integer as well, and
`yyjson_get_sint` gives its word. -/
def sortedScalar : Scalar → Scalar
  | .str s => .str (cString s)
  | .bool b => .bool b
  | .uint n => .sint n
  | .sint n => .sint n
  | .real bits => .real bits
  | .null => .null

/-- `sorted_copy`. -/
def sortedCopy (S : Sorter) (j : JsonDoc) : JsonDoc := j.sortedWith S keyLt cString sortedScalar

/-- `mut_copy_sorted`. -/
def mutCopySorted (S : Sorter) (j : JsonDoc) : JsonDoc := j.sortedWith S keyLt id id

/-- `agent::canonical_tool_arguments`. -/
def canonicalToolArguments (yy : Yyjson) (S : Sorter) (arguments : Bytes) : Bytes :=
  if arguments = [] then arguments
  else
    match yy.readStop arguments with
    | none => arguments
    | some root => (yy.write (sortedCopy S root)).getD arguments

/-- `ToolLoopGuard::canonical_tool_arguments`. -/
def guardToolArguments (yy : Yyjson) (S : Sorter) (arguments : Bytes) : Bytes :=
  if arguments = [] then []
  else
    match yy.read arguments with
    | none => arguments
    | some root => (yy.write (mutCopySorted S root)).getD []

/-! ## Canonical forms -/

/-- What a canonical form is for, at two texts with their documents: it keeps the value, it is one
text exactly for equal values, and it is its own canonical form. -/
structure Canonical (yy : Yyjson) (canon : Bytes → Bytes) (t u : Bytes) (j k : JsonDoc) : Prop where
  keeps : (∃ c, yy.read (canon t) = some c ∧ Same (JsonDoc.value j) (JsonDoc.value c)) ∧
    ∃ c, yy.read (canon u) = some c ∧ Same (JsonDoc.value k) (JsonDoc.value c)
  one : canon t = canon u ↔ Same (JsonDoc.value j) (JsonDoc.value k)
  idem : canon (canon t) = canon t ∧ canon (canon u) = canon u

/-- The two forms of two texts are one form, and it is canonical. -/
structure FormsAgree (yy : Yyjson) (S : Sorter) (t u : Bytes) (j k : JsonDoc) : Prop where
  agree : canonicalToolArguments yy S t = guardToolArguments yy S t ∧
    canonicalToolArguments yy S u = guardToolArguments yy S u
  tool : Canonical yy (canonicalToolArguments yy S) t u j k
  guard : Canonical yy (guardToolArguments yy S) t u j k

/-- Without zero bytes and without integers from 2^63 on. -/
def Atom.Intact : Atom → Prop
  | .str s => 0 ∉ s
  | .int n => n < 2 ^ 63
  | _ => True

def IntactValue (v : KeyedTree Bytes Atom) : Prop := v.Each (0 ∉ ·) Atom.Intact

/-! ### Texts up to a zero byte -/

theorem cString_eq_iff {s : Bytes} : cString s = s ↔ 0 ∉ s := by
  rw [cString, List.takeWhile_eq_self_iff]
  simp only [bne_iff_ne, ne_eq]
  exact ⟨fun h h0 => h 0 h0 rfl, fun h b hb h0 => h (h0 ▸ hb)⟩

theorem isChar_zero {c : Bytes} (h : IsChar c) (h0 : 0 ∈ c) : c = [0] := by
  cases h <;> simp only [List.mem_cons, List.not_mem_nil, or_false] at h0
  case one => rw [h0]
  case two ha hb =>
    rcases h0 with rfl | rfl
    · exact absurd ha.1 (by decide)
    · exact absurd hb (by decide)
  case three ha hb hc long surrogate =>
    rcases h0 with rfl | rfl | rfl
    · exact absurd ha.1 (by decide)
    · exact absurd hb (by decide)
    · exact absurd hc (by decide)
  case four ha hb hc hd long top =>
    rcases h0 with rfl | rfl | rfl | rfl
    · exact absurd ha.1 (by decide)
    · exact absurd hb (by decide)
    · exact absurd hc (by decide)
    · exact absurd hd (by decide)

/-- A valid text is valid up to its first zero byte. -/
theorem validUtf8_cString {s : Bytes} (h : ValidUtf8 s) : ValidUtf8 (cString s) := by
  obtain ⟨chars, hchars, rfl⟩ := h
  induction chars with
  | nil => exact ValidUtf8.nil
  | cons c chars ih =>
    obtain ⟨hc, hrest⟩ := List.forall_mem_cons.mp hchars
    rw [List.flatten_cons]
    by_cases h0 : 0 ∈ c
    · rw [isChar_zero hc h0]
      exact ValidUtf8.nil
    · have hself : ∀ b ∈ c, (b != 0) = true := by
        intro b hb
        rw [bne_iff_ne]
        rintro rfl
        exact h0 hb
      rw [cString, List.takeWhile_append_of_pos hself]
      exact ValidUtf8.append ⟨[c], List.forall_mem_singleton.mpr hc, by simp⟩ (ih hrest)

/-! ### The copies by their values -/

section Forms

variable {yy : Yyjson} {S : Sorter}

theorem map_toNat_injective : Function.Injective (List.map (BitVec.toNat (w := 8))) :=
  List.map_injective_iff.mpr fun _ _ => BitVec.eq_of_toNat_eq

theorem keyLt_iff (a b : Bytes) :
    keyLt a b = true ↔ a.map BitVec.toNat < b.map BitVec.toNat := by
  rw [keyLt, decide_eq_true_eq]

variable {j : JsonDoc}

theorem value_mutCopySorted (hj : j.Distinct) :
    JsonDoc.value (mutCopySorted S j) = (JsonDoc.value j).arrange S keyLt :=
  (arrange_bimap Scalar.value map_toNat_injective keyLt_iff hj).symm

theorem writable_mutCopySorted (hj : j.Distinct) (h : JsonDoc.Writable j) :
    JsonDoc.Writable (mutCopySorted S j) :=
  (same_arrange S keyLt hj).each h

theorem writable_sortedCopy (hj : j.Distinct) (h : JsonDoc.Writable j) :
    JsonDoc.Writable (sortedCopy S j) := by
  have hsorted := writable_mutCopySorted (S := S) hj h
  rw [JsonDoc.Writable, sortedCopy, sortedWith_eq _ _ map_toNat_injective keyLt_iff hj, each_bimap]
  refine hsorted.imp (fun k hk => validUtf8_cString hk) ?_
  intro a ha
  cases a with
  | str s => exact validUtf8_cString ha
  | _ => exact ha

theorem value_sortedScalar {a : Scalar} :
    (sortedScalar a).value = a.value ↔ a.value.Intact := by
  cases a with
  | str s => simp only [sortedScalar, Scalar.value, Atom.str.injEq, cString_eq_iff, Atom.Intact]
  | uint n =>
    have hint := BitVec.toInt_eq_toNat_cond n
    have hlt := n.isLt
    simp only [sortedScalar, Scalar.value, Atom.int.injEq, Atom.Intact]
    split at hint <;> omega
  | sint n =>
    have hlt := BitVec.toInt_lt (x := n)
    simp only [sortedScalar, Atom.Intact, Scalar.value, true_iff]
    exact hlt
  | _ => exact ⟨fun _ => trivial, fun _ => rfl⟩

/-- The two copies have one value exactly when nothing is cut off and no sign changes. -/
theorem value_sortedCopy_iff (hj : j.Distinct) :
    JsonDoc.value (sortedCopy S j) = JsonDoc.value (mutCopySorted S j) ↔
      IntactValue (JsonDoc.value j) := by
  have hsame := same_arrange S keyLt hj
  have hequal : JsonDoc.value (sortedCopy S j) = JsonDoc.value (mutCopySorted S j) ↔
      (j.arrange S keyLt).Each (0 ∉ ·) (Atom.Intact ∘ Scalar.value) := by
    rw [JsonDoc.value, sortedCopy, sortedWith_eq _ _ map_toNat_injective keyLt_iff hj, bimap_bimap,
      JsonDoc.value, mutCopySorted, ← arrange, bimap_eq_iff]
    constructor
    · exact fun h => h.imp (fun k hk => cString_eq_iff.mp hk) fun a ha => value_sortedScalar.mp ha
    · exact fun h => h.imp (fun k hk => cString_eq_iff.mpr hk) fun a ha => value_sortedScalar.mpr ha
  rw [hequal, IntactValue, JsonDoc.value, each_bimap]
  exact ⟨fun h => hsame.symm.each h, fun h => hsame.each h⟩

/-! ### What they write -/

variable (hyy : yy.Faithful)

include hyy

variable {t : Bytes}

theorem guard_writes (ht : yy.read t = some j) (hj : j.Distinct) :
    yy.write (mutCopySorted S j) = some (guardToolArguments yy S t) := by
  obtain ⟨text, -, hwrite, -⟩ :=
    hyy.read_write _ (writable_mutCopySorted (S := S) hj (hyy.writable t j ht))
  have hne : t ≠ [] := by
    rintro rfl
    rw [hyy.read_nil] at ht
    cases ht
  simp only [guardToolArguments, if_neg hne, ht, hwrite, Option.getD_some]

theorem canonical_writes (ht : yy.read t = some j) (hj : j.Distinct) :
    yy.write (sortedCopy S j) = some (canonicalToolArguments yy S t) := by
  obtain ⟨text, -, hwrite, -⟩ :=
    hyy.read_write _ (writable_sortedCopy (S := S) hj (hyy.writable t j ht))
  have hne : t ≠ [] := by
    rintro rfl
    rw [hyy.read_nil] at ht
    cases ht
  simp only [canonicalToolArguments, if_neg hne, hyy.read_stop t j ht, hwrite, Option.getD_some]

/-- The two forms of a text are one exactly when its value comes through the copy. -/
theorem canonical_eq_guard_iff (ht : yy.read t = some j) (hj : j.Distinct) :
    canonicalToolArguments yy S t = guardToolArguments yy S t ↔ IntactValue (JsonDoc.value j) := by
  have hwritable := hyy.writable t j ht
  rw [← value_sortedCopy_iff (S := S) hj]
  constructor
  · intro h
    refine hyy.value_eq (writable_sortedCopy hj hwritable) (writable_mutCopySorted hj hwritable) ?_
    rw [canonical_writes hyy ht hj, guard_writes hyy ht hj, h]
  · intro h
    have hwrite := hyy.write_value _ _ h
    rw [canonical_writes hyy ht hj, guard_writes hyy ht hj] at hwrite
    exact Option.some.inj hwrite

/-- A form that writes the sorted copy of every document of a class is canonical there. -/
theorem canonical_of_writes {canon : Bytes → Bytes} {C : KeyedTree Bytes Atom → Prop}
    (hC : ∀ v w, Same v w → C v → C w)
    (hcanon : ∀ x d, yy.read x = some d → d.Distinct → C (JsonDoc.value d) → yy.write (mutCopySorted
      S d) = some (canon x)) {u : Bytes} {k : JsonDoc} (ht : yy.read t = some j)
    (hu : yy.read u = some k) (hj : j.Distinct) (hk : k.Distinct) (hCj : C (JsonDoc.value j))
    (hCk : C (JsonDoc.value k)) : Canonical yy canon t u j k := by
  have hread : ∀ x d, yy.read x = some d → d.Distinct → C (JsonDoc.value d) →
      ∃ c, yy.read (canon x) = some c ∧
        JsonDoc.value c = (JsonDoc.value d).arrange S keyLt := by
    intro x d hx hd hCd
    obtain ⟨text, c, hwrite, hc, hvalue⟩ :=
      hyy.read_write _ (writable_mutCopySorted (S := S) hd (hyy.writable x d hx))
    obtain rfl : canon x = text := Option.some.inj ((hcanon x d hx hd hCd).symm.trans hwrite)
    exact ⟨c, hc, hvalue.trans (value_mutCopySorted hd)⟩
  have hdistinct : ∀ d : JsonDoc, d.Distinct → (JsonDoc.value d).Distinct :=
    fun d hd => (distinct_bimap Scalar.value).mpr hd
  have hkeeps : ∀ x d, yy.read x = some d → d.Distinct → C (JsonDoc.value d) →
      ∃ c, yy.read (canon x) = some c ∧ Same (JsonDoc.value d) (JsonDoc.value c) := by
    intro x d hx hd hCd
    obtain ⟨c, hc, hvalue⟩ := hread x d hx hd hCd
    exact ⟨c, hc, hvalue ▸ same_arrange S keyLt (hdistinct d hd)⟩
  have hidem : ∀ x d, yy.read x = some d → d.Distinct → C (JsonDoc.value d) →
      canon (canon x) = canon x := by
    intro x d hx hd hCd
    obtain ⟨c, hc, hvalue⟩ := hread x d hx hd hCd
    have hsame : Same (JsonDoc.value d) (JsonDoc.value c) :=
      hvalue ▸ same_arrange S keyLt (hdistinct d hd)
    have hcd : c.Distinct := (distinct_bimap Scalar.value).mp (hsame.distinct (hdistinct d hd))
    have hwrites := hcanon _ c hc hcd (hC _ _ hsame hCd)
    have hequal : JsonDoc.value (mutCopySorted S c) = JsonDoc.value (mutCopySorted S d) := by
      rw [value_mutCopySorted hcd, value_mutCopySorted hd, hvalue,
        arrange_arrange map_toNat_injective keyLt_iff (hdistinct d hd)]
    rw [hyy.write_value _ _ hequal, hcanon x d hx hd hCd] at hwrites
    exact (Option.some.inj hwrites).symm
  refine ⟨⟨hkeeps t j ht hj hCj, hkeeps u k hu hk hCk⟩, ?_, hidem t j ht hj hCj, hidem u k hu hk hCk⟩
  rw [← arrange_eq_iff (S := S) map_toNat_injective keyLt_iff (hdistinct j hj) (hdistinct k hk)]
  constructor
  · intro h
    obtain ⟨c, hc, hvalue⟩ := hread t j ht hj hCj
    obtain ⟨d, hd, hvalue'⟩ := hread u k hu hk hCk
    rw [h] at hc
    obtain rfl := Option.some.inj (hc.symm.trans hd)
    exact hvalue.symm.trans hvalue'
  · intro h
    have hequal : JsonDoc.value (mutCopySorted S j) = JsonDoc.value (mutCopySorted S k) := by
      rw [value_mutCopySorted hj, value_mutCopySorted hk, h]
    have hwrite := hyy.write_value _ _ hequal
    rw [hcanon t j ht hj hCj, hcanon u k hu hk hCk] at hwrite
    exact Option.some.inj hwrite

theorem guard_canonical {u : Bytes} {k : JsonDoc} (ht : yy.read t = some j)
    (hu : yy.read u = some k) (hj : j.Distinct) (hk : k.Distinct) :
    Canonical yy (guardToolArguments yy S) t u j k :=
  canonical_of_writes hyy (fun _ _ _ _ => trivial) (fun _ _ hx hd _ => guard_writes hyy hx hd)
    ht hu hj hk trivial trivial

/-- Exactly where no text or key holds a zero byte and no integer is 2^63 or more are the two forms
one canonical form. -/
theorem formsAgree_iff {t u : Bytes} {j k : JsonDoc} (ht : yy.read t = some j)
    (hu : yy.read u = some k) (hj : j.Distinct) (hk : k.Distinct) :
    FormsAgree yy S t u j k ↔ IntactValue (JsonDoc.value j) ∧ IntactValue (JsonDoc.value k) := by
  constructor
  · intro h
    exact ⟨(canonical_eq_guard_iff hyy ht hj).mp h.agree.1,
      (canonical_eq_guard_iff hyy hu hk).mp h.agree.2⟩
  · rintro ⟨hintact, hintact'⟩
    refine ⟨⟨(canonical_eq_guard_iff hyy ht hj).mpr hintact,
      (canonical_eq_guard_iff hyy hu hk).mpr hintact'⟩, ?_, guard_canonical hyy ht hu hj hk⟩
    refine canonical_of_writes (S := S) (C := IntactValue) hyy (fun v w h hv => h.each hv) ?_ ht hu hj hk
      hintact hintact'
    intro x d hx hd hintact
    rw [guard_writes hyy hx hd, (canonical_eq_guard_iff hyy hx hd).mpr hintact]

end Forms

/-- A list of one unsigned integer. -/
def oneUint (n : BitVec 64) : JsonDoc := .items [.leaf (.uint n)]

theorem distinct_oneUint (n : BitVec 64) : (oneUint n).Distinct :=
  .items (List.forall_mem_singleton.mpr (.leaf _))

theorem read_oneUint (n : BitVec 64) :
    CompactDoc.yyjson.read (ascii "[" ++ decimal n.toNat ++ ascii "]") = some (oneUint n) := by
  have hwritable : JsonDoc.Writable (oneUint n) :=
    .items (List.forall_mem_singleton.mpr (.leaf trivial))
  have hread := CompactDoc.read_writeDoc hwritable
  have htext : CompactDoc.writeDoc (oneUint n) = ascii "[" ++ decimal n.toNat ++ ascii "]" := by
    rw [oneUint, CompactDoc.writeDoc_items]
    rfl
  rw [htext] at hread
  exact hread

theorem formsAgree_one :
    FormsAgree CompactDoc.yyjson Sorter.insertion (ascii "[1]") (ascii "[1]") (oneUint 1)
        (oneUint 1) ↔
      IntactValue (JsonDoc.value (oneUint 1)) ∧ IntactValue (JsonDoc.value (oneUint 1)) :=
  formsAgree_iff CompactDoc.yyjson_faithful (read_oneUint 1) (read_oneUint 1) (distinct_oneUint 1)
    (distinct_oneUint 1)

/-- The greatest unsigned integer becomes -1. -/
theorem not_formsAgree_max :
    CompactDoc.yyjson.read (ascii "[18446744073709551615]") = some (oneUint (BitVec.allOnes 64)) ∧
      (oneUint (BitVec.allOnes 64)).Distinct ∧
      ¬FormsAgree CompactDoc.yyjson Sorter.insertion (ascii "[18446744073709551615]")
        (ascii "[18446744073709551615]") (oneUint (BitVec.allOnes 64))
        (oneUint (BitVec.allOnes 64)) := by
  have hread : CompactDoc.yyjson.read (ascii "[18446744073709551615]") =
      some (oneUint (BitVec.allOnes 64)) := read_oneUint (BitVec.allOnes 64)
  refine ⟨hread, distinct_oneUint _, ?_⟩
  intro h
  have hintact := (canonical_eq_guard_iff CompactDoc.yyjson_faithful hread (distinct_oneUint _)).mp
    h.agree.1
  rw [IntactValue, JsonDoc.value, each_bimap, oneUint] at hintact
  cases hintact with
  | items h =>
    cases h _ (List.mem_singleton_self _) with
    | leaf h =>
      have hbig : ¬((BitVec.allOnes 64).toNat : Int) < 2 ^ 63 := by decide
      exact hbig h

end KimixNative.Agent
