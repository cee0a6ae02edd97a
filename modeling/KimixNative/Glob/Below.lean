import KimixNative.Glob.Paths

/-!
# Below an ignored directory

A rule that matches a directory does not always match what is below it: a glob is matched with a path
as a whole. It does so if the rule is for directories only and what is below is a file, as the
directories above are looked at then; if components are matched one by one or the pattern ends with
`/**`; and if the glob ends open, that is, if behind its last star it accepts whatever a path may
end with. In all other cases there is something below the directory that the rule does not match.
-/

namespace KimixNative.Glob

open Wildcard

/-! ### Open ends -/

/-- So many tokens accept whatever a path ends with: any byte but a backslash, the last one any
byte but a slash. -/
def AcceptsEnds (tail : List (Wildcard Byte)) : Prop :=
  ∀ (i : Nat) (p : Byte → Bool), tail[i]? = some (.one p) →
    ∀ b, b ≠ backslash → (b = slash → i + 1 < tail.length) → p b = true

/-- The pattern has a star, and behind the last one it accepts whatever a path ends with. -/
def EndsOpen (ts : List (Wildcard Byte)) : Prop :=
  ∃ lead tail, ts = lead ++ .star :: tail ∧ (∀ t ∈ tail, t.IsOne) ∧ AcceptsEnds tail

theorem getElem?_of_suffix {α : Type} {us text : List α} (h : us <:+ text) {i : Nat} {x : α}
    (hx : us[i]? = some x) : text[text.length - us.length + i]? = some x := by
  obtain ⟨front, rfl⟩ := h
  rw [List.length_append, Nat.add_sub_cancel, List.getElem?_append_right (Nat.le_add_right _ _),
    Nat.add_sub_cancel_left, hx]

variable {p : Path} {ci : Bool}

/-- The last byte of a path is not a slash. -/
theorem ne_slash_of_last {b : Byte} (h : (pathText p)[(pathText p).length - 1]? = some b) :
    b ≠ slash := by
  rcases List.eq_nil_or_concat' p with rfl | ⟨init, last, rfl⟩
  · cases h
  · obtain ⟨front, htext, -⟩ := pathText_concat init last
    have hpos := List.length_pos_iff.mpr last.nonempty
    rw [htext, List.length_append, List.getElem?_append_right (by omega)] at h
    exact (last.plain b (List.mem_of_getElem? h)).1

variable {ts : List (Wildcard Byte)}

/-- An open end stretches over a longer path. -/
theorem EndsOpen.matches_longer {xs : Bytes} (h : EndsOpen ts) (hmatch : Matches ts xs)
    (hpre : xs <+: pathText p) : Matches ts (pathText p) := by
  obtain ⟨lead, tail, rfl, hones, haccepts⟩ := h
  obtain ⟨ys, zs, rfl, hys, hzs⟩ := matches_append.mp hmatch
  obtain ⟨us, hus, htail⟩ := matches_star.mp hzs
  obtain ⟨more, htext⟩ := hpre
  rw [List.append_assoc] at htext
  have hlen := length_of_matches_ones hones htail
  have hle := hus.length_le
  refine matches_append.mpr ⟨ys, zs ++ more, htext.symm, hys, matches_star.mpr
    ⟨(zs ++ more).drop ((zs ++ more).length - tail.length), List.drop_suffix _ _,
      (matches_ones hones).mpr ⟨?_, fun i q x hq hx => ?_⟩⟩⟩
  · rw [List.length_drop, List.length_append]
    omega
  · have hsuffix : (zs ++ more).drop ((zs ++ more).length - tail.length) <:+ pathText p :=
      (List.drop_suffix _ _).trans (htext ▸ List.suffix_append ys _)
    refine haccepts i q hq x ?_ fun hslash => ?_
    · exact pathText_plain p x (hsuffix.subset (List.mem_of_getElem? hx))
    · by_contra hlast
      have hi := (List.getElem?_eq_some_iff.mp hq).1
      have hend := getElem?_of_suffix hsuffix hx
      have hlenText : (pathText p).length = ys.length + (zs ++ more).length := by
        rw [← htext, List.length_append]
      rw [List.length_drop, List.length_append] at hend
      rw [List.length_append] at hlenText
      have hindex : (pathText p).length - (zs.length + more.length -
          (zs.length + more.length - tail.length)) + i = (pathText p).length - 1 := by
        omega
      rw [hindex] at hend
      exact ne_slash_of_last hend hslash

/-! ### Closed ends -/

/-- A component that repeats a byte. -/
def fill (b : Byte) (h : b ≠ slash ∧ b ≠ backslash) (n : Nat) : Component where
  bytes := List.replicate (n + 1) b
  nonempty := by simp
  plain c hc := (List.mem_replicate.mp hc).2 ▸ h

theorem exists_concat_of_suffix {α : Type} {q front : List α} {c : α} (hq : q ≠ [])
    (h : q <:+ front ++ [c]) : ∃ init, q = init ++ [c] := by
  obtain ⟨before, heq⟩ := h
  rcases List.eq_nil_or_concat' q with rfl | ⟨init, last, rfl⟩
  · exact absurd rfl hq
  · rw [← List.append_assoc] at heq
    obtain ⟨-, hlast⟩ := List.append_inj' heq rfl
    exact ⟨init, by rw [hlast]⟩

/-- What a path of two more components ends with. -/
theorem pathText_two (q : Path) (c d : Component) :
    ∃ front, pathText (q ++ [c, d]) = front ++ slash :: d.bytes := by
  have hsplit : q ++ [c, d] = (q ++ [c]) ++ [d] := by simp
  rw [hsplit, pathText_append (by simp) (List.cons_ne_nil d [])]
  exact ⟨pathText (q ++ [c]), rfl⟩

def letterA : Byte := 0x61#8

theorem letterA_plain : letterA ≠ slash ∧ letterA ≠ backslash := by decide

/-- A tail that does not accept all ends is kept from matching by the end of some path. -/
theorem exists_blocking_tail {tail : List (Wildcard Byte)} (hones : ∀ t ∈ tail, t.IsOne)
    (h : ¬ AcceptsEnds tail) :
    ∃ below : Path, below ≠ [] ∧ ∀ dir q : Path, q ≠ [] → q <:+ dir ++ below →
      ∀ us, us <:+ pathText q → ¬ Matches tail us := by
  simp only [AcceptsEnds, not_forall] at h
  obtain ⟨i, p, hp, b, hb, hslash, hrejects⟩ := h
  have hi := (List.getElem?_eq_some_iff.mp hp).1
  by_cases heq : b = slash
  · subst heq
    have hi' := hslash rfl
    refine ⟨[fill letterA letterA_plain 0, fill letterA letterA_plain (tail.length - i - 2)],
      List.cons_ne_nil _ _, fun dir q hq hsuffix us hus hmatch => ?_⟩
    obtain ⟨hlen, hall⟩ := (matches_ones hones).mp hmatch
    have hcut : dir ++ [fill letterA letterA_plain 0,
        fill letterA letterA_plain (tail.length - i - 2)] = (dir ++ [fill letterA letterA_plain 0]) ++
          [fill letterA letterA_plain (tail.length - i - 2)] := by simp
    rw [hcut] at hsuffix
    obtain ⟨init, rfl⟩ := exists_concat_of_suffix hq hsuffix
    obtain ⟨x, hx⟩ : ∃ x, us[i]? = some x := ⟨us[i], List.getElem?_eq_getElem (by omega)⟩
    by_cases hinit : init = []
    · subst hinit
      have hle := hus.length_le
      rw [List.nil_append, pathText, fill, List.length_replicate] at hle
      omega
    · have hinitSuffix : init <:+ dir ++ [fill letterA letterA_plain 0] := by
        obtain ⟨before, hbefore⟩ := hsuffix
        rw [← List.append_assoc] at hbefore
        exact ⟨before, (List.append_inj' hbefore rfl).1⟩
      obtain ⟨first, rfl⟩ := exists_concat_of_suffix hinit hinitSuffix
      have hback : (first ++ [fill letterA letterA_plain 0]) ++
          [fill letterA letterA_plain (tail.length - i - 2)] =
            first ++ [fill letterA letterA_plain 0,
              fill letterA letterA_plain (tail.length - i - 2)] := by simp
      rw [hback] at hus
      obtain ⟨front, htext⟩ := pathText_two first (fill letterA letterA_plain 0)
        (fill letterA letterA_plain (tail.length - i - 2))
      rw [htext] at hus
      have hat := getElem?_of_suffix hus hx
      have hle := hus.length_le
      simp only [fill, List.length_append, List.length_cons, List.length_replicate] at hat hle
      have hindex : front.length + (tail.length - i - 2 + 1 + 1) - us.length + i = front.length := by
        omega
      rw [hindex, List.getElem?_append_right le_rfl, Nat.sub_self, List.getElem?_cons_zero] at hat
      obtain rfl := Option.some.inj hat
      exact hrejects (hall i p slash hp hx)
  · refine ⟨[fill b ⟨heq, hb⟩ tail.length], List.cons_ne_nil _ _,
      fun dir q hq hsuffix us hus hmatch => ?_⟩
    obtain ⟨hlen, hall⟩ := (matches_ones hones).mp hmatch
    obtain ⟨init, rfl⟩ := exists_concat_of_suffix hq hsuffix
    obtain ⟨front, htext, -⟩ := pathText_concat init (fill b ⟨heq, hb⟩ tail.length)
    rw [htext] at hus
    have hshort : us <:+ (fill b ⟨heq, hb⟩ tail.length).bytes := by
      refine List.suffix_of_suffix_length_le hus (List.suffix_append front _) ?_
      rw [fill, List.length_replicate]
      omega
    obtain ⟨x, hx⟩ : ∃ x, us[i]? = some x := ⟨us[i], List.getElem?_eq_getElem (by omega)⟩
    obtain rfl := (List.mem_replicate.mp (hshort.subset (List.mem_of_getElem? hx))).2
    exact hrejects (hall i p x hp hx)

/-- A pattern that does not end open is kept from matching by the end of some path. -/
theorem exists_blocking (h : ¬ EndsOpen ts) :
    ∃ below : Path, below ≠ [] ∧ ∀ dir q : Path, q ≠ [] → q <:+ dir ++ below →
      ¬ Matches ts (pathText q) := by
  rcases ones_or_last_star ts with hones | ⟨lead, tail, rfl, hones⟩
  · refine ⟨[fill letterA letterA_plain ts.length], List.cons_ne_nil _ _,
      fun dir q hq hsuffix hmatch => ?_⟩
    obtain ⟨init, rfl⟩ := exists_concat_of_suffix hq hsuffix
    obtain ⟨front, htext, -⟩ := pathText_concat init (fill letterA letterA_plain ts.length)
    have hlen := length_of_matches_ones hones hmatch
    rw [htext, List.length_append, fill, List.length_replicate] at hlen
    omega
  · obtain ⟨below, hbelow, hblocks⟩ := exists_blocking_tail hones
      fun haccepts => h ⟨lead, tail, rfl, hones, haccepts⟩
    refine ⟨below, hbelow, fun dir q hq hsuffix hmatch => ?_⟩
    obtain ⟨ys, zs, htext, -, hzs⟩ := matches_append.mp hmatch
    obtain ⟨us, hus, htail⟩ := matches_star.mp hzs
    exact hblocks dir q hq hsuffix us (hus.trans (htext ▸ List.suffix_append ys zs)) htail

variable {last : Component} {dir : Path} {rule : GitignoreRule}

/-- A glob that matches the last component of a directory, but not the directory, is kept from
matching anything below by a component. -/
theorem exists_blocking_component {init : Path} (hcomponent : Matches ts last.bytes)
    (hwhole : ¬ Matches ts (pathText (init ++ [last]))) :
    ∃ c : Component, ¬ Matches ts c.bytes ∧ ¬ Matches ts (pathText (init ++ [last] ++ [c])) := by
  rcases ones_or_first_star ts with hones | ⟨lead, rest, rfl, hlead⟩
  · have hlen := length_of_matches_ones hones hcomponent
    obtain ⟨front, htext, -⟩ := pathText_concat (init ++ [last]) (fill letterA letterA_plain ts.length)
    refine ⟨fill letterA letterA_plain ts.length, fun hmatch => ?_, fun hmatch => ?_⟩
    · have := length_of_matches_ones hones hmatch
      rw [fill, List.length_replicate] at this
      omega
    · have := length_of_matches_ones hones hmatch
      rw [htext, List.length_append, fill, List.length_replicate] at this
      omega
  · obtain ⟨ys, zs, hlast, hys, hzs⟩ := matches_append.mp hcomponent
    have hysLen := length_of_matches_ones hlead hys
    obtain ⟨front, htext, -⟩ := pathText_concat init last
    have hlong : lead.length ≤ (pathText (init ++ [last])).length := by
      rw [htext, hlast]
      simp only [List.length_append]
      omega
    -- what the star takes in the component it could take in the whole path
    have hstart : ¬ Matches lead ((pathText (init ++ [last])).take lead.length) := by
      intro hmatch
      refine hwhole ?_
      rw [← List.take_append_drop lead.length (pathText (init ++ [last]))]
      refine matches_append.mpr ⟨_, _, rfl, hmatch, hzs.star_of_suffix ?_⟩
      have hbehind : zs <:+ pathText (init ++ [last]) := by
        rw [htext, hlast]
        exact (List.suffix_append ys zs).trans (List.suffix_append front _)
      refine List.suffix_of_suffix_length_le hbehind (List.drop_suffix _ _) ?_
      · rw [List.length_drop, htext, hlast]
        simp only [List.length_append]
        omega
    simp only [matches_ones hlead, List.length_take, Nat.min_eq_left hlong, true_and,
      not_forall] at hstart
    obtain ⟨i, p, b, hp, hb, hrejects⟩ := hstart
    have hi := (List.getElem?_eq_some_iff.mp hp).1
    rw [List.getElem?_take, if_pos hi] at hb
    have hbelow : ∀ c : Component, ¬ Matches (lead ++ .star :: rest)
        (pathText (init ++ [last] ++ [c])) := by
      intro c hmatch
      obtain ⟨us, vs, hsplit, hus, -⟩ := matches_append.mp hmatch
      obtain ⟨husLen, hall⟩ := (matches_ones hlead).mp hus
      refine hrejects (hall i p b hp ?_)
      have hget : (pathText (init ++ [last] ++ [c]))[i]? = some b := by
        rw [pathText_append (by simp) (List.cons_ne_nil c []),
          List.getElem?_append_left (by omega), hb]
      rw [hsplit, List.getElem?_append_left (by omega)] at hget
      exact hget
    by_cases hslash : b = slash
    · -- the byte in front of it is needed too
      have hpos : i ≠ 0 := by
        rintro rfl
        have hhead : (pathText (init ++ [last])).head? = some b := by
          rw [List.head?_eq_getElem?, hb]
        obtain ⟨c, q, hcq⟩ : ∃ c q, init ++ [last] = c :: q :=
          List.exists_cons_of_ne_nil (by simp)
        rw [hcq, head?_pathText] at hhead
        exact (c.plain b (List.mem_of_mem_head? hhead)).1 hslash
      refine ⟨fill letterA letterA_plain 0, fun hmatch => ?_, hbelow _⟩
      obtain ⟨us, vs, hsplit, hus, -⟩ := matches_append.mp hmatch
      have husLen := length_of_matches_ones hlead hus
      have hlen := congrArg List.length hsplit
      rw [List.length_append, fill, List.length_replicate] at hlen
      omega
    · have hplain := pathText_plain _ b (List.mem_of_getElem? hb)
      refine ⟨fill b ⟨hslash, hplain⟩ i, fun hmatch => ?_, hbelow _⟩
      obtain ⟨us, vs, hsplit, hus, -⟩ := matches_append.mp hmatch
      obtain ⟨husLen, hall⟩ := (matches_ones hlead).mp hus
      obtain ⟨x, hx⟩ : ∃ x, us[i]? = some x := ⟨us[i], List.getElem?_eq_getElem (by omega)⟩
      have hmem : x ∈ (fill b ⟨hslash, hplain⟩ i).bytes := by
        rw [hsplit]
        exact List.mem_append_left vs (List.mem_of_getElem? hx)
      obtain rfl := (List.mem_replicate.mp hmem).2
      exact hrejects (hall i p x hp hx)

/-! ### The branches -/

theorem restBehind_append {q r : Path} (hq : q ≠ []) :
    restBehind (pathText q) (pathText (q ++ r)) = some (pathText r) := by
  by_cases hr : r = []
  · subst hr
    rw [List.append_nil, restBehind, if_neg, if_pos rfl]
    · rfl
    · intro h
      have := h.length_le
      rw [List.length_append, List.length_singleton] at this
      omega
  · have htext : pathText (q ++ r) = pathText q ++ [slash] ++ pathText r := by
      rw [pathText_append hq hr]
      simp
    rw [htext, restBehind, if_pos (List.prefix_append _ _), List.drop_append_of_le_length (by simp)]
    simp

/-- What stands behind the start of a path is the rest of its components. -/
theorem restBehind_eq_some {start rest : Bytes} (hp : p ≠ [])
    (h : restBehind start (pathText p) = some rest) :
    ∃ q r, p = q ++ r ∧ q ≠ [] ∧ start = pathText q ∧ rest = pathText r := by
  rw [restBehind] at h
  split at h
  · next hpre =>
      obtain ⟨v, hv⟩ := hpre
      rw [List.append_assoc, List.singleton_append] at hv
      obtain ⟨q, r, rfl, hq, hr, rfl, rfl⟩ := pathText_eq_append_slash hv.symm
      refine ⟨q, r, rfl, hq, rfl, ?_⟩
      rw [← Option.some.inj h, ← hv]
      simp
  · split at h
    · next heq => exact ⟨p, [], (List.append_nil p).symm, hp, heq.symm, (Option.some.inj h).symm⟩
    · cases h

/-- In the loop over the parts an open end stretches over a longer path, and some end keeps any
other from matching. -/
theorem matchParts_below {suffix : Bytes} (h : matchParts suffix ci (splitPath (pathText p)) = true) :
    (EndsOpen (tokens ci suffix) → ∀ below : Path,
        matchParts suffix ci (splitPath (pathText (p ++ below))) = true) ∧
      (¬ EndsOpen (tokens ci suffix) → ∃ below : Path, below ≠ [] ∧
        matchParts suffix ci (splitPath (pathText (p ++ below))) = false) := by
  obtain ⟨q, hq, hsuffix, hmatch⟩ := matchParts_iff.mp h
  refine ⟨fun hopen below => ?_, fun hclosed => ?_⟩
  · refine matchParts_iff.mpr ⟨q ++ below, by simp [hq], ?_,
      hopen.matches_longer hmatch (pathText_prefix_append q below)⟩
    obtain ⟨front, rfl⟩ := hsuffix
    exact ⟨front, by simp⟩
  · obtain ⟨below, hbelow, hblocks⟩ := exists_blocking hclosed
    refine ⟨below, hbelow, Bool.eq_false_iff.mpr fun hagain => ?_⟩
    obtain ⟨q', hq', hsuffix', hmatch'⟩ := matchParts_iff.mp hagain
    exact hblocks p q' hq' hsuffix' hmatch'

/-- The rule goes on matching below a directory that it matches. -/
def Swallows (rule : GitignoreRule) (ci : Bool) (dir : Bytes) : Prop :=
  if doubleStar <:+: rule.pattern then
    if rule.pattern = doubleStar then True
    else if doubleStar ++ [slash] <+: rule.pattern then EndsOpen (tokens ci (rule.pattern.drop 3))
    else if slash :: doubleStar <:+ rule.pattern then True
    else
      match firstOccurrence (slash :: doubleStar ++ [slash]) rule.pattern with
      | some ds =>
        rule.pattern.drop (ds + 4) = [] ∨ EndsOpen (tokens ci (rule.pattern.drop (ds + 4)))
      | none => EndsOpen (tokens ci rule.pattern) ∧ Matches (tokens ci rule.pattern) dir
  else if rule.anchored then EndsOpen (tokens ci rule.pattern)
  else True

/-- A pattern with two stars that are not components of their own is matched with the path or with
its last component. -/
theorem generic_below (h : Matches ts (pathText (dir ++ [last])) ∨ Matches ts last.bytes) :
    (EndsOpen ts ∧ Matches ts (pathText (dir ++ [last])) → ∀ below : Path,
        Matches ts (pathText (dir ++ [last] ++ below))) ∧
      (¬ (EndsOpen ts ∧ Matches ts (pathText (dir ++ [last]))) → ∃ (init : Path) (c : Component),
        ¬ Matches ts (pathText (dir ++ [last] ++ (init ++ [c]))) ∧ ¬ Matches ts c.bytes) := by
  refine ⟨fun ⟨hopen, hmatch⟩ below => hopen.matches_longer hmatch (pathText_prefix_append _ below),
    fun hnot => ?_⟩
  by_cases hopen : EndsOpen ts
  · have hwhole : ¬ Matches ts (pathText (dir ++ [last])) := fun hmatch => hnot ⟨hopen, hmatch⟩
    obtain ⟨c, hc, hpath⟩ := exists_blocking_component (h.resolve_left hwhole) hwhole
    exact ⟨[], c, hpath, hc⟩
  · obtain ⟨below, hbelow, hblocks⟩ := exists_blocking hopen
    rcases List.eq_nil_or_concat' below with rfl | ⟨init, c, rfl⟩
    · exact absurd rfl hbelow
    · refine ⟨init, c, hblocks (dir ++ [last]) _ (by simp) (List.suffix_refl _), ?_⟩
      exact hblocks (dir ++ [last]) [c] (List.cons_ne_nil c [])
        ((List.suffix_append init [c]).trans (List.suffix_append _ _))

theorem generic_iff {pattern : Bytes} (dir : Path) (last : Component) :
    (if globMatch pattern (pathText (dir ++ [last])) ci = true then true
      else if splitPath (pathText (dir ++ [last])) ≠ [] then
        globMatch pattern (lastPart (splitPath (pathText (dir ++ [last])))) ci
      else false) = true ↔
      Matches (tokens ci pattern) (pathText (dir ++ [last])) ∨
        Matches (tokens ci pattern) last.bytes := by
  rw [if_pos (splitPath_ne_nil (by simp)), lastPart_concat]
  simp [globMatch_eq, wildcardLoop_start]

theorem matchDoubleStar_below (hdir : dir ≠ []) (hstars : doubleStar <:+: rule.pattern)
    (h : matchDoubleStar rule (pathText dir) ci = true) :
    (Swallows rule ci (pathText dir) → ∀ below : Path, below ≠ [] →
        matchDoubleStar rule (pathText (dir ++ below)) ci = true) ∧
      (¬ Swallows rule ci (pathText dir) → ∃ below : Path, below ≠ [] ∧
        matchDoubleStar rule (pathText (dir ++ below)) ci = false) := by
  rw [Swallows, if_pos hstars]
  simp only [matchDoubleStar] at h ⊢
  split
  · exact ⟨fun _ _ _ => rfl, fun hnot => absurd trivial hnot⟩
  · next hall =>
      rw [if_neg hall] at h
      split
      · next hfront =>
          rw [if_pos hfront] at h
          obtain ⟨hopen, hclosed⟩ := matchParts_below h
          exact ⟨fun hends below _ => hopen hends below, hclosed⟩
      · next hfront =>
          rw [if_neg hfront] at h
          split
          · next hback =>
              rw [if_pos hback] at h
              refine ⟨fun _ below _ => ?_, fun hnot => absurd trivial hnot⟩
              obtain ⟨rest, hrest⟩ := Option.isSome_iff_exists.mp h
              obtain ⟨q, r, rfl, hq, hstart, rfl⟩ := restBehind_eq_some hdir hrest
              rw [hstart, List.append_assoc, restBehind_append hq]
              rfl
          · next hback =>
              rw [if_neg hback] at h
              cases hfind : firstOccurrence (slash :: doubleStar ++ [slash]) rule.pattern with
              | some ds =>
                rw [hfind] at h
                dsimp only at h ⊢
                cases hbehind : restBehind (rule.pattern.take ds) (pathText dir) with
                | none =>
                  rw [hbehind] at h
                  cases h
                | some rest =>
                  rw [hbehind] at h
                  obtain ⟨q, r, rfl, hq, hstart, rfl⟩ := restBehind_eq_some hdir hbehind
                  have hbelow : ∀ below : Path, restBehind (rule.pattern.take ds)
                      (pathText (q ++ r ++ below)) = some (pathText (r ++ below)) := by
                    intro below
                    rw [hstart, List.append_assoc, restBehind_append hq]
                  simp only [hbelow]
                  dsimp only at h
                  split at h
                  · next hempty =>
                      exact ⟨fun _ _ _ => if_pos hempty, fun hnot => absurd (Or.inl hempty) hnot⟩
                  · next hsuffix =>
                      obtain ⟨hopen, hclosed⟩ := matchParts_below h
                      simp only [if_neg hsuffix]
                      refine ⟨fun hends below _ => ?_, fun hnot => ?_⟩
                      · exact hopen (hends.resolve_left hsuffix) below
                      · exact hclosed fun hends => hnot (Or.inr hends)
              | none =>
                rw [hfind] at h
                rcases List.eq_nil_or_concat' dir with rfl | ⟨init, last, rfl⟩
                · exact absurd rfl hdir
                · obtain ⟨hopen, hclosed⟩ := generic_below ((generic_iff init last).mp h)
                  refine ⟨fun hends below hbelow => ?_, fun hnot => ?_⟩
                  · rcases List.eq_nil_or_concat' below with rfl | ⟨front, c, rfl⟩
                    · exact absurd rfl hbelow
                    · rw [← List.append_assoc]
                      refine (generic_iff (init ++ [last] ++ front) c).mpr (Or.inl ?_)
                      rw [List.append_assoc]
                      exact hopen hends (front ++ [c])
                  · obtain ⟨front, c, hpath, hcomponent⟩ := hclosed hnot
                    refine ⟨front ++ [c], by simp, Bool.eq_false_iff.mpr fun hagain => ?_⟩
                    rw [← List.append_assoc] at hagain
                    rcases (generic_iff (init ++ [last] ++ front) c).mp hagain with hm | hm
                    · rw [List.append_assoc] at hm
                      exact hpath hm
                    · exact hcomponent hm

theorem matchEntry_below (hdir : dir ≠ []) (h : matchEntry (pathText dir) rule ci = true) :
    (Swallows rule ci (pathText dir) → ∀ below : Path, below ≠ [] →
        matchEntry (pathText (dir ++ below)) rule ci = true) ∧
      (¬ Swallows rule ci (pathText dir) → ∃ below : Path, below ≠ [] ∧
        matchEntry (pathText (dir ++ below)) rule ci = false) := by
  simp only [matchEntry] at h ⊢
  by_cases hstars : doubleStar <:+: rule.pattern
  · simp only [if_pos hstars] at h ⊢
    exact matchDoubleStar_below hdir hstars h
  · simp only [if_neg hstars, Swallows] at h ⊢
    by_cases hanchored : rule.anchored = true
    · simp only [if_pos hanchored, globMatch_eq, wildcardLoop_start] at h ⊢
      refine ⟨fun hopen below _ => hopen.matches_longer h (pathText_prefix_append dir below),
        fun hclosed => ?_⟩
      obtain ⟨below, hbelow, hblocks⟩ := exists_blocking hclosed
      refine ⟨below, hbelow, Bool.eq_false_iff.mpr fun hagain => ?_⟩
      exact hblocks dir (dir ++ below) (by simp [hdir]) (List.suffix_refl _)
        ((wildcardLoop_start _ _).mp hagain)
    · simp only [if_neg hanchored] at h ⊢
      refine ⟨fun _ below _ => ?_, fun hnot => absurd trivial hnot⟩
      obtain ⟨c, hc, hmatch⟩ := (matchUnanchored_iff hdir).mp h
      exact (matchUnanchored_iff (by simp [hdir])).mpr ⟨c, List.mem_append_left below hc, hmatch⟩

/-- What a rule that matches a directory does below it. For directories only, it matches every file
there; if it swallows the directory, everything there; and otherwise something there is not
matched. -/
theorem gitignoreMatch_below (rule : GitignoreRule) (ci : Bool) (dir : Path) (hdir : dir ≠ [])
    (h : gitignoreMatch (pathText dir) true rule ci = true) :
    (rule.dirOnly = true → ∀ below : Path, below ≠ [] →
        gitignoreMatch (pathText (dir ++ below)) false rule ci = true) ∧
      (Swallows rule ci (pathText dir) → ∀ (below : Path) (isDir : Bool), below ≠ [] →
        gitignoreMatch (pathText (dir ++ below)) isDir rule ci = true) ∧
      (rule.dirOnly = false → ¬ Swallows rule ci (pathText dir) → ∃ below : Path, below ≠ [] ∧
        ∀ isDir, gitignoreMatch (pathText (dir ++ below)) isDir rule ci = false) := by
  simp only [gitignoreMatch, normalizeSlashes_pathText, gitignoreMatchInternal] at h ⊢
  rw [if_neg (by simp)] at h
  have hfile : ∀ below : Path, below ≠ [] →
      ((ancestorsFrom [] (pathText (dir ++ below))).any fun d => matchEntry d rule ci) = true :=
    fun below hbelow => List.any_eq_true.mpr
      ⟨pathText dir, mem_ancestors.mpr ⟨dir, below, rfl, hdir, hbelow, rfl⟩, h⟩
  obtain ⟨hswallows, hlets⟩ := matchEntry_below hdir h
  refine ⟨fun hdirOnly below hbelow => ?_, fun hs below isDir hbelow => ?_, fun hdirOnly hs => ?_⟩
  · rw [if_pos ⟨hdirOnly, by simp⟩]
    exact hfile below hbelow
  · split
    · exact hfile below hbelow
    · exact hswallows hs below hbelow
  · obtain ⟨below, hbelow, hmatch⟩ := hlets hs
    refine ⟨below, hbelow, fun isDir => ?_⟩
    rw [if_neg (by simp [hdirOnly])]
    exact hmatch

/-- The path `a`. -/
def pathA : Path := [fill letterA letterA_plain 0]

/-- The rule `/a`, or `/a/`, matches one entry. -/
theorem matchEntry_letterA (text : Bytes) (dirOnly : Bool) :
    matchEntry text ⟨[letterA], false, true, dirOnly⟩ false = true ↔ text = [letterA] := by
  have htokens : tokens false [letterA] = [.one fun ch => letterA = ch] := by
    rw [tokens, if_neg (by decide), if_neg (by decide), if_neg (by decide), tokens]
    rfl
  have hplain : ¬ doubleStar <:+: [letterA] := by decide
  rw [matchEntry, if_neg hplain, if_pos rfl, globMatch_eq, wildcardLoop_start, htokens]
  simp [eq_comm]

theorem gitignoreMatch_letterA (dirOnly : Bool) :
    gitignoreMatch (pathText pathA) true ⟨[letterA], false, true, dirOnly⟩ false = true := by
  rw [gitignoreMatch, normalizeSlashes_pathText, gitignoreMatchInternal, if_neg (by simp),
    matchEntry_letterA]
  rfl

theorem gitignoreMatch_below_dirOnly :
    gitignoreMatch (pathText (pathA ++ pathA)) false ⟨[letterA], false, true, true⟩ false = true :=
  (gitignoreMatch_below ⟨[letterA], false, true, true⟩ false pathA (List.cons_ne_nil _ _)
    (gitignoreMatch_letterA true)).1 rfl pathA (List.cons_ne_nil _ _)

/-- The rule `/a` matches the directory `a`, but not `a/a`. -/
theorem anchored_not_below :
    ¬ ∀ rule ∈ parseGitignore [slash, letterA, newline], rule.negated = false →
      ∀ dir below : Path, dir ≠ [] → below ≠ [] →
        gitignoreMatch (pathText dir) true rule false = true →
          ∀ isDir, gitignoreMatch (pathText (dir ++ below)) isDir rule false = true := by
  intro h
  have hrule : (⟨[letterA], false, true, false⟩ : GitignoreRule) ∈
      parseGitignore [slash, letterA, newline] := by decide
  have hbelow := h _ hrule rfl pathA pathA (List.cons_ne_nil _ _) (List.cons_ne_nil _ _)
    (gitignoreMatch_letterA false) false
  rw [gitignoreMatch, normalizeSlashes_pathText, gitignoreMatchInternal, if_neg (by simp),
    matchEntry_letterA] at hbelow
  exact absurd hbelow (by decide)

end KimixNative.Glob
