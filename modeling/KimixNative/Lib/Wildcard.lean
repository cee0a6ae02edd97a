import Mathlib.Data.List.Infix

/-!
# Wildcards

A pattern is a list of tokens: a star stands for any list, and any other token for one element that
it accepts.

`wildcardLoop` reads a list from left to right. When it is stuck it goes back to the last star it
has passed, and lets this star take one element more. It never goes back to an earlier star: what an
earlier star could leave to the last one to take is a suffix of what the last one already has.
-/

namespace KimixNative

variable {α : Type*}

/-- A token of a pattern. -/
inductive Wildcard (α : Type*) where
  | star
  | one (accepts : α → Bool)

namespace Wildcard

/-- The list splits along the tokens. -/
inductive Matches : List (Wildcard α) → List α → Prop
  | nil : Matches [] []
  | star (skipped : List α) {ts : List (Wildcard α)} {xs : List α} (h : Matches ts xs) :
      Matches (.star :: ts) (skipped ++ xs)
  | one {p : α → Bool} {x : α} (hx : p x = true) {ts : List (Wildcard α)} {xs : List α}
      (h : Matches ts xs) : Matches (.one p :: ts) (x :: xs)

variable {ts rest : List (Wildcard α)} {xs : List α} {x : α} {p : α → Bool}

@[simp] theorem matches_nil : Matches ([] : List (Wildcard α)) xs ↔ xs = [] := by
  constructor
  · rintro ⟨⟩
    rfl
  · rintro rfl
    exact .nil

@[simp] theorem matches_star : Matches (.star :: ts) xs ↔ ∃ ys, ys <:+ xs ∧ Matches ts ys := by
  constructor
  · intro h
    cases h with
    | star skipped h => exact ⟨_, List.suffix_append skipped _, h⟩
  · rintro ⟨ys, ⟨skipped, rfl⟩, h⟩
    exact .star skipped h

@[simp] theorem matches_one :
    Matches (.one p :: ts) xs ↔ ∃ x ys, xs = x :: ys ∧ p x = true ∧ Matches ts ys := by
  constructor
  · intro h
    cases h with
    | one hx h => exact ⟨_, _, rfl, hx, h⟩
  · rintro ⟨x, ys, rfl, hx, h⟩
    exact .one hx h

variable {ys consumed : List α}

/-- A star takes more in front. -/
theorem Matches.star_of_suffix (h : Matches (.star :: ts) ys) (hys : ys <:+ xs) :
    Matches (.star :: ts) xs := by
  obtain ⟨zs, hzs, h⟩ := matches_star.mp h
  exact matches_star.mpr ⟨zs, hzs.trans hys, h⟩

/-- Only stars match the empty list. -/
theorem matches_empty : Matches ts [] ↔ ∀ t ∈ ts, t = .star := by
  induction ts with
  | nil => simp
  | cons t ts ih =>
    cases t with
    | star =>
      simp only [matches_star, List.suffix_nil, List.mem_cons, forall_eq_or_imp, true_and]
      exact ⟨fun ⟨ys, hys, h⟩ => ih.mp (hys ▸ h), fun h => ⟨[], rfl, ih.mpr h⟩⟩
    | one p => simp

/-- The token stands for one element. -/
def IsOne : Wildcard α → Prop
  | star => False
  | one _ => True

/-- Tokens without a star take as many elements as they are. -/
theorem Matches.split {seg : List (Wildcard α)} (hseg : ∀ t ∈ seg, t.IsOne)
    (h : Matches (seg ++ rest) xs) :
    ∃ taken left, xs = taken ++ left ∧ taken.length = seg.length ∧ Matches rest left := by
  induction seg generalizing xs with
  | nil => exact ⟨[], xs, rfl, rfl, h⟩
  | cons t seg ih =>
    obtain ⟨ht, hrest⟩ := List.forall_mem_cons.mp hseg
    cases t with
    | star => exact ht.elim
    | one p =>
      obtain ⟨x, ys, rfl, -, h⟩ := matches_one.mp h
      obtain ⟨taken, left, rfl, hlen, hleft⟩ := ih hrest h
      exact ⟨x :: taken, left, rfl, by simp [hlen], hleft⟩

theorem matches_append {us : List (Wildcard α)} :
    Matches (ts ++ us) xs ↔ ∃ ys zs, xs = ys ++ zs ∧ Matches ts ys ∧ Matches us zs := by
  induction ts generalizing xs with
  | nil => simp
  | cons t ts ih =>
    cases t with
    | star =>
      rw [List.cons_append, matches_star]
      constructor
      · rintro ⟨_, ⟨skipped, rfl⟩, h⟩
        obtain ⟨ys, zs, rfl, hys, hzs⟩ := ih.mp h
        exact ⟨skipped ++ ys, zs, (List.append_assoc _ _ _).symm, .star skipped hys, hzs⟩
      · rintro ⟨ys, zs, rfl, hys, hzs⟩
        obtain ⟨ys', ⟨skipped, rfl⟩, hys'⟩ := matches_star.mp hys
        exact ⟨ys' ++ zs, ⟨skipped, (List.append_assoc _ _ _).symm⟩,
          ih.mpr ⟨ys', zs, rfl, hys', hzs⟩⟩
    | one p =>
      rw [List.cons_append, matches_one]
      constructor
      · rintro ⟨x, _, rfl, hx, h⟩
        obtain ⟨ys, zs, rfl, hys, hzs⟩ := ih.mp h
        exact ⟨x :: ys, zs, rfl, .one hx hys, hzs⟩
      · rintro ⟨ys, zs, rfl, hys, hzs⟩
        obtain ⟨x, ys', rfl, hx, hys'⟩ := matches_one.mp hys
        exact ⟨x, ys' ++ zs, rfl, hx, ih.mpr ⟨ys', zs, rfl, hys', hzs⟩⟩

/-- Tokens without a star accept the elements one by one. -/
theorem matches_ones (h : ∀ t ∈ ts, t.IsOne) :
    Matches ts xs ↔ xs.length = ts.length ∧
      ∀ (i : Nat) (p : α → Bool) (x : α), ts[i]? = some (.one p) → xs[i]? = some x →
        p x = true := by
  induction ts generalizing xs with
  | nil => simp
  | cons t ts ih =>
    obtain ⟨ht, hts⟩ := List.forall_mem_cons.mp h
    cases t with
    | star => exact ht.elim
    | one p =>
      rw [matches_one]
      constructor
      · rintro ⟨x, ys, rfl, hx, hys⟩
        obtain ⟨hlen, hall⟩ := (ih hts).mp hys
        refine ⟨by simp [hlen], fun i q y hq hy => ?_⟩
        cases i with
        | zero =>
          simp only [List.getElem?_cons_zero, Option.some.injEq, one.injEq] at hq hy
          rwa [← hq, ← hy]
        | succ i => exact hall i q y hq hy
      · rintro ⟨hlen, hall⟩
        cases xs with
        | nil => cases hlen
        | cons x ys =>
          exact ⟨x, ys, rfl, hall 0 p x rfl rfl, (ih hts).mpr
            ⟨by simpa using hlen, fun i q y hq hy => hall (i + 1) q y hq hy⟩⟩

theorem length_of_matches_ones (h : ∀ t ∈ ts, t.IsOne) (hmatch : Matches ts xs) :
    xs.length = ts.length := ((matches_ones h).mp hmatch).1

/-- A pattern with a star has a first one. -/
theorem ones_or_first_star (ts : List (Wildcard α)) :
    (∀ t ∈ ts, t.IsOne) ∨ ∃ lead rest, ts = lead ++ .star :: rest ∧ ∀ t ∈ lead, t.IsOne := by
  induction ts with
  | nil => exact Or.inl fun _ ht => absurd ht List.not_mem_nil
  | cons t ts ih =>
    cases t with
    | star => exact Or.inr ⟨[], ts, rfl, fun _ ht => absurd ht List.not_mem_nil⟩
    | one p =>
      rcases ih with hones | ⟨lead, rest, rfl, hlead⟩
      · exact Or.inl (List.forall_mem_cons.mpr ⟨trivial, hones⟩)
      · exact Or.inr ⟨.one p :: lead, rest, rfl, List.forall_mem_cons.mpr ⟨trivial, hlead⟩⟩

/-- A pattern with a star has a last one. -/
theorem ones_or_last_star (ts : List (Wildcard α)) :
    (∀ t ∈ ts, t.IsOne) ∨ ∃ lead rest, ts = lead ++ .star :: rest ∧ ∀ t ∈ rest, t.IsOne := by
  induction ts with
  | nil => exact Or.inl fun _ ht => absurd ht List.not_mem_nil
  | cons t ts ih =>
    rcases ih with hones | ⟨lead, rest, rfl, hrest⟩
    · cases t with
      | star => exact Or.inr ⟨[], ts, rfl, hones⟩
      | one p => exact Or.inl (List.forall_mem_cons.mpr ⟨trivial, hones⟩)
    · exact Or.inr ⟨t :: lead, rest, rfl, hrest⟩

/-! ### The loop -/

/-- Read `xs` along `ts`. `back` are the tokens behind the last star, and `consumed` what has been
read since. -/
def wildcardLoop (ts : List (Wildcard α)) (xs consumed : List α)
    (back : Option (List (Wildcard α))) : Bool :=
  match xs with
  | [] =>
    ts.all fun
      | .star => true
      | .one _ => false
  | x :: more =>
    match ts with
    | .star :: ts => wildcardLoop ts (x :: more) [] (some ts)
    | .one p :: ts =>
      if p x then wildcardLoop ts more (consumed ++ [x]) back
      else
        match back with
        | some tokens => wildcardLoop tokens (consumed ++ x :: more).tail [] (some tokens)
        | none => false
    | [] =>
      match back with
      | some tokens => wildcardLoop tokens (consumed ++ x :: more).tail [] (some tokens)
      | none => false
termination_by (consumed.length + xs.length, xs.length, ts.length)
decreasing_by
  · simp only [List.length_nil, List.length_cons, Prod.lex_def, true_and]
    omega
  · simp only [List.length_append, List.length_cons, List.length_nil, Prod.lex_def]
    omega
  · simp only [List.length_tail, List.length_append, List.length_cons, List.length_nil,
      Prod.lex_def]
    omega
  · simp only [List.length_tail, List.length_append, List.length_cons, List.length_nil,
      Prod.lex_def]
    omega

/-- The last star may take more than it has. -/
def Retries (tokens : List (Wildcard α)) (ys : List α) : Prop :=
  ∃ zs, zs <:+ ys.tail ∧ Matches tokens zs

variable {tokens : List (Wildcard α)}

theorem matches_or_retries :
    Matches tokens ys ∨ Retries tokens ys ↔ ∃ zs, zs <:+ ys ∧ Matches tokens zs := by
  constructor
  · rintro (h | ⟨zs, hzs, h⟩)
    · exact ⟨ys, List.suffix_refl ys, h⟩
    · exact ⟨zs, hzs.trans (List.tail_suffix ys), h⟩
  · rintro ⟨zs, hzs, h⟩
    cases ys with
    | nil => exact Or.inl (List.suffix_nil.mp hzs ▸ h)
    | cons y ys =>
      rcases List.suffix_cons_iff.mp hzs with rfl | hshort
      · exact Or.inl h
      · exact Or.inr ⟨zs, hshort, h⟩

/-- What the loop knows: since the last star as many tokens have been passed as elements have been
read, and none of them was a star. -/
def Since (tokens ts : List (Wildcard α)) (consumed : List α) : Prop :=
  ∃ seg, tokens = seg ++ ts ∧ (∀ t ∈ seg, t.IsOne) ∧ seg.length = consumed.length

/-- A match that begins later leaves the tokens ahead a suffix of what is left. -/
theorem Since.exists_suffix {zs : List α} (h : Since tokens ts consumed)
    (hzs : zs <:+ consumed ++ xs) (hmatch : Matches tokens zs) :
    ∃ left, left <:+ xs ∧ Matches ts left := by
  obtain ⟨seg, rfl, hseg, hlen⟩ := h
  obtain ⟨taken, left, rfl, htaken, hleft⟩ := hmatch.split hseg
  refine ⟨left, ?_, hleft⟩
  have hleftSuffix : left <:+ consumed ++ xs := (List.suffix_append taken left).trans hzs
  refine List.suffix_of_suffix_length_le hleftSuffix (List.suffix_append consumed xs) ?_
  have hle := hzs.length_le
  rw [List.length_append, List.length_append] at hle
  omega

theorem Since.retries (h : Since tokens ts consumed) (hretries : Retries tokens (consumed ++ xs)) :
    ∃ left, left <:+ xs ∧ Matches ts left := by
  obtain ⟨zs, hzs, hmatch⟩ := hretries
  exact h.exists_suffix (hzs.trans (List.tail_suffix _)) hmatch

theorem since_star (ts : List (Wildcard α)) : Since ts ts [] :=
  ⟨[], rfl, fun _ ht => absurd ht List.not_mem_nil, rfl⟩

theorem Since.concat (h : Since tokens (.one p :: ts) consumed) (x : α) :
    Since tokens ts (consumed ++ [x]) := by
  obtain ⟨seg, rfl, hseg, hlen⟩ := h
  refine ⟨seg ++ [.one p], by simp, ?_, by simp [hlen]⟩
  intro t ht
  rcases List.mem_append.mp ht with hold | hnew
  · exact hseg t hold
  · obtain rfl := List.mem_singleton.mp hnew
    exact trivial

theorem all_star_iff : (ts.all fun
      | .star => true
      | .one _ => false) = true ↔ Matches ts [] := by
  rw [List.all_eq_true, matches_empty]
  refine forall_congr' fun _ => imp_congr_right fun _ => ?_
  split <;> simp

/-- The loop decides whether what is left can be matched, by the tokens ahead or by letting the last
star take more. -/
theorem wildcardLoop_iff (ts : List (Wildcard α)) (xs consumed : List α)
    (back : Option (List (Wildcard α))) (h : ∀ tokens ∈ back, Since tokens ts consumed) :
    wildcardLoop ts xs consumed back = true ↔
      Matches ts xs ∨ ∃ tokens ∈ back, Retries tokens (consumed ++ xs) := by
  induction ts, xs, consumed, back using wildcardLoop.induct with
  | case1 ts consumed back =>
    rw [wildcardLoop, all_star_iff]
    refine (or_iff_left_of_imp ?_).symm
    rintro ⟨tokens, htokens, hretries⟩
    obtain ⟨left, hleft, hmatch⟩ := (h tokens htokens).retries hretries
    exact List.suffix_nil.mp hleft ▸ hmatch
  | case2 consumed back x more ts ih =>
    -- the star ahead takes the place of the one before
    rw [wildcardLoop, ih (by rintro tokens ⟨⟩; exact since_star ts)]
    have hhere : Matches ts (x :: more) ∨ Retries ts (x :: more) ↔
        Matches (.star :: ts) (x :: more) := by
      rw [matches_or_retries, matches_star]
    simp only [Option.mem_some_iff, exists_eq_left', List.nil_append, hhere]
    refine (or_iff_left_of_imp ?_).symm
    rintro ⟨tokens, htokens, hretries⟩
    obtain ⟨left, hleft, hmatch⟩ := (h tokens htokens).retries hretries
    exact hmatch.star_of_suffix hleft
  | case3 consumed back x more p ts hp ih =>
    rw [wildcardLoop.eq_def]
    dsimp only
    rw [if_pos hp, ih fun tokens htokens => (h tokens htokens).concat x]
    simp [hp]
  | case4 consumed x more p ts hp tokens ih =>
    rw [wildcardLoop.eq_def]
    dsimp only
    rw [if_neg hp, ih (by rintro tokens' ⟨⟩; exact since_star tokens)]
    have hstuck : ¬ Matches (.one p :: ts) (x :: more) := by simp [hp]
    simp only [Option.mem_some_iff, exists_eq_left', List.nil_append, or_iff_right hstuck]
    exact matches_or_retries
  | case5 consumed x more p ts hp => simp [wildcardLoop, hp]
  | case6 consumed x more tokens ih =>
    rw [wildcardLoop, ih (by rintro tokens' ⟨⟩; exact since_star tokens)]
    have hstuck : ¬ Matches [] (x :: more) := by simp
    simp only [Option.mem_some_iff, exists_eq_left', List.nil_append, or_iff_right hstuck]
    exact matches_or_retries
  | case7 consumed x more => simp [wildcardLoop]

/-- The loop decides whether a list splits along the tokens. -/
theorem wildcardLoop_start (ts : List (Wildcard α)) (xs : List α) :
    wildcardLoop ts xs [] none = true ↔ Matches ts xs := by
  rw [wildcardLoop_iff ts xs [] none (by simp)]
  simp

end Wildcard

end KimixNative
