import Mathlib.Data.List.Basic

/-!
# Walks over a text

A walk cuts a list into pieces, each as long as `advance` says at the place where the piece
begins (and at least one element, so that it ends). `Local` says that `advance` depends on
what it passes over only: then a cut between two pieces leaves the pieces on both sides as
they are.
-/

namespace KimixNative

variable {α : Type*}

/-- The length of the piece that the list begins with. -/
def pieceLength (advance : List α → Nat) (text : List α) : Nat :=
  max 1 (min (advance text) text.length)

/-- The pieces of a list. -/
def cuts (advance : List α → Nat) : List α → List (List α)
  | [] => []
  | a :: rest =>
    (a :: rest).take (pieceLength advance (a :: rest)) ::
      cuts advance ((a :: rest).drop (pieceLength advance (a :: rest)))
termination_by text => text.length
decreasing_by
  simp only [List.length_drop, List.length_cons, pieceLength]
  omega

/-- A piece is as long in front of another end of the text, as long as it fits. -/
def Local (advance : List α → Nat) : Prop :=
  ∀ xs ys, xs ≠ [] → advance (xs ++ ys) ≤ xs.length → advance xs = advance (xs ++ ys)

/-- A whole piece, whatever follows it. -/
structure Piece (advance : List α → Nat) (piece : List α) : Prop where
  ne_nil : piece ≠ []
  advance_eq : ∀ rest, advance (piece ++ rest) = piece.length

variable {advance : List α → Nat}

@[simp] theorem cuts_nil : cuts advance [] = [] := by rw [cuts]

theorem cuts_of_ne_nil {text : List α} (h : text ≠ []) :
    cuts advance text = text.take (pieceLength advance text) ::
      cuts advance (text.drop (pieceLength advance text)) := by
  cases text with
  | nil => exact absurd rfl h
  | cons a rest => rw [cuts]

theorem cuts_flatten (text : List α) : (cuts advance text).flatten = text := by
  induction text using cuts.induct advance with
  | case1 => simp
  | case2 a rest ih =>
    rw [cuts, List.flatten_cons, ih, List.take_append_drop]

theorem ne_nil_of_mem_cuts {text piece : List α} (h : piece ∈ cuts advance text) :
    piece ≠ [] := by
  induction text using cuts.induct advance with
  | case1 => simp at h
  | case2 a rest ih =>
    rw [cuts, List.mem_cons] at h
    obtain rfl | h := h
    · simp [pieceLength]
    · exact ih h

theorem length_cuts_le (text : List α) : (cuts advance text).length ≤ text.length := by
  have hlength : ∀ pieces : List (List α), (∀ piece ∈ pieces, piece ≠ []) →
      pieces.length ≤ pieces.flatten.length := by
    intro pieces hpieces
    induction pieces with
    | nil => simp
    | cons piece pieces ih =>
      have hpiece := List.length_pos_iff.mpr (hpieces piece (by simp))
      have hrest := ih fun p hp => hpieces p (List.mem_cons_of_mem _ hp)
      simp only [List.length_cons, List.flatten_cons, List.length_append]
      omega
  have h := hlength (cuts advance text) fun _ => ne_nil_of_mem_cuts
  rwa [cuts_flatten] at h

theorem cuts_piece_append {piece : List α} (h : Piece advance piece) (rest : List α) :
    cuts advance (piece ++ rest) = piece :: cuts advance rest := by
  have hpos := List.length_pos_iff.mpr h.ne_nil
  have hlength : pieceLength advance (piece ++ rest) = piece.length := by
    simp only [pieceLength, h.advance_eq, List.length_append]
    omega
  rw [cuts_of_ne_nil (by simp [h.ne_nil]), hlength]
  simp

variable {pieces : List (List α)}

/-- A text of whole pieces in front of another one is cut into these pieces. -/
theorem cuts_pieces_append (h : ∀ piece ∈ pieces, Piece advance piece) (rest : List α) :
    cuts advance (pieces.flatten ++ rest) = pieces ++ cuts advance rest := by
  induction pieces with
  | nil => rfl
  | cons piece pieces ih =>
    rw [List.flatten_cons, List.append_assoc, cuts_piece_append (h piece (by simp)),
      ih fun p hp => h p (List.mem_cons_of_mem _ hp), List.cons_append]

theorem cuts_pieces (h : ∀ piece ∈ pieces, Piece advance piece) :
    cuts advance pieces.flatten = pieces := by
  simpa using cuts_pieces_append h []

/-- The first pieces of a walk, on their own, are cut in the same way. -/
theorem cuts_of_initial (hlocal : Local advance) {text : List α} {rest : List (List α)}
    (h : cuts advance text = pieces ++ rest) : cuts advance pieces.flatten = pieces := by
  induction pieces generalizing text with
  | nil => simp
  | cons piece pieces ih =>
    have hne : text ≠ [] := by
      rintro rfl
      simp at h
    rw [cuts_of_ne_nil hne, List.cons_append, List.cons.injEq] at h
    obtain ⟨hpiece, hrest⟩ := h
    have hpieces := ih hrest
    have htext : text = (piece :: pieces).flatten ++ rest.flatten := by
      have hflat := congrArg List.flatten hrest
      rw [cuts_flatten, List.flatten_append] at hflat
      rw [List.flatten_cons, List.append_assoc, ← hflat, ← hpiece, List.take_append_drop]
    have hpos := List.length_pos_iff.mpr hne
    have hlength : piece.length = pieceLength advance text := by
      rw [← hpiece, List.length_take, pieceLength]
      omega
    have hflatten : (piece :: pieces).flatten.length = piece.length + pieces.flatten.length := by
      simp
    have htextlen := congrArg List.length htext
    rw [List.length_append] at htextlen
    have hne' : (piece :: pieces).flatten ≠ [] := by
      refine List.length_pos_iff.mp ?_
      rw [hflatten, hlength, pieceLength]
      omega
    have hadvance : pieceLength advance (piece :: pieces).flatten = piece.length := by
      by_cases hfit : advance text ≤ (piece :: pieces).flatten.length
      · have hsame := hlocal (piece :: pieces).flatten rest.flatten hne'
        rw [← htext] at hsame
        rw [pieceLength, hsame hfit, hlength, pieceLength]
        rw [hlength, pieceLength] at hflatten
        omega
      · -- the piece is all that is left of the text
        have hwhole : rest.flatten = [] := by
          have hlength' := hlength
          rw [pieceLength] at hlength'
          exact List.length_eq_zero_iff.mp (by omega)
        rw [hwhole, List.append_nil] at htext
        rw [← htext, hlength]
    rw [cuts_of_ne_nil hne', hadvance]
    simp [hpieces]

end KimixNative
