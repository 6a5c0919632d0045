import ImportHeader.Proofs.Text.Bytes
import ImportHeader.Proofs.Text.Lines
import ImportHeader.Token.Lexer
import Mathlib.Data.List.Infix

/-! The pieces into which the lexer cuts a text: tokens without their places. The pieces join
to the text, every place follows from the pieces before it, and what stands behind a boundary
is cut as if it stood alone.
-/

namespace ImportHeader

/-- A token without its place. -/
abbrev Piece := TokenKind × Text

/-- The piece that a token is. -/
def Token.piece (token : Token) : Piece :=
  (token.kind, token.text)

namespace Lexer

/-- The pieces of code. -/
def cut (text : Text) : List Piece :=
  (tokensFrom 0 0 text).map Token.piece

/-- The text of pieces in order. -/
def joined (pieces : List Piece) : Text :=
  pieces.flatMap Prod.snd

/-- Pieces as tokens, the first of which starts at `offset`. -/
def place (offset : Nat) : List Piece → List Token
  | [] => []
  | piece :: rest => ⟨piece.1, piece.2, offset⟩ :: place (offset + piece.2.size) rest

@[simp] theorem joined_nil : joined [] = [] :=
  rfl

@[simp] theorem joined_cons (piece : Piece) (rest : List Piece)
    : joined (piece :: rest) = piece.2 ++ joined rest :=
  rfl

@[simp] theorem joined_append (left right : List Piece)
    : joined (left ++ right) = joined left ++ joined right :=
  List.flatMap_append

theorem tokensFrom_pending (offset pending : Nat) (text : Text)
    : tokensFrom offset pending text = tokensFrom offset 0 (text.drop pending) := by
  induction text generalizing pending with
  | nil => cases pending <;> simp [tokensFrom]
  | cons c rest ih =>
      cases pending with
      | zero => rfl
      | succ pending =>
          rw [tokensFrom, ih]
          rfl

theorem map_piece_tokensFrom (offset offset' pending : Nat) (text : Text)
    : (tokensFrom offset pending text).map Token.piece
      = (tokensFrom offset' pending text).map Token.piece := by
  induction text generalizing offset offset' pending with
  | nil => cases pending <;> rfl
  | cons c rest ih =>
      cases pending with
      | zero =>
          simp only [tokensFrom, List.map_cons, List.cons.injEq]
          exact ⟨rfl, ih _ _ _⟩
      | succ pending => exact ih _ _ _

/-- The tokens of code are its pieces, placed one behind the other. -/
theorem tokensFrom_eq_place (offset : Nat) (text : Text)
    : tokensFrom offset 0 text = place offset (cut text) := by
  rw [cut, map_piece_tokensFrom 0 offset]
  have all (offset pending : Nat) (text : Text)
      : tokensFrom offset pending text
        = place offset ((tokensFrom offset pending text).map Token.piece) := by
    induction text generalizing offset pending with
    | nil => cases pending <;> rfl
    | cons c rest ih =>
        cases pending with
        | zero =>
            simp only [tokensFrom, List.map_cons, place]
            congr 1
            exact ih _ _
        | succ pending => exact ih _ _
  exact all offset 0 text

@[simp] theorem cut_nil : cut [] = [] :=
  rfl

/-- The first piece is what the lexer takes, and the rest is cut by itself. -/
theorem cut_cons (c : Char) (rest : Text)
    : cut (c :: rest)
      = ((munch c rest).1, c :: rest.take (munch c rest).2)
        :: cut (rest.drop (munch c rest).2) := by
  rw [cut, tokensFrom]
  simp only [List.map_cons]
  rw [map_piece_tokensFrom _ 0, tokensFrom_pending]
  rfl

/-- Nothing is lost. -/
theorem joined_cut (text : Text) : joined (cut text) = text := by
  induction h : text.length using Nat.strongRecOn generalizing text with
  | ind length ih =>
      cases text with
      | nil => rfl
      | cons c rest =>
          rw [cut_cons, joined_cons, ih (rest.drop (munch c rest).2).length _ _ rfl]
          · simp
          · rw [← h, List.length_drop, List.length_cons]
            omega

/-- What holds of every piece that the lexer can take holds of all pieces of a text. -/
theorem forall_mem_cut {holds : Piece → Prop}
    (each : ∀ c rest, holds ((munch c rest).1, c :: rest.take (munch c rest).2)) (text : Text)
    : ∀ piece ∈ cut text, holds piece := by
  induction h : text.length using Nat.strongRecOn generalizing text with
  | ind length ih =>
      cases text with
      | nil => simp
      | cons c rest =>
          rw [cut_cons, List.forall_mem_cons]
          refine ⟨each c rest, ih (rest.drop (munch c rest).2).length ?_ _ rfl⟩
          rw [← h, List.length_drop, List.length_cons]
          omega

/-- Pieces are not empty. -/
theorem cut_ne_nil {text : Text} {piece : Piece} (listed : piece ∈ cut text)
    : piece.2 ≠ [] := by
  have each : ∀ piece ∈ cut text, piece.2 ≠ [] :=
    forall_mem_cut (fun _ _ => List.cons_ne_nil _ _) text
  exact each piece listed

/-- What stands behind a boundary is cut as if it stood alone. -/
theorem cut_of_append {text : Text} {front back : List Piece} (pieces : cut text = front ++ back)
    : cut (joined back) = back := by
  induction front generalizing text with
  | nil =>
      rw [List.nil_append] at pieces
      rw [← pieces, joined_cut]
  | cons first front ih =>
      cases text with
      | nil => cases pieces
      | cons c rest =>
          rw [cut_cons, List.cons_append, List.cons.injEq] at pieces
          exact ih pieces.2

/-- A text is the pieces before a boundary and those behind it. -/
theorem eq_joined_of_cut {text : Text} {front back : List Piece}
    (pieces : cut text = front ++ back)
    : text = joined front ++ joined back := by
  rw [← joined_append, ← pieces, joined_cut]

-----------------------------------------------------------------------------------------
-- Pieces at their places
-----------------------------------------------------------------------------------------

theorem map_piece_place (offset : Nat) (pieces : List Piece)
    : (place offset pieces).map Token.piece = pieces := by
  induction pieces generalizing offset with
  | nil => rfl
  | cons piece pieces ih =>
      rw [place, List.map_cons, ih]
      rfl

theorem place_append (offset : Nat) (left right : List Piece)
    : place offset (left ++ right)
      = place offset left ++ place (offset + Text.size (joined left)) right := by
  induction left generalizing offset with
  | nil => simp [place]
  | cons piece left ih =>
      rw [List.cons_append, place, ih, place, joined_cons, Text.size_append, Nat.add_assoc]
      rfl

/-- Placed pieces are cut where the pieces are. -/
theorem exists_of_place_eq {offset : Nat} {pieces : List Piece} {left right : List Token}
    (cut : place offset pieces = left ++ right)
    : ∃ front back, pieces = front ++ back ∧ left = place offset front
        ∧ right = place (offset + Text.size (joined front)) back := by
  induction left generalizing offset pieces with
  | nil => exact ⟨[], pieces, rfl, rfl, cut.symm⟩
  | cons token left ih =>
      cases pieces with
      | nil => cases cut
      | cons piece pieces =>
          rw [place, List.cons_append, List.cons.injEq] at cut
          obtain ⟨front, back, rfl, rfl, rfl⟩ := ih cut.2
          refine ⟨piece :: front, back, rfl, ?_, ?_⟩
          · rw [place, cut.1]
          · rw [joined_cons, Text.size_append, Nat.add_assoc]

theorem flatMap_text_place (offset : Nat) (pieces : List Piece)
    : (place offset pieces).flatMap Token.text = joined pieces := by
  induction pieces generalizing offset with
  | nil => rfl
  | cons piece pieces ih => rw [place, List.flatMap_cons, ih, joined_cons]

/-- A placed piece starts behind all that stands before it. -/
theorem offset_of_place_eq {offset : Nat} {pieces : List Piece} {front back : List Token}
    {token : Token} (cut : place offset pieces = front ++ token :: back)
    : token.offset = offset + Text.size (front.flatMap Token.text) := by
  obtain ⟨before, behind, rfl, rfl, rest⟩ := exists_of_place_eq cut
  rw [flatMap_text_place]
  cases behind with
  | nil => cases rest
  | cons piece behind =>
      rw [place, List.cons.injEq] at rest
      rw [rest.1]

theorem le_offset_of_mem_place {offset : Nat} {pieces : List Piece} {token : Token}
    (listed : token ∈ place offset pieces)
    : offset ≤ token.offset := by
  obtain ⟨front, back, cut⟩ := List.append_of_mem listed
  rw [offset_of_place_eq cut]
  exact Nat.le_add_right _ _

/-- Placed pieces stand one behind the other. -/
theorem pairwise_place (offset : Nat) (pieces : List Piece)
    : (place offset pieces).Pairwise (fun left right => left.stop ≤ right.offset) := by
  induction pieces generalizing offset with
  | nil => exact .nil
  | cons piece pieces ih =>
      exact List.pairwise_cons.mpr ⟨fun _ later => le_offset_of_mem_place later, ih _⟩

end Lexer

end ImportHeader
