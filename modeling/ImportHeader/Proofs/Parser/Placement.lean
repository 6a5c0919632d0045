import ImportHeader.Proofs.Parser.Progress
import ImportHeader.Proofs.Text.Bytes
import ImportHeader.Proofs.Token.Comments

/-! Cursors and the pieces they stand before. A cursor that moves forward leaves pieces behind,
and what it has passed is a part of the source.
-/

namespace ImportHeader

open Lexer

/-- What a lexeme is, without its place and the trivia behind it. -/
def Lexeme.piece (lexeme : Lexeme) : Piece :=
  lexeme.token.piece

/-- Trivia before tokens goes into the gap before them. -/
theorem lexemes_gap {gap : List Piece} (isGap : IsGap gap) (offset : Nat) (rest : List Piece)
    : lexemes (place offset (gap ++ rest))
      = (place offset gap ++ (lexemes (place (offset + Text.size (joined gap)) rest)).1,
          (lexemes (place (offset + Text.size (joined gap)) rest)).2) := by
  induction gap generalizing offset with
  | nil => simp [place]
  | cons piece gap ih =>
      have trivia : piece.1.isTrivia = true := isGap piece List.mem_cons_self
      have later := ih (fun other listed => isGap other (List.mem_cons_of_mem _ listed))
        (offset + piece.2.size)
      rw [List.cons_append, place, lexemes, later]
      simp only [trivia, if_true, joined_cons, Text.size_append, place, List.cons_append,
        Nat.add_assoc]

theorem lexemes_solid {piece : Piece} (solid : piece.isTrivia = false) (offset : Nat)
    (rest : List Piece)
    : lexemes (place offset (piece :: rest))
      = ([], ⟨⟨piece.1, piece.2, offset⟩, (lexemes (place (offset + piece.2.size) rest)).1⟩
          :: (lexemes (place (offset + piece.2.size) rest)).2) := by
  have solid' : piece.1.isTrivia = false := solid
  rw [place, lexemes]
  simp only [solid', Bool.false_eq_true, if_false]

/-- Pieces are a gap and what follows it, which starts with a token if there is any. -/
theorem exists_gap (pieces : List Piece)
    : ∃ gap rest, pieces = gap ++ rest ∧ IsGap gap
        ∧ ∀ piece ∈ rest.head?, piece.isTrivia = false := by
  refine ⟨pieces.takeWhile Piece.isTrivia, pieces.dropWhile Piece.isTrivia,
    List.takeWhile_append_dropWhile.symm, fun piece listed => List.mem_takeWhile_imp listed,
    fun piece first => ?_⟩
  have stops := List.head?_dropWhile_not Piece.isTrivia pieces
  rw [Option.mem_def.mp first] at stops
  simpa using stops

/-- There is no trivia at the start of pieces that start with a token. -/
theorem lexemes_of_head? {pieces : List Piece}
    (solid : ∀ piece ∈ pieces.head?, piece.isTrivia = false) (offset : Nat)
    : (lexemes (place offset pieces)).1 = [] := by
  cases pieces with
  | nil => rfl
  | cons piece pieces => rw [lexemes_solid (solid piece rfl)]

theorem lexemes_eq_nil {pieces : List Piece} (isGap : IsGap pieces) (offset : Nat)
    : lexemes (place offset pieces) = (place offset pieces, []) := by
  have all := lexemes_gap isGap offset []
  rw [List.append_nil] at all
  rw [all]
  simp [place, lexemes]

/-- The lexemes of pieces are those that carry syntax. -/
theorem map_piece_lexemes (offset : Nat) (pieces : List Piece)
    : (lexemes (place offset pieces)).2.map Lexeme.piece = solids pieces := by
  induction pieces generalizing offset with
  | nil => rfl
  | cons piece pieces ih =>
      cases trivia : piece.isTrivia with
      | true =>
          have isGap : IsGap [piece] := isGap_nil.cons trivia
          have same := congrArg Prod.snd (lexemes_gap isGap offset pieces)
          rw [List.singleton_append] at same
          rw [same, ih]
          simp [solids, trivia]
      | false =>
          rw [lexemes_solid trivia, List.map_cons, ih]
          simp only [solids, List.filter_cons, trivia, Bool.not_false, if_true]
          rfl

/-- A piece without the blanks at its end is a part of the text of the pieces. -/
theorem isInfix_joined {piece : Piece} {pieces : List Piece} (listed : piece ∈ pieces)
    : Text.trimEnd piece.2 <:+: joined pieces := by
  obtain ⟨left, right, rfl⟩ := List.append_of_mem listed
  obtain ⟨blanks, whole, _⟩ := Text.exists_trimEnd piece.2
  refine ⟨joined left, blanks ++ joined right, ?_⟩
  rw [joined_append, joined_cons, ← List.append_assoc, ← List.append_assoc,
    List.append_assoc _ _ blanks, ← whole, List.append_assoc]

namespace Cursor

variable {start stop cursor : Cursor} {front : Text} {pieces rest gap : List Piece} {piece : Piece}

/-- A cursor stands behind a text and before pieces. -/
structure Before (cursor : Cursor) (front : Text) (pieces : List Piece) : Prop where
  source_eq : cursor.source = front ++ joined pieces
  lexemes_eq : lexemes (place front.size pieces) = (cursor.gap, cursor.ahead)

theorem Before.map_piece (before : cursor.Before front pieces)
    : cursor.ahead.map Lexeme.piece = solids pieces := by
  rw [← map_piece_lexemes front.size pieces, before.lexemes_eq]

/-- The trivia before a cursor is among the pieces that it stands before. -/
theorem Before.piece_mem_of_gap (before : cursor.Before front pieces) {token : Token}
    (inside : token ∈ cursor.gap)
    : token.piece ∈ pieces := by
  have same := before.lexemes_eq
  obtain ⟨gap, rest, rfl, isGap, solid⟩ := exists_gap pieces
  rw [lexemes_gap isGap, lexemes_of_head? solid, List.append_nil, Prod.mk.injEq] at same
  rw [← same.1] at inside
  refine List.mem_append_left _ ?_
  rw [← map_piece_place front.size gap]
  exact List.mem_map_of_mem inside

/-- A comment before a cursor is a part of what is left of the source. -/
theorem Before.isInfix_of_gap (before : cursor.Before front pieces) {token : Token}
    (inside : token ∈ cursor.gap)
    : token.text.trimEnd <:+: joined pieces :=
  isInfix_joined (before.piece_mem_of_gap inside)

/-- A cursor whose next token is known. -/
theorem Before.next (before : cursor.Before front (gap ++ piece :: rest)) (isGap : IsGap gap)
    (solid : piece.isTrivia = false)
    : cursor.gap = place front.size gap
      ∧ cursor.ahead
        = ⟨⟨piece.1, piece.2, (front ++ joined gap).size⟩,
            (lexemes (place (front ++ joined gap ++ piece.2).size rest)).1⟩
          :: (lexemes (place (front ++ joined gap ++ piece.2).size rest)).2 := by
  have same := before.lexemes_eq
  rw [lexemes_gap isGap, lexemes_solid solid, List.append_nil, Prod.mk.injEq] at same
  simp only [Text.size_append]
  exact ⟨same.1.symm, same.2.symm⟩

theorem Before.advance (before : cursor.Before front (gap ++ piece :: rest)) (isGap : IsGap gap)
    (solid : piece.isTrivia = false)
    : cursor.advance.Before (front ++ joined gap ++ piece.2) rest
      ∧ cursor.advance.lastEnd = (front ++ joined gap ++ piece.2).size := by
  obtain ⟨_, ahead⟩ := before.next isGap solid
  unfold Cursor.advance
  rw [ahead]
  refine ⟨⟨?_, rfl⟩, ?_⟩
  · rw [before.source_eq]
    simp
  · simp only [Token.stop, Text.size_append]

/-- Passing trivia moves a cursor behind some of the gap. -/
theorem Before.pass {less : List Token} (before : cursor.Before front pieces)
    (later : less <:+ cursor.gap)
    : ∃ passed rest, pieces = passed ++ rest ∧ IsGap passed
        ∧ { cursor with gap := less }.Before (front ++ joined passed) rest := by
  obtain ⟨gap, rest, rfl, isGap, solid⟩ := exists_gap pieces
  have none : (lexemes (place (front ++ joined gap).size rest)).1 = [] := lexemes_of_head? solid _
  have same := before.lexemes_eq
  rw [lexemes_gap isGap, ← Text.size_append, none, List.append_nil, Prod.mk.injEq] at same
  obtain ⟨passed, cut⟩ := later
  -- The gap of the cursor is the placed gap, so a part of one is a part of the other.
  obtain ⟨left, right, rfl, rfl, rfl⟩ := exists_of_place_eq (same.1.trans cut.symm)
  have isGap' : IsGap right := fun piece listed => isGap piece (by simp [listed])
  refine ⟨left, right ++ rest, by simp, fun piece listed => isGap piece (by simp [listed]),
    ⟨?_, ?_⟩⟩
  · rw [before.source_eq]
    simp
  · simp only [joined_append, Text.size_append, ← Nat.add_assoc] at same none
    rw [lexemes_gap isGap', Text.size_append, none, List.append_nil, ← same.2]

/-- Where the last token ends, behind the pieces that were passed. -/
def EndsBehind (start stop : Cursor) (front : Text) (passed : List Piece) : Prop :=
  IsGap passed ∧ stop.lastEnd = start.lastEnd
  ∨ ∃ body last gap, passed = body ++ last :: gap ∧ last.isTrivia = false ∧ IsGap gap
      ∧ stop.lastEnd = Text.size (front ++ joined (body ++ [last]))

theorem EndsBehind.append {less : List Token} {passed more : List Piece}
    (ends : EndsBehind start stop front passed) (isGap : IsGap more)
    : EndsBehind start { stop with gap := less } front (passed ++ more) := by
  rcases ends with ⟨isGap', same⟩ | ⟨body, last, gap, rfl, solid, isGap', same⟩
  · refine .inl ⟨fun piece listed => ?_, same⟩
    rcases List.mem_append.mp listed with here | later
    · exact isGap' piece here
    · exact isGap piece later
  · refine .inr ⟨body, last, gap ++ more, by simp, solid, fun piece listed => ?_, same⟩
    rcases List.mem_append.mp listed with here | later
    · exact isGap' piece here
    · exact isGap piece later

/-- A cursor that is reached stands behind some of the pieces. -/
theorem Reaches.before (reached : start.Reaches stop) (before : start.Before front pieces)
    : ∃ passed rest, pieces = passed ++ rest ∧ stop.Before (front ++ joined passed) rest
        ∧ EndsBehind start stop front passed := by
  induction reached with
  | refl => exact ⟨[], pieces, rfl, by simpa using before, .inl ⟨isGap_nil, rfl⟩⟩
  | @advance stop _ ih =>
      obtain ⟨passed, rest, rfl, later, ends⟩ := ih
      obtain ⟨gap, rest, rfl, isGap, solid⟩ := exists_gap rest
      cases rest with
      | nil =>
          have none : stop.ahead = [] := by
            have same := later.lexemes_eq
            rw [List.append_nil, lexemes_eq_nil isGap] at same
            exact (Prod.mk.inj same).2.symm
          have stays : stop.advance = stop := by
            unfold Cursor.advance
            rw [none]
          rw [stays]
          exact ⟨passed, gap ++ [], rfl, later, ends⟩
      | cons piece rest =>
          obtain ⟨moved, lastEnd⟩ := later.advance isGap (solid piece rfl)
          refine ⟨passed ++ gap ++ [piece], rest, by simp, ?_, ?_⟩
          · simpa using moved
          · refine .inr ⟨passed ++ gap, piece, [], rfl, solid piece rfl, isGap_nil, ?_⟩
            rw [lastEnd]
            simp
  | @pass stop less _ later ih =>
      obtain ⟨passed, rest, rfl, here, ends⟩ := ih
      obtain ⟨more, rest, rfl, isGap, there⟩ := here.pass later
      exact ⟨passed ++ more, rest, by simp, by simpa using there, ends.append isGap⟩

/-- Passing no token passes trivia only. -/
theorem Reaches.before_of_ahead (reached : start.Reaches stop)
    (before : start.Before front pieces) (same : stop.ahead = start.ahead)
    : ∃ passed rest, pieces = passed ++ rest ∧ IsGap passed
        ∧ stop.Before (front ++ joined passed) rest := by
  obtain ⟨passed, rest, rfl, later, _⟩ := reached.before before
  refine ⟨passed, rest, rfl, ?_, later⟩
  have all := before.map_piece
  rw [← same, later.map_piece, solids_append] at all
  have none : solids passed = [] := List.self_eq_append_left.mp all
  intro piece listed
  have absent := List.filter_eq_nil_iff.mp none piece listed
  simpa using absent

theorem solids_concat {piece : Piece} (solid : piece.isTrivia = false) (pieces : List Piece)
    : solids (pieces ++ [piece]) = solids pieces ++ [piece] := by
  rw [solids_append]
  simp [solids, solid]

/-- Pieces that end with a token hold more tokens than any front of them. -/
theorem eq_nil_of_solids {left right more : List Piece} {last : Piece}
    (cut : right ++ [last] = left ++ more) (solid : last.isTrivia = false)
    (count : (solids left).length = (solids (right ++ [last])).length)
    : more = [] := by
  rcases List.eq_nil_or_concat more with none | ⟨others, other, rfl⟩
  · exact none
  · rw [List.concat_eq_append, ← List.append_assoc] at cut
    obtain ⟨rfl, same⟩ := List.append_inj' cut rfl
    rw [solids_concat solid, solids_append] at count
    simp only [List.length_append, List.length_singleton] at count
    omega

/-- Two fronts of the same pieces that end with a token are the same if they hold as many
tokens.
-/
theorem front_unique {left right more others : List Piece} {last last' : Piece}
    (cut : left ++ [last] ++ more = right ++ [last'] ++ others)
    (solid : last.isTrivia = false) (solid' : last'.isTrivia = false)
    (count : (solids (left ++ [last])).length = (solids (right ++ [last'])).length)
    : left ++ [last] = right ++ [last'] := by
  rcases List.append_eq_append_iff.mp cut with ⟨between, longer, _⟩ | ⟨between, longer, _⟩
  · rw [eq_nil_of_solids longer solid' count, List.append_nil] at longer
    exact longer.symm
  · rw [eq_nil_of_solids longer solid count.symm, List.append_nil] at longer
    exact longer

/-- A cursor that has passed the tokens of a block has passed the block. -/
theorem Reaches.behind_block {block : List Piece} (reached : start.Reaches stop)
    (before : start.Before front (gap ++ block ++ rest)) (isGap : IsGap gap)
    (isBlock : IsBlock block)
    (left : stop.ahead = start.ahead.drop (solids block).length)
    : stop.lastEnd = Text.size (front ++ joined gap ++ joined block)
      ∧ ∃ passed others, rest = passed ++ others ∧ IsGap passed
          ∧ stop.Before (front ++ joined gap ++ joined block ++ joined passed) others := by
  obtain ⟨_, body, last, rfl, solid⟩ := isBlock
  obtain ⟨passed, others, cut, later, ends⟩ := reached.before before
  have some : 0 < (solids (body ++ [last])).length := by
    rw [solids_concat solid]
    simp
  have count : (solids passed).length = (solids (body ++ [last])).length := by
    have all := congrArg List.length before.map_piece
    have less := congrArg List.length later.map_piece
    rw [cut] at all
    have within := congrArg (fun pieces => (solids pieces).length) cut
    simp only [List.length_map, left, List.length_drop, solids_append, List.length_append]
      at all less within
    simp only [solids_append, List.length_append] at some ⊢
    omega
  rcases ends with ⟨isGap', _⟩ | ⟨body', last', gap', rfl, solid', isGap', lastEnd⟩
  · rw [isGap'.solids_eq] at count
    simp only [List.length_nil] at count
    omega
  · have split : gap ++ body ++ [last] ++ rest = body' ++ [last'] ++ (gap' ++ others) := by
      simpa using cut
    have same : gap ++ body ++ [last] = body' ++ [last'] := by
      refine front_unique split solid solid' ?_
      rw [List.append_assoc, solids_append, isGap.solids_eq, List.nil_append, ← count,
        List.append_cons, solids_append, isGap'.solids_eq, List.append_nil]
    have rest' : rest = gap' ++ others := by
      rw [same] at split
      exact List.append_cancel_left split
    have texts : joined (body' ++ [last']) = joined gap ++ joined (body ++ [last]) := by
      rw [← same, List.append_assoc, joined_append]
    refine ⟨?_, gap', others, rest', isGap', ?_⟩
    · rw [lastEnd, texts, List.append_assoc]
    · rw [List.append_cons, joined_append, texts] at later
      simpa using later

/-- A cursor that passes tokens passes a block. -/
theorem Passes.exists_block (passes : start.Passes stop) (reached : start.Reaches stop)
    (before : start.Before front pieces)
    : ∃ gap block rest, pieces = gap ++ block ++ rest ∧ IsGap gap ∧ IsBlock block
        ∧ stop.ahead = start.ahead.drop (solids block).length := by
  obtain ⟨passed, others, rfl, later, ends⟩ := reached.before before
  have all := congrArg List.length before.map_piece
  have less := congrArg List.length later.map_piece
  simp only [List.length_map, solids_append, List.length_append] at all less
  unfold Passes at passes
  rcases ends with ⟨isGap, _⟩ | ⟨body, last, behind, rfl, solid, isGap, _⟩
  · rw [isGap.solids_eq, List.length_nil] at all
    omega
  · obtain ⟨gap, block, cut, isGap', first⟩ := exists_gap (body ++ [last])
    -- The last token is none of the trivia at the start.
    obtain ⟨first', others', rfl⟩ : ∃ first' others', block = first' :: others' := by
      refine List.exists_cons_of_ne_nil ?_
      rintro rfl
      have trivia := isGap' last (by simp [← List.append_nil gap ▸ cut])
      rw [solid] at trivia
      cases trivia
    have ending : ∃ init last', first' :: others' = init ++ [last'] ∧ last'.isTrivia = false := by
      have last? := congrArg List.getLast? cut
      rw [List.getLast?_concat, List.getLast?_append_of_ne_nil _ (List.cons_ne_nil _ _)] at last?
      obtain ⟨init, same⟩ := List.getLast?_eq_some_iff.mp last?.symm
      exact ⟨init, last, same, solid⟩
    refine ⟨gap, first' :: others', behind ++ others, ?_, isGap',
      ⟨⟨first', others', rfl, first first' rfl⟩, ending⟩, ?_⟩
    · rw [← cut]
      simp
    · have count : (solids (first' :: others')).length = (solids (body ++ last :: behind)).length := by
        rw [List.append_cons, solids_append, cut, solids_append, isGap'.solids_eq, isGap.solids_eq,
          List.nil_append, List.append_nil]
      rw [List.suffix_iff_eq_drop.mp reached.ahead_suffix]
      congr 1
      omega

end Cursor

end ImportHeader
