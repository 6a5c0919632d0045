import ImportHeader.Proofs.Parser.Placement
import ImportHeader.Proofs.Parser.StatementTracking

/-! What is read from blocks. Whether a block is a statement, and which one, hangs on its tokens
and on the tokens behind it, but not on places and trivia. So blocks that are read one after
the other in one source are read in every source in which they stand that way.
-/

namespace ImportHeader

open Lexer

/-- What counts of a statement. -/
abbrev Essence := Bool × Option Import × List Fact

/-- A lexeme that is a given piece. -/
def Lexeme.ofPiece (piece : Piece) : Lexeme :=
  ⟨⟨piece.1, piece.2, 0⟩, []⟩

@[simp] theorem Lexeme.piece_ofPiece (piece : Piece) : (Lexeme.ofPiece piece).piece = piece :=
  rfl

@[simp] theorem map_piece_ofPiece (pieces : List Piece)
    : (pieces.map Lexeme.ofPiece).map Lexeme.piece = pieces := by
  rw [List.map_map]
  exact List.map_id pieces

theorem Lexeme.isKeyword_of_piece {left right : Lexeme} (same : left.piece = right.piece)
    (keyword : Text)
    : left.token.isKeyword keyword = right.token.isKeyword keyword := by
  obtain ⟨kind, text⟩ := Prod.mk.inj same
  unfold Token.isKeyword
  rw [kind, text]

/-- Only the pieces of lexemes count for whether lists of them are near. -/
theorem Near.congr {count : Nat} {left right left' right' : List Lexeme}
    (near : Near count left right) (same : left'.map Lexeme.piece = left.map Lexeme.piece)
    (same' : right'.map Lexeme.piece = right.map Lexeme.piece)
    : Near count left' right' := by
  induction near generalizing left' right' with
  | ended =>
      obtain rfl := List.map_eq_nil_iff.mp same
      obtain rfl := List.map_eq_nil_iff.mp same'
      exact .ended
  | border quiet =>
      obtain ⟨first, rest, rfl, here, _⟩ := List.map_eq_cons_iff.mp same
      obtain ⟨first', rest', rfl, here', _⟩ := List.map_eq_cons_iff.mp same'
      refine .border ?_
      rcases quiet with ⟨keyword, listed, left, right⟩ | ⟨kind, mark⟩
      · exact .inl ⟨keyword, listed, (Lexeme.isKeyword_of_piece here keyword).trans left,
          (Lexeme.isKeyword_of_piece here' keyword).trans right⟩
      · obtain ⟨kind', _⟩ := Prod.mk.inj here
        obtain ⟨kind'', _⟩ := Prod.mk.inj here'
        exact .inr ⟨kind''.trans (kind.trans kind'.symm), kind' ▸ mark⟩
  | step alike _ ih =>
      obtain ⟨first, rest, rfl, here, later⟩ := List.map_eq_cons_iff.mp same
      obtain ⟨first', rest', rfl, here', later'⟩ := List.map_eq_cons_iff.mp same'
      obtain ⟨kind, text⟩ := Prod.mk.inj here
      obtain ⟨kind', text'⟩ := Prod.mk.inj here'
      refine .step ⟨kind'.trans (alike.1.trans kind.symm), fun named => ?_⟩ (ih later later')
      exact text'.trans ((alike.2 (kind ▸ named)).trans text.symm)

/-- Two lists of pieces are near, as the lists of lexemes are. -/
def NearPieces (count : Nat) (left right : List Piece) : Prop :=
  Near count (left.map Lexeme.ofPiece) (right.map Lexeme.ofPiece)

theorem NearPieces.ahead {count : Nat} {left right : List Piece}
    (near : NearPieces count left right) {start start' : Cursor}
    (same : start.ahead.map Lexeme.piece = left) (same' : start'.ahead.map Lexeme.piece = right)
    : Near count start.ahead start'.ahead :=
  near.congr (same.trans (map_piece_ofPiece left).symm)
    (same'.trans (map_piece_ofPiece right).symm)

/-- Pieces that the parser does not tell apart. -/
def Piece.Alike (left right : Piece) : Prop :=
  right.1 = left.1 ∧ (left.1 = .name → right.2 = left.2)

theorem Piece.alike_refl (piece : Piece) : piece.Alike piece :=
  ⟨rfl, fun _ => rfl⟩

theorem alike_refl (pieces : List Piece) : List.Forall₂ Piece.Alike pieces pieces := by
  induction pieces with
  | nil => exact .nil
  | cons piece pieces ih => exact .cons piece.alike_refl ih

theorem NearPieces.append {count : Nat} {left right rest rest' : List Piece}
    (alike : List.Forall₂ Piece.Alike left right) (near : NearPieces count rest rest')
    : NearPieces (left.length + count) (left ++ rest) (right ++ rest') := by
  induction alike with
  | nil => simpa using near
  | @cons first first' left right here _ ih =>
      rw [List.length_cons, Nat.add_right_comm]
      exact .step here ih

theorem nearPieces_of_alike {left right : List Piece}
    (alike : List.Forall₂ Piece.Alike left right)
    : NearPieces left.length left right := by
  have near : NearPieces (left.length + 0) (left ++ []) (right ++ []) := .append alike .ended
  simpa using near

/-- The comment behind a cursor is a token before the next one that carries syntax. -/
theorem Cursor.exists_token_of_trailing? {start stop : Cursor} {comment : Text}
    (found : start.trailing? = some (comment, stop))
    : ∃ token ∈ start.gap, comment = token.text.trimEnd := by
  unfold Cursor.trailing? at found
  split at found
  · cases found
  · rename_i token rest behind
    dsimp only at found
    split at found
    · cases found
      exact ⟨token, (sameLine_suffix start.gap).subset (behind ▸ List.mem_cons_self), rfl⟩
    · cases found

/-- A comment is no token, so passing one leaves the tokens ahead as they are. -/
theorem Cursor.ahead_of_trailing? {start stop : Cursor} {comment : Text}
    (found : start.trailing? = some (comment, stop))
    : stop.ahead = start.ahead := by
  unfold Cursor.trailing? at found
  split at found
  · cases found
  · dsimp only at found
    split at found
    · cases found
      rfl
    · cases found

namespace Parser

/-- Whether a statement, and no namespace or closing brace, stands here. -/
def AtStmt (cursor : Cursor) : Prop :=
  ∃ kind, cursor.kind? 0 = some kind ∧ kind ≠ .rightBrace ∧ cursor.atNamespace = false

/-- A cursor before given tokens. -/
def cursorBefore (pieces : List Piece) : Cursor :=
  ⟨[], [], pieces.map Lexeme.ofPiece, 0⟩

theorem cursorBefore_ahead (pieces : List Piece)
    : (cursorBefore pieces).ahead.map Lexeme.piece = pieces :=
  map_piece_ofPiece pieces

/-- Before the tokens of a block and others behind it, a statement is read that is the block.
-/
def Reads (block rest : List Piece) (essence : Essence) : Prop :=
  ∀ ⦃cursor : Cursor⦄,
    cursor.ahead.map Lexeme.piece = block ++ rest
    → AtStmt cursor
      ∧ ∃ kind stop,
          stmtKind.run cursor = .ok (kind, stop)
          ∧ stop.ahead = cursor.ahead.drop block.length
          ∧ kind.essence = essence

/-- Where one statement is read, it is read before all near tokens. -/
theorem reads_of_run {cursor stop : Cursor} {kind : StmtKind} {count : Nat}
    {block rest block' rest' : List Piece}
    (ahead : cursor.ahead.map Lexeme.piece = block ++ rest) (some : 0 < block.length)
    (guard : AtStmt cursor) (ran : stmtKind.run cursor = .ok (kind, stop))
    (left : stop.ahead = cursor.ahead.drop block.length)
    (near : NearPieces count (block ++ rest) (block' ++ rest')) (within : block.length ≤ count)
    (length : block'.length = block.length)
    : Reads block' rest' kind.essence := by
  intro cursor' ahead'
  have near' := near.ahead ahead ahead'
  obtain ⟨next, here, solid, other⟩ := guard
  refine ⟨⟨next, near'.kind?_eq ▸ here, solid, ?_⟩, ?_⟩
  · unfold Cursor.atNamespace at other ⊢
    rwa [near'.atKeyword_eq, near'.kind?_eq_of_le (Nat.le_trans some within)]
  · obtain ⟨kind', stop', ran', left', same⟩ :=
      tracks_stmtKind (Nat.lt_succ_self _) near' ran left within
    exact ⟨kind', stop', ran', by rw [left', length], same⟩

theorem Reads.length_pos {block rest : List Piece} {essence : Essence}
    (reads : Reads block rest essence)
    : 0 < block.length := by
  obtain ⟨⟨next, here, solid, _⟩, kind, stop, ran, left, _⟩ :=
    reads (cursorBefore_ahead (block ++ rest))
  have passes := passes_of_stmtKind here solid ran
  unfold Cursor.Passes at passes
  rw [left, List.length_drop] at passes
  omega

/-- A block is read the same before all near tokens. -/
theorem Reads.near {count : Nat} {block rest block' rest' : List Piece} {essence : Essence}
    (reads : Reads block rest essence)
    (near : NearPieces count (block ++ rest) (block' ++ rest')) (within : block.length ≤ count)
    (length : block'.length = block.length)
    : Reads block' rest' essence := by
  have ahead := cursorBefore_ahead (block ++ rest)
  obtain ⟨guard, kind, stop, ran, left, rfl⟩ := reads ahead
  exact reads_of_run ahead reads.length_pos guard ran left near within length

-----------------------------------------------------------------------------------------
-- Statements with their places
-----------------------------------------------------------------------------------------

variable {start stop : Cursor} {found : Stmt}

theorem run_trailing?
    : trailing?.run start
      = match start.trailing? with
        | some (comment, stop) => .ok (some comment, stop)
        | none => .ok (none, start) := by
  unfold run trailing?
  split
  · rename_i same
    split at same <;> cases same
  · rename_i same
    split at same
    · rename_i found
      cases same
      rw [found]
    · rename_i found
      cases same
      rw [found]

/-- Looking for a comment never fails, and passes no token. -/
theorem exists_trailing? (start : Cursor)
    : ∃ comment? stop, trailing?.run start = .ok (comment?, stop) := by
  rw [run_trailing?]
  cases start.trailing? with
  | none => exact ⟨none, start, rfl⟩
  | some pair => exact ⟨some pair.1, pair.2, rfl⟩

theorem ahead_of_run_trailing? {comment? : Option Text}
    (ran : trailing?.run start = .ok (comment?, stop))
    : stop.ahead = start.ahead := by
  rw [run_trailing?] at ran
  cases found : start.trailing? with
  | none =>
      rw [found] at ran
      cases ran
      rfl
  | some pair =>
      rw [found] at ran
      cases ran
      exact Cursor.ahead_of_trailing? found

theorem exists_trailingOf (kind : StmtKind) (start : Cursor)
    : ∃ comment? stop, (trailingOf kind).run start = .ok (comment?, stop) := by
  unfold trailingOf
  split
  · exact exists_trailing? start
  · exact ⟨none, start, rfl⟩

theorem ahead_of_run_trailingOf {kind : StmtKind} {comment? : Option Text}
    (ran : (trailingOf kind).run start = .ok (comment?, stop))
    : stop.ahead = start.ahead := by
  unfold trailingOf at ran
  split at ran
  · exact ahead_of_run_trailing? ran
  · rw [(pure_eq_ok.mp ran).2]

/-- The comment behind a statement is a part of what is left of the source. -/
theorem isInfix_of_run_trailingOf {kind : StmtKind} {comment? : Option Text} {front : Text}
    {pieces : List Piece} (before : start.Before front pieces)
    (ran : (trailingOf kind).run start = .ok (comment?, stop))
    : ∀ comment ∈ comment?, comment <:+: joined pieces := by
  intro comment given
  unfold trailingOf at ran
  split at ran
  · rw [run_trailing?] at ran
    cases found : start.trailing? with
    | none =>
        rw [found] at ran
        cases ran
        cases given
    | some pair =>
        rw [found] at ran
        cases ran
        obtain rfl := Option.some.inj given
        obtain ⟨token, inside, same⟩ := Cursor.exists_token_of_trailing? found
        rw [same]
        exact before.isInfix_of_gap inside
  · rw [← (pure_eq_ok.mp ran).1] at given
    cases given

/-- A statement is its kind with a place, a text and comments. -/
theorem stmt_eq_ok
    : stmt.run start = .ok (found, stop)
      ↔ ∃ middle,
          stmtKind.run start = .ok (found.kind, middle)
          ∧ (trailingOf found.kind).run middle = .ok (found.trailing?, stop)
          ∧ found.span? = some ⟨start.nextSpan.start, max middle.lastEnd start.nextSpan.start⟩
          ∧ found.text
            = start.source.slice start.nextSpan.start (max middle.lastEnd start.nextSpan.start)
          ∧ found.comments = start.comments := by
  unfold stmt spanFrom
  rw [get_bind_eq_ok]
  constructor
  · intro ran
    obtain ⟨kind, middle, read, later⟩ := bind_eq_ok.mp ran
    obtain ⟨span, middle', placed, last⟩ := bind_eq_ok.mp later
    obtain ⟨trailing?, stop', commented, done⟩ := bind_eq_ok.mp last
    rw [get_bind_eq_ok] at placed
    obtain ⟨rfl, rfl⟩ := pure_eq_ok.mp placed
    obtain ⟨rfl, rfl⟩ := pure_eq_ok.mp done
    exact ⟨middle, read, commented, rfl, rfl, rfl⟩
  · rintro ⟨middle, read, commented, span, text, comments⟩
    let place : Span := ⟨start.nextSpan.start, max middle.lastEnd start.nextSpan.start⟩
    have placed : (spanFrom start.nextSpan.start).run middle = .ok (place, middle) :=
      get_bind_eq_ok.mpr (pure_eq_ok.mpr ⟨rfl, rfl⟩)
    refine bind_eq_ok.mpr ⟨_, _, read, bind_eq_ok.mpr ⟨_, _, placed, bind_eq_ok.mpr
      ⟨_, _, commented, pure_eq_ok.mpr ⟨?_, rfl⟩⟩⟩⟩
    obtain ⟨_, _, _, _, _⟩ := found
    simp only at span text comments
    rw [span, text, comments]

/-- A statement that is a block of a source, read as given. -/
structure StmtAt (source : Text) (block : Block) (essence : Essence) (found : Stmt) : Prop where
  essence_eq : found.kind.essence = essence
  text_eq : found.text = joined block.pieces
  placed
    : ∃ front,
        source = front ++ joined block.pieces ++ block.behind
        ∧ found.span? = some ⟨front.size, front.size + (joined block.pieces).size⟩
  trailing : ∀ comment ∈ found.trailing?, comment <:+: block.behind

/-- A cursor before blocks. -/
def Faces (cursor : Cursor) (blocks : List Block) : Prop :=
  ∃ front pieces, cursor.Before front pieces ∧ Spells pieces blocks

theorem Faces.map_piece {blocks : List Block} (faces : Faces start blocks)
    : start.ahead.map Lexeme.piece = blocks.flatMap fun block => solids block.pieces := by
  obtain ⟨front, pieces, before, spells⟩ := faces
  rw [before.map_piece, spells.solids_eq]

/-- A cursor that passes the tokens of a block faces the blocks behind it. -/
theorem Faces.behind {block : Block} {blocks : List Block} (faces : Faces start (block :: blocks))
    (reached : start.Reaches stop)
    (left : stop.ahead = start.ahead.drop (solids block.pieces).length)
    : Faces stop blocks := by
  obtain ⟨front, pieces, before, spells⟩ := faces
  cases spells with
  | @block gap block rest _ isGap isBlock later =>
      obtain ⟨_, passed, others, rfl, isGap', before'⟩ :=
        reached.behind_block before isGap isBlock left
      exact ⟨_, others, before', (spells_append_iff isGap').mp later⟩

/-- The comment behind a block is a part of what stands behind it. -/
theorem isInfix_of_before {kind : StmtKind} {comment? : Option Text} {front : Text}
    {middle : Cursor} {gap block rest : List Piece}
    (before : start.Before front (gap ++ block ++ rest)) (isGap : IsGap gap)
    (isBlock : IsBlock block) (reached : start.Reaches middle)
    (left : middle.ahead = start.ahead.drop (solids block).length)
    (ran : (trailingOf kind).run middle = .ok (comment?, stop))
    : ∀ comment ∈ comment?, comment <:+: joined rest := by
  intro comment given
  obtain ⟨_, passed, others, rfl, _, before'⟩ := reached.behind_block before isGap isBlock left
  have inside := isInfix_of_run_trailingOf before' ran comment given
  rw [joined_append]
  exact inside.trans (List.suffix_append _ _).isInfix

/-- The place of a block, for a cursor that has passed it. -/
theorem placed_of_before {front : Text} {gap block rest : List Piece}
    (before : start.Before front (gap ++ block ++ rest)) (isGap : IsGap gap)
    (isBlock : IsBlock block) (reached : start.Reaches stop)
    (left : stop.ahead = start.ahead.drop (solids block).length)
    : start.source = front ++ joined gap ++ joined block ++ joined rest
      ∧ start.nextSpan.start = (front ++ joined gap).size
      ∧ stop.lastEnd = (front ++ joined gap).size + (joined block).size := by
  obtain ⟨lastEnd, _⟩ := reached.behind_block before isGap isBlock left
  refine ⟨?_, ?_, ?_⟩
  · rw [before.source_eq]
    simp
  · obtain ⟨⟨first, others, rfl, solid⟩, _⟩ := isBlock
    have before' : start.Before front (gap ++ first :: (others ++ rest)) := by
      simpa using before
    have next := (before'.next isGap solid).2
    simp [Cursor.nextSpan, Cursor.token?, next, Token.span]
  · rw [lastEnd, Text.size_append]

theorem Faces.placed {block : Block} {blocks : List Block} (faces : Faces start (block :: blocks))
    (reached : start.Reaches stop)
    (left : stop.ahead = start.ahead.drop (solids block.pieces).length)
    : ∃ front,
        start.source = front ++ joined block.pieces ++ block.behind
        ∧ start.nextSpan.start = front.size
        ∧ stop.lastEnd = front.size + (joined block.pieces).size := by
  obtain ⟨front, pieces, before, spells⟩ := faces
  cases spells with
  | @block gap block rest _ isGap isBlock later =>
      exact ⟨front ++ joined gap, placed_of_before before isGap isBlock reached left⟩

theorem Faces.isInfix_of_run_trailingOf {block : Block} {blocks : List Block} {kind : StmtKind}
    {comment? : Option Text} {middle : Cursor} (faces : Faces start (block :: blocks))
    (reached : start.Reaches middle)
    (left : middle.ahead = start.ahead.drop (solids block.pieces).length)
    (ran : (trailingOf kind).run middle = .ok (comment?, stop))
    : ∀ comment ∈ comment?, comment <:+: block.behind := by
  obtain ⟨front, pieces, before, spells⟩ := faces
  cases spells with
  | @block gap block rest _ isGap isBlock later =>
      exact isInfix_of_before before isGap isBlock reached left ran

theorem source_of_reaches (reached : start.Reaches stop) : stop.source = start.source := by
  induction reached with
  | refl => rfl
  | @advance stop _ ih =>
      unfold Cursor.advance
      split <;> exact ih
  | pass _ _ ih => exact ih

/-- A block that is read as a statement is one, with its text and place. -/
theorem exists_stmt {block : Block} {blocks : List Block} {essence : Essence}
    (faces : Faces start (block :: blocks))
    (reads : Reads (solids block.pieces) (blocks.flatMap fun block => solids block.pieces) essence)
    : ∃ found stop, stmt.run start = .ok (found, stop)
        ∧ StmtAt start.source block essence found ∧ stop.source = start.source
        ∧ Faces stop blocks := by
  have ahead := faces.map_piece
  rw [List.flatMap_cons] at ahead
  obtain ⟨_, kind, middle, ran, left, rfl⟩ := reads ahead
  obtain ⟨comment?, stop, commented⟩ := exists_trailingOf kind middle
  have ahead' := ahead_of_run_trailingOf commented
  have reached := reaches_of_run ran
  have reached' := reached.trans (reaches_of_run commented)
  obtain ⟨front, source, starts, ends⟩ := faces.placed reached left
  have longer : max middle.lastEnd start.nextSpan.start = front.size + (joined block.pieces).size := by
    rw [ends, starts]
    omega
  let found : Stmt := {
    kind
    span? := some ⟨front.size, front.size + (joined block.pieces).size⟩
    text := joined block.pieces
    comments := start.comments
    trailing? := comment? }
  refine ⟨found, stop, stmt_eq_ok.mpr ⟨middle, ran, commented, ?_, ?_, rfl⟩,
    ⟨rfl, rfl, ⟨front, source, rfl⟩, ?_⟩, source_of_reaches reached',
    faces.behind reached' (ahead'.trans left)⟩
  · rw [longer, starts]
  · rw [longer, starts, source, Text.slice_append]
  · exact faces.isInfix_of_run_trailingOf reached left commented

/-- A statement that was read is a block, and reads as one before all tokens that follow. -/
theorem exists_block {front : Text} {pieces : List Piece} (before : start.Before front pieces)
    (guard : AtStmt start) (ran : stmt.run start = .ok (found, stop))
    : ∃ gap block rest passed others,
        pieces = gap ++ block ++ rest ∧ IsGap gap ∧ IsBlock block
        ∧ rest = passed ++ others ∧ IsGap passed
        ∧ stop.Before (front ++ joined gap ++ joined block ++ joined passed) others
        ∧ Reads (solids block) (solids rest) found.kind.essence
        ∧ StmtAt start.source ⟨block, joined rest⟩ found.kind.essence found := by
  obtain ⟨middle, read, commented, span, text, _⟩ := stmt_eq_ok.mp ran
  obtain ⟨kind, next, solid, other⟩ := guard
  have reached := reaches_of_run read
  have reached' := reached.trans (reaches_of_run commented)
  obtain ⟨gap, block, rest, rfl, isGap, isBlock, left⟩ :=
    (passes_of_stmtKind next solid read).exists_block reached before
  have ahead' := ahead_of_run_trailingOf commented
  obtain ⟨_, passed, others, rest', isGap', before'⟩ :=
    reached'.behind_block before isGap isBlock (ahead'.trans left)
  refine ⟨gap, block, rest, passed, others, rfl, isGap, isBlock, rest', isGap', before', ?_, ?_⟩
  · have ahead : start.ahead.map Lexeme.piece = solids block ++ solids rest := by
      rw [before.map_piece, solids_append, solids_append, isGap.solids_eq, List.nil_append]
    have some : 0 < (solids block).length := by
      obtain ⟨⟨first, others, rfl, solid⟩, _⟩ := isBlock
      simp [solids, solid]
    exact reads_of_run ahead some ⟨kind, next, solid, other⟩ read left
      (nearPieces_of_alike (alike_refl _)) (by simp) rfl
  · obtain ⟨source, starts, ends⟩ := placed_of_before before isGap isBlock reached left
    have longer : max middle.lastEnd start.nextSpan.start
        = (front ++ joined gap).size + (joined block).size := by
      rw [ends, starts]
      omega
    rw [longer, starts] at span text
    refine ⟨rfl, ?_, ⟨front ++ joined gap, source, span⟩, ?_⟩
    · rw [text, source, Text.slice_append]
    · exact isInfix_of_before before isGap isBlock reached left commented

end Parser

end ImportHeader
