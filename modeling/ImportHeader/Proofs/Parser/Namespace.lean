import ImportHeader.Proofs.Parser.Script
import ImportHeader.Proofs.Parser.Sealing

/-! Namespaces and whole files, read from blocks: a block that opens the namespace, those of its
statements, and the brace that closes it.
-/

namespace ImportHeader

open Lexer

/-- The tokens of blocks in order. -/
def Lexer.tokens (blocks : List Block) : List Piece :=
  blocks.flatMap fun block => solids block.pieces

/-- Pieces that open a namespace, with a name or without. -/
def Opens (pieces : List Piece) (name? : Option Name) (braced : Bool) : Prop :=
  ∃ keyword mark : Text, Text.sameFolded keyword "namespace" = true
    ∧ match name? with
      | some name =>
          ∃ written, Name.ofText? written = some name
            ∧ solids pieces
              = [(.name, keyword), (.name, written),
                  (if braced then .leftBrace else .semicolon, mark)]
      | none => braced = true ∧ solids pieces = [(.name, keyword), (.leftBrace, mark)]

/-- Pieces that start with the keyword of a namespace, and do not end with a close tag. -/
structure StartsSpace (pieces : List Piece) : Prop where
  keyword
    : ∃ keyword rest,
        solids pieces = (.name, keyword) :: rest ∧ Text.sameFolded keyword "namespace" = true
  ends : ∀ last ∈ (solids pieces).getLast?, last.1 ∈ [.leftBrace, .semicolon]

/-- The blocks that close a namespace: a brace, or none for one without braces. -/
def Closes (blocks : List Block) (braced : Bool) : Prop :=
  if braced then ∃ block mark, blocks = [block] ∧ block.pieces = [(.rightBrace, mark)]
  else blocks = []

namespace Parser

variable {start stop : Cursor}

/-- A namespace that is read from blocks of a source. -/
structure SpaceAt (source : Text) (opening : Block) (name? : Option Name) (braced : Bool)
    (inside : List Part) (space : Namespace) : Prop where
  name_eq : space.name?.map LocatedName.name = name?
  braced_eq : space.braced = braced
  stmts : List.Forall₂ (IsPart source) inside space.stmts
  placed
    : ∃ front,
        source = front ++ joined opening.pieces ++ opening.behind
        ∧ space.header = ⟨front.size, front.size + (joined opening.pieces).size⟩

theorem token?_of_piece {piece : Piece} {rest : List Piece}
    (ahead : start.ahead.map Lexeme.piece = piece :: rest)
    : ∃ token, start.token? 0 = some token ∧ token.kind = piece.1 ∧ token.text = piece.2
        ∧ start.advance.ahead.map Lexeme.piece = rest := by
  obtain ⟨lexeme, others, same, rfl, rfl⟩ := List.map_eq_cons_iff.mp ahead
  refine ⟨lexeme.token, ?_, rfl, rfl, ?_⟩
  · rw [Cursor.token?, same]
    rfl
  · rw [Cursor.advance_ahead, same]
    rfl

theorem kind?_of_token? {token : Token} (here : start.token? 0 = some token)
    : start.kind? 0 = some token.kind := by
  rw [Cursor.kind?, here]
  rfl

/-- Where a namespace is opened: the keyword, and a name or a brace behind it. -/
theorem atNamespace_of_token? {first second : Token} (here : start.token? 0 = some first)
    (keyword : first.isKeyword "namespace" = true)
    (here' : start.advance.token? 0 = some second)
    (next : second.kind = .name ∨ second.kind = .leftBrace)
    : start.atNamespace = true := by
  unfold Cursor.atNamespace Cursor.atKeyword Cursor.isKeyword
  rw [here, kind?_succ, kind?_of_token? here']
  rcases next with same | same
  · simpa [same] using keyword
  · simpa [same] using keyword

theorem run_namespaceOpening {token : Token} {named braced : Bool}
    (here : start.token? 0 = some token)
    (kind : token.kind = if braced then .leftBrace else .semicolon)
    (known : braced = true ∨ named = true)
    : (namespaceOpening named).run start = .ok (braced, start.advance) := by
  have at? (other : TokenKind) : start.isAt other = decide (token.kind = other) := by
    rw [Cursor.isAt, kind?_of_token? here]
    by_cases same : token.kind = other <;> simp [same]
  unfold namespaceOpening
  cases braced with
  | true =>
      rw [if_pos rfl] at kind
      have ate : (eat .leftBrace).run start = .ok (true, start.advance) :=
        eat_eq_ok.mpr (by simp [at?, kind])
      exact bind_eq_ok.mpr ⟨true, _, ate, pure_eq_ok.mpr ⟨rfl, rfl⟩⟩
  | false =>
      rw [if_neg (by simp)] at kind
      have missed : (eat .leftBrace).run start = .ok (false, start) :=
        eat_eq_ok.mpr (by simp [at?, kind])
      rw [known.resolve_left (by simp)]
      refine bind_eq_ok.mpr ⟨false, _, missed, ?_⟩
      rw [if_neg (by simp), if_pos rfl]
      exact bind_eq_ok.mpr ⟨token, _, expect_eq_ok.mpr ⟨here, kind, rfl⟩,
        pure_eq_ok.mpr ⟨rfl, rfl⟩⟩

/-- The opening of a namespace is read up to its mark. -/
theorem exists_opening {pieces rest : List Piece} {name? : Option Name} {braced : Bool}
    (ahead : start.ahead.map Lexeme.piece = solids pieces ++ rest)
    (opens : Opens pieces name? braced)
    : start.atNamespace = true
      ∧ ∃ keyword named middle stop located?,
          (expect .name .namespaceKeyword).run start = .ok (keyword, named)
          ∧ Parser.name?.run named = .ok (located?, middle)
          ∧ (namespaceOpening located?.isSome).run middle = .ok (braced, stop)
          ∧ located?.map LocatedName.name = name?
          ∧ start.token? 0 = some keyword
          ∧ stop.ahead = start.ahead.drop (solids pieces).length := by
  obtain ⟨keyword, mark, folded, shape⟩ := opens
  have spelled {token : Token} (kind : token.kind = .name) (text : token.text = keyword)
      : token.isKeyword "namespace" = true := by
    rw [Token.isKeyword, kind, text, folded]
    rfl
  cases name? with
  | some name =>
      obtain ⟨written, read, solids'⟩ := shape
      rw [solids'] at ahead ⊢
      obtain ⟨first, here, kind, text, ahead'⟩ := token?_of_piece ahead
      obtain ⟨second, here', kind', text', ahead''⟩ := token?_of_piece ahead'
      obtain ⟨third, here'', kind'', _, _⟩ := token?_of_piece ahead''
      obtain ⟨located, found, named⟩ : ∃ located,
          LocatedName.read? second.text second.span = some located ∧ located.name = name :=
        Option.map_eq_some_iff.mp (by rw [LocatedName.map_name_read?, text', read])
      refine ⟨atNamespace_of_token? here (spelled kind text) here' (.inl kind'), first,
        start.advance, start.advance.advance, start.advance.advance.advance,
        some located, expect_eq_ok.mpr ⟨here, kind, rfl⟩,
        name?_eq_ok.mpr (.inl ⟨second, here', kind', found.symm, rfl⟩),
        run_namespaceOpening here'' kind'' (.inr rfl), congrArg some named, here, ?_⟩
      simp [Cursor.advance_ahead]
  | none =>
      obtain ⟨rfl, solids'⟩ := shape
      rw [solids'] at ahead ⊢
      obtain ⟨first, here, kind, text, ahead'⟩ := token?_of_piece ahead
      obtain ⟨second, here', kind', _, _⟩ := token?_of_piece ahead'
      refine ⟨atNamespace_of_token? here (spelled kind text) here' (.inr kind'), first,
        start.advance, start.advance, start.advance.advance, none,
        expect_eq_ok.mpr ⟨here, kind, rfl⟩, name?_eq_ok.mpr (.inr ⟨?_, rfl, rfl⟩),
        run_namespaceOpening here' kind' (.inl rfl), rfl, here, ?_⟩
      · rw [kind?_of_token? here', kind']
        nofun
      · simp [Cursor.advance_ahead]

theorem nextSpan_of_token? {token : Token} (here : start.token? 0 = some token)
    : start.nextSpan = token.span := by
  rw [Cursor.nextSpan, here]

theorem ahead_of_faces_nil (faces : Faces start []) : start.ahead = [] :=
  List.map_eq_nil_iff.mp faces.map_piece

theorem run_namespaceTurn_closing {braced : Bool} {closing rest : List Block}
    (faces : Faces start (closing ++ rest)) (closes : Closes closing braced)
    (ended : braced = false → rest = [])
    : (namespaceTurn braced).run start = .ok (.last [], start)
      ∧ ∃ stop, (namespaceClosing braced).run start = .ok ((), stop) ∧ Faces stop rest := by
  cases braced with
  | false =>
      rw [show closing = [] from closes, ended rfl] at faces
      have none : start.token? 0 = none := by rw [Cursor.token?, ahead_of_faces_nil faces]; rfl
      refine ⟨?_, start, pure_eq_ok.mpr ⟨rfl, rfl⟩, ended rfl ▸ faces⟩
      rw [namespaceTurn, get_bind_eq_ok]
      simp only [none]
      exact pure_eq_ok.mpr ⟨rfl, rfl⟩
  | true =>
      obtain ⟨block, mark, rfl, marked⟩ := closes
      have solids' : solids block.pieces = [(.rightBrace, mark)] := by
        rw [marked]
        rfl
      have ahead := faces.map_piece
      rw [List.singleton_append, List.flatMap_cons, solids', List.singleton_append] at ahead
      obtain ⟨token, here, kind, _, _⟩ := token?_of_piece ahead
      have expected : (expect .rightBrace .namespaceClose).run start = .ok (token, start.advance) :=
        expect_eq_ok.mpr ⟨here, kind, rfl⟩
      refine ⟨?_, start.advance, ?_, ?_⟩
      · rw [namespaceTurn, get_bind_eq_ok]
        simp only [here]
        rw [if_pos kind]
        exact pure_eq_ok.mpr ⟨rfl, rfl⟩
      · exact bind_eq_ok.mpr ⟨token, _, expected, pure_eq_ok.mpr ⟨rfl, rfl⟩⟩
      · refine faces.behind (reaches_of_run expected) ?_
        rw [solids', Cursor.advance_ahead]
        rfl

/-- A namespace is its opening, its statements and its end, with a place, a text and comments. -/
theorem namespaceScope_eq_ok {space : Namespace}
    : namespaceScope.run start = .ok (space, stop)
      ↔ ∃ keyword named middle opened entered closed,
          (expect .name .namespaceKeyword).run start = .ok (keyword, named)
          ∧ name?.run named = .ok (space.name?, middle)
          ∧ (namespaceOpening space.name?.isSome).run middle = .ok (space.braced, opened)
          ∧ trailing?.run opened = .ok (space.headerComment?, entered)
          ∧ (collect (namespaceTurn space.braced)).run entered = .ok (space.stmts, closed)
          ∧ (namespaceClosing space.braced).run closed = .ok ((), stop)
          ∧ space.header = ⟨keyword.offset, opened.lastEnd⟩
          ∧ space.span = ⟨keyword.offset, max stop.lastEnd keyword.offset⟩
          ∧ space.text = start.source.slice space.span.start space.span.stop
          ∧ space.comments = start.comments := by
  unfold namespaceScope spanFrom
  rw [get_bind_eq_ok]
  constructor
  · intro ran
    obtain ⟨keyword, named, expected, ran⟩ := bind_eq_ok.mp ran
    obtain ⟨located?, middle, read, ran⟩ := bind_eq_ok.mp ran
    obtain ⟨braced, opened, marked, ran⟩ := bind_eq_ok.mp ran
    rw [get_bind_eq_ok] at ran
    obtain ⟨comment?, entered, commented, ran⟩ := bind_eq_ok.mp ran
    obtain ⟨found, closed, collected, ran⟩ := bind_eq_ok.mp ran
    obtain ⟨_, left, leaves, ran⟩ := bind_eq_ok.mp ran
    obtain ⟨span, _, placed, done⟩ := bind_eq_ok.mp ran
    rw [get_bind_eq_ok] at placed
    obtain ⟨rfl, rfl⟩ := pure_eq_ok.mp placed
    obtain ⟨rfl, rfl⟩ := pure_eq_ok.mp done
    exact ⟨keyword, named, middle, opened, entered, closed, expected, read, marked, commented,
      collected, leaves, rfl, rfl, rfl, rfl⟩
  · rintro ⟨keyword, named, middle, opened, entered, closed, expected, read, marked, commented,
      collected, leaves, header, span, text, comments⟩
    have placed : (spanFrom keyword.offset).run stop = .ok (space.span, stop) :=
      get_bind_eq_ok.mpr (pure_eq_ok.mpr ⟨span.symm, rfl⟩)
    refine bind_eq_ok.mpr ⟨_, _, expected, bind_eq_ok.mpr ⟨_, _, read,
      bind_eq_ok.mpr ⟨_, _, marked, get_bind_eq_ok.mpr (bind_eq_ok.mpr ⟨_, _, commented,
        bind_eq_ok.mpr ⟨_, _, collected, bind_eq_ok.mpr ⟨_, _, leaves,
          bind_eq_ok.mpr ⟨_, _, placed, pure_eq_ok.mpr ⟨?_, rfl⟩⟩⟩⟩⟩)⟩⟩⟩
    rw [← header, ← text, ← comments]

/-- A namespace is read from its blocks. -/
theorem exists_namespaceScope {opening : Block} {name? : Option Name} {braced : Bool}
    {inside : List Part} {closing rest : List Block}
    (faces : Faces start (opening :: (inside.map Part.block ++ (closing ++ rest))))
    (opens : Opens opening.pieces name? braced)
    (reads : ReadsAll (tokens (closing ++ rest)) inside) (closes : Closes closing braced)
    (ended : braced = false → rest = [])
    : start.atNamespace = true
      ∧ ∃ space stop, namespaceScope.run start = .ok (space, stop)
          ∧ SpaceAt start.source opening name? braced inside space
          ∧ stop.source = start.source ∧ Faces stop rest := by
  have ahead := faces.map_piece
  rw [List.flatMap_cons] at ahead
  obtain ⟨here, keyword, named, middle, opened, located?, expected, read, marked, name_eq, first,
    left⟩ := exists_opening ahead opens
  have reached : start.Reaches opened :=
    (reaches_of_run expected).trans ((reaches_of_run read).trans (reaches_of_run marked))
  obtain ⟨front, source, starts, ends⟩ := faces.placed reached left
  -- The comment of the opening, the statements, and the closing brace.
  obtain ⟨comment?, entered, commented⟩ := exists_trailing? opened
  have ahead' := ahead_of_run_trailing? commented
  have entering := reached.trans (reaches_of_run commented)
  have inner := faces.behind entering (ahead'.trans left)
  obtain ⟨found, closed, turns, outer, source', all⟩ :=
    (wraps_namespaceTurn braced).exists_turns inner reads
  obtain ⟨last, stop, leaves, behind⟩ := run_namespaceTurn_closing outer closes ended
  have collected : (collect (namespaceTurn braced)).run entered = .ok (found, closed) := by
    have whole : Turns (namespaceTurn braced) entered (found.map id ++ []) closed :=
      turns (.last last)
    rw [List.map_id, List.append_nil] at whole
    exact collect_of_turns strides_namespaceTurn whole
  let space : Namespace := {
    name? := located?
    braced
    header := ⟨keyword.offset, opened.lastEnd⟩
    headerComment? := comment?
    stmts := found
    span := ⟨keyword.offset, max stop.lastEnd keyword.offset⟩
    text := start.source.slice keyword.offset (max stop.lastEnd keyword.offset)
    comments := start.comments }
  have offset : keyword.offset = front.size := by
    rw [← starts, nextSpan_of_token? first]
    rfl
  have same : entered.source = start.source := source_of_reaches entering
  refine ⟨here, space, stop, ?_, ⟨name_eq, rfl, same ▸ all, front, source, ?_⟩, ?_, behind⟩
  · exact namespaceScope_eq_ok.mpr ⟨keyword, named, middle, opened, entered, closed, expected,
      read, marked, commented, collected, leaves, rfl, rfl, rfl, rfl⟩
  · change (⟨keyword.offset, opened.lastEnd⟩ : Span) = _
    rw [ends, offset]
  · rw [source_of_reaches (reaches_of_run leaves), source', same]

theorem exists_next {front : Text} {pieces : List Piece} {token : Token}
    (before : start.Before front pieces) (here : start.token? 0 = some token)
    : ∃ gap rest, pieces = gap ++ token.piece :: rest ∧ IsGap gap
        ∧ token.piece.isTrivia = false := by
  obtain ⟨gap, rest, rfl, isGap, solid⟩ := exists_gap pieces
  cases rest with
  | nil =>
      have none := before.lexemes_eq
      rw [List.append_nil, lexemes_eq_nil isGap, Prod.mk.injEq] at none
      rw [Cursor.token?, ← none.2] at here
      cases here
  | cons piece rest =>
      have next := (before.next isGap (solid piece rfl)).2
      rw [Cursor.token?, next] at here
      obtain rfl := Option.some.inj here
      exact ⟨gap, rest, rfl, isGap, solid piece rfl⟩

theorem isBlock_singleton {piece : Piece} (solid : piece.isTrivia = false) : IsBlock [piece] :=
  ⟨⟨piece, [], rfl, solid⟩, [], piece, rfl, solid⟩

/-- The end of a namespace passes nothing, and finds nothing. -/
theorem namespaceTurn_last {braced : Bool} {results : List Stmt}
    (ran : (namespaceTurn braced).run start = .ok (.last results, stop))
    : results = [] ∧ stop = start := by
  rw [namespaceTurn, get_bind_eq_ok] at ran
  split at ran
  · split at ran
    · simp at ran
    · obtain ⟨same, rfl⟩ := pure_eq_ok.mp ran
      cases same
      exact ⟨rfl, rfl⟩
  · split at ran
    · split at ran
      · obtain ⟨same, rfl⟩ := pure_eq_ok.mp ran
        cases same
        exact ⟨rfl, rfl⟩
      · simp at ran
    · split at ran
      · split at ran
        · simp at ran
        · obtain ⟨same, rfl⟩ := pure_eq_ok.mp ran
          cases same
          exact ⟨rfl, rfl⟩
      · exact absurd ran (bind_pure_ne_ok (by simp))

/-- No statement stands where a namespace ends. -/
theorem not_atStmt_of_last {braced : Bool} {results : List Stmt}
    (ran : (namespaceTurn braced).run start = .ok (.last results, stop))
    : ¬AtStmt start := by
  intro guard
  obtain ⟨token, next, other, free⟩ := guard.token?
  rw [namespaceTurn, get_bind_eq_ok] at ran
  simp only [next] at ran
  rw [if_neg other, if_neg (by simp [free])] at ran
  exact absurd ran (bind_pure_ne_ok (by simp))

/-- Turns that find nothing more are the last one. -/
theorem Turns.eq_last {α : Type} {turn : Parser (Turn α)}
    (some : ∀ {start middle results}, turn.run start = .ok (.more results, middle) → results ≠ [])
    (turns : Turns turn start [] stop)
    : turn.run start = .ok (.last [], stop) := by
  generalize none : ([] : List α) = found at turns
  cases turns with
  | last ran => exact ran
  | more ran rest => exact absurd (List.append_eq_nil_iff.mp none.symm).1 (some ran)

theorem Wraps.ne_nil {α : Type} {turn : Parser (Turn α)} {wrap : Stmt → α}
    (wraps : Wraps turn wrap) {results : List α}
    (ran : turn.run start = .ok (.more results, stop))
    : results ≠ [] := by
  obtain ⟨result, rfl, _⟩ := wraps.more ran
  exact List.cons_ne_nil _ _

/-- The brace that closes a namespace is a block. -/
theorem exists_closing {front : Text} {pieces : List Piece} {braced : Bool}
    (before : start.Before front pieces)
    (ran : (namespaceClosing braced).run start = .ok ((), stop))
    : ∃ closing front' pieces', stop.Before front' pieces' ∧ Closes closing braced
        ∧ (∀ {more}, Spells pieces' more → Spells pieces (closing ++ more))
        ∧ tokens closing ++ solids pieces' = solids pieces := by
  cases braced with
  | false =>
      obtain ⟨_, rfl⟩ := pure_eq_ok.mp ran
      exact ⟨[], front, pieces, before, rfl, fun spells => spells, rfl⟩
  | true =>
      obtain ⟨token, stop', expected, done⟩ := bind_eq_ok.mp ran
      obtain ⟨_, rfl⟩ := pure_eq_ok.mp done
      obtain ⟨here, kind, rfl⟩ := expect_eq_ok.mp expected
      obtain ⟨gap, rest, rfl, isGap, solid⟩ := exists_next before here
      refine ⟨[⟨[token.piece], joined rest⟩], _, rest, (before.advance isGap solid).1,
        ⟨_, token.text, rfl, ?_⟩, fun spells => ?_, ?_⟩
      · rw [Token.piece, kind]
      · have spelled : Spells (gap ++ [token.piece] ++ rest) _ :=
          .block isGap (isBlock_singleton solid) spells
        simpa using spelled
      · rw [solids_append, isGap.solids_eq, List.nil_append]
        simp [tokens, solids, solid]

/-- A block does not end with a token of a kind if that is not passed last. -/
theorem ends_of_sealed {front : Text} {gap block rest : List Piece} {kind : TokenKind}
    (before : start.Before front (gap ++ block ++ rest)) (isGap : IsGap gap)
    (isSealed : start.Sealed kind stop)
    (left : stop.ahead = start.ahead.drop (solids block).length)
    : ∀ last ∈ (solids block).getLast?, last.1 ≠ kind := by
  have ahead : start.ahead.map Lexeme.piece = solids block ++ solids rest := by
    rw [before.map_piece, solids_append, solids_append, isGap.solids_eq, List.nil_append]
  have behind : stop.ahead.map Lexeme.piece = solids rest := by
    rw [left, List.map_drop, ahead, List.drop_left]
  exact last_of_sealed ahead behind isSealed

/-- A namespace is opened by a brace, or behind its name by a semicolon. -/
theorem namespaceOpening_eq_ok {named braced : Bool}
    (ran : (namespaceOpening named).run start = .ok (braced, stop))
    : stop = start.advance
      ∧ (braced = true ∧ start.kind? 0 = some .leftBrace
        ∨ named = true ∧ start.kind? 0 = some .semicolon) := by
  obtain ⟨ate, opened, eaten, later⟩ := bind_eq_ok.mp ran
  obtain ⟨rfl, rfl⟩ := eat_eq_ok.mp eaten
  split at later
  · rename_i here
    obtain ⟨rfl, rfl⟩ := pure_eq_ok.mp later
    exact ⟨rfl, .inl ⟨rfl, eq_of_beq here⟩⟩
  · split at later
    · rename_i named
      obtain ⟨token, expected, _⟩ := bind_pure_eq_ok.mp later
      obtain ⟨next, kind, rfl⟩ := expect_eq_ok.mp expected
      exact ⟨rfl, .inr ⟨named, kind ▸ kind?_of_token? next⟩⟩
    · exact absurd later fail_ne_ok

/-- What opens a namespace is a block that starts with the keyword. -/
theorem exists_spaceOpening {front : Text} {pieces : List Piece} {keyword : Token}
    {located? : Option LocatedName} {braced : Bool} {named middle opened : Cursor}
    (before : start.Before front pieces) (here : start.atNamespace = true)
    (expected : (expect .name .namespaceKeyword).run start = .ok (keyword, named))
    (read : name?.run named = .ok (located?, middle))
    (marked : (namespaceOpening located?.isSome).run middle = .ok (braced, opened))
    : ∃ gap block rest,
        pieces = gap ++ block ++ rest ∧ IsGap gap ∧ IsBlock block
        ∧ StartsSpace block
        ∧ opened.ahead = start.ahead.drop (solids block).length
        ∧ start.source = front ++ joined gap ++ joined block ++ joined rest
        ∧ keyword.offset = (front ++ joined gap).size
        ∧ opened.lastEnd = (front ++ joined gap).size + (joined block).size := by
  have behind := (reaches_of_run read).trans (reaches_of_run marked)
  have reached : start.Reaches opened := (reaches_of_run expected).trans behind
  obtain ⟨gap, block, rest, rfl, isGap, isBlock, left⟩ :=
    ((passes_of_expect expected).reaches behind).exists_block reached before
  obtain ⟨source, starts, ends⟩ := placed_of_before before isGap isBlock reached left
  have isSealed {kind : TokenKind} (other : kind ∉ [.leftBrace, .semicolon])
      : start.Sealed kind opened := by
    have before := (reaches_of_run expected).trans (reaches_of_run read)
    obtain ⟨rfl, ⟨_, brace⟩ | ⟨_, mark⟩⟩ := namespaceOpening_eq_ok marked
    · exact before.sealed_advance brace fun same => other (by simp [← same])
    · exact before.sealed_advance mark fun same => other (by simp [← same])
  -- The first token of the block is the keyword.
  obtain ⟨first, kind, rfl⟩ := expect_eq_ok.mp expected
  obtain ⟨head, others, same, solid⟩ := isBlock.1
  have isHead : keyword.piece = head := by
    have before' : start.Before front (gap ++ head :: (others ++ rest)) := by
      simpa [same] using before
    rw [Cursor.token?, (before'.next isGap solid).2] at first
    exact (congrArg Token.piece (Option.some.inj first)).symm
  have spelled : keyword.isKeyword "namespace" = true := by
    have keyword? := (Bool.and_eq_true_iff.mp here).1
    rw [Cursor.atKeyword, Cursor.isKeyword, first] at keyword?
    simpa using keyword?
  have starts' : StartsSpace block := by
    refine ⟨⟨keyword.text, solids others, ?_, (Bool.and_eq_true_iff.mp spelled).2⟩,
      fun last isLast => ?_⟩
    · rw [same, solids, List.filter_cons, solid, ← isHead, Token.piece, kind]
      rfl
    · by_contra other
      exact ends_of_sealed before isGap (isSealed other) left last isLast rfl
  refine ⟨gap, block, rest, rfl, isGap, isBlock, starts', left, source, ?_, ends⟩
  rw [← starts, nextSpan_of_token? first]
  rfl

/-- The statements of a namespace that was read are parts, and none stands where it ends. -/
theorem exists_inside {front : Text} {pieces : List Piece} {braced : Bool} {found : List Stmt}
    {closed : Cursor} (before : start.Before front pieces)
    (collected : (collect (namespaceTurn braced)).run start = .ok (found, closed))
    : ∃ inside front' pieces',
        closed.Before front' pieces'
        ∧ (∀ {more}, Spells pieces' more → Spells pieces (inside.map Part.block ++ more))
        ∧ ReadsAll (solids pieces') inside
        ∧ tokensOf inside ++ solids pieces' = solids pieces
        ∧ List.Forall₂ (IsPart start.source) inside found
        ∧ ¬AtStmt closed := by
  have turns : Turns (namespaceTurn braced) start (found.map id ++ []) closed := by
    rw [List.map_id, List.append_nil]
    exact turns_of_collect collected
  obtain ⟨inside, outer, front', pieces', before', spells, final, reads, all, isParts, _⟩ :=
    (wraps_namespaceTurn braced).exists_parts before turns
      fun ran => (namespaceTurn_last ran).1
  have last := Turns.eq_last (fun ran => (wraps_namespaceTurn braced).ne_nil ran) final
  obtain ⟨_, rfl⟩ := namespaceTurn_last last
  exact ⟨inside, front', pieces', before', spells, reads, all, isParts,
    not_atStmt_of_last last⟩

/-- The blocks of a namespace that was read. -/
theorem exists_space {front : Text} {pieces : List Piece} {space : Namespace}
    (before : start.Before front pieces) (here : start.atNamespace = true)
    (ran : namespaceScope.run start = .ok (space, stop))
    : ∃ opening inside closing front' pieces',
        stop.Before front' pieces'
        ∧ (∀ {more}, Spells pieces' more
            → Spells pieces (opening :: (inside.map Part.block ++ (closing ++ more))))
        ∧ ReadsAll (tokens closing ++ solids pieces') inside
        ∧ StartsSpace opening.pieces
        ∧ Closes closing space.braced
        ∧ (space.braced = true ∨ space.name?.isSome = true)
        ∧ (space.braced = false → ¬AtStmt stop)
        ∧ solids opening.pieces ++ (tokensOf inside ++ (tokens closing ++ solids pieces'))
          = solids pieces
        ∧ SpaceAt start.source opening (space.name?.map LocatedName.name) space.braced inside
            space := by
  obtain ⟨keyword, named, middle, opened, entered, closed, expected, read, marked, commented,
    collected, leaves, header, _⟩ := namespaceScope_eq_ok.mp ran
  obtain ⟨gap, block, rest, rfl, isGap, isBlock, starts, left, source, offset, ends⟩ :=
    exists_spaceOpening before here expected read marked
  have reached : start.Reaches opened :=
    (reaches_of_run expected).trans ((reaches_of_run read).trans (reaches_of_run marked))
  have ahead' := ahead_of_run_trailing? commented
  have entering := reached.trans (reaches_of_run commented)
  obtain ⟨_, passed, others, rfl, isGap', inner⟩ :=
    entering.behind_block before isGap isBlock (ahead'.trans left)
  obtain ⟨inside, front', pieces', before', spells, reads, all, isParts, final⟩ :=
    exists_inside inner collected
  have ended : space.braced = false → ¬AtStmt stop := by
    intro unbraced
    rw [unbraced] at leaves
    obtain ⟨_, rfl⟩ := pure_eq_ok.mp leaves
    exact final
  obtain ⟨closing, front'', pieces'', before'', closes, spells', all'⟩ :=
    exists_closing before' leaves
  refine ⟨⟨block, joined (passed ++ others)⟩, inside, closing, front'', pieces'', before'',
    fun more => ?_, all' ▸ reads, starts, closes,
    (namespaceOpening_eq_ok marked).2.imp And.left And.left, ended, ?_,
    ⟨rfl, rfl, ?_, front ++ joined gap, source, ?_⟩⟩
  · exact .block isGap isBlock ((spells_append_iff isGap').mpr (spells (spells' more)))
  · rw [all', all]
    simp only [solids_append, isGap.solids_eq, isGap'.solids_eq, List.nil_append]
  · rwa [source_of_reaches entering] at isParts
  · rw [header, ends, offset]

end Parser

end ImportHeader
