import ImportHeader.Proofs.Parser.BodyUptake

/-! Statements that take up an import. A directive at the end of a file needs no end of its own. If
its last token closes a bracket, it can be read before the import of a class: a block ends it there,
and anything else goes on with the import and ends with that.
-/

namespace ImportHeader

open Lexer

namespace Parser

variable {rest : List Lexeme} {count : Nat} {start start' stop : Cursor}

-----------------------------------------------------------------------------------------
-- Imports as parts of statements
-----------------------------------------------------------------------------------------

theorem scan_eq_ok_of_name (here : start.kind? 0 = some .name) {found : List Expr}
    (ran : (nameInBody scan).run start = .ok (found, stop))
    : scan.run start = .ok (found, stop) := by
  obtain ⟨token, next, kind⟩ := Option.map_eq_some_iff.mp here
  rw [run_scan, element, get_bind_eq_ok, next]
  dsimp only
  rw [kind]
  exact ran

theorem exists_plainName (here : start.kind? 0 = some .name)
    (other : start.kind? 1 ≠ some .doubleColon)
    : ∃ found, plainName.run start = .ok (found, start.advance) := by
  obtain ⟨token, next, kind⟩ := Option.map_eq_some_iff.mp here
  have named := name?_eq_ok.mpr (.inl ⟨token, next, kind, rfl, rfl⟩)
  have accessed : (eat .doubleColon).run start.advance = .ok (false, start.advance) := by
    rw [kind?_succ] at other
    have absent : start.advance.isAt .doubleColon = false := beq_false_of_ne other
    exact eat_eq_ok.mpr ⟨absent.symm, by rw [absent]; rfl⟩
  generalize LocatedName.read? token.text token.span = target? at named
  cases target? with
  | none => exact ⟨[], bind_eq_ok.mpr ⟨none, _, named, pure_eq_ok.mpr ⟨rfl, rfl⟩⟩⟩
  | some target =>
      refine ⟨if target.name.form = .qualified then [.qualifiedUse target] else [],
        bind_eq_ok.mpr ⟨some target, _, named, bind_eq_ok.mpr ⟨false, _, accessed, ?_⟩⟩⟩
      rw [if_neg Bool.false_ne_true]
      split
      · exact pure_eq_ok.mpr ⟨rfl, rfl⟩
      · exact pure_eq_ok.mpr ⟨rfl, rfl⟩

/-- In the body of a statement the keyword of an import is a name like others. -/
theorem exists_scan_of_opensImport (opens : OpensImport rest start.ahead)
    : ∃ found, scan.run start = .ok (found, start.advance) := by
  obtain ⟨here, next⟩ := Cursor.kind?_of_opensImport opens
  obtain ⟨found, ran⟩ := exists_plainName here (by rw [next]; decide)
  have known := Cursor.isKeyword_of_opensImport opens
  have closure : start.atClosure = false := by
    unfold Cursor.atClosure
    rw [known]
    rfl
  have class_ : start.atClass = false :=
    not_atClass (by rw [known]; decide) (by rw [known]; decide)
  refine ⟨found, scan_eq_ok_of_name here ?_⟩
  rw [nameInBody, get_bind_eq_ok, closure, class_]
  simp only [Cursor.atKeyword, known]
  exact ran

theorem isKeyword_eq_false {kind : TokenKind} (here : start.kind? 0 = some kind)
    (other : kind ≠ .name) (keywords : List Text)
    : start.isKeyword 0 keywords = false := by
  rw [Bool.eq_false_iff]
  intro known
  exact other (Option.some.inj (here.symm.trans (kind?_of_isKeyword known)))

theorem name?_eq_ok_none {kind : TokenKind} (here : start.kind? 0 = some kind) (other : kind ≠ .name)
    : name?.run start = .ok (none, start) :=
  name?_eq_ok.mpr (.inr ⟨fun same => other (Option.some.inj (here.symm.trans same)), rfl, rfl⟩)

/-- Nothing is created where no name stands. -/
theorem exists_creation (next : start.kind? 1 = some .semicolon)
    : (creation scan).run start = .ok ([], start.advance) := by
  rw [kind?_succ] at next
  have other := isKeyword_eq_false next (by decide)
  have opened : start.advance.isAt .attributeOpen = false := by
    rw [Cursor.isAt, next]
    rfl
  have attributed : (attributes scan).run start.advance = .ok ([], start.advance) :=
    collect_of_turns strides_attributesTurn (.last (bind_eq_ok.mpr ⟨false, _,
      eat_eq_ok.mpr ⟨opened.symm, by rw [opened]; rfl⟩, pure_eq_ok.mpr ⟨rfl, rfl⟩⟩))
  have modified : anonymousModifier.run start.advance = .ok ((), start.advance) := by
    rw [anonymousModifier, get_bind_eq_ok, Cursor.atKeyword, other]
    exact pure_eq_ok.mpr ⟨rfl, rfl⟩
  rw [creation, skip_bind_eq_ok]
  refine bind_eq_ok.mpr ⟨[], _, attributed, bind_eq_ok.mpr ⟨(), _, modified, ?_⟩⟩
  rw [created, get_bind_eq_ok, Cursor.atKeyword, other, if_neg Bool.false_ne_true]
  exact bind_eq_ok.mpr ⟨none, _, name?_eq_ok_none next (by decide), pure_eq_ok.mpr ⟨rfl, rfl⟩⟩

theorem not_atClass_of_semicolon (next : start.kind? 1 = some .semicolon)
    : start.atClass = false := by
  unfold Cursor.atClass
  unfold Cursor.kind? Cursor.token? at next
  cases ahead : start.ahead with
  | nil => simp [ahead] at next
  | cons first behind =>
      cases behind with
      | nil => simp [ahead] at next
      | cons mark rest =>
          have kind : mark.token.kind = .semicolon := by simpa [ahead] using next
          have spelled (keywords : List Text) : keywords.any mark.token.isKeyword = false := by
            simp [Token.isKeyword, kind]
          dsimp only
          cases modifier : classModifiers.any first.token.isKeyword with
          | true =>
              rw [List.dropWhile_cons_of_pos (by exact modifier),
                List.dropWhile_cons_of_neg (by simp [spelled])]
              cases rest with
              | nil => rfl
              | cons name _ => simp [spelled]
          | false => simp [modifier, kind]

/-- In the body of a statement a name before a semicolon is passed, also if it is a keyword. -/
theorem exists_scan_of_namesImport (names : NamesImport rest start.ahead)
    : ∃ found, scan.run start = .ok (found, start.advance) := by
  obtain ⟨here, next⟩ := Cursor.kind?_of_namesImport names
  obtain ⟨found, ran⟩ := exists_plainName here (by rw [next]; decide)
  have closure : start.atClosure = false := by
    unfold Cursor.atClosure
    rw [next]
    simp
  have caught : (start.atKeyword "catch" && start.kind? 1 == some .leftParen) = false := by
    rw [next]
    exact Bool.and_false _
  suffices within : ∃ found, (nameInBody scan).run start = .ok (found, start.advance) by
    obtain ⟨found, ran⟩ := within
    exact ⟨found, scan_eq_ok_of_name here ran⟩
  simp only [nameInBody, get_bind_eq_ok]
  rw [closure, caught, not_atClass_of_semicolon next]
  split
  · exact ⟨[], exists_creation next⟩
  split
  · rw [kind?_succ] at next
    exact ⟨[], skip_bind_eq_ok.mpr (bind_eq_ok.mpr ⟨none, _, name?_eq_ok_none next (by decide),
      pure_eq_ok.mpr ⟨rfl, rfl⟩⟩)⟩
  · exact ⟨found, ran⟩

variable {control loops bare : Bool}

/-- The turns of a statement that goes on with an import end with its semicolon. -/
theorem exists_turns_of_namesImport (names : NamesImport rest start.ahead)
    : ∃ found stop,
        Turns (statementTurn scan control loops bare) start found stop ∧ stop.ahead = rest := by
  obtain ⟨here, next⟩ := Cursor.kind?_of_namesImport names
  obtain ⟨found, ran⟩ := exists_scan_of_namesImport names
  refine ⟨found ++ [], start.advance.advance,
    .more (statementTurn_of_more (.scan here (by decide) ran))
      (.last (statementTurn_of_last (.closes ((kind?_succ start 0).symm.trans next)))), ?_⟩
  obtain ⟨name, mark, ahead, _⟩ := names
  rw [Cursor.advance_ahead, Cursor.advance_ahead, ahead]
  rfl

theorem exists_turns_of_holdsImport (holds : HoldsImport rest start.ahead)
    : ∃ found stop,
        Turns (statementTurn scan control loops bare) start found stop ∧ stop.ahead = rest := by
  rcases holds with opens | names
  · obtain ⟨found, ran⟩ := exists_scan_of_opensImport opens
    obtain ⟨others, stop, turns, left⟩ :=
      exists_turns_of_namesImport (Cursor.advance_of_opensImport opens)
    exact ⟨found ++ others, stop, .more (statementTurn_of_more
      (.scan (Cursor.kind?_of_opensImport opens).1 (by decide) ran)) turns, left⟩
  · exact exists_turns_of_namesImport names

section Statements

variable (near : start.NearImport rest count start')

include near

/-- A turn of a statement that ends with a closing bracket is the last one before an import, or the
statement goes on with that.
-/
theorem exists_statementTurns {result : Turn Expr}
    (ran : (statementTurn scan control loops bare).run start = .ok (result, stop))
    (left : stop.ahead = start.ahead.drop (count + 1))
    : ∃ found' stop',
        Turns (statementTurn scan control loops bare) start' found' stop'
        ∧ AroundImport rest stop'.ahead := by
  have kinds := near.near.kind?_eq
  have block {found : List Expr} (here : start.kind? 0 = some .leftBrace)
      (grouped : (group scan).run start = .ok (found, stop))
      : ∃ found' stop',
          Turns (statementTurn scan control loops bare) start' found' stop'
          ∧ AroundImport rest stop'.ahead := by
    obtain ⟨found', stop', grouped', opens⟩ := takesUp_group near grouped left
    have turn : (statementTurn scan control loops bare).run start' = _ :=
      statementTurn_of_group (kinds.trans here) grouped'
    split at turn
    · exact ⟨found', stop', .last turn, .inl opens⟩
    · obtain ⟨others, stop'', turns, ends⟩ := exists_turns_of_holdsImport (.inl opens)
      exact ⟨found' ++ others, stop'', .more turn turns, .inr ends⟩
  rcases turn_of_statementTurn ran with ⟨found, rfl, turn⟩ | ⟨found, rfl, turn⟩
  · cases turn with
    | stays => exact absurd left near.not_stays
    | closes here => exact absurd left (near.not_advances here (by decide))
    | block here grouped => exact block here grouped
  · cases turn with
    | block here grouped => exact block here grouped
    | scan here other scanned =>
        obtain ⟨found', stop', scanned', holds⟩ := takesUp_scan near scanned left
        obtain ⟨others, stop'', turns, ends⟩ := exists_turns_of_holdsImport holds
        exact ⟨found' ++ others, stop'',
          .more (statementTurn_of_more (.scan (kinds.trans here) other scanned')) turns, .inr ends⟩

theorem takesUp_statement
    : TakesUp (fun _ => AroundImport rest) count (statement scan) (statement scan) start start' := by
  refine .bind_of_misses near (tracks_eat (Nat.lt_succ_self _) near.near)
    (misses_eat near (by decide)) fun {_ closed closed' _ _} same near => ?_
  obtain rfl : closed' = closed := same
  split
  · exact .bind_of_misses near (tracks_eat (Nat.lt_succ_self _) near.near)
      (misses_eat near (by decide)) fun _ near => .of_misses (misses_pure near)
  · refine .get ?_
    rw [near.near.isKeyword_eq, near.near.atKeyword_eq, near.near.isAt_eq]
    intro found stop ran left
    obtain ⟨found', stop', turns, ends⟩ := (turns_of_collect ran).takesUp
      (fun _ => tracks_statementTurn moves_scan tracks_scan)
      (fun near ran left => exists_statementTurns near ran left) near left
    exact ⟨found', stop', collect_of_turns (strides_statementTurn moves_scan) turns, ends⟩

/-- A directive that ends with a closing bracket ends before an import, or takes it up. -/
theorem takesUp_directive {kind : StmtKind} (ran : stmtKind.run start = .ok (kind, stop))
    (directive : kind.essence.1 = true) (left : stop.ahead = start.ahead.drop (count + 1))
    : ∃ kind' stop',
        stmtKind.run start' = .ok (kind', stop') ∧ AroundImport rest stop'.ahead := by
  rw [stmtKind, get_bind_eq_ok] at ran
  split at ran
  · obtain ⟨_, _, rfl⟩ := bind_pure_eq_ok.mp ran
    cases directive
  split at ran
  · rename_i other here
    obtain ⟨found, read, rfl⟩ := bind_pure_eq_ok.mp ran
    obtain ⟨found', stop', read', around⟩ := takesUp_statement near read left
    refine ⟨.declare found', stop', ?_, around⟩
    rw [stmtKind, get_bind_eq_ok, near.near.atKeyword_eq,
      near.near.atKeyword_and_kind?_eq (by decide), if_neg other, if_pos here]
    exact bind_pure_eq_ok.mpr ⟨found', read', rfl⟩
  · obtain ⟨_, _, _, ran⟩ := bind_eq_ok.mp ran
    rw [get_bind_eq_ok] at ran
    split at ran
    · obtain ⟨_, _, rfl⟩ := bind_pure_eq_ok.mp ran
      cases directive
    split at ran
    · obtain ⟨_, _, rfl⟩ := bind_pure_eq_ok.mp ran
      cases directive
    · obtain ⟨_, _, rfl⟩ := bind_pure_eq_ok.mp ran
      cases directive

end Statements

-----------------------------------------------------------------------------------------
-- Blocks before an import
-----------------------------------------------------------------------------------------

/-- Whether the last token closes a bracket. -/
def ClosesBracket (tokens : List Piece) : Prop :=
  ∃ kind ∈ Cursor.closers, tokens.getLast?.map Prod.fst = some kind

theorem ClosesBracket.exists_append {tokens : List Piece} (closes : ClosesBracket tokens)
    : ∃ earlier mark, tokens = earlier ++ [mark] ∧ mark.1 ∈ Cursor.closers := by
  obtain ⟨kind, listed, last⟩ := closes
  obtain ⟨mark, final, rfl⟩ := Option.map_eq_some_iff.mp last
  obtain ⟨earlier, same⟩ := List.getLast?_eq_some_iff.mp final
  exact ⟨earlier, mark, same, listed⟩

theorem ClosesBracket.append (left : List Piece) {right : List Piece} (closes : ClosesBracket right)
    : ClosesBracket (left ++ right) := by
  obtain ⟨earlier, mark, rfl, listed⟩ := closes.exists_append
  refine ⟨mark.1, listed, ?_⟩
  rw [← List.append_assoc, List.getLast?_concat]
  rfl

theorem ClosesBracket.solids {pieces : List Piece} (closes : ClosesBracket pieces)
    : ClosesBracket (solids pieces) := by
  obtain ⟨earlier, mark, rfl, listed⟩ := closes.exists_append
  have closers : ∀ kind ∈ Cursor.closers, kind.isTrivia = false := by decide
  have solid : mark.isTrivia = false := closers mark.1 listed
  rw [solids_append]
  refine .append _ ⟨mark.1, listed, ?_⟩
  simp [Lexer.solids, solid]

theorem opensImport_of_single {name : Name} {ahead : List Lexeme} {tokens : List Piece}
    (same : ahead.map Lexeme.piece = solids (importPieces (.single name)) ++ tokens)
    : ∃ rest, OpensImport rest ahead ∧ rest.map Lexeme.piece = tokens := by
  obtain ⟨keyword, behind, rfl, isKeyword, same⟩ := List.map_eq_cons_iff.mp same
  obtain ⟨name, behind, rfl, isName, same⟩ := List.map_eq_cons_iff.mp same
  obtain ⟨mark, rest, rfl, isMark, same⟩ := List.map_eq_cons_iff.mp same
  have spelled := Lexeme.isKeyword_of_piece (isKeyword.trans (Lexeme.piece_ofPiece _).symm)
    "use".toList
  exact ⟨rest, ⟨keyword, _, rfl, spelled, name, mark, rfl, congrArg Prod.fst isName,
    congrArg Prod.fst isMark⟩, same⟩

/-- A directive that ends with a closing bracket can be read before the import of a class, or joined
with it.
-/
theorem Reads.exists_directive {block rest : List Piece} {essence : Essence}
    (reads : Reads block rest essence) (directive : essence.1 = true)
    (closes : ClosesBracket block) (name : Name) (rest' : List Piece)
    : ∃ essence',
        Reads block (solids (importPieces (.single name)) ++ rest') essence'
        ∨ Reads (block ++ solids (importPieces (.single name))) rest' essence' := by
  obtain ⟨earlier, mark, rfl, listed⟩ := closes.exists_append
  have ahead := cursorBefore_ahead (earlier ++ [mark] ++ rest)
  generalize cursorBefore (earlier ++ [mark] ++ rest) = start at ahead
  have whole := cursorBefore_ahead
    (earlier ++ [mark] ++ (solids (importPieces (.single name)) ++ rest'))
  generalize cursorBefore (earlier ++ [mark] ++ (solids (importPieces (.single name)) ++ rest'))
    = start' at whole
  obtain ⟨⟨next, here, solid, other⟩, kind, stop, ran, left, rfl⟩ := reads ahead
  have ahead' := whole
  rw [List.append_assoc, List.singleton_append] at ahead ahead'
  have marked : start.kind? earlier.length = some mark.1 := kind?_of_sees_append ahead
  have facing : (start'.ahead.drop (earlier.length + 1)).map Lexeme.piece
      = solids (importPieces (.single name)) ++ rest' := by
    rw [List.map_drop, whole, ← List.length_singleton (a := mark), ← List.length_append,
      List.drop_left]
  obtain ⟨beyond, opens, behind⟩ := opensImport_of_single facing
  have near : start.NearImport beyond earlier.length start' :=
    ⟨⟨(nearPieces_of_mark (Cursor.closers_subset listed) earlier rest _).ahead ahead ahead',
      Cursor.lt_length_of_kind? marked⟩, ⟨mark.1, listed, marked⟩, opens⟩
  have guard : AtStmt start' := by
    refine ⟨next, near.near.kind?_eq ▸ here, solid, ?_⟩
    refine (atNamespace_eq_of_nearMark near.toNearMark ?_).trans other
    rw [marked]
    intro named
    rw [Option.some.inj named] at listed
    exact absurd listed (by decide)
  rw [List.length_append, List.length_singleton] at left
  obtain ⟨kind', stop', ran', opens' | ended⟩ := takesUp_directive near ran directive left
  · have same := (reaches_of_run ran').ahead_of_opensImport opens opens'
    exact ⟨_, .inl (reads_of_facing whole (by simp) guard ran' (same ▸ facing))⟩
  · rw [← List.append_assoc] at whole
    exact ⟨_, .inr (reads_of_facing whole (by simp) guard ran' (ended ▸ behind))⟩

/-- Directives before the end of a file can be read before the import of a class and other blocks, if
the last one ends with a closing bracket. That one may take up the import.
-/
theorem ReadsAll.exists_directives {outer rest : List Piece} {front back : List Part}
    (reads : ReadsAll rest front) (directives : ∀ part ∈ front, part.essence.1 = true)
    (closes : ClosesBracket (tokensOf front)) {part : Part} {name : Name}
    (entry : solids part.block.pieces = solids (importPieces (.single name)))
    (behind : ReadsAll outer (part :: back))
    : ∃ parts,
        tokensOf parts = tokensOf front ++ (tokensOf [part] ++ tokensOf back)
        ∧ ReadsAll outer parts := by
  rcases List.eq_nil_or_concat front with rfl | ⟨init, last, rfl⟩
  · obtain ⟨_, _, none⟩ := closes
    cases none
  rw [List.concat_eq_append] at reads directives closes ⊢
  rw [ClosesBracket, getLast?_tokensOf_concat reads] at closes
  obtain ⟨first, here, _⟩ := readsAll_append.mp reads
  have tokens (part : Part) : tokensOf [part] = solids part.block.pieces := by
    rw [tokensOf_cons, tokensOf_nil, List.append_nil]
  rw [tokensOf_nil, List.nil_append] at here
  rw [tokens] at first
  obtain ⟨earlier, mark, cut, listed⟩ := ClosesBracket.exists_append closes
  have near (more : List Piece)
      : NearPieces earlier.length (solids last.block.pieces ++ rest)
          (solids last.block.pieces ++ more) := by
    rw [cut, List.append_assoc, List.append_assoc]
    exact nearPieces_of_mark (Cursor.closers_subset listed) earlier rest more
  have plain := directives last (List.mem_append_right _ List.mem_cons_self)
  obtain ⟨essence, own | joined⟩ :=
    here.exists_directive plain closes name (tokensOf back ++ outer)
  · refine ⟨init ++ ⟨last.block, essence⟩ :: part :: back, ?_, readsAll_append.mpr ⟨?_, ?_, behind⟩⟩
    · simp only [tokensOf_append, tokensOf_cons, tokensOf_nil, List.append_nil, List.append_assoc]
    · rw [tokensOf_cons, List.append_assoc]
      exact first.near (near _)
    · rwa [tokensOf_cons, entry, List.append_assoc]
  · let whole : Part := ⟨⟨solids last.block.pieces ++ tokensOf [part], []⟩, essence⟩
    have solid : solids whole.block.pieces
        = solids last.block.pieces ++ solids (importPieces (.single name)) := by
      change solids (solids last.block.pieces ++ tokensOf [part]) = _
      rw [solids_append, solids_tokensOf, ← tokens last, solids_tokensOf, tokens part, entry]
    refine ⟨init ++ whole :: back, ?_, readsAll_append.mpr ⟨?_, ?_, behind.2⟩⟩
    · simp only [tokensOf_append, tokensOf_cons, tokensOf_nil, solid, entry, List.append_nil,
        List.append_assoc]
    · rw [tokensOf_cons, solid, List.append_assoc, List.append_assoc]
      exact first.near (near _)
    · rwa [solid]

end Parser

end ImportHeader
