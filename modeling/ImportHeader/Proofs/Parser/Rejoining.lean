import ImportHeader.Proofs.Parser.Resuming

/-! Statements before other statements. A control statement goes on behind a block if a keyword such
as `else` stands there. So a statement before other tokens is read the same, or it is read on
together with the statements it goes on with.
-/

namespace ImportHeader

open Lexer

namespace Parser

variable {count : Nat} {start start' middle stop : Cursor} {control loops : Bool}

-----------------------------------------------------------------------------------------
-- Statements that a control statement goes on with
-----------------------------------------------------------------------------------------

/-- What ends a control statement also ends one that can go on with the condition of a loop, or that
goes on there.
-/
theorem Turns.loosen {found : List Expr} (loops : Bool)
    (turns : Turns (statementTurn scan true false false) start found stop)
    : Continues (∃ found', Turns (statementTurn scan true loops false) start found' stop)
        (fun stop' => ∃ found', Turns (statementTurn scan true loops false) start found' stop')
        stop := by
  induction turns with
  | @last start stop _ ran =>
      cases lastTurn_of_statementTurn ran with
      | stays bound => exact .inl ⟨[], .last (statementTurn_of_last (.stays bound))⟩
      | closes here => exact .inl ⟨[], .last (statementTurn_of_last (.closes here))⟩
      | block here grouped _ =>
          cases final : endsStatement true loops false stop with
          | true => exact .inl ⟨_, .last (statementTurn_of_last (.block here grouped final))⟩
          | false =>
              refine .inr ⟨loops, (endsStatement_eq_false final rfl).2, fun rest => ?_⟩
              exact ⟨_, .more (statementTurn_of_more (.block here grouped final)) rest⟩
  | @more start middle _ found _ ran _ ih =>
      have turn : MoreTurn scan (endsStatement true loops false) start found middle := by
        cases moreTurn_of_statementTurn ran with
        | scan here other scanned => exact .scan here other scanned
        | block here grouped goes =>
            refine .block here grouped ?_
            have goes' := (endsStatement_eq_false goes rfl).2
            simp only [Cursor.goesOn, Bool.false_and, Bool.or_false] at goes'
            simp [endsStatement, Cursor.goesOn, goes']
      have whole {others : List Expr} {stop' : Cursor}
          (rest : Turns (statementTurn scan true loops false) middle others stop')
          : ∃ found', Turns (statementTurn scan true loops false) start found' stop' :=
        ⟨found ++ others, .more (statementTurn_of_more turn) rest⟩
      exact ih.imp (fun before => before.elim fun _ rest => whole rest) fun before =>
        before.elim fun _ rest => whole rest

/-- The keywords with which a control statement can go on behind a block. -/
def joiningKeywords : List Text :=
  "while" :: continuationKeywords

theorem isKeyword_joining_of_goesOn (goes : start.goesOn loops = true)
    : start.isKeyword 0 joiningKeywords = true := by
  rcases Bool.or_eq_true_iff.mp goes with here | here
  · unfold Cursor.isKeyword joiningKeywords at *
    cases next : start.token? 0 with
    | none => simp [next] at here
    | some token =>
        rw [next, Option.any_some] at here
        rw [Option.any_some, List.any_cons, here, Bool.or_true]
  · have loop := (Bool.and_eq_true_iff.mp here).2
    unfold Cursor.atKeyword Cursor.isKeyword joiningKeywords at *
    cases next : start.token? 0 with
    | none => simp [next] at loop
    | some token =>
        rw [next, Option.any_some, List.any_cons, List.any_nil, Bool.or_false] at loop
        rw [Option.any_some, List.any_cons, loop, Bool.true_or]

/-- Where a control statement goes on, there is one of a few keywords. -/
theorem isKeyword_of_goesOn (goes : start.goesOn loops = true)
    : ∃ keyword ∈ joiningKeywords, ∀ keywords,
        start.isKeyword 0 keywords = keywords.any (Text.sameFolded keyword) := by
  have known := isKeyword_joining_of_goesOn goes
  unfold Cursor.isKeyword at known ⊢
  cases next : start.token? 0 with
  | none => simp [next] at known
  | some token =>
      rw [next, Option.any_some, List.any_eq_true] at known
      obtain ⟨keyword, listed, spelled⟩ := known
      refine ⟨keyword, listed, fun keywords => ?_⟩
      rw [Option.any_some]
      exact congrArg keywords.any (funext fun _ => Token.isKeyword_eq_of_isKeyword spelled)

theorem not_atClass (modifier : start.isKeyword 0 classModifiers = false)
    (keyword : start.isKeyword 0 classKeywords = false)
    : start.atClass = false := by
  unfold Cursor.atClass
  unfold Cursor.isKeyword Cursor.token? at modifier keyword
  cases ahead : start.ahead with
  | nil => rfl
  | cons lexeme rest =>
      rw [ahead] at modifier keyword
      simp only [List.getElem?_cons_zero, Option.map_some, Option.any_some] at modifier keyword
      dsimp only
      rw [List.dropWhile_cons_of_neg (by rw [modifier]; exact Bool.false_ne_true)]
      cases rest with
      | nil => rfl
      | cons name rest =>
          dsimp only
          rw [keyword, Bool.false_and]

/-- No attributes stand before another token. -/
theorem attributes_eq_ok_nil {one : Parser (List Expr)} {found : List Expr}
    (other : start.isAt .attributeOpen = false)
    (ran : (attributes one).run start = .ok (found, stop))
    : found = [] ∧ stop = start := by
  have turned {result : Turn Expr} {middle : Cursor}
      (ran : (attributesTurn one).run start = .ok (result, middle))
      : result = .last [] ∧ middle = start := by
    obtain ⟨_, behind, ate, done⟩ := bind_eq_ok.mp ran
    obtain ⟨eaten, moved⟩ := eat_eq_ok.mp ate
    rw [other] at eaten moved
    rw [eaten] at done
    obtain ⟨rfl, rfl⟩ := pure_eq_ok.mp done
    exact ⟨rfl, moved⟩
  cases turns_of_collect ran with
  | last first =>
      obtain ⟨same, rfl⟩ := turned first
      cases same
      exact ⟨rfl, rfl⟩
  | more first _ => cases (turned first).1

/-- A statement that starts where a control statement goes on is read by the turns of one. -/
theorem turns_of_goesOn {kind : StmtKind} (goes : start.goesOn loops = true)
    (ran : stmtKind.run start = .ok (kind, stop))
    : ∃ found, Turns (statementTurn scan true false false) start found stop := by
  obtain ⟨keyword, listed, known⟩ := isKeyword_of_goesOn goes
  have at_ (other : Text) : start.atKeyword other = Text.sameFolded keyword other := by
    rw [Cursor.atKeyword, known, List.any_cons, List.any_nil, Bool.or_false]
  have facts
      : Text.sameFolded keyword "use" = false ∧ Text.sameFolded keyword "declare" = false
        ∧ Text.sameFolded keyword "function" = false ∧ Text.sameFolded keyword "do" = false
        ∧ controlKeywords.any (Text.sameFolded keyword) = true
        ∧ classModifiers.any (Text.sameFolded keyword) = false
        ∧ classKeywords.any (Text.sameFolded keyword) = false := by
    simp only [joiningKeywords, continuationKeywords, List.mem_cons, List.not_mem_nil, or_false]
      at listed
    rcases listed with rfl | rfl | rfl | rfl | rfl <;> decide
  obtain ⟨use, declare, function, loop, control, modifier, class_⟩ := facts
  have named : start.kind? 0 = some .name := by
    have here : start.isKeyword 0 controlKeywords = true := by rw [known, control]
    exact kind?_of_isKeyword here
  have isAt {kind : TokenKind} (other : kind ≠ .name) : start.isAt kind = false := by
    rw [Cursor.isAt, named]
    exact beq_false_of_ne (fun same => other (Option.some.inj same).symm)
  rw [stmtKind, get_bind_eq_ok, at_, use, at_, declare, Bool.false_and, if_neg Bool.false_ne_true,
    if_neg Bool.false_ne_true] at ran
  obtain ⟨attributes, middle, attributed, later⟩ := bind_eq_ok.mp ran
  obtain ⟨rfl, rfl⟩ := attributes_eq_ok_nil (isAt (by decide)) attributed
  rw [get_bind_eq_ok, not_atClass (by rw [known, modifier]) (by rw [known, class_]),
    if_neg Bool.false_ne_true, Cursor.atFunction, at_, function, Bool.false_and,
    if_neg Bool.false_ne_true] at later
  obtain ⟨found, behind, read, done⟩ := bind_eq_ok.mp later
  obtain ⟨_, rfl⟩ := pure_eq_ok.mp done
  obtain ⟨_, middle', ate, rest⟩ := bind_eq_ok.mp read
  obtain ⟨eaten, moved⟩ := eat_eq_ok.mp ate
  rw [isAt (by decide)] at eaten moved
  obtain rfl : middle' = middle := moved
  rw [eaten, if_neg Bool.false_ne_true, get_bind_eq_ok, known, control, at_, loop,
    isAt (by decide)] at rest
  exact ⟨found, turns_of_collect rest⟩

theorem kind?_of_goesOn (goes : start.goesOn loops = true) : start.kind? 0 = some .name := by
  rcases Bool.or_eq_true_iff.mp goes with here | here
  · exact kind?_of_isKeyword here
  · exact kind?_of_isKeyword (Bool.and_eq_true_iff.mp here).2

/-- A control statement that goes on before other statements ends behind some of them, by induction
over these.
-/
theorem exists_joined {outer : List Piece} {back : List Part} (reads : ReadsAll outer back)
    (ended : ∀ piece ∈ outer.head?, piece.1 = .rightBrace)
    (ahead : start.ahead.map Lexeme.piece = tokensOf back ++ outer)
    (goes : start.goesOn loops = true)
    : ∃ joined rest found stop, back = joined ++ rest
        ∧ Turns (statementTurn scan true loops false) start found stop
        ∧ stop.ahead.map Lexeme.piece = tokensOf rest ++ outer := by
  induction back generalizing loops start with
  | nil =>
      rw [tokensOf_nil, List.nil_append] at ahead
      have named := kind?_of_goesOn goes
      obtain ⟨lexeme, others, cut⟩ :=
        List.exists_cons_of_ne_nil (Cursor.ahead_ne_nil_of_kind? named)
      rw [cut, List.map_cons] at ahead
      have brace : lexeme.token.kind = .rightBrace := ended lexeme.piece (by rw [← ahead]; rfl)
      simp [Cursor.kind?, Cursor.token?, cut, brace] at named
  | cons part back ih =>
      obtain ⟨here, later⟩ := reads
      rw [tokensOf_cons, List.append_assoc] at ahead
      obtain ⟨_, kind, middle, ran, left, _⟩ := here ahead
      have ahead' : middle.ahead.map Lexeme.piece = tokensOf back ++ outer := by
        rw [left, List.map_drop, ahead, List.drop_left]
      obtain ⟨found, turns⟩ := turns_of_goesOn goes ran
      rcases turns.loosen loops with ⟨found', turns'⟩ | ⟨loops', goes', ends⟩
      · exact ⟨[part], back, found', middle, rfl, turns', ahead'⟩
      · obtain ⟨joined, rest, _, stop, rfl, more, left'⟩ := ih later ahead' goes'
        obtain ⟨found', turns'⟩ := ends more
        exact ⟨part :: joined, rest, found', stop, rfl, turns', left'⟩

-----------------------------------------------------------------------------------------
-- Blocks before other blocks
-----------------------------------------------------------------------------------------

theorem solids_tokensOf (parts : List Part) : solids (tokensOf parts) = tokensOf parts := by
  induction parts with
  | nil => rfl
  | cons part parts ih =>
      rw [tokensOf_cons, solids_append, ih]
      simp [solids]

/-- A token stands here that ends no statement before itself. -/
def StartsFree (tokens : List Piece) : Prop :=
  ∃ piece rest, tokens = piece :: rest ∧ piece.1 ≠ .closeTag ∧ piece.1 ≠ .rightBrace

theorem StartsFree.isFree {tokens : List Piece} (free : StartsFree tokens)
    (sees : start.Sees tokens)
    : start.IsFree := by
  obtain ⟨piece, rest, rfl, open_, inside⟩ := free
  exact ⟨piece.1, kind?_of_sees sees, open_, inside⟩

/-- A statement that does not start with a close tag starts free. -/
theorem Reads.startsFree {block rest : List Piece} {essence : Essence}
    (reads : Reads block rest essence) (opens : ∀ piece ∈ block.head?, piece.1 ≠ .closeTag)
    (more : List Piece)
    : StartsFree (block ++ more) := by
  obtain ⟨piece, others, rfl⟩ := List.exists_cons_of_ne_nil (List.length_pos_iff.mp reads.length_pos)
  have ahead := cursorBefore_ahead (piece :: others ++ rest)
  obtain ⟨⟨kind, here, solid, _⟩, _⟩ := reads ahead
  have same : (cursorBefore (piece :: others ++ rest)).kind? 0 = some piece.1 := kind?_of_sees ahead
  obtain rfl := Option.some.inj (here.symm.trans same)
  exact ⟨piece, others ++ more, rfl, opens piece rfl, solid⟩

theorem kind?_of_sees_append {earlier rest : List Piece} {piece : Piece}
    (sees : start.Sees (earlier ++ piece :: rest))
    : start.kind? earlier.length = some piece.1 := by
  have here := congrArg (fun pieces : List Piece => pieces[earlier.length]?) sees
  rw [List.getElem?_map, List.getElem?_append_right (Nat.le_refl _), Nat.sub_self,
    List.getElem?_cons_zero] at here
  obtain ⟨lexeme, listed, rfl⟩ := Option.map_eq_some_iff.mp here
  rw [Cursor.kind?, Cursor.token?, listed]
  rfl

/-- A statement before a free token ends with a mark. -/
theorem Reads.exists_mark {block rest : List Piece} {essence : Essence}
    (reads : Reads block rest essence) (plain : essence.2.1.isSome = false) (free : StartsFree rest)
    : ∃ earlier mark, block = earlier ++ [mark] ∧ mark.1 ∈ Lexeme.quietMarks := by
  have ahead := cursorBefore_ahead (block ++ rest)
  obtain ⟨_, kind, stop, ran, left, rfl⟩ := reads ahead
  have sees : stop.Sees rest := by rw [Cursor.Sees, left, List.map_drop, ahead, List.drop_left]
  obtain ⟨n, mark, left', here, listed⟩ :=
    endsFree_stmtKind (not_atKeyword_of_essence ran plain) ran (free.isFree sees)
  have length : block.length = n + 1 := by
    have within := Cursor.lt_length_of_kind? here
    have lengths := congrArg List.length (left.symm.trans left')
    have whole := congrArg List.length ahead
    simp only [List.length_drop, List.length_map, List.length_append] at lengths whole
    omega
  obtain ⟨earlier, last, rfl⟩ := (List.eq_nil_or_concat block).resolve_left (by
    rintro rfl
    cases length)
  rw [List.concat_eq_append, List.length_append, List.length_singleton] at length
  refine ⟨earlier, last, List.concat_eq_append, ?_⟩
  obtain rfl : n = earlier.length := by omega
  rw [List.concat_eq_append, List.append_assoc, List.singleton_append] at ahead here
  rw [kind?_of_sees_append (cursorBefore_ahead _)] at here
  obtain rfl := Option.some.inj here
  exact listed

/-- No statement looks beyond the mark with which it ends. -/
theorem nearPieces_of_mark {mark : Piece} (listed : mark.1 ∈ Lexeme.quietMarks)
    (earlier rest rest' : List Piece)
    : NearPieces earlier.length (earlier ++ mark :: rest) (earlier ++ mark :: rest') := by
  have border : NearPieces 0 (mark :: rest) (mark :: rest') := .border (.inr ⟨rfl, listed⟩)
  exact .append (alike_refl earlier) border

/-- A block before a free token is read the same before other tokens, unless a control statement goes
on with these.
-/
theorem Reads.resumes {block rest rest' : List Piece} {essence : Essence}
    (reads : Reads block rest essence) (plain : essence.2.1.isSome = false) (free : StartsFree rest)
    (apart : ∀ last ∈ block.getLast?, last.1 ≠ .closeTag)
    (ahead' : start'.ahead.map Lexeme.piece = block ++ rest')
    : AtStmt start'
      ∧ ∃ middle,
          middle.ahead = start'.ahead.drop block.length
          ∧ Continues
              (∃ kind, stmtKind.run start' = .ok (kind, middle) ∧ kind.essence = essence)
              (fun stop => ∃ kind, stmtKind.run start' = .ok (kind, stop)) middle := by
  obtain ⟨earlier, mark, rfl, listed⟩ := reads.exists_mark plain free
  have ahead := cursorBefore_ahead (earlier ++ [mark] ++ rest)
  generalize cursorBefore (earlier ++ [mark] ++ rest) = start at ahead
  obtain ⟨⟨next, here, solid, other⟩, kind, stop, ran, left, rfl⟩ := reads ahead
  have sees : stop.Sees rest := by rw [Cursor.Sees, left, List.map_drop, ahead, List.drop_left]
  rw [List.append_assoc, List.singleton_append] at ahead ahead'
  have marked : start.kind? earlier.length = some mark.1 := kind?_of_sees_append ahead
  have ends : start.NearMark earlier.length start' :=
    ⟨(nearPieces_of_mark listed earlier rest rest').ahead ahead ahead',
      Cursor.lt_length_of_kind? marked⟩
  rw [List.length_append, List.length_singleton] at left ⊢
  refine ⟨⟨next, ends.near.kind?_eq ▸ here, solid, ?_⟩, ?_⟩
  · refine (atNamespace_eq_of_nearMark ends ?_).trans other
    rw [marked]
    intro named
    rw [Option.some.inj named] at listed
    exact absurd listed (by decide)
  · refine resumes_stmtKind ends (not_atKeyword_of_essence ran plain) ?_ ran left (free.isFree sees)
    rw [marked]
    exact fun same => apart mark List.getLast?_concat (Option.some.inj same)

/-- A statement that was read before given tokens is a block before these. -/
theorem reads_of_facing {block rest : List Piece} {kind : StmtKind}
    (ahead : start.ahead.map Lexeme.piece = block ++ rest) (some : block ≠ []) (guard : AtStmt start)
    (ran : stmtKind.run start = .ok (kind, stop)) (facing : stop.ahead.map Lexeme.piece = rest)
    : Reads block rest kind.essence := by
  refine reads_of_run ahead (List.length_pos_iff.mpr some) guard ran ?_
    (nearPieces_of_alike (alike_refl _)) (by simp) rfl
  rw [List.suffix_iff_eq_drop.mp (reaches_of_run ran).ahead_suffix]
  congr 1
  have all := congrArg List.length ahead
  have less := congrArg List.length facing
  simp only [List.length_map, List.length_append] at all less ⊢
  omega

/-- A block before a free token can be read before other blocks, joined with some of these. -/
theorem Reads.exists_joined {block rest outer : List Piece} {essence : Essence} {back : List Part}
    (reads : Reads block rest essence) (plain : essence.2.1.isSome = false) (free : StartsFree rest)
    (apart : ∀ last ∈ block.getLast?, last.1 ≠ .closeTag)
    (behind : ReadsAll outer back) (ended : ∀ piece ∈ outer.head?, piece.1 = .rightBrace)
    : ∃ joined later essence', back = joined ++ later
        ∧ Reads (block ++ tokensOf joined) (tokensOf later ++ outer) essence' := by
  have ahead' := cursorBefore_ahead (block ++ (tokensOf back ++ outer))
  generalize cursorBefore (block ++ (tokensOf back ++ outer)) = start' at ahead'
  obtain ⟨guard, middle, atMiddle, continues⟩ := reads.resumes plain free apart ahead'
  have facing : middle.ahead.map Lexeme.piece = tokensOf back ++ outer := by
    rw [atMiddle, List.map_drop, ahead', List.drop_left]
  obtain ⟨joined, later, found, stop', same, ran', facing'⟩ : ∃ joined later found stop',
      back = joined ++ later
      ∧ stmtKind.run start' = .ok (found, stop')
      ∧ stop'.ahead.map Lexeme.piece = tokensOf later ++ outer := by
    rcases continues with ⟨found, ran', _⟩ | ⟨loops, goes, turns⟩
    · exact ⟨[], back, found, middle, rfl, ran', facing⟩
    · obtain ⟨joined, later, _, stop', same, rest, facing'⟩ :=
        ImportHeader.Parser.exists_joined behind ended facing goes
      obtain ⟨found, ran'⟩ := turns rest
      exact ⟨joined, later, found, stop', same, ran', facing'⟩
  refine ⟨joined, later, found.essence, same, ?_⟩
  have whole : start'.ahead.map Lexeme.piece
      = block ++ tokensOf joined ++ (tokensOf later ++ outer) := by
    rw [ahead', same, tokensOf_append]
    simp only [List.append_assoc]
  exact reads_of_facing whole (List.append_ne_nil_of_left_ne_nil
    (List.length_pos_iff.mp reads.length_pos) _) guard ran' facing'

/-- Whether a control statement can go on with a token behind a block. -/
def joinsControl (piece : Piece) : Bool :=
  joiningKeywords.any (Lexeme.ofPiece piece).token.isKeyword

theorem joinsControl_of_kind {piece : Piece} (other : piece.1 ≠ .name)
    : joinsControl piece = false := by
  simp [joinsControl, Token.isKeyword, Lexeme.ofPiece, other]

/-- A block before a free token is read the same before tokens with which no control statement goes
on.
-/
theorem Reads.before_other {block rest rest' : List Piece} {essence : Essence}
    (reads : Reads block rest essence) (plain : essence.2.1.isSome = false) (free : StartsFree rest)
    (apart : ∀ last ∈ block.getLast?, last.1 ≠ .closeTag)
    (other : ∀ piece ∈ rest'.head?, joinsControl piece = false)
    : Reads block rest' essence := by
  intro start' ahead'
  obtain ⟨guard, middle, left, ⟨kind, ran, same⟩ | ⟨loops, goes, _⟩⟩ :=
    reads.resumes plain free apart ahead'
  · exact ⟨guard, kind, middle, ran, left, same⟩
  · have keyword := isKeyword_joining_of_goesOn goes
    have sees : middle.ahead.map Lexeme.piece = rest' := by
      rw [left, List.map_drop, ahead', List.drop_left]
    unfold Cursor.isKeyword Cursor.token? at keyword
    cases cut : middle.ahead with
    | nil => simp [cut] at keyword
    | cons lexeme others =>
        have stops := other lexeme.piece (by rw [← sees, cut]; rfl)
        simp only [cut, List.getElem?_cons_zero, Option.map_some, Option.any_some] at keyword
        have same : joiningKeywords.any (Lexeme.ofPiece lexeme.piece).token.isKeyword
            = joiningKeywords.any lexeme.token.isKeyword :=
          congrArg joiningKeywords.any (funext fun word =>
            Lexeme.isKeyword_of_piece (Lexeme.piece_ofPiece _).symm word)
        exact absurd (stops.symm.trans (same.trans keyword)) (by decide)

theorem nearPieces_of_mark_block {block rest : List Piece} {essence : Essence}
    (reads : Reads block rest essence) (plain : essence.2.1.isSome = false) (free : StartsFree rest)
    (rest' : List Piece)
    : ∃ count, NearPieces count (block ++ rest) (block ++ rest') := by
  obtain ⟨earlier, mark, rfl, listed⟩ := reads.exists_mark plain free
  rw [List.append_assoc, List.append_assoc]
  exact ⟨_, nearPieces_of_mark listed earlier rest rest'⟩

theorem getLast?_tokensOf_concat {rest : List Piece} {init : List Part} {last : Part}
    (reads : ReadsAll rest (init ++ [last]))
    : (tokensOf (init ++ [last])).getLast? = (solids last.block.pieces).getLast? := by
  have some := (readsAll_append.mp reads).2.1.length_pos
  rw [tokensOf_append, tokensOf_cons, tokensOf_nil, List.append_nil,
    List.getLast?_append_of_ne_nil _ (List.length_pos_iff.mp some)]

/-- Blocks before a free token are read the same before tokens with which no control statement goes
on.
-/
theorem ReadsAll.before_other {rest rest' : List Piece} {parts : List Part}
    (reads : ReadsAll rest parts) (plain : ∀ part ∈ parts, part.essence.2.1.isSome = false)
    (free : StartsFree rest) (apart : ∀ last ∈ (tokensOf parts).getLast?, last.1 ≠ .closeTag)
    (other : ∀ piece ∈ rest'.head?, joinsControl piece = false)
    : ReadsAll rest' parts := by
  rcases List.eq_nil_or_concat parts with rfl | ⟨init, last, rfl⟩
  · exact trivial
  rw [List.concat_eq_append] at reads plain apart ⊢
  rw [getLast?_tokensOf_concat reads] at apart
  obtain ⟨first, final, _⟩ := readsAll_append.mp reads
  have plain' := plain last (List.mem_append_right _ List.mem_cons_self)
  obtain ⟨_, near⟩ := nearPieces_of_mark_block final plain' free rest'
  rw [tokensOf_nil, List.nil_append] at final
  rw [tokensOf_cons, tokensOf_nil, List.append_nil] at first
  refine readsAll_append.mpr ⟨?_, ?_, trivial⟩
  · rw [tokensOf_cons, tokensOf_nil, List.append_nil]
    exact first.near near
  · exact final.before_other plain' free apart other

/-- Blocks before a free token can be read before other blocks, the last of them joined with some of
these.
-/
theorem exists_rejoined {front back : List Part} {rest outer : List Piece}
    (reads : ReadsAll rest front) (plain : ∀ part ∈ front, part.essence.2.1.isSome = false)
    (free : StartsFree rest) (apart : ∀ last ∈ (tokensOf front).getLast?, last.1 ≠ .closeTag)
    (behind : ReadsAll outer back) (ended : ∀ piece ∈ outer.head?, piece.1 = .rightBrace)
    : ∃ parts, tokensOf parts = tokensOf front ++ tokensOf back ∧ ReadsAll outer parts := by
  rcases List.eq_nil_or_concat front with rfl | ⟨init, last, rfl⟩
  · exact ⟨back, rfl, behind⟩
  rw [List.concat_eq_append] at reads plain apart ⊢
  rw [getLast?_tokensOf_concat reads] at apart
  obtain ⟨first, final, _⟩ := readsAll_append.mp reads
  have plain' := plain last (List.mem_append_right _ List.mem_cons_self)
  have tokens : tokensOf [last] = solids last.block.pieces := by
    rw [tokensOf_cons, tokensOf_nil, List.append_nil]
  rw [tokens] at first
  obtain ⟨joined, later, essence, rfl, reads'⟩ :=
    final.exists_joined plain' free apart behind ended
  let part : Part := ⟨⟨solids last.block.pieces ++ tokensOf joined, []⟩, essence⟩
  have solid : solids part.block.pieces = solids last.block.pieces ++ tokensOf joined := by
    change solids (solids last.block.pieces ++ tokensOf joined) = _
    rw [solids_append, solids_tokensOf, ← tokens, solids_tokensOf]
  obtain ⟨count, near⟩ := nearPieces_of_mark_block final plain' free
    (tokensOf joined ++ (tokensOf later ++ outer))
  rw [tokensOf_nil, List.nil_append] at near
  have near : NearPieces count (solids last.block.pieces ++ rest)
      (tokensOf (part :: later) ++ outer) := by
    rw [tokensOf_cons, solid]
    simpa only [List.append_assoc] using near
  refine ⟨init ++ part :: later, ?_, readsAll_append.mpr ⟨first.near near, ?_,
    (readsAll_append.mp behind).2⟩⟩
  · rw [tokensOf_append, tokensOf_cons, solid, tokensOf_append, tokens, tokensOf_append]
    simp only [List.append_assoc]
  · rw [solid]
    exact reads'

end Parser

end ImportHeader
