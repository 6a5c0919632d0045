import ImportHeader.Proofs.Parser.Script
import ImportHeader.Proofs.Parser.Sealing

/-! Statements that end with a semicolon. Nothing behind the semicolon is looked at, so such a
statement is read the same before whatever follows.
-/

namespace ImportHeader

open Lexer

/-- Two cursors before as many alike tokens, and one more token behind these that looks the same
from both.
-/
structure Cursor.NearMark (count : Nat) (start start' : Cursor) : Prop where
  near : Near count start.ahead start'.ahead
  lt_length : count < start.ahead.length

theorem Cursor.NearMark.drop {count n : Nat} {start start' middle middle' : Cursor}
    (ends : NearMark count start start') (few : n ≤ count)
    (left : middle.ahead = start.ahead.drop n) (left' : middle'.ahead = start'.ahead.drop n)
    : NearMark (count - n) middle middle' := by
  refine ⟨?_, ?_⟩
  · rw [left, left']
    exact ends.near.drop few
  · have within := ends.lt_length
    rw [left, List.length_drop]
    omega

/-- Two cursors before as many alike tokens, and a semicolon behind these. -/
structure Cursor.NearEnd (count : Nat) (start start' : Cursor) : Prop where
  near : Near count start.ahead start'.ahead
  mark : start.kind? count = some .semicolon

namespace Cursor.NearEnd

variable {count : Nat} {start start' : Cursor}

theorem lt_length (ends : NearEnd count start start') : count < start.ahead.length := by
  have here := ends.mark
  unfold kind? token? at here
  by_contra few
  rw [List.getElem?_eq_none (Nat.le_of_not_lt few)] at here
  cases here

theorem nearMark (ends : NearEnd count start start') : NearMark count start start' :=
  ⟨ends.near, ends.lt_length⟩

theorem drop (ends : NearEnd count start start') {middle middle' : Cursor} {n : Nat}
    (few : n ≤ count) (left : middle.ahead = start.ahead.drop n)
    (left' : middle'.ahead = start'.ahead.drop n)
    : NearEnd (count - n) middle middle' := by
  refine ⟨(ends.nearMark.drop few left left').near, ?_⟩
  have here := ends.mark
  unfold kind? token? at here ⊢
  rwa [left, List.getElem?_drop, Nat.add_sub_cancel' few]

/-- The semicolon is passed last by what ends behind it. -/
theorem not_sealed (ends : NearEnd count start start') {stop : Cursor}
    (left : stop.ahead = start.ahead.drop (count + 1))
    : ¬start.Sealed EndMark.semicolon.kind stop := by
  rintro ⟨passed, whole, final⟩
  have here := ends.mark
  have length : passed.length = count + 1 := by
    have lengths := congrArg List.length whole
    have short := ends.lt_length
    simp only [tokens, left, List.length_append, List.length_map, List.length_drop] at lengths
    omega
  obtain ⟨earlier, last, rfl⟩ := (List.eq_nil_or_concat passed).resolve_left (by
    rintro rfl
    cases length)
  rw [List.concat_eq_append] at whole length final
  rw [List.length_append, List.length_singleton] at length
  rw [kind?, token?, ← List.getElem?_map, ← tokens, whole, List.append_assoc,
    List.getElem?_append_right (by omega), show count - earlier.length = 0 by omega] at here
  have isMark : last.kind = .semicolon := by simpa using here
  exact final last List.getLast?_concat isMark

end Cursor.NearEnd

namespace Parser

variable {α β γ δ : Type} {count : Nat} {view : α → γ} {start start' : Cursor}

/-- What a step finds that ends behind the next token, another step finds from another cursor. -/
def Concludes (count : Nat) (view : α → γ) (step step' : Parser α) (start start' : Cursor)
    : Prop :=
  ∀ ⦃found : α⦄ ⦃stop : Cursor⦄,
    step.run start = .ok (found, stop)
    → stop.ahead = start.ahead.drop (count + 1)
    → ∃ found' stop',
        step'.run start' = .ok (found', stop')
        ∧ stop'.ahead = start'.ahead.drop (count + 1)
        ∧ view found' = view found

/-- A step that ends before the last token is followed, and what comes next starts before as many
tokens less.
-/
theorem Follows.exists_middle {step step' : Parser α} {found : α} {middle stop : Cursor}
    (ends : start.NearMark count start') (follows : Follows count view step step' start start')
    (begun : step.run start = .ok (found, middle))
    (left : stop.ahead = start.ahead.drop (count + 1))
    (few : ∀ {n}, middle.ahead = start.ahead.drop n → n ≤ count + 1 → n ≤ count)
    (reached : middle.Reaches stop)
    : ∃ n found' middle',
        step'.run start' = .ok (found', middle')
        ∧ view found' = view found
        ∧ n ≤ count
        ∧ middle.ahead = start.ahead.drop n
        ∧ middle'.ahead = start'.ahead.drop n
        ∧ stop.ahead = middle.ahead.drop (count - n + 1)
        ∧ start'.ahead.drop (count + 1) = middle'.ahead.drop (count - n + 1) := by
  obtain ⟨n, short, atMiddle⟩ := exists_drop_of_run begun
  have within : n ≤ count := by
    refine few atMiddle ?_
    have shorter := reached.length_le
    have longer := ends.lt_length
    rw [left, atMiddle, List.length_drop, List.length_drop] at shorter
    omega
  obtain ⟨found', middle', begun', atMiddle', same⟩ := follows begun atMiddle within
  refine ⟨n, found', middle', begun', same, within, atMiddle, atMiddle', ?_, ?_⟩
  · rw [left, atMiddle, List.drop_drop]
    congr 1
    omega
  · rw [atMiddle', List.drop_drop]
    congr 1
    omega

/-- A step that does not end with a semicolon ends before it, and what comes next concludes. -/
theorem Concludes.bind {view' : β → δ} {step step' : Parser α} {next next' : α → Parser β}
    (ends : start.NearEnd count start') (first : Follows count view step step' start start')
    (seals : Seals .semicolon step start)
    (second
      : ∀ {n found found' middle middle'},
          step.run start = .ok (found, middle)
          → view found' = view found
          → middle.NearEnd (count - n) middle'
          → Concludes (count - n) view' (next found) (next' found') middle middle')
    : Concludes count view' (step >>= next) (step' >>= next') start start' := by
  intro result stop ran left
  obtain ⟨found, middle, begun, rest⟩ := bind_eq_ok.mp ran
  have few : ∀ {n}, middle.ahead = start.ahead.drop n → n ≤ count + 1 → n ≤ count := by
    intro n atMiddle _
    by_contra more
    have last : n = count + 1 := by omega
    exact ends.not_sealed (last ▸ atMiddle) (seals begun)
  obtain ⟨n, found', middle', begun', same, within, atMiddle, atMiddle', later, later'⟩ :=
    first.exists_middle ends.nearMark begun left few (reaches_of_run rest)
  obtain ⟨result', stop', rest', atStop', same'⟩ :=
    second begun same (ends.drop within atMiddle atMiddle') rest later
  exact ⟨result', stop', bind_eq_ok.mpr ⟨found', middle', begun', rest'⟩, atStop'.trans later'.symm,
    same'⟩

theorem Concludes.get {next next' : Cursor → Parser α}
    (later : Concludes count view (next start) (next' start') start start')
    : Concludes count view (Parser.get >>= next) (Parser.get >>= next') start start' := by
  intro found stop ran left
  obtain ⟨found', stop', ran', left', same⟩ := later (get_bind_eq_ok.mp ran) left
  exact ⟨found', stop', get_bind_eq_ok.mpr ran', left', same⟩

/-- What does not end with a semicolon does not end behind it. -/
theorem Concludes.of_seals {step step' : Parser α} (ends : start.NearEnd count start')
    (seals : Seals .semicolon step start)
    : Concludes count view step step' start start' :=
  fun _ _ ran left => absurd (seals ran) (ends.not_sealed left)

/-- What only looks at what it found last. -/
theorem Concludes.map {view' : β → δ} {step step' : Parser α} {make make' : α → β}
    (first : Concludes count view step step' start start')
    (made
      : ∀ {found found'},
          view found' = view found → view' (make' found') = view' (make found))
    : Concludes count view' (step >>= fun found => Pure.pure (make found))
        (step' >>= fun found => Pure.pure (make' found)) start start' := by
  intro result stop ran left
  obtain ⟨found, middle, begun, done⟩ := bind_eq_ok.mp ran
  obtain ⟨rfl, rfl⟩ := pure_eq_ok.mp done
  obtain ⟨found', stop', begun', left', same⟩ := first begun left
  exact ⟨make' found', stop', bind_eq_ok.mpr ⟨found', stop', begun', pure_eq_ok.mpr ⟨rfl, rfl⟩⟩,
    left', made same⟩

/-- A step over one token that ends behind the next token starts at that one. -/
theorem eq_zero_of_advance (within : count < start.ahead.length)
    (left : start.advance.ahead = start.ahead.drop (count + 1))
    : count = 0 := by
  have lengths := congrArg List.length left
  rw [Cursor.advance_ahead, List.length_drop, List.length_drop] at lengths
  omega

theorem concludes_expect {kind : TokenKind} {what : Expectation} (ends : start.NearMark count start')
    : Concludes count (fun _ => ()) (expect kind what) (expect kind what) start start' := by
  intro token stop ran left
  obtain ⟨here, rfl, rfl⟩ := expect_eq_ok.mp ran
  obtain rfl := eq_zero_of_advance ends.lt_length left
  have kinds := ends.near.kind?_eq
  unfold Cursor.kind? at kinds
  rw [here, Option.map_some] at kinds
  obtain ⟨token', next, kind⟩ := Option.map_eq_some_iff.mp kinds
  exact ⟨token', start'.advance, expect_eq_ok.mpr ⟨next, kind, rfl⟩, Cursor.advance_ahead _, rfl⟩

-----------------------------------------------------------------------------------------
-- Statements
-----------------------------------------------------------------------------------------

/-- A turn of a statement that ends behind a semicolon starts before it. -/
theorem statementTurn_of_mark {control loops bare : Bool} {result : Turn Expr} {stop : Cursor}
    (ends : start.NearEnd count start')
    (ran : (statementTurn scan control loops bare).run start = .ok (result, stop))
    (left : stop.ahead = start.ahead.drop (count + 1))
    : count = 0 ∧ result = .last [] := by
  rw [statementTurn, get_bind_eq_ok] at ran
  have within := ends.lt_length
  have stays (same : start = stop) : count = 0 ∧ result = .last [] := by
    rw [← same] at left
    have lengths := congrArg List.length left
    rw [List.length_drop] at lengths
    omega
  split at ran
  · exact stays (pure_eq_ok.mp ran).2
  · exact stays (pure_eq_ok.mp ran).2
  · exact stays (pure_eq_ok.mp ran).2
  · obtain ⟨_, middle, skipped, done⟩ := bind_eq_ok.mp ran
    obtain rfl := skip_eq_ok.mp skipped
    obtain ⟨rfl, rfl⟩ := pure_eq_ok.mp done
    exact ⟨eq_zero_of_advance within left, rfl⟩
  · rename_i here
    refine absurd ?_ (ends.not_sealed left)
    obtain ⟨_, middle, read, later⟩ := bind_eq_ok.mp ran
    rw [get_bind_eq_ok] at later
    have last : middle = stop := by
      dsimp only at later
      split at later <;> exact (pure_eq_ok.mp later).2
    exact last ▸ (keeps_group scans_scan here rfl).seals read
  · rename_i kind _ _ other _ here
    refine absurd ?_ (ends.not_sealed left)
    obtain ⟨_, read, _⟩ := bind_pure_eq_ok.mp ran
    refine (scans_scan.keeps fun _ same => other ?_).seals read
    rw [here] at same
    exact Option.some.inj same

/-- The turns of a statement that ends with a semicolon, by induction over them: all but the last
one end before it.
-/
theorem Turns.conclude {control loops bare : Bool} {found : List Expr} {stop : Cursor}
    (turns : Turns (statementTurn scan control loops bare) start found stop)
    : ∀ {count : Nat} {start' : Cursor} {budget : List Lexeme},
        start.NearEnd count start'
        → stop.ahead = start.ahead.drop (count + 1)
        → count ≤ budget.length
        → ∃ found' stop',
            (collectWithin (statementTurn scan control loops bare) budget).run start'
            = .ok (found', stop')
            ∧ stop'.ahead = start'.ahead.drop (count + 1)
            ∧ found'.flatMap exprOnly = found.flatMap exprOnly := by
  induction turns with
  | last ran =>
      intro count start' budget ends left _
      obtain ⟨rfl, same⟩ := statementTurn_of_mark ends ran left
      cases same
      have here : start'.kind? 0 = some .semicolon := ends.near.kind?_eq.trans ends.mark
      refine ⟨[], start'.advance, collectWithin_of_last budget ?_, Cursor.advance_ahead _, rfl⟩
      rw [statementTurn, get_bind_eq_ok, here]
      exact bind_eq_ok.mpr ⟨(), _, skip_eq_ok.mpr rfl, pure_eq_ok.mpr ⟨rfl, rfl⟩⟩
  | @more start middle stop found others ran rest ih =>
      intro count start' budget ends left enough
      obtain ⟨i, short, atMiddle⟩ := exists_drop_of_run ran
      have passed : start.Passes middle := strides_statementTurn moves_scan ran
      have shorter := rest.reaches.length_le
      have within := ends.lt_length
      have few : i ≤ count := by
        rw [left, atMiddle, List.length_drop, List.length_drop] at shorter
        by_contra more
        have last : i = count + 1 := by omega
        cases (statementTurn_of_mark ends ran (last ▸ atMiddle)).2
      unfold Cursor.Passes at passed
      have lengths := congrArg List.length atMiddle
      rw [List.length_drop] at lengths
      obtain ⟨result, middle', ran', atMiddle', shown⟩ :=
        tracks_statementTurn moves_scan tracks_scan (Nat.lt_succ_self count) ends.near ran atMiddle few
      obtain ⟨found', rfl, same⟩ := Turn.shown_eq_more shown
      have ends' := ends.drop few atMiddle atMiddle'
      have left' : stop.ahead = middle.ahead.drop (count - i + 1) := by
        rw [left, atMiddle, List.drop_drop]
        congr 1
        omega
      cases budget with
      | nil =>
          rw [List.length_nil] at enough
          omega
      | cons lexeme budget =>
          rw [List.length_cons] at enough
          have covered : count - i ≤ budget.length := by omega
          obtain ⟨others', stop', rest', atStop', same'⟩ := ih ends' left' covered
          refine ⟨found' ++ others', stop', collectWithin_of_more ran' rest', ?_, ?_⟩
          · rw [atStop', atMiddle', List.drop_drop]
            congr 1
            omega
          · rw [List.flatMap_append, List.flatMap_append, same, same']

theorem concludes_statement (ends : start.NearEnd count start')
    : Concludes count exprFacts (statement scan) (statement scan) start start' := by
  refine Concludes.bind ends (tracks_eat (Nat.lt_succ_self count) ends.near)
    (seals_eat (by decide)) fun {n closed closed' middle middle'} _ same ends => ?_
  obtain rfl : closed' = closed := same
  split
  · exact .of_seals ends ((skips_eat rfl).seals.map _)
  · refine .get ?_
    rw [ends.near.isKeyword_eq, ends.near.atKeyword_eq, ends.near.isAt_eq]
    intro found stop ran left
    rw [← flatMap_exprOnly]
    obtain ⟨found', stop', ran', left', same⟩ :=
      (turns_of_collect ran).conclude ends left ends.near.length_le_right
    exact ⟨found', stop', get_bind_eq_ok.mpr ran', left', same⟩

theorem concludes_function {attributes attributes' : List Expr}
    (attributed : exprFacts attributes' = exprFacts attributes)
    (here : start.kind? 0 = some .name) (ends : start.NearEnd count start')
    : Concludes count Function.facts (function scan attributes) (function scan attributes') start
        start' := by
  refine .bind ends (Tracks.skip (Nat.lt_succ_self _) ends.near)
    (Keeps.seals (spends_skip here (.quiet rfl))) fun _ _ ends => ?_
  refine .bind ends (tracks_eat (Nat.lt_succ_self _) ends.near) (skips_eat rfl).seals
    fun _ _ ends => ?_
  refine .bind ends (tracks_expectName (Nat.lt_succ_self _) ends.near) skips_expectName.seals
    fun _ _ ends => ?_
  refine .bind ends (tracks_params moves_scan tracks_scan (Nat.lt_succ_self _) ends.near)
    (keeps_params scans_scan).seals fun _ listed ends => ?_
  refine .bind ends (tracks_returnType? (Nat.lt_succ_self _) ends.near) keeps_returnType?.seals
    fun _ typed ends => .get ?_
  rw [ends.near.isAt_eq]
  split
  · rename_i braced
    exact .of_seals ends ((keeps_group scans_scan (eq_of_beq braced) rfl).seals.map _)
  · refine (concludes_expect ends.nearMark).map fun _ => ?_
    rw [Function.facts_eq, Function.facts_eq, attributed, listed, hintFacts_congr .result typed]

/-- A statement that is no import and ends with a semicolon does not hang on what follows. -/
theorem concludes_stmtKind (ends : start.NearEnd count start')
    (other : start.atKeyword "use" = false)
    : Concludes count StmtKind.essence stmtKind stmtKind start start' := by
  refine .get ?_
  rw [ends.near.atKeyword_eq, ends.near.atKeyword_and_kind?_eq (by decide), other,
    if_neg Bool.false_ne_true]
  split
  · refine (concludes_statement ends).map fun same => ?_
    simp only [StmtKind.essence, same]
  refine .bind ends
    (tracks_attributes moves_scan tracks_scan (Nat.lt_succ_of_lt (Nat.lt_succ_self _)) ends.near)
    (keeps_attributes scans_scan).seals fun _ attributed ends => .get ?_
  rw [ends.near.atClass_eq, ends.near.atFunction_eq]
  split
  · exact .of_seals ends ((keeps_namedClass scans_scan).seals.map _)
  split
  · rename_i here
    have named := kind?_of_isKeyword (Bool.and_eq_true_iff.mp here).1
    refine (concludes_function attributed named ends).map fun same => ?_
    simp only [StmtKind.essence, same]
  · refine (concludes_statement ends).map fun same => ?_
    simp only [StmtKind.essence, exprFacts_append, attributed, same]

theorem not_atKeyword_of_essence {kind : StmtKind} {stop : Cursor}
    (ran : stmtKind.run start = .ok (kind, stop)) (plain : kind.essence.2.1.isSome = false)
    : start.atKeyword "use" = false := by
  rw [Bool.eq_false_iff]
  intro keyword
  rw [stmtKind, get_bind_eq_ok, if_pos keyword] at ran
  obtain ⟨_, _, _, done⟩ := bind_eq_ok.mp ran
  obtain ⟨rfl, _⟩ := pure_eq_ok.mp done
  cases plain

/-- Whether a namespace starts here is seen the same from both cursors, if no name is the last token.
-/
theorem atNamespace_eq_of_nearMark (ends : start.NearMark count start')
    (other : start.kind? count ≠ some .name)
    : start'.atNamespace = start.atNamespace := by
  unfold Cursor.atNamespace
  rw [ends.near.atKeyword_eq]
  cases keyword : start.atKeyword "namespace" with
  | false => rfl
  | true =>
      have one : 1 ≤ count := by
        by_contra few
        rw [show count = 0 by omega] at other
        exact other (kind?_of_isKeyword keyword)
      rw [ends.near.kind?_eq_of_le one]

/-- Whether the last token is a semicolon. -/
def EndsClosed (tokens : List Piece) : Prop :=
  tokens.getLast?.map Prod.fst = some .semicolon

theorem EndsClosed.exists_append {tokens : List Piece} (closed : EndsClosed tokens)
    : ∃ earlier mark, tokens = earlier ++ [(.semicolon, mark)] := by
  obtain ⟨⟨kind, mark⟩, last, rfl⟩ := Option.map_eq_some_iff.mp closed
  obtain ⟨earlier, same⟩ := List.getLast?_eq_some_iff.mp last
  exact ⟨earlier, mark, same⟩

theorem EndsClosed.suffix {left right : List Piece} (closed : EndsClosed (left ++ right))
    (some : right ≠ [])
    : EndsClosed right := by
  rwa [EndsClosed, List.getLast?_append_of_ne_nil left some] at closed

theorem EndsClosed.append (left : List Piece) {right : List Piece} (closed : EndsClosed right)
    : EndsClosed (left ++ right) := by
  obtain ⟨earlier, mark, rfl⟩ := closed.exists_append
  rw [EndsClosed, ← List.append_assoc, List.getLast?_concat]
  rfl

theorem EndsClosed.solids {pieces : List Piece} (closed : EndsClosed pieces)
    : EndsClosed (solids pieces) := by
  obtain ⟨earlier, mark, rfl⟩ := closed.exists_append
  rw [solids_append]
  exact .append _ rfl

theorem nearPieces_of_endsClosed {tokens : List Piece} (closed : EndsClosed tokens)
    (rest rest' : List Piece)
    : NearPieces (tokens.length - 1) (tokens ++ rest) (tokens ++ rest') := by
  obtain ⟨earlier, mark, rfl⟩ := closed.exists_append
  rw [List.append_assoc, List.append_assoc, List.length_append, List.length_singleton,
    Nat.add_sub_cancel, ← Nat.add_zero earlier.length]
  exact .append (alike_refl earlier) (.border (.inr ⟨rfl, List.mem_cons_self⟩))

/-- A block that is no import and ends with a semicolon is read the same before whatever follows.
-/
theorem Reads.before {block rest : List Piece} {essence : Essence}
    (reads : Reads block rest essence) (closed : EndsClosed block)
    (plain : essence.2.1.isSome = false) (rest' : List Piece)
    : Reads block rest' essence := by
  intro cursor' ahead'
  have ahead := cursorBefore_ahead (block ++ rest)
  obtain ⟨⟨next, here, solid, other⟩, kind, stop, ran, left, rfl⟩ := reads ahead
  have near := (nearPieces_of_endsClosed closed rest rest').ahead ahead ahead'
  obtain ⟨earlier, mark, rfl⟩ := closed.exists_append
  have ends : (cursorBefore (earlier ++ [(.semicolon, mark)] ++ rest)).NearEnd
      earlier.length cursor' := by
    refine ⟨by simpa using near, ?_⟩
    simp [Cursor.kind?, Cursor.token?, cursorBefore, Lexeme.ofPiece]
  refine ⟨⟨next, near.kind?_eq ▸ here, solid, ?_⟩, ?_⟩
  · refine (atNamespace_eq_of_nearMark ends.nearMark ?_).trans other
    rw [ends.mark]
    decide
  · rw [List.length_append, List.length_singleton] at left ⊢
    exact concludes_stmtKind ends (not_atKeyword_of_essence ran plain) ran left

/-- Blocks that end with a semicolon are read the same before whatever follows. -/
theorem ReadsAll.before {rest : List Piece} {parts : List Part} (reads : ReadsAll rest parts)
    (closed : EndsClosed (tokensOf parts))
    (plain : ∀ part ∈ parts, part.essence.2.1.isSome = false) (rest' : List Piece)
    : ReadsAll rest' parts := by
  induction parts with
  | nil => exact trivial
  | cons part parts ih =>
      obtain ⟨here, later⟩ := reads
      rw [tokensOf_cons] at closed
      cases parts with
      | nil =>
          rw [tokensOf_nil, List.append_nil] at closed
          exact ⟨here.before closed (plain part List.mem_cons_self) rest', trivial⟩
      | cons next parts =>
          have some : tokensOf (next :: parts) ≠ [] := by
            rw [tokensOf_cons]
            exact List.append_ne_nil_of_left_ne_nil (List.length_pos_iff.mp later.1.length_pos) _
          have closed' := closed.suffix some
          refine ⟨here.near (.append (alike_refl _) (nearPieces_of_endsClosed closed' rest rest'))
            (Nat.le_add_right _ _) rfl, ih later closed' fun other listed => ?_⟩
          exact plain other (List.mem_cons_of_mem _ listed)

end Parser

end ImportHeader
