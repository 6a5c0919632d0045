import ImportHeader.Proofs.Parser.Passing

/-! How statements end. Inside a statement close tags and semicolons are passed within brackets
only. So no statement ends between a close tag and the open tag behind it: a close tag is a
statement of its own, which takes the open tag with it.
-/

namespace ImportHeader

namespace Cursor

variable {start middle stop : Cursor} {kind : TokenKind}

/-- The last token that was passed, if there is one, is not of the given kind. -/
def Sealed (kind : TokenKind) (start stop : Cursor) : Prop :=
  ∃ passed, start.tokens = passed ++ stop.tokens
    ∧ ∀ token ∈ passed.getLast?, token.kind ≠ kind

theorem Sealed.trans (first : start.Sealed kind middle) (second : middle.Sealed kind stop)
    : start.Sealed kind stop := by
  obtain ⟨passed, whole, last⟩ := first
  obtain ⟨passed', whole', last'⟩ := second
  refine ⟨passed ++ passed', by rw [whole, whole', List.append_assoc], fun token final => ?_⟩
  rcases List.eq_nil_or_concat passed' with rfl | ⟨others, other, rfl⟩
  · rw [List.append_nil] at final
    exact last token final
  · refine last' token ?_
    rw [List.concat_eq_append, ← List.append_assoc, List.getLast?_concat] at final
    rwa [List.concat_eq_append, List.getLast?_concat]

/-- What was passed earlier does not matter behind a token of another kind. -/
theorem Reaches.sealed_advance {next : TokenKind} (reached : start.Reaches middle)
    (here : middle.kind? 0 = some next) (other : next ≠ kind)
    : start.Sealed kind middle.advance := by
  obtain ⟨earlier, whole, _⟩ := reached.exists_tokens
  obtain ⟨token, rfl, whole'⟩ := tokens_of_kind? here
  refine ⟨earlier ++ [token], by rw [whole, whole', List.append_assoc]; rfl, fun last final => ?_⟩
  rw [List.getLast?_concat] at final
  exact Option.some.inj final ▸ other

end Cursor

namespace Parser

variable {α : Type} {mark : EndMark} {start stop : Cursor}

/-- A step from here does not end with the given mark. -/
def Seals (mark : EndMark) (step : Parser α) (start : Cursor) : Prop :=
  ∀ ⦃found : α⦄ ⦃stop : Cursor⦄, step.run start = .ok (found, stop) → start.Sealed mark.kind stop

/-- Where no bracket is open, the mark is not passed, so it is not the last token either. -/
theorem Keeps.seals {view : α → List LocatedName} {before : List LocatedName}
    {step step' : Parser α}
    (keeps : Keeps (namesIn start mark) (start.ahead.length + 1) [] view before step step' start)
    : Seals mark step start := by
  intro found stop ran
  obtain ⟨passed, whole, unwinds, _⟩ := (keeps .refl (Nat.lt_succ_self _)).2 ran
  refine ⟨passed, whole, fun token final => ?_⟩
  refine unwinds.getLast?_ne mark.isBracket_kind token.kind ?_
  rw [List.getLast?_map, Option.mem_def.mp final]
  rfl

theorem Seals.map {β : Type} {step : Parser α} (seals : Seals mark step start) (make : α → β)
    : Seals mark (step >>= fun found => Pure.pure (make found)) start := by
  intro result stop ran
  obtain ⟨_, read, _⟩ := bind_pure_eq_ok.mp ran
  exact seals read

theorem seals_eat {kind : TokenKind} (other : kind ≠ mark.kind) : Seals mark (eat kind) start := by
  intro found stop ran
  obtain ⟨_, rfl⟩ := eat_eq_ok.mp ran
  split
  · rename_i here
    exact Cursor.Reaches.refl.sealed_advance (eq_of_beq here) other
  · exact ⟨[], rfl, nofun⟩

/-- A statement that does not start with a close tag does not end with one. -/
theorem sealed_of_open_statement {found : List Expr} (open_ : start.isAt .closeTag = false)
    (ran : (statement scan).run start = .ok (found, stop))
    : start.Sealed .closeTag stop :=
  (keeps_statement scans_scan fun _ => ⟨rfl, open_⟩).seals ran

/-- A statement does not end between a close tag and an open tag. -/
theorem sealed_of_statement {found : List Expr} (ran : (statement scan).run start = .ok (found, stop))
    : start.Sealed .closeTag stop ∨ stop.kind? 0 ≠ some .openTag := by
  cases open_ : start.isAt .closeTag with
  | false => exact .inl (sealed_of_open_statement open_ ran)
  | true =>
      obtain ⟨closed, middle, ate, ran⟩ := bind_eq_ok.mp ran
      obtain ⟨rfl, rfl⟩ := eat_eq_ok.mp ate
      rw [open_, if_pos rfl, if_pos rfl] at ran
      rw [open_, if_pos rfl] at ate
      obtain ⟨opened, middle, ate', done⟩ := bind_eq_ok.mp ran
      obtain ⟨_, rfl⟩ := pure_eq_ok.mp done
      obtain ⟨_, rfl⟩ := eat_eq_ok.mp ate'
      split
      · rename_i here
        exact .inl ((reaches_of_run ate).sealed_advance (eq_of_beq here) (by decide))
      · rename_i other
        exact .inr fun same => other (beq_iff_eq.mpr same)

/-- An import ends with a semicolon. -/
theorem sealed_of_importing {declaration : Import} {kind : TokenKind} (other : .semicolon ≠ kind)
    (ran : importing.run start = .ok (declaration, stop))
    : start.Sealed kind stop := by
  obtain ⟨_, middle, skipped, ran⟩ := bind_eq_ok.mp ran
  obtain ⟨kind?, middle', marked, ran⟩ := bind_eq_ok.mp ran
  obtain ⟨_, middle'', named, ran⟩ := bind_eq_ok.mp ran
  obtain ⟨token, expected, _⟩ := bind_pure_eq_ok.mp ran
  obtain ⟨next, same, rfl⟩ := expect_eq_ok.mp expected
  have reached := (reaches_of_run skipped).trans ((reaches_of_run marked).trans (reaches_of_run named))
  exact reached.sealed_advance (Option.map_eq_some_iff.mpr ⟨token, next, same⟩) other

theorem atUse_of_stmtKind {declaration : Import}
    (ran : stmtKind.run start = .ok (.importing declaration, stop))
    : start.atKeyword "use" = true := by
  by_contra other
  rw [stmtKind, get_bind_eq_ok, if_neg other] at ran
  split at ran
  · exact absurd ran (bind_pure_ne_ok (by simp))
  obtain ⟨_, _, _, later⟩ := bind_eq_ok.mp ran
  rw [get_bind_eq_ok] at later
  split at later
  · exact absurd later (bind_pure_ne_ok (by simp))
  split at later
  · exact absurd later (bind_pure_ne_ok (by simp))
  · exact absurd later (bind_pure_ne_ok (by simp))

theorem importing_of_stmtKind {declaration : Import}
    (ran : stmtKind.run start = .ok (.importing declaration, stop))
    : importing.run start = .ok (declaration, stop) := by
  have keyword := atUse_of_stmtKind ran
  rw [stmtKind, get_bind_eq_ok, if_pos keyword] at ran
  obtain ⟨found, _, read, done⟩ := bind_eq_ok.mp ran
  obtain ⟨same, rfl⟩ := pure_eq_ok.mp done
  cases same
  exact read

/-- A directive does not end with a close tag. -/
theorem sealed_of_declare {exprs : List Expr} (ran : stmtKind.run start = .ok (.declare exprs, stop))
    : start.Sealed .closeTag stop := by
  rw [stmtKind, get_bind_eq_ok] at ran
  split at ran
  · exact absurd ran (bind_pure_ne_ok (by simp))
  split at ran
  · rename_i declare
    obtain ⟨_, read, _⟩ := bind_pure_eq_ok.mp ran
    refine sealed_of_open_statement ?_ read
    rw [Cursor.isAt, kind?_of_isKeyword (Bool.and_eq_true_iff.mp declare).1]
    rfl
  obtain ⟨_, _, _, later⟩ := bind_eq_ok.mp ran
  rw [get_bind_eq_ok] at later
  split at later
  · exact absurd later (bind_pure_ne_ok (by simp))
  split at later
  · exact absurd later (bind_pure_ne_ok (by simp))
  · exact absurd later (bind_pure_ne_ok (by simp))

theorem sealed_of_stmtKind {kind : StmtKind} (ran : stmtKind.run start = .ok (kind, stop))
    : start.Sealed .closeTag stop ∨ stop.kind? 0 ≠ some .openTag := by
  rw [stmtKind, get_bind_eq_ok] at ran
  split at ran
  · obtain ⟨_, read, _⟩ := bind_pure_eq_ok.mp ran
    exact .inl (sealed_of_importing (by decide) read)
  split at ran
  · obtain ⟨_, read, _⟩ := bind_pure_eq_ok.mp ran
    exact sealed_of_statement read
  obtain ⟨attributes, middle, attributed, ran⟩ := bind_eq_ok.mp ran
  rw [get_bind_eq_ok] at ran
  have first : start.Sealed EndMark.closeTag.kind middle :=
    (keeps_attributes scans_scan).seals attributed
  split at ran
  · obtain ⟨_, read, _⟩ := bind_pure_eq_ok.mp ran
    exact .inl (first.trans ((keeps_namedClass scans_scan).seals read))
  split at ran
  · rename_i here
    have named := kind?_of_isKeyword (Bool.and_eq_true_iff.mp here).1
    obtain ⟨_, read, _⟩ := bind_pure_eq_ok.mp ran
    exact .inl (first.trans ((keeps_function scans_scan named fun _ => rfl).seals read))
  · obtain ⟨_, read, _⟩ := bind_pure_eq_ok.mp ran
    exact (sealed_of_statement read).imp_left first.trans

theorem last_of_sealed {block rest : List Piece} {kind : TokenKind}
    (ahead : start.ahead.map Lexeme.piece = block ++ rest)
    (behind : stop.ahead.map Lexeme.piece = rest) (sealed : start.Sealed kind stop)
    : ∀ last ∈ block.getLast?, last.1 ≠ kind := by
  have pieces (cursor : Cursor) : cursor.ahead.map Lexeme.piece = cursor.tokens.map Token.piece :=
    List.map_map.symm
  obtain ⟨passed, whole, final⟩ := sealed
  rw [pieces, whole, List.map_append, ← pieces, behind] at ahead
  rw [← List.append_cancel_right ahead, List.getLast?_map]
  intro last isLast
  obtain ⟨token, listed, rfl⟩ := Option.map_eq_some_iff.mp isLast
  exact final token listed

/-- A block that is read as a statement does not end between a close tag and an open tag. -/
theorem Reads.sealed {block rest : List Piece} {essence : Essence} (reads : Reads block rest essence)
    : ∀ last ∈ block.getLast?, last.1 = .closeTag → ∀ next ∈ rest.head?, next.1 ≠ .openTag := by
  intro last isLast close next isNext
  have ahead := cursorBefore_ahead (block ++ rest)
  obtain ⟨_, kind, stop, ran, left, _⟩ := reads ahead
  have behind : stop.ahead.map Lexeme.piece = rest := by
    rw [left, List.map_drop, ahead, List.drop_left]
  rcases sealed_of_stmtKind ran with sealed | other
  · exact absurd close (last_of_sealed ahead behind sealed last isLast)
  · intro opens
    refine other ?_
    rw [← behind, List.head?_map, Option.mem_def, Option.map_eq_some_iff] at isNext
    obtain ⟨lexeme, first, rfl⟩ := isNext
    rw [Cursor.kind?, Cursor.token?, ← List.head?_eq_getElem?, first]
    exact congrArg some opens

/-- A block that is read as a directive does not end with a close tag. -/
theorem Reads.stays {block rest : List Piece} {essence : Essence} (reads : Reads block rest essence)
    (directive : essence.1 = true)
    : ∀ last ∈ block.getLast?, last.1 ≠ .closeTag := by
  have ahead := cursorBefore_ahead (block ++ rest)
  obtain ⟨_, kind, stop, ran, left, rfl⟩ := reads ahead
  have behind : stop.ahead.map Lexeme.piece = rest := by
    rw [left, List.map_drop, ahead, List.drop_left]
  cases kind with
  | declare exprs => exact last_of_sealed ahead behind (sealed_of_declare ran)
  | _ => cases directive

/-- A block that is read as an import ends with a semicolon. -/
theorem Reads.ends_of_import {block rest : List Piece} {essence : Essence}
    (reads : Reads block rest essence) (imports : essence.2.1.isSome = true)
    : ∀ last ∈ block.getLast?, last.1 = .semicolon := by
  have ahead := cursorBefore_ahead (block ++ rest)
  obtain ⟨_, kind, stop, ran, left, rfl⟩ := reads ahead
  have behind : stop.ahead.map Lexeme.piece = rest := by
    rw [left, List.map_drop, ahead, List.drop_left]
  intro last isLast
  by_contra other
  cases kind with
  | importing declaration =>
      have isSealed := sealed_of_importing (Ne.symm other) (importing_of_stmtKind ran)
      exact last_of_sealed ahead behind isSealed last isLast rfl
  | _ => cases imports

end Parser

end ImportHeader
