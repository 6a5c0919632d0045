import ImportHeader.Proofs.Parser.Closing

/-! Steps that end with a block, and the turns of a statement. Nothing behind the closing brace of a
block, a class or a function is looked at, so these are read the same before whatever follows.
-/

namespace ImportHeader

open Lexer

namespace Cursor

variable {start middle stop : Cursor}

/-- The last token between two cursors is a mark beyond which no step inside a statement looks. -/
def EndsMarked (start stop : Cursor) : Prop :=
  ∃ n kind,
    stop.ahead = start.ahead.drop (n + 1) ∧ start.kind? n = some kind ∧ kind ∈ Lexeme.quietMarks

/-- Whether a control statement goes on here behind a block: with another block of its own, or with
the condition of a loop.
-/
def goesOn (loops : Bool) (cursor : Cursor) : Bool :=
  cursor.isKeyword 0 Parser.continuationKeywords || (loops && cursor.atKeyword "while")

/-- A token stands here that ends no statement before itself. -/
def IsFree (cursor : Cursor) : Prop :=
  ∃ kind, cursor.kind? 0 = some kind ∧ kind ≠ .closeTag ∧ kind ≠ .rightBrace

theorem lt_length_of_kind? {kind : TokenKind} {n : Nat} (here : start.kind? n = some kind)
    : n < start.ahead.length := by
  unfold kind? token? at here
  by_contra few
  rw [List.getElem?_eq_none (Nat.le_of_not_lt few)] at here
  cases here

theorem EndsMarked.passes (ends : start.EndsMarked stop) : start.Passes stop := by
  obtain ⟨n, kind, left, here, _⟩ := ends
  have within := lt_length_of_kind? here
  unfold Passes
  rw [left, List.length_drop]
  omega

theorem Reaches.endsMarked (reached : start.Reaches middle) (ends : middle.EndsMarked stop)
    : start.EndsMarked stop := by
  obtain ⟨n, kind, left, here, mark⟩ := ends
  obtain ⟨passed, cut⟩ := reached.ahead_suffix
  refine ⟨passed.length + n, kind, ?_, ?_, mark⟩
  · rw [left, ← cut, Nat.add_assoc, List.drop_append]
    simp
  · unfold kind? token? at here ⊢
    rw [← cut, List.getElem?_append_right (Nat.le_add_right _ _), Nat.add_sub_cancel_left]
    exact here

theorem endsMarked_advance {kind : TokenKind} (here : start.kind? 0 = some kind)
    (mark : kind ∈ Lexeme.quietMarks)
    : start.EndsMarked start.advance :=
  ⟨0, kind, advance_ahead start, here, mark⟩

end Cursor

namespace Parser

variable {α β γ δ : Type} {count : Nat} {view : α → γ} {start start' middle stop stop' : Cursor}
  {control loops bare : Bool}

-----------------------------------------------------------------------------------------
-- The last token of a step
-----------------------------------------------------------------------------------------

/-- A step from here ends behind a mark beyond which nothing is looked at. -/
def Ends (step : Parser α) (start : Cursor) : Prop :=
  ∀ ⦃found : α⦄ ⦃stop : Cursor⦄, step.run start = .ok (found, stop) → start.EndsMarked stop

theorem Ends.after {step : Parser α} {next : α → Parser β}
    (second : ∀ {found middle}, step.run start = .ok (found, middle) → Ends (next found) middle)
    : Ends (step >>= next) start := by
  intro result stop ran
  obtain ⟨found, middle, here, later⟩ := bind_eq_ok.mp ran
  exact (reaches_of_run here).endsMarked (second here later)

theorem Ends.map {step : Parser α} {make : α → β} (ends : Ends step start)
    : Ends (step >>= fun found => pure (make found)) start := by
  intro result stop ran
  obtain ⟨found, middle, here, done⟩ := bind_eq_ok.mp ran
  obtain ⟨_, rfl⟩ := pure_eq_ok.mp done
  exact ends here

theorem Ends.get {next : Cursor → Parser α} (later : Ends (next start) start)
    : Ends (Parser.get >>= next) start :=
  fun _ _ ran => later (get_bind_eq_ok.mp ran)

theorem Ends.collect {turn : Parser (Turn α)}
    (last
      : ∀ {start stop : Cursor} {found : List α},
          turn.run start = .ok (.last found, stop) → start.EndsMarked stop)
    : Ends (collect turn) start := by
  intro found stop ran
  have turns := turns_of_collect ran
  clear ran
  induction turns with
  | last ran => exact last ran
  | more ran _ ih => exact (reaches_of_run ran).endsMarked ih

theorem ends_expect {kind : TokenKind} {what : Expectation} (mark : kind ∈ Lexeme.quietMarks)
    : Ends (expect kind what) start := by
  intro token stop ran
  obtain ⟨here, rfl, rfl⟩ := expect_eq_ok.mp ran
  exact Cursor.endsMarked_advance (by rw [Cursor.kind?, here]; rfl) mark

section Scan

variable {one : Parser (List Expr)}

theorem closing_mem_quietMarks (kind : TokenKind) : closing kind ∈ Lexeme.quietMarks := by
  unfold closing
  split <;> decide

theorem endsMarked_of_groupTurn {opening : Token} {found : List Expr}
    (ran : (groupTurn one opening).run start = .ok (.last found, stop))
    : start.EndsMarked stop := by
  obtain ⟨here, _, rfl⟩ := groupTurn_last ran
  exact Cursor.endsMarked_advance here (closing_mem_quietMarks _)

theorem ends_group (here : start.ahead ≠ []) : Ends (group one) start := by
  refine .get ?_
  obtain ⟨opening, next⟩ := Cursor.exists_token here
  rw [next]
  exact .after fun _ => .collect endsMarked_of_groupTurn

theorem endsMarked_of_memberTurn {found : List (Member Expr)}
    (ran : (memberTurn one).run start = .ok (.last found, stop))
    : start.EndsMarked stop := by
  obtain ⟨_, middle, attributed, here, _, rfl⟩ := memberTurn_last ran
  exact (reaches_of_run attributed).endsMarked (Cursor.endsMarked_advance here (by decide))

theorem ends_members : Ends (collect (memberTurn one)) start :=
  .collect endsMarked_of_memberTurn

theorem ends_classTail {kind : ClassKind} {name? : Option Text} {attributes arguments : List Expr}
    : Ends (classTail one kind name? attributes arguments) start :=
  .after fun _ => .after fun _ => .after fun _ => .after fun _ => ends_members.map

theorem ends_namedClass {attributes : List Expr} : Ends (namedClass one attributes) start :=
  .after fun _ => .after fun _ => .after fun _ => ends_classTail

/-- A function ends with its body, or with a semicolon. -/
theorem ends_functionBody {make : List Expr → Function Expr}
    : Ends (Parser.get >>= fun cursor =>
        if cursor.isAt .leftBrace then
          group one >>= fun body => pure (make body)
        else
          expect .semicolon .functionBody >>= fun _ => pure (make [])) start := by
  refine .get ?_
  split
  · rename_i here
    exact (ends_group (Cursor.ahead_ne_nil_of_isAt here)).map
  · exact (ends_expect (by decide)).map

theorem ends_function {attributes : List Expr} : Ends (function one attributes) start :=
  .after fun _ => .after fun _ => .after fun _ => .after fun _ => .after fun _ =>
    ends_functionBody

-----------------------------------------------------------------------------------------
-- Turns of a statement
-----------------------------------------------------------------------------------------

/-- Whether a block ends a statement before the cursor behind it. -/
def endsStatement (control loops bare : Bool) (cursor : Cursor) : Bool :=
  bare || (control && !cursor.goesOn loops)

/-- A block of a statement is its end, or the statement goes on. -/
theorem statementTurn_of_group {found : List Expr} (here : start.kind? 0 = some .leftBrace)
    (ran : (group one).run start = .ok (found, stop))
    : (statementTurn one control loops bare).run start
      = .ok (if endsStatement control loops bare stop then .last found else .more found, stop) := by
  rw [statementTurn, get_bind_eq_ok, here]
  refine bind_eq_ok.mpr ⟨found, stop, ran, get_bind_eq_ok.mpr ?_⟩
  change (if endsStatement control loops bare stop then _ else _ : Parser _).run stop = _
  split
  · exact pure_eq_ok.mpr ⟨rfl, rfl⟩
  · exact pure_eq_ok.mpr ⟨rfl, rfl⟩

/-- The last turn of a statement: it stops before a mark, moves behind a semicolon, or moves behind
a block that ends the statement.
-/
inductive LastTurn (one : Parser (List Expr)) (final : Cursor → Bool) (start : Cursor)
    : List Expr → Cursor → Prop
  | stays (bound : ¬start.IsFree) : LastTurn one final start [] start
  | closes (here : start.kind? 0 = some .semicolon) : LastTurn one final start [] start.advance
  | block {found stop} (here : start.kind? 0 = some .leftBrace)
    (ran : (group one).run start = .ok (found, stop)) (ends : final stop = true)
    : LastTurn one final start found stop

/-- A turn with which a statement goes on: a block behind which it does, or a step of the scan. -/
inductive MoreTurn (one : Parser (List Expr)) (final : Cursor → Bool) (start : Cursor)
    : List Expr → Cursor → Prop
  | block {found stop} (here : start.kind? 0 = some .leftBrace)
    (ran : (group one).run start = .ok (found, stop)) (goes : final stop = false)
    : MoreTurn one final start found stop
  | scan {kind found stop} (here : start.kind? 0 = some kind)
    (other : kind ∉ [.closeTag, .rightBrace, .semicolon, .leftBrace])
    (ran : one.run start = .ok (found, stop))
    : MoreTurn one final start found stop

theorem statementTurn_of_last {found : List Expr}
    (turn : LastTurn one (endsStatement control loops bare) start found stop)
    : (statementTurn one control loops bare).run start = .ok (.last found, stop) := by
  cases turn with
  | stays bound =>
      rw [statementTurn, get_bind_eq_ok]
      split
      · exact pure_eq_ok.mpr ⟨rfl, rfl⟩
      · exact pure_eq_ok.mpr ⟨rfl, rfl⟩
      · exact pure_eq_ok.mpr ⟨rfl, rfl⟩
      · rename_i here
        exact absurd ⟨_, here, by decide⟩ bound
      · rename_i here
        exact absurd ⟨_, here, by decide⟩ bound
      · rename_i kind close brace _ _ here
        exact absurd ⟨kind, here, close, brace⟩ bound
  | closes here =>
      rw [statementTurn, get_bind_eq_ok, here]
      exact skip_bind_eq_ok.mpr (pure_eq_ok.mpr ⟨rfl, rfl⟩)
  | block here ran ends => rw [statementTurn_of_group here ran, if_pos ends]

theorem statementTurn_of_more {found : List Expr}
    (turn : MoreTurn one (endsStatement control loops bare) start found stop)
    : (statementTurn one control loops bare).run start = .ok (.more found, stop) := by
  cases turn with
  | block here ran goes => rw [statementTurn_of_group here ran, if_neg (by simp [goes])]
  | @scan kind _ _ here other ran =>
      rw [statementTurn, get_bind_eq_ok, here]
      split
      all_goals first
        | exact bind_eq_ok.mpr ⟨_, _, ran, pure_eq_ok.mpr ⟨rfl, rfl⟩⟩
        | simp_all

/-- Each turn of a statement is its last one, or one with which it goes on. -/
theorem turn_of_statementTurn {result : Turn Expr}
    (ran : (statementTurn one control loops bare).run start = .ok (result, stop))
    : (∃ found, result = .last found
        ∧ LastTurn one (endsStatement control loops bare) start found stop)
      ∨ ∃ found, result = .more found
        ∧ MoreTurn one (endsStatement control loops bare) start found stop := by
  rw [statementTurn, get_bind_eq_ok] at ran
  have stays (bound : ¬start.IsFree) (done : (pure (.last []) : Parser (Turn Expr)).run start
      = .ok (result, stop)) : ∃ found, result = .last found
        ∧ LastTurn one (endsStatement control loops bare) start found stop := by
    obtain ⟨rfl, rfl⟩ := pure_eq_ok.mp done
    exact ⟨[], rfl, .stays bound⟩
  split at ran
  · rename_i here
    refine .inl (stays ?_ ran)
    rintro ⟨_, next, _⟩
    rw [here] at next
    cases next
  · rename_i here
    refine .inl (stays ?_ ran)
    rintro ⟨_, next, other, _⟩
    rw [here] at next
    exact other (Option.some.inj next).symm
  · rename_i here
    refine .inl (stays ?_ ran)
    rintro ⟨_, next, _, other⟩
    rw [here] at next
    exact other (Option.some.inj next).symm
  · rename_i here
    rw [skip_bind_eq_ok] at ran
    obtain ⟨rfl, rfl⟩ := pure_eq_ok.mp ran
    exact .inl ⟨[], rfl, .closes here⟩
  · rename_i here
    obtain ⟨found, middle, grouped, done⟩ := bind_eq_ok.mp ran
    rw [get_bind_eq_ok] at done
    change (if endsStatement control loops bare middle then _ else _ : Parser _).run middle = _
      at done
    split at done
    · rename_i ends
      obtain ⟨rfl, rfl⟩ := pure_eq_ok.mp done
      exact .inl ⟨found, rfl, .block here grouped ends⟩
    · rename_i goes
      obtain ⟨rfl, rfl⟩ := pure_eq_ok.mp done
      exact .inr ⟨found, rfl, .block here grouped (Bool.eq_false_iff.mpr goes)⟩
  · rename_i close brace semicolon block here
    obtain ⟨found, middle, scanned, done⟩ := bind_eq_ok.mp ran
    obtain ⟨rfl, rfl⟩ := pure_eq_ok.mp done
    refine .inr ⟨found, rfl, .scan here ?_ scanned⟩
    simpa using ⟨close, brace, semicolon, block⟩

theorem lastTurn_of_statementTurn {found : List Expr}
    (ran : (statementTurn one control loops bare).run start = .ok (.last found, stop))
    : LastTurn one (endsStatement control loops bare) start found stop := by
  obtain ⟨_, same, turn⟩ | ⟨_, same, _⟩ := turn_of_statementTurn ran
  · cases same
    exact turn
  · cases same

theorem moreTurn_of_statementTurn {found : List Expr}
    (ran : (statementTurn one control loops bare).run start = .ok (.more found, stop))
    : MoreTurn one (endsStatement control loops bare) start found stop := by
  obtain ⟨_, same, _⟩ | ⟨_, same, turn⟩ := turn_of_statementTurn ran
  · cases same
  · cases same
    exact turn

/-- A statement before a free token ends behind a mark. -/
theorem endsMarked_of_turns {found : List Expr}
    (turns : Turns (statementTurn one control loops bare) start found stop) (free : stop.IsFree)
    : start.EndsMarked stop := by
  induction turns with
  | last ran =>
      cases lastTurn_of_statementTurn ran with
      | stays bound => exact absurd free bound
      | closes here => exact Cursor.endsMarked_advance here (by decide)
      | block here grouped _ => exact ends_group (Cursor.ahead_ne_nil_of_kind? here) grouped
  | more ran _ ih => exact (reaches_of_run ran).endsMarked (ih free)

end Scan

-----------------------------------------------------------------------------------------
-- Blocks before other tokens
-----------------------------------------------------------------------------------------

/-- Where a token is passed behind it, a step ends before the last token. -/
theorem few_of_passes {n : Nat} (within : count < start.ahead.length) (passes : middle.Passes stop)
    (left : stop.ahead = start.ahead.drop (count + 1)) (atMiddle : middle.ahead = start.ahead.drop n)
    : n ≤ count := by
  unfold Cursor.Passes at passes
  rw [left, atMiddle, List.length_drop, List.length_drop] at passes
  omega

theorem Concludes.bind_of_ends {view' : β → δ} {step step' : Parser α} {next next' : α → Parser β}
    (ends : start.NearMark count start') (first : Follows count view step step' start start')
    (final : ∀ found middle, Ends (next found) middle)
    (second
      : ∀ {n found found' middle middle'},
          step.run start = .ok (found, middle)
          → view found' = view found
          → middle.NearMark (count - n) middle'
          → Concludes (count - n) view' (next found) (next' found') middle middle')
    : Concludes count view' (step >>= next) (step' >>= next') start start' := by
  intro result stop ran left
  obtain ⟨found, middle, begun, rest⟩ := bind_eq_ok.mp ran
  obtain ⟨n, found', middle', begun', same, within, atMiddle, atMiddle', later, later'⟩ :=
    first.exists_middle ends begun left
      (fun atMiddle _ => few_of_passes ends.lt_length (final found middle rest).passes left atMiddle)
      (reaches_of_run rest)
  obtain ⟨result', stop', rest', atStop', same'⟩ :=
    second begun same (ends.drop within atMiddle atMiddle') rest later
  exact ⟨result', stop', bind_eq_ok.mpr ⟨found', middle', begun', rest'⟩, atStop'.trans later'.symm,
    same'⟩

theorem Turns.passes {turn : Parser (Turn α)} {found : List α}
    (final
      : ∀ {start stop : Cursor} {found : List α},
          turn.run start = .ok (.last found, stop) → start.EndsMarked stop)
    (turns : Turns turn start found stop)
    : start.Passes stop := by
  induction turns with
  | last ran => exact (final ran).passes
  | more ran _ ih => exact (reaches_of_run ran).passes ih

/-- Turns of which the last one ends with a mark, by induction over them: all but that one end
before it.
-/
theorem Turns.concludes {view : α → List γ} {turn turn' : Parser (Turn α)} {found : List α}
    (tracks : ∀ bound, Tracks bound (Turn.shown view) turn turn')
    (final
      : ∀ {start stop : Cursor} {found : List α},
          turn.run start = .ok (.last found, stop) → start.EndsMarked stop)
    (last
      : ∀ {count : Nat} {start start' stop : Cursor} {found : List α},
          start.NearMark count start'
          → turn.run start = .ok (.last found, stop)
          → stop.ahead = start.ahead.drop (count + 1)
          → ∃ found' stop', turn'.run start' = .ok (.last found', stop')
              ∧ stop'.ahead = start'.ahead.drop (count + 1)
              ∧ found'.flatMap view = found.flatMap view)
    (turns : Turns turn start found stop)
    : ∀ {count start'},
        start.NearMark count start'
        → stop.ahead = start.ahead.drop (count + 1)
        → ∃ found' stop', Turns turn' start' found' stop'
            ∧ stop'.ahead = start'.ahead.drop (count + 1)
            ∧ found'.flatMap view = found.flatMap view := by
  induction turns with
  | last ran =>
      intro count start' ends left
      obtain ⟨found', stop', ran', left', same⟩ := last ends ran left
      exact ⟨found', stop', .last ran', left', same⟩
  | more ran rest ih =>
      intro count start' ends left
      obtain ⟨n, result, middle', ran', shown, within, atMiddle, atMiddle', later, later'⟩ :=
        (tracks _ (Nat.lt_succ_self count) ends.near).exists_middle ends ran left
          (fun atMiddle _ => few_of_passes ends.lt_length (rest.passes final) left atMiddle)
          rest.reaches
      obtain ⟨found', rfl, same⟩ := Turn.shown_eq_more shown
      obtain ⟨others', stop', rest', atStop', same'⟩ :=
        ih (ends.drop within atMiddle atMiddle') later
      exact ⟨found' ++ others', stop', .more ran' rest', atStop'.trans later'.symm,
        by rw [List.flatMap_append, List.flatMap_append, same, same']⟩

/-- A skipped token that is the last one is skipped from the other cursor. -/
theorem concludes_skip (ends : start.NearMark count start')
    (left : start.advance.ahead = start.ahead.drop (count + 1))
    : start'.kind? 0 = start.kind? 0 ∧ start'.advance.ahead = start'.ahead.drop (count + 1) := by
  obtain rfl := eq_zero_of_advance ends.lt_length left
  exact ⟨ends.near.kind?_eq, Cursor.advance_ahead _⟩

/-- A repetition of which the last turn moves behind a mark, and finds nothing there. -/
theorem concludes_collect {view : α → List γ} {turn turn' : Parser (Turn α)} {mark : TokenKind}
    (listed : mark ∈ Lexeme.quietMarks) (strides : Strides turn')
    (tracks : ∀ bound, Tracks bound (Turn.shown view) turn turn')
    (last
      : ∀ {start stop : Cursor} {found : List α},
          turn.run start = .ok (.last found, stop)
          → start.kind? 0 = some mark ∧ found = [] ∧ stop = start.advance)
    (closes
      : ∀ {start : Cursor},
          start.kind? 0 = some mark → turn'.run start = .ok (.last [], start.advance))
    (ends : start.NearMark count start')
    : Concludes count (List.flatMap view) (collect turn) (collect turn') start start' := by
  intro found stop ran left
  obtain ⟨found', stop', turns, left', same⟩ := (turns_of_collect ran).concludes tracks
    (fun ran => by
      obtain ⟨here, _, rfl⟩ := last ran
      exact Cursor.endsMarked_advance here listed)
    (fun ends ran left => by
      obtain ⟨here, rfl, rfl⟩ := last ran
      obtain ⟨kind, left'⟩ := concludes_skip ends left
      exact ⟨[], _, closes (kind.trans here), left', rfl⟩)
    ends left
  exact ⟨found', stop', collect_of_turns strides turns, left', same⟩

theorem groupTurn_of_closing {one : Parser (List Expr)} {opening : Token}
    (here : start.kind? 0 = some (closing opening.kind))
    : (groupTurn one opening).run start = .ok (.last [], start.advance) := by
  rw [groupTurn, get_bind_eq_ok, here]
  dsimp only
  rw [if_pos rfl]
  exact skip_pure_eq_ok.mpr ⟨rfl, rfl⟩

theorem concludes_group (ends : start.NearMark count start')
    : Concludes count exprFacts (group scan) (group scan) start start' := by
  obtain ⟨ended, _⟩ | ⟨opening, opening', next, next', same⟩ := ends.near.token?_cases
  · obtain ⟨token, next⟩ := Cursor.exists_token
      (List.ne_nil_of_length_pos (Nat.zero_lt_of_lt ends.lt_length))
    cases ended.symm.trans next
  refine .get ?_
  rw [next, next']
  refine .bind_of_ends ends (Tracks.skip (Nat.lt_succ_self _) ends.near)
    (fun _ _ => .collect endsMarked_of_groupTurn) fun _ _ ends => ?_
  rw [← flatMap_exprOnly]
  exact concludes_collect (closing_mem_quietMarks _) (strides_groupTurn moves_scan)
    (fun _ => tracks_groupTurn tracks_scan same) groupTurn_last
    (fun here => groupTurn_of_closing (same ▸ here)) ends

theorem exists_memberTurn {found : List (Member Expr)} (ends : start.NearMark count start')
    (ran : (memberTurn scan).run start = .ok (.last found, stop))
    (left : stop.ahead = start.ahead.drop (count + 1))
    : ∃ found' stop', (memberTurn scan).run start' = .ok (.last found', stop')
        ∧ stop'.ahead = start'.ahead.drop (count + 1)
        ∧ found'.flatMap Member.facts = found.flatMap Member.facts := by
  obtain ⟨listed, middle, attributed, here, rfl, rfl⟩ := memberTurn_last ran
  have passes := Cursor.passes_advance (Cursor.ahead_ne_nil_of_kind? here)
  obtain ⟨n, listed', middle', attributed', _, within, atMiddle, atMiddle', later, later'⟩ :=
    Follows.exists_middle ends
      (tracks_attributes moves_scan tracks_scan (Nat.lt_succ_of_lt (Nat.lt_succ_self _)) ends.near)
      attributed left (fun atMiddle _ => few_of_passes ends.lt_length passes left atMiddle)
      (.advance .refl)
  obtain ⟨same, left'⟩ := concludes_skip (ends.drop within atMiddle atMiddle') later
  refine ⟨[], middle'.advance, bind_eq_ok.mpr ⟨listed', middle', attributed', ?_⟩,
    left'.trans later'.symm, rfl⟩
  rw [get_bind_eq_ok, same, here]
  exact skip_bind_eq_ok.mpr (pure_eq_ok.mpr ⟨rfl, rfl⟩)

theorem concludes_members (ends : start.NearMark count start')
    : Concludes count (List.flatMap Member.facts) (collect (memberTurn scan))
        (collect (memberTurn scan)) start start' := by
  intro found stop ran left
  obtain ⟨found', stop', turns, left', facts⟩ := (turns_of_collect ran).concludes
    (fun _ => tracks_memberTurn moves_scan tracks_scan) endsMarked_of_memberTurn exists_memberTurn
    ends left
  exact ⟨found', stop', collect_of_turns (strides_memberTurn moves_scan) turns, left', facts⟩

theorem concludes_classTail {kind : ClassKind} {name? : Option Text}
    {attributes attributes' arguments arguments' : List Expr}
    (attributed : exprFacts attributes' = exprFacts attributes)
    (given : exprFacts arguments' = exprFacts arguments) (ends : start.NearMark count start')
    : Concludes count ClassLike.facts (classTail scan kind name? attributes arguments)
        (classTail scan kind name? attributes' arguments') start start' := by
  refine .bind_of_ends ends (tracks_backingType (Nat.lt_succ_self _) ends.near)
    (fun _ _ => .after fun _ => .after fun _ => .after fun _ => ends_members.map) fun _ _ ends => ?_
  refine .bind_of_ends ends (tracks_namesAfter (Nat.lt_succ_self _) ends.near)
    (fun _ _ => .after fun _ => .after fun _ => ends_members.map) fun _ extending ends => ?_
  refine .bind_of_ends ends (tracks_namesAfter (Nat.lt_succ_self _) ends.near)
    (fun _ _ => .after fun _ => ends_members.map) fun _ implementing ends => ?_
  refine .bind_of_ends ends (Tracks.expect (Nat.lt_succ_self _) ends.near)
    (fun _ _ => ends_members.map) fun _ _ ends => ?_
  refine (concludes_members ends).map fun listed => ?_
  simp only [ClassLike.facts_eq]
  rw [extending, implementing, attributed, given, listed]

theorem tracks_classKeyword {bound : Nat}
    : Tracks bound classKind (expect .name .classKeyword) (expect .name .classKeyword) := by
  intro count start start' _ near token stop n ran left few
  obtain ⟨here, kind, rfl⟩ := expect_eq_ok.mp ran
  obtain ⟨rfl, token', here', kind', text'⟩ := token?_of_advance near here left few
  refine ⟨token', _, expect_eq_ok.mpr ⟨here', kind'.trans kind, rfl⟩, Cursor.advance_ahead _, ?_⟩
  simp only [classKind, Token.isKeyword_eq_of_text kind' text']

theorem concludes_namedClass {attributes attributes' : List Expr}
    (attributed : exprFacts attributes' = exprFacts attributes)
    (ends : start.NearMark count start')
    : Concludes count ClassLike.facts (namedClass scan attributes) (namedClass scan attributes')
        start start' := by
  refine .bind_of_ends ends
    (Tracks.collect strides_classModifierTurn tracks_classModifierTurn (Nat.lt_succ_self _) ends.near)
    (fun _ _ => .after fun _ => .after fun _ => ends_classTail) fun _ _ ends => ?_
  refine .bind_of_ends ends (tracks_classKeyword (Nat.lt_succ_self _) ends.near)
    (fun _ _ => .after fun _ => ends_classTail) fun _ same ends => ?_
  rw [same]
  refine .bind_of_ends ends (tracks_expectName (Nat.lt_succ_self _) ends.near)
    (fun _ _ => ends_classTail) fun _ named ends => ?_
  rw [named]
  exact concludes_classTail attributed rfl ends

theorem concludes_anonymousClass {attributes attributes' : List Expr}
    (attributed : exprFacts attributes' = exprFacts attributes)
    (ends : start.NearMark count start')
    : Concludes count ClassLike.facts (anonymousClass scan attributes)
        (anonymousClass scan attributes') start start' := by
  refine .bind_of_ends ends (Tracks.skip (Nat.lt_succ_self _) ends.near)
    (fun _ _ => .after fun _ => ends_classTail) fun _ _ ends => ?_
  refine .bind_of_ends ends (tracks_arguments moves_scan tracks_scan
    (Nat.lt_succ_of_lt (Nat.lt_succ_self _)) ends.near) (fun _ _ => ends_classTail)
    fun _ given ends => ?_
  exact concludes_classTail attributed given ends

/-- A function is read the same before other tokens, whether a body or a semicolon ends it. -/
theorem concludes_wholeFunction {attributes attributes' : List Expr}
    (attributed : exprFacts attributes' = exprFacts attributes)
    (ends : start.NearMark count start')
    : Concludes count Function.facts (function scan attributes) (function scan attributes') start
        start' := by
  refine .bind_of_ends ends (Tracks.skip (Nat.lt_succ_self _) ends.near)
    (fun _ _ => .after fun _ => .after fun _ => .after fun _ => .after fun _ => ends_functionBody)
    fun _ _ ends => ?_
  refine .bind_of_ends ends (tracks_eat (Nat.lt_succ_self _) ends.near)
    (fun _ _ => .after fun _ => .after fun _ => .after fun _ => ends_functionBody) fun _ _ ends => ?_
  refine .bind_of_ends ends (tracks_expectName (Nat.lt_succ_self _) ends.near)
    (fun _ _ => .after fun _ => .after fun _ => ends_functionBody) fun _ _ ends => ?_
  refine .bind_of_ends ends (tracks_params moves_scan tracks_scan (Nat.lt_succ_self _) ends.near)
    (fun _ _ => .after fun _ => ends_functionBody) fun _ listed ends => ?_
  refine .bind_of_ends ends (tracks_returnType? (Nat.lt_succ_self _) ends.near)
    (fun _ _ => ends_functionBody) fun _ typed ends => .get ?_
  rw [ends.near.isAt_eq]
  split
  · refine (concludes_group ends).map fun same => ?_
    rw [Function.facts_eq, Function.facts_eq, attributed, listed, hintFacts_congr .result typed,
      same]
  · refine (concludes_expect ends).map fun _ => ?_
    rw [Function.facts_eq, Function.facts_eq, attributed, listed, hintFacts_congr .result typed]

end Parser

end ImportHeader
