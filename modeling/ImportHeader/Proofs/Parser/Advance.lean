import ImportHeader.Proofs.Parser.Passing

/-! Where the parser stands, as a number of tokens that are behind it. What starts at a token that
carries syntax ends at a later position or with an error, so each repetition and the scan end.
-/

namespace ImportHeader

-----------------------------------------------------------------------------------------
-- Positions
-----------------------------------------------------------------------------------------

theorem exists_of_lexemes_gap {tokens passed gap : List Token} {ahead : List Lexeme}
    (sorted : lexemes tokens = (passed ++ gap, ahead))
    : ∃ rest, tokens = passed ++ rest ∧ lexemes rest = (gap, ahead) := by
  induction passed generalizing tokens with
  | nil => exact ⟨tokens, rfl, sorted⟩
  | cons token passed ih =>
      cases tokens with
      | nil => cases sorted
      | cons first tokens =>
          rw [lexemes] at sorted
          dsimp only at sorted
          split at sorted
          · rw [Prod.mk.injEq, List.cons_append, List.cons.injEq] at sorted
            obtain ⟨⟨rfl, gap_eq⟩, ahead_eq⟩ := sorted
            obtain ⟨rest, rfl, behind⟩ := ih (Prod.ext gap_eq ahead_eq)
            exact ⟨rest, rfl, behind⟩
          · cases sorted

theorem exists_of_lexemes_cons {tokens : List Token} {lexeme : Lexeme} {ahead : List Lexeme}
    (sorted : lexemes tokens = ([], lexeme :: ahead))
    : ∃ rest, tokens = lexeme.token :: rest ∧ lexemes rest = (lexeme.gap, ahead) := by
  cases tokens with
  | nil => cases sorted
  | cons first tokens =>
      rw [lexemes] at sorted
      dsimp only at sorted
      split at sorted
      · cases sorted
      · cases sorted
        exact ⟨tokens, rfl, rfl⟩

namespace Cursor

variable {source : Text} {tokens : List Token} {position : Nat} {start stop : Cursor}

/-- The cursor stands behind the first tokens of a source, as many as the position says. -/
structure StandsAt (cursor : Cursor) (source : Text) (tokens : List Token) (position : Nat)
    : Prop where
  within : position ≤ tokens.length
  eq_ofTokens : ∃ lastEnd, cursor = ofTokens source (tokens.drop position) lastEnd

theorem StandsAt.ofTokens (source : Text) (within : position ≤ tokens.length) (lastEnd : Nat)
    : (ofTokens source (tokens.drop position) lastEnd).StandsAt source tokens position :=
  ⟨within, lastEnd, rfl⟩

theorem StandsAt.lexemes_eq (stands : start.StandsAt source tokens position)
    : lexemes (tokens.drop position) = (start.gap, start.ahead) := by
  obtain ⟨lastEnd, rfl⟩ := stands.eq_ofTokens
  rfl

theorem StandsAt.source_eq (stands : start.StandsAt source tokens position)
    : start.source = source := by
  obtain ⟨lastEnd, rfl⟩ := stands.eq_ofTokens
  rfl

/-- Behind further tokens the cursor stands that much later. -/
theorem StandsAt.of_append {passed rest : List Token}
    (stands : start.StandsAt source tokens position)
    (cut : tokens.drop position = passed ++ rest) (same : stop.source = start.source)
    (sorted : lexemes rest = (stop.gap, stop.ahead))
    : stop.StandsAt source tokens (position + passed.length) := by
  have behind : tokens.drop (position + passed.length) = rest := by
    rw [← List.drop_drop, cut, List.drop_left]
  have lengths := congrArg List.length cut
  rw [List.length_drop, List.length_append] at lengths
  have within := stands.within
  refine ⟨by omega, stop.lastEnd, ?_⟩
  rw [Cursor.ofTokens, behind, sorted, ← stands.source_eq, ← same]

theorem StandsAt.advance (stands : start.StandsAt source tokens position)
    : ∃ position', position ≤ position' ∧ start.advance.StandsAt source tokens position' := by
  unfold Cursor.advance
  split
  · exact ⟨position, Nat.le_refl _, stands⟩
  · rename_i lexeme ahead next
    have sorted := stands.lexemes_eq
    rw [next, ← List.append_nil start.gap] at sorted
    obtain ⟨rest, cut, solid⟩ := exists_of_lexemes_gap sorted
    obtain ⟨rest', rfl, behind⟩ := exists_of_lexemes_cons solid
    rw [List.append_cons] at cut
    exact ⟨_, Nat.le_add_right _ _, stands.of_append cut rfl behind⟩

/-- What is reached from a position stands there or later. -/
theorem StandsAt.reaches (stands : start.StandsAt source tokens position)
    (reached : start.Reaches stop)
    : ∃ position', position ≤ position' ∧ stop.StandsAt source tokens position' := by
  induction reached with
  | refl => exact ⟨position, Nat.le_refl _, stands⟩
  | advance _ ih =>
      obtain ⟨middle, first, there⟩ := ih
      obtain ⟨position', second, stands'⟩ := there.advance
      exact ⟨position', first.trans second, stands'⟩
  | @pass last gap _ later ih =>
      obtain ⟨middle, first, there⟩ := ih
      obtain ⟨passed, cut⟩ := later
      have sorted := there.lexemes_eq
      rw [← cut] at sorted
      obtain ⟨rest, cut', behind⟩ := exists_of_lexemes_gap sorted
      have stands' : ({ last with gap } : Cursor).StandsAt source tokens _ :=
        there.of_append cut' rfl behind
      exact ⟨_, first.trans (Nat.le_add_right _ _), stands'⟩

/-- What is reached from a position behind a token stands later. -/
theorem StandsAt.passes (stands : start.StandsAt source tokens position)
    (reached : start.Reaches stop) (passed : start.Passes stop)
    : ∃ position', position < position' ∧ stop.StandsAt source tokens position' := by
  obtain ⟨position', notEarlier, stands'⟩ := stands.reaches reached
  refine ⟨position', Nat.lt_of_le_of_ne notEarlier ?_, stands'⟩
  rintro rfl
  -- Cursors at one position stand before the same lexemes.
  have same := stands.lexemes_eq.symm.trans stands'.lexemes_eq
  rw [Prod.mk.injEq] at same
  unfold Passes at passed
  rw [same.2] at passed
  exact Nat.lt_irrefl _ passed

end Cursor

namespace Parser

variable {α : Type} {source : Text} {tokens : List Token} {position : Nat} {start stop : Cursor}

/-- The step gives an error or ends at a later position. -/
def EndsBehind (step : Parser α) (start : Cursor) (source : Text) (tokens : List Token)
    (position : Nat)
    : Prop :=
  ∀ found stop, step.run start = .ok (found, stop)
    → ∃ position', position < position' ∧ stop.StandsAt source tokens position'

theorem Moves.endsBehind {step : Parser α} (moves : Moves step)
    (stands : start.StandsAt source tokens position) (here : start.ahead ≠ [])
    : step.EndsBehind start source tokens position :=
  fun _ _ ran => stands.passes (reaches_of_run ran) (moves here ran)

theorem endsBehind_stmt (stands : start.StandsAt source tokens position) (here : start.ahead ≠ [])
    (other : start.kind? 0 ≠ some .rightBrace)
    : stmt.EndsBehind start source tokens position := by
  obtain ⟨token, next⟩ := Cursor.exists_token here
  have kind : start.kind? 0 = some token.kind := by rw [Cursor.kind?, next]; rfl
  rw [kind] at other
  intro found stop ran
  exact stands.passes (reaches_of_run ran)
    (passes_of_stmt kind (fun brace => other (congrArg some brace)) ran)

theorem endsBehind_namespaceScope (stands : start.StandsAt source tokens position)
    : namespaceScope.EndsBehind start source tokens position := by
  intro found stop ran
  refine stands.passes (reaches_of_run ran) ?_
  rw [namespaceScope, get_bind_eq_ok] at ran
  exact passes_of_first passes_of_expect ran

-----------------------------------------------------------------------------------------
-- Repetitions
-----------------------------------------------------------------------------------------

/-- The turns of the repetitions of the parser. -/
inductive IsTurn : {α : Type} → Parser (Turn α) → Prop
  | item : IsTurn itemTurn
  | inScope (braced : Bool) : IsTurn (namespaceTurn braced)
  | member : IsTurn (memberTurn scan)
  | memberTail : IsTurn (memberTailTurn scan)
  | param : IsTurn (paramTurn scan)
  | defaultValue : IsTurn (defaultTurn scan)
  | alternative : IsTurn typeTurn
  | typeGroup : IsTurn typeGroupTurn
  | attributeLists : IsTurn (attributesTurn scan)
  | attributeList : IsTurn (attributeTurn scan)
  | statement (control loops bare : Bool) : IsTurn (statementTurn scan control loops bare)
  | group (opening : Token) : IsTurn (groupTurn scan opening)
  | caught : IsTurn (catchTurn scan)
  | modifier (keywords : List Text) : IsTurn (modifierTurn scan keywords)
  | classModifier : IsTurn classModifierTurn
  | nameList : IsTurn nameListTurn
  | importList : IsTurn importListTurn
  | importGroup : IsTurn importGroupTurn

theorem IsTurn.strides {turn : Parser (Turn α)} (isTurn : IsTurn turn) : Strides turn := by
  cases isTurn with
  | item => exact strides_itemTurn
  | inScope => exact strides_namespaceTurn
  | member => exact strides_memberTurn moves_scan
  | memberTail => exact strides_memberTailTurn moves_scan
  | param => exact strides_paramTurn moves_scan
  | defaultValue => exact strides_defaultTurn moves_scan
  | alternative => exact strides_typeTurn
  | typeGroup => exact strides_typeGroupTurn
  | attributeLists => exact strides_attributesTurn
  | attributeList => exact strides_attributeTurn moves_scan
  | statement => exact strides_statementTurn moves_scan
  | group => exact strides_groupTurn moves_scan
  | caught => exact strides_catchTurn moves_scan
  | modifier => exact strides_modifierTurn
  | classModifier => exact strides_classModifierTurn
  | nameList => exact strides_nameListTurn
  | importList => exact strides_importListTurn
  | importGroup => exact strides_importGroupTurn

/-- A step that keeps to the rules does not stall, whatever is read off the tokens. -/
theorem ends_of_spends {σ : Type} {spell : Token → Option σ} {calm : Prop} (stack : List TokenKind)
    {rest : α → List TokenKind} {view : α → List σ} {before : List σ} {step step' : Parser α}
    (spends
      : Spends ⟨start, .semicolon, spell, calm⟩ (start.ahead.length + 1) stack rest view before step
          step' start)
    (span : Span)
    : step.run start ≠ .error ⟨.stalled, span⟩ :=
  (spends .refl (Nat.lt_succ_self _)).1.ends span

/-- No repetition of the parser stalls, wherever it starts. -/
theorem IsTurn.ends {turn : Parser (Turn α)} (isTurn : IsTurn turn) (start : Cursor)
    : ∀ span, (collect turn).run start ≠ .error ⟨.stalled, span⟩ := by
  cases isTurn with
  | item => exact ends_of_spends [.semicolon] (keeps_items shows_names)
  | inScope => exact ends_of_spends [.semicolon] (keeps_namespaceStmts shows_names)
  | member => exact ends_of_spends [.rightBrace] (spends_members scans_scan)
  | memberTail => exact ends_of_spends [.rightBrace] (keeps_memberTail scans_scan)
  | param => exact ends_of_spends [.rightParen] (spends_paramTurns scans_scan)
  | defaultValue => exact ends_of_spends [.rightParen] (keeps_default scans_scan)
  | alternative => exact ends_of_spends [] keeps_types
  | typeGroup => exact ends_of_spends [.rightParen] spends_typeGroup
  | attributeLists => exact ends_of_spends [] (keeps_attributes scans_scan)
  | attributeList => exact ends_of_spends [.rightBracket] (spends_attributeList scans_scan)
  | statement => exact ends_of_spends [.rightBrace] (keeps_statementTurns scans_scan nofun)
  | group opening => exact ends_of_spends [closing opening.kind] (spends_groupTurns scans_scan)
  | caught => exact ends_of_spends [.rightParen] (spends_catchTypes scans_scan)
  | modifier => exact ends_of_spends [] (skips_modifierTurns scans_scan)
  | classModifier => exact ends_of_spends [] skips_classModifiers
  | nameList => exact ends_of_spends [] keeps_nameList
  | importList => exact ends_of_spends [] keeps_importList
  | importGroup => exact ends_of_spends [.rightBrace] spends_importGroup

/-- From a position, each turn that goes on ends at a later one. So the repetition of these turns
follows its recursion, and ends.
-/
structure Repeats (turn : Parser (Turn α)) (start : Cursor) (source : Text) (tokens : List Token)
    (position : Nat)
    : Prop where
  goesOn
    : ∀ found stop, turn.run start = .ok (.more found, stop)
        → ∃ position', position < position' ∧ stop.StandsAt source tokens position'
  unfolds
    : (collect turn).run start
      = Parser.run (do
          match ← turn with
          | .last found => return found
          | .more found => return found ++ (← collect turn)) start
  ends : ∀ span, (collect turn).run start ≠ .error ⟨.stalled, span⟩

theorem IsTurn.repeats {turn : Parser (Turn α)} (isTurn : IsTurn turn)
    (stands : start.StandsAt source tokens position)
    : Repeats turn start source tokens position where
  goesOn _ _ ran := stands.passes (reaches_of_run ran) (isTurn.strides ran)
  unfolds := run_collect isTurn.strides fun middle span => ends_of_collect (isTurn.ends middle span)
  ends := isTurn.ends start

-----------------------------------------------------------------------------------------
-- The scan
-----------------------------------------------------------------------------------------

/-- The scan calls itself at later positions only: it is what reads one token or bracket group and
does there as the scan does.
-/
theorem run_scan_eq_element {one : Parser (List Expr)}
    (stands : start.StandsAt source tokens position)
    (behind
      : ∀ middle position', position < position' → middle.StandsAt source tokens position'
          → one.run middle = scan.run middle)
    : scan.run start = (element one).run start := by
  have scans : Scans start .semicolon start.ahead.length scan scan := scans_scan
  have agree : Scans start .semicolon start.ahead.length scan one := by
    refine ⟨moves_scan, fun other reached passed => ?_, scans.plain⟩
    obtain ⟨settles, spent⟩ := scans.keeps other reached passed
    obtain ⟨position', later, stands'⟩ := stands.passes reached passed
    exact ⟨⟨(behind _ position' later stands').symm, settles.ends⟩, spent⟩
  have element : Keeps _ _ [.rightBrace] _ _ (element scan) (element one) start :=
    keeps_element agree nofun
  rw [run_scan]
  exact (element .refl (Nat.lt_succ_self _)).1.same

/-- The parser never stops moving forward. -/
theorem ends_of_code : ∀ span, code.run start ≠ .error ⟨.stalled, span⟩ :=
  ends_of_spends [.semicolon] (keeps_code shows_names)

/-- No source stops the parser from moving forward. -/
theorem parse_ne_stalled (source : Text) (span : Span)
    : parse source ≠ .error ⟨.stalled, span⟩ := by
  unfold parse
  dsimp only
  split
  · nofun
  · rename_i tag rest _
    intro stopped
    cases ran : Parser.code.run (Cursor.ofTokens source rest tag.stop) with
    | error error =>
        rw [ran] at stopped
        cases stopped
        exact ends_of_code span ran
    | ok pair =>
        rw [ran] at stopped
        cases stopped

/-- The parser goes on from every position before a token that carries syntax: the scan and a
statement give an error or end at a later position, where a statement does not start at a closing
brace. Each turn of a repetition that goes on ends at a later position. No step leaves the tokens.
So every repetition follows its recursion, the scan calls itself at later positions only, and
nothing stalls.
-/
theorem progress_of_standsAt (stands : start.StandsAt source tokens position)
    : (start.ahead ≠ [] → scan.EndsBehind start source tokens position)
      ∧ (start.ahead ≠ [] → start.kind? 0 ≠ some .rightBrace
          → stmt.EndsBehind start source tokens position
            ∧ namespaceScope.EndsBehind start source tokens position)
      ∧ (∀ (β : Type) (turn : Parser (Turn β)), IsTurn turn
          → Repeats turn start source tokens position)
      ∧ (∀ (β : Type) (step : Parser β) found stop, step.run start = .ok (found, stop)
          → ∃ position', position ≤ position' ∧ position' ≤ tokens.length
              ∧ stop.StandsAt source tokens position')
      ∧ (∀ one : Parser (List Expr),
          (∀ middle position', position < position' → middle.StandsAt source tokens position'
            → one.run middle = scan.run middle)
          → scan.run start = (element one).run start)
      ∧ (∀ span, code.run start ≠ .error ⟨.stalled, span⟩)
      ∧ ∀ text span, parse text ≠ .error ⟨.stalled, span⟩ := by
  refine ⟨moves_scan.endsBehind stands, fun here other => ?_,
    fun _ _ isTurn => isTurn.repeats stands, fun _ step found stop ran => ?_,
    fun _ => run_scan_eq_element stands, ends_of_code, parse_ne_stalled⟩
  · exact ⟨endsBehind_stmt stands here other, endsBehind_namespaceScope stands⟩
  · obtain ⟨position', notEarlier, stands'⟩ := stands.reaches (reaches_of_run ran)
    exact ⟨position', notEarlier, stands'.within, stands'⟩

/-- The scan moves behind the name of a call that is never closed. -/
theorem progress_of_standsAt_open_call
    : let tokens : List Token := [⟨.name, "f", 0⟩, ⟨.leftParen, "(", 1⟩]
      let start := Cursor.ofTokens "f(" (tokens.drop 0) 0
      start.StandsAt "f(" tokens 0 ∧ start.ahead ≠ []
        ∧ scan.run start = .ok ([], start.advance)
        ∧ ∃ position', 0 < position' ∧ start.advance.StandsAt "f(" tokens position' := by
  intro tokens start
  have stands : start.StandsAt "f(" tokens 0 := .ofTokens "f(" (by decide) 0
  have here : start.ahead ≠ [] := by decide
  have ran : scan.run start = .ok ([], start.advance) := by rfl
  exact ⟨stands, here, ran, (progress_of_standsAt stands).1 here _ _ ran⟩

end Parser

end ImportHeader
