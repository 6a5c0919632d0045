import ImportHeader.Proofs.Parser.BodyNaming

/-! The class names in classes, and in the bodies around them. The scan is the same parser with every
budget that covers the tokens ahead, so it follows its own recursion and never stalls.
-/

namespace ImportHeader

namespace Parser

variable {root : Cursor} {mark : EndMark} {bound : Nat} {stack : List TokenKind} {start : Cursor}

section Scan

variable {one one' : Parser (List Expr)} {closing : TokenKind}
  (scans : Scans root mark bound one one')

include scans

-----------------------------------------------------------------------------------------
-- Classes
-----------------------------------------------------------------------------------------

/-- The rest of a member ends with a semicolon or a block, or before the brace that closes the
class.
-/
theorem keeps_memberTail
    : Keeps (namesIn root mark) bound (closing :: stack) exprNames [] (memberTail one)
        (memberTail one') start := by
  refine Keeps.collect (strides_memberTailTurn scans.moves) exprNames_append fun start => .get ?_
  split
  · exact .fail (by simp)
  · rename_i here
    exact (spends_skip here .innerSemicolon).after fun _ => .pure rfl (List.nil_sublist _)
  · exact .pure rfl (List.nil_sublist _)
  · rename_i here
    exact (keeps_group scans here rfl).narrow.bind fun _ => .pure rfl (List.Sublist.refl _)
  · exact scans.inside.bind fun _ => .pure rfl (List.Sublist.refl _)

theorem keeps_traitUse
    : Keeps (namesIn root mark) bound (closing :: stack)
        (fun member => Place.names (Place.ofMember member)) [] (traitUse one) (traitUse one')
        start := by
  refine keeps_nameList.bind fun _ => .get ?_
  split
  · rename_i here
    exact (keeps_group scans (eq_of_beq here) rfl).narrow.bind fun _ =>
      .pure rfl (by simp [Place.ofMember])
  · exact (spends_expect .innerSemicolon).after fun _ => .pure rfl (by simp [Place.ofMember])

theorem keeps_member {attributes : List Expr}
    : Keeps (namesIn root mark) bound (closing :: stack)
        (fun member => Place.names (Place.ofMember member)) (exprNames attributes)
        (member one attributes) (member one' attributes) start := by
  refine (skips_modifiers scans).after fun _ => .get ?_
  split
  · rename_i here
    exact (keeps_function scans (kind?_of_isKeyword here) (by nofun)).next fun _ =>
      .pure rfl (List.Sublist.refl _)
  split
  · exact (keeps_memberTail scans).bind fun _ => .pure rfl (by simp [Place.ofMember])
  · exact keeps_typeHint?.bind fun _ => (keeps_memberTail scans).bind fun _ =>
      .pure rfl (by simp [Place.ofMember])

theorem spends_members
    : Spends (namesIn root mark) bound (.rightBrace :: stack) (fun _ => stack)
        (fun members => Place.names (Place.ofMembers members)) [] (collect (memberTurn one))
        (collect (memberTurn one')) start := by
  refine Spends.collect (strides_memberTurn scans.moves) (fun left right => ?_) fun start =>
    (keeps_attributes scans).narrow.bind fun {attributes _} _ => .get ?_
  · rw [Place.ofMembers_append, Place.names_append]
  have alone (member : Member Expr)
      : Place.names (Place.ofMembers [member]) = Place.names (Place.ofMember member) := by
    simp [Place.ofMembers]
  split
  · exact .fail (by simp)
  · rename_i here
    exact (spends_skip here (.pop rfl)).after fun _ => .pure rfl (List.nil_sublist _)
  · rename_i here
    exact (spends_skip here (.innerSemicolon)).after fun _ => .pure rfl (List.nil_sublist _)
  · refine skips_eatKeyword.after fun {used _} _ => ?_
    cases used with
    | true =>
        exact (keeps_traitUse scans).bind fun _ => .pure rfl (by simp [Turn.found, alone])
    | false =>
        exact (keeps_member scans).next fun _ => .pure rfl (by simp [Turn.found, alone])

omit scans in
theorem skips_backingType {kind : ClassKind}
    : Skips (namesIn root mark) bound stack (backingType kind) (backingType kind) start := by
  unfold backingType
  split
  · refine (skips_eat rfl).after fun {announced _} _ => ?_
    cases announced with
    | true => exact skips_name?.after fun _ => .pure rfl (List.nil_sublist _)
    | false => exact .pure rfl (List.nil_sublist _)
  · exact .pure rfl (List.nil_sublist _)

omit scans in
theorem keeps_namesAfter {keyword : Text}
    : Keeps (namesIn root mark) bound stack id [] (namesAfter keyword) (namesAfter keyword)
        start := by
  refine skips_eatKeyword.after fun {stands _} _ => ?_
  cases stands with
  | true => exact keeps_nameList
  | false => exact .pure rfl (List.nil_sublist _)

theorem keeps_classTail {kind : ClassKind} {name? : Option Text}
    {attributes arguments : List Expr}
    : Keeps (namesIn root mark) bound stack
        (fun declaration => Place.names (Place.ofClass declaration))
        (exprNames attributes ++ exprNames arguments)
        (classTail one kind name? attributes arguments)
        (classTail one' kind name? attributes arguments) start :=
  skips_backingType.after fun _ => keeps_namesAfter.bind fun _ => keeps_namesAfter.bind fun _ =>
    (spends_expect (.push rfl)).after fun _ => (spends_members scans).bind fun _ =>
      .pure rfl (by simp [Place.ofClass])

omit scans in
theorem skips_classModifiers
    : Skips (namesIn root mark) bound stack (collect classModifierTurn) (collect classModifierTurn)
        start := by
  refine Keeps.collect strides_classModifierTurn (fun _ _ => rfl) fun start => .get ?_
  split
  · rename_i here
    exact (spends_skip (kind?_of_isKeyword here) (.quiet rfl)).after fun _ =>
      .pure rfl (List.nil_sublist _)
  · exact .pure rfl (List.nil_sublist _)

/-- The body of a named class is read behind its keyword. -/
theorem keeps_namedClass {attributes : List Expr}
    : Keeps (namesIn root mark) (bound + 1) stack
        (fun declaration => Place.names (Place.ofClass declaration)) (exprNames attributes)
        (namedClass one attributes) (namedClass one' attributes) start := by
  intro reached within
  refine (skips_classModifiers.after fun modified => (spends_expect (.quiet rfl)).after
    fun expected => ?_) reached within
  refine .of_passes ((reaches_of_run modified).passes (passes_of_expect expected)) within ?_
  refine skips_expectName.after fun _ => ?_
  rw [← List.append_nil (exprNames attributes)]
  exact keeps_classTail scans

theorem keeps_anonymousClass {attributes : List Expr} (here : start.kind? 0 = some .name)
    : Keeps (namesIn root mark) bound stack
        (fun declaration => Place.names (Place.ofClass declaration)) (exprNames attributes)
        (anonymousClass one attributes) (anonymousClass one' attributes) start :=
  (spends_skip here (.quiet rfl)).after fun _ => (keeps_arguments scans).bind fun _ =>
    keeps_classTail scans

-----------------------------------------------------------------------------------------
-- Names in bodies, elements and statements
-----------------------------------------------------------------------------------------

omit scans in
theorem skips_anonymousModifier
    : Skips (namesIn root mark) bound stack anonymousModifier anonymousModifier start := by
  refine .get ?_
  split
  · rename_i modified
    have here := kind?_of_isKeyword (Bool.and_eq_true_iff.mp modified).1
    exact spends_skip here (.quiet rfl)
  · exact .pure rfl (List.nil_sublist _)

theorem keeps_created {attributes : List Expr}
    : Keeps (namesIn root mark) bound stack exprNames (exprNames attributes)
        (created one attributes) (created one' attributes) start := by
  refine .get ?_
  split
  · rename_i here
    exact (keeps_anonymousClass scans (kind?_of_isKeyword here)).next fun _ =>
      .pure rfl (by simp [Place.ofExpr])
  · refine keeps_name.bind fun {found _} _ => ?_
    cases found with
    | some target =>
        exact (keeps_arguments scans).bind fun _ => .pure rfl (by simp [Place.ofExpr])
    | none => exact .pure rfl (by simp)

theorem keeps_creation (here : start.kind? 0 = some .name)
    : Keeps (namesIn root mark) (bound + 1) stack exprNames [] (creation one) (creation one')
        start :=
  .behind here (.quiet rfl) <| (keeps_attributes scans).narrow.bind fun _ =>
    skips_anonymousModifier.after fun _ => keeps_created scans

theorem spends_catchTypes
    : Spends (namesIn root mark) bound (.rightParen :: stack) (fun _ => stack) id []
        (collect (catchTurn one)) (collect (catchTurn one')) start := by
  refine Spends.collect (strides_catchTurn scans.moves) (fun _ _ => rfl) fun start => .get ?_
  split
  · exact .fail (by simp)
  · rename_i here
    exact (spends_skip here (.pop rfl)).after fun _ => .pure rfl (List.nil_sublist _)
  · exact keeps_name.bind fun _ => .pure rfl (List.Sublist.refl _)
  · exact (scans.inside.quiet rfl rfl).after fun _ => .pure rfl (List.nil_sublist _)

theorem keeps_catchClause (here : start.kind? 0 = some .name)
    : Keeps (namesIn root mark) (bound + 1) stack exprNames [] (catchClause one) (catchClause one')
        start :=
  .behind here (.quiet rfl) <| (spends_expect (.push rfl)).after fun _ =>
    (spends_catchTypes scans).bind fun _ => .pure rfl (by simp [Place.ofExpr])

omit scans in
theorem skips_memberName : Skips (namesIn root mark) bound stack memberName memberName start := by
  refine .get ?_
  dsimp only
  split
  · rename_i member
    rcases Bool.or_eq_true_iff.mp member with named | named
    · exact spends_skip (eq_of_beq named) (.quiet rfl)
    · exact spends_skip (eq_of_beq named) (.quiet rfl)
  · exact .pure rfl (List.nil_sublist _)

omit scans in
theorem keeps_plainName
    : Keeps (namesIn root mark) bound stack exprNames [] plainName plainName start := by
  refine keeps_name.bind fun {found _} _ => ?_
  cases found with
  | none => exact .pure rfl (List.nil_sublist _)
  | some target =>
      refine (skips_eat rfl).after fun {accessed _} _ => ?_
      cases accessed with
      | true => exact skips_memberName.after fun _ => .pure rfl (by simp [Place.ofExpr])
      | false =>
          rw [if_neg Bool.false_ne_true]
          split
          · exact .pure rfl (by simp [Place.ofExpr])
          · exact .pure rfl (List.nil_sublist _)

theorem keeps_nameInBody (here : start.kind? 0 = some .name)
    : Keeps (namesIn root mark) (bound + 1) stack exprNames [] (nameInBody one) (nameInBody one')
        start := by
  refine .get ?_
  split
  · exact keeps_creation scans here
  split
  · refine (spends_skip here (.quiet rfl)).after fun _ => keeps_name.bind fun {found _} _ => ?_
    cases found with
    | some target => exact .pure rfl (by simp [Place.ofExpr])
    | none => exact .pure rfl (List.nil_sublist _)
  split
  · exact keeps_catchClause scans here
  split
  · exact (keeps_closure scans here).bind fun _ => .pure rfl (by simp [Place.ofExpr])
  split
  · exact (keeps_namedClass scans).bind fun _ => .pure rfl (by simp [Place.ofExpr])
  · exact keeps_plainName

/-- A body goes on token by token. An opening bracket goes on through its closing one, and a closing
bracket with nothing to close is an error.
-/
theorem keeps_element (other : stack = [] → start.kind? 0 ≠ some mark.kind)
    : Keeps (namesIn root mark) (bound + 1) stack exprNames [] (element one) (element one')
        start := by
  refine .get ?_
  cases next : start.token? 0 with
  | none => exact .pure rfl (List.nil_sublist _)
  | some token =>
      have here : start.kind? 0 = some token.kind := by rw [Cursor.kind?, next, Option.map_some]
      dsimp only
      split
      · rename_i kind
        exact keeps_group scans (kind ▸ here) rfl
      · rename_i kind
        exact keeps_group scans (kind ▸ here) rfl
      · rename_i kind
        exact keeps_group scans (kind ▸ here) rfl
      · exact .fail (by simp)
      · exact .fail (by simp)
      · exact .fail (by simp)
      · exact keeps_attributes scans
      · rename_i kind
        exact (spends_skip (kind ▸ here) (.quiet rfl)).after fun _ => (skips_eat rfl).after fun _ =>
          .pure rfl (List.nil_sublist _)
      · rename_i kind
        exact (spends_skip (kind ▸ here) (.quiet rfl)).after fun _ => (skips_eat rfl).after fun _ =>
          .pure rfl (List.nil_sublist _)
      · rename_i kind
        exact keeps_nameInBody scans (kind ▸ here)
      · -- no other kind is a bracket
        have plain : token.kind.isBracket = false := by
          cases kind : token.kind <;> first | rfl | simp_all
        have free (none : stack = []) : token.kind ≠ mark.kind :=
          fun same => other none (same ▸ here)
        exact (spends_skip here (.plain plain free .nil)).after fun _ =>
          .pure rfl (List.nil_sublist _)

theorem keeps_statementTurns {control loops bare : Bool} (free : stack = [] → mark = .closeTag)
    : Keeps (namesIn root mark) bound stack exprNames []
        (collect (statementTurn one control loops bare))
        (collect (statementTurn one' control loops bare)) start := by
  refine Keeps.collect (strides_statementTurn scans.moves) exprNames_append fun start => .get ?_
  split
  · exact .pure rfl (List.nil_sublist _)
  · exact .pure rfl (List.nil_sublist _)
  · exact .pure rfl (List.nil_sublist _)
  · rename_i here
    exact (spends_skip here (.semicolon free)).after fun _ => .pure rfl (List.nil_sublist _)
  · rename_i here
    refine (keeps_group scans here rfl).narrow.bind fun _ => .get ?_
    dsimp only
    split
    · exact .pure rfl (List.Sublist.refl _)
    · exact .pure rfl (List.Sublist.refl _)
  · rename_i kind closeTag _ _ _ here
    refine (scans.keeps fun none same => ?_).bind fun _ => .pure rfl (List.Sublist.refl _)
    rw [free none, here] at same
    exact closeTag (Option.some.inj same)

/-- Where no bracket is open, a statement passes no close tag, unless it starts with one. -/
theorem keeps_statement (free : stack = [] → mark = .closeTag ∧ start.isAt .closeTag = false)
    : Keeps (namesIn root mark) bound stack exprNames [] (statement one) (statement one')
        start := by
  have tag (here : start.isAt .closeTag = true)
      : Unwinds mark.kind stack [.closeTag] stack := by
    refine .plain rfl (fun none => ?_) .nil
    rw [(free none).2] at here
    cases here
  refine (spends_eat tag).after fun {closed _} _ => ?_
  cases closed with
  | true => exact (skips_eat rfl).after fun _ => .pure rfl (List.nil_sublist _)
  | false => exact .get (keeps_statementTurns scans fun none => (free none).1)

end Scan

-----------------------------------------------------------------------------------------
-- The scan
-----------------------------------------------------------------------------------------

/-- A body passes captured variables one by one, whatever scans the groups in it. -/
theorem plain_of_element {one : Parser (List Expr)} {found : List Expr} {stop : Cursor}
    {kind : TokenKind} (ran : (element one).run start = .ok (found, stop))
    (here : start.kind? 0 = some kind) (captured : kind.isCapture = true)
    : found = [] ∧ stop = start.advance := by
  have ran := get_bind_eq_ok.mp ran
  obtain ⟨token, next, rfl⟩ := Option.map_eq_some_iff.mp here
  rw [next] at ran
  dsimp only at ran
  have quiet : (do skip; return [] : Parser (List Expr)).run start = .ok (found, stop) := by
    unfold TokenKind.isCapture at captured
    cases kind : token.kind <;> rw [kind] at ran captured <;> first | exact ran | cases captured
  obtain ⟨rfl, rfl⟩ := skip_pure_eq_ok.mp quiet
  exact ⟨rfl, rfl⟩

theorem plain_of_scanWithin {budget : List Lexeme} {found : List Expr} {stop : Cursor}
    {kind : TokenKind} (ran : (scanWithin budget).run start = .ok (found, stop))
    (here : start.kind? 0 = some kind) (captured : kind.isCapture = true)
    : found = [] ∧ stop = start.advance := by
  cases budget with
  | nil => exact plain_of_element ran here captured
  | cons _ _ => exact plain_of_element ran here captured

/-- With no tokens ahead of them scans are not compared. -/
theorem scans_zero {one one' : Parser (List Expr)} (moves : Moves one)
    (plain
      : ∀ {start found stop kind}, one.run start = .ok (found, stop)
          → start.kind? 0 = some kind → kind.isCapture = true → found = [] ∧ stop = start.advance)
    : Scans root mark 0 one one' :=
  ⟨moves, fun _ _ within => absurd within (Nat.not_lt_zero _), plain⟩

/-- The scan shows what it passes at every level of nesting, by induction over the tokens ahead, and
does the same with all budgets that cover these.
-/
theorem scans_scanWithin {budget budget' : List Lexeme} (enough : bound ≤ budget.length + 1)
    (enough' : bound ≤ budget'.length + 1)
    : Scans root mark bound (scanWithin budget) (scanWithin budget') := by
  induction bound generalizing budget budget' with
  | zero => exact scans_zero (moves_scanWithin budget) plain_of_scanWithin
  | succ bound ih =>
      have stalled {one : Parser (List Expr)} : Scans root mark 0 (fail .stalled) one :=
        scans_zero (fun _ ran => absurd ran fail_ne_ok) fun ran => absurd ran fail_ne_ok
      refine ⟨moves_scanWithin budget, fun other => ?_, plain_of_scanWithin⟩
      cases budget with
      | nil =>
          obtain rfl : bound = 0 := by simpa using enough
          cases budget' with
          | nil => exact keeps_element stalled other
          | cons _ _ => exact keeps_element stalled other
      | cons _ rest =>
          cases budget' with
          | nil =>
              obtain rfl : bound = 0 := by simpa using enough'
              exact keeps_element (scans_zero (moves_scanWithin rest) plain_of_scanWithin) other
          | cons _ rest' =>
              exact keeps_element (ih (Nat.le_of_succ_le_succ enough)
                (Nat.le_of_succ_le_succ enough')) other

theorem run_scan_ahead : scan.run start = (scanWithin start.ahead).run start :=
  run_bind _ _ _

/-- The scan has a budget that covers the tokens ahead. -/
theorem scans_of_budget {budget : List Lexeme} (enough : bound ≤ budget.length + 1)
    : Scans root mark bound (scanWithin budget) scan where
  moves := moves_scanWithin budget
  keeps {stack start} other reached within := by
    have level : Scans root mark (start.ahead.length + 1) (scanWithin budget)
        (scanWithin start.ahead) :=
      scans_scanWithin (by omega) (Nat.le_refl _)
    obtain ⟨settles, spent⟩ := level.keeps other reached (Nat.lt_succ_self _)
    exact ⟨⟨settles.same.trans run_scan_ahead.symm, settles.ends⟩, spent⟩
  plain := plain_of_scanWithin

theorem scans_scan : Scans root mark bound scan scan where
  moves := moves_scan
  keeps {stack start} other reached within := by
    have level : Scans root mark (start.ahead.length + 1) (scanWithin start.ahead) scan :=
      scans_of_budget (Nat.le_refl _)
    obtain ⟨settles, spent⟩ := level.keeps other reached (Nat.lt_succ_self _)
    refine ⟨⟨rfl, fun span stalled => ?_⟩, fun found stop ran => spent (run_scan_ahead ▸ ran)⟩
    exact settles.ends span (run_scan_ahead ▸ stalled)
  plain ran := plain_of_scanWithin (run_scan_ahead ▸ ran)

/-- What scans the groups in an element does not count, as long as it covers the tokens ahead. -/
theorem run_element_congr {one one' : Parser (List Expr)}
    (level : Scans start .semicolon bound one one') (within : start.ahead.length < bound + 1)
    : (element one).run start = (element one').run start := by
  -- As if inside a brace, where a semicolon can stand too.
  have inside : Keeps (namesIn start .semicolon) (bound + 1) [.rightBrace] exprNames []
      (element one) (element one') start :=
    keeps_element level nofun
  exact (inside .refl within).1.same

/-- The scan reads one token or bracket group, and scans what is nested in it. -/
theorem run_scan : scan.run start = (element scan).run start := by
  rw [run_scan_ahead]
  cases ahead : start.ahead with
  | nil =>
      have level : Scans start .semicolon 0 (fail .stalled) scan :=
        scans_zero (fun _ ran => absurd ran fail_ne_ok) fun ran => absurd ran fail_ne_ok
      exact run_element_congr level (by rw [ahead]; exact Nat.one_pos)
  | cons _ rest =>
      exact run_element_congr (scans_of_budget (Nat.le_refl _))
        (by rw [ahead]; exact Nat.lt_succ_self _)

end Parser

end ImportHeader
