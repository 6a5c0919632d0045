import ImportHeader.Proofs.Parser.LastTurns
import ImportHeader.Proofs.Parser.Naming

/-! The class names in bodies, function by function. Each lemma takes the scan of one token or bracket
group as it stands in two parsers.
-/

namespace ImportHeader

namespace Parser

variable {root : Cursor} {mark : EndMark} {bound : Nat} {stack : List TokenKind} {start : Cursor}

/-- A scan shows names that it passes, and passes captured variables one by one. Where no bracket is
open it does not end with the mark that ends a statement, unless it starts at one. With less than
`bound` tokens ahead it does the same as another scan.
-/
structure Scans (root : Cursor) (mark : EndMark) (bound : Nat) (one one' : Parser (List Expr))
    : Prop where
  moves : Moves one
  keeps
    : ∀ {stack start}, (stack = [] → start.kind? 0 ≠ some mark.kind)
        → Keeps (namesIn root mark) bound stack exprNames [] one one' start
  plain
    : ∀ {start found stop kind}, one.run start = .ok (found, stop)
        → start.kind? 0 = some kind → kind.isCapture = true → found = [] ∧ stop = start.advance

/-- Within brackets a scan can start and end anywhere. -/
theorem Scans.inside {one one' : Parser (List Expr)} {closing : TokenKind}
    (scans : Scans root mark bound one one')
    : Keeps (namesIn root mark) bound (closing :: stack) exprNames [] one one' start :=
  scans.keeps nofun

theorem isBracket_closing (kind : TokenKind) : (closing kind).isBracket = true := by
  cases kind <;> rfl

section Scan

variable {one one' : Parser (List Expr)} {closing : TokenKind}
  (scans : Scans root mark bound one one')

include scans

-----------------------------------------------------------------------------------------
-- Bracket groups, attributes and functions
-----------------------------------------------------------------------------------------

/-- The turns of a bracket group end with its closing bracket. -/
theorem spends_groupTurns {opening : Token}
    : Spends (namesIn root mark) bound (Parser.closing opening.kind :: stack) (fun _ => stack)
        exprNames [] (collect (groupTurn one opening)) (collect (groupTurn one' opening)) start := by
  refine Spends.collect (strides_groupTurn scans.moves) exprNames_append fun start => .get ?_
  split
  · exact .throw nofun
  · rename_i kind here
    split
    · rename_i closed
      subst closed
      exact (spends_skip here (.pop (isBracket_closing _))).after fun _ =>
        .pure rfl (List.nil_sublist _)
    · exact scans.inside.bind fun _ => .pure rfl (List.Sublist.refl _)

/-- What stands behind an opening bracket has to close it. The scan starts behind that bracket. -/
theorem keeps_group {kind : TokenKind} (here : start.kind? 0 = some kind)
    (closes : kind.closer? = some (Parser.closing kind))
    : Keeps (namesIn root mark) (bound + 1) stack exprNames [] (group one) (group one') start := by
  refine .get ?_
  cases next : start.token? 0 with
  | none => simp [Cursor.kind?, next] at here
  | some opening =>
      obtain rfl : opening.kind = kind := by simpa [Cursor.kind?, next] using here
      exact .behind here (.push closes) (spends_groupTurns scans)

theorem keeps_arguments
    : Keeps (namesIn root mark) bound stack exprNames [] (arguments one) (arguments one')
        start := by
  refine .get ?_
  split
  · rename_i here
    exact (keeps_group scans (eq_of_beq here) rfl).narrow
  · exact .pure rfl (List.nil_sublist _)

theorem spends_attributeList
    : Spends (namesIn root mark) bound (.rightBracket :: stack) (fun _ => stack) exprNames []
        (collect (attributeTurn one)) (collect (attributeTurn one')) start := by
  refine Spends.collect (strides_attributeTurn scans.moves) exprNames_append fun start => .get ?_
  split
  · exact .fail nofun
  · rename_i here
    exact (spends_skip here (.pop rfl)).after fun _ => .pure rfl (List.nil_sublist _)
  · rename_i here
    exact (spends_skip here (.quiet rfl)).after fun _ => .pure rfl (List.nil_sublist _)
  · exact keeps_requiredName.bind fun _ => (keeps_arguments scans).bind fun _ =>
      .pure rfl (by simp [Turn.found, Place.ofExpr])
  · exact scans.inside.bind fun _ => .pure rfl (List.Sublist.refl _)

/-- An attribute list is read behind the mark that opens it. -/
theorem keeps_attributes
    : Keeps (namesIn root mark) (bound + 1) stack exprNames [] (attributes one) (attributes one')
        start := by
  refine Keeps.collect strides_attributesTurn exprNames_append fun start reached within => ?_
  refine ((spends_eat fun _ => .push rfl).after fun {opened _} ate => ?_) reached within
  cases opened with
  | true =>
      refine .of_passes (passes_of_eat ate) within ?_
      exact (spends_attributeList scans).bind fun _ => .pure rfl (List.Sublist.refl _)
  | false => exact .pure rfl (List.nil_sublist _)

theorem skips_modifierTurns {keywords : List Text}
    : Skips (namesIn root mark) bound stack (collect (modifierTurn one keywords))
        (collect (modifierTurn one' keywords)) start := by
  refine Keeps.collect strides_modifierTurn (fun _ _ => rfl) fun start => .get ?_
  split
  · rename_i here
    exact (spends_skip (kind?_of_isKeyword here) (.quiet rfl)).after fun _ =>
      ((keeps_arguments scans).quiet rfl rfl).after fun _ => .pure rfl (List.nil_sublist _)
  · exact .pure rfl (List.nil_sublist _)

theorem skips_modifiers {keywords : List Text}
    : Skips (namesIn root mark) bound stack (modifiers one keywords) (modifiers one' keywords)
        start :=
  (skips_modifierTurns scans).after fun _ => .pure rfl (List.nil_sublist _)

theorem keeps_default
    : Keeps (namesIn root mark) bound (closing :: stack) exprNames [] (collect (defaultTurn one))
        (collect (defaultTurn one')) start := by
  refine Keeps.collect (strides_defaultTurn scans.moves) exprNames_append fun start => .get ?_
  split
  · exact .pure rfl (List.nil_sublist _)
  · exact .pure rfl (List.nil_sublist _)
  · exact .pure rfl (List.nil_sublist _)
  · exact scans.inside.bind fun _ => .pure rfl (List.Sublist.refl _)

omit scans in
theorem skips_paramName : Skips (namesIn root mark) bound stack paramName paramName start := by
  refine .get ?_
  cases next : start.token? 0 with
  | none => exact .pure rfl (List.nil_sublist _)
  | some token =>
      dsimp only
      split
      · rename_i kind
        have here : start.kind? 0 = some .variable := by
          rw [Cursor.kind?, next, Option.map_some, kind]
        exact (spends_skip here (.quiet rfl)).after fun _ => .pure rfl (List.nil_sublist _)
      · exact .pure rfl (List.nil_sublist _)

theorem keeps_param
    : Keeps (namesIn root mark) bound (closing :: stack)
        (fun param => Place.names (Place.ofParam param)) [] (param one) (param one') start :=
  (keeps_attributes scans).narrow.bind fun _ => (skips_modifiers scans).after fun _ =>
    keeps_typeHint?.bind fun _ => (skips_eat rfl).after fun _ => (skips_eat rfl).after fun _ =>
      skips_paramName.after fun _ => (keeps_default scans).bind fun _ =>
        .pure rfl (by simp [Place.ofParam])

theorem spends_paramTurns
    : Spends (namesIn root mark) bound (.rightParen :: stack) (fun _ => stack)
        (fun params => Place.names (Place.ofParams params)) [] (collect (paramTurn one))
        (collect (paramTurn one')) start := by
  refine Spends.collect (strides_paramTurn scans.moves) (fun left right => ?_) fun start => .get ?_
  · rw [Place.ofParams_append, Place.names_append]
  split
  · exact .fail nofun
  · rename_i here
    exact (spends_skip here (.pop rfl)).after fun _ => .pure rfl (List.nil_sublist _)
  · rename_i here
    exact (spends_skip here (.quiet rfl)).after fun _ => .pure rfl (List.nil_sublist _)
  · exact (keeps_param scans).bind fun _ =>
      .pure rfl (by simp [Turn.found, Place.ofParams])

theorem keeps_params
    : Keeps (namesIn root mark) bound stack (fun params => Place.names (Place.ofParams params)) []
        (params one) (params one') start :=
  (spends_expect (.push rfl)).after fun _ => spends_paramTurns scans

/-- A function ends with its body or with a semicolon. -/
theorem keeps_function {attributes : List Expr} (here : start.kind? 0 = some .name)
    (free : stack = [] → mark = .closeTag)
    : Keeps (namesIn root mark) bound stack
        (fun function => Place.names (Place.ofFunction function)) (exprNames attributes)
        (function one attributes) (function one' attributes) start := by
  refine (spends_skip here (.quiet rfl)).after fun _ => (skips_eat rfl).after fun _ =>
    skips_expectName.after fun _ => (keeps_params scans).bind fun _ =>
      keeps_returnType?.bind fun _ => .get ?_
  split
  · rename_i braced
    exact (keeps_group scans (eq_of_beq braced) rfl).narrow.bind fun _ =>
      .pure rfl (by simp [Place.ofFunction])
  · exact (spends_expect (.semicolon free)).after fun _ => .pure rfl (by simp [Place.ofFunction])

omit scans in
/-- The last turn through a parameter list passes its parenthesis. -/
theorem Turns.exists_closing {found : List (Param Expr)} {stop : Cursor}
    (turns : Turns (paramTurn one) start found stop)
    : ∃ closing, closing.kind = .rightParen ∧ closing :: stop.tokens <:+ start.tokens := by
  induction turns with
  | last ran =>
      obtain ⟨here, _, rfl⟩ := paramTurn_last ran
      obtain ⟨closing, kind, tokens⟩ := Cursor.tokens_of_kind? here
      exact ⟨closing, kind, tokens ▸ List.suffix_rfl⟩
  | more ran _ ih =>
      obtain ⟨passed, whole, _⟩ := (reaches_of_run ran).exists_tokens
      obtain ⟨closing, kind, later⟩ := ih
      exact ⟨closing, kind, later.trans (whole ▸ List.suffix_append _ _)⟩

omit scans in
/-- A parameter list ends with its parenthesis. -/
theorem exists_closing_of_params {found : List (Param Expr)} {stop : Cursor}
    (ran : (params one).run start = .ok (found, stop))
    : ∃ closing, closing.kind = .rightParen ∧ closing :: stop.tokens <:+ start.tokens := by
  obtain ⟨_, middle, opened, collected⟩ := bind_eq_ok.mp ran
  obtain ⟨passed, whole, _⟩ := (reaches_of_run opened).exists_tokens
  obtain ⟨closing, kind, later⟩ := (turns_of_collect collected).exists_closing
  exact ⟨closing, kind, later.trans (whole ▸ List.suffix_append _ _)⟩

/-- Variables in parentheses hold no class names. -/
theorem Turns.eq_nil_of_listsVariables {opening : Token} {found : List Expr} {stop : Cursor}
    (paren : opening.kind = .leftParen) (turns : Turns (groupTurn one opening) start found stop)
    (lists : listsVariables start.tokens = true)
    : found = [] := by
  induction turns with
  | last ran => exact (groupTurn_last ran).2.1
  | @more start middle stop found others ran _ ih =>
      have ran := get_bind_eq_ok.mp ran
      split at ran
      · exact absurd ran throw_ne_ok
      rename_i kind here
      split at ran
      · cases (skip_pure_eq_ok.mp ran).1
      rename_i other
      obtain ⟨token, rfl, tokens⟩ := Cursor.tokens_of_kind? here
      rw [paren] at other
      rw [tokens, listsVariables] at lists
      have captured : token.kind.isCapture = true := by
        by_contra outside
        rw [List.dropWhile_cons_of_neg (by exact outside)] at lists
        exact other (eq_of_beq lists)
      rw [List.dropWhile_cons_of_pos (by exact captured)] at lists
      obtain ⟨exprs, behind, scanned, done⟩ := bind_eq_ok.mp ran
      obtain ⟨rfl, rfl⟩ := scans.plain scanned here captured
      obtain ⟨same, rfl⟩ := pure_eq_ok.mp done
      injection same with same
      rw [← same, ih lists]
      rfl

/-- A closure that captures nothing but variables finds no class names there. -/
theorem eq_nil_of_captures {closing : Token} {found : List Expr} {stop : Cursor}
    (calm : capturesVariables root.tokens = true) (paren : closing.kind = .rightParen)
    (inside : closing :: start.tokens <:+ root.tokens)
    (ran : (captures one).run start = .ok (found, stop))
    : found = [] := by
  obtain ⟨announced, middle, ate, ran⟩ := bind_eq_ok.mp ran
  obtain ⟨rfl, rfl⟩ := eatKeyword_eq_ok.mp ate
  split at ran
  · rename_i use
    have ran := get_bind_eq_ok.mp ran
    split at ran
    · rename_i opened
      obtain ⟨keyword, here, isUse⟩ := (Option.any_eq_true _ _).mp use
      rw [List.any_cons, List.any_nil, Bool.or_false] at isUse
      have tokens := Cursor.tokens_of_token? here
      obtain ⟨opening, next, kind⟩ := Option.map_eq_some_iff.mp (eq_of_beq opened)
      have tokens' := Cursor.tokens_of_token? next
      have ran := get_bind_eq_ok.mp ran
      rw [next] at ran
      have turns := turns_of_collect (skip_bind_eq_ok.mp ran)
      have lists := capturesHere_of_suffix calm inside
      rw [tokens, tokens', capturesHere, paren, isUse, kind] at lists
      exact turns.eq_nil_of_listsVariables scans kind lists
    · exact (pure_eq_ok.mp ran).1.symm
  · exact (pure_eq_ok.mp ran).1.symm

theorem keeps_captures
    : Keeps (namesIn root mark) bound stack exprNames [] (captures one) (captures one') start := by
  refine skips_eatKeyword.after fun {announced _} _ => ?_
  cases announced with
  | true => exact keeps_arguments scans
  | false => exact .pure rfl (List.nil_sublist _)

theorem keeps_closureBlock {arrow : Bool}
    : Keeps (namesIn root mark) bound stack exprNames [] (closureBlock one arrow)
        (closureBlock one' arrow) start := by
  unfold closureBlock
  cases arrow with
  | true => exact .get (.pure rfl (List.nil_sublist _))
  | false =>
      refine .get ?_
      split
      · rename_i here
        have braced : start.isAt .leftBrace = true := by simpa using here
        exact (keeps_group scans (eq_of_beq braced) rfl).narrow
      · exact .pure rfl (List.nil_sublist _)

/-- What a closure captures stands before its return type, and in the tree behind it. -/
theorem keeps_closure (here : start.kind? 0 = some .name)
    : Keeps (namesIn root mark) (bound + 1) stack
        (fun function => Place.names (Place.ofFunction function)) [] (closure one) (closure one')
        start := by
  refine .get <| .behind here (.quiet rfl) <| (skips_eat rfl).after fun _ =>
    skips_name?.after fun _ reached => ?_
  refine Spends.bind (keeps_params scans) (fun {params middle} listed => ?_) reached
  obtain ⟨closing, paren, later⟩ := exists_closing_of_params listed
  obtain ⟨passed, whole, _⟩ := reached.exists_tokens
  have inside := later.trans (whole ▸ List.suffix_append _ _)
  refine (keeps_captures scans).bind fun {captured _} took => keeps_returnType?.bind fun
    {returnType? _} _ => (keeps_closureBlock scans).bind fun {block last} _ _ _ => ?_
  refine ⟨settles_pure, fun found stop ran => ?_⟩
  obtain ⟨rfl, rfl⟩ := pure_eq_ok.mp ran
  refine ⟨[], rfl, .nil, ?_, fun calm => ?_⟩
  · simp only [Place.ofFunction, Place.names_append, names_ofExprs, exprNames_append,
      Place.names_ofType?, exprNames_nil, List.nil_append, List.filterMap_nil, List.append_nil,
      List.append_assoc]
    exact ((List.perm_append_comm_assoc _ _ _).append_left _).subperm
  · obtain rfl := eq_nil_of_captures scans calm paren inside took
    simp [Place.ofFunction, Place.ofExprs]

end Scan

end Parser

end ImportHeader
