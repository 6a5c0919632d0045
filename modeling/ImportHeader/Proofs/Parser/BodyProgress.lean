import ImportHeader.Proofs.Parser.Progress

/-! Progress in bodies, function by function, and from there in statements. Each lemma takes the scan
of one token or bracket group as a step that moves behind the token it starts at.
-/

namespace ImportHeader

namespace Parser

variable {start stop : Cursor}

section Scan

variable {one : Parser (List Expr)}

theorem moves_group : Moves (group one) := by
  intro start stop found here ran
  obtain ⟨opening, next⟩ := Cursor.exists_token here
  rw [group, get_bind_eq_ok] at ran
  simp only [next] at ran
  exact passes_of_skip here ran

theorem strides_attributesTurn : Strides (attributesTurn one) := by
  intro start stop found ran
  obtain ⟨eaten, middle, ate, ran⟩ := bind_eq_ok.mp ran
  cases eaten with
  | false => simp at ran
  | true => exact (passes_of_eat ate).reaches (reaches_of_run ran)

/-- Attributes that start here are passed. -/
theorem passes_of_attributes {found : List Expr} (here : start.isAt .attributeOpen = true)
    (ran : (attributes one).run start = .ok (found, stop))
    : start.Passes stop := by
  cases turns_of_collect ran with
  | last turned =>
      obtain ⟨eaten, middle, ate, turned⟩ := bind_eq_ok.mp turned
      obtain ⟨rfl, rfl⟩ := eat_eq_ok.mp ate
      simp only [here, if_true] at turned
      obtain ⟨_, _, _, turned⟩ := bind_eq_ok.mp turned
      simp at turned
  | more turned rest => exact (strides_attributesTurn turned).reaches rest.reaches

theorem strides_modifierTurn {keywords : List Text} : Strides (modifierTurn one keywords) := by
  intro start stop found ran
  rw [modifierTurn, get_bind_eq_ok] at ran
  split at ran
  · rename_i here
    exact passes_of_skip (Cursor.ahead_ne_nil_of_isKeyword here) ran
  · simp at ran

theorem strides_classModifierTurn : Strides classModifierTurn := by
  intro start stop found ran
  rw [classModifierTurn, get_bind_eq_ok] at ran
  split at ran
  · rename_i here
    exact passes_of_skip (Cursor.ahead_ne_nil_of_isKeyword here) ran
  · simp at ran

/-- A named class declaration is passed, from its keyword on. -/
theorem passes_of_namedClass {attributes : List Expr} {found : ClassLike Expr}
    (ran : (namedClass one attributes).run start = .ok (found, stop))
    : start.Passes stop :=
  passes_of_second (fun _ ran => passes_of_first passes_of_expect ran) ran

theorem passes_of_nameInBody {found : List Expr} (here : start.kind? 0 = some .name)
    (ran : (nameInBody one).run start = .ok (found, stop))
    : start.Passes stop := by
  have next := Cursor.ahead_ne_nil_of_kind? here
  rw [nameInBody, get_bind_eq_ok] at ran
  split at ran
  · exact passes_of_skip next ran
  split at ran
  · exact passes_of_skip next ran
  split at ran
  · exact passes_of_skip next ran
  split at ran
  · refine passes_of_first (fun ran => ?_) ran
    rw [closure, get_bind_eq_ok] at ran
    exact passes_of_skip next ran
  split at ran
  · exact passes_of_first passes_of_namedClass ran
  · exact passes_of_first (passes_of_name? here) ran

/-- One token or bracket group is passed. -/
theorem moves_element : Moves (element one) := by
  intro start stop found here ran
  rw [element, get_bind_eq_ok] at ran
  cases next : start.token? 0 with
  | none =>
      obtain ⟨lexeme, rest, cut⟩ := List.exists_cons_of_ne_nil here
      simp [Cursor.token?, cut] at next
  | some token =>
      simp only [next] at ran
      have kind : start.kind? 0 = some token.kind := by rw [Cursor.kind?, next]; rfl
      split at ran
      · exact moves_group here ran
      · exact moves_group here ran
      · exact moves_group here ran
      · simp at ran
      · simp at ran
      · simp at ran
      · rename_i isOpen
        exact passes_of_attributes (beq_iff_eq.mpr (isOpen ▸ kind)) ran
      · exact passes_of_skip here ran
      · exact passes_of_skip here ran
      · rename_i isName
        exact passes_of_nameInBody (isName ▸ kind) ran
      · exact passes_of_skip here ran

variable (moves : Moves one)

include moves

theorem strides_groupTurn {opening : Token} : Strides (groupTurn one opening) := by
  intro start stop found ran
  rw [groupTurn, get_bind_eq_ok] at ran
  split at ran
  · simp at ran
  · rename_i kind next
    split at ran
    · rw [skip_bind_eq_ok] at ran
      simp at ran
    · exact passes_of_first (moves (Cursor.ahead_ne_nil_of_kind? next)) ran

theorem strides_attributeTurn : Strides (attributeTurn one) := by
  intro start stop found ran
  rw [attributeTurn, get_bind_eq_ok] at ran
  split at ran
  · simp at ran
  · rw [skip_bind_eq_ok] at ran
    simp at ran
  · rename_i next
    exact passes_of_skip (Cursor.ahead_ne_nil_of_kind? next) ran
  · exact passes_of_first passes_of_expectName ran
  · rename_i next
    exact passes_of_first (moves (Cursor.ahead_ne_nil_of_kind? next)) ran

theorem strides_defaultTurn : Strides (defaultTurn one) := by
  intro start stop found ran
  rw [defaultTurn, get_bind_eq_ok] at ran
  split at ran
  · simp at ran
  · simp at ran
  · simp at ran
  · rename_i next
    exact passes_of_first (moves (Cursor.ahead_ne_nil_of_kind? next)) ran

/-- A default value is passed, from a token that can start one. -/
theorem passes_of_default {kind : TokenKind} {found : List Expr}
    (next : start.kind? 0 = some kind) (other : kind ≠ .comma ∧ kind ≠ .rightParen)
    (ran : (collect (defaultTurn one)).run start = .ok (found, stop))
    : start.Passes stop := by
  cases turns_of_collect ran with
  | last turned =>
      rw [defaultTurn, get_bind_eq_ok] at turned
      split at turned
      · simp_all
      · simp_all
      · simp_all
      · obtain ⟨_, _, _, turned⟩ := bind_eq_ok.mp turned
        simp at turned
  | more turned rest => exact (strides_defaultTurn moves turned).reaches rest.reaches

/-- A parameter is passed: what stands before its default value can be absent, but then the
default value starts here.
-/
theorem passes_of_param {kind : TokenKind} {found : Param Expr}
    (next : start.kind? 0 = some kind) (other : kind ≠ .comma ∧ kind ≠ .rightParen)
    (ran : (param one).run start = .ok (found, stop))
    : start.Passes stop := by
  obtain ⟨_, first, before, ran⟩ := bind_eq_ok.mp ran
  obtain ⟨_, second, modified, ran⟩ := bind_eq_ok.mp ran
  obtain ⟨_, third, typed, ran⟩ := bind_eq_ok.mp ran
  obtain ⟨_, fourth, referenced, ran⟩ := bind_eq_ok.mp ran
  obtain ⟨_, fifth, spread, ran⟩ := bind_eq_ok.mp ran
  obtain ⟨_, sixth, named, ran⟩ := bind_eq_ok.mp ran
  have reached : start.Reaches sixth :=
    (reaches_of_run before).trans ((reaches_of_run modified).trans ((reaches_of_run typed).trans
      ((reaches_of_run referenced).trans ((reaches_of_run spread).trans
        (reaches_of_run named)))))
  rcases reached.passes_or with passed | same
  · exact passed.reaches (reaches_of_run ran)
  · rw [← Cursor.kind?_congr same] at next
    exact reached.passes (passes_of_first (passes_of_default moves next other) ran)

theorem strides_paramTurn : Strides (paramTurn one) := by
  intro start stop found ran
  rw [paramTurn, get_bind_eq_ok] at ran
  split at ran
  · simp at ran
  · rw [skip_bind_eq_ok] at ran
    simp at ran
  · rename_i next
    exact passes_of_skip (Cursor.ahead_ne_nil_of_kind? next) ran
  · rename_i kind notParen notComma next
    exact passes_of_first (passes_of_param moves next ⟨notComma, notParen⟩) ran

theorem strides_memberTailTurn : Strides (memberTailTurn one) := by
  intro start stop found ran
  rw [memberTailTurn, get_bind_eq_ok] at ran
  split at ran
  · simp at ran
  · rw [skip_bind_eq_ok] at ran
    simp at ran
  · simp at ran
  · obtain ⟨_, _, _, ran⟩ := bind_eq_ok.mp ran
    simp at ran
  · rename_i next
    exact passes_of_first (moves (Cursor.ahead_ne_nil_of_kind? next)) ran

/-- The rest of a member is passed, from a token other than a closing brace. -/
theorem passes_of_memberTail {kind : TokenKind} {found : List Expr}
    (next : start.kind? 0 = some kind) (other : kind ≠ .rightBrace)
    (ran : (memberTail one).run start = .ok (found, stop))
    : start.Passes stop := by
  have here := Cursor.ahead_ne_nil_of_kind? next
  cases turns_of_collect ran with
  | last turned =>
      rw [memberTailTurn, get_bind_eq_ok] at turned
      split at turned
      · simp at turned
      · exact passes_of_skip here turned
      · simp_all
      · exact passes_of_first (moves_group here) turned
      · obtain ⟨_, _, _, turned⟩ := bind_eq_ok.mp turned
        simp at turned
  | more turned rest => exact (strides_memberTailTurn moves turned).reaches rest.reaches

/-- A member is passed: its modifiers and its type can be absent, but then the rest of it
starts here.
-/
theorem passes_of_member {kind : TokenKind} {attributes : List Expr} {found : Member Expr}
    (next : start.kind? 0 = some kind) (other : kind ≠ .rightBrace)
    (ran : (member one attributes).run start = .ok (found, stop))
    : start.Passes stop := by
  obtain ⟨_, middle, modified, ran⟩ := bind_eq_ok.mp ran
  rcases (reaches_of_run modified).passes_or with passed | same
  · exact passed.reaches (reaches_of_run ran)
  refine (reaches_of_run modified).passes ?_
  rw [← Cursor.kind?_congr same] at next
  rw [get_bind_eq_ok] at ran
  split at ran
  · exact passes_of_first (fun ran => passes_of_skip (Cursor.ahead_ne_nil_of_kind? next) ran) ran
  split at ran
  · exact passes_of_first (passes_of_memberTail moves next other) ran
  · obtain ⟨_, last, typed, ran⟩ := bind_eq_ok.mp ran
    rcases (reaches_of_run typed).passes_or with passed | same
    · exact passed.reaches (reaches_of_run ran)
    · rw [← Cursor.kind?_congr same] at next
      exact (reaches_of_run typed).passes
        (passes_of_first (passes_of_memberTail moves next other) ran)

theorem strides_memberTurn : Strides (memberTurn one) := by
  intro start stop found ran
  obtain ⟨_, middle, before, ran⟩ := bind_eq_ok.mp ran
  refine (reaches_of_run before).passes ?_
  rw [get_bind_eq_ok] at ran
  split at ran
  · simp at ran
  · rw [skip_bind_eq_ok] at ran
    simp at ran
  · rename_i next
    exact passes_of_skip (Cursor.ahead_ne_nil_of_kind? next) ran
  · rename_i kind notBrace notSemicolon next
    obtain ⟨eaten, last, ate, later⟩ := bind_eq_ok.mp ran
    cases eaten with
    | true => exact (passes_of_eatKeyword ate).reaches (reaches_of_run later)
    | false =>
        obtain ⟨missed, same⟩ := eatKeyword_eq_ok.mp ate
        rw [← missed] at same
        subst same
        exact passes_of_first (passes_of_member moves next notBrace) later

theorem strides_catchTurn : Strides (catchTurn one) := by
  intro start stop found ran
  rw [catchTurn, get_bind_eq_ok] at ran
  split at ran
  · simp at ran
  · rw [skip_bind_eq_ok] at ran
    simp at ran
  · rename_i next
    exact passes_of_first (passes_of_name? next) ran
  · rename_i next
    exact passes_of_first (moves (Cursor.ahead_ne_nil_of_kind? next)) ran

theorem strides_statementTurn {control loops bare : Bool}
    : Strides (statementTurn one control loops bare) := by
  intro start stop found ran
  rw [statementTurn, get_bind_eq_ok] at ran
  split at ran
  · simp at ran
  · simp at ran
  · simp at ran
  · rw [skip_bind_eq_ok] at ran
    simp at ran
  · rename_i next
    exact passes_of_first (moves_group (Cursor.ahead_ne_nil_of_kind? next)) ran
  · rename_i next
    exact passes_of_first (moves (Cursor.ahead_ne_nil_of_kind? next)) ran

/-- A statement is passed, from a token other than a closing brace. -/
theorem passes_of_statement {kind : TokenKind} {found : List Expr}
    (next : start.kind? 0 = some kind) (other : kind ≠ .rightBrace)
    (ran : (statement one).run start = .ok (found, stop))
    : start.Passes stop := by
  have here := Cursor.ahead_ne_nil_of_kind? next
  obtain ⟨eaten, middle, ate, later⟩ := bind_eq_ok.mp ran
  cases eaten with
  | true => exact (passes_of_eat ate).reaches (reaches_of_run later)
  | false =>
      obtain ⟨missed, same⟩ := eat_eq_ok.mp ate
      rw [← missed] at same
      subst same
      simp only [Bool.false_eq_true, if_false] at later
      rw [get_bind_eq_ok] at later
      cases turns_of_collect later with
      | last turned =>
          rw [statementTurn, get_bind_eq_ok] at turned
          split at turned
          · simp_all
          · simp_all [Cursor.isAt]
          · simp_all
          · exact passes_of_skip here turned
          · exact passes_of_first (moves_group here) turned
          · obtain ⟨_, _, _, turned⟩ := bind_eq_ok.mp turned
            simp at turned
      | more turned rest => exact (strides_statementTurn moves turned).reaches rest.reaches

end Scan

theorem moves_scanWithin : (budget : List Lexeme) → Moves (scanWithin budget)
  | [] => moves_element
  | _ :: _ => moves_element

theorem moves_scan : Moves scan := by
  intro start stop found here ran
  rw [scan, get_bind_eq_ok] at ran
  exact moves_scanWithin _ here ran

-----------------------------------------------------------------------------------------
-- Statements
-----------------------------------------------------------------------------------------

theorem passes_of_stmtKind {kind : TokenKind} {found : StmtKind}
    (next : start.kind? 0 = some kind) (other : kind ≠ .rightBrace)
    (ran : stmtKind.run start = .ok (found, stop))
    : start.Passes stop := by
  rw [stmtKind, get_bind_eq_ok] at ran
  split at ran
  · exact passes_of_first
      (fun ran => passes_of_skip (Cursor.ahead_ne_nil_of_kind? next) ran) ran
  split at ran
  · exact passes_of_first (passes_of_statement moves_scan next other) ran
  · obtain ⟨_, middle, before, ran⟩ := bind_eq_ok.mp ran
    rcases (reaches_of_run before).passes_or with passed | same
    · exact passed.reaches (reaches_of_run ran)
    refine (reaches_of_run before).passes ?_
    rw [← Cursor.kind?_congr same] at next
    rw [get_bind_eq_ok] at ran
    split at ran
    · exact passes_of_first passes_of_namedClass ran
    split at ran
    · exact passes_of_first
        (fun ran => passes_of_skip (Cursor.ahead_ne_nil_of_kind? next) ran) ran
    · exact passes_of_first (passes_of_statement moves_scan next other) ran

/-- A statement with its comments is passed, from a token other than a closing brace. -/
theorem passes_of_stmt {kind : TokenKind} {found : Stmt} (next : start.kind? 0 = some kind)
    (other : kind ≠ .rightBrace) (ran : stmt.run start = .ok (found, stop))
    : start.Passes stop := by
  rw [stmt, get_bind_eq_ok] at ran
  exact passes_of_first (passes_of_stmtKind next other) ran

theorem strides_namespaceTurn {braced : Bool} : Strides (namespaceTurn braced) := by
  intro start stop found ran
  rw [namespaceTurn, get_bind_eq_ok] at ran
  cases next : start.token? 0 with
  | none =>
      simp only [next] at ran
      split at ran
      · simp at ran
      · simp at ran
  | some token =>
      simp only [next] at ran
      have kind : start.kind? 0 = some token.kind := by rw [Cursor.kind?, next]; rfl
      split at ran
      · split at ran
        · simp at ran
        · simp at ran
      · rename_i other
        split at ran
        · split at ran
          · simp at ran
          · simp at ran
        · exact passes_of_first (passes_of_stmt kind other) ran

theorem strides_itemTurn : Strides itemTurn := by
  intro start stop found ran
  rw [itemTurn, get_bind_eq_ok] at ran
  cases next : start.token? 0 with
  | none =>
      simp only [next] at ran
      simp at ran
  | some token =>
      simp only [next] at ran
      have kind : start.kind? 0 = some token.kind := by rw [Cursor.kind?, next]; rfl
      split at ran
      · simp at ran
      · rename_i other
        split at ran
        · refine passes_of_first (fun ran => ?_) ran
          rw [namespaceScope, get_bind_eq_ok] at ran
          exact passes_of_first passes_of_expect ran
        · exact passes_of_first (passes_of_stmt kind other) ran

end Parser

end ImportHeader
