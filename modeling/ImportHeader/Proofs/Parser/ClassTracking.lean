import ImportHeader.Proofs.Parser.BodyTracking

/-! Classes follow themselves, and so do the names, elements and statements of a body in which they
are nested. The scan follows itself by induction over its budget.
-/

namespace ImportHeader

namespace Parser

variable {bound : Nat}

section Scan

variable {one one' : Parser (List Expr)}
  (moves : Moves one) (scans : Tracks bound exprFacts one one')

include moves scans

-----------------------------------------------------------------------------------------
-- Classes
-----------------------------------------------------------------------------------------

theorem tracks_memberTailTurn
    : Tracks bound (Turn.shown exprOnly) (memberTailTurn one) (memberTailTurn one') := by
  refine .get fun within near => ?_
  rw [near.kind?_eq]
  split
  · exact Tracks.fail within near
  · exact Tracks.skip.bind (fun _ => .pure rfl) within near
  · exact Tracks.pure rfl within near
  · rename_i here
    have group := tracks_group moves scans (Nat.lt_succ_of_lt within)
      (Cursor.ahead_ne_nil_of_kind? here) near
    exact Follows.bind near group fun _ _ _ same near' =>
      Tracks.pure (by rw [Turn.shown_last, Turn.shown_last, same])
        (Nat.lt_of_le_of_lt (Nat.sub_le _ _) within) near'
  · exact scans.more within near

theorem tracks_memberTail : Tracks bound exprFacts (memberTail one) (memberTail one') :=
  .collect_exprs (strides_memberTailTurn moves) (tracks_memberTailTurn moves scans)

theorem tracks_traitUse : Tracks bound Member.facts (traitUse one) (traitUse one') := by
  refine tracks_nameList.bind fun named => ?_
  rw [flatMap_nameOnly, flatMap_nameOnly] at named
  refine .get fun within near => ?_
  rw [near.isAt_eq]
  split
  · rename_i here
    have group := tracks_group moves scans (Nat.lt_succ_of_lt within)
      (Cursor.ahead_ne_nil_of_isAt here) near
    refine Follows.bind near group fun _ _ _ same near' =>
      Tracks.pure ?_ (Nat.lt_of_le_of_lt (Nat.sub_le _ _) within) near'
    rw [Member.facts_traitUse, Member.facts_traitUse, named, same]
  · refine Tracks.expect.bind (fun _ => .pure ?_) within near
    rw [Member.facts_traitUse, Member.facts_traitUse, named]

theorem tracks_member {attributes attributes' : List Expr}
    (attributed : exprFacts attributes' = exprFacts attributes)
    : Tracks bound Member.facts (member one attributes) (member one' attributes') := by
  refine (tracks_modifiers moves scans).bind fun _ => .get fun within near => ?_
  rw [near.atKeyword_eq, near.isKeyword_eq]
  split
  · refine (tracks_function moves scans attributed).bind (fun same => .pure ?_) within near
    rw [Member.facts_method, Member.facts_method, same]
  split
  · refine (tracks_memberTail moves scans).bind (fun same => .pure ?_) within near
    rw [Member.facts_other, Member.facts_other, exprFacts_append, exprFacts_append, attributed,
      same]
  · refine tracks_typeHint?.bind (fun typed => ?_) within near
    refine (tracks_memberTail moves scans).bind fun same => .pure ?_
    rw [Member.facts_property, Member.facts_property, attributed,
      hintFacts_congr .property typed, same]

theorem tracks_memberTurn
    : Tracks bound (Turn.shown Member.facts) (memberTurn one) (memberTurn one') := by
  refine ((tracks_attributes moves scans).mono (Nat.le_succ _)).bind fun attributed => ?_
  refine .get fun within near => ?_
  rw [near.kind?_eq]
  split
  · exact Tracks.fail within near
  · exact Tracks.skip.bind (fun _ => .pure rfl) within near
  · exact Tracks.skip.bind (fun _ => .pure rfl) within near
  · refine tracks_eatKeyword.bind (fun {used used'} same => ?_) within near
    obtain rfl : used' = used := same
    split
    · exact (tracks_traitUse moves scans).bind fun same => .pure (by simp [Turn.shown, same])
    · exact (tracks_member moves scans attributed).bind
        fun same => .pure (by simp [Turn.shown, same])

omit moves scans in
theorem tracks_backingType {kind : ClassKind}
    : Tracks bound (fun _ => ()) (backingType kind) (backingType kind) := by
  unfold backingType
  split
  · refine tracks_eat.bind fun {announced announced'} same => ?_
    obtain rfl : announced' = announced := same
    split
    · exact tracks_name?.bind fun _ => .pure rfl
    · exact .pure rfl
  · exact .pure rfl

omit moves scans in
theorem tracks_namesAfter {keyword : Text}
    : Tracks bound (List.map LocatedName.name) (namesAfter keyword) (namesAfter keyword) := by
  refine tracks_eatKeyword.bind fun {here here'} same => ?_
  obtain rfl : here' = here := same
  split
  · rw [← show List.flatMap nameOnly = List.map LocatedName.name from funext flatMap_nameOnly]
    exact tracks_nameList
  · exact .pure rfl

theorem tracks_classTail {kind : ClassKind} {name? : Option Text}
    {attributes attributes' arguments arguments' : List Expr}
    (attributed : exprFacts attributes' = exprFacts attributes)
    (given : exprFacts arguments' = exprFacts arguments)
    : Tracks bound ClassLike.facts (classTail one kind name? attributes arguments)
        (classTail one' kind name? attributes' arguments') := by
  refine tracks_backingType.bind fun _ => tracks_namesAfter.bind fun extending => ?_
  refine tracks_namesAfter.bind fun implementing => Tracks.expect.bind fun _ => ?_
  refine (Tracks.collect (strides_memberTurn moves) (tracks_memberTurn moves scans)).bind
    fun listed => .pure ?_
  simp only [ClassLike.facts_eq]
  rw [extending, implementing, attributed, given, listed]

omit moves scans in
theorem tracks_classModifierTurn
    : Tracks bound (Turn.shown fun _ => ([] : List Unit)) classModifierTurn classModifierTurn := by
  refine .get fun within near => ?_
  rw [near.isKeyword_eq]
  split
  · exact Tracks.skip.bind (fun _ => .pure rfl) within near
  · exact Tracks.pure rfl within near

theorem tracks_namedClass {attributes attributes' : List Expr}
    (attributed : exprFacts attributes' = exprFacts attributes)
    : Tracks (bound + 1) ClassLike.facts (namedClass one attributes)
        (namedClass one' attributes') := by
  refine (Tracks.collect strides_classModifierTurn tracks_classModifierTurn).bind fun _ => ?_
  refine .expect_bind fun {keyword keyword'} kind text => tracks_expectName.bind fun named => ?_
  have declared : classKind keyword' = classKind keyword := by
    simp only [classKind, Token.isKeyword_eq_of_text kind text]
  rw [declared, named]
  exact tracks_classTail moves scans attributed rfl

theorem tracks_anonymousClass {attributes attributes' : List Expr}
    (attributed : exprFacts attributes' = exprFacts attributes)
    : Tracks bound ClassLike.facts (anonymousClass one attributes)
        (anonymousClass one' attributes') := by
  refine Tracks.skip.bind fun _ => ?_
  refine ((tracks_arguments moves scans).mono (Nat.le_succ _)).bind fun given => ?_
  exact tracks_classTail moves scans attributed given

-----------------------------------------------------------------------------------------
-- Names in bodies, elements and statements
-----------------------------------------------------------------------------------------

omit moves scans in
theorem tracks_anonymousModifier
    : Tracks bound (fun _ => ()) anonymousModifier anonymousModifier := by
  refine .get fun within near => ?_
  rw [near.readonlyClass_eq]
  split
  · exact Tracks.skip within near
  · exact Tracks.pure rfl within near

theorem tracks_created {attributes attributes' : List Expr}
    (attributed : exprFacts attributes' = exprFacts attributes)
    : Tracks bound exprFacts (created one attributes) (created one' attributes') := by
  refine .get fun within near => ?_
  rw [near.atKeyword_eq]
  split
  · refine (tracks_anonymousClass moves scans attributed).bind (fun same => .pure ?_) within near
    rw [exprFacts_classLike, exprFacts_classLike, same]
  · refine tracks_name?.bind (fun {found found'} same => ?_) within near
    cases found with
    | none =>
        cases found' with
        | none => exact .pure attributed
        | some target' => cases same
    | some target =>
        cases found' with
        | none => cases same
        | some target' =>
            have named : target'.name = target.name := Option.some.inj same
            refine ((tracks_arguments moves scans).mono (Nat.le_succ _)).bind
              fun given => .pure ?_
            rw [exprFacts_append, exprFacts_append, exprFacts_new, exprFacts_new, attributed,
              named, given]

theorem tracks_creation : TracksAhead (bound + 1) exprFacts (creation one) (creation one') := by
  refine .skip_bind ?_
  refine ((tracks_attributes moves scans).mono (Nat.le_succ _)).bind fun attributed => ?_
  exact tracks_anonymousModifier.bind fun _ => tracks_created moves scans attributed

omit moves in
theorem tracks_catchTurn
    : Tracks bound (Turn.shown nameOnly) (catchTurn one) (catchTurn one') := by
  refine .get fun within near => ?_
  rw [near.kind?_eq]
  split
  · exact Tracks.fail within near
  · exact Tracks.skip.bind (fun _ => .pure rfl) within near
  · refine tracks_name?.bind (fun {found found'} same => .pure ?_) within near
    cases found with
    | none =>
        cases found' with
        | none => rfl
        | some name' => cases same
    | some name =>
        cases found' with
        | none => cases same
        | some name' => simpa [Turn.shown, nameOnly] using same
  · exact scans.bind (fun _ => .pure rfl) within near

theorem tracks_catchClause
    : TracksAhead (bound + 1) exprFacts (catchClause one) (catchClause one') := by
  refine .skip_bind (Tracks.expect.bind fun _ => ?_)
  refine (Tracks.collect (strides_catchTurn moves) (tracks_catchTurn scans)).bind
    fun named => .pure ?_
  rw [flatMap_nameOnly, flatMap_nameOnly] at named
  rw [exprFacts_catches, exprFacts_catches, named]

omit moves scans in
theorem tracks_memberName : Tracks bound (fun _ => ()) memberName memberName := by
  refine .get fun within near => ?_
  rw [near.kind?_eq]
  dsimp only
  split
  · exact Tracks.skip within near
  · exact Tracks.pure rfl within near

omit moves scans in
theorem tracks_plainName : Tracks bound exprFacts plainName plainName := by
  refine tracks_name?.bind fun {found found'} same => ?_
  cases found with
  | none =>
      cases found' with
      | none => exact .pure rfl
      | some target' => cases same
  | some target =>
      cases found' with
      | none => cases same
      | some target' =>
          have named : target'.name = target.name := Option.some.inj same
          refine tracks_eat.bind fun {accessed accessed'} same => ?_
          obtain rfl : accessed' = accessed := same
          split
          · refine tracks_memberName.bind fun _ => .pure ?_
            rw [exprFacts_staticAccess, exprFacts_staticAccess, named]
          · rw [named]
            split
            · refine .pure ?_
              rw [exprFacts_qualifiedUse, exprFacts_qualifiedUse, named]
            · exact .pure rfl

theorem tracks_nameInBody
    : TracksAhead (bound + 1) exprFacts (nameInBody one) (nameInBody one') := by
  refine .get fun within here near => ?_
  rw [near.atKeyword_eq, near.atKeyword_eq, near.atKeyword_and_kind?_eq (by decide),
    near.atClosure_eq, near.atClass_eq]
  split
  · exact tracks_creation moves scans within here near
  split
  · refine Tracks.skip.bind (fun _ => tracks_name?.bind fun {found found'} same => ?_) within near
    refine .pure ?_
    cases found with
    | none =>
        cases found' with
        | none => rfl
        | some target' => cases same
    | some target =>
        cases found' with
        | none => cases same
        | some target' =>
            have named : target'.name = target.name := Option.some.inj same
            simp only [Option.toList_some, List.map_cons, List.map_nil]
            rw [exprFacts_instanceOf, exprFacts_instanceOf, named]
  split
  · exact tracks_catchClause moves scans within here near
  split
  · refine TracksAhead.bind (tracks_closure moves scans) (fun same => .pure ?_) within here near
    rw [exprFacts_closure, exprFacts_closure, same]
  split
  · refine (tracks_namedClass moves scans rfl).bind (fun same => .pure ?_) within near
    rw [exprFacts_classLike, exprFacts_classLike, same]
  · exact tracks_plainName within near

/-- One token or bracket group is scanned at one level more than what is inside it. -/
theorem tracks_element : Tracks (bound + 1) exprFacts (element one) (element one') := by
  refine .get fun within near => ?_
  obtain ⟨next, next'⟩ | ⟨token, token', next, next', kind⟩ := near.token?_cases
  · rw [next, next']
    exact Tracks.pure rfl within near
  · have here := Cursor.ahead_ne_nil_of_token? next
    rw [next, next']
    dsimp only
    rw [kind]
    split
    · exact tracks_group moves scans within here near
    · exact tracks_group moves scans within here near
    · exact tracks_group moves scans within here near
    · exact Tracks.fail within near
    · exact Tracks.fail within near
    · exact Tracks.fail within near
    · exact tracks_attributes moves scans within near
    · exact Tracks.skip.bind (fun _ => tracks_eat.bind fun _ => .pure rfl) within near
    · exact Tracks.skip.bind (fun _ => tracks_eat.bind fun _ => .pure rfl) within near
    · exact tracks_nameInBody moves scans within here near
    · exact Tracks.skip.bind (fun _ => .pure rfl) within near

theorem tracks_statementTurn {control loops bare : Bool}
    : Tracks bound (Turn.shown exprOnly) (statementTurn one control loops bare)
        (statementTurn one' control loops bare) := by
  refine .get fun within near => ?_
  rw [near.kind?_eq]
  split
  · exact Tracks.pure rfl within near
  · exact Tracks.pure rfl within near
  · exact Tracks.pure rfl within near
  · exact Tracks.skip.bind (fun _ => .pure rfl) within near
  · rename_i here
    have group := tracks_group moves scans (Nat.lt_succ_of_lt within)
      (Cursor.ahead_ne_nil_of_kind? here) near
    refine Follows.bind near group fun _ _ _ same near' => ?_
    refine Tracks.get (fun within near => ?_) (Nat.lt_of_le_of_lt (Nat.sub_le _ _) within) near'
    rw [near.isKeyword_eq, near.atKeyword_eq]
    dsimp only
    split
    · exact Tracks.pure (by rw [Turn.shown_last, Turn.shown_last, same]) within near
    · exact Tracks.pure (by rw [Turn.shown_more, Turn.shown_more, same]) within near
  · exact scans.more within near

theorem tracks_statement : Tracks bound exprFacts (statement one) (statement one') := by
  refine tracks_eat.bind fun {closed closed'} same => ?_
  obtain rfl : closed' = closed := same
  split
  · exact tracks_eat.bind fun _ => .pure rfl
  · refine .get fun within near => ?_
    rw [near.isKeyword_eq, near.atKeyword_eq, near.isAt_eq]
    exact Tracks.collect_exprs (strides_statementTurn moves) (tracks_statementTurn moves scans)
      within near

end Scan

/-- The scan follows itself while the alike tokens are within its budget, by induction over
the budget.
-/
theorem tracks_scanWithin (budget budget' : List Lexeme)
    : Tracks (budget'.length + 1) exprFacts (scanWithin budget) (scanWithin budget') := by
  induction budget' generalizing budget with
  | nil =>
      cases budget with
      | nil => exact tracks_element nofun nofun
      | cons lexeme budget => exact tracks_element (moves_scanWithin budget) nofun
  | cons lexeme' budget' ih =>
      cases budget with
      | nil => exact tracks_element nofun .fail
      | cons lexeme budget => exact tracks_element (moves_scanWithin budget) (ih budget)

theorem tracks_scan : Tracks bound exprFacts scan scan :=
  .get fun _ near => tracks_scanWithin _ _ (Nat.lt_succ_of_le near.length_le_right) near

end Parser

end ImportHeader
