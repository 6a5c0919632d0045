import ImportHeader.Proofs.Parser.BodyProgress
import ImportHeader.Proofs.Parser.Tracking
import ImportHeader.Proofs.Tree.Facts

/-! The scan of bodies follows itself: before alike tokens it finds the same facts about class
names. There is one lemma for each step of the scan, and each takes the scan of one token or
bracket group as it stands in the two runs.
-/

namespace ImportHeader

namespace Parser

variable {bound : Nat}

-----------------------------------------------------------------------------------------
-- Names and types
-----------------------------------------------------------------------------------------

/-- What counts of a name that was read. -/
def nameOnly (located : LocatedName) : List Name :=
  [located.name]

theorem flatMap_nameOnly (names : List LocatedName)
    : names.flatMap nameOnly = names.map LocatedName.name :=
  List.map_eq_flatMap.symm

theorem tracks_nameListTurn
    : Tracks bound (Turn.shown nameOnly) nameListTurn nameListTurn := by
  refine tracks_expectName.bind fun named => tracks_eat.bind fun {eaten eaten'} same => ?_
  obtain rfl : eaten' = eaten := same
  split
  · exact .pure (by simp [Turn.shown, nameOnly, named])
  · exact .pure (by simp [Turn.shown, nameOnly, named])

theorem tracks_nameList : Tracks bound (List.flatMap nameOnly) nameList nameList :=
  .collect strides_nameListTurn tracks_nameListTurn

theorem tracks_typeName : Tracks bound (List.flatMap nameOnly) typeName typeName := by
  refine tracks_name?.bind fun {found found'} same => ?_
  cases found with
  | none =>
      cases found' with
      | none => exact .pure rfl
      | some name' => cases same
  | some name =>
      cases found' with
      | none => cases same
      | some name' =>
          have named : name'.name = name.name := Option.some.inj same
          dsimp only
          rw [named]
          split
          · exact .pure rfl
          · exact .pure (by simp [nameOnly, named])

theorem tracks_typeGroupTurn
    : Tracks bound (Turn.shown nameOnly) typeGroupTurn typeGroupTurn := by
  refine .get fun within near => ?_
  rw [near.kind?_eq]
  split
  · exact tracks_typeName.bind (fun same => .pure (by simpa [Turn.shown] using same)) within near
  · exact Tracks.skip.bind (fun _ => .pure rfl) within near
  · exact Tracks.skip.bind (fun _ => .pure rfl) within near
  · exact Tracks.fail within near

/-- What counts of one alternative of a type, and of a type. -/
def hintOnly (hint : TypeHint) : List (List Name) :=
  [hint.map LocatedName.name]

theorem tracks_typeAtom?
    : Tracks bound (Option.map (List.flatMap nameOnly)) typeAtom? typeAtom? := by
  refine tracks_eat.bind fun {nullable nullable'} same => ?_
  obtain rfl : nullable' = nullable := same
  refine tracks_eat.bind fun {grouped grouped'} same => ?_
  obtain rfl : grouped' = grouped := same
  split
  · exact (Tracks.collect strides_typeGroupTurn tracks_typeGroupTurn).bind
      fun same => .pure (by simpa using same)
  · refine .get fun within near => ?_
    rw [near.isAt_eq]
    split
    · exact tracks_typeName.bind (fun same => .pure (by simpa using same)) within near
    · split
      · exact Tracks.fail within near
      · exact Tracks.pure rfl within near

theorem tracks_typeJoint : Tracks bound id typeJoint typeJoint := by
  refine tracks_eat.bind fun {piped piped'} same => ?_
  obtain rfl : piped' = piped := same
  split
  · exact .pure rfl
  · refine .get fun within near => ?_
    dsimp only
    rw [near.joins_eq]
    split
    · exact Tracks.skip.bind (fun _ => .pure rfl) within near
    · exact Tracks.pure rfl within near

theorem tracks_typeTurn : Tracks bound (Turn.shown hintOnly) typeTurn typeTurn := by
  refine tracks_typeAtom?.bind fun {atom? atom?'} same => ?_
  cases atom? with
  | none =>
      cases atom?' with
      | none => exact .pure rfl
      | some atom' => cases same
  | some atom =>
      cases atom?' with
      | none => cases same
      | some atom' =>
          have named := Option.some.inj same
          rw [flatMap_nameOnly, flatMap_nameOnly] at named
          refine tracks_typeJoint.bind fun {joined joined'} same => ?_
          obtain rfl : joined' = joined := same
          split
          · exact .pure (by simp [Turn.shown, hintOnly, named])
          · exact .pure (by simp [Turn.shown, hintOnly, named])

/-- What counts of a type, if one is written. -/
def hint?Only : Option TypeHint → Option (List Name) :=
  Option.map (List.map LocatedName.name)

theorem hintFacts_congr {hint? hint?' : Option TypeHint} (role : TypeRole)
    (same : hint?Only hint?' = hint?Only hint?)
    : hintFacts role hint?' = hintFacts role hint? := by
  rw [hintFacts_eq, hintFacts_eq]
  unfold hint?Only at same
  rw [same]

theorem tracks_typeHint? : Tracks bound hint?Only typeHint? typeHint? := by
  refine (Tracks.collect strides_typeTurn tracks_typeTurn).bind fun {found found'} same => ?_
  have lists : found'.map (List.map LocatedName.name) = found.map (List.map LocatedName.name) := by
    rw [List.map_eq_flatMap, List.map_eq_flatMap]
    exact same
  cases found with
  | nil =>
      cases found' with
      | nil => exact .pure rfl
      | cons => cases lists
  | cons hint rest =>
      cases found' with
      | nil => cases lists
      | cons hint' rest' =>
          refine .pure ?_
          simp only [hint?Only, Option.map_some, List.map_flatten]
          rw [lists]

theorem tracks_returnType? : Tracks bound hint?Only returnType? returnType? := by
  refine tracks_eat.bind fun {announced announced'} same => ?_
  obtain rfl : announced' = announced := same
  split
  · exact tracks_typeHint?
  · exact .pure rfl

-----------------------------------------------------------------------------------------
-- Bracket groups, attributes and functions
-----------------------------------------------------------------------------------------

/-- What counts of an expression. -/
def exprOnly (expr : Expr) : List Fact :=
  exprFacts [expr]

theorem flatMap_exprOnly : List.flatMap exprOnly = exprFacts :=
  funext exprFacts_eq_flatMap

theorem Turn.shown_more (found : List Expr)
    : (Turn.more found).shown exprOnly = (true, exprFacts found) := by
  rw [Turn.shown, flatMap_exprOnly]

theorem Turn.shown_last (found : List Expr)
    : (Turn.last found).shown exprOnly = (false, exprFacts found) := by
  rw [Turn.shown, flatMap_exprOnly]

/-- A repetition that collects expressions. -/
theorem Tracks.collect_exprs {turn turn' : Parser (Turn Expr)} (strides : Strides turn)
    (tracks : Tracks bound (Turn.shown exprOnly) turn turn')
    : Tracks bound exprFacts (Parser.collect turn) (Parser.collect turn') :=
  flatMap_exprOnly ▸ Tracks.collect strides tracks

/-- A turn that goes on with the expressions of a step. -/
theorem Tracks.more {step step' : Parser (List Expr)}
    (tracks : Tracks bound exprFacts step step')
    : Tracks bound (Turn.shown exprOnly) (step >>= fun found => Pure.pure (.more found))
        (step' >>= fun found => Pure.pure (.more found)) :=
  tracks.bind fun same => .pure (by rw [Turn.shown_more, Turn.shown_more, same])

section Scan

variable {one one' : Parser (List Expr)}

theorem tracks_groupTurn {opening opening' : Token} (scans : Tracks bound exprFacts one one')
    (kind : opening'.kind = opening.kind)
    : Tracks bound (Turn.shown exprOnly) (groupTurn one opening) (groupTurn one' opening') := by
  refine .get fun within near => ?_
  rw [near.kind?_eq]
  split
  · exact Tracks.throw within near
  · rw [kind]
    split
    · exact Tracks.skip.bind (fun _ => .pure rfl) within near
    · exact scans.more within near

theorem tracks_group (moves : Moves one) (scans : Tracks bound exprFacts one one')
    : TracksAhead (bound + 1) exprFacts (group one) (group one') := by
  refine .get fun within here near => ?_
  obtain ⟨none, _⟩ | ⟨opening, opening', next, next', kind⟩ := near.token?_cases
  · obtain ⟨opening, next⟩ := Cursor.exists_token here
    cases next.symm.trans none
  · rw [next, next']
    exact TracksAhead.skip_bind
      (.collect_exprs (strides_groupTurn moves) (tracks_groupTurn scans kind)) within here near

theorem tracks_arguments (moves : Moves one) (scans : Tracks bound exprFacts one one')
    : Tracks (bound + 1) exprFacts (arguments one) (arguments one') := by
  refine .get fun within near => ?_
  rw [near.isAt_eq]
  split
  · rename_i here
    exact tracks_group moves scans within (Cursor.ahead_ne_nil_of_isAt here) near
  · exact Tracks.pure rfl within near

theorem tracks_attributeTurn (moves : Moves one) (scans : Tracks bound exprFacts one one')
    : Tracks bound (Turn.shown exprOnly) (attributeTurn one) (attributeTurn one') := by
  refine .get fun within near => ?_
  rw [near.kind?_eq]
  split
  · exact Tracks.fail within near
  · exact Tracks.skip.bind (fun _ => .pure rfl) within near
  · exact Tracks.skip.bind (fun _ => .pure rfl) within near
  · refine tracks_expectName.bind (fun named => ?_) within near
    refine ((tracks_arguments moves scans).mono (Nat.le_succ _)).bind fun same => .pure ?_
    rw [Turn.shown_more, Turn.shown_more, exprFacts_attr, exprFacts_attr, named, same]
  · exact scans.more within near

theorem tracks_attributesTurn (moves : Moves one) (scans : Tracks bound exprFacts one one')
    : Tracks (bound + 1) (Turn.shown exprOnly) (attributesTurn one) (attributesTurn one') :=
  .eat_bind
    (Tracks.more (.collect_exprs (strides_attributeTurn moves) (tracks_attributeTurn moves scans)))
    (.pure rfl)

theorem tracks_attributes (moves : Moves one) (scans : Tracks bound exprFacts one one')
    : Tracks (bound + 1) exprFacts (attributes one) (attributes one') :=
  .collect_exprs strides_attributesTurn (tracks_attributesTurn moves scans)

variable (moves : Moves one) (scans : Tracks bound exprFacts one one')

include moves scans

theorem tracks_modifierTurn {keywords : List Text}
    : Tracks bound (Turn.shown fun _ => ([] : List Unit)) (modifierTurn one keywords)
        (modifierTurn one' keywords) := by
  refine .get fun within near => ?_
  rw [near.isKeyword_eq]
  split
  · refine Tracks.skip.bind (fun _ => ?_) within near
    exact ((tracks_arguments moves scans).mono (Nat.le_succ _)).bind fun _ => .pure rfl
  · exact Tracks.pure rfl within near

theorem tracks_modifiers {keywords : List Text}
    : Tracks bound (fun _ => ()) (modifiers one keywords) (modifiers one' keywords) :=
  (Tracks.collect strides_modifierTurn (tracks_modifierTurn moves scans)).bind
    fun _ => .pure rfl

omit moves in
theorem tracks_defaultTurn
    : Tracks bound (Turn.shown exprOnly) (defaultTurn one) (defaultTurn one') := by
  refine .get fun within near => ?_
  rw [near.kind?_eq]
  split
  · exact Tracks.pure rfl within near
  · exact Tracks.pure rfl within near
  · exact Tracks.pure rfl within near
  · exact scans.more within near

omit moves scans in
theorem tracks_paramName : Tracks bound (fun _ => ()) paramName paramName := by
  refine .get fun within near => ?_
  obtain ⟨next, next'⟩ | ⟨token, token', next, next', kind⟩ := near.token?_cases
  · rw [next, next']
    exact Tracks.pure rfl within near
  · rw [next, next']
    dsimp only
    rw [kind]
    split
    · refine Tracks.skip.bind (fun _ => ?_) within near
      exact .pure rfl
    · exact Tracks.pure rfl within near

theorem tracks_param : Tracks bound Param.facts (param one) (param one') := by
  refine ((tracks_attributes moves scans).mono (Nat.le_succ _)).bind fun attributed => ?_
  refine (tracks_modifiers moves scans).bind fun _ => ?_
  refine tracks_typeHint?.bind fun typed => ?_
  refine tracks_eat.bind fun _ => tracks_eat.bind fun _ => tracks_paramName.bind fun _ => ?_
  refine (Tracks.collect_exprs (strides_defaultTurn moves) (tracks_defaultTurn scans)).bind
    fun defaulted => .pure ?_
  rw [Param.facts_eq, Param.facts_eq, attributed, hintFacts_congr .param typed, defaulted]

theorem tracks_paramTurn
    : Tracks bound (Turn.shown Param.facts) (paramTurn one) (paramTurn one') := by
  refine .get fun within near => ?_
  rw [near.kind?_eq]
  split
  · exact Tracks.fail within near
  · exact Tracks.skip.bind (fun _ => .pure rfl) within near
  · exact Tracks.skip.bind (fun _ => .pure rfl) within near
  · exact (tracks_param moves scans).bind (fun same => .pure (by simp [Turn.shown, same]))
      within near

theorem tracks_params
    : Tracks bound (List.flatMap Param.facts) (params one) (params one') :=
  Tracks.expect.bind fun _ =>
    .collect (strides_paramTurn moves) (tracks_paramTurn moves scans)

theorem tracks_function {attributes attributes' : List Expr}
    (attributed : exprFacts attributes' = exprFacts attributes)
    : Tracks bound Function.facts (function one attributes) (function one' attributes') := by
  refine Tracks.skip.bind fun _ => tracks_eat.bind fun _ => tracks_expectName.bind fun _ => ?_
  refine (tracks_params moves scans).bind fun listed => tracks_returnType?.bind fun typed => ?_
  refine .get fun within near => ?_
  rw [near.isAt_eq]
  split
  · rename_i here
    have group := tracks_group moves scans (Nat.lt_succ_of_lt within)
      (Cursor.ahead_ne_nil_of_isAt here) near
    refine Follows.bind near group fun _ _ _ same near' =>
      Tracks.pure ?_ (Nat.lt_of_le_of_lt (Nat.sub_le _ _) within) near'
    rw [Function.facts_eq, Function.facts_eq, attributed, listed, hintFacts_congr .result typed,
      same]
  · refine Tracks.expect.bind (fun _ => .pure ?_) within near
    rw [Function.facts_eq, Function.facts_eq, attributed, listed, hintFacts_congr .result typed]

theorem tracks_captures : Tracks bound exprFacts (captures one) (captures one') := by
  refine tracks_eatKeyword.bind fun {used used'} same => ?_
  obtain rfl : used' = used := same
  split
  · exact (tracks_arguments moves scans).mono (Nat.le_succ _)
  · exact .pure rfl

theorem tracks_closureBlock {arrow : Bool}
    : Tracks bound exprFacts (closureBlock one arrow) (closureBlock one' arrow) := by
  refine .get fun within near => ?_
  rw [near.isAt_eq]
  split
  · rename_i here
    exact tracks_group moves scans (Nat.lt_succ_of_lt within)
      (Cursor.ahead_ne_nil_of_isAt (Bool.and_eq_true_iff.mp here).2) near
  · exact Tracks.pure rfl within near

theorem tracks_closure : TracksAhead (bound + 1) Function.facts (closure one) (closure one') := by
  refine .get fun within here near => ?_
  rw [near.atKeyword_eq]
  refine TracksAhead.skip_bind ?_ within here near
  refine tracks_eat.bind fun _ => tracks_name?.bind fun _ => ?_
  refine (tracks_params moves scans).bind fun listed => ?_
  refine (tracks_captures moves scans).bind fun captured => ?_
  refine tracks_returnType?.bind fun typed => ?_
  refine (tracks_closureBlock moves scans).bind fun same => .pure ?_
  simp only [Function.facts_eq, exprFacts_append]
  rw [listed, hintFacts_congr .result typed, captured, same]

end Scan

end Parser

end ImportHeader
