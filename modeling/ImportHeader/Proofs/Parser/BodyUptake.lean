import ImportHeader.Proofs.Parser.Uptake

/-! The scan of bodies before the import of a class. A token or bracket group that ends with a closing
bracket ends at the import, or takes up its keyword: as the class of a creation, or as the keyword of
captured variables.
-/

namespace ImportHeader

open Lexer

namespace Parser

variable {rest : List Lexeme} {count : Nat} {start start' : Cursor}

-----------------------------------------------------------------------------------------
-- Steps before an import
-----------------------------------------------------------------------------------------

theorem run_eat_of_holdsImport (holds : HoldsImport rest start.ahead) {kind : TokenKind}
    (other : kind ≠ .name)
    : (eat kind).run start = .ok (false, start) := by
  have here := Cursor.isAt_of_holdsImport holds other
  exact eat_eq_ok.mpr ⟨here.symm, by rw [here]; rfl⟩

theorem idles_arguments {place : List Lexeme → Prop}
    (holds : ∀ {ahead}, place ahead → HoldsImport rest ahead)
    : Idles place (fun _ => place) (arguments scan) := by
  refine .get fun here => ?_
  rw [Cursor.isAt_of_holdsImport (holds here) (by decide)]
  exact idles_pure _ here

theorem idles_typeJoint
    : Idles (OpensImport rest) (fun joined ahead => joined = false ∧ OpensImport rest ahead)
        typeJoint := by
  intro cursor opens
  refine ⟨false, cursor, bind_eq_ok.mpr ⟨false, cursor, run_eat_of_holdsImport (.inl opens) (by decide),
    get_bind_eq_ok.mpr ?_⟩, rfl, opens⟩
  rw [Cursor.isAt_of_holdsImport (.inl opens) (by decide)]
  exact pure_eq_ok.mpr ⟨rfl, rfl⟩

theorem idles_returnType? : Idles (HoldsImport rest) (fun _ => HoldsImport rest) returnType? := by
  intro cursor holds
  exact ⟨none, cursor, bind_eq_ok.mpr ⟨false, cursor, run_eat_of_holdsImport holds (by decide),
    pure_eq_ok.mpr ⟨rfl, rfl⟩⟩, holds⟩

theorem idles_closureBlock {arrow : Bool}
    : Idles (HoldsImport rest) (fun _ => HoldsImport rest) (closureBlock scan arrow) := by
  refine .get fun holds => ?_
  rw [Cursor.isAt_of_holdsImport holds (by decide), Bool.and_false]
  exact idles_pure _ holds

theorem idles_anonymousModifier
    : Idles (OpensImport rest) (fun _ => OpensImport rest) anonymousModifier := by
  refine .get fun {cursor} opens => ?_
  have other : cursor.atKeyword "readonly" = false := by
    rw [Cursor.atKeyword, Cursor.isKeyword_of_opensImport opens]
    decide
  rw [other, Bool.false_and]
  exact idles_pure _ opens

theorem exists_name?_of_opensImport (opens : OpensImport rest start.ahead)
    : ∃ found, name?.run start = .ok (found, start.advance) := by
  obtain ⟨token, next, kind⟩ := Option.map_eq_some_iff.mp (Cursor.kind?_of_opensImport opens).1
  exact ⟨_, name?_eq_ok.mpr (.inl ⟨token, next, kind, rfl, rfl⟩)⟩

/-- Behind the keyword of a creation the keyword of an import is taken for the name of a class. -/
theorem idles_created {attributes : List Expr}
    : Idles (OpensImport rest) (fun _ => HoldsImport rest) (created scan attributes) := by
  refine .get fun {cursor} opens => ?_
  have other : cursor.atKeyword "class" = false := by
    rw [Cursor.atKeyword, Cursor.isKeyword_of_opensImport opens]
    decide
  rw [other, if_neg Bool.false_ne_true]
  have names := Cursor.advance_of_opensImport opens
  obtain ⟨found, ran⟩ := exists_name?_of_opensImport opens
  cases found with
  | none => exact ⟨_, _, bind_eq_ok.mpr ⟨none, _, ran, pure_eq_ok.mpr ⟨rfl, rfl⟩⟩, .inr names⟩
  | some target =>
      obtain ⟨given, stop, ran', names'⟩ := idles_arguments (fun given => .inr given) _ names
      exact ⟨_, stop, bind_eq_ok.mpr ⟨some target, _, ran, bind_eq_ok.mpr ⟨given, stop, ran',
        pure_eq_ok.mpr ⟨rfl, rfl⟩⟩⟩, .inr names'⟩

/-- A closure without a block takes the keyword of an import for the one of its captures. -/
theorem idles_captures
    : Idles (OpensImport rest) (fun _ => HoldsImport rest) (captures scan) := by
  intro cursor opens
  have keyword : cursor.atKeyword "use" = true := by
    rw [Cursor.atKeyword, Cursor.isKeyword_of_opensImport opens]
    decide
  obtain ⟨found, stop, ran, names⟩ := idles_arguments (fun given => .inr given) _
    (Cursor.advance_of_opensImport opens)
  exact ⟨found, stop, bind_eq_ok.mpr ⟨true, _, eatKeyword_eq_ok.mpr ⟨keyword.symm, rfl⟩,
    by rw [keyword]; exact ran⟩, .inr names⟩

-----------------------------------------------------------------------------------------
-- Steps that end with another token
-----------------------------------------------------------------------------------------

section Steps

variable (near : start.NearImport rest count start')

include near

theorem misses_pure {value : α} : Misses count (pure value) start := by
  intro found stop ran
  obtain ⟨_, rfl⟩ := pure_eq_ok.mp ran
  exact near.not_stays

theorem misses_skip {kind : TokenKind} (here : start.kind? 0 = some kind)
    (open_ : kind ∉ Cursor.closers)
    : Misses count skip start := by
  intro found stop ran
  obtain rfl := skip_eq_ok.mp ran
  exact near.not_advances here open_

theorem misses_eat {kind : TokenKind} (open_ : kind ∉ Cursor.closers)
    : Misses count (eat kind) start := by
  intro found stop ran
  obtain ⟨_, rfl⟩ := eat_eq_ok.mp ran
  split
  · rename_i here
    exact near.not_advances (eq_of_beq here) open_
  · exact near.not_stays

theorem misses_eatKeyword {keyword : Text} : Misses count (eatKeyword keyword) start := by
  intro found stop ran
  obtain ⟨_, rfl⟩ := eatKeyword_eq_ok.mp ran
  split
  · rename_i here
    exact near.not_advances (kind?_of_isKeyword here) (by decide)
  · exact near.not_stays

theorem misses_name? : Misses count name? start := by
  intro found stop ran
  rcases name?_eq_ok.mp ran with ⟨token, next, kind, _, rfl⟩ | ⟨_, _, rfl⟩
  · have here : start.kind? 0 = some .name := by rw [Cursor.kind?, next, Option.map_some, kind]
    exact near.not_advances here (by decide)
  · exact near.not_stays

theorem misses_expect {kind : TokenKind} {what : Expectation} (open_ : kind ∉ Cursor.closers)
    : Misses count (expect kind what) start := by
  intro found stop ran
  obtain ⟨next, kind, rfl⟩ := expect_eq_ok.mp ran
  refine near.not_advances ?_ open_
  rw [Cursor.kind?, next, Option.map_some, kind]

theorem misses_typeName : Misses count typeName start := by
  intro found stop ran
  obtain ⟨name?, middle, read, later⟩ := bind_eq_ok.mp ran
  cases name? with
  | none =>
      obtain ⟨_, rfl⟩ := pure_eq_ok.mp later
      exact misses_name? near read
  | some name =>
      dsimp only at later
      split at later
      all_goals
        obtain ⟨_, rfl⟩ := pure_eq_ok.mp later
        exact misses_name? near read

theorem misses_typeJoint : Misses count typeJoint start := by
  intro found stop ran
  obtain ⟨piped, middle, ate, later⟩ := bind_eq_ok.mp ran
  obtain ⟨rfl, rfl⟩ := eat_eq_ok.mp ate
  split at later
  · rename_i here
    obtain ⟨_, rfl⟩ := pure_eq_ok.mp later
    exact near.not_advances (eq_of_beq here) (by decide)
  · rw [get_bind_eq_ok] at later
    dsimp only at later
    split at later
    · rename_i joins
      obtain ⟨_, rfl⟩ := skip_pure_eq_ok.mp later
      exact near.not_advances (eq_of_beq (Bool.and_eq_true_iff.mp joins).1) (by decide)
    · obtain ⟨_, rfl⟩ := pure_eq_ok.mp later
      exact near.not_stays

theorem misses_anonymousModifier : Misses count anonymousModifier start := by
  intro found stop ran
  rw [anonymousModifier, get_bind_eq_ok] at ran
  split at ran
  · rename_i here
    obtain rfl := skip_eq_ok.mp ran
    exact near.not_advances (kind?_of_isKeyword (Bool.and_eq_true_iff.mp here).1) (by decide)
  · obtain ⟨_, rfl⟩ := pure_eq_ok.mp ran
    exact near.not_stays

theorem misses_memberName : Misses count memberName start := by
  intro found stop ran
  rw [memberName, get_bind_eq_ok] at ran
  dsimp only at ran
  split at ran
  · rename_i here
    obtain rfl := skip_eq_ok.mp ran
    rcases Bool.or_eq_true_iff.mp here with here | here
    · exact near.not_advances (eq_of_beq here) (by decide)
    · exact near.not_advances (eq_of_beq here) (by decide)
  · obtain ⟨_, rfl⟩ := pure_eq_ok.mp ran
    exact near.not_stays

-----------------------------------------------------------------------------------------
-- Bracket groups, types and closures
-----------------------------------------------------------------------------------------

theorem takesUp_group
    : TakesUp (fun _ => OpensImport rest) count (group scan) (group scan) start start' :=
  (concludes_group near.toNearMark).takesUp near

theorem takesUp_arguments
    : TakesUp (fun _ => OpensImport rest) count (arguments scan) (arguments scan) start start' := by
  refine .get ?_
  rw [near.near.isAt_eq]
  split
  · exact takesUp_group near
  · exact .of_misses (misses_pure near)

/-- One attribute list ends with its bracket, and another one could follow. -/
theorem takesUp_attributesTurn
    : TakesUp (fun turn ahead => (∃ found, turn = .more found) ∧ OpensImport rest ahead) count
        (attributesTurn scan) (attributesTurn scan) start start' := by
  refine .bind_of_misses near (tracks_eat (Nat.lt_succ_self _) near.near)
    (misses_eat near (by decide)) fun {_ opened opened' _ _} same near => ?_
  obtain rfl : opened' = opened := same
  split
  · have list := concludes_collect (by decide) (strides_attributeTurn moves_scan)
      (fun _ => tracks_attributeTurn moves_scan tracks_scan) attributeTurn_last
      (fun here => by
        rw [attributeTurn, get_bind_eq_ok, here]
        exact skip_pure_eq_ok.mpr ⟨rfl, rfl⟩)
      near.toNearMark
    exact (list.takesUp near).map fun opens => ⟨⟨_, rfl⟩, opens⟩
  · exact .of_misses (misses_pure near)

theorem takesUp_attributes
    : TakesUp (fun _ => OpensImport rest) count (attributes scan) (attributes scan) start start' := by
  intro found stop ran left
  obtain ⟨found', stop', turns, opens⟩ := (turns_of_collect ran).takesUp
    (fun _ => (tracks_attributesTurn moves_scan tracks_scan).mono (Nat.le_succ _))
    (fun near ran left => by
      obtain ⟨_, stop', ran', ⟨found', rfl⟩, opens⟩ := takesUp_attributesTurn near ran left
      refine ⟨found' ++ [], stop', .more ran' (.last (bind_eq_ok.mpr ⟨false, stop', ?_,
        pure_eq_ok.mpr ⟨rfl, rfl⟩⟩)), opens⟩
      have other : stop'.isAt .attributeOpen = false :=
        Cursor.isAt_of_holdsImport (.inl opens) (by decide)
      exact eat_eq_ok.mpr ⟨other.symm, by rw [other]; rfl⟩)
    near left
  exact ⟨found', stop', collect_of_turns strides_attributesTurn turns, opens⟩

theorem takesUp_typeAtom?
    : TakesUp (fun atom? ahead => atom?.isSome = true ∧ OpensImport rest ahead) count typeAtom?
        typeAtom? start start' := by
  refine .bind_of_misses near (tracks_eat (Nat.lt_succ_self _) near.near)
    (misses_eat near (by decide)) fun {_ nullable nullable' _ _} same near => ?_
  obtain rfl : nullable' = nullable := same
  refine .bind_of_misses near (tracks_eat (Nat.lt_succ_self _) near.near)
    (misses_eat near (by decide)) fun {_ grouped grouped' _ _} same near => ?_
  obtain rfl : grouped' = grouped := same
  split
  · have group := concludes_collect (by decide) strides_typeGroupTurn
      (fun _ => tracks_typeGroupTurn) typeGroupTurn_last
      (fun here => by
        rw [typeGroupTurn, get_bind_eq_ok, here]
        exact skip_pure_eq_ok.mpr ⟨rfl, rfl⟩)
      near.toNearMark
    exact (group.takesUp near).map fun opens => ⟨rfl, opens⟩
  · refine .get ?_
    rw [near.near.isAt_eq]
    split
    · refine .bind_of_misses near (tracks_typeName (Nat.lt_succ_self _) near.near) ?_
        fun _ near => .of_misses (misses_pure near)
      exact misses_typeName near
    split
    · exact .of_misses fun _ _ ran => absurd ran fail_ne_ok
    · exact .of_misses (misses_pure near)

/-- No other type is joined to one that ends with a closing bracket. -/
theorem takesUp_typeTurn
    : TakesUp (fun turn ahead => (∃ found, turn = .last found) ∧ OpensImport rest ahead) count
        typeTurn typeTurn start start' := by
  refine .bind near (tracks_typeAtom? (Nat.lt_succ_self _) near.near) (takesUp_typeAtom? near)
    (fun {found} => ?_) fun {_ found found' _ _} _ near => ?_
  · rintro cursor ⟨isSome, opens⟩
    obtain ⟨names, rfl⟩ := Option.isSome_iff_exists.mp isSome
    obtain ⟨_, stop, ran, rfl, opens'⟩ := idles_typeJoint _ opens
    exact ⟨_, stop, bind_eq_ok.mpr ⟨false, stop, ran, pure_eq_ok.mpr ⟨rfl, rfl⟩⟩, ⟨_, rfl⟩, opens'⟩
  · cases found with
    | none => exact .of_misses (misses_pure near)
    | some names =>
        refine .of_misses fun result stop ran => ?_
        obtain ⟨joined, middle, read, done⟩ := bind_eq_ok.mp ran
        have same : middle = stop := by
          split at done
          · exact (pure_eq_ok.mp done).2
          · exact (pure_eq_ok.mp done).2
        exact same ▸ misses_typeJoint near read

theorem takesUp_types
    : TakesUp (fun _ => OpensImport rest) count (collect typeTurn) (collect typeTurn) start
        start' := by
  intro found stop ran left
  obtain ⟨found', stop', turns, opens⟩ := (turns_of_collect ran).takesUp (fun _ => tracks_typeTurn)
    (fun near ran left => by
      obtain ⟨_, stop', ran', ⟨found', rfl⟩, opens⟩ := takesUp_typeTurn near ran left
      exact ⟨found', stop', .last ran', opens⟩)
    near left
  exact ⟨found', stop', collect_of_turns strides_typeTurn turns, opens⟩

theorem takesUp_typeHint?
    : TakesUp (fun _ => OpensImport rest) count typeHint? typeHint? start start' := by
  refine .bind near (Tracks.collect strides_typeTurn tracks_typeTurn (Nat.lt_succ_self _) near.near)
    (takesUp_types near) (fun {found} => ?_) fun {_ found found' _ _} _ near => ?_
  · split
    · exact idles_pure
    · exact idles_pure
  · split
    · exact .of_misses (misses_pure near)
    · exact .of_misses (misses_pure near)

theorem takesUp_returnType?
    : TakesUp (fun _ => OpensImport rest) count returnType? returnType? start start' := by
  refine .bind_of_misses near (tracks_eat (Nat.lt_succ_self _) near.near)
    (misses_eat near (by decide)) fun {_ announced announced' _ _} same near => ?_
  obtain rfl : announced' = announced := same
  split
  · exact takesUp_typeHint? near
  · exact .of_misses (misses_pure near)

theorem takesUp_captures
    : TakesUp (fun _ => OpensImport rest) count (captures scan) (captures scan) start start' := by
  refine .bind_of_misses near (tracks_eatKeyword (Nat.lt_succ_self _) near.near)
    (misses_eatKeyword near) fun {_ used used' _ _} same near => ?_
  obtain rfl : used' = used := same
  split
  · exact takesUp_arguments near
  · exact .of_misses (misses_pure near)

theorem takesUp_closureBlock {arrow : Bool}
    : TakesUp (fun _ => OpensImport rest) count (closureBlock scan arrow) (closureBlock scan arrow)
        start start' := by
  refine .get ?_
  rw [near.near.isAt_eq]
  split
  · exact takesUp_group near
  · exact .of_misses (misses_pure near)

theorem takesUp_params
    : TakesUp (fun _ => OpensImport rest) count (params scan) (params scan) start start' := by
  refine .bind_of_misses near (Tracks.expect (Nat.lt_succ_self _) near.near)
    (misses_expect near (by decide)) fun _ near => ?_
  have list := concludes_collect (by decide) (strides_paramTurn moves_scan)
    (fun _ => tracks_paramTurn moves_scan tracks_scan) paramTurn_last
    (fun here => by
      rw [paramTurn, get_bind_eq_ok, here]
      exact skip_pure_eq_ok.mpr ⟨rfl, rfl⟩)
    near.toNearMark
  exact list.takesUp near

/-- A closure ends before an import, or takes up its keyword. -/
theorem takesUp_closure (here : start.kind? 0 = some .name)
    : TakesUp (fun _ => HoldsImport rest) count (closure scan) (closure scan) start start' := by
  refine .get ?_
  rw [near.near.atKeyword_eq]
  refine .bind_of_misses near (Tracks.skip (Nat.lt_succ_self _) near.near)
    (misses_skip near here (by decide)) fun _ near => ?_
  refine .bind_of_misses near (tracks_eat (Nat.lt_succ_self _) near.near)
    (misses_eat near (by decide)) fun _ near => ?_
  refine .bind_of_misses near (tracks_name? (Nat.lt_succ_self _) near.near) (misses_name? near)
    fun _ near => ?_
  -- What follows the parameters reads no more than the keyword of the import.
  have block {arrow : Bool} {make : List Expr → Function Expr}
      : Idles (HoldsImport rest) (fun _ => HoldsImport rest)
          (closureBlock scan arrow >>= fun block => pure (make block)) :=
    idles_closureBlock.bind idles_pure
  refine .bind near (tracks_params moves_scan tracks_scan (Nat.lt_succ_self _) near.near)
    (takesUp_params near) (idles_captures.bind (idles_returnType?.bind block)) fun _ near => ?_
  refine .bind near (tracks_captures moves_scan tracks_scan (Nat.lt_succ_self _) near.near)
    (takesUp_captures near) (fun _ opens => idles_returnType?.bind block _ (.inl opens))
    fun _ near => ?_
  refine .bind near (tracks_returnType? (Nat.lt_succ_self _) near.near)
    (takesUp_returnType? near) (fun _ opens => block _ (.inl opens)) fun _ near => ?_
  exact (takesUp_closureBlock near).map .inl

-----------------------------------------------------------------------------------------
-- Names in bodies
-----------------------------------------------------------------------------------------

theorem takesUp_created {attributes attributes' : List Expr}
    (attributed : exprFacts attributes' = exprFacts attributes)
    : TakesUp (fun _ => OpensImport rest) count (created scan attributes) (created scan attributes')
        start start' := by
  refine .get ?_
  rw [near.near.atKeyword_eq]
  split
  · exact ((concludes_anonymousClass attributed near.toNearMark).takesUp near).map id
  · refine .bind_of_misses near (tracks_name? (Nat.lt_succ_self _) near.near) (misses_name? near)
      fun {_ found found' _ _} same near => ?_
    cases found with
    | none => exact .of_misses (misses_pure near)
    | some target =>
        cases found' with
        | none => cases same
        | some target' => exact (takesUp_arguments near).map id

theorem takesUp_creation (here : start.kind? 0 = some .name)
    : TakesUp (fun _ => HoldsImport rest) count (creation scan) (creation scan) start start' := by
  refine .bind_of_misses near (Tracks.skip (Nat.lt_succ_self _) near.near)
    (misses_skip near here (by decide)) fun _ near => ?_
  refine .bind near (tracks_attributes moves_scan tracks_scan
    (Nat.lt_succ_of_lt (Nat.lt_succ_self _)) near.near) (takesUp_attributes near)
    (idles_anonymousModifier.bind idles_created) fun attributed near => ?_
  refine .bind_of_misses near (tracks_anonymousModifier (Nat.lt_succ_self _) near.near)
    (misses_anonymousModifier near) fun _ near => ?_
  exact (takesUp_created near attributed).imp .inl

theorem takesUp_catchClause (here : start.kind? 0 = some .name)
    : TakesUp (fun _ => OpensImport rest) count (catchClause scan) (catchClause scan) start
        start' := by
  refine .bind_of_misses near (Tracks.skip (Nat.lt_succ_self _) near.near)
    (misses_skip near here (by decide)) fun _ near => ?_
  refine .bind_of_misses near (Tracks.expect (Nat.lt_succ_self _) near.near)
    (misses_expect near (by decide)) fun _ near => ?_
  have list := concludes_collect (by decide) (strides_catchTurn moves_scan)
    (fun _ => tracks_catchTurn tracks_scan) catchTurn_last
    (fun here => by
      rw [catchTurn, get_bind_eq_ok, here]
      exact skip_pure_eq_ok.mpr ⟨rfl, rfl⟩)
    near.toNearMark
  exact (list.takesUp near).map id

theorem takesUp_plainName {place : List Expr → List Lexeme → Prop}
    : TakesUp place count plainName plainName start start' := by
  refine .bind_of_misses near (tracks_name? (Nat.lt_succ_self _) near.near) (misses_name? near)
    fun {_ found found' _ _} same near => ?_
  cases found with
  | none => exact .of_misses (misses_pure near)
  | some target =>
      cases found' with
      | none => cases same
      | some target' =>
          refine .bind_of_misses near (tracks_eat (Nat.lt_succ_self _) near.near)
            (misses_eat near (by decide)) fun {_ accessed accessed' _ _} same near => ?_
          obtain rfl : accessed' = accessed := same
          split
          · exact .bind_of_misses near (tracks_memberName (Nat.lt_succ_self _) near.near)
              (misses_memberName near) fun _ near => .of_misses (misses_pure near)
          · refine .of_misses ?_
            split
            · exact misses_pure near
            · exact misses_pure near

theorem takesUp_nameInBody (here : start.kind? 0 = some .name)
    : TakesUp (fun _ => HoldsImport rest) count (nameInBody scan) (nameInBody scan) start start' := by
  refine .get ?_
  rw [near.near.atKeyword_eq, near.near.atKeyword_eq, near.near.atKeyword_and_kind?_eq (by decide),
    near.near.atClosure_eq, near.near.atClass_eq]
  split
  · exact takesUp_creation near here
  split
  · refine .bind_of_misses near (Tracks.skip (Nat.lt_succ_self _) near.near)
      (misses_skip near here (by decide)) fun _ near => ?_
    exact .bind_of_misses near (tracks_name? (Nat.lt_succ_self _) near.near) (misses_name? near)
      fun _ near => .of_misses (misses_pure near)
  split
  · exact (takesUp_catchClause near here).imp .inl
  split
  · exact (takesUp_closure near here).map id
  split
  · exact ((concludes_namedClass rfl near.toNearMark).takesUp near).map .inl
  · exact takesUp_plainName near

theorem takesUp_element
    : TakesUp (fun _ => HoldsImport rest) count (element scan) (element scan) start start' := by
  refine .get ?_
  obtain ⟨next, next'⟩ | ⟨token, token', next, next', kind⟩ := near.near.token?_cases
  · rw [next, next']
    exact .of_misses (misses_pure near)
  have here : start.kind? 0 = some token.kind := by rw [Cursor.kind?, next, Option.map_some]
  have arrow (open_ : token.kind ∉ Cursor.closers)
      : TakesUp (fun _ => HoldsImport rest) count (skip >>= fun _ => eat .name >>= fun _ => pure [])
          (skip >>= fun _ => eat .name >>= fun _ => (pure [] : Parser (List Expr))) start start' := by
    refine .bind_of_misses near (Tracks.skip (Nat.lt_succ_self _) near.near)
      (misses_skip near here open_) fun _ near => ?_
    exact .bind_of_misses near (tracks_eat (Nat.lt_succ_self _) near.near)
      (misses_eat near (by decide)) fun _ near => .of_misses (misses_pure near)
  rw [next, next']
  dsimp only
  rw [kind]
  split
  · exact (takesUp_group near).imp .inl
  · exact (takesUp_group near).imp .inl
  · exact (takesUp_group near).imp .inl
  · exact .of_misses fun _ _ ran => absurd ran fail_ne_ok
  · exact .of_misses fun _ _ ran => absurd ran fail_ne_ok
  · exact .of_misses fun _ _ ran => absurd ran fail_ne_ok
  · exact (takesUp_attributes near).imp .inl
  · rename_i same
    exact arrow (by simp [same, Cursor.closers])
  · rename_i same
    exact arrow (by simp [same, Cursor.closers])
  · rename_i same
    exact takesUp_nameInBody near (same ▸ here)
  · refine .bind_of_misses near (Tracks.skip (Nat.lt_succ_self _) near.near)
      (misses_skip near here ?_) fun _ near => .of_misses (misses_pure near)
    simp_all [Cursor.closers]

/-- A token or bracket group that ends with a closing bracket ends before an import, or takes up its
keyword.
-/
theorem takesUp_scan
    : TakesUp (fun _ => HoldsImport rest) count scan scan start start' := by
  intro found stop ran left
  rw [run_scan] at ran ⊢
  exact takesUp_element near ran left

end Steps

end Parser

end ImportHeader
