import ImportHeader.Proofs.Parser.Braces
import ImportHeader.Proofs.Parser.Redraft

/-! A statement before other tokens is read the same, or it is read on from its end: there a control
statement can go on with a keyword such as `else`.
-/

namespace ImportHeader

open Lexer

namespace Parser

variable {α β γ δ : Type} {count : Nat} {view : α → γ} {start start' middle stop : Cursor}
  {control loops bare : Bool}

/-- A place of which something holds, or from which the turns of a control statement lead to an end.
-/
def Continues (here : Prop) (ended : Cursor → Prop) (middle : Cursor) : Prop :=
  here
  ∨ ∃ loops,
      middle.goesOn loops = true
      ∧ ∀ {others stop}, Turns (statementTurn scan true loops false) middle others stop → ended stop

theorem Continues.imp {here here' : Prop} {ended ended' : Cursor → Prop}
    (continues : Continues here ended middle) (stays : here → here')
    (all : ∀ {stop}, ended stop → ended' stop)
    : Continues here' ended' middle := by
  rcases continues with same | ⟨loops, goes, turns⟩
  · exact .inl (stays same)
  · exact .inr ⟨loops, goes, fun rest => all (turns rest)⟩

/-- A step that ends behind the next token ends there from the other cursor and finds the same, or
goes on there as a control statement does.
-/
def Resumes (count : Nat) (view : α → γ) (step step' : Parser α) (start start' : Cursor) : Prop :=
  ∀ ⦃found : α⦄ ⦃stop : Cursor⦄,
    step.run start = .ok (found, stop)
    → stop.ahead = start.ahead.drop (count + 1)
    → stop.IsFree
    → ∃ middle, middle.ahead = start'.ahead.drop (count + 1)
        ∧ Continues (∃ found', step'.run start' = .ok (found', middle) ∧ view found' = view found)
            (fun stop' => ∃ found', step'.run start' = .ok (found', stop')) middle

theorem Concludes.resumes {step step' : Parser α}
    (concludes : Concludes count view step step' start start')
    : Resumes count view step step' start start' := by
  intro found stop ran left _
  obtain ⟨found', stop', ran', left', same⟩ := concludes ran left
  exact ⟨stop', left', .inl ⟨found', ran', same⟩⟩

theorem Resumes.map {view' : β → δ} {step step' : Parser α} {make make' : α → β}
    (resumes : Resumes count view step step' start start')
    (made
      : ∀ {found found'},
          view found' = view found → view' (make' found') = view' (make found))
    : Resumes count view' (step >>= fun found => pure (make found))
        (step' >>= fun found => pure (make' found)) start start' := by
  intro result stop ran left free
  obtain ⟨found, middle, begun, done⟩ := bind_eq_ok.mp ran
  obtain ⟨rfl, rfl⟩ := pure_eq_ok.mp done
  obtain ⟨stop', left', continues⟩ := resumes begun left free
  have ran' {found' : α} {stop' : Cursor} (begun' : step'.run start' = .ok (found', stop'))
      : (step' >>= fun found => pure (make' found)).run start' = .ok (make' found', stop') :=
    bind_eq_ok.mpr ⟨found', _, begun', pure_eq_ok.mpr ⟨rfl, rfl⟩⟩
  exact ⟨stop', left', continues.imp (fun ⟨_, begun', same⟩ => ⟨_, ran' begun', made same⟩)
    fun ⟨_, begun'⟩ => ⟨_, ran' begun'⟩⟩

theorem Resumes.get {next next' : Cursor → Parser α}
    (later : Resumes count view (next start) (next' start') start start')
    : Resumes count view (Parser.get >>= next) (Parser.get >>= next') start start' := by
  intro found stop ran left free
  obtain ⟨stop', left', continues⟩ := later (get_bind_eq_ok.mp ran) left free
  exact ⟨stop', left',
    continues.imp (fun ⟨found', ran', same⟩ => ⟨found', get_bind_eq_ok.mpr ran', same⟩)
      fun ⟨found', ran'⟩ => ⟨found', get_bind_eq_ok.mpr ran'⟩⟩

/-- What ends behind a mark, if it ends before a free token. -/
def EndsFree (step : Parser α) (start : Cursor) : Prop :=
  ∀ ⦃found : α⦄ ⦃stop : Cursor⦄,
    step.run start = .ok (found, stop) → stop.IsFree → start.EndsMarked stop

theorem Ends.endsFree {step : Parser α} (ends : Ends step start) : EndsFree step start :=
  fun _ _ ran _ => ends ran

theorem EndsFree.map {step : Parser α} {make : α → β} (ends : EndsFree step start)
    : EndsFree (step >>= fun found => pure (make found)) start := by
  intro result stop ran free
  obtain ⟨found, middle, here, done⟩ := bind_eq_ok.mp ran
  obtain ⟨_, rfl⟩ := pure_eq_ok.mp done
  exact ends here free

theorem Resumes.bind {view' : β → δ} {step step' : Parser α} {next next' : α → Parser β}
    (ends : start.NearMark count start') (first : Follows count view step step' start start')
    (final : ∀ found middle, EndsFree (next found) middle)
    (second
      : ∀ {n found found' middle middle'},
          middle.kind? (count - n) = start.kind? count
          → view found' = view found
          → middle.NearMark (count - n) middle'
          → Resumes (count - n) view' (next found) (next' found') middle middle')
    : Resumes count view' (step >>= next) (step' >>= next') start start' := by
  intro result stop ran left free
  obtain ⟨found, middle, begun, rest⟩ := bind_eq_ok.mp ran
  obtain ⟨n, found', middle', begun', same, within, atMiddle, atMiddle', later, later'⟩ :=
    first.exists_middle ends begun left
      (fun atMiddle _ =>
        few_of_passes ends.lt_length (final found middle rest free).passes left atMiddle)
      (reaches_of_run rest)
  have kind : middle.kind? (count - n) = start.kind? count := by
    unfold Cursor.kind? Cursor.token?
    rw [atMiddle, List.getElem?_drop, Nat.add_sub_cancel' within]
  obtain ⟨stop', atStop', continues⟩ :=
    second kind same (ends.drop within atMiddle atMiddle') rest later free
  have ran' {result' : β} {stop' : Cursor} (rest' : (next' found').run middle' = .ok (result', stop'))
      : (step' >>= next').run start' = .ok (result', stop') :=
    bind_eq_ok.mpr ⟨found', middle', begun', rest'⟩
  exact ⟨stop', atStop'.trans later'.symm,
    continues.imp (fun ⟨result', rest', same⟩ => ⟨result', ran' rest', same⟩)
      fun ⟨result', rest'⟩ => ⟨result', ran' rest'⟩⟩

theorem endsStatement_eq_false {cursor : Cursor}
    (goes : endsStatement control loops bare cursor = false)
    : control = true → bare = false ∧ cursor.goesOn loops = true := by
  intro same
  simpa [endsStatement, same] using goes

/-- The turns of a statement that ends behind the next token, by induction over them. -/
theorem Turns.resume {found : List Expr}
    (turns : Turns (statementTurn scan control loops bare) start found stop) (free : stop.IsFree)
    : ∀ {count start'},
        start.NearMark count start'
        → stop.ahead = start.ahead.drop (count + 1)
        → ∃ middle, middle.ahead = start'.ahead.drop (count + 1)
            ∧ Continues
                (∃ found', Turns (statementTurn scan control loops bare) start' found' middle
                  ∧ exprFacts found' = exprFacts found)
                (fun stop' =>
                  ∃ found', Turns (statementTurn scan control loops bare) start' found' stop')
                middle := by
  induction turns with
  | last ran =>
      intro count start' ends left
      cases lastTurn_of_statementTurn ran with
      | stays bound => exact absurd free bound
      | closes here =>
          obtain ⟨same, left'⟩ := concludes_skip ends left
          exact ⟨start'.advance, left',
            .inl ⟨[], .last (statementTurn_of_last (.closes (same.trans here))), rfl⟩⟩
      | block here grouped final =>
          obtain ⟨found', stop', grouped', left', same⟩ := concludes_group ends grouped left
          have here' := ends.near.kind?_eq.trans here
          refine ⟨stop', left', ?_⟩
          cases final' : endsStatement control loops bare stop' with
          | true =>
              exact .inl ⟨found', .last (statementTurn_of_last (.block here' grouped' final')), same⟩
          | false =>
              -- The block was the end before, so that this is a control statement.
              obtain ⟨rfl, rfl⟩ : bare = false ∧ control = true := by
                cases bare with
                | true => cases final'
                | false =>
                    cases control with
                    | true => exact ⟨rfl, rfl⟩
                    | false => cases final
              refine .inr ⟨loops, (endsStatement_eq_false final' rfl).2, fun rest => ?_⟩
              exact ⟨_, .more (statementTurn_of_more (.block here' grouped' final')) rest⟩
  | more ran rest ih =>
      intro count start' ends left
      obtain ⟨n, result, middle', ran', shown, within, atMiddle, atMiddle', later, later'⟩ :=
        Follows.exists_middle ends
          (tracks_statementTurn moves_scan tracks_scan (Nat.lt_succ_self count) ends.near) ran left
          (fun atMiddle _ =>
            few_of_passes ends.lt_length (endsMarked_of_turns rest free).passes left atMiddle)
          rest.reaches
      obtain ⟨found', rfl, same⟩ := Turn.shown_eq_more shown
      rw [flatMap_exprOnly] at same
      obtain ⟨stop', atStop', continues⟩ := ih free (ends.drop within atMiddle atMiddle') later
      refine ⟨stop', atStop'.trans later'.symm,
        continues.imp (fun ⟨others', rest', same'⟩ => ⟨found' ++ others', .more ran' rest', ?_⟩)
          fun ⟨others', rest'⟩ => ⟨found' ++ others', .more ran' rest'⟩⟩
      rw [exprFacts_append, exprFacts_append, same, same']

theorem endsFree_statement : EndsFree (statement scan) start := by
  intro found stop ran free
  obtain ⟨closed, middle, ate, ran⟩ := bind_eq_ok.mp ran
  obtain ⟨same, reached⟩ := eat_eq_ok.mp ate
  split at ran
  · rename_i isClosed
    rw [isClosed] at same
    rw [if_pos same.symm] at reached
    obtain ⟨opened, middle', ate', done⟩ := bind_eq_ok.mp ran
    obtain ⟨_, rfl⟩ := pure_eq_ok.mp done
    obtain ⟨_, rfl⟩ := eat_eq_ok.mp ate'
    have first := Cursor.endsMarked_advance (eq_of_beq same.symm) (by decide)
    split
    · rename_i here
      exact (reaches_of_run ate).endsMarked
        (Cursor.endsMarked_advance (eq_of_beq here) (by decide))
    · exact reached ▸ first
  · rw [get_bind_eq_ok] at ran
    exact (reaches_of_run ate).endsMarked (endsMarked_of_turns (turns_of_collect ran) free)

/-- A statement is resumed, unless it is a close tag alone. -/
theorem resumes_statement (ends : start.NearMark count start')
    (other : start.kind? count ≠ some .closeTag)
    : Resumes count exprFacts (statement scan) (statement scan) start start' := by
  intro found stop ran left free
  obtain ⟨_, middle, ate, rest⟩ := bind_eq_ok.mp ran
  obtain ⟨rfl, atMiddle⟩ := eat_eq_ok.mp ate
  cases closed : start.isAt .closeTag with
  | true =>
      rw [closed, if_pos rfl] at rest
      obtain ⟨_, behind, ate', done⟩ := bind_eq_ok.mp rest
      obtain ⟨rfl, rfl⟩ := pure_eq_ok.mp done
      obtain ⟨rfl, atStop⟩ := eat_eq_ok.mp ate'
      cases opened : middle.isAt .openTag with
      | false =>
          rw [opened] at atStop
          rw [closed] at atMiddle
          rw [show behind = start.advance from atStop.trans atMiddle] at left
          obtain rfl := eq_zero_of_advance ends.lt_length left
          exact absurd (eq_of_beq closed) other
      | true =>
          rw [opened, if_pos rfl] at atStop
          obtain rfl := atStop
          have passes := Cursor.passes_advance (Cursor.ahead_ne_nil_of_isAt opened)
          obtain ⟨n, closed', middle', ate', same, within, left1, left2, later, later'⟩ :=
            (tracks_eat (Nat.lt_succ_self _) ends.near).exists_middle ends ate left
              (fun atMiddle _ => few_of_passes ends.lt_length passes left atMiddle) (.advance .refl)
          obtain ⟨kind, atStop'⟩ := concludes_skip (ends.drop within left1 left2) later
          refine ⟨middle'.advance, atStop'.trans later'.symm, .inl ⟨[], ?_, rfl⟩⟩
          obtain rfl : closed' = true := same.trans closed
          have opened' : middle'.isAt .openTag = true := by
            rw [Cursor.isAt, kind]
            exact opened
          refine bind_eq_ok.mpr ⟨true, middle', ate', bind_eq_ok.mpr ⟨true, _, ?_,
            pure_eq_ok.mpr ⟨rfl, rfl⟩⟩⟩
          exact eat_eq_ok.mpr ⟨opened'.symm, by rw [if_pos opened']⟩
  | false =>
      have closed' : start'.isAt .closeTag = false := (ends.near.isAt_eq _).trans closed
      rw [closed] at atMiddle rest
      obtain rfl : middle = start := atMiddle
      replace rest := get_bind_eq_ok.mp rest
      obtain ⟨stop', left', continues⟩ := (turns_of_collect rest).resume free ends left
      have ran' {found' : List Expr} {stop' : Cursor}
          (turns : Turns (statementTurn scan (middle.isKeyword 0 controlKeywords)
            (middle.atKeyword "do") (middle.isAt .leftBrace)) start' found' stop')
          : (statement scan).run start' = .ok (found', stop') := by
        refine bind_eq_ok.mpr ⟨false, start',
          eat_eq_ok.mpr ⟨closed'.symm, by rw [closed']; rfl⟩, get_bind_eq_ok.mpr ?_⟩
        rw [ends.near.isKeyword_eq, ends.near.atKeyword_eq, ends.near.isAt_eq]
        exact collect_of_turns (strides_statementTurn moves_scan) turns
      refine ⟨stop', left', continues.imp ?_ ?_⟩
      · rintro ⟨found', turns, same⟩
        exact ⟨found', ran' turns, same⟩
      · rintro _ ⟨found', turns⟩
        exact ⟨found', ran' turns⟩

theorem EndsFree.get {next : Cursor → Parser α} (later : EndsFree (next start) start)
    : EndsFree (Parser.get >>= next) start :=
  fun _ _ ran => later (get_bind_eq_ok.mp ran)

theorem EndsFree.after {step : Parser α} {next : α → Parser β}
    (second : ∀ found middle, EndsFree (next found) middle)
    : EndsFree (step >>= next) start := by
  intro result stop ran free
  obtain ⟨found, middle, here, later⟩ := bind_eq_ok.mp ran
  exact (reaches_of_run here).endsMarked (second found middle later free)

/-- A declaration or a statement behind attributes ends behind a mark. -/
theorem endsFree_attributed {attributes : List Expr}
    : EndsFree (Parser.get >>= fun cursor =>
        if cursor.atClass then
          namedClass scan attributes >>= fun found => pure (StmtKind.classLike found)
        else if cursor.atFunction then
          function scan attributes >>= fun found => pure (StmtKind.function found)
        else
          statement scan >>= fun found => pure (StmtKind.other (attributes ++ found))) start := by
  refine .get ?_
  split
  · exact ends_namedClass.endsFree.map
  split
  · exact ends_function.endsFree.map
  · exact endsFree_statement.map

theorem endsFree_stmtKind (other : start.atKeyword "use" = false) : EndsFree stmtKind start := by
  refine .get ?_
  rw [other, if_neg Bool.false_ne_true]
  split
  · exact endsFree_statement.map
  · exact .after fun _ _ => endsFree_attributed

theorem resumes_stmtKind (ends : start.NearMark count start') (other : start.atKeyword "use" = false)
    (open_ : start.kind? count ≠ some .closeTag)
    : Resumes count StmtKind.essence stmtKind stmtKind start start' := by
  refine .get ?_
  rw [ends.near.atKeyword_eq, ends.near.atKeyword_and_kind?_eq (by decide), other,
    if_neg Bool.false_ne_true]
  split
  · refine (resumes_statement ends open_).map fun same => ?_
    simp only [StmtKind.essence, same]
  refine .bind ends
    (tracks_attributes moves_scan tracks_scan (Nat.lt_succ_of_lt (Nat.lt_succ_self _)) ends.near)
    (fun _ _ => endsFree_attributed) fun kind attributed ends => .get ?_
  rw [ends.near.atClass_eq, ends.near.atFunction_eq]
  split
  · refine (concludes_namedClass attributed ends).resumes.map fun same => ?_
    simp only [StmtKind.essence, same]
  split
  · refine (concludes_wholeFunction attributed ends).resumes.map fun same => ?_
    simp only [StmtKind.essence, same]
  · refine (resumes_statement ends (kind ▸ open_)).map fun same => ?_
    simp only [StmtKind.essence, exprFacts_append, attributed, same]

end Parser

end ImportHeader
