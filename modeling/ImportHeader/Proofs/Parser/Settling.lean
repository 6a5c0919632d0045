import ImportHeader.Proofs.Parser.Progress

/-! The budgets of repetitions are never used up. A repetition whose turns make progress does the
same with every budget that covers the lexemes ahead, so it follows its recursion without a budget,
and it stalls only where one of its turns does.
-/

namespace ImportHeader

namespace Parser

variable {α β : Type} {start middle stop : Cursor}

-----------------------------------------------------------------------------------------
-- Steps that do the same
-----------------------------------------------------------------------------------------

theorem run_bind (step : Parser α) (next : α → Parser β) (start : Cursor)
    : (step >>= next).run start
      = match step.run start with
        | .error error => .error error
        | .ok (found, middle) => (next found).run middle := by
  simp only [run, bind]
  cases step start with
  | error error => rfl
  | ok pair =>
      obtain ⟨found, middle, first⟩ := pair
      dsimp only
      cases next found middle with
      | error error => rfl
      | ok pair => rfl

/-- Two steps do the same from a cursor, and do not stall there. -/
structure Settles (step step' : Parser α) (start : Cursor) : Prop where
  same : step.run start = step'.run start
  ends : ∀ span, step.run start ≠ .error ⟨.stalled, span⟩

theorem settles_pure {value : α} : Settles (pure value) (pure value) start :=
  ⟨rfl, nofun⟩

theorem Settles.bind {step step' : Parser α} {next next' : α → Parser β}
    (first : Settles step step' start)
    (later
      : ∀ {found middle}, step.run start = .ok (found, middle)
          → Settles (next found) (next' found) middle)
    : Settles (step >>= next) (step' >>= next') start := by
  constructor
  · rw [run_bind, run_bind, ← first.same]
    cases ran : step.run start with
    | error error => rfl
    | ok pair => exact (later ran).same
  · intro span
    rw [run_bind]
    cases ran : step.run start with
    | error error =>
        rintro ⟨⟩
        exact first.ends span ran
    | ok pair => exact (later ran).ends span

-----------------------------------------------------------------------------------------
-- Repetitions
-----------------------------------------------------------------------------------------

/-- A turn that goes on leaves a budget that covers the lexemes behind it. -/
theorem Strides.exists_rest {turn : Parser (Turn α)} (strides : Strides turn)
    {budget : List Lexeme} {found : List α} (ran : turn.run start = .ok (.more found, stop))
    (enough : start.ahead.length ≤ budget.length)
    : ∃ lexeme rest, budget = lexeme :: rest ∧ stop.ahead.length ≤ rest.length := by
  have passed : stop.ahead.length < start.ahead.length := strides ran
  cases budget with
  | nil =>
      rw [List.length_nil] at enough
      omega
  | cons lexeme rest =>
      rw [List.length_cons] at enough
      exact ⟨lexeme, rest, rfl, by omega⟩

/-- Repetitions of turns that do the same from here on do the same with all budgets that cover the
lexemes ahead.
-/
theorem settles_collectWithin {turn turn' : Parser (Turn α)} (strides : Strides turn)
    {budget budget' : List Lexeme}
    (each : ∀ ⦃middle : Cursor⦄, start.Reaches middle → Settles turn turn' middle)
    (enough : start.ahead.length ≤ budget.length) (enough' : start.ahead.length ≤ budget'.length)
    : Settles (collectWithin turn budget) (collectWithin turn' budget') start := by
  induction budget generalizing start budget' with
  | nil =>
      unfold collectWithin
      refine (each .refl).bind fun {result middle} ran => ?_
      cases result with
      | last found => exact settles_pure
      | more found =>
          obtain ⟨_, _, none, _⟩ := strides.exists_rest ran enough
          cases none
  | cons lexeme rest ih =>
      unfold collectWithin
      refine (each .refl).bind fun {result middle} ran => ?_
      cases result with
      | last found => exact settles_pure
      | more found =>
          obtain ⟨_, _, ⟨⟩, covers⟩ := strides.exists_rest ran enough
          obtain ⟨_, _, rfl, covers'⟩ := strides.exists_rest ran enough'
          have reached := reaches_of_run ran
          exact (ih (fun _ further => each (reached.trans further)) covers covers').bind
            fun _ => settles_pure

theorem settles_collect {turn turn' : Parser (Turn α)} (strides : Strides turn)
    (each : ∀ ⦃middle : Cursor⦄, start.Reaches middle → Settles turn turn' middle)
    : Settles (collect turn) (collect turn') start := by
  refine Settles.bind ⟨rfl, nofun⟩ fun {cursor last} got => ?_
  obtain ⟨rfl, rfl⟩ := get_eq_ok.mp got
  exact settles_collectWithin strides each (Nat.le_refl _) (Nat.le_refl _)

theorem run_collect_ahead {turn : Parser (Turn α)}
    : (collect turn).run start = (collectWithin turn start.ahead).run start :=
  run_bind _ _ _

/-- A repetition stalls where one of its turns does. -/
theorem ends_of_collect {turn : Parser (Turn α)} {span : Span}
    (ends : (collect turn).run start ≠ .error ⟨.stalled, span⟩)
    : turn.run start ≠ .error ⟨.stalled, span⟩ := by
  intro stalled
  refine ends ?_
  rw [run_collect_ahead, collectWithin, run_bind, stalled]

/-- A repetition takes a turn and, unless that is the last one, goes on as a repetition. -/
theorem run_collect {turn : Parser (Turn α)} (strides : Strides turn)
    (ends : ∀ middle span, turn.run middle ≠ .error ⟨.stalled, span⟩)
    : (collect turn).run start
      = Parser.run (do
          match ← turn with
          | .last found => return found
          | .more found => return found ++ (← collect turn)) start := by
  have each (middle : Cursor) : Settles turn turn middle := ⟨rfl, ends middle⟩
  rw [run_collect_ahead]
  unfold collectWithin
  refine ((each start).bind fun {result middle} ran => ?_).same
  cases result with
  | last found => exact settles_pure
  | more found =>
      obtain ⟨_, rest, cut, covers⟩ := strides.exists_rest ran (Nat.le_refl _)
      have within := settles_collectWithin strides (fun middle _ => each middle) covers
        (Nat.le_refl middle.ahead.length)
      have whole : Settles (collectWithin turn rest) (collect turn) middle :=
        ⟨within.same.trans run_collect_ahead.symm, within.ends⟩
      simp only [cut]
      exact whole.bind fun _ => settles_pure

end Parser

end ImportHeader
