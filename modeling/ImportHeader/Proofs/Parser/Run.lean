import ImportHeader.Parser.File

/-! Successful runs of the parser, opened step by step. A repetition that succeeds is a
sequence of turns that go on, and a last one.
-/

namespace ImportHeader

namespace Parser

variable {α β : Type} {start stop : Cursor}

/-- A sequence of two steps succeeds if both do. -/
theorem bind_eq_ok {step : Parser α} {next : α → Parser β} {result : β}
    : (step >>= next).run start = .ok (result, stop)
      ↔ ∃ found middle,
          step.run start = .ok (found, middle)
          ∧ (next found).run middle = .ok (result, stop) := by
  simp only [run, bind]
  cases ran : step start with
  | error error => simp
  | ok pair =>
      obtain ⟨found, middle, first⟩ := pair
      simp only [Except.ok.injEq, Prod.mk.injEq]
      constructor
      · intro done
        refine ⟨found, middle, ⟨rfl, rfl⟩, ?_⟩
        cases later : next found middle with
        | error error => simp [later] at done
        | ok pair =>
            simp only [later] at done
            exact done
      · rintro ⟨_, _, ⟨rfl, rfl⟩, done⟩
        cases later : next found middle with
        | error error => simp [later] at done
        | ok pair =>
            simp only [later] at done
            exact done

@[simp] theorem pure_eq_ok {value result : α}
    : (pure value : Parser α).run start = .ok (result, stop)
      ↔ value = result ∧ start = stop := by
  change Except.ok (value, start) = _ ↔ _
  simp

@[simp] theorem get_eq_ok {cursor : Cursor}
    : get.run start = .ok (cursor, stop) ↔ start = cursor ∧ start = stop := by
  change Except.ok (start, start) = _ ↔ _
  simp

@[simp] theorem skip_eq_ok {result : Unit}
    : skip.run start = .ok (result, stop) ↔ start.advance = stop := by
  change Except.ok ((), start.advance) = _ ↔ _
  simp

/-- An error is no success. -/
@[simp] theorem throw_ne_ok {error : ParseError} {result : α}
    : (throw error : Parser α).run start ≠ .ok (result, stop) :=
  nofun

@[simp] theorem fail_ne_ok {cause : ParseCause} {result : α}
    : (fail cause : Parser α).run start ≠ .ok (result, stop) :=
  nofun

/-- A step only moves forward. -/
theorem reaches_of_run {step : Parser α} {found : α}
    (ran : step.run start = .ok (found, stop))
    : start.Reaches stop := by
  unfold run at ran
  split at ran
  · cases ran
  · rename_i forward _
    cases ran
    exact forward

theorem get_bind_eq_ok {next : Cursor → Parser α} {result : α}
    : (get >>= next).run start = .ok (result, stop)
      ↔ (next start).run start = .ok (result, stop) := by
  rw [bind_eq_ok]
  constructor
  · rintro ⟨_, _, got, ran⟩
    obtain ⟨rfl, rfl⟩ := get_eq_ok.mp got
    exact ran
  · exact fun ran => ⟨start, start, get_eq_ok.mpr ⟨rfl, rfl⟩, ran⟩

theorem skip_bind_eq_ok {next : Unit → Parser α} {result : α}
    : (skip >>= next).run start = .ok (result, stop)
      ↔ (next ()).run start.advance = .ok (result, stop) := by
  rw [bind_eq_ok]
  constructor
  · rintro ⟨_, _, skipped, ran⟩
    obtain rfl := skip_eq_ok.mp skipped
    exact ran
  · exact fun ran => ⟨(), start.advance, skip_eq_ok.mpr rfl, ran⟩

theorem skip_pure_eq_ok {value result : α}
    : (skip >>= fun _ => (pure value : Parser α)).run start = .ok (result, stop)
      ↔ value = result ∧ start.advance = stop := by
  rw [skip_bind_eq_ok, pure_eq_ok]

/-- A sequence that makes its value from what its first step finds stops where that does. -/
theorem bind_pure_eq_ok {step : Parser α} {value : α → β} {result : β}
    : (step >>= fun found => pure (value found)).run start = .ok (result, stop)
      ↔ ∃ found, step.run start = .ok (found, stop) ∧ value found = result := by
  rw [bind_eq_ok]
  constructor
  · rintro ⟨found, middle, here, done⟩
    obtain ⟨same, rfl⟩ := pure_eq_ok.mp done
    exact ⟨found, here, same⟩
  · rintro ⟨found, here, same⟩
    exact ⟨found, stop, here, pure_eq_ok.mpr ⟨same, rfl⟩⟩

/-- A sequence that makes its value from what its first step finds makes no other one. -/
theorem bind_pure_ne_ok {step : Parser α} {value : α → β} {result : β}
    (apart : ∀ found, value found ≠ result)
    : (step >>= fun found => pure (value found)).run start ≠ .ok (result, stop) := by
  intro ran
  obtain ⟨found, _, same⟩ := bind_pure_eq_ok.mp ran
  exact apart found same

/-- Eating tells whether a token of the kind stands here, and moves behind it if so. -/
theorem eat_eq_ok {kind : TokenKind} {eaten : Bool}
    : (eat kind).run start = .ok (eaten, stop)
      ↔ eaten = start.isAt kind
        ∧ stop = if start.isAt kind then start.advance else start := by
  unfold eat
  rw [get_bind_eq_ok]
  split
  · rename_i here
    rw [skip_bind_eq_ok, pure_eq_ok, here]
    simp [eq_comm]
  · rename_i other
    rw [pure_eq_ok, Bool.eq_false_iff.mpr other]
    simp [eq_comm]

theorem eatKeyword_eq_ok {keyword : Text} {eaten : Bool}
    : (eatKeyword keyword).run start = .ok (eaten, stop)
      ↔ eaten = start.atKeyword keyword
        ∧ stop = if start.atKeyword keyword then start.advance else start := by
  unfold eatKeyword
  rw [get_bind_eq_ok]
  split
  · rename_i here
    rw [skip_bind_eq_ok, pure_eq_ok, here]
    simp [eq_comm]
  · rename_i other
    rw [pure_eq_ok, Bool.eq_false_iff.mpr other]
    simp [eq_comm]

/-- An expected token stands here. -/
theorem expect_eq_ok {kind : TokenKind} {what : Expectation} {token : Token}
    : (expect kind what).run start = .ok (token, stop)
      ↔ start.token? 0 = some token ∧ token.kind = kind ∧ stop = start.advance := by
  unfold expect
  rw [get_bind_eq_ok]
  cases start.token? 0 with
  | none => simp
  | some next =>
      dsimp only
      split
      · rename_i here
        rw [skip_bind_eq_ok, pure_eq_ok]
        constructor
        · rintro ⟨rfl, rfl⟩
          exact ⟨rfl, here, rfl⟩
        · rintro ⟨same, _, rfl⟩
          exact ⟨Option.some.inj same, rfl⟩
      · rename_i other
        simp only [fail_ne_ok, Option.some.injEq, false_iff]
        rintro ⟨rfl, here, _⟩
        exact other here

/-- A name is read from a name token, and nothing from any other. -/
theorem name?_eq_ok {found : Option LocatedName}
    : name?.run start = .ok (found, stop)
      ↔ (∃ token, start.token? 0 = some token ∧ token.kind = .name
          ∧ found = LocatedName.read? token.text token.span ∧ stop = start.advance)
        ∨ start.kind? 0 ≠ some .name ∧ found = none ∧ stop = start := by
  unfold name? Cursor.kind?
  rw [get_bind_eq_ok]
  cases start.token? 0 with
  | none =>
      rw [pure_eq_ok]
      simp [eq_comm]
  | some next =>
      dsimp only
      split
      · rename_i here
        rw [skip_bind_eq_ok, pure_eq_ok]
        simp [here, eq_comm]
      · rename_i other
        rw [pure_eq_ok]
        simp [other, eq_comm (a := none), eq_comm (a := start)]

theorem expectName_eq_ok {what : Expectation} {found : LocatedName}
    : (expectName what).run start = .ok (found, stop)
      ↔ ∃ token, start.token? 0 = some token ∧ token.kind = .name
          ∧ LocatedName.read? token.text token.span = some found
          ∧ stop = start.advance := by
  unfold expectName
  rw [bind_eq_ok]
  constructor
  · rintro ⟨result, middle, read, ran⟩
    cases result with
    | none => simp at ran
    | some name =>
        obtain ⟨rfl, rfl⟩ := pure_eq_ok.mp ran
        rcases name?_eq_ok.mp read with ⟨token, next, kind, same, moved⟩ | ⟨_, absent, _⟩
        · exact ⟨token, next, kind, same.symm, moved⟩
        · cases absent
  · rintro ⟨token, next, kind, same, moved⟩
    exact ⟨some found, stop, name?_eq_ok.mpr (.inl ⟨token, next, kind, same.symm, moved⟩),
      pure_eq_ok.mpr ⟨rfl, rfl⟩⟩

/-- What a turn finds. -/
def Turn.found : Turn α → List α
  | .more found => found
  | .last found => found

/-- Turns that lead from one cursor to another, and what they find together. -/
inductive Turns (turn : Parser (Turn α)) : Cursor → List α → Cursor → Prop
  | last {start stop found} (ran : turn.run start = .ok (.last found, stop))
    : Turns turn start found stop
  | more {start middle stop found others} (ran : turn.run start = .ok (.more found, middle))
    (rest : Turns turn middle others stop)
    : Turns turn start (found ++ others) stop

/-- A repetition that succeeds within its budget takes turns until the last one. -/
theorem turns_of_collectWithin {turn : Parser (Turn α)} {budget : List Lexeme}
    {found : List α} (ran : (collectWithin turn budget).run start = .ok (found, stop))
    : Turns turn start found stop := by
  induction budget generalizing start found with
  | nil =>
      unfold collectWithin at ran
      obtain ⟨result, middle, first, rest⟩ := bind_eq_ok.mp ran
      cases result with
      | more more => simp at rest
      | last last =>
          obtain ⟨rfl, rfl⟩ := pure_eq_ok.mp rest
          exact .last first
  | cons _ budget ih =>
      unfold collectWithin at ran
      obtain ⟨result, middle, first, rest⟩ := bind_eq_ok.mp ran
      cases result with
      | more more =>
          obtain ⟨others, final, later, done⟩ := bind_eq_ok.mp rest
          obtain ⟨rfl, rfl⟩ := pure_eq_ok.mp done
          exact .more first (ih later)
      | last last =>
          obtain ⟨rfl, rfl⟩ := pure_eq_ok.mp rest
          exact .last first

/-- A repetition that succeeds takes turns until the last one. -/
theorem turns_of_collect {turn : Parser (Turn α)} {found : List α}
    (ran : (collect turn).run start = .ok (found, stop))
    : Turns turn start found stop := by
  unfold collect at ran
  obtain ⟨cursor, middle, got, rest⟩ := bind_eq_ok.mp ran
  obtain ⟨rfl, rfl⟩ := get_eq_ok.mp got
  exact turns_of_collectWithin rest

/-- What each turn gives to all it finds, the turns together give to all they find. -/
theorem Turns.forall {turn : Parser (Turn α)} {found : List α} {property : α → Prop}
    (each
      : ∀ {start stop result},
          turn.run start = .ok (result, stop) → ∀ x ∈ result.found, property x)
    (turns : Turns turn start found stop)
    : ∀ x ∈ found, property x := by
  induction turns with
  | last ran => exact each ran
  | more ran _ ih =>
      intro x member
      rcases List.mem_append.mp member with here | later
      · exact each ran x here
      · exact ih x later

end Parser

/-- A source that parses: its comments and lines, and how its items come from the tokens of
its code, if it has an open tag.
-/
theorem parse_eq_ok {source : Text} {file : SourceFile} (parsed : parse source = .ok file)
    : file.markup? = (splitMarkup (tokenize source)).1
      ∧ file.docComments
        = ((tokenize source).filter fun token => token.kind == .docComment).map Token.text
      ∧ file.lines = LineIndex.ofText source
      ∧ ((splitMarkup (tokenize source)).2 = [] ∧ file.openTag? = none ∧ file.items = []
        ∨ ∃ tag rest comment? stop,
            (splitMarkup (tokenize source)).2 = tag :: rest
            ∧ Parser.code.run (Cursor.ofTokens source rest tag.stop)
              = .ok ((comment?, file.items), stop)
            ∧ file.openTag? = some ⟨tag.text, tag.span, comment?⟩) := by
  unfold parse at parsed
  simp only at parsed
  cases code : (splitMarkup (tokenize source)).2 with
  | nil =>
      simp only [code, pure, Except.pure, Except.ok.injEq] at parsed
      subst parsed
      exact ⟨rfl, rfl, rfl, .inl ⟨rfl, rfl, rfl⟩⟩
  | cons tag rest =>
      simp only [code] at parsed
      cases ran : Parser.code.run (Cursor.ofTokens source rest tag.stop) with
      | error error => simp [ran, bind, Except.bind] at parsed
      | ok result =>
          obtain ⟨⟨comment?, items⟩, stop⟩ := result
          simp only [ran, bind, Except.bind, pure, Except.pure,
            Except.ok.injEq] at parsed
          subst parsed
          exact ⟨rfl, rfl, rfl, .inr ⟨tag, rest, comment?, stop, rfl, ran, rfl⟩⟩

/-- A source whose file passes a computed test parses to such a file. -/
theorem exists_of_parses {source : Text} (test : SourceFile → Bool)
    (passes : (parse source).toOption.any test = true)
    : ∃ file, parse source = .ok file ∧ test file = true := by
  cases parsed : parse source with
  | error error =>
      rw [parsed] at passes
      cases passes
  | ok file =>
      rw [parsed] at passes
      exact ⟨file, rfl, passes⟩

end ImportHeader
