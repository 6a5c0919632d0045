import ImportHeader.Proofs.Parser.Nearness

/-! Two runs of the parser in step. Where two cursors stand before alike tokens, a step that
succeeds from one of them without leaving these tokens succeeds from the other, moves behind
as many tokens and finds the same. What stands behind the tokens does not matter, as long as
no step can look beyond their end.
-/

namespace ImportHeader

-----------------------------------------------------------------------------------------
-- Steps that follow each other
-----------------------------------------------------------------------------------------

namespace Parser

variable {α β γ δ : Type} {bound count : Nat} {view : α → γ} {start start' : Cursor}

/-- What a step finds within the next tokens, another step finds from another cursor, and it
moves behind as many tokens.
-/
def Follows (count : Nat) (view : α → γ) (step step' : Parser α) (start start' : Cursor)
    : Prop :=
  ∀ ⦃found : α⦄ ⦃stop : Cursor⦄ ⦃n : Nat⦄,
    step.run start = .ok (found, stop)
    → stop.ahead = start.ahead.drop n
    → n ≤ count
    → ∃ found' stop',
        step'.run start' = .ok (found', stop')
        ∧ stop'.ahead = start'.ahead.drop n
        ∧ view found' = view found

/-- A step follows another one from all cursors that have less than `bound` alike tokens
before them.
-/
def Tracks (bound : Nat) (view : α → γ) (step step' : Parser α) : Prop :=
  ∀ ⦃count : Nat⦄ ⦃start start' : Cursor⦄,
    count < bound
    → Near count start.ahead start'.ahead
    → Follows count view step step' start start'

/-- What `Tracks` says, for cursors that stand before a token. -/
def TracksAhead (bound : Nat) (view : α → γ) (step step' : Parser α) : Prop :=
  ∀ ⦃count : Nat⦄ ⦃start start' : Cursor⦄,
    count < bound
    → start.ahead ≠ []
    → Near count start.ahead start'.ahead
    → Follows count view step step' start start'

theorem Tracks.mono {step step' : Parser α} {less : Nat} (tracks : Tracks bound view step step')
    (few : less ≤ bound)
    : Tracks less view step step' :=
  fun _ _ _ within near => tracks (Nat.lt_of_lt_of_le within few) near

theorem Tracks.ahead {step step' : Parser α} (tracks : Tracks bound view step step')
    : TracksAhead bound view step step' :=
  fun _ _ _ within _ near => tracks within near

/-- What is left of the tokens, as the number of those that were passed. -/
theorem exists_drop_of_run {step : Parser α} {found : α} {stop : Cursor}
    (ran : step.run start = .ok (found, stop))
    : ∃ n ≤ start.ahead.length, stop.ahead = start.ahead.drop n := by
  obtain ⟨passed, cut⟩ := (reaches_of_run ran).ahead_suffix
  refine ⟨passed.length, ?_, ?_⟩
  · rw [← cut, List.length_append]
    omega
  · rw [← cut, List.drop_left]

/-- Two steps in a row, the second from wherever the first one leads. -/
theorem Follows.bind {view' : β → δ} {step step' : Parser α} {next next' : α → Parser β}
    (near : Near count start.ahead start'.ahead)
    (first : Follows count view step step' start start')
    (second
      : ∀ {n found found' middle middle'},
          n ≤ count
          → step.run start = .ok (found, middle)
          → middle.ahead = start.ahead.drop n
          → view found' = view found
          → Near (count - n) middle.ahead middle'.ahead
          → Follows (count - n) view' (next found) (next' found') middle middle')
    : Follows count view' (step >>= next) (step' >>= next') start start' := by
  intro result stop n ran left few
  obtain ⟨found, middle, begun, rest⟩ := bind_eq_ok.mp ran
  obtain ⟨i, short, atMiddle⟩ := exists_drop_of_run begun
  obtain ⟨j, short', atStop⟩ := exists_drop_of_run rest
  -- The tokens that both steps pass add up, since all of them are within the common ones.
  have sum : n = i + j := by
    have lengths := congrArg List.length (left.symm.trans (atStop.trans (by rw [atMiddle])))
    have enough := near.length_le
    rw [atMiddle] at short'
    simp only [List.length_drop] at lengths short'
    omega
  obtain ⟨found', middle', begun', atMiddle', same⟩ := first begun atMiddle (by omega)
  have near' : Near (count - i) middle.ahead middle'.ahead := by
    rw [atMiddle, atMiddle']
    exact near.drop (by omega)
  obtain ⟨result', stop', rest', atStop', same'⟩ :=
    second (by omega) begun atMiddle same near' rest atStop (by omega)
  refine ⟨result', stop', bind_eq_ok.mpr ⟨found', middle', begun', rest'⟩, ?_, same'⟩
  rw [atStop', atMiddle', List.drop_drop, sum]

theorem Tracks.bind {view' : β → δ} {step step' : Parser α} {next next' : α → Parser β}
    (first : Tracks bound view step step')
    (second
      : ∀ {found found'},
          view found' = view found → Tracks bound view' (next found) (next' found'))
    : Tracks bound view' (step >>= next) (step' >>= next') :=
  fun _ _ _ within near => Follows.bind near (first within near)
    fun _ _ _ same near' => second same (Nat.lt_of_le_of_lt (Nat.sub_le _ _) within) near'

theorem Tracks.pure {value value' : α} (same : view value' = view value)
    : Tracks bound view (pure value) (pure value') := by
  intro count start start' _ near found stop n ran left few
  obtain ⟨rfl, rfl⟩ := pure_eq_ok.mp ran
  refine ⟨value', start', pure_eq_ok.mpr ⟨rfl, rfl⟩, ?_, same⟩
  have enough := near.length_le
  have none : n = 0 := by
    have lengths := congrArg List.length left
    rw [List.length_drop] at lengths
    omega
  rw [none, List.drop_zero]

theorem Tracks.throw {error : ParseError} {step' : Parser α}
    : Tracks bound view (throw error) step' :=
  fun _ _ _ _ _ _ _ _ ran => absurd ran throw_ne_ok

theorem Tracks.fail {cause : ParseCause} {step' : Parser α}
    : Tracks bound view (fail cause) step' :=
  fun _ _ _ _ _ _ _ _ ran => absurd ran fail_ne_ok

theorem Tracks.get {next next' : Cursor → Parser α}
    (each
      : ∀ {count start start'},
          count < bound
          → Near count start.ahead start'.ahead
          → Follows count view (next start) (next' start') start start')
    : Tracks bound view (get >>= next) (get >>= next') := by
  intro count start start' within near found stop n ran left few
  obtain ⟨found', stop', ran', left', same⟩ :=
    each within near (get_bind_eq_ok.mp ran) left few
  exact ⟨found', stop', get_bind_eq_ok.mpr ran', left', same⟩

theorem TracksAhead.get {next next' : Cursor → Parser α}
    (each
      : ∀ {count start start'},
          count < bound
          → start.ahead ≠ []
          → Near count start.ahead start'.ahead
          → Follows count view (next start) (next' start') start start')
    : TracksAhead bound view (get >>= next) (get >>= next') := by
  intro count start start' within here near found stop n ran left few
  obtain ⟨found', stop', ran', left', same⟩ :=
    each within here near (get_bind_eq_ok.mp ran) left few
  exact ⟨found', stop', get_bind_eq_ok.mpr ran', left', same⟩

theorem TracksAhead.bind {view' : β → δ} {step step' : Parser α} {next next' : α → Parser β}
    (first : TracksAhead bound view step step')
    (second
      : ∀ {found found'},
          view found' = view found → Tracks bound view' (next found) (next' found'))
    : TracksAhead bound view' (step >>= next) (step' >>= next') :=
  fun _ _ _ within here near => Follows.bind near (first within here near)
    fun _ _ _ same near' => second same (Nat.lt_of_le_of_lt (Nat.sub_le _ _) within) near'

theorem Tracks.skip : Tracks bound (fun _ => ()) skip skip := by
  intro count start start' _ near found stop n ran left few
  obtain rfl := skip_eq_ok.mp ran
  refine ⟨(), start'.advance, skip_eq_ok.mpr rfl, ?_, rfl⟩
  rw [Cursor.advance_ahead] at left ⊢
  have enough := near.length_le
  have lengths := congrArg List.length left
  simp only [List.length_drop] at lengths
  by_cases ended : start.ahead = []
  · have none : n = 0 := by
      rw [ended, List.length_nil] at enough
      omega
    have ended' : start'.ahead = [] := (ended ▸ near).eq_nil
    rw [none, ended']
    rfl
  · have longer := List.length_pos_iff.mpr ended
    have one : n = 1 := by omega
    rw [one]

/-- Behind a token that stands here, one alike token less is ahead. -/
theorem TracksAhead.skip_bind {next next' : Unit → Parser α}
    (rest : Tracks bound view (next ()) (next' ()))
    : TracksAhead (bound + 1) view (Parser.skip >>= next) (Parser.skip >>= next') := by
  intro count start start' within here near
  refine Follows.bind near (Tracks.skip (Nat.lt_succ_self count) near)
    fun few skipped left _ near' => rest ?_ near'
  obtain rfl := skip_eq_ok.mp skipped
  rw [Cursor.advance_ahead] at left
  have lengths := congrArg List.length left
  have longer := List.length_pos_iff.mpr here
  have enough := near.length_le
  simp only [List.length_drop] at lengths
  omega

-----------------------------------------------------------------------------------------
-- Repetitions
-----------------------------------------------------------------------------------------

/-- What a turn finds, and whether it goes on. -/
def Turn.shown (view : α → List γ) : Turn α → Bool × List γ
  | .more found => (true, found.flatMap view)
  | .last found => (false, found.flatMap view)

theorem Turn.shown_eq_last {view : α → List γ} {turn : Turn α} {found : List α}
    (same : turn.shown view = (Turn.last found).shown view)
    : ∃ found', turn = .last found' ∧ found'.flatMap view = found.flatMap view := by
  cases turn with
  | more found' => cases congrArg Prod.fst same
  | last found' => exact ⟨found', rfl, congrArg Prod.snd same⟩

theorem Turn.shown_eq_more {view : α → List γ} {turn : Turn α} {found : List α}
    (same : turn.shown view = (Turn.more found).shown view)
    : ∃ found', turn = .more found' ∧ found'.flatMap view = found.flatMap view := by
  cases turn with
  | last found' => cases congrArg Prod.fst same
  | more found' => exact ⟨found', rfl, congrArg Prod.snd same⟩

theorem collectWithin_of_last {turn : Parser (Turn α)} {found : List α} {stop : Cursor}
    (budget : List Lexeme) (ran : turn.run start = .ok (.last found, stop))
    : (collectWithin turn budget).run start = .ok (found, stop) := by
  unfold collectWithin
  exact bind_eq_ok.mpr ⟨_, _, ran, pure_eq_ok.mpr ⟨rfl, rfl⟩⟩

theorem collectWithin_of_more {turn : Parser (Turn α)} {found others : List α}
    {middle stop : Cursor} {lexeme : Lexeme} {budget : List Lexeme}
    (ran : turn.run start = .ok (.more found, middle))
    (rest : (collectWithin turn budget).run middle = .ok (others, stop))
    : (collectWithin turn (lexeme :: budget)).run start = .ok (found ++ others, stop) := by
  rw [collectWithin]
  exact bind_eq_ok.mpr ⟨_, _, ran, bind_eq_ok.mpr ⟨_, _, rest, pure_eq_ok.mpr ⟨rfl, rfl⟩⟩⟩

/-- Turns that stride are followed within any budget that covers the alike tokens, by
induction over the turns: each one that goes on uses up a token of both.
-/
theorem Turns.follow {view : α → List γ} {turn turn' : Parser (Turn α)} {found : List α}
    {stop : Cursor} (strides : Strides turn) (tracks : Tracks bound (Turn.shown view) turn turn')
    (turns : Turns turn start found stop)
    : ∀ {count : Nat} {start' : Cursor} {n : Nat} {budget : List Lexeme},
        count < bound
        → Near count start.ahead start'.ahead
        → stop.ahead = start.ahead.drop n
        → n ≤ count
        → count ≤ budget.length
        → ∃ found' stop',
            (collectWithin turn' budget).run start' = .ok (found', stop')
            ∧ stop'.ahead = start'.ahead.drop n
            ∧ found'.flatMap view = found.flatMap view := by
  induction turns with
  | last ran =>
      intro count start' n budget within near left few _
      obtain ⟨result, stop', ran', left', shown⟩ := tracks within near ran left few
      obtain ⟨found', rfl, same⟩ := Turn.shown_eq_last shown
      exact ⟨found', stop', collectWithin_of_last budget ran', left', same⟩
  | @more start middle stop found others ran rest ih =>
      intro count start' n budget within near left few enough
      obtain ⟨i, short, atMiddle⟩ := exists_drop_of_run ran
      have passed : start.Passes middle := strides ran
      have shorter := rest.reaches.length_le
      have lengths := congrArg List.length left
      have lengths' := congrArg List.length atMiddle
      have covers := near.length_le
      unfold Cursor.Passes at passed
      simp only [List.length_drop] at lengths lengths'
      obtain ⟨result, middle', ran', atMiddle', shown⟩ :=
        tracks within near ran atMiddle (by omega)
      obtain ⟨found', rfl, same⟩ := Turn.shown_eq_more shown
      have near' : Near (count - i) middle.ahead middle'.ahead := by
        rw [atMiddle, atMiddle']
        exact near.drop (by omega)
      cases budget with
      | nil =>
          simp only [List.length_nil] at enough
          omega
      | cons lexeme budget =>
          simp only [List.length_cons] at enough
          have left' : stop.ahead = middle.ahead.drop (n - i) := by
            rw [left, atMiddle, List.drop_drop]
            congr 1
            omega
          have covered : count - i ≤ budget.length := by omega
          obtain ⟨others', stop', rest', atStop', same'⟩ :=
            ih (by omega) near' left' (by omega) covered
          refine ⟨found' ++ others', stop', collectWithin_of_more ran' rest', ?_, ?_⟩
          · rw [atStop', atMiddle', List.drop_drop]
            congr 1
            omega
          · rw [List.flatMap_append, List.flatMap_append, same, same']

/-- A repetition follows another one if its turns do. -/
theorem Tracks.collect {view : α → List γ} {turn turn' : Parser (Turn α)}
    (strides : Strides turn) (tracks : Tracks bound (Turn.shown view) turn turn')
    : Tracks bound (List.flatMap view) (collect turn) (collect turn') := by
  intro count start start' within near found stop n ran left few
  obtain ⟨found', stop', ran', left', same⟩ :=
    (turns_of_collect ran).follow strides tracks within near left few near.length_le_right
  exact ⟨found', stop', get_bind_eq_ok.mpr ran', left', same⟩

-----------------------------------------------------------------------------------------
-- Single tokens
-----------------------------------------------------------------------------------------

/-- A token that is passed within the alike ones stands before the other cursor too. -/
theorem token?_of_advance {n : Nat} {token : Token} (near : Near count start.ahead start'.ahead)
    (here : start.token? 0 = some token) (left : start.advance.ahead = start.ahead.drop n)
    (few : n ≤ count)
    : n = 1
      ∧ ∃ token', start'.token? 0 = some token' ∧ token'.kind = token.kind
          ∧ (token.kind = .name → token'.text = token.text) := by
  have longer := List.length_pos_iff.mpr (Cursor.ahead_ne_nil_of_token? here)
  have enough := near.length_le
  rw [Cursor.advance_ahead] at left
  have lengths := congrArg List.length left
  simp only [List.length_drop] at lengths
  have one : n = 1 := by omega
  refine ⟨one, ?_⟩
  unfold Cursor.token? at here ⊢
  generalize start.ahead = first at *
  generalize start'.ahead = second at *
  cases near with
  | ended => simp at longer
  | border => omega
  | step alike _ =>
      obtain rfl := Option.some.inj here
      exact ⟨_, rfl, alike.1, alike.2⟩

/-- No token is passed by a step that stays. -/
theorem eq_zero_of_stay {n : Nat} (near : Near count start.ahead start'.ahead)
    (left : start.ahead = start.ahead.drop n) (few : n ≤ count)
    : n = 0 := by
  have enough := near.length_le
  have lengths := congrArg List.length left
  rw [List.length_drop] at lengths
  omega

theorem tracks_eat {kind : TokenKind} : Tracks bound id (eat kind) (eat kind) := by
  unfold eat
  refine .get fun within near => ?_
  rw [near.isAt_eq]
  split
  · exact Tracks.skip.bind (fun _ => .pure rfl) within near
  · exact Tracks.pure rfl within near

theorem tracks_eatKeyword {keyword : Text}
    : Tracks bound id (eatKeyword keyword) (eatKeyword keyword) := by
  unfold eatKeyword
  refine .get fun within near => ?_
  rw [near.atKeyword_eq]
  split
  · exact Tracks.skip.bind (fun _ => .pure rfl) within near
  · exact Tracks.pure rfl within near

theorem tracks_name? : Tracks bound (Option.map LocatedName.name) name? name? := by
  intro count start start' _ near found stop n ran left few
  rcases name?_eq_ok.mp ran with ⟨token, next, kind, rfl, rfl⟩ | ⟨other, rfl, rfl⟩
  · obtain ⟨rfl, token', next', kind', text'⟩ := token?_of_advance near next left few
    refine ⟨_, _, name?_eq_ok.mpr (.inl ⟨token', next', kind'.trans kind, rfl, rfl⟩),
      Cursor.advance_ahead _, ?_⟩
    rw [text' kind, LocatedName.map_name_read?, LocatedName.map_name_read?]
  · obtain rfl := eq_zero_of_stay near left few
    exact ⟨none, start', name?_eq_ok.mpr (.inr ⟨near.kind?_eq ▸ other, rfl, rfl⟩), rfl, rfl⟩

theorem tracks_expectName {what : Expectation}
    : Tracks bound LocatedName.name (expectName what) (expectName what) := by
  refine tracks_name?.bind fun {found found'} same => ?_
  cases found with
  | none => exact .fail
  | some name =>
      cases found' with
      | none => cases same
      | some name' => exact .pure (Option.some.inj same)

/-- An expected token that is passed leaves one alike token less. -/
theorem Tracks.expect_bind {kind : TokenKind} {what : Expectation}
    {next next' : Token → Parser α}
    (rest
      : ∀ {token token'},
          token'.kind = token.kind
          → (token.kind = .name → token'.text = token.text)
          → Tracks bound view (next token) (next' token'))
    : Tracks (bound + 1) view (expect kind what >>= next) (expect kind what >>= next') := by
  intro count start start' within near result stop n ran left few
  obtain ⟨token, middle, expected, ran⟩ := bind_eq_ok.mp ran
  obtain ⟨here, rfl, rfl⟩ := expect_eq_ok.mp expected
  obtain ⟨j, short, atStop⟩ := exists_drop_of_run ran
  have longer := List.length_pos_iff.mpr (Cursor.ahead_ne_nil_of_token? here)
  have enough := near.length_le
  have lengths := congrArg List.length (left.symm.trans atStop)
  rw [Cursor.advance_ahead] at lengths short
  simp only [List.length_drop] at lengths short
  obtain ⟨_, token', here', kind', text'⟩ :=
    token?_of_advance near here (Cursor.advance_ahead start) (by omega)
  obtain ⟨count, rfl⟩ : ∃ less, count = less + 1 := ⟨count - 1, by omega⟩
  obtain ⟨result', stop', ran', atStop', same⟩ :=
    rest kind' text' (Nat.lt_of_succ_lt_succ within) near.advance ran atStop (by omega)
  refine ⟨result', stop', bind_eq_ok.mpr ⟨token', _, expect_eq_ok.mpr ⟨here', kind', rfl⟩, ran'⟩,
    ?_, same⟩
  rw [atStop', Cursor.advance_ahead, List.drop_drop]
  congr 1
  omega

theorem Tracks.expect {kind : TokenKind} {what : Expectation}
    : Tracks bound (fun _ => ()) (expect kind what) (expect kind what) := by
  intro count start start' _ near token stop n ran left few
  obtain ⟨here, rfl, rfl⟩ := expect_eq_ok.mp ran
  obtain ⟨rfl, token', here', kind', _⟩ := token?_of_advance near here left few
  exact ⟨token', _, expect_eq_ok.mpr ⟨here', kind', rfl⟩, Cursor.advance_ahead _, rfl⟩

/-- A token that is eaten leaves one alike token less. -/
theorem Tracks.eat_bind {kind : TokenKind} {next next' : Bool → Parser α}
    (eaten : Tracks bound view (next true) (next' true))
    (missed : Tracks (bound + 1) view (next false) (next' false))
    : Tracks (bound + 1) view (eat kind >>= next) (eat kind >>= next') := by
  intro count start start' within near
  refine Follows.bind near (tracks_eat within near)
    fun {n found found' middle _} _ ate left same near' => ?_
  obtain rfl : found' = found := same
  cases found' with
  | false => exact missed (Nat.lt_of_le_of_lt (Nat.sub_le _ _) within) near'
  | true =>
      have passed := passes_of_eat ate
      unfold Cursor.Passes at passed
      rw [left, List.length_drop] at passed
      exact eaten (by omega) near'

end Parser

end ImportHeader
