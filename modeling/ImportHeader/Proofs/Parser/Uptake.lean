import ImportHeader.Proofs.Parser.Rejoining

/-! Steps that end with a closing bracket, before the import of a class. What stands behind the bracket
in one run is an import in another, where such a step ends at the import or takes up part of it.
-/

namespace ImportHeader

open Lexer

-----------------------------------------------------------------------------------------
-- Imports ahead
-----------------------------------------------------------------------------------------

/-- The tokens of the import of one class, behind its keyword, with others behind them. -/
def NamesImport (rest ahead : List Lexeme) : Prop :=
  ∃ name mark,
    ahead = name :: mark :: rest ∧ name.token.kind = .name ∧ mark.token.kind = .semicolon

/-- The tokens of the import of one class, with others behind them. -/
def OpensImport (rest ahead : List Lexeme) : Prop :=
  ∃ keyword behind,
    ahead = keyword :: behind
    ∧ keyword.token.isKeyword "use" = true
    ∧ NamesImport rest behind

/-- What is left of an import when at most its keyword was passed. -/
def HoldsImport (rest ahead : List Lexeme) : Prop :=
  OpensImport rest ahead ∨ NamesImport rest ahead

/-- A place before an import, or behind it. -/
def AroundImport (rest ahead : List Lexeme) : Prop :=
  OpensImport rest ahead ∨ ahead = rest

namespace Cursor

/-- The kinds of token that close a bracket. -/
def closers : List TokenKind :=
  [.rightParen, .rightBracket, .rightBrace]

theorem closers_subset : closers ⊆ Lexeme.quietMarks := by
  decide

/-- Two cursors before as many alike tokens and a closing bracket, with an import behind that for the
second one.
-/
structure NearImport (rest : List Lexeme) (count : Nat) (start start' : Cursor) : Prop
    extends NearMark count start start' where
  closes : ∃ kind ∈ closers, start.kind? count = some kind
  opens : OpensImport rest (start'.ahead.drop (count + 1))

variable {rest : List Lexeme} {count : Nat} {start start' stop : Cursor}

namespace NearImport

theorem drop (near : NearImport rest count start start') {middle middle' : Cursor} {n : Nat}
    (few : n ≤ count) (left : middle.ahead = start.ahead.drop n)
    (left' : middle'.ahead = start'.ahead.drop n)
    : NearImport rest (count - n) middle middle' := by
  obtain ⟨ends, ⟨kind, listed, here⟩, opens⟩ := near
  refine ⟨ends.drop few left left', ⟨kind, listed, ?_⟩, ?_⟩
  · unfold kind? token? at here ⊢
    rwa [left, List.getElem?_drop, Nat.add_sub_cancel' few]
  · rwa [left', List.drop_drop, show n + (count - n + 1) = count + 1 by omega]

/-- What stays does not end behind the closing bracket. -/
theorem not_stays (near : NearImport rest count start start')
    : start.ahead ≠ start.ahead.drop (count + 1) := by
  intro same
  have lengths := congrArg List.length same
  have within := near.lt_length
  rw [List.length_drop] at lengths
  omega

/-- What moves behind another token does not end behind the closing bracket. -/
theorem not_advances (near : NearImport rest count start start') {kind : TokenKind}
    (here : start.kind? 0 = some kind) (open_ : kind ∉ closers)
    : start.advance.ahead ≠ start.ahead.drop (count + 1) := by
  intro same
  obtain ⟨closer, listed, marked⟩ := near.closes
  obtain rfl := Parser.eq_zero_of_advance near.lt_length same
  obtain rfl := Option.some.inj (here.symm.trans marked)
  exact open_ listed

end NearImport

theorem kind?_of_namesImport (names : NamesImport rest start.ahead)
    : start.kind? 0 = some .name ∧ start.kind? 1 = some .semicolon := by
  obtain ⟨name, mark, ahead, isName, isMark⟩ := names
  simp [kind?, token?, ahead, isName, isMark]

theorem advance_of_opensImport (opens : OpensImport rest start.ahead)
    : NamesImport rest start.advance.ahead := by
  obtain ⟨keyword, behind, ahead, _, names⟩ := opens
  rwa [advance_ahead, ahead, List.drop_one, List.tail_cons]

theorem kind?_of_opensImport (opens : OpensImport rest start.ahead)
    : start.kind? 0 = some .name ∧ start.kind? 1 = some .name := by
  refine ⟨?_, (Parser.kind?_succ start 0).trans
    (kind?_of_namesImport (advance_of_opensImport opens)).1⟩
  obtain ⟨keyword, behind, ahead, spelled, _⟩ := opens
  simp [kind?, token?, ahead, eq_of_beq (Bool.and_eq_true_iff.mp spelled).1]

theorem isKeyword_of_opensImport (opens : OpensImport rest start.ahead) (keywords : List Text)
    : start.isKeyword 0 keywords = keywords.any (Text.sameFolded "use") := by
  obtain ⟨keyword, behind, ahead, spelled, _⟩ := opens
  simp only [isKeyword, token?, ahead, List.getElem?_cons_zero, Option.map_some, Option.any_some]
  exact congrArg keywords.any (funext fun _ => Token.isKeyword_eq_of_isKeyword spelled)

theorem isAt_of_holdsImport (holds : HoldsImport rest start.ahead) {kind : TokenKind}
    (other : kind ≠ .name)
    : start.isAt kind = false := by
  have here : start.kind? 0 = some .name :=
    holds.elim (fun opens => (kind?_of_opensImport opens).1) fun names =>
      (kind?_of_namesImport names).1
  rw [isAt, here]
  exact beq_false_of_ne fun same => other (Option.some.inj same).symm

/-- Places before an import that one cursor reaches are the same. -/
theorem Reaches.ahead_of_opensImport {n : Nat} (reached : start.Reaches stop)
    (opens : OpensImport rest (start.ahead.drop n)) (opens' : OpensImport rest stop.ahead)
    : stop.ahead = start.ahead.drop n := by
  obtain ⟨_, _, here, _, _, _, rfl, _⟩ := opens
  obtain ⟨_, _, here', _, _, _, rfl, _⟩ := opens'
  have length : stop.ahead.length = (start.ahead.drop n).length := by simp [here, here']
  have suffix := List.suffix_of_suffix_length_le reached.ahead_suffix (List.drop_suffix n _)
    (Nat.le_of_eq length)
  exact suffix.eq_of_length length

end Cursor

namespace Parser

variable {α β γ : Type} {rest : List Lexeme} {count : Nat} {view : α → γ}
  {start start' stop : Cursor}

-----------------------------------------------------------------------------------------
-- Steps that end with a closing bracket
-----------------------------------------------------------------------------------------

/-- A step does not end behind the next token. -/
def Misses (count : Nat) (step : Parser α) (start : Cursor) : Prop :=
  ∀ ⦃found : α⦄ ⦃stop : Cursor⦄,
    step.run start = .ok (found, stop) → stop.ahead ≠ start.ahead.drop (count + 1)

/-- Where a step ends behind the next token, another step ends as it is said. -/
def TakesUp (place : α → List Lexeme → Prop) (count : Nat) (step step' : Parser α)
    (start start' : Cursor)
    : Prop :=
  ∀ ⦃found : α⦄ ⦃stop : Cursor⦄,
    step.run start = .ok (found, stop)
    → stop.ahead = start.ahead.drop (count + 1)
    → ∃ found' stop', step'.run start' = .ok (found', stop') ∧ place found' stop'.ahead

/-- A step from places of one kind ends as it is said. -/
def Idles (place : List Lexeme → Prop) (place' : α → List Lexeme → Prop) (step : Parser α)
    : Prop :=
  ∀ cursor : Cursor,
    place cursor.ahead
    → ∃ found stop, step.run cursor = .ok (found, stop) ∧ place' found stop.ahead

theorem Concludes.takesUp {step step' : Parser α} (near : start.NearImport rest count start')
    (concludes : Concludes count view step step' start start')
    : TakesUp (fun _ => OpensImport rest) count step step' start start' := by
  intro found stop ran left
  obtain ⟨found', stop', ran', left', _⟩ := concludes ran left
  exact ⟨found', stop', ran', left' ▸ near.opens⟩

namespace TakesUp

variable {place : α → List Lexeme → Prop} {place' : β → List Lexeme → Prop}
  {step step' : Parser α} {next next' : α → Parser β}

theorem of_misses (misses : Misses count step start)
    : TakesUp place count step step' start start' :=
  fun _ _ ran left => absurd left (misses ran)

theorem imp {wider : α → List Lexeme → Prop} (takes : TakesUp place count step step' start start')
    (weaker : ∀ {found ahead}, place found ahead → wider found ahead)
    : TakesUp wider count step step' start start' := by
  intro found stop ran left
  obtain ⟨found', stop', ran', here⟩ := takes ran left
  exact ⟨found', stop', ran', weaker here⟩

theorem get {next next' : Cursor → Parser α}
    (later : TakesUp place count (next start) (next' start') start start')
    : TakesUp place count (Parser.get >>= next) (Parser.get >>= next') start start' := by
  intro found stop ran left
  obtain ⟨found', stop', ran', here⟩ := later (get_bind_eq_ok.mp ran) left
  exact ⟨found', stop', get_bind_eq_ok.mpr ran', here⟩

theorem map {make make' : α → β} (takes : TakesUp place count step step' start start')
    (made : ∀ {found ahead}, place found ahead → place' (make' found) ahead)
    : TakesUp place' count (step >>= fun found => pure (make found))
        (step' >>= fun found => pure (make' found)) start start' := by
  intro result stop ran left
  obtain ⟨found, begun, rfl⟩ := bind_pure_eq_ok.mp ran
  obtain ⟨found', stop', begun', here⟩ := takes begun left
  exact ⟨make' found', stop', bind_pure_eq_ok.mpr ⟨found', begun', rfl⟩, made here⟩

/-- Two steps in a row. If the first one ends with the closing bracket, the second one idles. -/
theorem bind (near : start.NearImport rest count start')
    (first : Follows count view step step' start start')
    (last : TakesUp place count step step' start start')
    (idle : ∀ {found}, Idles (place found) place' (next' found))
    (second
      : ∀ {n found found' middle middle'},
          view found' = view found
          → middle.NearImport rest (count - n) middle'
          → TakesUp place' (count - n) (next found) (next' found') middle middle')
    : TakesUp place' count (step >>= next) (step' >>= next') start start' := by
  intro result stop ran left
  obtain ⟨found, middle, begun, done⟩ := bind_eq_ok.mp ran
  obtain ⟨i, short, atMiddle⟩ := exists_drop_of_run begun
  have shorter := (reaches_of_run done).length_le
  rw [left, atMiddle, List.length_drop, List.length_drop] at shorter
  by_cases few : i ≤ count
  · obtain ⟨found', middle', begun', atMiddle', same⟩ := first begun atMiddle few
    have left' : stop.ahead = middle.ahead.drop (count - i + 1) := by
      rw [left, atMiddle, List.drop_drop]
      congr 1
      omega
    obtain ⟨result', stop', done', here⟩ := second same (near.drop few atMiddle atMiddle') done left'
    exact ⟨result', stop', bind_eq_ok.mpr ⟨found', middle', begun', done'⟩, here⟩
  · obtain ⟨found', middle', begun', here⟩ := last begun (by rw [atMiddle, show i = count + 1 by omega])
    obtain ⟨result', stop', done', here'⟩ := idle _ here
    exact ⟨result', stop', bind_eq_ok.mpr ⟨found', middle', begun', done'⟩, here'⟩

/-- Two steps in a row, of which the first one does not end with the closing bracket. -/
theorem bind_of_misses (near : start.NearImport rest count start')
    (first : Follows count view step step' start start') (misses : Misses count step start)
    (second
      : ∀ {n found found' middle middle'},
          view found' = view found
          → middle.NearImport rest (count - n) middle'
          → TakesUp place' (count - n) (next found) (next' found') middle middle')
    : TakesUp place' count (step >>= next) (step' >>= next') start start' := by
  have none : TakesUp (fun _ _ => False) count step step' start start' := .of_misses misses
  exact none.bind near first (fun _ => False.elim) second

end TakesUp

theorem Idles.bind {place : List Lexeme → Prop} {between : α → List Lexeme → Prop}
    {place' : β → List Lexeme → Prop} {step : Parser α} {next : α → Parser β}
    (first : Idles place between step)
    (second : ∀ {found}, Idles (between found) place' (next found))
    : Idles place place' (step >>= next) := by
  intro cursor here
  obtain ⟨found, stop, ran, there⟩ := first cursor here
  obtain ⟨result, stop', ran', there'⟩ := second stop there
  exact ⟨result, stop', bind_eq_ok.mpr ⟨found, stop, ran, ran'⟩, there'⟩

theorem Idles.get {place : List Lexeme → Prop} {place' : α → List Lexeme → Prop}
    {next : Cursor → Parser α}
    (later
      : ∀ {cursor : Cursor}, place cursor.ahead
          → ∃ found stop, (next cursor).run cursor = .ok (found, stop) ∧ place' found stop.ahead)
    : Idles place place' (Parser.get >>= next) := by
  intro cursor here
  obtain ⟨found, stop, ran, there⟩ := later here
  exact ⟨found, stop, get_bind_eq_ok.mpr ran, there⟩

theorem idles_pure {place : List Lexeme → Prop} {value : α}
    : Idles place (fun _ => place) (pure value) :=
  fun cursor here => ⟨value, cursor, pure_eq_ok.mpr ⟨rfl, rfl⟩, here⟩

/-- The turns of a repetition, by induction over them. Where one ends with the closing bracket, those
from the other cursor end at a place of the given kind.
-/
theorem Turns.takesUp {view : α → List γ} {turn : Parser (Turn α)} {found : List α}
    {place : List Lexeme → Prop} (tracks : ∀ bound, Tracks bound (Turn.shown view) turn turn)
    (last
      : ∀ {count : Nat} {start start' stop : Cursor} {result : Turn α},
          start.NearImport rest count start'
          → turn.run start = .ok (result, stop)
          → stop.ahead = start.ahead.drop (count + 1)
          → ∃ found' stop', Turns turn start' found' stop' ∧ place stop'.ahead)
    (turns : Turns turn start found stop)
    : ∀ {count start'},
        start.NearImport rest count start'
        → stop.ahead = start.ahead.drop (count + 1)
        → ∃ found' stop', Turns turn start' found' stop' ∧ place stop'.ahead := by
  induction turns with
  | last ran => exact fun near left => last near ran left
  | @more start middle stop found others ran later ih =>
      intro count start' near left
      obtain ⟨i, short, atMiddle⟩ := exists_drop_of_run ran
      by_cases few : i ≤ count
      · obtain ⟨result, middle', ran', atMiddle', shown⟩ :=
          tracks _ (Nat.lt_succ_self count) near.near ran atMiddle few
        obtain ⟨found', rfl, _⟩ := Turn.shown_eq_more shown
        obtain ⟨others', stop', turns', here⟩ := ih (near.drop few atMiddle atMiddle') (by
          rw [left, atMiddle, List.drop_drop]
          congr 1
          omega)
        exact ⟨found' ++ others', stop', .more ran' turns', here⟩
      · have shorter := later.reaches.length_le
        rw [left, atMiddle, List.length_drop, List.length_drop] at shorter
        exact last near ran (by rw [atMiddle, show i = count + 1 by omega])

end Parser

end ImportHeader
