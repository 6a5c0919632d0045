import ImportHeader.Text.Blank
import ImportHeader.Token.Basic
import ImportHeader.Parser.Error
import ImportHeader.Tree

/-! The cursor of the parser and the steps that move it. Trivia is kept in the gaps between
the tokens, so that looking ahead is indexing a list and every step forward shortens it.
-/

namespace ImportHeader

/-- A token that carries syntax, with the trivia that follows it. -/
structure Lexeme where
  token : Token
  gap : List Token
deriving DecidableEq, Inhabited

/-- Sorts tokens into the trivia at their start and the lexemes behind it. -/
def lexemes : List Token → List Token × List Lexeme
  | [] => ([], [])
  | token :: rest =>
      let (gap, ahead) := lexemes rest
      if token.kind.isTrivia then (token :: gap, ahead) else ([], ⟨token, gap⟩ :: ahead)

/-- A place between two lexemes of a source. -/
structure Cursor where
  source : Text
  gap : List Token
  ahead : List Lexeme
  lastEnd : Nat
deriving DecidableEq, Inhabited

namespace Cursor

/-- A cursor before the given tokens, behind the byte `lastEnd`. -/
def ofTokens (source : Text) (tokens : List Token) (lastEnd : Nat) : Cursor :=
  let (gap, ahead) := lexemes tokens
  ⟨source, gap, ahead, lastEnd⟩

/-- The token `n` places ahead; zero is the next one. -/
def token? (cursor : Cursor) (n : Nat) : Option Token :=
  cursor.ahead[n]?.map Lexeme.token

/-- The kind of the token `n` places ahead. -/
def kind? (cursor : Cursor) (n : Nat) : Option TokenKind :=
  (cursor.token? n).map Token.kind

/-- Whether the next token has the given kind. -/
def isAt (cursor : Cursor) (kind : TokenKind) : Bool :=
  cursor.kind? 0 == some kind

/-- Whether the token `n` places ahead spells one of the given keywords. -/
def isKeyword (cursor : Cursor) (n : Nat) (keywords : List Text) : Bool :=
  (cursor.token? n).any fun token => keywords.any token.isKeyword

/-- Whether the next token spells the given keyword. -/
def atKeyword (cursor : Cursor) (keyword : Text) : Bool :=
  cursor.isKeyword 0 [keyword]

/-- The bytes of the next token, or the empty span at the end of the source. -/
def nextSpan (cursor : Cursor) : Span :=
  match cursor.token? 0 with
  | some token => token.span
  | none => ⟨cursor.source.size, cursor.source.size⟩

/-- The cursor behind the next token. -/
def advance (cursor : Cursor) : Cursor :=
  match cursor.ahead with
  | [] => cursor
  | lexeme :: rest =>
      { cursor with gap := lexeme.gap, ahead := rest, lastEnd := lexeme.token.stop }

/-- The comments between the cursor and the next token. -/
def comments (cursor : Cursor) : List Text :=
  (cursor.gap.filter fun token => token.kind.isComment).map fun token => token.text.trimEnd

/-- White space that holds a line feed. -/
def breaksLine (token : Token) : Bool :=
  token.kind == .whitespace && token.text.contains '\n'

/-- Whether a line ends at the start of a gap: by a line feed, or by the end of the source.
-/
def endsLine (gap : List Token) (ahead : List Lexeme) : Bool :=
  match gap with
  | token :: _ => breaksLine token
  | [] => ahead.isEmpty

/-- A gap without the white space at its start, unless that breaks the line. -/
def sameLine : List Token → List Token
  | [] => []
  | token :: rest =>
      if token.kind == .whitespace && !breaksLine token then rest else token :: rest

/-- The comment of one line that ends the line of the cursor, and the cursor behind it. -/
def trailing? (cursor : Cursor) : Option (Text × Cursor) :=
  match sameLine cursor.gap with
  | [] => none
  | token :: rest =>
      let comment := token.text.trimEnd
      if token.kind.isComment && !comment.contains '\n' && endsLine rest cursor.ahead then
        some (comment, { cursor with gap := rest })
      else
        none

theorem sameLine_suffix (gap : List Token) : sameLine gap <:+ gap := by
  unfold sameLine
  split
  · exact List.suffix_refl _
  · split
    · exact List.suffix_cons _ _
    · exact List.suffix_refl _

/-- One cursor is reached from another by moving behind tokens, and by passing trivia before
the next token.
-/
inductive Reaches (start : Cursor) : Cursor → Prop
  | refl : Reaches start start
  | advance {stop : Cursor} (reached : Reaches start stop) : Reaches start stop.advance
  | pass {stop : Cursor} {gap : List Token} (reached : Reaches start stop)
    (later : gap <:+ stop.gap)
    : Reaches start { stop with gap }

theorem Reaches.trans {start middle stop : Cursor} (first : Reaches start middle)
    (second : Reaches middle stop)
    : Reaches start stop := by
  induction second with
  | refl => exact first
  | advance _ ih => exact ih.advance
  | pass _ later ih => exact ih.pass later

/-- The comment that `trailing?` finds stands at the start of the gap, so the cursor behind it
is reached.
-/
theorem reaches_of_trailing? {start stop : Cursor} {comment : Text}
    (found : start.trailing? = some (comment, stop))
    : start.Reaches stop := by
  unfold trailing? at found
  split at found
  · cases found
  · rename_i token rest behind
    dsimp only at found
    split at found
    · cases found
      have later : token :: rest <:+ start.gap := behind ▸ sameLine_suffix start.gap
      exact Reaches.refl.pass ((List.suffix_cons token rest).trans later)
    · cases found

end Cursor

/-- A step of the parser: it moves the cursor forward, or finds a syntax error. -/
def Parser (α : Type) :=
  (start : Cursor) → Except ParseError (α × { stop : Cursor // start.Reaches stop })

namespace Parser

instance : Monad Parser where
  pure value start := .ok (value, ⟨start, .refl⟩)
  bind step next start :=
    match step start with
    | .error error => .error error
    | .ok (value, ⟨middle, first⟩) =>
        match next value middle with
        | .error error => .error error
        | .ok (result, ⟨stop, second⟩) => .ok (result, ⟨stop, first.trans second⟩)

/-- Runs a step from a cursor. -/
def run {α : Type} (step : Parser α) (start : Cursor) : Except ParseError (α × Cursor) :=
  match step start with
  | .error error => .error error
  | .ok (value, ⟨stop, _⟩) => .ok (value, stop)

/-- The cursor. -/
def get : Parser Cursor :=
  fun start => .ok (start, ⟨start, .refl⟩)

/-- Stops with an error. -/
def throw {α : Type} (error : ParseError) : Parser α :=
  fun _ => .error error

/-- Stops with an error at the next token. -/
def fail {α : Type} (cause : ParseCause) : Parser α := do
  throw ⟨cause, (← get).nextSpan⟩

/-- Moves behind the next token. -/
def skip : Parser Unit :=
  fun start => .ok ((), ⟨start.advance, .advance .refl⟩)

/-- Moves behind a comment of one line that ends the line. -/
def trailing? : Parser (Option Text) :=
  fun start =>
    match found : start.trailing? with
    | some (comment, stop) => .ok (some comment, ⟨stop, Cursor.reaches_of_trailing? found⟩)
    | none => .ok (none, ⟨start, .refl⟩)

/-- Moves behind the next token if it has the given kind, and says whether it has. -/
def eat (kind : TokenKind) : Parser Bool := do
  if (← get).isAt kind then
    skip
    return true
  else
    return false

/-- Moves behind the next token if it spells the given keyword, and says whether it does. -/
def eatKeyword (keyword : Text) : Parser Bool := do
  if (← get).atKeyword keyword then
    skip
    return true
  else
    return false

/-- Moves behind the next token, which has to be of the given kind. -/
def expect (kind : TokenKind) (what : Expectation) : Parser Token := do
  match (← get).token? 0 with
  | some token =>
      if token.kind = kind then
        skip
        return token
      else
        fail (.expected what)
  | none => fail (.expected what)

/-- Moves behind the next token if it is a name, and reads it. -/
def name? : Parser (Option LocatedName) := do
  match (← get).token? 0 with
  | some token =>
      if token.kind = .name then
        skip
        return LocatedName.read? token.text token.span
      else
        return none
  | none => return none

/-- Moves behind the next token, which has to be a name, and reads it. -/
def expectName (what : Expectation) : Parser LocatedName := do
  match ← name? with
  | some name => return name
  | none => fail (.expected what)

/-- The outcome of one turn of a repetition: what it found, and whether it goes on. -/
inductive Turn (α : Type) where
  | more (found : List α)
  | last (found : List α)

/-- Takes turns until one is the last, and joins what they find. Each turn that goes on uses
up a lexeme of the budget.
-/
def collectWithin {α : Type} (turn : Parser (Turn α)) (budget : List Lexeme)
    : Parser (List α) := do
  match ← turn with
  | .last found => return found
  | .more found =>
      match budget with
      | [] => fail .stalled
      | _ :: rest => return found ++ (← collectWithin turn rest)

/-- Takes turns until one is the last, and joins what they find. A turn that goes on moves
the cursor, so the lexemes ahead are budget enough.
-/
def collect {α : Type} (turn : Parser (Turn α)) : Parser (List α) := do
  collectWithin turn (← get).ahead

end Parser

end ImportHeader
