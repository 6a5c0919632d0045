import ImportHeader.Proofs.Parser.Sealing
import ImportHeader.Proofs.Parser.Tiling

/-! Only code with matching brackets parses: the items of a file lead from one stack of brackets
to the same one.
-/

namespace ImportHeader

/-- The brackets ahead. -/
def Cursor.brackets (cursor : Cursor) : List TokenKind :=
  (cursor.tokens.map Token.kind).filter TokenKind.isBracket

namespace Parser

/-- Only the end of the source ends the items of a file. -/
theorem tokens_of_code {start stop : Cursor} {found : Option Text × List Item}
    (ran : code.run start = .ok (found, stop))
    : stop.tokens = [] := by
  obtain ⟨_, _, _, later⟩ := bind_eq_ok.mp ran
  obtain ⟨_, collected, _⟩ := bind_pure_eq_ok.mp later
  obtain ⟨_, _, final⟩ := (turns_of_collect collected).exists_last
  exact (tokens_of_itemTurn_last final).2.2

/-- The code of a file is nested: no bracket in it closes one that was opened before. -/
theorem isNested_of_code {start stop : Cursor} {found : Option Text × List Item}
    (ran : code.run start = .ok (found, stop))
    : IsNested start.brackets := by
  have keeps : Keeps (namesIn start .semicolon) (start.ahead.length + 1) [.semicolon] _ [] code code
      start :=
    keeps_code shows_names
  obtain ⟨passed, whole, unwinds, _⟩ := (keeps .refl (Nat.lt_succ_self _)).2 ran
  rw [tokens_of_code ran, List.append_nil] at whole
  rw [Cursor.brackets, whole]
  have above : Unwinds EndMark.semicolon.kind ([] ++ [.semicolon]) (passed.map Token.kind)
      [.semicolon] := unwinds
  exact above.completes rfl

end Parser

/-- The tokens of a source behind its first open tag that carry syntax. -/
def tokensOfCode (source : Text) : List Token :=
  ((tokenize source).dropWhile fun token => token.kind != .openTag).tail.filter fun token =>
    !token.kind.isTrivia

/-- The brackets in the code of a source. -/
def bracketsOfCode (source : Text) : List TokenKind :=
  ((tokensOfCode source).map Token.kind).filter TokenKind.isBracket

theorem Coded.tokensOfCode_eq {source markup tag code : Text} (coded : Coded source markup tag code)
    : tokensOfCode source = (codeStart source markup tag code).tokens := by
  rw [tokensOfCode, coded.tokenize_eq, codeStart, Cursor.tokens, Cursor.ofTokens,
    map_token_lexemes, Text.size_append]
  split
  · rfl
  · rfl

/-- A source that is all markup has no code. -/
theorem tokensOfCode_eq_nil {source : Text} (none : (splitMarkup (tokenize source)).2 = [])
    : tokensOfCode source = [] := by
  unfold tokensOfCode
  generalize tokenize source = tokens at none
  cases tokens with
  | nil => rfl
  | cons token rest =>
      rw [splitMarkup] at none
      split at none
      · rename_i html
        obtain rfl : rest = [] := none
        rw [List.dropWhile_cons_of_pos (by rw [html]; rfl), List.dropWhile_nil]
        rfl
      · cases none

/-- A source that parses has no code, or its items come from a run over its code. -/
theorem run_of_parse {source : Text} {file : SourceFile} (parsed : parse source = .ok file)
    : (tokensOfCode source = [] ∧ file.items = [])
      ∨ ∃ start comment? stop,
          tokensOfCode source = start.tokens
          ∧ Parser.code.run start = .ok ((comment?, file.items), stop) := by
  cases tagged : file.openTag? with
  | none =>
      obtain ⟨_, _, _, ⟨none, _, empty⟩ | ⟨_, _, _, _, _, _, some⟩⟩ := parse_eq_ok parsed
      · exact .inl ⟨tokensOfCode_eq_nil none, empty⟩
      · rw [tagged] at some
        cases some
  | some opening =>
      obtain ⟨markup, tag, code, coded⟩ := exists_coded parsed tagged
      obtain ⟨comment?, stop, ran, _⟩ := coded.parse_eq_ok_iff.mp parsed
      exact .inr ⟨_, comment?, stop, coded.tokensOfCode_eq, ran⟩

/-- What a view shows of the statements of a file is among what the tokens of its code spell. -/
theorem among_of_view {σ : Type} {view : Stmt → List σ} {spell : Token → Option σ} {calm : Prop}
    {source : Text} {file : SourceFile} (parsed : parse source = .ok file)
    (shows
      : ∀ root : Cursor, root.tokens = tokensOfCode source
          → Parser.Shows ⟨root, .semicolon, spell, calm⟩ view)
    : Among calm (file.stmts.flatMap view) ((tokensOfCode source).filterMap spell) := by
  obtain ⟨_, empty⟩ | ⟨start, _, stop, tokens, ran⟩ := run_of_parse parsed
  · rw [SourceFile.stmts, empty]
    exact .of_sublist (List.nil_sublist _)
  · have keeps : Parser.Keeps ⟨start, .semicolon, spell, calm⟩ (start.ahead.length + 1) [.semicolon]
        _ [] Parser.code Parser.code start :=
      Parser.keeps_code (shows start tokens.symm)
    obtain ⟨passed, whole, _, among⟩ := (keeps .refl (Nat.lt_succ_self _)).2 ran
    rw [tokens, whole, Parser.tokens_of_code ran, List.append_nil]
    exact among

/-- The code of a source that parses is nested. -/
theorem isNested_of_parse {source : Text} {file : SourceFile} (parsed : parse source = .ok file)
    : IsNested (bracketsOfCode source) := by
  rw [bracketsOfCode]
  obtain ⟨none, _⟩ | ⟨start, _, stop, tokens, ran⟩ := run_of_parse parsed
  · rw [none]
    exact .nil
  · rw [tokens]
    exact Parser.isNested_of_code ran

/-- Only nested code is accepted: the brackets behind the open tag of a source that parses match,
and a source in whose code they do not match has a syntax error.
-/
theorem parse_accepts_nested (source : Text)
    : (∀ file, parse source = .ok file → IsNested (bracketsOfCode source))
      ∧ (¬IsNested (bracketsOfCode source) → ∃ error, parse source = .error error) := by
  refine ⟨fun file parsed => isNested_of_parse parsed, fun unbalanced => ?_⟩
  cases parsed : parse source with
  | error error => exact ⟨error, rfl⟩
  | ok file => exact absurd (isNested_of_parse parsed) unbalanced

/-- A class with an attribute is nested and parses. With one more bracket in the attribute it is not
and does not.
-/
theorem parse_accepts_nested_of_attribute
    : ∃ source source' file error,
        source = "<?php\n#[A([1])]\nclass B { function f(int $x) { return [$x]; } }\n".toList
        ∧ source' = "<?php\n#[A([1]])]\nclass B { function f(int $x) { return [$x]; } }\n".toList
        ∧ parse source = .ok file
        ∧ IsNested (bracketsOfCode source)
        ∧ ¬IsNested (bracketsOfCode source')
        ∧ parse source' = .error error := by
  obtain ⟨file, parsed, _⟩ : ∃ file,
      parse "<?php\n#[A([1])]\nclass B { function f(int $x) { return [$x]; } }\n".toList = .ok file
      ∧ file.hasCode = true :=
    exists_of_parses SourceFile.hasCode (by decide +kernel)
  have unbalanced : ¬IsNested (bracketsOfCode
      "<?php\n#[A([1]])]\nclass B { function f(int $x) { return [$x]; } }\n".toList) := by
    decide +kernel
  obtain ⟨error, refused⟩ := (parse_accepts_nested _).2 unbalanced
  exact ⟨_, _, file, error, rfl, rfl, parsed, (parse_accepts_nested _).1 file parsed, unbalanced,
    refused⟩

end ImportHeader
