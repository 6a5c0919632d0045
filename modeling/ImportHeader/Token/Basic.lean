import ImportHeader.Text.Position

/-! Tokens of a source, trivia included: a kind, the exact text and where it stands. -/

namespace ImportHeader

/-- The kinds of token. -/
inductive TokenKind where
  | whitespace
  | lineComment
  | blockComment
  | docComment
  | name
  | variable
  | number
  | string
  | heredoc
  | openTag
  | closeTag
  | inlineHtml
  | attributeOpen
  | doubleColon
  | arrow
  | nullsafeArrow
  | fatArrow
  | ellipsis
  | doubleQuestion
  | leftBrace
  | rightBrace
  | leftParen
  | rightParen
  | leftBracket
  | rightBracket
  | semicolon
  | comma
  | question
  | pipe
  | ampersand
  | equals
  | colon
  | dollar
  | backslash
  | operator
  | error
deriving DecidableEq, Inhabited

namespace TokenKind

/-- The three kinds of comment. -/
def isComment : TokenKind → Bool
  | .lineComment | .blockComment | .docComment => true
  | _ => false

/-- White space and comments, which carry no syntax. -/
def isTrivia : TokenKind → Bool
  | .whitespace => true
  | kind => kind.isComment

end TokenKind

/-- A token with its exact text and the byte offset at which it starts. -/
structure Token where
  kind : TokenKind
  text : Text
  offset : Nat
deriving DecidableEq, Inhabited

namespace Token

/-- The offset just behind a token. -/
def stop (token : Token) : Nat :=
  token.offset + token.text.size

/-- The bytes that a token covers. -/
def span (token : Token) : Span :=
  ⟨token.offset, token.stop⟩

/-- A name token that spells a keyword, in any letter case. -/
def isKeyword (token : Token) (keyword : Text) : Bool :=
  token.kind == .name && Text.sameFolded token.text keyword

end Token

end ImportHeader
