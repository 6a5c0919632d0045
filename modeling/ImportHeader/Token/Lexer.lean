import ImportHeader.Token.Basic

/-! The lexer: a source is markup up to its first open tag and code from there on.
Code is cut by longest match. Each step decides the kind of the next token and how many
characters follow its first one, so that the token texts join to the source.
-/

namespace ImportHeader

namespace Lexer

/-- A character that can start an identifier; all beyond ASCII do. -/
def isNameStart (c : Char) : Bool :=
  c.isAlpha || c == '_' || 0x80 ≤ c.toNat

/-- A character that can continue an identifier. -/
def isNamePart (c : Char) : Bool :=
  isNameStart c || c.isDigit

/-- The white space of code. -/
def isSpace (c : Char) : Bool :=
  c == ' ' || c == '\t' || c == '\r' || c == '\n'

/-- The white space that can indent a line. -/
def isIndent (c : Char) : Bool :=
  c == ' ' || c == '\t'

/-- The one-character operators. -/
def isOperator (c : Char) : Bool :=
  "-+*/%.<>!~^@".toList.contains c

/-- The number of leading characters that satisfy a test. -/
def run (test : Char → Bool) (text : Text) : Nat :=
  (text.takeWhile test).length

/-- Whether code starts here: `<?=`, or `<?php` in any letter case. -/
def opensCode : Text → Bool
  | '<' :: '?' :: rest => rest.head? == some '=' || Text.sameFolded (rest.take 3) "php"
  | _ => false

/-- The number of characters before the place where code starts. -/
def markupLength : Text → Nat
  | [] => 0
  | c :: rest => if opensCode (c :: rest) then 0 else markupLength rest + 1

/-- The number of characters through the next end of a block comment. -/
def commentLength? : Text → Option Nat
  | [] => none
  | '*' :: '/' :: _ => some 2
  | _ :: rest => (commentLength? rest).map (· + 1)

/-- The number of characters that continue a name: identifier characters, and
backslashes that another identifier follows.
-/
def nameLength : Text → Nat
  | [] => 0
  | '\\' :: c :: rest => if isNameStart c then nameLength rest + 2 else 0
  | c :: rest => if isNamePart c then nameLength rest + 1 else 0

/-- The number of characters through the closing quote, and whether there is one. Without
it the text runs to the end of the source, except for a single backslash there.
-/
def quotedLength (quote : Char) : Text → Bool × Nat
  | [] => (false, 0)
  | ['\\'] => (false, 0)
  | '\\' :: _ :: rest =>
      let (closed, length) := quotedLength quote rest
      (closed, length + 2)
  | c :: rest =>
      if c = quote then
        (true, 1)
      else
        let (closed, length) := quotedLength quote rest
        (closed, length + 1)

/-- The number of characters from the start of the given lines through the closing label:
the first one that stands alone at the start of a line, behind indentation only.
-/
def closingLabelLength? (label : Text) : List Text → Option Nat
  | [] => none
  | line :: lines =>
      match Text.after? label (line.dropWhile isIndent) with
      | some rest =>
          if rest.head?.any isNamePart then
            (closingLabelLength? label lines).map (· + line.length + 1)
          else
            some (line.length - rest.length)
      | none => (closingLabelLength? label lines).map (· + line.length + 1)

/-- The number of characters of a heredoc behind its label, whose first line can hold
anything.
-/
def heredocBodyLength? (label rest : Text) : Option Nat :=
  match rest.lines with
  | [] => none
  | line :: lines => (closingLabelLength? label lines).map (· + line.length + 1)

/-- The number of characters of a heredoc from a label without quotes on. -/
def plainHeredocLength? (text : Text) : Option Nat :=
  let label := text.takeWhile isNamePart
  if label.isEmpty then
    none
  else
    (heredocBodyLength? label (text.dropWhile isNamePart)).map (· + label.length)

/-- The number of characters of a heredoc from the quote before its label on. -/
def quotedHeredocLength? (quote : Char) (text : Text) : Option Nat :=
  let label := text.takeWhile isNamePart
  match text.dropWhile isNamePart with
  | [] => none
  | closing :: tail =>
      if label.isEmpty || closing != quote then
        none
      else
        (heredocBodyLength? label tail).map (· + label.length + 2)

/-- The number of characters of a heredoc behind `<<<` and its blanks. The label can stand
in single or double quotes.
-/
def heredocLength? : Text → Option Nat
  | [] => none
  | c :: behind =>
      if c == '\'' || c == '"' then
        quotedHeredocLength? c behind
      else
        plainHeredocLength? (c :: behind)

/-- A number behind its first digit. -/
def numberLength (rest : Text) : Nat :=
  let whole := run (fun c => c.isAlphanum || c == '_') rest
  match rest.drop whole with
  | '.' :: c :: more => if c.isDigit then whole + 2 + run isFraction more else whole
  | _ => whole
where
  /-- The characters behind the first digit of a fraction. -/
  isFraction (c : Char) : Bool := c.isDigit || c == '_'

/-- A comment of the given kind behind the characters that open it, which is an error if it is
never closed.
-/
def comment (kind : TokenKind) (opening : Nat) (rest : Text) : TokenKind × Nat :=
  match commentLength? rest with
  | some length => (kind, length + opening)
  | none => (.error, opening)

/-- Behind a slash and an asterisk: a comment, for documentation if a second asterisk
follows.
-/
def asterisk : Text → TokenKind × Nat
  | [] => (.error, 1)
  | c :: rest =>
      if c = '*' then
        if rest.head? = some '/' then (.docComment, 3) else comment .docComment 2 rest
      else
        comment .blockComment 1 (c :: rest)

/-- Behind a slash: a comment, or the operator. -/
def slash : Text → TokenKind × Nat
  | [] => (.operator, 0)
  | c :: rest =>
      if c = '/' then
        (.lineComment, run (· != '\n') rest + 1)
      else if c = '*' then
        asterisk rest
      else
        (.operator, 0)

/-- Behind a hash sign: an attribute opens, or a comment runs to the end of the line. -/
def hash : Text → TokenKind × Nat
  | '[' :: _ => (.attributeOpen, 1)
  | rest => (.lineComment, run (· != '\n') rest)

/-- Behind three less-than signs: a heredoc, or an error if it is never closed. -/
def heredoc (rest : Text) : TokenKind × Nat :=
  let blanks := run isIndent rest
  match heredocLength? (rest.drop blanks) with
  | some length => (.heredoc, length + blanks + 2)
  | none => (.error, blanks + 2)

/-- Behind a less-than sign: a heredoc, an open tag, or the operator. -/
def lessThan : Text → TokenKind × Nat
  | '<' :: '<' :: rest => heredoc rest
  | '?' :: '=' :: _ => (.openTag, 2)
  | '?' :: rest => if opensCode ('<' :: '?' :: rest) then (.openTag, 4) else (.operator, 0)
  | _ => (.operator, 0)

/-- Behind a question mark: a close tag with the markup that follows it, or an operator. -/
def questionMark : Text → TokenKind × Nat
  | '>' :: rest => (.closeTag, markupLength rest + 1)
  | '-' :: '>' :: _ => (.nullsafeArrow, 2)
  | '?' :: _ => (.doubleQuestion, 1)
  | _ => (.question, 0)

/-- One of two tokens, by whether a character of a class follows. The longer one goes on
behind that character as far as `more` says.
-/
def prolonged (test : Char → Bool) (more : Text → Nat) (long short : TokenKind)
    : Text → TokenKind × Nat
  | [] => (short, 0)
  | c :: rest => if test c then (long, more rest + 1) else (short, 0)

/-- One of two tokens, by whether a given character follows. -/
def followedBy (next : Char) (double single : TokenKind) : Text → TokenKind × Nat :=
  prolonged (· == next) (fun _ => 0) double single

/-- Behind a full stop: an ellipsis, a fraction, or the operator. -/
def fullStop : Text → TokenKind × Nat
  | '.' :: '.' :: _ => (.ellipsis, 2)
  | rest => prolonged Char.isDigit (run numberLength.isFraction) .number .operator rest

/-- Behind a backslash: a fully qualified name, or the separator alone. -/
def leadingBackslash : Text → TokenKind × Nat :=
  prolonged isNameStart nameLength .name .backslash

/-- Behind a dollar sign: a variable, or the sign alone. -/
def leadingDollar : Text → TokenKind × Nat :=
  prolonged isNameStart (run isNamePart) .variable .dollar

/-- Behind an opening quote: a string, or an error if it is never closed. -/
def quotation (quote : Char) (rest : Text) : TokenKind × Nat :=
  let (closed, length) := quotedLength quote rest
  (if closed then .string else .error, length)

/-- The kind of the token that starts with a character, and how many of the characters
behind it belong to it.
-/
def munch (c : Char) (rest : Text) : TokenKind × Nat :=
  if isNameStart c then
    (.name, nameLength rest)
  else if c.isDigit then
    (.number, numberLength rest)
  else if isSpace c then
    (.whitespace, run isSpace rest)
  else
    match c with
    | '/' => slash rest
    | '#' => hash rest
    | '<' => lessThan rest
    | '?' => questionMark rest
    | '.' => fullStop rest
    | '\\' => leadingBackslash rest
    | '$' => leadingDollar rest
    | '\'' => quotation '\'' rest
    | '"' => quotation '"' rest
    | '\x60' => quotation '\x60' rest
    | ':' => followedBy ':' .doubleColon .colon rest
    | '-' => followedBy '>' .arrow .operator rest
    | '=' => followedBy '>' .fatArrow .equals rest
    | '{' => (.leftBrace, 0)
    | '}' => (.rightBrace, 0)
    | '(' => (.leftParen, 0)
    | ')' => (.rightParen, 0)
    | '[' => (.leftBracket, 0)
    | ']' => (.rightBracket, 0)
    | ';' => (.semicolon, 0)
    | ',' => (.comma, 0)
    | '|' => (.pipe, 0)
    | '&' => (.ampersand, 0)
    | _ => (if isOperator c then .operator else .error, 0)

/-- The tokens of code whose first `pending` characters belong to the token before it; the next
token starts at `offset`.
-/
def tokensFrom (offset : Nat) : Nat → Text → List Token
  | _, [] => []
  | pending + 1, _ :: rest => tokensFrom offset pending rest
  | 0, c :: rest =>
      let (kind, more) := munch c rest
      let token : Token := ⟨kind, c :: rest.take more, offset⟩
      token :: tokensFrom token.stop more rest

end Lexer

/-- The tokens of a source: the markup before its first open tag, if there is any, and the
tokens of the code from there on.
-/
def tokenize (source : Text) : List Token :=
  let length := Lexer.markupLength source
  let markup : Text := source.take length
  let code := Lexer.tokensFrom markup.size 0 (source.drop length)
  if markup.isEmpty then code else ⟨.inlineHtml, markup, 0⟩ :: code

end ImportHeader
