import ImportHeader.Parser.Body
import ImportHeader.Parser.Import
import ImportHeader.Token.Lexer

/-! Statements, namespaces and whole files. -/

namespace ImportHeader

/-- Whether a namespace declaration starts here. -/
def Cursor.atNamespace (cursor : Cursor) : Bool :=
  cursor.atKeyword "namespace"
    && (cursor.kind? 1 == some .name || cursor.kind? 1 == some .leftBrace)

namespace Parser

/-- A statement that is no namespace declaration, as far as its kind goes. -/
def stmtKind : Parser StmtKind := do
  let cursor ← get
  if cursor.atKeyword "use" then
    return .importing (← importing)
  else if cursor.atKeyword "declare" && cursor.kind? 1 == some .leftParen then
    return .declare (← statement scan)
  else
    let attributes ← attributes scan
    let cursor ← get
    if cursor.atClass then
      return .classLike (← namedClass scan attributes)
    else if cursor.atFunction then
      return .function (← function scan attributes)
    else
      return .other (attributes ++ (← statement scan))

/-- The bytes from an offset to the end of the last token. -/
def spanFrom (start : Nat) : Parser Span := do
  return ⟨start, max (← get).lastEnd start⟩

/-- Whether a comment behind a statement of this kind belongs to it. -/
def keepsTrailing : StmtKind → Bool
  | .declare _ | .importing _ => true
  | _ => false

/-- The comment that belongs to a statement of this kind and stands behind it. -/
def trailingOf (kind : StmtKind) : Parser (Option Text) :=
  if keepsTrailing kind then trailing? else pure none

/-- A statement that is no namespace declaration, with its comments. -/
def stmt : Parser Stmt := do
  let cursor ← get
  let kind ← stmtKind
  let span ← spanFrom cursor.nextSpan.start
  let trailing ← trailingOf kind
  return {
    kind
    span? := some span
    text := cursor.source.slice span.start span.stop
    comments := cursor.comments
    trailing? := trailing }

/-- One statement of a namespace, or its end: the closing brace of the braced form, else
the next namespace declaration or the end of the source.
-/
def namespaceTurn (braced : Bool) : Parser (Turn Stmt) := do
  let cursor ← get
  match cursor.token? 0 with
  | none => if braced then fail (.unclosed .namespaceBlock) else return .last []
  | some token =>
      if token.kind = .rightBrace then
        if braced then return .last [] else fail (.unmatched token.text)
      else if cursor.atNamespace then
        if braced then fail .nestedNamespace else return .last []
      else
        return .more [← stmt]

/-- The opening of a namespace behind its name: a brace, or a semicolon if there is a name.
Says whether the namespace is braced.
-/
def namespaceOpening (named : Bool) : Parser Bool := do
  if ← eat .leftBrace then
    return true
  else if named then
    let _ ← expect .semicolon .namespaceEnd
    return false
  else
    fail (.expected .namespaceNameOrBody)

/-- The brace that closes a braced namespace. -/
def namespaceClosing (braced : Bool) : Parser Unit := do
  if braced then
    let _ ← expect .rightBrace .namespaceClose

/-- A namespace declaration with its statements. -/
def namespaceScope : Parser Namespace := do
  let cursor ← get
  let keyword ← expect .name .namespaceKeyword
  let name? ← name?
  let braced ← namespaceOpening name?.isSome
  let header : Span := ⟨keyword.offset, (← get).lastEnd⟩
  let headerComment? ← trailing?
  let stmts ← collect (namespaceTurn braced)
  namespaceClosing braced
  let span ← spanFrom keyword.offset
  return {
    name?
    braced
    header
    headerComment?
    stmts
    span
    text := cursor.source.slice span.start span.stop
    comments := cursor.comments }

/-- One item of the top level, or the end of the source. -/
def itemTurn : Parser (Turn Item) := do
  let cursor ← get
  match cursor.token? 0 with
  | none => return .last []
  | some token =>
      if token.kind = .rightBrace then
        fail (.unmatched token.text)
      else if cursor.atNamespace then
        return .more [.scope (← namespaceScope)]
      else
        return .more [.plain (← stmt)]

/-- The code of a file behind its open tag: a comment on the line of the tag, and all
items.
-/
def code : Parser (Option Text × List Item) := do
  let comment? ← trailing?
  return (comment?, ← collect itemTurn)

end Parser

/-- The markup before the open tag, if there is any, and the tokens from the tag on. -/
def splitMarkup : List Token → Option Text × List Token
  | token :: rest =>
      if token.kind = .inlineHtml then (some token.text, rest) else (none, token :: rest)
  | [] => (none, [])

/-- Parses a source. One without an open tag is all markup. -/
def parse (source : Text) : Except ParseError SourceFile := do
  let tokens := tokenize source
  let (markup?, tokensOfCode) := splitMarkup tokens
  let docComments := (tokens.filter fun token => token.kind == .docComment).map Token.text
  let lines := LineIndex.ofText source
  match tokensOfCode with
  | [] => return { markup?, openTag? := none, items := [], docComments, lines }
  | tag :: rest =>
      let start := Cursor.ofTokens source rest tag.stop
      let ((comment?, items), _) ← Parser.code.run start
      let openTag? := some ⟨tag.text, tag.span, comment?⟩
      return { markup?, openTag?, items, docComments, lines }

end ImportHeader
