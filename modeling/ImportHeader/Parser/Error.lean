import ImportHeader.Text.Position

/-! Why a source does not parse, and where. -/

namespace ImportHeader

/-- Something that has to stand at a place and does not. -/
inductive Expectation where
  | classKeyword
  | className
  | classBody
  | traitUseEnd
  | functionName
  | functionBody
  | parameterList
  | typeAfterQuestion
  | attributeName
  | catchClause
  | namespaceKeyword
  | namespaceNameOrBody
  | namespaceEnd
  | namespaceClose
  | importedName
  | groupClose
  | importEnd
deriving DecidableEq, Inhabited

/-- The words for what was expected. -/
def Expectation.display : Expectation → Text
  | .classKeyword => "class keyword"
  | .className => "class name"
  | .classBody => "`\x7b` opening the class body"
  | .traitUseEnd => "`;` after trait use"
  | .functionName => "function name"
  | .functionBody => "function body or `;`"
  | .parameterList => "`(` opening the parameter list"
  | .typeAfterQuestion => "type after `?`"
  | .attributeName => "attribute name"
  | .catchClause => "`(` after catch"
  | .namespaceKeyword => "`namespace`"
  | .namespaceNameOrBody => "namespace name or `\x7b`"
  | .namespaceEnd => "`;` after namespace name"
  | .namespaceClose => "`\x7d` closing the namespace"
  | .importedName => "imported name"
  | .groupClose => "`\x7d` closing the group import"
  | .importEnd => "`;` after import"

/-- A construct that the source does not close. -/
inductive Construct where
  | classBody
  | parameterList
  | attribute
  | catchClause
  | namespaceBlock
deriving DecidableEq, Inhabited

/-- The words for a construct. -/
def Construct.display : Construct → Text
  | .classBody => "class body"
  | .parameterList => "parameter list"
  | .attribute => "attribute"
  | .catchClause => "catch clause"
  | .namespaceBlock => "namespace block"

/-- The causes for which a source does not parse. The last one stands for a parser that
stopped moving forward, which does not happen.
-/
inductive ParseCause where
  | expected (what : Expectation)
  | unclosed (what : Construct)
  | unclosedGroup (opening : Text)
  | unmatched (closing : Text)
  | malformedType
  | nestedNamespace
  | stalled
deriving DecidableEq, Inhabited

/-- The wording of a cause. -/
def ParseCause.message : ParseCause → Text
  | .expected what => "expected " ++ what.display
  | .unclosed what => "unclosed " ++ what.display
  | .unclosedGroup opening => "unclosed `" ++ opening ++ ['\x60']
  | .unmatched closing => "unmatched `" ++ closing ++ ['\x60']
  | .malformedType => "malformed type"
  | .nestedNamespace => "namespace declarations cannot be nested"
  | .stalled => "parser stalled"

/-- A syntax error: its cause, and the bytes at which it was found. -/
structure ParseError where
  cause : ParseCause
  span : Span
deriving DecidableEq, Inhabited

/-- The wording of a syntax error. -/
def ParseError.message (error : ParseError) : Text :=
  error.cause.message

end ImportHeader
