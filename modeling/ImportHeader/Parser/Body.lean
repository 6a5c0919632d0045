import ImportHeader.Parser.Cursor

/-! Declarations, and the scan of everything else. Bodies are scanned token by token: the
scan keeps brackets balanced and keeps the places where a class name can stand.

Every function here takes the scan of one token or bracket group as the argument `one`;
`scan` ties the knot.
-/

namespace ImportHeader

namespace Parser

/-- The built-in types, which never name a class. -/
def builtinTypes : List Text :=
  ["array", "bool", "callable", "false", "float", "int", "iterable", "mixed", "never", "null",
    "object", "string", "true", "void"]

/-- The keywords of statements that can hold several blocks. -/
def controlKeywords : List Text :=
  ["if", "elseif", "else", "for", "foreach", "while", "switch", "try", "catch", "finally", "do",
    "declare"]

/-- The keywords with which a control statement goes on behind a block. -/
def continuationKeywords : List Text :=
  ["else", "elseif", "catch", "finally"]

/-- The keywords that can precede a member of a class. -/
def memberModifiers : List Text :=
  ["public", "protected", "private", "static", "abstract", "final", "readonly", "var"]

/-- The keywords that can precede a parameter. -/
def paramModifiers : List Text :=
  ["public", "protected", "private", "readonly"]

/-- The keywords that can precede a class declaration. -/
def classModifiers : List Text :=
  ["abstract", "final", "readonly"]

/-- The keywords that start a class declaration. -/
def classKeywords : List Text :=
  ["class", "interface", "trait", "enum"]

/-- The kind of class that a keyword declares. -/
def classKind (keyword : Token) : ClassKind :=
  if keyword.isKeyword "interface" then .interface
  else if keyword.isKeyword "trait" then .trait
  else if keyword.isKeyword "enum" then .enumeration
  else .plain

end Parser

/-- Whether a named class declaration starts here, behind any modifiers. -/
def Cursor.atClass (cursor : Cursor) : Bool :=
  let isModifier (lexeme : Lexeme) := Parser.classModifiers.any lexeme.token.isKeyword
  match cursor.ahead.dropWhile isModifier with
  | keyword :: name :: _ =>
      Parser.classKeywords.any keyword.token.isKeyword && name.token.kind == .name
  | _ => false

/-- Whether a named function declaration starts here. -/
def Cursor.atFunction (cursor : Cursor) : Bool :=
  cursor.atKeyword "function"
    && (cursor.kind? 1 == some .name
      || (cursor.kind? 1 == some .ampersand && cursor.kind? 2 == some .name))

/-- Whether a nested function or an arrow function starts here. -/
def Cursor.atClosure (cursor : Cursor) : Bool :=
  cursor.isKeyword 0 ["function", "fn"]
    && (cursor.kind? 1 == some .leftParen || cursor.kind? 1 == some .ampersand
      || (cursor.atKeyword "function" && cursor.kind? 1 == some .name))

namespace Parser

/-- One name of a list, and whether a comma follows it. -/
def nameListTurn : Parser (Turn LocatedName) := do
  let name ← expectName .className
  if ← eat .comma then return .more [name] else return .last [name]

/-- A list of class names with commas between them. -/
def nameList : Parser (List LocatedName) :=
  collect nameListTurn

/-- A name in a type; the built-in types are left out. -/
def typeName : Parser (List LocatedName) := do
  match ← name? with
  | some located =>
      let builtin :=
        located.name.form == .unqualified
          && builtinTypes.any (Text.sameFolded located.name.first)
      return if builtin then [] else [located]
  | none => return []

/-- One step inside a parenthesised intersection of types. -/
def typeGroupTurn : Parser (Turn LocatedName) := do
  match (← get).kind? 0 with
  | some .name => return .more (← typeName)
  | some .ampersand =>
      skip
      return .more []
  | some .rightParen =>
      skip
      return .last []
  | _ => fail .malformedType

/-- One alternative of a type: a name or a parenthesised intersection, either with a
question mark before it. None if no type stands here.
-/
def typeAtom? : Parser (Option TypeHint) := do
  let nullable ← eat .question
  if ← eat .leftParen then
    return some (← collect typeGroupTurn)
  else if (← get).isAt .name then
    return some (← typeName)
  else if nullable then
    fail (.expected .typeAfterQuestion)
  else
    return none

/-- Moves behind the mark that joins two types. An ampersand before a variable, an ellipsis
or another ampersand belongs to the parameter.
-/
def typeJoint : Parser Bool := do
  if ← eat .pipe then
    return true
  else
    let cursor ← get
    let joins :=
      cursor.isAt .ampersand
        && !(cursor.kind? 1 == some .variable || cursor.kind? 1 == some .ellipsis
          || cursor.kind? 1 == some .ampersand)
    if joins then skip
    return joins

/-- One alternative of a type, and whether another one is joined to it. -/
def typeTurn : Parser (Turn TypeHint) := do
  match ← typeAtom? with
  | some names => if ← typeJoint then return .more [names] else return .last [names]
  | none => return .last []

/-- A type, if one stands here. -/
def typeHint? : Parser (Option TypeHint) := do
  match ← collect typeTurn with
  | [] => return none
  | alternatives => return some alternatives.flatten

/-- The return type of a function, if a colon announces one. -/
def returnType? : Parser (Option TypeHint) := do
  if ← eat .colon then typeHint? else return none

/-- The kind of token that closes a bracket group. -/
def closing : TokenKind → TokenKind
  | .leftParen => .rightParen
  | .leftBracket => .rightBracket
  | _ => .rightBrace

section Scan

variable (one : Parser (List Expr))

/-- One step inside a bracket group. -/
def groupTurn (opening : Token) : Parser (Turn Expr) := do
  match (← get).kind? 0 with
  | none => throw ⟨.unclosedGroup opening.text, opening.span⟩
  | some kind =>
      if kind = closing opening.kind then
        skip
        return .last []
      else
        return .more (← one)

/-- A balanced bracket group, from its opening to its closing bracket. -/
def group : Parser (List Expr) := do
  match (← get).token? 0 with
  | some opening =>
      skip
      collect (groupTurn one opening)
  | none => return []

/-- Arguments in parentheses, if there are any. -/
def arguments : Parser (List Expr) := do
  if (← get).isAt .leftParen then group one else return []

/-- One step inside an attribute list. -/
def attributeTurn : Parser (Turn Expr) := do
  match (← get).kind? 0 with
  | none => fail (.unclosed .attribute)
  | some .rightBracket =>
      skip
      return .last []
  | some .comma =>
      skip
      return .more []
  | some .name =>
      let target ← expectName .attributeName
      return .more [.attr target (← arguments one)]
  | some _ => return .more (← one)

/-- One attribute list, if one stands here. -/
def attributesTurn : Parser (Turn Expr) := do
  if ← eat .attributeOpen then
    return .more (← collect (attributeTurn one))
  else
    return .last []

/-- All attribute lists that stand here. -/
def attributes : Parser (List Expr) :=
  collect (attributesTurn one)

/-- One modifier, with the group in parentheses that can follow it. -/
def modifierTurn (keywords : List Text) : Parser (Turn Unit) := do
  if (← get).isKeyword 0 keywords then
    skip
    let _ ← arguments one
    return .more []
  else
    return .last []

/-- Moves behind all modifiers that stand here. -/
def modifiers (keywords : List Text) : Parser Unit := do
  let _ ← collect (modifierTurn one keywords)

/-- One step through the default value of a parameter. -/
def defaultTurn : Parser (Turn Expr) := do
  match (← get).kind? 0 with
  | none | some .comma | some .rightParen => return .last []
  | some _ => return .more (← one)

/-- The name of a parameter without its dollar sign; empty if there is none. -/
def paramName : Parser Text := do
  match (← get).token? 0 with
  | some token =>
      if token.kind = .variable then
        skip
        return token.text.drop 1
      else
        return []
  | none => return []

/-- One parameter of a function. -/
def param : Parser (Param Expr) := do
  let attributes ← attributes one
  modifiers one paramModifiers
  let type? ← typeHint?
  let _ ← eat .ampersand
  let _ ← eat .ellipsis
  let name ← paramName
  let default ← collect (defaultTurn one)
  return { name, attributes, type?, default }

/-- One step through a parameter list. -/
def paramTurn : Parser (Turn (Param Expr)) := do
  match (← get).kind? 0 with
  | none => fail (.unclosed .parameterList)
  | some .rightParen =>
      skip
      return .last []
  | some .comma =>
      skip
      return .more []
  | some _ => return .more [← param one]

/-- A parameter list in parentheses. -/
def params : Parser (List (Param Expr)) := do
  let _ ← expect .leftParen .parameterList
  collect (paramTurn one)

/-- A named function or method, from its keyword to its body or semicolon. -/
def function (attributes : List Expr) : Parser (Function Expr) := do
  skip
  let _ ← eat .ampersand
  let name ← expectName .functionName
  let params ← params one
  let returnType? ← returnType?
  if (← get).isAt .leftBrace then
    let body ← group one
    return { name? := some name.name.last, attributes, params, returnType?, body }
  else
    let _ ← expect .semicolon .functionBody
    return { name? := some name.name.last, attributes, params, returnType?, body := [] }

/-- The variables that a closure captures, if it captures any. -/
def captures : Parser (List Expr) := do
  if ← eatKeyword "use" then arguments one else return []

/-- The block of a closure. An arrow function has none. -/
def closureBlock (arrow : Bool) : Parser (List Expr) := do
  if !arrow && (← get).isAt .leftBrace then group one else return []

/-- A closure, an arrow function, or a named function inside a body. The body of an arrow
function is an expression and is left to the scan around it.
-/
def closure : Parser (Function Expr) := do
  let arrow := (← get).atKeyword "fn"
  skip
  let _ ← eat .ampersand
  let name ← name?
  let params ← params one
  let captured ← captures one
  let returnType? ← returnType?
  let block ← closureBlock one arrow
  return {
    name? := name.map (·.name.last), attributes := [], params, returnType?,
    body := captured ++ block }

/-- One step through the rest of a constant, case or property. -/
def memberTailTurn : Parser (Turn Expr) := do
  match (← get).kind? 0 with
  | none => fail (.unclosed .classBody)
  | some .semicolon =>
      skip
      return .last []
  | some .rightBrace => return .last []
  | some .leftBrace => return .last (← group one)
  | some _ => return .more (← one)

/-- The rest of a constant, case or property, through its semicolon or block. -/
def memberTail : Parser (List Expr) :=
  collect (memberTailTurn one)

/-- A trait use behind its keyword. -/
def traitUse : Parser (Member Expr) := do
  let traits ← nameList
  if (← get).isAt .leftBrace then
    return .traitUse traits (← group one)
  else
    let _ ← expect .semicolon .traitUseEnd
    return .traitUse traits []

/-- A member of a class that is no trait use, from its modifiers on. -/
def member (attributes : List Expr) : Parser (Member Expr) := do
  modifiers one memberModifiers
  let cursor ← get
  if cursor.atKeyword "function" then
    return .method (← function one attributes)
  else if cursor.isKeyword 0 ["const", "case"] then
    return .other (attributes ++ (← memberTail one))
  else
    let type? ← typeHint?
    return .property attributes type? (← memberTail one)

/-- One step through the body of a class. -/
def memberTurn : Parser (Turn (Member Expr)) := do
  let attributes ← attributes one
  match (← get).kind? 0 with
  | none => fail (.unclosed .classBody)
  | some .rightBrace =>
      skip
      return .last []
  | some .semicolon =>
      skip
      return .more []
  | some _ =>
      if ← eatKeyword "use" then
        return .more [← traitUse one]
      else
        return .more [← member one attributes]

/-- Moves behind the type of the cases, which only an enumeration has. -/
def backingType (kind : ClassKind) : Parser Unit := do
  if kind = .enumeration then
    if ← eat .colon then
      let _ ← name?

/-- The names behind a keyword, if it stands here. -/
def namesAfter (keyword : Text) : Parser (List LocatedName) := do
  if ← eatKeyword keyword then nameList else return []

/-- A class from behind its name, or behind the constructor arguments of an anonymous one,
to its closing brace.
-/
def classTail (kind : ClassKind) (name? : Option Text) (attributes arguments : List Expr)
    : Parser (ClassLike Expr) := do
  backingType kind
  let parents ← namesAfter "extends"
  let interfaces ← namesAfter "implements"
  let _ ← expect .leftBrace .classBody
  let members ← collect (memberTurn one)
  return { kind, name?, attributes, parents, interfaces, arguments, members }

/-- One modifier of a class declaration. -/
def classModifierTurn : Parser (Turn Unit) := do
  if (← get).isKeyword 0 classModifiers then
    skip
    return .more []
  else
    return .last []

/-- A named class declaration, from its modifiers on. -/
def namedClass (attributes : List Expr) : Parser (ClassLike Expr) := do
  let _ ← collect classModifierTurn
  let keyword ← expect .name .classKeyword
  let name ← expectName .className
  classTail one (classKind keyword) (some name.name.last) attributes []

/-- An anonymous class, from its keyword on. -/
def anonymousClass (attributes : List Expr) : Parser (ClassLike Expr) := do
  skip
  let arguments ← arguments one
  classTail one .plain none attributes arguments

/-- Moves behind the modifier of an anonymous class. -/
def anonymousModifier : Parser Unit := do
  let cursor ← get
  if cursor.atKeyword "readonly" && cursor.isKeyword 1 ["class"] then skip

/-- What `new` creates, behind its attributes. -/
def created (attributes : List Expr) : Parser (List Expr) := do
  if (← get).atKeyword "class" then
    return [.classLike (← anonymousClass one attributes)]
  else
    match ← name? with
    | some target => return attributes ++ [.new target (← arguments one)]
    | none => return attributes

/-- What `new` creates, from the keyword on. -/
def creation : Parser (List Expr) := do
  skip
  let attributes ← attributes one
  anonymousModifier
  created one attributes

/-- One step through the types of a `catch` clause. -/
def catchTurn : Parser (Turn LocatedName) := do
  match (← get).kind? 0 with
  | none => fail (.unclosed .catchClause)
  | some .rightParen =>
      skip
      return .last []
  | some .name => return .more (← name?).toList
  | some _ =>
      let _ ← one
      return .more []

/-- A `catch` clause, from its keyword to the parenthesis that closes its types. -/
def catchClause : Parser (List Expr) := do
  skip
  let _ ← expect .leftParen .catchClause
  return [.catches (← collect (catchTurn one))]

/-- Moves behind a member of a class, by its name or in a variable. -/
def memberName : Parser Unit := do
  let next := (← get).kind? 0
  if next == some .name || next == some .variable then skip

/-- A name in a body that is no keyword of its own: a static access, a qualified function or
constant, or nothing of interest.
-/
def plainName : Parser (List Expr) := do
  match ← name? with
  | none => return []
  | some target =>
      if ← eat .doubleColon then
        memberName
        return [.staticAccess target]
      else if target.name.form = .qualified then
        return [.qualifiedUse target]
      else
        return []

/-- A name in a body, by the construct it starts. -/
def nameInBody : Parser (List Expr) := do
  let cursor ← get
  if cursor.atKeyword "new" then
    creation one
  else if cursor.atKeyword "instanceof" then
    skip
    return (← name?).toList.map .instanceOf
  else if cursor.atKeyword "catch" && cursor.kind? 1 == some .leftParen then
    catchClause one
  else if cursor.atClosure then
    return [.closure (← closure one)]
  else if cursor.atClass then
    return [.classLike (← namedClass one [])]
  else
    plainName

/-- One token or bracket group of a body. -/
def element : Parser (List Expr) := do
  match (← get).token? 0 with
  | none => return []
  | some token =>
      match token.kind with
      | .leftParen | .leftBracket | .leftBrace => group one
      | .rightParen | .rightBracket | .rightBrace => fail (.unmatched token.text)
      | .attributeOpen => attributes one
      | .arrow | .nullsafeArrow =>
          skip
          let _ ← eat .name
          return []
      | .name => nameInBody one
      | _ =>
          skip
          return []

/-- One step through a statement. A statement that starts with a block ends with it, and a
control statement ends with a block behind which nothing continues it.
-/
def statementTurn (control loops bare : Bool) : Parser (Turn Expr) := do
  match (← get).kind? 0 with
  | none | some .closeTag | some .rightBrace => return .last []
  | some .semicolon =>
      skip
      return .last []
  | some .leftBrace =>
      let found ← group one
      let cursor ← get
      let continues :=
        cursor.isKeyword 0 continuationKeywords || (loops && cursor.atKeyword "while")
      if bare || (control && !continues) then return .last found else return .more found
  | some _ => return .more (← one)

/-- A statement through its end. A close tag is a statement of its own. -/
def statement : Parser (List Expr) := do
  if ← eat .closeTag then
    let _ ← eat .openTag
    return []
  else
    let cursor ← get
    collect (statementTurn one (cursor.isKeyword 0 controlKeywords) (cursor.atKeyword "do")
      (cursor.isAt .leftBrace))

end Scan

/-- One token or bracket group. Each level of nesting uses up a lexeme of the budget. -/
def scanWithin : List Lexeme → Parser (List Expr)
  | [] => element (fail .stalled)
  | _ :: rest => element (scanWithin rest)

/-- One token or bracket group. Each level of nesting moves the cursor, so the lexemes ahead
are budget enough.
-/
def scan : Parser (List Expr) := do
  scanWithin (← get).ahead

end Parser

end ImportHeader
