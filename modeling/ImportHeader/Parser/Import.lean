import ImportHeader.Parser.Cursor

/-! Import declarations: single, listed and grouped. -/

namespace ImportHeader

namespace Parser

/-- The keyword of an import of functions or constants, directly before a name. -/
def importKind? : Parser (Option ImportKind) := do
  let cursor ← get
  if cursor.kind? 1 != some .name then
    return none
  else if cursor.atKeyword "function" then
    skip
    return some .function
  else if cursor.atKeyword "const" then
    skip
    return some .const
  else
    return none

/-- The alias of an item, behind the keyword `as`. -/
def alias? : Parser (Option Text) := do
  if ← eatKeyword "as" then
    return (← name?).map (·.name.last)
  else
    return none

/-- An item from behind its name. -/
def importItem (located : LocatedName) (kind? : Option ImportKind) : Parser ImportItem := do
  let alias? ← alias?
  let stop := (← get).lastEnd
  return ⟨located.name.imported, alias?, kind?, some ⟨located.span.start, stop⟩⟩

/-- One item of a list, and whether a comma follows it. -/
def importListTurn : Parser (Turn ImportItem) := do
  let located ← expectName .importedName
  let item ← importItem located none
  if ← eat .comma then return .more [item] else return .last [item]

/-- One item of a group, or its end. A comma can precede the closing brace. -/
def importGroupTurn : Parser (Turn ImportItem) := do
  if ← eat .rightBrace then
    return .last []
  else
    let kind? ← importKind?
    let located ← expectName .importedName
    let item ← importItem located kind?
    if ← eat .comma then
      return .more [item]
    else
      let _ ← expect .rightBrace .groupClose
      return .last [item]

/-- The items of a list behind the first one. -/
def otherItems : Parser (List ImportItem) := do
  if ← eat .comma then collect importListTurn else return []

/-- The names of an import, behind the keyword that can mark its kind. -/
def importNames (kind : ImportKind) : Parser Import := do
  let first ← expectName .importedName
  let cursor ← get
  if cursor.isAt .backslash && cursor.kind? 1 == some .leftBrace then
    skip
    skip
    return ⟨kind, some first.name.imported, ← collect importGroupTurn⟩
  else
    let item ← importItem first none
    return ⟨kind, none, item :: (← otherItems)⟩

/-- An import declaration, from its keyword to its semicolon. -/
def importing : Parser Import := do
  skip
  let kind? ← importKind?
  let declaration ← importNames (kind?.getD .classLike)
  let _ ← expect .semicolon .importEnd
  return declaration

end Parser

end ImportHeader
