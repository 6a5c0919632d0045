import ImportHeader.Text.Alphabetic
import ImportHeader.Text.Blank

/-! Types in doc comments. A tag at the start of a line is followed by a type, and the names
in it keep imports alive.
-/

namespace ImportHeader

namespace DocType

/-- The tags that a type follows. -/
def tags : List Text :=
  ["@param", "@return", "@var", "@throws", "@property", "@property-read", "@property-write",
    "@method", "@mixin", "@see"]

/-- The parts of a text before and behind its first blank, if it has one. -/
def splitWord? (text : Text) : Option (Text × Text) :=
  match text.dropWhile fun c => !Text.isBlank c with
  | [] => none
  | _ :: rest => some (text.takeWhile fun c => !Text.isBlank c, rest)

/-- Brackets that open a part of a type in which blanks can stand. -/
def opens (c : Char) : Bool :=
  "<(\x7b[".toList.contains c

/-- Brackets that close such a part. -/
def closes (c : Char) : Bool :=
  ">)\x7d]".toList.contains c

/-- The type at the start of a text, inside `depth` brackets: it ends at the first blank
outside all brackets.
-/
def typeExpression (depth : Nat) : Text → Text
  | [] => []
  | c :: rest =>
      if opens c then
        c :: typeExpression (depth + 1) rest
      else if closes c then
        c :: typeExpression (depth - 1) rest
      else if depth = 0 && Text.isBlank c then
        []
      else
        c :: typeExpression depth rest

/-- The characters between the names of a type. -/
def separates (c : Char) : Bool :=
  "|&<>,()[]\x7b\x7d?".toList.contains c || Text.isBlank c

/-- The first segment of a name in a type, without a member behind `::`. A name that starts
at the root, and anything that is no name, has none.
-/
def firstSegment? (part : Text) : Option Text :=
  let name :=
    match Text.cut? "::" part with
    | some (head, _) => head
    | none => part
  match name with
  | [] => none
  | c :: _ =>
      if Text.isAlphabetic c || c == '_' then some (name.takeWhile (· != '\\')) else none

/-- What stands behind a tag, from its type on. The type of a static method stands behind
the keyword.
-/
def behindTag (tag rest : Text) : Text :=
  let text := Text.trimStart rest
  if tag = "@method".toList then
    match splitWord? text with
    | some (word, behind) =>
        if Text.sameFolded word "static" then Text.trimStart behind else text
    | none => text
  else
    text

/-- The first segments of the names in a type. -/
def namesIn (expression : Text) : List Text :=
  (Text.splitBy separates expression).filterMap firstSegment?

/-- The first segments of the names in the type of a line of a comment. -/
def mentionsInLine (line : Text) : List Text :=
  let content := line.dropWhile fun c => Text.isBlank c || c == '*' || c == '/'
  match splitWord? content with
  | some (tag, rest) =>
      if tags.contains tag then namesIn (typeExpression 0 (behindTag tag rest)) else []
  | none => []

/-- The first segments of the names in all types of a doc comment. -/
def mentions (comment : Text) : List Text :=
  comment.lines.flatMap fun line => mentionsInLine line.withoutReturn

end DocType

end ImportHeader
