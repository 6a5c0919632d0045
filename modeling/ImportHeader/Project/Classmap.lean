import ImportHeader.Name
import ImportHeader.Project.Error
import ImportHeader.Token.Lexer

/-! Generated class maps: a file that returns an array from class names to paths. It is read
by its tokens and not evaluated.
-/

namespace ImportHeader

namespace Classmap

/-- Undoes the escapes of a single-quoted string: of a quote and of a backslash. -/
def unescape : Text → Text
  | [] => []
  | '\\' :: '\\' :: rest => '\\' :: unescape rest
  | '\\' :: '\'' :: rest => '\'' :: unescape rest
  | '\\' :: c :: rest => '\\' :: c :: unescape rest
  | c :: rest => c :: unescape rest

/-- Whether a character is a quote. -/
def isQuote (c : Char) : Bool :=
  c == '\'' || c == '"'

/-- A quoted text without its quotes and escapes. -/
def unquote (text : Text) : Text :=
  let inner :=
    match text with
    | first :: rest =>
        if isQuote first && rest.getLast?.any isQuote then rest.dropLast else text
    | [] => []
  unescape inner

/-- The part of a path that a token of a value stands for is added to the path so far. -/
def extendPath (root path : Path) (token : Token) : Except ClassmapFault Path :=
  match token.kind with
  | .variable =>
      if token.text = "$baseDir".toList then
        return root
      else if token.text = "$vendorDir".toList then
        return root.join ⟨"vendor"⟩
      else
        throw (.unknownVariable token.text)
  | .string =>
      let text := unquote token.text
      if path.text.isEmpty then
        return ⟨text⟩
      else
        return path.join ⟨text.dropWhile (· == '/')⟩
  | .operator => if token.text = ['.'] then return path else throw (.unexpectedToken token.text)
  | _ => throw (.unexpectedToken token.text)

/-- The path that the tokens of a value stand for. -/
def valuePath (root : Path) (tokens : List Token) : Except ClassmapFault Path := do
  let path ← tokens.foldlM (extendPath root) ⟨[]⟩
  if path.text.isEmpty then throw .emptyValue else return path

/-- Tokens that end a value. -/
def endsValue (token : Token) : Bool :=
  token.kind == .comma || token.kind == .rightParen || token.kind == .rightBracket

/-- The class name that stands before an arrow. -/
def keyName (before : List Token) : Except ClassmapFault Name :=
  match before.getLast? with
  | some key =>
      if key.kind = .string then
        match Name.ofText? (unquote key.text) with
        | some name => return name
        | none => throw (.invalidName key.text)
      else
        throw .unquotedName
  | none => throw .unquotedName

/-- The entries of an array: whatever stands around its arrows. -/
def entries (root : Path) (tokens : List Token) : Except ClassmapFault (List (Name × Path)) :=
  match _ : tokens.dropWhile fun token => token.kind != .fatArrow with
  | [] => return []
  | _ :: behind => do
      let name ← keyName (tokens.takeWhile fun token => token.kind != .fatArrow)
      let path ← valuePath root (behind.takeWhile fun token => !endsValue token)
      let others ← entries root (behind.dropWhile fun token => !endsValue token)
      return (name, path) :: others
termination_by tokens.length
decreasing_by
  rename_i found
  have kept := (List.dropWhile_suffix (l := behind) fun token => !endsValue token).length_le
  have shorter := (List.dropWhile_suffix (l := tokens) fun token =>
    token.kind != .fatArrow).length_le
  rw [found, List.length_cons] at shorter
  omega

/-- Reads a class map. Its base directory is the root of the project, and its vendor
directory the one of that name there.
-/
def parse (source : Text) (root : Path) : Except ClassmapFault (List (Name × Path)) :=
  let tokens := (tokenize source).filter fun token => !token.kind.isTrivia
  match tokens.dropWhile fun token => !token.isKeyword "return" with
  | [] => throw .missingReturn
  | _ :: rest => entries root rest

end Classmap

end ImportHeader
