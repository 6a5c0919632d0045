import ImportHeader.Tree

/-! The canonical layout of a file. The open tag, namespaces and imports are written in one
fixed form; every other statement keeps its own text.
-/

namespace ImportHeader

namespace ImportItem

/-- An item of an import list or group. -/
def print (item : ImportItem) : Text :=
  let keyword : Text :=
    match item.kind?.bind ImportKind.keyword? with
    | some word => word ++ [' ']
    | none => []
  let ending : Text :=
    match item.alias? with
    | some name => " as " ++ name
    | none => []
  keyword ++ item.name.joined ++ ending

end ImportItem

namespace Import

/-- An import declaration on one line. -/
def print (declaration : Import) : Text :=
  let keyword : Text :=
    match declaration.kind.keyword? with
    | some word => word ++ [' ']
    | none => []
  let items := List.intercalate ", ".toList (declaration.items.map ImportItem.print)
  let names : Text :=
    match declaration.group? with
    | some group => group.joined ++ "\\\x7b" ++ items ++ "\x7d"
    | none => items
  "use " ++ keyword ++ names ++ [';']

end Import

/-- A blank and a comment, if there is one. -/
def printTrailing : Option Text → Text
  | some comment => ' ' :: comment
  | none => []

/-- Comments, each on a line of its own. -/
def printComments (indent : Text) (comments : List Text) : Text :=
  comments.flatMap fun comment => indent ++ comment ++ ['\n']

/-- Prints a list in order. A line break divides two imports, and an empty line everything
else.
-/
def printBlocks {α : Type} (isImport : α → Bool) (print : α → Text) : List α → Text
  | [] => []
  | [last] => print last
  | block :: next :: rest =>
      let gap : Text := if isImport block && isImport next then ['\n'] else ['\n', '\n']
      print block ++ gap ++ printBlocks isImport print (next :: rest)

namespace Stmt

/-- A statement with its comments. -/
def print (indent : Text) (stmt : Stmt) : Text :=
  let body :=
    match stmt.kind with
    | .importing declaration => declaration.print
    | _ => stmt.text
  printComments indent stmt.comments ++ indent ++ body ++ printTrailing stmt.trailing?

/-- Statements in order. -/
def printAll (indent : Text) (stmts : List Stmt) : Text :=
  printBlocks isImport (print indent) stmts

end Stmt

namespace Namespace

/-- The line that opens a namespace. -/
def printHeader (space : Namespace) : Text :=
  let name : Text :=
    match space.name? with
    | some located => ' ' :: located.name.joined
    | none => []
  let opening : Text := if space.braced then " \x7b" else ";"
  "namespace" ++ name ++ opening ++ printTrailing space.headerComment?

/-- A namespace with its statements, which the braced form indents. -/
def print (space : Namespace) : Text :=
  let body : Text :=
    if space.braced then
      if space.stmts.isEmpty then
        "\n\x7d"
      else
        "\n" ++ Stmt.printAll "    " space.stmts ++ "\n\x7d"
    else if space.stmts.isEmpty then
      []
    else
      "\n\n" ++ Stmt.printAll [] space.stmts
  printComments [] space.comments ++ space.printHeader ++ body

end Namespace

namespace Item

/-- Whether an item is an import. -/
def isImport : Item → Bool
  | .plain stmt => stmt.isImport
  | .scope _ => false

/-- An item of the top level. -/
def print : Item → Text
  | .plain stmt => stmt.print []
  | .scope space => space.print

end Item

namespace SourceFile

/-- A whole file. Markup alone is printed as it is. -/
def print (file : SourceFile) : Text :=
  let markup := file.markup?.getD []
  match file.openTag? with
  | none => markup
  | some tag =>
      let body : Text :=
        if file.items.isEmpty then
          []
        else
          "\n" ++ printBlocks Item.isImport Item.print file.items ++ "\n"
      markup ++ tag.text ++ printTrailing tag.comment? ++ "\n" ++ body

end SourceFile

end ImportHeader
