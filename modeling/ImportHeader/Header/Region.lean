import ImportHeader.Header.Structure
import ImportHeader.Text.Blank

/-! Where the header of a file ends, and whether the lines behind it can be kept. -/

namespace ImportHeader

/-- The end of a header: its line, the byte behind its last statement, and the comment that
belongs to that statement.
-/
structure HeaderRegion where
  line : Nat
  stop : Nat
  trailing? : Option Text
deriving DecidableEq, Inhabited

namespace SourceFile

/-- The header that ends with a span and its comment. -/
def regionAfter (file : SourceFile) (span : Span) (trailing? : Option Text) : HeaderRegion :=
  ⟨file.lines.endLine span, span.stop, trailing?⟩

/-- The last import that was read from the source. -/
def lastImport? (file : SourceFile) : Option Stmt :=
  file.importScope.reverse.find? fun stmt => stmt.isImport && stmt.span?.isSome

/-- The last of the `declare` directives at the start of a file. -/
def lastDeclare? (file : SourceFile) : Option Stmt :=
  ((file.items.filterMap Item.stmt?).takeWhile Stmt.isDeclare).getLast?

/-- The header that ends with a statement, if the statement has a place. -/
def regionAfterStmt? (file : SourceFile) (stmt : Stmt) : Option HeaderRegion :=
  stmt.span?.map fun span => file.regionAfter span stmt.trailing?

/-- The end of the header: the last import, else the namespace declaration, else the last
leading directive, else the open tag. A file without code has none.
-/
def headerRegion? (file : SourceFile) : Option HeaderRegion := do
  let tag ← file.openTag?
  match file.lastImport? with
  | some stmt => file.regionAfterStmt? stmt
  | none =>
      match file.firstNamespace? with
      | some space => return file.regionAfter space.header space.headerComment?
      | none =>
          match file.lastDeclare? with
          | some stmt => file.regionAfterStmt? stmt
          | none => return file.regionAfter tag.span tag.comment?

/-- What stands behind a header on its last line. -/
def behindHeader (file : SourceFile) (source : Text) (region : HeaderRegion) : Text :=
  match file.lines.lineSpan? region.line with
  | some line => Text.trim (source.slice region.stop line.stop)
  | none => []

/-- Checks that nothing but its comment stands behind the header on its last line. -/
def checkHeaderLine (file : SourceFile) (source : Text) (region : HeaderRegion)
    : Except StructureError Unit :=
  let rest := file.behindHeader source region
  if rest.isEmpty || region.trailing? == some rest then
    return ()
  else
    throw ⟨.sharedHeaderLine, region.line + 1⟩

end SourceFile

end ImportHeader
