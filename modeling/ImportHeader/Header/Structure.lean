import ImportHeader.Tree

/-! The invariants of a header that can be edited: at most one namespace, nothing but
`declare` directives before it, and the imports in one run.
-/

namespace ImportHeader

/-- The ways in which a header cannot be edited. -/
inductive StructureFault where
  | multipleNamespaces
  | namespaceNotFirst
  | nonContiguousImports
  | sharedHeaderLine
deriving DecidableEq, Inhabited

/-- The wording of a fault. -/
def StructureFault.message : StructureFault → Text
  | .multipleNamespaces => "a file may declare at most one namespace"
  | .namespaceNotFirst => "the namespace declaration must be the first statement"
  | .nonContiguousImports => "import statements must form one contiguous block"
  | .sharedHeaderLine => "code follows the last header statement on the same line"

/-- A fault and its line, counted from one. -/
structure StructureError where
  fault : StructureFault
  line : Nat
deriving DecidableEq, Inhabited

/-- The wording of an error, with its line. -/
def StructureError.message (error : StructureError) : Text :=
  "line " ++ Text.ofNat error.line ++ ": " ++ error.fault.message

namespace SourceFile

/-- The line on which a statement starts, counted from one. A statement that was not read
from a source counts as one of the first line.
-/
def lineOf (file : SourceFile) (span? : Option Span) : Nat :=
  span?.elim 0 file.lines.startLine + 1

/-- The namespaces of a file in order. -/
def namespaces (file : SourceFile) : List Namespace :=
  file.items.filterMap Item.space?

/-- The items before the first namespace. -/
def beforeNamespace (file : SourceFile) : List Item :=
  file.items.takeWhile fun item => item.space?.isNone

/-- The first import behind the first run of imports. -/
def strayImport? (stmts : List Stmt) : Option Stmt :=
  let fromFirst := stmts.dropWhile fun stmt => !stmt.isImport
  (fromFirst.dropWhile Stmt.isImport).find? Stmt.isImport

/-- Checks that the imports form one run. -/
def checkContiguous (file : SourceFile) : Except StructureError Unit :=
  match strayImport? file.importScope with
  | some stmt => throw ⟨.nonContiguousImports, file.lineOf stmt.span?⟩
  | none => return ()

/-- Checks the invariants of the header; the namespaces come first. -/
def checkStructure (file : SourceFile) : Except StructureError Unit :=
  match file.namespaces with
  | _ :: second :: _ => throw ⟨.multipleNamespaces, file.lineOf (some second.span)⟩
  | [only] =>
      if file.beforeNamespace.all fun item => item.stmt?.any Stmt.isDeclare then
        file.checkContiguous
      else
        throw ⟨.namespaceNotFirst, file.lineOf (some only.span)⟩
  | [] => file.checkContiguous

end SourceFile

end ImportHeader
