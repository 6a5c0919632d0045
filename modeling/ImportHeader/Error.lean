import ImportHeader.Header.Structure
import ImportHeader.Parser.Error
import ImportHeader.Project.Error

/-! Everything that stops a run. A reference without an import does not. -/

namespace ImportHeader

/-- What stops a run: the syntax of a file, the structure of its header, or its project. -/
inductive Error where
  | parse (error : ParseError)
  | header (error : StructureError)
  | project (error : ProjectError)
deriving DecidableEq, Inhabited

namespace Error

/-- The wording of an error. -/
def message : Error → Text
  | .parse error => "parse error: " ++ error.message
  | .header error => error.message
  | .project error => error.message

/-- The exit code of a run that stops: one for the file itself, two for the project. -/
def exitCode : Error → Nat
  | .parse _ | .header _ => 1
  | .project _ => 2

end Error

end ImportHeader
