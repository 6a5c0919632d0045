import ImportHeader.Name
import ImportHeader.Text.Position

/-! What a run reports about a file without stopping. -/

namespace ImportHeader

/-- How serious a report is. -/
inductive Severity where
  | warning
  | info
deriving DecidableEq, Inhabited

/-- The word for a severity. -/
def Severity.display : Severity → Text
  | .warning => "warning"
  | .info => "info"

/-- A report with its place and, if it is of a known kind, its code. -/
structure Diagnostic where
  position : Position
  severity : Severity
  code? : Option Text
  message : Text
deriving DecidableEq, Inhabited

namespace Diagnostic

/-- A reference that nothing in the index matches. -/
def unresolved (position : Position) (name : Name) : Diagnostic where
  position
  severity := .warning
  code? := some "W0001"
  message := "unresolved reference '" ++ name.display ++ "'"

/-- An import that is left out because its local name is taken. -/
def skipped (position : Position) (name : Name) (bound : Text) : Diagnostic where
  position
  severity := .warning
  code? := some "W0002"
  message := "not importing '" ++ name.display ++ "': '" ++ bound ++ "' is already bound"

/-- An import that was removed because nothing uses it. -/
def removed (position : Position) (name : Name) : Diagnostic where
  position
  severity := .info
  code? := some "I0001"
  message := "removed unused import '" ++ name.display ++ "'"

/-- Whether a report is a warning. -/
def isWarning (diagnostic : Diagnostic) : Bool :=
  diagnostic.severity == .warning

/-- A report on one line. -/
def display (diagnostic : Diagnostic) : Text :=
  let code : Text :=
    match diagnostic.code? with
    | some code => ['['] ++ code ++ [']']
    | none => []
  diagnostic.severity.display ++ code ++ [' '] ++ diagnostic.position.display ++ ": "
    ++ diagnostic.message

/-- The number of warnings in a list of reports. -/
def warningCount (diagnostics : List Diagnostic) : Nat :=
  diagnostics.countP isWarning

end Diagnostic

end ImportHeader
