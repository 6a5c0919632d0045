import ImportHeader.Project.Path

/-! Why the metadata of a project cannot be loaded. -/

namespace ImportHeader

/-- Why a file cannot be read. -/
inductive ReadFault where
  | notFound
  | notADirectory
  | isDirectory
  | notUtf8
deriving DecidableEq, Inhabited

/-- The wording of a fault. -/
def ReadFault.message : ReadFault → Text
  | .notFound => "No such file or directory (os error 2)"
  | .notADirectory => "Not a directory (os error 20)"
  | .isDirectory => "Is a directory (os error 21)"
  | .notUtf8 => "stream did not contain valid UTF-8"

/-- Why settings cannot be taken from a file: its text is malformed, or a setting has a value
of the wrong kind.
-/
inductive ConfigFault where
  | malformed
  | wrongType (key : Text)
deriving DecidableEq, Inhabited

/-- The wording of a fault. -/
def ConfigFault.message : ConfigFault → Text
  | .malformed => "malformed settings"
  | .wrongType key => "invalid type for `" ++ key ++ "`"

/-- Why a class map cannot be read. -/
inductive ClassmapFault where
  | missingReturn
  | unquotedName
  | invalidName (quoted : Text)
  | unknownVariable (name : Text)
  | unexpectedToken (text : Text)
  | emptyValue
deriving DecidableEq, Inhabited

/-- The wording of a fault. -/
def ClassmapFault.message : ClassmapFault → Text
  | .missingReturn => "missing `return` statement"
  | .unquotedName => "expected a quoted class name before `=>`"
  | .invalidName quoted => "invalid class name " ++ quoted
  | .unknownVariable name => "unknown variable " ++ name
  | .unexpectedToken text => "unexpected `" ++ text ++ "` in classmap value"
  | .emptyValue => "empty classmap value"

/-- Why the metadata of a project cannot be loaded. -/
inductive ProjectError where
  | unreadable (path : Path) (fault : ReadFault)
  | config (path : Path) (fault : ConfigFault)
  | missingRoot (path : Path)
  | classmap (path : Path) (fault : ClassmapFault)
deriving DecidableEq, Inhabited

/-- The wording of an error. -/
def ProjectError.message : ProjectError → Text
  | .unreadable path fault => "failed to read " ++ path.text ++ ": " ++ fault.message
  | .config path fault => "invalid config " ++ path.text ++ ": " ++ fault.message
  | .missingRoot path => "no composer.json or .phpimports.toml above " ++ path.text
  | .classmap path fault => path.text ++ ": " ++ fault.message

end ImportHeader
