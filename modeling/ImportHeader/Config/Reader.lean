import ImportHeader.Config
import ImportHeader.Config.Toml
import ImportHeader.Project.Error

/-! Reading settings. What is not set keeps its default, and unknown keys are no error. -/

namespace ImportHeader

namespace Config

/-- A setting with the default that it replaces, by a reader of its values. -/
def setting {α : Type} (document : Toml.Document) (key : Text) (fallback : α)
    (read? : Toml.Value → Option α) : Except ConfigFault α :=
  match document.setting key with
  | .absent => return fallback
  | .table => throw (.wrongType key)
  | .value value =>
      match read? value with
      | some content => return content
      | none => throw (.wrongType key)

/-- A string. -/
def text? : Toml.Value → Option Text
  | .text text => some text
  | _ => none

/-- An array of strings. -/
def texts? : Toml.Value → Option (List Text)
  | .array items => items.mapM text?
  | _ => none

/-- A boolean. -/
def boolean? : Toml.Value → Option Bool
  | .boolean value => some value
  | _ => none

/-- Reads settings. -/
def read (text : Text) : Except ConfigFault Config :=
  match Toml.document? text with
  | none => throw .malformed
  | some document => do
      let ignore ← setting document "ignore" default.ignore texts?
      let sourceDirs ← setting document "source_dirs" default.sourceDirs fun value =>
        (texts? value).map (List.map Path.mk)
      let classmap ← setting document "classmap" default.classmap boolean?
      let builtins ← setting document "builtins" default.builtins boolean?
      return { ignore, sourceDirs, classmap, builtins }

end Config

end ImportHeader
