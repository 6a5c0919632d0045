import ImportHeader.Project.Path

/-! The settings of a project. -/

namespace ImportHeader

/-- The settings of a project: names that never need an import, the directories that are
searched for classes, whether a class map is read, and whether the built-in classes are
known.
-/
structure Config where
  ignore : List Text
  sourceDirs : List Path
  classmap : Bool
  builtins : Bool
deriving DecidableEq

/-- The settings of a project that says nothing. -/
def Config.default : Config where
  ignore := []
  sourceDirs := [⟨"src"⟩, ⟨"app"⟩, ⟨"lib"⟩]
  classmap := true
  builtins := true

instance : Inhabited Config := ⟨Config.default⟩

end ImportHeader
