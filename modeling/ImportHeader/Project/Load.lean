import ImportHeader.Config.Reader
import ImportHeader.Project.Classmap
import ImportHeader.Project.Scan

/-! Loading a project: its root, its settings and its classes. -/

namespace ImportHeader

/-- The name of the settings file in the root of a project. -/
def configName : Path :=
  ⟨".phpimports.toml"⟩

/-- The name of the package file in the root of a project. -/
def packageName : Path :=
  ⟨"composer.json"⟩

/-- The place of the class map below the root of a project. -/
def classmapName : Path :=
  ⟨"vendor/composer/autoload_classmap.php"⟩

namespace FileTree

/-- Whether a directory is the root of a project: it has a package or settings file. -/
def isRoot (tree : FileTree) (directory : Path) : Bool :=
  tree.isFile (directory.join packageName) || tree.isFile (directory.join configName)

/-- The nearest root of a project at or above a path. -/
def findRoot? (tree : FileTree) (path : Path) : Option Path := do
  let start ← if tree.isFile path then path.parent? else some path
  start.ancestors.find? tree.isRoot

/-- The text of a file, with the error of a project if it cannot be read. -/
def readFor (tree : FileTree) (path : Path) : Except ProjectError Text :=
  (tree.readText path).mapError (.unreadable path)

/-- The settings in a file. -/
def loadConfig (tree : FileTree) (path : Path) : Except ProjectError Config := do
  let text ← tree.readFor path
  (Config.read text).mapError (.config path)

/-- The settings of the project at a root, or the defaults. -/
def loadProjectConfig (tree : FileTree) (root : Path) : Except ProjectError Config :=
  let path := root.join configName
  if tree.isFile path then tree.loadConfig path else return .default

/-- The class map of the project at a root, if it has one. -/
def loadClassmap (tree : FileTree) (root : Path)
    : Except ProjectError (Option (List (Name × Path))) :=
  let path := root.join classmapName
  if tree.isFile path then do
    let source ← tree.readFor path
    let entries ← (Classmap.parse source root).mapError (.classmap path)
    return some entries
  else
    return none

/-- The index of the entries of a class map. -/
def indexClassmap (entries : List (Name × Path)) : ProjectIndex :=
  entries.foldl (fun index (name, path) => index.insert name path) .empty

/-- The classes of the project at a root: those of its class map, if the settings allow it and
there is one, else those found in its source directories.
-/
def loadIndex (tree : FileTree) (root : Path) (config : Config)
    : Except ProjectError ProjectIndex := do
  let classmap? ← if config.classmap then tree.loadClassmap root else pure none
  match classmap? with
  | some entries => return indexClassmap entries
  | none => return tree.scan root config.sourceDirs

end FileTree

end ImportHeader
