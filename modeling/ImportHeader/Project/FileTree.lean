import ImportHeader.Project.Error

/-! A tree of files in memory, as a run sees it. A location is the list of names from the
root; a path is looked up step by step from the root or from the current directory.
-/

namespace ImportHeader

/-- The names that lead from the root to a file or directory. -/
abbrev Location := List Text

/-- Files with their content, directories, and the directory in which relative paths start.
Every location above one of these is a directory too.
-/
structure FileTree where
  current : Location
  files : List (Location × ByteArray)
  directories : List Location

namespace FileTree

/-- The tree with nothing but the current directory. -/
def empty (current : Location) : FileTree :=
  ⟨current, [], [current]⟩

/-- The content of the file at a location. -/
def contentAt? (tree : FileTree) (location : Location) : Option ByteArray :=
  tree.files.lookup location

/-- Whether there is a directory at a location. -/
def hasDirectory (tree : FileTree) (location : Location) : Bool :=
  tree.directories.any (location.isPrefixOf ·)
    || tree.files.any fun (file, _) => location.isPrefixOf file && location != file

/-- One step along a path, from a directory. -/
def step (tree : FileTree) (location : Location) (component : Component)
    : Except ReadFault Location :=
  if (tree.contentAt? location).isSome then
    throw .notADirectory
  else if !tree.hasDirectory location then
    throw .notFound
  else
    match component with
    | .root => return []
    | .current => return location
    | .parent => return location.dropLast
    | .normal name => return location ++ [name]

/-- The location that a path leads to. All but the last step have to be directories, and
the last one too if a slash ends the path. The empty path leads nowhere.
-/
def locate (tree : FileTree) (path : Path) : Except ReadFault Location :=
  if path.text.isEmpty then
    throw .notFound
  else do
    let trailing := (path.parts.getLast?.bind Prod.snd).isNone
    let steps := if trailing then path.components ++ [.current] else path.components
    steps.foldlM tree.step (if path.isAbsolute then [] else tree.current)

/-- Whether a path leads to a file. -/
def isFile (tree : FileTree) (path : Path) : Bool :=
  match tree.locate path with
  | .ok location => (tree.contentAt? location).isSome
  | .error _ => false

/-- Whether a path leads to a directory. -/
def isDirectory (tree : FileTree) (path : Path) : Bool :=
  match tree.locate path with
  | .ok location => tree.hasDirectory location
  | .error _ => false

/-- The text of the file that a path leads to. -/
def readText (tree : FileTree) (path : Path) : Except ReadFault Text := do
  let location ← tree.locate path
  match tree.contentAt? location with
  | some content =>
      match String.fromUTF8? content with
      | some text => return text.toList
      | none => throw .notUtf8
  | none => if tree.hasDirectory location then throw .isDirectory else throw .notFound

/-- Puts a file at a location, in place of the one that was there. -/
def put (tree : FileTree) (location : Location) (content : ByteArray) : FileTree :=
  { tree with
    files := (location, content) :: tree.files.filter fun (file, _) => file != location }

/-- Puts a directory at a location. -/
def putDirectory (tree : FileTree) (location : Location) : FileTree :=
  { tree with directories := location :: tree.directories }

/-- Writes text to the file that a path leads to. -/
def writeText (tree : FileTree) (path : Path) (text : Text) : Except ReadFault FileTree := do
  let location ← tree.locate path
  return tree.put location (String.ofList text).toUTF8

/-- The locations of the files below a directory, relative to it. -/
def filesBelow (tree : FileTree) (directory : Location) : List Location :=
  tree.files.filterMap fun (file, _) =>
    if directory.isPrefixOf file && directory != file then
      some (file.drop directory.length)
    else
      none

end FileTree

end ImportHeader
