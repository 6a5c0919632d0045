import ImportHeader.Project.Path
import ImportHeader.Symbol.Index

/-! The files that declare the classes of an index, numbered in the order in which they were
first seen.
-/

namespace ImportHeader

/-- A list of paths without two spellings of one path. -/
structure SourceTable where
  paths : List Path
deriving DecidableEq, Inhabited

namespace SourceTable

/-- The table without files. -/
def empty : SourceTable :=
  ⟨[]⟩

/-- The number of a known path. -/
def fileId? (table : SourceTable) (path : Path) : Option FileId :=
  (table.paths.findIdx? (Path.same path)).map FileId.mk

/-- Adds a path unless it is known, and gives its number. The first spelling is kept. -/
def insert (table : SourceTable) (path : Path) : SourceTable × FileId :=
  match table.fileId? path with
  | some file => (table, file)
  | none => (⟨table.paths ++ [path]⟩, ⟨table.paths.length⟩)

/-- The path of a file. -/
def path? (table : SourceTable) (file : FileId) : Option Path :=
  table.paths[file.index]?

/-- Whether a file number is in use. -/
def contains (table : SourceTable) (file : FileId) : Bool :=
  file.index < table.paths.length

/-- The number of files. -/
def size (table : SourceTable) : Nat :=
  table.paths.length

end SourceTable

/-- The classes of a project and the files that declare them. -/
structure ProjectIndex where
  files : SourceTable
  symbols : SymbolIndex

namespace ProjectIndex

/-- The index of a project without classes. -/
def empty : ProjectIndex :=
  ⟨.empty, .empty⟩

instance : Inhabited ProjectIndex := ⟨empty⟩

/-- Adds a class of a file. -/
def insert (index : ProjectIndex) (name : Name) (path : Path) : ProjectIndex :=
  let (files, file) := index.files.insert path
  ⟨files, index.symbols.insert ⟨name, file⟩⟩

/-- Sets the classes of a file. -/
def setFile (index : ProjectIndex) (path : Path) (names : List Name) : ProjectIndex :=
  let (files, file) := index.files.insert path
  ⟨files, index.symbols.addFile file names⟩

end ProjectIndex

end ImportHeader
