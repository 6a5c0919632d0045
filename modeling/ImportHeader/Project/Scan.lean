import ImportHeader.Parser.File
import ImportHeader.Project.FileTree
import ImportHeader.Project.SourceTable

/-! The search for classes in the source directories of a project. -/

namespace ImportHeader

/-- The class that a statement declares, below a namespace if there is one. -/
def Stmt.declared? (space? : Option Name) (stmt : Stmt) : Option Name := do
  match stmt.kind with
  | .classLike declaration =>
      let short ← Name.ofText? (← declaration.name?)
      return space?.elim short (· ++ short)
  | _ => none

/-- Only a class with a name that can be read declares one: that name, below the namespace. -/
theorem Stmt.declared?_eq_some {space? : Option Name} {stmt : Stmt} {name : Name}
    : stmt.declared? space? = some name
      ↔ ∃ declaration text short,
          stmt.kind = .classLike declaration
          ∧ declaration.name? = some text
          ∧ Name.ofText? text = some short
          ∧ name = space?.elim short (· ++ short) := by
  unfold declared?
  split
  · rename_i declaration kind
    constructor
    · intro declared
      obtain ⟨text, named, found⟩ := Option.bind_eq_some_iff.mp declared
      obtain ⟨short, read, same⟩ := Option.bind_eq_some_iff.mp found
      exact ⟨declaration, text, short, kind, named, read, (Option.some.inj same).symm⟩
    · rintro ⟨other, text, short, same, named, read, rfl⟩
      obtain rfl := StmtKind.classLike.inj (kind.symm.trans same)
      exact Option.bind_eq_some_iff.mpr
        ⟨text, named, Option.bind_eq_some_iff.mpr ⟨short, read, rfl⟩⟩
  · rename_i other
    refine iff_of_false nofun ?_
    rintro ⟨declaration, _, _, kind, _⟩
    exact other declaration kind

/-- The classes that an item of the top level declares. -/
def Item.declared : Item → List Name
  | .plain stmt => (stmt.declared? none).toList
  | .scope space =>
      space.stmts.filterMap (Stmt.declared? (space.name?.map LocatedName.name))

/-- The full names of the classes declared at the top level of a file or its namespaces. -/
def SourceFile.declared (file : SourceFile) : List Name :=
  file.items.flatMap Item.declared

/-- A file declares what its statements declare, those at the top level below no namespace, and the
others below the one that holds them.
-/
theorem SourceFile.mem_declared_iff {file : SourceFile} {name : Name}
    : name ∈ file.declared
      ↔ (∃ stmt, .plain stmt ∈ file.items ∧ stmt.declared? none = some name)
        ∨ ∃ space stmt,
            .scope space ∈ file.items
            ∧ stmt ∈ space.stmts
            ∧ stmt.declared? (space.name?.map LocatedName.name) = some name := by
  rw [declared, List.mem_flatMap]
  constructor
  · rintro ⟨item, listed, found⟩
    cases item with
    | plain stmt => exact .inl ⟨stmt, listed, Option.mem_toList.mp found⟩
    | scope space =>
        obtain ⟨stmt, inside, here⟩ := List.mem_filterMap.mp found
        exact .inr ⟨space, stmt, listed, inside, here⟩
  · rintro (⟨stmt, listed, here⟩ | ⟨space, stmt, listed, inside, here⟩)
    · exact ⟨.plain stmt, listed, Option.mem_toList.mpr here⟩
    · exact ⟨.scope space, listed, List.mem_filterMap.mpr ⟨stmt, inside, here⟩⟩

namespace FileTree

/-- Directories that a search does not enter: hidden ones and those of dependencies. -/
def isExcluded (name : Text) : Bool :=
  name.head? == some '.' || name == "vendor".toList || name == "node_modules".toList

/-- Whether a file name has the extension of a source. -/
def isSource (name : Text) : Bool :=
  ".php".toList.isSuffixOf name && name.length > 4

/-- The extension stands behind a name that is not empty. -/
theorem isSource_iff {name : Text}
    : isSource name = true ↔ ∃ stem, stem ≠ [] ∧ name = stem ++ ".php".toList := by
  rw [isSource, Bool.and_eq_true, List.isSuffixOf_iff_suffix, decide_eq_true_iff]
  constructor
  · rintro ⟨⟨stem, rfl⟩, longer⟩
    refine ⟨stem, ?_, rfl⟩
    rintro rfl
    exact absurd longer (by decide)
  · rintro ⟨stem, some, rfl⟩
    refine ⟨⟨stem, rfl⟩, ?_⟩
    have longer := List.length_pos_iff.mpr some
    rw [List.length_append]
    exact Nat.lt_add_of_pos_left longer

/-- Whether a search of a directory finds the file at a location below it. -/
def isFound (location : Location) : Bool :=
  location.getLast?.any isSource && !location.dropLast.any isExcluded

/-- The sources below a directory; none if there is no such directory. -/
def sourcesIn (tree : FileTree) (directory : Path) : List Path :=
  if tree.isDirectory directory then
    match tree.locate directory with
    | .ok location =>
        ((tree.filesBelow location).filter isFound).map fun file =>
          file.foldl (fun path name => path.join ⟨name⟩) directory
    | .error _ => []
  else
    []

/-- Paths in order, each once, in its first spelling. -/
def sortedPaths (paths : List Path) : List Path :=
  distinct (paths.mergeSort Path.le)
where
  /-- Sorted paths without further spellings of a path. -/
  distinct : List Path → List Path
    | [] => []
    | path :: rest =>
        match distinct rest with
        | [] => [path]
        | next :: others => if path.same next then path :: others else path :: next :: others

/-- The classes that the file at a path declares, if it can be read and parsed. -/
def declaredIn? (tree : FileTree) (path : Path) : Option (List Name) := do
  let source ← (tree.readText path).toOption
  let file ← (parse source).toOption
  return file.declared

/-- Searches the given directories below a root. Files are numbered in the order of their
paths, and those that cannot be read or parsed are left out.
-/
def scan (tree : FileTree) (root : Path) (directories : List Path) : ProjectIndex :=
  let paths := sortedPaths (directories.flatMap fun directory =>
    tree.sourcesIn (root.join directory))
  paths.foldl (fun index path => (tree.declaredIn? path).elim index (index.setFile path))
    .empty

end FileTree

end ImportHeader
