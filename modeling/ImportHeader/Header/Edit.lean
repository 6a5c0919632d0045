import ImportHeader.Error
import ImportHeader.Header.Region
import ImportHeader.Parser.File
import ImportHeader.Printer

/-! Edits of the imports of one file. They change the tree only; at the end the header is
printed and put before the body of the source, which stays as it is.
-/

namespace ImportHeader

/-- A file under edit. New imports go to the place `insertAt` of the import scope, behind
those already `inserted`. The `preceding` statements of the scope stood before its imports
and stay part of the header even if none is left.
-/
structure Edit where
  file : SourceFile
  source : Text
  region? : Option HeaderRegion
  insertAt : Nat
  inserted : Nat
  preceding : Nat
deriving Inhabited

namespace SourceFile

/-- The place of the first import among statements. -/
def firstImport? (stmts : List Stmt) : Option Nat :=
  stmts.findIdx? Stmt.isImport

/-- Where imports go in a file that has none: to the top of its namespace, or behind the
leading directives.
-/
def scopeTop (file : SourceFile) : Nat :=
  match file.firstNamespace? with
  | some _ => 0
  | none => ((file.items.filterMap Item.stmt?).takeWhile Stmt.isDeclare).length

end SourceFile

/-- The full name of a statement that imports one class only, under one of the given
aliases.
-/
def Stmt.importUnder? (aliases : List Text) (stmt : Stmt) : Option Name :=
  match stmt.declaration? with
  | some declaration =>
      match declaration.items with
      | [item] =>
          if declaration.itemKind item == .classLike
              && aliases.any (Text.sameFolded item.bound) then
            some (declaration.fullName item)
          else
            none
      | _ => none
  | none => none

/-- The statement that imports one class. -/
def Stmt.ofImport (name : Name) : Stmt :=
  { kind := .importing (.single name) }

/-- The place of a statement in the order of imports. -/
def Stmt.sortKey (stmt : Stmt) : SortKey :=
  match stmt.declaration? with
  | some declaration => declaration.sortKey
  | none => ⟨0, []⟩

/-- Whether each key of a list goes before the next one, or equals it. -/
def SortKey.ordered : List SortKey → Bool
  | [] => true
  | [_] => true
  | head :: next :: rest => head.le next && ordered (next :: rest)

/-- The check of neighbours is one of all pairs. -/
theorem SortKey.ordered_iff {keys : List SortKey}
    : ordered keys = true ↔ keys.Pairwise fun left right => left.le right = true := by
  induction keys with
  | nil => exact iff_of_true rfl .nil
  | cons key keys ih =>
      cases keys with
      | nil => exact iff_of_true rfl (List.pairwise_singleton ..)
      | cons next keys =>
          rw [ordered, Bool.and_eq_true, ih]
          constructor
          · rintro ⟨here, later⟩
            refine List.pairwise_cons.mpr ⟨fun other listed => ?_, later⟩
            rcases List.mem_cons.mp listed with rfl | behind
            · exact here
            · exact le_trans key next other here (List.rel_of_pairwise_cons later behind)
          · intro sorted
            obtain ⟨first, later⟩ := List.pairwise_cons.mp sorted
            exact ⟨first next List.mem_cons_self, later⟩

/-- The line ending of the first line of a source. -/
def lineEnding (source : Text) : Text :=
  match source.lines with
  | first :: _ :: _ => if first.getLast? = some '\r' then ['\r', '\n'] else ['\n']
  | _ => ['\n']

/-- Puts the first lines of a printed file, through `printedEnd`, before the lines of a source
behind `sourceEnd`, with an empty line between them. Blank lines at the start of what
follows are left out, and the rest keeps its line endings.
-/
def splice (printed : Text) (printedEnd : Nat) (source : Text) (sourceEnd : Nat) : Text :=
  let ending := lineEnding source
  let header := (printed.lines.take (printedEnd + 1)).map Text.withoutReturn
  let body := (source.lines.drop (sourceEnd + 1)).dropWhile Text.allBlank
  let rest : Text := if body.isEmpty then [] else ending ++ List.intercalate ['\n'] body
  List.intercalate ending header ++ ending ++ rest

namespace Edit

/-- Starts an edit of a file that was parsed from the given source. -/
def start (file : SourceFile) (source : Text) : Except StructureError Edit := do
  file.checkStructure
  let first? := SourceFile.firstImport? file.importScope
  return {
    file
    source
    region? := file.headerRegion?
    insertAt := first?.getD file.scopeTop
    inserted := 0
    preceding := first?.getD 0 }

/-- The import declarations in their current order. -/
def imports (edit : Edit) : List Import :=
  edit.file.imports

/-- Whether a class with exactly this name is imported. -/
def isImported (edit : Edit) (name : Name) : Bool :=
  edit.imports.any (·.binds name .classLike)

/-- Whether an import of a class binds this local name. -/
def isBound (edit : Edit) (bound : Text) : Bool :=
  edit.imports.any fun declaration =>
    declaration.classItems.any (Text.sameFolded ·.bound bound)

/-- An edit with other statements in its import scope. -/
def withScope (edit : Edit) (stmts : List Stmt) : Edit :=
  { edit with file := edit.file.withImportScope stmts }

/-- The names of the imports that `remove` takes out. -/
def removable (edit : Edit) (aliases : List Text) : List Name :=
  edit.file.importScope.filterMap (Stmt.importUnder? aliases)

/-- Takes out the statements that import one class only, under one of the given aliases. -/
def remove (edit : Edit) (aliases : List Text) : Edit :=
  edit.withScope <|
    edit.file.importScope.filter fun stmt => (stmt.importUnder? aliases).isNone

/-- Puts in an import of a class that is not imported yet. -/
def add (edit : Edit) (name : Name) : Edit :=
  if edit.isImported name then
    edit
  else
    let scope := edit.file.importScope
    let place := min (edit.insertAt + edit.inserted) scope.length
    let stmts := scope.take place ++ Stmt.ofImport name :: scope.drop place
    { edit.withScope stmts with inserted := edit.inserted + 1 }

/-- Whether the imports are in order. -/
def isSorted (edit : Edit) : Bool :=
  SortKey.ordered (edit.imports.map Import.sortKey)

/-- The imports are in order if the key of each goes before those of all imports behind it. -/
theorem isSorted_iff {edit : Edit}
    : edit.isSorted = true
      ↔ edit.imports.Pairwise fun left right => left.sortKey.le right.sortKey = true := by
  rw [isSorted, SortKey.ordered_iff, List.pairwise_map]

/-- Puts the imports in order, as one run at the place of the first. Equal ones keep their
order.
-/
def sort (edit : Edit) : Edit :=
  let scope := edit.file.importScope
  match SourceFile.firstImport? scope with
  | none => edit
  | some first =>
      let imports := scope.filter Stmt.isImport
      let others := scope.filter fun stmt => !stmt.isImport
      let sorted := imports.mergeSort fun left right => left.sortKey.le right.sortKey
      edit.withScope (others.take first ++ sorted ++ others.drop first)

/-- The last line of the header of a printed file, counting the statements that stood before
the imports.
-/
def printedEnd (edit : Edit) (printed : SourceFile) : Nat :=
  let last := printed.headerRegion?.elim 0 HeaderRegion.line
  match edit.preceding with
  | 0 => last
  | before + 1 =>
      match printed.importScope[before]?.bind Stmt.span? with
      | some span => max (printed.lines.endLine span) last
      | none => last

/-- The source with the edited header. A file without code stays as it is. -/
def finish (edit : Edit) : Except Error Text :=
  match edit.region? with
  | none => return edit.source
  | some region => do
      (edit.file.checkHeaderLine edit.source region).mapError .header
      let printed := edit.file.print
      let reparsed ← (parse printed).mapError .parse
      return splice printed (edit.printedEnd reparsed) edit.source region.line

end Edit

/-- Removes the imports under the given aliases, adds the given names, and puts the imports in
order.
-/
def Edit.apply (edit : Edit) (names : List Name) (aliases : List Text) : Edit :=
  (names.foldl add (edit.remove aliases)).sort

/-- The source of a file with its imports edited. -/
def editImports (file : SourceFile) (names : List Name) (aliases : List Text) (source : Text)
    : Except Error Text := do
  let edit ← (Edit.start file source).mapError .header
  (edit.apply names aliases).finish

end ImportHeader
