import ImportHeader.Import

/-! The tree of a source file. Declarations and imports are kept exactly; of everything
else only the expressions that mention class names are kept, beside the verbatim text of the
statement that holds them.
-/

namespace ImportHeader

/-- A name and the bytes where it is written. What is written has a segment. -/
structure LocatedName where
  name : Name
  span : Span
  named : name.segments ≠ []
deriving DecidableEq

instance : Inhabited LocatedName := ⟨⟨[[]], .unqualified⟩, default, List.cons_ne_nil _ _⟩

/-- The name that a text spells at a place. -/
def LocatedName.read? (text : Text) (span : Span) : Option LocatedName :=
  match read : Name.ofText? text with
  | some name => some ⟨name, span, Name.segments_ne_nil_of_ofText? read⟩
  | none => none

theorem LocatedName.span_of_read? {text : Text} {span : Span} {located : LocatedName}
    (read : read? text span = some located)
    : located.span = span := by
  unfold read? at read
  split at read
  · cases read
    rfl
  · cases read

@[simp] theorem LocatedName.map_name_read? (text : Text) (span : Span)
    : (read? text span).map name = Name.ofText? text := by
  unfold read?
  split
  · rename_i read
    exact read.symm
  · rename_i absent
    exact absent.symm

/-- The class names of a written type, without the built-in types. -/
abbrev TypeHint := List LocatedName

/-- A parameter of a function; `ε` is the type of the expressions inside it. -/
structure Param (ε : Type) where
  name : Text
  attributes : List ε
  type? : Option TypeHint
  default : List ε

/-- A function, method, closure or arrow function. -/
structure Function (ε : Type) where
  name? : Option Text
  attributes : List ε
  params : List (Param ε)
  returnType? : Option TypeHint
  body : List ε

/-- A member of a class: a method, a trait use, a property, or any other, of which only the
expressions are kept.
-/
inductive Member (ε : Type) where
  | method (function : Function ε)
  | traitUse (traits : List LocatedName) (adaptations : List ε)
  | property (attributes : List ε) (type? : Option TypeHint) (initializer : List ε)
  | other (exprs : List ε)

/-- The kinds of class declaration. -/
inductive ClassKind where
  | plain
  | interface
  | trait
  | enumeration
deriving DecidableEq, Inhabited

/-- A class, interface, trait or enumeration. One without a name is an anonymous class,
which can have constructor arguments.
-/
structure ClassLike (ε : Type) where
  kind : ClassKind
  name? : Option Text
  attributes : List ε
  parents : List LocatedName
  interfaces : List LocatedName
  arguments : List ε
  members : List (Member ε)

/-- The expressions that mention class names, and those that hold such expressions. -/
inductive Expr where
  | new (target : LocatedName) (arguments : List Expr)
  | staticAccess (target : LocatedName)
  | instanceOf (target : LocatedName)
  | catches (targets : List LocatedName)
  | attr (target : LocatedName) (arguments : List Expr)
  | qualifiedUse (target : LocatedName)
  | closure (function : Function Expr)
  | classLike (declaration : ClassLike Expr)
deriving Inhabited

/-- What a statement is. -/
inductive StmtKind where
  | declare (exprs : List Expr)
  | importing (declaration : Import)
  | classLike (declaration : ClassLike Expr)
  | function (declaration : Function Expr)
  | other (exprs : List Expr)
deriving Inhabited

/-- A statement with its text and the comments attached to it. An import that was not read
from a source has no place and an empty text.
-/
structure Stmt where
  kind : StmtKind
  span? : Option Span := none
  text : Text := []
  comments : List Text := []
  trailing? : Option Text := none
deriving Inhabited

namespace Stmt

/-- The import that a statement is. -/
def declaration? (stmt : Stmt) : Option Import :=
  match stmt.kind with
  | .importing declaration => some declaration
  | _ => none

/-- Whether a statement is an import. -/
def isImport (stmt : Stmt) : Bool :=
  stmt.declaration?.isSome

/-- Whether a statement is a `declare` directive. -/
def isDeclare (stmt : Stmt) : Bool :=
  match stmt.kind with
  | .declare _ => true
  | _ => false

end Stmt

/-- A namespace declaration with the statements under it, up to the next declaration or,
in the braced form, up to the closing brace. The statements are no items, so the type itself
excludes a namespace within another. Only the braced form can lack a name. The text is the one
that was read, also where the statements are replaced.
-/
structure Namespace where
  name? : Option LocatedName
  braced : Bool
  header : Span
  headerComment? : Option Text
  stmts : List Stmt
  span : Span
  text : Text
  comments : List Text
deriving Inhabited

/-- What stands at the top level of a file: a statement, or a namespace. Only here a namespace can
stand, since a namespace holds statements and a statement holds no item.
-/
inductive Item where
  | plain (stmt : Stmt)
  | scope (space : Namespace)
deriving Inhabited

/-- The open tag at which the code of a file starts, with a comment on its line. -/
structure OpenTag where
  text : Text
  span : Span
  comment? : Option Text
deriving DecidableEq, Inhabited

/-- A parsed source. Without an open tag it has no code. -/
structure SourceFile where
  markup? : Option Text
  openTag? : Option OpenTag
  items : List Item
  docComments : List Text
  lines : LineIndex
deriving Inhabited

namespace Item

/-- The statement at the top level. -/
def stmt? : Item → Option Stmt
  | .plain stmt => some stmt
  | .scope _ => none

/-- The namespace at the top level. -/
def space? : Item → Option Namespace
  | .plain _ => none
  | .scope space => some space

end Item

namespace SourceFile

/-- Whether a file has code at all. -/
def hasCode (file : SourceFile) : Bool :=
  file.openTag?.isSome

/-- The first namespace of a file. -/
def firstNamespace? (file : SourceFile) : Option Namespace :=
  file.items.findSome? Item.space?

/-- The statements that share a scope with the imports: those of the first namespace, or
all of a file without one.
-/
def importScope (file : SourceFile) : List Stmt :=
  match file.firstNamespace? with
  | some space => space.stmts
  | none => file.items.filterMap Item.stmt?

/-- The import declarations of the import scope. -/
def imports (file : SourceFile) : List Import :=
  file.importScope.filterMap Stmt.declaration?

/-- The items with the statements of the first namespace replaced. -/
def replaceInFirst (stmts : List Stmt) : List Item → List Item
  | [] => []
  | .plain stmt :: rest => .plain stmt :: replaceInFirst stmts rest
  | .scope space :: rest => .scope { space with stmts } :: rest

/-- A file with other statements in its import scope. -/
def withImportScope (file : SourceFile) (stmts : List Stmt) : SourceFile :=
  match file.firstNamespace? with
  | some _ => { file with items := replaceInFirst stmts file.items }
  | none => { file with items := stmts.map .plain }

end SourceFile

end ImportHeader
